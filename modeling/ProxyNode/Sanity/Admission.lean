import ProxyNode.Base.Journal
import ProxyNode.Spec.Puller
import ProxyNode.Sanity.Arrivals

/-! What admission can do to a pulling socket: it touches the clock, the log and the store
only, it takes an initial part of the ops it is given, and every op of that part whose
signer is known ends up in the log. -/

namespace ProxyNode

open Journal List Option

variable {H : Host}

namespace CoverageVector

variable {key : OrderKey}

theorem covers_iff {c : CoverageVector} :
    c.covers key = true ↔ ∃ claim, c.claims.get? key.device = some claim ∧ key ≤ claim := by
  simp [covers, Option.any_eq_true]

theorem get?_advance_of_ne (c : CoverageVector) {origin o : DeviceId} (h : key.device = origin) (ho : o ≠ origin) :
    (c.advance origin key h).claims.get? o = c.claims.get? o := by
  rw [advance, SortedMap.get?_upsert, if_neg ho]

/-- Raising a claim covers the keys of its origin up to the new one, and nothing else. -/
theorem covers_advance {c : CoverageVector} {origin : DeviceId} {x : OrderKey} (h : key.device = origin) :
    (c.advance origin key h).covers x = true ↔ c.covers x = true ∨ (x.device = origin ∧ x ≤ key) := by
  by_cases hx : x.device = origin
  · simp only [covers_iff, advance, SortedMap.get?_upsert, hx, if_pos, some.injEq, true_and]
    cases hc : c.claims.get? origin with
    | none => simp
    | some claim =>
      simp only [map_some, getD_some, exists_eq_left', some.injEq]
      split_ifs with hlt
      · exact ⟨.inr, fun h => h.elim (fun h => h.trans hlt.le) (fun h => h)⟩
      · exact ⟨.inl, fun h => h.elim (fun h => h) (fun h => h.trans (not_lt.1 hlt))⟩
  · rw [covers_iff, get?_advance_of_ne c h hx, covers_iff]
    simp [hx]

end CoverageVector

/-! ## Effects -/

def Effect.Quiet : Effect H → Prop
  | .clock _ | .append _ | .replay => True
  | .saveRelayCursor _ _ | .resetRelayCursor _ _ | .advanceLocalCoverage _ _ _ => False

namespace OpLogPullSocket

variable {p : OpLogPullSocket H} {effects : List (Effect H)}

@[simp] theorem after_nil (p : OpLogPullSocket H) : p.after [] = p := rfl

@[simp] theorem after_cons (p : OpLogPullSocket H) (e : Effect H) (es : List (Effect H)) :
    p.after (e :: es) = (p.perform e).after es := rfl

theorem after_append (p : OpLogPullSocket H) (es fs : List (Effect H)) :
    p.after (es ++ fs) = (p.after es).after fs :=
  foldl_append

variable {P : OpLogPullSocket H → Prop} {p : OpLogPullSocket H}

theorem along_append_iff {es fs : List (Effect H)} :
    Along perform P p (es ++ fs) ↔ Along perform P p es ∧ Along perform P (p.after es) fs :=
  along_append

theorem along_singleton {e : Effect H} :
    Along perform P p [e] ↔ P p ∧ P (p.perform e) :=
  along_cons.trans (and_congr_right fun _ => along_nil)

theorem after_of_along {es : List (Effect H)} (h : Along perform P p es) : P (p.after es) :=
  h.final

@[simp] theorem perform_registry (p : OpLogPullSocket H) (e : Effect H) :
    (p.perform e).registry = p.registry := by
  cases e <;> rfl

@[simp] theorem after_registry (p : OpLogPullSocket H) (es : List (Effect H)) :
    (p.after es).registry = p.registry := by
  induction es generalizing p with
  | nil => rfl
  | cons e es ih => rw [after_cons, ih, perform_registry]

theorem perform_log_extends (p : OpLogPullSocket H) (e : Effect H) : p.log.Extends (p.perform e).log := by
  cases e with
  | append op => exact p.log.extends_append op
  | _ => exact .refl _

theorem after_log_extends (p : OpLogPullSocket H) (es : List (Effect H)) :
    p.log.Extends (p.after es).log := by
  induction es generalizing p with
  | nil => exact .refl _
  | cons e es ih => exact (p.perform_log_extends e).trans (ih _)

theorem perform_quiet {e : Effect H} (he : e.Quiet) :
    (p.perform e).coverage = p.coverage ∧ (p.perform e).cursors = p.cursors := by
  cases e with
  | clock _ | append _ | replay => exact ⟨rfl, rfl⟩
  | saveRelayCursor _ _ | resetRelayCursor _ _ | advanceLocalCoverage _ _ _ => exact he.elim

theorem after_quiet (he : ∀ e ∈ effects, e.Quiet) :
    (p.after effects).coverage = p.coverage ∧ (p.after effects).cursors = p.cursors := by
  induction effects generalizing p with
  | nil => exact ⟨rfl, rfl⟩
  | cons e es ih =>
    obtain ⟨h1, h2⟩ := perform_quiet (p := p) (he e mem_cons_self)
    obtain ⟨h3, h4⟩ := ih (p := p.perform e) fun f hf => he f (mem_cons_of_mem _ hf)
    exact ⟨h3.trans h1, h4.trans h2⟩

/-! ## The admission loop -/

variable {skip : Bool} {op : SignedOp} {ops : List SignedOp}

/-- One turn of the loop stops, skips the op, or admits it. -/
theorem admitLoop_cons (skip : Bool) (op : SignedOp) (ops : List SignedOp) (p : OpLogPullSocket H) :
    (∃ e, admitLoop skip (op :: ops) p = ⟨[], 0, false, some e⟩) ∨
    (skip = true ∧ p.registry.keyFor op.body.device = none ∧
      admitLoop skip (op :: ops) p =
        { admitLoop skip ops p with admitted := (admitLoop skip ops p).admitted + 1 }) ∨
    (∃ key clock, p.registry.keyFor op.body.device = some key ∧
      op.verify H.crypto key = .ok () ∧ H.clockUpdate p.clock op.body.hlc op.body.device = .ok clock ∧
      admitLoop skip (op :: ops) p =
        let rest := admitLoop skip ops (p.after [.clock clock, .append op])
        ⟨.clock clock :: .append op :: rest.effects, rest.admitted + 1,
          (p.log.append op).2 || rest.appended, rest.error⟩) := by
  cases hk : p.registry.keyFor op.body.device with
  | none =>
    cases skip with
    | true => exact .inr (.inl ⟨rfl, rfl, by simp only [admitLoop, hk, if_true]⟩)
    | false => exact .inl ⟨_, by simp only [admitLoop, hk, Bool.false_eq_true, if_false]; rfl⟩
  | some key =>
    cases hv : op.verify H.crypto key with
    | error e => exact .inl ⟨_, by simp only [admitLoop, hk, hv]; rfl⟩
    | ok u =>
      cases hc : H.clockUpdate p.clock op.body.hlc op.body.device with
      | error e => exact .inl ⟨_, by simp only [admitLoop, hk, hv, hc]; rfl⟩
      | ok clock =>
        refine .inr (.inr ⟨key, clock, rfl, hv, rfl, ?_⟩)
        simp only [admitLoop, hk, hv, hc, cons_append, nil_append]

theorem admitLoop_quiet : ∀ e ∈ (admitLoop skip ops p).effects, e.Quiet := by
  induction ops generalizing p with
  | nil => simp [admitLoop]
  | cons op ops ih =>
    rcases admitLoop_cons skip op ops p with ⟨e, h⟩ | ⟨-, -, h⟩ | ⟨key, clock, -, -, -, h⟩
    · simp [h]
    · rw [h]; exact ih
    · rw [h]
      intro e he
      rcases mem_cons.1 he with rfl | he
      · trivial
      · rcases mem_cons.1 he with rfl | he
        · trivial
        · exact ih e he

theorem admitLoop_admitted_le : (admitLoop skip ops p).admitted ≤ ops.length := by
  induction ops generalizing p with
  | nil => simp [admitLoop]
  | cons op ops ih =>
    rcases admitLoop_cons skip op ops p with ⟨e, h⟩ | ⟨-, -, h⟩ | ⟨key, clock, -, -, -, h⟩
    · simp [h]
    · rw [h]; exact Nat.succ_le_succ ih
    · rw [h]; exact Nat.succ_le_succ ih

theorem admitLoop_admitted_eq (he : (admitLoop skip ops p).error = none) :
    (admitLoop skip ops p).admitted = ops.length := by
  induction ops generalizing p with
  | nil => rfl
  | cons op ops ih =>
    rcases admitLoop_cons skip op ops p with ⟨e, h⟩ | ⟨-, -, h⟩ | ⟨key, clock, -, -, -, h⟩
    · rw [h] at he; cases he
    · rw [h] at he ⊢; exact congrArg (· + 1) (ih he)
    · rw [h] at he ⊢; exact congrArg (· + 1) (ih he)

variable {x : SignedOp}

/-- An admitted op of a known signer is in the log afterwards. -/
theorem admitLoop_contains (hx : x ∈ ops.take (admitLoop skip ops p).admitted)
    (hk : (p.registry.keyFor x.body.device).isSome) :
    (p.after (admitLoop skip ops p).effects).log.contains x.id = true := by
  induction ops generalizing p with
  | nil => simp at hx
  | cons op ops ih =>
    rcases admitLoop_cons skip op ops p with ⟨e, h⟩ | ⟨-, hn, h⟩ | ⟨key, clock, hs, -, -, h⟩
    · simp [h] at hx
    · rw [h] at hx ⊢
      rcases mem_cons.1 (take_succ_cons ▸ hx) with rfl | hx
      · rw [hn] at hk; cases hk
      · exact ih hx hk
    · rw [h] at hx ⊢
      rcases mem_cons.1 (take_succ_cons ▸ hx) with rfl | hx
      · refine (after_log_extends (p.after [.clock clock, .append x]) _).contains ?_
        exact OpLog.contains_append.2 (.inr rfl)
      · refine ih hx ?_
        simpa using hk

/-- Without skipping, only ops of known signers are admitted. -/
theorem admitLoop_known (hx : x ∈ ops.take (admitLoop false ops p).admitted) :
    (p.registry.keyFor x.body.device).isSome := by
  induction ops generalizing p with
  | nil => simp at hx
  | cons op ops ih =>
    rcases admitLoop_cons false op ops p with ⟨e, h⟩ | ⟨hf, -, h⟩ | ⟨key, clock, hs, -, -, h⟩
    · simp [h] at hx
    · cases hf
    · rw [h] at hx
      rcases mem_cons.1 (take_succ_cons ▸ hx) with rfl | hx
      · simp [hs]
      · simpa using ih hx

theorem admitLoop_mem (hx : x ∈ (p.after (admitLoop skip ops p).effects).log.arrivals) :
    x ∈ p.log.arrivals ∨ x ∈ ops := by
  induction ops generalizing p with
  | nil => exact .inl hx
  | cons op ops ih =>
    rcases admitLoop_cons skip op ops p with ⟨e, h⟩ | ⟨-, -, h⟩ | ⟨key, clock, -, -, -, h⟩
    · rw [h] at hx; exact .inl hx
    · rw [h] at hx; exact (ih hx).imp_right (mem_cons_of_mem _)
    · rw [h] at hx
      rcases ih hx with hx | hx
      · rcases OpLog.mem_arrivals_append hx with hx | rfl
        · exact .inl hx
        · exact .inr mem_cons_self
      · exact .inr (mem_cons_of_mem _ hx)

/-! ## `admit_ops` -/

theorem admitOps_effects (p : OpLogPullSocket H) (ops : List SignedOp) (skip : Bool) :
    (p.admitOps ops skip).effects = (admitLoop skip ops p).effects ∨
      (p.admitOps ops skip).effects = (admitLoop skip ops p).effects ++ [.replay] := by
  unfold admitOps
  dsimp only
  split_ifs
  · exact .inr rfl
  · exact .inl rfl

@[simp] theorem admitOps_admitted : (p.admitOps ops skip).admitted = (admitLoop skip ops p).admitted := by
  unfold admitOps
  dsimp only
  split_ifs <;> rfl

@[simp] theorem admitOps_claimSafe :
    (p.admitOps ops skip).claimSafe = (admitLoop skip ops p).admitted := by
  unfold admitOps
  dsimp only
  split_ifs <;> rfl

theorem admitOps_quiet : ∀ e ∈ (p.admitOps ops skip).effects, e.Quiet := by
  rcases admitOps_effects p ops skip with h | h
  · rw [h]; exact admitLoop_quiet
  · rw [h]
    intro e he
    rcases mem_append.1 he with he | he
    · exact admitLoop_quiet e he
    · rw [mem_singleton.1 he]; trivial

theorem admitOps_coverage (p : OpLogPullSocket H) (ops : List SignedOp) (skip : Bool) :
    (p.after (p.admitOps ops skip).effects).coverage = p.coverage :=
  (after_quiet admitOps_quiet).1

@[simp] theorem admitOps_log :
    (p.after (p.admitOps ops skip).effects).log = (p.after (admitLoop skip ops p).effects).log := by
  rcases admitOps_effects p ops skip with h | h
  · rw [h]
  · rw [h, after_append]; rfl

@[simp] theorem admitOps_clock :
    (p.after (p.admitOps ops skip).effects).clock = (p.after (admitLoop skip ops p).effects).clock := by
  rcases admitOps_effects p ops skip with h | h
  · rw [h]
  · rw [h, after_append]; rfl

theorem admitOps_loop_error (he : (p.admitOps ops skip).error = none) :
    (admitLoop skip ops p).error = none := by
  unfold admitOps at he
  dsimp only at he
  split_ifs at he
  · cases hr : (H.store.replay (p.after (admitLoop skip ops p).effects).log
        (p.after (admitLoop skip ops p).effects).store).2 with
    | none => rw [hr] at he; exact he
    | some e => rw [hr] at he; cases he
  · exact he

/-- Without skipping, every op of the admitted part is in the log afterwards. -/
theorem admitOps_contains (hx : x ∈ ops.take (p.admitOps ops false).admitted) :
    (p.after (p.admitOps ops false).effects).log.contains x.id = true := by
  rw [admitOps_log]
  rw [admitOps_admitted] at hx
  exact admitLoop_contains hx (admitLoop_known hx)

theorem admitOps_all (he : (p.admitOps ops skip).error = none) :
    (p.admitOps ops skip).admitted = ops.length := by
  rw [admitOps_admitted]
  exact admitLoop_admitted_eq (admitOps_loop_error he)

end OpLogPullSocket

end ProxyNode
