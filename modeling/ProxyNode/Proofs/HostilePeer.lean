import ProxyNode.Sanity.Drain

/-! What a peer can do to a puller that drains it, when nothing is assumed of the peer: its
pages, its previews and its stream state are arbitrary at every request. -/

namespace ProxyNode

open OpLogPullSocket List

variable {H : Host} {peer : DeviceId} {p q r : OpLogPullSocket H}

/-- The op verifies under the key registered for the device it names. -/
def Attested (registry : DeviceRegistry H.crypto) (op : SignedOp) : Prop :=
  ∃ key, registry.keyFor op.body.device = some key ∧ op.verify H.crypto key = .ok ()

/-- From `p` to `q` the log lost nothing and gained attested ops only, a claim that moved
stands at the key of an attested op that is held, and other peers' cursors stayed. -/
structure Contained (peer : DeviceId) (p q : OpLogPullSocket H) : Prop where
  registry : q.registry = p.registry
  kept : p.log.Extends q.log
  ops : ∀ op ∈ q.log.arrivals, op ∈ p.log.arrivals ∨ Attested p.registry op
  claims : ∀ origin key, q.coverage.claims.get? origin = some key →
    p.coverage.claims.get? origin = some key ∨
      ∃ op, Attested p.registry op ∧ q.log.contains op.id = true ∧ op.orderKey = key
  cursors : ∀ other, other ≠ peer → q.cursors.get? other = p.cursors.get? other

namespace Contained

theorem trans (h : Contained peer p q) (h' : Contained peer q r) : Contained peer p r where
  registry := h'.registry.trans h.registry
  kept := h.kept.trans h'.kept
  ops := fun op hop => (h'.ops op hop).elim (h.ops op) fun ha => .inr (h.registry ▸ ha)
  claims := fun origin key hk => by
    rcases h'.claims origin key hk with hk | ⟨op, ha, hin, he⟩
    · refine (h.claims origin key hk).imp_right ?_
      rintro ⟨op, ha, hin, he⟩
      exact ⟨op, ha, h'.kept.contains hin, he⟩
    · exact .inr ⟨op, h.registry ▸ ha, hin, he⟩
  cursors := fun other ho => (h'.cursors other ho).trans (h.cursors other ho)

theorem of_cursors (hr : q.registry = p.registry) (hl : q.log = p.log) (hc : q.coverage = p.coverage)
    (hs : ∀ other, other ≠ peer → q.cursors.get? other = p.cursors.get? other) : Contained peer p q :=
  ⟨hr, hl ▸ .refl _, fun _ => hl ▸ .inl, fun _ _ => hc ▸ .inl, hs⟩

theorem refl (p : OpLogPullSocket H) : Contained peer p p := of_cursors rfl rfl rfl fun _ _ => rfl

theorem save (p : OpLogPullSocket H) (cursor : RelayCursor) :
    Contained peer p (p.perform (.saveRelayCursor peer cursor)) :=
  of_cursors rfl rfl rfl fun _ ho => (SortedMap.get?_upsert ..).trans (if_neg ho)

theorem append {op : SignedOp} {clock : H.Clock} (h : Attested p.registry op) :
    Contained peer p (p.after [.clock clock, .append op]) where
  registry := rfl
  kept := p.log.extends_append op
  ops := fun x hx => (OpLog.mem_arrivals_append hx).imp_right fun (hx : x = op) => hx ▸ h
  claims := fun _ _ => .inl
  cursors := fun _ _ => rfl

theorem claim {op : SignedOp} {origin : DeviceId} (h : Attested p.registry op) (hin : p.log.contains op.id = true)
    (ho : op.orderKey.device = origin) :
    Contained peer p (p.perform (.advanceLocalCoverage origin op.orderKey ho)) where
  registry := rfl
  kept := .refl _
  ops := fun _ => .inl
  claims := fun o key hk => by
    simp only [perform, CoverageVector.advance, SortedMap.get?_upsert] at hk
    split_ifs at hk with heq
    · subst heq
      cases hc : p.coverage.claims.get? o with
      | none => exact .inr ⟨op, h, hin, by simpa [hc] using hk⟩
      | some old =>
        rw [hc, Option.map_some, Option.getD_some, Option.some.injEq] at hk
        split_ifs at hk
        · exact .inr ⟨op, h, hin, hk⟩
        · exact .inl (congrArg some hk)
    · exact .inl hk
  cursors := fun _ _ => rfl

end Contained

/-! ## A page -/

variable {ops : List SignedOp} {cur : RelayCursor} {page : PullPage}

theorem admitLoop_attested {op : SignedOp} (h : op ∈ ops.take (admitLoop false ops p).admitted) :
    Attested p.registry op := by
  induction ops generalizing p with
  | nil => simp at h
  | cons x ops ih =>
    rcases admitLoop_cons false x ops p with ⟨e, hl⟩ | ⟨hf, -, hl⟩ | ⟨key, clock, hkey, hok, -, hl⟩
    · simp [hl] at h
    · cases hf
    · rw [hl] at h
      rcases mem_cons.1 (take_succ_cons ▸ h) with rfl | h
      · exact ⟨key, hkey, hok⟩
      · simpa using ih h

theorem admitOps_contained : Contained peer p (p.after (p.admitOps ops false).effects) := by
  have h : Contained peer p (p.after (admitLoop false ops p).effects) := by
    induction ops generalizing p with
    | nil => exact .refl _
    | cons op ops ih =>
      rcases admitLoop_cons false op ops p with ⟨e, h⟩ | ⟨hf, -, h⟩ | ⟨key, clock, hkey, hok, -, h⟩
      · rw [h]
        exact .refl p
      · cases hf
      · rw [h]
        exact Contained.trans (.append ⟨key, hkey, hok⟩) ih
  rcases admitOps_effects p ops false with he | he
  · rwa [he]
  · rw [he, after_append]
    exact h.trans (.of_cursors rfl rfl rfl fun _ _ => rfl)

theorem applyRun_contained {run : KeyedRun} : Contained peer p (p.after (applyRun p run false).effects) := by
  have h := @admitOps_contained _ peer p run.ops
  rw [applyRun_effects, after_append]
  rcases raiseClaim_cases (H := H) run (p.admitOps run.ops false).admitted with
    ⟨he, -⟩ | ⟨op, ho, hget, hpos, he⟩
  · rwa [he]
  · rw [he]
    -- the claim stops at the last op the loop went through
    have hop : op ∈ run.ops.take (p.admitOps run.ops false).admitted := by
      refine @mem_of_getElem? _ _ ((p.admitOps run.ops false).admitted - 1) _ ?_
      rw [getElem?_take_of_lt (by omega), hget]
    refine h.trans (.claim ?_ (admitOps_contains hop) ho)
    rw [after_registry]
    exact admitLoop_attested (admitOps_admitted (H := H) ▸ hop)

theorem applyRuns_contained {runs : List KeyedRun} :
    Contained peer p (p.after (applyRuns false runs p).effects) := by
  induction runs generalizing p with
  | nil => exact .refl p
  | cons run runs ih =>
    rw [applyRuns]
    cases (applyRun p run false).error with
    | some e => exact applyRun_contained
    | none =>
      dsimp only
      rw [after_append]
      exact applyRun_contained.trans ih

theorem applyBackfill_contained :
    Contained peer p (p.after (applyBackfill p peer cur page false).1.effects) := by
  unfold applyBackfill
  cases decodeBackfill peer cur.after cur.after page.backfill with
  | error e => exact .save p cur
  | ok entries =>
    dsimp only
    rw [after_append, after_append]
    have h := (Contained.save p cur).trans (@admitOps_contained _ peer _ (entries.map Prod.snd))
    rcases followAdmitted_effects (H := H) peer cur entries
      ((p.after [.saveRelayCursor peer cur]).admitOps (entries.map Prod.snd) false).admitted with hf | hf
    · rwa [hf]
    · rw [hf]
      exact h.trans (.save _ _)

theorem applyChannels_contained :
    Contained peer p (p.after (applyChannels p peer cur page false).effects) := by
  have h := @applyBackfill_contained _ peer p cur page
  unfold applyChannels applyKeyed
  generalize hres : applyBackfill p peer cur page false = r
  obtain ⟨progress, cursor⟩ := r
  rw [hres] at h
  dsimp only
  cases progress.error with
  | some e => exact h
  | none =>
    have hsave := h.trans (.save _ ⟨cursor.epoch, max cursor.after page.nextRelaySeq⟩)
    cases splitRuns peer page.keyed [] none with
    | error e =>
      simp only [after_append]
      exact hsave
    | ok runs =>
      simp only [after_append]
      exact hsave.trans applyRuns_contained

theorem applyPullPage_contained {cursor : Option RelayCursor} :
    Contained peer p (p.after (applyPullPage p peer cursor page false).effects) := by
  unfold applyPullPage
  split
  · exact .refl p
  · split
    · split_ifs
      · exact applyChannels_contained
      · exact .refl p
    · exact applyChannels_contained

/-! ## A drain -/

variable {limits : PageLimits} {m : Moment} {d : DrainState}

theorem previewHeadWindow_contained {cursor : Option RelayCursor} {afterSeq : ℕ} :
    Contained peer p (p.after (previewHeadWindow limits m.preview p peer cursor afterSeq m.now).1) := by
  rcases previewHeadWindow_effects limits m.preview p peer cursor afterSeq m.now with h | ⟨_, ops, -, -, -, h⟩
  · rw [h]
    exact .refl p
  · rw [h]
    exact admitOps_contained

theorem drainApply_contained : Contained peer p (p.after (drainApply limits peer false m p d page).1) := by
  have h := @applyPullPage_contained _ peer p page d.cursor
  unfold drainApply
  dsimp only
  cases (applyPullPage p peer d.cursor page false).result with
  | error e => exact h
  | ok n =>
    rw [after_append]
    refine h.trans ?_
    rcases (drainPreview_spec limits peer m (p.after (applyPullPage p peer d.cursor page false).effects)
      _ page).1 with hp | ⟨cursor, afterSeq, hp, -⟩
    · rw [hp]
      exact .refl _
    · rw [hp]
      exact previewHeadWindow_contained

theorem drainStep_contained {audit : Bool} :
    Contained peer p (p.after (drainStep limits peer audit false m p d).1) := by
  unfold drainStep
  dsimp only
  split
  iterate 2 exact .refl p
  · split_ifs <;> exact .refl p
  · split
    · exact .refl p
    · split_ifs
      · unfold drainSnapshot
        dsimp only
        split_ifs
        · exact .refl p
        · exact previewHeadWindow_contained
        · exact .refl p
      · unfold drainReset
        split_ifs
        · exact .refl p
        · split
          · exact .refl p
          · exact .of_cursors rfl rfl rfl fun _ ho => (SortedMap.get?_insert ..).trans (if_neg ho)
      · exact drainApply_contained

/-- The puller after the first `n` requests of a drain, or at its end if that comes before. -/
def drainedTo (limits : PageLimits) (peer : DeviceId) (audit : Bool) :
    ℕ → (ℕ → Moment) → OpLogPullSocket H → DrainState → OpLogPullSocket H
  | 0, _, p, _ => p
  | n + 1, world, p, d =>
    match drainStep limits peer audit false (world 0) p d with
    | (effects, .done _ _) => p.after effects
    | (effects, .again d) => drainedTo limits peer audit n (fun i => world (i + 1)) (p.after effects) d

/-- Whatever a peer answers, at every point of a drain and at its end it has brought in no op that
does not verify under a registered key, removed none, claimed nothing beyond such ops and moved
no cursor but its own. -/
theorem hostile_peer_contained (limits : PageLimits) (peer : DeviceId) (audit : Bool) (n : ℕ)
    (world : ℕ → Moment) (p : OpLogPullSocket H) (d : DrainState) :
    Contained peer p (drainedTo limits peer audit n world p d) ∧
      (drainPullPages limits peer audit false n world p d = none ∨ ∃ cursor result,
        drainPullPages limits peer audit false n world p d =
          some (drainedTo limits peer audit n world p d, cursor, result)) := by
  induction n generalizing world p d with
  | zero => exact ⟨.refl p, .inl rfl⟩
  | succ n ih =>
    have hstep := @drainStep_contained _ peer p limits (world 0) d audit
    generalize hd : drainStep limits peer audit false (world 0) p d = r
    obtain ⟨effects, next⟩ := r
    rw [hd] at hstep
    simp only [drainedTo, drainPullPages, hd]
    cases next with
    | done cursor result => exact ⟨hstep, .inr ⟨cursor, result, rfl⟩⟩
    | again d' => exact (ih _ _ d').imp_left hstep.trans

end ProxyNode
