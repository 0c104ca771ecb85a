import ProxyNode.Sanity.Outcome
import ProxyNode.Spec.Kv

/-! How far a run of keyed ops may raise its origin's claim. The admission loop counts an
op it skips for want of a key like one it admits, so with skipping on the claim goes past
ops the log does not hold exactly when the origin's key is missing. -/

namespace ProxyNode

open OpLogPullSocket

variable {H : Host} {p : OpLogPullSocket H} {run : KeyedRun} {skip : Bool}

/-- Every op the run's claim newly covers is in the log, and the claim-safe prefix ends
before the first op that was skipped for want of its signer's key. -/
structure ClaimSound (p : OpLogPullSocket H) (run : KeyedRun) (skip : Bool) : Prop where
  taken : ∀ op ∈ run.ops, p.coverage.covers op.orderKey = false →
    (p.after (applyRun p run skip).effects).coverage.covers op.orderKey = true →
    (p.after (applyRun p run skip).effects).log.contains op.id = true
  unskipped : ∀ i op, run.ops[i]? = some op → skip = true →
    p.registry.keyFor op.body.device = none → (p.admitOps run.ops skip).claimSafe ≤ i

/-- A skipping loop goes through every op of an unknown origin. -/
theorem admitLoop_skipped {ops : List SignedOp} (h : ∀ op ∈ ops, p.registry.keyFor op.body.device = none) :
    admitLoop true ops p = ⟨[], ops.length, false, none⟩ := by
  induction ops with
  | nil => rfl
  | cons op ops ih =>
    simp only [admitLoop, h op List.mem_cons_self, ih fun x hx => h x (List.mem_cons_of_mem _ hx), if_true,
      List.length_cons]

theorem KeyedRun.device (run : KeyedRun) {op : SignedOp} (h : op ∈ run.ops) : op.body.device = run.origin := by
  rw [← SignedOp.orderKey_device]
  exact run.same op h

theorem applyRun_covered (hasc : run.ops.Pairwise fun a b => a.orderKey < b.orderKey) {op : SignedOp}
    (hop : op ∈ run.ops) (hc : p.coverage.covers op.orderKey = false)
    (hc' : (p.after (applyRun p run skip).effects).coverage.covers op.orderKey = true) :
    op ∈ run.ops.take (admitLoop skip run.ops p).admitted := by
  rw [applyRun_effects, after_append, admitOps_admitted] at hc'
  rcases raiseClaim_cases (H := H) run (admitLoop skip run.ops p).admitted with
    ⟨he, -⟩ | ⟨last, hlast, hget, hpos, he⟩
  · rw [he, after_nil, admitOps_coverage, hc] at hc'
    cases hc'
  · rw [he] at hc'
    rcases (CoverageVector.covers_advance hlast).1 hc' with hcov | ⟨-, hle⟩
    · rw [admitOps_coverage, hc] at hcov
      cases hcov
    · have := List.mem_take_of_key_le SignedOp.orderKey hasc hop hget hle
      rwa [Nat.sub_add_cancel hpos] at this

/-- Exactly where skipping meets an origin without a key the claims overtake the log. -/
theorem claim_sound_iff (p : OpLogPullSocket H) (run : KeyedRun) (skip : Bool)
    (hasc : run.ops.Pairwise fun a b => a.orderKey < b.orderKey) :
    ClaimSound p run skip ↔ skip = false ∨ (p.registry.keyFor run.origin).isSome ∨ run.ops = [] := by
  constructor
  · intro h
    by_contra hno
    push Not at hno
    obtain ⟨hskip, hkey, hne⟩ := hno
    rw [ne_eq, Bool.not_eq_false] at hskip
    subst hskip
    rw [ne_eq, Option.not_isSome_iff_eq_none] at hkey
    have hunknown : ∀ op ∈ run.ops, p.registry.keyFor op.body.device = none :=
      fun op hop => run.device hop ▸ hkey
    obtain ⟨op, ops, hops⟩ := List.exists_cons_of_ne_nil hne
    have hfst : run.ops[0]? = some op := by rw [hops]; rfl
    have hle := h.unskipped 0 op hfst rfl (hunknown op (List.mem_of_getElem? hfst))
    rw [admitOps_claimSafe, admitLoop_skipped hunknown, hops] at hle
    cases hle
  · intro h
    constructor
    · intro op hop hc hc'
      have hmem := applyRun_covered hasc hop hc hc'
      have hkn : (p.registry.keyFor op.body.device).isSome := by
        rcases h with rfl | hkey | hnil
        · exact admitLoop_known hmem
        · rwa [run.device hop]
        · rw [hnil] at hop
          cases hop
      rw [applyRun_effects, after_append]
      refine (after_log_extends _ _).contains ?_
      rw [admitOps_log]
      exact admitLoop_contains hmem hkn
    · intro i op hget hskip hnone
      have hop := List.mem_of_getElem? hget
      rcases h with rfl | hkey | hnil
      · cases hskip
      · rw [← run.device hop, hnone] at hkey
        cases hkey
      · rw [hnil] at hop
        cases hop

/-- A puller that knows the signer takes both ops of a run. -/
theorem claim_sound_known_signer :
    ClaimSound (plainPuller [padTo 32 [7]])
      ((KeyedRun.single (plainPut (padTo 32 [7]) 10)).push (plainPut (padTo 32 [7]) 20) rfl) true :=
  (claim_sound_iff _ _ _ (by decide +kernel)).2 (Or.inr (Or.inl (by decide +kernel)))

/-- Without the key, a skipping puller raises the claim over an op it never took, and
counts that op as claim-safe. -/
theorem claim_covers_skipped_op :
    ¬ ClaimSound (plainPuller []) (.single (plainPut (padTo 32 [7]) 10)) true ∧
      ((plainPuller []).admitOps [plainPut (padTo 32 [7]) 10] true).claimSafe = 1 := by
  generalize hq :
    (plainPuller []).after (applyRun (plainPuller []) (.single (plainPut (padTo 32 [7]) 10)) true).effects = q
  have hcov : q.coverage.covers (plainPut (padTo 32 [7]) 10).orderKey = true := by
    subst hq
    decide +kernel
  have hin : q.log.contains (plainPut (padTo 32 [7]) 10).id = false := by
    subst hq
    decide +kernel
  refine ⟨fun h => ?_, by decide +kernel⟩
  have htkn := h.taken _ List.mem_cons_self (by decide +kernel)
  rw [hq, hin] at htkn
  exact Bool.false_ne_true (htkn hcov)

end ProxyNode
