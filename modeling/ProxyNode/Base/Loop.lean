import Mathlib.Data.Nat.Basic

/-! Loops with fuel: a loop whose every turn lowers a measure ends, a loop that an
invariant keeps turning never does. -/

namespace Loop

variable {σ ρ : Type*} (turn : σ → ρ ⊕ σ)

/-- At most `fuel` turns, up to the first that returns. -/
def run : ℕ → σ → Option ρ
  | 0, _ => none
  | fuel + 1, s =>
    match turn s with
    | .inl r => some r
    | .inr s' => run fuel s'

variable {turn}

variable {s : σ}

theorem run_done {r : ρ} (h : turn s = .inl r) (fuel : ℕ) : run turn (fuel + 1) s = some r := by
  rw [run, h]

theorem run_again {s' : σ} (h : turn s = .inr s') (fuel : ℕ) : run turn (fuel + 1) s = run turn fuel s' := by
  rw [run, h]

/-- More fuel changes nothing once the loop has returned. -/
theorem run_mono {r : ρ} {fuel more : ℕ} (h : run turn fuel s = some r) (hle : fuel ≤ more) :
    run turn more s = some r := by
  induction fuel generalizing s more with
  | zero => cases h
  | succ fuel ih =>
    cases more with
    | zero => exact absurd hle (Nat.not_succ_le_zero fuel)
    | succ more =>
      cases hturn : turn s with
      | inl r' => rwa [run_done hturn] at h ⊢
      | inr s' =>
        rw [run_again hturn] at h ⊢
        exact ih h (Nat.le_of_succ_le_succ hle)

/-- A loop ends as wanted if each turn within an invariant does or lowers a measure. -/
theorem run_within (Inv : σ → Prop) (P : ρ → Prop) (measure : σ → ℕ)
    (hturn : ∀ s, Inv s → (∃ r, turn s = .inl r ∧ P r) ∨ ∃ s', turn s = .inr s' ∧ Inv s' ∧ measure s' < measure s)
    (hs : Inv s) {fuel : ℕ} (hfuel : measure s < fuel) : ∃ r, run turn fuel s = some r ∧ P r := by
  induction fuel generalizing s with
  | zero => exact absurd hfuel (Nat.not_lt_zero _)
  | succ fuel ih =>
    rcases hturn s hs with ⟨r, hr, hP⟩ | ⟨s', hs', hinv, hlt⟩
    · exact ⟨r, run_done hr fuel, hP⟩
    · obtain ⟨r, hrun, hP⟩ := ih hinv (by omega)
      exact ⟨r, (run_again hs' fuel).trans hrun, hP⟩

/-- A loop never ends if each turn within an invariant goes on within it. -/
theorem run_diverges (Inv : σ → Prop) (hturn : ∀ s, Inv s → ∃ s', turn s = .inr s' ∧ Inv s') (hs : Inv s)
    (fuel : ℕ) : run turn fuel s = none := by
  induction fuel generalizing s with
  | zero => rfl
  | succ fuel ih =>
    obtain ⟨s', hs', hinv⟩ := hturn s hs
    rw [run_again hs', ih hinv]

/-- What a loop returns, by an invariant of its turns. -/
theorem run_result (Inv : σ → Prop) (P : ρ → Prop)
    (hturn : ∀ s, Inv s → (∃ r, turn s = .inl r ∧ P r) ∨ ∃ s', turn s = .inr s' ∧ Inv s') {fuel : ℕ} {r : ρ}
    (hs : Inv s) (h : run turn fuel s = some r) : P r := by
  induction fuel generalizing s with
  | zero => cases h
  | succ fuel ih =>
    rcases hturn s hs with ⟨r', hr', hP⟩ | ⟨s', hs', hinv⟩
    · rw [run_done hr'] at h
      exact Option.some.inj h ▸ hP
    · rw [run_again hs'] at h
      exact ih hinv h

end Loop
