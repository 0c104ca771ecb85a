import Mathlib.Data.List.Basic

/-! Programs that change a state through a list of effects and may be stopped between any
two of them. A property holds along the effects if it holds after every initial part. -/

namespace Journal

variable {σ ω : Type*} (apply : σ → ω → σ)

/-- `P` holds before the first effect, after the last one and at every point between. -/
def Along (P : σ → Prop) (s : σ) (ws : List ω) : Prop :=
  ∀ n, P ((ws.take n).foldl apply s)

variable {apply} {P Q : σ → Prop} {s : σ}

theorem along_nil : Along apply P s [] ↔ P s := by
  simp [Along]

variable {ws : List ω}

theorem along_cons {w : ω} :
    Along apply P s (w :: ws) ↔ P s ∧ Along apply P (apply s w) ws := by
  refine ⟨fun h => ⟨by simpa using h 0, fun n => by simpa using h (n + 1)⟩, ?_⟩
  rintro ⟨h0, hs⟩ n
  cases n with
  | zero => simpa using h0
  | succ n => simpa using hs n

theorem along_append {vs : List ω} :
    Along apply P s (ws ++ vs) ↔ Along apply P s ws ∧ Along apply P (ws.foldl apply s) vs := by
  induction ws generalizing s with
  | nil =>
    rw [List.nil_append, along_nil, List.foldl_nil]
    exact ⟨fun h => ⟨by simpa using h 0, h⟩, And.right⟩
  | cons w ws ih => rw [List.cons_append, along_cons, along_cons, ih, List.foldl_cons, and_assoc]

theorem Along.final (h : Along apply P s ws) : P (ws.foldl apply s) := by
  simpa using h ws.length

/-- The rule for a list of effects that each keep the property. -/
theorem along_of_step (hs : P s) (hstep : ∀ w ∈ ws, ∀ t, P t → P (apply t w)) :
    Along apply P s ws := by
  induction ws generalizing s with
  | nil => exact along_nil.2 hs
  | cons w ws ih =>
    refine along_cons.2 ⟨hs, ih (hstep w List.mem_cons_self s hs) ?_⟩
    exact fun v hv => hstep v (List.mem_cons_of_mem _ hv)

end Journal
