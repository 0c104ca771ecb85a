import Mathlib.Data.List.Induction
import ProxyNode.Base.SortedMap

/-! Last write wins. Ops of increasing rank are applied to a map in turn, each writing at
most one key; the result at a key is the effect of the greatest op that writes it, also over
a map that earlier passes over fewer ops have left. -/

variable {ω K V κ : Type*} [LinearOrder κ]

namespace SortedMap

variable [LinearOrder K]

def write (m : SortedMap K V) (k : K) : Option V → SortedMap K V
  | some v => m.insert k v
  | none => m.erase k

theorem get?_write (m : SortedMap K V) (k k' : K) (value : Option V) :
    (m.write k value).get? k' = if k' = k then value else m.get? k' := by
  cases value with
  | none => exact m.get?_erase k k'
  | some v => exact m.get?_insert k k' v

end SortedMap

section

variable (writes : ω → Option (K × Option V)) (rank : ω → κ)

/-- What `ops` say about a key: the effect of the op of greatest rank that writes it, and
no value if none does. -/
def LastWrite (ops : List ω) (k : K) (value : Option V) : Prop :=
  (∃ op ∈ ops, writes op = some (k, value) ∧
    ∀ op' ∈ ops, ∀ v, writes op' = some (k, v) → rank op' ≤ rank op) ∨
  (∀ op ∈ ops, ∀ v, writes op ≠ some (k, v)) ∧ value = none

variable {writes rank} {ops ops' : List ω} {k : K} {value value' : Option V}

/-- Ops of one rank that write alike leave one value. -/
theorem LastWrite.unique (hrank : ∀ a ∈ ops, ∀ b ∈ ops, rank a = rank b → writes a = writes b)
    (h : LastWrite writes rank ops k value) (h' : LastWrite writes rank ops k value') : value = value' := by
  rcases h with ⟨a, ha, hwa, hmax⟩ | ⟨hnone, rfl⟩
  · rcases h' with ⟨b, hb, hwb, hmax'⟩ | ⟨hnone, -⟩
    · have heq := hrank a ha b hb (le_antisymm (hmax' a ha _ hwa) (hmax b hb _ hwb))
      rw [hwa, hwb] at heq
      simpa using heq
    · exact absurd hwa (hnone a ha _)
  · rcases h' with ⟨b, hb, hwb, -⟩ | ⟨-, rfl⟩
    · exact absurd hwb (hnone b hb _)
    · rfl

/-- The ops may be replaced by others with the same writes at the same ranks. -/
theorem LastWrite.congr
    (hto : ∀ a ∈ ops, ∃ b ∈ ops', writes b = writes a ∧ rank b = rank a)
    (hfrom : ∀ b ∈ ops', ∃ a ∈ ops, writes a = writes b ∧ rank a = rank b)
    (h : LastWrite writes rank ops k value) : LastWrite writes rank ops' k value := by
  rcases h with ⟨a, ha, hwa, hmax⟩ | ⟨hnone, rfl⟩
  · obtain ⟨b, hb, hw, hr⟩ := hto a ha
    refine Or.inl ⟨b, hb, hw.trans hwa, fun b' hb' v hwb' => ?_⟩
    obtain ⟨a', ha', hw', hr'⟩ := hfrom b' hb'
    rw [hr, ← hr']
    exact hmax a' ha' v (hw'.trans hwb')
  · refine Or.inr ⟨fun b hb v hwb => ?_, rfl⟩
    obtain ⟨a, ha, hw, -⟩ := hfrom b hb
    exact hnone a ha v (hw.trans hwb)

variable [LinearOrder K]

variable (writes) in
def applyWrites (ops : List ω) (m : SortedMap K V) : SortedMap K V :=
  ops.foldl (fun m op => (writes op).elim m fun w => m.write w.1 w.2) m

theorem applyWrites_append (ops ops' : List ω) (m : SortedMap K V) :
    applyWrites writes (ops ++ ops') m = applyWrites writes ops' (applyWrites writes ops m) :=
  List.foldl_append

theorem get?_applyWrites_singleton (writes : ω → Option (K × Option V)) (op : ω) (m : SortedMap K V) (k : K) :
    (writes op = some (k, (applyWrites writes [op] m).get? k)) ∨
      (∀ v, writes op ≠ some (k, v)) ∧ (applyWrites writes [op] m).get? k = m.get? k := by
  simp only [applyWrites, List.foldl_cons, List.foldl_nil]
  cases hw : writes op with
  | none => exact Or.inr ⟨nofun, rfl⟩
  | some w =>
    rw [Option.elim_some, SortedMap.get?_write]
    by_cases hk : k = w.1
    · rw [if_pos hk, hk]
      exact Or.inl rfl
    · rw [if_neg hk]
      exact Or.inr ⟨fun v hv => hk (congrArg Prod.fst (Option.some.inj hv)).symm, rfl⟩

/-- At each key the last op that writes it decides, or the map did. -/
theorem get?_applyWrites (writes : ω → Option (K × Option V)) (ops : List ω) (m : SortedMap K V) (k : K) :
    (∃ before op after, ops = before ++ op :: after ∧
      writes op = some (k, (applyWrites writes ops m).get? k) ∧ ∀ x ∈ after, ∀ v, writes x ≠ some (k, v)) ∨
    (∀ op ∈ ops, ∀ v, writes op ≠ some (k, v)) ∧ (applyWrites writes ops m).get? k = m.get? k := by
  induction ops using List.reverseRecOn with
  | nil => exact Or.inr ⟨by simp, rfl⟩
  | append_singleton ops op ih =>
    rw [applyWrites_append]
    rcases get?_applyWrites_singleton writes op (applyWrites writes ops m) k with hw | ⟨hne, hsame⟩
    · exact Or.inl ⟨ops, op, [], rfl, hw, by simp⟩
    · rw [hsame]
      -- an op that leaves the key alone joins those behind the deciding one
      rcases ih with ⟨before, x, after, rfl, hx, haft⟩ | ⟨hnone, heq⟩
      · refine Or.inl ⟨before, x, after ++ [op], by simp, hx, fun y hy v => ?_⟩
        rcases List.mem_append.1 hy with hy | hy
        · exact haft y hy v
        · exact List.mem_singleton.1 hy ▸ hne v
      · refine Or.inr ⟨fun y hy v => ?_, heq⟩
        rcases List.mem_append.1 hy with hy | hy
        · exact hnone y hy v
        · exact List.mem_singleton.1 hy ▸ hne v

/-- A pass in increasing rank over a map that holds no key the ops do not write. -/
theorem applyWrites_lastWrite {m : SortedMap K V} (hs : ops.Pairwise (rank · < rank ·))
    (hm : ∀ v, m.get? k = some v → ∃ op ∈ ops, ∃ v, writes op = some (k, v)) :
    LastWrite writes rank ops k ((applyWrites writes ops m).get? k) := by
  rcases get?_applyWrites writes ops m k with ⟨before, op, after, rfl, hw, haft⟩ | ⟨hnone, heq⟩
  · refine Or.inl ⟨op, by simp, hw, fun op' hop' v hv => ?_⟩
    rcases List.mem_append.1 hop' with hmem | hmem
    · exact ((List.pairwise_append.1 hs).2.2 op' hmem op List.mem_cons_self).le
    · rcases List.mem_cons.1 hmem with rfl | hmem
      · exact le_rfl
      · exact absurd hv (haft op' hmem v)
  · refine Or.inr ⟨hnone, heq.trans ?_⟩
    cases hv : m.get? k with
    | none => rfl
    | some v =>
      obtain ⟨op, hop, v', hw⟩ := hm v hv
      exact absurd hw (hnone op hop v')

/-- A pass leaves no key that neither the map nor the ops had. -/
theorem applyWrites_support {m : SortedMap K V} {v : V} (h : (applyWrites writes ops m).get? k = some v) :
    m.get? k = some v ∨ ∃ op ∈ ops, ∃ v, writes op = some (k, v) := by
  rcases get?_applyWrites writes ops m k with ⟨before, op, after, rfl, hw, -⟩ | ⟨-, heq⟩
  · exact Or.inr ⟨op, by simp, _, hw⟩
  · exact Or.inl (heq ▸ h)

end
