import Mathlib.Data.List.Basic
import Mathlib.Data.List.Induction
import Mathlib.Data.List.Nodup
import Mathlib.Data.Nat.Basic
import Mathlib.Order.Lattice

/-! Numbered lists, lists sorted by a key, and searches. -/

namespace List

universe u

variable {α : Type*}

theorem drop_zipIdx (l : List α) (n k : ℕ) : (l.zipIdx k).drop n = (l.drop n).zipIdx (k + n) := by
  apply ext_getElem?
  intro i
  simp [getElem?_zipIdx, Nat.add_assoc]

theorem take_zipIdx (l : List α) (n k : ℕ) : (l.zipIdx k).take n = (l.take n).zipIdx k := by
  apply ext_getElem?
  intro i
  by_cases h : i < n <;> simp [getElem?_zipIdx, h]

/-- The elements numbered from `n` on. -/
theorem filter_zipIdx (l : List α) (n k : ℕ) :
    (l.zipIdx k).filter (fun e => n ≤ e.2) = (l.zipIdx k).drop (n - k) := by
  induction l generalizing k with
  | nil => simp
  | cons a l ih =>
    rw [zipIdx_cons, filter_cons, ih]
    by_cases h : n ≤ k
    · rw [if_pos (by simpa using h), Nat.sub_eq_zero_of_le h, Nat.sub_eq_zero_of_le (by omega), drop_zero,
        drop_zero]
    · rw [if_neg (by simpa using h), show n - k = (n - (k + 1)) + 1 by omega, drop_succ_cons]

variable {β : Type*}

theorem lookup_of_mem [BEq α] [LawfulBEq α] {l : List (α × β)} (hnd : (l.map Prod.fst).Nodup) {a : α} {b : β}
    (h : (a, b) ∈ l) : l.lookup a = some b := by
  induction l with
  | nil => cases h
  | cons e l ih =>
    obtain ⟨hnot, hnd'⟩ := nodup_cons.1 hnd
    rcases mem_cons.1 h with rfl | h
    · exact lookup_cons_self
    · have hoth : a ≠ e.1 := fun heq => hnot (mem_map.2 ⟨(a, b), h, heq⟩)
      rw [lookup_cons, beq_false_of_ne hoth]
      exact ih hnd' h

variable {l : List α}

/-- A filter leaves the rows of one kind alone if it keeps each of them. -/
theorem filter_of_keeps {p q : α → Bool} (h : ∀ x ∈ l, q x = true → p x = true) :
    (l.filter p).filter q = l.filter q := by
  rw [filter_filter]
  refine filter_congr fun x hx => ?_
  cases hq : q x with
  | false => rfl
  | true => rw [h x hx hq]; rfl

/-- So does a rewriting, exactly if it fixes each of them. -/
theorem map_filter_eq_iff {f : α → α} {q : α → Bool} (hf : ∀ x, q (f x) = q x) :
    (l.map f).filter q = l.filter q ↔ ∀ x ∈ l, q x = true → f x = x := by
  have hq : q ∘ f = q := funext hf
  rw [filter_map, hq]
  constructor
  · intro h x hx hqx
    have hall := map_eq_map_iff.1 (h.trans (map_id _).symm)
    exact hall x (mem_filter.2 ⟨hx, hqx⟩)
  · intro h
    refine (map_congr_left fun x hx => ?_).trans (map_id _)
    exact h x (mem_filter.1 hx).1 (mem_filter.1 hx).2

theorem eq_of_map_eq {f : α → β} {l' : List α} (hf : ∀ a ∈ l, ∀ b ∈ l', f a = f b → a = b)
    (h : l.map f = l'.map f) : l = l' := by
  induction l generalizing l' with
  | nil => exact (map_eq_nil_iff.1 h.symm).symm
  | cons a l ih =>
    cases l' with
    | nil => simp at h
    | cons b l' =>
      rw [map_cons, map_cons, cons.injEq] at h
      have hab := hf a mem_cons_self b mem_cons_self h.1
      have hrest := ih (fun x hx y hy => hf x (mem_cons_of_mem a hx) y (mem_cons_of_mem b hy)) h.2
      rw [hab, hrest]

/-- In an ascending list an element at or below the `n`-th is among the first `n + 1`. -/
theorem mem_take_of_key_le {κ : Type*} [LinearOrder κ] (key : α → κ) (hp : l.Pairwise fun a b => key a < key b)
    {x z : α} {n : ℕ} (hx : x ∈ l) (hz : l[n]? = some z) (hle : key x ≤ key z) : x ∈ l.take (n + 1) := by
  obtain ⟨i, hi⟩ := mem_iff_getElem?.1 hx
  rw [mem_take_iff_getElem]
  obtain ⟨hil, rfl⟩ := getElem?_eq_some_iff.1 hi
  obtain ⟨hnl, rfl⟩ := getElem?_eq_some_iff.1 hz
  have hin : i ≤ n := by
    by_contra hlt
    exact absurd hle (not_le.2 (pairwise_iff_getElem.1 hp n i hnl hil (by omega)))
  exact ⟨i, by omega, rfl⟩

/-- The first `max a b` elements are the first `a` and the first `b`. -/
theorem mem_take_max {a b : ℕ} {x : α} :
    x ∈ l.take (max a b) ↔ x ∈ l.take a ∨ x ∈ l.take b := by
  rcases le_total a b with h | h
  · rw [max_eq_right h]
    exact ⟨Or.inr, fun hx => hx.elim (fun hx => take_subset_take_left l h hx) (fun hx => hx)⟩
  · rw [max_eq_left h]
    exact ⟨Or.inl, fun hx => hx.elim (fun hx => hx) (fun hx => take_subset_take_left l h hx)⟩

/-- A decoder that takes every entry back to its source decodes the list. -/
theorem mapM_map_pure {m : Type u → Type*} [Monad m] [LawfulMonad m] {γ : Type u} {f : β → m γ} {e : α → β}
    {g : α → γ} (h : ∀ a ∈ l, f (e a) = pure (g a)) :
    (l.map e).mapM f = pure (l.map g) := by
  induction l with
  | nil => rfl
  | cons a l ih =>
    obtain ⟨ha, hl⟩ := forall_mem_cons.1 h
    rw [map_cons, mapM_cons, ha, ih hl, pure_bind, pure_bind]
    rfl

section Except

variable {β γ ε : Type*} {f : β → Except ε γ} {e : α → β} {g : α → γ} {l : List α}

theorem eq_of_mapM_map_ok {r : List γ} (h : (l.map e).mapM f = .ok r)
    (hf : ∀ a ∈ l, ∀ c, f (e a) = .ok c → c = g a) : r = l.map g := by
  induction l generalizing r with
  | nil => exact (Except.ok.inj h).symm
  | cons a l ih =>
    rw [map_cons, mapM_cons] at h
    cases hc : f (e a) with
    | error x =>
      rw [hc] at h
      cases h
    | ok c =>
      obtain rfl := hf a mem_cons_self c hc
      cases hr : (l.map e).mapM f with
      | error x =>
        rw [hc, hr] at h
        cases h
      | ok rest =>
        obtain rfl := ih hr fun b hb => hf b (mem_cons_of_mem a hb)
        rw [hc, hr] at h
        exact (Except.ok.inj h).symm

end Except

/-- What a partial map keeps of each element it maps, in the order of the list. -/
theorem map_filterMap_sublist {γ : Type*} {f : α → Option β} {g : β → γ} {h : α → γ}
    (hf : ∀ a ∈ l, ∀ b, f a = some b → g b = h a) : ((l.filterMap f).map g).Sublist (l.map h) := by
  induction l with
  | nil => exact Sublist.slnil
  | cons a l ih =>
    obtain ⟨ha, hl⟩ := forall_mem_cons.1 hf
    cases hfa : f a with
    | none =>
      rw [filterMap_cons_none hfa, map_cons]
      exact (ih hl).cons _
    | some b =>
      rw [filterMap_cons_some hfa, map_cons, map_cons, ha b hfa]
      exact (ih hl).cons_cons _

/-- A running maximum is the first of the greatest. -/
theorem foldl_first_max {κ : Type*} [LinearOrder κ] (key : α → κ) (first : α) (rest : List α) :
    ∃ front back,
      first :: rest = front ++ rest.foldl (fun best a => if key best < key a then a else best) first :: back ∧
      (∀ a ∈ front, key a < key (rest.foldl (fun best a => if key best < key a then a else best) first)) ∧
      ∀ a ∈ back, key a ≤ key (rest.foldl (fun best a => if key best < key a then a else best) first) := by
  induction rest using reverseRecOn with
  | nil => exact ⟨[], [], rfl, nofun, nofun⟩
  | append_singleton rest last ih =>
    rw [foldl_append, foldl_cons, foldl_nil]
    generalize hbest : rest.foldl (fun best a => if key best < key a then a else best) first = best
    rw [hbest] at ih
    obtain ⟨front, back, hspl, hfro, hback⟩ := ih
    split_ifs with hlt
    · refine ⟨first :: rest, [], by rw [cons_append], fun a ha => ?_, nofun⟩
      rw [hspl] at ha
      rcases mem_append.1 ha with ha | ha
      · exact lt_trans (hfro a ha) hlt
      · rcases mem_cons.1 ha with rfl | ha
        · exact hlt
        · exact lt_of_le_of_lt (hback a ha) hlt
    · refine ⟨front, back ++ [last], ?_, hfro, ?_⟩
      · rw [← cons_append, hspl, append_assoc, cons_append]
      · intro a ha
        rcases mem_append.1 ha with ha | ha
        · exact hback a ha
        · rw [mem_singleton.1 ha]
          exact not_lt.1 hlt

section PutBy

variable {β : Type*} [DecidableEq β] (key : α → β)

/-- Put an element in the place of the first one with its key, or at the end. -/
def putBy (x : α) (l : List α) : List α :=
  match l.findIdx? (fun a => key a = key x) with
  | some i => l.set i x
  | none => l ++ [x]

theorem putBy_cons (x a : α) (l : List α) :
    (a :: l).putBy key x = if key a = key x then x :: l else a :: l.putBy key x := by
  unfold putBy
  rw [findIdx?_cons]
  by_cases h : key a = key x
  · rw [if_pos (by simpa using h), if_pos h]
    rfl
  · rw [if_neg (by simpa using h), if_neg h]
    cases l.findIdx? (fun a => key a = key x) <;> rfl

variable {key}

theorem mem_putBy {x a : α} {l : List α} (hnd : (l.map key).Nodup) :
    a ∈ l.putBy key x ↔ (a ∈ l ∧ key a ≠ key x) ∨ a = x := by
  induction l with
  | nil => simp [putBy]
  | cons b l ih =>
    obtain ⟨hnot, hnd⟩ := nodup_cons.1 hnd
    have hb : ∀ c ∈ l, key c ≠ key b := fun c hc heq => hnot (heq ▸ mem_map_of_mem hc)
    rw [putBy_cons]
    by_cases h : key b = key x
    · rw [if_pos h, mem_cons, mem_cons]
      constructor
      · rintro (rfl | ha)
        · exact Or.inr rfl
        · exact Or.inl ⟨Or.inr ha, h ▸ hb a ha⟩
      · rintro (⟨rfl | ha, hne⟩ | rfl)
        · exact absurd h hne
        · exact Or.inr ha
        · exact Or.inl rfl
    · rw [if_neg h, mem_cons, mem_cons, ih hnd]
      constructor
      · rintro (rfl | ⟨ha, hne⟩ | rfl)
        · exact Or.inl ⟨Or.inl rfl, h⟩
        · exact Or.inl ⟨Or.inr ha, hne⟩
        · exact Or.inr rfl
      · rintro (⟨rfl | ha, hne⟩ | rfl)
        · exact Or.inl rfl
        · exact Or.inr (Or.inl ⟨ha, hne⟩)
        · exact Or.inr (Or.inr rfl)

theorem nodup_putBy (x : α) {l : List α} (hnd : (l.map key).Nodup) : ((l.putBy key x).map key).Nodup := by
  induction l with
  | nil => exact nodup_singleton _
  | cons b l ih =>
    obtain ⟨hnot, hnd'⟩ := nodup_cons.1 hnd
    rw [putBy_cons]
    by_cases h : key b = key x
    · rw [if_pos h, map_cons, ← h]
      exact hnd
    · rw [if_neg h, map_cons, nodup_cons]
      refine ⟨fun hmem => ?_, ih hnd'⟩
      obtain ⟨c, hc, heq⟩ := mem_map.1 hmem
      rcases (mem_putBy hnd').1 hc with ⟨hc, -⟩ | rfl
      · exact hnot (heq ▸ mem_map_of_mem hc)
      · exact h heq.symm

end PutBy

theorem max?_concat [LinearOrder α] (l : List α) (a : α) :
    (l ++ [a]).max? = some (l.max?.elim a fun b => max b a) := by
  cases l with
  | nil => rfl
  | cons b l => rw [cons_append, max?_cons', max?_cons', foldl_append]; rfl

/-- What one step adds to, the whole list adds to. -/
theorem foldl_iff_exists {σ α : Type*} {step : σ → α → σ} {M : σ → Prop} {P : α → Prop}
    (hstep : ∀ s a, M (step s a) ↔ M s ∨ P a) (l : List α) (s : σ) :
    M (l.foldl step s) ↔ M s ∨ ∃ a ∈ l, P a := by
  induction l generalizing s with
  | nil => simp
  | cons a l ih =>
    rw [foldl_cons, ih, hstep, or_assoc]
    simp

end List
