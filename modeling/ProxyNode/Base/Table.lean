import Mathlib.Data.List.Nodup
import Mathlib.Data.List.Pairwise
import Mathlib.Data.List.Sort
import Mathlib.Order.MinMax

/-! Ordered reads of a table, a table being the list of its rows. -/

namespace List

variable {α κ : Type*} [LinearOrder κ]

/-- `ORDER BY key`. -/
def orderBy (key : α → κ) (l : List α) : List α := l.insertionSort fun a b => key a ≤ key b

def least (key : α → κ) (l : List α) : Option α := (l.orderBy key).head?

/-- `ORDER BY key DESC LIMIT 1`, for keys without ties. -/
def greatest (key : α → κ) (l : List α) : Option α := (l.orderBy key).getLast?

variable (key : α → κ)

theorem orderBy_perm (l : List α) : l.orderBy key ~ l := List.perm_insertionSort _ l

variable {l : List α} {a : α}

@[simp] theorem mem_orderBy : a ∈ l.orderBy key ↔ a ∈ l := (orderBy_perm key l).mem_iff

theorem orderBy_pairwise (l : List α) : (l.orderBy key).Pairwise fun a b => key a ≤ key b := by
  have : Std.Total fun a b : α => key a ≤ key b := ⟨fun a b => le_total _ _⟩
  have : IsTrans α fun a b => key a ≤ key b := ⟨fun _ _ _ => le_trans⟩
  exact pairwise_insertionSort _ l

theorem orderBy_of_pairwise (h : l.Pairwise fun a b => key a ≤ key b) : l.orderBy key = l :=
  h.insertionSort_eq

variable {key}

theorem orderBy_lt (h : (l.map key).Nodup) : (l.orderBy key).Pairwise fun a b => key a < key b := by
  have hnd : ((l.orderBy key).map key).Nodup := ((orderBy_perm key l).map key).nodup_iff.2 h
  have hne := pairwise_map.1 hnd
  exact (orderBy_pairwise key l).imp₂ (fun _ _ hle hne => lt_of_le_of_ne hle hne) hne

/-- A permutation that strictly ascends is the ordered read. -/
theorem orderBy_eq {l' : List α} (hperm : l' ~ l) (h : l'.Pairwise fun a b => key a < key b) :
    l.orderBy key = l' := by
  have hnd : (l'.map key).Nodup := pairwise_map.2 (h.imp fun hlt => hlt.ne)
  refine Perm.eq_of_pairwise ?_ (orderBy_pairwise key l) (h.imp le_of_lt)
    ((orderBy_perm key l).trans hperm.symm)
  intro a b ha hb hab hba
  have ha' : a ∈ l' := hperm.mem_iff.2 ((mem_orderBy key).1 ha)
  exact inj_on_of_nodup_map hnd ha' hb (le_antisymm hab hba)

/-- Two keys that compare the rows alike read them alike. -/
theorem orderBy_congr {κ' : Type*} [LinearOrder κ'] {key' : α → κ'} (hnd : (l.map key).Nodup)
    (h : ∀ a ∈ l, ∀ b ∈ l, key a < key b → key' a < key' b) : l.orderBy key' = l.orderBy key := by
  apply orderBy_eq (orderBy_perm key l)
  refine (orderBy_lt hnd).imp_of_mem ?_
  intro a b ha hb hlt
  exact h a ((mem_orderBy key).1 ha) b ((mem_orderBy key).1 hb) hlt

/-- If two ordered reads are the same list, its keys ascend together. -/
theorem lt_of_orderBy_eq {κ' : Type*} [LinearOrder κ'] {key' : α → κ'} {l' : List α} (hnd : (l.map key).Nodup)
    (hnd' : (l'.map key').Nodup) (h : l.orderBy key = l'.orderBy key') {b : α} (ha : a ∈ l) (hb : b ∈ l)
    (hlt : key a < key b) : key' a < key' b := by
  let R : α → α → Prop := fun x y => (key x < key y → key' x < key' y) ∧ (key y < key x → key' y < key' x)
  have hsymm : Std.Symm R := ⟨fun _ _ hxy => ⟨hxy.2, hxy.1⟩⟩
  have hup' := orderBy_lt hnd'
  rw [← h] at hup'
  have hR : (l.orderBy key).Pairwise R :=
    (orderBy_lt hnd).imp₂ (fun _ _ hlt hlt' => ⟨fun _ => hlt', fun hgt => absurd hgt hlt.not_gt⟩) hup'
  have hrefl : ∀ x ∈ l.orderBy key, R x x :=
    fun x _ => ⟨fun hx => absurd hx (lt_irrefl _), fun hx => absurd hx (lt_irrefl _)⟩
  exact (hR.forall_of_forall hrefl ((mem_orderBy key).2 ha) ((mem_orderBy key).2 hb)).1 hlt

/-- An ordered read of some columns is the columns of the ordered read. -/
theorem map_orderBy_comp {β : Type*} (f : β → α) (l : List β) :
    (l.orderBy fun b => key (f b)).map f = (l.map f).orderBy key :=
  map_insertionSort _ _ f l fun _ _ _ _ => Iff.rfl

theorem map_orderBy (l : List α) : (l.orderBy key).map key = (l.map key).orderBy id := by
  refine Perm.eq_of_pairwise ?_ ?_ (orderBy_pairwise id _) ?_
  · exact fun a b _ _ hab hba => le_antisymm hab hba
  · exact pairwise_map.2 (orderBy_pairwise key l)
  · exact ((orderBy_perm key l).map key).trans (orderBy_perm id _).symm

/-- Rows that all sort below the others are read first. -/
theorem orderBy_split (hnd : (l.map key).Nodup) (p : α → Bool)
    (h : ∀ a ∈ l, ∀ b ∈ l, p a = true → p b = false → key a < key b) :
    l.orderBy key = (l.filter p).orderBy key ++ (l.filter fun a => !p a).orderBy key := by
  apply orderBy_eq
  · exact ((orderBy_perm key _).append (orderBy_perm key _)).trans (filter_append_perm p l)
  · rw [pairwise_append]
    refine ⟨orderBy_lt (hnd.sublist (filter_sublist.map key)),
      orderBy_lt (hnd.sublist (filter_sublist.map key)), fun a ha b hb => ?_⟩
    rw [mem_orderBy, mem_filter] at ha hb
    exact h a ha.1 b hb.1 ha.2 (by simpa using hb.2)

/-- The rows behind one of an ordered read are the rest of it. -/
theorem orderBy_past {first rest : List α} {x : α} (hnd : (l.map key).Nodup)
    (h : l.orderBy key = first ++ x :: rest) : (l.filter fun a => key x < key a).orderBy key = rest := by
  have hup := orderBy_lt hnd
  rw [h, pairwise_append, pairwise_cons] at hup
  obtain ⟨-, ⟨hx, hrest⟩, hfst⟩ := hup
  refine orderBy_eq ?_ hrest
  have hperm := ((orderBy_perm key l).filter fun a => decide (key x < key a))
  rw [h, filter_append, filter_cons_of_neg (by simp),
    filter_eq_nil_iff.2 fun a ha => by simpa using (hfst a ha x mem_cons_self).le,
    filter_eq_self.2 fun a ha => by simpa using hx a ha] at hperm
  exact hperm

theorem length_orderBy (l : List α) : (l.orderBy key).length = l.length := (orderBy_perm key l).length_eq

theorem greatest_spec (h : l.greatest key = some a) : a ∈ l ∧ ∀ b ∈ l, key b ≤ key a := by
  obtain ⟨ys, hys⟩ := getLast?_eq_some_iff.1 h
  have hp := orderBy_pairwise key l
  rw [hys, pairwise_append] at hp
  refine ⟨(mem_orderBy key).1 (by simp [hys]), fun b hb => ?_⟩
  rw [← mem_orderBy key, hys, mem_append, mem_singleton] at hb
  rcases hb with hb | rfl
  · exact hp.2.2 b hb a (mem_singleton_self a)
  · exact le_rfl

theorem least_spec (h : l.least key = some a) : a ∈ l ∧ ∀ b ∈ l, key a ≤ key b := by
  obtain ⟨ys, hys⟩ := head?_eq_some_iff.1 h
  have hp := orderBy_pairwise key l
  rw [hys, pairwise_cons] at hp
  refine ⟨(mem_orderBy key).1 (by simp [hys]), fun b hb => ?_⟩
  rw [← mem_orderBy key, hys, mem_cons] at hb
  rcases hb with rfl | hb
  · exact le_rfl
  · exact hp.1 b hb

theorem orderBy_eq_nil : l.orderBy key = [] ↔ l = [] := by
  rw [← length_eq_zero_iff, (orderBy_perm key l).length_eq, length_eq_zero_iff]

theorem greatest_eq_none : l.greatest key = none ↔ l = [] := by
  rw [greatest, getLast?_eq_none_iff]
  exact orderBy_eq_nil

theorem least_eq_none : l.least key = none ↔ l = [] := by
  rw [least, head?_eq_none_iff]
  exact orderBy_eq_nil

/-- Without ties the row no other exceeds is the greatest. -/
theorem greatest_of_le (hnd : (l.map key).Nodup) (ha : a ∈ l) (hle : ∀ b ∈ l, key b ≤ key a) :
    l.greatest key = some a := by
  cases h : l.greatest key with
  | none =>
    rw [greatest_eq_none.1 h] at ha
    exact absurd ha not_mem_nil
  | some b =>
    obtain ⟨hb, hbmax⟩ := greatest_spec h
    rw [inj_on_of_nodup_map hnd hb ha (le_antisymm (hle b hb) (hbmax a ha))]

theorem greatest_map_key (l : List α) : (l.greatest key).map key = (l.map key).max? := by
  cases h : l.greatest key with
  | none =>
    rw [greatest_eq_none] at h
    simp [h]
  | some a =>
    obtain ⟨ha, hle⟩ := greatest_spec h
    refine (max?_eq_some_iff.2 ⟨mem_map_of_mem ha, ?_⟩).symm
    simpa using hle

/-- Two reads that agree at every limit, one going on where the other ends, agree once the
rest yields nothing. -/
theorem filterMap_take_append_iff {β : Type*} (f : α → Option β) (a b : List α) :
    (∀ n, ((a ++ b).take n).filterMap f = (a.take n).filterMap f) ↔ ∀ x ∈ b, f x = none := by
  constructor
  · intro h
    have hall := h (a ++ b).length
    rw [take_length, take_of_length_le (by simp), filterMap_append,
      append_right_eq_self] at hall
    exact filterMap_eq_nil_iff.1 hall
  · intro h n
    rw [take_append, filterMap_append, append_right_eq_self, filterMap_eq_nil_iff]
    exact fun x hx => h x (mem_of_mem_take hx)

end List
