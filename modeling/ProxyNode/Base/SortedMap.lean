import Mathlib.Data.List.Induction
import Mathlib.Data.List.Sort
import Mathlib.Data.Prod.Lex

/-! Finite maps over a linear order, kept as the list of their entries in strictly
ascending key order. Two maps with the same lookups are equal, so an ordered map can
be reasoned about through `get?` alone. -/

variable {K V : Type*} [LinearOrder K]

/-- A finite map as its strictly ascending entry list. -/
structure SortedMap (K V : Type*) [LinearOrder K] where
  entries : List (K × V)
  sorted : entries.Pairwise fun a b => a.1 < b.1

namespace SortedMap

open List

def insertEntry (k : K) (v : V) : List (K × V) → List (K × V)
  | [] => [(k, v)]
  | e :: es =>
    if k < e.1 then (k, v) :: e :: es
    else if k = e.1 then (k, v) :: es
    else e :: insertEntry k v es

variable {k : K} {v : V}

theorem mem_insertEntry {es : List (K × V)} (hs : es.Pairwise fun a b => a.1 < b.1) (e : K × V) :
    e ∈ insertEntry k v es ↔ e = (k, v) ∨ (e ∈ es ∧ e.1 ≠ k) := by
  induction es with
  | nil => simp [insertEntry]
  | cons a es ih =>
    rw [pairwise_cons] at hs
    unfold insertEntry
    split_ifs with h1 h2
    · -- every entry kept lies above `k`
      have hne : ∀ x ∈ a :: es, x.1 ≠ k := by
        intro x hx
        rcases mem_cons.1 hx with rfl | hx
        · exact ne_of_gt h1
        · exact ne_of_gt (h1.trans (hs.1 x hx))
      rw [mem_cons]
      constructor
      · rintro (h | h)
        · exact Or.inl h
        · exact Or.inr ⟨h, hne e h⟩
      · rintro (h | h)
        · exact Or.inl h
        · exact Or.inr h.1
    · subst h2
      have hne : ∀ x ∈ es, x.1 ≠ a.1 := fun x hx => ne_of_gt (hs.1 x hx)
      rw [mem_cons, mem_cons]
      constructor
      · rintro (h | h)
        · exact Or.inl h
        · exact Or.inr ⟨Or.inr h, hne e h⟩
      · rintro (h | ⟨rfl | h, hk⟩)
        · exact Or.inl h
        · exact absurd rfl hk
        · exact Or.inr h
    · have ha : a.1 ≠ k := fun h => h2 h.symm
      rw [mem_cons, ih hs.2, mem_cons]
      constructor
      · rintro (rfl | h | h)
        · exact Or.inr ⟨Or.inl rfl, ha⟩
        · exact Or.inl h
        · exact Or.inr ⟨Or.inr h.1, h.2⟩
      · rintro (h | ⟨h | h, hk⟩)
        · exact Or.inr (Or.inl h)
        · exact Or.inl h
        · exact Or.inr (Or.inr ⟨h, hk⟩)

theorem insertEntry_sorted (k : K) (v : V) {es : List (K × V)} (hs : es.Pairwise fun a b => a.1 < b.1) :
    (insertEntry k v es).Pairwise fun a b => a.1 < b.1 := by
  induction es with
  | nil => simp [insertEntry]
  | cons a es ih =>
    have hs' := pairwise_cons.1 hs
    unfold insertEntry
    split_ifs with h1 h2
    · refine pairwise_cons.2 ⟨fun x hx => ?_, hs⟩
      rcases mem_cons.1 hx with rfl | hx
      · exact h1
      · exact h1.trans (hs'.1 x hx)
    · exact pairwise_cons.2 ⟨fun x hx => h2 ▸ hs'.1 x hx, hs'.2⟩
    · refine pairwise_cons.2 ⟨fun x hx => ?_, ih hs'.2⟩
      rcases (mem_insertEntry hs'.2 x).1 hx with rfl | hx
      · exact lt_of_le_of_ne (not_lt.1 h1) (fun h => h2 h.symm)
      · exact hs'.1 x hx.1

def empty : SortedMap K V := ⟨[], List.Pairwise.nil⟩

instance : EmptyCollection (SortedMap K V) := ⟨empty⟩

instance : Inhabited (SortedMap K V) := ⟨empty⟩

def insert (m : SortedMap K V) (k : K) (v : V) : SortedMap K V :=
  ⟨insertEntry k v m.entries, insertEntry_sorted k v m.sorted⟩

def get? (m : SortedMap K V) (k : K) : Option V :=
  (m.entries.find? fun e => e.1 = k).map Prod.snd

def erase (m : SortedMap K V) (k : K) : SortedMap K V :=
  ⟨m.entries.filter fun e => e.1 ≠ k, m.sorted.filter _⟩

def retain (m : SortedMap K V) (p : K → V → Bool) : SortedMap K V :=
  ⟨m.entries.filter fun e => p e.1 e.2, m.sorted.filter _⟩

def upsert (m : SortedMap K V) (k : K) (f : V → V) (d : V) : SortedMap K V :=
  m.insert k (((m.get? k).map f).getD d)

def keys (m : SortedMap K V) : List K := m.entries.map Prod.fst

def values (m : SortedMap K V) : List V := m.entries.map Prod.snd

def contains (m : SortedMap K V) (k : K) : Bool := (m.get? k).isSome

def size (m : SortedMap K V) : ℕ := m.entries.length

/-- The entries strictly above `bound`, or all of them. -/
def above (m : SortedMap K V) : Option K → List (K × V)
  | some b => m.entries.filter fun e => b < e.1
  | none => m.entries

/-- The elements by key, each group in the order of the list; those without a key are left out. -/
def groupBy {α : Type*} (key : α → Option K) (l : List α) : SortedMap K (List α) :=
  l.foldl (fun groups a => match key a with
    | some k => groups.upsert k (· ++ [a]) [a]
    | none => groups) ∅

/-- The map of the entries; the last one of a key counts. -/
def collect (l : List (K × V)) : SortedMap K V := l.foldl (fun m e => m.insert e.1 e.2) ∅

/-- Write `v` under `k` unless as much is there. -/
def raise [LinearOrder V] (m : SortedMap K V) (k : K) (v : V) : SortedMap K V :=
  match m.get? k with
  | some stored => if stored < v then m.insert k v else m
  | none => m.insert k v

def lastKey? (m : SortedMap K V) : Option K := m.keys.getLast?

theorem keys_nodup (m : SortedMap K V) : m.keys.Nodup :=
  pairwise_map.2 (m.sorted.imp fun hab => ne_of_lt hab)

theorem keys_sorted (m : SortedMap K V) : m.keys.Pairwise (· < ·) :=
  pairwise_map.2 m.sorted

theorem key_unique (m : SortedMap K V) {w : V} (hv : (k, v) ∈ m.entries) (hw : (k, w) ∈ m.entries) : v = w :=
  (Prod.mk.inj (inj_on_of_nodup_map m.keys_nodup hv hw rfl)).2

variable {m : SortedMap K V}

theorem get?_eq_some :
    m.get? k = some v ↔ (k, v) ∈ m.entries := by
  unfold get?
  rw [Option.map_eq_some_iff]
  constructor
  · rintro ⟨e, he, rfl⟩
    have hk : e.1 = k := by simpa using find?_some he
    subst hk
    exact mem_of_find?_eq_some he
  · intro h
    cases hf : m.entries.find? (fun e => e.1 = k) with
    | none =>
      rw [find?_eq_none] at hf
      exact absurd (decide_eq_true (rfl : (k, v).1 = k)) (hf _ h)
    | some e =>
      have hk : e.1 = k := by simpa using find?_some hf
      subst hk
      exact ⟨e, rfl, m.key_unique (mem_of_find?_eq_some hf) h⟩

theorem get?_eq_none :
    m.get? k = none ↔ ∀ v, (k, v) ∉ m.entries := by
  rw [← not_iff_not, not_forall_not, ← Option.ne_none_iff_exists'.trans
    (exists_congr fun v => get?_eq_some (m := m) (k := k) (v := v))]

theorem mem_keys : k ∈ m.keys ↔ ∃ v, m.get? k = some v := by
  simp [keys, get?_eq_some]

@[simp] theorem get?_empty (k : K) : (∅ : SortedMap K V).get? k = none := rfl

theorem mem_entries_insert {e : K × V} :
    e ∈ (m.insert k v).entries ↔ e = (k, v) ∨ (e ∈ m.entries ∧ e.1 ≠ k) :=
  mem_insertEntry m.sorted e

theorem get?_insert (m : SortedMap K V) (k k' : K) (v : V) :
    (m.insert k v).get? k' = if k' = k then some v else m.get? k' := by
  split_ifs with h
  · subst h
    exact get?_eq_some.2 (mem_entries_insert.2 (Or.inl rfl))
  · apply Option.ext
    intro w
    rw [get?_eq_some, get?_eq_some, mem_entries_insert]
    simp [h]

theorem mem_keys_insert {k' : K} :
    k' ∈ (m.insert k v).keys ↔ k' = k ∨ k' ∈ m.keys := by
  rw [mem_keys, mem_keys]
  simp only [get?_insert]
  by_cases h : k' = k <;> simp [h]

@[simp] theorem get?_insert_self (m : SortedMap K V) (k : K) (v : V) :
    (m.insert k v).get? k = some v := by
  rw [get?_insert, if_pos rfl]

section Fold

variable {α : Type*} {key : α → K} {val : α → V} {l : List α}

theorem get?_foldl_insert_of_ne {k : K} (h : ∀ a ∈ l, key a ≠ k) (m : SortedMap K V) :
    (l.foldl (fun m a => m.insert (key a) (val a)) m).get? k = m.get? k := by
  induction l generalizing m with
  | nil => rfl
  | cons a l ih =>
    obtain ⟨ha, hl⟩ := forall_mem_cons.1 h
    rw [foldl_cons, ih hl, get?_insert, if_neg (Ne.symm ha)]

/-- Entries of distinct keys, written one by one, are all there. -/
theorem get?_foldl_insert (hnd : (l.map key).Nodup) {a : α} (ha : a ∈ l) (m : SortedMap K V) :
    (l.foldl (fun m a => m.insert (key a) (val a)) m).get? (key a) = some (val a) := by
  induction l generalizing m with
  | nil => exact absurd ha not_mem_nil
  | cons b l ih =>
    rw [map_cons, nodup_cons] at hnd
    rw [foldl_cons]
    rcases mem_cons.1 ha with rfl | ha
    · have hne : ∀ c ∈ l, key c ≠ key a := fun c hc heq => hnd.1 (heq ▸ mem_map_of_mem hc)
      rw [get?_foldl_insert_of_ne hne, get?_insert_self]
    · exact ih hnd.2 ha _

end Fold

variable {l : List (K × V)}

theorem mem_of_get?_collect (h : (collect l).get? k = some v) :
    (k, v) ∈ l := by
  induction l using reverseRecOn with
  | nil => cases h
  | append_singleton l e ih =>
    rw [collect, foldl_append] at h
    rw [mem_append]
    by_cases hk : k = e.1
    · subst hk
      obtain rfl := Option.some.inj ((get?_insert_self ..).symm.trans h)
      exact Or.inr (mem_singleton.2 rfl)
    · exact Or.inl (ih (((get?_insert ..).trans (if_neg hk)).symm.trans h))

theorem exists_get?_collect (h : (k, v) ∈ l) :
    ∃ w, (collect l).get? k = some w := by
  induction l using reverseRecOn with
  | nil => exact absurd h not_mem_nil
  | append_singleton l e ih =>
    rw [collect, foldl_append]
    by_cases hk : k = e.1
    · subst hk
      exact ⟨e.2, get?_insert_self ..⟩
    · rcases mem_append.1 h with h | h
      · obtain ⟨w, hw⟩ := ih h
        exact ⟨w, ((get?_insert ..).trans (if_neg hk)).trans hw⟩
      · exact absurd (congrArg Prod.fst (mem_singleton.1 h)) hk

/-- Entries that agree on a key are found under it. -/
theorem get?_collect {o : Option V} (h : ∀ v, (k, v) ∈ l ↔ o = some v) :
    (collect l).get? k = o := by
  apply Option.ext
  intro v
  refine ⟨fun hv => (h v).1 (mem_of_get?_collect hv), fun hv => ?_⟩
  obtain ⟨w, hw⟩ := exists_get?_collect ((h v).2 hv)
  have how := (h w).1 (mem_of_get?_collect hw)
  rw [hw, ← how, hv]

theorem get?_raise [LinearOrder V] (m : SortedMap K V) (k k' : K) (v : V) : (m.raise k v).get? k' =
    if k' = k then some ((m.get? k).elim v fun stored => max stored v) else m.get? k' := by
  unfold raise
  cases hm : m.get? k with
  | none => exact get?_insert ..
  | some stored =>
    dsimp only
    by_cases hv : stored < v
    · rw [if_pos hv, get?_insert, Option.elim_some, max_eq_right hv.le]
    · rw [if_neg hv, Option.elim_some, max_eq_left (not_lt.1 hv)]
      split_ifs with hk
      · rw [hk, hm]
      · rfl

theorem get?_upsert (m : SortedMap K V) (k k' : K) (f : V → V) (d : V) :
    (m.upsert k f d).get? k' =
      if k' = k then some (((m.get? k).map f).getD d) else m.get? k' :=
  get?_insert m k k' _

section GroupBy

variable {α : Type*} {key : α → Option K}

theorem groupBy_concat (l : List α) (a : α) : groupBy key (l ++ [a]) =
    match key a with
    | some k => (groupBy key l).upsert k (· ++ [a]) [a]
    | none => groupBy key l := by
  rw [groupBy, foldl_append]
  rfl

/-- A group is what the list has of its key, if it has any. -/
theorem get?_groupBy {l : List α} {k : K} {group : List α} :
    (groupBy key l).get? k = some group ↔ group = l.filter (fun a => key a = some k) ∧ group ≠ [] := by
  induction l using reverseRecOn generalizing group with
  | nil =>
    constructor
    · intro h
      cases h
    · rintro ⟨rfl, hne⟩
      exact absurd rfl hne
  | append_singleton l a ih =>
    rw [groupBy_concat, filter_append]
    by_cases hkey : key a = some k
    · -- the group so far, or none, and the new element behind it
      have hgroup : (((groupBy key l).get? k).map (· ++ [a])).getD [a] =
          l.filter (fun a => key a = some k) ++ [a] := by
        cases hfnd : (groupBy key l).get? k with
        | some old =>
          rw [(ih.1 hfnd).1]
          rfl
        | none =>
          have hnil : l.filter (fun a => key a = some k) = [] := by
            by_contra hne
            rw [ih.2 ⟨rfl, hne⟩] at hfnd
            cases hfnd
          rw [hnil]
          rfl
      rw [hkey]
      dsimp only
      rw [get?_upsert, if_pos rfl, hgroup, Option.some.injEq, filter_cons_of_pos (by simpa using hkey),
        filter_nil]
      constructor
      · rintro rfl
        exact ⟨rfl, append_ne_nil_of_right_ne_nil _ (cons_ne_nil _ _)⟩
      · exact fun h => h.1.symm
    · have hsame : (groupBy key (l ++ [a])).get? k = (groupBy key l).get? k := by
        rw [groupBy_concat]
        cases ha : key a with
        | none => rfl
        | some j =>
          dsimp only
          rw [get?_upsert, if_neg]
          rintro rfl
          exact hkey ha
      rw [← groupBy_concat, hsame, filter_cons_of_neg (by simpa using hkey), filter_nil, append_nil]
      exact ih

end GroupBy

theorem get?_erase (m : SortedMap K V) (k k' : K) :
    (m.erase k).get? k' = if k' = k then none else m.get? k' := by
  split_ifs with h
  · subst h
    rw [get?_eq_none]
    intro v hv
    simp [erase] at hv
  · apply Option.ext
    intro w
    rw [get?_eq_some, get?_eq_some]
    simp [erase, h]

theorem get?_retain (m : SortedMap K V) (p : K → V → Bool) (k : K) :
    (m.retain p).get? k = (m.get? k).filter (p k) := by
  apply Option.ext
  intro w
  rw [get?_eq_some, Option.filter_eq_some_iff, get?_eq_some]
  simp [retain]

theorem ext_get? {n : SortedMap K V} (h : ∀ k, m.get? k = n.get? k) : m = n := by
  have hmem : ∀ e, e ∈ m.entries ↔ e ∈ n.entries := by
    rintro ⟨k, v⟩
    rw [← get?_eq_some, ← get?_eq_some, h]
  have hp : m.entries.Perm n.entries :=
    (perm_ext_iff_of_nodup m.keys_nodup.of_map n.keys_nodup.of_map).2 hmem
  have he : m.entries = n.entries :=
    hp.eq_of_pairwise (fun a b _ _ hab hba => absurd hba (lt_asymm hab)) m.sorted n.sorted
  cases m; cases n
  simp only at he
  subst he
  rfl

theorem mem_above {b : Option K} {e : K × V} :
    e ∈ m.above b ↔ e ∈ m.entries ∧ ∀ x, b = some x → x < e.1 := by
  cases b <;> simp [above]

theorem above_sorted (m : SortedMap K V) (b : Option K) :
    (m.above b).Pairwise fun x y => x.1 < y.1 := by
  cases b with
  | none => exact m.sorted
  | some b => exact m.sorted.filter _

end SortedMap
