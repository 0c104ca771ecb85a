import Mathlib.Data.List.Find
import ProxyNode.Base.Lists
import ProxyNode.Spec.Rows

/-! What writing one row does to the rows of a table: the addressed row takes the op's image
over what it held, or goes; every other row stays. -/

namespace ProxyNode

open List

section

variable {R : Type}

/-- Values a primary key may hold: neither `NULL` nor a real. -/
def Scalar.plain : Scalar R → Bool
  | .null => false
  | .real _ => false
  | _ => true

def ProxyDbOp.keyValues (op : ProxyDbOp R) : List (Scalar R) := op.key.map (·.val)

/-- An op a table of the schema can take: it names the primary key with plain values, and an
upsert is an image that holds the key. -/
structure FitsSchema (s : Schema R) (op : ProxyDbOp R) : Prop where
  cols : op.key.map (·.col) = s.key
  plain : ∀ f ∈ op.key, f.val.plain = true
  valid : invalidIdent s.key = none
  image : ∀ columns, op.mutation = .upsert columns → invalidIdent (columns.map (·.name)) = none ∧
    (columns.map (·.name)).Nodup ∧ ∀ f ∈ op.key, ⟨f.col, f.val⟩ ∈ columns

/-! ## Setting columns -/

variable {columns : List (Column R)}

theorem find?_column (hn : (columns.map (·.name)).Nodup) {c : Column R} (hc : c ∈ columns) :
    columns.find? (·.name = c.name) = some c := by
  induction columns with
  | nil => simp at hc
  | cons x columns ih =>
    rw [map_cons, nodup_cons] at hn
    rcases mem_cons.1 hc with rfl | hc
    · simp
    · have hne : x.name ≠ c.name := fun h => hn.1 (h ▸ mem_map_of_mem hc)
      rw [find?_cons_of_neg (by simpa using hne)]
      exact ih hn.2 hc

theorem Row.set_of_mem (hn : (columns.map (·.name)).Nodup) {c : Column R} (hc : c ∈ columns) (r : Row R) :
    Row.set r columns c.name = c.value := by
  simp only [Row.set, find?_column hn hc]

theorem Row.set_of_not_mem {name : String} (h : ∀ c ∈ columns, c.name ≠ name) (r : Row R) :
    Row.set r columns name = r name := by
  have hnone : columns.find? (·.name = name) = none := by
    rw [find?_eq_none]
    simpa using h
  simp only [Row.set, hnone]

/-- A column is set by one of the listed values, or stays. -/
theorem Row.set_cases (r : Row R) (columns : List (Column R)) (name : String) :
    (∃ c ∈ columns, c.name = name ∧ Row.set r columns name = c.value) ∨
      (∀ c ∈ columns, c.name ≠ name) ∧ Row.set r columns name = r name := by
  cases hf : columns.find? (·.name = name) with
  | none =>
    have hnone : ∀ c ∈ columns, c.name ≠ name := by simpa using find?_eq_none.1 hf
    exact .inr ⟨hnone, Row.set_of_not_mem hnone r⟩
  | some c =>
    refine .inl ⟨c, mem_of_find?_eq_some hf, by simpa using find?_some hf, ?_⟩
    simp only [Row.set, hf]

theorem Row.set_eq_self {r : Row R} (h : ∀ c ∈ columns, r c.name = c.value) :
    Row.set r columns = r := by
  funext name
  rcases Row.set_cases r columns name with ⟨c, hc, rfl, hset⟩ | ⟨-, hset⟩
  · rw [hset, h c hc]
  · exact hset

/-! ## Key values -/

section Keys

variable {s : Schema R} {op : ProxyDbOp R}

section Fits

variable (hop : FitsSchema s op)
include hop

theorem FitsSchema.key_mem {f : KeyField R} (hf : f ∈ op.key) : f.col ∈ s.key :=
  hop.cols ▸ mem_map_of_mem hf

theorem FitsSchema.key_local : op.key.any (·.col ∉ s.columns) = false := by
  rw [any_eq_false]
  intro f hf
  simpa using s.key_sub _ (hop.key_mem hf)

theorem FitsSchema.map_eq (r : Row R) :
    s.key.map r = op.keyValues ↔ ∀ f ∈ op.key, r f.col = f.val := by
  rw [← hop.cols, map_map, ProxyDbOp.keyValues, map_inj_left]
  rfl

theorem FitsSchema.values_plain {r : Row R} (h : s.key.map r = op.keyValues) :
    ∀ k ∈ s.key, (r k).plain = true := by
  intro k hk
  have hmem : r k ∈ op.keyValues := h ▸ mem_map_of_mem hk
  obtain ⟨f, hf, hval⟩ := mem_map.1 hmem
  rw [← hval]
  exact hop.plain f hf

end Fits

variable {columns : List (Column R)}

theorem present_nodup (hn : (columns.map (·.name)).Nodup) : ((s.present columns).map (·.name)).Nodup :=
  hn.sublist (filter_sublist.map _)

theorem FitsSchema.key_present (hop : FitsSchema s op) (hm : op.mutation = .upsert columns) {f : KeyField R}
    (hf : f ∈ op.key) : (⟨f.col, f.val⟩ : Column R) ∈ s.present columns := by
  obtain ⟨-, -, himage⟩ := hop.image columns hm
  exact mem_filter.2 ⟨himage f hf, by simpa using s.key_sub _ (hop.key_mem hf)⟩

theorem FitsSchema.present_ne (hop : FitsSchema s op) (hm : op.mutation = .upsert columns) :
    s.present columns ≠ [] := by
  obtain ⟨k, hk⟩ := exists_mem_of_ne_nil _ s.key_ne
  rw [← hop.cols] at hk
  obtain ⟨f, hf, -⟩ := mem_map.1 hk
  exact ne_nil_of_mem (hop.key_present hm hf)

/-- An image put over any row carries the op's key. -/
theorem FitsSchema.set_key (hop : FitsSchema s op) (hm : op.mutation = .upsert columns) (r : Row R) :
    s.key.map (Row.set r (s.present columns)) = op.keyValues := by
  obtain ⟨-, hn, -⟩ := hop.image columns hm
  rw [hop.map_eq]
  intro f hf
  exact Row.set_of_mem (present_nodup hn) (hop.key_present hm hf) r

/-- The assigned columns leave the key alone. -/
theorem FitsSchema.assign_key (hop : FitsSchema s op) (r : Row R) :
    s.key.map (Row.set r (assignments op (s.present columns))) = s.key.map r := by
  rw [map_inj_left]
  intro k hk
  apply Row.set_of_not_mem
  intro c hc hname
  rw [← hop.cols] at hk
  obtain ⟨f, hf, rfl⟩ := mem_map.1 hk
  have hfree := (mem_filter.1 hc).2
  simp only [Bool.not_eq_true', any_eq_false, decide_eq_true_eq] at hfree
  exact hfree f hf hname.symm

/-- On the addressed row, assigning the other columns is assigning the whole image. -/
theorem FitsSchema.assign_eq (hop : FitsSchema s op) (hm : op.mutation = .upsert columns) {r : Row R}
    (hr : s.key.map r = op.keyValues) :
    Row.set r (assignments op (s.present columns)) = Row.set r (s.present columns) := by
  obtain ⟨-, hn, -⟩ := hop.image columns hm
  funext name
  rcases Row.set_cases r (assignments op (s.present columns)) name with ⟨c, hc, rfl, hset⟩ | ⟨hnone, hset⟩
  · rw [hset, Row.set_of_mem (present_nodup hn) (mem_filter.1 hc).1]
  · rw [hset]
    rcases Row.set_cases r (s.present columns) name with ⟨c, hc, rfl, hset'⟩ | ⟨-, hset'⟩
    · -- a column of the image that is not assigned is a key column, which the row agrees on
      have hkey : op.key.any (·.col = c.name) = true := by
        by_contra hno
        exact hnone c (mem_filter.2 ⟨hc, by simpa using hno⟩) rfl
      obtain ⟨f, hf, hcol⟩ := any_eq_true.1 hkey
      have hcol : f.col = c.name := by simpa using hcol
      have hval := Row.set_of_mem (present_nodup (s := s) hn) (hop.key_present hm hf) r
      rw [← hcol, (hop.map_eq r).1 hr f hf, hval]
    · exact hset'.symm

end Keys

/-! ## One write -/

def Schema.effect (s : Schema R) (op : ProxyDbOp R) (r : Option (Row R)) : Option (Row R) :=
  match op.mutation with
  | .upsert columns => some (Row.set (r.getD s.default) (s.present columns))
  | .delete => none

variable [DecidableEq R]

def Table.select (t : Table R) (pk : List (Scalar R)) : Option (Row R) :=
  t.rows.find? fun r => t.schema.key.map r = pk

theorem Table.contents_eq (t : Table R) (pk : List (Scalar R)) :
    t.contents pk = (t.select pk).map fun r => t.schema.columns.map r := rfl

theorem Table.select_key {t : Table R} {pk : List (Scalar R)} {r : Row R} (h : t.select pk = some r) :
    r ∈ t.rows ∧ t.schema.key.map r = pk :=
  ⟨mem_of_find?_eq_some h, by simpa using find?_some h⟩

def Table.KeysPlain (t : Table R) : Prop := ∀ r ∈ t.rows, ∀ k ∈ t.schema.key, (r k).plain = true

variable [SqlReal R]

theorem sqlEq_plain {a b : Scalar R} (ha : a.plain = true) (hb : b.plain = true) : sqlEq a b = true ↔ a = b := by
  cases a <;> cases b <;> simp_all [Scalar.plain, sqlEq]

section Write

variable {t : Table R} {op : ProxyDbOp R} {columns : List (Column R)}

theorem whereKey_iff (hop : FitsSchema t.schema op) (ht : t.KeysPlain) {r : Row R} (hr : r ∈ t.rows) :
    whereKey op.key r = true ↔ t.schema.key.map r = op.keyValues := by
  rw [hop.map_eq, whereKey, all_eq_true]
  exact forall₂_congr fun f hf => sqlEq_plain (ht r hr _ (hop.key_mem hf)) (hop.plain f hf)

theorem conflicts_iff (hop : FitsSchema t.schema op) (hm : op.mutation = .upsert columns) (ht : t.KeysPlain)
    {r : Row R} (hr : r ∈ t.rows) :
    (t.schema.key.all fun k => sqlEq (r k) (t.schema.image (t.schema.present columns) k)) = true ↔
      t.schema.key.map r = op.keyValues := by
  have himage := hop.set_key hm t.schema.default
  rw [all_eq_true, ← himage, map_inj_left]
  exact forall₂_congr fun k hk => sqlEq_plain (ht r hr k hk) (hop.values_plain himage k hk)

/-- `t'` is `t` after the op's effect on the row it addresses. -/
structure Writes (op : ProxyDbOp R) (t t' : Table R) : Prop where
  schema : t'.schema = t.schema
  plain : t'.KeysPlain
  select : ∀ pk, t'.select pk = if pk = op.keyValues then t.schema.effect op (t.select pk) else t.select pk

section Writes

variable (hop : FitsSchema t.schema op)
include hop

omit [SqlReal R] in
theorem update_writes (hm : op.mutation = .upsert columns) (ht : t.KeysPlain) {hits : Row R → Bool}
    (hhits : ∀ r ∈ t.rows, hits r = true ↔ t.schema.key.map r = op.keyValues) (hany : t.rows.any hits = true) :
    Writes op t ⟨t.schema, t.rows.map fun r =>
      if hits r then Row.set r (assignments op (t.schema.present columns)) else r⟩ := by
  have hkey : ∀ r, t.schema.key.map (if hits r = true then
      Row.set r (assignments op (t.schema.present columns)) else r) = t.schema.key.map r := by
    intro r
    split
    · exact hop.assign_key r
    · rfl
  refine ⟨rfl, fun r hr k hk => ?_, fun pk => ?_⟩
  · obtain ⟨r', hr', rfl⟩ := mem_map.1 hr
    have hval := map_inj_left.1 (hkey r') k hk
    rw [hval]
    exact ht r' hr' k hk
  · have hfind : (Table.mk t.schema (t.rows.map fun r => if hits r = true then
        Row.set r (assignments op (t.schema.present columns)) else r)).select pk =
        (t.select pk).map fun r => if hits r = true then
          Row.set r (assignments op (t.schema.present columns)) else r := by
      rw [Table.select, find?_map, Table.select]
      congr 2
      funext r
      simp only [Function.comp, hkey]
    rw [hfind]
    cases hsel : t.select pk with
    | none =>
      have hne : pk ≠ op.keyValues := by
        rintro rfl
        obtain ⟨r, hr, hhit⟩ := any_eq_true.1 hany
        exact find?_eq_none.1 hsel r hr (by simpa using (hhits r hr).1 hhit)
      rw [if_neg hne]
      rfl
    | some r =>
      obtain ⟨hr, hrk⟩ := Table.select_key hsel
      rw [Option.map_some]
      by_cases hpk : pk = op.keyValues
      · rw [if_pos hpk, if_pos ((hhits r hr).2 (hrk.trans hpk)), hop.assign_eq hm (hrk.trans hpk),
          Schema.effect, hm]
        rfl
      · rw [if_neg hpk, if_neg fun hhit => hpk (hrk.symm.trans ((hhits r hr).1 hhit))]

omit [SqlReal R] in
theorem insert_writes (hm : op.mutation = .upsert columns) (ht : t.KeysPlain)
    (hfree : ∀ r ∈ t.rows, t.schema.key.map r ≠ op.keyValues) :
    Writes op t ⟨t.schema, t.rows ++ [t.schema.image (t.schema.present columns)]⟩ := by
  have hnew : t.schema.key.map (t.schema.image (t.schema.present columns)) = op.keyValues :=
    hop.set_key hm t.schema.default
  refine ⟨rfl, fun r hr k hk => ?_, fun pk => ?_⟩
  · rcases mem_append.1 hr with hr | hr
    · exact ht r hr k hk
    · obtain rfl := mem_singleton.1 hr
      exact hop.values_plain hnew k hk
  · have hfind : (Table.mk t.schema (t.rows ++ [t.schema.image (t.schema.present columns)])).select pk =
        (t.select pk).or ([t.schema.image (t.schema.present columns)].find? fun r => t.schema.key.map r = pk) :=
      find?_append
    rw [hfind]
    by_cases hpk : pk = op.keyValues
    · have hnone : t.select pk = none := by
        rw [Table.select, find?_eq_none]
        intro r hr
        simpa [hpk] using hfree r hr
      rw [if_pos hpk, hnone, Option.none_or, find?_cons_of_pos (by simpa [hpk] using hnew), Schema.effect, hm]
      rfl
    · rw [if_neg hpk, find?_cons_of_neg (by simpa [hnew] using Ne.symm hpk), find?_nil, Option.or_none]

theorem insertOnConflict_ok (hm : op.mutation = .upsert columns) (ht : t.KeysPlain) :
    ∃ t', t.insertOnConflict (t.schema.present columns) (op.key.map (·.col))
        (assignments op (t.schema.present columns)) = some t' ∧ Writes op t t' := by
  have htgt : (op.key.map (·.col)).isPerm t.schema.key = true := by
    rw [hop.cols, isPerm_iff]
  rw [Table.insertOnConflict, if_pos htgt]
  have hhits := fun r hr => conflicts_iff (r := r) hop hm ht hr
  by_cases hany : (t.rows.any fun r => t.schema.key.all fun k =>
      sqlEq (r k) (t.schema.image (t.schema.present columns) k)) = true
  · exact ⟨_, if_pos hany, update_writes hop hm ht hhits hany⟩
  · refine ⟨_, if_neg hany, insert_writes hop hm ht fun r hr hk => hany ?_⟩
    exact any_eq_true.2 ⟨r, hr, (hhits r hr).2 hk⟩

theorem select_eq_whereKey (ht : t.KeysPlain) :
    t.select op.keyValues = t.rows.find? (whereKey op.key) :=
  find?_congr fun r hr => by rw [Bool.eq_iff_iff, whereKey_iff hop ht hr, decide_eq_true_iff]

theorem deleteWhere_writes (hm : op.mutation = .delete) (ht : t.KeysPlain) :
    Writes op t (t.deleteWhere op.key) := by
  refine ⟨rfl, fun r hr k hk => ht r (mem_filter.1 hr).1 k hk, fun pk => ?_⟩
  have hfind : (t.deleteWhere op.key).select pk =
      t.rows.find? fun r => decide ((!whereKey op.key r) = true ∧ decide (t.schema.key.map r = pk) = true) :=
    find?_filter
  rw [hfind]
  by_cases hpk : pk = op.keyValues
  · rw [if_pos hpk, Schema.effect, hm, find?_eq_none]
    intro r hr
    simp [hpk, ← whereKey_iff hop ht hr]
  · rw [if_neg hpk, Table.select]
    refine find?_congr fun r hr => ?_
    by_cases hk : t.schema.key.map r = pk
    · have hout : ¬ whereKey op.key r = true := fun hw => hpk (hk.symm.trans ((whereKey_iff hop ht hr).1 hw))
      simp [hk, hout]
    · simp [hk]

/-- A row that already has the image is left alone, which is what writing it would do. -/
theorem matches_writes (hm : op.mutation = .upsert columns) (ht : t.KeysPlain)
    (h : upsertMatchesCurrentRow t op (t.schema.present columns) = true) : Writes op t t := by
  refine ⟨rfl, ht, fun pk => ?_⟩
  by_cases hpk : pk = op.keyValues
  · rw [if_pos hpk, hpk, select_eq_whereKey hop ht, Schema.effect, hm]
    rw [upsertMatchesCurrentRow] at h
    cases hfind : t.rows.find? (whereKey op.key) with
    | none => simp [hfind] at h
    | some r =>
      rw [hfind] at h
      simp only [all_eq_true, decide_eq_true_eq] at h
      simp only [Option.getD_some, Row.set_eq_self h]
  · rw [if_neg hpk]

end Writes

/-- Writing an op a table can take succeeds and has the op's effect on the row it addresses. -/
theorem writeRow_ok (tables : Tables R) (locals : List String) (hname : isValidIdent op.table = true)
    (hlocal : op.table ∉ locals) (htab : tables op.table = some t) (hop : FitsSchema t.schema op)
    (ht : t.KeysPlain) :
    ∃ tables' flag t', writeRow tables op locals = .ok (tables', flag) ∧
      tables' op.table = some t' ∧ Writes op t t' := by
  have hput : ∀ t', (tables.put op.table t') op.table = some t' := fun t' => if_pos rfl
  have hkey : op.key.any (·.col ∉ t.schema.columns) = false := hop.key_local
  have hval : invalidIdent (op.key.map (·.col)) = none := hop.cols ▸ hop.valid
  simp only [writeRow, hname, hlocal, htab, Bool.not_true, Bool.false_eq_true, if_false]
  cases hm : op.mutation with
  | delete =>
    simp only [hval, hkey, Bool.false_eq_true, if_false]
    exact ⟨_, _, _, rfl, hput _, deleteWhere_writes hop hm ht⟩
  | upsert columns =>
    have hne : (t.schema.present columns).isEmpty = false := by
      simpa using hop.present_ne hm
    simp only [(hop.image columns hm).1, hval, hkey, hne, Bool.false_eq_true, if_false]
    by_cases hmatch : upsertMatchesCurrentRow t op (t.schema.present columns) = true
    · rw [if_pos hmatch]
      exact ⟨_, _, t, rfl, htab, matches_writes hop hm ht hmatch⟩
    · rw [if_neg hmatch]
      obtain ⟨t', hins, hw⟩ := insertOnConflict_ok hop hm ht
      rw [hins]
      exact ⟨_, _, t', rfl, hput t', hw⟩

end Write

end

end ProxyNode
