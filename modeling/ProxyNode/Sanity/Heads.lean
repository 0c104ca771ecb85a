import ProxyNode.Base.Lists
import ProxyNode.Spec.SqlLog

/-! The head table holds the winner of each row, so the guard of a write sees the greatest
other op logged for the row. -/

namespace ProxyNode

open Wire SqlKey List

/-! ## Keys in SQL -/

theorem asU64_asI64 (hlc : Hlc) : asU64 (asI64 hlc) = hlc := by
  have hlt := hlc.isLt
  apply Fin.ext
  simp only [asU64, asI64, Fin.val_ofNat]
  split <;> omega

@[simp] theorem SqlKey.orderKey_of (key : OrderKey) : (of key).orderKey = key := by
  simp only [orderKey, of, ofLex_toLex, asU64_asI64]

@[simp] theorem SqlKey.opId_of (key : OrderKey) : (of key).opId = key.opId := rfl

theorem asI64_lt {a b : Hlc} (ha : a.val < 2 ^ 63) (hb : b.val < 2 ^ 63) : asI64 a < asI64 b ↔ a < b := by
  rw [asI64, asI64, if_pos ha, if_pos hb, Fin.lt_def]
  omega

theorem asI64_inj {a b : Hlc} (h : asI64 a = asI64 b) : a = b := by
  rw [← asU64_asI64 a, h, asU64_asI64]

/-- Below `2^63` the signed columns sort as the order keys do. -/
theorem SqlKey.of_lt {a b : OrderKey} (ha : a.hlc.val < 2 ^ 63) (hb : b.hlc.val < 2 ^ 63) :
    of a < of b ↔ a < b := by
  have hdef : a < b ↔ toLex (a.hlc, toLex (a.device, a.opId)) < toLex (b.hlc, toLex (b.device, b.opId)) := Iff.rfl
  simp only [hdef, of, Prod.Lex.toLex_lt_toLex, asI64_lt ha hb]
  refine or_congr Iff.rfl (and_congr_left fun _ => ⟨asI64_inj, congrArg asI64⟩)

/-! ## The winner of a row -/

namespace OplogDb

def appliedKeys (db : OplogDb) (row : RowRef) : List SqlKey :=
  (db.oplog.filter fun r => r.row = row && r.applied).map (·.key)

variable {db : OplogDb} {row : RowRef}

theorem mem_appliedKeys {key : SqlKey} :
    key ∈ db.appliedKeys row ↔ ∃ r ∈ db.oplog, r.row = row ∧ r.applied = true ∧ r.key = key := by
  simp [appliedKeys, and_assoc]

/-- Each row's head is the greatest of its applied ops. -/
def HeadsOk (db : OplogDb) : Prop :=
  ∀ row, (db.heads.find? (·.row = row)).map (·.key) = (db.appliedKeys row).max?

theorem headsOk_empty (epoch : Epoch) : (empty epoch).HeadsOk := fun _ => rfl

theorem find?_map_row {heads : List HeadRow} {f : HeadRow → HeadRow} (hf : ∀ h, (f h).row = h.row) (row : RowRef) :
    (heads.map f).find? (·.row = row) = (heads.find? (·.row = row)).map f := by
  rw [find?_map]
  congr 2
  funext h
  simp [hf]

theorem find?_rewriteRow {heads : List HeadRow} {f : HeadRow → HeadRow} (hf : ∀ h, (f h).row = h.row)
    (row row' : RowRef) :
    (heads.map fun h => if h.row = row then f h else h).find? (·.row = row') =
      if row' = row then (heads.find? (·.row = row)).map f else heads.find? (·.row = row') := by
  rw [find?_map_row (fun h => by split <;> simp [hf])]
  by_cases hrow : row' = row
  · subst hrow
    rw [if_pos rfl]
    refine Option.map_congr fun h hfind => ?_
    rw [if_pos (by simpa using find?_some hfind)]
  · rw [if_neg hrow]
    refine (Option.map_congr fun h hfind => ?_).trans Option.map_id'
    have hh : h.row = row' := by simpa using find?_some hfind
    rw [if_neg (hh ▸ hrow)]

/-- The head a row has after `upsertHead`, from the one it had: the greater key stays, and the
op's device replaces the kept one unless the row has an older op. -/
def mergedHead (op : SignedOp) (row : RowRef) (older : Bool) (head : Option HeadRow) : HeadRow :=
  let merged := head.elim ⟨row, SqlKey.of op.orderKey, op.body.payload.1, op.body.device⟩ fun h =>
    if h.key < SqlKey.of op.orderKey then { h with key := SqlKey.of op.orderKey, payload := op.body.payload.1 }
    else h
  if older then merged else { merged with originDevice := op.body.device }

theorem upsertHead_head (db : OplogDb) (op : SignedOp) (row row' : RowRef) :
    (db.upsertHead op row).heads.find? (·.row = row') =
      if row' = row then
        some (mergedHead op row (db.oplog.any fun r => r.row = row && r.applied && r.key < of op.orderKey)
          (db.heads.find? (·.row = row)))
      else db.heads.find? (·.row = row') := by
  obtain ⟨heads, hheads⟩ : ∃ heads, (if db.heads.any (·.row = row) then
      db.heads.map fun h => if h.row = row ∧ h.key < of op.orderKey then
        { h with key := of op.orderKey, payload := op.body.payload.1 } else h
    else db.heads ++ [⟨row, of op.orderKey, op.body.payload.1, op.body.device⟩]) = heads := ⟨_, rfl⟩
  -- the first statement makes sure of a head
  have hfst : ∀ row', heads.find? (·.row = row') =
      if row' = row then some (mergedHead op row true (db.heads.find? (·.row = row)))
      else db.heads.find? (·.row = row') := by
    intro row'
    rw [← hheads]
    by_cases hany : db.heads.any (·.row = row) = true
    · obtain ⟨h, hfind⟩ : ∃ h, db.heads.find? (·.row = row) = some h := by
        rw [← Option.isSome_iff_exists, find?_isSome]
        simpa using hany
      simp only [hany, if_true, ite_and]
      rw [find?_rewriteRow (fun h => by split <;> rfl), hfind]
      rfl
    · have hnone : db.heads.find? (·.row = row) = none := by
        rw [find?_eq_none]
        simpa using hany
      rw [if_neg hany, find?_append, hnone]
      by_cases hrow : row' = row
      · simp [hrow, hnone, mergedHead]
      · simp [hrow, Ne.symm hrow]
  simp only [upsertHead, hheads]
  cases db.oplog.any fun r => r.row = row && r.applied && r.key < of op.orderKey with
  | true =>
    rw [if_pos rfl]
    exact hfst row'
  | false =>
    rw [if_neg Bool.false_ne_true, find?_rewriteRow (by intro h; rfl), hfst, hfst, if_pos rfl]
    split
    · rfl
    · rfl

def headEntry (db : OplogDb) (row : RowRef) : Option (SqlKey × List Byte) :=
  (db.heads.find? (·.row = row)).map fun h => (h.key, h.payload)

theorem headEntry_key (db : OplogDb) (row : RowRef) :
    (db.headEntry row).map Prod.fst = (db.heads.find? (·.row = row)).map (·.key) := by
  rw [headEntry, Option.map_map]
  rfl

/-- What `upsertHead` does to the entry of each row: the greater key stays. -/
theorem upsertHead_entry (db : OplogDb) (op : SignedOp) (row row' : RowRef) :
    (db.upsertHead op row).headEntry row' =
      if row' = row then
        some ((db.headEntry row).elim (of op.orderKey, op.body.payload.1) fun e =>
          if e.1 < of op.orderKey then (of op.orderKey, op.body.payload.1) else e)
      else db.headEntry row' := by
  rw [headEntry, upsertHead_head]
  split
  · rw [headEntry, Option.map_some, mergedHead]
    cases db.heads.find? (·.row = row) with
    | none => split <;> rfl
    | some h =>
      simp only [Option.elim_some, Option.map_some]
      split <;> split <;> rfl
  · rfl

/-- What `upsertHead` does to the key of each head. -/
theorem upsertHead_find? (db : OplogDb) (op : SignedOp) (row row' : RowRef) :
    ((db.upsertHead op row).heads.find? (·.row = row')).map (·.key) =
      if row' = row then
        some (((db.heads.find? (·.row = row)).map (·.key)).elim (of op.orderKey)
          (max · (of op.orderKey)))
      else (db.heads.find? (·.row = row')).map (·.key) := by
  rw [← headEntry_key, ← headEntry_key, ← headEntry_key, upsertHead_entry]
  split
  · cases db.headEntry row with
    | none => rfl
    | some e =>
      simp only [Option.elim_some, Option.map_some, Option.some.injEq]
      split
      · rename_i hlt
        exact (max_eq_right hlt.le).symm
      · rename_i hlt
        exact (max_eq_left (not_lt.1 hlt)).symm
  · rfl

@[simp] theorem upsertHead_oplog (db : OplogDb) (op : SignedOp) (row : RowRef) :
    (db.upsertHead op row).oplog = db.oplog := rfl

theorem noteOwnOp_same (db : OplogDb) (op : SignedOp) :
    (db.noteOwnOp op).oplog = db.oplog ∧ (db.noteOwnOp op).heads = db.heads := by
  simp only [noteOwnOp, advanceLocalCoverage]
  split
  · split <;> exact ⟨rfl, rfl⟩
  · exact ⟨rfl, rfl⟩

def logRow (op : SignedOp) (table rowPk : String) (origin : ℤ) : OplogRow :=
  ⟨SqlKey.of op.orderKey, ⟨op.body.store, table, rowPk⟩, [], op.toBytes, origin, true⟩

variable {op : SignedOp}

theorem append_known (h : ∃ r ∈ db.oplog, r.opId = op.id) (table rowPk : String) (origin now : ℤ) :
    db.append op table rowPk origin now = (db, false) := by
  obtain ⟨r, hr, hid⟩ := h
  rw [append, if_pos (any_eq_true.2 ⟨r, hr, by simpa using hid⟩)]

def withOp (db : OplogDb) (op : SignedOp) (table rowPk : String) (origin now : ℤ) : OplogDb :=
  { db with
    oplog := db.oplog ++ [logRow op table rowPk origin]
    arrivals := db.arrivals ++ [⟨db.lastSeq + 1, op.id, now⟩]
    lastSeq := db.lastSeq + 1 }

theorem append_new (h : ∀ r ∈ db.oplog, r.opId ≠ op.id) (table rowPk : String) (origin now : ℤ) :
    db.append op table rowPk origin now =
      (if origin = originLocal then
          ((db.withOp op table rowPk origin now).upsertHead op ⟨op.body.store, table, rowPk⟩).noteOwnOp op
        else (db.withOp op table rowPk origin now).upsertHead op ⟨op.body.store, table, rowPk⟩, true) := by
  have hnew : ¬ db.oplog.any (·.opId = op.id) = true := by simpa using h
  rw [append, if_neg hnew]
  rfl

theorem append_new_oplog (h : ∀ r ∈ db.oplog, r.opId ≠ op.id) (table rowPk : String) (origin now : ℤ) :
    (db.append op table rowPk origin now).1.oplog = db.oplog ++ [logRow op table rowPk origin] := by
  rw [append_new h]
  split
  · exact (noteOwnOp_same _ op).1
  · rfl

theorem append_new_heads (h : ∀ r ∈ db.oplog, r.opId ≠ op.id) (table rowPk : String) (origin now : ℤ) :
    (db.append op table rowPk origin now).1.heads =
      ((db.withOp op table rowPk origin now).upsertHead op ⟨op.body.store, table, rowPk⟩).heads := by
  rw [append_new h]
  split
  · exact (noteOwnOp_same _ op).2
  · rfl

theorem appliedKeys_append {db' : OplogDb} {table rowPk : String} {origin : ℤ}
    (h : db'.oplog = db.oplog ++ [logRow op table rowPk origin]) (row : RowRef) :
    db'.appliedKeys row =
      db.appliedKeys row ++ if row = ⟨op.body.store, table, rowPk⟩ then [of op.orderKey] else [] := by
  rw [appliedKeys, h, filter_append, map_append, appliedKeys]
  congr 1
  by_cases hrow : row = ⟨op.body.store, table, rowPk⟩
  · simp [logRow, hrow]
  · simp [logRow, hrow, Ne.symm hrow]

theorem append_headOk (h : (db.heads.find? (·.row = row)).map (·.key) = (db.appliedKeys row).max?)
    (op : SignedOp) (table rowPk : String) (origin now : ℤ) :
    ((db.append op table rowPk origin now).1.heads.find? (·.row = row)).map (·.key) =
      ((db.append op table rowPk origin now).1.appliedKeys row).max? := by
  by_cases hkn : ∃ r ∈ db.oplog, r.opId = op.id
  · rwa [append_known hkn]
  · have hnew : ∀ r ∈ db.oplog, r.opId ≠ op.id := fun r hr hid => hkn ⟨r, hr, hid⟩
    rw [append_new_heads hnew, upsertHead_find?, appliedKeys_append (append_new_oplog hnew table rowPk origin now)]
    by_cases hrow : row = ⟨op.body.store, table, rowPk⟩
    · rw [if_pos hrow, if_pos hrow, max?_concat, ← h, hrow]
      rfl
    · rw [if_neg hrow, if_neg hrow, append_nil]
      exact h

theorem append_headsOk (h : db.HeadsOk) (op : SignedOp) (table rowPk : String) (origin now : ℤ) :
    (db.append op table rowPk origin now).1.HeadsOk :=
  fun row => append_headOk (h row) op table rowPk origin now

/-! ## The guard -/

def otherKeys (db : OplogDb) (row : RowRef) (exclude : OpId) : List SqlKey :=
  (db.oplog.filter fun r => r.row = row && r.applied && r.opId ≠ exclude).map (·.key)

theorem mem_otherKeys {exclude : OpId} {key : SqlKey} :
    key ∈ db.otherKeys row exclude ↔ key ∈ db.appliedKeys row ∧ key.opId ≠ exclude := by
  rw [mem_appliedKeys]
  simp only [otherKeys, mem_map, mem_filter, Bool.and_eq_true, decide_eq_true_eq]
  constructor
  · rintro ⟨r, ⟨hr, ⟨hrow, happ⟩, hid⟩, rfl⟩
    exact ⟨⟨r, hr, hrow, happ, rfl⟩, hid⟩
  · rintro ⟨⟨r, hr, hrow, happ, rfl⟩, hid⟩
    exact ⟨r, ⟨hr, ⟨hrow, happ⟩, hid⟩, rfl⟩

/-- Excluding an op that is not the head cannot change the winner. -/
theorem newestAppliedInStore_eq (h : db.HeadsOk) (row : RowRef) (exclude : OpId) :
    db.newestAppliedInStore row exclude = (db.otherKeys row exclude).max?.map orderKey := by
  rw [newestAppliedInStore]
  cases hfind : db.heads.find? (·.row = row) with
  | none => rfl
  | some head =>
    by_cases hid : head.key.opId ≠ exclude
    · have hmax := h row
      rw [hfind, Option.map_some] at hmax
      obtain ⟨hmem, hle⟩ := max?_eq_some_iff.1 hmax.symm
      have hoth : (db.otherKeys row exclude).max? = some head.key :=
        max?_eq_some_iff.2 ⟨mem_otherKeys.2 ⟨hmem, hid⟩, fun b hb => hle b (mem_otherKeys.1 hb).1⟩
      simp only [hid, hoth, ne_eq, not_false_eq_true, if_true, Option.map_some]
    · simp only [hid, if_false]
      rfl

end OplogDb

end ProxyNode
