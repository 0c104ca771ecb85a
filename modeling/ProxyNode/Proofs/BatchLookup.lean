import ProxyNode.Sanity.Winners
import ProxyNode.Spec.SqlTables

/-! Winners looked up one at a time and in a batch. Both read the head of a row first; only the
single lookup goes on to the history where there is no head. -/

namespace ProxyNode

open List

namespace OplogTables

variable {t : OplogTables} {store : StoreId} {table pk : String}

/-! ## The batch -/

def headsOf (t : OplogTables) (store : StoreId) (table : String) (chunk : List String) : List HeadRow :=
  t.log.heads.filter fun h => h.row.storeId = store ∧ h.row.tableName = table ∧ h.row.rowPk ∈ chunk

theorem mem_headsOf {chunk : List String} {h : HeadRow} :
    h ∈ t.headsOf store table chunk ↔ h ∈ t.log.heads ∧ h.row = ⟨store, table, h.row.rowPk⟩ ∧
      h.row.rowPk ∈ chunk := by
  rw [headsOf, mem_filter, decide_eq_true_eq]
  refine and_congr_right fun _ => ?_
  obtain ⟨⟨s, n, p⟩, key, payload, origin⟩ := h
  simp [and_assoc]

theorem headsOf_pks (t : OplogTables) (store : StoreId) (table : String) (chunk : List String) :
    ((t.headsOf store table chunk).map (·.row.rowPk)).Nodup := by
  have hrows : ((t.headsOf store table chunk).map (·.row)).Nodup :=
    t.headRows.sublist (filter_sublist.map _)
  refine List.Nodup.map_on (fun h hh h' hh' heq => ?_) hrows.of_map
  refine inj_on_of_nodup_map hrows hh hh' ?_
  rw [(mem_headsOf.1 hh).2.1, (mem_headsOf.1 hh').2.1, heq]

/-- A chunk that asks for a row leaves the payload of its head; every other chunk passes. -/
theorem chunk_get? {head : Option (List Byte)}
    (hhead : (t.log.heads.find? (·.row = ⟨store, table, pk⟩)).map (·.payload) = head) (chunk : List String)
    {newest : SortedMap String (List Byte)} (hnew : newest.get? pk = none ∨ newest.get? pk = head) :
    ((t.headsOf store table chunk).foldl (fun newest h => newest.insert h.row.rowPk h.payload) newest).get? pk =
      if pk ∈ chunk then head else newest.get? pk := by
  split_ifs with hin
  · cases hfind : t.log.heads.find? (·.row = ⟨store, table, pk⟩) with
    | none =>
      obtain rfl : none = head := by rw [← hhead, hfind]; rfl
      rw [SortedMap.get?_foldl_insert_of_ne]
      · exact or_self_iff.1 hnew
      · intro h hh heq
        obtain ⟨hmem, hrow, -⟩ := mem_headsOf.1 hh
        rw [heq] at hrow
        exact absurd hrow (by simpa using find?_eq_none.1 hfind h hmem)
    | some h =>
      have hrow : h.row = ⟨store, table, pk⟩ := by simpa using find?_some hfind
      have hpk : h.row.rowPk = pk := by rw [hrow]
      have hmem : h ∈ t.headsOf store table chunk :=
        mem_headsOf.2 ⟨mem_of_find?_eq_some hfind, by rw [hpk, hrow], hpk ▸ hin⟩
      have hget : ((t.headsOf store table chunk).foldl (fun newest h => newest.insert h.row.rowPk h.payload)
          newest).get? h.row.rowPk = some h.payload :=
        SortedMap.get?_foldl_insert (t.headsOf_pks store table chunk) hmem newest
      rw [← hhead, hfind, ← hpk]
      exact hget
  · apply SortedMap.get?_foldl_insert_of_ne
    intro h hh heq
    exact hin (heq ▸ (mem_headsOf.1 hh).2.2)

theorem newestOps_get? {rowPks : List String} (hpk : pk ∈ rowPks) :
    (t.newestOpsInStore store table rowPks).get? pk =
      (t.log.heads.find? (·.row = ⟨store, table, pk⟩)).map (·.payload) := by
  generalize hhead : (t.log.heads.find? (·.row = ⟨store, table, pk⟩)).map (·.payload) = head
  -- along the chunks: nothing is there yet and the row is still to come, or its head is there
  have hfold : ∀ (chunks : List (List String)) (newest : SortedMap String (List Byte)),
      newest.get? pk = none ∧ (∃ chunk ∈ chunks, pk ∈ chunk) ∨ newest.get? pk = head →
      (chunks.foldl (fun newest chunk => (t.headsOf store table chunk).foldl
        (fun newest h => newest.insert h.row.rowPk h.payload) newest) newest).get? pk = head := by
    intro chunks
    induction chunks with
    | nil =>
      rintro newest (⟨-, chunk, hchk, -⟩ | hget)
      · exact absurd hchk not_mem_nil
      · exact hget
    | cons chunk chunks ih =>
      intro newest hor
      rw [foldl_cons]
      apply ih
      rw [chunk_get? hhead chunk (hor.imp_left And.left)]
      by_cases hin : pk ∈ chunk
      · exact .inr (if_pos hin)
      · rw [if_neg hin]
        refine hor.imp_left ?_
        rintro ⟨hnone, c, hc, hmem⟩
        rcases mem_cons.1 hc with rfl | hc
        · exact absurd hmem hin
        · exact ⟨hnone, c, hc, hmem⟩
  exact hfold _ ∅ (.inl ⟨rfl, OplogDb.exists_chunk (by decide) le_rfl hpk⟩)

/-! ## Against the single lookup -/

/-- A row without a head has no applied op but `exclude`; a head that is `exclude` has the payload
of the greatest other op. -/
def HeadTells (t : OplogTables) (exclude : OpId) (row : RowRef) : Prop :=
  match t.log.heads.find? (·.row = row) with
  | none => ∀ r, t.log.AppliedIn row r → r.opId = exclude
  | some head => head.key.opId = exclude →
    ∃ r, t.log.AppliedIn row r ∧ r.opId ≠ exclude ∧
      (∀ s, t.log.AppliedIn row s → s.opId ≠ exclude → s.key ≤ r.key) ∧ r.resolvedPayload = head.payload

theorem mem_others {row : RowRef} {exclude : OpId} {r : OplogRow} :
    r ∈ (t.log.appliedRows row).filter (·.opId ≠ exclude) ↔ t.log.AppliedIn row r ∧ r.opId ≠ exclude := by
  rw [mem_filter, OplogDb.mem_appliedRows, decide_eq_true_eq]

theorem others_keys (t : OplogTables) (row : RowRef) (exclude : OpId) :
    (((t.log.appliedRows row).filter (·.opId ≠ exclude)).map (·.key)).Nodup := by
  have hkeys : (t.log.oplog.map (·.key)).Nodup := by
    have hids : t.log.oplog.map (·.opId) = (t.log.oplog.map (·.key)).map SqlKey.opId := by
      rw [map_map]
      rfl
    exact List.Nodup.of_map SqlKey.opId (hids ▸ t.opIds)
  exact hkeys.sublist ((filter_sublist.trans filter_sublist).map _)

theorem headTells_iff (t : OplogTables) (exclude : OpId) (row : RowRef) :
    (t.log.heads.find? (·.row = row)).map (·.payload) = (t.log.newestOpInStore row exclude).map Prod.snd ↔
      t.HeadTells exclude row := by
  generalize hscan : ((t.log.appliedRows row).filter (·.opId ≠ exclude)).greatest (·.key) = scan
  rw [OplogDb.newestOpInStore, HeadTells, hscan]
  cases hfind : t.log.heads.find? (·.row = row) with
  | none =>
    simp only [Option.map_none, Option.map_map]
    rw [eq_comm, Option.map_eq_none_iff, ← hscan, greatest_eq_none, eq_nil_iff_forall_not_mem]
    refine forall_congr' fun r => ?_
    rw [mem_others, not_and, not_not]
  | some head =>
    by_cases hid : head.key.opId = exclude
    · simp only [hid, ne_eq, not_true_eq_false, if_false, forall_const, Option.map_some, Option.map_map]
      rw [eq_comm, Option.map_eq_some_iff]
      refine exists_congr fun r => ?_
      rw [← hscan]
      constructor
      · rintro ⟨hgrt, hpay⟩
        obtain ⟨hr, hle⟩ := greatest_spec hgrt
        obtain ⟨happ, hne⟩ := mem_others.1 hr
        exact ⟨happ, hne, fun s hs hs' => hle s (mem_others.2 ⟨hs, hs'⟩), hpay⟩
      · rintro ⟨happ, hne, hle, hpay⟩
        refine ⟨greatest_of_le (t.others_keys row exclude) (mem_others.2 ⟨happ, hne⟩) ?_, hpay⟩
        intro s hs
        exact hle s (mem_others.1 hs).1 (mem_others.1 hs).2
    · simp [hid]

/-- The batch agrees with the single lookups, whatever id these leave out, exactly if the head
table tells of every row asked for. -/
theorem lookups_agree_iff (t : OplogTables) (store : StoreId) (table : String) (rowPks : List String)
    (exclude : OpId) :
    (∀ pk ∈ rowPks, (t.newestOpsInStore store table rowPks).get? pk =
      (t.log.newestOpInStore ⟨store, table, pk⟩ exclude).map Prod.snd) ↔
    ∀ pk ∈ rowPks, t.HeadTells exclude ⟨store, table, pk⟩ := by
  refine forall₂_congr fun pk hpk => ?_
  rw [newestOps_get? hpk, headTells_iff]

namespace BatchLookup

def logged : OplogDb := ((OplogDb.empty (Wire.fill 32 7)).append (plainRowOp 1 1 10) "rows" "a" 1 0).1

def backfilling : OplogTables where
  log := { logged with heads := [] }
  verified := []
  opIds := by decide
  headRows := by decide

/-- The batch leaves the row out, the single lookup finds its op. -/
theorem headless_row_left_out :
    backfilling.log.contains (Wire.fill 32 9) = false ∧
    (backfilling.newestOpsInStore rowStoreId "rows" ["a"]).get? "a" = none ∧
    backfilling.log.newestOpInStore ⟨rowStoreId, "rows", "a"⟩ (Wire.fill 32 9) =
      some ((plainRowOp 1 1 10).orderKey, []) := by
  decide +kernel

end BatchLookup

end OplogTables

end ProxyNode
