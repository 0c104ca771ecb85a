import ProxyNode.Sanity.Compaction
import ProxyNode.Spec.SqlTables

/-! What the deletion of a chunk leaves alone. The deletes test the pins once more; the trimming of
head payloads before them does not. -/

namespace ProxyNode

open List

namespace OplogTables

structure Unchanged (t t' : OplogTables) (id : OpId) : Prop where
  log : t'.log.oplog.filter (·.opId = id) = t.log.oplog.filter (·.opId = id)
  arrival : t'.log.arrivals.filter (·.opId = id) = t.log.arrivals.filter (·.opId = id)
  head : t'.log.heads.filter (·.key.opId = id) = t.log.heads.filter (·.key.opId = id)
  verified : t'.verified.filter (·.opId = id) = t.verified.filter (·.opId = id)

/-- Ops of the chunk that stay are unchanged, and no head moves. -/
def ChunkFrames (t : OplogTables) (isUpsert : List Byte → Bool) (pins : Pins) (chunk : List (OpId × ℕ)) : Prop :=
  (∀ r ∈ t.log.oplog, r.opId ∈ chunk.map (·.1) → r ∈ (t.deleteOpsChunk isUpsert pins chunk).log.oplog →
    Unchanged t (t.deleteOpsChunk isUpsert pins chunk) r.opId) ∧
  (t.deleteOpsChunk isUpsert pins chunk).log.heads.map (fun h => (h.row, h.key, h.originDevice)) =
    t.log.heads.map fun h => (h.row, h.key, h.originDevice)

/-- A pinned op of the chunk is the head of a row of the trimmed tables, with an upsert. -/
def TrimsPinned (t : OplogTables) (isUpsert : List Byte → Bool) (pins : Pins) (chunk : List (OpId × ℕ)) : Prop :=
  ∃ r ∈ t.log.oplog, r.opId ∈ chunk.map (·.1) ∧ pins.has r.opId = true ∧ r.row.storeId = rowStoreId ∧
    r.row.tableName ∈ selfDrainingHeadTrimTables ∧
    ∃ h ∈ t.log.heads, h.row = r.row ∧ h.key.opId = r.opId ∧ isUpsert h.payload = true ∧ h.payload ≠ []

variable {t : OplogTables} {isUpsert : List Byte → Bool} {pins : Pins} {chunk : List (OpId × ℕ)} {r : OplogRow}

theorem eq_of_opId (hr : r ∈ t.log.oplog) {s : OplogRow} (hs : s ∈ t.log.oplog) (hid : s.opId = r.opId) : s = r :=
  inj_on_of_nodup_map t.opIds hs hr hid

/-! ## Table by table -/

theorem kept_log (hr : r ∈ t.log.oplog) (hkept : t.log.hit pins chunk r = false) :
    (t.deleteOpsChunk isUpsert pins chunk).log.oplog.filter (·.opId = r.opId) =
      t.log.oplog.filter (·.opId = r.opId) := by
  apply filter_of_keeps
  intro s hs hid
  rw [eq_of_opId hr hs (by simpa using hid), hkept]
  rfl

theorem kept_arrival (hr : r ∈ t.log.oplog) (hkept : t.log.hit pins chunk r = false) :
    (t.deleteOpsChunk isUpsert pins chunk).log.arrivals.filter (·.opId = r.opId) =
      t.log.arrivals.filter (·.opId = r.opId) := by
  apply filter_of_keeps
  intro a ha hid
  have hid' : r.opId = a.opId := by
    rw [eq_comm]
    simpa using hid
  have hin : a ∈ (t.log.deleteOpsChunk isUpsert pins chunk).arrivals :=
    (OplogDb.arrival_kept_iff t.opIds ha hr hid').2 hkept
  exact (mem_filter.1 hin).2

theorem kept_verified (hkept : r ∈ (t.deleteOpsChunk isUpsert pins chunk).log.oplog) :
    (t.deleteOpsChunk isUpsert pins chunk).verified.filter (·.opId = r.opId) =
      t.verified.filter (·.opId = r.opId) := by
  apply filter_of_keeps
  intro v _ hid
  have hin : (t.log.deleteOpsChunk isUpsert pins chunk).contains v.opId = true := by
    refine any_eq_true.2 ⟨r, hkept, ?_⟩
    have hid' : v.opId = r.opId := by simpa using hid
    simp [hid']
  rw [hin]
  simp

/-! ## The heads -/

def trims (t : OplogTables) (isUpsert : List Byte → Bool) (chunk : List (OpId × ℕ)) (h : HeadRow) : Prop :=
  (t.log.oplog.any fun r => r.row = h.row && r.opId = h.key.opId && r.opId ∈ chunk.map (·.1) &&
    r.row.storeId = rowStoreId) = true ∧
    h.row.tableName ∈ selfDrainingHeadTrimTables ∧ isUpsert h.payload = true

theorem head_unchanged_iff (id : OpId) :
    (t.deleteOpsChunk isUpsert pins chunk).log.heads.filter (·.key.opId = id) =
        t.log.heads.filter (·.key.opId = id) ↔
      ∀ h ∈ t.log.heads, h.key.opId = id → t.trims isUpsert chunk h → h.payload = [] := by
  have htrim : (t.deleteOpsChunk isUpsert pins chunk).log.heads = t.log.heads.map fun h =>
      if (t.log.oplog.any fun r => r.row = h.row && r.opId = h.key.opId && r.opId ∈ chunk.map (·.1) &&
          r.row.storeId = rowStoreId) = true ∧ h.row.tableName ∈ selfDrainingHeadTrimTables ∧
          isUpsert h.payload = true then { h with payload := [] } else h := rfl
  rw [htrim, map_filter_eq_iff fun h => by split <;> rfl]
  refine forall₂_congr fun h _ => ?_
  rw [decide_eq_true_iff]
  refine imp_congr_right fun _ => ?_
  split
  · rename_i hcond
    constructor
    · intro heq _
      exact (congrArg HeadRow.payload heq).symm
    · intro hemp
      obtain ⟨row, key, payload, origin⟩ := h
      exact congrArg (HeadRow.mk row key · origin) (hemp hcond).symm
  · rename_i hcond
    exact iff_of_true rfl fun htrims => absurd htrims hcond

theorem trims_iff (hr : r ∈ t.log.oplog) (hin : r.opId ∈ chunk.map (·.1)) {h : HeadRow}
    (hid : h.key.opId = r.opId) :
    t.trims isUpsert chunk h ↔
      h.row = r.row ∧ r.row.storeId = rowStoreId ∧ r.row.tableName ∈ selfDrainingHeadTrimTables ∧
        isUpsert h.payload = true := by
  simp only [trims, any_eq_true, Bool.and_eq_true, decide_eq_true_eq]
  constructor
  · rintro ⟨⟨s, hs, ⟨⟨hrow, hsid⟩, -⟩, hsto⟩, htab, hups⟩
    obtain rfl := eq_of_opId hr hs (hsid.trans hid)
    exact ⟨hrow.symm, hsto, hrow ▸ htab, hups⟩
  · rintro ⟨hrow, hsto, htab, hups⟩
    exact ⟨⟨r, hr, ⟨⟨hrow.symm, hid.symm⟩, hin⟩, hsto⟩, hrow ▸ htab, hups⟩

theorem selfDraining_of_trimmed {row : RowRef} (hsto : row.storeId = rowStoreId)
    (htab : row.tableName ∈ selfDrainingHeadTrimTables) : isSelfDrainingBulkTable row = true := by
  have hsub : ∀ table ∈ selfDrainingHeadTrimTables, table ∈ selfDrainingTables := by decide
  rw [isSelfDrainingBulkTable, decide_eq_true_eq]
  exact ⟨hsto, hsub _ htab⟩

/-- On a drained table an op of the chunk stays only if it is pinned. -/
theorem hit_drained (db : OplogDb) (hin : r.opId ∈ chunk.map (·.1))
    (hdrains : isSelfDrainingBulkTable r.row = true) :
    db.hit pins chunk r = false ↔ pins.has r.opId = true := by
  simp [OplogDb.hit, OplogDb.pinned, hin, hdrains]

/-- The deletion of a chunk changes nothing about the ops it keeps exactly if it trims the head
of no pinned op. -/
theorem chunk_frames_iff (t : OplogTables) (isUpsert : List Byte → Bool) (pins : Pins) (chunk : List (OpId × ℕ)) :
    t.ChunkFrames isUpsert pins chunk ↔ ¬t.TrimsPinned isUpsert pins chunk := by
  constructor
  · rintro ⟨hframe, -⟩ ⟨r, hr, hin, hpin, hsto, htab, h, hh, hrow, hid, hups, hpay⟩
    have hkept := (hit_drained t.log hin (selfDraining_of_trimmed hsto htab)).2 hpin
    have hsame := hframe r hr hin (OplogDb.mem_deleteOpsChunk_oplog.2 ⟨hr, hkept⟩)
    have htrims : t.trims isUpsert chunk h := (trims_iff hr hin hid).2 ⟨hrow, hsto, htab, hups⟩
    exact hpay ((head_unchanged_iff r.opId).1 hsame.head h hh hid htrims)
  · intro hnone
    refine ⟨fun r hr hin hkept => ?_, t.log.trimUpsertHeadPayloads_rows isUpsert chunk⟩
    have hhit := (OplogDb.mem_deleteOpsChunk_oplog.1 hkept).2
    refine ⟨kept_log hr hhit, kept_arrival hr hhit, (head_unchanged_iff r.opId).2 ?_, kept_verified hkept⟩
    intro h hh hid htrims
    obtain ⟨hrow, hsto, htab, hups⟩ := (trims_iff hr hin hid).1 htrims
    have hpin := (hit_drained t.log hin (selfDraining_of_trimmed hsto htab)).1 hhit
    by_contra hpay
    exact hnone ⟨r, hr, hin, hpin, hsto, htab, h, hh, hrow, hid, hups, hpay⟩

namespace ChunkFrame

/-- An upsert of row `a` of `items`, the column `id` its key and its only one: the table, the key,
the variant and the columns. -/
def itemPayload : List Byte :=
  [5, 105, 116, 101, 109, 115] ++ [1, 2, 105, 100, 3, 1, 97] ++ [0] ++ [1, 2, 105, 100, 3, 1, 97]

def itemOp : SignedOp :=
  ⟨⟨envelopeVersion, 10, Wire.fill 32 1, rowStoreId, ⟨itemPayload, by decide⟩⟩, Wire.fill 64 0, Wire.fill 32 1⟩

def tables : OplogTables where
  log := ((OplogDb.empty (Wire.fill 32 7)).append itemOp "items" "a" 1 0).1
  verified := [⟨itemOp.id, Wire.fill 32 2⟩]
  opIds := by decide
  headRows := by decide

/-- A pending edge has been recorded for the op behind the scan. -/
def edgePins : Pins := ⟨[itemOp.id], [], [], []⟩

/-- The op stays, and loses the payload of its head, by any test that knows the payload for an
upsert. -/
theorem pinned_head_trimmed :
    tables.log.heads.map (·.payload) = [itemPayload] ∧ ∀ isUpsert : List Byte → Bool, isUpsert itemPayload = true →
      (tables.deleteOpsChunk isUpsert edgePins [(itemOp.id, 1)]).log.oplog.map (·.opId) = [itemOp.id] ∧
      (tables.deleteOpsChunk isUpsert edgePins [(itemOp.id, 1)]).log.heads.map (·.payload) = [[]] := by
  refine ⟨by decide +kernel, fun isUpsert hups => ?_⟩
  -- the test is asked about this payload alone
  have hheads : ∀ h ∈ tables.log.heads, isUpsert h.payload = true := by
    have hpay : ∀ h ∈ tables.log.heads, h.payload = itemPayload := by decide +kernel
    exact fun h hh => hpay h hh ▸ hups
  have htrim : tables.log.trimUpsertHeadPayloads isUpsert [(itemOp.id, 1)] =
      tables.log.trimUpsertHeadPayloads (fun _ => true) [(itemOp.id, 1)] := by
    unfold OplogDb.trimUpsertHeadPayloads
    rw [List.map_congr_left fun h hh => by rw [hheads h hh]]
  dsimp only [deleteOpsChunk, OplogDb.deleteOpsChunk]
  rw [htrim]
  decide +kernel

end ChunkFrame

end OplogTables

end ProxyNode
