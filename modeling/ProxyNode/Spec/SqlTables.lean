import Mathlib.Data.String.Basic
import ProxyNode.Spec.Retention

/-! The op log under its primary keys, with the record of verified envelopes beside it, and the
lookup of many winners at once. -/

namespace ProxyNode

structure VerifiedOp where
  opId : OpId
  envelopeSha256 : Bytes 32

structure OplogTables where
  log : OplogDb
  verified : List VerifiedOp
  /-- The primary key of `oplog`. -/
  opIds : (log.oplog.map (·.opId)).Nodup
  /-- The primary key of `oplog_heads`. -/
  headRows : (log.heads.map (·.row)).Nodup

namespace OplogDb

theorem trimUpsertHeadPayloads_rows (db : OplogDb) (isUpsert : List Byte → Bool) (chunk : List (OpId × ℕ)) :
    (db.trimUpsertHeadPayloads isUpsert chunk).heads.map (fun h => (h.row, h.key, h.originDevice)) =
      db.heads.map fun h => (h.row, h.key, h.originDevice) := by
  rw [trimUpsertHeadPayloads, List.map_map]
  refine List.map_congr_left fun h _ => ?_
  simp only [Function.comp]
  split <;> rfl

end OplogDb

namespace OplogTables

/-- The deletion of a chunk, down to the verified records whose op is gone. -/
def deleteOpsChunk (t : OplogTables) (isUpsert : List Byte → Bool) (pins : Pins) (chunk : List (OpId × ℕ)) :
    OplogTables where
  log := t.log.deleteOpsChunk isUpsert pins chunk
  verified := t.verified.filter fun v =>
    !(v.opId ∈ chunk.map (·.1) && !(t.log.deleteOpsChunk isUpsert pins chunk).contains v.opId)
  opIds := t.opIds.sublist (List.filter_sublist.map _)
  headRows := by
    have hrows := congrArg (List.map Prod.fst) (t.log.trimUpsertHeadPayloads_rows isUpsert chunk)
    rw [List.map_map, List.map_map] at hrows
    exact hrows ▸ t.headRows

def newestOpsChunk : ℕ := 500

/-- The payloads kept with the heads of the rows asked for, chunk by chunk. -/
def newestOpsInStore (t : OplogTables) (store : StoreId) (table : String) (rowPks : List String) :
    SortedMap String (List Byte) :=
  (OplogDb.chunksOf newestOpsChunk rowPks.length rowPks).foldl (fun newest chunk =>
    (t.log.heads.filter fun h => h.row.storeId = store ∧ h.row.tableName = table ∧ h.row.rowPk ∈ chunk).foldl
      (fun newest h => newest.insert h.row.rowPk h.payload) newest) ∅

end OplogTables

end ProxyNode
