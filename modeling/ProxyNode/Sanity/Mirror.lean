import ProxyNode.Sanity.Arrivals
import ProxyNode.Sanity.Envelope
import ProxyNode.Sanity.SqlOrder

/-! The op log in SQLite and the log in memory, built by the same appends, hold the same ops
in the same order of arrival. -/

namespace ProxyNode

open List

/-- What the columns of a log row say: its key, its envelope and its store. -/
def OplogRow.columns (r : OplogRow) : SqlKey × List Byte × StoreId := (r.key, r.envelope, r.row.storeId)

def SignedOp.columns (op : SignedOp) : SqlKey × List Byte × StoreId :=
  (SqlKey.of op.orderKey, op.toBytes, op.body.store)

structure Mirrors (db : OplogDb) (log : OpLog) : Prop where
  stored : db.Stored
  rows : db.oplog.map OplogRow.columns = log.arrivals.map SignedOp.columns
  arrivals : db.arrivals.map (fun a => (a.relaySeq, a.opId)) = log.arrivals.zipIdx.map fun e => (e.2 + 1, e.1.id)
  last : db.lastSeq = log.arrivals.length
  floor : db.compactedThroughSeq = 0

def OpLog.appendAll (ws : List LogWrite) (log : OpLog) : OpLog := ws.foldl (fun log w => (log.append w.op).1) log

namespace Mirrors

variable {db : OplogDb} {log : OpLog}

theorem empty (epoch random : Epoch) : Mirrors (OplogDb.empty epoch) (OpLog.new random) :=
  ⟨OplogDb.stored_empty epoch, rfl, rfl, rfl, rfl⟩

theorem ids (h : Mirrors db log) : db.oplog.map (·.opId) = log.arrivals.map (·.id) := by
  have hids := congrArg (map fun c => c.1.opId) h.rows
  rw [map_map, map_map] at hids
  exact hids

theorem contains_eq (h : Mirrors db log) (id : OpId) : db.contains id = log.contains id := by
  rw [Bool.eq_iff_iff, OpLog.contains_iff, OplogDb.contains, any_eq_true]
  have hmem : id ∈ db.oplog.map (·.opId) ↔ id ∈ log.arrivals.map (·.id) := by rw [h.ids]
  simpa using hmem

theorem store (h : Mirrors db log) (w : LogWrite) : Mirrors (db.store w) (log.append w.op).1 := by
  have hstd := h.stored.store w
  have hcont := h.contains_eq w.op.id
  rcases OplogDb.store_cases db w with ⟨⟨r, hr, hid⟩, heq⟩ | ⟨hnew, hlog, harr, hlast, hflr, -⟩
  · have hkn : log.contains w.op.id = true := by
      rw [← hcont, OplogDb.contains, any_eq_true]
      exact ⟨r, hr, by simpa using hid⟩
    rw [heq, OpLog.append_of_contains hkn]
    exact h
  · have hfrs : log.contains w.op.id = false := by
      rw [← hcont, OplogDb.contains, any_eq_false]
      simpa using hnew
    have hops := OpLog.arrivals_append_new hfrs
    refine ⟨hstd, ?_, ?_, ?_, hflr.trans h.floor⟩
    · rw [hlog, hops, map_append, map_append, h.rows]
      rfl
    · rw [harr, hops, map_append, h.arrivals, zipIdx_append, map_append, h.last]
      simp
    · rw [hlast, hops, h.last, length_append, length_singleton]

theorem storeAll (h : Mirrors db log) (ws : List LogWrite) : Mirrors (db.storeAll ws) (log.appendAll ws) := by
  induction ws generalizing db log with
  | nil => exact h
  | cons w ws ih => exact ih (h.store w)

/-- A read that only looks at the columns reads the ops. -/
theorem read (h : Mirrors db log) {κ : Type*} [LinearOrder κ] (p : SqlKey × List Byte × StoreId → Bool)
    (key : SqlKey × List Byte × StoreId → κ) :
    ((db.oplog.filter fun r => p r.columns).orderBy fun r => key r.columns).map OplogRow.columns =
      ((log.arrivals.filter fun op => p op.columns).orderBy fun op => key op.columns).map SignedOp.columns := by
  rw [map_orderBy_comp, map_orderBy_comp]
  have hfil : (db.oplog.filter fun r => p r.columns).map OplogRow.columns =
      (log.arrivals.filter fun op => p op.columns).map SignedOp.columns := by
    have hall := congrArg (filter p) h.rows
    rw [filter_map, filter_map] at hall
    exact hall
  rw [hfil]

end Mirrors

end ProxyNode
