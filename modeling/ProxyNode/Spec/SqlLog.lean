import ProxyNode.Base.SortedMap
import ProxyNode.Spec.Relay
import ProxyNode.Spec.RowOp

/-! The op log in SQLite: the ops with their projections, the arrival stream, the winner of
each row, and this device's own coverage. A table is the list of its rows. -/

namespace ProxyNode

open Wire

inductive SqliteError
  | invalidArgument (text : String)
  | other (text : String)
deriving DecidableEq

/-- `hlc as i64`, as the log stores it. -/
def asI64 (hlc : Hlc) : ℤ := if hlc.val < 2 ^ 63 then hlc.val else hlc.val - 2 ^ 64

/-- `hlc as u64`, as the log reads it back. -/
def asU64 (hlc : ℤ) : Hlc := Fin.ofNat (2 ^ 64) (hlc % 2 ^ 64).toNat

/-- The coordinates `(store_id, table_name, row_pk)` of a row. -/
structure RowRef where
  storeId : StoreId
  tableName : String
  rowPk : String
deriving DecidableEq

/-- `(hlc, device_id, op_id)` as SQL compares them. -/
abbrev SqlKey := ℤ ×ₗ DeviceId ×ₗ OpId

def SqlKey.of (key : OrderKey) : SqlKey := toLex (asI64 key.hlc, toLex (key.device, key.opId))

def SqlKey.orderKey (key : SqlKey) : OrderKey :=
  ⟨asU64 (ofLex key).1, (ofLex (ofLex key).2).1, (ofLex (ofLex key).2).2⟩

def SqlKey.opId (key : SqlKey) : OpId := (ofLex (ofLex key).2).2

/-- A row of `oplog`; `key` stands for its three order columns. -/
structure OplogRow where
  key : SqlKey
  row : RowRef
  payload : List Byte
  envelope : List Byte
  origin : ℤ
  applied : Bool

def OplogRow.opId (r : OplogRow) : OpId := r.key.opId

structure Arrival where
  relaySeq : ℕ
  opId : OpId
  arrivedAt : ℤ
deriving DecidableEq

structure HeadRow where
  row : RowRef
  key : SqlKey
  payload : List Byte
  originDevice : DeviceId

structure OplogDb where
  oplog : List OplogRow
  arrivals : List Arrival
  /-- The greatest sequence number ever handed out by `AUTOINCREMENT`. -/
  lastSeq : ℕ
  heads : List HeadRow
  /-- `mesh_origin_coverage`. -/
  coverage : SortedMap DeviceId OrderKey
  streamEpoch : Epoch
  compactedThroughSeq : ℕ

namespace OplogDb

def empty (epoch : Epoch) : OplogDb := ⟨[], [], 0, [], ∅, epoch, 0⟩

/-- Insert the head of a row, or advance it if the op's key is greater. The origin device
changes only if no applied op of the row is below the op. -/
def upsertHead (db : OplogDb) (op : SignedOp) (row : RowRef) : OplogDb :=
  let key := SqlKey.of op.orderKey
  let heads :=
    if db.heads.any (·.row = row) then
      db.heads.map fun h =>
        if h.row = row ∧ h.key < key then { h with key := key, payload := op.body.payload.1 } else h
    else db.heads ++ [⟨row, key, op.body.payload.1, op.body.device⟩]
  let heads :=
    if db.oplog.any fun r => r.row = row && r.applied && r.key < key then heads
    else heads.map fun h => if h.row = row then { h with originDevice := op.body.device } else h
  { db with heads := heads }

def advanceLocalCoverage (db : OplogDb) (origin : DeviceId) (key : OrderKey) : OplogDb :=
  match db.coverage.get? origin with
  | some claim => if claim < key then { db with coverage := db.coverage.insert origin key } else db
  | none => { db with coverage := db.coverage.insert origin key }

def noteOwnOp (db : OplogDb) (op : SignedOp) : OplogDb := db.advanceLocalCoverage op.body.device op.orderKey

/-- Log an op under its projections, at clock reading `now`; a logged id changes nothing. -/
def append (db : OplogDb) (op : SignedOp) (table rowPk : String) (origin now : ℤ) : OplogDb × Bool :=
  if db.oplog.any (·.opId = op.id) then (db, false)
  else
    let row : RowRef := ⟨op.body.store, table, rowPk⟩
    let logged : OplogDb := { db with
      oplog := db.oplog ++ [⟨SqlKey.of op.orderKey, row, [], op.toBytes, origin, true⟩]
      arrivals := db.arrivals ++ [⟨db.lastSeq + 1, op.id, now⟩]
      lastSeq := db.lastSeq + 1 }
    let logged := logged.upsertHead op row
    (if origin = originLocal then logged.noteOwnOp op else logged, true)

/-- The winner of a row, leaving one op out: the head if it is another op, else a scan. -/
def newestAppliedInStore (db : OplogDb) (row : RowRef) (exclude : OpId) : Option OrderKey :=
  let scan := ((db.oplog.filter fun r => r.row = row && r.applied && r.opId ≠ exclude).map (·.key)).max?
  match db.heads.find? (·.row = row) with
  | some head => if head.key.opId ≠ exclude then some head.key.orderKey else scan.map SqlKey.orderKey
  | none => scan.map SqlKey.orderKey

end OplogDb

end ProxyNode
