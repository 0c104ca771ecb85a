import ProxyNode.Spec.Retention

/-! Runs of the op log in SQLite: everything that writes its tables, one event at a time. -/

namespace ProxyNode

structure LogWrite where
  op : SignedOp
  table : String
  rowPk : String
  origin : ℤ
  now : ℤ

def LogWrite.row (w : LogWrite) : RowRef := ⟨w.op.body.store, w.table, w.rowPk⟩

inductive LogEvent
  | append (w : LogWrite)
  | compact (pass : CompactionPass)

inductive SqlEvent
  | log (event : LogEvent)
  | deleteRowBelow (row : RowRef) (c : OrderKey) (keep : Option OpId)
  | rotate (random : Epoch)
  /-- An op deferred: `applied = 0`, then `demote_head`. -/
  | defer (id : OpId)
  /-- A deferred op applied after all, under the projection given, then `upsert_head`. -/
  | restore (id : OpId) (table rowPk : String)
  /-- Ops moved from one row to another, then `rebuild_head` of both. -/
  | move (source target : RowRef) (ids : List OpId)

namespace OplogDb

def store (db : OplogDb) (w : LogWrite) : OplogDb := (db.append w.op w.table w.rowPk w.origin w.now).1

def storeAll (ws : List LogWrite) (db : OplogDb) : OplogDb := ws.foldl store db

variable (isUpsert : List Byte → Bool)

def logStep (db : OplogDb) : LogEvent → OplogDb
  | .append w => db.store w
  | .compact pass => db.compact isUpsert pass

def logRun (events : List LogEvent) (db : OplogDb) : OplogDb := events.foldl (logStep isUpsert) db

def setRow (db : OplogDb) (id : OpId) (f : OplogRow → OplogRow) : OplogDb :=
  { db with oplog := db.oplog.map fun r => if r.opId = id then f r else r }

def defer (db : OplogDb) (id : OpId) : OplogDb := (db.setRow id fun r => { r with applied := false }).demoteHead id

def restore (db : OplogDb) (id : OpId) (table rowPk : String) : OplogDb :=
  match db.oplog.find? (·.opId = id) with
  | none => db
  | some r =>
    if r.applied then db
    else match SignedOp.fromBytes r.envelope with
      | .error _ => db
      | .ok op =>
        let row : RowRef := ⟨op.body.store, table, rowPk⟩
        (db.setRow id fun r => { r with row := row, applied := true }).upsertHead op row

def move (db : OplogDb) (source target : RowRef) (ids : List OpId) : OplogDb :=
  let moved : OplogDb := { db with oplog := db.oplog.map fun r =>
    if r.row = source ∧ r.opId ∈ ids then { r with row := target } else r }
  (moved.rebuildHead source).rebuildHead target

def sqlStep (db : OplogDb) : SqlEvent → OplogDb
  | .log event => db.logStep isUpsert event
  | .deleteRowBelow row c keep => db.deleteRowBelow row c keep
  | .rotate random => db.rotateRelayStreamEpoch random
  | .defer id => db.defer id
  | .restore id table rowPk => db.restore id table rowPk
  | .move source target ids => db.move source target ids

def sqlRun (events : List SqlEvent) (db : OplogDb) : OplogDb := events.foldl (sqlStep isUpsert) db

end OplogDb

/-! ## Fixed inputs -/

def plainRowOp (device id : Byte) (hlc : Hlc) : SignedOp :=
  ⟨⟨envelopeVersion, hlc, Wire.fill 32 device, rowStoreId, ⟨[], by decide⟩⟩, Wire.fill 64 0, Wire.fill 32 id⟩

/-- A pass over the whole stream that nothing pins and no deadline ends. -/
def plainPass : CompactionPass := ⟨⟨1, 10⟩, ⟨[], [], [], []⟩, 100, fun _ => false, 0, .applied⟩

end ProxyNode
