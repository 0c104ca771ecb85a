import ProxyNode.Base.Table
import ProxyNode.Spec.SqlLog

/-! The reads of the op log in SQLite that serve a peer or look up a row. -/

namespace ProxyNode

open Wire

/-- `LIMIT` after `limit as i64`: a negative count is no limit. -/
def sqlLimit {α : Type*} (limit : ℕ) (rows : List α) : List α := if limit < 2 ^ 63 then rows.take limit else rows

def OplogRow.hlc (r : OplogRow) : ℤ := (ofLex r.key).1

def OplogRow.device (r : OplogRow) : DeviceId := (ofLex (ofLex r.key).2).1

/-- The payload column, or the payload inside the envelope where the column is empty. -/
def OplogRow.resolvedPayload (r : OplogRow) : List Byte :=
  if r.payload ≠ [] then r.payload
  else match SignedOp.fromBytes r.envelope with
    | .ok op => op.body.payload.1
    | .error _ => []

namespace OplogDb

/-! ## The whole log -/

def contains (db : OplogDb) (id : OpId) : Bool := db.oplog.any (·.opId = id)

def head (db : OplogDb) : Option OrderKey := (db.oplog.greatest (·.key)).map (·.key.orderKey)

/-- A page of the ops after `cursor`; an envelope that does not decode is skipped. -/
def since (db : OplogDb) (cursor : OrderKey) (limit : ℕ) : List SignedOp :=
  (sqlLimit limit ((db.oplog.filter fun r => SqlKey.of cursor < r.key).orderBy (·.key))).filterMap fun r =>
    (SignedOp.fromBytes r.envelope).toOption

/-- One origin's envelopes strictly above `after`. A scan without a lower bound starts at
reading `-1` and the empty id. -/
def originSince (db : OplogDb) (origin : DeviceId) (after : Option OrderKey) (store : Option (List Byte))
    (limit : ℕ) : List OriginEnvelopeRow :=
  let afterHlc : ℤ := after.elim (-1) fun key => asI64 key.hlc
  let afterOpId : List Byte := after.elim [] fun key => key.opId.1
  let rows :=
    match store with
    | some store =>
      (db.oplog.filter fun r => r.row.storeId.1 = store ∧ r.device = origin ∧
          toLex (afterHlc, toLex (origin.1, afterOpId)) < toLex (r.hlc, toLex (r.device.1, r.opId.1))).orderBy
        fun r => toLex (r.hlc, toLex (r.device.1, r.opId.1))
    | none =>
      (db.oplog.filter fun r => r.device = origin ∧
          toLex (afterHlc, afterOpId) < toLex (r.hlc, r.opId.1)).orderBy
        fun r => toLex (r.hlc, r.opId.1)
  (sqlLimit limit rows).map fun r => (⟨asU64 r.hlc, origin, r.opId⟩, r.envelope)

def nextOrigin (db : OplogDb) (d : Option DeviceId) : Option DeviceId :=
  ((db.oplog.map (·.device)).filter fun device => d.all (· < device)).min?

/-- The recursion of the skip scan; each turn finds an origin not met before. -/
def skipScan (db : OplogDb) : ℕ → Option DeviceId → List DeviceId
  | 0, _ => []
  | turns + 1, d =>
    match db.nextOrigin d with
    | none => []
    | some device => device :: skipScan db turns (some device)

def origins (db : OplogDb) : List DeviceId := db.skipScan db.oplog.length none

/-! ## The arrival stream -/

/-- `oplog_arrivals JOIN oplog`, `op_id` being a primary key of `oplog`. -/
def joined (db : OplogDb) : List (Arrival × OplogRow) :=
  db.arrivals.filterMap fun a => (db.oplog.find? (·.opId = a.opId)).map (a, ·)

/-- `COALESCE(MAX(relay_seq), 0)`. -/
def headSeq (db : OplogDb) : ℕ := (db.arrivals.map (·.relaySeq)).max?.getD 0

def relayStreamState (db : OplogDb) : RelayStreamState := ⟨db.streamEpoch, db.headSeq, db.compactedThroughSeq⟩

def decodeEnvelopes : List (Arrival × OplogRow) → Except SqliteError (List RelayEnvelopeRow)
  | [] => .ok []
  | (arrival, r) :: rows =>
    match SignedOp.fromBytes r.envelope with
    | .error e => .error (.other ("relay envelope decode: " ++ e.text))
    | .ok op => (decodeEnvelopes rows).map ((arrival.relaySeq, op, r.envelope) :: ·)

def relaySinceWithEnvelopes (db : OplogDb) (after limit : ℕ) : Except SqliteError (List RelayEnvelopeRow) :=
  if after ≥ 2 ^ 63 then .error (.invalidArgument "relay cursor exceeds SQLite range")
  else if limit ≥ 2 ^ 63 then .error (.invalidArgument "relay page limit exceeds SQLite range")
  else decodeEnvelopes (((db.joined.filter (·.1.relaySeq > after)).orderBy (·.1.relaySeq)).take limit)

def relayPageMaxBytes : ℕ := 4 * 1024 * 1024

/-- The rows that fit the page; the first one always does. -/
def pageEntries : ℕ → List RelayLogEntry → List RelayEnvelopeRow → List RelayLogEntry
  | _, entries, [] => entries
  | total, entries, (seq, op, envelope) :: rows =>
    if entries ≠ [] ∧ total + envelope.length > relayPageMaxBytes then entries
    else pageEntries (total + envelope.length) (entries ++ [⟨seq, op⟩]) rows

def relayPageConn (db : OplogDb) (after limit : ℕ) : Except SqliteError RelayLogPage :=
  (db.relaySinceWithEnvelopes after limit).map fun rows => ⟨db.relayStreamState, pageEntries 0 [] rows⟩

/-! ## One row -/

def appliedRows (db : OplogDb) (row : RowRef) : List OplogRow := db.oplog.filter fun r => r.row = row && r.applied

/-- The winner of a row with its payload, leaving one op out. -/
def newestOpInStore (db : OplogDb) (row : RowRef) (exclude : OpId) : Option (OrderKey × List Byte) :=
  let scan := ((db.appliedRows row).filter (·.opId ≠ exclude)).greatest (·.key)
  let scanned := scan.map fun r => (r.key.orderKey, r.resolvedPayload)
  match db.heads.find? (·.row = row) with
  | some head => if head.key.opId ≠ exclude then some (head.key.orderKey, head.payload) else scanned
  | none => scanned

/-- The device recorded with the head, else the device of the row's earliest op. -/
def originDevice (db : OplogDb) (row : RowRef) : Option DeviceId :=
  match db.heads.find? (·.row = row) with
  | some head => some head.originDevice
  | none => ((db.appliedRows row).least (·.key)).map (·.device)

/-- Take an op that is no longer applied out of its row's head. -/
def demoteHead (db : OplogDb) (id : OpId) : OplogDb :=
  match db.oplog.find? (·.opId = id) with
  | none => db
  | some logged =>
    if db.heads.any fun h => h.row = logged.row && h.key.opId = id then
      match (db.appliedRows logged.row).greatest (·.key) with
      | some r =>
        { db with heads := db.heads.map fun h =>
            if h.row = logged.row then { h with key := r.key, payload := r.resolvedPayload } else h }
      | none => { db with heads := db.heads.filter (·.row ≠ logged.row) }
    else db

/-- Derive a row's head afresh from its applied ops. -/
def rebuildHead (db : OplogDb) (row : RowRef) : OplogDb :=
  let others := db.heads.filter (·.row ≠ row)
  match (db.appliedRows row).greatest (·.key), (db.appliedRows row).least (·.key) with
  | some newest, some earliest =>
    { db with heads := others ++ [⟨row, newest.key, newest.resolvedPayload, earliest.device⟩] }
  | _, _ => { db with heads := others }

end OplogDb

end ProxyNode
