import ProxyNode.Spec.SqlQueries

/-! Retention of the op log: the scan for ops that may go, their deletion in chunks, the
older prune below a watermark, and the rotation of the stream's epoch. -/

namespace ProxyNode

structure CompactionPolicy where
  keepPerRow : ℕ
  maxDeletesPerPass : ℕ

def CompactionPolicy.default : CompactionPolicy := ⟨3, 500000⟩

inductive CompactionProbeIndex
  | applied
  | legacyLww
deriving DecidableEq

structure Pins where
  /-- `pending_graph_edges.edge_op_id`. -/
  edges : List OpId
  /-- `move_callback_fires.resolution_op_id` of the fires not dispatched. -/
  fires : List OpId
  /-- `proxydb_projection_queue.op_id`. -/
  projections : List OpId
  /-- `external_row_replay_queue.op_id` of the entries that have not failed. -/
  replays : List OpId

def Pins.has (pins : Pins) (id : OpId) : Bool :=
  id ∈ pins.edges ∨ id ∈ pins.fires ∨ id ∈ pins.projections ∨ id ∈ pins.replays

def selfDrainingTables : List String :=
  ["items", "sequences", "widget_files", "party_files", "conversations", "conversation_participants",
    "conversation_jobs", "message_attachments"]

def isSelfDrainingBulkTable (row : RowRef) : Bool :=
  row.storeId = rowStoreId ∧ row.tableName ∈ selfDrainingTables

def selfDrainingHeadTrimTables : List String :=
  ["items", "sequences", "widget_files", "conversations", "conversation_participants",
    "conversation_jobs", "message_attachments"]

structure CompactionScan where
  candidates : List (OpId × ℕ)
  nextCursor : ℕ
  scanned : ℕ

def scanPage : ℕ := 2048

def legacyLwwScanCap : ℕ := 16384

def deleteChunk : ℕ := 500

namespace OplogDb

def isHead (db : OplogDb) (r : OplogRow) : Bool := db.heads.any fun h => h.row = r.row && h.key.opId = r.opId

/-! ## The scan -/

def shadowed (db : OplogDb) (keepPerRow : ℕ) (r : OplogRow) : Bool :=
  keepPerRow ≤ ((db.appliedRows r.row).filter fun s => r.key < s.key).length

def hasOlder (db : OplogDb) (r : OplogRow) : Bool := (db.appliedRows r.row).any fun s => s.key < r.key

def drained (db : OplogDb) (policy : CompactionPolicy) (r : OplogRow) : Bool :=
  isSelfDrainingBulkTable r.row || (db.shadowed policy.keepPerRow r && db.hasOlder r)

def pinned (db : OplogDb) (pins : Pins) (r : OplogRow) : Bool :=
  pins.has r.opId || (!isSelfDrainingBulkTable r.row && db.isHead r)

/-- Where the scan stands; `looks` counts its readings of the clock. -/
structure ScanState where
  candidates : List (OpId × ℕ)
  afterSeq : ℕ
  scanned : ℕ
  looks : ℕ

/-- The rows of one page. The flag tells whether the whole scan ends; `late n` is what the
`n`-th reading of the clock says about the deadline. -/
def scanRows (db : OplogDb) (policy : CompactionPolicy) (pins : Pins) (late : ℕ → Bool) :
    List (Arrival × OplogRow) → ScanState → ScanState × Bool
  | [], st => (st, false)
  | (arrival, r) :: rows, st =>
    let st := { st with afterSeq := arrival.relaySeq, scanned := st.scanned + 1, looks := st.looks + 1 }
    if late (st.looks - 1) then (st, true)
    else if ¬db.drained policy r then scanRows db policy pins late rows st
    else
      let st := { st with looks := st.looks + 1 }
      if late (st.looks - 1) then (st, true)
      else if db.pinned pins r then scanRows db policy pins late rows st
      else
        let st := { st with candidates := st.candidates ++ [(r.opId, arrival.relaySeq)] }
        if st.candidates.length ≥ policy.maxDeletesPerPass then (st, true)
        else scanRows db policy pins late rows st

/-- The next page of applied ops at or below the floor and below the newest arrival. -/
def scanPageRows (db : OplogDb) (safeFloor afterSeq : ℕ) : List (Arrival × OplogRow) :=
  ((db.joined.filter fun e => e.2.applied ∧ e.1.relaySeq > afterSeq ∧ e.1.relaySeq ≤ safeFloor ∧
      e.1.relaySeq < db.headSeq).orderBy (·.1.relaySeq)).take scanPage

/-- Page after page, until the quota, the cap, the deadline or the end. The flag tells
whether the scan ran out of rows. -/
def scanPages (db : OplogDb) (policy : CompactionPolicy) (pins : Pins) (late : ℕ → Bool)
    (safeFloor scanCap : ℕ) : ℕ → ScanState → ScanState × Bool
  | 0, st => (st, false)
  | turns + 1, st =>
    if st.candidates.length < policy.maxDeletesPerPass ∧ st.scanned < scanCap then
      let st := { st with looks := st.looks + 1 }
      if late (st.looks - 1) then (st, false)
      else match db.scanPageRows safeFloor st.afterSeq with
        | [] => (st, true)
        | rows =>
          match db.scanRows policy pins late rows st with
          | (st, true) => (st, false)
          | (st, false) => scanPages db policy pins late safeFloor scanCap turns st
    else (st, false)

/-- The ops that may be deleted, from sequence `resumeAfter` on. Each page but the last
moves the scan past a row, so one turn more than there are arrivals is enough. -/
def compactionCandidates (db : OplogDb) (policy : CompactionPolicy) (pins : Pins) (safeFloor : ℕ)
    (late : ℕ → Bool) (resumeAfter : ℕ) (probeIndex : CompactionProbeIndex) : CompactionScan :=
  let scanCap := max (policy.maxDeletesPerPass * 4) scanPage
  let scanCap := if probeIndex = .legacyLww then min scanCap legacyLwwScanCap else scanCap
  let (st, exhausted) :=
    db.scanPages policy pins late safeFloor scanCap (db.arrivals.length + 1) ⟨[], resumeAfter, 0, 0⟩
  ⟨st.candidates, if exhausted then 0 else st.afterSeq, st.scanned⟩

/-! ## The deletion -/

def hit (db : OplogDb) (pins : Pins) (chunk : List (OpId × ℕ)) (r : OplogRow) : Bool :=
  r.opId ∈ chunk.map (·.1) ∧ ¬db.pinned pins r

/-- Clear the payload kept with the head of a drained row, if it is an upsert. -/
def trimUpsertHeadPayloads (db : OplogDb) (isUpsert : List Byte → Bool) (chunk : List (OpId × ℕ)) : OplogDb :=
  { db with heads := db.heads.map fun h =>
      if (db.oplog.any fun r => r.row = h.row && r.opId = h.key.opId && r.opId ∈ chunk.map (·.1) &&
            r.row.storeId = rowStoreId) ∧ h.row.tableName ∈ selfDrainingHeadTrimTables ∧ isUpsert h.payload then
        { h with payload := [] }
      else h }

/-- Delete a chunk of candidates and raise the floor to the newest arrival deleted. An
arrival goes with its op, and also when its op is gone already. -/
def deleteOpsChunk (db : OplogDb) (isUpsert : List Byte → Bool) (pins : Pins) (chunk : List (OpId × ℕ)) :
    OplogDb :=
  let hits := db.oplog.filter (db.hit pins chunk)
  let floor := ((db.joined.filter fun e => db.hit pins chunk e.2).map (·.1.relaySeq)).max?.getD 0
  let arrivalGoes (a : Arrival) : Bool :=
    a.opId ∈ chunk.map (·.1) ∧ ¬pins.has a.opId ∧
      ¬db.oplog.any fun r => r.opId = a.opId && db.isHead r && !isSelfDrainingBulkTable r.row
  { db.trimUpsertHeadPayloads isUpsert chunk with
    arrivals := db.arrivals.filter fun a => !arrivalGoes a
    oplog := db.oplog.filter fun r => !db.hit pins chunk r
    compactedThroughSeq := if hits = [] then db.compactedThroughSeq else max db.compactedThroughSeq floor }

def chunksOf {α : Type*} (size : ℕ) : ℕ → List α → List (List α)
  | 0, _ => []
  | _ + 1, [] => []
  | turns + 1, l => l.take size :: chunksOf size turns (l.drop size)

end OplogDb

structure CompactionPass where
  policy : CompactionPolicy
  pins : Pins
  safeFloor : ℕ
  late : ℕ → Bool
  resumeAfter : ℕ
  probeIndex : CompactionProbeIndex

namespace OplogDb

def compact (db : OplogDb) (isUpsert : List Byte → Bool) (pass : CompactionPass) : OplogDb :=
  let scan := db.compactionCandidates pass.policy pass.pins pass.safeFloor pass.late pass.resumeAfter
    pass.probeIndex
  (chunksOf deleteChunk scan.candidates.length scan.candidates).foldl
    (fun db chunk => db.deleteOpsChunk isUpsert pass.pins chunk) db

/-! ## The other writers of the stream -/

def belowRow (row : RowRef) (c : OrderKey) (keep : Option OpId) (r : OplogRow) : Bool :=
  r.row = row ∧ r.key < SqlKey.of c ∧ keep.all (r.opId ≠ ·)

/-- Prune one row's ops below `c`; the arrivals stay. -/
def deleteRowBelow (db : OplogDb) (row : RowRef) (c : OrderKey) (keep : Option OpId) : OplogDb :=
  { db with oplog := db.oplog.filter fun r => !belowRow row c keep r }

def rotateRelayStreamEpoch (db : OplogDb) (random : Epoch) : OplogDb :=
  { db with streamEpoch := random, compactedThroughSeq := 0 }

end OplogDb

end ProxyNode
