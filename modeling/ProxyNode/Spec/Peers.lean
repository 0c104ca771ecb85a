import ProxyNode.Base.Loop
import ProxyNode.Spec.Server
import ProxyNode.Spec.SqlRun

/-! The peers of a SQLite node: which devices may pull, the cursors they have acknowledged,
and how far a compaction pass may go. -/

namespace ProxyNode

open Wire

structure DeviceRow where
  deviceId : String
  trusted : ℤ
  publicKey : Option (List Byte)
  lastSeenAt : String
deriving DecidableEq

structure VouchRow where
  deviceId : String
  voucherDeviceId : String
deriving DecidableEq

structure PeerAck where
  peerDeviceId : DeviceId
  streamEpoch : Epoch
  ackedRelaySeq : ℕ
deriving DecidableEq

/-- The op log with the tables about peers; `deviceRetirements` lists its ids. -/
structure PeerDb where
  log : OplogDb
  devices : List DeviceRow
  deviceVouches : List VouchRow
  deviceRetirements : List String
  peerAcks : List PeerAck

structure CompactionBounds where
  peers : ℕ
  horizonFloor : ℤ
  ackFloor : ℤ
  safeFloor : ℤ
deriving DecidableEq

def u64Max : ℕ := 2 ^ 64 - 1

namespace PeerDb

def isPeerTrusted (db : PeerDb) (peer : DeviceId) : Bool :=
  let hex := toHex peer
  if hex ∈ db.deviceRetirements then false
  else if db.devices.any fun d => d.deviceId = hex && d.trusted = 1 && d.publicKey.isSome then true
  else db.deviceVouches.any fun vouch => vouch.deviceId = hex && db.devices.any fun voucher =>
    voucher.deviceId = vouch.voucherDeviceId && voucher.trusted = 1 && voucher.publicKey.isSome &&
      voucher.deviceId ∉ db.deviceRetirements

/-! ## Acknowledgments -/

def currentStreamEpoch (db : PeerDb) : Epoch := db.log.streamEpoch

/-- A cursor presented for the current epoch: the greater one stays, one of another epoch is
replaced. -/
def recordPeerAck (db : PeerDb) (peer : DeviceId) (epoch : Epoch) (seq : ℕ) : Except SqliteError PeerDb :=
  if db.currentStreamEpoch ≠ epoch then .ok db
  else if seq ≥ 2 ^ 63 then .error (.invalidArgument "peer ack exceeds SQLite range")
  else .ok { db with peerAcks :=
    if db.peerAcks.any (·.peerDeviceId = peer) then
      db.peerAcks.map fun ack =>
        if ack.peerDeviceId = peer then
          ⟨peer, epoch, if ack.streamEpoch = epoch then max ack.ackedRelaySeq seq else seq⟩
        else ack
    else db.peerAcks ++ [⟨peer, epoch, seq⟩] }

/-- The gate before a page is built; the page is the reset it answers with instead. -/
def admitPullAck (db : PeerDb) (peer : DeviceId) (request : PullRequest) :
    Except SqliteError (PeerDb × Option PullPage) :=
  match request.relayEpoch with
  | none => .error (.invalidArgument "invalid relay epoch")
  | some requestEpoch =>
    let stream := db.log.relayStreamState
    if pullNeedsReset requestEpoch request.relayAfter stream then .ok (db, some (resetPullPage stream))
    else if requestEpoch = zeroEpoch then .ok (db, none)
    else (db.recordPeerAck peer requestEpoch request.relayAfter).map (·, none)

/-! ## Floors -/

def trustedPeers (db : PeerDb) (localDevice : DeviceId) : List DeviceRow :=
  db.devices.filter fun d => d.trusted = 1 && d.deviceId ≠ toHex localDevice

def ackedSeq (db : PeerDb) (peer : DeviceId) (epoch : Epoch) : Option ℕ :=
  (db.peerAcks.find? fun ack => ack.peerDeviceId = peer && ack.streamEpoch = epoch).map (·.ackedRelaySeq)

def dormant (dormantBefore : Option String) (d : DeviceRow) : Bool := dormantBefore.any (d.lastSeenAt < ·)

def minAckOf (db : PeerDb) (currentEpoch : Epoch) (dormantBefore : Option String) :
    List DeviceRow → ℕ → Option ℕ
  | [], floor => if floor = u64Max then none else some floor
  | d :: peers, floor =>
    match fromHex d.deviceId with
    | none => some 0
    | some peer =>
      match db.ackedSeq peer currentEpoch with
      | none => if dormant dormantBefore d then minAckOf db currentEpoch dormantBefore peers floor else some 0
      | some acked =>
        if dormant dormantBefore d then minAckOf db currentEpoch dormantBefore peers floor
        else if min floor acked = 0 then some 0
        else minAckOf db currentEpoch dormantBefore peers (min floor acked)

def minPeerAck (db : PeerDb) (localDevice : DeviceId) (currentEpoch : Epoch) (dormantBefore : Option String) :
    Option ℕ :=
  match db.trustedPeers localDevice with
  | [] => none
  | peers => db.minAckOf currentEpoch dormantBefore peers u64Max

structure HorizonSearch where
  lo : ℤ
  hi : ℤ
  best : ℤ
deriving DecidableEq

/-- One turn of the binary search. -/
def horizonTurn (db : PeerDb) (cutoff : ℤ) (s : HorizonSearch) : ℤ ⊕ HorizonSearch :=
  if s.lo ≤ s.hi then
    let mid := s.lo + (s.hi - s.lo) / 2
    match (db.log.arrivals.filter fun a => (a.relaySeq : ℤ) ≤ mid).greatest (·.relaySeq) with
    | none => .inr { s with lo := mid + 1 }
    | some a =>
      if a.arrivedAt ≤ cutoff then .inr { s with lo := mid + 1, best := max s.best a.relaySeq }
      else .inr { s with hi := a.relaySeq - 1 }
  else .inl s.best

/-- `horizon_relay_floor`, if the search ends within `turns` turns. -/
def horizonRelayFloorWithin (turns : ℕ) (db : PeerDb) (cutoff : ℤ) : Option ℤ :=
  match db.log.arrivals.least (·.relaySeq), db.log.arrivals.greatest (·.relaySeq) with
  | some oldest, some newest =>
    if oldest.arrivedAt > cutoff then some 0
    else if newest.arrivedAt ≤ cutoff then some newest.relaySeq
    else Loop.run (db.horizonTurn cutoff) turns ⟨oldest.relaySeq, newest.relaySeq, oldest.relaySeq⟩
  | _, _ => some 0

/-- The newest arrival not later than `cutoff`, if arrival times ascend. Every turn narrows the
bounds, so there are enough. -/
def horizonRelayFloor (db : PeerDb) (cutoff : ℤ) : ℤ :=
  let newest := (db.log.arrivals.greatest (·.relaySeq)).elim 0 (·.relaySeq)
  (db.horizonRelayFloorWithin (newest + 2) cutoff).getD 0

/-- The bounds of a pass; `cutoff` and `dormantBefore` are the same moment, one horizon ago,
in seconds and as text. -/
def safeRelayFloor (db : PeerDb) (localDevice : DeviceId) (cutoff : ℤ) (dormantBefore : String) :
    CompactionBounds :=
  let peers := (db.trustedPeers localDevice).length
  let horizonFloor := db.horizonRelayFloor cutoff
  if peers = 0 then ⟨peers, horizonFloor, 0, horizonFloor⟩
  else
    let ack := (db.minPeerAck localDevice db.currentStreamEpoch (some dormantBefore)).getD 0
    let ackFloor : ℤ := if ack < 2 ^ 63 then ack else 2 ^ 63 - 1
    ⟨peers, horizonFloor, ackFloor, max horizonFloor ackFloor⟩

end PeerDb

/-! ## Runs -/

structure BoundedPass where
  cutoff : ℤ
  dormantBefore : String
  pass : CompactionPass

inductive PeerEvent
  | append (w : LogWrite)
  /-- A pull request of a peer, at the gate. -/
  | present (peer : DeviceId) (request : PullRequest)
  | rotate (random : Epoch)
  /-- Any change of the three tables that say whom to trust. -/
  | book (devices : List DeviceRow) (deviceVouches : List VouchRow) (deviceRetirements : List String)
  | compact (bounded : BoundedPass)

namespace PeerDb

def empty (epoch : Epoch) : PeerDb := ⟨.empty epoch, [], [], [], []⟩

variable (isUpsert : List Byte → Bool) (localDevice : DeviceId)

def bounds (db : PeerDb) (bounded : BoundedPass) : CompactionBounds :=
  db.safeRelayFloor localDevice bounded.cutoff bounded.dormantBefore

/-- The pass as it is run, bounded by the safe floor. -/
def passOf (db : PeerDb) (bounded : BoundedPass) : CompactionPass :=
  { bounded.pass with safeFloor := (db.bounds localDevice bounded).safeFloor.toNat }

def step (db : PeerDb) : PeerEvent → PeerDb
  | .append w => { db with log := db.log.store w }
  | .present peer request =>
    match db.admitPullAck peer request with
    | .ok (db, _) => db
    | .error _ => db
  | .rotate random => { db with log := db.log.rotateRelayStreamEpoch random }
  | .book devices deviceVouches deviceRetirements =>
    { db with devices := devices, deviceVouches := deviceVouches, deviceRetirements := deviceRetirements }
  | .compact bounded => { db with log := db.log.compact isUpsert (db.passOf localDevice bounded) }

def run (epoch : Epoch) (events : List PeerEvent) : PeerDb :=
  events.foldl (step isUpsert localDevice) (empty epoch)

end PeerDb

end ProxyNode
