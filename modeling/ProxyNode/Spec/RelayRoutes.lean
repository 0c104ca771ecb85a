import ProxyNode.Spec.Relay

/-! The relay routes behind the check of a request's signature, over a log that takes ops in
between their reads, and the postcard body that goes back. -/

namespace ProxyNode

open Wire

/-! ## The body -/

def RelayWireEntry.toBytes (entry : RelayWireEntry) : List Byte := varint entry.seq ++ blob entry.envelope

def takeRelayWireEntry (buf : List Byte) : Option (RelayWireEntry × List Byte) := do
  let (seq, buf) ← takeVarint64 buf
  let (envelope, buf) ← takeBlob buf
  return (⟨seq, envelope⟩, buf)

namespace RelayResponse

def toBytes (response : RelayResponse) : List Byte :=
  byte response.v :: (response.epoch.1 ++ (varint response.head ++ (varint response.floor ++
    (varint response.next ++ (bool response.reset :: (varint response.entries.length ++
      response.entries.flatMap RelayWireEntry.toBytes))))))

/-- Trailing bytes after the last entry are ignored. -/
def fromBytes (buf : List Byte) : Option RelayResponse := do
  let (v, buf) ← buf.head?.map fun v => (v, buf.tail)
  let (epoch, buf) ← takeBytes 32 buf
  let (head, buf) ← takeVarint64 buf
  let (floor, buf) ← takeVarint64 buf
  let (next, buf) ← takeVarint64 buf
  let (reset, buf) ← takeBool buf
  let (count, buf) ← takeVarint64 buf
  let (entries, _) ← takeMany takeRelayWireEntry count buf
  if h : epoch.length = 32 then some ⟨v.val, ⟨epoch, h⟩, head, floor, next, reset, entries⟩ else none

end RelayResponse

/-- The caller's side of a route; `none` for a body that does not decode. -/
def receiveRelay (body : List Byte) (cursor : RelayCursor) (maxEntries : ℕ) (statusOnly : Bool) :
    Option (Except String RelayPage) :=
  (RelayResponse.fromBytes body).map fun wire => decodeRelayResponse wire cursor maxEntries statusOnly

/-! ## The routes -/

/-- The answer of the head route, and of the watch route once it has a state to report. -/
def relayStatus (stream : RelayStreamState) (requestEpoch : Epoch) (after : ℕ) :
    Except RelayStatus RelayResponse :=
  if ¬validRelayState stream then .error .internalServerError
  else
    let reset := relayNeedsReset requestEpoch after stream
    .ok (relayResponse stream reset (if reset then stream.floor else after) [])

def getRelayHead (stream : RelayStreamState) (requestEpoch : Epoch) (after : ℕ) :
    Except RelayStatus RelayResponse :=
  relayStatus stream requestEpoch after

/-- One pass of a wait: the ops that came in ahead of its look at the log, and whether its
time is up. -/
structure WatchPass where
  arrived : List SignedOp
  expired : Bool

/-- The passes of a wait, and what came in before the last look of one that slept out its
time. -/
structure WatchWait where
  passes : List WatchPass
  late : List SignedOp

def WatchWait.arrived (wait : WatchWait) : List SignedOp := wait.passes.flatMap WatchPass.arrived ++ wait.late

def untilRelayChangesFrom (epoch : Epoch) (after : ℕ) (late : List SignedOp) :
    OpLog → List WatchPass → RelayStreamState
  | log, [] => (log.takeIn late).relayState
  | log, pass :: passes =>
    let state := (log.takeIn pass.arrived).relayState
    if state.epoch ≠ epoch ∨ after < state.floor ∨ after > state.head ∨ state.head > after ∨ pass.expired then
      state
    else untilRelayChangesFrom epoch after late (log.takeIn pass.arrived) passes

def OpLog.untilRelayChanges (log : OpLog) (epoch : Epoch) (after : ℕ) (wait : WatchWait) : RelayStreamState :=
  untilRelayChangesFrom epoch after wait.late log wait.passes

/-- `waited` is what the wait comes back with, `none` if too many are parked already. -/
def getRelayWatch (initial : RelayStreamState) (waited : Option RelayStreamState) (requestEpoch : Epoch)
    (after : ℕ) : Except RelayStatus RelayResponse :=
  if ¬validRelayState initial then .error .internalServerError
  else
    let stream :=
      if relayNeedsReset requestEpoch after initial ∨ requestEpoch = zeroEpoch ∨ initial.head > after ∨
          initial.head < after then initial
      else waited.getD initial
    relayStatus stream requestEpoch after

/-! ## Served from a log -/

namespace OpLog

/-- The ops route; `between` comes in between its two reads. -/
def serveOps (log : OpLog) (between : List SignedOp) (cursor : RelayCursor) (limit : ℕ) :
    Except RelayStatus (List Byte) :=
  (getRelayOps log.relayState ((log.takeIn between).relayPage cursor.after limit) cursor.epoch cursor.after
    limit).map RelayResponse.toBytes

def serveHead (log : OpLog) (cursor : RelayCursor) : Except RelayStatus (List Byte) :=
  (getRelayHead log.relayState cursor.epoch cursor.after).map RelayResponse.toBytes

/-- The watch route; `wait` is `none` if it gets no permit. -/
def serveWatch (log : OpLog) (wait : Option WatchWait) (cursor : RelayCursor) : Except RelayStatus (List Byte) :=
  (getRelayWatch log.relayState (wait.map (log.untilRelayChanges cursor.epoch cursor.after)) cursor.epoch
    cursor.after).map RelayResponse.toBytes

end OpLog

end ProxyNode
