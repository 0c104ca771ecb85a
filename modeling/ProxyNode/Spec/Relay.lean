import ProxyNode.Spec.Pull

/-! The relay-local stream of version two: a server's page of its arrival stream and the
checks a puller makes on it before it decodes the envelopes. -/

namespace ProxyNode

def relayProtocolVersion : ℕ := 2

def defaultPullLimit : ℕ := 512

/-- First contact: the all-zero epoch. -/
def RelayCursor.start : RelayCursor := ⟨zeroEpoch, 0⟩

structure RelayWireEntry where
  seq : ℕ
  envelope : List Byte

structure RelayResponse where
  v : ℕ
  epoch : Epoch
  head : ℕ
  floor : ℕ
  next : ℕ
  reset : Bool
  entries : List RelayWireEntry

structure RelayOp where
  seq : ℕ
  op : SignedOp
deriving DecidableEq

structure RelayPage where
  epoch : Epoch
  head : ℕ
  floor : ℕ
  next : ℕ
  reset : Bool
  entries : List RelayOp
deriving DecidableEq

def RelayPage.cursor (page : RelayPage) : RelayCursor := ⟨page.epoch, page.next⟩

/-! ## Serving -/

/-- The refusals of a relay route that do not come from the request's signature. -/
inductive RelayStatus
  | badRequest
  | internalServerError
deriving DecidableEq

def relayNeedsReset (requestEpoch : Epoch) (after : ℕ) (state : RelayStreamState) : Bool :=
  (requestEpoch = zeroEpoch ∧ state.floor > 0) ∨
    (requestEpoch ≠ zeroEpoch ∧ requestEpoch ≠ state.epoch) ∨
    (requestEpoch = state.epoch ∧ (after < state.floor ∨ after > state.head))

def validRelayState (state : RelayStreamState) : Bool :=
  state.epoch ≠ zeroEpoch ∧ state.floor ≤ state.head

def relayResponse (state : RelayStreamState) (reset : Bool) (next : ℕ) (entries : List RelayLogEntry) :
    RelayResponse where
  v := relayProtocolVersion
  epoch := state.epoch
  head := state.head
  floor := state.floor
  next := next
  reset := reset
  entries := entries.map fun entry => ⟨entry.seq, entry.op.toBytes⟩

/-- Whether the sequences continue `previous` one by one and stay within `head`. -/
def contiguous (head : ℕ) : ℕ → List ℕ → Bool
  | _, [] => true
  | previous, seq :: seqs => previous + 1 = seq ∧ seq ≤ head ∧ contiguous head seq seqs

/-- An authenticated page request. The stream state and the page are two reads of the log,
so the reset test is made on both. -/
def getRelayOps (stream : RelayStreamState) (page : RelayLogPage) (requestEpoch : Epoch)
    (after limit : ℕ) : Except RelayStatus RelayResponse :=
  if limit = 0 ∨ limit > defaultPullLimit then .error .badRequest
  else if ¬validRelayState stream then .error .internalServerError
  else if relayNeedsReset requestEpoch after stream then .ok (relayResponse stream true stream.floor [])
  else if ¬validRelayState page.state then .error .internalServerError
  else if relayNeedsReset requestEpoch after page.state then
    .ok (relayResponse page.state true page.state.floor [])
  else if page.entries.length > limit then .error .internalServerError
  else if ¬contiguous page.state.head after (page.entries.map RelayLogEntry.seq) then
    .error .internalServerError
  else
    let next := (page.entries.getLast?.map RelayLogEntry.seq).getD after
    .ok (relayResponse page.state false next page.entries)

/-! ## Receiving -/

def decodeRelayEntries : List RelayWireEntry → Except OpError (List RelayOp)
  | [] => .ok []
  | entry :: entries =>
    match SignedOp.fromBytes entry.envelope with
    | .error e => .error e
    | .ok op =>
      match decodeRelayEntries entries with
      | .error e => .error e
      | .ok ops => .ok (⟨entry.seq, op⟩ :: ops)

def malformed (what : String) : String := "malformed wire payload: " ++ what

def decodeRelayResponse (wire : RelayResponse) (cursor : RelayCursor) (maxEntries : ℕ)
    (statusOnly : Bool) : Except String RelayPage :=
  let cursorInvalid : Bool :=
    (cursor.epoch = zeroEpoch ∧ wire.floor > 0) ∨
      (cursor.epoch ≠ zeroEpoch ∧ cursor.epoch ≠ wire.epoch) ∨
      (cursor.epoch = wire.epoch ∧ (cursor.after < wire.floor ∨ cursor.after > wire.head))
  let expectedNext := (wire.entries.getLast?.map RelayWireEntry.seq).getD cursor.after
  if wire.v ≠ relayProtocolVersion then
    .error (malformed ("unsupported relay protocol version " ++ toString wire.v))
  else if wire.epoch = zeroEpoch ∨ wire.floor > wire.head then
    .error (malformed "invalid relay stream bounds")
  else if wire.reset then
    if ¬cursorInvalid ∨ wire.entries ≠ [] ∨ wire.next ≠ wire.floor then
      .error (malformed "invalid relay reset response")
    else .ok ⟨wire.epoch, wire.head, wire.floor, wire.next, true, []⟩
  else if cursorInvalid then .error (malformed "relay response did not reset an invalid cursor")
  else if statusOnly ∧ (wire.entries ≠ [] ∨ wire.next ≠ cursor.after) then
    .error (malformed "invalid relay status response")
  else if ¬statusOnly ∧ wire.entries.length > maxEntries then
    .error (malformed "relay page exceeds requested limit")
  else if ¬statusOnly ∧ ¬contiguous wire.head cursor.after (wire.entries.map RelayWireEntry.seq) then
    .error (malformed "relay sequence is not strictly increasing as a contiguous prefix")
  else if ¬statusOnly ∧ (wire.next ≠ expectedNext ∨ wire.next < wire.floor ∨ wire.next > wire.head) then
    .error (malformed "invalid relay page next cursor")
  else match decodeRelayEntries wire.entries with
    | .error e => .error e.text
    | .ok entries => .ok ⟨wire.epoch, wire.head, wire.floor, wire.next, false, entries⟩

def fetchRelayOps (server : OpLog) (cursor : RelayCursor) (limit : ℕ) : Except String RelayPage :=
  match getRelayOps server.relayState (server.relayPage cursor.after limit) cursor.epoch cursor.after limit with
  | .error _ => .error "http request failed"
  | .ok wire => decodeRelayResponse wire cursor limit false

end ProxyNode
