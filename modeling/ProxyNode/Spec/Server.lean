import ProxyNode.Spec.Pull

/-! The serving side of a pull: the keyed channel over the puller's claims, the
positional channel over the arrival stream, and the page that carries both. -/

namespace ProxyNode

structure MeshPullSocket where
  ownDeviceId : DeviceId
  relayStreamState : RelayStreamState
  origins : List DeviceId
  originSince : DeviceId → Option OrderKey → Option (List Byte) → ℕ → List OriginEnvelopeRow
  relaySinceWithEnvelopes : ℕ → ℕ → List RelayEnvelopeRow

/-- The logs behind the lock acquisitions of one page: the stream state, the origin list,
one read per origin and the arrival scan. -/
structure PageReads where
  state : OpLog
  origins : OpLog
  since : DeviceId → OpLog
  scan : OpLog

/-- A serving node over an op-log, each callback reading the log it found. -/
def PageReads.serveState (reads : PageReads) (own : DeviceId) : MeshPullSocket where
  ownDeviceId := own
  relayStreamState := reads.state.relayState
  origins := reads.origins.origins
  originSince := fun origin => (reads.since origin).originSince origin
  relaySinceWithEnvelopes := reads.scan.relaySinceWithEnvelopes

def PageReads.atomic (log : OpLog) : PageReads := ⟨log, log, fun _ => log, log⟩

def pullNeedsReset (requestEpoch : Epoch) (after : ℕ) (state : RelayStreamState) : Bool :=
  (requestEpoch = zeroEpoch ∧ state.floor > 0) ∨
    (requestEpoch ≠ zeroEpoch ∧ requestEpoch ≠ state.epoch) ∨
    (requestEpoch = state.epoch ∧ (after < state.floor ∨ after > state.head))

def resetPullPage (stream : RelayStreamState) : PullPage where
  version := pullVersion
  epoch := some stream.epoch
  reset := true
  floor := stream.floor
  backfill := []
  keyed := []
  nextRelaySeq := 0
  headSeq := stream.head
  resume := none
  complete := false
  snapshotRecommended := false
  store := none

/-! ## The keyed channel -/

structure EncodedRows where
  keyed : List PageEntry
  bytes : ℕ
  lastKey : Option OrderKey

/-- Encode rows after `bytes` earlier ones, stopping once the byte budget is reached. -/
def encodeOriginRows (byteBudget : ℕ) : List OriginEnvelopeRow → ℕ → EncodedRows
  | [], bytes => ⟨[], bytes, none⟩
  | (key, envelope) :: rows, bytes =>
    let bytes := bytes + Wire.base64Length envelope.length
    if byteBudget ≤ bytes then ⟨[some envelope], bytes, some key⟩
    else
      let rest := encodeOriginRows byteBudget rows bytes
      ⟨some envelope :: rest.keyed, rest.bytes, rest.lastKey.or (some key)⟩

def keyedResume (origin : DeviceId) (lastKey : Option OrderKey) : Resume :=
  ⟨.keyed, 0, some origin, lastKey⟩

/-- The lower bound of a keyed read: the claim, or the resume key where that is higher. -/
def keyedAfter : Option OrderKey → Option OrderKey → Option OrderKey
  | some claim, some resumeKey => some (max claim resumeKey)
  | some claim, none => some claim
  | none, resumeKey => resumeKey

/-- The origins from the resumed one on. They ascend, so their partition point is where
the smaller ones end. -/
def originsFrom (origins : List DeviceId) : Option DeviceId → List DeviceId
  | some origin => origins.dropWhile (· < origin)
  | none => origins

section KeyedChannel

variable (socket : MeshPullSocket) (claims : CoverageVector) (audit : Bool) (byteBudget : ℕ)
  (store : Option (List Byte))

def claimFor (origin : DeviceId) : Option OrderKey :=
  if audit then none else claims.claims.get? origin

/-- The loop over the remaining origins, after `keyed` and `bytes` of earlier ones. -/
def serveOrigins (resumeOrigin : Option DeviceId) (resumeKey : Option OrderKey) (skipped : Option DeviceId) :
    List DeviceId → List PageEntry → ℕ → ℕ → List PageEntry × Option Resume
  | [], keyed, _, _ => (keyed, none)
  | origin :: origins, keyed, remaining, bytes =>
    if skipped = some origin then
      serveOrigins resumeOrigin resumeKey skipped origins keyed remaining bytes
    else
      let after := keyedAfter (claimFor claims audit origin)
        (if resumeOrigin = some origin then resumeKey else none)
      let rows := socket.originSince origin after store remaining
      let encoded := encodeOriginRows byteBudget rows bytes
      if rows.length = remaining ∨ encoded.keyed.length < rows.length ∨ byteBudget ≤ encoded.bytes then
        (keyed ++ encoded.keyed, some (keyedResume origin encoded.lastKey))
      else
        serveOrigins resumeOrigin resumeKey skipped origins (keyed ++ encoded.keyed)
          (remaining - encoded.keyed.length) encoded.bytes

/-- Each origin's ops strictly above the puller's claim, origins ascending, with the
serving device's own origin in front on a fresh exchange. -/
def buildKeyedChannel (resume : Option Resume) (budget : ℕ) : List PageEntry × Option Resume :=
  if budget = 0 then ([], resume)
  else
    let own := socket.ownDeviceId
    let resumeOrigin := resume.bind (·.origin)
    let resumeKey := resume.bind (·.afterKey)
    let origins := originsFrom socket.origins resumeOrigin
    let loop := serveOrigins socket claims audit byteBudget store resumeOrigin resumeKey
    if resume = none ∧ own ∈ socket.origins then
      let rows := socket.originSince own (claimFor claims audit own) store budget
      let encoded := encodeOriginRows byteBudget rows 0
      let remaining := budget - encoded.keyed.length
      if remaining = 0 ∨ encoded.keyed.length < rows.length ∨ byteBudget ≤ encoded.bytes then
        (encoded.keyed, some (keyedResume own encoded.lastKey))
      else loop (some own) origins encoded.keyed remaining encoded.bytes
    else loop none origins [] budget 0

end KeyedChannel

/-! ## The positional channel -/

structure ArrivalScan where
  backfill : List (ℕ × PageEntry)
  nextRelaySeq : ℕ
  byteCut : Bool

/-- Scan arrivals, serving those at or below the claims. Past the byte cut only arrivals
the keyed channel owes are scanned over. -/
def scanArrivals (claims : CoverageVector) (byteBudget : ℕ) :
    List RelayEnvelopeRow → ℕ → ℕ → Bool → ArrivalScan
  | [], next, _, cut => ⟨[], next, cut⟩
  | (seq, op, envelope) :: rows, next, bytes, cut =>
    if claims.covers op.orderKey then
      if cut then ⟨[], next, cut⟩
      else
        let bytes := bytes + Wire.base64Length envelope.length
        let rest := scanArrivals claims byteBudget rows seq bytes (byteBudget ≤ bytes)
        { rest with backfill := (seq, some envelope) :: rest.backfill }
    else scanArrivals claims byteBudget rows seq bytes cut

def backfillResume (afterSeq : ℕ) : Resume := ⟨.backfill, afterSeq, none, none⟩

/-! ## Pages -/

def pullPage (stream : RelayStreamState) (store : Option (List Byte))
    (backfill : List (ℕ × PageEntry)) (keyed : List PageEntry) (nextRelaySeq : ℕ)
    (resume : Option Resume) : PullPage where
  version := pullVersion
  epoch := some stream.epoch
  reset := false
  floor := stream.floor
  backfill := backfill
  keyed := keyed
  nextRelaySeq := nextRelaySeq
  headSeq := stream.head
  resume := resume
  complete := resume.isNone
  snapshotRecommended := false
  store := store

section BuildPage

variable (limits : PageLimits) (socket : MeshPullSocket)

/-- The positional part of a page, after the `keyed` entries it already carries. -/
def buildBackfill (claims : CoverageVector) (keyed : List PageEntry) (startSeq budget : ℕ) : PullPage :=
  let scanned := socket.relaySinceWithEnvelopes startSeq budget
  let scan := scanArrivals claims limits.pageByteBudget scanned startSeq
    (keyed.map PageEntry.length).sum false
  pullPage socket.relayStreamState none scan.backfill keyed scan.nextRelaySeq
    (if (scanned.length = budget ∧ 0 < budget) ∨ scan.byteCut then
      some (backfillResume scan.nextRelaySeq) else none)

def buildPullPage (request : PullRequest) : Except String PullPage :=
  let stream := socket.relayStreamState
  match request.relayEpoch with
  | none => .error "invalid relay epoch"
  | some requestEpoch =>
    if request.store = none ∧ pullNeedsReset requestEpoch request.relayAfter stream then
      .ok (resetPullPage stream)
    else
      let limit := max 1 (min request.limit limits.pageLimitMax)
      let claims := request.coverage
      let resumeKeyed := request.resume.filter fun resume => resume.phase = .keyed
      let keyedChannel := buildKeyedChannel socket claims request.audit limits.pageByteBudget
      match request.store with
      | some store =>
        let (keyed, resume) := keyedChannel (some store) resumeKeyed limit
        .ok (pullPage stream (some store) [] keyed request.relayAfter resume)
      | none =>
        match request.resume with
        | some ⟨.backfill, afterSeq, _, _⟩ => .ok (buildBackfill limits socket claims [] afterSeq limit)
        | _ =>
          let startSeq := request.relayAfter
          let (keyed, resume) := keyedChannel none resumeKeyed limit
          if resume.isSome then .ok (pullPage stream none [] keyed startSeq resume)
          else if limit - keyed.length = 0 then
            .ok (pullPage stream none [] keyed startSeq (some (backfillResume startSeq)))
          else .ok (buildBackfill limits socket claims keyed startSeq (limit - keyed.length))

/-- The reset a presented cursor calls for, if it does. Recording the acknowledgment is a
no-op of the in-memory node. -/
def admitPullAck (request : PullRequest) : Except String (Option PullPage) :=
  match request.relayEpoch with
  | none => .error "invalid relay epoch"
  | some requestEpoch =>
    .ok (if pullNeedsReset requestEpoch request.relayAfter socket.relayStreamState then
      some (resetPullPage socket.relayStreamState) else none)

def servePull (request : PullRequest) : Except String PullPage :=
  match admitPullAck socket request with
  | .error e => .error e
  | .ok (some reset) => .ok reset
  | .ok none => buildPullPage limits socket request

end BuildPage

end ProxyNode
