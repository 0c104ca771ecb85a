import ProxyNode.Spec.Client

/-! The store sweep: a peer's whole slice of one store, page by page with the claims
ignored, admitted without moving a cursor or a claim. The socket is any that admits ops;
what it was handed is recorded call by call. -/

namespace ProxyNode

structure SweepAdmission where
  admitted : ℕ
  error : Option String

/-- The admitting side of a socket; a call may fail as a whole. -/
structure SweepSocket where
  State : Type
  admitOps : State → List SignedOp → State × Except String SweepAdmission

def OpLogPullSocket.sweepSocket (H : Host) : SweepSocket where
  State := OpLogPullSocket H
  admitOps := fun p ops =>
    let admission := p.admitOps ops true
    (p.after admission.effects, .ok ⟨admission.admitted, admission.error⟩)

structure Handed where
  ops : List SignedOp
  outcome : Except String SweepAdmission

/-- The call came back without an error of either kind. -/
def Handed.Clean (call : Handed) : Prop := ∃ admission, call.outcome = .ok admission ∧ admission.error = none

structure SweepState where
  applied : ℕ
  resume : Option Resume
  lastResume : Option (Option DeviceId × Option OrderKey)

def SweepState.start : SweepState := ⟨0, none, none⟩

inductive SweepNext
  | again (s : SweepState)
  | done (result : Except String ℕ)

def sweepRequest (limits : PageLimits) (relayCursor : Option RelayCursor) (store : List Byte) (s : SweepState)
    (nowMs : ℤ) : PullRequest where
  version := pullVersion
  coverage := .new
  relayEpoch := some ((relayCursor.map RelayCursor.epoch).getD zeroEpoch)
  relayAfter := (relayCursor.map RelayCursor.after).getD 0
  resume := s.resume
  limit := limits.pageLimitMax
  audit := true
  store := some store
  issuedAtMs := nowMs

section Sweep

variable (S : SweepSocket) (limits : PageLimits) (peer : DeviceId) (relayCursor : Option RelayCursor)
  (store : List Byte)

/-- What follows an admission: the end, or the next token, which has to move. -/
def sweepAdvance (s : SweepState) (page : PullPage) (admission : SweepAdmission) : SweepNext :=
  let s : SweepState := { s with applied := s.applied + admission.admitted }
  if admission.error.isSome ∨ page.complete then .done (.ok s.applied)
  else
    let position := page.resume.map fun r => (r.origin, r.afterKey)
    if position = s.lastResume then
      .done (.error ("v3 store sweep peer=" ++ toHex peer ++ " returned a non-advancing resume"))
    else .again { s with lastResume := position, resume := page.resume }

/-- Admit the keyed entries of a page of the store. -/
def sweepPage (st : S.State) (s : SweepState) (page : PullPage) : S.State × List Handed × SweepNext :=
  if page.store ≠ some store then (st, [], .done (.ok s.applied))
  else match page.keyed.mapM fun entry => decodePageOp entry peer with
    | .error e => (st, [], .done (.error e))
    | .ok ops =>
      match S.admitOps st ops with
      | (st, .error e) => (st, [⟨ops, .error e⟩], .done (.error e))
      | (st, .ok admission) => (st, [⟨ops, .ok admission⟩], sweepAdvance peer s page admission)

/-- One request of the sweep and everything done with its answer. -/
def sweepStep (m : Moment) (st : S.State) (s : SweepState) : S.State × List Handed × SweepNext :=
  match m.answer (sweepRequest limits relayCursor store s m.now) with
  | .transport e =>
    (st, [], .done (.error ("v3 store sweep from peer " ++ toHex peer ++ ": " ++ e)))
  | .unverified e => (st, [], .done (.error e))
  | .refused status _ =>
    if status = 404 ∨ status = 405 ∨ status = 503 then (st, [], .done (.ok s.applied))
    else (st, [], .done (.error ("peer " ++ toHex peer ++ " refused the v3 store sweep (HTTP " ++
      toString status ++ ")")))
  | .page page => sweepPage S peer store st s page

/-- The sweep over the turns `world`, for at most `fuel` requests: the state it leaves, the
calls it made and its result. -/
def sweepStore : ℕ → (ℕ → Moment) → S.State → SweepState → Option (S.State × List Handed × Except String ℕ)
  | 0, _, _, _ => none
  | fuel + 1, world, st, s =>
    match sweepStep S limits peer relayCursor store (world 0) st s with
    | (st, calls, .done result) => some (st, calls, result)
    | (st, calls, .again s) =>
      (sweepStore fuel (fun i => world (i + 1)) st s).map fun r => (r.1, calls ++ r.2.1, r.2.2)

end Sweep

/-! ## An honest server -/

/-- The answer of the route over a socket. -/
def serveSocket (limits : PageLimits) (socket : MeshPullSocket) (request : PullRequest) : PullAnswer :=
  match servePull limits socket request with
  | .ok page => .page page
  | .error e => .refused 500 e

/-- The turns of a node that does not change. -/
def steadyWorld (limits : PageLimits) (socket : MeshPullSocket) (now : ℕ → ℕ) (i : ℕ) : Moment :=
  ⟨now i, serveSocket limits socket, serveSocket limits socket⟩

end ProxyNode
