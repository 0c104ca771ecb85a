import ProxyNode.Spec.Puller
import ProxyNode.Spec.Server

/-! The pulling side of the mesh pull: applying one page, the reset handshake, the
newest-first preview and the paged drain. A page is applied through effects in program
order; the drain is one step per request, over whatever the peer answers. -/

namespace ProxyNode

variable {H : Host}

def pullNoProgressLimit : ℕ := 2

def newestFirstPreviewGap (limits : PageLimits) : ℕ := limits.pageLimitMax

def previewInterval : ℕ := 10000

def decodePageOp (entry : PageEntry) (peer : DeviceId) : Except String SignedOp :=
  match entry with
  | none => .error ("v3 pull peer=" ++ toHex peer ++ " sent an undecodable entry")
  | some bytes =>
    match SignedOp.fromBytes bytes with
    | .error e => .error ("v3 pull peer=" ++ toHex peer ++ " sent an invalid envelope: " ++ e.text)
    | .ok op => .ok op

/-! ## Applying a page -/

/-- The positional entries behind `last`, in strictly advancing order. -/
def decodeBackfill (peer : DeviceId) (after : ℕ) :
    ℕ → List (ℕ × PageEntry) → Except String (List (ℕ × SignedOp))
  | _, [] => .ok []
  | last, (seq, entry) :: entries =>
    if seq ≤ last then
      .error ("v3 pull peer=" ++ toHex peer ++ " returned non-advancing sequence " ++ toString seq ++
        " at or behind " ++ toString after)
    else match decodePageOp entry peer with
      | .error e => .error e
      | .ok op => (decodeBackfill peer after seq entries).map ((seq, op) :: ·)

structure KeyedRun where
  origin : DeviceId
  ops : List SignedOp
  same : ∀ op ∈ ops, op.orderKey.device = origin

def KeyedRun.single (op : SignedOp) : KeyedRun := ⟨op.orderKey.device, [op], by simp⟩

def KeyedRun.push (run : KeyedRun) (op : SignedOp) (h : op.orderKey.device = run.origin) : KeyedRun where
  origin := run.origin
  ops := run.ops ++ [op]
  same := by
    intro op' h'
    rcases List.mem_append.1 h' with h' | h'
    · exact run.same op' h'
    · rw [List.mem_singleton.1 h', h]

/-- Group the keyed entries into runs, newest run first. -/
def splitRuns (peer : DeviceId) :
    List PageEntry → List KeyedRun → Option OrderKey → Except String (List KeyedRun)
  | [], runs, _ => .ok runs
  | entry :: entries, runs, lastKey =>
    match decodePageOp entry peer with
    | .error e => .error e
    | .ok op =>
      match runs with
      | [] => splitRuns peer entries [.single op] (some op.orderKey)
      | run :: done =>
        if h : op.orderKey.device = run.origin then
          if lastKey.any fun last => op.orderKey ≤ last then
            .error ("v3 pull peer=" ++ toHex peer ++ " returned a non-ascending keyed entry for origin " ++
              toHex run.origin)
          else splitRuns peer entries (run.push op h :: done) (some op.orderKey)
        else if 1 < runs.length ∧ op.orderKey.device < run.origin then
          .error ("v3 pull peer=" ++ toHex peer ++ " returned keyed origins out of order")
        else splitRuns peer entries (.single op :: run :: done) (some op.orderKey)

/-- What a stretch of work did: its effects, the ops it counted and what stopped it. -/
structure Progress (H : Host) where
  effects : List (Effect H)
  applied : ℕ
  error : Option String

/-- The quantum callback of a run: the claim follows the claim-safe prefix. -/
def raiseClaim (run : KeyedRun) (claimSafe : ℕ) : List (Effect H) :=
  if 0 < claimSafe then
    match h : run.ops[claimSafe - 1]? with
    | some op => [.advanceLocalCoverage run.origin op.orderKey (run.same op (List.mem_of_getElem? h))]
    | none => []
  else []

def applyRun (p : OpLogPullSocket H) (run : KeyedRun) (skipUnattested : Bool) : Progress H :=
  let admission := p.admitOps run.ops skipUnattested
  ⟨admission.effects ++ raiseClaim run admission.claimSafe, admission.admitted, admission.error⟩

def applyRuns (skipUnattested : Bool) : List KeyedRun → OpLogPullSocket H → Progress H
  | [], _ => ⟨[], 0, none⟩
  | run :: runs, p =>
    let first := applyRun p run skipUnattested
    match first.error with
    | some e => ⟨first.effects, first.applied, some e⟩
    | none =>
      let rest := applyRuns skipUnattested runs (p.after first.effects)
      ⟨first.effects ++ rest.effects, first.applied + rest.applied, rest.error⟩

/-- The outcome of a page: its effects, the caller's cursor afterwards and the result. -/
structure PageOutcome (H : Host) where
  effects : List (Effect H)
  cursor : Option RelayCursor
  result : Except String ℕ

/-- The keyed part of a page, after `before` of the positional one. -/
def applyKeyed (p : OpLogPullSocket H) (peer : DeviceId) (cursor : RelayCursor) (page : PullPage)
    (skipUnattested : Bool) (before : List (Effect H)) (applied : ℕ) : PageOutcome H :=
  match splitRuns peer page.keyed [] none with
  | .error e => ⟨before, some cursor, .error e⟩
  | .ok runs =>
    let keyed := applyRuns skipUnattested runs.reverse (p.after before)
    ⟨before ++ keyed.effects, some cursor,
      match keyed.error with
      | some e => .error e
      | none => .ok (applied + keyed.applied)⟩

/-- The quantum callback: the cursor follows the last admitted entry. -/
def followAdmitted (peer : DeviceId) (current : RelayCursor) (entries : List (ℕ × SignedOp)) (admitted : ℕ) :
    RelayCursor × List (Effect H) :=
  if 0 < admitted then
    let reached : RelayCursor :=
      { current with after := ((entries[admitted - 1]?).map Prod.fst).getD current.after }
    (reached, [.saveRelayCursor peer reached])
  else (current, [])

/-- The positional part of a page: commit the cursor, decode, admit. -/
def applyBackfill (p : OpLogPullSocket H) (peer : DeviceId) (current : RelayCursor) (page : PullPage)
    (skipUnattested : Bool) : Progress H × RelayCursor :=
  let commit : List (Effect H) := [.saveRelayCursor peer current]
  match decodeBackfill peer current.after current.after page.backfill with
  | .error e => (⟨commit, 0, some e⟩, current)
  | .ok entries =>
    let admission := (p.after commit).admitOps (entries.map Prod.snd) skipUnattested
    let follow := followAdmitted peer current entries admission.admitted
    (⟨commit ++ admission.effects ++ follow.2, admission.admitted, admission.error⟩, follow.1)

def applyChannels (p : OpLogPullSocket H) (peer : DeviceId) (current : RelayCursor) (page : PullPage)
    (skipUnattested : Bool) : PageOutcome H :=
  let (backfill, current) := applyBackfill p peer current page skipUnattested
  match backfill.error with
  | some e => ⟨backfill.effects, some current, .error e⟩
  | none =>
    let next : RelayCursor := { current with after := max current.after page.nextRelaySeq }
    applyKeyed p peer next page skipUnattested (backfill.effects ++ [.saveRelayCursor peer next])
      backfill.applied

def applyPullPage (p : OpLogPullSocket H) (peer : DeviceId) (cursor : Option RelayCursor) (page : PullPage)
    (skipUnattested : Bool) : PageOutcome H :=
  match page.epoch with
  | none => ⟨[], cursor, .error "v3 pull page carries an invalid epoch"⟩
  | some epoch =>
    match cursor with
    | some current =>
      if current.epoch = epoch then applyChannels p peer current page skipUnattested
      else ⟨[], cursor, .error ("v3 pull peer=" ++ toHex peer ++ " changed stream epoch without a reset")⟩
    | none => applyChannels p peer ⟨epoch, 0⟩ page skipUnattested

/-! ## Resets -/

def validatePullReset (request : PullRequest) (page : PullPage) (responseEpoch : Epoch) :
    Except String RelayCursor :=
  if page.reset = false then .error "invalid v3 reset: response was not marked as a reset"
  else if page.headSeq < page.floor then
    .error ("invalid v3 reset: floor " ++ toString page.floor ++ " exceeds signed head " ++
      toString page.headSeq)
  else if page.backfill ≠ [] ∨ page.keyed ≠ [] ∨ page.nextRelaySeq ≠ 0 ∨ page.resume.isSome ∨
      page.complete ∨ page.snapshotRecommended ∨ page.store.isSome then
    .error "invalid v3 reset: reset page carried data, progress, or resume state"
  else match request.relayEpoch with
    | none => .error "invalid relay epoch"
    | some requestEpoch =>
      if pullNeedsReset requestEpoch request.relayAfter ⟨responseEpoch, page.headSeq, page.floor⟩ then
        .ok ⟨responseEpoch, page.floor⟩
      else .error "invalid v3 reset: signed stream state does not invalidate the requested cursor"

/-! ## The newest-first preview -/

/-- What a request comes back with: a transport failure, a refusal, a page that does not
verify, or a verified page. -/
inductive PullAnswer
  | transport (error : String)
  | refused (status : ℕ) (body : String)
  | unverified (error : String)
  | page (page : PullPage)

def previewResumeAfter (limits : PageLimits) (previous : Option ℕ) (headSeq : ℕ) : ℕ :=
  (previous.filter fun after => after ≤ headSeq ∧ headSeq - after ≤ limits.pageLimitMax).getD
    (headSeq - limits.pageLimitMax)

def maxKey (origin : DeviceId) : OrderKey := ⟨Fin.last (2 ^ 64 - 1), origin, Wire.fill 32 255⟩

def inflatedClaims (origins : List DeviceId) : CoverageVector :=
  origins.foldl (fun c origin => c.insert origin (maxKey origin) rfl) .new

def previewRequest (limits : PageLimits) (p : OpLogPullSocket H) (cursor : Option RelayCursor)
    (afterSeq : ℕ) (nowMs : ℤ) : PullRequest where
  version := pullVersion
  coverage := inflatedClaims p.registry.keys.keys
  relayEpoch := some ((cursor.map RelayCursor.epoch).getD zeroEpoch)
  relayAfter := (cursor.map RelayCursor.after).getD 0
  resume := some (backfillResume afterSeq)
  limit := limits.pageLimitMax
  audit := false
  store := none
  issuedAtMs := nowMs

/-- Admit the head window without moving a cursor or a claim; the result is the count
admitted and where the next preview starts. -/
def previewHeadWindow (limits : PageLimits) (ask : PullRequest → PullAnswer) (p : OpLogPullSocket H)
    (peer : DeviceId) (cursor : Option RelayCursor) (afterSeq : ℕ) (nowMs : ℤ) :
    List (Effect H) × Except String (ℕ × ℕ) :=
  let failed (error : String) : List (Effect H) × Except String (ℕ × ℕ) :=
    ([], .error ("v3 preview pull from peer " ++ toHex peer ++ ": " ++ error))
  match ask (previewRequest limits p cursor afterSeq nowMs) with
  | .transport e => failed e
  | .unverified e => failed ("op from device " ++ toHex peer ++ " failed verification: " ++ e)
  | .refused status _ =>
    if status = 404 ∨ status = 405 ∨ status = 501 then
      failed ("relay v2 unsupported by peer (status " ++ toString status ++ ")")
    else failed ("http request failed: status " ++ toString status)
  | .page page =>
    if page.reset ∨ page.snapshotRecommended then ([], .ok (0, afterSeq))
    else match page.backfill.mapM fun e => decodePageOp e.2 peer with
      | .error e => ([], .error e)
      | .ok ops =>
        let admission := p.admitOps ops false
        (admission.effects, .ok (admission.admitted,
          if admission.admitted = 0 then afterSeq
          else ((page.backfill[admission.admitted - 1]?).map Prod.fst).getD afterSeq))

/-! ## The drain -/

inductive PullOutcome
  | applied (n : ℕ)
  | unsupported
  | warming
deriving DecidableEq

/-- Backbone position and resume token, compared between pages. -/
abbrev PullProgress := ℕ × Option Resume

def pullProgress (cursor : Option RelayCursor) (resume : Option Resume) : PullProgress :=
  ((cursor.map RelayCursor.after).getD 0, resume)

structure DrainState where
  cursor : Option RelayCursor
  total : ℕ
  resume : Option Resume
  resetSeen : Bool
  recommendationOverridden : Bool
  pages : ℕ
  stalled : ℕ
  lastProgress : Option PullProgress
  lastPreview : Option ℕ
  previewAfter : Option ℕ

def DrainState.start (cursor : Option RelayCursor) : DrainState :=
  ⟨cursor, 0, none, false, false, 0, 0, none, none, none⟩

/-- One turn of the world around a drain: the clock in milliseconds, and what the peer
answers to a page request and to a preview. -/
structure Moment where
  now : ℕ
  answer : PullRequest → PullAnswer
  preview : PullRequest → PullAnswer

inductive DrainNext
  | again (d : DrainState)
  | done (cursor : Option RelayCursor) (result : Except String PullOutcome)

def drainRequest (limits : PageLimits) (p : OpLogPullSocket H) (d : DrainState) (audit : Bool) (nowMs : ℤ) :
    PullRequest where
  version := pullVersion
  coverage := p.coverage
  relayEpoch := some ((d.cursor.map RelayCursor.epoch).getD zeroEpoch)
  relayAfter := (d.cursor.map RelayCursor.after).getD 0
  resume := d.resume
  limit := limits.pageLimitMax
  audit := audit
  store := none
  issuedAtMs := nowMs

def previewDue (lastPreview : Option ℕ) (now : ℕ) : Bool :=
  lastPreview.all fun at_ => previewInterval < now - at_

section Drain

variable (limits : PageLimits) (peer : DeviceId) (audit skipUnattested : Bool)

def runPreview (m : Moment) (p : OpLogPullSocket H) (d : DrainState) (headSeq : ℕ) :
    List (Effect H) × DrainState :=
  let (effects, result) := previewHeadWindow limits m.preview p peer d.cursor
    (previewResumeAfter limits d.previewAfter headSeq) m.now
  (effects, match result with
    | .ok (_, next) => { d with previewAfter := some next }
    | .error _ => d)

/-- A peer that recommends a snapshot is overridden once. -/
def drainSnapshot (m : Moment) (p : OpLogPullSocket H) (d : DrainState) (page : PullPage) :
    List (Effect H) × DrainNext :=
  if d.recommendationOverridden then
    ([], .done d.cursor (.error ("v3 pull peer=" ++ toHex peer ++
      " kept recommending a snapshot on resumed requests")))
  else
    let d := { d with recommendationOverridden := true }
    let (effects, d) :=
      if previewDue d.lastPreview m.now ∧ 0 < page.headSeq then
        runPreview limits peer m p { d with lastPreview := some m.now } page.headSeq
      else ([], d)
    (effects, .again { d with resume := some (backfillResume ((d.cursor.map RelayCursor.after).getD 0)) })

def drainReset (request : PullRequest) (d : DrainState) (page : PullPage) (epoch : Epoch) :
    List (Effect H) × DrainNext :=
  if d.resetSeen then
    ([], .done d.cursor (.error ("v3 pull peer=" ++ toHex peer ++ " repeated its stream reset")))
  else match validatePullReset request page epoch with
    | .error e => ([], .done d.cursor (.error e))
    | .ok reset =>
      ([.resetRelayCursor peer reset],
        .again { d with resetSeen := true, cursor := some reset, resume := none })

def drainPreview (m : Moment) (p : OpLogPullSocket H) (d : DrainState) (page : PullPage) :
    List (Effect H) × DrainState :=
  if previewDue d.lastPreview m.now ∧ page.complete = false then
    let d := { d with lastPreview := some m.now }
    if newestFirstPreviewGap limits < page.headSeq - (d.cursor.map RelayCursor.after).getD 0 then
      runPreview limits peer m p d page.headSeq
    else ([], d)
  else ([], d)

/-- What follows an applied page: the end of the drain, a fresh exchange after a resumed
one, or the next resume token, with the stall check. -/
def drainAdvance (d : DrainState) (page : PullPage) (resumed : Bool) : DrainNext :=
  if page.complete then
    if resumed then .again { d with resume := none }
    else .done d.cursor (.ok (.applied d.total))
  else
    let progress := pullProgress d.cursor page.resume
    let stalled := if d.lastProgress = some progress then d.stalled + 1 else 0
    if pullNoProgressLimit ≤ stalled then
      .done d.cursor (.error ("v3 pull peer=" ++ toHex peer ++ " returned " ++ toString stalled ++
        " pages without advancing"))
    else .again { d with resume := page.resume, stalled := stalled, lastProgress := some progress }

def drainApply (m : Moment) (p : OpLogPullSocket H) (d : DrainState) (page : PullPage) :
    List (Effect H) × DrainNext :=
  let outcome := applyPullPage p peer d.cursor page skipUnattested
  let d := { d with cursor := outcome.cursor }
  match outcome.result with
  | .error e => (outcome.effects, .done d.cursor (.error e))
  | .ok applied =>
    let d := { d with total := d.total + applied, pages := d.pages + 1 }
    let (effects, d) := drainPreview limits peer m (p.after outcome.effects) d page
    (outcome.effects ++ effects, drainAdvance peer d page d.resume.isSome)

/-- One request of the drain and everything done with its answer. -/
def drainStep (m : Moment) (p : OpLogPullSocket H) (d : DrainState) : List (Effect H) × DrainNext :=
  let request := drainRequest limits p d audit m.now
  match m.answer request with
  | .transport e => ([], .done d.cursor (.error ("v3 pull from peer " ++ toHex peer ++ ": " ++ e)))
  | .unverified e => ([], .done d.cursor (.error e))
  | .refused status body =>
    if status = 404 ∨ status = 405 then ([], .done d.cursor (.ok .unsupported))
    else if status = 503 then ([], .done d.cursor (.ok .warming))
    else ([], .done d.cursor (.error ("peer " ++ toHex peer ++ " refused the v3 pull (HTTP " ++
      toString status ++ "): " ++ body)))
  | .page page =>
    match page.epoch with
    | none => ([], .done d.cursor (.error ("v3 pull peer=" ++ toHex peer ++
        " returned an invalid stream epoch")))
    | some epoch =>
      if page.snapshotRecommended then drainSnapshot limits peer m p d page
      else if page.reset then drainReset peer request d page epoch
      else drainApply limits peer skipUnattested m p d page

/-- The drain over the turns `world`, for at most `fuel` requests. -/
def drainPullPages : ℕ → (ℕ → Moment) → OpLogPullSocket H → DrainState →
    Option (OpLogPullSocket H × Option RelayCursor × Except String PullOutcome)
  | 0, _, _, _ => none
  | fuel + 1, world, p, d =>
    match drainStep limits peer audit skipUnattested (world 0) p d with
    | (effects, .done cursor result) => some (p.after effects, cursor, result)
    | (effects, .again d) => drainPullPages fuel (fun i => world (i + 1)) (p.after effects) d

end Drain

/-! ## An honest server over a log -/

/-- The answer of an honest node that finds `log` at every read of the page. -/
def serveLog (limits : PageLimits) (own : DeviceId) (log : OpLog) (request : PullRequest) : PullAnswer :=
  match servePull limits ((PageReads.atomic log).serveState own) request with
  | .ok page => .page page
  | .error e => .refused 500 e

/-- The turns of an honest node whose log grows: request `i` finds `logs i`, a preview
behind it `previews i`. -/
def honestWorld (limits : PageLimits) (own : DeviceId) (now : ℕ → ℕ) (logs previews : ℕ → OpLog) (i : ℕ) :
    Moment :=
  ⟨now i, serveLog limits own (logs i), serveLog limits own (previews i)⟩

end ProxyNode
