import ProxyNode.Spec.Client

/-! Applying a page through any socket. The socket's admission is a parameter: it may go on
in quanta, call back after each, and stop anywhere. What the page does to the saved cursor and
the claims is the list of its events in program order. -/

namespace ProxyNode

/-- One call of `admit_ops`: the totals it called back with (admitted, claim-safe), how many
ops it went through, and the error it returned or put into its admission. -/
structure AdmitReport where
  quanta : List (ℕ × ℕ)
  admitted : ℕ
  error : Option String

/-- What is seen of a page: the saved cursor, the positional ops reported as admitted, and a
claim. -/
inductive PageEvent
  | saved (cursor : RelayCursor)
  | admitted (total : ℕ)
  | claimed (origin : DeviceId) (key : OrderKey)
deriving DecidableEq

variable {σ : Type*}

/-- The callback of the positional channel over the quanta of one call. -/
def followQuanta (seqs : List ℕ) : List (ℕ × ℕ) → RelayCursor → List PageEvent × RelayCursor
  | [], current => ([], current)
  | (total, _) :: quanta, current =>
    if 0 < total then
      let reached : RelayCursor := { current with after := (seqs[total - 1]?).getD current.after }
      let rest := followQuanta seqs quanta reached
      (.admitted total :: .saved reached :: rest.1, rest.2)
    else
      let rest := followQuanta seqs quanta current
      (.admitted total :: rest.1, rest.2)

/-- The callback of a keyed run: the claim follows the claim-safe total where it grows. -/
def claimQuanta (run : KeyedRun) : List (ℕ × ℕ) → ℕ → List PageEvent
  | [], _ => []
  | (_, claimSafe) :: quanta, committed =>
    if committed < claimSafe then
      ((run.ops[claimSafe - 1]?).map fun op => PageEvent.claimed run.origin op.orderKey).toList ++
        claimQuanta run quanta claimSafe
    else claimQuanta run quanta committed

structure PageTrace where
  events : List PageEvent
  cursor : Option RelayCursor
  result : Except String ℕ

section Apply

variable (takeOps : σ → List SignedOp → σ × AdmitReport)

def applyRunsWith : List KeyedRun → σ → ℕ → List PageEvent × Except String ℕ
  | [], _, applied => ([], .ok applied)
  | run :: runs, s, applied =>
    let (s, report) := takeOps s run.ops
    let events := claimQuanta run report.quanta 0
    match report.error with
    | some e => (events, .error e)
    | none =>
      let rest := applyRunsWith runs s (applied + report.admitted)
      (events ++ rest.1, rest.2)

/-- Both channels of a page, from the cursor `current` of its epoch. -/
def applyChannelsWith (s : σ) (peer : DeviceId) (current : RelayCursor) (page : PullPage) : PageTrace :=
  match decodeBackfill peer current.after current.after page.backfill with
  | .error e => ⟨[.saved current], some current, .error e⟩
  | .ok entries =>
    let (s, report) := takeOps s (entries.map Prod.snd)
    let follow := followQuanta (entries.map Prod.fst) report.quanta current
    let events := .saved current :: follow.1 ++ [.admitted report.admitted]
    match report.error with
    | some e => ⟨events, some follow.2, .error e⟩
    | none =>
      let next : RelayCursor := { follow.2 with after := max follow.2.after page.nextRelaySeq }
      match splitRuns peer page.keyed [] none with
      | .error e => ⟨events ++ [.saved next], some next, .error e⟩
      | .ok runs =>
        let keyed := applyRunsWith takeOps runs.reverse s report.admitted
        ⟨events ++ .saved next :: keyed.1, some next, keyed.2⟩

/-- `apply_pull_page` over any admission. -/
def applyPageWith (s : σ) (peer : DeviceId) (cursor : Option RelayCursor) (page : PullPage) : PageTrace :=
  match page.epoch with
  | none => ⟨[], cursor, .error "v3 pull page carries an invalid epoch"⟩
  | some epoch =>
    match cursor with
    | some current =>
      if current.epoch = epoch then applyChannelsWith takeOps s peer current page
      else ⟨[], cursor, .error ("v3 pull peer=" ++ toHex peer ++ " changed stream epoch without a reset")⟩
    | none => applyChannelsWith takeOps s peer ⟨epoch, 0⟩ page

end Apply

/-- An admission that goes through a prefix of its ops, says so if it is not all of them,
and calls back with non-decreasing totals that it has reached. -/
structure AdmitReport.Honest (ops : List SignedOp) (report : AdmitReport) : Prop where
  front : report.admitted ≤ ops.length
  stopped : report.admitted < ops.length → report.error ≠ none
  rising : (report.quanta.map Prod.fst).Pairwise (· ≤ ·)
  reached : ∀ q ∈ report.quanta, q.1 ≤ report.admitted

/-- The admission of the socket in memory, with its one call back at the end. -/
def OpLogPullSocket.takeOps {H : Host} (skipUnattested : Bool) (p : OpLogPullSocket H) (ops : List SignedOp) :
    OpLogPullSocket H × AdmitReport :=
  let admission := p.admitOps ops skipUnattested
  (p.after admission.effects, ⟨[(admission.admitted, admission.claimSafe)], admission.admitted, admission.error⟩)

end ProxyNode
