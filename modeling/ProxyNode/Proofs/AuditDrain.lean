import ProxyNode.Sanity.DrainLoop

/-! Do audit drains end? An audit's keyed channel ignores the claims, so that every fresh
exchange stops at the same op and the drain can only end by stalling there. It does so if
one more page reaches the end of the log. If it takes two or more, the last page before the
next fresh exchange carries another token, the stall check never compares two fresh pages,
and the drain goes round for ever. -/

namespace ProxyNode

open OpLogPullSocket Option Prod

variable {H : Host} {limits : PageLimits} {socket : MeshPullSocket} {arrivals : List (ℕ × SignedOp)}
    {peer : DeviceId}
  {calm : H.Clock → Prop} {p q : OpLogPullSocket H} {d d' : DrainState} {page : PullPage} {segs : List Segment}
  {skip : Bool} {now : ℕ → ℕ} {t : ℤ}

theorem PageLimits.fits_nil (limits : PageLimits) : Fits limits.pageLimitMax limits.pageByteBudget [] :=
  .nil limits.pageLimitMax_pos limits.pageByteBudget_pos

def auditStop (limits : PageLimits) (own : DeviceId) (ops : List SignedOp) (stop : Option SignedOp) :
    Option SignedOp :=
  fillStop limits.pageLimitMax limits.pageByteBudget [] (visitFrom own ops stop)

/-- A fresh page and one behind it hold all of the ops: where the fresh page stops at `x`,
what the order of a visit has behind `x` leaves room on the next page. -/
def TwoPages (limits : PageLimits) (own : DeviceId) (ops : List SignedOp) : Prop :=
  ∀ first x rest, freshOrder own ops = first ++ x :: rest → Fits limits.pageLimitMax limits.pageByteBudget first →
    ¬Fits limits.pageLimitMax limits.pageByteBudget (first ++ [x]) →
    Fits limits.pageLimitMax limits.pageByteBudget (opsPast ops x)

theorem auditStop_none {own : DeviceId} {ops : List SignedOp} {stop : Option SignedOp} :
    auditStop limits own ops stop = none ↔
      Fits limits.pageLimitMax limits.pageByteBudget (visitFrom own ops stop) :=
  fillStop_none limits.fits_nil

theorem twoPages_iff {own : DeviceId} {ops : List SignedOp} :
    TwoPages limits own ops ↔
      ∀ x, auditStop limits own ops none = some x → auditStop limits own ops (some x) = none := by
  constructor
  · intro h x hx
    obtain ⟨first, rest, hord, hroom, hfull⟩ := fillStop_split limits.fits_nil hx
    exact auditStop_none.2 (h first x rest hord hroom hfull)
  · intro h first x rest hord hroom hfull
    refine auditStop_none.1 (h x ?_)
    rw [auditStop, visitFrom, hord]
    exact fillStop_full [] first rest hroom hfull

/-! ## Pages of an audit -/

namespace Answered

variable (h : Answered limits socket arrivals p d true t page segs)
include h

theorem audit_token {stop : Option SignedOp} (hres : d.resume = stop.map cutToken)
    {answer : List PageEntry × Option Resume}
    (hchan : keyedChannel limits socket (drainRequest limits p d true t) = answer) :
    answer.2 = (auditStop limits socket.ownDeviceId (arrivals.map snd) stop).map cutToken := by
  have hfill := (h.serves.channel p.coverage limits none stop).token limits.fits_nil
  have hlim : max 1 limits.pageLimitMax = limits.pageLimitMax := max_eq_right limits.pageLimitMax_pos
  rw [inStore_none] at hfill
  rw [← hchan, keyedChannel]
  simp only [drainRequest, min_self, hlim, hres]
  exact hfill

/-- A page that stops at an op leaves the cursor where it is. -/
theorem audit_cut (stop : Option SignedOp) (hres : d.resume = stop.map cutToken) {x : SignedOp}
    (hx : auditStop limits socket.ownDeviceId (arrivals.map snd) stop = some x) :
    page.resume = some (cutToken x) ∧ page.nextRelaySeq = (d.position socket.relayStreamState).after := by
  cases h.shape with
  | cut segs r keyed resume backfill next =>
    have htok := h.audit_token hres keyed.channel
    rw [hx] at htok
    exact ⟨resume.trans htok, next.trans (d.position_after _).symm⟩
  | full segs keyed =>
    have htok := h.audit_token hres keyed.channel
    rw [hx] at htok
    cases htok
  | backfill n o key phase =>
    rw [show d.resume = _ from phase] at hres
    obtain ⟨y, -, hy⟩ := map_eq_some_iff.1 hres.symm
    cases hy

/-- A page that does not stop at an op scans on. -/
theorem audit_scan (hscan : (∃ stop, d.resume = stop.map cutToken ∧
      auditStop limits socket.ownDeviceId (arrivals.map snd) stop = none) ∨ ∃ n, d.resume = some
        (backfillResume n)) :
    ScanEnds arrivals (d.position socket.relayStreamState).after page := by
  rw [d.position_after]
  cases h.shape with
  | cut segs r keyed =>
    rcases hscan with ⟨stop, hres, hnone⟩ | ⟨n, hres⟩
    · have htok := h.audit_token hres keyed.channel
      rw [hnone] at htok
      cases htok
    · exact absurd hres (keyed.phase n none none)
  | full segs keyed scan ends => exact ends
  | backfill n o key phase scan ends =>
    rw [← h.fits.backfill n o key phase]
    exact ends

end Answered

/-! ## At most two pages -/

section Ends

def behind (arrivals : List (ℕ × SignedOp)) (after : ℕ) : ℕ := (arrivals.filter fun e => after < e.1).length

theorem behind_lt {after next : ℕ} (hlt : after < next) {e : ℕ × SignedOp} (he : e ∈ arrivals)
    (hnext : e.1 = next) :
    behind arrivals next < behind arrivals after := by
  have hfil : arrivals.filter (fun e => decide (next < e.1)) =
      (arrivals.filter fun e => decide (after < e.1)).filter fun e => decide (next < e.1) := by
    rw [List.filter_filter]
    refine List.filter_congr fun e _ => ?_
    by_cases h : next < e.1
    · simp [h, hlt.trans h]
    · simp [h]
  rw [behind, behind, hfil]
  refine List.length_filter_lt_length_iff_exists.2 ⟨e, List.mem_filter.2 ⟨he, ?_⟩, ?_⟩
  · exact decide_eq_true (hnext ▸ hlt)
  · simp [hnext]

variable (limits socket arrivals)

/-- The fresh pages the stall check still lets through at this cursor. -/
def freshLeft (d : DrainState) : ℕ :=
  if d.lastProgress = some ((d.position socket.relayStreamState).after,
    (auditStop limits socket.ownDeviceId (arrivals.map Prod.snd) none).map cutToken)
  then pullNoProgressLimit - d.stalled else pullNoProgressLimit + 1

/-- What is left of an audit: arrivals to scan, fresh pages at this cursor, and whether the
exchange was resumed. -/
def auditLeft (d : DrainState) : ℕ :=
  8 * behind arrivals (d.position socket.relayStreamState).after + 2 * freshLeft limits socket arrivals d +
    if d.resume.isSome then 1 else 0

/-- The tokens of an audit of at most two pages. -/
structure AuditAt (d : DrainState) : Prop where
  token : d.resume = none ∨ (∃ n, d.resume = some (backfillResume n)) ∨
    ∃ x, auditStop limits socket.ownDeviceId (arrivals.map Prod.snd) none = some x ∧ d.resume = some (cutToken x)
  stalled : d.stalled < pullNoProgressLimit

variable {limits socket arrivals}

theorem freshLeft_le (d : DrainState) : freshLeft limits socket arrivals d ≤ 3 := by
  unfold freshLeft
  simp only [pullNoProgressLimit]
  split_ifs <;> omega

/-- Arrivals scanned are not scanned again. -/
theorem auditLeft_scanned
    (hlt : (d.position socket.relayStreamState).after < (d'.position socket.relayStreamState).after)
    {e : ℕ × SignedOp} (he : e ∈ arrivals) (hnext : e.1 = (d'.position socket.relayStreamState).after) :
    auditLeft limits socket arrivals d' < auditLeft limits socket arrivals d := by
  have hbhd := behind_lt hlt he hnext
  have hle : freshLeft limits socket arrivals d' ≤ 3 := freshLeft_le d'
  unfold auditLeft
  split_ifs <;> omega

section Turn

variable (hans : Answered limits socket arrivals p d true t page segs) (hnext : NextTurn d page (some d'))
  (hcur : d'.cursor = some ⟨socket.relayStreamState.epoch, page.nextRelaySeq⟩)
include hans hnext hcur

/-- A fresh page that stops at an op uses up one more repetition. -/
theorem audit_cut_shrinks (hfrs : d.resume = none) {x : SignedOp}
    (hx : auditStop limits socket.ownDeviceId (arrivals.map snd) none = some x) :
    AuditAt limits socket arrivals d' ∧
      auditLeft limits socket arrivals d' < auditLeft limits socket arrivals d := by
  obtain ⟨hres, hstay⟩ := hans.audit_cut none hfrs hx
  have hpos := position_of_cursor hcur
  cases hnext with
  | restarts _ complete => rw [hres] at complete; cases complete
  | goesOn _ more resume progress stalled within =>
    refine ⟨⟨.inr (.inr ⟨x, hx, resume.trans hres⟩), within⟩, ?_⟩
    rw [hres, hstay] at progress stalled
    unfold auditLeft freshLeft
    rw [hpos, hstay, hx, map_some, progress, resume, hres, hfrs, if_pos rfl, isSome_some,
      if_pos rfl,
      isSome_none, if_neg Bool.false_ne_true]
    unfold pullNoProgressLimit at *
    split_ifs at stalled ⊢ <;> omega

/-- A page that scans goes on in the stream, or ends its exchange. -/
theorem audit_scan_shrinks (hends : ScanEnds arrivals (d.position socket.relayStreamState).after page)
    (hstalled : d.stalled < pullNoProgressLimit) :
    AuditAt limits socket arrivals d' ∧
      auditLeft limits socket arrivals d' < auditLeft limits socket arrivals d := by
  have hpos := position_of_cursor hcur
  -- a scan that moved reached an arrival
  have hmov : (d.position socket.relayStreamState).after < page.nextRelaySeq →
      auditLeft limits socket arrivals d' < auditLeft limits socket arrivals d := by
    intro hlt
    rcases hans.scan.reached with heq | ⟨-, e, he, heq⟩
    · omega
    · exact auditLeft_scanned (hpos ▸ hlt) he (hpos ▸ heq)
  cases hnext with
  | restarts _ complete resumed resume progress stalled =>
    refine ⟨⟨.inl resume, stalled ▸ hstalled⟩, ?_⟩
    rcases Nat.lt_or_eq_of_le hans.next_bounds.1 with hlt | heq
    · exact hmov hlt
    · unfold auditLeft freshLeft
      rw [hpos, ← heq, progress, stalled, resume, resumed]
      exact Nat.lt_succ_self _
  | goesOn _ more resume progress stalled within =>
    obtain ⟨r, hr⟩ := isSome_iff_exists.1 more
    obtain ⟨rfl, hlt⟩ := hends.resume r hr
    exact ⟨⟨.inr (.inl ⟨_, resume.trans hr⟩), within⟩, hmov hlt⟩

/-- Every turn of an audit of at most two pages ends it or leaves less of it. -/
theorem audit_turn_shrinks (htwo : TwoPages limits socket.ownDeviceId (arrivals.map snd))
    (hat : AuditAt limits socket arrivals d) :
    AuditAt limits socket arrivals d' ∧
      auditLeft limits socket arrivals d' < auditLeft limits socket arrivals d := by
  rcases hat.token with hres | ⟨n, hres⟩ | ⟨x, hx, hres⟩
  · cases hx : auditStop limits socket.ownDeviceId (arrivals.map snd) none with
    | some x => exact audit_cut_shrinks hans hnext hcur hres hx
    | none => exact audit_scan_shrinks hans hnext hcur (hans.audit_scan (.inl ⟨none, hres, hx⟩)) hat.stalled
  · exact audit_scan_shrinks hans hnext hcur (hans.audit_scan (.inr ⟨n, hres⟩)) hat.stalled
  · have hends := hans.audit_scan (.inl ⟨some x, hres, twoPages_iff.1 htwo x hx⟩)
    exact audit_scan_shrinks hans hnext hcur hends hat.stalled

end Turn

theorem audit_ends (hsrv : ServesStream socket arrivals)
    (htwo : TwoPages limits socket.ownDeviceId (arrivals.map snd)) (h : InStep calm socket arrivals p d)
    (hat : AuditAt limits socket arrivals d) (peer : DeviceId) (skip : Bool) (now : ℕ → ℕ) (i : ℕ) :
    ∃ fuel r, Loop.run (drainTurn limits peer true skip (steadyWorld limits socket now)) fuel
      (i, p, d) = some r := by
  suffices hends : ∃ r, Loop.run (drainTurn limits peer true skip (steadyWorld limits socket now))
      (auditLeft limits socket arrivals d + 1) (i, p, d) = some r ∧ True from ⟨_, hends.imp fun _ => And.left⟩
  refine Loop.run_within
    (fun s => InStep calm socket arrivals s.2.1 s.2.2 ∧ AuditAt limits socket arrivals s.2.2) (fun _ => True)
    (fun s => auditLeft limits socket arrivals s.2.2) ?_ ⟨h, hat⟩ (Nat.lt_succ_self _)
  rintro ⟨i, p, d⟩ ⟨h, hat⟩
  obtain ⟨page, segs, hans, ⟨-, r, hturn⟩ | ⟨q, d', hturn, hnext, hcur, hq⟩⟩ :=
    h.turn hsrv limits peer true skip now i
  · exact .inl ⟨r, hturn, trivial⟩
  · obtain ⟨hat', hlt⟩ := audit_turn_shrinks hans hnext hcur htwo hat
    exact .inr ⟨_, hturn, ⟨hq, hat'⟩, hlt⟩

end Ends

/-! ## More than two pages -/

section Rounds

variable {x₁ y : SignedOp}

theorem visitKey_of_cutToken {x y : SignedOp} (h : cutToken x = cutToken y) : x.visitKey = y.visitKey := by
  have hdev : x.body.device = y.body.device := some.inj (congrArg Resume.origin h)
  have hkey : x.orderKey = y.orderKey := some.inj (congrArg Resume.afterKey h)
  rw [SignedOp.visitKey, SignedOp.visitKey, hdev, hkey]

/-- A drain on its rounds, where `x₁` is the op a fresh page stops at: a fresh exchange
finds the progress of another page than the last fresh one, a resumed one its own. -/
inductive AuditRound (stream : RelayStreamState) (x₁ : SignedOp) (d : DrainState) : Prop
  | fresh (resume : d.resume = none) (progress : ∀ after, d.lastProgress ≠ some (after, some (cutToken x₁)))
  | keyed (x : SignedOp) (resume : d.resume = some (cutToken x)) (past : x = x₁ ∨ x₁.visitKey < x.visitKey)
    (progress : d.lastProgress = some ((d.position stream).after, some (cutToken x)))
  | scan (n : ℕ) (resume : d.resume = some (backfillResume n))
    (progress : d.lastProgress = some ((d.position stream).after, some (backfillResume n)))

def RoundGoesOn (stream : RelayStreamState) (x₁ : SignedOp) (d : DrainState) (page : PullPage) : Prop :=
  ¬NextTurn d page none ∧ ∀ d', NextTurn d page (some d') →
    d'.cursor = some ⟨stream.epoch, page.nextRelaySeq⟩ → AuditRound stream x₁ d'

/-- A page that stops at another op than the last one is followed by the next. -/
theorem round_cut (hres : page.resume = some (cutToken y))
    (hstay : page.nextRelaySeq = (d.position socket.relayStreamState).after)
    (hpast : y = x₁ ∨ x₁.visitKey < y.visitKey)
    (hne : d.lastProgress ≠ some ((d.position socket.relayStreamState).after, some (cutToken y))) :
    RoundGoesOn socket.relayStreamState x₁ d page := by
  constructor
  · intro hnext
    cases hnext with
    | ends complete => rw [hres] at complete; cases complete
    | stalls more same =>
      rw [hres, hstay] at same
      exact hne same
  · intro d' hnext hcur
    cases hnext with
    | restarts _ complete => rw [hres] at complete; cases complete
    | goesOn _ more resume progress =>
      refine .keyed y (resume.trans hres) hpast ?_
      rw [position_of_cursor hcur, progress, hres]

/-- A resumed page that scans is followed by the next, or by a fresh exchange. -/
theorem round_scan (hends : ScanEnds arrivals (d.position socket.relayStreamState).after page)
    (hresm : d.resume.isSome = true) {r : Resume}
    (hprog : d.lastProgress = some ((d.position socket.relayStreamState).after, some r))
    (hr : r ≠ cutToken x₁) :
    RoundGoesOn socket.relayStreamState x₁ d page := by
  constructor
  · intro hnext
    cases hnext with
    | ends complete fresh => rw [fresh] at hresm; cases hresm
    | stalls more same =>
      obtain ⟨token, htok⟩ := isSome_iff_exists.1 more
      obtain ⟨-, hlt⟩ := hends.resume token htok
      rw [hprog] at same
      exact hlt.ne (congrArg fst (some.inj same))
  · intro d' hnext hcur
    cases hnext with
    | restarts _ complete resumed resume progress =>
      refine .fresh resume fun after hsame => hr ?_
      rw [progress, hprog] at hsame
      exact some.inj (congrArg snd (some.inj hsame))
    | goesOn _ more resume progress =>
      obtain ⟨token, htok⟩ := isSome_iff_exists.1 more
      obtain ⟨rfl, -⟩ := hends.resume token htok
      refine .scan page.nextRelaySeq (resume.trans htok) ?_
      rw [position_of_cursor hcur, progress, htok]

theorem AuditRound.next (hfst : auditStop limits socket.ownDeviceId (arrivals.map snd) none = some x₁)
    (hmore : auditStop limits socket.ownDeviceId (arrivals.map snd) (some x₁) ≠ none)
    (hans : Answered limits socket arrivals p d true t page segs) (h : AuditRound socket.relayStreamState x₁ d) :
    RoundGoesOn socket.relayStreamState x₁ d page := by
  cases h with
  | fresh resume progress =>
    obtain ⟨hres, hstay⟩ := hans.audit_cut none resume hfst
    exact round_cut hres hstay (.inl rfl) (progress _)
  | scan n resume progress =>
    refine round_scan (hans.audit_scan (.inr ⟨n, resume⟩)) (resume ▸ rfl) progress ?_
    exact fun h => PullPhase.noConfusion (congrArg Resume.phase h)
  | keyed x resume past progress =>
    cases hstop : auditStop limits socket.ownDeviceId (arrivals.map snd) (some x) with
    | some y =>
      obtain ⟨hres, hstay⟩ := hans.audit_cut (some x) resume hstop
      obtain ⟨first, rest, hord, -⟩ := fillStop_split limits.fits_nil hstop
      have hlt : x.visitKey < y.visitKey :=
        (mem_opsPast.1 (hord ▸ List.mem_append_right first List.mem_cons_self : y ∈ opsPast _ x)).2
      refine round_cut hres hstay (.inr ?_) fun hsame => ?_
      · rcases past with rfl | hpast
        · exact hlt
        · exact hpast.trans hlt
      · rw [progress] at hsame
        have htok : cutToken x = cutToken y := some.inj (congrArg snd (some.inj hsame))
        exact hlt.ne (visitKey_of_cutToken htok)
    | none =>
      -- only behind a later op than `x₁` does a page reach the end
      have hpast : x₁.visitKey < x.visitKey := past.resolve_left fun heq => hmore (heq ▸ hstop)
      refine round_scan (hans.audit_scan (.inl ⟨some x, resume, hstop⟩)) (resume ▸ rfl) progress fun h => ?_
      exact hpast.ne (visitKey_of_cutToken h).symm

/-- An audit of more than two pages never ends. -/
theorem audit_diverges (hsrv : ServesStream socket arrivals)
    (htwo : ¬TwoPages limits socket.ownDeviceId (arrivals.map snd)) (h : InStep calm socket arrivals p d)
    (hres : d.resume = none) (hprog : d.lastProgress = none) (peer : DeviceId) (skip : Bool) (now : ℕ → ℕ)
    (i fuel : ℕ) :
    Loop.run (drainTurn limits peer true skip (steadyWorld limits socket now)) fuel (i, p, d) = none := by
  rw [twoPages_iff] at htwo
  push Not at htwo
  obtain ⟨x₁, hfst, hmore⟩ := htwo
  have hround : AuditRound socket.relayStreamState x₁ d := .fresh hres fun after hsame => by
    rw [hprog] at hsame
    cases hsame
  refine Loop.run_diverges (fun s => InStep calm socket arrivals s.2.1 s.2.2 ∧
    AuditRound socket.relayStreamState x₁ s.2.2) ?_ (s := (i, p, d)) ⟨h, hround⟩ fuel
  rintro ⟨i, p, d⟩ ⟨h, hround⟩
  obtain ⟨page, segs, hans, hturn⟩ := h.turn hsrv limits peer true skip now i
  obtain ⟨hnot, hnext⟩ := hround.next hfst hmore hans
  rcases hturn with ⟨hend, -⟩ | ⟨q, d', hturn, hgo, hcur, hq⟩
  · exact absurd hend hnot
  · exact ⟨_, hturn, hq, hnext d' hgo hcur⟩

end Rounds

/-! ## Audit drains -/

section Audit

variable {cursor : Option RelayCursor}

instance (limits : PageLimits) (own : DeviceId) (ops : List SignedOp) : Decidable (TwoPages limits own ops) :=
  decidable_of_iff (((auditStop limits own ops none).bind fun x => auditStop limits own ops (some x)) = none) <| by
    rw [twoPages_iff, Option.bind_eq_none_iff]

/-- With more than two pages no amount of fuel is enough. -/
theorem audit_never_returns (hsrv : ServesStream socket arrivals)
    (hclash : ¬ZeroEpochClash socket.relayStreamState cursor) (hrdy : Ready calm p)
    (hw : ∀ e ∈ arrivals, Welcome calm p.registry e.2)
    (htwo : ¬TwoPages limits socket.ownDeviceId (arrivals.map snd)) (peer : DeviceId) (skip : Bool)
    (now : ℕ → ℕ) (fuel : ℕ) :
    drainPullPages limits peer true skip fuel (steadyWorld limits socket now) p (.start cursor) = none := by
  rw [drainPullPages_run]
  rcases drain_starts hsrv hclash hrdy hw limits peer true skip now 0 with
    hstep | ⟨q, d, hturn, hstep, hres, hprog, -⟩
  · exact audit_diverges hsrv htwo hstep rfl rfl peer skip now 0 fuel
  · cases fuel with
    | zero => rfl
    | succ fuel =>
      rw [Loop.run_again hturn]
      exact audit_diverges hsrv htwo hstep hres hprog peer skip now 1 fuel

end Audit

end ProxyNode
