import ProxyNode.Base.Loop
import ProxyNode.Sanity.StreamDrain

/-! Drains turn by turn. A drain of an unchanging node starts with at most one reset; from
then on it is in step with the stream, and every turn ends it, starts a fresh exchange or
goes on with the page's token. -/

namespace ProxyNode

open OpLogPullSocket

variable {H : Host} {limits : PageLimits} {socket : MeshPullSocket} {arrivals : List (ℕ × SignedOp)}
    {peer : DeviceId}
  {m : Moment} {p q : OpLogPullSocket H} {d d' : DrainState} {page : PullPage} {audit skip : Bool}

/-! ## Resets -/

structure ResetTo (stream : RelayStreamState) (d d₁ : DrainState) : Prop where
  seen : d₁.resetSeen = true
  cursor : d₁.cursor = some ⟨stream.epoch, stream.floor⟩
  resume : d₁.resume = none
  lastProgress : d₁.lastProgress = d.lastProgress
  stalled : d₁.stalled = d.stalled

section Reset

variable (hm : m.answer = serveSocket limits socket)
  (hrst : pullNeedsReset ((d.cursor.map RelayCursor.epoch).getD zeroEpoch)
    ((d.cursor.map RelayCursor.after).getD 0) socket.relayStreamState = true)
include hm hrst

theorem drainStep_reset_answer (peer : DeviceId) (p : OpLogPullSocket H) (audit skip : Bool) :
    drainStep limits peer audit skip m p d = drainReset peer (drainRequest limits p d audit m.now) d
      (resetPullPage socket.relayStreamState) socket.relayStreamState.epoch := by
  have hack : admitPullAck socket (drainRequest limits p d audit m.now) =
      .ok (some (resetPullPage socket.relayStreamState)) := admitPullAck_reset rfl hrst
  have hans : m.answer (drainRequest limits p d audit m.now) = .page (resetPullPage socket.relayStreamState) := by
    rw [hm, serveSocket]
    simp only [servePull, hack]
  simp only [drainStep, hans, resetPullPage, Bool.false_eq_true, if_false, if_true]

/-- A cursor outside the live part of the stream is moved to its floor. -/
theorem drainStep_reset_floor (hflr : socket.relayStreamState.floor ≤ socket.relayStreamState.head)
    (hseen : d.resetSeen = false) (peer : DeviceId) (p : OpLogPullSocket H) (audit skip : Bool) :
    ∃ d₁, drainStep limits peer audit skip m p d =
        ([.resetRelayCursor peer ⟨socket.relayStreamState.epoch, socket.relayStreamState.floor⟩], .again d₁) ∧
      ResetTo socket.relayStreamState d d₁ := by
  have hval : validatePullReset (drainRequest limits p d audit m.now) (resetPullPage socket.relayStreamState)
      socket.relayStreamState.epoch = .ok ⟨socket.relayStreamState.epoch, socket.relayStreamState.floor⟩ := by
    simp only [validatePullReset, resetPullPage, drainRequest, Bool.true_eq_false, if_false, not_lt.2 hflr,
      ne_eq,
      not_true_eq_false, Option.isSome_none, Bool.false_eq_true, or_self]
    exact if_pos hrst
  rw [drainStep_reset_answer hm hrst]
  simp only [drainReset, hseen, Bool.false_eq_true, if_false, hval]
  exact ⟨_, rfl, rfl, rfl, rfl, rfl, rfl⟩

theorem drainStep_reset_twice (hseen : d.resetSeen = true) (peer : DeviceId) (p : OpLogPullSocket H)
    (audit skip : Bool) :
    ∃ e, drainStep limits peer audit skip m p d = ([], .done d.cursor (.error e)) := by
  rw [drainStep_reset_answer hm hrst]
  simp only [drainReset, hseen, if_true]
  exact ⟨_, rfl⟩

end Reset

/-! ## Drains as loops -/

def drainTurn (limits : PageLimits) (peer : DeviceId) (audit skip : Bool) (world : ℕ → Moment) :
    ℕ × OpLogPullSocket H × DrainState →
      (OpLogPullSocket H × Option RelayCursor × Except String PullOutcome) ⊕ (ℕ × OpLogPullSocket H × DrainState)
  | (i, p, d) =>
    match drainStep limits peer audit skip (world i) p d with
    | (es, .done cursor result) => .inl (p.after es, cursor, result)
    | (es, .again d') => .inr (i + 1, p.after es, d')

theorem drainPullPages_eq_run (limits : PageLimits) (peer : DeviceId) (audit skip : Bool) (world : ℕ → Moment)
    (fuel i : ℕ) (p : OpLogPullSocket H) (d : DrainState) :
    drainPullPages limits peer audit skip fuel (fun k => world (i + k)) p d =
      Loop.run (drainTurn limits peer audit skip world) fuel (i, p, d) := by
  induction fuel generalizing i p d with
  | zero => rfl
  | succ fuel ih =>
    rw [drainPullPages, Loop.run, drainTurn, Nat.add_zero]
    rcases drainStep limits peer audit skip (world i) p d with ⟨es, - | -⟩
    · dsimp only
      rw [← ih]
      simp only [Nat.add_assoc, Nat.add_comm 1]
    · rfl

theorem drainPullPages_run (limits : PageLimits) (peer : DeviceId) (audit skip : Bool) (world : ℕ → Moment)
    (fuel : ℕ) (p : OpLogPullSocket H) (d : DrainState) : drainPullPages limits peer audit skip fuel world p d =
      Loop.run (drainTurn limits peer audit skip world) fuel (0, p, d) := by
  rw [← drainPullPages_eq_run]
  simp only [Nat.zero_add]

theorem drainTurn_done {world : ℕ → Moment} {i : ℕ} {es : List (Effect H)}
    {cursor : Option RelayCursor} {result : Except String PullOutcome}
    (h : drainStep limits peer audit skip (world i) p d = (es, .done cursor result)) :
    drainTurn limits peer audit skip world (i, p, d) = .inl (p.after es, cursor, result) := by
  rw [drainTurn, h]

theorem drainTurn_again {world : ℕ → Moment} {i : ℕ} {es : List (Effect H)}
    (h : drainStep limits peer audit skip (world i) p d = (es, .again d')) :
    drainTurn limits peer audit skip world (i, p, d) = .inr (i + 1, p.after es, d') := by
  rw [drainTurn, h]

inductive NextTurn (d : DrainState) (page : PullPage) : Option DrainState → Prop
  | ends (complete : page.resume = none) (fresh : d.resume = none) : NextTurn d page none
  | stalls (more : page.resume.isSome) (same : d.lastProgress = some (page.nextRelaySeq, page.resume)) :
    NextTurn d page none
  | restarts (d' : DrainState) (complete : page.resume = none) (resumed : d.resume.isSome)
      (resume : d'.resume = none)
    (progress : d'.lastProgress = d.lastProgress) (stalled : d'.stalled = d.stalled) : NextTurn d page (some d')
  | goesOn (d' : DrainState) (more : page.resume.isSome) (resume : d'.resume = page.resume)
    (progress : d'.lastProgress = some (page.nextRelaySeq, page.resume))
    (stalled : d'.stalled = if d.lastProgress = some (page.nextRelaySeq, page.resume) then d.stalled + 1 else 0)
    (within : d'.stalled < pullNoProgressLimit) : NextTurn d page (some d')

theorem NextTurn.resume_cases (h : NextTurn d page (some d')) :
    d'.resume = none ∨ d'.resume = page.resume := by
  cases h with
  | restarts _ _ _ resume => exact .inl resume
  | goesOn _ _ resume => exact .inr resume

theorem drainAdvance_turn {stream : RelayStreamState} {d₂ : DrainState} (peer : DeviceId)
    (hdata : DataPage stream page) (hd₂ : Advanced socket d page d₂) :
    (∃ r, drainAdvance peer d₂ page d.resume.isSome = .done d₂.cursor r ∧ NextTurn d page none ∧
      ∀ n, r = .ok n → page.resume = none) ∨
      ∃ d', drainAdvance peer d₂ page d.resume.isSome = .again d' ∧ d'.cursor = d₂.cursor ∧
        NextTurn d page (some d') := by
  have hprog : pullProgress d₂.cursor page.resume = (page.nextRelaySeq, page.resume) := by
    rw [pullProgress, hd₂.cursor]
    rfl
  unfold drainAdvance
  rw [hdata.complete, hprog, hd₂.lastProgress, hd₂.stalled]
  cases hres : page.resume with
  | none =>
    rw [Option.isNone_none, if_pos rfl]
    by_cases hfrs : d.resume.isSome = true
    · rw [if_pos hfrs]
      exact .inr ⟨_, rfl, rfl, .restarts _ hres hfrs rfl rfl rfl⟩
    · rw [if_neg hfrs]
      rw [Option.not_isSome_iff_eq_none] at hfrs
      exact .inl ⟨_, rfl, .ends hres hfrs, fun _ _ => rfl⟩
  | some r =>
    rw [← hres]
    have hmore : page.resume.isSome = true := hres ▸ rfl
    have hnone : ¬page.resume.isNone = true := by rw [hres]; exact Bool.false_ne_true
    rw [if_neg hnone]
    dsimp only
    by_cases hlim : pullNoProgressLimit ≤
        if d.lastProgress = some (page.nextRelaySeq, page.resume) then d.stalled + 1 else 0
    · rw [if_pos hlim]
      refine .inl ⟨_, rfl, .stalls hmore ?_, nofun⟩
      by_contra hne
      rw [if_neg hne] at hlim
      exact absurd hlim (by decide)
    · rw [if_neg hlim]
      exact .inr ⟨_, rfl, rfl, .goesOn _ hmore rfl rfl rfl (not_le.1 hlim)⟩

/-! ## Welcome drains -/

/-- A drain in step with the stream, by a puller that takes all of it. -/
structure InStep (calm : H.Clock → Prop) (socket : MeshPullSocket) (arrivals : List (ℕ × SignedOp))
    (p : OpLogPullSocket H) (d : DrainState) : Prop where
  ready : Ready calm p
  welcome : ∀ e ∈ arrivals, Welcome calm p.registry e.2
  fits : StreamFits socket.relayStreamState d

/-- One turn: a page, and what it leads to. -/
theorem InStep.turn {calm : H.Clock → Prop} (hsrv : ServesStream socket arrivals)
    (h : InStep calm socket arrivals p d) (limits : PageLimits) (peer : DeviceId) (audit skip : Bool)
    (now : ℕ → ℕ) (i : ℕ) :
    ∃ page segs, Answered limits socket arrivals p d audit (now i) page segs ∧
      ((NextTurn d page none ∧
          ∃ r, drainTurn limits peer audit skip (steadyWorld limits socket now) (i, p, d) = .inl r) ∨
        ∃ q d', drainTurn limits peer audit skip (steadyWorld limits socket now) (i, p, d) = .inr (i + 1, q, d') ∧
          NextTurn d page (some d') ∧ d'.cursor = some ⟨socket.relayStreamState.epoch, page.nextRelaySeq⟩ ∧
          InStep calm socket arrivals q d') := by
  obtain ⟨page, segs, d₂, es, hans, hstep, hd₂, hrdy⟩ := drainStep_welcome (m := steadyWorld limits socket now i)
    peer hsrv h.fits rfl rfl h.ready h.welcome audit skip
  refine ⟨page, segs, hans, ?_⟩
  rcases drainAdvance_turn peer hans.data hd₂ with ⟨r, hadv, hnext, -⟩ | ⟨d', hadv, hcur, hnext⟩
  · rw [hadv] at hstep
    exact .inl ⟨hnext, _, drainTurn_done hstep⟩
  · rw [hadv] at hstep
    rw [hd₂.cursor] at hcur
    refine .inr ⟨_, d', drainTurn_again hstep, hnext, hcur, hrdy, fun e he => ?_, hans.fits_after hcur ?_⟩
    · rw [after_registry]
      exact h.welcome e he
    · cases hnext with
      | restarts _ _ _ hres => exact .inl hres
      | goesOn _ _ hres => exact .inr hres

/-! ## Starts -/

/-- The all-zero epoch is a cursor's way to name no stream, so that a stream of that epoch
with a floor resets every cursor, and a cursor of it on another stream is answered with
pages it cannot apply. -/
def ZeroEpochClash (stream : RelayStreamState) (cursor : Option RelayCursor) : Prop :=
  (stream.epoch = zeroEpoch ∧ 0 < stream.floor) ∨
    ∃ c, cursor = some c ∧ c.epoch = zeroEpoch ∧ stream.epoch ≠ zeroEpoch ∧ stream.floor = 0

variable {stream : RelayStreamState} {cursor : Option RelayCursor}

theorem CursorFits.of_live (hclash : ¬ZeroEpochClash stream cursor)
    (hlive : pullNeedsReset ((cursor.map RelayCursor.epoch).getD zeroEpoch) ((cursor.map RelayCursor.after).getD 0)
      stream = false) : CursorFits stream cursor := by
  cases cursor with
  | none =>
    have hflr : stream.floor = 0 := pullNeedsReset_none.1 hlive
    exact ⟨fun _ => hflr, by simp, fun _ => hflr⟩
  | some c =>
    have hep : c.epoch = stream.epoch := by
      by_contra hne
      simp only [pullNeedsReset, Option.map_some, Option.getD_some, decide_eq_false_iff_not, not_or, not_and,
        not_not, hne, imp_false] at hlive
      exact hclash (.inr ⟨c, rfl, hlive.2.1, fun hz => hne (hlive.2.1.trans hz.symm),
        Nat.eq_zero_of_not_pos (hlive.1 hlive.2.1)⟩)
    rw [Option.map_some, Option.getD_some, hep] at hlive
    obtain ⟨hzero, hbds⟩ := pullNeedsReset_own.1 hlive
    exact ⟨hzero, fun c' hc' => by obtain rfl := Option.some.inj hc'; exact ⟨hep, hbds⟩, by simp⟩

theorem CursorFits.floor (hzero : ¬(stream.epoch = zeroEpoch ∧ 0 < stream.floor))
    (hle : stream.floor ≤ stream.head) :
    CursorFits stream (some ⟨stream.epoch, stream.floor⟩) := by
  refine ⟨fun hz => Nat.eq_zero_of_not_pos fun hpos => hzero ⟨hz, hpos⟩, fun c hc => ?_, nofun⟩
  obtain rfl := Option.some.inj hc
  exact ⟨rfl, le_rfl, hle⟩

theorem ResetTo.fits {d₁ : DrainState} (h : ResetTo stream d d₁)
    (hzero : ¬(stream.epoch = zeroEpoch ∧ 0 < stream.floor))
    (hle : stream.floor ≤ stream.head) : StreamFits stream d₁ := by
  refine ⟨h.cursor ▸ .floor hzero hle, fun n o k hr => ?_⟩
  rw [h.resume] at hr
  cases hr

/-- A drain is in step from its start, or after a reset. -/
theorem drain_starts {calm : H.Clock → Prop} (hsrv : ServesStream socket arrivals)
    (hclash : ¬ZeroEpochClash socket.relayStreamState cursor) (hrdy : Ready calm p)
    (hw : ∀ e ∈ arrivals, Welcome calm p.registry e.2) (limits : PageLimits) (peer : DeviceId) (audit skip : Bool)
    (now : ℕ → ℕ) (i : ℕ) :
    InStep calm socket arrivals p (.start cursor) ∨
      ∃ q d, drainTurn limits peer audit skip (steadyWorld limits socket now) (i, p, .start cursor) =
          .inr (i + 1, q, d) ∧
        InStep calm socket arrivals q d ∧ d.resume = none ∧ d.lastProgress = none ∧ d.stalled = 0 := by
  cases hrst : pullNeedsReset ((cursor.map RelayCursor.epoch).getD zeroEpoch)
      ((cursor.map RelayCursor.after).getD 0) socket.relayStreamState with
  | false => exact .inl ⟨hrdy, hw, .of_live hclash hrst, nofun⟩
  | true =>
    obtain ⟨d₁, hstep, hd₁⟩ :=
      drainStep_reset_floor (m := steadyWorld limits socket now i) (d := .start cursor) rfl
      hrst hsrv.floor_le rfl peer p audit skip
    refine .inr ⟨_, d₁, drainTurn_again hstep, ⟨⟨hrdy.clock, hrdy.held⟩, fun e he => ?_, ?_⟩, hd₁.resume,
      hd₁.lastProgress, hd₁.stalled⟩
    · rw [after_registry]
      exact hw e he
    · exact hd₁.fits (fun hz => hclash (.inl hz)) hsrv.floor_le

theorem drain_clash (hsrv : ServesStream socket arrivals)
    (hclash : ZeroEpochClash socket.relayStreamState cursor)
    (limits : PageLimits) (peer : DeviceId) (p : OpLogPullSocket H) (audit skip : Bool) (now : ℕ → ℕ) (i : ℕ) :
    ∃ r, Loop.run (drainTurn limits peer audit skip (steadyWorld limits socket now)) 2 (i, p, .start cursor) =
      some r := by
  rcases hclash with ⟨hzero, hflr⟩ | ⟨c, rfl, hc, hne, hflr⟩
  · have hrst : ∀ epoch after, pullNeedsReset epoch after socket.relayStreamState = true := by
      intro epoch after
      by_cases he : epoch = zeroEpoch <;> simp [pullNeedsReset, he, hzero, hflr]
    obtain ⟨d₁, hfst, hd₁⟩ :=
      drainStep_reset_floor (m := steadyWorld limits socket now i) (d := .start cursor) rfl
      (hrst _ _) hsrv.floor_le rfl peer p audit skip
    obtain ⟨e, hsec⟩ := drainStep_reset_twice (m := steadyWorld limits socket now (i + 1)) rfl (hrst _ _)
      hd₁.seen peer
      (p.after [.resetRelayCursor peer ⟨socket.relayStreamState.epoch, socket.relayStreamState.floor⟩]) audit skip
    rw [Loop.run_again (drainTurn_again hfst)]
    exact ⟨_, Loop.run_done (drainTurn_done hsec) 0⟩
  · have hlive : pullNeedsReset c.epoch c.after socket.relayStreamState = false := by
      simp [pullNeedsReset, hc, hflr, Ne.symm hne]
    obtain ⟨page, segs, hdata, -, -, hstep⟩ := drainStep_data (m := steadyWorld limits socket now i)
      (d := .start (some c)) peer p hsrv hlive rfl audit skip
    have hmismatch : ∃ e,
      (applyPullPage p peer (DrainState.start (some c)).cursor page skip).result = .error e := by
      unfold applyPullPage
      rw [hdata.epoch]
      exact ⟨_, congrArg PageOutcome.result (if_neg (hc ▸ hne.symm))⟩
    obtain ⟨e, he⟩ := hmismatch
    exact ⟨_, Loop.run_done (drainTurn_done (hstep.trans (drainApply_error limits _ he))) 1⟩

end ProxyNode
