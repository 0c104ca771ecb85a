import ProxyNode.Sanity.StreamDrain
import ProxyNode.Spec.Relay

/-! First contact. No cursor and the sentinel of the cursor file ask for the same page; what
is done with the answer differs unless the answer replaces the cursor. -/

namespace ProxyNode

open OpLogPullSocket Wire Option

variable {H : Host} {limits : PageLimits} {peer : DeviceId} {audit skip : Bool} {m : Moment}
  {p : OpLogPullSocket H} {d : DrainState} {page : PullPage}

def firstRequest (limits : PageLimits) (p : OpLogPullSocket H) (resume : Option Resume) (audit : Bool)
    (nowMs : ℤ) :
    PullRequest where
  version := pullVersion
  coverage := p.coverage
  relayEpoch := some zeroEpoch
  relayAfter := 0
  resume := resume
  limit := limits.pageLimitMax
  audit := audit
  store := none
  issuedAtMs := nowMs

structure PullPage.Bare (page : PullPage) : Prop where
  backfill : page.backfill = []
  keyed : page.keyed = []
  next : page.nextRelaySeq = 0
  resume : page.resume = none
  complete : page.complete = false
  store : page.store = none

/-- The answer replaces the cursor: a bare reset to a floor above zero, or data of the zero
epoch. -/
def PullAnswer.Replaces : PullAnswer → Prop
  | .page page => page.snapshotRecommended = false ∧
      ((page.reset = true ∧ page.epoch.isSome = true ∧ 0 < page.floor ∧ page.floor ≤ page.headSeq ∧ page.Bare) ∨
        (page.reset = false ∧ page.epoch = some zeroEpoch))
  | _ => False

def PullAnswer.Recommends : PullAnswer → Prop
  | .page page => page.epoch.isSome = true ∧ page.snapshotRecommended = true
  | _ => False

theorem PullAnswer.Replaces.isPage {answer : PullAnswer} (h : answer.Replaces) : ∃ page, answer = .page page := by
  cases answer with
  | page page => exact ⟨page, rfl⟩
  | _ => exact h.elim

theorem PullAnswer.Recommends.isPage {answer : PullAnswer} (h : answer.Recommends) :
    ∃ page, answer = .page page := by
  cases answer with
  | page page => exact ⟨page, rfl⟩
  | _ => exact h.elim

/-- A drain that has no cursor yet, started from the sentinel instead. -/
def DrainState.sentinel (d : DrainState) : DrainState := { d with cursor := some .start }

theorem drainRequest_none (hd : d.cursor = none) (nowMs : ℤ) :
    drainRequest limits p d audit nowMs = firstRequest limits p d.resume audit nowMs := by
  simp only [drainRequest, hd]
  rfl

theorem drainRequest_sentinel (d : DrainState) (nowMs : ℤ) :
    drainRequest limits p d.sentinel audit nowMs = firstRequest limits p d.resume audit nowMs := rfl

theorem validatePullReset_first {req : PullRequest} (he : req.relayEpoch = some zeroEpoch)
    (ha : req.relayAfter = 0) (hsnap : page.snapshotRecommended = false) {epoch : Epoch} :
    (∃ cursor, validatePullReset req page epoch = .ok cursor) ↔
      page.reset = true ∧ 0 < page.floor ∧ page.floor ≤ page.headSeq ∧ page.Bare := by
  have hneeds : pullNeedsReset zeroEpoch 0 ⟨epoch, page.headSeq, page.floor⟩ = true ↔ 0 < page.floor := by
    rw [← not_iff_not, Bool.not_eq_true, pullNeedsReset_none]
    exact Nat.pos_iff_ne_zero.not_left.symm
  unfold validatePullReset
  simp only [he, ha]
  constructor
  · intro h
    obtain ⟨cursor, h⟩ := h
    split_ifs at h with h1 h2 h3 h4
    push Not at h3
    obtain ⟨hb, hk, hn, hr, hc, -, hs⟩ := h3
    refine ⟨by simpa using h1, hneeds.1 h4, not_lt.1 h2, hb, hk, hn, ?_, ?_, ?_⟩
    · simpa using hr
    · simpa using hc
    · simpa using hs
  · intro h
    obtain ⟨hrst, hflr, hle, hbare⟩ := h
    refine ⟨⟨epoch, page.floor⟩, ?_⟩
    simp [hrst, not_lt.2 hle, hbare.backfill, hbare.keyed, hbare.next, hbare.resume, hbare.complete, hbare.store,
      hsnap, hneeds.2 hflr]

/-! ## Applying a page -/

theorem applyBackfill_epoch (p : OpLogPullSocket H) (peer : DeviceId) (cur : RelayCursor) (page : PullPage)
    (skip : Bool) : (applyBackfill p peer cur page skip).2.epoch = cur.epoch := by
  unfold applyBackfill
  simp only
  split
  · rfl
  · unfold followAdmitted
    split_ifs <;> rfl

theorem applyChannels_epoch (p : OpLogPullSocket H) (peer : DeviceId) (cur : RelayCursor) (page : PullPage)
    (skip : Bool) : ∃ c, (applyChannels p peer cur page skip).cursor = some c ∧ c.epoch = cur.epoch := by
  have he := applyBackfill_epoch p peer cur page skip
  unfold applyChannels
  simp only
  split
  · exact ⟨_, rfl, he⟩
  · unfold applyKeyed
    split
    · exact ⟨_, rfl, he⟩
    · exact ⟨_, rfl, he⟩

variable {c : Option RelayCursor} {r : Except String PullOutcome}

theorem drainAdvance_done {resumed : Bool} (h : drainAdvance peer d page resumed = .done c r) : c = d.cursor := by
  unfold drainAdvance at h
  simp only at h
  split_ifs at h <;> exact (DrainNext.done.inj h).1.symm

/-- A drain that ends on a data page ends with the cursor of the page. -/
theorem drainApply_done (h : (drainApply limits peer skip m p d page).2 = .done c r) :
    c = (applyPullPage p peer d.cursor page skip).cursor := by
  cases hr : (applyPullPage p peer d.cursor page skip).result with
  | error e =>
    rw [drainApply_error limits m hr] at h
    exact (DrainNext.done.inj h).1.symm
  | ok n =>
    obtain ⟨lp, pa, happ⟩ := drainApply_ok limits m hr rfl rfl
    rw [happ] at h
    exact drainAdvance_done h

/-! ## One step from either start -/

variable {epoch : Epoch}

theorem drainStep_page (ha : m.answer (drainRequest limits p d audit m.now) = .page page)
    (he : page.epoch = some epoch) : drainStep limits peer audit skip m p d =
      if page.snapshotRecommended then drainSnapshot limits peer m p d page
      else if page.reset then drainReset peer (drainRequest limits p d audit m.now) d page epoch
      else drainApply limits peer skip m p d page := by
  unfold drainStep
  simp only [ha, he]

theorem runPreview_sentinel (hd : d.cursor = none) (headSeq : ℕ) :
    runPreview limits peer m p d.sentinel headSeq =
      ((runPreview limits peer m p d headSeq).1, (runPreview limits peer m p d headSeq).2.sentinel) := by
  have hwindow : ∀ afterSeq, previewHeadWindow limits m.preview p peer d.sentinel.cursor afterSeq m.now =
      previewHeadWindow limits m.preview p peer d.cursor afterSeq m.now := by
    intro afterSeq
    rw [hd]
    rfl
  have haft : d.sentinel.previewAfter = d.previewAfter := rfl
  unfold runPreview
  simp only [hwindow, haft]
  cases (previewHeadWindow limits m.preview p peer d.cursor
    (previewResumeAfter limits d.previewAfter headSeq) m.now).2 <;> rfl

/-- A preview from a snapshot page: quiet, and only where the next one starts may move. -/
theorem runPreview_spec (limits : PageLimits) (peer : DeviceId) (m : Moment) (p : OpLogPullSocket H)
    (d : DrainState) (headSeq : ℕ) :
    (∀ e ∈ (runPreview limits peer m p d headSeq).1, Effect.Quiet e) ∧
      ∃ previewAfter, (runPreview limits peer m p d headSeq).2 = { d with previewAfter := previewAfter } := by
  constructor
  · rcases previewHeadWindow_effects limits m.preview p peer d.cursor
      (previewResumeAfter limits d.previewAfter headSeq) m.now with h | ⟨page, ops, -, -, -, h⟩
    · simp only [runPreview, h]
      nofun
    · simp only [runPreview, h]
      exact admitOps_quiet
  · unfold runPreview
    simp only
    cases (previewHeadWindow limits m.preview p peer d.cursor
      (previewResumeAfter limits d.previewAfter headSeq) m.now).2 with
    | error e => exact ⟨_, rfl⟩
    | ok r => exact ⟨_, rfl⟩

structure Overridden (d d₁ : DrainState) : Prop where
  cursor : d₁.cursor = none
  resetSeen : d₁.resetSeen = d.resetSeen
  overridden : d₁.recommendationOverridden = true
  resume : d₁.resume = some (backfillResume 0)

theorem validatePullReset_refused {req : PullRequest} {epoch : Epoch}
    (hzero : req.relayEpoch = some zeroEpoch) (haft : req.relayAfter = 0)
    (he : page.epoch = some epoch) (hsnap : page.snapshotRecommended = false) (hrst : page.reset = true)
    (hkps : ¬ (PullAnswer.page page).Replaces) : ∃ e, validatePullReset req page epoch = .error e := by
  cases hval : validatePullReset req page epoch with
  | error e => exact ⟨e, rfl⟩
  | ok cursor =>
    obtain ⟨-, hflr, hle, hbare⟩ := (validatePullReset_first hzero haft hsnap).1 ⟨cursor, hval⟩
    exact absurd ⟨hsnap, .inl ⟨hrst, by rw [he]; rfl, hflr, hle, hbare⟩⟩ hkps

/-- A data page of a stream is an error from the sentinel, which is of none. -/
theorem drainApply_sentinel (he : page.epoch = some epoch) (hne : epoch ≠ zeroEpoch) :
    ∃ es r, drainApply limits peer skip m p d.sentinel page = (es, .done (some .start) r) := by
  have herr : applyPullPage p peer d.sentinel.cursor page skip = ⟨[], some .start,
      .error ("v3 pull peer=" ++ toHex peer ++ " changed stream epoch without a reset")⟩ := by
    simp only [applyPullPage, he, DrainState.sentinel, RelayCursor.start, if_neg (Ne.symm hne)]
  have hend := drainApply_error limits m (congrArg PageOutcome.result herr)
  rw [herr] at hend
  exact ⟨_, _, hend⟩

theorem drainApply_none (hd : d.cursor = none) (he : page.epoch = some epoch) (hne : epoch ≠ zeroEpoch)
    {es : List (Effect H)} (h : drainApply limits peer skip m p d page = (es, .done c r)) : c ≠ some .start := by
  obtain ⟨cursor, hcur, hep⟩ := applyChannels_epoch p peer ⟨epoch, 0⟩ page skip
  rw [drainApply_done (congrArg Prod.snd h), hd]
  simp only [applyPullPage, he, hcur]
  intro heq
  rw [some.inj heq] at hep
  exact hne hep.symm

section Step

variable (hd : d.cursor = none)
include hd

theorem drainSnapshot_sentinel (hnot : d.recommendationOverridden = false) (page : PullPage) :
    ∃ effects d₁, Overridden d d₁ ∧ (∀ e ∈ effects, Effect.Quiet e) ∧
      drainSnapshot limits peer m p d page = (effects, .again d₁) ∧
      drainSnapshot limits peer m p d.sentinel page = (effects, .again d₁.sentinel) := by
  have hnot' : d.sentinel.recommendationOverridden = false := hnot
  have hlast : d.sentinel.lastPreview = d.lastPreview := rfl
  unfold drainSnapshot
  simp only [hnot, hnot', hlast, Bool.false_eq_true, if_false]
  by_cases hdue : previewDue d.lastPreview m.now = true ∧ 0 < page.headSeq
  · obtain ⟨d₀, hd₀⟩ : ∃ d₀ : DrainState,
        { d with recommendationOverridden := true, lastPreview := some m.now } = d₀ := ⟨_, rfl⟩
    have hnone : d₀.cursor = none := hd₀ ▸ hd
    have hsent : { d.sentinel with recommendationOverridden := true, lastPreview := some m.now } = d₀.sentinel :=
      hd₀ ▸ rfl
    obtain ⟨hqui, pa, hpa⟩ := runPreview_spec limits peer m p d₀ page.headSeq
    simp only [if_pos hdue, hd₀, hsent, runPreview_sentinel hnone, hpa]
    refine ⟨_, _, ⟨?_, ?_, ?_, ?_⟩, hqui, rfl, ?_⟩
    · exact hnone
    · subst hd₀; rfl
    · subst hd₀; rfl
    · simp only [hnone]; rfl
    · simp only [DrainState.sentinel, hnone]
      rfl
  · simp only [if_neg hdue]
    refine ⟨[], _, ⟨?_, ?_, ?_, ?_⟩, nofun, rfl, ?_⟩
    · exact hd
    · rfl
    · rfl
    · simp only [hd]; rfl
    · simp only [DrainState.sentinel, hd]
      rfl

/-- An answer that replaces the cursor leaves no trace of it. -/
theorem drainStep_replaces (hseen : d.resetSeen = false)
    (h : (m.answer (firstRequest limits p d.resume audit m.now)).Replaces) :
    drainStep limits peer audit skip m p d.sentinel = drainStep limits peer audit skip m p d := by
  obtain ⟨page, ha⟩ := h.isPage
  rw [ha] at h
  have hreq := @drainRequest_none H limits audit p d hd m.now
  have hans : m.answer (drainRequest limits p d audit m.now) = .page page := by rw [hreq, ha]
  have hans' : m.answer (drainRequest limits p d.sentinel audit m.now) = .page page := ha
  obtain ⟨hsnap, ⟨hrst, he, hflr, hle, hbare⟩ | ⟨hrst, he⟩⟩ := h
  · obtain ⟨epoch, he⟩ := isSome_iff_exists.1 he
    obtain ⟨cursor, hok⟩ :=
      (@validatePullReset_first page (firstRequest limits p d.resume audit m.now) rfl rfl hsnap
      epoch).2 ⟨hrst, hflr, hle, hbare⟩
    have hseen' : d.sentinel.resetSeen = false := hseen
    rw [drainStep_page hans he, drainStep_page hans' he, hreq,
      drainRequest_sentinel]
    simp only [hsnap, hrst, drainReset, hseen, hseen', hok, Bool.false_eq_true, if_false, if_true]
    rfl
  · have hpage : applyPullPage p peer d.sentinel.cursor page skip = applyPullPage p peer d.cursor page skip := by
      rw [hd]
      simp only [applyPullPage, he, DrainState.sentinel, RelayCursor.start, if_true]
    rw [drainStep_page hans he, drainStep_page hans' he]
    simp only [hsnap, hrst, Bool.false_eq_true, if_false, drainApply, hpage]
    rfl

theorem drainStep_recommends (hnot : d.recommendationOverridden = false)
    (h : (m.answer (firstRequest limits p d.resume audit m.now)).Recommends) :
    ∃ effects d₁, Overridden d d₁ ∧ (∀ e ∈ effects, Effect.Quiet e) ∧
      drainStep limits peer audit skip m p d = (effects, .again d₁) ∧
      drainStep limits peer audit skip m p d.sentinel = (effects, .again d₁.sentinel) := by
  obtain ⟨page, ha⟩ := h.isPage
  rw [ha] at h
  obtain ⟨he, hsnap⟩ := h
  obtain ⟨epoch, he⟩ := isSome_iff_exists.1 he
  have hreq := @drainRequest_none H limits audit p d hd m.now
  have hans : m.answer (drainRequest limits p d audit m.now) = .page page := by rw [hreq, ha]
  have hans' : m.answer (drainRequest limits p d.sentinel audit m.now) = .page page := ha
  rw [drainStep_page hans he, drainStep_page hans' he, if_pos hsnap,
    if_pos hsnap]
  exact drainSnapshot_sentinel hd hnot page

/-- Any other answer ends the drain from the sentinel, on the sentinel; without a cursor the
drain does not end on it. -/
theorem drainStep_apart (hseen : d.resetSeen = false)
    (hkps : ¬(m.answer (firstRequest limits p d.resume audit m.now)).Replaces)
    (hover : (m.answer (firstRequest limits p d.resume audit m.now)).Recommends →
      d.recommendationOverridden = true) :
    (∃ es r, drainStep limits peer audit skip m p d.sentinel = (es, .done (some .start) r)) ∧
      ∀ es c r, drainStep limits peer audit skip m p d = (es, .done c r) → c ≠ some .start := by
  have hreq := @drainRequest_none H limits audit p d hd m.now
  -- a drain that stops where it is keeps the cursor it has
  have hstop : ∀ (es' : List (Effect H)) (r' : Except String PullOutcome) es c r,
      (es', DrainNext.done d.cursor r') = (es, .done c r) → c ≠ some .start := by
    intro es' r' es c r heq
    rw [← (DrainNext.done.inj (Prod.mk.inj heq).2).1, hd]
    nofun
  cases ha : m.answer (firstRequest limits p d.resume audit m.now) with
  | transport e =>
    simp only [drainStep, hreq, drainRequest_sentinel, ha]
    exact ⟨⟨_, _, rfl⟩, hstop _ _⟩
  | unverified e =>
    simp only [drainStep, hreq, drainRequest_sentinel, ha]
    exact ⟨⟨_, _, rfl⟩, hstop _ _⟩
  | refused status body =>
    simp only [drainStep, hreq, drainRequest_sentinel, ha]
    split_ifs
    · exact ⟨⟨_, _, rfl⟩, hstop _ _⟩
    · exact ⟨⟨_, _, rfl⟩, hstop _ _⟩
    · exact ⟨⟨_, _, rfl⟩, hstop _ _⟩
  | page page =>
    rw [ha] at hkps hover
    cases he : page.epoch with
    | none =>
      simp only [drainStep, hreq, drainRequest_sentinel, ha, he]
      exact ⟨⟨_, _, rfl⟩, hstop _ _⟩
    | some epoch =>
      have hans : m.answer (drainRequest limits p d audit m.now) = .page page := by rw [hreq, ha]
      have hans' : m.answer (drainRequest limits p d.sentinel audit m.now) = .page page := ha
      rw [drainStep_page hans he, drainStep_page hans' he, hreq,
        drainRequest_sentinel]
      by_cases hsnap : page.snapshotRecommended = true
      · have hover := hover ⟨by rw [he]; rfl, hsnap⟩
        have hover' : d.sentinel.recommendationOverridden = true := hover
        simp only [hsnap, if_true, drainSnapshot, hover, hover']
        exact ⟨⟨_, _, rfl⟩, hstop _ _⟩
      · replace hsnap := eq_false_of_ne_true hsnap
        simp only [hsnap, Bool.false_eq_true, if_false]
        by_cases hrst : page.reset = true
        · have hseen' : d.sentinel.resetSeen = false := hseen
          obtain ⟨e, hbad⟩ := @validatePullReset_refused page (firstRequest limits p d.resume audit m.now) epoch
            rfl rfl he hsnap hrst hkps
          simp only [hrst, if_true, drainReset, hseen, hseen', hbad, Bool.false_eq_true, if_false]
          exact ⟨⟨_, _, rfl⟩, hstop _ _⟩
        · replace hrst := eq_false_of_ne_true hrst
          have hne : epoch ≠ zeroEpoch := by
            intro hz
            exact hkps ⟨hsnap, .inr ⟨hrst, by rw [he, hz]⟩⟩
          simp only [hrst, Bool.false_eq_true, if_false]
          exact ⟨drainApply_sentinel he hne, fun _ _ _ => drainApply_none hd he hne⟩

end Step

/-! ## Whole drains -/

def drainReport (end_ : Option (OpLogPullSocket H × Option RelayCursor × Except String PullOutcome)) :
    Option (OpLog × Option RelayCursor × Except String PullOutcome) :=
  end_.map fun r => (r.1.log, r.2.1, r.2.2)

def SameFromSentinel (limits : PageLimits) (peer : DeviceId) (audit skip : Bool) (world : ℕ → Moment)
    (p : OpLogPullSocket H) (d : DrainState) : Prop :=
  ∀ fuel, drainReport (drainPullPages limits peer audit skip fuel world p d.sentinel) =
    drainReport (drainPullPages limits peer audit skip fuel world p d)

section Run

variable {world : ℕ → Moment} (hd : d.cursor = none)
include hd

theorem same_of_replaces (hseen : d.resetSeen = false)
    (h : ((world 0).answer (firstRequest limits p d.resume audit (world 0).now)).Replaces) :
    SameFromSentinel limits peer audit skip world p d := by
  intro fuel
  cases fuel with
  | zero => rfl
  | succ fuel => rw [drainPullPages, drainPullPages, drainStep_replaces hd hseen h]

theorem not_same_of_apart (hseen : d.resetSeen = false)
    (hkps : ¬((world 0).answer (firstRequest limits p d.resume audit (world 0).now)).Replaces)
    (hover : ((world 0).answer (firstRequest limits p d.resume audit (world 0).now)).Recommends →
      d.recommendationOverridden = true) :
    ¬SameFromSentinel limits peer audit skip world p d := by
  intro hsame
  obtain ⟨⟨es, r, hend⟩, hoth⟩ := @drainStep_apart H limits peer audit skip (world 0) p d hd hseen hkps hover
  have hone := hsame 1
  rw [drainPullPages, drainPullPages, hend] at hone
  generalize hstep : drainStep limits peer audit skip (world 0) p d = s
  obtain ⟨es', next⟩ := s
  rw [hstep] at hone
  cases next with
  | again d' => cases hone
  | done c r' =>
    have hc : some RelayCursor.start = c := congrArg (fun x => x.2.1) (some.inj hone)
    exact hoth es' c r' hstep hc.symm

end Run

/-- A drain from the sentinel comes to what a drain without a cursor comes to, after every
number of requests, exactly if the first answer replaces the cursor, or the first
recommends a snapshot and the second replaces the cursor. -/
theorem first_contact_iff (limits : PageLimits) (peer : DeviceId) (audit skip : Bool) (world : ℕ → Moment)
    (p : OpLogPullSocket H) :
    (∀ fuel, drainReport (drainPullPages limits peer audit skip fuel world p (.start (some .start))) =
        drainReport (drainPullPages limits peer audit skip fuel world p (.start none))) ↔
      ((world 0).answer (firstRequest limits p none audit (world 0).now)).Replaces ∨
        ((world 0).answer (firstRequest limits p none audit (world 0).now)).Recommends ∧
          ((world 1).answer (firstRequest limits p (some (backfillResume 0)) audit (world 1).now)).Replaces := by
  have hd : (DrainState.start none).cursor = none := rfl
  by_cases hrep : ((world 0).answer (firstRequest limits p none audit (world 0).now)).Replaces
  · exact ⟨fun _ => Or.inl hrep, fun _ => same_of_replaces hd rfl hrep⟩
  by_cases hrec : ((world 0).answer (firstRequest limits p none audit (world 0).now)).Recommends
  · -- the recommendation leaves the two drains at the second request
    obtain ⟨es, d₁, hover, hqui, hstep, hstep'⟩ :=
      @drainStep_recommends H limits peer audit skip (world 0) p (.start none) hd rfl hrec
    have hreq : ∀ now, firstRequest limits (p.after es) d₁.resume audit now =
        firstRequest limits p (some (backfillResume 0)) audit now := by
      intro now
      have hcov : (p.after es).coverage = p.coverage := (after_quiet hqui).1
      rw [firstRequest, firstRequest, hover.resume, hcov]
    have hshf : ∀ fuel, drainPullPages limits peer audit skip (fuel + 1) world p (.start (some .start)) =
          drainPullPages limits peer audit skip fuel (fun i => world (i + 1)) (p.after es) d₁.sentinel ∧
        drainPullPages limits peer audit skip (fuel + 1) world p (.start none) =
          drainPullPages limits peer audit skip fuel (fun i => world (i + 1)) (p.after es) d₁ := by
      intro fuel
      rw [drainPullPages, drainPullPages, hstep,
        show DrainState.start (some .start) = (DrainState.start none).sentinel from rfl,
        hstep']
      exact ⟨rfl, rfl⟩
    constructor
    · intro hsame
      refine Or.inr ⟨hrec, ?_⟩
      by_contra hrep'
      refine @not_same_of_apart H limits peer audit skip (p.after es) d₁ (fun i => world (i + 1)) hover.cursor
        hover.resetSeen ?_ (fun _ => hover.overridden) fun fuel => ?_
      · rw [hreq]
        exact hrep'
      · rw [← (hshf fuel).1, ← (hshf fuel).2]
        exact hsame (fuel + 1)
    · intro h
      have hrep' := (h.resolve_left hrep).2
      intro fuel
      cases fuel with
      | zero => rfl
      | succ fuel =>
        rw [(hshf fuel).1, (hshf fuel).2]
        refine @same_of_replaces H limits peer audit skip (p.after es) d₁ (fun i => world (i + 1)) hover.cursor
          hover.resetSeen ?_ fuel
        rw [hreq]
        exact hrep'
  · refine ⟨fun hsame => absurd hsame ?_, fun h => ?_⟩
    · exact not_same_of_apart hd rfl hrep fun h => absurd h hrec
    · exact (h.elim hrep fun h => hrec h.1).elim

def compactedPeer (i : ℕ) : Moment where
  now := 0
  answer := fun _ => if i = 0 then .page (resetPullPage ⟨fill 32 9, 2, 1⟩) else .transport "closed"
  preview := fun _ => .transport "closed"

theorem first_contact_compacted :
    (drainPullPages PageLimits.shipped (fill 32 1) false false 2 compactedPeer (plainPuller []) (.start none)).map
        (fun r => r.2.1) = some (some ⟨fill 32 9, 1⟩) ∧
      ∀ fuel, drainReport (drainPullPages PageLimits.shipped (fill 32 1) false false fuel compactedPeer
          (plainPuller []) (.start (some .start))) =
        drainReport (drainPullPages PageLimits.shipped (fill 32 1) false false fuel compactedPeer
          (plainPuller []) (.start none)) := by
  refine ⟨by decide +kernel, ?_⟩
  refine (first_contact_iff PageLimits.shipped (fill 32 1) false false compactedPeer (plainPuller [])).2
    (Or.inl ?_)
  exact ⟨rfl, Or.inl ⟨rfl, rfl, by decide, by decide, rfl, rfl, rfl, rfl, rfl, rfl⟩⟩

/-- A peer that never compacted answers both with data; without a cursor the drain takes it,
from the sentinel it fails and takes nothing. -/
theorem sentinel_refuses_data :
    let world :=
      honestWorld PageLimits.shipped (padTo 32 [7]) (fun _ => 0) (fun _ => twoOrigins) fun _ => twoOrigins
    let drain := fun cursor => (drainPullPages PageLimits.shipped (padTo 32 [7]) false false 2 world
      (plainPuller [padTo 32 [7], padTo 32 [5]]) (.start cursor)).map
        fun r => (r.1.log.relayOrder.length, r.2.1, r.2.2.toOption)
    drain none = some (2, some ⟨fill 32 9, 2⟩, some (.applied 2)) ∧
      drain (some .start) = some (0, some .start, none) := by
  decide +kernel

end ProxyNode
