import ProxyNode.Sanity.Exchange

/-! One step of a drain against an honest node: the answer is a data page, the step
applies it, and whatever a preview adds leaves claims and cursors alone. -/

namespace ProxyNode

open OpLogPullSocket List Option

variable {H : Host} {limits : PageLimits} {peer : DeviceId} {m : Moment} {p : OpLogPullSocket H}
  {d : DrainState} {page : PullPage}

/-! ## Previews -/

/-- A preview does nothing but admit what it decoded from a page. -/
theorem previewHeadWindow_effects (limits : PageLimits) (ask : PullRequest → PullAnswer)
    (p : OpLogPullSocket H) (peer : DeviceId) (cursor : Option RelayCursor) (afterSeq : ℕ) (nowMs : ℤ) :
    (previewHeadWindow limits ask p peer cursor afterSeq nowMs).1 = [] ∨
    ∃ page ops, ask (previewRequest limits p cursor afterSeq nowMs) = .page page ∧ page.reset = false ∧
      page.backfill.mapM (fun e => decodePageOp e.2 peer) = .ok ops ∧
      (previewHeadWindow limits ask p peer cursor afterSeq nowMs).1 = (p.admitOps ops false).effects := by
  unfold previewHeadWindow
  cases hask : ask (previewRequest limits p cursor afterSeq nowMs) with
  | transport e => exact .inl rfl
  | unverified e => exact .inl rfl
  | refused status body =>
    dsimp only
    split_ifs
    · exact .inl rfl
    · exact .inl rfl
  | page page =>
    dsimp only
    split_ifs with hrst
    · exact .inl rfl
    · cases hops : page.backfill.mapM fun e => decodePageOp e.2 peer with
      | error e => exact .inl rfl
      | ok ops =>
        refine .inr ⟨page, ops, rfl, ?_, hops, rfl⟩
        push Not at hrst
        simpa using hrst.1

/-- A drain's preview: the previewed request, and the locals it may touch. -/
theorem drainPreview_spec (limits : PageLimits) (peer : DeviceId) (m : Moment) (p : OpLogPullSocket H)
    (d : DrainState) (page : PullPage) :
    ((drainPreview limits peer m p d page).1 = [] ∨
      ∃ cursor afterSeq, (drainPreview limits peer m p d page).1 =
        (previewHeadWindow limits m.preview p peer cursor afterSeq m.now).1 ∧ cursor = d.cursor) ∧
    ∃ lastPreview previewAfter, (drainPreview limits peer m p d page).2 =
      { d with lastPreview := lastPreview, previewAfter := previewAfter } := by
  unfold drainPreview
  dsimp only
  split_ifs
  · refine ⟨.inr ⟨_, _, rfl, rfl⟩, ?_⟩
    unfold runPreview
    dsimp only
    cases (previewHeadWindow limits m.preview p peer d.cursor
      (previewResumeAfter limits d.previewAfter page.headSeq) m.now).2 with
    | error e => exact ⟨_, _, rfl⟩
    | ok r => exact ⟨_, _, rfl⟩
  · exact ⟨.inl rfl, _, _, rfl⟩
  · exact ⟨.inl rfl, d.lastPreview, d.previewAfter, rfl⟩

theorem drainPreview_quiet : ∀ e ∈ (drainPreview limits peer m p d page).1, e.Quiet := by
  rcases (drainPreview_spec limits peer m p d page).1 with h | ⟨cursor, afterSeq, h, -⟩
  · simp [h]
  · rw [h]
    rcases previewHeadWindow_effects limits m.preview p peer cursor afterSeq m.now with
      h | ⟨page, ops, -, -, -, h⟩
    · simp [h]
    · rw [h]
      exact admitOps_quiet

/-! ## Steps -/

theorem drainAdvance_end (hc : page.complete = true) :
    drainAdvance peer d page false = .done d.cursor (.ok (.applied d.total)) := by
  simp only [drainAdvance, hc, if_true, Bool.false_eq_true, if_false]

theorem drainAdvance_fresh (hc : page.complete = true) :
    drainAdvance peer d page true = .again { d with resume := none } := by
  simp only [drainAdvance, hc, if_true]

theorem drainAdvance_next (hc : page.complete = false) {progress : PullProgress}
    (hp : pullProgress d.cursor page.resume = progress) (hne : d.lastProgress ≠ some progress)
    (resumed : Bool) : drainAdvance peer d page resumed =
      .again { d with resume := page.resume, stalled := 0, lastProgress := some progress } := by
  subst hp
  simp only [drainAdvance, hc, if_neg hne, pullNoProgressLimit, Bool.false_eq_true, if_false,
    nonpos_iff_eq_zero, OfNat.ofNat_ne_zero]

variable {skip : Bool}

/-- What follows a page that went through: a preview, then the next request or the end. -/
theorem drainApply_ok (limits : PageLimits) (m : Moment) {n : ℕ}
    (hok : (applyPullPage p peer d.cursor page skip).result = .ok n) {q : OpLogPullSocket H}
    (hq : p.after (applyPullPage p peer d.cursor page skip).effects = q) {d₁ : DrainState} (hd : { d with
      cursor := (applyPullPage p peer d.cursor page skip).cursor, total := d.total + n,
      pages := d.pages + 1 } = d₁) :
    ∃ lastPreview previewAfter, drainApply limits peer skip m p d page =
      ((applyPullPage p peer d.cursor page skip).effects ++ (drainPreview limits peer m q d₁ page).1,
        drainAdvance peer { d₁ with lastPreview := lastPreview, previewAfter := previewAfter } page
          d.resume.isSome) := by
  obtain ⟨lp, pa, hpre⟩ := (drainPreview_spec limits peer m q d₁ page).2
  refine ⟨lp, pa, ?_⟩
  subst hq hd
  unfold drainApply
  simp only [hok, hpre]

theorem drainApply_error (limits : PageLimits) (m : Moment) {e : String}
    (h : (applyPullPage p peer d.cursor page skip).result = .error e) :
    drainApply limits peer skip m p d page = ((applyPullPage p peer d.cursor page skip).effects,
      .done (applyPullPage p peer d.cursor page skip).cursor (.error e)) := by
  unfold drainApply
  simp only [h]

theorem drainApply_effects (skip : Bool) (limits : PageLimits) (peer : DeviceId) (m : Moment)
    (p : OpLogPullSocket H) (d : DrainState) (page : PullPage) :
    ∃ quiet : List (Effect H), (∀ e ∈ quiet, e.Quiet) ∧
      (drainApply limits peer skip m p d page).1 =
        (applyPullPage p peer d.cursor page skip).effects ++ quiet := by
  unfold drainApply
  dsimp only
  cases (applyPullPage p peer d.cursor page skip).result with
  | error e => exact ⟨[], by simp, (append_nil _).symm⟩
  | ok n => exact ⟨_, drainPreview_quiet, rfl⟩

/-- A step goes on only past a page that went through; its token is the page's, or none
after a complete page. -/
theorem drainApply_again {d' : DrainState} (h : (drainApply limits peer skip m p d page).2 = .again d') :
    (∃ n, (applyPullPage p peer d.cursor page skip).result = .ok n) ∧
    d'.cursor = (applyPullPage p peer d.cursor page skip).cursor ∧
    (d'.resume = none ∨ (page.complete = false ∧ d'.resume = page.resume)) := by
  unfold drainApply at h
  dsimp only at h
  cases hr : (applyPullPage p peer d.cursor page skip).result with
  | error e => rw [hr] at h; cases h
  | ok n =>
    rw [hr] at h
    dsimp only at h
    obtain ⟨lp, pa, hd⟩ := (drainPreview_spec limits peer m
      (p.after (applyPullPage p peer d.cursor page skip).effects)
      { d with cursor := (applyPullPage p peer d.cursor page skip).cursor, total := d.total + n,
               pages := d.pages + 1 } page).2
    rw [hd] at h
    unfold drainAdvance at h
    cases hc : page.complete with
    | true =>
      simp only [hc, if_true] at h
      split_ifs at h
      obtain rfl := DrainNext.again.inj h
      exact ⟨⟨n, rfl⟩, rfl, .inl rfl⟩
    | false =>
      simp only [hc, Bool.false_eq_true, if_false] at h
      split_ifs at h <;>
        · obtain rfl := DrainNext.again.inj h
          exact ⟨⟨n, rfl⟩, rfl, .inr ⟨rfl, rfl⟩⟩

/-- A drain in step with an honest node applies a data page. -/
theorem drainStep_honest {log : OpLog} (hfits : DrainFits log p d)
    (hask : m.answer = serveLog limits peer log) (audit skip : Bool) :
    ∃ page segs, DataPage log.relayState page ∧ page.keyed = segmentEntries segs ∧
      ServedPage (.atomic log) peer (drainRequest limits p d audit m.now) page segs ∧
      drainStep limits peer audit skip m p d = drainApply limits peer skip m p d page := by
  obtain ⟨page, segs, hok, hdata, hkey, hshp⟩ := servePull_spec limits (.atomic log) peer
    (drainRequest limits p d audit m.now) rfl rfl (pullNeedsReset_within hfits.cursor)
  refine ⟨page, segs, hdata, hkey, hshp, ?_⟩
  have hans : m.answer (drainRequest limits p d audit m.now) = .page page := by
    rw [hask, serveLog, hok]
  simp only [drainStep, hans, hdata.epoch, hdata.snapshotRecommended, hdata.reset, Bool.false_eq_true,
    if_false]

/-! ## The page of an honest node -/

section Honest

variable {log : OpLog} {segs : List Segment} {req : PullRequest} {audit : Bool} {now : ℤ}

def DrainState.current (d : DrainState) (log : OpLog) : RelayCursor := d.cursor.getD ⟨log.relayEpoch, 0⟩

theorem DrainState.current_after (d : DrainState) (log : OpLog) :
    (d.current log).after = (d.cursor.map RelayCursor.after).getD 0 := by
  unfold current
  cases d.cursor <;> rfl

theorem DrainFits.current (h : DrainFits log p d) :
    (d.current log).epoch = log.relayEpoch ∧ (d.current log).after ≤ log.arrivals.length := by
  unfold DrainState.current
  cases hc : d.cursor with
  | none => exact ⟨rfl, Nat.zero_le _⟩
  | some c => exact h.cursor c hc

theorem applyPullPage_fits (h : DrainFits log p d) (hdata : DataPage log.relayState page) (skip : Bool) :
    applyPullPage p peer d.cursor page skip = applyChannels p peer (d.current log) page skip := by
  unfold applyPullPage DrainState.current
  rw [hdata.epoch]
  cases hc : d.cursor with
  | none => rfl
  | some c => exact if_pos (h.cursor c hc).1

theorem lastKeyOf_mem {ops : List SignedOp} {k : OrderKey} (h : lastKeyOf ops = some k) :
    ∃ op ∈ ops, op.orderKey = k := by
  obtain ⟨op, hop, rfl⟩ := map_eq_some_iff.1 h
  exact ⟨op, mem_of_getLast? hop, rfl⟩

theorem Served.resume {ops : DeviceId → List SignedOp} {origins : List DeviceId} {r : Resume}
    (h : Served ops origins segs (some r)) :
    ∃ s ∈ segs, r = keyedResume s.1 (lastKeyOf s.2) ∧ s.2 ≠ [] := by
  cases h with
  | cut done rest o n hn hle =>
    refine ⟨_, mem_append_right _ (mem_singleton.2 rfl), rfl, ?_⟩
    exact ne_nil_of_length_pos (by rw [length_take]; omega)

variable {reads : PageReads}

/-- The resume token of a page names an op of the page or the end of its scan. -/
theorem PageShape.resume {own : DeviceId} {r : Resume} (h : ServedPage reads own req page segs)
    (hr : page.resume = some r) :
    (∃ s ∈ segs, r = keyedResume s.1 (lastKeyOf s.2) ∧ s.2 ≠ []) ∨
    (r = backfillResume page.nextRelaySeq ∧ ∃ start, start < page.nextRelaySeq ∧
      (start = req.relayAfter ∨ ∃ o k, req.resume = some ⟨.backfill, start, o, k⟩)) := by
  cases h with
  | cut _ r' hr' _ _ _ hsvd =>
    obtain rfl : r' = r := some.inj (hr'.symm.trans hr)
    exact .inl hsvd.resume
  | full _ k _ _ hs =>
    obtain ⟨rfl, hk⟩ := hs.resume r hr
    rw [hs.next]
    exact .inr ⟨rfl, _, Nat.lt_add_of_pos_right hk, .inl rfl⟩
  | backfill k n o key hph hs =>
    obtain ⟨rfl, hk⟩ := hs.resume r hr
    rw [hs.next]
    exact .inr ⟨rfl, n, Nat.lt_add_of_pos_right hk, .inr ⟨o, key, hph⟩⟩

theorem PageShape.resumeCovered {own : DeviceId} {claims : CoverageVector}
    (h : ServedPage reads own req page segs) (hc : ∀ s ∈ segs, ∀ op ∈ s.2, claims.covers op.orderKey = true) :
    ResumeCovered claims page.resume := by
  intro r o k hr ho hk
  rcases h.resume hr with ⟨s, hs, rfl, -⟩ | ⟨rfl, -⟩
  · obtain ⟨op, hop, rfl⟩ := lastKeyOf_mem hk
    obtain rfl : s.1 = o := some.inj ho
    exact ⟨(h.sorted s hs).1 op hop, hc s hs op hop⟩
  · cases ho

/-- An honest page ends inside the log it was served from. -/
theorem PageShape.next_le (h : DrainFits log p d)
    (hshp : ServedPage (.atomic log) peer (drainRequest limits p d audit now) page segs) :
    page.nextRelaySeq ≤ log.arrivals.length := by
  obtain ⟨start, k, hstart, hnext, hk, -⟩ := hshp.scan
  have hcur := h.current.2
  rw [d.current_after] at hcur
  have hle : start ≤ log.arrivals.length := by
    rcases hstart with rfl | ⟨o, key, hres⟩
    · exact hcur
    · exact (h.backfill start o key hres).trans hcur
  change k ≤ (log.arrivals.drop start).length at hk
  rw [length_drop] at hk
  omega

/-- A page that went through keeps everything below the cursor it ends at, if the read of
each origin found every op it raises the claim over. -/
theorem kept_of_page (hfits : DrainFits reads.state p d)
    (hkept : Kept (· ∈ reads.scan.arrivals.take (d.current reads.state).after) p)
    (hshp : ServedPage reads peer (drainRequest limits p d false now) page segs)
    (hkey : page.keyed = segmentEntries segs) (hheld : ∀ x ∈ reads.scan.arrivals, p.log.contains x.id = false →
      p.coverage.covers x.orderKey = false → ∀ s ∈ segs, x.orderKey.device = s.1 →
      ∀ z ∈ s.2, x.orderKey < z.orderKey → ∃ y ∈ (reads.since s.1).arrivals, y.orderKey = x.orderKey)
    {q : OpLogPullSocket H} {n : ℕ}
    (hq : p.after (applyChannels p peer (d.current reads.state) page false).effects = q)
    (hok : (applyChannels p peer (d.current reads.state) page false).result = .ok n) :
    Kept (· ∈ reads.scan.arrivals.take (max (d.current reads.state).after page.nextRelaySeq)) q := by
  obtain ⟨start, k, hstart, hnext, -, hback⟩ := hshp.scan
  change page.backfill =
    backfillEntries (coveredArrivals p.coverage ((reads.scan.arrivals.drop start).take k) start) at hback
  have hle : ∀ e ∈ coveredArrivals p.coverage ((reads.scan.arrivals.drop start).take k) start,
      e.1 ≤ page.nextRelaySeq := fun e he => hnext ▸ coveredArrivals_le he
  have hbegin : start ≤ (d.current reads.state).after := by
    rw [d.current_after]
    rcases hstart with rfl | ⟨o, key, hres⟩
    · exact le_rfl
    · exact hfits.backfill start o key hres
  obtain ⟨-, -, hents, hsegs⟩ := applyChannels_ok hback hle hkey hshp.sorted hshp.visit hq hok
  have hgrow : ∀ {id}, p.log.contains id = true → q.log.contains id = true :=
    fun h => hq ▸ (after_log_extends _ _).contains h
  intro x hx hcov
  cases hc : p.coverage.covers x.orderKey with
  | true =>
    rcases mem_take_max.1 hx with hx | hx
    · exact hgrow (hkept x hx hc)
    · obtain ⟨i, hi, rfl⟩ := mem_take_iff_getElem.1 hx
      by_cases his : i < start
      · exact hgrow (hkept _ (mem_take_iff_getElem.2 ⟨i, by omega, rfl⟩) hc)
      · have hil : i < reads.scan.arrivals.length := by omega
        refine hents (i + 1, reads.scan.arrivals[i])
          (mem_coveredArrivals.2 ⟨i - start, ?_, by dsimp only; omega, hc⟩)
        rw [getElem?_take, if_pos (by omega), getElem?_drop, Nat.add_sub_cancel' (not_lt.1 his),
          getElem?_eq_getElem hil]
  | false =>
    -- the claim was raised past this op by the segment of its origin
    rw [← hq] at hcov
    rcases applyChannels_covers hkey hshp.sorted hshp.visit hcov with h | ⟨s, hs, z, hz, hd, hxz⟩
    · rw [hc] at h
      cases h
    · have hso : x.orderKey.device = s.1 := hd.symm.trans ((hshp.sorted s hs).1 z hz)
      obtain ⟨-, m, hm⟩ := hshp.segment hs
      have hm' : s.2 = ((reads.since s.1).originOps s.1 (readAfter p.coverage false d.resume s.1)).take m := hm
      have hsafe := segmentSafe_of_read (· ∈ reads.scan.arrivals) p (reads.since s.1) s.1
        (readAfter p.coverage false d.resume s.1) m
        (fun y hy hyd b hb => readAfter_lt hfits.resume hy (hyd ▸ hb))
        (fun y hy hyd hyc hyl z hz hlt => hheld y hy hyl hyc s hs hyd z (hm' ▸ hz) hlt)
      obtain ⟨i, hi⟩ := mem_iff_getElem?.1 hz
      rcases hsafe x (mem_of_mem_take hx) hso hc i z (hm' ▸ hi) hxz with hin | ⟨y, hy, hid⟩
      · exact hgrow hin
      · exact hid ▸ (hsegs s hs y (hm' ▸ mem_of_mem_take hy)).1

end Honest

/-! ## Saves within a stream -/

theorem after_cursors_other {es : List (Effect H)} {epoch : Epoch} {bound : ℕ}
    (h : ∀ e ∈ es, e.SavesWithin peer epoch bound) {other : DeviceId} (hne : other ≠ peer) :
    (p.after es).cursors.get? other = p.cursors.get? other := by
  induction es generalizing p with
  | nil => rfl
  | cons e es ih =>
    rw [after_cons, ih fun f hf => h f (mem_cons_of_mem _ hf)]
    have he := h e mem_cons_self
    cases e with
    | clock _ | append _ | replay | advanceLocalCoverage _ _ _ => rfl
    | resetRelayCursor _ _ => exact he.elim
    | saveRelayCursor peer' cursor =>
      obtain ⟨rfl, -, -⟩ := he
      rw [perform, OpLogPullSocket.saveRelayCursor, SortedMap.get?_upsert, if_neg hne]

theorem after_cursors_within {es : List (Effect H)} {epoch : Epoch} {bound : ℕ}
    (h : ∀ e ∈ es, e.SavesWithin peer epoch bound)
    (hp : ∀ c, p.cursors.get? peer = some c → c.epoch = epoch ∧ c.after ≤ bound) {c : RelayCursor}
    (hc : (p.after es).cursors.get? peer = some c) : c.epoch = epoch ∧ c.after ≤ bound := by
  induction es generalizing p with
  | nil => exact hp c hc
  | cons e es ih =>
    refine ih (fun f hf => h f (mem_cons_of_mem _ hf)) (p := p.perform e) ?_ hc
    have he := h e mem_cons_self
    cases e with
    | clock _ | append _ | replay | advanceLocalCoverage _ _ _ => exact hp
    | resetRelayCursor _ _ => exact he.elim
    | saveRelayCursor peer' cursor =>
      obtain ⟨rfl, hep, hle⟩ := he
      intro c' hc'
      rw [perform, OpLogPullSocket.saveRelayCursor, SortedMap.get?_upsert, if_pos rfl, some.injEq] at hc'
      cases hold : p.cursors.get? peer' with
      | none =>
        rw [hold] at hc'
        subst hc'
        exact ⟨hep, hle⟩
      | some existing =>
        obtain ⟨h1, h2⟩ := hp existing hold
        rw [hold, map_some, getD_some] at hc'
        split_ifs at hc'
        · subst hc'
          exact ⟨h1, max_le h2 hle⟩
        · subst hc'
          exact ⟨hep, hle⟩

end ProxyNode
