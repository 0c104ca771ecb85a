import ProxyNode.Sanity.Acceptance
import ProxyNode.Sanity.Drain
import ProxyNode.Sanity.StreamPage
import ProxyNode.Spec.Sweep

/-! Drains against a node whose stream may have holes below its floor. A drain in step with
the stream gets a data page that starts where it stands; once the page has gone through,
the drain stands where the page ended. -/

namespace ProxyNode

open OpLogPullSocket Option

variable {H : Host} {limits : PageLimits} {socket : MeshPullSocket} {arrivals : List (ℕ × SignedOp)}
    {peer : DeviceId}
  {m : Moment} {p q : OpLogPullSocket H} {d d' : DrainState} {page : PullPage} {segs : List Segment} {audit : Bool}
  {now : ℤ}

/-- A cursor that lies in the live part of a stream, or none where nothing was compacted. -/
structure CursorFits (stream : RelayStreamState) (cursor : Option RelayCursor) : Prop where
  epoch : stream.epoch = zeroEpoch → stream.floor = 0
  within : ∀ c, cursor = some c → c.epoch = stream.epoch ∧ stream.floor ≤ c.after ∧ c.after ≤ stream.head
  fresh : cursor = none → stream.floor = 0

/-- A drain's locals fit a stream: so does its cursor, and a positional token is where the
cursor is. -/
structure StreamFits (stream : RelayStreamState) (d : DrainState) : Prop where
  cursor : CursorFits stream d.cursor
  backfill : ∀ n o k, d.resume = some ⟨.backfill, n, o, k⟩ → n = (d.cursor.map RelayCursor.after).getD 0

def DrainState.position (d : DrainState) (stream : RelayStreamState) : RelayCursor :=
  d.cursor.getD ⟨stream.epoch, 0⟩

/-- A page taken in from the position of a drain, nothing skipped. -/
abbrev DrainState.take (d : DrainState) (socket : MeshPullSocket) (p : OpLogPullSocket H) (peer : DeviceId)
    (page : PullPage) : PageOutcome H :=
  applyChannels p peer (d.position socket.relayStreamState) page false

theorem DrainState.position_after (d : DrainState) (stream : RelayStreamState) :
    (d.position stream).after = (d.cursor.map RelayCursor.after).getD 0 := by
  unfold position
  cases d.cursor <;> rfl

theorem position_of_cursor {next : ℕ} (hcur : d'.cursor = some ⟨socket.relayStreamState.epoch, next⟩) :
    (d'.position socket.relayStreamState).after = next := by
  rw [DrainState.position, hcur]
  rfl

variable {stream : RelayStreamState}

theorem CursorFits.position (h : CursorFits stream d.cursor) :
    (d.position stream).epoch = stream.epoch ∧ stream.floor ≤ (d.position stream).after ∧
      (d.position stream).after ≤ stream.head := by
  unfold DrainState.position
  cases hc : d.cursor with
  | none => exact ⟨rfl, (h.fresh hc).le, Nat.zero_le _⟩
  | some c => exact h.within c hc

/-- A cursor of the stream is live between the floor and the head. -/
theorem pullNeedsReset_own {after : ℕ} :
    pullNeedsReset stream.epoch after stream = false ↔
      (stream.epoch = zeroEpoch → stream.floor = 0) ∧ stream.floor ≤ after ∧ after ≤ stream.head := by
  simp [pullNeedsReset]

theorem pullNeedsReset_none : pullNeedsReset zeroEpoch 0 stream = false ↔ stream.floor = 0 := by
  simp only [pullNeedsReset, decide_eq_false_iff_not]
  constructor
  · intro h
    rw [not_or, not_and] at h
    exact Nat.eq_zero_of_not_pos (h.1 trivial)
  · intro h
    simp [h]

theorem CursorFits.live {cursor : Option RelayCursor} (h : CursorFits stream cursor) :
    pullNeedsReset ((cursor.map RelayCursor.epoch).getD zeroEpoch) ((cursor.map RelayCursor.after).getD 0) stream =
      false := by
  cases hc : cursor with
  | none => exact pullNeedsReset_none.2 (h.fresh hc)
  | some c =>
    obtain ⟨he, hbds⟩ := h.within c hc
    rw [map_some, getD_some, he]
    exact pullNeedsReset_own.2 ⟨h.epoch, hbds⟩

/-! ## One page -/

structure Answered (limits : PageLimits) (socket : MeshPullSocket) (arrivals : List (ℕ × SignedOp))
    (p : OpLogPullSocket H) (d : DrainState) (audit : Bool) (now : ℤ) (page : PullPage) (segs : List Segment) :
    Prop where
  serves : ServesStream socket arrivals
  fits : StreamFits socket.relayStreamState d
  data : DataPage socket.relayStreamState page
  keyed : page.keyed = segmentEntries segs
  shape : StreamPage limits socket arrivals (drainRequest limits p d audit now) page segs

theorem drainStep_data (peer : DeviceId) (p : OpLogPullSocket H) (hsrv : ServesStream socket arrivals)
    (hlive : pullNeedsReset ((d.cursor.map RelayCursor.epoch).getD zeroEpoch)
      ((d.cursor.map RelayCursor.after).getD 0) socket.relayStreamState = false)
    (hm : m.answer = serveSocket limits socket) (audit skip : Bool) :
    ∃ page segs, DataPage socket.relayStreamState page ∧ page.keyed = segmentEntries segs ∧
      StreamPage limits socket arrivals (drainRequest limits p d audit m.now) page segs ∧
      drainStep limits peer audit skip m p d = drainApply limits peer skip m p d page := by
  obtain ⟨page, segs, hok, hdata, hkey, hshp⟩ :=
    servePull_stream hsrv limits (drainRequest limits p d audit m.now) rfl rfl hlive
  refine ⟨page, segs, hdata, hkey, hshp, ?_⟩
  have hans : m.answer (drainRequest limits p d audit m.now) = .page page := by rw [hm, serveSocket, hok]
  simp only [drainStep, hans, hdata.epoch, hdata.snapshotRecommended, hdata.reset, Bool.false_eq_true, if_false]

theorem drainStep_stream (peer : DeviceId) (p : OpLogPullSocket H) (hsrv : ServesStream socket arrivals)
    (hfits : StreamFits socket.relayStreamState d) (hm : m.answer = serveSocket limits socket)
    (audit skip : Bool) :
    ∃ page segs, Answered limits socket arrivals p d audit m.now page segs ∧
      drainStep limits peer audit skip m p d = drainApply limits peer skip m p d page := by
  obtain ⟨page, segs, hdata, hkey, hshp, hstep⟩ :=
    drainStep_data peer p hsrv hfits.cursor.live hm audit skip
  exact ⟨page, segs, ⟨hsrv, hfits, hdata, hkey, hshp⟩, hstep⟩

namespace Answered

variable (h : Answered limits socket arrivals p d audit now page segs)
include h

theorem scan : ScanTo arrivals p.coverage (d.position socket.relayStreamState).after page := by
  obtain ⟨start, hstart, hscan⟩ := h.shape.scan
  rw [DrainState.position_after]
  rcases hstart with rfl | ⟨o, key, hres⟩
  · exact hscan
  · rw [← h.fits.backfill start o key hres]
    exact hscan

theorem next_bounds : (d.position socket.relayStreamState).after ≤ page.nextRelaySeq ∧
    page.nextRelaySeq ≤ socket.relayStreamState.head := by
  refine ⟨h.scan.start_le, ?_⟩
  rcases h.scan.reached with heq | ⟨-, e, he, heq⟩
  · exact heq ▸ h.fits.cursor.position.2.2
  · exact heq ▸ (h.serves.within e he).2

omit h in
theorem mem_scanned {e : ℕ × SignedOp} :
    e ∈ scanned arrivals p.coverage (d.position socket.relayStreamState).after page.nextRelaySeq ↔
      e ∈ arrivals ∧ ((d.position socket.relayStreamState).after < e.1 ∧ e.1 ≤ page.nextRelaySeq) ∧
        p.coverage.covers e.2.orderKey = true := by
  rw [scanned, List.mem_filter, Bool.and_eq_true, decide_eq_true_eq]

theorem mem_segment {s : Segment} (hs : s ∈ segs) {op : SignedOp} (hop : op ∈ s.2) : ∃ e ∈ arrivals, e.2 = op := by
  obtain ⟨-, n, hn⟩ := h.shape.segment hs
  rw [hn] at hop
  exact List.mem_map.1 (mem_originShare.1 (List.mem_of_mem_take hop)).1

theorem applyPullPage_position (peer : DeviceId) (skip : Bool) :
    applyPullPage p peer d.cursor page skip =
      applyChannels p peer (d.position socket.relayStreamState) page skip := by
  unfold applyPullPage DrainState.position
  rw [h.data.epoch]
  cases hc : d.cursor with
  | none => rfl
  | some c => exact if_pos (h.fits.cursor.within c hc).1

/-- With every signer known, nothing is skipped. -/
theorem applyPullPage_eq (peer : DeviceId) (hreg : ∀ e ∈ arrivals, (p.registry.keyFor e.2.body.device).isSome)
    (skip : Bool) :
    applyPullPage p peer d.cursor page skip =
      d.take socket p peer page := by
  rw [h.applyPullPage_position]
  refine applyChannels_registered h.scan.backfill h.keyed (h.shape.sorted h.serves) (h.shape.visit h.serves)
    (fun e he => hreg e (mem_scanned.1 he).1) (fun s hs op hop => ?_) skip
  obtain ⟨e, he, rfl⟩ := h.mem_segment hs hop
  exact hreg e he

/-- A page that went through is held as a whole, its claims cover its keyed ops, and the
drain's cursor is where the page ended. -/
theorem outcome {n : ℕ} (hq : p.after (d.take socket p peer page).effects = q)
    (hok : (d.take socket p peer page).result = .ok n) :
    (d.take socket p peer page).cursor =
      some ⟨socket.relayStreamState.epoch, page.nextRelaySeq⟩ ∧
    (∀ e ∈ arrivals, (d.position socket.relayStreamState).after < e.1 → e.1 ≤ page.nextRelaySeq →
      p.coverage.covers e.2.orderKey = true → q.log.contains e.2.id = true) ∧
    ∀ s ∈ segs, ∀ op ∈ s.2, q.log.contains op.id = true ∧ q.coverage.covers op.orderKey = true := by
  obtain ⟨hcur, -, hents, hsegs⟩ := applyChannels_ok h.scan.backfill
    (fun e he => (mem_scanned.1 he).2.1.2) h.keyed (h.shape.sorted h.serves) (h.shape.visit h.serves) hq hok
  rw [h.fits.cursor.position.1, max_eq_right h.next_bounds.1] at hcur
  exact ⟨hcur, fun e he h1 h2 hc => hents e (mem_scanned.2 ⟨he, ⟨h1, h2⟩, hc⟩), hsegs⟩

theorem cursor_after : CursorFits socket.relayStreamState
    (some ⟨socket.relayStreamState.epoch, page.nextRelaySeq⟩) := by
  refine ⟨h.fits.cursor.epoch, fun c hc => ?_, nofun⟩
  obtain rfl := some.inj hc
  exact ⟨rfl, h.fits.cursor.position.2.1.trans h.next_bounds.1, h.next_bounds.2⟩

theorem fits_after (hcur : d'.cursor = some ⟨socket.relayStreamState.epoch, page.nextRelaySeq⟩)
    (hres : d'.resume = none ∨ d'.resume = page.resume) : StreamFits socket.relayStreamState d' := by
  refine ⟨hcur ▸ h.cursor_after, fun n o k hr => ?_⟩
  rw [hcur]
  rcases hres with hres | hres
  · rw [hres] at hr
    cases hr
  · rw [hres] at hr
    cases h.shape with
    | cut segs r keyed hr' =>
      rw [hr'] at hr
      obtain rfl := some.inj hr
      obtain ⟨s, -, htok, -⟩ := keyed.served.resume
      cases htok
    | full segs keyed hscan hends => exact congrArg Resume.afterSeq (hends.resume _ hr).1
    | backfill n' o' key' hph hscan hends => exact congrArg Resume.afterSeq (hends.resume _ hr).1

end Answered

/-! ## Previews -/

theorem previewResumeAfter_gt {cursorAfter headSeq : ℕ} (prev : Option ℕ)
    (hgap : newestFirstPreviewGap limits < headSeq - cursorAfter) :
    cursorAfter < previewResumeAfter limits prev headSeq := by
  unfold newestFirstPreviewGap at hgap
  unfold previewResumeAfter
  cases hf : prev.filter fun after => decide (after ≤ headSeq ∧ headSeq - after ≤ limits.pageLimitMax) with
  | none =>
    rw [getD_none]
    omega
  | some after =>
    obtain ⟨-, hbds⟩ := filter_eq_some_iff.1 hf
    rw [decide_eq_true_eq] at hbds
    rw [getD_some]
    omega

theorem drainPreview_behind (limits : PageLimits) (peer : DeviceId) (m : Moment) (p : OpLogPullSocket H)
    (d : DrainState) (page : PullPage) :
    (drainPreview limits peer m p d page).1 = [] ∨
      ∃ afterSeq, (d.cursor.map RelayCursor.after).getD 0 < afterSeq ∧ (drainPreview limits peer m p d page).1 =
        (previewHeadWindow limits m.preview p peer d.cursor afterSeq m.now).1 := by
  unfold drainPreview
  dsimp only
  split_ifs with hdue hgap
  · exact .inr ⟨_, previewResumeAfter_gt d.previewAfter hgap, rfl⟩
  · exact .inl rfl
  · exact .inl rfl

/-- A preview of the node admits stored arrivals from behind the cursor. -/
theorem drainPreview_stream (peer : DeviceId) (p : OpLogPullSocket H) (page : PullPage)
    (hsrv : ServesStream socket arrivals) (hcur : CursorFits socket.relayStreamState d.cursor)
    (hm : m.preview = serveSocket limits socket) :
    (drainPreview limits peer m p d page).1 = [] ∨
      ∃ ops, (drainPreview limits peer m p d page).1 = (p.admitOps ops false).effects ∧
        ∀ op ∈ ops, ∃ e ∈ arrivals, e.2 = op ∧ (d.cursor.map RelayCursor.after).getD 0 < e.1 := by
  rcases drainPreview_behind limits peer m p d page with hnone | ⟨afterSeq, hlt, heffects⟩
  · exact .inl hnone
  rw [heffects]
  rcases previewHeadWindow_effects limits m.preview p peer d.cursor afterSeq m.now with
    hnone | ⟨page', ops, hask, -, hops, he⟩
  · exact .inl hnone
  refine .inr ⟨ops, he, fun op hop => ?_⟩
  obtain ⟨page'', segs, hok, -, -, hshp⟩ :=
    servePull_stream hsrv limits (previewRequest limits p d.cursor afterSeq m.now) rfl rfl hcur.live
  rw [hm, serveSocket, hok] at hask
  obtain rfl := PullAnswer.page.inj hask
  cases hshp with
  | cut segs r keyed => exact absurd rfl (keyed.phase afterSeq none none)
  | full segs keyed => exact absurd rfl (keyed.phase afterSeq none none)
  | backfill n o key hph hscan =>
    obtain rfl : afterSeq = n := congrArg Resume.afterSeq (some.inj hph)
    rw [hscan.backfill] at hops
    obtain rfl := List.eq_of_mapM_map_ok (g := Prod.snd) hops fun _ _ _ hop => (decodePageOp_ok hop).1
    obtain ⟨e, he, rfl⟩ := List.mem_map.1 hop
    rw [scanned, List.mem_filter, Bool.and_eq_true, decide_eq_true_eq] at he
    exact ⟨e, he.1, rfl, hlt.trans he.2.1.1⟩

/-! ## One request -/

structure Advanced (socket : MeshPullSocket) (d : DrainState) (page : PullPage) (d₂ : DrainState) : Prop where
  cursor : d₂.cursor = some ⟨socket.relayStreamState.epoch, page.nextRelaySeq⟩
  lastProgress : d₂.lastProgress = d.lastProgress
  stalled : d₂.stalled = d.stalled

def PreviewOps (arrivals : List (ℕ × SignedOp)) (q : OpLogPullSocket H) (page : PullPage)
    (quiet : List (Effect H)) :
    Prop :=
  quiet = [] ∨ ∃ ops, quiet = (q.admitOps ops false).effects ∧
    ∀ op ∈ ops, ∃ e ∈ arrivals, e.2 = op ∧ page.nextRelaySeq < e.1

namespace Answered

variable (h : Answered limits socket arrivals p d audit now page segs)
include h

/-- A page that goes through is followed by a preview and the drain's next turn. -/
theorem apply_ok (hm : m.preview = serveSocket limits socket)
    (hreg : ∀ e ∈ arrivals, (p.registry.keyFor e.2.body.device).isSome) {n : ℕ}
    (hq : p.after (d.take socket p peer page).effects = q)
    (hok : (d.take socket p peer page).result = .ok n) (skip : Bool) :
    ∃ d₂ quiet, drainApply limits peer skip m p d page =
        ((d.take socket p peer page).effects ++ quiet,
          drainAdvance peer d₂ page d.resume.isSome) ∧
      Advanced socket d page d₂ ∧ PreviewOps arrivals q page quiet := by
  have happ := h.applyPullPage_eq peer hreg skip
  obtain ⟨hcursor, -, -⟩ := h.outcome hq hok
  obtain ⟨d₁, hd₁⟩ : ∃ d₁, { d with cursor := (applyPullPage p peer d.cursor page skip).cursor,
                                     total := d.total + n, pages := d.pages + 1 } = d₁ := ⟨_, rfl⟩
  obtain ⟨lp, pa, hstep⟩ := drainApply_ok limits m (happ ▸ hok) (happ ▸ hq) hd₁
  have hcur₁ : d₁.cursor = some ⟨socket.relayStreamState.epoch, page.nextRelaySeq⟩ := by
    rw [← hd₁, happ]
    exact hcursor
  refine ⟨{ d₁ with lastPreview := lp, previewAfter := pa }, (drainPreview limits peer m q d₁ page).1, ?_,
    ⟨hcur₁, by rw [← hd₁], by rw [← hd₁]⟩, ?_⟩
  · rw [hstep, happ]
  · have hpre := drainPreview_stream peer q page h.serves (hcur₁ ▸ h.cursor_after) hm
    rw [hcur₁] at hpre
    exact hpre

theorem welcome {calm : H.Clock → Prop} (peer : DeviceId) (hrdy : Ready calm p)
    (hw : ∀ e ∈ arrivals, Welcome calm p.registry e.2) :
    (∃ n, (d.take socket p peer page).result = .ok n) ∧
      Ready calm (p.after (d.take socket p peer page).effects) := by
  have hadv : Advancing (d.position socket.relayStreamState).after
      (scanned arrivals p.coverage (d.position socket.relayStreamState).after page.nextRelaySeq) :=
    ⟨fun e he => (mem_scanned.1 he).2.1.1, h.serves.numbered.filter _⟩
  refine applyChannels_welcome peer hrdy h.scan.backfill hadv h.keyed (h.shape.sorted h.serves)
    (h.shape.visit h.serves) (fun e he => hw e (mem_scanned.1 he).1) fun s hs op hop => ?_
  obtain ⟨e, he, rfl⟩ := h.mem_segment hs hop
  exact hw e he

end Answered

variable {calm : H.Clock → Prop}

theorem Welcome.registered {registry : DeviceRegistry H.crypto} {op : SignedOp} (h : Welcome calm registry op) :
    (registry.keyFor op.body.device).isSome = true := by
  obtain ⟨key, hk, -⟩ := h.signed
  rw [hk]
  rfl

theorem PreviewOps.ready {quiet : List (Effect H)} (h : PreviewOps arrivals q page quiet) (hrdy : Ready calm q)
    (hw : ∀ e ∈ arrivals, Welcome calm q.registry e.2) : Ready calm (q.after quiet) := by
  rcases h with rfl | ⟨ops, rfl, hops⟩
  · exact hrdy
  · refine (admitOps_welcome hrdy fun op hop => ?_).2
    obtain ⟨e, he, rfl, -⟩ := hops op hop
    exact hw e he

/-- One request of a drain in step, where every stored op is welcome. -/
theorem drainStep_welcome (peer : DeviceId) (hsrv : ServesStream socket arrivals)
    (hfits : StreamFits socket.relayStreamState d) (hanswer : m.answer = serveSocket limits socket)
    (hpre : m.preview = serveSocket limits socket) (hrdy : Ready calm p)
    (hw : ∀ e ∈ arrivals, Welcome calm p.registry e.2) (audit skip : Bool) :
    ∃ page segs d₂ es, Answered limits socket arrivals p d audit m.now page segs ∧
      drainStep limits peer audit skip m p d = (es, drainAdvance peer d₂ page d.resume.isSome) ∧
      Advanced socket d page d₂ ∧ Ready calm (p.after es) := by
  obtain ⟨page, segs, hans, hstep⟩ := drainStep_stream peer p hsrv hfits hanswer audit skip
  obtain ⟨⟨n, hok⟩, hq⟩ := hans.welcome peer hrdy hw
  obtain ⟨d₂, quiet, happ, hd₂, hqui⟩ :=
    hans.apply_ok hpre (fun e he => (hw e he).registered) rfl hok skip
  refine ⟨page, segs, d₂, _, hans, hstep.trans happ, hd₂, ?_⟩
  rw [after_append]
  refine hqui.ready hq fun e he => ?_
  rw [after_registry]
  exact hw e he

end ProxyNode
