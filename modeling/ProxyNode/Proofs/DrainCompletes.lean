import Mathlib.Data.Finset.Card
import ProxyNode.Sanity.Acceptance
import ProxyNode.Sanity.Drain

/-! A drain over a single link. While nothing refuses the server's ops, each incomplete
page raises a claim or moves the cursor, so the drain ends with a complete fresh page,
and by then the puller holds everything that page's log held. -/

namespace ProxyNode

open OpLogPullSocket List Option OpLog

variable {H : Host} {limits : PageLimits} {peer : DeviceId} {p q : OpLogPullSocket H} {d : DrainState}
  {log : OpLog} {page : PullPage} {segs : List Segment}

/-! ## What a page that went through leaves -/

section Page

variable {now : ℤ} {n : ℕ}

/-- Keys served above the claim were not covered by it. -/
theorem served_uncovered {s : Segment}
    (hshp : ServedPage (.atomic log) peer (drainRequest limits p d false now) page segs) (hs : s ∈ segs)
    {op : SignedOp} (hop : op ∈ s.2) : p.coverage.covers op.orderKey = false := by
  obtain ⟨-, n, hn⟩ := hshp.segment hs
  rw [hn] at hop
  obtain ⟨-, hdev, hgt⟩ := mem_originOps.1 (mem_of_mem_take hop)
  rw [← Bool.not_eq_true, CoverageVector.covers_iff]
  rintro ⟨claim, hclaim, hle⟩
  rw [SignedOp.orderKey_device, hdev] at hclaim
  obtain ⟨b, hb, hcb⟩ := claim_le_readAfter d.resume hclaim
  exact absurd (hgt b hb) (not_lt.2 (hle.trans hcb))

/-- A complete page of a fresh exchange brings everything its log holds. -/
theorem held_of_complete (hresm : d.resume = none)
    (hkept : Kept (· ∈ log.arrivals.take (d.current log).after) p)
    (hshp : ServedPage (.atomic log) peer (drainRequest limits p d false now) page segs)
    (hdone : page.resume = none) (hkey : page.keyed = segmentEntries segs)
    (hq : p.after (applyChannels p peer (d.current log) page false).effects = q)
    (hok : (applyChannels p peer (d.current log) page false).result = .ok n) :
    ∀ op ∈ log.arrivals, q.log.contains op.id = true := by
  have hsrt := hshp.sorted
  have hvis := hshp.visit
  intro op hop
  cases hshp with
  | cut segs r hr => rw [hdone] at hr; cases hr
  | backfill k n o key hph =>
    change d.resume = _ at hph
    rw [hresm] at hph
    cases hph
  | full segs k hph hsvd hscan =>
    have hstart : (drainRequest limits p d false now).relayAfter = (d.current log).after :=
      (d.current_after log).symm
    rw [hstart] at hscan
    obtain ⟨-, -, hents, hsegs⟩ := applyChannels_ok hscan.backfill
      (fun e he => hscan.next ▸ coveredArrivals_le he) hkey hsrt hvis hq hok
    cases hc : p.coverage.covers op.orderKey with
    | true =>
      obtain ⟨i, hi, rfl⟩ := mem_iff_getElem.1 hop
      by_cases his : i < (d.current log).after
      · rw [← hq]
        exact (after_log_extends _ _).contains (hkept _ (mem_take_iff_getElem.2 ⟨i, by omega, rfl⟩) hc)
      · have hall := hscan.complete hdone
        change k = (log.arrivals.drop (d.current log).after).length at hall
        refine hents (i + 1, log.arrivals[i])
          (mem_coveredArrivals.2 ⟨i - (d.current log).after, ?_, by dsimp only; omega, hc⟩)
        change ((log.arrivals.drop (d.current log).after).take k)[i - (d.current log).after]? = _
        rw [hall, take_length, getElem?_drop, Nat.add_sub_cancel' (not_lt.1 his),
          getElem?_eq_getElem hi]
    | false =>
      change Served (fun o => log.originOps o (readAfter p.coverage false d.resume o))
        (visitOrder ((PageReads.atomic log).serveState peer) d.resume) segs none at hsvd
      rw [hresm] at hsvd
      obtain ⟨s, hs, hmem⟩ := served_fresh hsvd hop hc
      exact (hsegs s hs op hmem).1

end Page

/-! ## Previews -/

variable {calm : H.Clock → Prop} {m : Moment}

theorem mapM_decodePageOp {l : List (ℕ × SignedOp)} {ops : List SignedOp}
    (h : (backfillEntries l).mapM (fun e => decodePageOp e.2 peer) = .ok ops) : ops = l.map Prod.snd :=
  eq_of_mapM_map_ok h fun _ _ _ hop => (decodePageOp_ok hop).1

/-- A preview of an honest node admits welcome ops only. -/
theorem drainPreview_ready (h : Ready calm p) (hm : m.preview = serveLog limits peer log)
    (hcur : ∀ c, d.cursor = some c → c.epoch = log.relayEpoch ∧ c.after ≤ log.arrivals.length)
    (hw : ∀ op ∈ log.arrivals, Welcome calm p.registry op) :
    Ready calm (p.after (drainPreview limits peer m p d page).1) := by
  rcases (drainPreview_spec limits peer m p d page).1 with he | ⟨cursor, afterSeq, he, rfl⟩
  · rw [he]
    exact h
  rw [he]
  rcases previewHeadWindow_effects limits m.preview p peer d.cursor afterSeq m.now with
    he | ⟨page', ops, hask, -, hops, he⟩
  · rw [he]
    exact h
  rw [he]
  obtain ⟨page'', segs, hok, -, -, hshp⟩ := servePull_spec limits (.atomic log) peer
    (previewRequest limits p d.cursor afterSeq m.now) rfl rfl (pullNeedsReset_within hcur)
  rw [hm, serveLog, hok] at hask
  obtain rfl := PullAnswer.page.inj hask
  obtain ⟨start, k, -, -, -, hback⟩ := hshp.scan
  rw [hback] at hops
  refine (admitOps_welcome h fun op hop => hw op ?_).2
  obtain ⟨e, he, rfl⟩ := mem_map.1 (mapM_decodePageOp hops ▸ hop)
  obtain ⟨i, hi, -⟩ := mem_coveredArrivals.1 he
  exact mem_of_mem_drop (mem_of_mem_take (mem_of_getElem? hi))

/-! ## The invariant and the measure -/

/-- A drain on its way: its locals fit the log, everything below its cursor is kept, and
the last progress it noted lies behind it. -/
structure Draining (calm : H.Clock → Prop) (log : OpLog) (p : OpLogPullSocket H) (d : DrainState) :
    Prop where
  cursor : ∀ c, d.cursor = some c → c.epoch = log.relayEpoch ∧ c.after ≤ log.arrivals.length
  resume : ResumeCovered p.coverage d.resume
  backfill : ∀ n o k, d.resume = some ⟨.backfill, n, o, k⟩ → n = (d.cursor.map RelayCursor.after).getD 0
  kept : Kept (· ∈ log.arrivals.take ((d.cursor.map RelayCursor.after).getD 0)) p
  last : ∀ a r, d.lastProgress = some (a, r) →
    a ≤ (d.cursor.map RelayCursor.after).getD 0 ∧ ResumeCovered p.coverage r
  ready : Ready calm p

theorem Draining.fits (h : Draining calm log p d) : DrainFits log p d :=
  ⟨h.cursor, h.resume, fun n o k hr => (h.backfill n o k hr).le⟩

def uncovered (log : OpLog) (p : OpLogPullSocket H) : Finset SignedOp :=
  log.arrivals.toFinset.filter fun op => p.coverage.covers op.orderKey = false

theorem mem_uncovered {op : SignedOp} :
    op ∈ uncovered log p ↔ op ∈ log.arrivals ∧ p.coverage.covers op.orderKey = false := by
  rw [uncovered, Finset.mem_filter, List.mem_toFinset]

theorem uncovered_after (es : List (Effect H)) : uncovered log (p.after es) ⊆ uncovered log p := by
  intro op hop
  obtain ⟨h1, h2⟩ := mem_uncovered.1 hop
  refine mem_uncovered.2 ⟨h1, ?_⟩
  cases hc : p.coverage.covers op.orderKey with
  | false => rfl
  | true => rw [after_covers hc es] at h2; cases h2

/-- What a drain still has to do: claims to raise, arrivals to scan, and the fresh
exchange behind a resumed one. -/
def debt (final : OpLog) (p : OpLogPullSocket H) (d : DrainState) : ℕ :=
  2 * ((uncovered final p).card + (final.arrivals.length - (d.cursor.map RelayCursor.after).getD 0)) +
    if d.resume.isSome then 1 else 0

/-! ## One request -/

/-- A data page of `log` that the puller has taken as a whole, ending in `q`. -/
structure Taken (calm : H.Clock → Prop) (limits : PageLimits) (peer : DeviceId) (log : OpLog)
    (p : OpLogPullSocket H) (d : DrainState) (now : ℤ) (page : PullPage) (segs : List Segment)
    (q : OpLogPullSocket H) : Prop where
  data : DataPage log.relayState page
  shape : ServedPage (.atomic log) peer (drainRequest limits p d false now) page segs
  next : (d.cursor.map RelayCursor.after).getD 0 ≤ page.nextRelaySeq
  bound : page.nextRelaySeq ≤ log.arrivals.length
  grown : ∃ es, p.after es = q
  kept : Kept (· ∈ log.arrivals.take page.nextRelaySeq) q
  covered : ∀ s ∈ segs, ∀ op ∈ s.2, q.coverage.covers op.orderKey = true
  held : d.resume = none → page.resume = none → ∀ op ∈ log.arrivals, q.log.contains op.id = true
  ready : Ready calm q

theorem Draining.scan_start (h : Draining calm log p d) {now : ℤ} {start : ℕ}
    (hstart : start = (drainRequest limits p d false now).relayAfter ∨
      ∃ o key, (drainRequest limits p d false now).resume = some ⟨.backfill, start, o, key⟩) :
    start = (d.cursor.map RelayCursor.after).getD 0 := by
  rcases hstart with rfl | ⟨o, key, hres⟩
  · rfl
  · exact h.backfill start o key hres

/-- The page an honest node answers with is taken as a whole. -/
theorem Draining.taken (h : Draining calm log p d) (hm : m.answer = serveLog limits peer log)
    (hw : ∀ op ∈ log.arrivals, Welcome calm p.registry op) (skip : Bool) :
    ∃ page segs n q, Taken calm limits peer log p d m.now page segs q ∧
      drainStep limits peer false skip m p d = drainApply limits peer skip m p d page ∧
      (applyPullPage p peer d.cursor page skip).result = .ok n ∧
      (applyPullPage p peer d.cursor page skip).cursor = some ⟨log.relayEpoch, page.nextRelaySeq⟩ ∧
      p.after (applyPullPage p peer d.cursor page skip).effects = q := by
  obtain ⟨page, segs, hdata, hkey, hshp, hstep⟩ := drainStep_honest h.fits hm false skip
  obtain ⟨start, k, hstart, hnext, -, hback⟩ := hshp.scan
  obtain rfl := h.scan_start hstart
  rw [← d.current_after log] at hnext hback
  change page.backfill = backfillEntries (coveredArrivals p.coverage
    ((log.arrivals.drop (d.current log).after).take k) (d.current log).after) at hback
  have hle : ∀ e ∈ coveredArrivals p.coverage ((log.arrivals.drop (d.current log).after).take k)
      (d.current log).after, e.1 ≤ page.nextRelaySeq := fun e he => hnext ▸ coveredArrivals_le he
  have hwb : ∀ e ∈ coveredArrivals p.coverage ((log.arrivals.drop (d.current log).after).take k)
      (d.current log).after, Welcome calm p.registry e.2 := by
    intro e he
    obtain ⟨i, hi, -⟩ := mem_coveredArrivals.1 he
    exact hw e.2 (mem_of_mem_drop (mem_of_mem_take (mem_of_getElem? hi)))
  have hwk : ∀ s ∈ segs, ∀ op ∈ s.2, Welcome calm p.registry op := by
    intro s hs op hop
    obtain ⟨-, n, hn⟩ := hshp.segment hs
    rw [hn] at hop
    exact hw op (mem_originOps.1 (mem_of_mem_take hop)).1
  have hreg : ∀ op, Welcome calm p.registry op → (p.registry.keyFor op.body.device).isSome := by
    intro op hop
    obtain ⟨key, hk, -⟩ := hop.signed
    rw [hk]
    rfl
  have happ : applyPullPage p peer d.cursor page skip =
      applyChannels p peer (d.current log) page false := by
    rw [applyPullPage_fits h.fits hdata]
    exact applyChannels_registered hback hkey hshp.sorted hshp.visit
      (fun e he => hreg _ (hwb e he)) (fun s hs op hop => hreg _ (hwk s hs op hop)) skip
  obtain ⟨⟨n, hok⟩, hrdy⟩ := applyChannels_welcome peer h.ready hback
    (coveredArrivals_advancing _ _ _) hkey hshp.sorted hshp.visit hwb hwk
  obtain ⟨hcur, -, -, hsegs⟩ := applyChannels_ok hback hle hkey hshp.sorted hshp.visit rfl hok
  have hmax : max (d.current log).after page.nextRelaySeq = page.nextRelaySeq :=
    max_eq_right (hnext ▸ Nat.le_add_right _ _)
  have hkept := h.kept
  rw [← d.current_after log] at hkept
  rw [hmax, h.fits.current.1] at hcur
  refine ⟨page, segs, n, _, ?_, hstep, by rw [happ, hok], by rw [happ, hcur], by rw [happ]⟩
  exact {
    data := hdata
    shape := hshp
    next := by rw [← d.current_after log, hnext]; exact Nat.le_add_right _ _
    bound := PageShape.next_le h.fits hshp
    grown := ⟨_, rfl⟩
    kept := hmax ▸ kept_of_page h.fits hkept hshp hkey
      (fun x hx _ _ _ _ _ _ _ _ => ⟨x, hx, rfl⟩) rfl hok
    covered := fun s hs op hop => (hsegs s hs op hop).2
    held := fun hr hdone => held_of_complete hr hkept hshp hdone hkey rfl hok
    ready := hrdy }

section Taken

variable {now : ℤ} {log' final : OpLog} {quiet : List (Effect H)} {d' : DrainState}

variable {r : Resume}

section Turn

variable (ht : Taken calm limits peer log p d now page segs q)
include ht

/-- The incomplete pages: a claim reached an op it did not cover, or the cursor moved. -/
theorem Taken.progress (h : Draining calm log p d) (hr : page.resume = some r) :
    (∃ op ∈ log.arrivals, p.coverage.covers op.orderKey = false ∧ q.coverage.covers op.orderKey = true ∧
      r = keyedResume op.orderKey.device (some op.orderKey)) ∨
    (r = backfillResume page.nextRelaySeq ∧
      (d.cursor.map RelayCursor.after).getD 0 < page.nextRelaySeq) := by
  rcases ht.shape.resume hr with ⟨s, hs, rfl, hne⟩ | ⟨rfl, start, hlt, hstart⟩
  · obtain ⟨op, hlast⟩ : ∃ op, s.2.getLast? = some op := ne_none_iff_exists'.1 (by simpa using hne)
    have hop : op ∈ s.2 := mem_of_getLast? hlast
    refine .inl ⟨op, ?_, served_uncovered ht.shape hs hop, ht.covered s hs op hop, ?_⟩
    · obtain ⟨-, n, hn⟩ := ht.shape.segment hs
      rw [hn] at hop
      exact (mem_originOps.1 (mem_of_mem_take hop)).1
    · rw [lastKeyOf, hlast, (ht.shape.sorted s hs).1 op hop]
      rfl
  · exact .inr ⟨rfl, h.scan_start hstart ▸ hlt⟩

/-- The next state of a drain: quiet effects, a cursor at the end of the page, and a token
that is gone or the page's own. -/
theorem Taken.draining (h : Draining calm log p d) (hq : ∀ e ∈ quiet, e.Quiet)
    (hrdy : Ready calm (q.after quiet)) (hext : log.Extends log')
    (hcur : d'.cursor = some ⟨log.relayEpoch, page.nextRelaySeq⟩)
    (hres : d'.resume = none ∨ d'.resume = page.resume)
    (hlast : d'.lastProgress = d.lastProgress ∨ d'.lastProgress = some (page.nextRelaySeq, page.resume)) :
    Draining calm log' (q.after quiet) d' := by
  have hcov := (OpLogPullSocket.after_quiet (p := q) hq).1
  have htok := ht.shape.resumeCovered ht.covered
  have haft : (d'.cursor.map RelayCursor.after).getD 0 = page.nextRelaySeq := by rw [hcur]; rfl
  obtain ⟨es, rfl⟩ := ht.grown
  constructor
  · intro c hc
    obtain rfl := some.inj (hcur.symm.trans hc)
    exact ⟨hext.epoch.symm, ht.bound.trans hext.arrivals.length_le⟩
  · rw [hcov]
    rcases hres with hr | hr
    · rw [hr]
      exact nofun
    · rw [hr]
      exact htok
  · intro n o k hr
    rw [haft]
    rcases hres with hr' | hr'
    · rw [hr'] at hr
      cases hr
    · rw [hr'] at hr
      rcases ht.shape.resume hr with ⟨s, -, hs, -⟩ | ⟨hs, -⟩
      · cases hs
      · exact congrArg Resume.afterSeq hs
  · rw [haft, hext.take ht.bound]
    exact ht.kept.after_quiet hq
  · intro a r hl
    rw [haft, hcov]
    rcases hlast with h' | h'
    · obtain ⟨ha, hr⟩ := h.last a r (h' ▸ hl)
      refine ⟨ha.trans ht.next, fun r' o k hr' ho hk => ?_⟩
      obtain ⟨h1, h2⟩ := hr r' o k hr' ho hk
      exact ⟨h1, after_covers h2 es⟩
    · obtain ⟨rfl, rfl⟩ := Prod.mk.inj (some.inj (h'.symm.trans hl))
      exact ⟨le_rfl, htok⟩
  · exact hrdy

/-- The stall check never fires: the progress noted last lies behind this page. -/
theorem Taken.advanced (h : Draining calm log p d) (hr : page.resume = some r) :
    d.lastProgress ≠ some (page.nextRelaySeq, page.resume) := by
  intro hl
  obtain ⟨ha, hres⟩ := h.last _ _ hl
  rcases ht.progress h hr with ⟨op, -, hc, -, rfl⟩ | ⟨-, hlt⟩
  · rw [(hres _ _ _ hr rfl rfl).2] at hc
    cases hc
  · omega

theorem Taken.debt_le (final : OpLog) (quiet : List (Effect H))
    (hcur : d'.cursor = some ⟨log.relayEpoch, page.nextRelaySeq⟩) :
    (uncovered final (q.after quiet)).card + (final.arrivals.length - (d'.cursor.map RelayCursor.after).getD 0) ≤
      (uncovered final p).card + (final.arrivals.length - (d.cursor.map RelayCursor.after).getD 0) := by
  obtain ⟨es, rfl⟩ := ht.grown
  have hcard : (uncovered final ((p.after es).after quiet)).card ≤ (uncovered final p).card := by
    rw [← after_append]
    exact Finset.card_le_card (uncovered_after _)
  have hnext := ht.next
  rw [hcur, map_some, getD_some]
  dsimp only
  omega

theorem Taken.debt_lt (h : Draining calm log p d) (hq : ∀ e ∈ quiet, e.Quiet)
    (hcur : d'.cursor = some ⟨log.relayEpoch, page.nextRelaySeq⟩) (hfin : log.Extends final)
    (hr : page.resume = some r) :
    (uncovered final (q.after quiet)).card + (final.arrivals.length - (d'.cursor.map RelayCursor.after).getD 0) <
      (uncovered final p).card + (final.arrivals.length - (d.cursor.map RelayCursor.after).getD 0) := by
  have hcov := (OpLogPullSocket.after_quiet (p := q) hq).1
  have hnext := ht.next
  have hbd := ht.bound.trans hfin.arrivals.length_le
  have hprog := ht.progress h hr
  obtain ⟨es, rfl⟩ := ht.grown
  rw [hcur, map_some, getD_some]
  dsimp only
  rw [← after_append] at hcov ⊢
  rcases hprog with ⟨op, hop, hc, hc', -⟩ | ⟨-, hlt⟩
  · have hss : uncovered final (p.after (es ++ quiet)) ⊂ uncovered final p := by
      refine (Finset.ssubset_iff_of_subset (uncovered_after _)).2 ⟨op, ?_, fun hin => ?_⟩
      · exact mem_uncovered.2 ⟨hfin.arrivals.subset hop, hc⟩
      · have := (mem_uncovered.1 hin).2
        rw [hcov, hc'] at this
        cases this
    have := Finset.card_lt_card hss
    omega
  · have hsub : uncovered final (p.after (es ++ quiet)) ⊆ uncovered final p := uncovered_after _
    have := Finset.card_le_card hsub
    omega

end Turn

end Taken

/-- One request of a drain on its way: it ends with everything the log holds, or goes on
with less to do. -/
theorem Draining.step {plog log' final : OpLog} (h : Draining calm log p d)
    (hm : m.answer = serveLog limits peer log) (hpm : m.preview = serveLog limits peer plog)
    (h1 : log.Extends plog) (h2 : plog.Extends log') (hfin : log'.Extends final)
    (hw : ∀ op ∈ plog.arrivals, Welcome calm p.registry op) (skip : Bool) :
    (∃ es cursor n, drainStep limits peer false skip m p d = (es, .done cursor (.ok (.applied n))) ∧
      ∀ op ∈ log.arrivals, (p.after es).log.contains op.id = true) ∨
    ∃ es d', drainStep limits peer false skip m p d = (es, .again d') ∧
      Draining calm log' (p.after es) d' ∧ debt final (p.after es) d' < debt final p d := by
  obtain ⟨page, segs, n, q, ht, hstep, hok, hcursor, hq⟩ :=
    h.taken hm (fun op hop => hw op (h1.arrivals.subset hop)) skip
  obtain ⟨d₁, hd₁⟩ : ∃ d₁, { d with cursor := (applyPullPage p peer d.cursor page skip).cursor,
                                     total := d.total + n, pages := d.pages + 1 } = d₁ := ⟨_, rfl⟩
  obtain ⟨lp, pa, happ⟩ := drainApply_ok limits m hok hq hd₁
  have hcur₁ : d₁.cursor = some ⟨log.relayEpoch, page.nextRelaySeq⟩ := by rw [← hd₁]; exact hcursor
  obtain ⟨d₂, hd₂⟩ : ∃ d₂, { d₁ with lastPreview := lp, previewAfter := pa } = d₂ := ⟨_, rfl⟩
  have hcur₂ : d₂.cursor = some ⟨log.relayEpoch, page.nextRelaySeq⟩ := by rw [← hd₂]; exact hcur₁
  have hlast₂ : d₂.lastProgress = d.lastProgress := by rw [← hd₂, ← hd₁]
  rw [hstep, happ, hd₂]
  generalize hqui : (drainPreview limits peer m q d₁ page).1 = quiet
  have hqq : ∀ e ∈ quiet, e.Quiet := hqui ▸ drainPreview_quiet
  have hrdy : Ready calm (q.after quiet) := by
    rw [← hqui]
    refine drainPreview_ready ht.ready hpm (fun c hc => ?_) fun op hop => ?_
    · obtain rfl := some.inj (hcur₁.symm.trans hc)
      exact ⟨h1.epoch.symm, ht.bound.trans h1.arrivals.length_le⟩
    · rw [← hq, after_registry]
      exact hw op hop
  have haft : p.after ((applyPullPage p peer d.cursor page skip).effects ++ quiet) = q.after quiet := by
    rw [after_append, hq]
  have hext := h1.trans h2
  cases hcomp : page.resume with
  | none =>
    have hdone : page.complete = true := by rw [ht.data.complete, hcomp]; rfl
    cases hresm : d.resume with
    | none =>
      refine .inl ⟨_, _, _, Prod.ext rfl (drainAdvance_end hdone), fun op hop => ?_⟩
      rw [haft]
      exact (after_log_extends _ _).contains (ht.held hresm hcomp op hop)
    | some r =>
      refine .inr ⟨_, _, Prod.ext rfl (drainAdvance_fresh hdone), ?_⟩
      rw [haft]
      refine ⟨ht.draining h hqq hrdy hext hcur₂ (.inl rfl) (.inl hlast₂), ?_⟩
      · have hle := ht.debt_le final quiet hcur₂
        simp only [debt, hresm, isSome_none, isSome_some, Bool.false_eq_true, if_true,
          if_false]
        omega
  | some r =>
    have hdone : page.complete = false := by rw [ht.data.complete, hcomp]; rfl
    have hprog : pullProgress d₂.cursor page.resume = (page.nextRelaySeq, page.resume) := by
      rw [pullProgress, hcur₂]
      rfl
    have hne : d₂.lastProgress ≠ some (page.nextRelaySeq, page.resume) := hlast₂ ▸ ht.advanced h hcomp
    refine .inr ⟨_, _, Prod.ext rfl (drainAdvance_next hdone hprog hne _), ?_⟩
    rw [haft]
    refine ⟨ht.draining h hqq hrdy hext hcur₂ (.inr rfl) (.inr rfl), ?_⟩
    · have hlt := ht.debt_lt h hqq hcur₂ (hext.trans hfin) hcomp
      simp only [debt, hcomp, isSome_some, if_true]
      split_ifs <;> omega

/-! ## Whole drains -/

variable {world : ℕ → Moment} {skip : Bool} {es : List (Effect H)}

theorem drainPullPages_done {audit : Bool} {cursor : Option RelayCursor} {result : Except String PullOutcome}
    (h : drainStep limits peer audit skip (world 0) p d = (es, .done cursor result)) (fuel : ℕ) :
    drainPullPages limits peer audit skip (fuel + 1) world p d = some (p.after es, cursor, result) := by
  rw [drainPullPages, h]

theorem drainPullPages_again {audit : Bool} {d' : DrainState}
    (h : drainStep limits peer audit skip (world 0) p d = (es, .again d')) (fuel : ℕ) :
    drainPullPages limits peer audit skip (fuel + 1) world p d =
      drainPullPages limits peer audit skip fuel (fun i => world (i + 1)) (p.after es) d' := by
  rw [drainPullPages, h]

/-- The drain ends at its request `j`, in a state that holds what the node held then. -/
def EndsAt (limits : PageLimits) (peer : DeviceId) (skip : Bool) (world : ℕ → Moment) (logs : ℕ → OpLog)
    (p : OpLogPullSocket H) (d : DrainState) (j : ℕ) : Prop :=
  drainPullPages limits peer false skip j world p d = none ∧
  ∃ q cursor n, drainPullPages limits peer false skip (j + 1) world p d =
    some (q, cursor, .ok (.applied n)) ∧ ∀ op ∈ (logs j).arrivals, q.log.contains op.id = true

theorem EndsAt.again {logs : ℕ → OpLog} {d' : DrainState}
    (h : drainStep limits peer false skip (world 0) p d = (es, .again d')) {j : ℕ}
    (hj : EndsAt limits peer skip (fun i => world (i + 1)) (fun i => logs (i + 1)) (p.after es) d' j) :
    EndsAt limits peer skip world logs p d (j + 1) := by
  unfold EndsAt
  rw [drainPullPages_again h, drainPullPages_again h]
  exact hj

section Run

variable {final : OpLog}

theorem Draining.run (now : ℕ → ℕ) (logs previews : ℕ → OpLog) (h : Draining calm (logs 0) p d)
    (hgrow : ∀ i, (logs i).Extends (previews i) ∧ (previews i).Extends (logs (i + 1)))
    (hfin : ∀ i, (logs i).Extends final)
    (hw : ∀ i, ∀ op ∈ (previews i).arrivals, Welcome calm p.registry op) (skip : Bool) :
    ∃ j, EndsAt limits peer skip (honestWorld limits peer now logs previews) logs p d j := by
  induction hD : debt final p d using Nat.strong_induction_on generalizing p d now logs previews with
  | _ D ih =>
    subst hD
    rcases h.step (m := honestWorld limits peer now logs previews 0) rfl rfl (hgrow 0).1 (hgrow 0).2
      (hfin 1) (hw 0) skip with ⟨es, cursor, n, hstep, hheld⟩ | ⟨es, d', hstep, hnext, hlt⟩
    · exact ⟨0, rfl, _, cursor, n, drainPullPages_done hstep 0, hheld⟩
    · obtain ⟨j, hj⟩ := @ih _ hlt (p.after es) d' (fun i => now (i + 1)) (fun i => logs (i + 1))
        (fun i => previews (i + 1)) hnext (fun i => hgrow (i + 1)) (fun i => hfin (i + 1))
        (fun i op hop => by rw [after_registry]; exact hw (i + 1) op hop) rfl
      exact ⟨j + 1, EndsAt.again hstep hj⟩

end Run

theorem drainStep_reset {c : RelayCursor} (hm : m.answer = serveLog limits peer log)
    (hep : c.epoch = log.relayEpoch) (hlt : log.arrivals.length < c.after) (skip : Bool) :
    drainStep limits peer false skip m p (.start (some c)) =
      ([.resetRelayCursor peer ⟨log.relayEpoch, 0⟩],
        .again { DrainState.start (some ⟨log.relayEpoch, 0⟩) with resetSeen := true }) := by
  rw [length_arrivals] at hlt
  have hneeds : pullNeedsReset c.epoch c.after log.relayState = true := by
    simp [pullNeedsReset, relayState, hep, hlt]
  have hserve : servePull limits ((PageReads.atomic log).serveState peer)
      (drainRequest limits p (.start (some c)) false m.now) = .ok (resetPullPage log.relayState) := by
    simp only [servePull, admitPullAck, drainRequest, DrainState.start, map_some, getD_some,
      PageReads.serveState, PageReads.atomic, hneeds, if_true]
  have hval : validatePullReset (drainRequest limits p (.start (some c)) false m.now)
      (resetPullPage log.relayState) log.relayEpoch = .ok ⟨log.relayEpoch, 0⟩ := by
    rw [relayState] at hneeds
    simp [validatePullReset, resetPullPage, drainRequest, DrainState.start, relayState, hneeds]
  generalize hpage : resetPullPage log.relayState = page
  have hepoch : page.epoch = some log.relayEpoch := hpage ▸ rfl
  have hrst : page.reset = true := hpage ▸ rfl
  have hsnap : page.snapshotRecommended = false := hpage ▸ rfl
  rw [hpage] at hserve hval
  have hans : m.answer (drainRequest limits p (.start (some c)) false m.now) = .page page := by
    rw [hm, serveLog, hserve]
  have hseen : (DrainState.start (some c)).resetSeen = false := rfl
  simp only [drainStep, hans, hepoch, hsnap, hrst, drainReset, hval, hseen, Bool.false_eq_true, if_false,
    if_true]
  rfl

end ProxyNode
