import ProxyNode.Sanity.Acceptance
import ProxyNode.Sanity.Drain
import ProxyNode.Sanity.PageRoom

/-! Pages built while the log grows. The scan of a page judges an arrival by the claims of
the request, but the keyed part of the same page raises those claims: an op that arrived
between its origin's read and the scan, with a key below one the read returned, is passed
by both. Without such an op every page is safe, whatever its limits. -/

namespace ProxyNode

open OpLogPullSocket List OpLog

variable {H : Host} {reads : PageReads} {own : DeviceId} {p : OpLogPullSocket H} {d : DrainState}

/-- The reads of one page, in the order they are made: the log only grows between them. -/
structure InOrder (reads : PageReads) : Prop where
  origins : reads.state.Extends reads.origins
  since : ∀ o, reads.origins.Extends (reads.since o)
  scan : ∀ o, (reads.since o).Extends reads.scan

theorem InOrder.state_scan (h : InOrder reads) : reads.state.Extends reads.scan :=
  (h.origins.trans (h.since zeroEpoch)).trans (h.scan zeroEpoch)

def Visits (reads : PageReads) (resume : Option Resume) (o : DeviceId) : Prop :=
  o ∈ reads.origins.origins ∧
    ∀ r, resume = some r → r.phase = .keyed ∧ ∀ first, r.origin = some first → first ≤ o

/-- An op the puller lacks arrived behind the read of its origin, above the claim but below
an op that the read could return. -/
def Overtaken (reads : PageReads) (p : OpLogPullSocket H) (d : DrainState) : Prop :=
  ∃ y ∈ reads.scan.arrivals, Visits reads d.resume y.orderKey.device ∧
    y ∉ (reads.since y.orderKey.device).arrivals ∧ p.log.contains y.id = false ∧
    p.coverage.covers y.orderKey = false ∧
    ∃ z ∈ (reads.since y.orderKey.device).arrivals,
      z.orderKey.device = y.orderKey.device ∧ y.orderKey < z.orderKey

/-- Once the puller has applied the whole page, for any page limit and byte budget, every
arrival at or below its new cursor is in its log or above its new claim. -/
def PageSafe (reads : PageReads) (own : DeviceId) (p : OpLogPullSocket H) (d : DrainState) (now : ℤ)
    (skip : Bool) : Prop :=
  ∀ limits page n cursor,
    servePull limits (reads.serveState own) (drainRequest limits p d false now) = .ok page →
    (applyPullPage p own d.cursor page skip).result = .ok n →
    (applyPullPage p own d.cursor page skip).cursor = some cursor →
    ∀ seq op, 0 < seq → seq ≤ cursor.after → reads.scan.arrivals[seq - 1]? = some op →
      (p.after (applyPullPage p own d.cursor page skip).effects).log.contains op.id = true ∨
      (p.after (applyPullPage p own d.cursor page skip).effects).coverage.covers op.orderKey = false

/-- The op is on a page of these reads, for some page limit and byte budget. -/
def OnPage (reads : PageReads) (own : DeviceId) (p : OpLogPullSocket H) (d : DrainState) (now : ℤ)
    (op : SignedOp) : Prop :=
  ∃ limits page, servePull limits (reads.serveState own) (drainRequest limits p d false now) = .ok page ∧
    (entryOf op ∈ page.keyed ∨ ∃ seq, (seq, entryOf op) ∈ page.backfill)

/-! ## Visited origins -/

theorem mem_visitOrder (reads : PageReads) (own : DeviceId) {resume : Option Resume} {o : DeviceId}
    (hph : ∀ r, resume = some r → r.phase = .keyed) :
    o ∈ visitOrder (reads.serveState own) resume ↔ Visits reads resume o := by
  have hsrt : (reads.serveState own).origins.Pairwise (· < ·) := reads.origins.origins_sorted
  unfold visitOrder Visits
  split_ifs with hown
  · obtain ⟨rfl, hmem⟩ := hown
    have : o ∈ own :: (reads.serveState own).origins.filter (fun o => decide (own ≠ o)) ↔
        o ∈ reads.origins.origins := by
      rw [mem_cons, mem_filter, decide_eq_true_eq]
      refine ⟨fun h => ?_, fun h => ?_⟩
      · rcases h with rfl | ⟨h, -⟩
        · exact hmem
        · exact h
      · by_cases ho : own = o
        · exact .inl ho.symm
        · exact .inr ⟨h, ho⟩
    exact this.trans ⟨fun h => ⟨h, nofun⟩, And.left⟩
  · rw [mem_originsFrom hsrt]
    refine and_congr_right fun _ => ?_
    cases resume with
    | none => simp
    | some r => simp [hph r rfl]

/-! ## Pages over the reads -/

section Page

variable {calm : H.Clock → Prop} {limits : PageLimits} {now : ℤ} {page : PullPage} {segs : List Segment}

/-- A page with a keyed part answers a keyed request. -/
theorem PageShape.keyed_phase {req : PullRequest} (h : ServedPage reads own req page segs) {s : Segment}
    (hs : s ∈ segs) : ∀ r, req.resume = some r → r.phase = .keyed := by
  have hkey : (∀ n o k, req.resume ≠ some ⟨.backfill, n, o, k⟩) →
      ∀ r, req.resume = some r → r.phase = .keyed := by
    rintro h ⟨phase, n, o, k⟩ hr
    cases phase with
    | backfill => exact absurd hr (h n o k)
    | keyed => rfl
  cases h with
  | cut segs r hr hback hnext hph => exact hkey hph
  | full segs k hph => exact hkey hph
  | backfill => cases hs

/-- Segments carry what the read of their origin found. -/
theorem PageShape.segment_mem (h : ServedPage reads own (drainRequest limits p d false now) page segs)
    {s : Segment} (hs : s ∈ segs) {op : SignedOp} (hop : op ∈ s.2) :
    op ∈ (reads.since s.1).arrivals ∧ op.orderKey.device = s.1 := by
  obtain ⟨-, n, hn⟩ := h.segment hs
  rw [hn] at hop
  obtain ⟨h1, h2, -⟩ := mem_originOps.1 (mem_of_mem_take hop)
  exact ⟨h1, h2⟩

/-- Skipping makes no difference where the signers of what is on the page are known. -/
theorem applyPullPage_attested {skip : Bool} {entries : List (ℕ × SignedOp)} (hfits : DrainFits reads.state p d)
    (hpage : servePull limits (reads.serveState own) (drainRequest limits p d false now) = .ok page)
    (hdata : DataPage reads.state.relayState page) (hkey : page.keyed = segmentEntries segs)
    (hsrt : ∀ s ∈ segs, s.Sorted) (hvis : VisitSorted (segs.map Prod.fst))
    (hback : page.backfill = backfillEntries entries)
    (hkn : skip = true → ∀ op, OnPage reads own p d now op → (p.registry.keyFor op.body.device).isSome = true) :
    applyPullPage p own d.cursor page skip = applyChannels p own (d.current reads.state) page false := by
  rw [applyPullPage_fits hfits hdata]
  cases skip with
  | false => rfl
  | true =>
    refine applyChannels_registered hback hkey hsrt hvis (fun e he => ?_) (fun s hs op hop => ?_) true
    · exact hkn rfl e.2 ⟨limits, page, hpage, .inr ⟨e.1, hback ▸ mem_map_of_mem he⟩⟩
    · refine hkn rfl op ⟨limits, page, hpage, .inl ?_⟩
      rw [hkey]
      exact mem_flatMap.2 ⟨s, hs, mem_map_of_mem hop⟩

/-- Without an overtaken op every page is safe. -/
theorem pageSafe_of_not_overtaken (hfits : DrainFits reads.state p d)
    (hkept : Kept (· ∈ reads.scan.arrivals.take (d.current reads.state).after) p) {skip : Bool}
    (hkn : skip = true → ∀ op, OnPage reads own p d now op → (p.registry.keyFor op.body.device).isSome = true)
    (hno : ¬ Overtaken reads p d) : PageSafe reads own p d now skip := by
  intro limits page n cursor hpage hok hcur seq op hpos hle hop
  obtain ⟨page', segs, hpage', hdata, hkey, hshp⟩ := servePull_spec limits reads own
    (drainRequest limits p d false now) rfl rfl (pullNeedsReset_within hfits.cursor)
  obtain rfl := Except.ok.inj (hpage'.symm.trans hpage)
  obtain ⟨start, k, -, hnext, -, hback⟩ := hshp.scan
  rw [applyPullPage_attested hfits hpage' hdata hkey hshp.sorted hshp.visit hback hkn] at hok hcur ⊢
  obtain ⟨hc, -⟩ := applyChannels_ok hback (fun e he => hnext ▸ coveredArrivals_le he) hkey hshp.sorted
    hshp.visit rfl hok
  obtain rfl := Option.some.inj (hc.symm.trans hcur)
  have hq := kept_of_page hfits hkept hshp hkey (fun x hx hin hcov s hs hd z hz hlt => ?_) rfl hok
  · cases hcov : (p.after (applyChannels p own (d.current reads.state) page' false).effects).coverage.covers
      op.orderKey with
    | false => exact .inr rfl
    | true =>
      refine .inl (hq op ?_ hcov)
      refine mem_of_getElem? (i := seq - 1) ?_
      rw [getElem?_take, if_pos (by dsimp only at hle; omega), hop]
  · -- an op its origin's read missed would have been overtaken
    obtain ⟨hvis, -⟩ := hshp.segment hs
    obtain ⟨hzin, hzd⟩ := hshp.segment_mem hs hz
    by_contra hnone
    refine hno ⟨x, hx, ?_, fun h => hnone ⟨x, hd ▸ h, rfl⟩, hin, hcov, z, hd ▸ hzin, hzd.trans hd.symm, hlt⟩
    rw [hd]
    exact (mem_visitOrder reads own (hshp.keyed_phase hs)).1 hvis

theorem covers_of_le {claims : CoverageVector} {k k' : OrderKey} (h : claims.covers k' = true)
    (hd : k'.device = k.device) (hle : k ≤ k') : claims.covers k = true := by
  obtain ⟨c, hc, hk⟩ := CoverageVector.covers_iff.1 h
  exact CoverageVector.covers_iff.2 ⟨c, hd ▸ hc, hle.trans hk⟩

/-- Limits with room for all that the reads of a page can give. -/
theorem exists_roomy (reads : PageReads) (own : DeviceId) (p : OpLogPullSocket H) (d : DrainState) (now : ℤ) :
    ∃ limits : PageLimits,
      (channelEntries reads own (drainRequest limits p d false now)).length + reads.scan.arrivals.length <
        limits.pageLimitMax ∧
      entryBytes (channelEntries reads own (drainRequest limits p d false now)) +
        entryBytes (reads.scan.arrivals.map entryOf) < limits.pageByteBudget :=
  ⟨⟨(channelEntries reads own (drainRequest .shipped p d false now)).length + reads.scan.arrivals.length + 1,
    entryBytes (channelEntries reads own (drainRequest .shipped p d false now)) +
      entryBytes (reads.scan.arrivals.map entryOf) + 1, Nat.succ_pos _, Nat.succ_pos _⟩,
    Nat.lt_succ_self _, Nat.lt_succ_self _⟩

/-- A keyed part that was not cut serves the later op of an origin it visits. -/
theorem Served.later (hfits : DrainFits reads.state p d) {y z : SignedOp}
    (hvis : Visits reads d.resume y.orderKey.device)
    (hcov : p.coverage.covers y.orderKey = false) (hz : z ∈ (reads.since y.orderKey.device).arrivals)
    (hzd : z.orderKey.device = y.orderKey.device) (hlt : y.orderKey < z.orderKey)
    (hsvd : Served (fun o => (reads.since o).originOps o (readAfter p.coverage false d.resume o))
      (visitOrder (reads.serveState own) d.resume) segs none) : ∃ s ∈ segs, z ∈ s.2 := by
  have hvo : y.orderKey.device ∈ visitOrder (reads.serveState own) d.resume :=
    (mem_visitOrder reads own fun r hr => (hvis.2 r hr).1).2 hvis
  generalize visitOrder (reads.serveState own) d.resume = origins at hvo hsvd
  cases hsvd with
  | all =>
    refine ⟨_, mem_map.2 ⟨_, hvo, rfl⟩, mem_originOps.2 ⟨hz, hzd, fun b hb => ?_⟩⟩
    exact (readAfter_lt hfits.resume hcov hb).trans hlt

/-- A page with room for everything goes past an overtaken op on both channels. -/
theorem not_pageSafe_of_overtaken (ho : InOrder reads) (hfits : DrainFits reads.state p d)
    (hrdy : Ready calm p) (hw : ∀ op, OnPage reads own p d now op → Welcome calm p.registry op) {skip : Bool}
    (hover : Overtaken reads p d) : ¬ PageSafe reads own p d now skip := by
  intro hsafe
  obtain ⟨y, hy, hvis, hnew, hmissing, hcov, z, hz, hzd, hlt⟩ := hover
  have hphase : ∀ r, d.resume = some r → r.phase = .keyed := fun r hr => (hvis.2 r hr).1
  obtain ⟨limits, hcnt, hbyt⟩ := exists_roomy reads own p d now
  obtain ⟨page, segs, hpage, hdata, hkey, hshp⟩ := servePull_spec limits reads own
    (drainRequest limits p d false now) rfl rfl (pullNeedsReset_within hfits.cursor)
  have hdone : page.resume = none := servePull_whole rfl rfl (pullNeedsReset_within hfits.cursor) hpage hkey
    hshp (lt_min hcnt hcnt) hbyt
  have hsrt := hshp.sorted
  have hvisits := hshp.visit
  have hmem : ∀ s ∈ segs, ∀ op ∈ s.2, op ∈ (reads.since s.1).arrivals ∧ op.orderKey.device = s.1 :=
    fun s hs op hop => hshp.segment_mem hs hop
  cases hshp with
  | cut _ r hr => rw [hdone] at hr; cases hr
  | backfill k n o key hr => cases hphase _ hr
  | full _ k hph hsvd hscan =>
    have hstart : (drainRequest limits p d false now).relayAfter = (d.current reads.state).after :=
      (d.current_after reads.state).symm
    rw [hstart] at hscan
    have hback := hscan.backfill
    have hall := hscan.complete hdone
    change page.backfill = backfillEntries (coveredArrivals p.coverage
      ((reads.scan.arrivals.drop (d.current reads.state).after).take k) (d.current reads.state).after) at hback
    have hkn : ∀ op, OnPage reads own p d now op → (p.registry.keyFor op.body.device).isSome = true := by
      intro op hop
      obtain ⟨key, hk, -⟩ := (hw op hop).signed
      rw [hk]
      rfl
    have happ := applyPullPage_attested hfits hpage hdata hkey hsrt hvisits hback
      fun _ : skip = true => hkn
    have hin : ∀ e ∈ coveredArrivals p.coverage ((reads.scan.arrivals.drop (d.current reads.state).after).take k)
        (d.current reads.state).after, e.2 ∈ reads.scan.arrivals := by
      intro e he
      obtain ⟨i, hi, -⟩ := mem_coveredArrivals.1 he
      exact mem_of_mem_drop (mem_of_mem_take (mem_of_getElem? hi))
    have hsub : ∀ s ∈ segs, ∀ op ∈ s.2, op ∈ reads.scan.arrivals := fun s hs op hop =>
      (ho.scan s.1).arrivals.subset (hmem s hs op hop).1
    obtain ⟨⟨n, hok⟩, -⟩ := applyChannels_welcome own hrdy hback (coveredArrivals_advancing _ _ _) hkey
      hsrt hvisits (fun e he => hw _ ⟨limits, page, hpage, .inr ⟨e.1, hback ▸ mem_map_of_mem he⟩⟩)
      (fun s hs op hop => hw _ ⟨limits, page, hpage,
        .inl (hkey ▸ mem_flatMap.2 ⟨s, hs, mem_map_of_mem hop⟩)⟩)
    obtain ⟨hcur, -, -, hsegs⟩ := applyChannels_ok hback (fun e he => hscan.next ▸ coveredArrivals_le he) hkey
      hsrt hvisits rfl hok
    -- the cursor ends at the last arrival
    have hend : reads.scan.arrivals.length ≤ max (d.current reads.state).after page.nextRelaySeq := by
      rw [hscan.next, hall, length_drop]
      omega
    obtain ⟨i, hi, rfl⟩ := mem_iff_getElem.1 hy
    have hres := hsafe limits page n _ hpage (by rw [happ, hok]) (by rw [happ, hcur]) (i + 1) _
      (Nat.succ_pos i) (show i + 1 ≤ _ from le_trans hi hend) (getElem?_eq_getElem hi)
    rw [happ] at hres
    rcases hres with h | h
    · -- nothing on the page is this op
      obtain ⟨x, hx, hid⟩ := OpLog.contains_iff.1 h
      rcases applyChannels_mem hback hkey hsrt hvisits hx with hx | ⟨e, he, rfl⟩ | ⟨s, hs, hx⟩
      · rw [← hid, contains_of_mem hx] at hmissing
        cases hmissing
      · obtain ⟨-, -, -, hc⟩ := mem_coveredArrivals.1 he
        rw [eq_of_id (hin e he) hy hid, hcov] at hc
        cases hc
      · obtain ⟨hsince, hd⟩ := hmem s hs x hx
        obtain rfl := eq_of_id (hsub s hs x hx) hy hid
        exact hnew (hd ▸ hsince)
    · -- the later op of its origin has raised the claim over it
      obtain ⟨s, hs, hzs⟩ := Served.later hfits hvis hcov hz hzd hlt hsvd
      rw [covers_of_le (hsegs s hs z hzs).2 hzd hlt.le] at h
      cases h

end Page

/-- A page built under concurrent appends is safe, for every page limit and byte budget, if no
op was overtaken by the read of its origin; and exactly then, where nothing refuses what is on
the page. -/
theorem page_safe_iff (reads : PageReads) (ho : InOrder reads) (own : DeviceId) (p : OpLogPullSocket H)
    (d : DrainState) (now : ℤ) (skip : Bool) (hfits : DrainFits reads.state p d)
    (hkept : ∀ seq op, 0 < seq → seq ≤ (d.cursor.map RelayCursor.after).getD 0 →
      reads.state.arrivals[seq - 1]? = some op →
      p.log.contains op.id = true ∨ p.coverage.covers op.orderKey = false)
    (hkn : skip = true → ∀ op, OnPage reads own p d now op →
      (p.registry.keyFor op.body.device).isSome = true) :
    (¬ Overtaken reads p d → PageSafe reads own p d now skip) ∧
      ∀ calm : H.Clock → Prop, Ready calm p →
        (∀ op, OnPage reads own p d now op → Welcome calm p.registry op) →
        (PageSafe reads own p d now skip ↔ ¬ Overtaken reads p d) := by
  have hsafe : ¬ Overtaken reads p d → PageSafe reads own p d now skip := by
    refine pageSafe_of_not_overtaken hfits ?_ hkn
    rw [ho.state_scan.take hfits.current.2, d.current_after]
    intro x hx hcov
    obtain ⟨i, hi, rfl⟩ := List.mem_take_iff_getElem.1 hx
    rcases hkept (i + 1) _ (Nat.succ_pos i) (lt_min_iff.1 hi).1
      (List.getElem?_eq_getElem (lt_min_iff.1 hi).2) with h | h
    · exact h
    · rw [hcov] at h
      cases h
  refine ⟨hsafe, fun calm hrdy hw => ⟨fun h hover => ?_, hsafe⟩⟩
  exact not_pageSafe_of_overtaken ho hfits hrdy hw hover h

/-! ## An append between the two channels -/

namespace Racing

def author : Bytes 32 := padTo 32 [7]

def raced (first second : Hlc) : PageReads where
  state := plainLog [plainPut author first]
  origins := plainLog [plainPut author first]
  since := fun _ => plainLog [plainPut author first]
  scan := plainLog [plainPut author first, plainPut author second]

theorem raced_inOrder (first second : Hlc) : InOrder (raced first second) :=
  ⟨.refl _, fun _ => .refl _, fun _ => extends_append _ _⟩

end Racing

open Racing in
/-- An op that arrives in key order is not overtaken. -/
theorem page_safe_later_key :
    PageSafe (raced 10 20) (Wire.fill 32 1) (plainPuller [author]) (.start none) 0 false := by
  have hscan : (raced 10 20).scan.arrivals = [plainPut author 10, plainPut author 20] := by decide +kernel
  have hsince : ∀ o, ((raced 10 20).since o).arrivals = [plainPut author 10] := fun _ => by
    change (plainLog [plainPut author 10]).arrivals = _
    decide +kernel
  have hfits : DrainFits (raced 10 20).state (plainPuller [author]) (.start none) := ⟨nofun, nofun, nofun⟩
  refine (page_safe_iff _ (raced_inOrder 10 20) _ _ _ _ _ hfits ?_ (fun h => by cases h)).1 ?_
  · intro seq op hpos hle
    exact absurd hle (not_le.2 hpos)
  · rintro ⟨y, hy, -, hnew, -, -, z, hz, -, hlt⟩
    rw [hsince, List.mem_singleton] at hnew hz
    rw [hscan] at hy
    rcases List.mem_cons.1 hy with rfl | hy
    · exact hnew rfl
    · obtain rfl := List.mem_singleton.1 hy
      subst hz
      exact absurd hlt (by decide +kernel)

open Racing in
/-- An op that arrives out of key order is passed by both channels: the cursor ends behind
it, the claim above it, and the log lacks it. -/
theorem page_buries_racing_op :
    InOrder (raced 20 10) ∧
      ¬ PageSafe (raced 20 10) (Wire.fill 32 1) (plainPuller [author]) (.start none) 0 false := by
  refine ⟨raced_inOrder 20 10, fun hsafe => ?_⟩
  obtain ⟨page, segs, hpage, -⟩ := servePull_spec .shipped (raced 20 10) (Wire.fill 32 1)
    (drainRequest .shipped (plainPuller [author]) (.start none) false 0) rfl rfl (by decide +kernel)
  generalize hout : applyPullPage (plainPuller [author]) (Wire.fill 32 1) none page false = outcome
  -- the exchange, evaluated
  have heval : (match servePull .shipped ((raced 20 10).serveState (Wire.fill 32 1))
        (drainRequest .shipped (plainPuller [author]) (.start none) false 0) with
      | .error _ => none
      | .ok page =>
        let outcome := applyPullPage (plainPuller [author]) (Wire.fill 32 1) none page false
        some (outcome.result.toOption, outcome.cursor.map RelayCursor.after,
          ((plainPuller [author]).after outcome.effects).log.contains (plainPut author 10).id,
          ((plainPuller [author]).after outcome.effects).coverage.covers (plainPut author 10).orderKey)) =
      some (some 1, some 2, false, true) := by decide +kernel
  rw [hpage] at heval
  simp only [hout, Option.some.injEq, Prod.mk.injEq] at heval
  obtain ⟨hres, hcur, hin, hcov⟩ := heval
  obtain ⟨cursor, hcur, haft⟩ := Option.map_eq_some_iff.1 hcur
  have hok : outcome.result = .ok 1 := by
    cases hr : outcome.result with
    | error e => rw [hr] at hres; cases hres
    | ok n => rw [hr] at hres; exact congrArg _ (Option.some.inj hres)
  have harr : (raced 20 10).scan.arrivals[1]? = some (plainPut author 10) := by decide +kernel
  have := hsafe .shipped page 1 cursor hpage (hout ▸ hok) (hout ▸ hcur) 2 _ Nat.two_pos haft.ge harr
  rw [show (DrainState.start none).cursor = none from rfl, hout, hin, hcov] at this
  rcases this with h | h
  · cases h
  · cases h

end ProxyNode
