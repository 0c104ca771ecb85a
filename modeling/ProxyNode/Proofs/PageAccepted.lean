import Mathlib.Data.List.TakeWhile
import ProxyNode.Sanity.DrainLoop
import ProxyNode.Spec.PageApply

/-! What an honest node builds, the drain takes. Each request of a drain, whatever happened to
the node's log since the last one, is answered by a reset the drain adopts or by a page that
passes every check of the protocol: what can still go wrong is the socket's own admission and
an envelope of an unknown version. -/

namespace ProxyNode

open OpLogPullSocket List Prod Except

/-! ## Errors of a page -/

section Errors

variable {σ : Type*} {takeOps : σ → List SignedOp → σ × AdmitReport} {peer : DeviceId} {e : String}

def SocketError (takeOps : σ → List SignedOp → σ × AdmitReport) (e : String) : Prop :=
  ∃ s ops, (takeOps s ops).2.error = some e

theorem applyRunsWith_error {runs : List KeyedRun} {s : σ} {applied : ℕ}
    (h : (applyRunsWith takeOps runs s applied).2 = .error e) : SocketError takeOps e := by
  induction runs generalizing s applied with
  | nil => cases h
  | cons run runs ih =>
    rw [applyRunsWith] at h
    cases herr : (takeOps s run.ops).2.error with
    | some e' =>
      simp only [herr] at h
      obtain rfl := error.inj h
      exact ⟨s, run.ops, herr⟩
    | none =>
      simp only [herr] at h
      exact ih h

theorem applyChannelsWith_error {s : σ} {cur : RelayCursor} {page : PullPage}
    (h : (applyChannelsWith takeOps s peer cur page).result = .error e) :
    decodeBackfill peer cur.after cur.after page.backfill = .error e ∨
      splitRuns peer page.keyed [] none = .error e ∨ SocketError takeOps e := by
  unfold applyChannelsWith at h
  cases hdec : decodeBackfill peer cur.after cur.after page.backfill with
  | error e' =>
    rw [hdec] at h
    exact .inl (congrArg _ (error.inj h))
  | ok entries =>
    simp only [hdec] at h
    cases herr : (takeOps s (entries.map snd)).2.error with
    | some e' =>
      simp only [herr] at h
      obtain rfl := error.inj h
      exact .inr (.inr ⟨s, _, herr⟩)
    | none =>
      simp only [herr] at h
      cases hruns : splitRuns peer page.keyed [] none with
      | error e' =>
        simp only [hruns] at h
        exact .inr (.inl (congrArg _ (error.inj h)))
      | ok runs =>
        simp only [hruns] at h
        exact .inr (.inr (applyRunsWith_error h))

/-- Advancing entries fail only at an envelope. -/
theorem decodeBackfill_error {after last : ℕ} {l : List (ℕ × SignedOp)} (ha : Advancing last l)
    (h : decodeBackfill peer after last (backfillEntries l) = .error e) :
    ∃ entry ∈ (backfillEntries l).map snd, decodePageOp entry peer = .error e := by
  induction l generalizing last with
  | nil => cases h
  | cons x l ih =>
    obtain ⟨hlast, hp⟩ := ha
    rw [pairwise_cons] at hp
    rw [backfillEntries, map_cons, decodeBackfill, if_neg (not_le.2 (hlast x mem_cons_self))] at h
    cases hdec : decodePageOp (entryOf x.2) peer with
    | error e' =>
      rw [hdec] at h
      exact ⟨entryOf x.2, mem_cons_self, hdec.trans (congrArg _ (error.inj h))⟩
    | ok op =>
      simp only [hdec] at h
      cases hrest : decodeBackfill peer after x.1 (backfillEntries l) with
      | ok rest =>
        rw [backfillEntries] at hrest
        simp only [hrest, Except.map, reduceCtorEq] at h
      | error e' =>
        have herr := hrest
        rw [backfillEntries] at hrest
        simp only [hrest, Except.map, error.injEq] at h
        obtain ⟨entry, hent, hdec'⟩ := ih ⟨hp.1, hp.2⟩ (h ▸ herr)
        exact ⟨entry, mem_cons_of_mem _ hent, hdec'⟩

/-- Runs that came out go on with what follows. -/
theorem splitRuns_append {a b : List PageEntry} {runs runs' : List KeyedRun} {last : Option OrderKey}
    (h : splitRuns peer a runs last = .ok runs') :
    ∃ last', splitRuns peer (a ++ b) runs last = splitRuns peer b runs' last' := by
  induction a generalizing runs last with
  | nil =>
    obtain rfl := ok.inj h
    exact ⟨last, rfl⟩
  | cons entry a ih =>
    rw [splitRuns] at h
    rw [cons_append, splitRuns]
    cases hdec : decodePageOp entry peer with
    | error e' =>
      rw [hdec] at h
      cases h
    | ok op =>
      rw [hdec] at h
      cases runs with
      | nil => exact ih h
      | cons run done =>
        dsimp only at h ⊢
        split_ifs at h ⊢
        · exact ih h
        · exact ih h

/-- A front part of a keyed channel is one itself. -/
theorem segmentEntries_take {segs : List Segment} (hs : ∀ s ∈ segs, s.Sorted) (n : ℕ) :
    ∃ segs', segmentEntries segs' = (segmentEntries segs).take n ∧ (∀ s ∈ segs', s.Sorted) ∧
      segs'.map fst <+: segs.map fst := by
  induction segs generalizing n with
  | nil => exact ⟨[], by rw [segmentEntries, flatMap_nil, take_nil], nofun, prefix_refl _⟩
  | cons s segs ih =>
    obtain ⟨segs', heq, hsrt, hpre⟩ := ih (fun t ht => hs t (mem_cons_of_mem _ ht)) (n - s.2.length)
    have hsrt' : Segment.Sorted (s.1, s.2.take n) :=
      ⟨fun op hop => (hs s mem_cons_self).1 op (mem_of_mem_take hop),
        (hs s mem_cons_self).2.sublist (take_sublist _ _)⟩
    refine ⟨(s.1, s.2.take n) :: segs', ?_, ?_, ?_⟩
    · rw [segmentEntries_cons, segmentEntries_cons, heq, take_append, map_take, length_map]
    · intro t ht
      rcases mem_cons.1 ht with rfl | ht
      · exact hsrt'
      · exact hsrt t ht
    · exact (prefix_cons_inj _).2 hpre

/-- An honest keyed channel fails only at an envelope. -/
theorem splitRuns_error {segs : List Segment} (hs : ∀ s ∈ segs, s.Sorted) (hvis : VisitSorted (segs.map fst))
    (h : splitRuns peer (segmentEntries segs) [] none = .error e) :
    ∃ entry ∈ segmentEntries segs, decodePageOp entry peer = .error e := by
  generalize hgood : (segmentEntries segs).takeWhile (fun entry => (decodePageOp entry peer).isOk) = good
  generalize hrest : (segmentEntries segs).dropWhile (fun entry => (decodePageOp entry peer).isOk) = rest
  have hspl : segmentEntries segs = good ++ rest := by rw [← hgood, ← hrest, takeWhile_append_dropWhile]
  have hok : ∀ entry ∈ good, (decodePageOp entry peer).isOk = true := by
    intro entry hent
    rw [← hgood] at hent
    exact mem_takeWhile_imp (p := fun entry => (decodePageOp entry peer).isOk) hent
  -- the entries before the first bad one fall into runs
  obtain ⟨segs', heq, hsrt, hpre⟩ := segmentEntries_take hs good.length
  rw [hspl, take_left] at heq
  have hversions : ∀ s ∈ segs', ∀ op ∈ s.2, op.body.v = envelopeVersion := by
    intro s hmem op hop
    have hent : entryOf op ∈ good := heq ▸ mem_flatMap.2 ⟨s, hmem, mem_map.2 ⟨op, hop, rfl⟩⟩
    cases hdec : decodePageOp (entryOf op) peer with
    | error e' => simpa [hdec, isOk, Except.toBool] using hok _ hent
    | ok op' => exact (decodePageOp_ok hdec).2
  obtain ⟨runs, hruns, -⟩ := splitRuns_segments peer hsrt hversions (hvis.of_prefix hpre)
  rw [heq] at hruns
  obtain ⟨last, happ⟩ := splitRuns_append (b := rest) hruns
  rw [hspl, happ] at h
  cases rest with
  | nil => cases h
  | cons bad rest =>
    have hbad : ¬(decodePageOp bad peer).isOk = true := by
      have hhead := head?_dropWhile_not (fun entry => (decodePageOp entry peer).isOk) (segmentEntries segs)
      rw [hrest] at hhead
      simpa using hhead
    refine ⟨bad, hspl ▸ mem_append_right _ mem_cons_self, ?_⟩
    rw [splitRuns] at h
    cases hdec : decodePageOp bad peer with
    | ok op => exact absurd (by rw [hdec]; rfl) hbad
    | error e' =>
      rw [hdec] at h
      exact congrArg _ (error.inj h)

end Errors

/-! ## The drain's own state -/

variable {H : Host} {limits : PageLimits} {socket : MeshPullSocket} {arrivals : List (ℕ × SignedOp)}
    {peer : DeviceId}
  {m : Moment} {p : OpLogPullSocket H} {d d' : DrainState} {page : PullPage} {segs : List Segment}
  {audit skip : Bool} {now : ℤ}

theorem applyChannels_cursor {l : List (ℕ × SignedOp)} (hback : page.backfill = backfillEntries l)
    (hle : ∀ e ∈ l, e.1 ≤ page.nextRelaySeq) {cur : RelayCursor} (hcur : cur.after ≤ page.nextRelaySeq)
    {n : ℕ} (hok : (applyChannels p peer cur page skip).result = .ok n) :
    (applyChannels p peer cur page skip).cursor = some ⟨cur.epoch, page.nextRelaySeq⟩ := by
  generalize hres : applyBackfill p peer cur page skip = r
  obtain ⟨progress, reached⟩ := r
  have hrch : reached.epoch = cur.epoch ∧ reached.after ≤ page.nextRelaySeq := by
    unfold applyBackfill at hres
    rw [hback] at hres
    cases hdec : decodeBackfill peer cur.after cur.after (backfillEntries l) with
    | error e =>
      simp only [hdec, Prod.mk.injEq] at hres
      obtain ⟨-, rfl⟩ := hres
      exact ⟨rfl, hcur⟩
    | ok entries =>
      obtain ⟨rfl, -⟩ := decodeBackfill_ok hdec
      simp only [hdec, Prod.mk.injEq] at hres
      obtain ⟨-, rfl⟩ := hres
      refine ⟨?_, (followAdmitted_le peer cur hle _).trans (max_le hcur le_rfl)⟩
      unfold followAdmitted
      split_ifs <;> rfl
  simp only [applyChannels, hres] at hok ⊢
  cases herr : progress.error with
  | some e =>
    rw [herr] at hok
    cases hok
  | none =>
    rw [herr] at hok
    dsimp only at hok ⊢
    unfold applyKeyed at hok ⊢
    cases hruns : splitRuns peer page.keyed [] none with
    | error e =>
      rw [hruns] at hok
      cases hok
    | ok runs =>
      dsimp only
      rw [hrch.1, max_eq_right hrch.2]

/-- What a drain carries from one request to the next: a cursor of some stream, and a
positional token only where the cursor is. -/
structure OwnState (d : DrainState) : Prop where
  epoch : ∀ c, d.cursor = some c → c.epoch ≠ zeroEpoch
  backfill : ∀ n o k, d.resume = some ⟨.backfill, n, o, k⟩ → n = (d.cursor.map RelayCursor.after).getD 0

theorem ownState_start {cursor : Option RelayCursor} (h : ∀ c, cursor = some c → c.epoch ≠ zeroEpoch) :
    OwnState (.start cursor) :=
  ⟨h, nofun⟩

theorem OwnState.fits (h : OwnState d) (hep : socket.relayStreamState.epoch ≠ zeroEpoch)
    (hlive : pullNeedsReset ((d.cursor.map RelayCursor.epoch).getD zeroEpoch)
      ((d.cursor.map RelayCursor.after).getD 0) socket.relayStreamState = false) :
    StreamFits socket.relayStreamState d := by
  refine ⟨.of_live ?_ hlive, h.backfill⟩
  rintro (⟨hzero, -⟩ | ⟨c, hc, hzero, -⟩)
  · exact hep hzero
  · exact h.epoch c hc hzero

theorem OwnState.turn (h : OwnState d) (hsrv : ServesStream socket arrivals)
    (hep : socket.relayStreamState.epoch ≠ zeroEpoch) (hm : m.answer = serveSocket limits socket)
    {es : List (Effect H)} (hstep : drainStep limits peer audit skip m p d = (es, .again d')) : OwnState d' := by
  cases hrst : pullNeedsReset ((d.cursor.map RelayCursor.epoch).getD zeroEpoch)
      ((d.cursor.map RelayCursor.after).getD 0) socket.relayStreamState with
  | true =>
    cases hseen : d.resetSeen with
    | true =>
      obtain ⟨e, hdone⟩ := drainStep_reset_twice hm hrst hseen peer p audit skip
      rw [hdone] at hstep
      cases hstep
    | false =>
      obtain ⟨d₁, hd₁, hto⟩ := drainStep_reset_floor hm hrst hsrv.floor_le hseen peer p audit skip
      rw [hd₁] at hstep
      obtain ⟨-, hnext⟩ := Prod.mk.inj hstep
      obtain rfl := DrainNext.again.inj hnext
      refine ⟨fun c hc => ?_, fun n o k hr => ?_⟩
      · rw [hto.cursor] at hc
        obtain rfl := Option.some.inj hc
        exact hep
      · rw [hto.resume] at hr
        cases hr
  | false =>
    obtain ⟨page, segs, hans, heq⟩ := drainStep_stream peer p hsrv (h.fits hep hrst) hm audit skip
    have hagain : (drainApply limits peer skip m p d page).2 = .again d' := by rw [← heq, hstep]
    obtain ⟨⟨n, hok⟩, hcur, hres⟩ := drainApply_again hagain
    have happ : applyPullPage p peer d.cursor page skip =
        applyChannels p peer (d.position socket.relayStreamState) page skip :=
          hans.applyPullPage_position peer skip
    rw [happ] at hok hcur
    rw [applyChannels_cursor hans.scan.backfill (fun e he => (Answered.mem_scanned.1 he).2.1.2)
      hans.next_bounds.1 hok, hans.fits.cursor.position.1] at hcur
    have hfits := hans.fits_after hcur (hres.imp_right And.right)
    refine ⟨fun c hc => ?_, hfits.backfill⟩
    rw [(hfits.cursor.within c hc).1]
    exact hep

/-- A drain from the state `d` is in the state `d'` before its request `i`. -/
inductive DrainReaches (limits : PageLimits) (peer : DeviceId) (audit skip : Bool) (world : ℕ → Moment)
    (p : OpLogPullSocket H) (d : DrainState) : ℕ → OpLogPullSocket H → DrainState → Prop
  | start : DrainReaches limits peer audit skip world p d 0 p d
  | turn {i : ℕ} {p' : OpLogPullSocket H} {d₁ d₂ : DrainState} {es : List (Effect H)}
    (before : DrainReaches limits peer audit skip world p d i p' d₁)
    (step : drainStep limits peer audit skip (world i) p' d₁ = (es, .again d₂)) :
    DrainReaches limits peer audit skip world p d (i + 1) (p'.after es) d₂

section Run

variable {world : ℕ → Moment} {sockets : ℕ → MeshPullSocket} {streams : ℕ → List (ℕ × SignedOp)}
  (hworld : ∀ i, (world i).answer = serveSocket limits (sockets i))
  (hsrv : ∀ i, ServesStream (sockets i) (streams i)) (hep : ∀ i, (sockets i).relayStreamState.epoch ≠ zeroEpoch)
include hworld hsrv hep

theorem OwnState.reached {i : ℕ} {p' : OpLogPullSocket H} (h : OwnState d)
    (hrun : DrainReaches limits peer audit skip world p d i p' d') : OwnState d' := by
  induction hrun with
  | start => exact h
  | turn before hstep ih => exact ih.turn (hsrv _) (hep _) (hworld _) hstep

end Run

/-! ## One request -/

/-- A page of an honest node passes the checks of the protocol. -/
theorem Answered.accepted (h : Answered limits socket arrivals p d audit now page segs) {σ : Type*}
    (takeOps : σ → List SignedOp → σ × AdmitReport) (s : σ) (peer : DeviceId) {e : String}
    (herr : (applyPageWith takeOps s peer d.cursor page).result = .error e) :
    SocketError takeOps e ∨ ∃ entry ∈ page.entries, decodePageOp entry peer = .error e := by
  have hchannels : applyPageWith takeOps s peer d.cursor page =
      applyChannelsWith takeOps s peer (d.position socket.relayStreamState) page := by
    unfold applyPageWith DrainState.position
    rw [h.data.epoch]
    cases hc : d.cursor with
    | none => rfl
    | some c => exact if_pos (h.fits.cursor.within c hc).1
  rw [hchannels] at herr
  have hadv : Advancing (d.position socket.relayStreamState).after
      (scanned arrivals p.coverage (d.position socket.relayStreamState).after page.nextRelaySeq) :=
    ⟨fun e he => (Answered.mem_scanned.1 he).2.1.1, h.serves.numbered.filter _⟩
  rcases applyChannelsWith_error herr with hback | hkey | hsocket
  · rw [h.scan.backfill] at hback
    obtain ⟨entry, hent, hdec⟩ := decodeBackfill_error hadv hback
    refine .inr ⟨entry, mem_append_right _ ?_, hdec⟩
    rw [h.scan.backfill]
    exact hent
  · rw [h.keyed] at hkey
    obtain ⟨entry, hent, hdec⟩ := splitRuns_error (h.shape.sorted h.serves) (h.shape.visit h.serves) hkey
    exact .inr ⟨entry, mem_append_left _ (h.keyed ▸ hent), hdec⟩
  · exact .inl hsocket

/-- A reset of an honest node is one the requester adopts, and needs no other. -/
theorem validatePullReset_honest {stream : RelayStreamState} {req : PullRequest} {epoch : Epoch}
    (hreq : req.relayEpoch = some epoch) (hep : stream.epoch ≠ zeroEpoch) (hflr : stream.floor ≤ stream.head)
    (hrst : pullNeedsReset epoch req.relayAfter stream = true) :
    validatePullReset req (resetPullPage stream) stream.epoch = .ok ⟨stream.epoch, stream.floor⟩ ∧
      pullNeedsReset stream.epoch stream.floor stream = false := by
  refine ⟨?_, pullNeedsReset_own.2 ⟨fun hzero => absurd hzero hep, le_rfl, hflr⟩⟩
  simp only [validatePullReset, resetPullPage, hreq, Bool.true_eq_false, if_false, not_lt.2 hflr, ne_eq,
    not_true_eq_false, Option.isSome_none, Bool.false_eq_true, or_self]
  exact if_pos hrst

section Run

variable {world : ℕ → Moment} {sockets : ℕ → MeshPullSocket} {streams : ℕ → List (ℕ × SignedOp)}

/-- Every request a drain forms is answered with what the drain accepts, whatever streams the
node has at its turns. -/
theorem honest_pages_accepted (hworld : ∀ i, (world i).answer = serveSocket limits (sockets i))
    (hsrv : ∀ i, ServesStream (sockets i) (streams i))
    (hep : ∀ i, (sockets i).relayStreamState.epoch ≠ zeroEpoch) {cursor : Option RelayCursor}
    (hcur : ∀ c, cursor = some c → c.epoch ≠ zeroEpoch) {i : ℕ} {q : OpLogPullSocket H}
    (hrun : DrainReaches limits peer audit skip world p (.start cursor) i q d) :
    ∃ page, buildPullPage limits (sockets i) (drainRequest limits q d audit (world i).now) = .ok page ∧
      (page.reset = true → ∃ epoch adopted, page.epoch = some epoch ∧
        validatePullReset (drainRequest limits q d audit (world i).now) page epoch = .ok adopted ∧
        pullNeedsReset adopted.epoch adopted.after (sockets i).relayStreamState = false) ∧
      (page.reset = false → page.version = pullVersion ∧ page.backfill.length ≤ limits.pageLimitMax ∧
        page.keyed.length ≤ limits.pageLimitMax ∧
        ∀ {σ : Type} (takeOps : σ → List SignedOp → σ × AdmitReport) (s : σ) (e : String),
          (applyPageWith takeOps s peer d.cursor page).result = .error e →
            SocketError takeOps e ∨ ∃ entry ∈ page.entries, decodePageOp entry peer = .error e) := by
  have hown := (ownState_start hcur).reached hworld hsrv hep hrun
  generalize hreq : drainRequest limits q d audit (world i).now = req
  have hsto : req.store = none := hreq ▸ rfl
  have hre : req.relayEpoch = some ((d.cursor.map RelayCursor.epoch).getD zeroEpoch) := hreq ▸ rfl
  have haft : req.relayAfter = (d.cursor.map RelayCursor.after).getD 0 := hreq ▸ rfl
  cases hrst : pullNeedsReset ((d.cursor.map RelayCursor.epoch).getD zeroEpoch) req.relayAfter
      (sockets i).relayStreamState with
  | true =>
    refine ⟨resetPullPage (sockets i).relayStreamState, ?_, fun _ => ?_, nofun⟩
    · simp only [buildPullPage, hre, hsto, hrst, true_and, if_true]
    · obtain ⟨hval, hlive⟩ := validatePullReset_honest hre (hep i) (hsrv i).floor_le hrst
      exact ⟨_, _, rfl, hval, hlive⟩
  | false =>
    obtain ⟨page, segs, hok, hdata, hkey, hshp⟩ :=
      servePull_stream (hsrv i) limits req hsto hre hrst
    have hbuilt : buildPullPage limits (sockets i) req = .ok page := by
      rw [← hok, servePull, admitPullAck_none hre hrst]
    refine ⟨page, hbuilt, fun hr => ?_, fun _ => ?_⟩
    · rw [hdata.reset] at hr
      cases hr
    · obtain ⟨hvers, hback, hcap⟩ := buildPullPage_within (hsrv i).bounded hbuilt
      rw [haft] at hrst
      have hans : Answered limits (sockets i) (streams i) q d audit (world i).now page segs :=
        ⟨hsrv i, hown.fits (hep i) hrst, hdata, hkey, hreq ▸ hshp⟩
      exact ⟨hvers, hback, hcap, fun takeOps s e herr => hans.accepted takeOps s peer herr⟩

end Run

def growingLog (i : ℕ) : OpLog :=
  if i = 0 then twoOrigins else (twoOrigins.append (plainPut (padTo 32 [6]) 30)).1

def growingSocket (i : ℕ) : MeshPullSocket := (PageReads.atomic (growingLog i)).serveState (Wire.fill 32 1)

def growingWorld (i : ℕ) : Moment :=
  ⟨i, serveSocket pageOfOne (growingSocket i), serveSocket pageOfOne (growingSocket i)⟩

def DrainNext.goesOn : DrainNext → Bool
  | .again _ => true
  | .done _ _ => false

theorem honest_pages_accepted_growing :
    ∃ q d, DrainReaches pageOfOne (Wire.fill 32 1) false false growingWorld
        (plainPuller [padTo 32 [7], padTo 32 [5]]) (.start none) 1 q d ∧
      ∃ page, buildPullPage pageOfOne (growingSocket 1) (drainRequest pageOfOne q d false 1) = .ok page ∧
        (page.reset = false → page.version = pullVersion ∧ page.backfill.length ≤ 1 ∧ page.keyed.length ≤ 1) := by
  generalize hstep : drainStep pageOfOne (Wire.fill 32 1) false false (growingWorld 0)
      (plainPuller [padTo 32 [7], padTo 32 [5]]) (.start none) = step
  obtain ⟨es, next⟩ := step
  have hagain : (drainStep pageOfOne (Wire.fill 32 1) false false (growingWorld 0)
      (plainPuller [padTo 32 [7], padTo 32 [5]]) (.start none)).2.goesOn = true := by decide +kernel
  have hnext : next.goesOn = true := (congrArg (fun step => step.2.goesOn) hstep).symm.trans hagain
  have hep : ∀ i, (growingSocket i).relayStreamState.epoch ≠ zeroEpoch := by
    intro i
    have hsame : (growingLog i).relayEpoch = Wire.fill 32 9 := by
      unfold growingLog
      split_ifs <;> decide +kernel
    rw [show (growingSocket i).relayStreamState.epoch = (growingLog i).relayEpoch from rfl, hsame]
    decide +kernel
  cases next with
  | done c r => cases hnext
  | again d =>
    have hrun := DrainReaches.turn .start hstep
    obtain ⟨page, hpage, -, hdata⟩ := honest_pages_accepted (fun _ => rfl)
      (fun i => servesStream_serveState (growingLog i) (Wire.fill 32 1)) hep
      (show ∀ c, (none : Option RelayCursor) = some c → c.epoch ≠ zeroEpoch from nofun) hrun
    exact ⟨_, d, hrun, page, hpage, fun hr => ⟨(hdata hr).1, (hdata hr).2.1, (hdata hr).2.2.1⟩⟩

end ProxyNode
