import ProxyNode.Sanity.DrainLoop

/-! What a stream reset leaves behind. The reset moves the cursor to the floor, past every
arrival below it that is still stored. From there on a drain delivers all arrivals behind
the cursor and all ops above the claims, so a surviving arrival at or below the floor gets
through only if the puller's claim does not cover it. -/

namespace ProxyNode

open OpLogPullSocket List

variable {H : Host} {limits : PageLimits} {socket : MeshPullSocket} {arrivals : List (ℕ × SignedOp)}
  {e : ℕ × SignedOp} {peer : DeviceId} {m : Moment} {p q : OpLogPullSocket H} {d d' : DrainState} {page : PullPage}
  {segs : List Segment} {t : ℤ} {n : ℕ}

theorem ServesStream.eq_of_id (h : ServesStream socket arrivals) {e' : ℕ × SignedOp} (he : e ∈ arrivals)
    (he' : e' ∈ arrivals) (hid : e.2.id = e'.2.id) : e = e' := by
  have hnd := h.distinct
  rw [map_map] at hnd
  exact inj_on_of_nodup_map hnd he he' hid

def StoredTo (arrivals : List (ℕ × SignedOp)) (n : ℕ) (x : SignedOp) : Prop := ∃ e ∈ arrivals, e.2 = x ∧ e.1 ≤ n

/-! ## One page -/

namespace Answered

section Applied

variable (h : Answered limits socket arrivals p d false t page segs)
  (hq : p.after (d.take socket p peer page).effects = q) (hok : (d.take socket p peer page).result = .ok n)
include h hq hok

/-- A page keeps what lies at or below the cursor it ends at. -/
theorem kept (hres : ResumeCovered p.coverage d.resume)
    (hkept : Kept (StoredTo arrivals (d.position socket.relayStreamState).after) p) :
    Kept (StoredTo arrivals page.nextRelaySeq) q := by
  obtain ⟨-, hscanned, hsegs⟩ := h.outcome hq hok
  have hgrow : ∀ {id}, p.log.contains id = true → q.log.contains id = true :=
    fun hin => hq ▸ (after_log_extends _ _).contains hin
  rintro x ⟨e, he, rfl, hle⟩ hcov
  cases hc : p.coverage.covers e.2.orderKey with
  | true =>
    rcases Nat.lt_or_ge (d.position socket.relayStreamState).after e.1 with hlt | hge
    · exact hscanned e he hlt hle hc
    · exact hgrow (hkept e.2 ⟨e, he, rfl, hge⟩ hc)
  | false =>
    -- the claim was raised past this op by the segment of its origin
    rw [← hq] at hcov
    rcases applyChannels_covers h.keyed (h.shape.sorted h.serves) (h.shape.visit h.serves) hcov with
      hcov | ⟨s, hs, z, hz, hdev, hxz⟩
    · rw [hc] at hcov
      cases hcov
    · have hso : e.2.body.device = s.1 := hdev.symm.trans ((h.shape.sorted h.serves s hs).1 z hz)
      obtain ⟨-, k, hk⟩ := h.shape.segment hs
      have hmem : e.2 ∈ originShare (arrivals.map Prod.snd) none s.1
        (readAfter p.coverage false d.resume s.1) := by
        refine mem_originShare.2 ⟨mem_map_of_mem he, hso, rfl, ?_⟩
        cases hr : readAfter p.coverage false d.resume s.1 with
        | none => rfl
        | some b =>
          have hr' : readAfter p.coverage false d.resume e.2.orderKey.device = some b := by
            rw [SignedOp.orderKey_device, hso, hr]
          exact decide_eq_true (readAfter_lt hres hc hr')
      obtain ⟨i, hi⟩ := mem_iff_getElem?.1 hz
      have hin : e.2 ∈ s.2 := by
        have hz' := hi
        rw [hk, getElem?_take] at hz'
        split_ifs at hz' with hik
        have htake := mem_take_of_key_le SignedOp.orderKey
          (originShare_sorted h.serves.distinct none s.1 _) hmem hz' hxz
        rw [hk]
        exact take_subset_take_left _ hik htake
      exact (hsegs s hs e.2 hin).1

theorem resumeCovered : ResumeCovered q.coverage page.resume := by
  obtain ⟨-, -, hsegs⟩ := h.outcome hq hok
  have hpos : ∀ {r : Resume} {start : ℕ}, ScanEnds arrivals start page → page.resume = some r → r.origin = none :=
    fun hends hr => by rw [(hends.resume _ hr).1]; rfl
  intro r o k hr ho hk
  cases h.shape with
  | cut _ r' keyed hres =>
    obtain rfl : r' = r := Option.some.inj (hres.symm.trans hr)
    obtain ⟨s, hs, rfl, -⟩ := keyed.served.resume
    obtain ⟨op, hop, rfl⟩ := lastKeyOf_mem hk
    obtain rfl : s.1 = o := Option.some.inj ho
    exact ⟨(h.shape.sorted h.serves s hs).1 op hop, (hsegs s hs op hop).2⟩
  | full _ keyed scan ends => rw [hpos ends hr] at ho; cases ho
  | backfill _ _ _ phase scan ends => rw [hpos ends hr] at ho; cases ho

/-- A complete page of a fresh exchange brings everything that is stored. -/
theorem held (hfrs : d.resume = none) (hdone : page.resume = none)
    (hkept : Kept (StoredTo arrivals (d.position socket.relayStreamState).after) p) :
    ∀ e ∈ arrivals, q.log.contains e.2.id = true := by
  obtain ⟨-, hscanned, hsegs⟩ := h.outcome hq hok
  intro e he
  cases h.shape with
  | cut _ r keyed hres => rw [hdone] at hres; cases hres
  | backfill _ _ _ phase =>
    rw [show d.resume = _ from phase] at hfrs
    cases hfrs
  | full _ keyed scan ends =>
    cases hc : p.coverage.covers e.2.orderKey with
    | true =>
      rcases Nat.lt_or_ge (d.position socket.relayStreamState).after e.1 with hlt | hge
      · exact hscanned e he hlt (ends.complete hdone e he) hc
      · exact hq ▸ (after_log_extends _ _).contains (hkept e.2 ⟨e, he, rfl, hge⟩ hc)
    | false =>
      have hsvd := keyed.served
      simp only [drainRequest, hfrs] at hsvd
      have horg : e.2.body.device ∈ socket.origins := h.serves.origins e.2 (mem_map_of_mem he)
      obtain ⟨s, hs, hin⟩ := served_uncut hsvd (mem_visitOrder_fresh horg) hc fun after haft =>
        mem_originShare.2 ⟨mem_map_of_mem he, rfl, rfl, by
          cases after with
          | none => rfl
          | some b => exact decide_eq_true (haft b rfl)⟩
      exact (hsegs s hs e.2 hin).1

end Applied

/-- An arrival at or below both the cursor and the claim is on neither channel. -/
theorem leaves (h : Answered limits socket arrivals p d false t page segs) (he : e ∈ arrivals)
    (hpast : e.1 ≤ (d.position socket.relayStreamState).after) (hcov : p.coverage.covers e.2.orderKey = true)
    (hlacks : p.log.contains e.2.id = false) (peer : DeviceId) :
    (p.after (d.take socket p peer page).effects).log.contains e.2.id = false := by
  rw [← Bool.not_eq_true, OpLog.contains_iff]
  rintro ⟨x, hx, hid⟩
  rcases applyChannels_mem h.scan.backfill h.keyed (h.shape.sorted h.serves) (h.shape.visit h.serves) hx with
    hx | ⟨e', he', rfl⟩ | ⟨s, hs, hx⟩
  · rw [← hid, OpLog.contains_of_mem hx] at hlacks
    cases hlacks
  · obtain ⟨hin, hbds, -⟩ := Answered.mem_scanned.1 he'
    obtain rfl := h.serves.eq_of_id hin he hid
    omega
  · obtain ⟨e', he', rfl⟩ := h.mem_segment hs hx
    obtain rfl := h.serves.eq_of_id he' he hid
    obtain ⟨-, k, hk⟩ := h.shape.segment hs
    rw [hk] at hx
    obtain ⟨-, hdev, -, hgt⟩ := mem_originShare.1 (mem_of_mem_take hx)
    obtain ⟨claim, hclaim, hle⟩ := CoverageVector.covers_iff.1 hcov
    rw [SignedOp.orderKey_device, hdev] at hclaim
    obtain ⟨b, hb, hcb⟩ := claim_le_readAfter d.resume hclaim
    simp only [drainRequest, hb, Option.all_some, decide_eq_true_eq] at hgt
    exact absurd hgt (not_lt.2 (hle.trans hcb))

end Answered

theorem PreviewOps.leaves {quiet : List (Effect H)} (h : PreviewOps arrivals q page quiet)
    (hsrv : ServesStream socket arrivals) (he : e ∈ arrivals) (hpast : e.1 ≤ page.nextRelaySeq)
    (hlacks : q.log.contains e.2.id = false) : (q.after quiet).log.contains e.2.id = false := by
  rcases h with rfl | ⟨ops, rfl, hops⟩
  · exact hlacks
  rw [← Bool.not_eq_true, OpLog.contains_iff]
  rintro ⟨x, hx, hid⟩
  rw [admitOps_log] at hx
  rcases admitLoop_mem hx with hx | hx
  · rw [← hid, OpLog.contains_of_mem hx] at hlacks
    cases hlacks
  · obtain ⟨e', he', rfl, hlt⟩ := hops x hx
    obtain rfl := hsrv.eq_of_id he' he hid
    omega

theorem PreviewOps.quiet {quiet : List (Effect H)} (h : PreviewOps arrivals q page quiet) :
    ∀ e ∈ quiet, e.Quiet := by
  rcases h with rfl | ⟨ops, rfl, -⟩
  · exact nofun
  · exact admitOps_quiet

/-! ## Drains -/

section Run

variable {skip : Bool} {now : ℕ → ℕ} {i : ℕ}

/-- One turn of a drain in step, by a puller that knows every signer: it fails, or the page
goes through, and behind it the drain ends or goes on. -/
theorem drainTurn_registered (hsrv : ServesStream socket arrivals)
    (hreg : ∀ e ∈ arrivals, (p.registry.keyFor e.2.body.device).isSome)
    (hfits : StreamFits socket.relayStreamState d) (limits : PageLimits) (peer : DeviceId) (skip : Bool)
    (now : ℕ → ℕ) (i : ℕ) :
    (∃ r e, drainTurn limits peer false skip (steadyWorld limits socket now) (i, p, d) = .inl r ∧
      r.2.2 = .error e) ∨
    ∃ t page segs n quiet, Answered limits socket arrivals p d false t page segs ∧
      (d.take socket p peer page).result = .ok n ∧
      PreviewOps arrivals (p.after (d.take socket p peer page).effects) page quiet ∧
      ((∃ cursor r, drainTurn limits peer false skip (steadyWorld limits socket now) (i, p, d) =
          .inl (p.after ((d.take socket p peer page).effects ++ quiet), cursor, r) ∧
          ∀ n, r = .ok n → d.resume = none ∧ page.resume = none) ∨
        ∃ d', drainTurn limits peer false skip (steadyWorld limits socket now) (i, p, d) =
          .inr (i + 1, p.after ((d.take socket p peer page).effects ++ quiet), d') ∧
          d'.cursor = some ⟨socket.relayStreamState.epoch, page.nextRelaySeq⟩ ∧
          (d'.resume = none ∨ d'.resume = page.resume)) := by
  obtain ⟨page, segs, hans, hstep⟩ :=
    drainStep_stream (m := steadyWorld limits socket now i) peer p hsrv hfits rfl false skip
  cases hres : (d.take socket p peer page).result with
  | error e =>
    have hres' : (applyPullPage p peer d.cursor page skip).result = .error e := by
      rw [hans.applyPullPage_eq peer hreg skip, hres]
    exact .inl ⟨_, e, drainTurn_done (hstep.trans (drainApply_error limits _ hres')), rfl⟩
  | ok n =>
    obtain ⟨d₂, quiet, happ, hd₂, hqui⟩ :=
      hans.apply_ok (m := steadyWorld limits socket now i) rfl hreg rfl hres skip
    refine .inr ⟨_, page, segs, n, quiet, hans, hres, hqui, ?_⟩
    rw [happ] at hstep
    rcases drainAdvance_turn peer hans.data hd₂ with ⟨r, hadv, hnext, hr⟩ | ⟨d', hadv, hcur, hnext⟩
    · rw [hadv] at hstep
      refine .inl ⟨_, r, drainTurn_done hstep, fun n hn => ⟨?_, hr n hn⟩⟩
      cases hnext with
      | ends _ fresh => exact fresh
      | stalls more => rw [hr n hn] at more; cases more
    · rw [hadv] at hstep
      exact .inr ⟨d', drainTurn_again hstep, hcur.trans hd₂.cursor, hnext.resume_cases⟩

/-- A drain that keeps what lies at or below its cursor. -/
structure Delivering (socket : MeshPullSocket) (arrivals : List (ℕ × SignedOp)) (p : OpLogPullSocket H)
    (d : DrainState) : Prop where
  registered : ∀ e ∈ arrivals, (p.registry.keyFor e.2.body.device).isSome
  fits : StreamFits socket.relayStreamState d
  resume : ResumeCovered p.coverage d.resume
  kept : Kept (StoredTo arrivals (d.position socket.relayStreamState).after) p

/-- One turn of it: an error, the end with everything delivered, or the next page. -/
theorem Delivering.turn (hsrv : ServesStream socket arrivals) (h : Delivering socket arrivals p d)
    (limits : PageLimits) (peer : DeviceId) (skip : Bool) (now : ℕ → ℕ) (i : ℕ) :
    (∃ r, drainTurn limits peer false skip (steadyWorld limits socket now) (i, p, d) = .inl r ∧
      ∀ n, r.2.2 = .ok n → ∀ e ∈ arrivals, r.1.log.contains e.2.id = true) ∨
    ∃ s, drainTurn limits peer false skip (steadyWorld limits socket now) (i, p, d) = .inr s ∧
      Delivering socket arrivals s.2.1 s.2.2 := by
  rcases drainTurn_registered hsrv h.registered h.fits limits peer skip now i with
    ⟨r, e, hturn, he⟩ | ⟨t, page, segs, n, quiet, hans, hok, hpre, hturn⟩
  · exact .inl ⟨r, hturn, by simp [he]⟩
  generalize hq : p.after (d.take socket p peer page).effects = q
  rw [after_append, hq] at hturn
  rcases hturn with ⟨cursor, r, hturn, hr⟩ | ⟨d', hturn, hcur, hres⟩
  · refine .inl ⟨_, hturn, fun n hn e he => (after_log_extends _ _).contains ?_⟩
    exact hans.held hq hok (hr n hn).1 (hr n hn).2 h.kept e he
  · refine .inr ⟨_, hturn, fun e he => ?_, hans.fits_after hcur hres, ?_, ?_⟩
    · rw [after_registry, ← hq, after_registry]
      exact h.registered e he
    · rw [(OpLogPullSocket.after_quiet hpre.quiet).1]
      rcases hres with hres | hres
      · rw [hres]
        exact nofun
      · rw [hres]
        exact hans.resumeCovered hq hok
    · rw [position_of_cursor hcur]
      exact (hans.kept hq hok h.resume h.kept).after_quiet hpre.quiet

structure Missing (socket : MeshPullSocket) (arrivals : List (ℕ × SignedOp)) (e : ℕ × SignedOp)
    (p : OpLogPullSocket H) (d : DrainState) : Prop where
  registered : ∀ e ∈ arrivals, (p.registry.keyFor e.2.body.device).isSome
  fits : StreamFits socket.relayStreamState d
  past : e.1 ≤ (d.position socket.relayStreamState).after
  covered : p.coverage.covers e.2.orderKey = true
  lacks : p.log.contains e.2.id = false

theorem Missing.turn (hsrv : ServesStream socket arrivals) (he : e ∈ arrivals) (h : Missing socket arrivals e p d)
    (limits : PageLimits) (peer : DeviceId) (skip : Bool) (now : ℕ → ℕ) (i : ℕ) :
    (∃ r, drainTurn limits peer false skip (steadyWorld limits socket now) (i, p, d) = .inl r ∧
      ∀ n, r.2.2 = .ok n → r.1.log.contains e.2.id = false) ∨
    ∃ s, drainTurn limits peer false skip (steadyWorld limits socket now) (i, p, d) = .inr s ∧
      Missing socket arrivals e s.2.1 s.2.2 := by
  rcases drainTurn_registered hsrv h.registered h.fits limits peer skip now i with
    ⟨r, error, hturn, herror⟩ | ⟨t, page, segs, n, quiet, hans, hok, hpre, hturn⟩
  · exact .inl ⟨r, hturn, by simp [herror]⟩
  have hpast : e.1 ≤ page.nextRelaySeq := h.past.trans hans.next_bounds.1
  have hlacks : (p.after ((d.take socket p peer page).effects ++ quiet)).log.contains e.2.id = false := by
    rw [after_append]
    exact hpre.leaves hsrv he hpast (hans.leaves he h.past h.covered h.lacks peer)
  rcases hturn with ⟨cursor, r, hturn, -⟩ | ⟨d', hturn, hcur, hres⟩
  · exact .inl ⟨_, hturn, fun _ _ => hlacks⟩
  · refine .inr ⟨_, hturn, fun e he => ?_, hans.fits_after hcur hres, ?_, after_covers h.covered _, hlacks⟩
    · rw [after_registry]
      exact h.registered e he
    · rw [position_of_cursor hcur]
      exact hpast

variable {r : OpLogPullSocket H × Option RelayCursor × Except String PullOutcome}

theorem delivering_result (hsrv : ServesStream socket arrivals) (h : Delivering socket arrivals p d) {fuel : ℕ}
    (hrun : Loop.run (drainTurn limits peer false skip (steadyWorld limits socket now)) fuel (i, p, d) = some r) :
    ∀ n, r.2.2 = .ok n → ∀ e ∈ arrivals, r.1.log.contains e.2.id = true :=
  Loop.run_result (fun s => Delivering socket arrivals s.2.1 s.2.2)
    (fun r => ∀ n, r.2.2 = .ok n → ∀ e ∈ arrivals, r.1.log.contains e.2.id = true)
    (fun s h => h.turn hsrv limits peer skip now s.1) (s := (i, p, d)) h hrun

theorem missing_result (hsrv : ServesStream socket arrivals) (he : e ∈ arrivals)
    (h : Missing socket arrivals e p d) {fuel : ℕ}
    (hrun : Loop.run (drainTurn limits peer false skip (steadyWorld limits socket now)) fuel (i, p, d) = some r) :
    ∀ n, r.2.2 = .ok n → r.1.log.contains e.2.id = false :=
  Loop.run_result (fun s => Missing socket arrivals e s.2.1 s.2.2)
    (fun r => ∀ n, r.2.2 = .ok n → r.1.log.contains e.2.id = false)
    (fun s h => h.turn hsrv he limits peer skip now s.1) (s := (i, p, d)) h hrun

/-- A drain that starts with a reset and ends well goes on in step, from the floor. -/
theorem drain_from_floor (hsrv : ServesStream socket arrivals) {cursor : Option RelayCursor}
    (hrst : pullNeedsReset ((cursor.map RelayCursor.epoch).getD zeroEpoch)
      ((cursor.map RelayCursor.after).getD 0)
      socket.relayStreamState = true) {fuel : ℕ} {c : Option RelayCursor} {outcome : PullOutcome}
    (hrun : drainPullPages limits peer false skip fuel (steadyWorld limits socket now) p (.start cursor) =
      some (q, c, .ok outcome)) :
    ∃ p₁ d₁ fuel₁, Loop.run (drainTurn limits peer false skip (steadyWorld limits socket now)) fuel₁ (1, p₁, d₁) =
        some (q, c, .ok outcome) ∧
      p₁.log = p.log ∧ p₁.coverage = p.coverage ∧ p₁.registry = p.registry ∧ d₁.resume = none ∧
      (d₁.position socket.relayStreamState).after = socket.relayStreamState.floor ∧
      StreamFits socket.relayStreamState d₁ := by
  obtain ⟨d₁, hfst, hd₁⟩ := drainStep_reset_floor (m := steadyWorld limits socket now 0) (d := .start cursor) rfl
    hrst hsrv.floor_le rfl peer p false skip
  generalize hp₁ :
    p.after [.resetRelayCursor peer ⟨socket.relayStreamState.epoch, socket.relayStreamState.floor⟩] = p₁
  rw [drainPullPages_run] at hrun
  cases fuel with
  | zero => cases hrun
  | succ fuel =>
    rw [Loop.run_again (drainTurn_again hfst), hp₁, Nat.zero_add] at hrun
    -- a stream of the zero epoch would repeat its reset
    have hzero : ¬(socket.relayStreamState.epoch = zeroEpoch ∧ 0 < socket.relayStreamState.floor) := by
      intro hz
      obtain ⟨e, hsec⟩ := drainStep_reset_twice (m := steadyWorld limits socket now 1) rfl
        (by rw [hd₁.cursor]; simp [pullNeedsReset, hz.1, hz.2]) hd₁.seen peer p₁ false skip
      cases fuel with
      | zero => cases hrun
      | succ fuel =>
        rw [Loop.run_done (drainTurn_done hsec)] at hrun
        cases hrun
    refine ⟨p₁, d₁, fuel, hrun, ?_, ?_, ?_, hd₁.resume, position_of_cursor hd₁.cursor,
      hd₁.fits hzero hsrv.floor_le⟩
    all_goals
      rw [← hp₁]
      rfl

/-- After a reset a completed drain holds everything that is stored, if and only if every
surviving arrival at or below the floor was in the log before or above the claim. -/
theorem reset_delivers_iff {H : Host} (limits : PageLimits) (socket : MeshPullSocket)
    (arrivals : List (ℕ × SignedOp)) (hsrv : ServesStream socket arrivals) (p : OpLogPullSocket H)
    (hreg : ∀ e ∈ arrivals, (p.registry.keyFor e.2.body.device).isSome) (peer : DeviceId) (skip : Bool)
    (now : ℕ → ℕ) (cursor : Option RelayCursor)
    (hrst : pullNeedsReset ((cursor.map RelayCursor.epoch).getD zeroEpoch)
      ((cursor.map RelayCursor.after).getD 0)
      socket.relayStreamState = true) (fuel n : ℕ) (q : OpLogPullSocket H) (c : Option RelayCursor)
    (hrun : drainPullPages limits peer false skip fuel (steadyWorld limits socket now) p (.start cursor) =
      some (q, c, .ok (.applied n))) :
    (∀ e ∈ arrivals, q.log.contains e.2.id = true) ↔
      ∀ e ∈ arrivals, e.1 ≤ socket.relayStreamState.floor →
        p.log.contains e.2.id = true ∨ p.coverage.covers e.2.orderKey = false := by
  obtain ⟨p₁, d₁, fuel₁, hrun₁, hlog, hcov, hregistry, hres, hpos, hfits⟩ := drain_from_floor hsrv hrst hrun
  rw [← hlog, ← hcov]
  rw [← hregistry] at hreg
  constructor
  · intro hall e he hle
    by_contra hmiss
    rw [not_or, Bool.not_eq_true, Bool.not_eq_false] at hmiss
    have hlacks := missing_result hsrv he ⟨hreg, hfits, hpos ▸ hle, hmiss.2, hmiss.1⟩ hrun₁ _ rfl
    rw [hall e he] at hlacks
    cases hlacks
  · intro hheld
    refine delivering_result hsrv ⟨hreg, hfits, hres ▸ nofun, ?_⟩ hrun₁ _ rfl
    rintro x ⟨e, he, rfl, hle⟩ hc
    rcases hheld e he (hpos ▸ hle) with hin | hout
    · exact hin
    · rw [hout] at hc
      cases hc

/-! ## A surviving arrival below the floor -/

def survivor : List (ℕ × SignedOp) := [(1, plainPut (padTo 32 [7]) 10)]

/-- The node that stores it: the floor is 2, the head too. -/
def survivorNode : MeshPullSocket := storedSocket (padTo 32 [9]) ⟨Wire.fill 32 9, 2, 2⟩ survivor

theorem survivor_serves : ServesStream survivorNode survivor :=
  servesStream_storedSocket _ (by decide +kernel) (by decide +kernel) (by decide +kernel) (by decide +kernel)

theorem survivor_signed :
    ∀ e ∈ survivor, ((plainPuller [padTo 32 [7]]).registry.keyFor e.2.body.device).isSome := by
  decide +kernel

def appliedOps : Except String PullOutcome → Option ℕ
  | .ok (.applied n) => some n
  | _ => none

theorem eq_applied {r : Except String PullOutcome} {n : ℕ} (h : appliedOps r = some n) : r = .ok (.applied n) := by
  rcases r with e | (n | - | -)
  · cases h
  · rw [Option.some.inj h]
  · cases h
  · cases h

/-- A puller without claims gets it from the keyed channel. -/
theorem reset_delivers_survivor :
    ∃ q c, drainPullPages .shipped (padTo 32 [9]) false false 2 (steadyWorld .shipped survivorNode fun _ => 0)
        (plainPuller [padTo 32 [7]]) (.start none) = some (q, c, .ok (.applied 1)) ∧
      ∀ e ∈ survivor, q.log.contains e.2.id = true := by
  have hdrain : (drainPullPages .shipped (padTo 32 [9]) false false 2
      (steadyWorld .shipped survivorNode fun _ => 0) (plainPuller [padTo 32 [7]]) (.start none)).map
        (fun r => appliedOps r.2.2) = some (some 1) := by decide +kernel
  obtain ⟨⟨q, c, r⟩, hrun, hr⟩ := Option.map_eq_some_iff.1 hdrain
  obtain rfl : r = .ok (.applied 1) := eq_applied hr
  refine ⟨q, c, hrun,
    (reset_delivers_iff .shipped survivorNode survivor survivor_serves _ survivor_signed _ false _ none
    (by decide +kernel) 2 1 q c hrun).2 ?_⟩
  decide +kernel

/-- A puller that got a later op of the same device from another node has a claim above it:
the reset goes past it, the drain ends well, and the puller never gets it. -/
theorem reset_buries_survivor :
    ServesStream survivorNode survivor ∧
    ((drainPullPages .shipped (padTo 32 [5]) false false 1
        (steadyWorld .shipped
          ((PageReads.atomic (plainLog [plainPut (padTo 32 [7]) 20])).serveState (padTo 32 [5]))
          fun _ => 0) (plainPuller [padTo 32 [7]]) (.start none)).bind fun first =>
      (drainPullPages .shipped (padTo 32 [9]) false false 2 (steadyWorld .shipped survivorNode fun _ => 0)
        first.1 (.start none)).map fun second =>
          (appliedOps first.2.2, appliedOps second.2.2, survivor.map fun e => second.1.log.contains e.2.id)) =
      some (some 1, some 0, [false]) :=
  ⟨survivor_serves, by decide +kernel⟩

end Run

end ProxyNode
