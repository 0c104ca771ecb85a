import ProxyNode.Sanity.Admission
import ProxyNode.Sanity.Runs

/-! The delivery invariant of a pulling socket: an arrival that a saved cursor has gone
past is in the log, or still above the claim for its origin, where the keyed channel of
its server serves it. This file says which pages keep it through each of their effects:
the scan must hold every covered arrival it goes past, and a run may raise its claim only
over ops it brings along. -/

namespace ProxyNode

open Journal OpLogPullSocket List

variable {H : Host} {p : OpLogPullSocket H} {servers : SortedMap DeviceId OpLog}

/-- Every op of `passed` at or below its origin's claim is in the log. -/
def Kept (passed : SignedOp → Prop) (p : OpLogPullSocket H) : Prop :=
  ∀ x, passed x → p.coverage.covers x.orderKey = true → p.log.contains x.id = true

/-- The arrivals the socket's saved cursors have gone past. -/
def Passed (servers : SortedMap DeviceId OpLog) (p : OpLogPullSocket H) (x : SignedOp) : Prop :=
  ∃ peer log cursor, servers.get? peer = some log ∧ p.cursors.get? peer = some cursor ∧
    x ∈ log.arrivals.take cursor.after

/-- An arrival at or below a saved cursor is in the log or strictly above its claim. -/
def Deliverable (servers : SortedMap DeviceId OpLog) (p : OpLogPullSocket H) : Prop :=
  Kept (Passed servers p) p

variable {passed : SignedOp → Prop}

theorem Kept.mono {passed' : SignedOp → Prop} (h : Kept passed p) (hsub : ∀ x, passed' x → passed x) :
    Kept passed' p :=
  fun x hx hc => h x (hsub x hx) hc

theorem Kept.or {a b : SignedOp → Prop} (ha : Kept a p) (hb : Kept b p) : Kept (fun x => a x ∨ b x) p :=
  fun x hx hc => hx.elim (fun h => ha x h hc) (fun h => hb x h hc)

theorem Kept.perform_quiet (h : Kept passed p) {e : Effect H} (he : e.Quiet) :
    Kept passed (p.perform e) := by
  intro x hx hc
  rw [(OpLogPullSocket.perform_quiet he).1] at hc
  exact (p.perform_log_extends e).contains (h x hx hc)

theorem Kept.along_quiet (h : Kept passed p) {es : List (Effect H)} (he : ∀ e ∈ es, e.Quiet) :
    Along perform (Kept passed) p es :=
  along_of_step h fun e hm _ ht => ht.perform_quiet (he e hm)

theorem Kept.after_quiet (h : Kept passed p) {es : List (Effect H)} (he : ∀ e ∈ es, e.Quiet) :
    Kept passed (p.after es) :=
  after_of_along (h.along_quiet he)

/-! ## The keyed part -/

/-- Raising the segment's claim to any of its keys covers no op of `passed` that is
neither in the log nor among the segment's ops up to that key. -/
def SegmentSafe (passed : SignedOp → Prop) (p : OpLogPullSocket H) (s : Segment) : Prop :=
  ∀ x, passed x → x.orderKey.device = s.1 → p.coverage.covers x.orderKey = false →
    ∀ n z, s.2[n]? = some z → x.orderKey ≤ z.orderKey →
      p.log.contains x.id = true ∨ ∃ y ∈ s.2.take (n + 1), y.id = x.id

/-- A claim is raised to the last op of a non-empty claim-safe prefix. -/
theorem raiseClaim_cases (run : KeyedRun) (n : ℕ) :
    (raiseClaim (H := H) run n = [] ∧ (0 < n → run.ops[n - 1]? = none)) ∨
    ∃ op h, run.ops[n - 1]? = some op ∧ 0 < n ∧
      raiseClaim (H := H) run n = [.advanceLocalCoverage run.origin op.orderKey h] := by
  unfold raiseClaim
  split_ifs with hpos
  · split
    · rename_i op h
      exact .inr ⟨op, run.same op (mem_of_getElem? h), h, hpos, rfl⟩
    · rename_i h
      exact .inl ⟨rfl, fun _ => h⟩
  · exact .inl ⟨rfl, fun h => absurd h hpos⟩

theorem applyRun_effects (p : OpLogPullSocket H) (run : KeyedRun) (skip : Bool) :
    (applyRun p run skip).effects = (p.admitOps run.ops skip).effects ++
      raiseClaim run (p.admitOps run.ops skip).admitted := by
  rw [applyRun, admitOps_claimSafe, admitOps_admitted]

theorem applyRun_kept (h : Kept passed p) {run : KeyedRun} (hsafe : SegmentSafe passed p run.segment) :
    Along perform (Kept passed) p (applyRun p run false).effects := by
  have hq : ∀ e ∈ (p.admitOps run.ops false).effects, e.Quiet := admitOps_quiet
  rw [applyRun_effects]
  rcases raiseClaim_cases (H := H) run (p.admitOps run.ops false).admitted with
    ⟨he, -⟩ | ⟨op, hop, hget, hpos, he⟩
  · rw [he, append_nil]
    exact h.along_quiet hq
  · rw [he]
    refine along_append_iff.2 ⟨h.along_quiet hq, along_singleton.2 ⟨h.after_quiet hq, ?_⟩⟩
    intro x hx hc
    rcases (CoverageVector.covers_advance hop).1 hc with hc | ⟨hd, hle⟩
    · exact h.after_quiet hq x hx hc
    · change (p.after (p.admitOps run.ops false).effects).log.contains x.id = true
      cases hcov : p.coverage.covers x.orderKey with
      | true => exact (after_log_extends _ _).contains (h x hx hcov)
      | false =>
        rcases hsafe x hx hd hcov _ op hget hle with hin | ⟨y, hy, hid⟩
        · exact (after_log_extends _ _).contains hin
        · rw [Nat.sub_add_cancel hpos] at hy
          exact hid ▸ admitOps_contains hy

/-- What a run does to the claims of another origin: nothing. -/
theorem applyRun_claims (p : OpLogPullSocket H) (run : KeyedRun) (skip : Bool) {o : DeviceId}
    (ho : o ≠ run.origin) :
    (p.after (applyRun p run skip).effects).coverage.claims.get? o = p.coverage.claims.get? o := by
  have hq := p.admitOps_coverage run.ops skip
  rw [applyRun_effects, after_append]
  rcases raiseClaim_cases (H := H) run (p.admitOps run.ops skip).admitted with ⟨he, -⟩ | ⟨op, hop, -, -, he⟩
  · rw [he, after_nil, hq]
  · rw [he, after_cons, after_nil]
    change ((p.after _).coverage.advance run.origin op.orderKey hop).claims.get? o = _
    rw [CoverageVector.get?_advance_of_ne _ hop ho, hq]

theorem SegmentSafe.after_run {s : Segment} (hs : SegmentSafe passed p s) {run : KeyedRun}
    (hne : s.1 ≠ run.origin) (skip : Bool) :
    SegmentSafe passed (p.after (applyRun p run skip).effects) s := by
  intro x hx hd hc n z hz hle
  have hcov : p.coverage.covers x.orderKey = false := by
    rwa [CoverageVector.covers, applyRun_claims p run skip (hd ▸ hne)] at hc
  rcases hs x hx hd hcov n z hz hle with h | h
  · exact .inl ((after_log_extends _ _).contains h)
  · exact .inr h

theorem applyRuns_kept (h : Kept passed p) {runs : List KeyedRun} (hn : (runs.map KeyedRun.origin).Nodup)
    (hs : ∀ run ∈ runs, SegmentSafe passed p run.segment) :
    Along perform (Kept passed) p (applyRuns false runs p).effects := by
  induction runs generalizing p with
  | nil => exact along_nil.2 h
  | cons run runs ih =>
    rw [map_cons, nodup_cons] at hn
    have hfst := applyRun_kept h (hs run mem_cons_self)
    rw [applyRuns]
    cases he : (applyRun p run false).error with
    | some e => exact hfst
    | none =>
      refine along_append_iff.2 ⟨hfst, ih (after_of_along hfst) hn.2 fun run' hr => ?_⟩
      refine (hs run' (mem_cons_of_mem _ hr)).after_run (fun heq => hn.1 ?_) false
      exact mem_map.2 ⟨run', hr, heq⟩

theorem applyRuns_cursors (skip : Bool) (runs : List KeyedRun) (p : OpLogPullSocket H) :
    Along perform (fun q => q.cursors = p.cursors) p (applyRuns skip runs p).effects := by
  have hone : ∀ (run : KeyedRun) (p : OpLogPullSocket H), ∀ e ∈ (applyRun p run skip).effects,
      ∀ q : OpLogPullSocket H, (q.perform e).cursors = q.cursors := by
    intro run p e he q
    rw [applyRun_effects] at he
    rcases mem_append.1 he with he | he
    · exact (perform_quiet (admitOps_quiet e he)).2
    · rcases raiseClaim_cases (H := H) run (p.admitOps run.ops skip).admitted with
        ⟨h, -⟩ | ⟨op, hop, -, -, h⟩
      · rw [h] at he
        cases he
      · rw [h] at he
        rw [mem_singleton.1 he]
        rfl
  induction runs generalizing p with
  | nil => exact along_nil.2 rfl
  | cons run runs ih =>
    have hfst : Along perform (fun q => q.cursors = p.cursors) p (applyRun p run skip).effects :=
      along_of_step rfl fun e he q hq => (hone run p e he q).trans hq
    rw [applyRuns]
    cases he : (applyRun p run skip).error with
    | some e => exact hfst
    | none =>
      refine along_append_iff.2 ⟨hfst, fun n => ?_⟩
      exact (ih _ n).trans (after_of_along hfst)

/-! ## The positional part -/

theorem deliverable_quiet (h : Deliverable servers p) {e : Effect H} (he : e.Quiet) :
    Deliverable servers (p.perform e) := by
  refine (Kept.perform_quiet h he).mono fun x hx => ?_
  rwa [Passed, (perform_quiet he).2] at hx

theorem passed_save {peer : DeviceId} {log : OpLog} (hlog : servers.get? peer = some log)
    (cursor : RelayCursor) {x : SignedOp} (hx : Passed servers (p.perform (.saveRelayCursor peer cursor)) x) :
    Passed servers p x ∨ x ∈ log.arrivals.take cursor.after := by
  obtain ⟨peer', log', c, hl, hc, hx⟩ := hx
  simp only [perform, OpLogPullSocket.saveRelayCursor, SortedMap.get?_upsert] at hc
  split_ifs at hc with hp
  · subst hp
    obtain rfl : log = log' := Option.some.inj (hlog.symm.trans hl)
    cases hold : p.cursors.get? peer' with
    | none =>
      rw [hold] at hc
      obtain rfl := Option.some.inj hc
      exact .inr hx
    | some existing =>
      rw [hold, Option.map_some, Option.getD_some, Option.some.injEq] at hc
      split_ifs at hc
      · subst hc
        exact (mem_take_max.1 hx).imp_left fun hx => ⟨peer', log, existing, hlog, hold, hx⟩
      · subst hc
        exact .inr hx
  · exact .inl ⟨peer', log', c, hl, hc, hx⟩

variable {cursor : RelayCursor}

/-- A cursor may be saved where everything it passes is kept. -/
theorem deliverable_save {peer : DeviceId} {log : OpLog} (hlog : servers.get? peer = some log)
    (h : Deliverable servers p) (hk : Kept (· ∈ log.arrivals.take cursor.after) p) :
    Deliverable servers (p.perform (.saveRelayCursor peer cursor)) := by
  intro x hx hc
  exact (Kept.or h hk) x (passed_save hlog cursor hx) hc

variable {arrivals : List SignedOp} {start k : ℕ}

/-- A scan behind a kept position keeps the stretch whose covered arrivals are held. -/
theorem kept_scan {m : ℕ} (hstart : Kept (· ∈ arrivals.take start) p) (hm : m ≤ k)
    (hin : ∀ e ∈ coveredArrivals p.coverage ((arrivals.drop start).take k) start, e.1 ≤ start + m →
      p.log.contains e.2.id = true) :
    Kept (· ∈ arrivals.take (start + m)) p := by
  intro x hx hc
  obtain ⟨i, hi, rfl⟩ := mem_take_iff_getElem.1 hx
  by_cases his : i < start
  · exact hstart _ (mem_take_iff_getElem.2 ⟨i, by omega, rfl⟩) hc
  · have hil : i < arrivals.length := by omega
    refine hin (i + 1, arrivals[i]) (mem_coveredArrivals.2 ⟨i - start, ?_, by simp; omega, hc⟩)
      (by simp; omega)
    rw [getElem?_take, if_pos (by omega), getElem?_drop, Nat.add_sub_cancel' (not_lt.1 his),
      getElem?_eq_getElem hil]

/-! ## Whole pages -/

/-- A page the socket can take from a cursor at `here`: its scan starts no later, and its
keyed part raises claims safely for the ops of `passed`. -/
structure PageFits (log : OpLog) (passed : SignedOp → Prop) (p : OpLogPullSocket H) (here : ℕ)
    (page : PullPage) : Prop where
  scan : ∃ start k, start ≤ here ∧ page.nextRelaySeq = start + k ∧
    page.backfill = backfillEntries (coveredArrivals p.coverage ((log.arrivals.drop start).take k) start)
  keyed : ∃ segs, page.keyed = segmentEntries segs ∧ (∀ s ∈ segs, s.Sorted) ∧
    VisitSorted (segs.map Prod.fst) ∧ ∀ s ∈ segs, SegmentSafe passed p s

variable {peer : DeviceId} {log : OpLog} {page : PullPage}

theorem applyKeyed_deliverable {before : List (Effect H)} {applied : ℕ}
    (hbef : Along perform (Deliverable servers) p before) (hcov : (p.after before).coverage = p.coverage)
    {segs : List Segment} (hpage : page.keyed = segmentEntries segs) (hsrt : ∀ s ∈ segs, s.Sorted)
    (hvis : VisitSorted (segs.map Prod.fst))
    (hsafe : ∀ s ∈ segs, SegmentSafe (Passed servers (p.after before)) p s) :
    Along perform (Deliverable servers) p
      (applyKeyed p peer cursor page false before applied).effects := by
  unfold applyKeyed
  cases hs : splitRuns peer page.keyed [] none with
  | error e => exact hbef
  | ok runs =>
    rw [hpage] at hs
    obtain ⟨runs', hs', hmap⟩ := splitRuns_segments peer hsrt (splitRuns_versions hs) hvis
    obtain rfl : runs' = runs := Except.ok.inj (hs'.symm.trans hs)
    have hmem : ∀ run ∈ runs'.reverse, run.segment ∈ segs := fun run hr =>
      (mem_filter.1 (hmap ▸ mem_map_of_mem hr)).1
    have hnd : (runs'.reverse.map KeyedRun.origin).Nodup := by
      have hfst : runs'.reverse.map KeyedRun.origin = (runs'.reverse.map KeyedRun.segment).map Prod.fst := by
        rw [map_map]
        rfl
      rw [hfst, hmap]
      exact hvis.2.sublist (filter_sublist.map _)
    refine along_append_iff.2 ⟨hbef, ?_⟩
    have hsafe' : ∀ run ∈ runs'.reverse, SegmentSafe (Passed servers (p.after before)) (p.after before)
        run.segment := by
      intro run hr x hx hd hc n z hz hle
      rw [hcov] at hc
      exact (hsafe _ (hmem run hr) x hx hd hc n z hz hle).imp_left (after_log_extends _ _).contains
    have hd : Deliverable servers (p.after before) := after_of_along hbef
    have hk := applyRuns_kept hd hnd hsafe'
    have hcur := applyRuns_cursors false runs'.reverse (p.after before)
    intro n
    refine (hk n).mono fun x hx => ?_
    rwa [Passed, hcur n] at hx

variable {cur : RelayCursor}

/-- The callback's cursor keeps what the admitted entries keep. -/
theorem followAdmitted_kept {admitted : ℕ} (hcur : Kept (· ∈ arrivals.take cur.after) p)
    (hstart : Kept (· ∈ arrivals.take start) p)
    (htkn : ∀ e ∈ (coveredArrivals p.coverage ((arrivals.drop start).take k) start).take admitted,
      p.log.contains e.2.id = true) :
    Kept (· ∈ arrivals.take (followAdmitted (H := H) peer cur
      (coveredArrivals p.coverage ((arrivals.drop start).take k) start) admitted).1.after) p := by
  unfold followAdmitted
  split_ifs with hpos
  · cases he : (coveredArrivals p.coverage ((arrivals.drop start).take k) start)[admitted - 1]? with
    | none => exact hcur
    | some e =>
      obtain ⟨i, hi, hseq, -⟩ := mem_coveredArrivals.1 (mem_of_getElem? he)
      have hik : i + 1 ≤ k := by
        obtain ⟨hlt, -⟩ := List.getElem?_eq_some_iff.1 hi
        exact (Nat.succ_le_of_lt hlt).trans (length_take_le _ _)
      have hs := kept_scan (m := i + 1) hstart hik fun e' he' hle => htkn e' <| by
        have hmem := mem_take_of_key_le Prod.fst
          (coveredArrivals_advancing _ _ _).2 he' he (by omega)
        rwa [Nat.sub_add_cancel hpos] at hmem
      simpa [hseq, Nat.add_assoc] using hs
  · exact hcur

theorem Kept.congr {q : OpLogPullSocket H} (h : Kept passed p) (hc : q.coverage = p.coverage)
    (hl : q.log = p.log) : Kept passed q := by
  intro x hx hcov
  rw [hc] at hcov
  rw [hl]
  exact h x hx hcov

theorem followAdmitted_effects (peer : DeviceId) (cur : RelayCursor) (entries : List (ℕ × SignedOp))
    (admitted : ℕ) :
    let follow := followAdmitted (H := H) peer cur entries admitted
    follow.2 = [] ∨ follow.2 = [.saveRelayCursor peer follow.1] := by
  unfold followAdmitted
  split_ifs
  · exact .inr rfl
  · exact .inl rfl

variable {entries : List (ℕ × SignedOp)}

theorem followAdmitted_le (peer : DeviceId) (cur : RelayCursor) {next : ℕ}
    (hnext : ∀ e ∈ entries, e.1 ≤ next) (admitted : ℕ) :
    (followAdmitted (H := H) peer cur entries admitted).1.after ≤ max cur.after next := by
  unfold followAdmitted
  split_ifs
  · cases he : entries[admitted - 1]? with
    | none => exact le_max_left _ _
    | some e => exact (hnext e (mem_of_getElem? he)).trans (le_max_right _ _)
  · exact le_max_left _ _

/-- Admitting the entries of a stretch keeps what the callback's cursor has passed and, where all
were admitted, the whole stretch. -/
theorem admitEntries_kept (peer : DeviceId) (hstart : start ≤ cur.after)
    (hhere : Kept (· ∈ arrivals.take cur.after) p)
    (hents : entries = coveredArrivals p.coverage ((arrivals.drop start).take k) start)
    {adm : PullAdmission H} (hadm : p.admitOps (entries.map Prod.snd) false = adm) :
    Kept (· ∈ arrivals.take (followAdmitted (H := H) peer cur entries adm.admitted).1.after)
        (p.after adm.effects) ∧
      (adm.error = none → Kept (· ∈ arrivals.take (start + k)) (p.after adm.effects)) := by
  have hq : ∀ e ∈ adm.effects, e.Quiet := hadm ▸ admitOps_quiet
  -- behind the admission: same claims, a longer log that holds what was admitted
  have hcov : (p.after adm.effects).coverage = p.coverage := (after_quiet hq).1
  have hkept := hhere.after_quiet hq
  have hkstart : Kept (· ∈ arrivals.take start) (p.after adm.effects) :=
    hkept.mono fun x hx => take_subset_take_left _ hstart hx
  have htkn : ∀ e ∈ entries.take adm.admitted, (p.after adm.effects).log.contains e.2.id = true := by
    subst hadm
    exact fun e he => admitOps_contains (by rw [← map_take]; exact mem_map_of_mem he)
  refine ⟨?_, fun he => ?_⟩
  · rw [hents, ← hcov] at htkn ⊢
    exact followAdmitted_kept hkept hkstart htkn
  · refine kept_scan hkstart le_rfl fun e hm _ => htkn e ?_
    have hlen : adm.admitted = entries.length := by
      subst hadm
      rw [admitOps_all he, length_map]
    rw [hlen, take_length, hents]
    rwa [hcov] at hm

/-- What the positional part of an honest page does: it stops at once, or admits the entries and
follows with the cursor. -/
theorem applyBackfill_cases {skip : Bool} (hback : page.backfill = backfillEntries entries)
    {progress : Progress H} (hres : applyBackfill p peer cur page skip = (progress, cursor)) :
    (∃ e, progress = ⟨[.saveRelayCursor peer cur], 0, some e⟩ ∧ cursor = cur) ∨
      (∀ e ∈ entries, cur.after < e.1) ∧ ∃ admission : PullAdmission H,
        (p.after [.saveRelayCursor peer cur]).admitOps (entries.map Prod.snd) skip = admission ∧
        progress = ⟨[.saveRelayCursor peer cur] ++ admission.effects ++
          (followAdmitted peer cur entries admission.admitted).2, admission.admitted, admission.error⟩ ∧
        cursor = (followAdmitted (H := H) peer cur entries admission.admitted).1 := by
  unfold applyBackfill at hres
  cases hd : decodeBackfill peer cur.after cur.after page.backfill with
  | error e =>
    rw [hd] at hres
    obtain ⟨rfl, rfl⟩ := Prod.mk.inj hres
    exact .inl ⟨e, rfl, rfl⟩
  | ok entries' =>
    rw [hd] at hres
    obtain ⟨rfl, rfl⟩ := Prod.mk.inj hres
    rw [hback] at hd
    obtain ⟨rfl, hlt⟩ := decodeBackfill_ok hd
    exact .inr ⟨hlt, _, rfl, rfl, rfl⟩

/-- The positional part: through all of its effects nothing is lost, the claims stay, and
where it went through, the position the page ends at is kept. -/
theorem applyBackfill_deliverable (hlog : servers.get? peer = some log) (h : Deliverable servers p)
    (hhere : Kept (· ∈ log.arrivals.take cur.after) p) (hstart : start ≤ cur.after)
    (hnext : page.nextRelaySeq = start + k)
    (hback : page.backfill = backfillEntries (coveredArrivals p.coverage ((log.arrivals.drop start).take k) start))
    {progress : Progress H} (hres : applyBackfill p peer cur page false = (progress, cursor)) :
    Along perform (Deliverable servers) p progress.effects ∧
    (p.after progress.effects).coverage = p.coverage ∧
    Kept (· ∈ log.arrivals.take cursor.after) (p.after progress.effects) ∧
    (progress.error = none →
      Kept (· ∈ log.arrivals.take page.nextRelaySeq) (p.after progress.effects)) ∧
    cursor.after ≤ max cur.after page.nextRelaySeq ∧
    ∀ x, Passed servers (p.after progress.effects) x →
      Passed servers p x ∨ x ∈ log.arrivals.take (max cur.after page.nextRelaySeq) := by
  have hbelow : ∀ {c : RelayCursor} {x : SignedOp}, c.after ≤ max cur.after page.nextRelaySeq →
      x ∈ log.arrivals.take c.after → x ∈ log.arrivals.take (max cur.after page.nextRelaySeq) :=
    fun hle hx => take_subset_take_left _ hle hx
  have hcom : ∀ x, Passed servers (p.perform (.saveRelayCursor peer cur)) x →
      Passed servers p x ∨ x ∈ log.arrivals.take (max cur.after page.nextRelaySeq) :=
    fun x hx => (passed_save hlog cur hx).imp_right (hbelow (le_max_left _ _))
  have h1 := deliverable_save hlog h hhere
  rcases applyBackfill_cases hback hres with ⟨e, rfl, rfl⟩ | ⟨-, adm, hadm, rfl, rfl⟩
  · exact ⟨along_singleton.2 ⟨h, h1⟩, rfl, hhere, nofun, le_max_left _ _, hcom⟩
  · set entries := coveredArrivals p.coverage ((log.arrivals.drop start).take k) start with hents
    generalize hp1 : p.after [.saveRelayCursor peer cur] = p1
    rw [hp1] at hadm
    have hp1cov : p1.coverage = p.coverage := by rw [← hp1]; rfl
    have hd1 : Deliverable servers p1 := by rw [← hp1]; exact h1
    have hhere1 : Kept (· ∈ log.arrivals.take cur.after) p1 := by
      rw [← hp1]
      exact hhere.congr rfl rfl
    have hq : ∀ e ∈ adm.effects, e.Quiet := hadm ▸ admitOps_quiet
    have halong : Along perform (Deliverable servers) p1 adm.effects :=
      along_of_step hd1 fun e he _ ht => deliverable_quiet ht (hq e he)
    have hcov : (p1.after adm.effects).coverage = p.coverage :=
      (after_quiet hq).1.trans hp1cov
    obtain ⟨hfol, hall⟩ := admitEntries_kept peer hstart hhere1 (by rw [hp1cov]) hadm
    rw [← hnext] at hall
    have hle : (followAdmitted (H := H) peer cur entries adm.admitted).1.after ≤
        max cur.after page.nextRelaySeq :=
      followAdmitted_le peer cur (fun e he => hnext ▸ coveredArrivals_le he) _
    have hpas : ∀ x, Passed servers (p1.after adm.effects) x →
        Passed servers p x ∨ x ∈ log.arrivals.take (max cur.after page.nextRelaySeq) := by
      intro x hx
      rw [Passed, (after_quiet hq).2, ← hp1] at hx
      exact hcom x hx
    rcases followAdmitted_effects (H := H) peer cur entries adm.admitted with hf | hf
    · rw [hf, append_nil, after_append, hp1]
      exact ⟨along_append_iff.2 ⟨along_singleton.2 ⟨h, h1⟩, hp1 ▸ halong⟩, hcov, hfol, hall, hle,
        hpas⟩
    · rw [hf, after_append, after_append, hp1]
      refine ⟨along_append_iff.2 ⟨along_append_iff.2 ⟨along_singleton.2 ⟨h, h1⟩, hp1 ▸ halong⟩, ?_⟩,
        hcov, hfol.congr rfl rfl, fun he => (hall he).congr rfl rfl, hle, fun x hx =>
        (passed_save hlog _ hx).elim (hpas x) (fun hx => Or.inr (hbelow hle hx))⟩
      rw [after_append, hp1]
      exact along_singleton.2 ⟨after_of_along halong, deliverable_save hlog (after_of_along halong) hfol⟩

theorem applyChannels_deliverable (hlog : servers.get? peer = some log) (h : Deliverable servers p)
    (hhere : Kept (· ∈ log.arrivals.take cur.after) p)
    (hfits : PageFits log (fun x => Passed servers p x ∨ x ∈ log.arrivals.take (max cur.after
      page.nextRelaySeq)) p cur.after page) :
    Along perform (Deliverable servers) p (applyChannels p peer cur page false).effects := by
  obtain ⟨⟨start, k, hstart, hnext, hback⟩, segs, hkey, hsrt, hvis, hsafe⟩ := hfits
  unfold applyChannels
  generalize hres : applyBackfill p peer cur page false = r
  obtain ⟨progress, cursor⟩ := r
  obtain ⟨halong, hcov, hcur, hall, hle, hpas⟩ :=
    applyBackfill_deliverable hlog h hhere hstart hnext hback hres
  dsimp only
  cases he : progress.error with
  | some e => exact halong
  | none =>
    have hd : Deliverable servers (p.after progress.effects) := after_of_along halong
    have hnextKept : Kept (· ∈ log.arrivals.take (max cursor.after page.nextRelaySeq))
        (p.after progress.effects) :=
      (hcur.or (hall he)).mono fun x hx => mem_take_max.1 hx
    refine applyKeyed_deliverable ?_ ?_ hkey hsrt hvis fun s hs x hx => ?_
    · exact along_append_iff.2 ⟨halong, along_singleton.2 ⟨hd, deliverable_save hlog hd hnextKept⟩⟩
    · rw [after_append]
      exact hcov
    · rw [after_append] at hx
      refine hsafe s hs x ((passed_save hlog _ hx).elim (hpas x) fun hx => Or.inr ?_)
      exact take_subset_take_left _ (max_le hle (le_max_right _ _)) hx

/-- A page that fits keeps the invariant through every one of its effects. -/
theorem applyPullPage_deliverable (hlog : servers.get? peer = some log) (h : Deliverable servers p)
    {cursor : Option RelayCursor} {here : ℕ} (hcur : (cursor.map RelayCursor.after).getD 0 = here)
    (hhere : Kept (· ∈ log.arrivals.take here) p) (hfits : PageFits log (fun x => Passed servers p x ∨
      x ∈ log.arrivals.take (max here page.nextRelaySeq)) p here page) :
    Along perform (Deliverable servers) p (applyPullPage p peer cursor page false).effects := by
  unfold applyPullPage
  cases page.epoch with
  | none => exact along_nil.2 h
  | some epoch =>
    cases cursor with
    | none =>
      obtain rfl : here = 0 := hcur.symm
      exact applyChannels_deliverable hlog h hhere hfits
    | some cur =>
      obtain rfl : here = cur.after := hcur.symm
      dsimp only
      split_ifs
      · exact applyChannels_deliverable hlog h hhere hfits
      · exact along_nil.2 h

end ProxyNode
