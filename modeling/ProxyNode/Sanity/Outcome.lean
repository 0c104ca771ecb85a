import ProxyNode.Sanity.Delivery

/-! What a page leaves behind: its saves stay at its own peer and within the position it
ends at; and once it has gone through, everything it carried is in the log, its claims
have reached the last key of each run, and the caller's cursor is saved. -/

namespace ProxyNode

open Journal OpLogPullSocket List Prod

variable {H : Host} {p : OpLogPullSocket H} {peer : DeviceId} {page : PullPage}

variable {key : OrderKey}

theorem perform_covers (h : p.coverage.covers key = true) (e : Effect H) :
    (p.perform e).coverage.covers key = true := by
  cases e with
  | advanceLocalCoverage origin k hk => exact (CoverageVector.covers_advance hk).2 (.inl h)
  | _ => exact h

theorem after_covers (h : p.coverage.covers key = true) (es : List (Effect H)) :
    (p.after es).coverage.covers key = true := by
  induction es generalizing p with
  | nil => exact h
  | cons e es ih => exact ih (perform_covers h e)

/-! ## The keyed part -/

theorem key_le_last {ops : List SignedOp} (hp : ops.Pairwise fun a b => a.orderKey < b.orderKey)
    {op last : SignedOp} (hop : op ∈ ops) (hlast : ops[ops.length - 1]? = some last) :
    op.orderKey ≤ last.orderKey := by
  obtain ⟨i, hi, rfl⟩ := mem_iff_getElem.1 hop
  obtain ⟨hl, rfl⟩ := List.getElem?_eq_some_iff.1 hlast
  rcases Nat.lt_or_ge i (ops.length - 1) with h | h
  · exact (pairwise_iff_getElem.1 hp i _ hi hl h).le
  · have : i = ops.length - 1 := by omega
    subst this
    exact le_rfl

theorem applyRun_ok {run : KeyedRun} (hs : run.segment.Sorted) (he : (applyRun p run false).error = none)
    {op : SignedOp} (hop : op ∈ run.ops) :
    (p.after (applyRun p run false).effects).log.contains op.id = true ∧
      (p.after (applyRun p run false).effects).coverage.covers op.orderKey = true := by
  have hall : (p.admitOps run.ops false).admitted = run.ops.length := admitOps_all he
  have hin : (p.after (p.admitOps run.ops false).effects).log.contains op.id = true :=
    admitOps_contains (by rwa [hall, take_length])
  have hpos : 0 < run.ops.length := length_pos_of_mem hop
  rw [applyRun_effects, hall, after_append]
  rcases raiseClaim_cases (H := H) run run.ops.length with ⟨-, hnone⟩ | ⟨last, hd, hlast, -, hr⟩
  · rw [getElem?_eq_none_iff] at hnone
    have := hnone hpos
    omega
  · rw [hr]
    refine ⟨hin, (CoverageVector.covers_advance hd).2 (.inr ⟨hs.1 op hop, ?_⟩)⟩
    exact key_le_last hs.2 hop hlast

variable {runs : List KeyedRun}

theorem applyRuns_ok (hs : ∀ run ∈ runs, run.segment.Sorted) (he : (applyRuns false runs p).error = none) :
    ∀ run ∈ runs, ∀ op ∈ run.ops,
      (p.after (applyRuns false runs p).effects).log.contains op.id = true ∧
      (p.after (applyRuns false runs p).effects).coverage.covers op.orderKey = true := by
  induction runs generalizing p with
  | nil => simp
  | cons run runs ih =>
    rw [applyRuns] at he ⊢
    cases hfst : (applyRun p run false).error with
    | some e => rw [hfst] at he; cases he
    | none =>
      rw [hfst] at he
      have hs' := fun r hr => hs r (mem_cons_of_mem _ hr)
      intro r hr op hop
      simp only [after_append]
      rcases mem_cons.1 hr with rfl | hr
      · obtain ⟨h1, h2⟩ := applyRun_ok (hs r mem_cons_self) hfst hop
        exact ⟨(after_log_extends _ _).contains h1, after_covers h2 _⟩
      · exact ih hs' he r hr op hop

/-- Claims follow the ops of the runs and nothing else. -/
theorem applyRuns_covers {skip : Bool} (h : (p.after (applyRuns skip runs p).effects).coverage.covers key = true) :
    p.coverage.covers key = true ∨
      ∃ run ∈ runs, ∃ op ∈ run.ops, op.orderKey.device = key.device ∧ key ≤ op.orderKey := by
  have hone : ∀ (run : KeyedRun) (p : OpLogPullSocket H),
      (p.after (applyRun p run skip).effects).coverage.covers key = true → p.coverage.covers key = true ∨
        ∃ op ∈ run.ops, op.orderKey.device = key.device ∧ key ≤ op.orderKey := by
    intro run p h
    have hq := p.admitOps_coverage run.ops skip
    rw [applyRun_effects, after_append] at h
    rcases raiseClaim_cases (H := H) run (p.admitOps run.ops skip).admitted with
      ⟨he, -⟩ | ⟨op, hop, hget, -, he⟩
    · rw [he, after_nil, hq] at h
      exact .inl h
    · rw [he] at h
      rcases (CoverageVector.covers_advance hop).1 h with h | ⟨hd, hle⟩
      · rw [hq] at h
        exact .inl h
      · exact .inr ⟨op, mem_of_getElem? hget, hop.trans hd.symm, hle⟩
  induction runs generalizing p with
  | nil => exact .inl h
  | cons run runs ih =>
    have hfst := fun h => (hone run p h).imp_right fun h =>
      (⟨run, mem_cons_self, h⟩ : ∃ r ∈ run :: runs, ∃ op ∈ r.ops,
        op.orderKey.device = key.device ∧ key ≤ op.orderKey)
    rw [applyRuns] at h
    cases he : (applyRun p run skip).error with
    | some e =>
      rw [he] at h
      exact hfst h
    | none =>
      rw [he] at h
      simp only [after_append] at h
      rcases ih h with h | ⟨r, hr, h⟩
      · exact hfst h
      · exact .inr ⟨r, mem_cons_of_mem _ hr, h⟩

theorem applyRuns_mem {skip : Bool} {x : SignedOp}
    (hx : x ∈ (p.after (applyRuns skip runs p).effects).log.arrivals) :
    x ∈ p.log.arrivals ∨ ∃ run ∈ runs, x ∈ run.ops := by
  have hone : ∀ (run : KeyedRun) (p : OpLogPullSocket H),
      x ∈ (p.after (applyRun p run skip).effects).log.arrivals → x ∈ p.log.arrivals ∨ x ∈ run.ops := by
    intro run p hx
    rw [applyRun_effects, after_append] at hx
    have hx' : x ∈ (p.after (p.admitOps run.ops skip).effects).log.arrivals := by
      rcases raiseClaim_cases (H := H) run (p.admitOps run.ops skip).admitted with
        ⟨he, -⟩ | ⟨op, hop, -, -, he⟩
      · rwa [he] at hx
      · rwa [he] at hx
    rw [admitOps_log] at hx'
    exact admitLoop_mem hx'
  induction runs generalizing p with
  | nil => exact .inl hx
  | cons run runs ih =>
    have hfst := fun hx => (hone run p hx).imp_right fun hx =>
      (⟨run, mem_cons_self, hx⟩ : ∃ r ∈ run :: runs, x ∈ r.ops)
    rw [applyRuns] at hx
    cases he : (applyRun p run skip).error with
    | some e =>
      rw [he] at hx
      exact hfst hx
    | none =>
      rw [he] at hx
      simp only [after_append] at hx
      rcases ih hx with hx | ⟨r, hr, hx⟩
      · exact hfst hx
      · exact .inr ⟨r, mem_cons_of_mem _ hr, hx⟩

/-! ## Saved cursors -/

def Saved (p : OpLogPullSocket H) (peer : DeviceId) (cursor : RelayCursor) : Prop :=
  ∃ saved, p.cursors.get? peer = some saved ∧ saved.epoch = cursor.epoch ∧ cursor.after ≤ saved.after

theorem saved_save (p : OpLogPullSocket H) (peer : DeviceId) (cursor : RelayCursor) :
    Saved (p.perform (.saveRelayCursor peer cursor)) peer cursor := by
  unfold Saved
  simp only [perform, OpLogPullSocket.saveRelayCursor, SortedMap.get?_upsert, if_true]
  cases p.cursors.get? peer with
  | none => exact ⟨cursor, rfl, rfl, le_rfl⟩
  | some existing =>
    simp only [Option.map_some, Option.getD_some]
    split_ifs with h
    · exact ⟨_, rfl, h, le_max_right _ _⟩
    · exact ⟨_, rfl, rfl, le_rfl⟩

def Effect.SavesWithin (peer : DeviceId) (epoch : Epoch) (bound : ℕ) : Effect H → Prop
  | .saveRelayCursor peer' cursor => peer' = peer ∧ cursor.epoch = epoch ∧ cursor.after ≤ bound
  | .resetRelayCursor _ _ => False
  | .clock _ | .append _ | .replay | .advanceLocalCoverage _ _ _ => True

theorem Effect.SavesWithin.mono {peer : DeviceId} {epoch : Epoch} {a b : ℕ} {e : Effect H}
    (h : e.SavesWithin peer epoch a) (hab : a ≤ b) : e.SavesWithin peer epoch b := by
  cases e with
  | saveRelayCursor peer' cursor => exact ⟨h.1, h.2.1, h.2.2.trans hab⟩
  | resetRelayCursor _ _ => exact h.elim
  | clock _ | append _ | replay | advanceLocalCoverage _ _ _ => trivial

theorem Effect.Quiet.savesWithin {e : Effect H} (he : e.Quiet) (peer : DeviceId) (epoch : Epoch) (bound : ℕ) :
    e.SavesWithin peer epoch bound := by
  cases e with
  | clock _ | append _ | replay => trivial
  | saveRelayCursor _ _ | resetRelayCursor _ _ | advanceLocalCoverage _ _ _ => exact he.elim

theorem applyRuns_savesWithin (skip : Bool) (runs : List KeyedRun) (p : OpLogPullSocket H)
    (peer : DeviceId) (epoch : Epoch) (bound : ℕ) :
    ∀ e ∈ (applyRuns skip runs p).effects, e.SavesWithin peer epoch bound := by
  have hone : ∀ (run : KeyedRun) (p : OpLogPullSocket H), ∀ e ∈ (applyRun p run skip).effects,
      e.SavesWithin peer epoch bound := by
    intro run p e he
    rw [applyRun_effects] at he
    rcases mem_append.1 he with he | he
    · exact (admitOps_quiet e he).savesWithin _ _ _
    · rcases raiseClaim_cases (H := H) run (p.admitOps run.ops skip).admitted with
        ⟨h, -⟩ | ⟨op, hop, -, -, h⟩
      · rw [h] at he
        cases he
      · rw [h] at he
        rw [mem_singleton.1 he]
        trivial
  induction runs generalizing p with
  | nil => simp [applyRuns]
  | cons run runs ih =>
    rw [applyRuns]
    cases (applyRun p run skip).error with
    | some e => exact hone run p
    | none =>
      intro e he
      rcases mem_append.1 he with he | he
      · exact hone run p e he
      · exact ih _ e he

section Page

variable {entries : List (ℕ × SignedOp)} {segs : List Segment} {cur : RelayCursor}

theorem applyBackfill_savesWithin (p : OpLogPullSocket H) (peer : DeviceId) (cur : RelayCursor)
    (skip : Bool) (hback : page.backfill = backfillEntries entries)
    (hnext : ∀ e ∈ entries, e.1 ≤ page.nextRelaySeq) :
    (∀ e ∈ (applyBackfill p peer cur page skip).1.effects,
      e.SavesWithin peer cur.epoch (max cur.after page.nextRelaySeq)) ∧
    (applyBackfill p peer cur page skip).2.epoch = cur.epoch ∧
    (applyBackfill p peer cur page skip).2.after ≤ max cur.after page.nextRelaySeq := by
  have hcom : (Effect.saveRelayCursor (H := H) peer cur).SavesWithin peer cur.epoch
      (max cur.after page.nextRelaySeq) := ⟨rfl, rfl, le_max_left _ _⟩
  unfold applyBackfill
  cases hd : decodeBackfill peer cur.after cur.after page.backfill with
  | error e => exact ⟨by simpa using hcom, rfl, le_max_left _ _⟩
  | ok entries' =>
    rw [hback] at hd
    obtain ⟨rfl, -⟩ := decodeBackfill_ok hd
    dsimp only
    generalize hn : ((p.after [.saveRelayCursor peer cur]).admitOps (entries'.map snd) skip).admitted = n
    have hep : (followAdmitted (H := H) peer cur entries' n).1.epoch = cur.epoch := by
      unfold followAdmitted
      split_ifs <;> rfl
    have hle := followAdmitted_le (H := H) peer cur hnext n
    refine ⟨fun e he => ?_, hep, hle⟩
    rcases mem_append.1 he with he | he
    · rcases mem_append.1 he with he | he
      · rw [mem_singleton.1 he]
        exact hcom
      · exact (admitOps_quiet e he).savesWithin _ _ _
    · rcases followAdmitted_effects (H := H) peer cur entries' n with h | h
      · rw [h] at he
        cases he
      · rw [h] at he
        rw [mem_singleton.1 he]
        exact ⟨rfl, hep, hle⟩

theorem applyChannels_savesWithin (skip : Bool) (hback : page.backfill = backfillEntries entries)
    (hnext : ∀ e ∈ entries, e.1 ≤ page.nextRelaySeq) :
    ∀ e ∈ (applyChannels p peer cur page skip).effects,
      e.SavesWithin peer cur.epoch (max cur.after page.nextRelaySeq) := by
  obtain ⟨h1, h2, h3⟩ := applyBackfill_savesWithin p peer cur skip hback hnext
  unfold applyChannels
  generalize hres : applyBackfill p peer cur page skip = r
  obtain ⟨progress, cursor⟩ := r
  rw [hres] at h1 h2 h3
  dsimp only
  cases progress.error with
  | some e => exact h1
  | none =>
    have hbef : ∀ e ∈ progress.effects ++ [.saveRelayCursor peer
        ⟨cursor.epoch, max cursor.after page.nextRelaySeq⟩],
        e.SavesWithin peer cur.epoch (max cur.after page.nextRelaySeq) := by
      intro e he
      rcases mem_append.1 he with he | he
      · exact h1 e he
      · rw [mem_singleton.1 he]
        exact ⟨rfl, h2, max_le h3 (le_max_right _ _)⟩
    unfold applyKeyed
    cases splitRuns peer page.keyed [] none with
    | error e => exact hbef
    | ok runs =>
      intro e he
      rcases mem_append.1 he with he | he
      · exact hbef e he
      · exact applyRuns_savesWithin skip _ _ _ _ _ e he

theorem applyBackfill_coverage (p : OpLogPullSocket H) (peer : DeviceId) (cur : RelayCursor)
    (page : PullPage) (skip : Bool) :
    (p.after (applyBackfill p peer cur page skip).1.effects).coverage = p.coverage := by
  unfold applyBackfill
  cases decodeBackfill peer cur.after cur.after page.backfill with
  | error e => rfl
  | ok entries =>
    dsimp only
    have hq := (p.after [.saveRelayCursor peer cur]).admitOps_coverage (entries.map snd) skip
    rw [after_append, after_append]
    rcases followAdmitted_effects (H := H) peer cur entries
      ((p.after [.saveRelayCursor peer cur]).admitOps (entries.map snd) skip).admitted with hf | hf
    · rw [hf, after_nil, hq]
      rfl
    · rw [hf]
      exact hq

/-- The positional part went through: its entries are held and the cursor has not moved
back. -/
theorem applyBackfill_ok (hback : page.backfill = backfillEntries entries)
    {progress : Progress H} {cursor : RelayCursor}
    (hres : applyBackfill p peer cur page false = (progress, cursor)) (he : progress.error = none) :
    (∀ e ∈ entries, (p.after progress.effects).log.contains e.2.id = true) ∧
      cur.after ≤ cursor.after := by
  rcases applyBackfill_cases hback hres with ⟨e, rfl, rfl⟩ | ⟨hlt, adm, hadm, rfl, rfl⟩
  · cases he
  generalize hp1 : p.after [.saveRelayCursor peer cur] = p1
  rw [hp1] at hadm
  subst hadm
  have hall := admitOps_all he
  refine ⟨fun e hm => ?_, ?_⟩
  · rw [after_append, after_append, hp1]
    refine (after_log_extends _ _).contains (admitOps_contains ?_)
    rw [hall, take_length]
    exact mem_map_of_mem hm
  · unfold followAdmitted
    split_ifs
    · cases hg : entries[(p1.admitOps (entries.map snd) false).admitted - 1]? with
      | none => exact le_rfl
      | some e => exact (hlt e (mem_of_getElem? hg)).le
    · exact le_rfl

/-- A page that went through is held as a whole, its claims cover its keyed ops, and its
cursor is saved. -/
theorem applyChannels_ok (hback : page.backfill = backfillEntries entries)
    (hnext : ∀ e ∈ entries, e.1 ≤ page.nextRelaySeq) (hkey : page.keyed = segmentEntries segs)
    (hsrt : ∀ s ∈ segs, s.Sorted) (hvis : VisitSorted (segs.map fst)) {n : ℕ}
    {q : OpLogPullSocket H} (hq : p.after (applyChannels p peer cur page false).effects = q)
    (hok : (applyChannels p peer cur page false).result = .ok n) :
    (applyChannels p peer cur page false).cursor =
      some ⟨cur.epoch, max cur.after page.nextRelaySeq⟩ ∧
    Saved q peer ⟨cur.epoch, max cur.after page.nextRelaySeq⟩ ∧
    (∀ e ∈ entries, q.log.contains e.2.id = true) ∧
    ∀ s ∈ segs, ∀ op ∈ s.2, q.log.contains op.id = true ∧ q.coverage.covers op.orderKey = true := by
  obtain ⟨-, h2, h3⟩ := applyBackfill_savesWithin p peer cur false hback hnext
  unfold applyChannels at hq hok ⊢
  generalize hres : applyBackfill p peer cur page false = r
  obtain ⟨progress, cursor⟩ := r
  rw [hres] at h2 h3
  dsimp only at h2 h3
  simp only [hres] at hq hok ⊢
  cases he : progress.error with
  | some e => rw [he] at hok; cases hok
  | none =>
    rw [he] at hq hok
    obtain ⟨hin, hle⟩ := applyBackfill_ok hback hres he
    have hmax : max cursor.after page.nextRelaySeq = max cur.after page.nextRelaySeq := by omega
    simp only [h2, hmax] at hq hok ⊢
    unfold applyKeyed at hq hok ⊢
    cases hs : splitRuns peer page.keyed [] none with
    | error e => rw [hs] at hok; cases hok
    | ok runs =>
      rw [hs] at hq hok
      rw [hkey] at hs
      obtain ⟨runs', hs', hmap⟩ := splitRuns_segments peer hsrt (splitRuns_versions hs) hvis
      obtain rfl : runs' = runs := Except.ok.inj (hs'.symm.trans hs)
      dsimp only at hq hok ⊢
      generalize hbef : progress.effects ++ [.saveRelayCursor peer
          ⟨cur.epoch, max cur.after page.nextRelaySeq⟩] = before
      rw [hbef] at hq hok
      have herr : (applyRuns false runs'.reverse (p.after before)).error = none := by
        cases hr : (applyRuns false runs'.reverse (p.after before)).error with
        | none => rfl
        | some e => rw [hr] at hok; cases hok
      have hsub : ∀ run ∈ runs'.reverse, run.segment.Sorted := fun run hr =>
        hsrt _ (mem_filter.1 (hmap ▸ mem_map_of_mem hr)).1
      have hruns := applyRuns_ok hsub herr
      rw [← after_append, hq] at hruns
      refine ⟨rfl, ?_, fun e hm => ?_, fun s hm op hop => ?_⟩
      · have hsav : Saved (p.after before) peer ⟨cur.epoch, max cur.after page.nextRelaySeq⟩ := by
          rw [← hbef, after_append]
          exact saved_save _ _ _
        have hcur := after_of_along (applyRuns_cursors false runs'.reverse (p.after before))
        rw [← after_append, hq] at hcur
        rwa [Saved, hcur]
      · rw [← hq, after_append, ← hbef, after_append]
        exact (after_log_extends _ _).contains (hin e hm)
      · have hmem : s ∈ runs'.reverse.map KeyedRun.segment := by
          rw [hmap]
          refine mem_filter.2 ⟨hm, ?_⟩
          simpa using ne_nil_of_mem hop
        obtain ⟨run, hrun, rfl⟩ := mem_map.1 hmem
        exact hruns run hrun op hop

/-- Claims follow the keyed ops of the page. -/
theorem applyChannels_covers (hkey : page.keyed = segmentEntries segs) (hsrt : ∀ s ∈ segs, s.Sorted)
    (hvis : VisitSorted (segs.map fst)) {skip : Bool} {key : OrderKey}
    (h : (p.after (applyChannels p peer cur page skip).effects).coverage.covers key = true) :
    p.coverage.covers key = true ∨
      ∃ s ∈ segs, ∃ op ∈ s.2, op.orderKey.device = key.device ∧ key ≤ op.orderKey := by
  have hcov := applyBackfill_coverage p peer cur page skip
  unfold applyChannels at h
  generalize hres : applyBackfill p peer cur page skip = r
  obtain ⟨progress, cursor⟩ := r
  rw [hres] at hcov
  dsimp only at hcov
  simp only [hres] at h
  cases he : progress.error with
  | some e =>
    rw [he] at h
    exact .inl (hcov ▸ h)
  | none =>
    rw [he] at h
    generalize hbef :
      progress.effects ++ [.saveRelayCursor peer ⟨cursor.epoch, max cursor.after page.nextRelaySeq⟩] = before
    have hb : (p.after before).coverage = p.coverage := by
      rw [← hbef, after_append]
      exact hcov
    simp only [hbef] at h
    unfold applyKeyed at h
    cases hs : splitRuns peer page.keyed [] none with
    | error e =>
      rw [hs] at h
      exact .inl (hb ▸ h)
    | ok runs =>
      rw [hs] at h
      simp only [after_append] at h
      rw [hkey] at hs
      obtain ⟨runs', hs', hmap⟩ := splitRuns_segments peer hsrt (splitRuns_versions hs) hvis
      obtain rfl : runs' = runs := Except.ok.inj (hs'.symm.trans hs)
      rcases applyRuns_covers h with h | ⟨run, hrun, h⟩
      · exact .inl (hb ▸ h)
      · exact .inr ⟨run.segment, (mem_filter.1 (hmap ▸ mem_map_of_mem hrun)).1, h⟩

theorem applyChannels_mem (hback : page.backfill = backfillEntries entries)
    (hkey : page.keyed = segmentEntries segs) (hsrt : ∀ s ∈ segs, s.Sorted)
    (hvis : VisitSorted (segs.map fst)) {skip : Bool} {x : SignedOp}
    (hx : x ∈ (p.after (applyChannels p peer cur page skip).effects).log.arrivals) :
    x ∈ p.log.arrivals ∨ (∃ e ∈ entries, e.2 = x) ∨ ∃ s ∈ segs, x ∈ s.2 := by
  have hpos : ∀ {progress : Progress H} {cursor : RelayCursor},
      applyBackfill p peer cur page skip = (progress, cursor) →
      x ∈ (p.after progress.effects).log.arrivals → x ∈ p.log.arrivals ∨ ∃ e ∈ entries, e.2 = x := by
    intro progress cursor hres hx
    rcases applyBackfill_cases hback hres with ⟨e, rfl, rfl⟩ | ⟨-, adm, rfl, rfl, rfl⟩
    · exact .inl hx
    · have hx' : x ∈ ((p.after [.saveRelayCursor peer cur]).after
          (admitLoop skip (entries.map snd)
            (p.after [.saveRelayCursor peer cur])).effects).log.arrivals := by
        rw [← admitOps_log]
        rcases followAdmitted_effects (H := H) peer cur entries ((p.after [.saveRelayCursor peer
          cur]).admitOps (entries.map snd) skip).admitted with hf | hf
        · simpa only [after_append, hf, after_nil] using hx
        · simp only [after_append, hf] at hx
          exact hx
      exact (admitLoop_mem hx').imp_right mem_map.1
  unfold applyChannels at hx
  generalize hres : applyBackfill p peer cur page skip = r
  obtain ⟨progress, cursor⟩ := r
  simp only [hres] at hx
  cases he : progress.error with
  | some e =>
    rw [he] at hx
    exact (hpos hres hx).imp_right Or.inl
  | none =>
    rw [he] at hx
    simp only [applyKeyed] at hx
    cases hs : splitRuns peer page.keyed [] none with
    | error e =>
      rw [hs] at hx
      simp only [after_append] at hx
      exact (hpos hres hx).imp_right Or.inl
    | ok runs =>
      rw [hs] at hx
      simp only [after_append] at hx
      rw [hkey] at hs
      obtain ⟨runs', hs', hmap⟩ := splitRuns_segments peer hsrt (splitRuns_versions hs) hvis
      obtain rfl : runs' = runs := Except.ok.inj (hs'.symm.trans hs)
      rcases applyRuns_mem hx with hx | ⟨run, hrun, hx⟩
      · exact (hpos hres hx).imp_right Or.inl
      · exact .inr (.inr ⟨run.segment, (mem_filter.1 (hmap ▸ mem_map_of_mem hrun)).1, hx⟩)

end Page

end ProxyNode
