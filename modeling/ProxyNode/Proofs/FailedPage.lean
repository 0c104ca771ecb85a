import ProxyNode.Sanity.Admission
import ProxyNode.Spec.Kv
import ProxyNode.Spec.PageApply

/-! The saved cursor while a page is applied through any admission. It is written when the
page starts, after a quantum, and at the end of the positional channel; wherever the page
stops, it is behind no entry that was not reported as admitted. -/

namespace ProxyNode

open Journal PageEvent List Option Prod

variable {σ : Type*} {peer : DeviceId} {page : PullPage}

/-- What an onlooker has seen: the saved cursors, and how many positional ops were reported. -/
structure Watch where
  cursors : SortedMap DeviceId RelayCursor
  reported : ℕ

def Watch.see (peer : DeviceId) (w : Watch) : PageEvent → Watch
  | .saved cursor => { w with cursors := OpLogPullSocket.saveRelayCursor w.cursors peer cursor }
  | .admitted total => { w with reported := max w.reported total }
  | .claimed _ _ => w

/-! ## Saving -/

variable {cursors : SortedMap DeviceId RelayCursor}

/-- A save within the epoch raises the cursor or leaves it. -/
theorem get?_saveRelayCursor_same {saved cursor : RelayCursor} (h : cursors.get? peer = some saved)
    (he : saved.epoch = cursor.epoch) :
    (OpLogPullSocket.saveRelayCursor cursors peer cursor).get? peer =
      some ⟨saved.epoch, max saved.after cursor.after⟩ := by
  rw [OpLogPullSocket.saveRelayCursor, SortedMap.get?_upsert, if_pos rfl, h, map_some, getD_some,
    if_pos he]

theorem get?_saveRelayCursor_new (h : cursors.get? peer = none) (cursor : RelayCursor) :
    (OpLogPullSocket.saveRelayCursor cursors peer cursor).get? peer = some cursor := by
  rw [OpLogPullSocket.saveRelayCursor, SortedMap.get?_upsert, if_pos rfl, h, map_none, getD_none]

/-- Saves of one epoch never lower its cursor. -/
theorem see_rises {events : List PageEvent} {a : RelayCursor}
    (hevs : ∀ c, saved c ∈ events → c.epoch = a.epoch) {w : Watch} (h : w.cursors.get? peer = some a) :
    ∃ b, (events.foldl (Watch.see peer) w).cursors.get? peer = some b ∧ b.epoch = a.epoch ∧ a.after ≤ b.after := by
  induction events generalizing w a with
  | nil => exact ⟨a, h, rfl, le_rfl⟩
  | cons event events ih =>
    have hrest : ∀ c, saved c ∈ events → c.epoch = a.epoch := fun c hc =>
      hevs c (mem_cons_of_mem _ hc)
    cases event with
    | saved cursor =>
      have hstep := get?_saveRelayCursor_same h (hevs cursor mem_cons_self).symm
      obtain ⟨b, hb, he, hle⟩ := @ih ⟨a.epoch, max a.after cursor.after⟩ hrest (w.see peer (.saved cursor)) hstep
      exact ⟨b, hb, he, (le_max_left _ _).trans hle⟩
    | admitted total => exact @ih a hrest (w.see peer (.admitted total)) h
    | claimed origin key => exact @ih a hrest (w.see peer (.claimed origin key)) h

/-! ## The invariant -/

/-- The saved cursor is of this epoch, and every sequence it has passed since `start` was
reported. -/
def ReportedUpTo (peer : DeviceId) (seqs : List ℕ) (start : RelayCursor) (w : Watch) : Prop :=
  ∃ saved, w.cursors.get? peer = some saved ∧ saved.epoch = start.epoch ∧
    ∀ (i seq : ℕ), seqs[i]? = some seq → start.after < seq → seq ≤ saved.after → i < w.reported

variable {seqs : List ℕ} {start : RelayCursor} {w : Watch}

theorem ReportedUpTo.admitted (h : ReportedUpTo peer seqs start w) (total : ℕ) :
    ReportedUpTo peer seqs start (w.see peer (.admitted total)) := by
  obtain ⟨saved, hsav, he, hpas⟩ := h
  exact ⟨saved, hsav, he, fun i seq hi hlt hle => lt_max_of_lt_left (hpas i seq hi hlt hle)⟩

theorem ReportedUpTo.saved (h : ReportedUpTo peer seqs start w) {cursor : RelayCursor}
    (he : cursor.epoch = start.epoch)
    (hcur : ∀ (i seq : ℕ), seqs[i]? = some seq → seq ≤ cursor.after → i < w.reported) :
    ReportedUpTo peer seqs start (w.see peer (.saved cursor)) := by
  obtain ⟨saved, hsav, hep, hpas⟩ := h
  refine ⟨_, get?_saveRelayCursor_same hsav (hep.trans he.symm), hep, fun i seq hi hlt hle => ?_⟩
  rcases le_max_iff.1 hle with hold | hnew
  · exact hpas i seq hi hlt hold
  · exact hcur i seq hi hnew

variable {quanta : List (ℕ × ℕ)}

/-- The callback moves the cursor behind entries just reported. -/
theorem followQuanta_reportedUpTo (hseqs : seqs.Pairwise (· < ·)) (hquanta : ∀ q ∈ quanta, q.1 ≤ seqs.length)
    (h : ReportedUpTo peer seqs start w) {cur : RelayCursor} (he : cur.epoch = start.epoch) :
    Along (Watch.see peer) (ReportedUpTo peer seqs start) w (followQuanta seqs quanta cur).1 ∧
      (followQuanta seqs quanta cur).2.epoch = start.epoch ∧
      ∀ c, saved c ∈ (followQuanta seqs quanta cur).1 → c.epoch = start.epoch := by
  induction quanta generalizing w cur with
  | nil => exact ⟨along_nil.2 h, he, nofun⟩
  | cons q quanta ih =>
    obtain ⟨total, safe⟩ := q
    obtain ⟨htotal, hrest⟩ := forall_mem_cons.1 hquanta
    have hadm := h.admitted total
    rw [followQuanta]
    split_ifs with hpos
    · obtain ⟨last, hlast⟩ : ∃ last, seqs[total - 1]? = some last :=
        ⟨_, getElem?_eq_getElem (by simp only at htotal; omega)⟩
      simp only [hlast, getD_some]
      have hsav : ReportedUpTo peer seqs start
          ((w.see peer (.admitted total)).see peer (.saved { cur with after := last })) := by
        refine hadm.saved he fun i seq hi hle => lt_max_of_lt_right ?_
        -- sequences rise, so an entry no later than the last reported one stands before it
        by_contra hge
        obtain ⟨hlen, rfl⟩ := List.getElem?_eq_some_iff.1 hi
        obtain ⟨hlen', rfl⟩ := List.getElem?_eq_some_iff.1 hlast
        have hlt := pairwise_iff_getElem.1 hseqs (total - 1) i hlen' hlen (by omega)
        simp only at hle
        omega
      have hcur : ({ cur with after := last } : RelayCursor).epoch = start.epoch := he
      obtain ⟨halong, hep, hsaves⟩ := ih hrest hsav hcur
      refine ⟨along_cons.2 ⟨h, along_cons.2 ⟨hadm, halong⟩⟩, hep, fun c hc => ?_⟩
      rcases mem_cons.1 hc with hc | hc
      · cases hc
      · rcases mem_cons.1 hc with hc | hc
        · obtain rfl := saved.inj hc
          exact he
        · exact hsaves c hc
    · obtain ⟨halong, hep, hsaves⟩ := ih hrest hadm he
      refine ⟨along_cons.2 ⟨h, halong⟩, hep, fun c hc => ?_⟩
      rcases mem_cons.1 hc with hc | hc
      · cases hc
      · exact hsaves c hc

/-! ## The two channels -/

theorem decodeBackfill_rising {after last : ℕ} {backfill : List (ℕ × PageEntry)} {entries : List (ℕ × SignedOp)}
    (h : decodeBackfill peer after last backfill = .ok entries) :
    entries.map fst = backfill.map fst ∧ (last :: backfill.map fst).Pairwise (· < ·) := by
  induction backfill generalizing last entries with
  | nil =>
    obtain rfl := Except.ok.inj h
    exact ⟨rfl, pairwise_singleton _ _⟩
  | cons e backfill ih =>
    obtain ⟨seq, entry⟩ := e
    rw [decodeBackfill] at h
    split_ifs at h with hseq
    cases hop : decodePageOp entry peer with
    | error e => simp [hop] at h
    | ok op =>
      cases hrest : decodeBackfill peer after seq backfill with
      | error e =>
        simp only [hop, hrest] at h
        cases h
      | ok rest =>
        simp only [hop, hrest] at h
        obtain rfl := Except.ok.inj h
        obtain ⟨hmap, hsrt⟩ := ih hrest
        refine ⟨by rw [map_cons, map_cons, hmap], pairwise_cons.2 ⟨?_, hsrt⟩⟩
        intro b hb
        rcases mem_cons.1 hb with rfl | hb
        · exact not_le.1 hseq
        · exact (not_le.1 hseq).trans ((pairwise_cons.1 hsrt).1 b hb)

theorem claimQuanta_claims {run : KeyedRun} {committed : ℕ} :
    ∀ e ∈ claimQuanta run quanta committed, ∃ origin key, e = .claimed origin key := by
  induction quanta generalizing committed with
  | nil => nofun
  | cons q quanta ih =>
    obtain ⟨total, safe⟩ := q
    rw [claimQuanta]
    split_ifs
    · intro e he
      rcases mem_append.1 he with he | he
      · obtain ⟨op, -, rfl⟩ := map_eq_some_iff.1 (mem_toList.1 he)
        exact ⟨_, _, rfl⟩
      · exact ih e he
    · exact ih

section Admit

variable {takeOps : σ → List SignedOp → σ × AdmitReport}

theorem applyRunsWith_claims {runs : List KeyedRun} {s : σ} {applied : ℕ} :
    ∀ e ∈ (applyRunsWith takeOps runs s applied).1, ∃ origin key, e = .claimed origin key := by
  induction runs generalizing s applied with
  | nil => nofun
  | cons run runs ih =>
    rw [applyRunsWith]
    simp only
    split
    · exact claimQuanta_claims
    · intro e he
      rcases mem_append.1 he with he | he
      · exact claimQuanta_claims e he
      · exact ih e he

theorem ReportedUpTo.claims (h : ReportedUpTo peer seqs start w) {events : List PageEvent}
    (hevs : ∀ e ∈ events, ∃ origin key, e = .claimed origin key) :
    Along (Watch.see peer) (ReportedUpTo peer seqs start) w events := by
  refine along_of_step h fun e he t ht => ?_
  obtain ⟨origin, key, rfl⟩ := hevs e he
  exact ht

structure SeenKept (peer : DeviceId) (page : PullPage) (cur : RelayCursor) (w : Watch)
    (events : List PageEvent) :
    Prop where
  along : Along (Watch.see peer) (ReportedUpTo peer (page.backfill.map Prod.fst) cur) w events
  epochs : ∀ c, PageEvent.saved c ∈ events → c.epoch = cur.epoch

variable {cur : RelayCursor}

theorem SeenKept.append {events more : List PageEvent} (h : SeenKept peer page cur w events)
    (h' : SeenKept peer page cur (events.foldl (Watch.see peer) w) more) :
    SeenKept peer page cur w (events ++ more) where
  along := along_append.2 ⟨h.along, h'.along⟩
  epochs := fun c hc => (mem_append.1 hc).elim (h.epochs c) (h'.epochs c)

theorem applyChannelsWith_kept (htake : ∀ s ops, (takeOps s ops).2.Honest ops) (s : σ) {cur : RelayCursor}
    (hw : ReportedUpTo peer (page.backfill.map fst) cur w) :
    ∃ rest, (applyChannelsWith takeOps s peer cur page).events = .saved cur :: rest ∧
      SeenKept peer page cur w rest := by
  have hnil : SeenKept peer page cur w [] := ⟨along_nil.2 hw, nofun⟩
  unfold applyChannelsWith
  cases hdec : decodeBackfill peer cur.after cur.after page.backfill with
  | error e => exact ⟨[], rfl, hnil⟩
  | ok entries =>
    obtain ⟨hseqs, hrising⟩ := decodeBackfill_rising hdec
    generalize hreport : (takeOps s (entries.map snd)).2 = report
    have honest := hreport ▸ htake s (entries.map snd)
    have hlen : (entries.map snd).length = (page.backfill.map fst).length := by
      rw [← hseqs, length_map, length_map]
    have hquanta : ∀ q ∈ report.quanta, q.1 ≤ (page.backfill.map fst).length := fun q hq =>
      (honest.reached q hq).trans (hlen ▸ honest.front)
    obtain ⟨halong, hep, hsaves⟩ := followQuanta_reportedUpTo (pairwise_cons.1 hrising).2 hquanta hw
      (rfl : cur.epoch = cur.epoch)
    simp only [hseqs, hreport]
    generalize hfol : followQuanta (page.backfill.map fst) report.quanta cur = follow
    rw [hfol] at halong hep hsaves
    -- the call returned: everything it went through counts as reported
    have hret : SeenKept peer page cur w (follow.1 ++ [.admitted report.admitted]) := by
      refine SeenKept.append ⟨halong, hsaves⟩ ⟨?_, nofun⟩
      exact along_cons.2 ⟨halong.final, along_nil.2 (halong.final.admitted _)⟩
    cases herror : report.error with
    | some e => exact ⟨_, rfl, hret⟩
    | none =>
      have hall : report.admitted = (page.backfill.map fst).length := by
        rw [← hlen]
        refine le_antisymm honest.front (not_lt.1 fun hlt => honest.stopped hlt herror)
      -- with all entries reported the cursor may go anywhere
      have hnext : ∀ after, SeenKept peer page cur w
          (follow.1 ++ [.admitted report.admitted] ++ [.saved ⟨follow.2.epoch, after⟩]) := by
        intro after
        refine hret.append ⟨along_cons.2 ⟨hret.along.final, along_nil.2 ?_⟩, ?_⟩
        · refine hret.along.final.saved hep fun i seq hi _ => ?_
          have hi := (List.getElem?_eq_some_iff.1 hi).1
          rw [foldl_append, ← hall] at *
          exact lt_max_of_lt_right hi
        · intro c hc
          obtain rfl := saved.inj (mem_singleton.1 hc)
          exact hep
      simp only
      split
      · exact ⟨_, rfl, hnext (max follow.2.after page.nextRelaySeq)⟩
      · refine ⟨follow.1 ++ [.admitted report.admitted] ++
          .saved ⟨follow.2.epoch, max follow.2.after page.nextRelaySeq⟩ :: _, rfl, ?_⟩
        rw [append_cons]
        refine (hnext _).append ⟨(hnext _).along.final.claims applyRunsWith_claims, fun c hc => ?_⟩
        obtain ⟨origin, key, hclaim⟩ := applyRunsWith_claims _ hc
        cases hclaim

variable {cursors : SortedMap DeviceId RelayCursor}

theorem seen_of_kept {rest : List PageEvent} (hstart : ∀ saved, cursors.get? peer = some saved → saved = cur)
    (hkept : SeenKept peer page cur (Watch.see peer ⟨cursors, 0⟩ (.saved cur)) rest) :
    let seen := fun k => ((saved cur :: rest).take k).foldl (Watch.see peer) ⟨cursors, 0⟩
    (∀ k saved, (seen k).cursors.get? peer = some saved → ∀ (i : ℕ) entry, page.backfill[i]? = some entry →
        cur.after < entry.1 → entry.1 ≤ saved.after → i < (seen k).reported) ∧
      ∀ j k, j ≤ k → ∀ a b, (seen j).cursors.get? peer = some a → (seen k).cursors.get? peer = some b →
        a.after ≤ b.after := by
  intro seen
  have hep : ∀ j a, (seen j).cursors.get? peer = some a → a.epoch = cur.epoch := by
    intro j a ha
    cases j with
    | zero => rw [hstart a ha]
    | succ j =>
      obtain ⟨saved, hsav, he, -⟩ := hkept.along j
      rw [some.inj (ha.symm.trans hsav), he]
  constructor
  · intro k saved hsav i entry hent hlt hle
    cases k with
    | zero =>
      rw [hstart saved hsav] at hle
      omega
    | succ k =>
      obtain ⟨saved', hsav', -, hpas⟩ := hkept.along k
      obtain rfl := some.inj (hsav.symm.trans hsav')
      refine hpas i entry.1 ?_ hlt hle
      rw [getElem?_map, hent]
      rfl
  · intro j k hjk a b ha hb
    have hspl : seen k = (((saved cur :: rest).take k).drop j).foldl (Watch.see peer)
      (seen j) := by
      have htake : ((saved cur :: rest).take k).take j =
        (saved cur :: rest).take j := by
        rw [take_take, min_eq_left hjk]
      simp only [seen]
      rw [← htake, ← foldl_append, take_append_drop]
    have hsaves : ∀ c, saved c ∈ ((saved cur :: rest).take k).drop j →
      c.epoch = a.epoch := by
      intro c hc
      rw [hep j a ha]
      rcases mem_cons.1 (mem_of_mem_take (mem_of_mem_drop hc)) with hc | hc
      · rw [saved.inj hc]
      · exact hkept.epochs c hc
    obtain ⟨b', hb', -, hle⟩ := see_rises hsaves ha
    rw [← hspl, hb] at hb'
    rwa [some.inj hb']

theorem reportedUpTo_first_save (hstart : cursors.get? peer = some cur ∨ cursors.get? peer = none) :
    ReportedUpTo peer seqs cur (Watch.see peer ⟨cursors, 0⟩ (.saved cur)) := by
  have hsav : (OpLogPullSocket.saveRelayCursor cursors peer cur).get? peer = some cur := by
    rcases hstart with h | h
    · rw [get?_saveRelayCursor_same h rfl, max_self]
    · exact get?_saveRelayCursor_new h cur
  exact ⟨cur, hsav, rfl, fun i seq _ hlt hle => absurd hlt (not_lt.2 hle)⟩

/-- Wherever a page stops, and at every moment before, each of its positional entries that
the saved cursor has passed since the start was reported as admitted, and the saved cursor
has not gone down within its epoch. -/
theorem page_skips_no_backfill (htake : ∀ s ops, (takeOps s ops).2.Honest ops) (s : σ) (peer : DeviceId)
    (cursor : Option RelayCursor) (page : PullPage) (cursors : SortedMap DeviceId RelayCursor)
    (hstart : cursors.get? peer = cursor) :
    let seen := fun k => ((applyPageWith takeOps s peer cursor page).events.take k).foldl
      (Watch.see peer) ⟨cursors, 0⟩
    (∀ k saved, (seen k).cursors.get? peer = some saved → ∀ (i : ℕ) entry, page.backfill[i]? = some entry →
        (cursor.map RelayCursor.after).getD 0 < entry.1 → entry.1 ≤ saved.after → i < (seen k).reported) ∧
      ∀ j k, j ≤ k → ∀ a b, (seen j).cursors.get? peer = some a → (seen k).cursors.get? peer = some b →
        a.epoch = b.epoch → a.after ≤ b.after := by
  by_cases hnone : (applyPageWith takeOps s peer cursor page).events = []
  · -- a page that is refused at once
    simp only [hnone, List.take_nil, List.foldl_nil]
    refine ⟨fun k saved hsav i entry _ hlt hle => ?_, fun j k _ a b ha hb _ => ?_⟩
    · rw [← hstart, hsav, Option.map_some, Option.getD_some] at hlt
      omega
    · rw [Option.some.inj (ha.symm.trans hb)]
  unfold applyPageWith at hnone ⊢
  cases hep : page.epoch with
  | none => simp [hep] at hnone
  | some epoch =>
    cases cursor with
    | some cur =>
      simp only [hep] at hnone ⊢
      split_ifs at hnone ⊢
      · obtain ⟨rest, hevs, hkept⟩ := applyChannelsWith_kept htake s (reportedUpTo_first_save (Or.inl hstart))
        have hsame : ∀ saved, cursors.get? peer = some saved → saved = cur := fun saved hsav =>
          Option.some.inj (hsav.symm.trans hstart)
        rw [hevs]
        obtain ⟨hpas, hrises⟩ := seen_of_kept hsame hkept
        exact ⟨hpas, fun j k hjk a b ha hb _ => hrises j k hjk a b ha hb⟩
      · exact absurd rfl hnone
    | none =>
      obtain ⟨rest, hevs, hkept⟩ :=
        @applyChannelsWith_kept _ peer page _ takeOps htake s ⟨epoch, 0⟩ (reportedUpTo_first_save (Or.inr hstart))
      have hsame : ∀ saved, cursors.get? peer = some saved → saved = ⟨epoch, 0⟩ := fun saved hsav => by
        rw [hstart] at hsav
        cases hsav
      simp only [hevs]
      obtain ⟨hpas, hrises⟩ := seen_of_kept hsame hkept
      exact ⟨hpas, fun j k hjk a b ha hb _ => hrises j k hjk a b ha hb⟩

end Admit

/-! ## The socket in memory -/

section Memory

open OpLogPullSocket

variable {H : Host} {skip : Bool}

/-- The same socket under other claims and cursors, which admission does not read. -/
def dressed (p : OpLogPullSocket H) (coverage : CoverageVector) (cursors : SortedMap DeviceId RelayCursor) :
    OpLogPullSocket H :=
  { p with coverage := coverage, cursors := cursors }

variable {p : OpLogPullSocket H} {c : CoverageVector} {k : SortedMap DeviceId RelayCursor}

variable {effects : List (Effect H)}

theorem after_dressed (h : ∀ e ∈ effects, e.Quiet) :
    (dressed p c k).after effects = dressed (p.after effects) c k := by
  induction effects generalizing p with
  | nil => rfl
  | cons e effects ih =>
    obtain ⟨he, hrest⟩ := forall_mem_cons.1 h
    have hstep : (dressed p c k).perform e = dressed (p.perform e) c k := by
      cases e with
      | clock _ | append _ | replay => rfl
      | saveRelayCursor _ _ | resetRelayCursor _ _ | advanceLocalCoverage _ _ _ => exact he.elim
    rw [after_cons, after_cons, hstep, ih hrest]

theorem admitLoop_dressed (ops : List SignedOp) : admitLoop skip ops (dressed p c k) = admitLoop skip ops p := by
  induction ops generalizing p with
  | nil => rfl
  | cons op ops ih =>
    have hnext : ∀ clock, (dressed p c k).after [.clock clock, .append op] =
        dressed (p.after [.clock clock, .append op]) c k := fun _ => rfl
    simp only [admitLoop, hnext, ih]
    rfl

theorem admitOps_dressed (ops : List SignedOp) : (dressed p c k).admitOps ops skip = p.admitOps ops skip := by
  simp only [admitOps, admitLoop_dressed, after_dressed admitLoop_quiet]
  rfl

theorem takeOps_honest (p : OpLogPullSocket H) (ops : List SignedOp) : (takeOps skip p ops).2.Honest ops where
  front := by
    simp only [takeOps, admitOps_admitted]
    exact admitLoop_admitted_le
  stopped := by
    intro hlt herror
    exact absurd (admitOps_all herror) (Nat.ne_of_lt hlt)
  rising := pairwise_singleton _ _
  reached := by
    intro q hq
    rw [mem_singleton.1 hq]
    exact le_rfl

def Effect.event? : Effect H → Option PageEvent
  | .saveRelayCursor _ cursor => some (.saved cursor)
  | .advanceLocalCoverage origin key _ => some (.claimed origin key)
  | .clock _ | .append _ | .replay | .resetRelayCursor _ _ => none

def PageEvent.durable : PageEvent → Bool
  | .saved _ | .claimed _ _ => true
  | .admitted _ => false

theorem filterMap_quiet (h : ∀ e ∈ effects, e.Quiet) :
    effects.filterMap Effect.event? = [] := by
  refine filterMap_eq_nil_iff.2 fun e he => ?_
  cases e with
  | clock _ | append _ | replay => rfl
  | saveRelayCursor _ _ | resetRelayCursor _ _ | advanceLocalCoverage _ _ _ => exact (h _ he).elim

theorem raiseClaim_events (run : KeyedRun) (total claimSafe : ℕ) :
    (raiseClaim run claimSafe : List (Effect H)).filterMap Effect.event? =
      (claimQuanta run [(total, claimSafe)] 0).filter durable := by
  unfold raiseClaim claimQuanta
  split_ifs with hpos
  · split
    · rename_i op hop
      simp only [hop]
      rfl
    · rename_i hop
      simp only [hop]
      rfl
  · rfl

theorem after_raiseClaim (p : OpLogPullSocket H) (run : KeyedRun) (claimSafe : ℕ) :
    ∃ c, p.after (raiseClaim run claimSafe) = dressed p c p.cursors := by
  unfold raiseClaim
  split_ifs
  · split
    · exact ⟨_, rfl⟩
    · exact ⟨p.coverage, rfl⟩
  · exact ⟨p.coverage, rfl⟩

theorem applyRuns_events (runs : List KeyedRun) (applied : ℕ) :
    (applyRuns skip runs (dressed p c k)).effects.filterMap Effect.event? =
        (applyRunsWith (takeOps skip) runs p applied).1.filter durable ∧
      (applyRunsWith (takeOps skip) runs p applied).2 =
        match (applyRuns skip runs (dressed p c k)).error with
        | some e => .error e
        | none => .ok (applied + (applyRuns skip runs (dressed p c k)).applied) := by
  induction runs generalizing p c k applied with
  | nil => exact ⟨rfl, rfl⟩
  | cons run runs ih =>
    generalize hadm : p.admitOps run.ops skip = adm
    have hqui : ∀ e ∈ adm.effects, e.Quiet := hadm ▸ admitOps_quiet
    have hfst : applyRun (dressed p c k) run skip =
        ⟨adm.effects ++ raiseClaim run adm.claimSafe, adm.admitted, adm.error⟩ := by
      rw [applyRun, admitOps_dressed, hadm]
    have htake : takeOps skip p run.ops = (p.after adm.effects,
        ⟨[(adm.admitted, adm.claimSafe)], adm.admitted, adm.error⟩) := by
      rw [takeOps, hadm]
    have hevs : (adm.effects ++ raiseClaim run adm.claimSafe).filterMap Effect.event? =
        (claimQuanta run [(adm.admitted, adm.claimSafe)] 0).filter durable := by
      rw [filterMap_append, filterMap_quiet hqui, nil_append]
      exact raiseClaim_events run _ _
    simp only [applyRuns, applyRunsWith, hfst, htake]
    cases herr : adm.error with
    | some e => exact ⟨hevs, rfl⟩
    | none =>
      obtain ⟨c', hc'⟩ := after_raiseClaim (dressed (p.after adm.effects) c k) run adm.claimSafe
      have haft : (dressed p c k).after (adm.effects ++ raiseClaim run adm.claimSafe) =
          dressed (p.after adm.effects) c' k := by
        rw [after_append, after_dressed hqui, hc']
        rfl
      obtain ⟨hrest, hres⟩ := @ih (p.after adm.effects) c' k (applied + adm.admitted)
      simp only [haft, filterMap_append, filter_append, hres]
      refine ⟨?_, ?_⟩
      · rw [← filterMap_append, hevs, hrest]
      · cases (applyRuns skip runs (dressed (p.after adm.effects) c' k)).error with
        | some e => rfl
        | none => simp only [Nat.add_assoc]

theorem followAdmitted_events (peer : DeviceId) (cur : RelayCursor) (entries : List (ℕ × SignedOp))
    (admitted claimSafe : ℕ) :
    (followAdmitted peer cur entries admitted : RelayCursor × List (Effect H)).1 =
        (followQuanta (entries.map fst) [(admitted, claimSafe)] cur).2 ∧
      (followAdmitted peer cur entries admitted : RelayCursor × List (Effect H)).2.filterMap Effect.event? =
        (followQuanta (entries.map fst) [(admitted, claimSafe)] cur).1.filter durable := by
  unfold followAdmitted followQuanta
  split_ifs with hpos
  · simp only [getElem?_map]
    exact ⟨rfl, rfl⟩
  · exact ⟨rfl, rfl⟩

theorem after_saves (p : OpLogPullSocket H) (h : ∀ e ∈ effects, ∃ peer cursor, e = .saveRelayCursor peer cursor) :
    ∃ k, p.after effects = dressed p p.coverage k := by
  induction effects generalizing p with
  | nil => exact ⟨p.cursors, rfl⟩
  | cons e effects ih =>
    obtain ⟨⟨peer, cursor, rfl⟩, hrest⟩ := forall_mem_cons.1 h
    obtain ⟨k, hk⟩ := ih (p.perform (.saveRelayCursor peer cursor)) hrest
    exact ⟨k, hk⟩

theorem followAdmitted_saves (peer : DeviceId) (cur : RelayCursor) (entries : List (ℕ × SignedOp))
    (admitted : ℕ) :
    ∀ e ∈ (followAdmitted peer cur entries admitted : RelayCursor × List (Effect H)).2,
      ∃ peer cursor, e = .saveRelayCursor peer cursor := by
  unfold followAdmitted
  split_ifs
  · intro e he
    exact ⟨_, _, mem_singleton.1 he⟩
  · nofun

/-- Saves and quiet effects leave what admission reads as the quiet ones do. -/
theorem after_positional (p : OpLogPullSocket H) (peer : DeviceId) (cur : RelayCursor)
    {quiet saves : List (Effect H)}
    (hqui : ∀ e ∈ quiet, e.Quiet) (hsaves : ∀ e ∈ saves, ∃ peer cursor, e = .saveRelayCursor peer cursor) :
    ∃ c k, p.after ([.saveRelayCursor peer cur] ++ quiet ++ saves) = dressed (p.after quiet) c k := by
  have hdress : p.after [.saveRelayCursor peer cur] =
      dressed p p.coverage (OpLogPullSocket.saveRelayCursor p.cursors peer cur) := rfl
  obtain ⟨k, hk⟩ :=
    after_saves (dressed (p.after quiet) p.coverage (OpLogPullSocket.saveRelayCursor p.cursors peer cur))
      hsaves
  refine ⟨p.coverage, k, ?_⟩
  rw [after_append, after_append, hdress, after_dressed hqui, hk]
  rfl

theorem positional_events (peer : DeviceId) (cur : RelayCursor) (entries : List (ℕ × SignedOp))
    {adm : PullAdmission H} (hqui : ∀ e ∈ adm.effects, e.Quiet) {follow : List PageEvent}
    (hfol : (followAdmitted peer cur entries adm.admitted : RelayCursor × List (Effect H)).2.filterMap
      Effect.event? = follow.filter durable) :
    ([Effect.saveRelayCursor peer cur] ++ adm.effects ++
        (followAdmitted peer cur entries adm.admitted).2).filterMap Effect.event? =
      (saved cur :: follow ++ [admitted adm.admitted]).filter durable := by
  rw [filterMap_append, filterMap_append, filterMap_quiet hqui, hfol, append_nil,
    cons_append, filter_cons_of_pos rfl, filter_append]
  exact (congrArg (saved cur :: ·) (append_nil _)).symm

theorem applyChannels_events (p : OpLogPullSocket H) (peer : DeviceId) (cur : RelayCursor) (page : PullPage) :
    (applyChannels p peer cur page skip).effects.filterMap Effect.event? =
        (applyChannelsWith (takeOps skip) p peer cur page).events.filter durable ∧
      (applyChannels p peer cur page skip).cursor =
        (applyChannelsWith (takeOps skip) p peer cur page).cursor ∧
      (applyChannels p peer cur page skip).result =
        (applyChannelsWith (takeOps skip) p peer cur page).result := by
  unfold applyChannels applyChannelsWith applyBackfill
  cases hdec : decodeBackfill peer cur.after cur.after page.backfill with
  | error e => exact ⟨rfl, rfl, rfl⟩
  | ok entries =>
    generalize hadm : p.admitOps (entries.map snd) skip = adm
    have hqui : ∀ e ∈ adm.effects, e.Quiet := hadm ▸ admitOps_quiet
    have hcom : (p.after [.saveRelayCursor peer cur]).admitOps (entries.map snd) skip = adm := by
      have hdress : p.after [.saveRelayCursor peer cur] =
          dressed p p.coverage (OpLogPullSocket.saveRelayCursor p.cursors peer cur) := rfl
      rw [hdress, admitOps_dressed, hadm]
    have htake : takeOps skip p (entries.map snd) = (p.after adm.effects,
        ⟨[(adm.admitted, adm.claimSafe)], adm.admitted, adm.error⟩) := by
      rw [takeOps, hadm]
    obtain ⟨hcur, hfol⟩ :=
      @followAdmitted_events H peer cur entries adm.admitted adm.claimSafe
    generalize hf :
      followQuanta (entries.map fst) [(adm.admitted, adm.claimSafe)] cur = follow at hcur hfol
    simp only [hcom, htake, hf, hcur]
    have hpositional := positional_events peer cur entries hqui hfol
    generalize hevs : saved cur :: follow.1 ++ [.admitted adm.admitted] = events at hpositional ⊢
    cases herr : adm.error with
    | some e => exact ⟨hpositional, rfl, rfl⟩
    | none =>
      generalize hnext : (⟨follow.2.epoch, max follow.2.after page.nextRelaySeq⟩ : RelayCursor) = next
      unfold applyKeyed
      cases hruns : splitRuns peer page.keyed [] none with
      | error e =>
        refine ⟨?_, rfl, rfl⟩
        simp only
        rw [filterMap_append, hpositional, filter_append]
        rfl
      | ok runs =>
        have hsaves : ∀ e ∈ (followAdmitted peer cur entries adm.admitted).2 ++
            [.saveRelayCursor peer next], ∃ peer cursor, e = (.saveRelayCursor peer cursor : Effect H) := by
          refine forall_mem_append.2 ⟨followAdmitted_saves peer cur entries _, fun e he => ?_⟩
          exact ⟨_, _, mem_singleton.1 he⟩
        obtain ⟨c, k, hdress⟩ := after_positional p peer cur hqui hsaves
        rw [← append_assoc] at hdress
        obtain ⟨hkey, hres⟩ := @applyRuns_events H skip (p.after adm.effects) c k runs.reverse
          adm.admitted
        simp only [hdress, hres]
        refine ⟨?_, by trivial, by trivial⟩
        rw [filterMap_append, hkey, filterMap_append, hpositional, filter_append,
          filter_cons_of_pos rfl, append_assoc]
        rfl

/-- A page applied in memory is seen as the page applied through the admission in memory. -/
theorem applyPullPage_events (p : OpLogPullSocket H) (peer : DeviceId) (cursor : Option RelayCursor)
    (page : PullPage) :
    (applyPullPage p peer cursor page skip).effects.filterMap Effect.event? =
        (applyPageWith (takeOps skip) p peer cursor page).events.filter durable ∧
      (applyPullPage p peer cursor page skip).cursor = (applyPageWith (takeOps skip) p peer cursor page).cursor ∧
      (applyPullPage p peer cursor page skip).result =
        (applyPageWith (takeOps skip) p peer cursor page).result := by
  unfold applyPullPage applyPageWith
  cases page.epoch with
  | none => exact ⟨rfl, rfl, rfl⟩
  | some epoch =>
    cases cursor with
    | none => exact applyChannels_events p peer ⟨epoch, 0⟩ page
    | some cur =>
      simp only
      split_ifs
      · exact applyChannels_events p peer cur page
      · exact ⟨rfl, rfl, rfl⟩

end Memory

/-! ## A page that stops half-way -/

namespace HalfPage

def author : Bytes 32 := padTo 32 [7]

def halfPage : PullPage where
  version := pullVersion
  epoch := some (Wire.fill 32 9)
  reset := false
  floor := 0
  backfill := [(4, some (plainPut author 20).toBytes), (6, some (plainPut author 21).toBytes),
    (7, some (plainPut author 22).toBytes)]
  keyed := []
  nextRelaySeq := 9
  headSeq := 9
  resume := none
  complete := true
  snapshotRecommended := false
  store := none

def stops (_ : Unit) (ops : List SignedOp) : Unit × AdmitReport :=
  ((), if ops.length < 3 then ⟨[], 0, some "closed"⟩ else ⟨[(1, 1), (2, 2)], 2, some "closed"⟩)

theorem stops_honest (s : Unit) (ops : List SignedOp) : (stops s ops).2.Honest ops := by
  simp only [stops]
  split_ifs with hlen
  · exact ⟨Nat.zero_le _, fun _ => nofun, List.Pairwise.nil, nofun⟩
  · refine ⟨by simp only; omega, fun _ => nofun, by decide, ?_⟩
    decide

end HalfPage

open HalfPage in
/-- The second quantum has moved the cursor to 6 when the page fails: the entries at 4 and 6
were reported, the one at 7 lies beyond. -/
theorem page_skips_no_backfill_half :
    ((applyPageWith stops () author (some ⟨Wire.fill 32 9, 3⟩) halfPage).events.foldl (Watch.see author)
        ⟨SortedMap.insert ∅ author ⟨Wire.fill 32 9, 3⟩, 0⟩).cursors.get? author = some ⟨Wire.fill 32 9, 6⟩ ∧
      1 < (((applyPageWith stops () author (some ⟨Wire.fill 32 9, 3⟩) halfPage).events.take 6).foldl
        (Watch.see author)
        ⟨SortedMap.insert ∅ author ⟨Wire.fill 32 9, 3⟩, 0⟩).reported := by
  refine ⟨by decide +kernel, ?_⟩
  have hskips := page_skips_no_backfill stops_honest () author (some ⟨Wire.fill 32 9, 3⟩) halfPage
    (SortedMap.insert ∅ author ⟨Wire.fill 32 9, 3⟩) (by decide +kernel)
  exact hskips.1 6 ⟨Wire.fill 32 9, 6⟩ (by decide +kernel) 1 (6, some (plainPut author 21).toBytes) rfl (by decide)
    (by decide)

end ProxyNode
