import ProxyNode.Sanity.Outcome

/-! One request of a drain against an honest node. The page it gets back has a scan that
starts where the drain stands and segments that are prefixes of what each origin's read
returned, so that a drain in step with its server always gets a data page it can take. -/

namespace ProxyNode

open OpLogPullSocket List OpLog

variable {H : Host}

/-! ## Segments of a served channel -/

variable {origins : List DeviceId} {segs : List Segment} {resume : Option Resume}

variable {ops : DeviceId → List SignedOp}

theorem Served.segment (h : Served ops origins segs resume) {s : Segment} (hs : s ∈ segs) :
    s.1 ∈ origins ∧ ∃ n, s.2 = (ops s.1).take n := by
  cases h with
  | all =>
    obtain ⟨o, ho, rfl⟩ := mem_map.1 hs
    exact ⟨ho, (ops o).length, (take_length).symm⟩
  | cut done rest o n hn hle =>
    rcases mem_append.1 hs with hs | hs
    · obtain ⟨o', ho, rfl⟩ := mem_map.1 hs
      exact ⟨mem_append_left _ ho, (ops o').length, (take_length).symm⟩
    · obtain rfl := mem_singleton.1 hs
      exact ⟨by simp, n, rfl⟩

theorem Served.visited (h : Served ops origins segs resume) :
    segs.map Prod.fst <+: origins := by
  cases h with
  | all => simp [Function.comp_def]
  | cut done rest o n hn hle => simp [Function.comp_def]

theorem VisitSorted.of_prefix {a b : List DeviceId} (h : VisitSorted b) (hp : a <+: b) : VisitSorted a :=
  ⟨h.1.sublist hp.sublist.tail, h.2.sublist hp.sublist⟩

theorem visitSorted_of_sorted {l : List DeviceId} (h : l.Pairwise (· < ·)) : VisitSorted l :=
  ⟨h.tail, h.imp ne_of_lt⟩

theorem visitOrder_sorted (socket : MeshPullSocket) (h : socket.origins.Pairwise (· < ·))
    (resume : Option Resume) : VisitSorted (visitOrder socket resume) := by
  unfold visitOrder
  split_ifs
  · refine ⟨h.filter _, nodup_cons.2 ⟨by simp, (h.filter _).imp ne_of_lt⟩⟩
  · cases resume.bind (·.origin) with
    | none => exact visitSorted_of_sorted h
    | some o => exact visitSorted_of_sorted (h.sublist (dropWhile_sublist _))

variable {o : DeviceId}

theorem mem_originsFrom (hs : origins.Pairwise (· < ·)) {first : Option DeviceId} :
    o ∈ originsFrom origins first ↔ o ∈ origins ∧ ∀ f, first = some f → f ≤ o := by
  cases first with
  | none => simp [originsFrom]
  | some f =>
    simp only [originsFrom, Option.some.injEq, forall_eq']
    induction origins with
    | nil => simp
    | cons a origins ih =>
      rw [pairwise_cons] at hs
      by_cases ha : a < f
      · rw [dropWhile_cons_of_pos (by simpa using ha), ih hs.2, mem_cons]
        refine ⟨fun h => ⟨.inr h.1, h.2⟩, ?_⟩
        rintro ⟨rfl | h, hle⟩
        · exact absurd ha (not_lt.2 hle)
        · exact ⟨h, hle⟩
      · rw [dropWhile_cons_of_neg (by simpa using ha)]
        refine ⟨fun h => ⟨h, ?_⟩, And.left⟩
        rcases mem_cons.1 h with rfl | h
        · exact not_lt.1 ha
        · exact (not_lt.1 ha).trans (hs.1 o h).le

/-! ## Reads of a serving node -/

variable {reads : PageReads} {own : DeviceId}

theorem readsOps_serveState (reads : PageReads) (own : DeviceId) :
    ReadsOps (reads.serveState own) fun o after => (reads.since o).originOps o after :=
  fun o after limit => (reads.since o).originSince_eq o after limit

theorem readsArrivals_serveState (reads : PageReads) (own : DeviceId) :
    ReadsArrivals (reads.serveState own) reads.scan.arrivals :=
  fun after limit => reads.scan.relaySinceWithEnvelopes_eq after limit

theorem originOps_take_sorted (log : OpLog) (o : DeviceId) (after : Option OrderKey) (n : ℕ) :
    Segment.Sorted (o, (log.originOps o after).take n) :=
  ⟨fun _ hop => (mem_originOps.1 (mem_of_mem_take hop)).2.1,
    (log.originOps_sorted o after).sublist (take_sublist _ _)⟩

abbrev ServedPage (reads : PageReads) (own : DeviceId) (req : PullRequest) (page : PullPage)
    (segs : List Segment) : Prop :=
  PageShape (reads.serveState own) (fun o after => (reads.since o).originOps o after)
    reads.scan.arrivals req page segs

/-- A request that names the stream and needs no reset gets a data page. -/
theorem servePull_spec (limits : PageLimits) (reads : PageReads) (own : DeviceId) (req : PullRequest)
    {epoch : Epoch} (hsto : req.store = none) (hep : req.relayEpoch = some epoch)
    (hrst : pullNeedsReset epoch req.relayAfter reads.state.relayState = false) :
    ∃ page segs, servePull limits (reads.serveState own) req = .ok page ∧
      DataPage reads.state.relayState page ∧ page.keyed = segmentEntries segs ∧
      ServedPage reads own req page segs := by
  have hack : admitPullAck (reads.serveState own) req = .ok none := admitPullAck_none hep hrst
  obtain ⟨page, segs, hok, h⟩ := buildPullPage_spec (readsOps_serveState reads own)
    (readsArrivals_serveState reads own) limits hsto hep hrst
  exact ⟨page, segs, by simp only [servePull, hack, hok], h⟩

section Shape

variable {req : PullRequest} {page : PullPage} {segs : List Segment}

section Parts

variable (h : ServedPage reads own req page segs)
include h

theorem PageShape.scan :
    ∃ start k, (start = req.relayAfter ∨ ∃ o key, req.resume = some ⟨.backfill, start, o, key⟩) ∧
      page.nextRelaySeq = start + k ∧ k ≤ (reads.scan.arrivals.drop start).length ∧
      page.backfill = backfillEntries
        (coveredArrivals req.coverage ((reads.scan.arrivals.drop start).take k) start) := by
  cases h with
  | cut segs r hr hback hnext =>
    exact ⟨req.relayAfter, 0, .inl rfl, hnext, Nat.zero_le _, by rw [hback]; rfl⟩
  | full segs k hph hsvd hs =>
    exact ⟨req.relayAfter, k, .inl rfl, hs.next, hs.bound, hs.backfill⟩
  | backfill k n o key hph hs =>
    exact ⟨n, k, .inr ⟨o, key, hph⟩, hs.next, hs.bound, hs.backfill⟩

theorem PageShape.segment {s : Segment} (hs : s ∈ segs) :
    s.1 ∈ visitOrder (reads.serveState own) req.resume ∧
    ∃ n, s.2 = ((reads.since s.1).originOps s.1
      (readAfter req.coverage req.audit req.resume s.1)).take n := by
  cases h with
  | cut segs r hr hback hnext hph hsvd => exact hsvd.segment hs
  | full segs k hph hsvd => exact hsvd.segment hs
  | backfill => cases hs

theorem PageShape.sorted : ∀ s ∈ segs, s.Sorted := by
  intro s hs
  obtain ⟨-, n, hn⟩ := h.segment hs
  have := originOps_take_sorted (reads.since s.1) s.1
    (readAfter req.coverage req.audit req.resume s.1) n
  rwa [← hn] at this

theorem PageShape.visit : VisitSorted (segs.map Prod.fst) := by
  have hsrt := visitOrder_sorted (reads.serveState own) reads.origins.origins_sorted
    req.resume
  cases h with
  | cut segs r hr hback hnext hph hsvd => exact hsrt.of_prefix hsvd.visited
  | full segs k hph hsvd => exact hsrt.of_prefix hsvd.visited
  | backfill => exact ⟨List.Pairwise.nil, nodup_nil⟩

end Parts

end Shape

/-! ## Lower bounds of the keyed reads -/

/-- A resume key lies at or below the claim for its origin. -/
def ResumeCovered (claims : CoverageVector) (resume : Option Resume) : Prop :=
  ∀ r o k, resume = some r → r.origin = some o → r.afterKey = some k →
    k.device = o ∧ claims.covers k = true

variable {claims : CoverageVector}

/-- Then every read starts at the claim: nothing above the claim is left out. -/
theorem readAfter_lt (hres : ResumeCovered claims resume) {x : OrderKey} (hx : claims.covers x = false)
    {b : OrderKey} (hb : readAfter claims false resume x.device = some b) : b < x := by
  have hclaim : ∀ c, claims.claims.get? x.device = some c → c < x := by
    intro c hc
    rw [← Bool.not_eq_true, CoverageVector.covers_iff] at hx
    exact not_le.1 fun hle => hx ⟨c, hc, hle⟩
  have hkey : ∀ k, (if resume.bind (·.origin) = some x.device then resume.bind (·.afterKey) else none) =
      some k → k < x := by
    intro k hk
    split_ifs at hk with ho
    cases resume with
    | none => cases ho
    | some r =>
      obtain ⟨hd, hc⟩ := hres r x.device k rfl ho hk
      obtain ⟨c, hc, hle⟩ := CoverageVector.covers_iff.1 hc
      exact lt_of_le_of_lt hle (hclaim c (hd ▸ hc))
  rw [readAfter, claimFor, if_neg (by simp)] at hb
  cases hc : claims.claims.get? x.device with
  | none =>
    rw [hc] at hb
    exact hkey b hb
  | some c =>
    rw [hc] at hb
    cases hk : (if resume.bind (·.origin) = some x.device then resume.bind (·.afterKey) else none) with
    | none =>
      rw [hk] at hb
      obtain rfl := Option.some.inj hb
      exact hclaim _ hc
    | some k =>
      rw [hk] at hb
      obtain rfl := Option.some.inj hb
      exact max_lt (hclaim c hc) (hkey k hk)

theorem claim_le_readAfter (resume : Option Resume) {c : OrderKey} (h : claims.claims.get? o = some c) :
    ∃ b, readAfter claims false resume o = some b ∧ c ≤ b := by
  rw [readAfter, claimFor, if_neg (by simp), h]
  cases (if resume.bind (·.origin) = some o then resume.bind (·.afterKey) else none) with
  | none => exact ⟨c, rfl, le_rfl⟩
  | some k => exact ⟨max c k, rfl, le_max_left _ _⟩

theorem mem_visitOrder_fresh {socket : MeshPullSocket} (h : o ∈ socket.origins) :
    o ∈ visitOrder socket none := by
  unfold visitOrder
  split_ifs with hown
  · by_cases ho : socket.ownDeviceId = o
    · exact ho ▸ mem_cons_self
    · exact mem_cons_of_mem _ (mem_filter.2 ⟨h, by simpa using ho⟩)
  · exact h

/-- An uncut fresh channel serves every op above its claim that its reads find. -/
theorem served_uncut {ops : DeviceId → Option OrderKey → List SignedOp} {op : SignedOp}
    (h : Served (fun o => ops o (readAfter claims false none o)) origins segs none)
    (hvis : op.body.device ∈ origins) (hc : claims.covers op.orderKey = false)
    (hread : ∀ after : Option OrderKey, (∀ b, after = some b → b < op.orderKey) → op ∈ ops op.body.device after) :
    ∃ s ∈ segs, op ∈ s.2 := by
  cases h with
  | all =>
    have hfrs : ResumeCovered claims none := nofun
    exact ⟨_, mem_map.2 ⟨_, hvis, rfl⟩, hread _ fun b hb => readAfter_lt hfrs hc hb⟩

theorem served_fresh {log : OpLog} {own : DeviceId}
    (h : Served (fun o => log.originOps o (readAfter claims false none o))
      (visitOrder ((PageReads.atomic log).serveState own) none) segs none)
    {op : SignedOp} (hop : op ∈ log.arrivals) (hc : claims.covers op.orderKey = false) :
    ∃ s ∈ segs, op ∈ s.2 :=
  served_uncut h (mem_visitOrder_fresh (mem_origins.2 ⟨op, hop, rfl⟩)) hc fun _ haft =>
    mem_originOps.2 ⟨hop, rfl, haft⟩

/-- A segment cut from a read is safe for the ops whose keys the read's log holds. -/
theorem segmentSafe_of_read (passed : SignedOp → Prop) (p : OpLogPullSocket H) (log : OpLog) (o : DeviceId)
    (after : Option OrderKey) (n : ℕ)
    (haft : ∀ x, p.coverage.covers x = false → x.device = o → ∀ b, after = some b → b < x)
    (hheld : ∀ x, passed x → x.orderKey.device = o → p.coverage.covers x.orderKey = false →
      p.log.contains x.id = false → ∀ z ∈ (log.originOps o after).take n, x.orderKey < z.orderKey →
      ∃ y ∈ log.arrivals, y.orderKey = x.orderKey) :
    SegmentSafe passed p (o, (log.originOps o after).take n) := by
  intro x hx hd hc i z hz hle
  cases hin : p.log.contains x.id with
  | true => exact .inl rfl
  | false =>
    refine .inr ?_
    have hz' : z ∈ (log.originOps o after).take n := mem_of_getElem? hz
    rcases hle.eq_or_lt with heq | hlt
    · -- the op that raises the claim is this one
      refine ⟨z, ?_, congrArg OrderKey.opId heq.symm⟩
      exact mem_take_of_key_le SignedOp.orderKey
        ((log.originOps_sorted o after).sublist (take_sublist _ _)) hz' hz le_rfl
    · obtain ⟨y, hy, hkey⟩ := hheld x hx hd hc hin z hz' hlt
      refine ⟨y, ?_, congrArg OrderKey.opId hkey⟩
      have hmem : y ∈ log.originOps o after := by
        refine mem_originOps.2 ⟨hy, ?_, fun b hb => ?_⟩
        · rw [← SignedOp.orderKey_device, hkey, hd]
        · rw [hkey]
          exact haft _ hc hd b hb
      have hi : i < n := by
        obtain ⟨hlt', -⟩ := List.getElem?_eq_some_iff.1 hz
        exact lt_of_lt_of_le hlt' (length_take_le _ _)
      rw [take_take, min_eq_left (Nat.succ_le_of_lt hi)]
      refine mem_take_of_key_le SignedOp.orderKey (log.originOps_sorted o after) hmem ?_
        (hkey ▸ hlt.le)
      rwa [getElem?_take, if_pos hi] at hz

/-! ## Drains in step with their server -/

/-- A drain's locals fit a server's log: its cursor lies in the stream, and its resume
token points at nothing the claims or the cursor have not reached. -/
structure DrainFits (log : OpLog) (p : OpLogPullSocket H) (d : DrainState) : Prop where
  cursor : ∀ c, d.cursor = some c → c.epoch = log.relayEpoch ∧ c.after ≤ log.arrivals.length
  resume : ResumeCovered p.coverage d.resume
  backfill : ∀ n o k, d.resume = some ⟨.backfill, n, o, k⟩ → n ≤ (d.cursor.map RelayCursor.after).getD 0

theorem pullNeedsReset_within {log : OpLog} {cursor : Option RelayCursor}
    (h : ∀ c, cursor = some c → c.epoch = log.relayEpoch ∧ c.after ≤ log.arrivals.length) :
    pullNeedsReset ((cursor.map RelayCursor.epoch).getD zeroEpoch)
      ((cursor.map RelayCursor.after).getD 0) log.relayState = false := by
  cases cursor with
  | none =>
    have := log.epoch_ne
    simp [pullNeedsReset, relayState, this.symm]
  | some c =>
    obtain ⟨he, ha⟩ := h c rfl
    rw [length_arrivals] at ha
    simp [pullNeedsReset, relayState, he, log.epoch_ne, ha]

end ProxyNode
