import ProxyNode.Sanity.Serving

/-! Pages of a node whose arrival stream may have holes. A scan goes through the stored
arrivals between two sequences, serves the covered ones and says where it stopped. -/

namespace ProxyNode

open List

def streamRow (e : ℕ × SignedOp) : RelayEnvelopeRow := (e.1, e.2, e.2.toBytes)

/-- A node that stores `arrivals`: its keyed reads are reads of their ops, its arrival reads
the ones behind a sequence. -/
structure ServesStream (socket : MeshPullSocket) (arrivals : List (ℕ × SignedOp)) : Prop extends
    ServesOps socket (arrivals.map Prod.snd) where
  numbered : arrivals.Pairwise fun a b => a.1 < b.1
  within : ∀ e ∈ arrivals, 0 < e.1 ∧ e.1 ≤ socket.relayStreamState.head
  floor_le : socket.relayStreamState.floor ≤ socket.relayStreamState.head
  relaySince : ∀ after limit, socket.relaySinceWithEnvelopes after limit =
    ((arrivals.filter fun e => after < e.1).take limit).map streamRow

/-- The arrivals of the log in memory, which has no holes. -/
def OpLog.numbered (log : OpLog) : List (ℕ × SignedOp) := log.arrivals.zipIdx.map fun e => (e.2 + 1, e.1)

theorem OpLog.numbered_ops (log : OpLog) : log.numbered.map Prod.snd = log.arrivals := by
  rw [numbered, map_map]
  exact zipIdx_map_fst _ _

theorem servesStream_serveState (log : OpLog) (own : DeviceId) :
    ServesStream ((PageReads.atomic log).serveState own) log.numbered where
  toServesOps := by
    rw [log.numbered_ops]
    exact servesOps_serveState log own
  numbered := by
    refine pairwise_map.2 ?_
    have hlt : (log.arrivals.zipIdx.map Prod.snd).Pairwise (· < ·) := by
      rw [zipIdx_map_snd]
      exact pairwise_lt_range'
    exact (pairwise_map.1 hlt).imp Nat.succ_lt_succ
  within := by
    intro e he
    obtain ⟨⟨op, i⟩, hi, rfl⟩ := mem_map.1 he
    have hlt := snd_lt_of_mem_zipIdx hi
    rw [show ((PageReads.atomic log).serveState own).relayStreamState.head = _ from log.relayState_head]
    exact ⟨Nat.succ_pos i, by omega⟩
  floor_le := Nat.zero_le _
  relaySince := fun after limit => by
    have hfil : log.numbered.filter (fun e => decide (after < e.1)) =
        ((log.arrivals.drop after).zipIdx after).map fun e => (e.2 + 1, e.1) := by
      rw [OpLog.numbered, filter_map, show (fun e : ℕ × SignedOp => decide (after < e.1)) ∘
        (fun e : SignedOp × ℕ => (e.2 + 1, e.1)) = fun e => decide (after ≤ e.2) from
          funext fun e => decide_eq_decide.2 Nat.lt_succ_iff, filter_zipIdx, drop_zipIdx, Nat.sub_zero,
        Nat.zero_add]
    rw [hfil, ← map_take, take_zipIdx, map_map]
    exact log.relaySinceWithEnvelopes_eq after limit

/-- A node over stored arrivals that answers its reads by filtering and ordering them. -/
def storedSocket (own : DeviceId) (stream : RelayStreamState) (arrivals : List (ℕ × SignedOp)) :
    MeshPullSocket where
  ownDeviceId := own
  relayStreamState := stream
  origins := (arrivals.map fun e => e.2.body.device).dedup.orderBy id
  originSince := fun origin after store limit =>
    ((originShare (arrivals.map Prod.snd) store origin after).take limit).map rowOf
  relaySinceWithEnvelopes := fun after limit => ((arrivals.filter fun e => after < e.1).take limit).map streamRow

variable {arrivals : List (ℕ × SignedOp)}

theorem servesStream_storedSocket {stream : RelayStreamState} (own : DeviceId)
    (hdis : ((arrivals.map Prod.snd).map SignedOp.id).Nodup)
    (hnumbered : arrivals.Pairwise fun a b => a.1 < b.1) (hwithin : ∀ e ∈ arrivals, 0 < e.1 ∧ e.1 ≤ stream.head)
    (hflr : stream.floor ≤ stream.head) :
    ServesStream (storedSocket own stream arrivals) arrivals where
  distinct := hdis
  sorted := orderBy_lt (by simpa using nodup_dedup _)
  origins := by
    intro op hop
    obtain ⟨e, he, rfl⟩ := mem_map.1 hop
    exact (mem_orderBy _).2 (mem_dedup.2 (mem_map.2 ⟨e, he, rfl⟩))
  originSince := fun _ _ _ _ _ => rfl
  numbered := hnumbered
  within := hwithin
  floor_le := hflr
  relaySince := fun _ _ => rfl

theorem ServesStream.bounded {socket : MeshPullSocket} (h : ServesStream socket arrivals) : socket.Bounded where
  originSince := fun origin after store n hn => by
    rw [h.originSince store origin after n hn, length_map, length_take]
    exact min_le_left _ _
  relaySince := fun after n => by
    rw [h.relaySince, length_map, length_take]
    exact min_le_left _ _

/-! ## Scans -/

/-- A stretch of numbered arrivals is scanned up to where the scan says, a proper part only
after the byte cut. -/
theorem scanArrivals_stream (claims : CoverageVector) (byteBudget : ℕ) (l : List (ℕ × SignedOp))
    (hl : l.Pairwise fun a b => a.1 < b.1) (next bytes : ℕ) (cut : Bool) (hnext : ∀ e ∈ l, next < e.1)
    {scan : ArrivalScan} (hscan : scanArrivals claims byteBudget (l.map streamRow) next bytes cut = scan) :
    scan.backfill =
        backfillEntries (l.filter fun e => decide (e.1 ≤ scan.nextRelaySeq) && claims.covers e.2.orderKey) ∧
      (scan.nextRelaySeq = next ∨ ∃ e ∈ l, e.1 = scan.nextRelaySeq) ∧
      (scan.byteCut = false → ∀ e ∈ l, e.1 ≤ scan.nextRelaySeq) ∧
      (scan.byteCut = true → cut = true ∨ next < scan.nextRelaySeq) := by
  induction l generalizing next bytes cut scan with
  | nil =>
    subst hscan
    exact ⟨rfl, .inl rfl, by simp, .inl⟩
  | cons e l ih =>
    obtain ⟨seq, op⟩ := e
    rw [pairwise_cons] at hl
    have hseq : next < seq := hnext (seq, op) mem_cons_self
    rw [map_cons, streamRow, scanArrivals] at hscan
    -- the scan goes on behind this arrival
    have hmore : ∀ {bytes cut rest}, scanArrivals claims byteBudget (l.map streamRow) seq bytes cut = rest →
        rest.backfill =
            backfillEntries (l.filter fun e => decide (e.1 ≤ rest.nextRelaySeq) && claims.covers e.2.orderKey) ∧
          seq ≤ rest.nextRelaySeq ∧ (∃ e ∈ (seq, op) :: l, e.1 = rest.nextRelaySeq) ∧
          (rest.byteCut = false → ∀ e ∈ (seq, op) :: l, e.1 ≤ rest.nextRelaySeq) := by
      intro bytes cut rest hrest
      obtain ⟨hb, hn, hall, -⟩ := ih hl.2 seq bytes cut hl.1 hrest
      have hle : seq ≤ rest.nextRelaySeq := by
        rcases hn with hn | ⟨e, he, hn⟩
        · exact hn.ge
        · exact hn ▸ (hl.1 e he).le
      refine ⟨hb, hle, ?_, fun hcut e he => ?_⟩
      · rcases hn with hn | ⟨e, he, hn⟩
        · exact ⟨_, mem_cons_self, hn.symm⟩
        · exact ⟨e, mem_cons_of_mem _ he, hn⟩
      · rcases mem_cons.1 he with rfl | he
        · exact hle
        · exact hall hcut e he
    by_cases hc : claims.covers op.orderKey = true
    · rw [if_pos hc] at hscan
      cases cut with
      | true =>
        subst hscan
        refine ⟨?_, .inl rfl, by simp, .inl⟩
        rw [filter_eq_nil_iff.2 fun e he => by simp [hnext e he]]
        rfl
      | false =>
        generalize hrest : scanArrivals claims byteBudget (l.map streamRow) seq
            (bytes + Wire.base64Length op.toBytes.length)
            (decide (byteBudget ≤ bytes + Wire.base64Length op.toBytes.length)) = rest
        obtain ⟨hb, hle, hn, hall⟩ := hmore hrest
        simp only [hrest, Bool.false_eq_true, if_false] at hscan
        subst hscan
        refine ⟨?_, .inr hn, hall, fun _ => Or.inr (hseq.trans_le hle)⟩
        rw [filter_cons_of_pos (by simp [hle, hc]), hb]
        rfl
    · rw [if_neg hc] at hscan
      obtain ⟨hb, hle, hn, hall⟩ := hmore hscan
      refine ⟨?_, .inr hn, hall, fun _ => Or.inr (hseq.trans_le hle)⟩
      rw [filter_cons_of_neg (by simp [hc]), hb]

/-- The covered arrivals behind `start`, up to where the page stopped. -/
def scanned (arrivals : List (ℕ × SignedOp)) (claims : CoverageVector) (start next : ℕ) : List (ℕ × SignedOp) :=
  arrivals.filter fun e => decide (start < e.1 ∧ e.1 ≤ next) && claims.covers e.2.orderKey

structure ScanTo (arrivals : List (ℕ × SignedOp)) (claims : CoverageVector) (start : ℕ) (page : PullPage) :
    Prop where
  backfill : page.backfill = backfillEntries (scanned arrivals claims start page.nextRelaySeq)
  reached : page.nextRelaySeq = start ∨ start < page.nextRelaySeq ∧ ∃ e ∈ arrivals, e.1 = page.nextRelaySeq

/-- How a scan behind `start` ends: at the head, or with a token where it stopped. -/
structure ScanEnds (arrivals : List (ℕ × SignedOp)) (start : ℕ) (page : PullPage) : Prop where
  complete : page.resume = none → ∀ e ∈ arrivals, e.1 ≤ page.nextRelaySeq
  resume : ∀ r, page.resume = some r → r = backfillResume page.nextRelaySeq ∧ start < page.nextRelaySeq

theorem ScanTo.start_le {claims : CoverageVector} {start : ℕ} {page : PullPage}
    (h : ScanTo arrivals claims start page) : start ≤ page.nextRelaySeq := by
  rcases h.reached with h | ⟨h, -⟩
  · exact h.ge
  · exact h.le

section Backfill

variable {socket : MeshPullSocket} {arrivals : List (ℕ × SignedOp)} {limits : PageLimits} {claims : CoverageVector}
  {keyed : List PageEntry} {start budget : ℕ} {page : PullPage}

/-- What lies behind a read of the first arrivals is behind every sequence it reached. -/
theorem scanned_take (h : arrivals.Pairwise fun a b => a.1 < b.1) {next : ℕ}
    (hnext : next = start ∨ ∃ e ∈ (arrivals.filter fun e => start < e.1).take budget, e.1 = next) :
    scanned arrivals claims start next = ((arrivals.filter fun e => start < e.1).take budget).filter
      fun e => decide (e.1 ≤ next) && claims.covers e.2.orderKey := by
  generalize hbhd : (arrivals.filter fun e => decide (start < e.1)) = behind
  have hspl : scanned arrivals claims start next =
      behind.filter fun e => decide (e.1 ≤ next) && claims.covers e.2.orderKey := by
    rw [← hbhd, filter_filter, scanned]
    refine filter_congr fun e _ => ?_
    rw [Bool.decide_and, Bool.and_assoc, Bool.and_comm]
  have hsrt : (behind.take budget ++ behind.drop budget).Pairwise fun a b => a.1 < b.1 := by
    rw [take_append_drop, ← hbhd]
    exact h.filter _
  have hlate : ∀ e ∈ behind.drop budget, next < e.1 := by
    intro e he
    rcases hnext with rfl | ⟨e', he', rfl⟩
    · have hmem := mem_of_mem_drop he
      rw [← hbhd, mem_filter, decide_eq_true_eq] at hmem
      exact hmem.2
    · exact (pairwise_append.1 hsrt).2.2 e' (hbhd ▸ he') e he
  have hnone : (behind.drop budget).filter (fun e => decide (e.1 ≤ next) && claims.covers e.2.orderKey) = [] :=
    filter_eq_nil_iff.2 fun e he => by simp [hlate e he]
  rw [hspl]
  nth_rewrite 1 [← take_append_drop budget behind]
  rw [filter_append, hnone, append_nil]

theorem buildBackfill_stream (h : ServesStream socket arrivals) (hbud : 0 < budget)
    (hpage : buildBackfill limits socket claims keyed start budget = page) :
    ScanTo arrivals claims start page ∧ ScanEnds arrivals start page := by
  generalize hrows : (arrivals.filter fun e => decide (start < e.1)).take budget = rows
  generalize hscan : scanArrivals claims limits.pageByteBudget (rows.map streamRow) start
      (keyed.map PageEntry.length).sum false = scan
  have hread : socket.relaySinceWithEnvelopes start budget = rows.map streamRow := by rw [h.relaySince, hrows]
  have hbhd : ∀ e ∈ rows, e ∈ arrivals ∧ start < e.1 := by
    intro e he
    rw [← hrows] at he
    have hmem := mem_of_mem_take he
    rwa [mem_filter, decide_eq_true_eq] at hmem
  have hsrt : rows.Pairwise fun a b => a.1 < b.1 :=
    hrows ▸ (h.numbered.filter _).sublist (take_sublist _ _)
  obtain ⟨hb, hn, hall, hcut⟩ := scanArrivals_stream claims limits.pageByteBudget rows hsrt start _ false
    (fun e he => (hbhd e he).2) hscan
  have hnext : page.nextRelaySeq = scan.nextRelaySeq := by
    rw [← hpage]
    simp only [buildBackfill, hread, hscan, pullPage]
  have hback : page.backfill = scan.backfill := by
    rw [← hpage]
    simp only [buildBackfill, hread, hscan, pullPage]
  have hresm : page.resume = if (rows.length = budget ∧ 0 < budget) ∨ scan.byteCut then
      some (backfillResume scan.nextRelaySeq) else none := by
    rw [← hpage]
    simp only [buildBackfill, hread, hscan, pullPage, length_map]
  refine ⟨⟨?_, ?_⟩, fun hnone e he => ?_, fun r hr => ?_⟩
  · rw [hback, hb, hnext, scanned_take h.numbered (hrows ▸ hn), hrows]
  · rw [hnext]
    rcases hn with hn | ⟨e, he, hn⟩
    · exact .inl hn
    · exact .inr ⟨hn ▸ (hbhd e he).2, e, (hbhd e he).1, hn⟩
  · -- a read that came back short of its budget reached the head
    rw [hresm, ite_eq_right_iff] at hnone
    rw [hnext]
    have hends : ¬((rows.length = budget ∧ 0 < budget) ∨ scan.byteCut = true) := fun hc => by cases hnone hc
    rw [not_or, Bool.not_eq_true] at hends
    have hstart : start ≤ scan.nextRelaySeq := by
      rcases hn with hn | ⟨e, he, hn⟩
      · exact hn.ge
      · exact hn ▸ (hbhd e he).2.le
    by_cases hlt : start < e.1
    · refine hall hends.2 e ?_
      have hlen := congrArg length hrows
      rw [length_take] at hlen
      rw [← hrows, take_of_length_le (by omega), mem_filter, decide_eq_true_eq]
      exact ⟨he, hlt⟩
    · omega
  · rw [hresm, Option.ite_none_right_eq_some] at hr
    obtain ⟨hc, hr⟩ := hr
    refine ⟨by rw [hnext]; exact (Option.some.inj hr).symm, ?_⟩
    rw [hnext]
    cases hbc : scan.byteCut with
    | true => simpa using hcut hbc
    | false =>
      obtain ⟨e, he⟩ := exists_mem_of_length_pos (l := rows) (by simp [hbc] at hc; omega)
      exact (hbhd e he).2.trans_le (hall hbc e he)

end Backfill

/-! ## Whole pages -/

def keyedChannel (limits : PageLimits) (socket : MeshPullSocket) (req : PullRequest) :
    List PageEntry × Option Resume :=
  buildKeyedChannel socket req.coverage req.audit limits.pageByteBudget none req.resume
    (max 1 (min req.limit limits.pageLimitMax))

structure KeyedPart (limits : PageLimits) (socket : MeshPullSocket) (arrivals : List (ℕ × SignedOp))
    (req : PullRequest) (page : PullPage) (segs : List Segment) (resume : Option Resume) : Prop where
  phase : ∀ n o k, req.resume ≠ some ⟨.backfill, n, o, k⟩
  channel : keyedChannel limits socket req = (page.keyed, resume)
  served : Served (fun o => originShare (arrivals.map Prod.snd) none o
    (readAfter req.coverage req.audit req.resume o)) (visitOrder socket req.resume) segs resume

/-- The content of a data page: a keyed channel that was cut, or a scan behind one that was
not, or behind none at all. -/
inductive StreamPage (limits : PageLimits) (socket : MeshPullSocket) (arrivals : List (ℕ × SignedOp))
    (req : PullRequest) (page : PullPage) : List Segment → Prop
  | cut (segs : List Segment) (r : Resume) (keyed : KeyedPart limits socket arrivals req page segs (some r))
    (resume : page.resume = some r) (backfill : page.backfill = [])
    (next : page.nextRelaySeq = req.relayAfter) : StreamPage limits socket arrivals req page segs
  | full (segs : List Segment) (keyed : KeyedPart limits socket arrivals req page segs none)
    (scan : ScanTo arrivals req.coverage req.relayAfter page)
    (ends : ScanEnds arrivals req.relayAfter page) : StreamPage limits socket arrivals req page segs
  | backfill (n : ℕ) (o : Option DeviceId) (key : Option OrderKey)
    (phase : req.resume = some ⟨.backfill, n, o, key⟩) (scan : ScanTo arrivals req.coverage n page)
    (ends : ScanEnds arrivals n page) : StreamPage limits socket arrivals req page []

section Page

variable {limits : PageLimits} {socket : MeshPullSocket} {arrivals : List (ℕ × SignedOp)} {req : PullRequest}
  {page : PullPage} {segs : List Segment}

/-- A request that names the stream and needs no reset is answered by a data page. -/
theorem servePull_stream (h : ServesStream socket arrivals) (limits : PageLimits) (req : PullRequest)
    {epoch : Epoch} (hsto : req.store = none) (hep : req.relayEpoch = some epoch)
    (hrst : pullNeedsReset epoch req.relayAfter socket.relayStreamState = false) :
    ∃ page segs, servePull limits socket req = .ok page ∧ DataPage socket.relayStreamState page ∧
      page.keyed = segmentEntries segs ∧ StreamPage limits socket arrivals req page segs := by
  have hlim : 0 < max 1 (min req.limit limits.pageLimitMax) := by omega
  simp only [servePull, admitPullAck_none hep hrst]
  simp only [buildPullPage, hep, hsto, hrst, Bool.false_eq_true, and_false, if_false]
  split
  · rename_i afterSeq o key hres
    generalize hpage : buildBackfill limits socket req.coverage [] afterSeq
        (max 1 (min req.limit limits.pageLimitMax)) = page
    obtain ⟨hscan, hends⟩ := buildBackfill_stream h hlim hpage
    exact ⟨page, [], rfl, hpage ▸ dataPage_pullPage _ _ _ _ _ _, hpage ▸ rfl,
      .backfill afterSeq o key hres hscan hends⟩
  · rename_i hph
    generalize hresult : keyedChannel limits socket req = result
    have hchan := hresult
    rw [keyedChannel] at hchan
    obtain ⟨segs, hk, hsvd, hroom⟩ := buildKeyedChannel_spec (h.originSince none) req.resume hlim
      limits.pageByteBudget_pos hchan
    rw [filter_keyed hph, hchan]
    obtain ⟨keyed, resume⟩ := result
    obtain rfl : keyed = segmentEntries segs := hk
    cases resume with
    | some r =>
      exact ⟨_, segs, rfl, dataPage_pullPage _ _ _ _ _ _, rfl,
        .cut segs r ⟨hph, hresult, hsvd⟩ rfl rfl rfl⟩
    | none =>
      have hlt := hroom rfl
      simp only [Option.isSome_none, Bool.false_eq_true, if_false, Nat.sub_eq_zero_iff_le, if_neg (not_le.2 hlt)]
      generalize hpage : buildBackfill limits socket req.coverage (segmentEntries segs)
          req.relayAfter (max 1 (min req.limit limits.pageLimitMax) - (segmentEntries segs).length) = page
      obtain ⟨hscan, hends⟩ := buildBackfill_stream h (Nat.sub_pos_of_lt hlt) hpage
      have hkey : page.keyed = segmentEntries segs := hpage ▸ rfl
      exact ⟨page, segs, rfl, hpage ▸ dataPage_pullPage _ _ _ _ _ _, hkey,
        .full segs ⟨hph, hkey ▸ hresult, hsvd⟩ hscan hends⟩

section Parts

variable (h : StreamPage limits socket arrivals req page segs)
include h

theorem StreamPage.scan :
    ∃ start, (start = req.relayAfter ∨ ∃ o key, req.resume = some ⟨.backfill, start, o, key⟩) ∧
      ScanTo arrivals req.coverage start page := by
  cases h with
  | cut segs r keyed hres hback hnext =>
    refine ⟨req.relayAfter, .inl rfl, ?_, .inl hnext⟩
    rw [hback, hnext, scanned, filter_eq_nil_iff.2 fun e _ => by simp]
    rfl
  | full segs keyed hscan => exact ⟨_, .inl rfl, hscan⟩
  | backfill n o key hph hscan => exact ⟨n, .inr ⟨o, key, hph⟩, hscan⟩

theorem StreamPage.segment {s : Segment} (hs : s ∈ segs) :
    s.1 ∈ visitOrder socket req.resume ∧ ∃ n, s.2 = (originShare (arrivals.map Prod.snd) none s.1
      (readAfter req.coverage req.audit req.resume s.1)).take n := by
  cases h with
  | cut segs r keyed => exact keyed.served.segment hs
  | full segs keyed => exact keyed.served.segment hs
  | backfill => cases hs

theorem StreamPage.sorted (hsrv : ServesStream socket arrivals) : ∀ s ∈ segs, s.Sorted := by
  intro s hs
  obtain ⟨-, n, hn⟩ := h.segment hs
  refine ⟨fun op hop => ?_, ?_⟩
  · rw [hn] at hop
    exact (mem_originShare.1 (mem_of_mem_take hop)).2.1
  · rw [hn]
    exact (originShare_sorted hsrv.distinct none s.1 _).sublist (take_sublist _ _)

theorem StreamPage.visit (hsrv : ServesStream socket arrivals) : VisitSorted (segs.map Prod.fst) := by
  have hsrt := visitOrder_sorted socket hsrv.sorted req.resume
  cases h with
  | cut segs r keyed => exact hsrt.of_prefix keyed.served.visited
  | full segs keyed => exact hsrt.of_prefix keyed.served.visited
  | backfill => exact ⟨List.Pairwise.nil, nodup_nil⟩

end Parts

end Page

end ProxyNode
