import ProxyNode.Spec.Server
import ProxyNode.Sanity.Arrivals

/-! What a page of an honest node carries. The keyed channel serves whole origins in
visiting order and cuts inside the last one only; the positional channel serves a
stretch of arrivals right behind the requested sequence, and its resume token points at
the end of that stretch. -/

namespace ProxyNode

open List Option

def entryOf (op : SignedOp) : PageEntry := some op.toBytes

/-- One origin's share of the keyed channel. -/
abbrev Segment := DeviceId × List SignedOp

def segmentEntries (segs : List Segment) : List PageEntry :=
  segs.flatMap fun s => s.2.map entryOf

theorem segmentEntries_cons (s : Segment) (segs : List Segment) :
    segmentEntries (s :: segs) = s.2.map entryOf ++ segmentEntries segs := rfl

def lastKeyOf (ops : List SignedOp) : Option OrderKey := ops.getLast?.map SignedOp.orderKey

theorem lastKeyOf_cons (op : SignedOp) (ops : List SignedOp) :
    lastKeyOf (op :: ops) = (lastKeyOf ops).or (some op.orderKey) := by
  cases ops with
  | nil => rfl
  | cons b ops =>
    obtain ⟨c, hc⟩ : ∃ c, (b :: ops).getLast? = some c :=
      ⟨_, getLast?_eq_some_getLast (cons_ne_nil _ _)⟩
    simp [lastKeyOf, hc, getLast?_cons]

/-- How far a keyed channel over `origins` got: through all of them, or up to a non-empty
cut of one of them. -/
inductive Served (ops : DeviceId → List SignedOp) : List DeviceId → List Segment → Option Resume → Prop
  | all (origins : List DeviceId) : Served ops origins (origins.map fun o => (o, ops o)) none
  | cut (done rest : List DeviceId) (o : DeviceId) (n : ℕ) (hn : 0 < n) (hle : n ≤ (ops o).length) :
    Served ops (done ++ o :: rest) (done.map (fun o => (o, ops o)) ++ [(o, (ops o).take n)])
      (some (keyedResume o (lastKeyOf ((ops o).take n))))

theorem Served.cons {ops : DeviceId → List SignedOp} {origins : List DeviceId} {segs : List Segment}
    {resume : Option Resume} (o : DeviceId) (h : Served ops origins segs resume) :
    Served ops (o :: origins) ((o, ops o) :: segs) resume := by
  cases h with
  | all => exact .all (o :: origins)
  | cut done rest o' n hn hle => exact .cut (o :: done) rest o' n hn hle

/-! ## Encoding rows -/

def rowOf (op : SignedOp) : OriginEnvelopeRow := (op.orderKey, op.toBytes)

theorem encodeOriginRows_cut {byteBudget bytes : ℕ} {op : SignedOp}
    (h : byteBudget ≤ bytes + Wire.base64Length op.toBytes.length) (ops : List SignedOp) :
    encodeOriginRows byteBudget ((op :: ops).map rowOf) bytes =
      ⟨[entryOf op], bytes + Wire.base64Length op.toBytes.length, some op.orderKey⟩ :=
  if_pos h

theorem encodeOriginRows_more {byteBudget bytes : ℕ} {op : SignedOp}
    (h : ¬byteBudget ≤ bytes + Wire.base64Length op.toBytes.length) (ops : List SignedOp) :
    encodeOriginRows byteBudget ((op :: ops).map rowOf) bytes =
      let rest := encodeOriginRows byteBudget (ops.map rowOf) (bytes + Wire.base64Length op.toBytes.length)
      ⟨entryOf op :: rest.keyed, rest.bytes, rest.lastKey.or (some op.orderKey)⟩ :=
  if_neg h

/-- A prefix of the rows is encoded, a proper one only at the byte budget. -/
theorem encodeOriginRows_spec (byteBudget : ℕ) (ops : List SignedOp) (bytes : ℕ) :
    ∃ n ≤ ops.length,
      (encodeOriginRows byteBudget (ops.map rowOf) bytes).keyed = (ops.take n).map entryOf ∧
      (encodeOriginRows byteBudget (ops.map rowOf) bytes).lastKey = lastKeyOf (ops.take n) ∧
      (ops ≠ [] → 0 < n) := by
  induction ops generalizing bytes with
  | nil => exact ⟨0, le_rfl, rfl, rfl, fun h => absurd rfl h⟩
  | cons op ops ih =>
    by_cases h : byteBudget ≤ bytes + Wire.base64Length op.toBytes.length
    · rw [encodeOriginRows_cut h]
      exact ⟨1, by simp, rfl, rfl, fun _ => Nat.one_pos⟩
    · rw [encodeOriginRows_more h]
      obtain ⟨n, hle, hk, hl, -⟩ := ih (bytes + Wire.base64Length op.toBytes.length)
      refine ⟨n + 1, Nat.succ_le_succ hle, ?_, ?_, fun _ => Nat.succ_pos n⟩
      · rw [take_succ_cons, map_cons, ← hk]
      · rw [take_succ_cons, lastKeyOf_cons, ← hl]

/-! ## The keyed channel -/

section Keyed

variable {socket : MeshPullSocket} {ops : DeviceId → Option OrderKey → List SignedOp}
  {claims : CoverageVector} {audit : Bool} {byteBudget : ℕ} {store : Option (List Byte)}

def readAfter (claims : CoverageVector) (audit : Bool) (resume : Option Resume) (origin : DeviceId) :
    Option OrderKey :=
  keyedAfter (claimFor claims audit origin)
    (if resume.bind (·.origin) = some origin then resume.bind (·.afterKey) else none)

/-- Reads of at least one row, in one store or in all, are bounded prefixes of `ops`. -/
def ReadsStore (socket : MeshPullSocket) (store : Option (List Byte))
    (ops : DeviceId → Option OrderKey → List SignedOp) : Prop :=
  ∀ origin after limit, 0 < limit → socket.originSince origin after store limit =
    ((ops origin after).take limit).map rowOf

def ReadsOps (socket : MeshPullSocket) (ops : DeviceId → Option OrderKey → List SignedOp) : Prop :=
  ∀ origin after limit, socket.originSince origin after none limit =
    ((ops origin after).take (max limit 1)).map rowOf

theorem ReadsOps.readsStore (h : ReadsOps socket ops) : ReadsStore socket none ops := by
  intro origin after limit hlim
  rw [h, max_eq_left (show 1 ≤ limit from hlim)]

section Turn

variable {origin : DeviceId} {after : Option OrderKey} {remaining bytes : ℕ}
  {rows : List OriginEnvelopeRow} {encoded : EncodedRows}

/-- The prefix one turn serves, and how long the read was. -/
theorem serve_turn (hr : ReadsStore socket store ops) (hrem : 0 < remaining)
    (hrows : socket.originSince origin after store remaining = rows)
    (henc : encodeOriginRows byteBudget rows bytes = encoded) :
    rows.length = min remaining (ops origin after).length ∧ encoded.keyed.length ≤ rows.length ∧
    ∃ n ≤ rows.length, encoded.keyed = ((ops origin after).take n).map entryOf ∧
      encoded.lastKey = lastKeyOf ((ops origin after).take n) ∧ (rows ≠ [] → 0 < n) := by
  rw [hr _ _ _ hrem] at hrows
  subst hrows
  obtain ⟨n, hn, hk, hl, hpos⟩ :=
    encodeOriginRows_spec byteBudget ((ops origin after).take remaining) bytes
  rw [henc, take_take, min_eq_left (hn.trans (length_take_le _ _))] at hk hl
  refine ⟨by simp, ?_, n, by simpa using hn, hk, hl, fun h => hpos fun hnil => h ?_⟩
  · rw [hk, length_map, length_map]
    exact (length_take_le _ _).trans hn
  · rw [hnil, map_nil]

/-- A turn that goes on served the whole origin and left room. -/
theorem serve_turn_all (hr : ReadsStore socket store ops) (hrem : 0 < remaining)
    (hrows : socket.originSince origin after store remaining = rows)
    (henc : encodeOriginRows byteBudget rows bytes = encoded)
    (h1 : rows.length ≠ remaining) (h2 : rows.length ≤ encoded.keyed.length) :
    encoded.keyed = (ops origin after).map entryOf ∧ encoded.keyed.length < remaining := by
  obtain ⟨hlen, -, n, hn, hk, -⟩ := serve_turn hr hrem hrows henc
  have hklen : encoded.keyed.length = min n (ops origin after).length := by
    rw [hk, length_map, length_take]
  have hall : (ops origin after).take n = ops origin after := take_of_length_le (by omega)
  rw [hall] at hk
  exact ⟨hk, by omega⟩

/-- A turn that stops the channel served at least one op. -/
theorem serve_turn_cut (hr : ReadsStore socket store ops) (hrem : 0 < remaining) (hbyt : bytes < byteBudget)
    (hrows : socket.originSince origin after store remaining = rows)
    (henc : encodeOriginRows byteBudget rows bytes = encoded)
    (hcut : rows.length = remaining ∨ encoded.keyed.length < rows.length ∨ byteBudget ≤ encoded.bytes) :
    ∃ n, 0 < n ∧ n ≤ (ops origin after).length ∧
      encoded.keyed = ((ops origin after).take n).map entryOf ∧
      encoded.lastKey = lastKeyOf ((ops origin after).take n) := by
  obtain ⟨hlen, -, n, hn, hk, hl, hpos⟩ := serve_turn hr hrem hrows henc
  refine ⟨n, hpos ?_, by omega, hk, hl⟩
  -- an origin without rows leaves the byte count where it was, below the budget
  rintro rfl
  subst henc
  simp only [length_nil, encodeOriginRows] at hcut
  omega

end Turn

/-- The origins a keyed channel visits, in order. -/
def visitOrder (socket : MeshPullSocket) (resume : Option Resume) : List DeviceId :=
  if resume = none ∧ socket.ownDeviceId ∈ socket.origins then
    socket.ownDeviceId :: socket.origins.filter fun o => decide (socket.ownDeviceId ≠ o)
  else originsFrom socket.origins (resume.bind (·.origin))

theorem readAfter_fresh (claims : CoverageVector) (audit : Bool) (origin : DeviceId) :
    readAfter claims audit none origin = claimFor claims audit origin := by
  simp only [readAfter, bind_none, ite_self]
  cases claimFor claims audit origin <;> rfl

section Loop

variable (socket claims audit byteBudget store)

/-- The loop with no origin to skip. -/
def keyedLoop (resume : Option Resume) (origins : List DeviceId) (keyed : List PageEntry)
    (remaining bytes : ℕ) : List PageEntry × Option Resume :=
  serveOrigins socket claims audit byteBudget store (resume.bind (·.origin)) (resume.bind (·.afterKey)) none
    origins keyed remaining bytes

theorem keyedLoop_turn (resume : Option Resume) (o : DeviceId) (origins : List DeviceId)
    (keyed : List PageEntry) (remaining bytes : ℕ) {rows : List OriginEnvelopeRow} {encoded : EncodedRows}
    (hrows : socket.originSince o (readAfter claims audit resume o) store remaining = rows)
    (henc : encodeOriginRows byteBudget rows bytes = encoded) :
    keyedLoop socket claims audit byteBudget store resume (o :: origins) keyed remaining bytes =
      if rows.length = remaining ∨ encoded.keyed.length < rows.length ∨ byteBudget ≤ encoded.bytes then
        (keyed ++ encoded.keyed, some (keyedResume o encoded.lastKey))
      else keyedLoop socket claims audit byteBudget store resume origins (keyed ++ encoded.keyed)
        (remaining - encoded.keyed.length) encoded.bytes := by
  subst hrows henc
  rw [keyedLoop, serveOrigins, if_neg (some_ne_none o).symm]
  rfl

theorem serveOrigins_skip (resume : Option Resume) (skipped : Option DeviceId) (origins : List DeviceId)
    (keyed : List PageEntry) (remaining bytes : ℕ) :
    serveOrigins socket claims audit byteBudget store (resume.bind (·.origin)) (resume.bind (·.afterKey)) skipped
      origins keyed remaining bytes =
    keyedLoop socket claims audit byteBudget store resume (origins.filter fun o => decide (skipped ≠ some o))
      keyed remaining bytes := by
  induction origins generalizing keyed remaining bytes with
  | nil => rfl
  | cons o origins ih =>
    by_cases hs : skipped = some o
    · rw [serveOrigins, if_pos hs, filter_cons_of_neg (by simpa using hs), ih]
    · rw [serveOrigins, if_neg hs, filter_cons_of_pos (by simpa using hs),
        keyedLoop_turn _ _ _ _ _ resume o _ _ _ _ rfl rfl, ← ih]
      rfl

end Loop

theorem encodeOriginRows_length (byteBudget : ℕ) (rows : List OriginEnvelopeRow) (bytes : ℕ) :
    (encodeOriginRows byteBudget rows bytes).keyed.length ≤ rows.length := by
  induction rows generalizing bytes with
  | nil => simp [encodeOriginRows]
  | cons row rows ih =>
    obtain ⟨key, envelope⟩ := row
    simp only [encodeOriginRows]
    split_ifs
    · simp
    · simpa using ih _

/-- The own origin's turn is a turn of the loop, with its stop written differently. -/
theorem buildKeyedChannel_loop (resume : Option Resume) {budget : ℕ} (hbud : 0 < budget)
    (hbd : ∀ o after, (socket.originSince o after store budget).length ≤ budget) :
    buildKeyedChannel socket claims audit byteBudget store resume budget =
      keyedLoop socket claims audit byteBudget store resume (visitOrder socket resume) [] budget 0 := by
  simp only [buildKeyedChannel, hbud.ne', if_false, serveOrigins_skip]
  rw [visitOrder]
  by_cases hown : resume = none ∧ socket.ownDeviceId ∈ socket.origins
  · rw [if_pos hown, if_pos hown]
    obtain ⟨rfl, -⟩ := hown
    generalize hrows :
      socket.originSince socket.ownDeviceId (readAfter claims audit none socket.ownDeviceId) store budget = rows
    generalize henc : encodeOriginRows byteBudget rows 0 = encoded
    have hle : encoded.keyed.length ≤ rows.length := henc ▸ encodeOriginRows_length byteBudget rows 0
    have hread : rows.length ≤ budget := hrows ▸ hbd _ _
    rw [keyedLoop_turn _ _ _ _ _ _ _ _ _ _ _ hrows henc]
    simp only [← readAfter_fresh, hrows, henc, nil_append, ne_eq, some.injEq]
    exact if_congr (by omega) rfl rfl
  · rw [if_neg hown, if_neg hown]
    simp [originsFrom]

variable {result : List PageEntry × Option Resume}

theorem keyedLoop_spec (hr : ReadsStore socket store ops) (resume : Option Resume) (origins : List DeviceId)
    (keyed : List PageEntry) (remaining bytes : ℕ) (hrem : 0 < remaining) (hbyt : bytes < byteBudget)
    (hres : keyedLoop socket claims audit byteBudget store resume origins keyed remaining bytes = result) :
    ∃ segs, result.1 = keyed ++ segmentEntries segs ∧
      Served (fun o => ops o (readAfter claims audit resume o)) origins segs result.2 ∧
      (result.2 = none → (segmentEntries segs).length < remaining) := by
  induction origins generalizing keyed remaining bytes with
  | nil =>
    subst hres
    exact ⟨[], by simp [keyedLoop, serveOrigins, segmentEntries], .all [], fun _ => hrem⟩
  | cons o origins ih =>
    generalize hrows : socket.originSince o (readAfter claims audit resume o) store remaining = rows
    generalize henc : encodeOriginRows byteBudget rows bytes = encoded
    rw [keyedLoop_turn _ _ _ _ _ _ _ _ _ _ _ hrows henc] at hres
    split_ifs at hres with hcut
    · obtain ⟨n, hn, hle, hk, hl⟩ := serve_turn_cut hr hrem hbyt hrows henc hcut
      subst hres
      refine ⟨[(o, (ops o (readAfter claims audit resume o)).take n)], ?_, ?_, fun h => ?_⟩
      · simp [segmentEntries, hk]
      · rw [hl]
        exact @Served.cut (fun o => ops o (readAfter claims audit resume o)) [] _ o n hn hle
      · cases h
    · push Not at hcut
      obtain ⟨hk, hlt⟩ := serve_turn_all hr hrem hrows henc hcut.1 hcut.2.1
      obtain ⟨segs, h1, h2, h3⟩ := ih (keyed ++ encoded.keyed) (remaining - encoded.keyed.length)
        encoded.bytes (by omega) hcut.2.2 hres
      refine ⟨_, ?_, h2.cons o, fun h => ?_⟩
      · rw [h1, segmentEntries_cons, ← hk, append_assoc]
      · have := h3 h
        rw [segmentEntries_cons, length_append, ← hk]
        omega

theorem ReadsStore.length_le (hr : ReadsStore socket store ops) {limit : ℕ} (hlim : 0 < limit)
    (o : DeviceId) (after : Option OrderKey) : (socket.originSince o after store limit).length ≤ limit := by
  rw [hr o after limit hlim, length_map]
  exact length_take_le _ _

theorem buildKeyedChannel_spec (hr : ReadsStore socket store ops) (resume : Option Resume) {budget : ℕ}
    (hbud : 0 < budget) (hbyt : 0 < byteBudget)
    (hres : buildKeyedChannel socket claims audit byteBudget store resume budget = result) :
    ∃ segs, result.1 = segmentEntries segs ∧
      Served (fun o => ops o (readAfter claims audit resume o)) (visitOrder socket resume) segs result.2 ∧
      (result.2 = none → (segmentEntries segs).length < budget) := by
  rw [buildKeyedChannel_loop resume hbud (hr.length_le hbud)] at hres
  exact keyedLoop_spec hr resume _ [] budget 0 hbud hbyt hres

end Keyed

/-! ## The positional channel -/

def coveredArrivals (claims : CoverageVector) (l : List SignedOp) (start : ℕ) : List (ℕ × SignedOp) :=
  ((l.zipIdx start).filter fun e => claims.covers e.1.orderKey).map fun e => (e.2 + 1, e.1)

def backfillEntries (l : List (ℕ × SignedOp)) : List (ℕ × PageEntry) := l.map fun e => (e.1, entryOf e.2)

def arrivalRow (e : SignedOp × ℕ) : RelayEnvelopeRow := (e.2 + 1, e.1, e.1.toBytes)

/-- A stretch of `k` arrivals is scanned, a proper part only after the byte cut. -/
theorem scanArrivals_spec (claims : CoverageVector) (byteBudget : ℕ) (l : List SignedOp)
    (start bytes : ℕ) (cut : Bool) {scan : ArrivalScan}
    (hscan : scanArrivals claims byteBudget ((l.zipIdx start).map arrivalRow) start bytes cut = scan) :
    ∃ k ≤ l.length, scan.backfill = backfillEntries (coveredArrivals claims (l.take k) start) ∧
      scan.nextRelaySeq = start + k ∧ (k < l.length → scan.byteCut = true) ∧
      (scan.byteCut = true → cut = true ∨ 0 < k) := by
  induction l generalizing start bytes cut scan with
  | nil =>
    subst hscan
    exact ⟨0, le_rfl, rfl, rfl, fun h => absurd h (lt_irrefl 0), .inl⟩
  | cons op l ih =>
    rw [zipIdx_cons, map_cons, arrivalRow, scanArrivals] at hscan
    by_cases hc : claims.covers op.orderKey = true
    · rw [if_pos hc] at hscan
      cases cut with
      | true =>
        subst hscan
        exact ⟨0, Nat.zero_le _, rfl, rfl, fun _ => rfl, .inl⟩
      | false =>
        obtain ⟨k, hk, hb, hn, hlt, -⟩ := ih (start + 1) _ _ rfl
        subst hscan
        refine ⟨k + 1, Nat.succ_le_succ hk, ?_, ?_, fun h => hlt (by simpa using h),
          fun _ => Or.inr (Nat.succ_pos k)⟩
        · simp only [Bool.false_eq_true, if_false, hb, take_succ_cons, coveredArrivals,
            zipIdx_cons, filter_cons, hc, if_true, map_cons, backfillEntries, entryOf]
        · simp only [Bool.false_eq_true, if_false, hn]
          omega
    · rw [if_neg hc] at hscan
      obtain ⟨k, hk, hb, hn, hlt, -⟩ := ih (start + 1) _ _ hscan
      refine ⟨k + 1, Nat.succ_le_succ hk, ?_, by omega, fun h => hlt (by simpa using h),
        fun _ => Or.inr (Nat.succ_pos k)⟩
      rw [hb, take_succ_cons]
      simp only [coveredArrivals, zipIdx_cons, filter_cons, hc]
      rfl

def ReadsArrivals (socket : MeshPullSocket) (arrivals : List SignedOp) : Prop :=
  ∀ after limit, socket.relaySinceWithEnvelopes after limit =
    (((arrivals.drop after).take limit).zipIdx after).map arrivalRow

/-- What the positional part of a page over `arrivals` scanned. -/
structure Scanned (arrivals : List SignedOp) (claims : CoverageVector) (start k : ℕ) (page : PullPage) :
    Prop where
  backfill : page.backfill = backfillEntries (coveredArrivals claims ((arrivals.drop start).take k) start)
  next : page.nextRelaySeq = start + k
  bound : k ≤ (arrivals.drop start).length
  /-- Without a resume token the scan reached the head. -/
  complete : page.resume = none → k = (arrivals.drop start).length
  resume : ∀ r, page.resume = some r → r = backfillResume (start + k) ∧ 0 < k

theorem buildBackfill_spec {socket : MeshPullSocket} {arrivals : List SignedOp}
    (hs : ReadsArrivals socket arrivals) (limits : PageLimits) (claims : CoverageVector)
    (keyed : List PageEntry) (start : ℕ) {budget : ℕ} (hbud : 0 < budget) :
    ∃ k, Scanned arrivals claims start k (buildBackfill limits socket claims keyed start budget) := by
  generalize hscan : scanArrivals claims limits.pageByteBudget
      (socket.relaySinceWithEnvelopes start budget) start (keyed.map PageEntry.length).sum false = scan
  have hlen : (socket.relaySinceWithEnvelopes start budget).length =
      ((arrivals.drop start).take budget).length := by
    rw [hs, length_map, length_zipIdx]
  have hscan' := hscan
  rw [hs] at hscan'
  obtain ⟨k, hk, hb, hn, hlt, hcut⟩ := scanArrivals_spec claims limits.pageByteBudget _ _ _ _ hscan'
  rw [take_take, min_eq_left (hk.trans (length_take_le _ _))] at hb
  rw [length_take] at hk hlt hlen
  refine ⟨k, ?_, ?_, by omega, fun h => ?_, fun r h => ?_⟩
  · simpa only [buildBackfill, hscan, pullPage] using hb
  · simpa only [buildBackfill, hscan, pullPage] using hn
  · simp only [buildBackfill, hscan, pullPage, hlen, ite_eq_right_iff, reduceCtorEq, imp_false] at h
    push Not at h
    by_contra hne
    exact h.2 (hlt (by omega))
  · simp only [buildBackfill, hscan, pullPage, hlen, hn, ite_none_right_eq_some,
      some.injEq] at h
    refine ⟨h.2.symm, ?_⟩
    rcases h.1 with h | h
    · -- a full read that was not cut scanned all of the budget
      by_contra h0
      have hc := hcut (hlt (by omega))
      simp only [Bool.false_eq_true, false_or] at hc
      omega
    · simpa using hcut h

/-! ## Whole pages -/

section Ack

variable {socket : MeshPullSocket} {req : PullRequest} {epoch : Epoch}

theorem admitPullAck_none (hep : req.relayEpoch = some epoch)
    (hrst : pullNeedsReset epoch req.relayAfter socket.relayStreamState = false) :
    admitPullAck socket req = .ok none := by
  simp only [admitPullAck, hep, hrst, Bool.false_eq_true, if_false]

theorem admitPullAck_reset (hep : req.relayEpoch = some epoch)
    (hrst : pullNeedsReset epoch req.relayAfter socket.relayStreamState = true) :
    admitPullAck socket req = .ok (some (resetPullPage socket.relayStreamState)) := by
  simp only [admitPullAck, hep, hrst, if_true]

end Ack

def startSeq (req : PullRequest) : ℕ :=
  match req.resume with
  | some ⟨.backfill, afterSeq, _, _⟩ => afterSeq
  | _ => req.relayAfter

structure DataPage (stream : RelayStreamState) (page : PullPage) : Prop where
  epoch : page.epoch = some stream.epoch
  reset : page.reset = false
  snapshotRecommended : page.snapshotRecommended = false
  headSeq : page.headSeq = stream.head
  complete : page.complete = page.resume.isNone

theorem dataPage_pullPage (stream : RelayStreamState) (store : Option (List Byte))
    (backfill : List (ℕ × PageEntry)) (keyed : List PageEntry) (next : ℕ) (resume : Option Resume) :
    DataPage stream (pullPage stream store backfill keyed next resume) :=
  ⟨rfl, rfl, rfl, rfl, rfl⟩

/-- The content of a data page: a keyed channel that was cut, or a scan behind a keyed
channel that was not, or behind none at all. -/
inductive PageShape (socket : MeshPullSocket) (ops : DeviceId → Option OrderKey → List SignedOp)
    (arrivals : List SignedOp) (req : PullRequest) (page : PullPage) : List Segment → Prop
  | cut (segs : List Segment) (r : Resume) (resume : page.resume = some r) (backfill : page.backfill = [])
    (next : page.nextRelaySeq = req.relayAfter)
    (phase : ∀ n o k, req.resume ≠ some ⟨.backfill, n, o, k⟩)
    (served : Served (fun o => ops o (readAfter req.coverage req.audit req.resume o))
      (visitOrder socket req.resume) segs (some r)) : PageShape socket ops arrivals req page segs
  | full (segs : List Segment) (k : ℕ)
    (phase : ∀ n o k, req.resume ≠ some ⟨.backfill, n, o, k⟩)
    (served : Served (fun o => ops o (readAfter req.coverage req.audit req.resume o))
      (visitOrder socket req.resume) segs none)
    (scanned : Scanned arrivals req.coverage req.relayAfter k page) :
    PageShape socket ops arrivals req page segs
  | backfill (k n : ℕ) (o : Option DeviceId) (key : Option OrderKey)
    (phase : req.resume = some ⟨.backfill, n, o, key⟩)
    (scanned : Scanned arrivals req.coverage n k page) : PageShape socket ops arrivals req page []

/-- A token that does not resume a scan is one of the keyed channel. -/
theorem filter_keyed {resume : Option Resume} (hph : ∀ n o key, resume = some ⟨.backfill, n, o, key⟩ → False) :
    (resume.filter fun r => decide (r.phase = .keyed)) = resume := by
  rcases resume with - | ⟨phase, n, o, key⟩
  · rfl
  · cases phase with
    | backfill => exact absurd rfl (hph n o key)
    | keyed => rfl

/-- A request that names the stream and needs no reset is answered by a data page. -/
theorem buildPullPage_spec {socket : MeshPullSocket} {ops : DeviceId → Option OrderKey → List SignedOp}
    {arrivals : List SignedOp} (hr : ReadsOps socket ops) (hs : ReadsArrivals socket arrivals)
    (limits : PageLimits) {req : PullRequest} {epoch : Epoch} (hsto : req.store = none)
    (hep : req.relayEpoch = some epoch)
    (hrst : pullNeedsReset epoch req.relayAfter socket.relayStreamState = false) :
    ∃ page segs, buildPullPage limits socket req = .ok page ∧
      DataPage socket.relayStreamState page ∧ page.keyed = segmentEntries segs ∧
      PageShape socket ops arrivals req page segs := by
  have hlim : 0 < max 1 (min req.limit limits.pageLimitMax) := by omega
  simp only [buildPullPage, hep, hsto, hrst, Bool.false_eq_true, and_false, if_false]
  split
  · -- a resumed scan has no keyed part
    rename_i afterSeq o key hres
    obtain ⟨k, hk⟩ := buildBackfill_spec hs limits req.coverage [] afterSeq hlim
    exact ⟨_, [], rfl, dataPage_pullPage _ _ _ _ _ _, rfl, .backfill k afterSeq o key hres hk⟩
  · rename_i hph
    rw [filter_keyed hph]
    generalize hresult : buildKeyedChannel socket req.coverage req.audit
        limits.pageByteBudget none req.resume (max 1 (min req.limit limits.pageLimitMax)) = result
    obtain ⟨segs, hk, hsvd, hroom⟩ :=
      buildKeyedChannel_spec hr.readsStore req.resume hlim
        limits.pageByteBudget_pos hresult
    obtain ⟨keyed, resume⟩ := result
    obtain rfl : keyed = segmentEntries segs := hk
    cases resume with
    | some r =>
      exact ⟨_, segs, rfl, dataPage_pullPage _ _ _ _ _ _, rfl, .cut segs r rfl rfl rfl hph hsvd⟩
    | none =>
      have hlt := hroom rfl
      simp only [isSome_none, Bool.false_eq_true, if_false, Nat.sub_eq_zero_iff_le,
        if_neg (not_le.2 hlt)]
      obtain ⟨k, hscan⟩ := buildBackfill_spec hs limits req.coverage (segmentEntries segs)
        req.relayAfter (Nat.sub_pos_of_lt hlt)
      exact ⟨_, segs, rfl, dataPage_pullPage _ _ _ _ _ _, rfl, .full segs k hph hsvd hscan⟩

end ProxyNode
