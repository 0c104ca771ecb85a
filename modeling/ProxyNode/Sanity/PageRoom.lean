import ProxyNode.Sanity.Exchange

/-! A page stops short only when it is full: a resume token means that the entry limit or
the byte budget was reached. With room for everything the reads hold, a page serves all
of it. -/

namespace ProxyNode

open List Except

def entryBytes (entries : List PageEntry) : ℕ := (entries.map PageEntry.length).sum

def PullPage.entries (page : PullPage) : List PageEntry := page.keyed ++ page.backfill.map Prod.snd

@[simp] theorem entryBytes_append (a b : List PageEntry) : entryBytes (a ++ b) = entryBytes a + entryBytes b := by
  simp [entryBytes]

theorem entryBytes_le {a b : List PageEntry} (h : a.Sublist b) : entryBytes a ≤ entryBytes b := by
  induction h with
  | slnil => exact le_rfl
  | cons e _ ih => exact ih.trans (by simp [entryBytes])
  | cons_cons e _ ih => simpa [entryBytes] using ih

/-! ## The keyed channel -/

/-- The byte count follows the entries, and rows are left over only at the budget. -/
theorem encodeOriginRows_room (byteBudget : ℕ) (rows : List OriginEnvelopeRow) (bytes : ℕ)
    {encoded : EncodedRows} (henc : encodeOriginRows byteBudget rows bytes = encoded) :
    encoded.bytes = bytes + entryBytes encoded.keyed ∧
      (encoded.keyed.length < rows.length → byteBudget ≤ encoded.bytes) := by
  induction rows generalizing bytes encoded with
  | nil =>
    subst henc
    exact ⟨rfl, fun h => absurd h (lt_irrefl 0)⟩
  | cons row rows ih =>
    obtain ⟨key, envelope⟩ := row
    rw [encodeOriginRows] at henc
    generalize htotal : bytes + Wire.base64Length envelope.length = total
    simp only [htotal] at henc
    split_ifs at henc with hfull
    · subst henc
      exact ⟨by simp [entryBytes, PageEntry.length, htotal], fun _ => hfull⟩
    · obtain ⟨h1, h2⟩ := ih total rfl
      subst henc
      refine ⟨?_, fun h => h2 (by simpa using h)⟩
      simp only [entryBytes, map_cons, sum_cons, PageEntry.length, Option.elim_some] at h1 ⊢
      omega

section Keyed

variable {socket : MeshPullSocket} {claims : CoverageVector} {audit : Bool} {byteBudget : ℕ}
  {store : Option (List Byte)}

variable {result : List PageEntry × Option Resume}

theorem keyedLoop_room (resume : Option Resume) (origins : List DeviceId) (keyed : List PageEntry)
    (remaining bytes : ℕ) (hbyt : bytes = entryBytes keyed)
    (hres : keyedLoop socket claims audit byteBudget store resume origins keyed remaining bytes = result)
    (hcut : result.2 ≠ none) :
    keyed.length + remaining ≤ result.1.length ∨ byteBudget ≤ entryBytes result.1 := by
  induction origins generalizing keyed remaining bytes with
  | nil =>
    subst hres
    exact absurd rfl hcut
  | cons o origins ih =>
    generalize hrows : socket.originSince o (readAfter claims audit resume o) store remaining = rows
    generalize henc : encodeOriginRows byteBudget rows bytes = encoded
    obtain ⟨hb, hfull⟩ := encodeOriginRows_room byteBudget rows bytes henc
    have hsum : encoded.bytes = entryBytes (keyed ++ encoded.keyed) := by
      rw [entryBytes_append, hb, hbyt]
    rw [keyedLoop_turn _ _ _ _ _ _ _ _ _ _ _ hrows henc] at hres
    split_ifs at hres with hstop
    · subst hres
      dsimp only
      rw [← hsum, length_append]
      rcases hstop with h | h | h
      · by_cases hlt : encoded.keyed.length < rows.length
        · exact .inr (hfull hlt)
        · exact .inl (by omega)
      · exact .inr (hfull h)
      · exact .inr h
    · have := ih (keyed ++ encoded.keyed) (remaining - encoded.keyed.length) encoded.bytes hsum hres
      rw [length_append] at this
      omega

theorem buildKeyedChannel_room {ops : DeviceId → Option OrderKey → List SignedOp}
    (hr : ReadsStore socket store ops) {resume : Option Resume} {budget : ℕ} (hbud : 0 < budget)
    (hres : buildKeyedChannel socket claims audit byteBudget store resume budget = result)
    (hcut : result.2 ≠ none) : budget ≤ result.1.length ∨ byteBudget ≤ entryBytes result.1 := by
  rw [buildKeyedChannel_loop resume hbud (hr.length_le hbud)] at hres
  simpa using keyedLoop_room resume _ [] budget 0 rfl hres hcut

end Keyed

/-! ## The positional channel -/

theorem scanArrivals_room (claims : CoverageVector) (byteBudget : ℕ) (rows : List RelayEnvelopeRow)
    (next bytes : ℕ) (cut : Bool) {scan : ArrivalScan}
    (hscan : scanArrivals claims byteBudget rows next bytes cut = scan) (hcut : scan.byteCut = true) :
    cut = true ∨ byteBudget ≤ bytes + entryBytes (scan.backfill.map Prod.snd) := by
  induction rows generalizing next bytes cut scan with
  | nil =>
    subst hscan
    exact .inl hcut
  | cons row rows ih =>
    obtain ⟨seq, op, envelope⟩ := row
    rw [scanArrivals] at hscan
    split_ifs at hscan with hc hcut'
    · exact .inl hcut'
    · generalize htotal : bytes + Wire.base64Length envelope.length = total
      simp only [htotal] at hscan
      generalize hrest : scanArrivals claims byteBudget rows seq total (decide (byteBudget ≤ total)) = rest
      rw [hrest] at hscan
      subst hscan
      have := ih seq total _ hrest hcut
      simp only [decide_eq_true_eq, entryBytes, map_cons, sum_cons, PageEntry.length,
        Option.elim_some] at this ⊢
      omega
    · exact ih seq bytes cut hscan hcut

variable {socket : MeshPullSocket} {page : PullPage}

theorem buildBackfill_room {arrivals : List SignedOp} (hs : ReadsArrivals socket arrivals) (limits : PageLimits)
    (claims : CoverageVector) (keyed : List PageEntry) (start budget : ℕ)
    (hpage : buildBackfill limits socket claims keyed start budget = page) (hcut : page.resume ≠ none) :
    budget ≤ arrivals.length ∨
      limits.pageByteBudget ≤ entryBytes page.keyed + entryBytes (page.backfill.map Prod.snd) := by
  have hlen : (socket.relaySinceWithEnvelopes start budget).length ≤ arrivals.length := by
    rw [hs, length_map, length_zipIdx]
    simp only [length_take, length_drop]
    omega
  generalize hscan : scanArrivals claims limits.pageByteBudget
      (socket.relaySinceWithEnvelopes start budget) start (keyed.map PageEntry.length).sum false = scan
  subst hpage
  simp only [buildBackfill, hscan, pullPage] at hcut ⊢
  rw [ne_eq, ite_eq_right_iff] at hcut
  push Not at hcut
  rcases hcut.1 with ⟨h, -⟩ | h
  · exact .inl (h ▸ hlen)
  · have := scanArrivals_room _ _ _ _ _ _ hscan h
    simp only [Bool.false_eq_true, false_or] at this
    exact .inr this

variable {limits : PageLimits} {req : PullRequest}

/-- A page with a resume token is full: its entry limit is reached by what it serves and
scans, or its byte budget by what it serves. -/
theorem buildPullPage_room {ops : DeviceId → Option OrderKey → List SignedOp} {arrivals : List SignedOp}
    (hr : ReadsStore socket none ops) (hs : ReadsArrivals socket arrivals)
    (hsto : req.store = none) {epoch : Epoch} (hep : req.relayEpoch = some epoch)
    (hrst : pullNeedsReset epoch req.relayAfter socket.relayStreamState = false)
    (hpage : buildPullPage limits socket req = .ok page) (hcut : page.resume ≠ none) :
    min req.limit limits.pageLimitMax ≤ page.keyed.length + arrivals.length ∨
      limits.pageByteBudget ≤ entryBytes page.keyed + entryBytes (page.backfill.map Prod.snd) := by
  have hlim : 0 < max 1 (min req.limit limits.pageLimitMax) := by omega
  simp only [buildPullPage, hep, hsto, hrst, Bool.false_eq_true, and_false, if_false] at hpage
  split at hpage
  · have := buildBackfill_room hs limits _ _ _ _ (ok.inj hpage) hcut
    omega
  · generalize hres : buildKeyedChannel socket req.coverage req.audit
        limits.pageByteBudget none (req.resume.filter fun r => decide (r.phase = .keyed))
        (max 1 (min req.limit limits.pageLimitMax)) = result
    obtain ⟨keyed, resume⟩ := result
    simp only [hres] at hpage
    split_ifs at hpage with hsome hfull
    · have hroom := buildKeyedChannel_room hr hlim hres (Option.isSome_iff_ne_none.1 hsome)
      obtain rfl := ok.inj hpage
      dsimp only [pullPage] at hroom ⊢
      omega
    · obtain rfl := ok.inj hpage
      dsimp only [pullPage]
      omega
    · have hroom := buildBackfill_room hs limits _ _ _ _ (ok.inj hpage) hcut
      have hkey : page.keyed = keyed := by rw [← ok.inj hpage]; rfl
      rw [hkey] at hroom ⊢
      omega

/-! ## Pages with room for everything -/

theorem segmentEntries_append (a b : List Segment) :
    segmentEntries (a ++ b) = segmentEntries a ++ segmentEntries b :=
  flatMap_append

/-- What a channel serves is an initial part of what it would serve without limits. -/
theorem Served.entries_prefix {ops : DeviceId → List SignedOp} {origins : List DeviceId} {segs : List Segment}
    {resume : Option Resume} (h : Served ops origins segs resume) :
    segmentEntries segs <+: segmentEntries (origins.map fun o => (o, ops o)) := by
  cases h with
  | all => exact prefix_refl _
  | cut done rest o n hn hle =>
    rw [map_append, map_cons, segmentEntries_append, segmentEntries_append]
    refine (prefix_append_right_inj _).2 ?_
    rw [segmentEntries_cons, segmentEntries_cons]
    simp only [segmentEntries, flatMap_nil, append_nil]
    exact (List.IsPrefix.map _ (List.take_prefix n (ops o))).trans (prefix_append _ _)

theorem backfillEntries_sublist (claims : CoverageVector) (l : List SignedOp) (start : ℕ) :
    ((backfillEntries (coveredArrivals claims l start)).map Prod.snd).Sublist (l.map entryOf) := by
  have hmap : (backfillEntries (coveredArrivals claims l start)).map Prod.snd =
      (((l.zipIdx start).filter fun e => claims.covers e.1.orderKey).map Prod.fst).map entryOf := by
    simp only [backfillEntries, coveredArrivals, map_map]
    rfl
  rw [hmap]
  refine List.Sublist.map _ ?_
  have := (filter_sublist (p := fun e : SignedOp × ℕ => claims.covers e.1.orderKey)
    (l := l.zipIdx start)).map Prod.fst
  rwa [zipIdx_map_fst] at this

def channelEntries (reads : PageReads) (own : DeviceId) (req : PullRequest) : List PageEntry :=
  segmentEntries ((visitOrder (reads.serveState own) req.resume).map fun o =>
    (o, (reads.since o).originOps o (readAfter req.coverage req.audit req.resume o)))

/-- Limits above everything the reads hold leave a page complete. -/
theorem servePull_whole {reads : PageReads} {own : DeviceId} {epoch : Epoch} {segs : List Segment}
    (hsto : req.store = none) (hep : req.relayEpoch = some epoch)
    (hrst : pullNeedsReset epoch req.relayAfter reads.state.relayState = false)
    (hpage : servePull limits (reads.serveState own) req = .ok page)
    (hkey : page.keyed = segmentEntries segs) (hshp : ServedPage reads own req page segs)
    (hcnt : (channelEntries reads own req).length + reads.scan.arrivals.length <
      min req.limit limits.pageLimitMax)
    (hbyt : entryBytes (channelEntries reads own req) + entryBytes (reads.scan.arrivals.map entryOf) <
      limits.pageByteBudget) :
    page.resume = none := by
  have hack : admitPullAck (reads.serveState own) req = .ok none := admitPullAck_none hep hrst
  simp only [servePull, hack] at hpage
  have hpre : page.keyed <+: channelEntries reads own req := by
    rw [hkey]
    cases hshp with
    | cut segs r hr hback hnext hph hsvd => exact hsvd.entries_prefix
    | full segs k hph hsvd => exact hsvd.entries_prefix
    | backfill => exact nil_prefix
  have hback : (page.backfill.map Prod.snd).Sublist (reads.scan.arrivals.map entryOf) := by
    obtain ⟨start, k, -, -, -, hb⟩ := hshp.scan
    rw [hb]
    refine (backfillEntries_sublist _ _ _).trans (List.Sublist.map _ ?_)
    exact (take_sublist _ _).trans (drop_sublist _ _)
  have hlen := hpre.length_le
  have hsum := entryBytes_le hpre.sublist
  have hsum' := entryBytes_le hback
  by_contra hcut
  have := buildPullPage_room (readsOps_serveState reads own).readsStore (readsArrivals_serveState reads own)
    hsto hep hrst hpage hcut
  omega

/-! ## The entry caps -/

structure MeshPullSocket.Bounded (socket : MeshPullSocket) : Prop where
  originSince : ∀ origin after store n, 0 < n → (socket.originSince origin after store n).length ≤ n
  relaySince : ∀ after n, (socket.relaySinceWithEnvelopes after n).length ≤ n

section Caps

variable {socket : MeshPullSocket} {claims : CoverageVector} {audit : Bool} {byteBudget : ℕ}
  {store : Option (List Byte)}

theorem keyedLoop_length (hs : socket.Bounded) (resume : Option Resume) (origins : List DeviceId)
    (keyed : List PageEntry) (remaining bytes : ℕ) (hrem : 0 < remaining) :
    (keyedLoop socket claims audit byteBudget store resume origins keyed remaining bytes).1.length ≤
      keyed.length + remaining := by
  induction origins generalizing keyed remaining bytes with
  | nil => simp [keyedLoop, serveOrigins]
  | cons o origins ih =>
    generalize hrows : socket.originSince o (readAfter claims audit resume o) store remaining = rows
    have hread : rows.length ≤ remaining := hrows ▸ hs.originSince o _ store remaining hrem
    have henc := encodeOriginRows_length byteBudget rows bytes
    rw [keyedLoop_turn _ _ _ _ _ _ _ _ _ _ _ hrows rfl]
    split_ifs with hstop
    · rw [length_append]
      omega
    · have := ih (keyed ++ (encodeOriginRows byteBudget rows bytes).keyed)
        (remaining - (encodeOriginRows byteBudget rows bytes).keyed.length)
        (encodeOriginRows byteBudget rows bytes).bytes (by omega)
      rw [length_append] at this
      omega

theorem buildKeyedChannel_length (hs : socket.Bounded) (resume : Option Resume) (budget : ℕ) :
    (buildKeyedChannel socket claims audit byteBudget store resume budget).1.length ≤ budget := by
  rcases Nat.eq_zero_or_pos budget with rfl | hpos
  · simp [buildKeyedChannel]
  · rw [buildKeyedChannel_loop resume hpos fun o after => hs.originSince o after store _ hpos]
    simpa using keyedLoop_length hs resume (visitOrder socket resume) [] budget 0 hpos

end Caps

theorem scanArrivals_length (claims : CoverageVector) (byteBudget : ℕ) (rows : List RelayEnvelopeRow)
    (next bytes : ℕ) (cut : Bool) :
    (scanArrivals claims byteBudget rows next bytes cut).backfill.length ≤ rows.length := by
  induction rows generalizing next bytes cut with
  | nil => simp [scanArrivals]
  | cons row rows ih =>
    obtain ⟨seq, op, envelope⟩ := row
    simp only [scanArrivals]
    split_ifs
    · simp
    · simpa using ih _ _ _
    · exact (ih _ _ _).trans (Nat.le_succ _)

theorem buildBackfill_length (hs : socket.Bounded) (limits : PageLimits) (claims : CoverageVector)
    (keyed : List PageEntry) (start budget : ℕ) :
    (buildBackfill limits socket claims keyed start budget).backfill.length ≤ budget :=
  (scanArrivals_length _ _ _ _ _ _).trans (hs.relaySince start budget)

theorem buildPullPage_within (hs : socket.Bounded) (hpage : buildPullPage limits socket req = .ok page) :
    page.version = pullVersion ∧ page.backfill.length ≤ limits.pageLimitMax ∧
      page.keyed.length ≤ limits.pageLimitMax := by
  have hlim : max 1 (min req.limit limits.pageLimitMax) ≤ limits.pageLimitMax := by
    have := limits.pageLimitMax_pos
    omega
  cases hep : req.relayEpoch with
  | none => simp [buildPullPage, hep] at hpage
  | some epoch =>
    simp only [buildPullPage, hep] at hpage
    split at hpage
    · obtain rfl := ok.inj hpage
      exact ⟨rfl, Nat.zero_le _, Nat.zero_le _⟩
    · split at hpage
      · obtain rfl := ok.inj hpage
        exact ⟨rfl, Nat.zero_le _, (buildKeyedChannel_length hs _ _).trans hlim⟩
      · split at hpage
        · obtain rfl := ok.inj hpage
          exact ⟨rfl, (buildBackfill_length hs _ _ _ _ _).trans hlim, Nat.zero_le _⟩
        · split_ifs at hpage
          · obtain rfl := ok.inj hpage
            exact ⟨rfl, Nat.zero_le _, (buildKeyedChannel_length hs _ _).trans hlim⟩
          · obtain rfl := ok.inj hpage
            exact ⟨rfl, Nat.zero_le _, (buildKeyedChannel_length hs _ _).trans hlim⟩
          · obtain rfl := ok.inj hpage
            refine ⟨rfl, (buildBackfill_length hs _ _ _ _ _).trans ?_,
              (buildKeyedChannel_length hs _ _).trans hlim⟩
            exact (Nat.sub_le _ _).trans hlim

/-- A served page is of this version and within the entry caps. -/
theorem servePull_within (hs : socket.Bounded) (hpage : servePull limits socket req = .ok page) :
    page.version = pullVersion ∧ page.backfill.length ≤ limits.pageLimitMax ∧
      page.keyed.length ≤ limits.pageLimitMax := by
  simp only [servePull, admitPullAck] at hpage
  cases hep : req.relayEpoch with
  | none => simp [hep] at hpage
  | some epoch =>
    simp only [hep] at hpage
    by_cases hrst : pullNeedsReset epoch req.relayAfter socket.relayStreamState = true
    · rw [if_pos hrst] at hpage
      obtain rfl := ok.inj hpage
      exact ⟨rfl, Nat.zero_le _, Nat.zero_le _⟩
    · rw [if_neg hrst] at hpage
      exact buildPullPage_within hs hpage

end ProxyNode
