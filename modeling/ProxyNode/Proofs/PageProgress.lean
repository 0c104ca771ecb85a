import ProxyNode.Sanity.StreamPage
import ProxyNode.Spec.Kv

/-! Every page of a drain moves on. A page ends at the op that fills it or at the end of what
there is to serve; where it leaves something out, its token lies behind the token it answered. -/

namespace ProxyNode

open List Prod

def PullRequest.position (req : PullRequest) : ℕ :=
  match req.resume with
  | some ⟨.backfill, n, _, _⟩ => n
  | _ => req.relayAfter

/-- The second token is beyond the first: a later op of the keyed channel, a later arrival, or
the arrivals after the keyed channel. -/
inductive Resume.Beyond : Resume → Resume → Prop
  | keyed {o o' : DeviceId} {k k' : OrderKey} (later : toLex (o, k) < toLex (o', k')) :
    Beyond (keyedResume o (some k)) (keyedResume o' (some k'))
  | arrival {n n' : ℕ} (later : n < n') : Beyond (backfillResume n) (backfillResume n')
  | phase {o : DeviceId} {k : Option OrderKey} {n : ℕ} : Beyond (keyedResume o k) (backfillResume n)

/-- A token a node over `log` may find in a request: none, or one of its own earlier pages of
the same stream. -/
inductive TokenOf (own : DeviceId) (log : OpLog) (store : Option (List Byte)) : Option Resume → Prop
  | absent : TokenOf own log store none
  | earlier (limits : PageLimits) {before : OpLog} (grew : before.Extends log) {req : PullRequest}
    (scope : req.store = store) {page : PullPage}
    (built : buildPullPage limits ((PageReads.atomic before).serveState own) req = .ok page) :
    TokenOf own log store page.resume

variable {limits : PageLimits} {socket : MeshPullSocket} {arrivals : List (ℕ × SignedOp)} {req : PullRequest}
  {page : PullPage}

/-! ## The two ways a page is built -/

def entryLimit (limits : PageLimits) (req : PullRequest) : ℕ := max 1 (min req.limit limits.pageLimitMax)

def keyedToken (req : PullRequest) : Option Resume := req.resume.filter fun r => r.phase = .keyed

/-- The content of a page: a keyed channel alone, or a scan behind a keyed channel with room. -/
inductive PageParts (limits : PageLimits) (socket : MeshPullSocket) (arrivals : List (ℕ × SignedOp))
    (req : PullRequest) (page : PullPage) : Prop
  | channel (filled : Filled (entryLimit limits req) limits.pageByteBudget
      (visited (originShare (arrivals.map Prod.snd) req.store) req.coverage req.audit
        (keyedToken req) (visitOrder socket (keyedToken req))) (page.keyed, page.resume))
    (backfill : page.backfill = [])
    (phase : ∀ n o k, req.resume = some ⟨.backfill, n, o, k⟩ → req.store ≠ none)
  | scan (scope : req.store = none) (room : page.keyed.length < entryLimit limits req)
    (bytes : entryBytes page.keyed < limits.pageByteBudget)
    (built : buildBackfill limits socket req.coverage page.keyed req.position
      (entryLimit limits req - page.keyed.length) = page)

theorem keyedToken_of_phase (h : ∀ n o k, req.resume ≠ some ⟨.backfill, n, o, k⟩) :
    keyedToken req = req.resume ∧ req.position = req.relayAfter := by
  unfold keyedToken PullRequest.position
  rcases hreq : req.resume with - | ⟨phase, n, o, k⟩
  · exact ⟨rfl, rfl⟩
  · cases phase with
    | backfill => exact absurd hreq (h n o k)
    | keyed => exact ⟨rfl, rfl⟩

/-- A channel that was not cut leaves room. -/
theorem Filled.room {limit byteBudget : ℕ} {visit : List SignedOp} {keyed : List PageEntry}
    (h : Filled limit byteBudget visit (keyed, none)) : keyed.length < limit ∧ entryBytes keyed < byteBudget := by
  cases h with
  | whole room => exact ⟨by rw [length_map]; exact room.1, room.2⟩

theorem buildPullPage_parts (h : ServesStream socket arrivals) (limits : PageLimits) {epoch : Epoch}
    (hep : req.relayEpoch = some epoch)
    (hrst : req.store = none → pullNeedsReset epoch req.relayAfter socket.relayStreamState = false) :
    ∃ page, buildPullPage limits socket req = .ok page ∧ page.complete = page.resume.isNone ∧
      PageParts limits socket arrivals req page := by
  have hlim : 0 < entryLimit limits req := Nat.lt_of_lt_of_le Nat.one_pos (le_max_left _ _)
  have hown : ∀ o after, ∀ op ∈ originShare (arrivals.map snd) req.store o after, op.body.device = o :=
    fun o after op hop => (mem_originShare.1 hop).2.1
  have hfill := buildKeyedChannel_fill req.coverage req.audit (h.originSince req.store) hown
    (keyedToken req) hlim limits.pageByteBudget_pos
  generalize hchan : buildKeyedChannel socket req.coverage req.audit
      limits.pageByteBudget req.store (keyedToken req) (entryLimit limits req) = answer
  obtain ⟨keyed, resume⟩ := answer
  rw [hchan] at hfill
  have hrst' : ¬(req.store = none ∧
    pullNeedsReset epoch req.relayAfter socket.relayStreamState = true) :=
    fun hc => by simp [hrst hc.1] at hc
  simp only [buildPullPage, hep, if_neg hrst']
  rw [keyedToken, entryLimit] at hchan
  cases hsto : req.store with
  | some store =>
    rw [hsto] at hchan
    simp only [hchan]
    exact ⟨_, rfl, rfl, .channel hfill rfl fun n o k _ => by rw [hsto]; exact Option.some_ne_none store⟩
  | none =>
    rw [hsto] at hchan
    dsimp only
    split
    · rename_i n o k hres
      have hpos : req.position = n := by rw [PullRequest.position, hres]
      exact ⟨_, rfl, rfl, .scan hsto hlim limits.pageByteBudget_pos (by rw [hpos]; rfl)⟩
    · rename_i hph
      obtain ⟨htok, hpos⟩ := keyedToken_of_phase hph
      simp only [hchan]
      cases resume with
      | some r => exact ⟨_, rfl, rfl, .channel hfill rfl fun n o k hres => absurd hres (hph n o k)⟩
      | none =>
        obtain ⟨hlen, hbyt⟩ := hfill.room
        have hmore : ¬max 1 (min req.limit limits.pageLimitMax) - keyed.length = 0 := by
          rw [entryLimit] at hlen
          omega
        simp only [Option.isSome_none, Bool.false_eq_true, if_false, if_neg hmore]
        exact ⟨_, rfl, rfl, .scan hsto hlen hbyt (by rw [hpos]; rfl)⟩

/-! ## Bounds -/

theorem entryBytes_lt_of_dropLast {entries : List PageEntry} {bound : ℕ}
    (h : entryBytes entries.dropLast < bound) :
    entryBytes entries < bound + (entries.getLast?.map PageEntry.length).getD 0 := by
  rcases eq_nil_or_concat entries with rfl | ⟨front, last, rfl⟩
  · exact h
  · rw [concat_eq_append, dropLast_concat] at h
    rw [concat_eq_append, entryBytes_append, getLast?_append_of_ne_nil _ (cons_ne_nil _ _)]
    simpa [entryBytes] using h

/-- A scan takes entries while the bytes before them are within the budget. -/
theorem scanArrivals_bytes (claims : CoverageVector) (byteBudget : ℕ) (rows : List RelayEnvelopeRow)
    (next bytes : ℕ) (cut : Bool) {scan : ArrivalScan}
    (hscan : scanArrivals claims byteBudget rows next bytes cut = scan)
    (hbyt : cut = false → bytes < byteBudget) :
    scan.backfill = [] ∨ bytes + entryBytes (scan.backfill.map snd).dropLast < byteBudget := by
  induction rows generalizing next bytes cut scan with
  | nil => exact .inl (hscan ▸ rfl)
  | cons row rows ih =>
    obtain ⟨seq, op, envelope⟩ := row
    rw [scanArrivals] at hscan
    by_cases hc : claims.covers op.orderKey = true
    · rw [if_pos hc] at hscan
      cases cut with
      | true => exact .inl (hscan ▸ rfl)
      | false =>
        generalize hrest : scanArrivals claims byteBudget rows seq
            (bytes + Wire.base64Length envelope.length)
            (decide (byteBudget ≤ bytes + Wire.base64Length envelope.length)) = rest
        have htail := ih seq _ _ hrest fun hcut => by simpa using hcut
        simp only [hrest, Bool.false_eq_true, if_false] at hscan
        subst hscan
        right
        rcases htail with hnil | hlt
        · simpa [hnil, entryBytes] using hbyt rfl
        · cases hback : rest.backfill with
          | nil => simpa [hback, entryBytes] using hbyt rfl
          | cons e l =>
            rw [hback] at hlt
            have hstep : entryBytes (some envelope :: ((e :: l).map snd).dropLast) =
                Wire.base64Length envelope.length + entryBytes ((e :: l).map snd).dropLast := by
              simp [entryBytes, PageEntry.length]
            rw [map_cons, dropLast_cons_of_ne_nil (by simp), hstep]
            omega
    · rw [if_neg hc] at hscan
      exact ih seq bytes cut hscan hbyt

theorem buildBackfill_bytes {claims : CoverageVector} {start budget : ℕ}
    (hpage : buildBackfill limits socket claims page.keyed start budget = page)
    (hbyt : entryBytes page.keyed < limits.pageByteBudget) :
    entryBytes page.entries.dropLast < limits.pageByteBudget := by
  have hback : page.backfill = (scanArrivals claims limits.pageByteBudget
      (socket.relaySinceWithEnvelopes start budget) start (entryBytes page.keyed) false).backfill := by
    nth_rewrite 1 [← hpage]
    rfl
  rw [PullPage.entries]
  rcases scanArrivals_bytes claims limits.pageByteBudget (socket.relaySinceWithEnvelopes start budget) start
    (entryBytes page.keyed) false rfl fun _ => hbyt with hnil | hlt
  · rw [hback, hnil, map_nil, append_nil]
    exact lt_of_le_of_lt (entryBytes_le (dropLast_sublist _)) hbyt
  · rw [← hback] at hlt
    by_cases hnil : page.backfill.map snd = []
    · rw [hnil, append_nil]
      exact lt_of_le_of_lt (entryBytes_le (dropLast_sublist _)) hbyt
    · rwa [dropLast_append_of_ne_nil hnil, entryBytes_append]

theorem PageParts.length_le (h : PageParts limits socket arrivals req page)
    (hs : ServesStream socket arrivals) :
    page.entries.length ≤ entryLimit limits req := by
  rw [PullPage.entries, length_append, length_map]
  cases h with
  | channel filled backfill =>
    rw [backfill, length_nil, Nat.add_zero]
    generalize page.keyed = keyed at filled
    generalize page.resume = resume at filled
    cases filled with
    | whole room => rw [length_map]; exact room.1.le
    | upTo first x rest order room =>
      rw [length_map, length_append]
      exact room.1
  | scan scope room bytes built =>
    have hback := buildBackfill_length hs.bounded limits req.coverage page.keyed req.position
      (entryLimit limits req - page.keyed.length)
    rw [built] at hback
    omega

theorem PageParts.bytes_lt (h : PageParts limits socket arrivals req page) :
    entryBytes page.entries.dropLast < limits.pageByteBudget := by
  cases h with
  | channel filled backfill =>
    rw [PullPage.entries, backfill, map_nil, append_nil]
    generalize page.keyed = keyed at filled
    generalize page.resume = resume at filled
    cases filled with
    | whole room => exact lt_of_le_of_lt (entryBytes_le (dropLast_sublist _)) room.2
    | upTo first x rest order room =>
      rw [map_append, map_singleton, dropLast_concat]
      exact room.2
  | scan scope room bytes built => exact buildBackfill_bytes built bytes

/-! ## Tokens -/

theorem le_keyedAfter (claim : Option OrderKey) (k : OrderKey) :
    ∃ b, keyedAfter claim (some k) = some b ∧ k ≤ b := by
  cases claim with
  | none => exact ⟨k, rfl, le_rfl⟩
  | some c => exact ⟨max c k, rfl, le_max_right _ _⟩

variable {store : Option (List Byte)}

/-- From a token on, a channel visits later ops. -/
theorem beyond_of_visited {ops : List SignedOp} {claims : CoverageVector} {audit : Bool}
    (hs : ServesOps socket ops) {o : DeviceId} {k : OrderKey} {op : SignedOp}
    (hop : op ∈ visited (originShare ops store) claims audit (some (keyedResume o (some k)))
      (visitOrder socket (some (keyedResume o (some k))))) :
    toLex (o, k) < toLex (op.body.device, op.orderKey) := by
  obtain ⟨origin, horg, hop⟩ := mem_flatMap.1 hop
  obtain ⟨-, rfl, -, haft⟩ := mem_originShare.1 hop
  rw [visitOrder, if_neg (by simp)] at horg
  have hle : o ≤ op.body.device := ((mem_originsFrom hs.sorted).1 horg).2 o rfl
  rw [Prod.Lex.lt_iff]
  by_cases heq : o = op.body.device
  · refine .inr ⟨heq, ?_⟩
    obtain ⟨b, hb, hkb⟩ := le_keyedAfter (claimFor claims audit op.body.device) k
    have hread : readAfter claims audit (some (keyedResume o (some k))) op.body.device = some b := by
      rw [readAfter, ← hb]
      exact congrArg _ (if_pos (congrArg some heq))
    rw [hread] at haft
    exact lt_of_le_of_lt hkb (by simpa using haft)
  · exact .inl (lt_of_le_of_ne hle heq)

/-- The tokens a node hands out name an op of a keyed channel, or an arrival if the request
is for all stores. -/
def WellFormedToken (store : Option (List Byte)) (token : Option Resume) : Prop :=
  ∀ r, token = some r → (∃ o k, r = keyedResume o (some k)) ∨ store = none ∧ ∃ n, r = backfillResume n

theorem PageParts.token (h : PageParts limits socket arrivals req page) (hs : ServesStream socket arrivals) :
    WellFormedToken req.store page.resume := by
  intro r hr
  cases h with
  | channel filled backfill =>
    rw [hr] at filled
    generalize page.keyed = keyed at filled
    cases filled with
    | upTo first x rest order room full => exact .inl ⟨_, _, rfl⟩
  | scan scope room bytes built =>
    have hends := (buildBackfill_stream hs (Nat.sub_pos_of_lt room) built).2
    exact .inr ⟨scope, _, (hends.resume r hr).1⟩

theorem TokenOf.wellFormed {own : DeviceId} {log : OpLog} {token : Option Resume}
    (h : TokenOf own log store token) : WellFormedToken store token := by
  cases h with
  | absent => simp [WellFormedToken]
  | @earlier limits before grew req scope page built =>
    subst scope
    cases hep : req.relayEpoch with
    | none => simp [buildPullPage, hep] at built
    | some epoch =>
      by_cases hrst : req.store = none ∧
          pullNeedsReset epoch req.relayAfter ((PageReads.atomic before).serveState own).relayStreamState =
            true
      · simp only [buildPullPage, hep, if_pos hrst] at built
        obtain rfl := Except.ok.inj built
        simp [WellFormedToken, resetPullPage]
      · have hs := servesStream_serveState before own
        obtain ⟨page', hpage', -, hprt⟩ := buildPullPage_parts hs limits hep fun hsto => by
          simpa [hsto] using hrst
        obtain rfl : page' = page := Except.ok.inj (hpage'.symm.trans built)
        exact hprt.token hs

/-- A page with a token carries an entry or moved on, and its token is beyond the request's. -/
theorem PageParts.advances (h : PageParts limits socket arrivals req page) (hs : ServesStream socket arrivals)
    (htoken : WellFormedToken req.store req.resume) {token : Resume} (hr : page.resume = some token) :
    (page.entries ≠ [] ∨ req.position < page.nextRelaySeq) ∧
      ∀ before, req.resume = some before → before.Beyond token := by
  cases h with
  | channel filled backfill phase =>
    rw [hr] at filled
    rw [PullPage.entries]
    generalize page.keyed = keyed at filled
    cases filled with
    | upTo first x rest order room full =>
      refine ⟨.inl (by simp), fun before hbef => ?_⟩
      rcases htoken before hbef with ⟨o, k, rfl⟩ | ⟨hsto, n, rfl⟩
      · have hkey : keyedToken req = some (keyedResume o (some k)) := by
          rw [keyedToken, hbef]
          rfl
        have hx : x ∈ first ++ x :: rest := mem_append_right _ mem_cons_self
        rw [← order, hkey] at hx
        exact .keyed (beyond_of_visited hs.toServesOps hx)
      · exact absurd hsto (phase n none none hbef)
  | scan scope room bytes built =>
    obtain ⟨htok, hlt⟩ := (buildBackfill_stream hs (Nat.sub_pos_of_lt room) built).2.resume token hr
    refine ⟨.inr hlt, fun before hbef => ?_⟩
    rw [htok]
    rcases htoken before hbef with ⟨o, k, rfl⟩ | ⟨-, n, rfl⟩
    · exact .phase
    · refine .arrival ?_
      rwa [PullRequest.position, hbef] at hlt

/-- Pages make progress within their bounds, for a node over any log and any request that
needs no reset and carries no token or one of an earlier page. -/
theorem pages_advance_within_bounds (limits : PageLimits) (own : DeviceId) (log : OpLog) (req : PullRequest)
    {epoch : Epoch} (hep : req.relayEpoch = some epoch)
    (hrst : pullNeedsReset epoch req.relayAfter log.relayState = false) (hlim : 1 ≤ req.limit)
    (htok : TokenOf own log req.store req.resume) :
    ∃ page, buildPullPage limits ((PageReads.atomic log).serveState own) req = .ok page ∧
      (page.resume = none ↔ page.complete = true) ∧
      page.entries.length ≤ min req.limit limits.pageLimitMax ∧
      entryBytes page.entries < limits.pageByteBudget + (page.entries.getLast?.map PageEntry.length).getD 0 ∧
      (page.complete = false → (page.entries ≠ [] ∨ req.position < page.nextRelaySeq) ∧
        ∃ token, page.resume = some token ∧ ∀ before, req.resume = some before → before.Beyond token) := by
  have hs := servesStream_serveState log own
  obtain ⟨page, hpage, hcomp, hprt⟩ := buildPullPage_parts hs limits hep fun _ => hrst
  refine ⟨page, hpage, ?_, ?_, entryBytes_lt_of_dropLast hprt.bytes_lt, fun hmore => ?_⟩
  · rw [hcomp, Option.isNone_iff_eq_none]
  · have hle := hprt.length_le hs
    have hmax := limits.pageLimitMax_pos
    rw [entryLimit] at hle
    omega
  · rw [hcomp, Option.isNone_eq_false_iff, Option.isSome_iff_exists] at hmore
    obtain ⟨token, hr⟩ := hmore
    obtain ⟨hmov, hbeyond⟩ := hprt.advances hs htok.wellFormed hr
    exact ⟨hmov, token, hr, hbeyond⟩

def oneEntry (resume : Option Resume) : PullRequest where
  version := pullVersion
  coverage := .new
  relayEpoch := some (Wire.fill 32 9)
  relayAfter := 0
  resume := resume
  limit := 1
  audit := false
  store := none
  issuedAtMs := 0

theorem pages_advance_within_bounds_next_origin :
    ∃ page, buildPullPage .shipped ((PageReads.atomic twoOrigins).serveState (Wire.fill 32 1))
        (oneEntry (some (cutToken (plainPut (padTo 32 [5]) 10)))) = .ok page ∧ page.complete = false ∧
      ∃ token, page.resume = some token ∧ (cutToken (plainPut (padTo 32 [5]) 10)).Beyond token := by
  have hfst : buildPullPage .shipped ((PageReads.atomic twoOrigins).serveState (Wire.fill 32 1))
    (oneEntry none) =
      .ok (pullPage twoOrigins.relayState none [] [entryOf (plainPut (padTo 32 [5]) 10)] 0
        (some (cutToken (plainPut (padTo 32 [5]) 10)))) := by decide +kernel
  have hsec : buildPullPage .shipped ((PageReads.atomic twoOrigins).serveState (Wire.fill 32 1))
      (oneEntry (some (cutToken (plainPut (padTo 32 [5]) 10)))) =
      .ok (pullPage twoOrigins.relayState none [] [entryOf (plainPut (padTo 32 [7]) 20)] 0
        (some (cutToken (plainPut (padTo 32 [7]) 20)))) := by decide +kernel
  have htok : TokenOf (Wire.fill 32 1) twoOrigins none (some (cutToken (plainPut (padTo 32 [5]) 10))) :=
    .earlier .shipped (.refl _) rfl hfst
  obtain ⟨page, hpage, -, -, -, hmore⟩ := pages_advance_within_bounds .shipped (Wire.fill 32 1) twoOrigins
    (oneEntry (some (cutToken (plainPut (padTo 32 [5]) 10)))) rfl (by decide +kernel) le_rfl htok
  have hopen : page.complete = false := by
    rw [hsec] at hpage
    exact Except.ok.inj hpage ▸ rfl
  obtain ⟨-, token, hr, hbeyond⟩ := hmore hopen
  exact ⟨page, hpage, hopen, token, hr, hbeyond _ rfl⟩

end ProxyNode
