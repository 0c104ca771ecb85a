import ProxyNode.Sanity.OAuthChecks
import ProxyNode.Sanity.OAuthSteps

/-! Where access tokens come from. An ask keeps its terms from the call that made it; its code
is minted once, by a poll that saw the person's yes in time; a code is spent by one call. So
the calls that issue tokens name different asks, each with its registration, its approval and
the proof of possession the code was redeemed with. -/

namespace ProxyNode.OAuth

open Interleave Text Option SortedMap

def Call.DrawsApart : Call → Call → Prop
  | .register _ _ id, .register _ _ id' => id ≠ id'
  | .authorize _ _ _ id _, .authorize _ _ _ id' _ => id ≠ id'
  | .progress _ _ _ code, .progress _ _ _ code' => code ≠ code'
  | .token _ _ secret id, .token _ _ secret' id' => secret ≠ secret' ∧ id ≠ id'
  | _, _ => True

instance : DecidableRel Call.DrawsApart := fun k k' => by
  unfold Call.DrawsApart
  split <;> infer_instance

/-! ## The store -/

def Registered (calls : List Call) (client : Client) : Prop :=
  ∃ registration now, .register registration now client.id ∈ calls ∧
    registeredClient registration now client.id = .ok client

structure AskOk (calls : List Call) (ask : Ask) : Prop where
  asked : ∃ request issuer shown client, .authorize request issuer ask.askedAt ask.id shown ∈ calls ∧
    askOf client request issuer ask.askedAt ask.id = .ok ask.terms ∧ Registered calls client
  approved : ∀ code, ask.code = some code → ∃ now answer, .progress ask.id now answer code ∈ calls ∧
    answer ask.terms = .ok .approved ∧ now - ask.askedAt ≤ askTtlSecs ∧ ask.codeIssuedAt = some now
  uncoded : ask.code = none → ask.terms = ask

structure StoreOk (calls : List Call) (s : MemoryStore) : Prop where
  clients : ∀ id client, s.clients.get? id = some client → client.id = id ∧ Registered calls client
  asks : ∀ id ask, s.asks.get? id = some ask → ask.id = id ∧ AskOk calls ask

def Redeemed (D : Digests) (s : MemoryStore) (call : Call) (ask : Ask) (token : Token) : Prop :=
  ∃ request now secret id code verifier, call = .token request now secret id ∧
    tokenGrant request = .ok (code, verifier) ∧ ask.code = some code ∧ ask.codeUsed = true ∧
    s.asks.get? ask.id = some ask ∧ tokenOf D request verifier now secret id ask = .ok token

structure ThreadOk (D : Digests) (calls : List Call) (s : MemoryStore) (t : Thread) : Prop where
  fresh : ∀ {request issuer now id shown}, t.call = .authorize request issuer now id shown → t.point = .start →
    s.asks.get? id = none
  putAsk : ∀ {ask}, t.point = .putAsk ask → (∃ request issuer now shown,
    t.call = .authorize request issuer now ask.id shown) ∧ s.asks.get? ask.id = none ∧ AskOk calls ask
  mintCode : ∀ {ask}, t.point = .mintCode ask → (∃ now answer code, t.call = .progress ask.id now answer code ∧
    answer ask = .ok .approved ∧ now - ask.askedAt ≤ askTtlSecs) ∧
    ∃ held, s.asks.get? ask.id = some held ∧ held.terms = ask
  claims : ∀ {ask token}, t.point.claims = some (ask, token) → Redeemed D s t.call ask token

def ClaimsApart (t u : Thread) : Prop :=
  ∀ a b, t.point.claims = some a → u.point.claims = some b → a.1.id ≠ b.1.id

def tokenAssertions (D : Digests) : Assertions MemoryStore Call Point := ⟨StoreOk, ThreadOk D, ClaimsApart⟩

variable {D : Digests} {calls : List Call} {s s' : MemoryStore} {call : Call} {point point' : Point}

theorem Registered.mono {client : Client} (h : Registered calls client) (k : Call) :
    Registered (calls ++ [k]) client := by
  obtain ⟨registration, now, hmem, hok⟩ := h
  exact ⟨registration, now, List.mem_append_left _ hmem, hok⟩

variable {ask : Ask}

theorem AskOk.mono (h : AskOk calls ask) (k : Call) : AskOk (calls ++ [k]) ask where
  asked := by
    obtain ⟨request, issuer, shown, client, hmem, hok, hreg⟩ := h.asked
    exact ⟨request, issuer, shown, client, List.mem_append_left _ hmem, hok, hreg.mono k⟩
  approved := fun code hcode => by
    obtain ⟨now, answer, hmem, hrest⟩ := h.approved code hcode
    exact ⟨now, answer, List.mem_append_left _ hmem, hrest⟩
  uncoded := h.uncoded

theorem StoreOk.mono (h : StoreOk calls s) (k : Call) : StoreOk (calls ++ [k]) s where
  clients := fun id client hget => ⟨(h.clients id client hget).1, (h.clients id client hget).2.mono k⟩
  asks := fun id ask hget => ⟨(h.asks id ask hget).1, (h.asks id ask hget).2.mono k⟩

theorem ThreadOk.mono {t : Thread} (h : ThreadOk D calls s t) (k : Call) : ThreadOk D (calls ++ [k]) s t where
  fresh := h.fresh
  putAsk := fun hp => ⟨(h.putAsk hp).1, (h.putAsk hp).2.1, (h.putAsk hp).2.2.mono k⟩
  mintCode := h.mintCode
  claims := h.claims

theorem AskOk.used_coded (h : AskOk calls ask) (hused : ask.codeUsed = true) : ask.code ≠ none := by
  intro hnone
  have hterms := congrArg Ask.codeUsed (h.uncoded hnone)
  rw [hused] at hterms
  cases hterms

/-! ## What a step does to the asks -/

/-- Asks keep their terms, spent ones do not change at all, and a new one is the caller's. -/
structure AskSteps (call : Call) (s s' : MemoryStore) : Prop where
  kept : ∀ id ask, s.asks.get? id = some ask → ∃ ask', s'.asks.get? id = some ask' ∧ ask'.terms = ask.terms ∧
    (ask.codeUsed = true → ask' = ask)
  new : ∀ id, s.asks.get? id = none → s'.asks.get? id ≠ none →
    ∃ request issuer now shown, call = .authorize request issuer now id shown

theorem AskSteps.same (h : s'.asks = s.asks) : AskSteps call s s' where
  kept := fun id ask hget => ⟨ask, by rw [h, hget], rfl, fun _ => rfl⟩
  new := fun id hnone hsome => absurd (by rw [h, hnone]) hsome

theorem AskSteps.update {key : Text} {held new : Ask} (hkn : s.asks.get? key = some held)
    (hterms : new.terms = held.terms) (hused : held.codeUsed = true → new = held) :
    AskSteps call s { s with asks := s.asks.insert key new } where
  kept := fun id ask hget => by
    dsimp only
    rw [get?_insert]
    split_ifs with hid
    · subst hid
      obtain rfl := some.inj (hkn.symm.trans hget)
      exact ⟨new, rfl, hterms, hused⟩
    · exact ⟨ask, hget, rfl, fun _ => rfl⟩
  new := fun id hnone hsome => by
    dsimp only at hsome
    rw [get?_insert] at hsome
    split_ifs at hsome with hid
    · rw [hid, hkn] at hnone
      cases hnone
    · exact absurd hnone hsome

theorem Ask.minted_terms (ask : Ask) (code : Text) (now : ℕ) : (ask.minted code now).terms = ask.terms := by
  unfold Ask.minted
  split_ifs <;> rfl

theorem asks_step (h : Does D s call point s' point') (hs : StoreOk calls s)
    (ht : ThreadOk D calls s ⟨call, point⟩) :
    AskSteps call s s' := by
  cases h with
  | stays => exact .same rfl
  | stops => exact .same rfl
  | registers => exact .same rfl
  | asks => exact .same rfl
  | putsAsk =>
    rename_i ask outcome quiet
    obtain ⟨⟨request', issuer', now', shown', hcall⟩, hnone, -⟩ := ht.putAsk rfl
    refine ⟨fun id held hget => ⟨held, ?_, rfl, fun _ => rfl⟩, fun id hid hsome => ?_⟩
    · rw [MemoryStore.putAsk, get?_insert, if_neg, hget]
      rintro rfl
      rw [hnone] at hget
      cases hget
    · rw [MemoryStore.putAsk, get?_insert] at hsome
      split_ifs at hsome with heq
      · subst heq
        exact ⟨_, _, _, _, hcall⟩
      · exact absurd hid hsome
  | approves => exact .same rfl
  | mints known quiet =>
    refine .update known (Ask.minted_terms _ _ _) fun hused => ?_
    exact if_neg ((hs.asks _ _ known).2.used_coded hused)
  | spends grant known unused coded quiet => exact .update known rfl fun hused => by simp [unused] at hused
  | redeems grant known unused coded ok => exact .update known rfl fun hused => by simp [unused] at hused
  | issues => exact .same rfl
  | finds => exact .same rfl
  | misses => exact .same rfl
  | revokes => exact .same rfl
  | admits => exact .same rfl
  | looksUp => exact .same rfl
  | lacks => exact .same rfl
  | touches => exact .same rfl

/-! ## What a step keeps -/

variable {code : Text}

theorem AskOk.spent (h : AskOk calls ask) (hcode : ask.code = some code) :
    AskOk calls ask.spent where
  asked := h.asked
  approved := h.approved
  uncoded := fun hnone => by
    rw [show ask.spent.code = ask.code from rfl, hcode] at hnone
    cases hnone

theorem AskOk.minted {held : Ask} (h : AskOk calls held) {now : ℕ} {answer : Ask → Except OAuthError Answer}
    (hcall : .progress held.id now answer code ∈ calls) (hyes : answer held.terms = .ok .approved)
    (htime : now - held.askedAt ≤ askTtlSecs) : AskOk calls (held.minted code now) := by
  unfold Ask.minted
  split_ifs with hnone
  · refine ⟨h.asked, fun code' hcode' => ?_, nofun⟩
    obtain rfl := some.inj hcode'
    exact ⟨now, answer, hcall, hyes, htime, rfl⟩
  · exact h

theorem StoreOk.insert_ask (hs : StoreOk calls s) {key : Text} (hid : ask.id = key) (hask : AskOk calls ask) :
    StoreOk calls { s with asks := s.asks.insert key ask } where
  clients := hs.clients
  asks := fun id ask' hget => by
    dsimp only at hget
    rw [get?_insert] at hget
    split_ifs at hget with heq
    · obtain rfl := some.inj hget
      exact ⟨hid.trans heq.symm, hask⟩
    · exact hs.asks id ask' hget

theorem StoreOk.of_same (hs : StoreOk calls s) (hclients : s'.clients = s.clients) (hasks : s'.asks = s.asks) :
    StoreOk calls s' where
  clients := fun id client hget => hs.clients id client (hclients ▸ hget)
  asks := fun id ask hget => hs.asks id ask (hasks ▸ hget)

theorem StoreOk.step (hs : StoreOk calls s) (h : Does D s call point s' point') (hcall : call ∈ calls)
    (ht : ThreadOk D calls s ⟨call, point⟩) : StoreOk calls s' := by
  cases h with
  | stays => exact hs
  | stops => exact hs
  | registers ok =>
    refine ⟨fun id client hget => ?_, hs.asks⟩
    rw [MemoryStore.putClient, get?_insert] at hget
    split_ifs at hget with heq
    · obtain rfl := some.inj hget
      obtain rfl := (registeredClient_ok ok).1
      exact ⟨heq.symm, _, _, hcall, ok⟩
    · exact hs.clients id client hget
  | asks => exact hs
  | putsAsk quiet => exact hs.insert_ask rfl (ht.putAsk rfl).2.2
  | approves => exact hs
  | mints known quiet =>
    rename_i askId now answer code ask held outcome
    obtain ⟨⟨now', answer', code', hcall', hyes, htime⟩, held', hheld', hterms⟩ := ht.mintCode rfl
    obtain ⟨rfl, rfl, rfl, rfl⟩ := Call.progress.inj hcall'
    obtain rfl := some.inj (known.symm.trans hheld')
    obtain ⟨hid, hok⟩ := hs.asks _ _ known
    have hasked := congrArg Ask.askedAt hterms
    have hmem : .progress held.id now answer code ∈ calls := hid.symm ▸ hcall
    refine hs.insert_ask ((congrArg Ask.id (Ask.minted_terms held code now)).trans hid) (hok.minted hmem ?_ ?_)
    · rw [hterms]
      exact hyes
    · rwa [← hasked] at htime
  | spends grant known unused coded quiet =>
    exact hs.insert_ask (hs.asks _ _ known).1 ((hs.asks _ _ known).2.spent coded)
  | redeems grant known unused coded ok =>
    exact hs.insert_ask (hs.asks _ _ known).1 ((hs.asks _ _ known).2.spent coded)
  | issues => exact hs.of_same rfl rfl
  | finds => exact hs
  | misses => exact hs
  | revokes => exact hs.of_same rfl rfl
  | admits => exact hs
  | looksUp => exact hs
  | lacks => exact hs
  | touches => exact hs.of_same rfl rfl

theorem Redeemed.later {token : Token} (h : Redeemed D s call ask token) {other : Call}
    (hstep : AskSteps other s s') : Redeemed D s' call ask token := by
  obtain ⟨request, now, secret, id, code, verifier, hcall, hgrant, hcode, hused, hget, htok⟩ := h
  obtain ⟨ask', hget', -, hsame⟩ := hstep.kept ask.id ask hget
  obtain rfl := hsame hused
  exact ⟨request, now, secret, id, code, verifier, hcall, hgrant, hcode, hused, hget', htok⟩

theorem ThreadOk.later {u : Thread} (h : ThreadOk D calls s u) (hstep : AskSteps call s s')
    (hdiff : call.DrawsApart u.call ∨ u.call.DrawsApart call) : ThreadOk D calls s' u where
  fresh := fun {request issuer now id shown} hcall hpt => by
    by_contra hsome
    obtain ⟨request', issuer', now', shown', rfl⟩ := hstep.new id (h.fresh hcall hpt) hsome
    rw [hcall] at hdiff
    rcases hdiff with hdiff | hdiff
    · exact hdiff rfl
    · exact hdiff rfl
  putAsk := fun {ask} hpt => by
    obtain ⟨⟨request, issuer, now, shown, hcall⟩, hnone, hok⟩ := h.putAsk hpt
    refine ⟨⟨request, issuer, now, shown, hcall⟩, ?_, hok⟩
    by_contra hsome
    obtain ⟨request', issuer', now', shown', rfl⟩ := hstep.new ask.id hnone hsome
    rw [hcall] at hdiff
    rcases hdiff with hdiff | hdiff
    · exact hdiff rfl
    · exact hdiff rfl
  mintCode := fun {ask} hpt => by
    obtain ⟨hcall, held, hget, hterms⟩ := h.mintCode hpt
    obtain ⟨held', hget', hterms', -⟩ := hstep.kept ask.id held hget
    exact ⟨hcall, held', hget', hterms'.trans hterms⟩
  claims := fun hclm => (h.claims hclm).later hstep

theorem threadOk_trivial (hstart : point ≠ .start) (hput : ∀ ask, point ≠ .putAsk ask)
    (hmint : ∀ ask, point ≠ .mintCode ask) (hclm : point.claims = none) : ThreadOk D calls s ⟨call, point⟩ where
  fresh := fun _ hpt => absurd hpt hstart
  putAsk := fun hpt => absurd hpt (hput _)
  mintCode := fun hpt => absurd hpt (hmint _)
  claims := fun hsome => by
    rw [show (⟨call, point⟩ : Thread).point.claims = point.claims from rfl, hclm] at hsome
    cases hsome

theorem threadOk_quiet {outcome : Outcome} (h : outcome.Quiet) : ThreadOk D calls s ⟨call, .done outcome⟩ := by
  refine threadOk_trivial nofun nofun nofun ?_
  cases outcome with
  | issued => cases h
  | _ => rfl

theorem ThreadOk.step (ht : ThreadOk D calls s ⟨call, point⟩) (h : Does D s call point s' point')
    (hs : StoreOk calls s) (hcall : call ∈ calls) : ThreadOk D calls s' ⟨call, point'⟩ := by
  have hstep := asks_step h hs ht
  cases h with
  | stays => exact ht
  | stops quiet => exact threadOk_quiet quiet
  | registers => exact threadOk_quiet trivial
  | asks known ok =>
    obtain ⟨hid, htime, hterms, -⟩ := (askOf_ok ok).1
    obtain ⟨-, hreg⟩ := hs.clients _ _ known
    have hnone := ht.fresh rfl rfl
    refine ⟨nofun, fun {ask'} hpt => ?_, nofun, nofun⟩
    obtain rfl := Point.putAsk.inj hpt
    subst hid htime
    refine ⟨⟨_, _, _, _, rfl⟩, hnone, ⟨_, _, _, _, hcall, ?_, hreg⟩, fun code hcode => ?_, fun _ => hterms⟩
    · rw [hterms]
      exact ok
    · rw [← hterms] at hcode
      cases hcode
  | putsAsk quiet => exact threadOk_quiet quiet
  | approves held unused uncoded inTime yes =>
    rename_i askId now answer code ask
    obtain ⟨rfl, hok⟩ := hs.asks _ _ held
    refine ⟨nofun, nofun, fun {ask'} hpt => ?_, nofun⟩
    obtain rfl := Point.mintCode.inj hpt
    exact ⟨⟨now, answer, code, rfl, yes, inTime⟩, ask, held, hok.uncoded uncoded⟩
  | mints known quiet => exact threadOk_quiet quiet
  | spends grant known unused coded quiet => exact threadOk_quiet quiet
  | redeems grant known unused coded ok =>
    rename_i request now secret id code verifier key held token
    refine ⟨nofun, nofun, nofun, fun {ask' token'} hclm => ?_⟩
    obtain ⟨rfl, rfl⟩ := Prod.mk.inj (some.inj hclm)
    have hget : (s.asks.insert key held.spent).get? held.spent.id = some held.spent := by
      rw [show held.spent.id = key from (hs.asks _ _ known).1, get?_insert_self]
    exact ⟨request, now, secret, id, code, verifier, rfl, grant, coded, rfl, hget, ok⟩
  | issues new =>
    refine ⟨nofun, nofun, nofun, fun {ask' token'} hclm => ?_⟩
    obtain ⟨rfl, rfl⟩ := Prod.mk.inj (some.inj hclm)
    exact (ht.claims rfl).later hstep
  | finds => exact threadOk_trivial nofun nofun nofun rfl
  | misses => exact threadOk_trivial nofun nofun nofun rfl
  | revokes => exact threadOk_trivial nofun nofun nofun rfl
  | admits => exact threadOk_trivial nofun nofun nofun rfl
  | looksUp => exact threadOk_trivial nofun nofun nofun rfl
  | lacks => exact threadOk_trivial nofun nofun nofun rfl
  | touches => exact threadOk_trivial nofun nofun nofun rfl

/-- A step claims an ask only by redeeming its unused code. -/
theorem claims_step (h : Does D s call point s' point') : point'.claims = none ∨ point'.claims = point.claims ∨
    ∃ key held token, s.asks.get? key = some held ∧ held.codeUsed = false ∧
      point'.claims = some (held.spent, token) := by
  cases h with
  | stays => exact .inr (.inl rfl)
  | stops quiet => exact .inl (claims_quiet quiet)
  | putsAsk quiet => exact .inl (claims_quiet quiet)
  | mints known quiet => exact .inl (claims_quiet quiet)
  | spends grant known unused coded quiet => exact .inl (claims_quiet quiet)
  | redeems grant known unused coded ok => exact .inr (.inr ⟨_, _, _, known, unused, rfl⟩)
  | issues => exact .inr (.inl rfl)
  | _ => exact .inl rfl

theorem ClaimsApart.step {u : Thread} (hpair : ClaimsApart ⟨call, point⟩ u) (h : Does D s call point s' point')
    (hs : StoreOk calls s) (hu : ThreadOk D calls s u) : ClaimsApart ⟨call, point'⟩ u := by
  intro a b ha hb
  change point'.claims = some a at ha
  rcases claims_step h with hnone | hsame | ⟨key, held, token, hkn, hunused, hclm⟩
  · rw [hnone] at ha
    cases ha
  · exact hpair a b (hsame.symm.trans ha) hb
  · obtain rfl := some.inj (hclm.symm.trans ha)
    intro hid
    -- the other claim's ask is used already
    obtain ⟨-, -, -, -, -, -, -, -, -, hused, hget, -⟩ := hu.claims hb
    rw [← hid, show held.spent.id = key from (hs.asks _ _ hkn).1, hkn] at hget
    obtain rfl := some.inj hget
    rw [hunused] at hused
    cases hused

theorem tokenAssertions_stable (D : Digests) :
    (tokenAssertions D).Stable .start (Server.step D) Call.DrawsApart where
  symm := fun t u h a b ha hb hid => h b a hb ha hid.symm
  more := fun calls k s h => h.mono k
  moreThread := fun calls k s t h => h.mono k
  called := fun calls k s hs hnew => by
    refine ⟨fun {request issuer now id shown} hcall _ => ?_, nofun, nofun, nofun⟩
    obtain rfl : k = .authorize request issuer now id shown := hcall
    by_contra hsome
    obtain ⟨ask, hask⟩ := ne_none_iff_exists'.1 hsome
    obtain ⟨rfl, hok⟩ := hs.asks id ask hask
    obtain ⟨request', issuer', shown', client, hmem, -⟩ := hok.asked
    exact hnew _ hmem rfl
  calledPair := fun t k a b _ hb => by cases hb
  own := fun calls s t hmem _ hs ht =>
    ⟨hs.step (step_does D s t.call t.point) hmem ht, ht.step (step_does D s t.call t.point) hs hmem⟩
  other := fun calls s t u hdiff hs ht hu => hu.later (asks_step (step_does D s t.call t.point) hs ht) hdiff
  otherPair := fun calls s t u hs ht hu hpair => hpair.step (step_does D s t.call t.point) hs hu

theorem tokenAssertions_run {events : List Event} (fresh : (run D events).calls.Pairwise Call.DrawsApart) :
    (tokenAssertions D).Hold (run D events) := by
  have hstart : (tokenAssertions D).Hold (⟨.new, []⟩ : World) := by
    refine ⟨⟨fun id client h => ?_, fun id ask h => ?_⟩, fun i t h => ?_, fun i j t u h => ?_⟩
    · simp [MemoryStore.new] at h
    · simp [MemoryStore.new] at h
    · simp at h
    · simp at h
  exact hstart.run (tokenAssertions_stable D) fresh

/-! ## Every token comes from one approved ask -/

/-- The client, the request and the registration an ask was made with. -/
structure AskedWith (calls : List Call) (ask : Ask) (scope : Text) : Prop where
  request : ∃ request issuer shown, .authorize request issuer ask.askedAt ask.id shown ∈ calls ∧
    normalizeScope request.scope = .ok scope
  scope : ask.scope = some scope
  registered : ∃ registration now client, .register registration now ask.clientId ∈ calls ∧
    registeredClient registration now ask.clientId = .ok client ∧ ask.redirectUri ∈ registration.redirectUris

structure ApprovedBy (calls : List Call) (ask : Ask) (code : Text) (mintedAt : ℕ) : Prop where
  answered : ∃ answer, .progress ask.id mintedAt answer code ∈ calls ∧ answer ask.terms = .ok .approved
  inTime : mintedAt - ask.askedAt ≤ askTtlSecs
  minted : ask.code = some code ∧ ask.codeIssuedAt = some mintedAt

/-- What a call that issued a token for an ask presented, and what it got. -/
structure PresentedFor (D : Digests) (call : Call) (ask : Ask) (code : Text) (mintedAt : ℕ) (token : Token)
    (issued : Issued) : Prop where
  presented : ∃ request now secret id verifier, call = .token request now secret id ∧
    given request.code = some code ∧ now - mintedAt ≤ codeTtlSecs ∧ request.clientId.map trim = some ask.clientId ∧
    request.redirectUri.map trim = some ask.redirectUri ∧ given request.codeVerifier = some verifier ∧
    D.s256 verifier = ask.codeChallenge ∧ token.id = id ∧ token.hash = D.hashToken secret ∧
    issued = issuedFor secret token

structure Origin (D : Digests) (w : World) (call : Call) (ask : Ask) (token : Token) (issued : Issued) : Prop where
  held : w.shared.asks.get? ask.id = some ask
  asked : ∃ scope, AskedWith w.calls ask scope ∧ token.scope = some scope
  redeemed : ∃ code mintedAt, ApprovedBy w.calls ask code mintedAt ∧
    PresentedFor D call ask code mintedAt token issued ∧
    ∀ id other, w.shared.asks.get? id = some other → other.code = some code → other = ask

theorem AskOk.askedWith (h : AskOk calls ask) : ∃ scope, AskedWith calls ask scope := by
  obtain ⟨request, issuer, shown, client, hmem, hask, registration, now, hreg, hcli⟩ := h.asked
  have hmade := (askOf_ok hask).1
  obtain ⟨scope, hscope, hsome⟩ := hmade.scope
  have hid : ask.clientId = client.id := hmade.clientId
  refine ⟨scope, ⟨request, issuer, shown, hmem, hscope⟩, hsome, registration, now, client, hid ▸ hreg,
    hid ▸ hcli, ?_⟩
  rw [← (registeredClient_ok hcli).2.1]
  exact hmade.redirectUri

instance : Std.Symm Call.DrawsApart where
  symm := fun k k' h => by
    cases k <;> cases k' <;> first | trivial | exact Ne.symm h | exact ⟨h.1.symm, h.2.symm⟩

/-- A code is the draw of one poll, so one ask has it. -/
theorem StoreOk.code_unique (hs : StoreOk calls s) (fresh : calls.Pairwise Call.DrawsApart) {id id' : Text}
    {other : Ask} (hask : s.asks.get? id = some ask) (hoth : s.asks.get? id' = some other)
    (hcode : ask.code = some code) (hcode' : other.code = some code) : other = ask := by
  obtain ⟨rfl, hok⟩ := hs.asks id ask hask
  obtain ⟨rfl, hok'⟩ := hs.asks id' other hoth
  obtain ⟨now, answer, hmem, -⟩ := hok.approved code hcode
  obtain ⟨now', answer', hmem', -⟩ := hok'.approved code hcode'
  by_cases hsame : Call.progress ask.id now answer code = .progress other.id now' answer' code
  · rw [(Call.progress.inj hsame).1, hoth] at hask
    exact some.inj hask
  · exact absurd rfl (fresh.forall hmem hmem' hsame)

theorem origin_of_issued {w : World} (hall : (tokenAssertions D).Hold w)
    (fresh : w.calls.Pairwise Call.DrawsApart) {i : ℕ} {t : Thread} {token : Token} {issued : Issued}
    (ht : w.threads[i]? = some t) (hgrants : Grants D t) (hpt : t.point = .done (.issued ask token issued)) :
    Origin D w t.call ask token issued := by
  have hclm : t.point.claims = some (ask, token) := by rw [hpt]; rfl
  obtain ⟨request, now, secret, id, code, verifier, hcall, hgrant, hcode, hused, hget, htok⟩ :=
    (hall.thread i t ht).claims hclm
  obtain ⟨request', now', secret', id', verifier', hcall', -, hiss⟩ := hgrants ask token hclm
  obtain ⟨rfl, rfl, rfl, rfl⟩ := Call.token.inj (hcall.symm.trans hcall')
  obtain ⟨-, hok⟩ := hall.shared.asks ask.id ask hget
  obtain ⟨scope, hasked⟩ := hok.askedWith
  obtain ⟨mintedAt, answer, hmem, hyes, htime, hminted⟩ := hok.approved code hcode
  have hmade := tokenOf_ok htok
  obtain ⟨issuedAt, hissuedAt, hfrs⟩ := hmade.fresh
  obtain rfl := some.inj (hminted.symm.trans hissuedAt)
  have hs256 : D.s256 verifier = ask.codeChallenge := by
    have hpkce := hmade.pkce
    simp only [pkceMatches, Bool.and_eq_true, beq_iff_eq] at hpkce
    exact hpkce.2
  refine ⟨hget, ⟨scope, hasked, ?_⟩, code, mintedAt, ⟨⟨answer, hmem, hyes⟩, htime, hcode, hminted⟩, ⟨?_⟩, ?_⟩
  · rw [hmade.scope, hasked.scope]
    rfl
  · exact ⟨request, now, secret, id, verifier, hcall, (tokenGrant_ok hgrant).1, hfrs, hmade.clientId,
      hmade.redirectUri, (tokenGrant_ok hgrant).2, hs256, hmade.id, hmade.hash, hiss issued hpt⟩
  · exact fun id' other hoth hcode' => hall.shared.code_unique fresh hget hoth hcode hcode'

/-- Over any calls and turns, the calls that issue a token name different asks, each of which
the token comes from, and every stored token was put by such a call. -/
theorem tokens_come_from_approved_asks (D : Digests) (events : List Event)
    (fresh : (run D events).calls.Pairwise Call.DrawsApart) :
    (∀ (i : ℕ) t ask token issued, (run D events).threads[i]? = some t →
      t.point = .done (.issued ask token issued) →
      Origin D (run D events) t.call ask token issued) ∧
    (∀ (i j : ℕ) t u ask ask' token token' issued issued', (run D events).threads[i]? = some t →
      (run D events).threads[j]? = some u → t.point = .done (.issued ask token issued) →
      u.point = .done (.issued ask' token' issued') → ask.id = ask'.id → i = j) ∧
    ∀ id token, (run D events).shared.tokens.get? id = some token → ∃ (i : ℕ) (t : Thread) (ask : Ask)
    (put : Token)
      (issued : Issued), (run D events).threads[i]? = some t ∧ t.point = .done (.issued ask put issued) ∧
      put.asIssued = token.asIssued := by
  have hall := tokenAssertions_run fresh
  refine ⟨fun i t ask token issued ht hpt => ?_, ?_,
    fun id token hget => (allIssued_run D events id token hget).2⟩
  · exact origin_of_issued hall fresh ht (grants_run D events ht) hpt
  · intro i j t u ask ask' token token' issued issued' ht hu hpt hpt' hid
    by_contra hij
    refine hall.pair i j t u ht hu hij (ask, token) (ask', token') ?_ ?_ hid
    · rw [hpt]
      rfl
    · rw [hpt']
      rfl

theorem tokens_come_from_approved_asks_let_in : ∃ (t : Thread) (ask : Ask) (token : Token) (issued : Issued),
    (run ⟨id, id⟩ letIn).threads[3]? = some t ∧ t.point = .done (.issued ask token issued) ∧
      token.scope = some "threads mail".toList ∧ Origin ⟨id, id⟩ (run ⟨id, id⟩ letIn) t.call ask token issued := by
  have fresh : (run ⟨id, id⟩ letIn).calls.Pairwise Call.DrawsApart := by decide +kernel
  have hpt : ((run ⟨id, id⟩ letIn).threads[3]?.map (·.point)) = some (.done (.issued
      ⟨"ask".toList, "client".toList, "app".toList, "https://a.proxy.ing".toList, "https://x/cb".toList,
        some "threads mail".toList, none, List.replicate 43 'a', 1, some "code".toList, some 2, true⟩
      ⟨"token".toList, "client".toList, "app".toList, "secret".toList, some "threads mail".toList, 3, 2592003,
        none, none⟩
      ⟨"secret".toList, "Bearer", some 2592000, "threads mail".toList⟩)) := by
    decide +kernel
  obtain ⟨t, ht, hdone⟩ := Option.map_eq_some_iff.1 hpt
  exact ⟨t, _, _, _, ht, hdone, rfl, (tokens_come_from_approved_asks ⟨id, id⟩ letIn fresh).1 3 t _ _ _ ht hdone⟩

end ProxyNode.OAuth
