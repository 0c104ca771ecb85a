import ProxyNode.Spec.OAuth

/-! What one atomic step of the OAuth server can do. Every invariant is by cases on this. -/

namespace ProxyNode.OAuth

open Interleave Text Server Option SortedMap

def Outcome.Quiet : Outcome → Prop
  | .issued _ _ _ => False
  | .revoked (some _) => False
  | .admitted (some _) => False
  | _ => True

def Ask.minted (ask : Ask) (code : Text) (now : ℕ) : Ask :=
  if ask.code = none then { ask with code := some code, codeIssuedAt := some now } else ask

def Ask.spent (ask : Ask) : Ask := { ask with codeUsed := true }

def Token.revokedBy (token : Token) (now : ℕ) : Token :=
  if token.revokedAt = none then { token with revokedAt := some now } else token

def Token.touchedAt (token : Token) (now : ℕ) : Token :=
  if token.isLive then { token with lastUsedAt := some now } else token

/-- A step of a call from a point over a store: the store it leaves and the point it reaches. -/
inductive Does (D : Digests) (s : MemoryStore) : Call → Point → MemoryStore → Point → Prop
  | stays {call : Call} {point : Point} : Does D s call point s point
  | stops {call : Call} {point : Point} {outcome : Outcome} (quiet : outcome.Quiet) :
    Does D s call point s (.done outcome)
  | registers {registration : Registration} {now : ℕ} {id : Text} {client : Client}
    (ok : registeredClient registration now id = .ok client) :
    Does D s (.register registration now id) .start (s.putClient client) (.done (.registered client))
  | asks {req : AuthorizeRequest} {issuer : Text} {now : ℕ} {id : Text} {shown : Ask → Except OAuthError Unit}
    {clientId : Text} {client : Client} {ask : Ask} (known : s.clients.get? clientId = some client)
    (ok : askOf client req issuer now id = .ok ask) :
    Does D s (.authorize req issuer now id shown) .start s (.putAsk ask)
  | putsAsk {req : AuthorizeRequest} {issuer : Text} {now : ℕ} {id : Text}
      {shown : Ask → Except OAuthError Unit}
    {ask : Ask} {outcome : Outcome} (quiet : outcome.Quiet) :
    Does D s (.authorize req issuer now id shown) (.putAsk ask) (s.putAsk ask) (.done outcome)
  | approves {askId : Text} {now : ℕ} {answer : Ask → Except OAuthError Answer} {code : Text} {ask : Ask}
    (held : s.asks.get? askId = some ask) (unused : ask.codeUsed = false) (uncoded : ask.code = none)
    (inTime : now - ask.askedAt ≤ askTtlSecs) (yes : answer ask = .ok .approved) :
    Does D s (.progress askId now answer code) .start s (.mintCode ask)
  | mints {askId : Text} {now : ℕ} {answer : Ask → Except OAuthError Answer} {code : Text} {ask held : Ask}
    {outcome : Outcome} (known : s.asks.get? ask.id = some held) (quiet : outcome.Quiet) :
    Does D s (.progress askId now answer code) (.mintCode ask)
      { s with asks := s.asks.insert ask.id (held.minted code now) } (.done outcome)
  | spends {req : TokenRequest} {now : ℕ} {secret id code verifier key : Text} {held : Ask} {outcome : Outcome}
    (grant : tokenGrant req = .ok (code, verifier)) (known : s.asks.get? key = some held)
    (unused : held.codeUsed = false) (coded : held.code = some code) (quiet : outcome.Quiet) :
    Does D s (.token req now secret id) .start { s with asks := s.asks.insert key held.spent } (.done outcome)
  | redeems {req : TokenRequest} {now : ℕ} {secret id code verifier key : Text} {held : Ask} {token : Token}
    (grant : tokenGrant req = .ok (code, verifier)) (known : s.asks.get? key = some held)
    (unused : held.codeUsed = false) (coded : held.code = some code)
    (ok : tokenOf D req verifier now secret id held.spent = .ok token) :
    Does D s (.token req now secret id) .start { s with asks := s.asks.insert key held.spent }
      (.putToken held.spent token)
  | issues {req : TokenRequest} {now : ℕ} {secret id : Text} {ask : Ask} {token : Token}
    (new : s.tokens.get? token.id = none) :
    Does D s (.token req now secret id) (.putToken ask token)
      { s with tokens := s.tokens.insert token.id token } (.done (.issued ask token (issuedFor secret token)))
  | finds {bearer : Text} {now : ℕ} {token : Token}
      (found : s.tokenByHash (D.hashToken (trim bearer)) = some token) :
    Does D s (.revoke bearer now) .start s (.revokeToken token)
  | misses {bearer : Text} {now : ℕ} {token : Token} (gone : s.tokens.get? token.id = none) :
    Does D s (.revoke bearer now) (.revokeToken token) s (.done (.revoked (some token)))
  | revokes {bearer : Text} {now : ℕ} {token held : Token} (known : s.tokens.get? token.id = some held) :
    Does D s (.revoke bearer now) (.revokeToken token)
      { s with tokens := s.tokens.insert token.id (held.revokedBy now) } (.done (.revoked (some token)))
  | admits {bearer : Text} {now : ℕ} {token : Token}
      (found : s.tokenByHash (D.hashToken (trim bearer)) = some token)
    (live : token.isLiveAt now = true) :
    Does D s (.admitBearer bearer now) .start s (.done (.admitted (some token)))
  | looksUp {bearer : Text} {now : ℕ} {token : Token}
    (found : s.tokenByHash (D.hashToken (trim bearer)) = some token) (live : token.isLiveAt now = true) :
    Does D s (.admitBearer bearer now) .start s (.touchToken { token with lastUsedAt := some now })
  | lacks {bearer : Text} {now : ℕ} {token : Token} (gone : s.tokens.get? token.id = none) :
    Does D s (.admitBearer bearer now) (.touchToken token) s (.done (.admitted (some token)))
  | touches {bearer : Text} {now : ℕ} {token held : Token} (known : s.tokens.get? token.id = some held) :
    Does D s (.admitBearer bearer now) (.touchToken token)
      { s with tokens := s.tokens.insert token.id (held.touchedAt now) } (.done (.admitted (some token)))

section Steps

variable {D : Digests} {s : MemoryStore}

theorem register_does (registration : Registration) (now : ℕ) (id : Text) :
    Does D s (.register registration now id) .start (register registration now id s).1
      (register registration now id s).2 := by
  unfold register
  cases h : registeredClient registration now id with
  | error refusal => exact .stops trivial
  | ok client => exact .registers h

theorem authorize_does (req : AuthorizeRequest) (issuer : Text) (now : ℕ) (id : Text)
    (shown : Ask → Except OAuthError Unit) :
    Does D s (.authorize req issuer now id shown) .start (authorize req issuer now id s).1
      (authorize req issuer now id s).2 := by
  unfold authorize
  cases given req.clientId with
  | none => exact .stops trivial
  | some clientId =>
    dsimp only
    cases hcli : s.client clientId with
    | none => exact .stops trivial
    | some client =>
      dsimp only
      cases hask : askOf client req issuer now id with
      | error refusal => exact .stops trivial
      | ok ask => exact .asks hcli hask

theorem authorizePut_does (req : AuthorizeRequest) (issuer : Text) (now : ℕ) (id : Text)
    (shown : Ask → Except OAuthError Unit) (ask : Ask) :
    Does D s (.authorize req issuer now id shown) (.putAsk ask) (authorizePut shown ask s).1
      (authorizePut shown ask s).2 := by
  unfold authorizePut
  refine .putsAsk ?_
  cases shown ask with
  | error error => trivial
  | ok => trivial

theorem progress_does (askId : Text) (now : ℕ) (answer : Ask → Except OAuthError Answer) (code : Text) :
    Does D s (.progress askId now answer code) .start (progress askId now answer s).1
      (progress askId now answer s).2 := by
  unfold progress
  cases hask : s.ask askId with
  | none => exact .stops trivial
  | some ask =>
    dsimp only
    split_ifs with hused hcode hlate
    · exact .stops trivial
    · exact .stops trivial
    · exact .stops trivial
    · cases hans : answer ask with
      | error error => exact .stops trivial
      | ok yes =>
        cases yes with
        | pending => exact .stops trivial
        | denied => exact .stops trivial
        | approved => exact .approves hask (by simpa using hused) (by simpa using hcode) (not_lt.1 hlate) hans

theorem progressMint_does (askId : Text) (now : ℕ) (answer : Ask → Except OAuthError Answer) (code : Text)
    (ask : Ask) :
    Does D s (.progress askId now answer code) (.mintCode ask) (progressMint now code ask s).1
      (progressMint now code ask s).2 := by
  unfold progressMint MemoryStore.mintCode
  cases hask : s.asks.get? ask.id with
  | none => exact .stops trivial
  | some held => exact .mints hask trivial

theorem token_does (req : TokenRequest) (now : ℕ) (secret id : Text) :
    Does D s (.token req now secret id) .start (token D req now secret id s).1
      (token D req now secret id s).2 := by
  unfold token
  cases hgrant : tokenGrant req with
  | error refusal => exact .stops trivial
  | ok grant =>
    obtain ⟨code, verifier⟩ := grant
    dsimp only
    unfold MemoryStore.redeemCode
    cases hfind : s.asks.entries.find? fun e => !e.2.codeUsed && e.2.code == some code with
    | none => exact .stops trivial
    | some entry =>
      obtain ⟨key, held⟩ := entry
      have hkn : s.asks.get? key = some held := get?_eq_some.2 (List.mem_of_find?_eq_some hfind)
      have hfnd := List.find?_some hfind
      simp only [Bool.and_eq_true, Bool.not_eq_true', beq_iff_eq] at hfnd
      dsimp only
      cases htok : tokenOf D req verifier now secret id { held with codeUsed := true } with
      | error refusal => exact .spends hgrant hkn hfnd.1 hfnd.2 trivial
      | ok token => exact .redeems hgrant hkn hfnd.1 hfnd.2 htok

theorem tokenPut_does (req : TokenRequest) (now : ℕ) (secret id : Text) (ask : Ask) (token : Token) :
    Does D s (.token req now secret id) (.putToken ask token) (tokenPut secret ask token s).1
      (tokenPut secret ask token s).2 := by
  unfold tokenPut MemoryStore.putToken SortedMap.contains
  cases hheld : s.tokens.get? token.id with
  | some held => exact .stops trivial
  | none => exact .issues hheld

theorem revoke_does (bearer : Text) (now : ℕ) :
    Does D s (.revoke bearer now) .start (revoke D bearer s).1 (revoke D bearer s).2 := by
  unfold revoke
  cases hfind : s.tokenByHash (D.hashToken (trim bearer)) with
  | none => exact .stops trivial
  | some token => exact .finds hfind

theorem revokePut_does (bearer : Text) (now : ℕ) (token : Token) :
    Does D s (.revoke bearer now) (.revokeToken token) (revokePut now token s).1
      (revokePut now token s).2 := by
  unfold revokePut MemoryStore.revokeToken
  cases hheld : s.tokens.get? token.id with
  | none => exact .misses hheld
  | some held => exact .revokes hheld

theorem admitBearer_does (bearer : Text) (now : ℕ) :
    Does D s (.admitBearer bearer now) .start (admitBearer D bearer now s).1
      (admitBearer D bearer now s).2 := by
  unfold admitBearer
  dsimp only
  split_ifs with hblk
  · exact .stops trivial
  · cases hfind : s.tokenByHash (D.hashToken (trim bearer)) with
    | none => exact .stops trivial
    | some token =>
      dsimp only
      split_ifs with hlive htouch
      · exact .stops trivial
      · exact .looksUp hfind (by simpa using hlive)
      · exact .admits hfind (by simpa using hlive)

theorem admitTouch_does (bearer : Text) (now : ℕ) (token : Token) :
    Does D s (.admitBearer bearer now) (.touchToken token) (admitTouch now token s).1
      (admitTouch now token s).2 := by
  unfold admitTouch MemoryStore.touchToken
  cases hheld : s.tokens.get? token.id with
  | none => exact .lacks hheld
  | some held =>
    by_cases hlive : held.isLive = true
    · have htouched : held.touchedAt now = { held with lastUsedAt := some now } := if_pos hlive
      simp only [hlive, if_true, ← htouched]
      exact .touches hheld
    · have htouched : held.touchedAt now = held := if_neg hlive
      have hsame : s.tokens.insert token.id held = s.tokens := ext_get? fun k => by
        rw [get?_insert]
        split_ifs with hk
        · rw [hk, hheld]
        · rfl
      have hdoes := @Does.touches D s bearer now token held hheld
      rw [htouched, hsame] at hdoes
      simp only [hlive, Bool.false_eq_true, if_false]
      exact hdoes

theorem step_does (D : Digests) (s : MemoryStore) (call : Call) (point : Point) :
    Does D s call point (step D call point s).1 (step D call point s).2 := by
  unfold step
  split
  · exact register_does _ _ _
  · exact authorize_does _ _ _ _ _
  · exact authorizePut_does _ _ _ _ _ _
  · exact progress_does _ _ _ _
  · exact progressMint_does _ _ _ _ _
  · exact token_does _ _ _ _
  · exact tokenPut_does _ _ _ _ _ _
  · exact revoke_does _ _
  · exact revokePut_does _ _ _
  · exact admitBearer_does _ _
  · exact admitTouch_does _ _ _
  · exact .stays

theorem step_done (D : Digests) (call : Call) (outcome : Outcome) (s : MemoryStore) :
    (step D call (.done outcome) s).2 = .done outcome := by
  cases call <;> rfl

end Steps

/-! ## The tokens -/

/-- A token as it was put, whatever happened to it since. -/
def Token.asIssued (token : Token) : Token := { token with lastUsedAt := none, revokedAt := none }

theorem Token.id_eq {token token' : Token} (h : token'.asIssued = token.asIssued) : token'.id = token.id := by
  have hid := congrArg Token.id h
  exact hid

theorem Token.hash_eq {token token' : Token} (h : token'.asIssued = token.asIssued) :
    token'.hash = token.hash := by
  have hhash := congrArg Token.hash h
  exact hhash

theorem Token.revokedBy_asIssued (token : Token) (now : ℕ) : (token.revokedBy now).asIssued = token.asIssued := by
  unfold Token.revokedBy
  split_ifs <;> rfl

theorem Token.touchedAt_asIssued (token : Token) (now : ℕ) : (token.touchedAt now).asIssued = token.asIssued := by
  unfold Token.touchedAt
  split_ifs <;> rfl

theorem Token.touchedAt_revokedAt (token : Token) (now : ℕ) :
    (token.touchedAt now).revokedAt = token.revokedAt := by
  unfold Token.touchedAt
  split_ifs <;> rfl

/-- Tokens stay, as issued and with the first time they were revoked at; a new one is put by
the call that issues it. -/
structure TokenSteps (s s' : MemoryStore) (point point' : Point) : Prop where
  kept : ∀ id token, s.tokens.get? id = some token → ∃ token', s'.tokens.get? id = some token' ∧
    token'.asIssued = token.asIssued ∧ (token.revokedAt ≠ none → token'.revokedAt = token.revokedAt)
  new : ∀ id token, s'.tokens.get? id = some token → s.tokens.get? id = none → token.id = id ∧
    ∃ ask issued, point = .putToken ask token ∧ point' = .done (.issued ask token issued)

section Tokens

variable {D : Digests} {s s' : MemoryStore} {call : Call} {point point' : Point}

theorem TokenSteps.same (h : s'.tokens = s.tokens) : TokenSteps s s' point point' where
  kept := fun id token hget => ⟨token, by rw [h, hget], rfl, fun _ => rfl⟩
  new := fun id token hsome hnone => by
    rw [h, hnone] at hsome
    cases hsome

theorem TokenSteps.update {key : Text} {held new : Token} (hkn : s.tokens.get? key = some held)
    (hsame : new.asIssued = held.asIssued) (hrev : held.revokedAt ≠ none → new.revokedAt = held.revokedAt) :
    TokenSteps s { s with tokens := s.tokens.insert key new } point point' where
  kept := fun id token hget => by
    dsimp only
    rw [get?_insert]
    split_ifs with hid
    · subst hid
      obtain rfl := some.inj (hkn.symm.trans hget)
      exact ⟨new, rfl, hsame, hrev⟩
    · exact ⟨token, hget, rfl, fun _ => rfl⟩
  new := fun id token hsome hnone => by
    dsimp only at hsome
    rw [get?_insert] at hsome
    split_ifs at hsome with hid
    · rw [hid, hkn] at hnone
      cases hnone
    · rw [hnone] at hsome
      cases hsome

theorem tokens_step (h : Does D s call point s' point') : TokenSteps s s' point point' := by
  cases h with
  | issues hnew =>
    refine ⟨fun id token hget => ⟨token, ?_, rfl, fun _ => rfl⟩, fun id token hsome hnone => ?_⟩
    · dsimp only
      rw [get?_insert, if_neg, hget]
      rintro rfl
      rw [hnew] at hget
      cases hget
    · dsimp only at hsome
      rw [get?_insert] at hsome
      split_ifs at hsome with hid
      · obtain rfl := some.inj hsome
        exact ⟨hid.symm, _, _, rfl, rfl⟩
      · rw [hnone] at hsome
        cases hsome
  | revokes known =>
    refine .update known (Token.revokedBy_asIssued _ _) fun hrev => ?_
    rw [Token.revokedBy, if_neg hrev]
  | touches known =>
    exact .update known (Token.touchedAt_asIssued _ _) fun _ => Token.touchedAt_revokedAt _ _
  | _ => exact .same rfl

def Point.claims : Point → Option (Ask × Token)
  | .putToken ask token => some (ask, token)
  | .done (.issued ask token _) => some (ask, token)
  | _ => none

theorem claims_quiet {outcome : Outcome} (h : outcome.Quiet) : (Point.done outcome).claims = none := by
  cases outcome with
  | issued => cases h
  | _ => rfl

def Grants (D : Digests) (t : Thread) : Prop :=
  ∀ ask token, t.point.claims = some (ask, token) → ∃ req now secret id verifier,
    t.call = .token req now secret id ∧ tokenOf D req verifier now secret id ask = .ok token ∧
      ∀ issued, t.point = .done (.issued ask token issued) → issued = issuedFor secret token

theorem grants_none (h : point.claims = none) : Grants D ⟨call, point⟩ := by
  intro ask token hclm
  rw [show (⟨call, point⟩ : Thread).point.claims = point.claims from rfl, h] at hclm
  cases hclm

theorem Grants.step (hg : Grants D ⟨call, point⟩) (h : Does D s call point s' point') :
    Grants D ⟨call, point'⟩ := by
  cases h with
  | stays => exact hg
  | stops quiet => exact grants_none (claims_quiet quiet)
  | putsAsk quiet => exact grants_none (claims_quiet quiet)
  | mints known quiet => exact grants_none (claims_quiet quiet)
  | spends grant known unused coded quiet => exact grants_none (claims_quiet quiet)
  | redeems grant known unused coded ok =>
    intro ask token hclm
    obtain ⟨rfl, rfl⟩ := Prod.mk.inj (some.inj hclm)
    exact ⟨_, _, _, _, _, rfl, ok, nofun⟩
  | issues new =>
    intro ask token hclm
    obtain ⟨rfl, rfl⟩ := Prod.mk.inj (some.inj hclm)
    obtain ⟨req, now, secret, id, verifier, hcall, ok, -⟩ := hg _ _ rfl
    obtain ⟨rfl, rfl, rfl, rfl⟩ := Call.token.inj hcall
    refine ⟨_, _, _, _, verifier, rfl, ok, fun issued hpt => ?_⟩
    exact (Outcome.issued.inj (Point.done.inj hpt)).2.2.symm
  | _ => exact grants_none rfl

theorem grants_run (D : Digests) (events : List Event) {i : ℕ} {t : Thread}
    (ht : (run D events).threads[i]? = some t) :
    Grants D t := by
  refine run_history (fun _ _ t => Grants D t) (fun i t h => ?_) (fun _ k => grants_none rfl) (fun _ _ _ _ h => h)
    (fun _ _ t _ h => ?_) events i t ht
  · simp at h
  · exact h.step (step_does D _ t.call t.point)

def World.Issues (w : World) (token : Token) : Prop :=
  ∃ (i : ℕ) (t : Thread) (ask : Ask) (put : Token) (issued : Issued), w.threads[i]? = some t ∧
    t.point = .done (.issued ask put issued) ∧ put.asIssued = token.asIssued

/-- Every stored token is under its id and was put by a call. -/
def World.AllIssued (w : World) : Prop :=
  ∀ id token, w.shared.tokens.get? id = some token → token.id = id ∧ w.Issues token

variable {token : Token}

theorem World.Issues.next {w : World} (h : w.Issues token) (e : Event) :
    World.Issues (w.next .start (step D) e) token := by
  obtain ⟨i, t, ask, put, issued, ht, hpt, hput⟩ := h
  refine ⟨i, t, ask, put, issued, next_final ht (fun s => ?_) e, hpt, hput⟩
  rw [hpt]
  exact step_done D _ _ s

theorem World.Issues.congr {w : World} {token' : Token} (h : w.Issues token)
    (hsame : token'.asIssued = token.asIssued) : w.Issues token' := by
  obtain ⟨i, t, ask, put, issued, ht, hpt, hput⟩ := h
  exact ⟨i, t, ask, put, issued, ht, hpt, hput.trans hsame.symm⟩

theorem allIssued_turn {w : World} (h : w.AllIssued) (i : ℕ) :
    World.AllIssued (w.next .start (step D) (.turn i)) := by
  cases ht : w.threads[i]? with
  | none => rwa [next_turn_none ht]
  | some t =>
    have hsteps := tokens_step (step_does D w.shared t.call t.point)
    intro id token' hget'
    have hshared : (w.next .start (step D) (.turn i)).shared =
      (step D t.call t.point w.shared).1 := by
      rw [next_turn ht]
    rw [hshared] at hget'
    cases hget : w.shared.tokens.get? id with
    | none =>
      obtain ⟨hid, ask, issued, -, hpt⟩ := hsteps.new id token' hget' hget
      refine ⟨hid, i, ⟨t.call, (step D t.call t.point w.shared).2⟩, ask, token', issued, ?_, hpt, rfl⟩
      rw [next_turn ht]
      exact List.getElem?_set_self (List.getElem?_eq_some_iff.1 ht).1
    | some token =>
      obtain ⟨kept, hkept, hsame, -⟩ := hsteps.kept id token hget
      obtain rfl := some.inj (hkept.symm.trans hget')
      obtain ⟨hid, hissues⟩ := h id token hget
      exact ⟨(Token.id_eq hsame).trans hid, (hissues.congr hsame).next (.turn i)⟩

theorem allIssued_run (D : Digests) (events : List Event) : (run D events).AllIssued := by
  unfold run
  induction events using List.reverseRecOn with
  | nil => exact fun id token hget => by simp [World.run, MemoryStore.new] at hget
  | append_singleton events e ih =>
    rw [run_concat]
    cases e with
    | call k => exact fun id token hget => ⟨(ih id token hget).1, (ih id token hget).2.next (.call k)⟩
    | turn i => exact allIssued_turn ih i

/-- No event loses a token or changes when it was first revoked. -/
theorem tokens_next (w : World) (e : Event) {id : Text} (h : w.shared.tokens.get? id = some token) :
    ∃ token', (w.next .start (step D) e).shared.tokens.get? id = some token' ∧
      token'.asIssued = token.asIssued ∧ (token.revokedAt ≠ none → token'.revokedAt = token.revokedAt) := by
  cases e with
  | call k => exact ⟨token, h, rfl, fun _ => rfl⟩
  | turn i =>
    cases ht : w.threads[i]? with
    | none =>
      rw [next_turn_none ht]
      exact ⟨token, h, rfl, fun _ => rfl⟩
    | some t =>
      rw [next_turn ht]
      exact (tokens_step (step_does D w.shared t.call t.point)).kept id token h

theorem tokens_run (before after : List Event) {id : Text}
    (h : (run D before).shared.tokens.get? id = some token) :
    ∃ token', (run D (before ++ after)).shared.tokens.get? id = some token' ∧
      token'.asIssued = token.asIssued ∧ (token.revokedAt ≠ none → token'.revokedAt = token.revokedAt) := by
  induction after using List.reverseRecOn with
  | nil => exact ⟨token, by rwa [List.append_nil], rfl, fun _ => rfl⟩
  | append_singleton after e ih =>
    obtain ⟨token₁, hget₁, hsame₁, hrev₁⟩ := ih
    obtain ⟨token₂, hget₂, hsame₂, hrev₂⟩ := tokens_next (D := D) _ e hget₁
    refine ⟨token₂, ?_, hsame₂.trans hsame₁, fun hrev => ?_⟩
    · rw [← List.append_assoc, run, run_concat]
      exact hget₂
    · have hkept := hrev₁ hrev
      rw [hrev₂ (hkept ▸ hrev), hkept]

end Tokens

/-! ## A run -/

def redeemed : List Event :=
  let challenge := List.replicate 43 'a'
  [.call (.register ⟨some "app".toList, ["https://x/cb".toList]⟩ 0 "client".toList), .turn 0,
    .call (.authorize ⟨some "code".toList, some "client".toList, some "https://x/cb".toList,
      some "mail threads".toList, none, some challenge, none⟩ "https://a.proxy.ing/".toList 1 "ask".toList
      (fun _ => .ok ())), .turn 1, .turn 1,
    .call (.progress "ask".toList 2 (fun _ => .ok .approved) "code".toList), .turn 2, .turn 2,
    .call (.token ⟨some "authorization_code".toList, some "code".toList, some "https://x/cb".toList,
      some "client".toList, some challenge⟩ 3 "secret".toList "token".toList), .turn 3]

def letIn : List Event := redeemed ++ [.turn 3]

end ProxyNode.OAuth
