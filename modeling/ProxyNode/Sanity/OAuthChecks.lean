import ProxyNode.Spec.OAuth

/-! What the checks of the OAuth server establish of what they let through. -/

namespace ProxyNode.OAuth

open Text Except

def Ask.terms (ask : Ask) : Ask := { ask with code := none, codeIssuedAt := none, codeUsed := false }

theorem registeredClient_ok {registration : Registration} {now : ℕ} {id : Text} {client : Client}
    (h : registeredClient registration now id = .ok client) :
    client.id = id ∧ client.redirectUris = registration.redirectUris ∧
      ∀ uri ∈ client.redirectUris, redirectUriIsAllowed uri = true := by
  unfold registeredClient at h
  cases hname : given registration.clientName with
  | none => simp [hname] at h
  | some name =>
    simp only [hname] at h
    split_ifs at h
    cases hbad : registration.redirectUris.find? fun uri => !redirectUriIsAllowed uri with
    | some uri => simp [hbad] at h
    | none =>
      simp only [hbad, ok.injEq] at h
      subst h
      refine ⟨rfl, rfl, fun uri huri => ?_⟩
      simpa using List.find?_eq_none.1 hbad uri huri

structure AskMade (client : Client) (req : AuthorizeRequest) (now : ℕ) (id : Text) (ask : Ask) : Prop where
  id : ask.id = id
  askedAt : ask.askedAt = now
  terms : ask.terms = ask
  clientId : ask.clientId = client.id
  redirectUri : ask.redirectUri ∈ client.redirectUris
  challenge : codeChallengeIsWellFormed ask.codeChallenge = true
  scope : ∃ scope, normalizeScope req.scope = .ok scope ∧ ask.scope = some scope

/-- An ask that is made would be made of any other scope that normalizes, too. -/
theorem askOf_ok {client : Client} {req : AuthorizeRequest} {issuer : Text} {now : ℕ} {id : Text} {ask : Ask}
    (h : askOf client req issuer now id = .ok ask) : AskMade client req now id ask ∧
      ∀ requested scope, normalizeScope (some requested) = .ok scope →
        askOf client { req with scope := some requested } issuer now id = .ok
          { ask with scope := some scope } := by
  unfold askOf at h ⊢
  cases huri : given req.redirectUri with
  | none => simp [huri] at h
  | some redirectUri =>
    simp only [huri] at h ⊢
    split_ifs at h ⊢ with hkn
    · cases hchal : (req.codeChallenge.map trim).filter codeChallengeIsWellFormed with
      | none => simp [hchal] at h
      | some codeChallenge =>
        cases hscope : normalizeScope req.scope with
        | error why => simp [hchal, hscope] at h
        | ok scope =>
          simp only [hchal, hscope, ok.injEq] at h
          subst h
          refine ⟨⟨rfl, rfl, rfl, rfl, by simpa using hkn, (Option.filter_eq_some_iff.1 hchal).2, scope,
            hscope, rfl⟩, fun requested scope' hscope' => ?_⟩
          simp only [hscope']

structure TokenMade (D : Digests) (req : TokenRequest) (verifier : Text) (now : ℕ) (secret id : Text)
    (ask : Ask) (token : Token) : Prop where
  fresh : ∃ issued, ask.codeIssuedAt = some issued ∧ now - issued ≤ codeTtlSecs
  clientId : req.clientId.map trim = some ask.clientId
  redirectUri : req.redirectUri.map trim = some ask.redirectUri
  pkce : pkceMatches D verifier ask.codeChallenge = true
  id : token.id = id
  hash : token.hash = D.hashToken secret
  scope : token.scope = some (ask.scope.getD defaultScope)

theorem tokenOf_ok {D : Digests} {req : TokenRequest} {verifier : Text} {now : ℕ} {secret id : Text} {ask : Ask}
    {token : Token} (h : tokenOf D req verifier now secret id ask = .ok token) :
    TokenMade D req verifier now secret id ask token := by
  unfold tokenOf at h
  split_ifs at h with hfrs hcli huri hpkce
  obtain rfl := ok.inj h
  rw [Bool.not_eq_false] at hfrs hpkce
  rw [not_not] at hcli huri
  refine ⟨?_, hcli, huri, hpkce, rfl, rfl, rfl⟩
  unfold codeIsFresh at hfrs
  cases hiss : ask.codeIssuedAt with
  | none => simp [hiss] at hfrs
  | some issued => exact ⟨issued, rfl, by simpa [hiss] using hfrs⟩

theorem tokenGrant_ok {req : TokenRequest} {code verifier : Text} (h : tokenGrant req = .ok (code, verifier)) :
    given req.code = some code ∧ given req.codeVerifier = some verifier := by
  unfold tokenGrant at h
  split_ifs at h
  cases hcode : given req.code with
  | none => simp [hcode] at h
  | some code' =>
    cases hverifier : given req.codeVerifier with
    | none => simp [hcode, hverifier] at h
    | some verifier' =>
      simp only [hcode, hverifier, ok.injEq, Prod.mk.injEq] at h
      rw [h.1, h.2]
      exact ⟨rfl, rfl⟩

end ProxyNode.OAuth
