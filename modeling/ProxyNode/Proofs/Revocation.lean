import ProxyNode.Sanity.OAuthChecks
import ProxyNode.Sanity.OAuthSteps

/-! Revocation. A token that is held stays held, and the first time it was revoked at stays. A
revoke that finds the token of a bearer therefore shuts the bearer out of every lookup from
then on, whatever admits were under way; one that looks before the token is put finds nothing
and does nothing. -/

namespace ProxyNode.OAuth

open Interleave Text Option SortedMap

def Call.HashesApart (D : Digests) : Call → Call → Prop
  | .token _ _ secret _, .token _ _ secret' _ => D.hashToken secret ≠ D.hashToken secret'
  | _, _ => True

instance (D : Digests) : DecidableRel (Call.HashesApart D) := fun k k' => by
  rcases k <;> rcases k' <;> first | exact instDecidableTrue | exact instDecidableNot

variable {D : Digests} {s s' : MemoryStore} {call : Call} {point point' : Point}

/-! ## Held tokens -/

def Held (s : MemoryStore) (id hash : Text) : Prop := ∃ held, s.tokens.get? id = some held ∧ held.hash = hash

def HeldRevoked (s : MemoryStore) (id hash : Text) : Prop :=
  ∃ held, s.tokens.get? id = some held ∧ held.hash = hash ∧ held.revokedAt ≠ none

/-- The tokens of one store are tokens of the other, as issued and as revoked as they were. -/
def TokensKept (s s' : MemoryStore) : Prop :=
  ∀ id token, s.tokens.get? id = some token → ∃ token', s'.tokens.get? id = some token' ∧
    token'.asIssued = token.asIssued ∧ (token.revokedAt ≠ none → token'.revokedAt = token.revokedAt)

variable {hash : Text}

theorem Held.kept {id : Text} (h : Held s id hash) (hkept : TokensKept s s') : Held s' id hash := by
  obtain ⟨held, hget, rfl⟩ := h
  obtain ⟨held', hget', hsame, -⟩ := hkept id held hget
  exact ⟨held', hget', Token.hash_eq hsame⟩

theorem HeldRevoked.kept {id : Text} (h : HeldRevoked s id hash) (hkept : TokensKept s s') :
    HeldRevoked s' id hash := by
  obtain ⟨held, hget, rfl, hrev⟩ := h
  obtain ⟨held', hget', hsame, hat⟩ := hkept id held hget
  exact ⟨held', hget', Token.hash_eq hsame, hat hrev ▸ hrev⟩

variable {token : Token}

theorem tokenByHash_some (h : s.tokenByHash hash = some token) :
    ∃ id, s.tokens.get? id = some token ∧ token.hash = hash := by
  obtain ⟨⟨id, token'⟩, hfind, rfl⟩ := map_eq_some_iff.1 h
  exact ⟨id, get?_eq_some.2 (List.mem_of_find?_eq_some hfind), by simpa using List.find?_some hfind⟩

theorem tokenByHash_of_held {id : Text} (h : Held s id hash) : s.tokenByHash hash ≠ none := by
  obtain ⟨held, hget, rfl⟩ := h
  intro hnone
  have hall := List.find?_eq_none.1 (map_eq_none_iff.1 hnone) (id, held) (get?_eq_some.1 hget)
  simp at hall

/-- What a call's point says of the tokens held. -/
structure HeldOk (D : Digests) (s : MemoryStore) (t : Thread) : Prop where
  issued : ∀ {ask put issued}, t.point = .done (.issued ask put issued) → Held s put.id put.hash
  found : ∀ {bearer now token}, t.call = .revoke bearer now → t.point = .revokeToken token →
    Held s token.id (D.hashToken (trim bearer))
  revoked : ∀ {bearer now token}, t.call = .revoke bearer now → t.point = .done (.revoked (some token)) →
    HeldRevoked s token.id (D.hashToken (trim bearer))

variable {t : Thread}

theorem HeldOk.kept (h : HeldOk D s t) (hkept : TokensKept s s') : HeldOk D s' t where
  issued := fun hpt => (h.issued hpt).kept hkept
  found := fun hcall hpt => (h.found hcall hpt).kept hkept
  revoked := fun hcall hpt => (h.revoked hcall hpt).kept hkept

theorem heldOk_quiet {outcome : Outcome} (h : outcome.Quiet) : HeldOk D s ⟨call, .done outcome⟩ := by
  refine ⟨fun hpt => ?_, nofun, fun _ hpt => ?_⟩
  · obtain rfl := Point.done.inj hpt
    cases h
  · obtain rfl := Point.done.inj hpt
    cases h

theorem HeldOk.step (ht : HeldOk D s ⟨call, point⟩)
    (hids : ∀ id token, s.tokens.get? id = some token → token.id = id)
    (h : Does D s call point s' point') : HeldOk D s' ⟨call, point'⟩ := by
  cases h with
  | stays => exact ht
  | stops quiet => exact heldOk_quiet quiet
  | putsAsk quiet => exact heldOk_quiet quiet
  | mints known quiet => exact heldOk_quiet quiet
  | spends grant known unused coded quiet => exact heldOk_quiet quiet
  | issues new =>
    refine ⟨fun hpt => ?_, nofun, nofun⟩
    obtain ⟨-, rfl, -⟩ := Outcome.issued.inj (Point.done.inj hpt)
    exact ⟨_, get?_insert_self _ _ _, rfl⟩
  | finds found =>
    refine ⟨nofun, fun hcall hpt => ?_, nofun⟩
    obtain ⟨rfl, rfl⟩ := Call.revoke.inj hcall
    obtain rfl := Point.revokeToken.inj hpt
    obtain ⟨id, hget, hhash⟩ := tokenByHash_some found
    exact ⟨_, (hids id _ hget).symm ▸ hget, hhash⟩
  | misses gone =>
    obtain ⟨held, hget, -⟩ := ht.found rfl rfl
    rw [gone] at hget
    cases hget
  | revokes known =>
    rename_i bearer now token held
    refine ⟨nofun, nofun, fun hcall hpt => ?_⟩
    obtain ⟨rfl, rfl⟩ := Call.revoke.inj hcall
    obtain rfl := some.inj (Outcome.revoked.inj (Point.done.inj hpt))
    obtain ⟨held', hget, hhash⟩ := ht.found rfl rfl
    obtain rfl := some.inj (known.symm.trans hget)
    refine ⟨held.revokedBy now, get?_insert_self _ _ _, ?_, ?_⟩
    · rw [← hhash]
      exact Token.hash_eq (Token.revokedBy_asIssued held now)
    · unfold Token.revokedBy
      split_ifs with hnone
      · exact nofun
      · exact hnone
  | _ => exact ⟨nofun, nofun, nofun⟩

theorem tokensKept_run (D : Digests) (before after : List Event) :
    TokensKept (run D before).shared (run D (before ++ after)).shared :=
  fun _ _ h => tokens_run before after h

theorem heldOk_run (D : Digests) (events : List Event) {i : ℕ} (ht : (run D events).threads[i]? = some t) :
    HeldOk D (run D events).shared t := by
  refine run_history (fun events _ t => HeldOk D (run D events).shared t) (fun i t h => ?_) (fun _ k => ?_)
    (fun events e _ t h => h.kept (tokensKept_run D events [e])) (fun events i t ht h => ?_) events i t ht
  · simp at h
  · exact ⟨nofun, nofun, nofun⟩
  · have hnext : (run D (events ++ [.turn i])).shared =
      (Server.step D t.call t.point (run D events).shared).1 := by
      rw [run, run_concat, next_turn ht]
      rfl
    rw [hnext]
    exact h.step (fun id token hget => (allIssued_run D events id token hget).1) (step_does D _ t.call t.point)

/-! ## One token for a hash -/

def World.IssuesWith (w : World) (token : Token) (secret : Text) : Prop :=
  ∃ (i : ℕ) (t : Thread) (ask : Ask) (put : Token) (req : TokenRequest) (now : ℕ) (id : Text),
    w.threads[i]? = some t ∧ t.call = .token req now secret id ∧
    t.point = .done (.issued ask put (issuedFor secret put)) ∧ put.asIssued = token.asIssued

variable {events : List Event}

/-- A held token has the hash of the secret its issuing call drew. -/
theorem secret_of_held {id : Text} (h : (run D events).shared.tokens.get? id = some token) :
    ∃ secret, (run D events).IssuesWith token secret ∧ token.hash = D.hashToken secret := by
  obtain ⟨-, i, t, ask, put, issued, ht, hpt, hput⟩ := allIssued_run D events id token h
  obtain ⟨req, now, secret, drawn, verifier, hcall, htok, hiss⟩ :=
    grants_run D events ht ask put (by rw [hpt]; rfl)
  obtain rfl := hiss issued hpt
  refine ⟨secret, ⟨i, t, ask, put, req, now, drawn, ht, hcall, hpt, hput⟩, ?_⟩
  rw [← Token.hash_eq hput, (tokenOf_ok htok).hash]

theorem held_unique (distinct : (run D events).calls.Pairwise (Call.HashesApart D)) {id id' : Text}
    {token' : Token} (h : (run D events).shared.tokens.get? id = some token)
    (h' : (run D events).shared.tokens.get? id' = some token') (hhash : token.hash = token'.hash) : id = id' := by
  obtain ⟨secret, ⟨i, t, ask, put, req, now, drawn, ht, hcall, hpt, hput⟩, hsecret⟩ := secret_of_held h
  obtain ⟨secret', ⟨j, u, ask', put', req', now', drawn', hu, hcall', hpt', hput'⟩, hsecret'⟩ :=
    secret_of_held h'
  have hsame : D.hashToken secret = D.hashToken secret' := by rw [← hsecret, ← hsecret', hhash]
  have hij : i = j := by
    by_contra hij
    have hdiff := different_calls distinct ht hu hij
    rw [hcall, hcall'] at hdiff
    rcases hdiff with hdiff | hdiff
    · exact hdiff hsame
    · exact hdiff hsame.symm
  subst hij
  obtain rfl := some.inj (ht.symm.trans hu)
  obtain ⟨-, rfl, -⟩ := Outcome.issued.inj (Point.done.inj (hpt.symm.trans hpt'))
  rw [← (allIssued_run D events id token h).1, ← (allIssued_run D events id' token' h').1, ← Token.id_eq hput,
    ← Token.id_eq hput']

variable {bearer : Text}

theorem admitBearer_revoked (distinct : (run D events).calls.Pairwise (Call.HashesApart D)) {id : Text}
    (h : HeldRevoked (run D events).shared id (D.hashToken (trim bearer))) (now : ℕ) :
    Server.admitBearer D bearer now (run D events).shared = ((run D events).shared, .done (.admitted none)) := by
  obtain ⟨held, hget, hhash, hrev⟩ := h
  unfold Server.admitBearer
  dsimp only
  split_ifs with hblk
  · rfl
  · cases hfind : (run D events).shared.tokenByHash (D.hashToken (trim bearer)) with
    | none => rfl
    | some token =>
      obtain ⟨id', hget', hhash'⟩ := tokenByHash_some hfind
      obtain rfl := held_unique distinct hget hget' (hhash.trans hhash'.symm)
      obtain rfl := some.inj (hget.symm.trans hget')
      have hdead : held.isLiveAt now = false := by simp [Token.isLiveAt, Token.isLive, hrev]
      simp only [hdead, if_true]

/-! ## Calls made afterwards -/

/-- The thread is not there yet, or its call has done nothing yet. -/
def World.Later (w : World) (j : ℕ) : Prop := ∀ u, w.threads[j]? = some u → u.point = .start

variable {before after : List Event}

theorem pairwise_before {Different : Call → Call → Prop} (h : (run D (before ++ after)).calls.Pairwise Different) :
    (run D before).calls.Pairwise Different := by
  rw [run, run_append] at h
  exact h.sublist (calls_run after).sublist

variable {j : ℕ}

/-- What a call made after `before` comes to, when each of its steps keeps it. -/
theorem later_run {k : Call} (P : Point → Prop) (before : List Event) (hstart : P .start)
    (hstep : ∀ after, (run D (before ++ after)).calls.Pairwise (Call.HashesApart D) →
      ∀ point, P point → P (Server.step D k point (run D (before ++ after)).shared).2)
    (distinct : (run D (before ++ after)).calls.Pairwise (Call.HashesApart D)) (hlater : (run D before).Later j)
    (ht : (run D (before ++ after)).threads[j]? = some t) (hcall : t.call = k) : P t.point := by
  have happ : ∀ after', run D (before ++ after') = (run D before).run .start (Server.step D) after' :=
    fun after' => run_append before after'
  rw [happ] at ht
  refine run_history (fun after' i t =>
      (run D (before ++ after')).calls.Pairwise (Call.HashesApart D) → i = j → t.call = k → P t.point)
    (fun i t hfst _ hij _ => ?_) (fun _ _ _ _ _ => hstart) (fun after' e i t hP hdiff => ?_)
    (fun after' i t _ hP hdiff hij hcall => ?_) after j t ht distinct rfl hcall
  · subst hij
    rw [hlater _ hfst]
    exact hstart
  · rw [← List.append_assoc] at hdiff
    exact hP (pairwise_before hdiff)
  · rw [← List.append_assoc] at hdiff
    have hdiff' := pairwise_before hdiff
    rw [← happ]
    have hpt := hstep after' hdiff' t.point (hP hdiff' hij hcall)
    rwa [← hcall] at hpt

variable {now : ℕ}

/-- The bearer's admits that are made afterwards let nobody in. -/
theorem admit_after_revoked {id : Text}
    (hrev : HeldRevoked (run D before).shared id (D.hashToken (trim bearer)))
    (distinct : (run D (before ++ after)).calls.Pairwise (Call.HashesApart D)) (hlater : (run D before).Later j)
    (ht : (run D (before ++ after)).threads[j]? = some t) {bearer' : Text}
    (hcall : t.call = .admitBearer bearer' now) (hbearer : trim bearer' = trim bearer) :
    t.point = .start ∨ t.point = .done (.admitted none) := by
  refine later_run (fun point => point = .start ∨ point = .done (.admitted none)) before (.inl rfl)
    (fun after' hdiff point hP => Or.inr ?_) distinct hlater ht hcall
  rcases hP with rfl | rfl
  · have hnow := hbearer ▸ hrev.kept (tokensKept_run D before after')
    exact congrArg Prod.snd (admitBearer_revoked hdiff hnow now)
  · rfl

/-- A revoke that is made once the token is held finds it. -/
theorem revoke_after_held {id : Text} (hheld : Held (run D before).shared id hash)
    (distinct : (run D (before ++ after)).calls.Pairwise (Call.HashesApart D)) (hlater : (run D before).Later j)
    (ht : (run D (before ++ after)).threads[j]? = some t) (hcall : t.call = .revoke bearer now)
    (hhash : D.hashToken (trim bearer) = hash) :
    t.point = .start ∨ ∃ token, t.point = .revokeToken token ∨ t.point = .done (.revoked (some token)) := by
  refine later_run (fun point => point = .start ∨ ∃ token, point = .revokeToken token ∨
    point = .done (.revoked (some token))) before (.inl rfl) (fun after' hdiff point hP => Or.inr ?_) distinct
    hlater ht hcall
  rcases hP with rfl | ⟨token, rfl | rfl⟩
  · have hfnd := tokenByHash_of_held (hheld.kept (tokensKept_run D before after'))
    obtain ⟨token, htok⟩ := ne_none_iff_exists'.1 hfnd
    refine ⟨token, .inl ?_⟩
    simp only [Server.step, Server.revoke, hhash, htok]
  · exact ⟨token, .inr rfl⟩
  · exact ⟨token, .inr rfl⟩

/-! ## What an admit returns -/

/-- The lookup of an admit: the turn of its call at which it found the token, live and issued
with the bearer's hash. -/
def LookedUp (D : Digests) (events : List Event) (i : ℕ) (bearer : Text) (now : ℕ) (token : Token) : Prop :=
  ∃ before after held secret, events = before ++ .turn i :: after ∧
    (run D before).threads[i]? = some ⟨.admitBearer bearer now, .start⟩ ∧
    (run D before).shared.tokenByHash (D.hashToken (trim bearer)) = some held ∧ held.revokedAt = none ∧
    now < held.expiresAt ∧ (run D before).IssuesWith held secret ∧ D.hashToken secret = D.hashToken (trim bearer) ∧
    (token = held ∨ token = { held with lastUsedAt := some now })

def Point.found : Point → Option Token
  | .touchToken token => some token
  | .done (.admitted token) => token
  | _ => none

theorem found_quiet {outcome : Outcome} (h : outcome.Quiet) : (Point.done outcome).found = none := by
  cases outcome with
  | admitted token =>
    cases token with
    | none => rfl
    | some token => cases h
  | _ => rfl

theorem Token.isLiveAt_iff :
    token.isLiveAt now = true ↔ token.revokedAt = none ∧ now < token.expiresAt := by
  simp [Token.isLiveAt, Token.isLive]

theorem found_step (h : Does D s call point s' point') (hcall : call = .admitBearer bearer now)
    (hfnd : point'.found = some token) :
    point.found = some token ∨ point = .start ∧ ∃ held, s.tokenByHash (D.hashToken (trim bearer)) = some held ∧
      held.isLiveAt now = true ∧ (token = held ∨ token = { held with lastUsedAt := some now }) := by
  cases h with
  | stays => exact .inl hfnd
  | stops quiet =>
    rw [found_quiet quiet] at hfnd
    cases hfnd
  | admits found live =>
    obtain ⟨rfl, rfl⟩ := Call.admitBearer.inj hcall
    obtain rfl := some.inj hfnd
    exact .inr ⟨rfl, _, found, live, .inl rfl⟩
  | looksUp found live =>
    obtain ⟨rfl, rfl⟩ := Call.admitBearer.inj hcall
    obtain rfl := some.inj hfnd
    exact .inr ⟨rfl, _, found, live, .inr rfl⟩
  | lacks => exact .inl hfnd
  | touches => exact .inl hfnd
  | _ => cases hcall

theorem lookedUp_run (events : List Event) {i : ℕ} (ht : (run D events).threads[i]? = some t)
    (hcall : t.call = .admitBearer bearer now) (hfnd : t.point.found = some token) :
    LookedUp D events i bearer now token := by
  refine run_history (fun events i t => ∀ token, t.call = .admitBearer bearer now → t.point.found = some token →
    LookedUp D events i bearer now token) (fun i t h => ?_) (fun _ k token _ hfnd => ?_)
    (fun events e i t h token hcall hfnd => ?_) (fun events i t ht h token hcall hfnd => ?_)
    events i t ht token hcall hfnd
  · simp at h
  · cases hfnd
  · obtain ⟨before, after, held, secret, rfl, hrest⟩ := h token hcall hfnd
    exact ⟨before, after ++ [e], held, secret, by simp, hrest⟩
  · obtain ⟨k, point⟩ := t
    obtain rfl : k = .admitBearer bearer now := hcall
    rcases found_step (step_does D _ _ _) rfl hfnd with hfnd | ⟨hpt, held, hheld, hlive, htok⟩
    · obtain ⟨before, after, held, secret, rfl, hrest⟩ := h token rfl hfnd
      exact ⟨before, after ++ [.turn i], held, secret, by simp, hrest⟩
    · obtain rfl : point = .start := hpt
      obtain ⟨hunrevoked, hunexpired⟩ := Token.isLiveAt_iff.1 hlive
      obtain ⟨id, hget, hhash⟩ := tokenByHash_some hheld
      obtain ⟨secret, hissues, hsecret⟩ := secret_of_held hget
      exact ⟨events, [], held, secret, rfl, ht, hheld, hunrevoked, hunexpired, hissues, hsecret.symm.trans hhash,
        htok⟩

/-! ## Revocation is final -/

/-- Over any calls and turns: a revoke that found the bearer's token has shut the bearer out of
every admit made after it completed, and one made after the token was issued does find it; the
time a token was first revoked at stays; and an admit returns only a token that its lookup
found issued, unrevoked and unexpired. -/
theorem found_revocation_is_final (D : Digests) (before after : List Event)
    (distinct : (run D (before ++ after)).calls.Pairwise (Call.HashesApart D)) :
    (∀ (i j : ℕ) r t bearer bearer' now now' token outcome, (run D before).threads[i]? = some r →
      r.call = .revoke bearer now → r.point = .done (.revoked (some token)) → (run D before).Later j →
      (run D (before ++ after)).threads[j]? = some t → t.call = .admitBearer bearer' now' →
      trim bearer' = trim bearer → t.point = .done outcome → outcome = .admitted none) ∧
    (∀ (i j : ℕ) t r req now secret id ask put issued bearer now' found, (run D before).threads[i]? = some t →
      t.call = .token req now secret id → t.point = .done (.issued ask put issued) → (run D before).Later j →
      (run D (before ++ after)).threads[j]? = some r → r.call = .revoke bearer now' → trim bearer = secret →
      r.point = .done (.revoked found) → found ≠ none) ∧
    (∀ id token revokedAt, (run D before).shared.tokens.get? id = some token → token.revokedAt = some revokedAt →
      ∃ token',
        (run D (before ++ after)).shared.tokens.get? id = some token' ∧ token'.revokedAt = some revokedAt) ∧
    ∀ (i : ℕ) t bearer now token, (run D (before ++ after)).threads[i]? = some t →
      t.call = .admitBearer bearer now → t.point = .done (.admitted (some token)) →
      token.revokedAt = none ∧ now < token.expiresAt ∧ LookedUp D (before ++ after) i bearer now token := by
  refine ⟨?_, ?_, ?_, ?_⟩
  · intro i j r t bearer bearer' now now' token outcome hr hrevoke hdone hlater ht hadmits hbearer hpt
    have hrev := (heldOk_run D before hr).revoked hrevoke hdone
    rcases admit_after_revoked hrev distinct hlater ht hadmits hbearer with hstart | hnone
    · rw [hstart] at hpt
      cases hpt
    · exact Point.done.inj (hpt.symm.trans hnone)
  · rintro i j t r req now secret id ask put issued bearer now' found ht htok hiss hlater hr hrevoke rfl
      hpt rfl
    have hheld := (heldOk_run D before ht).issued hiss
    have hhash : D.hashToken (trim bearer) = put.hash := by
      obtain ⟨req', now'', secret', id', verifier, hcall, hmade, -⟩ :=
        grants_run D before ht ask put (by rw [hiss]; rfl)
      obtain ⟨rfl, rfl, rfl, rfl⟩ := Call.token.inj (htok.symm.trans hcall)
      exact (tokenOf_ok hmade).hash.symm
    rcases revoke_after_held hheld distinct hlater hr hrevoke hhash with hstart | ⟨token, hfnd | hfnd⟩
    · rw [hstart] at hpt
      cases hpt
    · rw [hfnd] at hpt
      cases hpt
    · rw [hfnd] at hpt
      cases hpt
  · intro id token revokedAt hget hat
    obtain ⟨token', hget', -, hkept⟩ := tokens_run before after hget
    exact ⟨token', hget', (hkept (by rw [hat]; exact nofun)).trans hat⟩
  · intro i t bearer now token ht hadmits hpt
    have hlooked := lookedUp_run (before ++ after) ht hadmits (by rw [hpt]; rfl)
    refine ⟨?_, ?_, hlooked⟩
    · obtain ⟨_, _, held, _, -, -, -, hunrevoked, -, -, -, rfl | rfl⟩ := hlooked <;> exact hunrevoked
    · obtain ⟨_, _, held, _, -, -, -, -, hunexpired, -, -, rfl | rfl⟩ := hlooked <;> exact hunexpired

/-- A bearer is let in, and revoked between the lookup and the touch of that admit. -/
def revokedInBetween : List Event :=
  letIn ++ [.call (.admitBearer "secret".toList 4), .turn 4, .call (.revoke "secret".toList 5), .turn 5, .turn 5,
    .turn 4]

theorem found_revocation_is_final_in_between : ∃ t token,
    (run ⟨id, id⟩ revokedInBetween).threads[4]?.map (·.point) = some (.done (.admitted (some token))) ∧
    (run ⟨id, id⟩ (revokedInBetween ++ [.call (.admitBearer "secret".toList 6), .turn 6])).threads[6]? = some t ∧
    t.point = .done (.admitted none) := by
  have distinct :
    (run ⟨id, id⟩ (revokedInBetween ++ [.call (.admitBearer "secret".toList 6), .turn 6])).calls.Pairwise
      (Call.HashesApart ⟨id, id⟩) := by
    decide +kernel
  have hlen : (run ⟨id, id⟩ revokedInBetween).threads.length = 6 := by decide +kernel
  have hlater : (run ⟨id, id⟩ revokedInBetween).Later 6 := fun u hu => by
    rw [List.getElem?_eq_none (by omega)] at hu
    cases hu
  have hfin := (found_revocation_is_final ⟨id, id⟩ revokedInBetween _ distinct).1 5 6 _ _ "secret".toList
    "secret".toList 5 6 _ _ rfl rfl rfl hlater rfl rfl rfl rfl
  exact ⟨_, _, rfl, rfl, congrArg Point.done hfin⟩

/-- A revoke of a secret that the token call has drawn and not yet disclosed. -/
def revokedEarly : List Event := redeemed ++ [.call (.revoke "secret".toList 4), .turn 4, .turn 3]

/-- It does nothing: an admit made after it completed lets the bearer in. -/
theorem early_revoke_does_nothing :
    (run ⟨id, id⟩ (revokedEarly ++ [.call (.admitBearer "secret".toList 5), .turn 5, .turn 5])).calls.Pairwise
      (Call.HashesApart ⟨id, id⟩) ∧
    (run ⟨id, id⟩ revokedEarly).threads[4]? = some ⟨.revoke "secret".toList 4, .done (.revoked none)⟩ ∧
    (run ⟨id, id⟩ revokedEarly).threads.length = 5 ∧
    ∃ token,
      (run ⟨id, id⟩ (revokedEarly ++ [.call (.admitBearer "secret".toList 5), .turn 5, .turn 5])).threads[5]? =
      some ⟨.admitBearer "secret".toList 5, .done (.admitted (some token))⟩ :=
  ⟨by decide +kernel, rfl, by decide +kernel, _, rfl⟩

end ProxyNode.OAuth
