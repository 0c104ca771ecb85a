import ProxyNode.Proofs.AddressForms
import ProxyNode.Sanity.AskChecks
import ProxyNode.Sanity.OAuthChecks
import ProxyNode.Sanity.Scopes

/-! What the signature of an ask binds. Two asks under one proof that both verify have the same
signed text, so the same redirect, the same challenge and the same party word. The other words
of their scopes are in no signed text: a family can be added to any signed ask and its proof
still verifies. -/

namespace ProxyNode.OAuth

open Text List

/-- An ask that `authorize` made for a registered client. -/
def Produced (ask : Ask) : Prop :=
  ∃ registration registeredAt clientId client req issuer now id,
    registeredClient registration registeredAt clientId = .ok client ∧
    askOf client req issuer now id = .ok ask

/-- A signature is of one message, and an id of one key. -/
structure AskCrypto.Ideal (P : AskCrypto) : Prop where
  oneMessage : ∀ key sig message message', P.verify key message sig = true → P.verify key message' sig = true →
    message = message'
  oneKey : ∀ bytes bytes', P.keyIdOf bytes = P.keyIdOf bytes' → bytes = bytes'

/-- The words of a scope that no signed text has: not the party word and not a proof. -/
def unsignedWords (scope : Option Text) : List Text :=
  (scopeWords scope).filter fun word => some word ≠ partyWord scope ∧ proofPrefix.isPrefixOf word = false

structure SameAsk (a b : Ask) : Prop where
  redirectUri : a.redirectUri = b.redirectUri
  codeChallenge : a.codeChallenge = b.codeChallenge
  words : ∀ word, word ∈ scopeWords a.scope ↔ word ∈ scopeWords b.scope

/-! ## What the check establishes -/

/-- The signed text of an ask, with the word of its scope that goes into it. -/
def signedText (ask : Ask) (party : PartyScope) (proof : AskProof) (word : Text) : Text :=
  payload ⟨proof.to, party.host, kindSeat, word, ask.redirectUri,
    ask.codeChallenge⟩ proof.keyId proof.expiresAt proof.nonce

structure Checked (P : AskCrypto) (ask : Ask) (party : PartyScope) (proof : AskProof) (word : Text) : Prop where
  carried : proofIn ask.scope = some (.ok proof)
  sender : senderOf party ≠ none
  named : partyWord ask.scope = some word
  signed : ∃ sig bytes key, P.signatureOf proof.signature = some sig ∧ P.keyIdOf bytes = proof.keyId ∧
    P.keyOfSec1 bytes = some key ∧ P.verify key (signedText ask party proof word) sig = true

variable {P : AskCrypto}

variable {ask : Ask} {party : PartyScope}

theorem verify_ok {nowSecs : ℕ} {keys : KeyBook} {here : Text} {address keyId : Text} {proof : Option AskProof}
    (h : verifyPartyAskSignature P nowSecs keys ask here party = .ok (.verified address keyId, proof)) :
    ∃ proof word, Checked P ask party proof word := by
  rcases verify_cases h with ⟨-, heq⟩ | ⟨proof', sender, hprf, hto, -, -, hsnd, hver⟩
  · cases heq
  · obtain ⟨-, word, sig, bytes, key, hword, hsig, hid, hkey, hsigned⟩ := verifyProof_ok hver
    refine ⟨proof', word, hprf, by rw [hsnd]; exact nofun, hword, sig, bytes, key, hsig, hid, hkey, ?_⟩
    rw [signedText, hto]
    exact hsigned

/-! ## One line each -/

theorem Solid.of_subset {t u : Text} (h : Solid t) (hsub : ∀ c ∈ u, c ∈ t) : Solid u := fun c hc => h c (hsub c hc)

theorem nameValue_solid {part : Text} (h : Solid part) : Solid (nameValue part).2 := by
  unfold nameValue splitOnce
  split_ifs
  · refine Solid.of_subset h fun c hc => ?_
    exact (dropWhile_sublist _).mem (mem_of_mem_tail hc)
  · exact nofun

theorem readParts_solid {parts : List Text} {slots slots' : List (Text × Text)}
    (h : AskProof.readParts parts slots = .ok slots') (hprt : ∀ part ∈ parts, Solid part)
    (hslots : ∀ e ∈ slots, Solid e.2) : ∀ e ∈ slots', Solid e.2 := by
  induction parts generalizing slots with
  | nil =>
    obtain rfl := Except.ok.inj h
    exact hslots
  | cons part parts ih =>
    have hrest : ∀ part ∈ parts, Solid part := fun p hp => hprt p (mem_cons_of_mem _ hp)
    have hval := nameValue_solid (hprt part mem_cons_self)
    rw [AskProof.readParts] at h
    obtain ⟨name, value⟩ := nameValue part
    dsimp only at h
    split_ifs at h
    · refine ih h hrest fun e he => ?_
      rcases mem_cons.1 he with rfl | he
      · exact hval
      · exact hslots e he
    · exact ih h hrest hslots

variable {word : Text} {proof : AskProof}

theorem parse_slots (h : AskProof.parse word = .ok proof) :
    ∃ rest slots, proofPrefix ++ rest = word ∧ AskProof.readParts (rest.splitOn ';').tail [] = .ok slots ∧
      slots.lookup "key".toList = some proof.keyId ∧ slots.lookup "to".toList = some proof.to ∧
      slots.lookup "nonce".toList = some proof.nonce := by
  unfold AskProof.parse at h
  split at h
  · cases h
  · rename_i rest hrest
    dsimp only at h
    split_ifs at h
    split at h
    · cases h
    · rename_i slots hslots
      refine ⟨rest, slots, isPrefixOf?_eq_some_iff_append_eq.1 hrest, hslots, ?_⟩
      -- the parts are looked for in this order
      split at h
      · cases h
      · rename_i keyId hkey
        split at h
        · cases h
        · rename_i addressee hto
          split at h
          · cases h
          · split at h
            · cases h
            · rename_i nonce hnonce
              split at h
              · cases h
              · obtain rfl := Except.ok.inj h
                exact ⟨(Option.filter_eq_some_iff.1 hkey).1, (Option.filter_eq_some_iff.1 hto).1,
                  (Option.filter_eq_some_iff.1 hnonce).1⟩

theorem proof_solid (h : AskProof.parse word = .ok proof) (hword : Solid word) :
    Solid proof.keyId ∧ Solid proof.to ∧ Solid proof.nonce := by
  obtain ⟨rest, slots, rfl, hslots, hkey, hto, hnonce⟩ := parse_slots h
  have hrest : Solid rest := Solid.of_subset hword fun c hc => mem_append_right _ hc
  have hall := readParts_solid hslots
    (fun part hpart => Solid.of_subset hrest fun c hc => (mem_of_splitOnP (mem_of_mem_tail hpart) c hc).1)
      nofun
  have hmem : ∀ {name value : Text}, slots.lookup name = some value → Solid value := fun {name value} hlook => by
    obtain ⟨before, after, rfl, -⟩ := lookup_eq_some_iff.1 hlook
    exact hall (name, value) (mem_append_right _ mem_cons_self)
  exact ⟨hmem hkey, hmem hto, hmem hnonce⟩

variable {scope : Option Text}

theorem proofIn_ok (h : proofIn scope = some (.ok proof)) :
    ∃ word, (scopeWords scope).filter proofPrefix.isPrefixOf = [word] ∧ AskProof.parse word = .ok proof := by
  unfold proofIn at h
  split at h
  · cases h
  · rename_i word hwds
    exact ⟨word, hwds, Option.some.inj h⟩
  · cases h

theorem scopeWords_solid (h : word ∈ scopeWords scope) : Solid word := by
  cases scope with
  | none => cases h
  | some scope => exact solid_of_mem_splitWhitespace h

theorem host_one_line (h : senderOf party ≠ none) : '\n' ∉ party.host := by
  unfold senderOf at h
  split at h
  · exact absurd rfl h
  · rename_i sender hsnd
    split_ifs at h with hsame
    · rw [← hsame.2, AgentAddress.host]
      intro hmem
      rcases (AgentAddress.canonical_of_parse hsnd).host_chars _ hmem with hchar | hchar
      · exact absurd hchar (by decide)
      · exact absurd hchar (by decide)
    · exact absurd rfl h

theorem toString_one_line (n : ℕ) : '\n' ∉ (toString n).toList := by
  exact fun hmem => absurd (isDigit_of_mem_toString hmem) (by decide)

theorem Produced.one_line (h : Produced ask) : '\n' ∉ ask.redirectUri ∧ '\n' ∉ ask.codeChallenge := by
  obtain ⟨registration, registeredAt, clientId, client, req, issuer, now, id, hcli, hask⟩ := h
  have hmade := (askOf_ok hask).1
  constructor
  · have halw := (registeredClient_ok hcli).2.2 _ hmade.redirectUri
    intro hmem
    have hwhite : (ask.redirectUri.any isWhitespace) = true := any_eq_true.2 ⟨'\n', hmem, newline_whitespace⟩
    simp [redirectUriIsAllowed, hwhite] at halw
  · have hformed := hmade.challenge
    simp only [codeChallengeIsWellFormed, Bool.and_eq_true, all_eq_true] at hformed
    intro hmem
    have hchar := hformed.2 _ hmem
    simp [isUnreserved] at hchar

theorem Checked.one_line (h : Checked P ask party proof word) (hask : Produced ask) :
    ∀ line ∈ payloadLines ⟨proof.to, party.host, kindSeat, word, ask.redirectUri, ask.codeChallenge⟩ proof.keyId
      proof.expiresAt proof.nonce, '\n' ∉ line := by
  obtain ⟨proofWord, hwds, hparse⟩ := proofIn_ok h.carried
  have hproofWord : proofWord ∈ (scopeWords ask.scope).filter proofPrefix.isPrefixOf := hwds ▸ mem_cons_self
  obtain ⟨hkey, hto, hnonce⟩ := proof_solid hparse (scopeWords_solid (mem_filter.1 hproofWord).1)
  have hword : Solid word := scopeWords_solid (mem_of_find?_eq_some h.named)
  have hhost := host_one_line h.sender
  have hexp := toString_one_line proof.expiresAt
  obtain ⟨hred, hchal⟩ := hask.one_line
  have happ : ∀ {name text : Text}, '\n' ∉ name → '\n' ∉ text → '\n' ∉ name ++ text := fun hn ht hmem =>
    (mem_append.1 hmem).elim hn ht
  intro line hline
  simp only [payloadLines, mem_cons, not_mem_nil, or_false] at hline
  rcases hline with rfl | rfl | rfl | rfl | rfl | rfl | rfl | rfl | rfl | rfl
  · decide
  · exact happ (by decide) hto.newline
  · exact happ (by decide) hhost
  · decide
  · exact happ (by decide) hkey.newline
  · exact happ (by decide) hexp
  · exact happ (by decide) hnonce.newline
  · exact happ (by decide) hword.newline
  · exact happ (by decide) hred
  · exact happ (by decide) hchal

/-! ## What is signed -/

variable {a b : Ask}

/-- The words, the redirect and the challenge can be read back from the signed text. -/
theorem signedText_inj {pa pb : PartyScope} {wa wb : Text} (ha : Produced a) (hb : Produced b)
    (hca : Checked P a pa proof wa) (hcb : Checked P b pb proof wb)
    (h : signedText a pa proof wa = signedText b pb proof wb) :
    wa = wb ∧ a.redirectUri = b.redirectUri ∧ a.codeChallenge = b.codeChallenge := by
  have hlines :=
    joinLines_inj (hca.one_line ha) (hcb.one_line hb) (by simp [payloadLines]) (by simp [payloadLines]) h
  simp only [payloadLines, cons.injEq, append_cancel_left_eq, and_true, true_and] at hlines
  exact ⟨hlines.2.1, hlines.2.2.1, hlines.2.2.2⟩

theorem Checked.same_text (hP : P.Ideal) {pa pb : PartyScope} {wa wb : Text} (ha : Checked P a pa proof wa)
    (hb : Checked P b pb proof wb) :
    signedText a pa proof wa = signedText b pb proof wb := by
  obtain ⟨sig, bytes, key, hsig, hid, hkey, hver⟩ := ha.signed
  obtain ⟨sig', bytes', key', hsig', hid', hkey', hver'⟩ := hb.signed
  obtain rfl := Option.some.inj (hsig.symm.trans hsig')
  obtain rfl := hP.oneKey bytes bytes' (hid.trans hid'.symm)
  obtain rfl := Option.some.inj (hkey.symm.trans hkey')
  exact hP.oneMessage key sig _ _ hver hver'

/-- The proof word of a scope that carries a proof is the only one. -/
theorem proof_of_word (h : proofIn scope = some (.ok proof)) (hword : word ∈ scopeWords scope)
    (hstarts : proofPrefix <+: word) : AskProof.parse word = .ok proof ∧
      ∀ w ∈ scopeWords scope, proofPrefix <+: w → w = word := by
  obtain ⟨proofWord, hwds, hparse⟩ := proofIn_ok h
  have honly : ∀ w ∈ scopeWords scope, proofPrefix <+: w → w = proofWord := fun w hw hp => by
    have hmem := mem_filter.2 ⟨hw, isPrefixOf_iff_prefix.2 hp⟩
    rw [hwds] at hmem
    exact mem_singleton.1 hmem
  obtain rfl := honly word hword hstarts
  exact ⟨hparse, honly⟩

theorem mem_unsignedWords : word ∈ unsignedWords scope ↔
    word ∈ scopeWords scope ∧ some word ≠ partyWord scope ∧ ¬ proofPrefix <+: word := by
  rw [unsignedWords, mem_filter, ← isPrefixOf_iff_prefix, decide_eq_true_eq, Bool.not_eq_true]

theorem SameAsk.unsignedWords (h : SameAsk a b) (hpty : partyWord a.scope = partyWord b.scope) (word : Text) :
    word ∈ unsignedWords a.scope ↔ word ∈ unsignedWords b.scope := by
  rw [mem_unsignedWords, mem_unsignedWords, h.words word, hpty]

theorem words_of_unsigned {party shared : Text} (ha : partyWord a.scope = some party)
    (hb : partyWord b.scope = some party) (hshared : shared ∈ scopeWords b.scope)
    (honly : ∀ w ∈ scopeWords a.scope, proofPrefix <+: w → w = shared)
    (h : ∀ word, word ∈ unsignedWords a.scope ↔ word ∈ unsignedWords b.scope) (hword : word ∈ scopeWords a.scope) :
    word ∈ scopeWords b.scope := by
  by_cases hprf : proofPrefix <+: word
  · exact honly word hword hprf ▸ hshared
  · by_cases hpty : word = party
    · subst hpty
      exact mem_of_find?_eq_some hb
    · have hunsg : word ∈ unsignedWords a.scope :=
        mem_unsignedWords.2 ⟨hword, fun hsome => hpty (Option.some.inj (hsome.trans ha)), hprf⟩
      exact (mem_unsignedWords.1 ((h word).1 hunsg)).1

/-- Two asks that verify under one proof word have the same redirect, challenge and party word,
and say the same exactly when the words that are not signed are the same. -/
theorem verified_asks_share_signed_parts (P : AskCrypto) (hP : P.Ideal) (a b : Ask) (ha : Produced a)
    (hb : Produced b)
    (shared : Text) (hstarts : proofPrefix <+: shared) (hsharedA : shared ∈ scopeWords a.scope)
    (hsharedB : shared ∈ scopeWords b.scope) (here : Text) (nowA nowB : ℕ) (keysA keysB : KeyBook)
    (partyA partyB : PartyScope) (addressA addressB keyIdA keyIdB : Text) (proofA proofB : Option AskProof)
    (hverifiedA : verifyPartyAskSignature P nowA keysA a here partyA = .ok (.verified addressA keyIdA, proofA))
    (hverifiedB : verifyPartyAskSignature P nowB keysB b here partyB = .ok (.verified addressB keyIdB, proofB)) :
    a.redirectUri = b.redirectUri ∧ a.codeChallenge = b.codeChallenge ∧ partyWord a.scope = partyWord b.scope ∧
      (SameAsk a b ↔ ∀ word, word ∈ unsignedWords a.scope ↔ word ∈ unsignedWords b.scope) := by
  obtain ⟨proof, wordA, hcheckedA⟩ := verify_ok hverifiedA
  obtain ⟨proof', wordB, hcheckedB⟩ := verify_ok hverifiedB
  obtain ⟨hparseA, honlyA⟩ := proof_of_word hcheckedA.carried hsharedA hstarts
  obtain ⟨hparseB, honlyB⟩ := proof_of_word hcheckedB.carried hsharedB hstarts
  obtain rfl := Except.ok.inj (hparseA.symm.trans hparseB)
  obtain ⟨rfl, hred, hchal⟩ :=
    signedText_inj ha hb hcheckedA hcheckedB (hcheckedA.same_text hP hcheckedB)
  have hpty : partyWord a.scope = partyWord b.scope := hcheckedA.named.trans hcheckedB.named.symm
  refine ⟨hred, hchal, hpty, ?_⟩
  constructor
  · intro hsame word
    exact hsame.unsignedWords hpty word
  · intro hunsg
    refine ⟨hred, hchal, fun word => ⟨fun hword => ?_, fun hword => ?_⟩⟩
    · exact words_of_unsigned hcheckedA.named hcheckedB.named hsharedB honlyA hunsg hword
    · exact words_of_unsigned hcheckedB.named hcheckedA.named hsharedA honlyB (fun w => (hunsg w).symm) hword

/-! ## What is not -/

theorem families_unsigned : ∀ w ∈ families, PartyScope.parse w = none ∧ proofPrefix.isPrefixOf w = false := by
  decide +kernel

/-- Of the words of a normalized scope, only its purposes count for the check. -/
theorem ScopeParts.checked_words {scope : Text} {known purposes : List Text}
    (h : ScopeParts scope known purposes) :
    partyScopeOf (some scope) = purposes.findSome? PartyScope.parse ∧
    partyWord (some scope) = purposes.find? (fun word => (PartyScope.parse word).isSome) ∧
    (scopeWords (some scope)).filter proofPrefix.isPrefixOf = purposes.filter proofPrefix.isPrefixOf := by
  have hwds : scopeWords (some scope) = known ++ purposes := h.words
  have hkn : ∀ w ∈ known, PartyScope.parse w = none ∧ proofPrefix.isPrefixOf w = false := fun w hw =>
    families_unsigned w (by simpa [isFamily] using h.areFamilies w hw)
  refine ⟨?_, ?_, ?_⟩
  · rw [partyScopeOf, hwds, findSome?_append, findSome?_eq_none_iff.2 fun w hw => (hkn w hw).1]
    rfl
  · rw [partyWord, hwds, find?_append, find?_eq_none.2 fun w hw => by simp [(hkn w hw).1]]
    rfl
  · rw [hwds, filter_append, filter_eq_nil_iff.2 fun w hw => by simp [(hkn w hw).2]]
    rfl

theorem verify_congr (hprf : proofIn a.scope = proofIn b.scope)
    (hpty : partyWord a.scope = partyWord b.scope) (hred : a.redirectUri = b.redirectUri)
    (hchal : a.codeChallenge = b.codeChallenge) (nowSecs : ℕ) (keys : KeyBook) (here : Text)
    (party : PartyScope) :
    verifyPartyAskSignature P nowSecs keys a here party = verifyPartyAskSignature P nowSecs keys b here party := by
  simp only [verifyPartyAskSignature, verifyProof, hprf, hpty, hred, hchal]

/-- Any family can be added to any ask: the check of the longer ask comes to the same. -/
theorem family_can_be_added (h : Produced ask) {family : Text} (hfam : isFamily family = true) :
    ∃ ask', Produced ask' ∧ (∀ word, word ∈ scopeWords ask'.scope ↔ word ∈ scopeWords ask.scope ∨ word = family) ∧
      partyScopeOf ask'.scope = partyScopeOf ask.scope ∧
      ∀ (P : AskCrypto) nowSecs keys here party, verifyPartyAskSignature P nowSecs keys ask' here party =
        verifyPartyAskSignature P nowSecs keys ask here party := by
  obtain ⟨registration, registeredAt, clientId, client, req, issuer, now, id, hcli, hask⟩ := h
  obtain ⟨scope, hscope, hsome⟩ := (askOf_ok hask).1.scope
  obtain ⟨known, purposes, hprt⟩ := normalizeScope_parts hscope
  obtain ⟨scope', known', hscope', hprt', hkn'⟩ := normalizeScope_add_family hprt hfam
  obtain ⟨hof, hword, hproofs⟩ := hprt.checked_words
  obtain ⟨hof', hword', hproofs'⟩ := hprt'.checked_words
  refine ⟨{ ask with scope := some scope' },
    ⟨registration, registeredAt, clientId, client, _, issuer, now, id, hcli,
    (askOf_ok hask).2 _ _ hscope'⟩, fun word => ?_, ?_, fun P nowSecs keys here party => ?_⟩
  · have hwds : scopeWords ask.scope = known ++ purposes := by
      rw [hsome]
      exact hprt.words
    have hwds' : scopeWords (some scope') = known' ++ purposes := hprt'.words
    rw [hwds, hwds', mem_append, mem_append, hkn']
    exact or_right_comm
  · rw [hsome, hof, hof']
  · apply verify_congr
    · rw [hsome, proofIn, proofIn, hproofs, hproofs']
    · rw [hsome, hword, hword']
    · rfl
    · rfl

/-! ## Asks of one sender -/

def signedOnce (message : Text) : AskCrypto where
  Key := Unit
  Signature := Unit
  keyIdOf := fun bytes => bytes.map fun b => Char.ofNat (48 + b.val)
  keyOfSec1 := fun _ => some ()
  signatureOf := fun _ => some ()
  verify := fun _ m _ => m = message

theorem signedOnce_ideal (message : Text) : (signedOnce message).Ideal where
  oneMessage := fun _ _ m m' h h' => (of_decide_eq_true h).trans (of_decide_eq_true h').symm
  oneKey := by
    have hspell : ∀ b : Byte, Fin.ofNat 256 ((Char.ofNat (48 + b.val)).toNat - 48) = b := by decide +kernel
    have hinj : Function.Injective fun b : Byte => Char.ofNat (48 + b.val) := fun b b' h => by
      rw [← hspell b, ← hspell b']
      exact congrArg (fun c : Char => Fin.ofNat 256 (c.toNat - 48)) h
    exact hinj.list_map

def partyText : Text := "party:p;host=amy.proxy.ing".toList

def proofText : Text :=
  "ask-proof:v1;key=".toList ++ List.replicate 64 '0' ++ ";to=bob.proxy.ing/proxy;exp=600;nonce=".toList ++
    List.replicate 32 '0' ++ ";sig=s".toList

def askWith (scope : Text) : Ask where
  id := "ask".toList
  clientId := "client".toList
  clientName := "app".toList
  issuer := "https://bob.proxy.ing".toList
  redirectUri := "https://x/cb".toList
  scope := some scope
  state := none
  codeChallenge := List.replicate 43 'a'
  askedAt := 1
  code := none
  codeIssuedAt := none
  codeUsed := false

def requestWith (scope : Text) : AuthorizeRequest where
  responseType := some "code".toList
  clientId := some "client".toList
  redirectUri := some "https://x/cb".toList
  scope := some scope
  state := none
  codeChallenge := some (List.replicate 43 'a')
  codeChallengeMethod := none

theorem askWith_produced {scope : Text} (h : normalizeScope (some scope) = .ok scope) :
    Produced (askWith scope) := by
  refine ⟨⟨some "app".toList, ["https://x/cb".toList]⟩, 0, "client".toList, ⟨"client".toList, "app".toList,
    ["https://x/cb".toList], 0⟩, requestWith scope, "https://bob.proxy.ing".toList, 1, "ask".toList, by
      decide +kernel, ?_⟩
  have hpl : askOf ⟨"client".toList, "app".toList, ["https://x/cb".toList], 0⟩ (requestWith defaultScope)
      "https://bob.proxy.ing".toList 1 "ask".toList = .ok (askWith defaultScope) := by
    decide +kernel
  exact (askOf_ok hpl).2 _ _ h

def amyParty : PartyScope :=
  ⟨"p".toList, "Untitled Party".toList, "amy.proxy.ing".toList, "proxy".toList, "default".toList⟩

def amyCrypto : AskCrypto :=
  signedOnce
    (payload ⟨"bob.proxy.ing/proxy".toList, "amy.proxy.ing".toList, kindSeat, partyText, "https://x/cb".toList,
    List.replicate 43 'a'⟩ (List.replicate 64 '0') 600 (List.replicate 32 '0'))

def amyKeys : KeyBook := fun _ _ => .ok (some (List.replicate 64 0))

def verifiedAmy : AskSender × Option AskProof :=
  (.verified "amy.proxy.ing".toList (List.replicate 64 '0'),
    some ⟨List.replicate 64 '0', "bob.proxy.ing/proxy".toList, 600, List.replicate 32 '0', "s".toList⟩)

def amyScope : Text := partyText ++ ' ' :: proofText

theorem amyScope_produced : Produced (askWith amyScope) := askWith_produced (by decide +kernel)

theorem amyScope_verified : verifyPartyAskSignature amyCrypto 100 amyKeys (askWith amyScope) "bob.proxy.ing".toList
    amyParty = .ok verifiedAmy := by
  decide +kernel

/-- Two asks with the words in another order. -/
theorem verified_asks_share_signed_parts_reordered :
    SameAsk (askWith amyScope) (askWith (proofText ++ ' ' :: partyText)) := by
  have hturned : verifyPartyAskSignature amyCrypto 500 amyKeys (askWith (proofText ++ ' ' :: partyText))
      "bob.proxy.ing".toList amyParty = .ok verifiedAmy := by
    decide +kernel
  refine (verified_asks_share_signed_parts amyCrypto (signedOnce_ideal _) _ _ amyScope_produced
    (askWith_produced (by decide +kernel)) proofText (by decide +kernel) (by decide +kernel) (by decide +kernel)
    "bob.proxy.ing".toList 100 500 amyKeys amyKeys amyParty amyParty _ _ _ _ _ _ amyScope_verified
      hturned).2.2.2.2 ?_
  have hnone : unsignedWords (askWith amyScope).scope =
    unsignedWords (askWith (proofText ++ ' ' :: partyText)).scope := by
    decide +kernel
  intro word
  rw [hnone]

/-- An ask that was signed without it gets the word `computer`, and still verifies. -/
theorem computer_added_to_signed_ask :
    amyCrypto.Ideal ∧ Produced (askWith amyScope) ∧ Produced (askWith ("computer ".toList ++ amyScope)) ∧
    verifyPartyAskSignature amyCrypto 100 amyKeys (askWith amyScope) "bob.proxy.ing".toList amyParty =
      .ok verifiedAmy ∧
    verifyPartyAskSignature amyCrypto 100 amyKeys (askWith ("computer ".toList ++ amyScope)) "bob.proxy.ing".toList
      amyParty = .ok verifiedAmy ∧
    partyScopeOf (askWith amyScope).scope = some amyParty ∧
    partyScopeOf (askWith ("computer ".toList ++ amyScope)).scope = some amyParty ∧
    scopeWords (askWith amyScope).scope = [partyText, proofText] ∧
    scopeWords (askWith ("computer ".toList ++ amyScope)).scope = ["computer".toList, partyText, proofText] :=
  ⟨signedOnce_ideal _, amyScope_produced, askWith_produced (by decide +kernel),
    amyScope_verified, by decide +kernel,
    by decide +kernel, by decide +kernel, by decide +kernel, by decide +kernel⟩

end ProxyNode.OAuth
