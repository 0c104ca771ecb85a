import ProxyNode.Proofs.SignedAsk
import ProxyNode.Sanity.AskWords

/-! An ask that is signed honestly verifies: the words of its scope survive the normalizer, the
two sides build the same text, and the sender's address is read back from it. -/

namespace ProxyNode.OAuth

open Text List

/-! ## The sender's address -/

theorem canonical_user {u : Text} (h : normalizeUser u = .ok u) : AgentAddress.Canonical ⟨u, none⟩ :=
  ⟨normalizeUser_isUserName h, nofun⟩

theorem host_chars {u : Text} (h : normalizeUser u = .ok u) :
    ∀ c ∈ AgentAddress.host ⟨u, none⟩, isWhitespace c = false ∧ c ≠ ';' := by
  intro c hc
  rcases (canonical_user h).host_chars c hc with hname | rfl
  · obtain ⟨-, hblk, -, -, hsemi, -⟩ := isNameChar_cases hname
    exact ⟨hblk, hsemi⟩
  · decide

theorem parse_host {u : Text} (h : normalizeUser u = .ok u) :
    AgentAddress.parse (AgentAddress.host ⟨u, none⟩) = .ok ⟨u, none⟩ := by
  have hparse := (canonical_user h).parse_display
  rwa [AgentAddress.display, append_nil] at hparse

/-! ## The scope -/

theorem normalizeScope_purposes {s : Text} {purposes : List Text} (hwds : splitWhitespace s = purposes)
    (hne : purposes ≠ []) (h : ∀ w ∈ purposes, isFamily w = false ∧ isPurpose w = true) (hnd : purposes.Nodup) :
    ∃ n, normalizeScope (some s) = .ok n ∧ splitWhitespace n = purposes := by
  have hasked : askedWords s = purposes := by
    rw [askedWords, if_neg, hwds]
    rw [← splitWhitespace_eq_nil_iff, hwds]
    exact hne
  have hkn : ∀ w ∈ askedWords s, isFamily w = true ∨ isPurpose w = true := fun w hw =>
    Or.inr (h w (hasked ▸ hw)).2
  have hfams : sortedFamilies purposes = [] := by
    rw [eq_nil_iff_forall_not_mem]
    intro w hw
    obtain ⟨hmem, hfam⟩ := mem_sortedFamilies.1 hw
    rw [(h w hmem).1] at hfam
    cases hfam
  have hpurs : sortedPurposes purposes = purposes := by
    have hbetween := @sortedPurposes_between [] purposes [] (by simp) (fun w hw => (h w hw).1) hnd (by simp)
    rwa [nil_append, append_nil] at hbetween
  refine ⟨_, normalizeScope_of_known hkn, ?_⟩
  have hprt := (scopeParts_sorted _ askedWords_solid hkn).words
  rw [hprt, hasked, hfams, hpurs, nil_append]

theorem purpose_of_colon {front rest : Text} (hcol : ':' ∈ front) (hhead : front.head? ≠ some ':') :
    isFamily (front ++ rest) = false ∧ isPurpose (front ++ rest) = true := by
  have hfams : ∀ w ∈ families, ':' ∉ w := by decide
  have hmem : ':' ∈ front ++ rest := mem_append_left _ hcol
  constructor
  · rw [isFamily, Bool.eq_false_iff, ne_eq, contains_iff_mem]
    exact fun hfam => hfams _ hfam hmem
  · rw [isPurpose, Bool.and_eq_true, contains_iff_mem, bne_iff_ne]
    refine ⟨hmem, ?_⟩
    cases front with
    | nil => cases hcol
    | cons c front => exact hhead

/-! ## The ask -/

variable {P : AskCrypto}

def seatProof (identity : AskIdentity P) (here : Text) (party : PartyScope) (ask : Ask) (now : ℕ)
    (random : Bytes 16) : AskProof :=
  signWithIdentity identity ⟨recipient here party.agent, party.host, kindSeat, party.toScope, ask.redirectUri,
    ask.codeChallenge⟩ now random

theorem Part.toAsciiLowercase {t : Text} (h : Part t) : Part (toAsciiLowercase t) := by
  refine ⟨h.solid.toAsciiLowercase, fun hmem => ?_⟩
  obtain ⟨c, hc, heq⟩ := mem_map.1 hmem
  exact h.separator (eq_of_toLower_eq (by decide) heq ▸ hc)

theorem part_recipient {here agent : Text} (hhere : Part here) (hag : Part agent) :
    Part (recipient here agent) := by
  have hsl : Part ['/'] := by
    refine ⟨fun c hc => ?_, by decide⟩
    rw [mem_singleton.1 hc]
    decide
  rw [recipient, hhere.solid.trim, hag.solid.trim, ← singleton_append]
  exact hhere.toAsciiLowercase.append (hsl.append hag.toAsciiLowercase)

variable {party : PartyScope}

theorem seatProof_written (identity : AskIdentity P) {here : Text} (hhere : Part here)
    (hag : Part party.agent) (ask : Ask) (now : ℕ) (random : Bytes 16) :
    (seatProof identity here party ask now random).Written where
  keyId := isKeyId_toHex identity.deviceId
  «to» := ⟨part_recipient hhere hag, by simp [seatProof, signWithIdentity, recipient]⟩
  expiresAt := Nat.mod_lt _ (by decide)
  nonce := isNonce_encodeHex random
  signature := by
    have hne : ∀ bytes : Bytes 64, bytes.1 ≠ [] := by
      rintro ⟨bytes, hlen⟩ rfl
      cases hlen
    exact ⟨part_encodeBase64Url _, encodeBase64Url_ne_nil (hne _)⟩

theorem scope_words {proof : AskProof} (hprf : proof.Written) (hpty : party.Written) {words : List Text}
    (h : words = [proof.toWord, party.toScope] ∨ words = [party.toScope, proof.toWord]) :
    words.findSome? PartyScope.parse = some party ∧
      words.find? (fun word => (PartyScope.parse word).isSome) = some party.toScope ∧
      words.filter proofPrefix.isPrefixOf = [proof.toWord] := by
  have hnoParty : PartyScope.parse proof.toWord = none := by
    have hne : proof.toWord ≠ [] := by
      rw [proof.toWord_eq]
      exact cons_ne_nil _ _
    rw [PartyScope.parse, splitWhitespace_of_solid hprf.solid hne, proof.toWord_eq]
    rfl
  have hnoProof : proofPrefix.isPrefixOf party.toScope = false := by
    rw [party.toScope_eq]
    rfl
  have hstarts : proofPrefix.isPrefixOf proof.toWord = true := by
    rw [proof.toWord_eq, isPrefixOf_iff_prefix]
    exact prefix_append _ _
  rcases h with rfl | rfl <;> simp [hnoParty, hpty.parse, hnoProof, hstarts]

/-- The two words are purposes, so the normalizer keeps them. -/
theorem normalizeScope_signed {proof : AskProof} {s : Text}
    (h : splitWhitespace s = [proof.toWord, party.toScope] ∨ splitWhitespace s = [party.toScope, proof.toWord]) :
    ∃ n, normalizeScope (some s) = .ok n ∧
      (scopeWords (some n) = [proof.toWord, party.toScope] ∨
        scopeWords (some n) = [party.toScope, proof.toWord]) := by
  have hprf : isFamily proof.toWord = false ∧ isPurpose proof.toWord = true := by
    rw [proof.toWord_eq]
    exact purpose_of_colon (by decide) (by decide)
  have hpty : isFamily party.toScope = false ∧ isPurpose party.toScope = true := by
    rw [party.toScope_eq]
    exact purpose_of_colon (by decide) (by decide)
  have hdiffer : proof.toWord ≠ party.toScope := by
    rw [proof.toWord_eq, party.toScope_eq]
    intro heq
    have hhead : some 'a' = some 'p' := congrArg head? heq
    exact absurd hhead (by decide)
  rcases h with hwds | hwds
  · obtain ⟨n, hnorm, hn⟩ := normalizeScope_purposes hwds (cons_ne_nil _ _)
      (by simp [hprf, hpty]) (by simp [hdiffer])
    exact ⟨n, hnorm, .inl hn⟩
  · obtain ⟨n, hnorm, hn⟩ := normalizeScope_purposes hwds (cons_ne_nil _ _)
      (by simp [hprf, hpty]) (by simp [hdiffer.symm])
    exact ⟨n, hnorm, .inr hn⟩

/-- An ask that was signed honestly, and whose scope has its two words in either order, verifies
from a minute before it was signed until it expires, while the checker's clock has room. -/
theorem honest_ask_verifies (identity : AskIdentity P) {keys : KeyBook} {u here : Text} {party : PartyScope}
    (hu : normalizeUser u = .ok u) (hkeys : keys u (toHex identity.deviceId).toList = .ok (some identity.sec1))
    (hhere : Part here) (hhost : party.host = AgentAddress.host ⟨u, none⟩) (htitle : trim party.title ≠ [])
    (hconversation : Part party.conversationId ∧ party.conversationId ≠ []) (hag : Part party.agent)
    (hloadout : Part party.loadout) (ask : Ask) (random : Bytes 16) {t₀ t : ℕ} (hearly : t₀ ≤ t + clockSkewSecs)
    (hlate : t ≤ t₀ + askLifetimeSecs) (hroom : t + askLifetimeSecs + clockSkewSecs < 2 ^ 64) {s : Text}
    (hscope : splitWhitespace s = [(seatProof identity here party ask t₀ random).toWord, party.toScope] ∨
      splitWhitespace s = [party.toScope, (seatProof identity here party ask t₀ random).toWord]) :
    ∃ n, normalizeScope (some s) = .ok n ∧ partyScopeOf (some n) = some party ∧
      verifyPartyAskSignature P t keys { ask with scope := some n } here party =
        .ok (.verified (AgentAddress.host ⟨u, none⟩) (toHex identity.deviceId).toList,
          some (seatProof identity here party ask t₀ random)) := by
  generalize hprf : seatProof identity here party ask t₀ random = proof
  have hwritten := seatProof_written identity hhere hag ask t₀ random
  have hexpiry : proof.expiresAt = t₀ + askLifetimeSecs := by
    rw [← hprf]
    exact Nat.mod_eq_of_lt (by simp only [clockSkewSecs, askLifetimeSecs] at *; omega)
  rw [hprf] at hscope hwritten
  have hpty : party.Written := by
    refine ⟨hconversation, htitle, ?_, hag, hloadout⟩
    rw [hhost]
    exact ⟨fun c hc => (host_chars hu c hc).1, fun hc => (host_chars hu _ hc).2 rfl⟩
  obtain ⟨n, hnorm, hwds⟩ := normalizeScope_signed hscope
  obtain ⟨hof, hword, hfil⟩ := scope_words hwritten hpty hwds
  refine ⟨n, hnorm, hof, ?_⟩
  have hcarried : proofIn (some n) = some (.ok proof) := by
    rw [proofIn, hfil]
    exact congrArg some hwritten.parse
  have hsnd : senderOf party = some ⟨u, none⟩ := by
    rw [senderOf, hhost, parse_host hu]
    exact if_pos ⟨rfl, rfl⟩
  have hkeyId : proof.keyId = (toHex identity.deviceId).toList := by rw [← hprf]; rfl
  generalize hmessage : payload ⟨proof.to, party.host, kindSeat, party.toScope, ask.redirectUri,
      ask.codeChallenge⟩ proof.keyId proof.expiresAt proof.nonce = message
  obtain ⟨signature, hsig, hver⟩ := identity.verifies message
  have hsigned : proof.signature = encodeBase64Url (identity.sign message).1 := by
    rw [← hmessage, ← hprf]
    rfl
  rw [← hsigned] at hsig
  rw [← hmessage] at hver
  rw [← hkeyId] at hkeys ⊢
  have hlong : proof.expiresAt ≤ (t + askLifetimeSecs + clockSkewSecs) % 2 ^ 64 := by
    rw [Nat.mod_eq_of_lt hroom]
    omega
  exact verify_signed hcarried (by rw [← hprf]; rfl) (by omega) hlong hsnd hword hsig hkeys
    (identity.keyId.trans hkeyId.symm) identity.decodes hver

/-! ## A seat for amy -/

def openCrypto : AskCrypto where
  Key := Unit
  Signature := Unit
  keyIdOf := fun _ => List.replicate 64 '0'
  keyOfSec1 := fun _ => some ()
  signatureOf := fun _ => some ()
  verify := fun _ _ _ => true

def openIdentity : AskIdentity openCrypto where
  sec1 := []
  deviceId := ⟨List.replicate 32 0, by decide⟩
  keyId := by decide
  key := ()
  decodes := rfl
  sign := fun _ => ⟨List.replicate 64 0, by decide⟩
  verifies := fun _ => ⟨(), rfl, rfl⟩

def seatParty : PartyScope :=
  ⟨"p".toList, "Tea & cake".toList, "amy.proxy.ing".toList, "Proxy".toList, "default".toList⟩

def amySeat (t₀ : ℕ) : AskProof :=
  seatProof openIdentity "Bob.proxy.ing".toList seatParty (askWith []) t₀ ⟨List.replicate 16 0, by decide⟩

theorem amy_seat_verifies :
    ∃ n, normalizeScope (some ((amySeat 100).toWord ++ ' ' :: seatParty.toScope)) = .ok n ∧
      partyScopeOf (some n) = some seatParty ∧
      verifyPartyAskSignature openCrypto 700 (fun _ _ => .ok (some [])) (askWith n) "Bob.proxy.ing".toList
          seatParty =
        .ok (.verified "amy.proxy.ing".toList (List.replicate 64 '0'), some (amySeat 100)) :=
  have hpart : ∀ t : Text, t.all (fun c => !isWhitespace c && c != ';') = true → Part t := by
    intro t ht
    rw [List.all_eq_true] at ht
    exact ⟨fun c hc => by simpa using (Bool.and_eq_true_iff.1 (ht c hc)).1,
      fun hc => absurd (ht _ hc) (by decide)⟩
  honest_ask_verifies openIdentity (u := "amy".toList) (by decide) rfl (hpart _ (by decide)) (by decide)
    (by decide) ⟨hpart _ (by decide), by decide⟩ (hpart _ (by decide)) (hpart _ (by decide)) (askWith [])
    ⟨List.replicate 16 0, by decide⟩ (by decide) (by decide) (by decide)
    (Or.inl (by decide +kernel))

/-- An ask signed in the last second a `u64` can count has expired when it is signed. -/
theorem last_second_has_expired :
    (amySeat (2 ^ 64 - 1)).expiresAt = 599 ∧
      verifyPartyAskSignature openCrypto (2 ^ 64 - 1) (fun _ _ => .ok (some []))
        (askWith ((amySeat (2 ^ 64 - 1)).toWord ++ ' ' :: seatParty.toScope)) "Bob.proxy.ing".toList seatParty =
        .error .expired ∧
      normalizeScope (some ((amySeat (2 ^ 64 - 1)).toWord ++ ' ' :: seatParty.toScope)) =
        .ok ((amySeat (2 ^ 64 - 1)).toWord ++ ' ' :: seatParty.toScope) := by
  decide +kernel

end ProxyNode.OAuth
