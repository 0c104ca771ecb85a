import ProxyNode.Spec.AskProof

/-! What a check of an ask's signature that succeeds has found. -/

namespace ProxyNode.OAuth

variable {P : AskCrypto} {keys : KeyBook} {ask : Ask} {party : PartyScope}

variable {result : AskSender × Option AskProof}

theorem verifyProof_ok {proof : AskProof} {addressee : Text} {sender : AgentAddress}
    (h : verifyProof P keys ask party proof addressee sender = .ok result) :
    result = (.verified sender.host proof.keyId, some proof) ∧
      ∃ word sig bytes key, partyWord ask.scope = some word ∧ P.signatureOf proof.signature = some sig ∧
        P.keyIdOf bytes = proof.keyId ∧ P.keyOfSec1 bytes = some key ∧
        P.verify key (payload ⟨addressee, party.host, kindSeat, word, ask.redirectUri, ask.codeChallenge⟩
          proof.keyId proof.expiresAt proof.nonce) sig = true := by
  unfold verifyProof at h
  cases hword : partyWord ask.scope with
  | none => simp [hword] at h
  | some word =>
    cases hsig : P.signatureOf proof.signature with
    | none => simp [hword, hsig] at h
    | some sig =>
      simp only [hword, hsig] at h
      split at h
      · cases h
      · cases h
      · rename_i bytes hkeys
        split_ifs at h with hid
        cases hkey : P.keyOfSec1 bytes with
        | none => simp [hkey] at h
        | some key =>
          simp only [hkey] at h
          split_ifs at h with hver
          exact ⟨(Except.ok.inj h).symm, word, sig, bytes, key, rfl, rfl, by simpa using hid, hkey, hver⟩

/-- An ask passes unsigned, or with a proof for this recipient that is live. -/
theorem verify_cases {nowSecs : ℕ} {here : Text}
    (h : verifyPartyAskSignature P nowSecs keys ask here party = .ok result) :
    (proofIn ask.scope = none ∧ result = (.unsigned party.host, none)) ∨
      ∃ proof sender, proofIn ask.scope = some (.ok proof) ∧ proof.to = recipient here party.agent ∧
        nowSecs ≤ proof.expiresAt ∧ proof.expiresAt ≤ nowSecs + askLifetimeSecs + clockSkewSecs ∧
        senderOf party = some sender ∧
        verifyProof P keys ask party proof (recipient here party.agent) sender = .ok result := by
  unfold verifyPartyAskSignature at h
  split at h
  · next hnone =>
    split_ifs at h
    exact .inl ⟨hnone, (Except.ok.inj h).symm⟩
  · cases h
  · next proof hprf =>
    dsimp only at h
    split_ifs at h with hto hexp hlong
    cases hsnd : senderOf party with
    | none => simp [hsnd] at h
    | some sender =>
      simp only [hsnd] at h
      exact .inr ⟨proof, sender, hprf, not_not.1 hto, Nat.not_lt.1 hexp,
        (Nat.not_lt.1 hlong).trans (Nat.mod_le _ _), rfl, h⟩

/-- A proof for this recipient that is live passes if its signature verifies under the sender's key. -/
theorem verify_signed {nowSecs : ℕ} {here : Text} {proof : AskProof} {sender : AgentAddress} {word : Text}
    {sig : P.Signature} {bytes : List Byte} {key : P.Key} (hprf : proofIn ask.scope = some (.ok proof))
    (hto : proof.to = recipient here party.agent) (hlive : nowSecs ≤ proof.expiresAt)
    (hlong : proof.expiresAt ≤ (nowSecs + askLifetimeSecs + clockSkewSecs) % 2 ^ 64)
    (hsnd : senderOf party = some sender) (hword : partyWord ask.scope = some word)
    (hsig : P.signatureOf proof.signature = some sig)
    (hkeys : keys sender.user proof.keyId = .ok (some bytes)) (hid : P.keyIdOf bytes = proof.keyId)
    (hkey : P.keyOfSec1 bytes = some key)
    (hver : P.verify key (payload ⟨proof.to, party.host, kindSeat, word, ask.redirectUri, ask.codeChallenge⟩
      proof.keyId proof.expiresAt proof.nonce) sig = true) :
    verifyPartyAskSignature P nowSecs keys ask here party =
      .ok (.verified sender.host proof.keyId, some proof) := by
  rw [hto] at hver
  rw [verifyPartyAskSignature, hprf]
  dsimp only
  rw [if_neg (not_not.2 hto), if_neg (Nat.not_lt.2 hlive), if_neg (Nat.not_lt.2 hlong), hsnd]
  dsimp only
  rw [verifyProof, hword]
  dsimp only
  rw [hsig, hkeys]
  dsimp only
  rw [if_neg (not_not.2 hid), hkey]
  dsimp only
  rw [if_pos hver]

end ProxyNode.OAuth
