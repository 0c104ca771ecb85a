import ProxyNode.Spec.AskProof

/-! The nonces of signed asks: each check of an ask that carries a proof notes its nonce, and
says whether it was there. -/

namespace ProxyNode.OAuth

def nonceMemorySecs : ℕ := 24 * 60 * 60

structure NonceRow where
  keyId : Text
  seenAt : ℤ
deriving DecidableEq

/-- The table `ask_nonces`, by its unique key. -/
abbrev AskNonces := SortedMap Text NonceRow

def AskNonces.remembered (nonces : AskNonces) (now : ℤ) : AskNonces :=
  nonces.retain fun _ row => ¬ row.seenAt < now - nonceMemorySecs

def AskNonces.firstSighting (nonces : AskNonces) (nonce keyId : Text) (nowSecs : ℕ) : AskNonces × Bool :=
  -- the column is an `i64`
  let now : ℤ := min nowSecs (2 ^ 63 - 1)
  let kept := nonces.remembered now
  if (kept.get? nonce).isSome then (kept, false) else (kept.insert nonce ⟨keyId, now⟩, true)

structure AskCheck where
  nowSecs : ℕ
  keys : KeyBook
  ask : Ask
  here : Text
  party : PartyScope

variable (P : AskCrypto)

def AskCheck.run (check : AskCheck) (nonces : AskNonces) : AskNonces × Option (AskProof × Bool) :=
  match verifyPartyAskSignature P check.nowSecs check.keys check.ask check.here check.party with
  | .ok (_, some proof) =>
    let (nonces, first) := nonces.firstSighting proof.nonce proof.keyId check.nowSecs
    (nonces, some (proof, first))
  | _ => (nonces, none)

def admittedProofs (nonces : AskNonces) : List AskCheck → List AskProof
  | [] => []
  | check :: checks =>
    (match (check.run P nonces).2 with
      | some (proof, true) => [proof]
      | _ => []) ++ admittedProofs (check.run P nonces).1 checks

end ProxyNode.OAuth
