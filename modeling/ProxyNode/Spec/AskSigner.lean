import ProxyNode.Spec.AskProof
import ProxyNode.Spec.Op

/-! The sender's side of a signed ask: the words of its scope as they are written, and the proof
an identity signs. -/

namespace ProxyNode.OAuth

open Text

def PartyScope.toScope (party : PartyScope) : Text :=
  "party:".toList ++ party.conversationId ++ ";title=".toList ++ percentEncodeWith Char.isAlphanum party.title ++
    ";host=".toList ++ party.host ++ ";agents=".toList ++ party.agent ++ ";loadout=".toList ++ party.loadout

def AskProof.toWord (proof : AskProof) : Text :=
  proofPrefix ++ proofVersion ++ ";key=".toList ++ proof.keyId ++ ";to=".toList ++ proof.to ++ ";exp=".toList ++
    (toString proof.expiresAt).toList ++ ";nonce=".toList ++ proof.nonce ++ ";sig=".toList ++ proof.signature

def base64UrlDigits : List Char := "ABCDEFGHIJKLMNOPQRSTUVWXYZabcdefghijklmnopqrstuvwxyz0123456789-_".toList

def base64UrlDigit (n : ℕ) : Char := base64UrlDigits.getD n 'A'

def encodeBase64Url : List Byte → Text
  | [] => []
  | [a] => [base64UrlDigit (a.val / 4), base64UrlDigit (a.val % 4 * 16)]
  | [a, b] =>
    [base64UrlDigit (a.val / 4), base64UrlDigit (a.val % 4 * 16 + b.val / 16), base64UrlDigit (b.val % 16 * 4)]
  | a :: b :: c :: rest =>
    [base64UrlDigit (a.val / 4), base64UrlDigit (a.val % 4 * 16 + b.val / 16),
      base64UrlDigit (b.val % 16 * 4 + c.val / 64), base64UrlDigit (c.val % 64)] ++ encodeBase64Url rest

/-- An identity as far as asks need it: its public key, the digest that is its device id, and its
signatures. What it signs verifies under its key. -/
structure AskIdentity (P : AskCrypto) where
  sec1 : List Byte
  deviceId : Bytes 32
  keyId : P.keyIdOf sec1 = (toHex deviceId).toList
  key : P.Key
  decodes : P.keyOfSec1 sec1 = some key
  sign : Text → Bytes 64
  verifies : ∀ message, ∃ signature, P.signatureOf (encodeBase64Url (sign message).1) = some signature ∧
    P.verify key message signature = true

/-- Sign an ask; the nonce is of sixteen random bytes. -/
def signWithIdentity {P : AskCrypto} (identity : AskIdentity P) (fields : Signed) (now : ℕ) (random : Bytes 16) :
    AskProof :=
  let keyId := (toHex identity.deviceId).toList
  -- the sum is of `u64`s
  let expiresAt := (now + askLifetimeSecs) % 2 ^ 64
  let nonce := (encodeHex random.1).toList
  let signature := identity.sign (payload fields keyId expiresAt nonce)
  ⟨keyId, fields.to, expiresAt, nonce, encodeBase64Url signature.1⟩

end ProxyNode.OAuth
