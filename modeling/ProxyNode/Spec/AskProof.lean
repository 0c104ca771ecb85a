import ProxyNode.Base.Wire
import ProxyNode.Spec.Address
import ProxyNode.Spec.OAuth

/-! Signed asks: the party word and the proof word of an ask's scope, the text that is signed,
and the check of the signature. -/

namespace ProxyNode.OAuth

open Text

def proofPrefix : Text := "ask-proof:".toList

def proofVersion : Text := "v1".toList

def payloadVersion : Text := "proxy.ing-ask-v1".toList

def kindSeat : Text := "seat".toList

def askLifetimeSecs : ℕ := 10 * 60

def clockSkewSecs : ℕ := 60

def unsignedAsksUntil : ℕ := 1793491200

/-! ## Party scopes -/

structure PartyScope where
  conversationId : Text
  title : Text
  host : Text
  agent : Text
  loadout : Text
deriving DecidableEq

def percentEncodeByteWith (keep : Char → Bool) (b : UInt8) : Text :=
  let c := Char.ofNat b.toNat
  if b.toNat < 128 && keep c then [c] else ['%', hexDigit (b.toNat / 16), hexDigit (b.toNat % 16)]

def percentEncodeWith (keep : Char → Bool) (t : Text) : Text :=
  (t.flatMap String.utf8EncodeChar).flatMap (percentEncodeByteWith keep)

def hexByte (b : UInt8) : Option UInt8 :=
  if 48 ≤ b ∧ b ≤ 57 then some (b - 48)
  else if 97 ≤ b ∧ b ≤ 102 then some (b - 87)
  else if 65 ≤ b ∧ b ≤ 70 then some (b - 55)
  else none

def percentDecode : List UInt8 → List UInt8
  | [] => []
  | b :: high :: low :: rest =>
    if b ≠ 37 then b :: percentDecode (high :: low :: rest)
    else match hexByte high, hexByte low with
      | some h, some l => (h * 16 + l) :: percentDecode rest
      | _, _ => b :: percentDecode (high :: low :: rest)
  | b :: rest => b :: percentDecode rest

def percentDecodeText (value : Text) : Option Text :=
  (String.fromUTF8? ⟨(percentDecode (value.flatMap String.utf8EncodeChar)).toArray⟩).map String.toList

def nameValue (part : Text) : Text × Text := (splitOnce '=' part).getD (part, [])

namespace PartyScope

def namedPart (parsed : PartyScope) (part : Text) : PartyScope :=
  let (name, value) := nameValue part
  let name := trim name
  if name = "title".toList then { parsed with title := (percentDecodeText value).getD value }
  else if name = "host".toList then { parsed with host := trim value }
  else if name = "agents".toList then { parsed with agent := trim value }
  else if name = "loadout".toList then { parsed with loadout := trim value }
  else parsed

def parse (scope : Text) : Option PartyScope :=
  match scope.splitWhitespace.head?.bind ("party:".toList.isPrefixOf? ·) with
  | none => none
  | some rest =>
    match rest.splitOn ';' with
    | [] => none
    | first :: parts =>
      let conversationId := trim first
      if conversationId = [] then none
      else
        let parsed := parts.foldl namedPart ⟨conversationId, [], [], "proxy".toList, "default".toList⟩
        some (if trim parsed.title = [] then { parsed with title := "Untitled Party".toList } else parsed)

end PartyScope

def scopeWords (scope : Option Text) : List Text := (scope.map splitWhitespace).getD []

def partyScopeOf (scope : Option Text) : Option PartyScope := (scopeWords scope).findSome? PartyScope.parse

def partyWord (scope : Option Text) : Option Text :=
  (scopeWords scope).find? fun word => (PartyScope.parse word).isSome

/-! ## Proofs -/

structure AskProof where
  keyId : Text
  «to» : Text
  expiresAt : ℕ
  nonce : Text
  signature : Text
deriving DecidableEq

def isHexLower (c : Char) : Bool := c.isDigit || ('a' ≤ c && c ≤ 'f')

def isKeyId (text : Text) : Bool := text.utf8Length == 64 && text.all isHexLower

def isNonce (text : Text) : Bool := 32 ≤ text.utf8Length && text.utf8Length ≤ 64 && text.all isHexLower

/-- A `u64` in decimal, with a `+` or none. -/
def parseU64 (text : Text) : Option ℕ :=
  let digits := (['+'].isPrefixOf? text).getD text
  if digits = [] ∨ !digits.all Char.isDigit then none
  else
    let value := digits.foldl (fun n c => 10 * n + (c.toNat - '0'.toNat)) 0
    if value < 2 ^ 64 then some value else none

namespace AskProof

def partNames : List Text := ["key", "to", "exp", "nonce", "sig"].map String.toList

/-- The named parts, each at most once; others are passed over. -/
def readParts : List Text → List (Text × Text) → Except String (List (Text × Text))
  | [], slots => .ok slots
  | part :: parts, slots =>
    let (name, value) := nameValue part
    if name ∉ partNames then readParts parts slots
    else if (slots.lookup name).isSome then .error ("the ask proof names " ++ String.ofList name ++ " twice")
    else readParts parts ((name, value) :: slots)

def parse (word : Text) : Except String AskProof :=
  match proofPrefix.isPrefixOf? word with
  | none => .error "not an ask proof"
  | some rest =>
    let parts := rest.splitOn ';'
    if parts.head? ≠ some proofVersion then .error "an ask proof of a version this Mac does not read"
    else match readParts parts.tail [] with
      | .error why => .error why
      | .ok slots =>
        match (slots.lookup "key".toList).filter isKeyId with
        | none => .error "the ask proof names no key id"
        | some keyId =>
          match (slots.lookup "to".toList).filter (· ≠ []) with
          | none => .error "the ask proof names no recipient"
          | some addressee =>
            match (slots.lookup "exp".toList).bind parseU64 with
            | none => .error "the ask proof has no expiry"
            | some expiresAt =>
              match (slots.lookup "nonce".toList).filter isNonce with
              | none => .error "the ask proof has no nonce"
              | some nonce =>
                match (slots.lookup "sig".toList).filter (· ≠ []) with
                | none => .error "the ask proof has no signature"
                | some signature => .ok ⟨keyId, addressee, expiresAt, nonce, signature⟩

end AskProof

def proofIn (scope : Option Text) : Option (Except String AskProof) :=
  match (scopeWords scope).filter proofPrefix.isPrefixOf with
  | [] => none
  | [word] => some (AskProof.parse word)
  | _ => some (.error "the ask carries two proofs")

/-! ## The signature -/

def recipient (host agent : Text) : Text := toAsciiLowercase (trim host) ++ '/' :: toAsciiLowercase (trim agent)

structure Signed where
  «to» : Text
  «from» : Text
  kind : Text
  scope : Text
  redirectUri : Text
  codeChallenge : Text

def payloadLines (fields : Signed) (keyId : Text) (expiresAt : ℕ) (nonce : Text) : List Text :=
  [payloadVersion, "to=".toList ++ fields.to, "from=".toList ++ fields.from, "kind=".toList ++ fields.kind,
    "key=".toList ++ keyId, "exp=".toList ++ (toString expiresAt).toList, "nonce=".toList ++ nonce,
    "scope=".toList ++ fields.scope, "redirect_uri=".toList ++ fields.redirectUri,
    "code_challenge=".toList ++ fields.codeChallenge]

def payload (fields : Signed) (keyId : Text) (expiresAt : ℕ) (nonce : Text) : Text :=
  joinLines (payloadLines fields keyId expiresAt nonce)

/-- What the check takes from elsewhere: the id of a key (`key_id_of`), keys and signatures as
they are decoded, and ECDSA. -/
structure AskCrypto where
  Key : Type
  Signature : Type
  keyIdOf : List Byte → Text
  keyOfSec1 : List Byte → Option Key
  signatureOf : Text → Option Signature
  verify : Key → Text → Signature → Bool

abbrev KeyBook := Text → Text → Except String (Option (List Byte))

inductive AskSender
  | verified (address keyId : Text)
  | unsigned (claimed : Text)
deriving DecidableEq

inductive AskRefusal
  | unsigned
  | malformed (why : String)
  | wrongRecipient (signedFor here : Text)
  | expired
  | tooLong
  | unknownKey
  | keyMismatch
  | badSignature
  | unchecked (why : String)
deriving DecidableEq

/-- The sender a party's host names, when it is an address as it is written. -/
def senderOf (party : PartyScope) : Option AgentAddress :=
  match AgentAddress.parse party.host with
  | .error _ => none
  | .ok sender => if sender.agent = none ∧ sender.host = party.host then some sender else none

variable (P : AskCrypto)

/-- The signature over the payload, under the key the proof names. -/
def verifyProof (keys : KeyBook) (ask : Ask) (party : PartyScope) (proof : AskProof) (addressee : Text)
    (sender : AgentAddress) : Except AskRefusal (AskSender × Option AskProof) :=
  match partyWord ask.scope with
  | none => .error (.malformed "it names no party")
  | some scopeWord =>
    match P.signatureOf proof.signature with
    | none => .error .badSignature
    | some signature =>
      match keys sender.user proof.keyId with
      | .error why => .error (.unchecked why)
      | .ok none => .error .unknownKey
      | .ok (some key) =>
        if P.keyIdOf key ≠ proof.keyId then .error .keyMismatch
        else match P.keyOfSec1 key with
          | none => .error .keyMismatch
          | some key =>
            if P.verify key
              (payload ⟨addressee, party.host, kindSeat, scopeWord, ask.redirectUri, ask.codeChallenge⟩
                proof.keyId proof.expiresAt proof.nonce) signature then
              .ok (.verified sender.host proof.keyId, some proof)
            else .error .badSignature

def verifyPartyAskSignature (nowSecs : ℕ) (keys : KeyBook) (ask : Ask) (here : Text) (party : PartyScope) :
    Except AskRefusal (AskSender × Option AskProof) :=
  match proofIn ask.scope with
  | none => if nowSecs < unsignedAsksUntil then .ok (.unsigned party.host, none) else .error .unsigned
  | some (.error why) => .error (.malformed why)
  | some (.ok proof) =>
    let addressee := recipient here party.agent
    if proof.to ≠ addressee then .error (.wrongRecipient proof.to addressee)
    else if proof.expiresAt < nowSecs then .error .expired
    -- the sum is of `u64`s
    else if (nowSecs + askLifetimeSecs + clockSkewSecs) % 2 ^ 64 < proof.expiresAt then .error .tooLong
    else match senderOf party with
      | none => .error (.malformed "its host is not an address")
      | some sender => verifyProof P keys ask party proof addressee sender

end ProxyNode.OAuth
