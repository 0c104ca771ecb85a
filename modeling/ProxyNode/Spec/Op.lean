import Mathlib.Data.Prod.Lex
import Mathlib.Data.List.Lex
import Mathlib.Order.Fin.Basic
import ProxyNode.Base.Wire

/-! The signed replication envelope: op bodies, their canonical encoding, the content
address over it, and the order key every log and cursor sorts by. Elliptic-curve
signatures and SHA-256 come in as a record of primitives. -/

namespace ProxyNode

open Wire

/-- A clock reading: one 64-bit scalar whose numeric order is happens-before order. -/
abbrev Hlc := Fin (2 ^ 64)

abbrev DeviceId := Bytes 32

abbrev OpId := Bytes 32

/-- The primitives taken from the `p256` and `sha2` crates. -/
structure Crypto where
  Key : Type
  Secret : Type
  Signature : Type
  sha256 : List Byte → Bytes 32
  sec1Compressed : Key → Bytes 33
  keyOfSec1 : Bytes 33 → Option Key
  keyOfSec1_sec1Compressed : ∀ key, keyOfSec1 (sec1Compressed key) = some key
  signatureBytes : Signature → Bytes 64
  signatureOfBytes : Bytes 64 → Option Signature
  signatureOfBytes_signatureBytes : ∀ sig, signatureOfBytes (signatureBytes sig) = some sig
  /-- The low-S form of a signature, `none` if it already has it. -/
  normalizeS : Signature → Option Signature
  verifyingKey : Secret → Key
  sign : Secret → List Byte → Signature
  verify : Key → List Byte → Signature → Bool

/-- A device id is the hash of the compressed public key. -/
def Crypto.deviceIdOfKey (C : Crypto) (key : C.Key) : DeviceId :=
  C.sha256 (C.sec1Compressed key).1

/-! ## Hex text -/

def hexDigits : List Char :=
  ['0', '1', '2', '3', '4', '5', '6', '7', '8', '9', 'a', 'b', 'c', 'd', 'e', 'f']

def encodeHex (bytes : List Byte) : String :=
  String.ofList (bytes.flatMap fun b =>
    [hexDigits.getD (b.val / 16) '0', hexDigits.getD (b.val % 16) '0'])

def toHex (id : Bytes 32) : String := encodeHex id.1

def hexVal (c : Char) : Option ℕ :=
  if '0' ≤ c ∧ c ≤ '9' then some (c.toNat - '0'.toNat)
  else if 'a' ≤ c ∧ c ≤ 'f' then some (c.toNat - 'a'.toNat + 10)
  else if 'A' ≤ c ∧ c ≤ 'F' then some (c.toNat - 'A'.toNat + 10)
  else none

def decodePairs : List Char → Option (List Byte)
  | [] => some []
  | [_] => none
  | high :: low :: rest => do
    let high ← hexVal high
    let low ← hexVal low
    let bytes ← decodePairs rest
    return byte (high * 16 + low) :: bytes

def decodeHex (s : String) : Option (List Byte) := decodePairs s.toList

def fromHex (s : String) : Option (Bytes 32) :=
  match decodeHex s with
  | some bytes => if h : bytes.length = 32 then some ⟨bytes, h⟩ else none
  | none => none

theorem hexVal_digit (n : Fin 16) : hexVal (hexDigits.getD n.val '0') = some n.val := by
  revert n
  decide

theorem byte_halves (b : Byte) : byte (b.val / 16 * 16 + b.val % 16) = b := by
  rw [Nat.div_add_mod']
  exact Fin.ofNat_val_eq_self b

theorem decodeHex_encodeHex (bytes : List Byte) : decodeHex (encodeHex bytes) = some bytes := by
  rw [decodeHex, encodeHex, String.toList_ofList]
  induction bytes with
  | nil => rfl
  | cons b bytes ih =>
    have hhigh := hexVal_digit ⟨b.val / 16, by have := b.isLt; omega⟩
    have hlow := hexVal_digit ⟨b.val % 16, by omega⟩
    simp only at hhigh hlow
    simp only [List.flatMap_cons, List.cons_append, List.nil_append, decodePairs, hhigh, hlow, ih,
      Option.bind_eq_bind, Option.bind_some, byte_halves]
    rfl

theorem fromHex_toHex (id : Bytes 32) : fromHex (toHex id) = some id := by
  rw [fromHex, toHex, decodeHex_encodeHex]
  exact dif_pos id.2

theorem toHex_injective {a b : Bytes 32} (h : toHex a = toHex b) : a = b :=
  Option.some.inj (by rw [← fromHex_toHex a, h, fromHex_toHex])

/-! ## Errors -/

inductive IdentityError
  | invalidHex
  | invalidLength (expected got : ℕ)
  | invalidScalar
  | invalidPublicKey
  | badSignature
deriving DecidableEq

def IdentityError.text : IdentityError → String
  | invalidHex => "invalid hex string"
  | invalidLength expected got => s!"expected {expected} bytes, got {got}"
  | invalidScalar => "invalid P-256 private scalar"
  | invalidPublicKey => "invalid P-256 public key encoding"
  | badSignature => "signature verification failed"

inductive OpError
  | identity (error : IdentityError)
  | encoding
  | idMismatch
  | deviceMismatch
  | malleableSignature
  | unsupportedVersion (v : Byte)
  | invalidStoreId
  | badLength
deriving DecidableEq

/-- The text of an error; what the `postcard` crate adds to an encoding error is left out. -/
def OpError.text : OpError → String
  | identity error => error.text
  | encoding => "canonical encoding error"
  | idMismatch => "op id does not match content"
  | deviceMismatch => "supplied public key does not derive the op's device id"
  | malleableSignature => "signature is not in low-S canonical form"
  | unsupportedVersion v => "unsupported envelope version: " ++ toString v.val
  | invalidStoreId => "invalid store id: must be 1..=64 ASCII bytes"
  | badLength => "malformed envelope field length"

/-! ## Order keys -/

structure OrderKey where
  hlc : Hlc
  device : DeviceId
  opId : OpId

/-- Lexicographic by `(hlc, device, op_id)`. -/
instance : LinearOrder OrderKey :=
  LinearOrder.lift' (fun k : OrderKey => toLex (k.hlc, toLex (k.device, k.opId))) <| by
    rintro ⟨_, _, _⟩ ⟨_, _, _⟩ h
    simpa using h

def OrderKey.min : OrderKey := ⟨0, fill 32 0, fill 32 0⟩

/-! ## Bodies and envelopes -/

def envelopeVersion : Byte := 1

def ascii (s : String) : List Byte := s.toList.map fun c => byte c.toNat

def signingContext : List Byte := ascii "proxy-node-server/op/v1\x00"

def maxStoreIdLen : ℕ := 64

/-- A store namespace: non-empty ASCII of bounded length. -/
def StoreId := {s : List Byte // s ≠ [] ∧ s.length ≤ maxStoreIdLen ∧ ∀ b ∈ s, b.val < 128}
deriving DecidableEq

def StoreId.new (s : List Byte) : Except OpError StoreId :=
  if h : s ≠ [] ∧ s.length ≤ maxStoreIdLen ∧ ∀ b ∈ s, b.val < 128 then .ok ⟨s, h⟩
  else .error .invalidStoreId

/-- A payload buffer; no allocation reaches half the address space. -/
def Payload := {l : List Byte // l.length < 2 ^ 63}
deriving DecidableEq

structure OpBody where
  v : Byte
  hlc : Hlc
  device : DeviceId
  store : StoreId
  payload : Payload
deriving DecidableEq

structure SignedOp where
  body : OpBody
  sig : Bytes 64
  id : OpId
deriving DecidableEq

def canonicalBody (body : OpBody) : List Byte :=
  body.v :: (varint body.hlc.val ++ (body.device.1 ++ (blob body.store.1 ++ blob body.payload.1)))

def signingInput (canon : List Byte) : List Byte := signingContext ++ canon

namespace SignedOp

def orderKey (op : SignedOp) : OrderKey := ⟨op.body.hlc, op.body.device, op.id⟩

@[simp] theorem orderKey_device (op : SignedOp) : op.orderKey.device = op.body.device := rfl

@[simp] theorem orderKey_opId (op : SignedOp) : op.orderKey.opId = op.id := rfl

section Signing

variable (C : Crypto)

def contentId (canon : List Byte) : OpId := C.sha256 canon

/-- Stamp the body with the signer's device id, sign it and content-address it. -/
def sealOp (body : OpBody) (identity : C.Secret) : SignedOp :=
  let body := { body with device := C.deviceIdOfKey (C.verifyingKey identity) }
  let canon := canonicalBody body
  let sig := C.sign identity (signingInput canon)
  { body := body
    sig := C.signatureBytes ((C.normalizeS sig).getD sig)
    id := contentId C canon }

def verify (op : SignedOp) (pubkey : C.Key) : Except OpError Unit :=
  let canon := canonicalBody op.body
  if contentId C canon ≠ op.id then .error .idMismatch
  else if C.deviceIdOfKey pubkey ≠ op.body.device then .error .deviceMismatch
  else match C.signatureOfBytes op.sig with
    | none => .error .badLength
    | some sig =>
      if (C.normalizeS sig).isSome then .error .malleableSignature
      else if C.verify pubkey (signingInput canon) sig then .ok ()
      else .error (.identity .badSignature)

def verifyWithSec1 (op : SignedOp) (publicKeySec1 : List Byte) : Except OpError Unit :=
  if h : publicKeySec1.length = 33 then
    match C.keyOfSec1 ⟨publicKeySec1, h⟩ with
    | none => .error (.identity .invalidPublicKey)
    | some pubkey => op.verify C pubkey
  else .error (.identity (.invalidLength 33 publicKeySec1.length))

end Signing

/-! ## The wire form -/

def toBytes (op : SignedOp) : List Byte :=
  canonicalBody op.body ++ (blob op.sig.1 ++ blob op.id.1)

/-- The borrowed mirror an envelope decodes into before its fields are checked. -/
structure EnvelopeRepr where
  v : Byte
  hlc : ℕ
  device : List Byte
  store : List Byte
  payload : List Byte
  sig : List Byte
  id : List Byte

/-- Trailing bytes after the last field are ignored. -/
def readEnvelope (buf : List Byte) : Option EnvelopeRepr := do
  let (v, buf) ← buf.head?.map fun v => (v, buf.tail)
  let (hlc, buf) ← takeVarint64 buf
  let (device, buf) ← takeBytes 32 buf
  let (store, buf) ← takeBlob buf
  guard (validUtf8 store)
  let (payload, buf) ← takeBlob buf
  let (sig, buf) ← takeBlob buf
  let (id, _) ← takeBlob buf
  return ⟨v, hlc, device, store, payload, sig, id⟩

def fromBytes (buf : List Byte) : Except OpError SignedOp :=
  match readEnvelope buf with
  | none => .error .encoding
  | some repr =>
    if repr.v ≠ envelopeVersion then .error (.unsupportedVersion repr.v)
    else if h : repr.sig.length = 64 ∧ repr.id.length = 32 then
      match StoreId.new repr.store with
      | .error e => .error e
      | .ok store =>
        -- the array and buffer bounds below hold of every decoded value
        if hb : repr.device.length = 32 ∧ repr.payload.length < 2 ^ 63 then
          .ok { body := ⟨repr.v, Fin.ofNat _ repr.hlc, ⟨repr.device, hb.1⟩, store, ⟨repr.payload, hb.2⟩⟩
                sig := ⟨repr.sig, h.1⟩
                id := ⟨repr.id, h.2⟩ }
        else .error .encoding
    else .error .badLength

end SignedOp

end ProxyNode
