import ProxyNode.Spec.RelayAuth

/-! The byte strings a node signs. Each is a context that ends in the only zero byte it has,
then fields of fixed width and at most one tail; an op's body is read back field by field.
So the bytes determine what was signed. -/

namespace ProxyNode

open Wire List

inductive RelayEndpoint
  | ops
  | head
  | watch
deriving DecidableEq

inductive SigningContext
  | op
  | relayRequest (endpoint : RelayEndpoint)
  | relayResponse (endpoint : RelayEndpoint)
  | deviceBook
deriving DecidableEq

def SigningContext.bytes : SigningContext → List Byte
  | op => signingContext
  | relayRequest .ops => relayOpsRequestContext
  | relayRequest .head => relayHeadRequestContext
  | relayRequest .watch => relayWatchRequestContext
  | relayResponse .ops => relayOpsSigningContext
  | relayResponse .head => relayHeadSigningContext
  | relayResponse .watch => relayWatchSigningContext
  | deviceBook => deviceBookSigningContext

/-- Everything that goes into one signing input. -/
inductive Meaning
  | op (body : OpBody)
  | relayRequest (endpoint : RelayEndpoint) (caller servingPeer : DeviceId) (requestEpoch : Epoch)
      (after requestBound : Fin (2 ^ 64)) (nonce : Bytes 32)
  | relayResponse (endpoint : RelayEndpoint) (signer caller : DeviceId) (requestEpoch : Epoch)
      (after requestBound : Fin (2 ^ 64)) (nonce : Bytes 32) (body : List Byte)
  | deviceBook (signer : DeviceId) (nonce : Bytes 32) (body : List Byte)

namespace Meaning

def context : Meaning → SigningContext
  | op _ => .op
  | relayRequest endpoint .. => .relayRequest endpoint
  | relayResponse endpoint .. => .relayResponse endpoint
  | deviceBook .. => .deviceBook

def signedBytes (m : Meaning) : List Byte :=
  match m with
  | op body => signingInput (canonicalBody body)
  | relayRequest _ caller servingPeer requestEpoch after requestBound nonce =>
    relayRequestSigningInput m.context.bytes caller servingPeer requestEpoch after.val requestBound.val nonce
  | relayResponse _ signer caller requestEpoch after requestBound nonce body =>
    relayResponseSigningInput m.context.bytes signer caller requestEpoch after.val requestBound.val nonce body
  | deviceBook signer nonce body => deviceBookSigningInput signer nonce body

def fields : Meaning → List Byte
  | op body => canonicalBody body
  | relayRequest _ caller servingPeer requestEpoch after requestBound nonce =>
    caller.1 ++ (servingPeer.1 ++ (requestEpoch.1 ++ (be64 after.val ++ (be64 requestBound.val ++ nonce.1))))
  | relayResponse _ signer caller requestEpoch after requestBound nonce body =>
    signer.1 ++ (caller.1 ++ (requestEpoch.1 ++ (be64 after.val ++ (be64 requestBound.val ++ (nonce.1 ++ body)))))
  | deviceBook signer nonce body => signer.1 ++ (nonce.1 ++ body)

theorem signedBytes_eq (m : Meaning) : m.signedBytes = m.context.bytes ++ m.fields := by
  cases m with
  | op body => rfl
  | relayRequest => simp only [signedBytes, fields, relayRequestSigningInput, append_assoc]
  | relayResponse => simp only [signedBytes, fields, relayResponseSigningInput, append_assoc]
  | deviceBook => simp only [signedBytes, fields, deviceBookSigningInput, context, SigningContext.bytes,
      append_assoc]

end Meaning

/-! ## Contexts -/

namespace SigningContext

def all : List SigningContext :=
  [.op, .relayRequest .ops, .relayRequest .head, .relayRequest .watch, .relayResponse .ops, .relayResponse .head,
    .relayResponse .watch, .deviceBook]

theorem mem_all (c : SigningContext) : c ∈ all := by
  cases c with
  | op => decide
  | relayRequest endpoint => cases endpoint <;> decide
  | relayResponse endpoint => cases endpoint <;> decide
  | deviceBook => decide

theorem bytes_injective : Function.Injective bytes := by
  have h : ∀ a ∈ all, ∀ b ∈ all, a.bytes = b.bytes → a = b := by decide +kernel
  exact fun a b => h a a.mem_all b b.mem_all

theorem terminated (c : SigningContext) : Terminated 0 c.bytes := by
  have h : ∀ c ∈ all, 0 ∉ c.bytes.dropLast ∧ c.bytes = c.bytes.dropLast ++ [0] := by decide +kernel
  exact ⟨_, h c c.mem_all⟩

end SigningContext

/-! ## Fields -/

theorem fixed_append_inj {n : ℕ} {a b : Bytes n} {x y : List Byte} (h : a.1 ++ x = b.1 ++ y) : a = b ∧ x = y := by
  obtain ⟨hab, hxy⟩ := append_inj h (a.2.trans b.2.symm)
  exact ⟨Subtype.ext hab, hxy⟩

theorem be64_append_inj {a b : Fin (2 ^ 64)} {x y : List Byte} (h : be64 a.val ++ x = be64 b.val ++ y) :
    a = b ∧ x = y := by
  obtain ⟨hab, hxy⟩ := append_inj h (by rw [length_be64, length_be64])
  exact ⟨be64_injective hab, hxy⟩

theorem varint_append_inj {a b : ℕ} {x y : List Byte} (ha : a < 2 ^ 64) (hb : b < 2 ^ 64)
    (h : varint a ++ x = varint b ++ y) : a = b ∧ x = y := by
  have hread := takeVarint64_varint ha x
  rw [h, takeVarint64_varint hb y] at hread
  obtain ⟨rfl, rfl⟩ := Prod.mk.inj (Option.some.inj hread)
  exact ⟨rfl, rfl⟩

theorem blob_append_inj {a b x y : List Byte} (ha : a.length < 2 ^ 64) (hb : b.length < 2 ^ 64)
    (h : blob a ++ x = blob b ++ y) : a = b ∧ x = y := by
  have hread := takeBlob_blob ha x
  rw [h, takeBlob_blob hb y] at hread
  obtain ⟨rfl, rfl⟩ := Prod.mk.inj (Option.some.inj hread)
  exact ⟨rfl, rfl⟩

theorem StoreId.length_lt (s : StoreId) : s.1.length < 2 ^ 64 :=
  lt_of_le_of_lt s.2.2.1 (by decide)

theorem Payload.length_lt (p : Payload) : p.1.length < 2 ^ 64 := lt_trans p.2 (by decide)

theorem canonicalBody_injective : Function.Injective canonicalBody := by
  intro a b h
  obtain ⟨v, hlc, device, store, payload⟩ := a
  obtain ⟨v', hlc', device', store', payload'⟩ := b
  obtain ⟨rfl, h⟩ := cons.inj h
  obtain ⟨hhlc, h⟩ := varint_append_inj hlc.isLt hlc'.isLt h
  obtain ⟨rfl, h⟩ := fixed_append_inj h
  obtain ⟨hsto, h⟩ := blob_append_inj store.length_lt store'.length_lt h
  have hpay := (@blob_append_inj _ _ [] [] payload.length_lt payload'.length_lt
    (by rw [append_nil, append_nil]; exact h)).1
  obtain rfl := Fin.ext hhlc
  obtain rfl := Subtype.ext hsto
  obtain rfl := Subtype.ext hpay
  rfl

namespace Meaning

/-- Within one context the fields determine each other. -/
theorem eq_of_fields {m m' : Meaning} (hc : m.context = m'.context) (hf : m.fields = m'.fields) : m = m' := by
  cases m with
  | op body =>
    cases m' with
    | op body' => rw [canonicalBody_injective hf]
    | relayRequest => cases hc
    | relayResponse => cases hc
    | deviceBook => cases hc
  | relayRequest endpoint caller servingPeer epoch after bound nonce =>
    cases m' with
    | op => cases hc
    | relayRequest endpoint' caller' servingPeer' epoch' after' bound' nonce' =>
      obtain rfl := SigningContext.relayRequest.inj hc
      obtain ⟨rfl, h1⟩ := fixed_append_inj hf
      obtain ⟨rfl, h2⟩ := fixed_append_inj h1
      obtain ⟨rfl, h3⟩ := fixed_append_inj h2
      obtain ⟨rfl, h4⟩ := be64_append_inj h3
      obtain ⟨rfl, h5⟩ := be64_append_inj h4
      obtain rfl := Subtype.ext h5
      rfl
    | relayResponse => cases hc
    | deviceBook => cases hc
  | relayResponse endpoint signer caller epoch after bound nonce body =>
    cases m' with
    | op => cases hc
    | relayRequest => cases hc
    | relayResponse endpoint' signer' caller' epoch' after' bound' nonce' body' =>
      obtain rfl := SigningContext.relayResponse.inj hc
      obtain ⟨rfl, h1⟩ := fixed_append_inj hf
      obtain ⟨rfl, h2⟩ := fixed_append_inj h1
      obtain ⟨rfl, h3⟩ := fixed_append_inj h2
      obtain ⟨rfl, h4⟩ := be64_append_inj h3
      obtain ⟨rfl, h5⟩ := be64_append_inj h4
      obtain ⟨rfl, rfl⟩ := fixed_append_inj h5
      rfl
    | deviceBook => cases hc
  | deviceBook signer nonce body =>
    cases m' with
    | op => cases hc
    | relayRequest => cases hc
    | relayResponse => cases hc
    | deviceBook signer' nonce' body' =>
      obtain ⟨rfl, h1⟩ := fixed_append_inj hf
      obtain ⟨rfl, rfl⟩ := fixed_append_inj h1
      rfl

end Meaning

/-- Two signing inputs are equal byte strings only if they were built in the same context
from the same fields. -/
theorem signedBytes_eq_iff (m m' : Meaning) : m.signedBytes = m'.signedBytes ↔ m = m' := by
  refine ⟨fun h => ?_, fun h => by rw [h]⟩
  rw [m.signedBytes_eq, m'.signedBytes_eq] at h
  obtain ⟨hc, hf⟩ := m.context.terminated.append_inj m'.context.terminated h
  exact Meaning.eq_of_fields (SigningContext.bytes_injective hc) hf

end ProxyNode
