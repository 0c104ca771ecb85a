import ProxyNode.Spec.Op

/-! Envelopes of the current version read back as the op they were written from; any
other version is refused by its number. -/

namespace ProxyNode.SignedOp

open Wire

def toRepr (op : SignedOp) : EnvelopeRepr :=
  ⟨op.body.v, op.body.hlc.val, op.body.device.1, op.body.store.1, op.body.payload.1, op.sig.1, op.id.1⟩

theorem readEnvelope_append (op : SignedOp) (rest : List Byte) :
    readEnvelope (op.toBytes ++ rest) = some op.toRepr := by
  have hsto : op.body.store.1.length < 2 ^ 64 :=
    lt_of_le_of_lt op.body.store.2.2.1 (by simp [maxStoreIdLen])
  have hpay : op.body.payload.1.length < 2 ^ 64 := lt_trans op.body.payload.2 (by decide)
  have hsig : op.sig.1.length < 2 ^ 64 := by rw [op.sig.2]; decide
  have hid : op.id.1.length < 2 ^ 64 := by rw [op.id.2]; decide
  have hdev : ∀ r, takeBytes 32 (op.body.device.1 ++ r) = some (op.body.device.1, r) := fun r =>
    takeBytes_eq_some.2 ⟨rfl, op.body.device.2⟩
  have hutf := validUtf8_ascii op.body.store.2.2.2
  simp only [readEnvelope, toRepr, toBytes, canonicalBody, List.cons_append, List.append_assoc,
    List.head?_cons, List.tail_cons, Option.map_some, Option.bind_eq_bind, Option.bind_some,
    takeVarint64_varint op.body.hlc.isLt, hdev, takeBlob_blob hsto, takeBlob_blob hpay,
    takeBlob_blob hsig, takeBlob_blob hid, hutf, guard_true, Option.pure_def]

theorem readEnvelope_toBytes (op : SignedOp) : readEnvelope op.toBytes = some op.toRepr := by
  have hread := readEnvelope_append op []
  rwa [List.append_nil] at hread

theorem toRepr_injective : Function.Injective toRepr := by
  rintro ⟨⟨v, hlc, device, store, payload⟩, sig, id⟩ ⟨⟨v', hlc', device', store', payload'⟩, sig', id'⟩ h
  simp only [toRepr, EnvelopeRepr.mk.injEq] at h
  obtain ⟨rfl, hhlc, hdev, hsto, hpay, hsig, hid⟩ := h
  rw [Fin.ext hhlc, Subtype.ext hdev, Subtype.ext hsto, Subtype.ext hpay, Subtype.ext hsig,
    Subtype.ext hid]

variable {op : SignedOp}

/-- An envelope of this version round-trips. -/
theorem fromBytes_toBytes (hv : op.body.v = envelopeVersion) :
    fromBytes op.toBytes = .ok op := by
  have hst : StoreId.new op.body.store.1 = .ok op.body.store := dif_pos op.body.store.2
  have hlen : op.sig.1.length = 64 ∧ op.id.1.length = 32 := ⟨op.sig.2, op.id.2⟩
  have hb : op.body.device.1.length = 32 ∧ op.body.payload.1.length < 2 ^ 63 :=
    ⟨op.body.device.2, op.body.payload.2⟩
  simp only [fromBytes, readEnvelope_toBytes, toRepr, hst, ne_eq, hv, not_true_eq_false, if_false,
    dif_pos hlen, dif_pos hb, Fin.ofNat_eq_cast, Fin.cast_val_eq_self]
  rw [← hv]
  rfl

theorem fromBytes_toBytes_version (hv : op.body.v ≠ envelopeVersion) :
    fromBytes op.toBytes = .error (.unsupportedVersion op.body.v) := by
  simp only [fromBytes, readEnvelope_toBytes, toRepr, ne_eq, hv, not_false_eq_true, if_true]

theorem fromBytes_version {buf : List Byte} (h : fromBytes buf = .ok op) :
    op.body.v = envelopeVersion := by
  cases hread : readEnvelope buf with
  | none => simp [fromBytes, hread] at h
  | some repr =>
    simp only [fromBytes, hread] at h
    by_cases hv : repr.v = envelopeVersion
    · cases hsto : StoreId.new repr.store with
      | error e =>
        simp only [hsto] at h
        split_ifs at h
      | ok store =>
        simp only [hsto] at h
        split_ifs at h
        obtain rfl := Except.ok.inj h
        exact hv
    · simp [hv] at h

end ProxyNode.SignedOp
