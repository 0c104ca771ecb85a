import ProxyNode.Sanity.Envelope
import ProxyNode.Sanity.Heads
import ProxyNode.Spec.Kv

/-! Envelopes as bytes. What is written reads back, and no written envelope starts another. The
other way round only the shortest form is kept: the decoder also takes padded numbers and bytes
behind the last field, and an op decoded from those is stored and served in other bytes. -/

namespace ProxyNode.SignedOp

open Wire List

/-! ## Written envelopes -/

/-- Envelopes read back, and they differ, and do not start each other, if their ops differ. -/
theorem envelopes_round_trip {op other : SignedOp} (hv : op.body.v = envelopeVersion) :
    fromBytes op.toBytes = .ok op ∧ (op ≠ other → op.toBytes ≠ other.toBytes) ∧
      ¬ (op.toBytes <+: other.toBytes ∧ op.toBytes ≠ other.toBytes) := by
  have hsame : op.toBytes <+: other.toBytes → op = other := by
    rintro ⟨rest, hrest⟩
    have hread := readEnvelope_append op rest
    rw [hrest, readEnvelope_toBytes] at hread
    exact (toRepr_injective (Option.some.inj hread)).symm
  refine ⟨fromBytes_toBytes hv, fun hne heq => hne (hsame ?_), ?_⟩
  · rw [heq]
  · rintro ⟨hpre, hne⟩
    exact hne (congrArg toBytes (hsame hpre))

theorem envelopes_round_trip_two_puts :
    let first := plainPut (padTo 32 [7]) 20
    let second := plainPut (padTo 32 [7]) 300
    fromBytes first.toBytes = .ok first ∧ (first ≠ second → first.toBytes ≠ second.toBytes) ∧
      ¬ (first.toBytes <+: second.toBytes ∧ first.toBytes ≠ second.toBytes) :=
  envelopes_round_trip (by decide)

/-! ## Envelopes on the wire -/

/-- The parts of the bytes an envelope is decoded from: each number in one of its forms, each
length in front of its field, and what comes behind the last field. -/
structure Layout (buf : List Byte) where
  repr : EnvelopeRepr
  hlcForm : List Byte
  storeLen : List Byte
  payloadLen : List Byte
  sigLen : List Byte
  idLen : List Byte
  rest : List Byte
  bytes : buf = repr.v :: (hlcForm ++ (repr.device ++ (storeLen ++ (repr.store ++ (payloadLen ++ (repr.payload ++
    (sigLen ++ (repr.sig ++ (idLen ++ (repr.id ++ rest))))))))))
  hlc : takeVarint64 hlcForm = some (repr.hlc, [])
  device : repr.device.length = 32
  store : takeVarint64 storeLen = some (repr.store.length, [])
  utf8 : validUtf8 repr.store = true
  payload : takeVarint64 payloadLen = some (repr.payload.length, [])
  sig : takeVarint64 sigLen = some (repr.sig.length, [])
  id : takeVarint64 idLen = some (repr.id.length, [])

/-- Every number in its shortest form and nothing behind the last field. -/
structure Layout.Tight {buf : List Byte} (l : Layout buf) : Prop where
  hlc : Shortest l.hlcForm
  store : Shortest l.storeLen
  payload : Shortest l.payloadLen
  sig : Shortest l.sigLen
  id : Shortest l.idLen
  rest : l.rest = []

variable {buf : List Byte}

theorem Layout.read (l : Layout buf) : readEnvelope buf = some l.repr := by
  have hhlc : ∀ r, takeVarint64 (l.hlcForm ++ r) = some (l.repr.hlc, r) := takeVarintIn_append l.hlc
  have hdev : ∀ r, takeBytes 32 (l.repr.device ++ r) = some (l.repr.device, r) := fun r =>
    takeBytes_eq_some.2 ⟨rfl, l.device⟩
  refine (congrArg readEnvelope l.bytes).trans ?_
  simp only [readEnvelope, head?_cons, tail_cons, Option.map_some, Option.bind_eq_bind, Option.bind_some,
    hhlc, hdev, takeBlob_form l.store, takeBlob_form l.payload, takeBlob_form l.sig, takeBlob_form l.id, l.utf8,
    guard_true, Option.pure_def]

theorem exists_layout {repr : EnvelopeRepr} (h : readEnvelope buf = some repr) :
    ∃ l : Layout buf, l.repr = repr := by
  unfold readEnvelope at h
  obtain ⟨⟨v, buf₁⟩, hv, h₁⟩ := Option.bind_eq_some_iff.1 h
  obtain ⟨⟨hlc, buf₂⟩, hhlc, h₂⟩ := Option.bind_eq_some_iff.1 h₁
  obtain ⟨⟨device, buf₃⟩, hdev, h₃⟩ := Option.bind_eq_some_iff.1 h₂
  obtain ⟨⟨store, buf₄⟩, hsto, h₄⟩ := Option.bind_eq_some_iff.1 h₃
  obtain ⟨_, hutf, h₅⟩ := Option.bind_eq_some_iff.1 h₄
  obtain ⟨⟨payload, buf₅⟩, hpay, h₆⟩ := Option.bind_eq_some_iff.1 h₅
  obtain ⟨⟨sig, buf₆⟩, hsig, h₇⟩ := Option.bind_eq_some_iff.1 h₆
  obtain ⟨⟨id, rest⟩, hid, h₈⟩ := Option.bind_eq_some_iff.1 h₇
  obtain ⟨w, hw, hwv⟩ := Option.map_eq_some_iff.1 hv
  obtain ⟨rfl, rfl⟩ := Prod.mk.inj hwv
  obtain ⟨hlcForm, heq₂, hform, -⟩ := takeVarintIn_spec hhlc
  obtain ⟨rfl, hlen⟩ := takeBytes_eq_some.1 hdev
  obtain ⟨storeLen, rfl, hstoreLen⟩ := takeBlob_spec hsto
  obtain ⟨payloadLen, rfl, hpayloadLen⟩ := takeBlob_spec hpay
  obtain ⟨sigLen, rfl, hsigLen⟩ := takeBlob_spec hsig
  obtain ⟨idLen, rfl, hidLen⟩ := takeBlob_spec hid
  obtain ⟨tail, rfl⟩ : ∃ tail, buf = w :: tail := ⟨buf.tail, (cons_head?_tail hw).symm⟩
  refine ⟨⟨⟨w, hlc, device, store, payload, sig, id⟩, hlcForm, storeLen, payloadLen, sigLen, idLen, rest,
    congrArg (w :: ·) heq₂, hform, hlen, hstoreLen, ?_, hpayloadLen, hsigLen, hidLen⟩, Option.some.inj h₈⟩
  by_contra hnot
  simp [hnot] at hutf

theorem fromBytes_spec {op : SignedOp} (h : fromBytes buf = .ok op) :
    readEnvelope buf = some op.toRepr := by
  cases hread : readEnvelope buf with
  | none => simp [fromBytes, hread] at h
  | some repr =>
    obtain ⟨l, rfl⟩ := exists_layout hread
    have hhlc : l.repr.hlc < 2 ^ 64 := takeVarint64_lt l.hlc
    simp only [fromBytes, hread] at h
    cases hsto : StoreId.new l.repr.store with
    | error e =>
      simp only [hsto] at h
      split_ifs at h
    | ok store =>
      have hname : store.1 = l.repr.store := by
        unfold StoreId.new at hsto
        split_ifs at hsto
        rw [← Except.ok.inj hsto]
      simp only [hsto] at h
      split_ifs at h
      obtain rfl := Except.ok.inj h
      simp only [toRepr, Fin.val_ofNat, Nat.mod_eq_of_lt hhlc, hname]

/-! ## Canonical bytes -/

def Canonical (buf : List Byte) : Prop := ∀ op, fromBytes buf = .ok op → op.toBytes = buf

theorem exists_tight (op : SignedOp) : ∃ l : Layout op.toBytes, l.Tight := by
  have hsto : op.body.store.1.length < 2 ^ 64 :=
    lt_of_le_of_lt op.body.store.2.2.1 (by simp [maxStoreIdLen])
  have hpay : op.body.payload.1.length < 2 ^ 64 := lt_trans op.body.payload.2 (by decide)
  have hsig : op.sig.1.length < 2 ^ 64 := by rw [op.sig.2]; decide
  have hid : op.id.1.length < 2 ^ 64 := by rw [op.id.2]; decide
  have hform : ∀ n < 2 ^ 64, takeVarint64 (varint n) = some (n, []) := by
    intro n hn
    have hread := takeVarint64_varint hn []
    rwa [append_nil] at hread
  have htight : ∀ n < 2 ^ 64, Shortest (varint n) := fun n hn => (takeVarint64_form (hform n hn)).1 rfl
  refine ⟨⟨op.toRepr, varint op.body.hlc.val, varint op.body.store.1.length, varint op.body.payload.1.length,
    varint op.sig.1.length, varint op.id.1.length, [], ?_, hform _ op.body.hlc.isLt, op.body.device.2,
    hform _ hsto, validUtf8_ascii op.body.store.2.2.2, hform _ hpay, hform _ hsig, hform _ hid⟩,
    htight _ op.body.hlc.isLt, htight _ hsto, htight _ hpay, htight _ hsig, htight _ hid, rfl⟩
  simp only [toBytes, toRepr, canonicalBody, blob, cons_append, append_assoc, append_nil]

theorem Layout.Tight.toBytes_eq {l : Layout buf} (h : l.Tight) {op : SignedOp} (hop : op.toRepr = l.repr) :
    op.toBytes = buf := by
  rw [l.bytes, h.rest, (takeVarint64_form l.hlc).2 h.hlc, (takeVarint64_form l.store).2 h.store,
    (takeVarint64_form l.payload).2 h.payload, (takeVarint64_form l.sig).2 h.sig, (takeVarint64_form l.id).2 h.id,
    ← hop]
  simp only [toBytes, toRepr, canonicalBody, blob, cons_append, append_assoc, append_nil]

/-- Bytes that decode are canonical exactly if they are laid out tightly. -/
theorem canonical_iff (buf : List Byte) :
    Canonical buf ↔ ((fromBytes buf).toOption.isSome → ∃ l : Layout buf, l.Tight) := by
  constructor
  · intro h hsome
    cases hdec : fromBytes buf with
    | error e =>
      rw [hdec] at hsome
      cases hsome
    | ok op =>
      have hbyt := h op hdec
      rw [← hbyt]
      exact exists_tight op
  · intro h op hdec
    obtain ⟨l, htight⟩ := h (by rw [hdec]; rfl)
    have hread := fromBytes_spec hdec
    rw [l.read] at hread
    exact htight.toBytes_eq (Option.some.inj hread).symm

namespace EnvelopeBytes

def put : SignedOp := plainPut (padTo 32 [7]) 20

def trailing : List Byte := put.toBytes ++ [0]

/-- The bytes of `put` with its clock reading in two bytes instead of one. -/
def padded : List Byte := [1, 148, 0] ++ put.toBytes.drop 2

end EnvelopeBytes

open EnvelopeBytes in
/-- Two other byte strings decode to the op, and the log keeps its own bytes for it. -/
theorem received_bytes_not_kept :
    fromBytes trailing = .ok put ∧ fromBytes padded = .ok put ∧ trailing ≠ put.toBytes ∧ padded ≠ put.toBytes ∧
      ((OplogDb.empty (fill 32 5)).append put "t" "k" 0 0).1.oplog.map (·.envelope) = [put.toBytes] := by
  decide +kernel

end ProxyNode.SignedOp
