import ProxyNode.Sanity.Arrivals
import ProxyNode.Spec.Daemon

/-! What the replay of the op-log file recovers: every op whose frame lies in the whole
frames the file starts with, if its key is registered; and nothing but what those frames
carry. The cut behind the last whole frame loses no such op. -/

namespace ProxyNode

open Wire List SignedOp

def Readable (payload : List Byte) : Prop :=
  payload.length < 2 ^ 32 ∧ ∃ op, SignedOp.fromBytes payload = .ok op

variable {C : Crypto}

/-- The payload carries an op of this id that one of the keys verifies. -/
def Carries (keys : C.Key → Prop) (payload : List Byte) (id : OpId) : Prop :=
  ∃ op key, SignedOp.fromBytes payload = .ok op ∧ op.id = id ∧ keys key ∧ op.verify C key = .ok ()

def HeldIn (keys : C.Key → Prop) (bytes : List Byte) (id : OpId) : Prop :=
  ∃ payloads : List (List Byte), (∀ p ∈ payloads, Readable p) ∧ payloads.flatMap frame <+: bytes ∧
    ∃ p ∈ payloads, Carries keys p id

theorem HeldIn.mono {keys keys' : C.Key → Prop} {bytes bytes' : List Byte} {id : OpId}
    (h : HeldIn keys bytes id) (hk : ∀ key, keys key → keys' key) (hb : bytes <+: bytes') :
    HeldIn keys' bytes' id := by
  obtain ⟨payloads, hr, hpre, p, hp, op, key, hop, hid, hkey, hv⟩ := h
  exact ⟨payloads, hr, hpre.trans hb, p, hp, op, key, hop, hid, hk key hkey, hv⟩

theorem verify_device {op : SignedOp} {key : C.Key} (h : op.verify C key = .ok ()) :
    C.deviceIdOfKey key = op.body.device := by
  unfold verify at h
  by_contra hne
  simp only [ne_eq, hne, not_false_eq_true, if_true] at h
  split_ifs at h

/-! ## One frame -/

section Frame

variable {registry : DeviceRegistry C} {log log' : OpLog}

def Registered (registry : DeviceRegistry C) (key : C.Key) : Prop :=
  registry.keyFor (C.deviceIdOfKey key) = some key

theorem registered_of_keyFor {id : DeviceId} {key : C.Key} (h : registry.keyFor id = some key) :
    Registered registry key := by
  rwa [Registered, registry.derives id key h]

theorem replayFrame_readable (registry : DeviceRegistry C) (log : OpLog) {payload : List Byte}
    (h : Readable payload) :
    ∃ log', replayFrame registry log payload = some log' := by
  obtain ⟨-, op, hop⟩ := h
  simp only [replayFrame, hop]
  split
  · exact ⟨_, rfl⟩
  · split <;> exact ⟨_, rfl⟩

theorem replayFrame_spec {payload : List Byte} (h : replayFrame registry log payload = some log') :
    (∃ op, fromBytes payload = .ok op) ∧ log.Extends log' ∧
      (∀ id, Carries (Registered registry) payload id → log'.contains id = true) ∧
      ∀ id, log'.contains id = true → log.contains id = true ∨ Carries (Registered registry) payload id := by
  simp only [replayFrame] at h
  cases hop : fromBytes payload with
  | error e => simp [hop] at h
  | ok op =>
    simp only [hop] at h
    -- an op that is carried has a registered key, and only an op with a good signature is appended
    have carried : ∀ id, Carries (Registered registry) payload id → op.id = id ∧
        ∃ key, registry.keyFor op.body.device = some key ∧ op.verify C key = .ok () := by
      intro id hc
      obtain ⟨op', key, hop', hid, hkey, hv⟩ := hc
      obtain rfl : op = op' := Except.ok.inj (hop.symm.trans hop')
      exact ⟨hid, key, verify_device hv ▸ hkey, hv⟩
    refine ⟨⟨op, rfl⟩, ?_⟩
    cases hkey : registry.keyFor op.body.device with
    | none =>
      obtain rfl : log = log' := by simpa [hkey] using h
      refine ⟨.refl log, fun id hc => ?_, fun _ hid => Or.inl hid⟩
      obtain ⟨-, key, hk, -⟩ := carried id hc
      simp [hkey] at hk
    | some key =>
      cases hv : op.verify C key with
      | error e =>
        obtain rfl : log = log' := by simpa [hkey, hv] using h
        refine ⟨.refl log, fun id hc => ?_, fun _ hid => Or.inl hid⟩
        obtain ⟨-, key', hk, hv'⟩ := carried id hc
        obtain rfl : key = key' := Option.some.inj (hkey.symm.trans hk)
        simp [hv] at hv'
      | ok u =>
        obtain rfl : (log.append op).1 = log' := by simpa [hkey, hv] using h
        refine ⟨log.extends_append op, fun id hc => ?_, fun id hid => ?_⟩
        · exact OpLog.contains_append.2 (.inr (carried id hc).1.symm)
        · rcases OpLog.contains_append.1 hid with hid | rfl
          · exact .inl hid
          · exact .inr ⟨op, key, hop, rfl, registered_of_keyFor hkey, hv⟩

variable {payloads : List (List Byte)}

theorem foldlM_replayFrame_readable (registry : DeviceRegistry C) (log : OpLog) (h : ∀ p ∈ payloads, Readable p) :
    ∃ log', payloads.foldlM (replayFrame registry) log = some log' := by
  induction payloads generalizing log with
  | nil => exact ⟨log, rfl⟩
  | cons p ps ih =>
    obtain ⟨mid, hmid⟩ := replayFrame_readable registry log (h p mem_cons_self)
    obtain ⟨log', hlog'⟩ := ih mid fun q hq => h q (mem_cons_of_mem _ hq)
    exact ⟨log', by rw [foldlM_cons, hmid]; exact hlog'⟩

theorem foldlM_replayFrame_spec (h : payloads.foldlM (replayFrame registry) log = some log') :
    (∀ p ∈ payloads, ∃ op, fromBytes p = .ok op) ∧ log.Extends log' ∧
      (∀ id, (∃ p ∈ payloads, Carries (Registered registry) p id) → log'.contains id = true) ∧
      ∀ id, log'.contains id = true →
        log.contains id = true ∨ ∃ p ∈ payloads, Carries (Registered registry) p id := by
  induction payloads generalizing log with
  | nil =>
    obtain rfl : log = log' := by simpa using h
    exact ⟨by simp, .refl log, by simp, fun _ hid => Or.inl hid⟩
  | cons p ps ih =>
    rw [foldlM_cons] at h
    obtain ⟨mid, hmid, hrest⟩ := Option.bind_eq_some_iff.1 h
    obtain ⟨hop, hext, hin, hout⟩ := replayFrame_spec hmid
    obtain ⟨hops, hexts, hins, houts⟩ := ih hrest
    refine ⟨?_, hext.trans hexts, fun id hc => ?_, fun id hid => ?_⟩
    · intro q hq
      rcases mem_cons.1 hq with rfl | hq
      · exact hop
      · exact hops q hq
    · obtain ⟨q, hq, hc⟩ := hc
      rcases mem_cons.1 hq with rfl | hq
      · exact hexts.contains (hin id hc)
      · exact hins id ⟨q, hq, hc⟩
    · rcases houts id hid with hmid | ⟨q, hq, hc⟩
      · rcases hout id hmid with hlog | hc
        · exact .inl hlog
        · exact .inr ⟨p, mem_cons_self, hc⟩
      · exact .inr ⟨q, mem_cons_of_mem _ hq, hc⟩

end Frame

/-! ## The file -/

section File

variable {registry : DeviceRegistry C} {file : DurableFile} {log : OpLog}

def validEnd (registry : DeviceRegistry C) (file : DurableFile) (log : OpLog) : ℕ :=
  (scanFrames (replayFrame registry) file.bytes.length file.bytes log).2

theorem replayOplogFile_bytes : (replayOplogFile registry file log).2.bytes =
    file.bytes.take (validEnd registry file log) := by
  simp only [replayOplogFile, validEnd]
  split_ifs with h
  · rfl
  · rw [take_of_length_le (not_lt.1 h)]

theorem replayOplogFile_durable : (replayOplogFile registry file log).2.durable =
    file.durable.take (validEnd registry file log) := by
  simp only [replayOplogFile, validEnd]
  split_ifs with h
  · rw [DurableFile.setLen_durable]
  · rw [take_of_length_le]
    exact (length_take_le' _ _).trans (not_lt.1 h)

/-- The replay reads past all the whole frames the file starts with. -/
theorem validEnd_ge (registry : DeviceRegistry C) (log : OpLog) {payloads : List (List Byte)}
    (hr : ∀ p ∈ payloads, Readable p) (hpre : payloads.flatMap frame <+: file.bytes) :
    (payloads.flatMap frame).length ≤ validEnd registry file log ∧
      ∃ log', payloads.foldlM (replayFrame registry) log = some log' ∧
        log'.Extends (replayOplogFile registry file log).1 := by
  obtain ⟨tail, htail⟩ := hpre
  obtain ⟨log', hfold⟩ := foldlM_replayFrame_readable registry log hr
  have hlen : payloads.length ≤ file.bytes.length := by
    rw [← htail, length_append]
    have := length_le_flatMap_frame payloads
    omega
  obtain ⟨fuel, hfuel⟩ := Nat.exists_eq_add_of_le hlen
  have hscan := scanFrames_frames (fun p hp => (hr p hp).1) hfold tail fuel
  have hrest := scanFrames_spec (replayFrame registry) fuel tail log'
  obtain ⟨rest, -, -, hrest⟩ := hrest
  rw [htail, ← hfuel] at hscan
  refine ⟨?_, log', hfold, ?_⟩
  · rw [validEnd, hscan]
    omega
  · rw [replayOplogFile, hscan]
    exact (foldlM_replayFrame_spec hrest).2.1

theorem HeldIn.cut (registry : DeviceRegistry C) (log : OpLog) {keys : C.Key → Prop} {bytes : List Byte}
    {id : OpId} (h : HeldIn keys bytes id)
    (hpre : bytes <+: file.bytes) : HeldIn keys (bytes.take (validEnd registry file log)) id := by
  obtain ⟨payloads, hr, hp, hc⟩ := h
  have hend := (validEnd_ge registry log hr (hp.trans hpre)).1
  obtain ⟨tail, rfl⟩ := hp
  refine ⟨payloads, hr, ?_, hc⟩
  rw [take_append, take_of_length_le hend]
  exact prefix_append _ _

/-- An op held in the file under registered keys is in the log after the replay. -/
theorem HeldIn.replayed {keys : C.Key → Prop} {id : OpId} (h : HeldIn keys file.bytes id)
    (hk : ∀ key, keys key → Registered registry key) :
    (replayOplogFile registry file log).1.contains id = true := by
  obtain ⟨payloads, hr, hpre, p, hp, op, key, hop, hid, hkey, hv⟩ := h
  obtain ⟨-, log', hfold, hext⟩ := validEnd_ge registry log hr hpre
  exact hext.contains ((foldlM_replayFrame_spec hfold).2.2.1 id
    ⟨p, hp, op, key, hop, hid, hk key hkey, hv⟩)

/-- What the replay leaves: the file is whole frames, the log only grew, and every op it
gained is held in the file under a registered key. -/
theorem replayOplogFile_spec : (∃ payloads : List (List Byte), (∀ p ∈ payloads, Readable p) ∧
      (replayOplogFile registry file log).2.bytes = payloads.flatMap frame) ∧
    log.Extends (replayOplogFile registry file log).1 ∧
    ∀ id, (replayOplogFile registry file log).1.contains id = true → log.contains id = true ∨
      HeldIn (Registered registry) (replayOplogFile registry file log).2.bytes id := by
  obtain ⟨payloads, htake, hlen, hfold⟩ :=
    scanFrames_spec (replayFrame registry) file.bytes.length file.bytes log
  obtain ⟨hops, hext, -, hout⟩ := foldlM_replayFrame_spec hfold
  have hr : ∀ p ∈ payloads, Readable p := fun p hp => ⟨hlen p hp, hops p hp⟩
  have hb : (replayOplogFile registry file log).2.bytes = payloads.flatMap frame :=
    replayOplogFile_bytes.trans htake
  refine ⟨⟨payloads, hr, hb⟩, hext, fun id hid => ?_⟩
  rcases hout id hid with hlog | hc
  · exact .inl hlog
  · exact .inr ⟨payloads, hr, by rw [hb], hc⟩

end File

end ProxyNode
