import ProxyNode.Sanity.Durability

/-! Learned keys. A key is in the registry only once every version of the key file holds
it: a save that fails takes the new keys out of the registry again, and a start loads the
file before it reads the op-log. Device ids are taken to be collision-free. -/

namespace ProxyNode

open List SortedMap

namespace DeviceRegistry

variable {C : Crypto} {registry : DeviceRegistry C}

theorem keyFor_insertKey (registry : DeviceRegistry C) (key : C.Key) (id : DeviceId) :
    (registry.insertKey key).keyFor id = if id = C.deviceIdOfKey key then some key else registry.keyFor id := by
  simp only [keyFor, insertKey, get?_insert]
  split_ifs <;> rfl

theorem keyFor_remove (registry : DeviceRegistry C) (id id' : DeviceId) :
    (registry.remove id).keyFor id' = if id' = id then none else registry.keyFor id' := by
  simp only [keyFor, remove, get?_erase]
  split_ifs <;> rfl

theorem mem_sec1Keys {bytes : List Byte} : bytes ∈ registry.sec1Keys ↔
    ∃ id key, registry.keyFor id = some key ∧ bytes = (C.sec1Compressed key).1 := by
  simp only [sec1Keys, values, map_map, mem_map, Prod.exists, Function.comp_apply]
  refine exists_congr fun id => exists_congr fun key => and_congr ?_ eq_comm
  exact get?_eq_some.symm

theorem sec1Compressed_inj {a b : C.Key} (h : (C.sec1Compressed a).1 = (C.sec1Compressed b).1) : a = b := by
  have := C.keyOfSec1_sec1Compressed a
  rw [Subtype.ext h, C.keyOfSec1_sec1Compressed b] at this
  exact (Option.some.inj this).symm

theorem sec1Compressed_mem_sec1Keys {key : C.Key} :
    (C.sec1Compressed key).1 ∈ registry.sec1Keys ↔ Registered registry key := by
  rw [mem_sec1Keys]
  constructor
  · intro h
    obtain ⟨id, key', hk, heq⟩ := h
    obtain rfl := sec1Compressed_inj heq
    exact registered_of_keyFor hk
  · exact fun h => ⟨_, key, h, rfl⟩

/-- Inserting a key displaces no other if device ids are collision-free. -/
theorem keyFor_insertKey_iff (hinj : Function.Injective C.deviceIdOfKey) {new key : C.Key} {id : DeviceId} :
    (registry.insertKey new).keyFor id = some key ↔
      registry.keyFor id = some key ∨ C.deviceIdOfKey key = id ∧ key = new := by
  rw [keyFor_insertKey]
  split_ifs with hid
  · rw [Option.some.injEq]
    constructor
    · intro h
      exact .inr ⟨h ▸ hid.symm, h.symm⟩
    · rintro (h | ⟨-, h⟩)
      · exact hinj (hid.symm.trans (registry.derives id key h).symm)
      · exact h.symm
  · constructor
    · exact .inl
    · rintro (h | ⟨rfl, rfl⟩)
      · exact h
      · exact absurd rfl hid

end DeviceRegistry

open DeviceRegistry Journal

/-- A start knows the keys it had and those the file holds. -/
theorem keyFor_loadPeerKeys {C : Crypto} (hinj : Function.Injective C.deviceIdOfKey) {disk : Disk}
    {registry : DeviceRegistry C}
    (henc : ∀ bytes ∈ disk.peerKeys.current.getD [], ∃ key, bytes = (C.sec1Compressed key).1)
    {id : DeviceId} {key : C.Key} : (loadPeerKeys disk registry).keyFor id = some key ↔
      registry.keyFor id = some key ∨
        C.deviceIdOfKey key = id ∧ (C.sec1Compressed key).1 ∈ disk.peerKeys.current.getD [] := by
  rw [loadPeerKeys]
  generalize disk.peerKeys.current.getD [] = keys at henc ⊢
  induction keys generalizing registry with
  | nil => simp
  | cons bytes keys ih =>
    obtain ⟨new, rfl⟩ := henc bytes mem_cons_self
    have hins : registry.insertSec1 (C.sec1Compressed new) = some (registry.insertKey new) := by
      rw [insertSec1, C.keyOfSec1_sec1Compressed, Option.map_some]
    have hmem : (C.sec1Compressed key).1 = (C.sec1Compressed new).1 ↔ key = new :=
      ⟨sec1Compressed_inj, fun h => by rw [h]⟩
    rw [foldl_cons, dif_pos (C.sec1Compressed new).2, hins, Option.getD_some,
      ih fun b hb => henc b (mem_cons_of_mem _ hb), keyFor_insertKey_iff hinj, mem_cons, hmem]
    tauto

variable {H : Host} {own : H.crypto.Key} {streams : Streams} {node : Node H}

/-! ## Saving keys -/

variable {registry : DeviceRegistry H.crypto}

theorem NodeOk.peerKeys {file : AtomicFile (List (List Byte))} (h : NodeOk own streams node)
    (hkeep : ∀ key, DurableKey own node.disk key → DurableKey own { node.disk with peerKeys := file } key)
    (henc : ∀ keys, some keys ∈ file.versions → ∀ bytes ∈ keys, ∃ key, bytes = (H.crypto.sec1Compressed key).1)
    (hkeys : ∀ id key, registry.keyFor id = some key → DurableKey own { node.disk with peerKeys := file } key)
    (hkn : ∀ key, DurableKey own { node.disk with peerKeys := file } key → Registered registry key) :
    NodeOk own streams ⟨{ node.disk with peerKeys := file }, { node.daemon with registry := registry }⟩ := by
  have hk : Keeps own node.disk { node.disk with peerKeys := file } := .of_durable hkeep (prefix_refl _)
  refine ⟨⟨fun peer cursor hc => ?_, henc⟩, fun link hl => ?_, fun id hid => ?_, h.whole, hkeys, hkn⟩
  · exact (h.saved.cursors peer cursor hc).mono fun id hid => ⟨hk.holds id hid.1, hid.2⟩
  · exact (h.links link hl).mono fun id hid => ⟨hk.holds id hid.1, hid.2⟩
  · exact (h.filed id hid).mono hkeep (prefix_refl _)

theorem NodeOk.renameKeys (h : NodeOk own streams node)
    (hgrow : ∀ key, Registered node.daemon.registry key → Registered registry key) :
    (∀ key, DurableKey own node.disk key →
      DurableKey own (node.disk.perform (.renameKeys registry.sec1Keys)) key) ∧
    ∀ keys, some keys ∈ (node.disk.peerKeys.rename registry.sec1Keys).versions →
      ∀ bytes ∈ keys, ∃ key, bytes = (H.crypto.sec1Compressed key).1 := by
  constructor
  · intro key hkey
    refine hkey.imp_right fun hall v hv => ?_
    rcases AtomicFile.mem_versions_rename.1 hv with rfl | hv
    · exact ⟨_, rfl, sec1Compressed_mem_sec1Keys.2 (hgrow key (h.known key hkey))⟩
    · exact hall v hv
  · intro keys hk bytes hb
    rcases AtomicFile.mem_versions_rename.1 hk with heq | hk
    · obtain rfl := Option.some.inj heq
      obtain ⟨-, key, -, rfl⟩ := mem_sec1Keys.1 hb
      exact ⟨key, rfl⟩
    · exact h.saved.encoded keys hk bytes hb

/-- A registry that grew is used only once it is saved. -/
theorem NodeOk.persistKeys {evicted : DeviceRegistry H.crypto} (h : NodeOk own streams node)
    (hgrow : ∀ key, Registered node.daemon.registry key → Registered registry key)
    (hback : ∀ id, evicted.keyFor id = node.daemon.registry.keyFor id) (save : SaveOutcome) :
    Along Node.perform (DiskOk own streams) node (Node.persistKeys registry evicted save) ∧
      NodeOk own streams (node.after (Node.persistKeys registry evicted save)) := by
  obtain ⟨hkeep, henc⟩ := h.renameKeys hgrow
  have hback' : ∀ key, Registered node.daemon.registry key → Registered evicted key := fun key hk =>
    (hback _).trans hk
  -- the disk after the rename, whatever the registry in memory
  have hrenamed : NodeOk own streams
      ⟨node.disk.perform (.renameKeys registry.sec1Keys), { node.daemon with registry := evicted }⟩ := by
    refine h.peerKeys hkeep henc (fun id key hk => hkeep key (h.keys id key (hback id ▸ hk))) fun key hk => ?_
    exact hback' key (h.known key (hk.of_versions fun v hv => AtomicFile.mem_versions_rename.2 (.inr hv)))
  have hsav : NodeOk own streams
      ⟨(node.disk.perform (.renameKeys registry.sec1Keys)).perform .syncKeys,
        { node.daemon with registry := registry }⟩ := by
    have hone : ∀ v ∈ ((node.disk.peerKeys.rename registry.sec1Keys).syncDir).versions,
        v = some registry.sec1Keys := fun v hv => by
      simpa [AtomicFile.versions, AtomicFile.syncDir, AtomicFile.rename] using hv
    refine h.peerKeys ?_ ?_ ?_ ?_
    · exact fun key hk => (hkeep key hk).of_versions fun v => AtomicFile.mem_versions_syncDir
    · exact fun keys hk => henc keys (AtomicFile.mem_versions_syncDir hk)
    · intro id key hk
      refine .inr fun v hv => ⟨_, hone v hv, ?_⟩
      exact sec1Compressed_mem_sec1Keys.2 (registered_of_keyFor hk)
    · intro key hk
      rcases hk with rfl | hk
      · exact hgrow key (h.known key (.inl rfl))
      · obtain ⟨keys, heq, hmem⟩ := hk _ (AtomicFile.current_mem _)
        obtain rfl := Option.some.inj ((hone _ (AtomicFile.current_mem _)).symm.trans heq)
        exact sec1Compressed_mem_sec1Keys.1 hmem
  have hd := h.diskOk
  have hr := hrenamed.diskOk
  cases save with
  | saved =>
    exact ⟨along_cons.2 ⟨hd, along_cons.2 ⟨hd, along_cons.2 ⟨hr, along_nil.2 hsav.diskOk⟩⟩⟩, hsav⟩
  | notRenamed =>
    refine ⟨along_cons.2 ⟨hd, along_cons.2 ⟨hd, along_nil.2 hd⟩⟩, ?_⟩
    exact h.peerKeys (fun _ => id) h.saved.encoded (fun i key hk => h.keys i key (hback i ▸ hk))
      fun key hk => hback' key (h.known key hk)
  | notSynced =>
    exact ⟨along_cons.2 ⟨hd, along_cons.2 ⟨hd, along_cons.2 ⟨hr, along_nil.2 hr⟩⟩⟩, hrenamed⟩

/-! ## Learning -/

theorem learnDeviceEntries_spec (devices : List (DeviceId × List Byte)) (registry : DeviceRegistry H.crypto) :
    (∀ id ∈ (Node.learnDeviceEntries (H := H) devices registry).2, registry.keyFor id = none) ∧
      ∀ id ∉ (Node.learnDeviceEntries (H := H) devices registry).2,
        (Node.learnDeviceEntries (H := H) devices registry).1.keyFor id = registry.keyFor id := by
  induction devices generalizing registry with
  | nil => exact ⟨by simp [Node.learnDeviceEntries], fun _ _ => rfl⟩
  | cons device devices ih =>
    obtain ⟨advertised, publicKeySec1⟩ := device
    rw [Node.learnDeviceEntries]
    split_ifs with hlen
    · split
      · exact ih registry
      · rename_i key hkey
        split_ifs with hid
        · exact ih registry
        · rw [not_or, not_not] at hid
          obtain ⟨rfl, hfrs⟩ := hid
          have hnone := Option.not_isSome_iff_eq_none.1 hfrs
          obtain ⟨hin, hout⟩ := ih (registry.insertKey key)
          constructor
          · intro id hmem
            rcases mem_cons.1 hmem with rfl | hmem
            · exact hnone
            · have := hin id hmem
              rw [keyFor_insertKey] at this
              split_ifs at this with he
              exact this
          · intro id hmem
            rw [mem_cons, not_or] at hmem
            rw [hout id hmem.2, keyFor_insertKey, if_neg hmem.1]
    · exact ih registry

theorem keyFor_foldl_remove {C : Crypto} (ids : List DeviceId) (registry : DeviceRegistry C) (id : DeviceId) :
    (ids.foldl DeviceRegistry.remove registry).keyFor id = if id ∈ ids then none else registry.keyFor id := by
  induction ids generalizing registry with
  | nil => simp
  | cons x ids ih =>
    rw [foldl_cons, ih, keyFor_remove]
    by_cases hx : id = x <;> simp [hx]

/-- What learning keys writes: nothing, the registry as it was again, or a registry that grew,
to be saved or put back. -/
inductive Node.KeyEffects (node : Node H) (save : SaveOutcome) : List (NodeEffect H) → Prop
  | nothing : KeyEffects node save []
  | again {registry : DeviceRegistry H.crypto}
      (hsame : ∀ id, registry.keyFor id = node.daemon.registry.keyFor id) :
      KeyEffects node save [.registry registry]
  | persist {registry evicted : DeviceRegistry H.crypto}
      (hgrow : ∀ key, Registered node.daemon.registry key → Registered registry key)
      (hback : ∀ id, evicted.keyFor id = node.daemon.registry.keyFor id) :
      KeyEffects node save (persistKeys registry evicted save)

theorem registerPeer_keys (hinj : Function.Injective H.crypto.deviceIdOfKey) (node : Node H)
    (advertised : DeviceId) (publicKeySec1 : List Byte) (save : SaveOutcome) :
    node.KeyEffects save (node.registerPeer advertised publicKeySec1 save) := by
  unfold Node.registerPeer
  split
  · split
    · exact .nothing
    · rename_i key hkey
      by_cases hid : H.crypto.deviceIdOfKey key ≠ advertised
      · rw [if_pos hid]
        exact .nothing
      rw [if_neg hid]
      rw [not_not] at hid
      simp only
      split_ifs with hcont
      · refine .again fun id => ?_
        obtain ⟨old, hold⟩ := Option.isSome_iff_exists.1 hcont
        obtain rfl : old = key := hinj ((node.daemon.registry.derives _ _ hold).trans hid.symm)
        rw [keyFor_insertKey, hid]
        split_ifs with he
        · rw [he]
          exact hold.symm
        · rfl
      · refine .persist (fun key hk => ?_) fun id => ?_
        · exact (keyFor_insertKey_iff hinj).2 (.inl hk)
        · rw [keyFor_remove, keyFor_insertKey, hid]
          split_ifs with he
          · rw [he]
            exact (Option.not_isSome_iff_eq_none.1 hcont).symm
          · rfl
  · exact .nothing

theorem learnDevices_keys (node : Node H) (devices : List (DeviceId × List Byte)) (save : SaveOutcome) :
    node.KeyEffects save (node.learnDevices devices save) := by
  obtain ⟨hnew, hold⟩ := learnDeviceEntries_spec (H := H) devices node.daemon.registry
  unfold Node.learnDevices
  simp only
  split_ifs with hnil
  · exact .nothing
  · refine .persist (fun key hk => ?_) fun id => ?_
    · -- a key already known is not among those added
      have hmem : H.crypto.deviceIdOfKey key ∉
          (Node.learnDeviceEntries (H := H) devices node.daemon.registry).2 := fun hmem => by
        simp [Registered, hnew _ hmem] at hk
      exact (hold _ hmem).trans hk
    · rw [keyFor_foldl_remove]
      split_ifs with hmem
      · exact (hnew id hmem).symm
      · exact hold id hmem

theorem NodeOk.learns {save : SaveOutcome} {effects : List (NodeEffect H)} (h : NodeOk own streams node)
    (he : node.KeyEffects save effects) :
    Along Node.perform (DiskOk own streams) node effects ∧ NodeOk own streams (node.after effects) := by
  cases he with
  | nothing => exact ⟨along_nil.2 h.diskOk, h⟩
  | again hsame =>
    refine ⟨along_cons.2 ⟨h.diskOk, along_nil.2 h.diskOk⟩, ?_⟩
    exact h.peerKeys (fun _ => id) h.saved.encoded (fun i key hk => h.keys i key (hsame i ▸ hk))
      fun key hk => (hsame _).trans (h.known key hk)
  | persist hgrow hback => exact h.persistKeys hgrow hback save

end ProxyNode
