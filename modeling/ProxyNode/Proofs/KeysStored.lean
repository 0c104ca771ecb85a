import ProxyNode.Sanity.Keys
import ProxyNode.Spec.Kv
import ProxyNode.Spec.Startup

/-! Keys are saved before they verify anything. Along the loop over the peers the registry holds
the own key and keys of the key file only, and it keeps the keys of the peers linked: a save
that fails leaves the file or puts the keys tried into it, and takes exactly the new keys out of
the registry again. Device ids are taken to be collision-free. -/

namespace ProxyNode

open DeviceRegistry Wire Option Except

variable {H : Host} {own : H.crypto.Key}

def StoredKey (disk : Disk) (key : H.crypto.Key) : Prop :=
  ∃ bytes ∈ disk.peerKeys.current.getD [], ∃ h : bytes.length = 33, H.crypto.keyOfSec1 ⟨bytes, h⟩ = some key

/-- Every key of the registry is the own one or in the key file. -/
def KeysStored (own : H.crypto.Key) (node : Node H) : Prop :=
  ∀ id key, node.daemon.registry.keyFor id = some key → key = own ∨ StoredKey node.disk key

/-! ## One peer -/

/-- A step that keeps the registry's keys, and keeps them stored. -/
structure KeysKept (own : H.crypto.Key) (node node' : Node H) : Prop where
  stored : KeysStored own node → KeysStored own node'
  registered : ∀ key, Registered node.daemon.registry key → Registered node'.daemon.registry key

theorem KeysKept.refl (node : Node H) : KeysKept own node node := ⟨id, fun _ => id⟩

variable {node : Node H}

theorem KeysKept.registry {registry : DeviceRegistry H.crypto}
    (hsame : ∀ id, registry.keyFor id = node.daemon.registry.keyFor id) :
    KeysKept own node (node.after [.registry registry]) where
  stored := fun h id key hk => h id key ((hsame id).symm.trans hk)
  registered := fun _ hk => (hsame _).trans hk

theorem storedKey_of_sec1Keys {disk : Disk} {registry : DeviceRegistry H.crypto} {id : DeviceId}
    {key : H.crypto.Key}
    (hfile : disk.peerKeys.current = some registry.sec1Keys) (hk : registry.keyFor id = some key) :
    StoredKey disk key := by
  refine ⟨(H.crypto.sec1Compressed key).1, ?_, (H.crypto.sec1Compressed key).2,
    H.crypto.keyOfSec1_sec1Compressed key⟩
  rw [hfile]
  exact mem_sec1Keys.2 ⟨id, key, hk, rfl⟩

theorem KeysKept.persistKeys {registry evicted : DeviceRegistry H.crypto}
    (hgrow : ∀ key, Registered node.daemon.registry key → Registered registry key)
    (hback : ∀ id, evicted.keyFor id = node.daemon.registry.keyFor id) (save : SaveOutcome) :
    KeysKept own node (node.after (Node.persistKeys registry evicted save)) := by
  have hevicted : ∀ key, Registered node.daemon.registry key → Registered evicted key :=
    fun key hk => (hback _).trans hk
  cases save with
  | saved => exact ⟨fun _ id key hk => Or.inr (storedKey_of_sec1Keys rfl hk), hgrow⟩
  | notRenamed => exact ⟨fun h id key hk => h id key ((hback id).symm.trans hk), hevicted⟩
  | notSynced =>
    refine ⟨fun _ id key hk => Or.inr ?_, hevicted⟩
    -- the file has the keys that were tried, which include those kept
    have hold : node.daemon.registry.keyFor id = some key := (hback id).symm.trans hk
    have htried : Registered registry key := hgrow key (registered_of_keyFor hold)
    exact storedKey_of_sec1Keys rfl htried

theorem KeysKept.learns {save : SaveOutcome} {effects : List (NodeEffect H)}
    (he : node.KeyEffects save effects) : KeysKept own node (node.after effects) := by
  cases he with
  | nothing => exact .refl node
  | again hsame => exact .registry hsame
  | persist hgrow hback => exact .persistKeys hgrow hback save

theorem registerPeerWithKey_some {C : Crypto} {registry : DeviceRegistry C}
    {identity : Option (DeviceId × List Byte)} {peerId : DeviceId} {peerKey : Bytes 33} {newlyAdded : Bool}
    (h : registerPeerWithKey registry identity = some (peerId, peerKey, newlyAdded)) :
    ∃ key, C.keyOfSec1 peerKey = some key ∧ C.deviceIdOfKey key = peerId ∧
      newlyAdded = !registry.contains peerId := by
  cases identity with
  | none => cases h
  | some answer =>
    obtain ⟨advertised, publicKeySec1⟩ := answer
    rw [registerPeerWithKey] at h
    split_ifs at h with hlen
    cases hkey : C.keyOfSec1 ⟨publicKeySec1, hlen⟩ with
    | none =>
      rw [hkey] at h
      cases h
    | some key =>
      rw [hkey] at h
      dsimp only at h
      split_ifs at h with hid
      obtain ⟨rfl, rfl, rfl⟩ : advertised = peerId ∧ ⟨publicKeySec1, hlen⟩ = peerKey ∧
          (!registry.contains advertised) = newlyAdded := by
        have h := some.inj h
        rw [Prod.mk.injEq, Prod.mk.injEq] at h
        exact h
      exact ⟨key, hkey, not_not.1 hid, rfl⟩

/-- A registered peer's key is in the registry unless it was new and could not be saved. -/
theorem registerPeer_registered {peerId : DeviceId} {peerKey : Bytes 33} {key : H.crypto.Key}
    {save : SaveOutcome} (hkey : H.crypto.keyOfSec1 peerKey = some key)
    (hid : H.crypto.deviceIdOfKey key = peerId)
    (hsave : (!node.daemon.registry.contains peerId && save.failed) = false) :
    Registered (node.after (node.registerPeer peerId peerKey.1 save)).daemon.registry key := by
  have hin : Registered (node.daemon.registry.insertKey key) key := by
    rw [Registered, keyFor_insertKey, if_pos rfl]
  have heffects : node.registerPeer peerId peerKey.1 save =
      if node.daemon.registry.contains peerId then [.registry (node.daemon.registry.insertKey key)]
      else Node.persistKeys (node.daemon.registry.insertKey key)
        ((node.daemon.registry.insertKey key).remove peerId) save := by
    simp only [Node.registerPeer, dif_pos peerKey.2, hkey, hid, ne_eq, not_true_eq_false, if_false]
  rw [heffects]
  split_ifs with hcont
  · exact hin
  · rw [Bool.not_eq_true] at hcont
    rw [hcont] at hsave
    cases save with
    | saved => exact hin
    | notRenamed | notSynced => cases hsave

/-! ## All the peers -/

namespace Startup

/-- Keys are stored, and every linked peer's key is in the registry. -/
structure Sound (own : H.crypto.Key) (s : Startup H) : Prop where
  stored : KeysStored own s.node
  linked : ∀ link ∈ s.links, ∃ key, H.crypto.keyOfSec1 link.peerKey = some key ∧
    H.crypto.deviceIdOfKey key = link.peerId ∧ Registered s.node.daemon.registry key

variable {s : Startup H}

theorem Sound.kept (h : Sound own s) {node : Node H} (hkept : KeysKept own s.node node) :
    Sound own { s with node := node } := by
  refine ⟨hkept.stored h.stored, fun link hlink => ?_⟩
  obtain ⟨key, hkey, hid, hreg⟩ := h.linked link hlink
  exact ⟨key, hkey, hid, hkept.registered key hreg⟩

variable {s' : Startup H}

theorem Sound.congr (h : Sound own s) (hnode : s'.node = s.node) (hlinks : s'.links = s.links) :
    Sound own s' :=
  ⟨hnode ▸ h.stored, fun link hlink => hnode ▸ h.linked link (hlinks ▸ hlink)⟩

/-- The relay callers have a registry and a file of their own. -/
theorem admitCaller_same {peerId : DeviceId} {callers : DeviceRegistry H.crypto} {save : SaveOutcome}
    {admitted : Bool} (h : s.admitCaller peerId callers save = (s', admitted)) :
    s'.node = s.node ∧ s'.links = s.links := by
  rw [admitCaller] at h
  split_ifs at h
  · obtain ⟨rfl, -⟩ := Prod.mk.inj h
    exact ⟨rfl, rfl⟩
  · obtain ⟨rfl, -⟩ := Prod.mk.inj h
    exact ⟨rfl, rfl⟩
  · obtain ⟨rfl, -⟩ := Prod.mk.inj h
    exact ⟨rfl, rfl⟩

theorem Sound.learnAndLink (h : Sound own s) {peerId : DeviceId} {peerKey : Bytes 33} {key : H.crypto.Key}
    (hkey : H.crypto.keyOfSec1 peerKey = some key) (hid : H.crypto.deviceIdOfKey key = peerId)
    (hreg : Registered s.node.daemon.registry key) (peer : MetPeer) :
    Sound own (s.learnAndLink peerId peerKey peer) := by
  have hkept : KeysKept own s.node _ := .learns (learnDevices_keys s.node (peer.devices.getD []) peer.saveLearned)
  have hnext := h.kept hkept
  refine ⟨hnext.stored, fun link hlink => ?_⟩
  rcases List.mem_append.1 hlink with hlink | hlink
  · exact hnext.linked link hlink
  · obtain rfl := List.mem_singleton.1 hlink
    exact ⟨key, hkey, hid, hkept.registered key hreg⟩

theorem Sound.meet (hinj : Function.Injective H.crypto.deviceIdOfKey) (h : Sound own s) {peer : MetPeer}
    (hmeet : s.meet peer = .ok s') : Sound own s' := by
  rw [Startup.meet] at hmeet
  cases hpeer : registerPeerWithKey s.node.daemon.registry peer.identity with
  | none =>
    rw [hpeer] at hmeet
    obtain rfl := ok.inj hmeet
    exact h
  | some r =>
    obtain ⟨peerId, peerKey, newlyAdded⟩ := r
    rw [hpeer] at hmeet
    dsimp only at hmeet
    obtain ⟨key, hkey, hid, rfl⟩ := registerPeerWithKey_some hpeer
    have hnext := h.kept (.learns (registerPeer_keys hinj s.node peerId peerKey.1 peer.saveKey))
    split_ifs at hmeet with hfailed
    · obtain rfl := ok.inj hmeet
      exact hnext
    · have hreg := registerPeer_registered hkey hid (Bool.not_eq_true _ ▸ hfailed)
      split at hmeet
      · cases hmeet
      · rename_i callers _
        split at hmeet
        · rename_i skipped hclr
          obtain rfl := ok.inj hmeet
          obtain ⟨hnode, hlinks⟩ := admitCaller_same hclr
          exact hnext.congr hnode hlinks
        · rename_i admitted hclr
          obtain rfl := ok.inj hmeet
          obtain ⟨hnode, hlinks⟩ := admitCaller_same hclr
          exact (hnext.congr hnode hlinks).learnAndLink hkey hid (hnode ▸ hreg) peer

theorem Sound.meetAll (hinj : Function.Injective H.crypto.deviceIdOfKey) (peers : List MetPeer) (h : Sound own s)
    (hmeet : s.meetAll peers = .ok s') : Sound own s' := by
  induction peers generalizing s with
  | nil =>
    obtain rfl := ok.inj hmeet
    exact h
  | cons peer peers ih =>
    rw [Startup.meetAll] at hmeet
    cases hone : s.meet peer with
    | error e =>
      rw [hone] at hmeet
      cases hmeet
    | ok next =>
      rw [hone] at hmeet
      exact ih (h.meet hinj hone) hmeet

/-- The second replay touches neither the keys nor the links. -/
theorem replayAgain_same (h : s.replayAgain = .ok s') :
    s'.node.daemon.registry = s.node.daemon.registry ∧ s'.node.disk.peerKeys = s.node.disk.peerKeys ∧
      s'.links = s.links := by
  rw [replayAgain] at h
  split_ifs at h with hlearned
  · dsimp only at h
    split_ifs at h with hnew
    · obtain rfl := ok.inj h
      exact ⟨rfl, rfl, rfl⟩
    · split at h
      · cases h
      · obtain rfl := ok.inj h
        exact ⟨rfl, rfl, rfl⟩
  · obtain rfl := ok.inj h
    exact ⟨rfl, rfl, rfl⟩

/-- What is loaded from the key file is in it. -/
theorem loadPeerKeys_stored {disk : Disk} {registry : DeviceRegistry H.crypto} {id : DeviceId} {key : H.crypto.Key}
    (h : (loadPeerKeys disk registry).keyFor id = some key) :
    registry.keyFor id = some key ∨ StoredKey disk key := by
  rw [loadPeerKeys] at h
  rw [StoredKey]
  generalize disk.peerKeys.current.getD [] = keys at h ⊢
  induction keys generalizing registry with
  | nil => exact .inl h
  | cons bytes keys ih =>
    rw [List.foldl_cons] at h
    have hrest : (∃ b ∈ keys, ∃ h : b.length = 33, H.crypto.keyOfSec1 ⟨b, h⟩ = some key) →
        ∃ b ∈ bytes :: keys, ∃ h : b.length = 33, H.crypto.keyOfSec1 ⟨b, h⟩ = some key := by
      rintro ⟨b, hb, hkey⟩
      exact ⟨b, List.mem_cons_of_mem _ hb, hkey⟩
    rcases ih h with hin | hstd
    · split_ifs at hin with hlen
      · cases hkey : H.crypto.keyOfSec1 ⟨bytes, hlen⟩ with
        | none =>
          rw [insertSec1, hkey] at hin
          exact .inl hin
        | some new =>
          rw [insertSec1, hkey, map_some, getD_some, keyFor_insertKey] at hin
          split_ifs at hin with hid
          · obtain rfl := some.inj hin
            exact .inr ⟨bytes, List.mem_cons_self, hlen, hkey⟩
          · exact .inl hin
      · exact .inl hin
    · exact .inr (hrest hstd)

theorem startDaemon_stored {own : H.crypto.Key} {disk disk' : Disk} {clock : H.Clock} {random : Epoch}
    {store : H.store.State} {daemon : Daemon H}
    (h : startDaemon own disk clock random store = (disk', some daemon)) :
    KeysStored own ⟨disk', daemon⟩ := by
  rw [startDaemon] at h
  split at h
  · cases h
  · obtain ⟨rfl, hdmn⟩ := Prod.mk.inj h
    obtain rfl := some.inj hdmn
    intro id key hk
    rcases loadPeerKeys_stored hk with hown | hstd
    · rw [keyFor_insertKey] at hown
      split_ifs at hown
      · exact .inl (some.inj hown).symm
      · cases hown
    · exact .inr hstd

/-- When the drain loop starts, every key of the registry is the own one or in the key file, and
every linked peer's key is in the registry. -/
theorem keys_stored_before_drain (hinj : Function.Injective H.crypto.deviceIdOfKey) (own : H.crypto.Key)
    (disk : Disk) (relayCallersFile : AtomicFile (List (List Byte))) (clock : H.Clock) (random : Epoch)
    (store : H.store.State) (peers : List MetPeer) {s : Startup H}
    (hstart : start own disk relayCallersFile clock random store peers = .ok s) :
    (∀ id key, s.node.daemon.registry.keyFor id = some key → key = own ∨ StoredKey s.node.disk key) ∧
    ∀ link ∈ s.links, ∃ key, H.crypto.keyOfSec1 link.peerKey = some key ∧
      H.crypto.deviceIdOfKey key = link.peerId ∧ s.node.daemon.registry.keyFor link.peerId = some key := by
  rw [start] at hstart
  split at hstart
  · cases hstart
  · rename_i disk' daemon hdmn
    dsimp only at hstart
    split at hstart
    · cases hstart
    · rename_i met hmet
      have hfst : Sound own ⟨⟨disk', daemon⟩, loadKeys relayCallersFile (DeviceRegistry.new.insertKey own),
          relayCallersFile, [], false⟩ :=
        ⟨startDaemon_stored hdmn, fun link hlink => absurd hlink List.not_mem_nil⟩
      have hsound := hfst.meetAll hinj peers hmet
      obtain ⟨hregistry, hfile, hlinks⟩ := replayAgain_same hstart
      rw [hregistry, hlinks]
      constructor
      · intro id key hk
        refine (hsound.stored id key hk).imp_right fun hstd => ?_
        rwa [StoredKey, hfile]
      · intro link hlink
        obtain ⟨key, hkey, hid, hreg⟩ := hsound.linked link hlink
        exact ⟨key, hkey, hid, hid ▸ hreg⟩

/-! ## A start in which saves fail -/

namespace FailingSaves

def self : Bytes 32 := padTo 32 [1]

def entry (n : Byte) : DeviceId × List Byte := (padTo 32 [n], (padTo 33 [n]).1)

/-- The first peer is saved and linked, but not the devices of its book; the second cannot be
saved; the third is saved but not as a relay caller; the fourth is known from a book by then. -/
def peers : List MetPeer :=
  [⟨some (entry 2), some [entry 3, entry 4], .saved, .saved, .notSynced⟩,
    ⟨some (entry 5), none, .notSynced, .saved, .saved⟩,
    ⟨some (entry 6), some [entry 7], .saved, .notRenamed, .saved⟩,
    ⟨some (entry 3), some [entry 4], .saved, .saved, .saved⟩]

def started : Except String (Startup plainHost) := start self .empty .empty () (fill 32 3) (∅ : KvStore) peers

def outline (s : Startup plainHost) : List DeviceId × List DeviceId :=
  (s.links.map (·.peerId), s.node.daemon.registry.keys.keys)

theorem started_outline : started.toOption.map outline =
    some ([padTo 32 [2], padTo 32 [3]],
      [padTo 32 [1], padTo 32 [2], padTo 32 [3], padTo 32 [4], padTo 32 [6]]) := by
  decide +kernel

end FailingSaves

open FailingSaves in
theorem keys_stored_before_drain_failing :
    ∃ s, started = .ok s ∧ s.links.map (·.peerId) = [padTo 32 [2], padTo 32 [3]] ∧
      (∀ id key, s.node.daemon.registry.keyFor id = some key →
        key = self ∨ StoredKey (H := plainHost) s.node.disk key) ∧
      ∀ link ∈ s.links, ∃ key, plainHost.crypto.keyOfSec1 link.peerKey = some key ∧
        plainHost.crypto.deviceIdOfKey key = link.peerId ∧
          s.node.daemon.registry.keyFor link.peerId = some key := by
  cases h : started with
  | error e =>
    have hnone := started_outline
    rw [h] at hnone
    cases hnone
  | ok s =>
    have hsome := started_outline
    rw [h] at hsome
    refine ⟨s, rfl, congrArg Prod.fst (Option.some.inj hsome), ?_⟩
    exact keys_stored_before_drain plainHost_deviceId_injective self .empty .empty () (fill 32 3)
      (∅ : KvStore) peers h

end Startup

end ProxyNode
