import ProxyNode.Spec.Daemon

/-! The start of `pnsd`: the keys and the op-log found on disk, then the peers of the list one
after another, each registered, taken among the relay callers, asked for the devices it knows
and linked. -/

namespace ProxyNode

variable {H : Host}

/-- A peer of the list: its answers to `/identity` and `/devices`, `none` where a request fails,
and how the three saves on its way end. -/
structure MetPeer where
  identity : Option (DeviceId × List Byte)
  devices : Option (List (DeviceId × List Byte))
  saveKey : SaveOutcome
  saveCaller : SaveOutcome
  saveLearned : SaveOutcome

structure PeerLink extends Link where
  peerKey : Bytes 33

structure Startup (H : Host) where
  node : Node H
  relayCallers : DeviceRegistry H.crypto
  relayCallersFile : AtomicFile (List (List Byte))
  links : List PeerLink
  learnedKeys : Bool

/-- A file replaced as a whole, after a save of it. -/
def SaveOutcome.file {α : Type*} (file : AtomicFile α) (a : α) : SaveOutcome → AtomicFile α
  | saved => (file.rename a).syncDir
  | notRenamed => file
  | notSynced => file.rename a

def SaveOutcome.failed : SaveOutcome → Bool
  | saved => false
  | notRenamed | notSynced => true

def loadKeys {C : Crypto} (file : AtomicFile (List (List Byte))) (registry : DeviceRegistry C) :
    DeviceRegistry C :=
  (file.current.getD []).foldl
    (fun registry key =>
      if h : key.length = 33 then (registry.insertSec1 ⟨key, h⟩).getD registry else registry)
    registry

/-- The result of `register_peer_with_key`: the peer, its key, and whether the key is new. -/
def registerPeerWithKey {C : Crypto} (registry : DeviceRegistry C) :
    Option (DeviceId × List Byte) → Option (DeviceId × Bytes 33 × Bool)
  | none => none
  | some (advertised, publicKeySec1) =>
    if h : publicKeySec1.length = 33 then
      match C.keyOfSec1 ⟨publicKeySec1, h⟩ with
      | none => none
      | some key =>
        if C.deviceIdOfKey key ≠ advertised then none
        else some (advertised, ⟨publicKeySec1, h⟩, !registry.contains advertised)
    else none

namespace Startup

/-- Take the peer among the relay callers; `none` if its place there cannot be saved. -/
def admitCaller (s : Startup H) (peerId : DeviceId) (callers : DeviceRegistry H.crypto) (save : SaveOutcome) :
    Startup H × Bool :=
  if s.relayCallers.contains peerId then ({ s with relayCallers := callers }, true)
  else
    let s := { s with relayCallersFile := save.file s.relayCallersFile callers.sec1Keys }
    if save.failed then ({ s with relayCallers := callers.remove peerId }, false)
    else ({ s with relayCallers := callers }, true)

/-- Adopt the devices the peer knows, and link it. -/
def learnAndLink (s : Startup H) (peerId : DeviceId) (peerKey : Bytes 33) (peer : MetPeer) : Startup H :=
  let learned := peer.devices.getD []
  let node := s.node.after (s.node.learnDevices learned peer.saveLearned)
  let added := (Node.learnDeviceEntries (H := H) learned s.node.daemon.registry).2
  { s with
    node := node
    learnedKeys := s.learnedKeys || (added ≠ [] && !peer.saveLearned.failed)
    links := s.links ++
      [{ peerId := peerId, relayCursor := loadRelayCursor node.disk peerId, peerKey := peerKey }] }

/-- One turn of the loop over the peers. A peer that cannot be registered or saved is passed
over; what `registerPeer` does is the registration with the save and the eviction behind it. -/
def meet (s : Startup H) (peer : MetPeer) : Except String (Startup H) :=
  match registerPeerWithKey s.node.daemon.registry peer.identity with
  | none => .ok s
  | some (peerId, peerKey, newlyAdded) =>
    let s := { s with node := s.node.after (s.node.registerPeer peerId peerKey.1 peer.saveKey) }
    if newlyAdded && peer.saveKey.failed then .ok s
    else
      let s := { s with learnedKeys := s.learnedKeys || newlyAdded }
      match s.relayCallers.insertSec1 peerKey with
      | none => .error ("register relay caller " ++ toHex peerId)
      | some callers =>
        match s.admitCaller peerId callers peer.saveCaller with
        | (s, false) => .ok s
        | (s, true) => .ok (s.learnAndLink peerId peerKey peer)

def meetAll (s : Startup H) : List MetPeer → Except String (Startup H)
  | [] => .ok s
  | peer :: peers =>
    match s.meet peer with
    | .error e => .error e
    | .ok s => s.meetAll peers

/-- The second replay, where keys were learned. -/
def replayAgain (s : Startup H) : Except String (Startup H) :=
  if s.learnedKeys then
    let daemon := s.node.daemon
    let replayed := replayOplogFile daemon.registry s.node.disk.oplog daemon.log
    let s : Startup H := { s with
      node := ⟨{ s.node.disk with oplog := replayed.2 }, { daemon with log := replayed.1 }⟩ }
    if replayed.1.relayOrder.length ≤ daemon.log.relayOrder.length then .ok s
    else match H.store.replay replayed.1 daemon.store with
      | (_, some e) => .error ("replay store: " ++ e)
      | (store, none) => .ok { s with node := { s.node with daemon := { s.node.daemon with store := store } } }
  else .ok s

/-- Up to the drain loop, over the files found. -/
def start (own : H.crypto.Key) (disk : Disk) (relayCallersFile : AtomicFile (List (List Byte))) (clock : H.Clock)
    (random : Epoch) (store : H.store.State) (peers : List MetPeer) : Except String (Startup H) :=
  match startDaemon own disk clock random store with
  | (_, none) => .error "replay store"
  | (disk, some daemon) =>
    let callers := loadKeys relayCallersFile (DeviceRegistry.new.insertKey own)
    match meetAll ⟨⟨disk, daemon⟩, callers, relayCallersFile, [], false⟩ peers with
    | .error e => .error e
    | .ok s => s.replayAgain

end Startup

end ProxyNode
