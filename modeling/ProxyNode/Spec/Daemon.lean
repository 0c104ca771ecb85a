import Mathlib.Logic.Function.Basic
import ProxyNode.Base.Files
import ProxyNode.Spec.Puller
import ProxyNode.Spec.Relay

/-! The daemon's relay loop: the op-log file and its replay, saved keys and cursors, one
relay pull and the start of the process. What a call does is the list of its effects in
program order; a process stopped on the way leaves the disk after an initial part. -/

namespace ProxyNode

open Wire

namespace DeviceRegistry

variable {C : Crypto}

def contains (registry : DeviceRegistry C) (id : DeviceId) : Bool := (registry.keyFor id).isSome

/-- Register a compressed public key; bytes that are no key leave the registry as it is. -/
def insertSec1 (registry : DeviceRegistry C) (sec1 : Bytes 33) : Option (DeviceRegistry C) :=
  (C.keyOfSec1 sec1).map registry.insertKey

def sec1Keys (registry : DeviceRegistry C) : List (List Byte) :=
  registry.keys.values.map fun key => (C.sec1Compressed key).1

def remove (registry : DeviceRegistry C) (id : DeviceId) : DeviceRegistry C where
  keys := registry.keys.erase id
  derives := by
    intro id' key h
    rw [SortedMap.get?_erase] at h
    split_ifs at h
    exact registry.derives id' key h

end DeviceRegistry

/-! ## The op-log file -/

/-- What happens to the calls of one append: the file's length cannot be read, everything
is written, or writing stops after some bytes and the rollback's two calls end as given. -/
inductive WriteOutcome
  | noMetadata
  | written
  | failed (bytes : ℕ) (setLen seek : Bool)

inductive SaveOutcome
  | saved
  | notRenamed
  | notSynced

/-- Outcomes of the file system calls of one pull: each frame, by its sequence, the sync
of the batch and the save of the cursor. -/
structure PullFaults where
  writes : ℕ → WriteOutcome
  fsync : Bool
  save : SaveOutcome

structure Disk where
  oplog : DurableFile
  peerKeys : AtomicFile (List (List Byte))
  relayCursors : DeviceId → AtomicFile RelayCursor

inductive DiskEffect
  | write (bytes : List Byte)
  | setLen (n : ℕ)
  | sync
  | renameKeys (keys : List (List Byte))
  | syncKeys
  | renameCursor (peer : DeviceId) (cursor : RelayCursor)
  | syncCursors (peer : DeviceId)

namespace Disk

def empty : Disk := ⟨.empty, .empty, fun _ => .empty⟩

def perform (disk : Disk) : DiskEffect → Disk
  | .write bytes => { disk with oplog := disk.oplog.write bytes }
  | .setLen n => { disk with oplog := disk.oplog.setLen n }
  | .sync => { disk with oplog := disk.oplog.sync }
  | .renameKeys keys => { disk with peerKeys := disk.peerKeys.rename keys }
  | .syncKeys => { disk with peerKeys := disk.peerKeys.syncDir }
  | .renameCursor peer cursor =>
    { disk with relayCursors := Function.update disk.relayCursors peer ((disk.relayCursors peer).rename cursor) }
  | .syncCursors peer =>
    { disk with relayCursors := Function.update disk.relayCursors peer (disk.relayCursors peer).syncDir }

end Disk

/-- One frame of the replay; `none` at a frame that does not decode. An op of an unknown
device or with a bad signature stays in the file and out of the log. -/
def replayFrame {C : Crypto} (registry : DeviceRegistry C) (log : OpLog) (frame : List Byte) : Option OpLog :=
  match SignedOp.fromBytes frame with
  | .error _ => none
  | .ok op =>
    match registry.keyFor op.body.device with
    | none => some log
    | some key =>
      match op.verify C key with
      | .error _ => some log
      | .ok () => some (log.append op).1

/-- Read the file into the log, and cut off what lies behind the last whole frame. -/
def replayOplogFile {C : Crypto} (registry : DeviceRegistry C) (file : DurableFile) (log : OpLog) :
    OpLog × DurableFile :=
  let r := scanFrames (replayFrame registry) file.bytes.length file.bytes log
  (r.1, if r.2 < file.bytes.length then file.setLen r.2 else file)

/-! ## Saved keys and cursors -/

/-- Entries of a wrong length or that are no key are passed over. -/
def loadPeerKeys {C : Crypto} (disk : Disk) (registry : DeviceRegistry C) : DeviceRegistry C :=
  (disk.peerKeys.current.getD []).foldl
    (fun registry key =>
      if h : key.length = 33 then (registry.insertSec1 ⟨key, h⟩).getD registry else registry)
    registry

def loadRelayCursor (disk : Disk) (peer : DeviceId) : RelayCursor :=
  match (disk.relayCursors peer).current with
  | none => .start
  | some cursor => if cursor.epoch = zeroEpoch ∧ cursor.after ≠ 0 then .start else cursor

def SaveOutcome.effects (rename syncDir : DiskEffect) : SaveOutcome → List DiskEffect
  | saved => [rename, syncDir]
  | notRenamed => []
  | notSynced => [rename]

def saveRelayCursor (peer : DeviceId) (cursor : RelayCursor) (outcome : SaveOutcome) : List DiskEffect :=
  outcome.effects (.renameCursor peer cursor) (.syncCursors peer)

def savePeerKeys {C : Crypto} (registry : DeviceRegistry C) (outcome : SaveOutcome) : List DiskEffect :=
  outcome.effects (.renameKeys registry.sec1Keys) .syncKeys

/-! ## The process -/

variable {H : Host}

structure Link where
  peerId : DeviceId
  relayCursor : RelayCursor
deriving DecidableEq

structure Daemon (H : Host) where
  clock : H.Clock
  registry : DeviceRegistry H.crypto
  log : OpLog
  store : H.store.State
  poisoned : Bool
  links : List Link

structure Node (H : Host) where
  disk : Disk
  daemon : Daemon H

inductive NodeEffect (H : Host)
  | disk (effect : DiskEffect)
  | clock (clock : H.Clock)
  | registry (registry : DeviceRegistry H.crypto)
  | append (op : SignedOp)
  | replay
  | poison
  | setCursor (link : ℕ) (cursor : RelayCursor)

namespace Node

def perform (node : Node H) : NodeEffect H → Node H
  | .disk effect => { node with disk := node.disk.perform effect }
  | .clock clock => { node with daemon := { node.daemon with clock := clock } }
  | .registry registry => { node with daemon := { node.daemon with registry := registry } }
  | .append op => { node with daemon := { node.daemon with log := (node.daemon.log.append op).1 } }
  | .replay =>
    { node with daemon := { node.daemon with store := (H.store.replay node.daemon.log node.daemon.store).1 } }
  | .poison => { node with daemon := { node.daemon with poisoned := true } }
  | .setCursor link cursor =>
    { node with
      daemon := { node.daemon with
        links := node.daemon.links.modify link fun l => { l with relayCursor := cursor } } }

def after (node : Node H) (effects : List (NodeEffect H)) : Node H := effects.foldl perform node

/-! ## One relay pull -/

/-- `OplogWriter::append`: what it did and whether it failed. A frame that was not written
whole is cut off again; if that fails too, the writer takes no more. -/
def writerAppend (node : Node H) (op : SignedOp) (outcome : WriteOutcome) :
    List (NodeEffect H) × Option String :=
  if node.daemon.poisoned then
    ([], some "op-log writer poisoned: a torn frame could not be rolled back")
  else match outcome with
    | .noMetadata => ([], some "op-log file io error")
    | .written => ([.disk (.write (frame op.toBytes))], none)
    | .failed bytes setLen seek =>
      let start := node.disk.oplog.bytes.length
      ([.disk (.write ((frame op.toBytes).take bytes))] ++ (if setLen then [.disk (.setLen start)] else []) ++
        (if setLen && seek then [] else [.poison]), some "op-log file io error")

theorem after_append (node : Node H) (a b : List (NodeEffect H)) : node.after (a ++ b) = (node.after a).after b :=
  List.foldl_append

theorem writerAppend_daemon (node : Node H) (op : SignedOp) (outcome : WriteOutcome) :
    ∃ poisoned, (node.after (node.writerAppend op outcome).1).daemon =
      { node.daemon with poisoned := poisoned } := by
  unfold writerAppend
  split_ifs
  · exact ⟨_, rfl⟩
  · cases outcome with
    | noMetadata | written => exact ⟨_, rfl⟩
    | failed bytes setLen seek =>
      cases setLen
      · exact ⟨_, rfl⟩
      · cases seek <;> exact ⟨_, rfl⟩

structure RelayLoop (H : Host) where
  effects : List (NodeEffect H)
  after : ℕ
  received : ℕ
  appended : ℕ
  abort : Option String

def relayLoop (writes : ℕ → WriteOutcome) : List RelayOp → Node H → ℕ → RelayLoop H
  | [], _, after => ⟨[], after, 0, 0, none⟩
  | ⟨seq, op⟩ :: entries, node, after =>
    let subject := "op from device " ++ toHex op.body.device
    match node.daemon.registry.keyFor op.body.device with
    | none => ⟨[], after, 0, 0, some (subject ++ " failed verification: unknown device")⟩
    | some verifying =>
      match op.verify H.crypto verifying with
      | .error e => ⟨[], after, 0, 0, some (subject ++ " failed verification: " ++ e.text)⟩
      | .ok () =>
        match H.clockUpdate node.daemon.clock op.body.hlc op.body.device with
        | .error e =>
          ⟨[], after, 0, 0, some (subject ++ " rejected by drift guard (hlc " ++ toString op.body.hlc.val ++
            "): remote clock rejected by drift guard: " ++ e)⟩
        | .ok clock =>
          if node.daemon.log.contains op.id then
            let rest := relayLoop writes entries (node.after [.clock clock]) seq
            { rest with effects := .clock clock :: rest.effects, received := rest.received + 1 }
          else
            let write := node.writerAppend op (writes seq)
            match write.2 with
            | some e => ⟨.clock clock :: write.1, after, 0, 0, some e⟩
            | none =>
              let effects := .clock clock :: write.1 ++ [.append op]
              let rest := relayLoop writes entries (node.after effects) seq
              ⟨effects ++ rest.effects, rest.after, rest.received + 1, rest.appended + 1, rest.abort⟩

structure RelaySyncOutcome where
  received : ℕ
  appended : ℕ
  reset : Bool

structure RelaySync (H : Host) where
  effects : List (NodeEffect H)
  result : Except String RelaySyncOutcome

/-- `sync_relay_once` from the fetched page on. A failed sync or replay leaves the cursor
where it was. -/
def syncRelayOnce (node : Node H) (index : ℕ) (cursor : RelayCursor) (page : RelayPage)
    (faults : PullFaults) : RelaySync H :=
  if page.reset then ⟨[.setCursor index page.cursor], .ok ⟨0, 0, true⟩⟩
  else
    let loop := relayLoop faults.writes page.entries node cursor.after
    let node := node.after loop.effects
    let result := match loop.abort with
      | some e => .error e
      | none => .ok ⟨loop.received, loop.appended, false⟩
    if loop.after = cursor.after then
      ⟨loop.effects ++ [.setCursor index ⟨page.epoch, loop.after⟩], result⟩
    else if ¬faults.fsync then ⟨loop.effects, .error "op-log file io error"⟩
    else match (H.store.replay node.daemon.log node.daemon.store).2 with
      | some e => ⟨loop.effects ++ [.disk .sync, .replay], .error ("replay failed during sync: " ++ e)⟩
      | none =>
        ⟨loop.effects ++ [.disk .sync, .replay, .setCursor index ⟨page.epoch, loop.after⟩], result⟩

/-- One turn of the daemon's drain over a link: pull a page, and save the cursor if it
moved. A failed save is only reported. -/
def pullRelay (node : Node H) (index : ℕ) (page : RelayPage) (faults : PullFaults) : List (NodeEffect H) :=
  match node.daemon.links[index]? with
  | none => []
  | some link =>
    let sync := node.syncRelayOnce index link.relayCursor page faults
    match (node.after sync.effects).daemon.links[index]? with
    | none => sync.effects
    | some moved =>
      if moved.relayCursor = link.relayCursor then sync.effects
      else sync.effects ++ (saveRelayCursor link.peerId moved.relayCursor faults.save).map .disk

/-! ## Learning keys -/

/-- Put a registry in place, save it, and go back to the one given if that fails. -/
def persistKeys (registry evicted : DeviceRegistry H.crypto) (save : SaveOutcome) : List (NodeEffect H) :=
  .registry registry :: (savePeerKeys registry save).map .disk ++
    match save with
    | .saved => []
    | _ => [.registry evicted]

/-- `register_peer_with_key` and the save behind it: an advertised id must be the one its
key derives; a key that was not known before is saved before it is used. -/
def registerPeer (node : Node H) (advertised : DeviceId) (publicKeySec1 : List Byte) (save : SaveOutcome) :
    List (NodeEffect H) :=
  if h : publicKeySec1.length = 33 then
    match H.crypto.keyOfSec1 ⟨publicKeySec1, h⟩ with
    | none => []
    | some key =>
      if H.crypto.deviceIdOfKey key ≠ advertised then []
      else
        let registry := node.daemon.registry.insertKey key
        if node.daemon.registry.contains advertised then [.registry registry]
        else persistKeys registry (registry.remove advertised) save
  else []

/-- `learn_device_entries`: the registry with every valid key of a device not yet known,
and the devices added. -/
def learnDeviceEntries : List (DeviceId × List Byte) → DeviceRegistry H.crypto →
    DeviceRegistry H.crypto × List DeviceId
  | [], registry => (registry, [])
  | (advertised, publicKeySec1) :: devices, registry =>
    if h : publicKeySec1.length = 33 then
      match H.crypto.keyOfSec1 ⟨publicKeySec1, h⟩ with
      | none => learnDeviceEntries devices registry
      | some key =>
        if H.crypto.deviceIdOfKey key ≠ advertised ∨ registry.contains advertised then
          learnDeviceEntries devices registry
        else
          let rest := learnDeviceEntries devices (registry.insertKey key)
          (rest.1, advertised :: rest.2)
    else learnDeviceEntries devices registry

/-- Adopt the devices a peer vouches for; if they cannot be saved, drop exactly those. -/
def learnDevices (node : Node H) (devices : List (DeviceId × List Byte)) (save : SaveOutcome) :
    List (NodeEffect H) :=
  let learned := learnDeviceEntries (H := H) devices node.daemon.registry
  if learned.2 = [] then []
  else persistKeys learned.1 (learned.2.foldl .remove learned.1) save

end Node

/-! ## Starting -/

structure Crash where
  tail : List Byte
  keys : ℕ
  cursors : DeviceId → ℕ

def Disk.crash (disk : Disk) (crash : Crash) : Disk where
  oplog := disk.oplog.crash crash.tail
  peerKeys := disk.peerKeys.crash crash.keys
  relayCursors := fun peer => (disk.relayCursors peer).crash (crash.cursors peer)

/-- Start over the files found: the own key and the saved ones, then the op-log file. A
store that fails on the replayed log ends the process. -/
def startDaemon (own : H.crypto.Key) (disk : Disk) (clock : H.Clock) (random : Epoch)
    (store : H.store.State) : Disk × Option (Daemon H) :=
  let registry := loadPeerKeys disk (DeviceRegistry.new.insertKey own)
  let replayed := replayOplogFile registry disk.oplog (.new random)
  let disk := { disk with oplog := replayed.2 }
  match H.store.replay replayed.1 store with
  | (_, some _) => (disk, none)
  | (store, none) => (disk, some ⟨clock, registry, replayed.1, store, false, []⟩)

end ProxyNode
