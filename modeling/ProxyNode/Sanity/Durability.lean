import ProxyNode.Base.Journal
import ProxyNode.Sanity.Replay
import ProxyNode.Spec.RelayRun

/-! The invariant of the daemon's files and of the process over them. A cursor vouches for
ops whose frames are synced and whose keys are in every version of the key file; the log in
memory holds nothing the file does not. -/

namespace ProxyNode

open Wire

variable {H : Host} {own : H.crypto.Key} {streams : Streams} {disk disk' : Disk}

/-! ## The disk -/

def DurableKey (own : H.crypto.Key) (disk : Disk) (key : H.crypto.Key) : Prop :=
  key = own ∨ ∀ v ∈ disk.peerKeys.versions, ∃ keys, v = some keys ∧ (H.crypto.sec1Compressed key).1 ∈ keys

def Holds (own : H.crypto.Key) (disk : Disk) (id : OpId) : Prop :=
  HeldIn (DurableKey own disk) disk.oplog.durable id

structure Keeps (own : H.crypto.Key) (disk disk' : Disk) : Prop where
  keys : ∀ key, DurableKey own disk key → DurableKey own disk' key
  holds : ∀ id, Holds own disk id → Holds own disk' id

theorem Keeps.of_durable (hk : ∀ key, DurableKey own disk key → DurableKey own disk' key)
    (hd : disk.oplog.durable <+: disk'.oplog.durable) : Keeps own disk disk' :=
  ⟨hk, fun _ h => h.mono hk hd⟩

theorem DurableKey.of_versions {key : H.crypto.Key} (h : DurableKey own disk key)
    (hv : ∀ v ∈ disk'.peerKeys.versions, v ∈ disk.peerKeys.versions) : DurableKey own disk' key :=
  h.imp_right fun h v hv' => h v (hv v hv')

/-- A cursor that vouches for its ops: it has an epoch drawn before or is the first
contact, and while the server's stream still has that epoch, everything at or below it is
in the stream and meets `P`. -/
structure Vouches (streams : Streams) (peer : DeviceId) (cursor : RelayCursor) (P : OpId → Prop) : Prop where
  drawn : cursor = .start ∨ cursor.epoch ∈ streams.epochs
  within : ∀ server, streams.servers.get? peer = some server → cursor.epoch = server.relayEpoch →
    cursor.after ≤ server.arrivals.length ∧ ∀ op ∈ server.arrivals.take cursor.after, P op.id

theorem Vouches.mono {peer : DeviceId} {cursor : RelayCursor} {P Q : OpId → Prop}
    (h : Vouches streams peer cursor P) (hpq : ∀ id, P id → Q id) : Vouches streams peer cursor Q := by
  refine ⟨h.drawn, fun server hs he => ?_⟩
  obtain ⟨hle, hops⟩ := h.within server hs he
  exact ⟨hle, fun op hop => hpq _ (hops op hop)⟩

/-- Servers have drawn their epochs, no epoch is the first-contact one, and every op fits
behind a 32-bit length. -/
structure StreamsOk (streams : Streams) : Prop where
  drawn : ∀ peer server, streams.servers.get? peer = some server → server.relayEpoch ∈ streams.epochs
  nonzero : ∀ epoch ∈ streams.epochs, epoch ≠ zeroEpoch
  fits : ∀ peer server, streams.servers.get? peer = some server →
    ∀ op ∈ server.arrivals, op.toBytes.length < 2 ^ 32

/-- Every version of every cursor file vouches for `P`; a key file holds encoded keys. -/
structure SavedOk (own : H.crypto.Key) (streams : Streams) (disk : Disk) (P : OpId → Prop) : Prop where
  cursors : ∀ peer cursor, some cursor ∈ (disk.relayCursors peer).versions →
    Vouches streams peer cursor fun id => Holds own disk id ∧ P id
  encoded : ∀ keys, some keys ∈ disk.peerKeys.versions →
    ∀ bytes ∈ keys, ∃ key, bytes = (H.crypto.sec1Compressed key).1

theorem SavedOk.mono {P Q : OpId → Prop} (h : SavedOk own streams disk P) (hpq : ∀ id, P id → Q id)
    (hk : Keeps own disk disk')
    (hc : ∀ peer, ∀ v ∈ (disk'.relayCursors peer).versions, v ∈ (disk.relayCursors peer).versions)
    (hv : ∀ v ∈ disk'.peerKeys.versions, v ∈ disk.peerKeys.versions) : SavedOk own streams disk' Q where
  cursors := fun peer cursor hcur => (h.cursors peer cursor (hc peer _ hcur)).mono fun id hid =>
    ⟨hk.holds id hid.1, hpq id hid.2⟩
  encoded := fun keys hkeys => h.encoded keys (hv _ hkeys)

/-! ## The process -/

structure NodeOk (own : H.crypto.Key) (streams : Streams) (node : Node H) : Prop where
  saved : SavedOk own streams node.disk fun id => node.daemon.log.contains id = true
  links : ∀ link ∈ node.daemon.links, Vouches streams link.peerId link.relayCursor fun id =>
    Holds own node.disk id ∧ node.daemon.log.contains id = true
  /-- The log in memory is in the file. -/
  filed : ∀ id, node.daemon.log.contains id = true →
    HeldIn (DurableKey own node.disk) node.disk.oplog.bytes id
  /-- Unless the writer is poisoned, the file ends at a frame boundary. -/
  whole : node.daemon.poisoned = false →
    ∃ payloads : List (List Byte), (∀ p ∈ payloads, Readable p) ∧
      node.disk.oplog.bytes = payloads.flatMap frame
  keys : ∀ id key, node.daemon.registry.keyFor id = some key → DurableKey own node.disk key
  known : ∀ key, DurableKey own node.disk key → Registered node.daemon.registry key

/-- The part of the invariant that a stopped process leaves. -/
def DiskOk (own : H.crypto.Key) (streams : Streams) (node : Node H) : Prop :=
  SavedOk own streams node.disk fun _ => True

theorem NodeOk.diskOk {node : Node H} (h : NodeOk own streams node) : DiskOk own streams node :=
  h.saved.mono (fun _ _ => trivial) ⟨fun _ => id, fun _ => id⟩ (fun _ _ => id) fun _ => id

section Effects

variable {node : Node H}

/-- A change of the op-log file that keeps what is durable leaves the saved cursors sound. -/
theorem DiskOk.oplog {oplog : DurableFile} (h : DiskOk own streams node)
    (hd : node.disk.oplog.durable <+: oplog.durable) :
    DiskOk own streams { node with disk := { node.disk with oplog := oplog } } :=
  SavedOk.mono h (fun _ => id) (.of_durable (fun _ => id) hd) (fun _ _ => id) fun _ => id

/-- The invariant over another file and log, if nothing durable or held in memory is lost. -/
theorem NodeOk.oplog {oplog : DurableFile} {log : OpLog} {poisoned : Bool} (h : NodeOk own streams node)
    (hd : ∀ id, Holds own node.disk id → HeldIn (DurableKey own node.disk) oplog.durable id)
    (hlog : ∀ id, node.daemon.log.contains id = true → log.contains id = true)
    (hfiled : ∀ id, log.contains id = true → HeldIn (DurableKey own node.disk) oplog.bytes id)
    (hwhole : poisoned = false → ∃ payloads : List (List Byte), (∀ p ∈ payloads, Readable p) ∧
      oplog.bytes = payloads.flatMap frame) :
    NodeOk own streams
      ⟨{ node.disk with oplog := oplog }, { node.daemon with log := log, poisoned := poisoned }⟩ where
  saved := h.saved.mono hlog ⟨fun _ => id, hd⟩ (fun _ _ => id) fun _ => id
  links := fun link hl => (h.links link hl).mono fun id hid => ⟨hd id hid.1, hlog id hid.2⟩
  filed := hfiled
  whole := hwhole
  keys := h.keys
  known := h.known

theorem NodeOk.clock (h : NodeOk own streams node) (clock : H.Clock) :
    NodeOk own streams (node.perform (.clock clock)) :=
  ⟨h.saved, h.links, h.filed, h.whole, h.keys, h.known⟩

theorem NodeOk.replay (h : NodeOk own streams node) : NodeOk own streams (node.perform .replay) :=
  ⟨h.saved, h.links, h.filed, h.whole, h.keys, h.known⟩

theorem NodeOk.sync (h : NodeOk own streams node) : NodeOk own streams (node.perform (.disk .sync)) ∧
    ∀ id, node.daemon.log.contains id = true → Holds own (node.perform (.disk .sync)).disk id := by
  have hs : ∀ id, HeldIn (DurableKey own node.disk) node.disk.oplog.bytes id →
      HeldIn (DurableKey own node.disk) node.disk.oplog.sync.durable id := fun id hid => by
    rwa [DurableFile.sync_durable]
  refine ⟨h.oplog (fun i hi => hs i (hi.mono (fun _ => id) (List.take_prefix _ _))) (fun _ => id)
    h.filed h.whole, fun i hi => hs i (h.filed i hi)⟩

theorem mem_modify {α : Type*} {l : List α} {i : ℕ} {f : α → α} {x : α} (h : x ∈ l.modify i f) :
    x ∈ l ∨ ∃ y, l[i]? = some y ∧ x = f y := by
  obtain ⟨j, hj⟩ := List.mem_iff_getElem?.1 h
  rw [List.getElem?_modify] at hj
  obtain ⟨y, hy, rfl⟩ := Option.map_eq_some_iff.1 hj
  split_ifs with hij
  · exact .inr ⟨y, hij ▸ hy, rfl⟩
  · exact .inl (List.mem_of_getElem? hy)

variable {cursor : RelayCursor}

theorem NodeOk.setCursor {index : ℕ} (h : NodeOk own streams node)
    (hc : ∀ link, node.daemon.links[index]? = some link →
      Vouches streams link.peerId cursor fun id => Holds own node.disk id ∧ node.daemon.log.contains id = true) :
    NodeOk own streams (node.perform (.setCursor index cursor)) where
  saved := h.saved
  links := by
    intro link hl
    rcases mem_modify hl with hl | ⟨old, hold, rfl⟩
    · exact h.links link hl
    · exact hc old hold
  filed := h.filed
  whole := h.whole
  keys := h.keys
  known := h.known

/-! ## Saving a cursor -/

variable {peer : DeviceId}

theorem mem_versions_update {α : Type*} {files : DeviceId → AtomicFile α} {peer' : DeviceId}
    {file : AtomicFile α} {v : Option α} (h : v ∈ (Function.update files peer file peer').versions) :
    v ∈ (files peer').versions ∨ peer' = peer ∧ v ∈ file.versions := by
  by_cases hp : peer' = peer
  · subst hp
    rw [Function.update_self] at h
    exact .inr ⟨rfl, h⟩
  · rw [Function.update_of_ne hp] at h
    exact .inl h

theorem NodeOk.cursorFile {file : AtomicFile RelayCursor} (h : NodeOk own streams node)
    (hfile : ∀ cursor, some cursor ∈ file.versions →
      Vouches streams peer cursor fun id => Holds own node.disk id ∧ node.daemon.log.contains id = true) :
    NodeOk own streams
      ⟨{ node.disk with relayCursors := Function.update node.disk.relayCursors peer file }, node.daemon⟩ where
  saved :=
    { cursors := by
        intro peer' cursor' hv
        rcases mem_versions_update hv with hold | ⟨rfl, hnew⟩
        · exact h.saved.cursors peer' cursor' hold
        · exact hfile cursor' hnew
      encoded := h.saved.encoded }
  links := h.links
  filed := h.filed
  whole := h.whole
  keys := h.keys
  known := h.known

theorem NodeOk.renameCursor (h : NodeOk own streams node)
    (hc : Vouches streams peer cursor fun id => Holds own node.disk id ∧ node.daemon.log.contains id = true) :
    NodeOk own streams (node.perform (.disk (.renameCursor peer cursor))) := by
  refine h.cursorFile fun cursor' hv => ?_
  rcases AtomicFile.mem_versions_rename.1 hv with heq | hv
  · exact Option.some.inj heq ▸ hc
  · exact h.saved.cursors peer cursor' hv

theorem NodeOk.syncCursors (h : NodeOk own streams node) :
    NodeOk own streams (node.perform (.disk (.syncCursors peer))) :=
  h.cursorFile fun cursor hv => h.saved.cursors peer cursor (AtomicFile.mem_versions_syncDir hv)

/-- However the save of a sound cursor ends, and wherever it stops, the invariant holds. -/
theorem NodeOk.saveRelayCursor (h : NodeOk own streams node)
    (hc : Vouches streams peer cursor fun id => Holds own node.disk id ∧ node.daemon.log.contains id = true)
    (outcome : SaveOutcome) :
    Journal.Along Node.perform (NodeOk own streams) node
      ((ProxyNode.saveRelayCursor peer cursor outcome).map .disk) := by
  have hr := h.renameCursor hc
  cases outcome with
  | saved => exact Journal.along_cons.2 ⟨h, Journal.along_cons.2 ⟨hr, Journal.along_nil.2 hr.syncCursors⟩⟩
  | notRenamed => exact Journal.along_nil.2 h
  | notSynced => exact Journal.along_cons.2 ⟨h, Journal.along_nil.2 hr⟩

end Effects

end ProxyNode
