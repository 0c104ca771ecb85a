import ProxyNode.Sanity.Keys
import ProxyNode.Sanity.RelayPull
import ProxyNode.Spec.Kv

/-! Relay cursors are crash-safe. Whatever was pulled, learned, failed or lost in a crash,
a cursor the daemon has or loads under a server's current epoch covers only ops in its log,
as long as every envelope fits behind a 32-bit length. -/

namespace ProxyNode

open Wire Journal RelayWorld List

variable {H : Host} {own : H.crypto.Key} {streams : Streams} {node : Node H}

/-! ## Runs -/

/-- What an event brings into a stream fits behind a 32-bit length. -/
def RelayEvent.Fits : RelayEvent H → Prop
  | .startServer _ log => ∀ op ∈ log.arrivals, op.toBytes.length < 2 ^ 32
  | .append _ op => op.toBytes.length < 2 ^ 32
  | _ => True

structure WorldOk (s : RelayWorld H) : Prop where
  streams : StreamsOk s.streams
  disk : SavedOk s.own s.streams s.disk fun _ => True
  node : ∀ daemon, s.daemon = some daemon → NodeOk s.own s.streams ⟨s.disk, daemon⟩

theorem worldOk_new (own : H.crypto.Key) : WorldOk (new own) where
  streams := ⟨by simp [new], by simp [new], by simp [new]⟩
  disk :=
    { cursors := by simp [new, Disk.empty, AtomicFile.empty, AtomicFile.versions]
      encoded := by simp [new, Disk.empty, AtomicFile.empty, AtomicFile.versions] }
  node := by simp [new]

variable {s : RelayWorld H} {streams : Streams}

/-- Streams that every sound cursor survives. -/
theorem WorldOk.restream (h : WorldOk s) (hs : StreamsOk streams)
    (hv : ∀ peer cursor P, Vouches s.streams peer cursor P → Vouches streams peer cursor P) :
    WorldOk { s with streams := streams } where
  streams := hs
  disk := ⟨fun peer cursor hc => hv _ _ _ (h.disk.cursors peer cursor hc), h.disk.encoded⟩
  node := fun daemon hd =>
    have hn := h.node daemon hd
    ⟨⟨fun peer cursor hc => hv _ _ _ (hn.saved.cursors peer cursor hc), hn.saved.encoded⟩,
      fun link hl => hv _ _ _ (hn.links link hl), hn.filed, hn.whole, hn.keys, hn.known⟩

/-- No cursor carries the epoch a restarted server draws. -/
theorem WorldOk.startServer (h : WorldOk s) {peer : DeviceId} {log : OpLog}
    (hfit : ∀ op ∈ log.arrivals, op.toBytes.length < 2 ^ 32) :
    WorldOk { s with streams := s.streams.start peer log } := by
  unfold Streams.start
  split_ifs with hused
  · exact h
  · refine h.restream ⟨fun p server hp => ?_, fun epoch he => ?_, fun p server hp op hop => ?_⟩ ?_
    · rw [SortedMap.get?_insert] at hp
      split_ifs at hp
      · obtain rfl := Option.some.inj hp
        exact mem_cons_self
      · exact mem_cons_of_mem _ (h.streams.drawn p server hp)
    · rcases mem_cons.1 he with rfl | he
      · exact log.epoch_ne
      · exact h.streams.nonzero epoch he
    · rw [SortedMap.get?_insert] at hp
      split_ifs at hp
      · obtain rfl := Option.some.inj hp
        exact hfit op hop
      · exact h.streams.fits p server hp op hop
    · intro p cursor P hv
      refine ⟨hv.drawn.imp_right (mem_cons_of_mem _), fun server hp he => ?_⟩
      rw [SortedMap.get?_insert] at hp
      split_ifs at hp
      · obtain rfl := Option.some.inj hp
        rcases hv.drawn with rfl | hdrawn
        · exact absurd he.symm log.epoch_ne
        · exact absurd (he ▸ hdrawn) hused
      · exact hv.within server hp he

theorem WorldOk.append (h : WorldOk s) {peer : DeviceId} {op : SignedOp} (hfit : op.toBytes.length < 2 ^ 32) :
    WorldOk { s with streams := s.streams.append peer op } := by
  unfold Streams.append
  split
  · exact h
  · rename_i log hlog
    -- every server is one of before, or the one that grew
    have hcases : ∀ p server, (s.streams.servers.insert peer (log.append op).1).get? p = some server →
        ∃ old, s.streams.servers.get? p = some old ∧ old.Extends server ∧
          ∀ x ∈ server.arrivals, x ∈ old.arrivals ∨ x = op := by
      intro p server hp
      rw [SortedMap.get?_insert] at hp
      split_ifs at hp with heq
      · obtain rfl := Option.some.inj hp
        exact ⟨log, heq ▸ hlog, log.extends_append op, fun x => OpLog.mem_arrivals_append⟩
      · exact ⟨server, hp, .refl _, fun x => Or.inl⟩
    refine h.restream ⟨fun p server hp => ?_, h.streams.nonzero, fun p server hp x hx => ?_⟩ ?_
    · obtain ⟨old, hold, hext, -⟩ := hcases p server hp
      exact hext.epoch ▸ h.streams.drawn p old hold
    · obtain ⟨old, hold, -, hmem⟩ := hcases p server hp
      rcases hmem x hx with hx | rfl
      · exact h.streams.fits p old hold x hx
      · exact hfit
    · intro p cursor P hv
      refine ⟨hv.drawn, fun server hp he => ?_⟩
      obtain ⟨old, hold, hext, -⟩ := hcases p server hp
      obtain ⟨hle, hops⟩ := hv.within old hold (he.trans hext.epoch)
      refine ⟨hle.trans hext.arrivals.length_le, ?_⟩
      rw [hext.take hle]
      exact hops

theorem WorldOk.execute {node : Node H} {effects : List (NodeEffect H)} (h : WorldOk s)
    (ha : Along Node.perform (DiskOk s.own s.streams) node effects)
    (hf : NodeOk s.own s.streams (node.after effects)) (stop : Option ℕ) :
    WorldOk (s.execute node effects stop) := by
  cases stop with
  | none =>
    refine ⟨h.streams, hf.diskOk, fun daemon hd => ?_⟩
    obtain rfl := Option.some.inj hd
    exact hf
  | some n => exact ⟨h.streams, ha n, fun daemon hd => by cases hd⟩

/-! ## Starting -/

variable {disk : Disk}

theorem loaded_vouches {P : OpId → Prop} (hs : StreamsOk streams) (h : SavedOk own streams disk P)
    (peer : DeviceId) :
    Vouches streams peer (loadRelayCursor disk peer) fun id => Holds own disk id ∧ P id := by
  have hstart : Vouches streams peer .start fun id => Holds own disk id ∧ P id := by
    refine ⟨.inl rfl, fun server hsrv he => ?_⟩
    exact absurd he.symm (hs.nonzero _ (hs.drawn peer server hsrv))
  unfold loadRelayCursor
  split
  · exact hstart
  · rename_i cursor hc
    split_ifs
    · exact hstart
    · exact h.cursors peer cursor (hc ▸ AtomicFile.current_mem _)

variable {own : H.crypto.Key}

/-- What a crash leaves is still sound. -/
theorem SavedOk.crash {P : OpId → Prop} (h : SavedOk own streams disk P) (crash : Crash) :
    SavedOk own streams (disk.crash crash) P := by
  refine h.mono (fun _ => id) (.of_durable (fun key hk => ?_) ?_) (fun peer v => ?_) fun v => ?_
  · exact hk.of_versions fun v => AtomicFile.mem_versions_crash
  · rw [Disk.crash, DurableFile.crash_durable]
  · exact AtomicFile.mem_versions_crash
  · exact AtomicFile.mem_versions_crash

/-- The keys a start knows are those that survived. -/
theorem registered_start (hinj : Function.Injective H.crypto.deviceIdOfKey)
    (henc : ∀ keys, some keys ∈ disk.peerKeys.versions → ∀ bytes ∈ keys, ∃ key,
      bytes = (H.crypto.sec1Compressed key).1)
    (hone : disk.peerKeys.versions = [disk.peerKeys.current]) {id : DeviceId} {key : H.crypto.Key} :
    (loadPeerKeys disk (DeviceRegistry.new.insertKey own)).keyFor id = some key ↔
      H.crypto.deviceIdOfKey key = id ∧ DurableKey own disk key := by
  have hnew : ∀ k, (DeviceRegistry.new (C := H.crypto)).keyFor id ≠ some k := fun k => by
    simp [DeviceRegistry.new, DeviceRegistry.keyFor]
  have henc' : ∀ bytes ∈ disk.peerKeys.current.getD [], ∃ key, bytes = (H.crypto.sec1Compressed key).1 := by
    intro bytes hb
    cases hc : disk.peerKeys.current with
    | none => simp [hc] at hb
    | some keys =>
      rw [hc, Option.getD_some] at hb
      exact henc keys (hc ▸ disk.peerKeys.current_mem) bytes hb
  rw [keyFor_loadPeerKeys hinj henc', DeviceRegistry.keyFor_insertKey_iff hinj, DurableKey, hone]
  simp only [hnew key, false_or, mem_singleton, forall_eq]
  cases disk.peerKeys.current with
  | none => simp
  | some keys => simp [and_or_left]

theorem startDaemon_ok (hinj : Function.Injective H.crypto.deviceIdOfKey)
    (h : SavedOk own streams disk fun _ => True) (hone : disk.peerKeys.versions = [disk.peerKeys.current])
    (clock : H.Clock) (random : Epoch) (store : H.store.State) :
    (SavedOk own streams (startDaemon own disk clock random store).1 fun _ => True) ∧
      ∀ daemon, (startDaemon own disk clock random store).2 = some daemon →
        NodeOk own streams ⟨(startDaemon own disk clock random store).1, daemon⟩ := by
  generalize hreg : loadPeerKeys disk (DeviceRegistry.new.insertKey own) = registry
  have hkeys : ∀ id key, registry.keyFor id = some key → DurableKey own disk key := fun id key hk =>
    ((registered_start hinj h.encoded hone).1 (hreg ▸ hk)).2
  have hkn : ∀ key, DurableKey own disk key → Registered registry key := fun key hk =>
    hreg ▸ (registered_start hinj h.encoded hone).2 ⟨rfl, hk⟩
  obtain ⟨hwhole, -, hgain⟩ := @replayOplogFile_spec _ registry disk.oplog (.new random)
  generalize hrep : replayOplogFile registry disk.oplog (.new random) = replayed
  have hkeep : Keeps own disk { disk with oplog := replayed.2 } := by
    refine ⟨fun _ => id, fun id hid => ?_⟩
    have := HeldIn.cut registry (.new random) hid (List.take_prefix _ _)
    rwa [← replayOplogFile_durable, hrep] at this
  have hin : ∀ id, Holds own disk id → replayed.1.contains id = true := fun i hi => by
    rw [← hrep]
    exact HeldIn.replayed (hi.mono (fun _ => id) (List.take_prefix _ _)) hkn
  have hsav : SavedOk own streams { disk with oplog := replayed.2 } fun i => replayed.1.contains i = true :=
    ⟨fun peer cursor hc => (h.cursors peer cursor hc).mono fun i hi => ⟨hkeep.holds i hi.1, hin i hi.1⟩,
      h.encoded⟩
  have hfiled : ∀ id, replayed.1.contains id = true → HeldIn (DurableKey own disk) replayed.2.bytes id := by
    intro i hi
    rw [hrep] at hgain
    rcases hgain i hi with hnew | hheld
    · simp [OpLog.new, OpLog.contains] at hnew
    · exact hheld.mono (fun key hk => hkeys _ key hk) (prefix_refl _)
  rw [hrep] at hwhole
  simp only [startDaemon, hreg, hrep]
  have hdisk : SavedOk own streams { disk with oplog := replayed.2 } fun _ => True :=
    hsav.mono (fun _ _ => trivial) ⟨fun _ => id, fun _ => id⟩ (fun _ _ => id) fun _ => id
  split
  · exact ⟨hdisk, fun daemon hd => by cases hd⟩
  · refine ⟨hdisk, fun daemon hd => ?_⟩
    obtain rfl := Option.some.inj hd
    exact ⟨hsav, by simp, hfiled, fun _ => hwhole, hkeys, hkn⟩

theorem startDaemon_some {disk : Disk} {clock : H.Clock} {random : Epoch} {store : H.store.State}
    {daemon : Daemon H} (h : (startDaemon own disk clock random store).2 = some daemon) :
    daemon.registry = loadPeerKeys disk (DeviceRegistry.new.insertKey own) ∧
      daemon.log = (replayOplogFile daemon.registry disk.oplog (.new random)).1 := by
  unfold startDaemon at h
  dsimp only at h
  split at h
  · cases h
  · obtain rfl := Option.some.inj h
    exact ⟨rfl, rfl⟩

theorem NodeOk.replayAgain (h : NodeOk own streams node) :
    NodeOk own streams
      ⟨{ node.disk with oplog := (replayOplogFile node.daemon.registry node.disk.oplog node.daemon.log).2 },
        { node.daemon with log := (replayOplogFile node.daemon.registry node.disk.oplog node.daemon.log).1 }⟩ := by
  obtain ⟨hwhole, hext, hgain⟩ := @replayOplogFile_spec _ node.daemon.registry node.disk.oplog node.daemon.log
  refine h.oplog (fun i hi => ?_) (fun i hi => hext.contains hi) (fun i hi => ?_) fun _ => hwhole
  · rw [replayOplogFile_durable]
    exact HeldIn.cut _ _ hi (List.take_prefix _ _)
  · rcases hgain i hi with hold | hheld
    · rw [replayOplogFile_bytes]
      exact HeldIn.cut _ _ (h.filed i hold) (prefix_refl _)
    · exact hheld.mono (fun key hk => h.keys _ key hk) (prefix_refl _)

theorem NodeOk.openLink (h : NodeOk own streams node) (hs : StreamsOk streams) (peer : DeviceId) :
    NodeOk own streams
      ⟨node.disk,
        { node.daemon with links := node.daemon.links ++ [⟨peer, loadRelayCursor node.disk peer⟩] }⟩ := by
  refine ⟨h.saved, fun link hl => ?_, h.filed, h.whole, h.keys, h.known⟩
  rcases mem_append.1 hl with hl | hl
  · exact h.links link hl
  · rw [mem_singleton.1 hl]
    exact loaded_vouches hs h.saved peer

/-! ## The theorem -/

theorem WorldOk.step (hinj : Function.Injective H.crypto.deviceIdOfKey) (h : WorldOk s) {event : RelayEvent H}
    (hfit : event.Fits) : WorldOk (s.step event) := by
  cases event with
  | startServer peer log => exact h.startServer hfit
  | append peer op => exact h.append hfit
  | start crash clock random store =>
    simp only [RelayWorld.step]
    split
    · exact h
    · obtain ⟨hd, hn⟩ := startDaemon_ok hinj (h.disk.crash crash) rfl clock random store
      exact ⟨h.streams, hd, hn⟩
  | kill => exact ⟨h.streams, h.disk, fun daemon hd => by cases hd⟩
  | registerPeer advertised publicKeySec1 save stop =>
    simp only [RelayWorld.step]
    split
    · exact h
    · rename_i daemon hd
      obtain ⟨ha, hf⟩ := (h.node daemon hd).learns (registerPeer_keys hinj _ advertised publicKeySec1 save)
      exact h.execute ha hf stop
  | learnDevices devices save stop =>
    simp only [RelayWorld.step]
    split
    · exact h
    · rename_i daemon hd
      obtain ⟨ha, hf⟩ := (h.node daemon hd).learns (learnDevices_keys _ devices save)
      exact h.execute ha hf stop
  | replayAgain =>
    simp only [RelayWorld.step]
    split
    · exact h
    · rename_i daemon hd
      have hn := (h.node daemon hd).replayAgain
      refine ⟨h.streams, hn.diskOk, fun daemon' hd' => ?_⟩
      obtain rfl := Option.some.inj hd'
      exact hn
  | openLink peer =>
    simp only [RelayWorld.step]
    split
    · exact h
    · rename_i daemon hd
      refine ⟨h.streams, h.disk, fun daemon' hd' => ?_⟩
      obtain rfl := Option.some.inj hd'
      exact (h.node daemon hd).openLink h.streams peer
  | pull index limit faults stop =>
    simp only [RelayWorld.step]
    split
    · exact h
    rename_i daemon hd
    split
    · exact h
    rename_i link hlink
    split
    · exact h
    rename_i server hsrv
    split
    · exact h
    rename_i page hpage
    obtain ⟨ha, hf⟩ := pullRelay_ok h.streams (h.node daemon hd) hlink hsrv hpage faults
    exact h.execute ha hf stop

theorem WorldOk.run (hinj : Function.Injective H.crypto.deviceIdOfKey) (h : WorldOk s)
    {events : List (RelayEvent H)} (hfit : ∀ event ∈ events, event.Fits) : WorldOk (s.run events) := by
  induction events generalizing s with
  | nil => exact h
  | cons event events ih =>
    obtain ⟨hev, hrest⟩ := forall_mem_cons.1 hfit
    exact ih (h.step hinj hev) hrest

/-- Every cursor the running daemon has in memory or would load, as long as it carries the
server's current epoch, covers only ops in the daemon's log. -/
def CursorsCovered (s : RelayWorld H) : Prop :=
  ∀ daemon, s.daemon = some daemon → ∀ peer server, s.streams.servers.get? peer = some server →
    ∀ cursor, ⟨peer, cursor⟩ ∈ daemon.links ∨ cursor = loadRelayCursor s.disk peer →
      cursor.epoch = server.relayEpoch →
      ∀ op ∈ server.arrivals.take cursor.after, daemon.log.contains op.id = true

/-- Whatever is appended, restarted, pulled, learned, failed or lost in a crash, no cursor
outlives the ops below it, provided every envelope is shorter than `2 ^ 32` bytes. -/
theorem relay_cursors_crash_safe (hinj : Function.Injective H.crypto.deviceIdOfKey) (own : H.crypto.Key)
    (events : List (RelayEvent H)) (hfit : ∀ event ∈ events, event.Fits) :
    CursorsCovered ((RelayWorld.new own).run events) := by
  have h := (worldOk_new own).run hinj hfit
  intro daemon hd peer server hsrv cursor hcur he op hop
  have hn := h.node daemon hd
  rcases hcur with hlink | rfl
  · exact (((hn.links _ hlink).within server hsrv he).2 op hop).2
  · exact (((loaded_vouches h.streams hn.saved peer).within server hsrv he).2 op hop).2

/-- A process that ends takes nothing with it. If what the op-log file held is still in front,
the next start has every op and every key the last process had in memory, even when a
write had failed halfway and whichever version of the key file is found. -/
theorem restart_keeps_log (hinj : Function.Injective H.crypto.deviceIdOfKey) (own : H.crypto.Key)
    (events : List (RelayEvent H)) (hfit : ∀ event ∈ events, event.Fits) (crash : Crash) (clock : H.Clock)
    (random : Epoch) (store : H.store.State) {s : RelayWorld H} (hs : (new own).run events = s)
    {daemon daemon' : Daemon H} (hd : s.daemon = some daemon)
    (hfile : s.disk.oplog.bytes <+: (s.disk.crash crash).oplog.bytes)
    (hd' : (s.run [.kill, .start crash clock random store]).daemon = some daemon') :
    (∀ id, daemon.log.contains id = true → daemon'.log.contains id = true) ∧
      ∀ id key, daemon.registry.keyFor id = some key → Registered daemon'.registry key := by
  have h : WorldOk s := hs ▸ (worldOk_new own).run hinj hfit
  have hn := h.node daemon hd
  obtain ⟨hreg, hlog⟩ := startDaemon_some hd'
  -- every key known before the crash is in whichever key file it leaves
  have hkey : ∀ key, DurableKey s.own s.disk key → DurableKey s.own (s.disk.crash crash) key :=
    fun key hk => hk.of_versions fun v => AtomicFile.mem_versions_crash
  have hkn : ∀ key, DurableKey s.own (s.disk.crash crash) key → Registered daemon'.registry key :=
    fun key hk => hreg ▸ (registered_start hinj (h.disk.crash crash).encoded rfl).2 ⟨rfl, hk⟩
  refine ⟨fun id hid => ?_, fun id key hk => hkn key (hkey key (hn.keys id key hk))⟩
  rw [hlog]
  exact ((hn.filed id hid).mono hkey hfile).replayed hkn

/-! ## One op through a restart -/

namespace Restart

def self : Bytes 32 := padTo 32 [1]

def peer : Bytes 32 := padTo 32 [7]

/-- Nothing is lost: the crash leaves every file as it was. -/
def quiet : Crash := ⟨[], 0, fun _ => 0⟩

def noFaults : PullFaults := ⟨fun _ => .written, true, .saved⟩

def setup : List (RelayEvent plainHost) :=
  [.start quiet () (fill 32 3) (∅ : KvStore), .registerPeer peer (padTo 33 peer.1).1 .saved none, .openLink peer]

def events (op : SignedOp) : List (RelayEvent plainHost) :=
  setup ++ [.startServer peer (plainLog [op]), .pull 0 512 noFaults none, .kill,
    .start quiet () (fill 32 4) (∅ : KvStore)]

/-- The op has been pulled and the process still runs. -/
def pulledWorld : RelayWorld plainHost := (new self).run ((events (plainPut peer 5)).take 5)

def restartedWorld : RelayWorld plainHost :=
  pulledWorld.run [.kill, .start quiet () (fill 32 4) (∅ : KvStore)]

end Restart

open Restart in
/-- A small op is still there after the restart, below the cursor. -/
theorem relay_cursors_crash_safe_restart :
    loadRelayCursor ((RelayWorld.new self).run (events (plainPut peer 5))).disk peer = ⟨fill 32 9, 1⟩ ∧
      CursorsCovered ((RelayWorld.new self).run (events (plainPut peer 5))) := by
  have hfit : ∀ event ∈ events (plainPut peer 5), event.Fits := by
    have hsml : ∀ op ∈ (plainLog [plainPut peer 5]).arrivals, op.toBytes.length < 2 ^ 32 := by
      decide +kernel
    simpa [events, setup, RelayEvent.Fits] using hsml
  exact ⟨by decide +kernel, relay_cursors_crash_safe plainHost_deviceId_injective self _ hfit⟩

open Restart in
theorem restart_keeps_log_pulled : ∃ daemon daemon', pulledWorld.daemon = some daemon ∧
    restartedWorld.daemon = some daemon' ∧ daemon.log.contains (plainPut peer 5).id = true ∧
    daemon'.log.contains (plainPut peer 5).id = true := by
  have hfit : ∀ event ∈ (events (plainPut peer 5)).take 5, event.Fits := by
    have hsml : ∀ op ∈ (plainLog [plainPut peer 5]).arrivals, op.toBytes.length < 2 ^ 32 := by
      decide +kernel
    simpa [events, setup, RelayEvent.Fits] using hsml
  have hup : pulledWorld.daemon.isSome = true := by decide +kernel
  have hup' : restartedWorld.daemon.isSome = true := by decide +kernel
  have hin : (pulledWorld.daemon.get hup).log.contains (plainPut peer 5).id = true := by
    revert hup
    decide +kernel
  exact ⟨_, _, (Option.some_get hup).symm, (Option.some_get hup').symm, hin,
    (restart_keeps_log plainHost_deviceId_injective self _ hfit quiet () (fill 32 4) (∅ : KvStore) rfl
      (Option.some_get hup).symm (by decide +kernel) (Option.some_get hup').symm).1 _ hin⟩

/-! ## An op that wraps its length -/

/-- A payload of `2 ^ 32` bytes is framed behind a length of zero, and the scan stops there
if the fold refuses an empty payload. -/
theorem scanFrames_wrapped {σ : Type*} {step : σ → List Byte → Option σ} {s : σ} {payload : List Byte}
    (hlen : payload.length = 2 ^ 32) (hstep : step s [] = none) (fuel : ℕ) :
    scanFrames step fuel (frame payload) s = (s, 0) := by
  cases fuel with
  | zero => rfl
  | succ fuel =>
    have h4 : takeBytes 4 (frame payload) = some (le32 payload.length, payload) :=
      takeBytes_eq_some.2 ⟨rfl, le32_length _⟩
    have hzero : takeBytes (ofLe32 (le32 payload.length)) payload = some ([], payload) :=
      takeBytes_eq_some.2 ⟨rfl, by rw [ofLe32_le32, hlen]; rfl⟩
    simp only [scanFrames, h4, hzero, hstep]

namespace Restart

def ready : RelayWorld plainHost := (RelayWorld.new self).run setup

theorem ready_up : ready.daemon.isSome = true := by decide +kernel

def daemon : Daemon plainHost := ready.daemon.get ready_up

def up : Node plainHost := ⟨ready.disk, daemon⟩

def epoch : Epoch := fill 32 9

theorem plainLog_one (op : SignedOp) : (plainLog [op]).arrivals = [op] := by
  have hnew : (OpLog.new (fill 32 9)).contains op.id = false := by simp [OpLog.contains, OpLog.new]
  change ((OpLog.new (fill 32 9)).append op).1.arrivals = [op]
  rw [OpLog.arrivals_append_new hnew]
  rfl

theorem plainLog_epoch (op : SignedOp) : (plainLog [op]).relayEpoch = epoch :=
  (OpLog.append_relayEpoch _ op).trans (by decide +kernel)

theorem fetched {op : SignedOp} (hv : op.body.v = envelopeVersion) :
    fetchRelayOps (plainLog [op]) .start 512 = .ok ⟨epoch, 1, 0, 1, false, [⟨1, op⟩]⟩ := by
  have hstate : (plainLog [op]).relayState = ⟨epoch, 1, 0⟩ := by
    rw [OpLog.relayState, plainLog_epoch, ← OpLog.length_arrivals, plainLog_one]
    rfl
  have hpage : (plainLog [op]).relayPage 0 512 = ⟨⟨epoch, 1, 0⟩, [⟨1, op⟩]⟩ := by
    have hents := OpLog.relayPage_entries (plainLog [op]) 0 512
    rw [plainLog_one] at hents
    exact congrArg₂ RelayLogPage.mk hstate hents
  have hz : epoch ≠ zeroEpoch := by decide +kernel
  have hget : getRelayOps (plainLog [op]).relayState ((plainLog [op]).relayPage 0 512) zeroEpoch 0 512 =
      .ok (relayResponse ⟨epoch, 1, 0⟩ false 1 [⟨1, op⟩]) := by
    rw [hstate, hpage]
    simp [getRelayOps, validRelayState, relayNeedsReset, hz, hz.symm, contiguous, defaultPullLimit]
  simp only [fetchRelayOps, RelayCursor.start, hget]
  simp [decodeRelayResponse, relayResponse, relayProtocolVersion, hz, hz.symm, contiguous, decodeRelayEntries,
    SignedOp.fromBytes_toBytes hv]

theorem up_links : up.daemon.links = [⟨peer, .start⟩] := by decide +kernel

theorem up_key : up.daemon.registry.keyFor peer = some peer := by
  have hkeys : up.daemon.registry.keys.entries.map Prod.fst = [self, peer] := by decide +kernel
  have hmem : peer ∈ up.daemon.registry.keys.keys := by
    rw [SortedMap.keys, hkeys]
    simp
  obtain ⟨key, hkey⟩ := SortedMap.mem_keys.1 hmem
  have hself : key = peer := (padTo_padTo key).symm.trans (up.daemon.registry.derives peer key hkey)
  exact hself ▸ hkey

theorem up_fresh (id : OpId) : up.daemon.log.contains id = false := by
  have hids : up.daemon.log.ids = ∅ := by decide +kernel
  simp [OpLog.contains, hids]

theorem up_entries : up.daemon.log.ops.entries = [] := by decide +kernel

theorem up_file : up.disk.oplog = .empty := by
  apply DurableFile.ext
  · decide +kernel
  · decide +kernel

/-- An op of the server for another store whose envelope has `2 ^ 32` bytes. -/
structure Wraps (op : SignedOp) : Prop where
  version : op.body.v = envelopeVersion
  device : op.body.device = peer
  verified : op.verify plainHost.crypto peer = .ok ()
  foreign : op.body.store ≠ kvStoreId
  length : op.toBytes.length = 2 ^ 32

/-- The key/value store passes over the ops of other stores. -/
theorem applyLoop_foreign {ops : List SignedOp} (h : ∀ op ∈ ops, op.body.store ≠ kvStoreId) (st : KvStore) :
    kvStore.applyLoop kvStoreId ops st = (st, none) := by
  induction ops with
  | nil => rfl
  | cons op ops ih =>
    obtain ⟨hop, hops⟩ := forall_mem_cons.1 h
    simp only [Store.applyLoop, if_pos hop]
    exact ih hops

variable {op : SignedOp}

def cursor : RelayCursor := ⟨epoch, 1⟩

theorem pulled_replay (h : Wraps op) (st : KvStore) :
    (kvStore.replay (up.daemon.log.append op).1 st).2 = none := by
  have hmem : ∀ x ∈ (up.daemon.log.append op).1.iter, x.body.store ≠ kvStoreId := by
    intro x hx
    obtain ⟨k, hk⟩ : ∃ k, (k, x) ∈ (up.daemon.log.append op).1.ops.entries := by
      simpa [OpLog.iter, SortedMap.values] using hx
    obtain ⟨-, hx⟩ := OpLog.entry_arrived hk
    rcases OpLog.mem_arrivals_append hx with hx | rfl
    · rw [OpLog.mem_arrivals, up_entries] at hx
      cases hx
    · exact h.foreign
  exact congrArg Prod.snd (applyLoop_foreign hmem st)

theorem pulled (h : Wraps op) : up.pullRelay 0 ⟨epoch, 1, 0, 1, false, [⟨1, op⟩]⟩ noFaults =
    [.clock (), .disk (.write (frame op.toBytes)), .append op, .disk .sync, .replay, .setCursor 0 cursor,
      .disk (.renameCursor peer cursor), .disk (.syncCursors peer)] := by
  have hkey : up.daemon.registry.keyFor op.body.device = some peer := h.device ▸ up_key
  have hpois : up.daemon.poisoned = false := by decide +kernel
  have hwrite : up.writerAppend op (noFaults.writes 1) = ([.disk (.write (frame op.toBytes))], none) := by
    simp only [Node.writerAppend, hpois, Bool.false_eq_true, if_false, noFaults]
  have hclk : plainHost.clockUpdate up.daemon.clock op.body.hlc op.body.device = .ok () := rfl
  have hloop : Node.relayLoop noFaults.writes [⟨1, op⟩] up 0 =
      ⟨[.clock (), .disk (.write (frame op.toBytes)), .append op], 1, 1, 1, none⟩ := by
    simp only [Node.relayLoop, hkey, h.verified, hclk, up_fresh, Bool.false_eq_true, if_false, hwrite]
    rfl
  have hsync : (up.syncRelayOnce 0 .start ⟨epoch, 1, 0, 1, false, [⟨1, op⟩]⟩ noFaults).effects =
      [.clock (), .disk (.write (frame op.toBytes)), .append op, .disk .sync, .replay, .setCursor 0 cursor] := by
    have hrep : (plainHost.store.replay (up.daemon.log.append op).1 up.daemon.store).2 = none :=
      pulled_replay h up.daemon.store
    have hfsync : noFaults.fsync = true := rfl
    simp only [Node.syncRelayOnce, RelayCursor.start, hloop, Node.after, foldl_cons, foldl_nil,
      Node.perform, hrep, Bool.false_eq_true, if_false, Nat.one_ne_zero, hfsync, not_true_eq_false]
    rfl
  have hlinks : (up.after [.clock (), .disk (.write (frame op.toBytes)), .append op, .disk .sync, .replay,
      .setCursor 0 cursor]).daemon.links = [⟨peer, cursor⟩] := by
    simp only [Node.after, foldl_cons, foldl_nil, Node.perform, up_links]
    rfl
  have hne : cursor ≠ .start := by decide +kernel
  simp only [Node.pullRelay, up_links, getElem?_cons_zero, hsync, hlinks, if_neg hne]
  rfl

def killed (op : SignedOp) : RelayWorld plainHost :=
  (ready.run [.startServer peer (plainLog [op]), .pull 0 512 noFaults none]).step .kill

theorem killed_eq (h : Wraps op) :
    (killed op).streams = ⟨(∅ : SortedMap DeviceId OpLog).insert peer (plainLog [op]), [epoch]⟩ ∧
    (killed op).own = self ∧ (killed op).daemon = none ∧
    (killed op).disk.oplog.durable = frame op.toBytes ∧
    ((killed op).disk.relayCursors peer).current = some cursor := by
  have hstreams : ready.streams = ⟨∅, []⟩ := rfl
  have hrdy : ready.daemon = some daemon := (Option.some_get ready_up).symm
  have hstart : ready.step (.startServer peer (plainLog [op])) =
      { ready with streams := ⟨(∅ : SortedMap DeviceId OpLog).insert peer (plainLog [op]), [epoch]⟩ } := by
    simp only [RelayWorld.step, Streams.start, hstreams, plainLog_epoch, not_mem_nil, if_false]
  have hlink : daemon.links[0]? = some ⟨peer, .start⟩ := congrArg (fun l => l[0]?) up_links
  have hpull : killed op = (({ ready with streams :=
      ⟨(∅ : SortedMap DeviceId OpLog).insert peer (plainLog [op]), [epoch]⟩ } : RelayWorld plainHost).execute up
        (up.pullRelay 0 ⟨epoch, 1, 0, 1, false, [⟨1, op⟩]⟩ noFaults) none).step .kill := by
    rw [killed, run, foldl_cons, foldl_cons, foldl_nil, hstart]
    simp only [RelayWorld.step, hrdy, hlink, SortedMap.get?_insert_self, fetched h.version]
    rfl
  rw [hpull, pulled h]
  simp only [RelayWorld.step, execute, Node.after, foldl_cons, foldl_nil, Node.perform,
    Disk.perform, Function.update_self, DurableFile.sync_durable, up_file]
  exact ⟨trivial, rfl, trivial, rfl, rfl⟩

/-- The restart: the frame reads as an empty one, so the file is cut to nothing. -/
theorem restarted (h : Wraps op) : ∃ daemon, ((new self).run (events op)).daemon = some daemon ∧
    daemon.log = .new (fill 32 4) ∧
    ((new self).run (events op)).streams.servers.get? peer = some (plainLog [op]) ∧
    loadRelayCursor ((new self).run (events op)).disk peer = cursor := by
  obtain ⟨hstreams, hown, hdown, hfile, hcur⟩ := killed_eq h
  have hrun : (new self).run (events op) =
      (killed op).step (.start quiet () (fill 32 4) (∅ : KvStore)) := by
    simp only [events, killed, ready, run, foldl_append, foldl_cons, foldl_nil]
  generalize hdisk : (killed op).disk.crash quiet = disk
  have hbyt : disk.oplog.bytes = frame op.toBytes := by
    rw [← hdisk, ← hfile]
    exact append_nil _
  have hrefuse : ∀ registry : DeviceRegistry plainHost.crypto,
      replayFrame registry (.new (fill 32 4)) [] = none := fun _ => rfl
  have hrep : ∀ registry : DeviceRegistry plainHost.crypto,
      (replayOplogFile registry disk.oplog (.new (fill 32 4))).1 = .new (fill 32 4) := fun registry => by
    simp only [replayOplogFile, hbyt, scanFrames_wrapped h.length (hrefuse registry)]
  have hload : ((killed op).disk.crash quiet).relayCursors peer = ⟨some cursor, []⟩ := by
    rw [← hcur]
    rfl
  have hsto : plainHost.store.replay (.new (fill 32 4)) (∅ : KvStore) = ((∅ : KvStore), none) := rfl
  rw [hrun]
  simp only [RelayWorld.step, hdown, startDaemon, hdisk, hrep, hsto, Option.some.injEq, exists_eq_left',
    true_and]
  constructor
  · rw [hstreams]
    exact SortedMap.get?_insert_self _ _ _
  · rw [hdisk] at hload
    simp only [loadRelayCursor, hload]
    decide +kernel

theorem Wraps.lost (h : Wraps op) : ¬CursorsCovered ((new self).run (events op)) := by
  obtain ⟨daemon, hup, hlog, hsrv, hload⟩ := restarted h
  intro hcov
  have hin := hcov daemon hup peer _ hsrv _ (.inr rfl) (by rw [hload, plainLog_epoch]; rfl) op
    (by rw [hload, plainLog_one]; exact mem_singleton_self op)
  rw [hlog] at hin
  simp [OpLog.contains, OpLog.new] at hin

def otherStore : StoreId := ⟨ascii "x", by decide +kernel⟩

def foreignOp (payload : Payload) : SignedOp :=
  SignedOp.sealOp plainCrypto ⟨envelopeVersion, 5, peer, otherStore, payload⟩ peer

theorem foreignOp_wraps {payload : Payload} (h : payload.1.length = 2 ^ 32 - 139) :
    Wraps (foreignOp payload) where
  version := rfl
  device := plainCrypto_deviceIdOfKey peer
  verified := sealOp_verify _ peer
  foreign := by
    change otherStore ≠ kvStoreId
    decide +kernel
  length := by
    have hvar : (varint (2 ^ 32 - 139)).length = 5 := by decide +kernel
    have hhlc : (varint (foreignOp payload).body.hlc.val).length = 1 := rfl
    have hsto : (blob (foreignOp payload).body.store.1).length = 2 := by
      change (blob otherStore.1).length = 2
      decide +kernel
    have hpay : (blob (foreignOp payload).body.payload.1).length = 5 + (2 ^ 32 - 139) := by
      change (blob payload.1).length = _
      rw [blob, length_append, h, hvar]
    have hsig : (blob (foreignOp payload).sig.1).length = 65 := by
      rw [blob, length_append, (foreignOp payload).sig.2]
      rfl
    have hid : (blob (foreignOp payload).id.1).length = 33 := by
      rw [blob, length_append, (foreignOp payload).id.2]
      rfl
    simp only [SignedOp.toBytes, canonicalBody, length_append, length_cons, hhlc, hsto, hpay, hsig,
      hid, (foreignOp payload).body.device.2]
    norm_num

def zeros : Payload := ⟨List.replicate (2 ^ 32 - 139) 0, by rw [List.length_replicate]; norm_num⟩

end Restart

open Restart in
/-- A `2 ^ 32`-byte envelope is gone after a restart while the saved cursor covers it. -/
theorem relay_cursor_outlives_op : ¬CursorsCovered ((RelayWorld.new self).run (events (foreignOp zeros))) :=
  (foreignOp_wraps List.length_replicate).lost

end ProxyNode
