import ProxyNode.Proofs.OplogFile
import ProxyNode.Proofs.ReplayConverges
import ProxyNode.Sanity.RelayPull

/-! One relay pull and the restart behind it, for a node over the key/value store. Payloads
are not looked at before an op is in the file and in the log; the replay of the whole log
stops at the first one that does not decode, in the pull and at every start after it. -/

namespace ProxyNode

open Wire List OpLog Except

def kvHost (C : Crypto) (Clock : Type) (clockUpdate : Clock → Hlc → DeviceId → Except String Clock) : Host where
  crypto := C
  Clock := Clock
  clockUpdate := clockUpdate
  store := kvStore

def noFaults : PullFaults := ⟨fun _ => .written, true, .saved⟩

variable {H : Host}

/-- The entries of a page from its start that are signed under a registered key and that
the drift guard lets pass. -/
def verifiedEntries (registry : DeviceRegistry H.crypto) : H.Clock → List RelayOp → List RelayOp
  | _, [] => []
  | clock, entry :: entries =>
    if registry.accepts entry.op then
      match H.clockUpdate clock entry.op.body.hlc entry.op.body.device with
      | .error _ => []
      | .ok clock => entry :: verifiedEntries registry clock entries
    else []

/-! ## The page -/

theorem decodeRelayEntries_spec {wire : List RelayWireEntry} {entries : List RelayOp}
    (h : decodeRelayEntries wire = .ok entries) :
    entries.map RelayOp.seq = wire.map RelayWireEntry.seq ∧
      ∀ entry ∈ entries, entry.op.body.v = envelopeVersion := by
  induction wire generalizing entries with
  | nil =>
    obtain rfl := ok.inj h
    exact ⟨rfl, nofun⟩
  | cons entry wire ih =>
    rw [decodeRelayEntries] at h
    cases hop : SignedOp.fromBytes entry.envelope with
    | error e => simp [hop] at h
    | ok op =>
      cases hrest : decodeRelayEntries wire with
      | error e => simp [hop, hrest] at h
      | ok rest =>
        obtain rfl : ⟨entry.seq, op⟩ :: rest = entries := by simpa [hop, hrest] using h
        obtain ⟨hseq, hv⟩ := ih hrest
        refine ⟨by rw [map_cons, map_cons, hseq], ?_⟩
        exact forall_mem_cons.2 ⟨SignedOp.fromBytes_version hop, hv⟩

theorem lt_of_contiguous {head after : ℕ} {seqs : List ℕ} (h : contiguous head after seqs = true) :
    ∀ seq ∈ seqs, after < seq := by
  induction seqs generalizing after with
  | nil => nofun
  | cons seq seqs ih =>
    simp only [contiguous, Bool.decide_and, Bool.and_eq_true, decide_eq_true_eq] at h
    obtain ⟨hseq, -, hrest⟩ := h
    refine forall_mem_cons.2 ⟨by omega, fun s hs => ?_⟩
    have := ih hrest s hs
    omega

/-- A page that passed the checks of the response carries sequences behind the cursor. -/
theorem decodeRelayResponse_behind {wire : RelayResponse} {cursor : RelayCursor} {maxEntries : ℕ}
    {page : RelayPage} (h : decodeRelayResponse wire cursor maxEntries false = .ok page)
    (hrst : page.reset = false) :
    (∀ entry ∈ page.entries, cursor.after < entry.seq) ∧
      ∀ entry ∈ page.entries, entry.op.body.v = envelopeVersion := by
  obtain ⟨-, -, hr, hents⟩ := decodeRelayResponse_ok h
  have hwire : wire.reset = false := hr ▸ hrst
  obtain ⟨hseq, hv⟩ := decodeRelayEntries_spec (hents hwire)
  refine ⟨fun entry hent => ?_, hv⟩
  have hcont : contiguous wire.head cursor.after (wire.entries.map RelayWireEntry.seq) = true := by
    unfold decodeRelayResponse at h
    by_contra hne
    simp only [hwire, Bool.false_eq_true, false_and, if_false, not_false_eq_true, true_and, hne] at h
    split_ifs at h
  exact lt_of_contiguous hcont _ (hseq ▸ mem_map_of_mem hent)

/-! ## The loop -/

/-- The file holds a frame for each op of the log, in order of arrival. -/
def Node.Mirrors (node : Node H) : Prop := node.disk.oplog.bytes = opFrames node.daemon.log.arrivals

/-- The loop has only added these ops, in the log and in the file. -/
structure Pulled (ops : List SignedOp) (node node' : Node H) : Prop where
  log : node'.daemon.log = node.daemon.log.takeIn ops
  file : node.Mirrors → node'.Mirrors
  registry : node'.daemon.registry = node.daemon.registry
  store : node'.daemon.store = node.daemon.store
  links : node'.daemon.links = node.daemon.links
  clean : node'.daemon.poisoned = node.daemon.poisoned
  keys : node'.disk.peerKeys = node.disk.peerKeys

theorem Pulled.none (node : Node H) : Pulled [] node node := ⟨rfl, id, rfl, rfl, rfl, rfl, rfl⟩

theorem Pulled.clock (node : Node H) (clock : H.Clock) : Pulled [] node (node.after [.clock clock]) :=
  ⟨rfl, id, rfl, rfl, rfl, rfl, rfl⟩

theorem Pulled.trans {a b c : Node H} {ops ops' : List SignedOp} (h : Pulled ops a b) (h' : Pulled ops' b c) :
    Pulled (ops ++ ops') a c where
  log := by rw [h'.log, h.log, takeIn, takeIn, takeIn, foldl_append]
  file := fun hm => h'.file (h.file hm)
  registry := h'.registry.trans h.registry
  store := h'.store.trans h.store
  links := h'.links.trans h.links
  clean := h'.clean.trans h.clean
  keys := h'.keys.trans h.keys

variable {node : Node H}

theorem Pulled.known {op : SignedOp} (h : node.daemon.log.contains op.id = true) (clock : H.Clock) :
    Pulled [op] node (node.after [.clock clock]) :=
  { Pulled.clock node clock with
    log := by
      rw [takeIn, foldl_cons, append_of_contains h]
      rfl }

theorem Pulled.written {op : SignedOp} (h : node.daemon.log.contains op.id = false) (clock : H.Clock) :
    Pulled [op] node (node.after [.clock clock, .disk (.write (frame op.toBytes)), .append op]) where
  log := rfl
  file := by
    intro hm
    change node.disk.oplog.bytes ++ frame op.toBytes = opFrames (node.daemon.log.append op).1.arrivals
    rw [arrivals_append_new h, opFrames_append, opFrames_singleton, hm]
  registry := rfl
  store := rfl
  links := rfl
  clean := rfl
  keys := rfl

/-- Without faults the loop takes exactly the verified entries. -/
theorem relayLoop_verified (entries : List RelayOp) (hp : node.daemon.poisoned = false) (after : ℕ) :
    let taken := verifiedEntries node.daemon.registry node.daemon.clock entries
    Pulled (taken.map RelayOp.op) node
        (node.after (Node.relayLoop noFaults.writes entries node after).effects) ∧
      (Node.relayLoop noFaults.writes entries node after).after = lastSeq taken after := by
  induction entries generalizing node after with
  | nil => exact ⟨.none node, rfl⟩
  | cons entry entries ih =>
    obtain ⟨seq, op⟩ := entry
    rw [Node.relayLoop, verifiedEntries, DeviceRegistry.accepts]
    simp only
    cases hkey : node.daemon.registry.keyFor op.body.device with
    | none => exact ⟨.none node, rfl⟩
    | some key =>
      cases hver : op.verify H.crypto key with
      | error e =>
        simp only [hver, isOk, Except.toBool, Bool.false_eq_true, if_false]
        exact ⟨.none node, rfl⟩
      | ok u =>
        cases hclk : H.clockUpdate node.daemon.clock op.body.hlc op.body.device with
        | error e =>
          simp only [hver, isOk, Except.toBool, if_true]
          exact ⟨.none node, rfl⟩
        | ok clock =>
          simp only [hver, isOk, Except.toBool, if_true, map_cons, lastSeq_cons]
          by_cases hin : node.daemon.log.contains op.id = true
          · obtain ⟨hrest, haft⟩ := @ih (node.after [.clock clock]) hp seq
            rw [if_pos hin]
            exact ⟨(Pulled.known hin clock).trans hrest, haft⟩
          · rw [if_neg hin]
            have hw : node.writerAppend op .written = ([.disk (.write (frame op.toBytes))], none) := by
              simp only [Node.writerAppend, hp, Bool.false_eq_true, if_false]
            have hnew := eq_false_of_ne_true hin
            obtain ⟨hrest, haft⟩ :=
              @ih (node.after [.clock clock, .disk (.write (frame op.toBytes)), .append op]) hp seq
            simp only [noFaults, hw] at hrest haft ⊢
            exact ⟨(Pulled.written hnew clock).trans hrest, haft⟩

/-! ## The whole log -/

/-- A replay of the key/value store fails exactly at a payload that does not decode. -/
theorem applyLoop_none_iff {ops : List SignedOp} (data : KvStore) :
    (kvStore.applyLoop kvStoreId ops data).2 = none ↔ ∀ op ∈ ops, Decodes op := by
  refine ⟨fun h => ?_, fun h => by rw [applyLoop_eq h]⟩
  induction ops generalizing data with
  | nil => nofun
  | cons op ops ih =>
    by_cases hs : op.body.store = kvStoreId
    · cases hkv : KvOp.decode op.body.payload.1 with
      | none =>
        have hd : kvStore.decode data op.body.payload.1 = .error "kv payload codec error" := by
          simp only [kvStore, hkv]
        simp only [Store.applyLoop, hs, ne_eq, not_true_eq_false, if_false] at h
        rw [hd] at h
        cases h
      | some kv =>
        simp only [Store.applyLoop, hs, ne_eq, not_true_eq_false, if_false] at h
        rw [kvStore_decode hkv data] at h
        exact forall_mem_cons.2 ⟨fun _ => by rw [hkv]; rfl, ih _ h⟩
    · simp only [Store.applyLoop, ne_eq, hs, not_false_eq_true, if_true] at h
      exact forall_mem_cons.2 ⟨fun hs' => absurd hs' hs, ih data h⟩

theorem replay_none_iff (log : OpLog) (data : KvStore) :
    (kvStore.replay log data).2 = none ↔ ∀ op ∈ log.arrivals, Decodes op := by
  refine (applyLoop_none_iff data).trans ?_
  simp only [mem_iter]

theorem accepts_verifiedEntries {registry : DeviceRegistry H.crypto} {clock : H.Clock} {entries : List RelayOp} :
    ∀ entry ∈ verifiedEntries registry clock entries,
      registry.accepts entry.op = true ∧ entry ∈ entries := by
  induction entries generalizing clock with
  | nil => nofun
  | cons entry entries ih =>
    rw [verifiedEntries]
    split_ifs with ha
    · split
      · nofun
      · intro e he
        rcases mem_cons.1 he with rfl | he
        · exact ⟨ha, mem_cons_self⟩
        · exact ⟨(ih e he).1, mem_cons_of_mem _ (ih e he).2⟩
    · nofun

/-! ## A pull and a restart -/

section Kv

variable {C : Crypto} {Clock : Type} {clockUpdate : Clock → Hlc → DeviceId → Except String Clock}

/-- Each key holds what the greatest decodable op naming it says, and no other key is held. -/
def Shows (log : OpLog) (data : KvStore) : Prop :=
  ∀ key, LastWrite kvWrite SignedOp.orderKey log.iter key (data.get? key)

/-- A running node whose log holds correctly signed ops of registered devices: the file
mirrors the log, the registered keys are the saved ones, and the store shows the log. -/
structure Steady (own : C.Key) (node : Node (kvHost C Clock clockUpdate)) : Prop where
  signed : ∀ op ∈ node.daemon.log.arrivals, node.daemon.registry.accepts op = true ∧ Frameable op
  file : node.Mirrors
  clean : node.daemon.poisoned = false
  keys : node.daemon.registry = loadPeerKeys node.disk (DeviceRegistry.new.insertKey own)
  shown : Shows node.daemon.log node.daemon.store

/-- A start over frames of accepted ops succeeds if all their payloads decode. -/
theorem startDaemon_iff {own : C.Key} {disk : Disk} {ops : List SignedOp}
    (hfile : disk.oplog.bytes = opFrames ops)
    (hops : ∀ op ∈ ops, (loadPeerKeys disk (DeviceRegistry.new.insertKey own)).accepts op = true ∧ Frameable op)
    (hids : (ops.map SignedOp.id).Nodup) (clock : Clock) (random : Epoch) :
    (@startDaemon (kvHost C Clock clockUpdate) own disk clock random (∅ : KvStore)).2.isSome = true ↔
      ∀ op ∈ ops, Decodes op := by
  generalize hreg : loadPeerKeys disk (DeviceRegistry.new.insertKey own) = registry
  have htorn : TornFile ops [] disk.oplog.bytes :=
    ⟨fun op hop => (hops op hop).2, .nil, by rw [append_nil, hfile]⟩
  obtain ⟨hlog, -⟩ := htorn.replay registry (.new random)
  rw [filter_eq_self.2 fun op hop => hreg ▸ (hops op hop).1] at hlog
  have harr : (replayOplogFile registry disk.oplog (.new random)).1.arrivals = ops := by
    rw [hlog]
    exact arrivals_takeIn_new random hids
  have hiff := replay_none_iff (replayOplogFile registry disk.oplog (.new random)).1 (∅ : KvStore)
  rw [harr] at hiff
  rw [← hiff]
  have hstart : (@startDaemon (kvHost C Clock clockUpdate) own disk clock random (∅ : KvStore)).2.isSome =
      (kvStore.replay (replayOplogFile registry disk.oplog (.new random)).1 (∅ : KvStore)).2.isNone := by
    rw [← hreg]
    unfold startDaemon
    simp only [kvHost]
    split <;> rename_i hr <;> rw [hr] <;> rfl
  rw [hstart, Option.isNone_iff_eq_none]

/-- After one pull: the cursor is behind every verified entry, the store shows the log, and
a start over the files succeeds. -/
def Survives (own : C.Key) (node : Node (kvHost C Clock clockUpdate)) (index : ℕ) (link : Link)
    (page : RelayPage) : Prop :=
  let taken := verifiedEntries node.daemon.registry node.daemon.clock page.entries
  let after := node.after (node.syncRelayOnce index link.relayCursor page noFaults).effects
  after.daemon.links[index]? = some ⟨link.peerId, ⟨page.epoch, lastSeq taken link.relayCursor.after⟩⟩ ∧
    Shows after.daemon.log after.daemon.store ∧
    ∀ clock random,
      (@startDaemon (kvHost C Clock clockUpdate) own after.disk clock random (∅ : KvStore)).2.isSome = true

variable {node : Node (kvHost C Clock clockUpdate)}

/-- The log and the keys after a pull, and its frames, whatever the replay does. -/
theorem syncRelayOnce_kept (hp : node.daemon.poisoned = false) (index : ℕ) (cursor : RelayCursor)
    {page : RelayPage} (hrst : page.reset = false) :
    let taken := verifiedEntries node.daemon.registry node.daemon.clock page.entries
    let after := node.after (node.syncRelayOnce index cursor page noFaults).effects
    after.daemon.log = node.daemon.log.takeIn (taken.map RelayOp.op) ∧
      (node.Mirrors → after.Mirrors) ∧ after.disk.peerKeys = node.disk.peerKeys := by
  obtain ⟨hloop, -⟩ := relayLoop_verified page.entries hp cursor.after
  unfold Node.syncRelayOnce
  simp only [hrst, Bool.false_eq_true, if_false, noFaults, not_true_eq_false] at hloop ⊢
  split_ifs
  · rw [Node.after_append]
    exact ⟨hloop.log, hloop.file, hloop.keys⟩
  · split
    · rw [Node.after_append]
      exact ⟨hloop.log, hloop.file, hloop.keys⟩
    · rw [Node.after_append]
      exact ⟨hloop.log, hloop.file, hloop.keys⟩

/-- Entries above a cursor move it, unless there are none. -/
theorem eq_nil_of_lastSeq {entries : List RelayOp} {after : ℕ} (habove : ∀ entry ∈ entries, after < entry.seq)
    (hsame : lastSeq entries after = after) : entries = [] := by
  by_contra hne
  obtain ⟨entry, hlast⟩ : ∃ entry, entries.getLast? = some entry := ⟨_, getLast?_eq_some_getLast hne⟩
  have hlt := habove entry (mem_of_getLast? hlast)
  rw [lastSeq, hlast, Option.map_some, Option.getD_some] at hsame
  omega

/-- A replay of a longer log: what the store held before is said by an op that is still there. -/
theorem Shows.replay {log log' : OpLog} {data : KvStore} (h : Shows log data) (hext : log.Extends log') :
    Shows log' (applyWrites kvWrite log'.iter data) := by
  intro key
  refine applyWrites_lastWrite (iter_sorted _) fun v hv => ?_
  rcases h key with ⟨op, hop, hw, -⟩ | ⟨-, hnone⟩
  · exact ⟨op, mem_iter.2 (hext.arrivals.subset (mem_iter.1 hop)), _, hw⟩
  · rw [hnone] at hv
    cases hv

theorem syncRelayOnce_shown {own : C.Key} (h : Steady own node) {index : ℕ} {link : Link}
    (hlink : node.daemon.links[index]? = some link) {page : RelayPage} (hrst : page.reset = false)
    (hseq : ∀ entry ∈ page.entries, link.relayCursor.after < entry.seq)
    (hdec : ∀ op ∈ (node.daemon.log.takeIn ((verifiedEntries node.daemon.registry node.daemon.clock
      page.entries).map RelayOp.op)).arrivals, Decodes op) :
    let taken := verifiedEntries node.daemon.registry node.daemon.clock page.entries
    let after := node.after (node.syncRelayOnce index link.relayCursor page noFaults).effects
    after.daemon.links[index]? = some ⟨link.peerId, ⟨page.epoch, lastSeq taken link.relayCursor.after⟩⟩ ∧
      Shows after.daemon.log after.daemon.store := by
  intro taken
  obtain ⟨hloop, haft⟩ := relayLoop_verified page.entries h.clean link.relayCursor.after
  generalize hlp : Node.relayLoop noFaults.writes page.entries node link.relayCursor.after = loop
  rw [hlp] at hloop haft
  generalize hmid : node.after loop.effects = mid
  rw [hmid] at hloop
  have hcur : ∀ n : Node (kvHost C Clock clockUpdate), n.daemon.links = mid.daemon.links →
      (n.perform (.setCursor index ⟨page.epoch, loop.after⟩)).daemon.links[index]? =
        some ⟨link.peerId, ⟨page.epoch, lastSeq taken link.relayCursor.after⟩⟩ := by
    intro n hn
    simp only [Node.perform, getElem?_modify, hn, hloop.links, hlink, haft]
    rfl
  unfold Node.syncRelayOnce
  simp only [hrst, Bool.false_eq_true, if_false, hlp]
  by_cases hsame : loop.after = link.relayCursor.after
  · -- nothing was taken, so nothing changed but the cursor
    have hnil : taken = [] := by
      refine eq_nil_of_lastSeq (fun entry hent => ?_) (haft.symm.trans hsame)
      exact hseq entry (accepts_verifiedEntries entry hent).2
    rw [if_pos hsame, Node.after_append, hmid]
    refine ⟨hcur mid rfl, ?_⟩
    have hlog := hloop.log
    have hsto := hloop.store
    change Shows mid.daemon.log mid.daemon.store
    rw [hlog, hsto, show verifiedEntries _ _ _ = [] from hnil]
    exact h.shown
  · have hlog : mid.daemon.log.arrivals = _ := congrArg arrivals hloop.log
    have hmdec : ∀ op ∈ mid.daemon.log.arrivals, Decodes op := hlog ▸ hdec
    have hrep : (kvHost C Clock clockUpdate).store.replay mid.daemon.log mid.daemon.store =
        (applyWrites kvWrite mid.daemon.log.iter mid.daemon.store, none) := replay_eq hmdec _
    rw [if_neg hsame, hmid, hrep]
    simp only [noFaults, not_true_eq_false, if_false]
    rw [Node.after_append, hmid]
    refine ⟨hcur _ rfl, ?_⟩
    change Shows mid.daemon.log ((kvHost C Clock clockUpdate).store.replay mid.daemon.log mid.daemon.store).1
    rw [hrep, hloop.store]
    exact h.shown.replay (hloop.log ▸ node.daemon.log.extends_takeIn (taken.map RelayOp.op))

/-- A pull without faults, and the restart behind it, come through exactly if every payload
for the store decodes, in the log as it was and in the entries the pull verified. -/
theorem sync_survives_iff {own : C.Key} {node : Node (kvHost C Clock clockUpdate)} (h : Steady own node)
    {index : ℕ} {link : Link} (hlink : node.daemon.links[index]? = some link) {wire : RelayResponse} {limit : ℕ}
    {page : RelayPage} (hpage : decodeRelayResponse wire link.relayCursor limit false = .ok page)
    (hrst : page.reset = false) (hshort : ∀ entry ∈ page.entries, entry.op.toBytes.length < 2 ^ 32) :
    Survives own node index link page ↔
      ∀ op ∈ (node.daemon.log.takeIn
        ((verifiedEntries node.daemon.registry node.daemon.clock page.entries).map RelayOp.op)).arrivals,
        Decodes op := by
  obtain ⟨hseq, hv⟩ := decodeRelayResponse_behind hpage hrst
  obtain ⟨hlog, hfile, hkeys⟩ := syncRelayOnce_kept h.clean index link.relayCursor hrst
  generalize haft : node.after (node.syncRelayOnce index link.relayCursor page noFaults).effects = after
  rw [haft] at hlog hfile hkeys
  have hreg : loadPeerKeys after.disk (DeviceRegistry.new.insertKey own) = node.daemon.registry := by
    rw [h.keys, loadPeerKeys, loadPeerKeys, hkeys]
  have hops : ∀ op ∈ after.daemon.log.arrivals,
      (loadPeerKeys after.disk (DeviceRegistry.new.insertKey own)).accepts op = true ∧ Frameable op := by
    intro op hop
    rw [hreg]
    rw [hlog] at hop
    rcases OpLog.mem_takeIn hop with hold | hnew
    · exact h.signed op hold
    · obtain ⟨entry, hent, rfl⟩ := List.mem_map.1 hnew
      obtain ⟨ha, hmem⟩ := accepts_verifiedEntries entry hent
      exact ⟨ha, hv entry hmem, hshort entry hmem⟩
  have hstart : ∀ clock random,
      (@startDaemon (kvHost C Clock clockUpdate) own after.disk clock random (∅ : KvStore)).2.isSome = true ↔
        ∀ op ∈ after.daemon.log.arrivals, Decodes op :=
    startDaemon_iff (hfile h.file) hops after.daemon.log.arrivals_ids_nodup
  constructor
  · intro hs
    have hone := hs.2.2 node.daemon.clock zeroEpoch
    simp only [haft] at hone
    rw [← hlog]
    exact (hstart node.daemon.clock zeroEpoch).1 hone
  · intro hdec
    obtain ⟨hcur, hshown⟩ := syncRelayOnce_shown h hlink hrst hseq hdec
    refine ⟨hcur, hshown, fun clock random => ?_⟩
    simp only [haft]
    exact (hstart clock random).2 (hlog ▸ hdec)

end Kv

/-! ## A payload that no store decodes -/

namespace BadPayload

abbrev host : Host := kvHost plainCrypto Unit fun _ _ _ => .ok ()

def author : Bytes 32 := padTo 32 [7]

def peer : DeviceId := padTo 32 [8]

def fresh : Node host where
  disk := .empty
  daemon := ⟨(), DeviceRegistry.new.insertKey author, .new (fill 32 5), (∅ : KvStore), false, [⟨peer, .start⟩]⟩

def good : SignedOp := plainPut author 20

def bad : SignedOp := plainOp author 10 ⟨[9], by decide⟩

def wire (ops : List SignedOp) : RelayResponse :=
  ⟨2, fill 32 3, ops.length, 0, ops.length, false, (ops.zipIdx 1).map fun e => ⟨e.2, e.1.toBytes⟩⟩

def page (ops : List SignedOp) : RelayPage :=
  ⟨fill 32 3, ops.length, 0, ops.length, false, (ops.zipIdx 1).map fun e => ⟨e.2, e.1⟩⟩

theorem steady_fresh : @Steady plainCrypto Unit (fun _ _ _ => .ok ()) author fresh where
  signed := nofun
  file := rfl
  clean := rfl
  keys := rfl
  shown := fun _ => Or.inr ⟨nofun, rfl⟩

end BadPayload

open BadPayload in
theorem sync_survives_good :
    @Survives plainCrypto Unit (fun _ _ _ => .ok ()) author fresh 0 ⟨peer, .start⟩ (page [good]) := by
  have hpage : decodeRelayResponse (wire [good]) .start 512 false = .ok (page [good]) := by decide +kernel
  have hlink : fresh.daemon.links[0]? = some ⟨peer, .start⟩ := by decide +kernel
  have hrst : (page [good]).reset = false := rfl
  refine (sync_survives_iff steady_fresh hlink hpage hrst ?_).2 ?_
  · decide +kernel
  · decide +kernel

open BadPayload in
/-- The undecodable op is durable and in memory when the replay stops at it: the cursor does
not move, the good op does not reach the store, and the process does not start again. -/
theorem bad_payload_stops_node :
    let after := fresh.after (fresh.syncRelayOnce 0 .start (page [bad, good]) noFaults).effects
    after.daemon.log.contains good.id = true ∧
      after.daemon.links[0]? = some ⟨peer, .start⟩ ∧
      SortedMap.get? (K := List Byte) (V := List Byte) after.daemon.store (ascii "k") = none ∧
      (@startDaemon host author after.disk () (fill 32 6) (∅ : KvStore)).2.isNone = true := by
  decide +kernel

end ProxyNode
