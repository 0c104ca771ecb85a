import ProxyNode.Spec.Daemon

/-! The clock of a node and the runs of one device: local commits, pulls of either kind,
admissions by the pull socket, and restarts over the op-log file. -/

namespace ProxyNode

/-! ## The clock -/

/-- One hour, in units of `2^-32` seconds. -/
def defaultMaxDelta : ℕ := 3600 * 2 ^ 32

/-- One clock instance: physical time, the greatest value returned or folded so far, and
what is outside its control: how much time passes before each of the next calls, and how
far above `last` the next values fall while physical time is not above it. -/
structure NodeClock where
  physical : ℕ
  last : Option ℕ
  elapses : List ℕ
  jumps : List ℕ

namespace NodeClock

def new (physical : ℕ) (elapses jumps : List ℕ) : NodeClock := ⟨physical, none, elapses, jumps⟩

def elapse (clock : NodeClock) : NodeClock :=
  { clock with physical := clock.physical + clock.elapses.headD 0, elapses := clock.elapses.tail }

/-- Physical time if that is above everything seen, else something above that. -/
def newTimestamp (clock : NodeClock) : ℕ :=
  match clock.last with
  | none => clock.physical
  | some last => if last < clock.physical then clock.physical else last + 1 + clock.jumps.headD 0

def now (clock : NodeClock) : NodeClock × ℕ :=
  let clock := clock.elapse
  let time := clock.newTimestamp
  ({ clock with last := some time, jumps := clock.jumps.tail }, time)

/-- Fold a remote reading unless it is too far ahead, and take a reading. -/
def update (clock : NodeClock) (remote : Hlc) (_sender : DeviceId) : Except String NodeClock :=
  let clock := clock.elapse
  if clock.physical + defaultMaxDelta < remote.val then .error ""
  else .ok ({ clock with last := some (clock.last.elim remote.val (max · remote.val)) } : NodeClock).now.1

end NodeClock

def clockHost (C : Crypto) (S : Store) : Host := ⟨C, NodeClock, NodeClock.update, S⟩

/-! ## One incremental pull -/

inductive ApplyMode
  | replay
  | incremental

/-- What a sync hands to the store: the whole log, or the ops after one key up to another. -/
def ApplyMode.ops (log : OpLog) (after through : OrderKey) : ApplyMode → List SignedOp
  | .replay => log.iter
  | .incremental => (log.since after).takeWhile fun op => op.orderKey ≤ through

def Store.applyRange (S : Store) (log : OpLog) (st : S.State) (after through : OrderKey) :
    S.State × Option String :=
  S.applyOps ((log.since after).takeWhile fun op => op.orderKey ≤ through) st

namespace Node

variable {H : Host}

structure SyncLoop (H : Host) where
  node : Node H
  highest : OrderKey
  appended : ℕ
  abort : Option String

/-- `durability` gives the outcome of the `n`-th write, if there is a file to write to. -/
def syncLoop (durability : Option (ℕ → WriteOutcome)) : List SignedOp → Node H → OrderKey → ℕ → SyncLoop H
  | [], node, highest, appended => ⟨node, highest, appended, none⟩
  | op :: ops, node, highest, appended =>
    let subject := "op from device " ++ toHex op.body.device
    match node.daemon.registry.keyFor op.body.device with
    | none => ⟨node, highest, appended, some (subject ++ " failed verification: unknown device")⟩
    | some verifying =>
      match op.verify H.crypto verifying with
      | .error e => ⟨node, highest, appended, some (subject ++ " failed verification: " ++ e.text)⟩
      | .ok () =>
        match H.clockUpdate node.daemon.clock op.body.hlc op.body.device with
        | .error e =>
          ⟨node, highest, appended, some (subject ++ " rejected by drift guard (hlc " ++
            toString op.body.hlc.val ++ "): remote clock rejected by drift guard: " ++ e)⟩
        | .ok clock =>
          let node := node.perform (.clock clock)
          if node.daemon.log.contains op.id then syncLoop durability ops node op.orderKey appended
          else match durability with
            | none => syncLoop durability ops (node.perform (.append op)) op.orderKey (appended + 1)
            | some writes =>
              let write := node.writerAppend op (writes appended)
              match write.2 with
              | some e => ⟨node.after write.1, highest, appended, some e⟩
              | none =>
                syncLoop durability ops ((node.after write.1).perform (.append op)) op.orderKey (appended + 1)

structure SyncOnce (H : Host) where
  node : Node H
  cursor : OrderKey
  result : Except String ℕ

/-- `sync_once_with`, from what the source gave on. -/
def syncOnceWith (node : Node H) (pulled : Except String (List SignedOp)) (cursor : OrderKey)
    (durability : Option (ℕ → WriteOutcome)) (fsync : Bool) (mode : ApplyMode) : SyncOnce H :=
  match pulled with
  | .error e => ⟨node, cursor, .error e⟩
  | .ok ops =>
    let loop := syncLoop durability ops node cursor 0
    let result := match loop.abort with
      | some e => .error e
      | none => .ok loop.appended
    if loop.highest = cursor then ⟨loop.node, cursor, result⟩
    else if durability.isSome ∧ fsync = false then ⟨loop.node, cursor, .error "op-log file io error"⟩
    else
      let node := if durability.isSome then loop.node.perform (.disk .sync) else loop.node
      let applied := match mode with
        | .replay => H.store.replay node.daemon.log node.daemon.store
        | .incremental => H.store.applyRange node.daemon.log node.daemon.store cursor loop.highest
      let node := { node with daemon := { node.daemon with store := applied.1 } }
      match applied.2 with
      | some e => ⟨node, cursor, .error ("replay failed during sync: " ++ e)⟩
      | none => ⟨node, loop.highest, result⟩

/-- The ops for which `sync_once_with` calls `Store::apply`. -/
def syncPassed (node : Node H) (ops : List SignedOp) (cursor : OrderKey) (durability : Option (ℕ → WriteOutcome))
    (fsync : Bool) (mode : ApplyMode) : List SignedOp :=
  let loop := syncLoop durability ops node cursor 0
  if loop.highest = cursor ∨ durability.isSome ∧ fsync = false then []
  else H.store.passed (mode.ops loop.node.daemon.log cursor loop.highest) loop.node.daemon.store

end Node

/-! ## Runs of one device -/

variable (C : Crypto) (S : Store)

/-- A device: its disk, the process if one is running, and physical time. -/
structure Device where
  identity : C.Secret
  disk : Disk
  daemon : Option (Daemon (clockHost C S))
  physical : ℕ

/-- One event. Where there is a `stop`, only that many effects of it happen, and the process
waits for its restart. -/
inductive DeviceEvent
  /-- Time passes; the rest is up to the surroundings of the clock. -/
  | tick (elapsed : ℕ) (elapses jumps : List ℕ)
  | commit (store : StoreId) (payload : Payload)
  | syncOnce (pulled : Except String (List SignedOp)) (cursor : OrderKey)
      (durability : Option (ℕ → WriteOutcome)) (fsync : Bool) (mode : ApplyMode)
  | syncRelay (link : ℕ) (cursor : RelayCursor) (page : RelayPage) (faults : PullFaults) (stop : Option ℕ)
  | admitOps (ops : List SignedOp) (skipUnattested : Bool) (coverage : CoverageVector)
      (cursors : SortedMap DeviceId RelayCursor) (stop : Option ℕ)
  | registerPeer (advertised : DeviceId) (publicKeySec1 : List Byte) (save : SaveOutcome) (stop : Option ℕ)
  | learnDevices (devices : List (DeviceId × List Byte)) (save : SaveOutcome) (stop : Option ℕ)
  | restart (crash : Crash) (elapsed : ℕ) (elapses jumps : List ℕ) (random : Epoch) (store : S.State)

variable {C S}

namespace Device

def new (identity : C.Secret) (physical : ℕ) (random : Epoch) (store : S.State) : Device C S where
  identity := identity
  disk := .empty
  daemon := some ⟨NodeClock.new physical [] [], DeviceRegistry.new.insertKey (C.verifyingKey identity),
    .new random, store, false, []⟩
  physical := physical

def settle (d : Device C S) (node : Node (clockHost C S)) : Device C S :=
  { d with disk := node.disk, daemon := some node.daemon, physical := node.daemon.clock.physical }

/-- Let the process do `effects`, all of them or those before its end. -/
def execute (d : Device C S) (node : Node (clockHost C S)) (effects : List (NodeEffect (clockHost C S)))
    (stop : Option ℕ) : Device C S :=
  d.settle (node.after (effects.take (stop.getD effects.length)))

/-- The op a commit seals, if there is a 64-bit reading for it. -/
def sealed (identity : C.Secret) (daemon : Daemon (clockHost C S)) (store : StoreId) (payload : Payload) :
    Option SignedOp :=
  let time := (NodeClock.now daemon.clock).2
  if h : time < 2 ^ 64 then
    some (SignedOp.sealOp C ⟨envelopeVersion, ⟨time, h⟩, C.deviceIdOfKey (C.verifyingKey identity), store, payload⟩
      identity)
  else none

/-- Seal with a reading of the clock, append, replay. -/
def commit (d : Device C S) (daemon : Daemon (clockHost C S)) (store : StoreId) (payload : Payload) : Device C S :=
  match sealed d.identity daemon store payload with
  | none => d
  | some op =>
    let node : Node (clockHost C S) := ⟨d.disk, daemon⟩
    d.settle (node.after [.clock (NodeClock.now daemon.clock).1, .append op, .replay])

def withSocket (daemon : Daemon (clockHost C S)) (p : OpLogPullSocket (clockHost C S)) : Daemon (clockHost C S) :=
  { daemon with clock := p.clock, log := p.log, store := p.store }

def step (d : Device C S) : DeviceEvent S → Device C S
  | .tick elapsed elapses jumps =>
    let daemon := d.daemon.map fun daemon =>
      { daemon with clock := ⟨d.physical + elapsed, NodeClock.last daemon.clock, elapses, jumps⟩ }
    { d with daemon := daemon, physical := d.physical + elapsed }
  | .commit store payload =>
    match d.daemon with
    | none => d
    | some daemon => d.commit daemon store payload
  | .syncOnce pulled cursor durability fsync mode =>
    match d.daemon with
    | none => d
    | some daemon =>
      let node : Node (clockHost C S) := ⟨d.disk, daemon⟩
      d.settle (node.syncOnceWith pulled cursor durability fsync mode).node
  | .syncRelay link cursor page faults stop =>
    match d.daemon with
    | none => d
    | some daemon =>
      let node : Node (clockHost C S) := ⟨d.disk, daemon⟩
      d.execute node (node.syncRelayOnce link cursor page faults).effects stop
  | .admitOps ops skipUnattested coverage cursors stop =>
    match d.daemon with
    | none => d
    | some daemon =>
      let p : OpLogPullSocket (clockHost C S) :=
        ⟨daemon.clock, daemon.registry, daemon.log, daemon.store, coverage, cursors⟩
      let effects := (p.admitOps ops skipUnattested).effects
      d.settle ⟨d.disk, withSocket daemon (p.after (effects.take (stop.getD effects.length)))⟩
  | .registerPeer advertised publicKeySec1 save stop =>
    match d.daemon with
    | none => d
    | some daemon =>
      let node : Node (clockHost C S) := ⟨d.disk, daemon⟩
      d.execute node (node.registerPeer advertised publicKeySec1 save) stop
  | .learnDevices devices save stop =>
    match d.daemon with
    | none => d
    | some daemon =>
      let node : Node (clockHost C S) := ⟨d.disk, daemon⟩
      d.execute node (node.learnDevices devices save) stop
  | .restart crash elapsed elapses jumps random store =>
    let started := startDaemon (C.verifyingKey d.identity) (d.disk.crash crash)
      (NodeClock.new (d.physical + elapsed) elapses jumps) random store
    { d with disk := started.1, daemon := started.2, physical := d.physical + elapsed }

def run (d : Device C S) (events : List (DeviceEvent S)) : Device C S := events.foldl step d

end Device

end ProxyNode
