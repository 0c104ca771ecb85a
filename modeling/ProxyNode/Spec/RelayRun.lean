import ProxyNode.Spec.Daemon

/-! Runs of one pulling daemon against relay servers: servers append to their streams and
come back with a fresh epoch, the daemon is started, learns keys, opens links and pulls,
and stops anywhere between two effects. -/

namespace ProxyNode

variable {H : Host}

/-- The servers' logs, and every stream epoch drawn so far. -/
structure Streams where
  servers : SortedMap DeviceId OpLog
  epochs : List Epoch

namespace Streams

/-- A server comes up over `log`. The epoch is one that no stream had before. -/
def start (streams : Streams) (peer : DeviceId) (log : OpLog) : Streams :=
  if log.relayEpoch ∈ streams.epochs then streams
  else ⟨streams.servers.insert peer log, log.relayEpoch :: streams.epochs⟩

def append (streams : Streams) (peer : DeviceId) (op : SignedOp) : Streams :=
  match streams.servers.get? peer with
  | none => streams
  | some log => { streams with servers := streams.servers.insert peer (log.append op).1 }

end Streams

structure RelayWorld (H : Host) where
  own : H.crypto.Key
  streams : Streams
  disk : Disk
  daemon : Option (Daemon H)

/-- One event. Where there is a `stop`, the process ends after that many effects of it. -/
inductive RelayEvent (H : Host)
  | startServer (peer : DeviceId) (log : OpLog)
  | append (peer : DeviceId) (op : SignedOp)
  | start (crash : Crash) (clock : H.Clock) (random : Epoch) (store : H.store.State)
  | kill
  | registerPeer (advertised : DeviceId) (publicKeySec1 : List Byte) (save : SaveOutcome) (stop : Option ℕ)
  | learnDevices (devices : List (DeviceId × List Byte)) (save : SaveOutcome) (stop : Option ℕ)
  | replayAgain
  | openLink (peer : DeviceId)
  | pull (link limit : ℕ) (faults : PullFaults) (stop : Option ℕ)

namespace RelayWorld

def new (own : H.crypto.Key) : RelayWorld H := ⟨own, ⟨∅, []⟩, .empty, none⟩

/-- Let the running process do `effects`, all of them or those before its end. -/
def execute (s : RelayWorld H) (node : Node H) (effects : List (NodeEffect H)) : Option ℕ → RelayWorld H
  | none =>
    let node := node.after effects
    { s with disk := node.disk, daemon := some node.daemon }
  | some n => { s with disk := (node.after (effects.take n)).disk, daemon := none }

def step (s : RelayWorld H) : RelayEvent H → RelayWorld H
  | .startServer peer log => { s with streams := s.streams.start peer log }
  | .append peer op => { s with streams := s.streams.append peer op }
  | .start crash clock random store =>
    match s.daemon with
    | some _ => s
    | none =>
      let started := startDaemon s.own (s.disk.crash crash) clock random store
      { s with disk := started.1, daemon := started.2 }
  | .kill => { s with daemon := none }
  | .registerPeer advertised publicKeySec1 save stop =>
    match s.daemon with
    | none => s
    | some daemon =>
      let node : Node H := ⟨s.disk, daemon⟩
      s.execute node (node.registerPeer advertised publicKeySec1 save) stop
  | .learnDevices devices save stop =>
    match s.daemon with
    | none => s
    | some daemon =>
      let node : Node H := ⟨s.disk, daemon⟩
      s.execute node (node.learnDevices devices save) stop
  | .replayAgain =>
    match s.daemon with
    | none => s
    | some daemon =>
      let replayed := replayOplogFile daemon.registry s.disk.oplog daemon.log
      { s with
        disk := { s.disk with oplog := replayed.2 }
        daemon := some { daemon with log := replayed.1 } }
  | .openLink peer =>
    match s.daemon with
    | none => s
    | some daemon =>
      { s with daemon := some { daemon with links := daemon.links ++ [⟨peer, loadRelayCursor s.disk peer⟩] } }
  | .pull index limit faults stop =>
    match s.daemon with
    | none => s
    | some daemon =>
      match daemon.links[index]? with
      | none => s
      | some link =>
        match s.streams.servers.get? link.peerId with
        | none => s
        | some server =>
          match fetchRelayOps server link.relayCursor limit with
          | .error _ => s
          | .ok page =>
            let node : Node H := ⟨s.disk, daemon⟩
            s.execute node (node.pullRelay index page faults) stop

def run (s : RelayWorld H) (events : List (RelayEvent H)) : RelayWorld H := events.foldl step s

end RelayWorld

end ProxyNode
