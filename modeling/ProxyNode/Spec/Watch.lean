import ProxyNode.Spec.Daemon

/-! The push wake-up: waits on the relay stream of a node beside the node's pull rounds. The
channel is its version, which a publish raises and `borrow_and_update` notes; its value is never
read. A round holds the log while it appends, and publishes behind that. -/

namespace ProxyNode

variable {H : Host}

inductive WatchPoint
  | looking
  /-- The version is noted, the log not yet read. -/
  | checking (seen : ℕ)
  | parked (seen : ℕ)
  | returned (state : RelayStreamState)
deriving DecidableEq

structure Watcher where
  epoch : Epoch
  after : ℕ
  /-- The deadline has passed. -/
  expired : Bool
  point : WatchPoint
deriving DecidableEq

namespace Watcher

def changed (watcher : Watcher) (state : RelayStreamState) : Bool :=
  state.epoch ≠ watcher.epoch || watcher.after < state.floor || watcher.after > state.head ||
    state.head > watcher.after

/-- One turn of a wait. A parked one goes on only if the version is not the one it noted. -/
def turn (log : OpLog) (version : ℕ) (watcher : Watcher) : Watcher :=
  match watcher.point with
  | .looking => { watcher with point := .checking version }
  | .checking seen =>
    let state := log.relayState
    if watcher.changed state || watcher.expired then { watcher with point := .returned state }
    else { watcher with point := .parked seen }
  | .parked seen => if version ≠ seen then { watcher with point := .looking } else watcher
  | .returned _ => watcher

/-- The sleep of a parked wait ends, if its deadline has passed. -/
def wakeLate (log : OpLog) (watcher : Watcher) : Watcher :=
  match watcher.point with
  | .parked _ => if watcher.expired then { watcher with point := .returned log.relayState } else watcher
  | _ => watcher

end Watcher

/-- A node that pulls, its channel and the waits on it. Between its pull and its publish step a
round has a result. -/
structure WatchWorld (H : Host) where
  node : Node H
  version : ℕ
  result : Option (Except String Node.RelaySyncOutcome)
  watchers : List Watcher

inductive WatchEvent
  | pull (link : ℕ) (page : RelayPage) (faults : PullFaults)
  | publish
  | watch (epoch : Epoch) (after : ℕ)
  | turn (i : ℕ)
  | expire (i : ℕ)
  | wakeLate (i : ℕ)

namespace WatchWorld

def start (node : Node H) : WatchWorld H := ⟨node, 0, none, []⟩

def log (w : WatchWorld H) : OpLog := w.node.daemon.log

def publishes (w : WatchWorld H) : Bool :=
  match w.result with
  | some (.ok outcome) => outcome.appended > 0 && w.log.head.isSome
  | _ => false

def step (w : WatchWorld H) : WatchEvent → WatchWorld H
  | .pull index page faults =>
    match w.result, w.node.daemon.links[index]? with
    | none, some link =>
      { w with
        node := w.node.after (w.node.pullRelay index page faults)
        result := some (w.node.syncRelayOnce index link.relayCursor page faults).result }
    | _, _ => w
  | .publish => { w with version := if w.publishes then w.version + 1 else w.version, result := none }
  | .watch epoch after => { w with watchers := w.watchers ++ [⟨epoch, after, false, .looking⟩] }
  | .turn i => { w with watchers := w.watchers.modify i (Watcher.turn w.log w.version) }
  | .expire i => { w with watchers := w.watchers.modify i fun watcher => { watcher with expired := true } }
  | .wakeLate i => { w with watchers := w.watchers.modify i (Watcher.wakeLate w.log) }

def run (w : WatchWorld H) (events : List WatchEvent) : WatchWorld H := events.foldl step w

end WatchWorld

end ProxyNode
