import ProxyNode.Spec.Client

/-! One pulling node among honest servers. Servers' logs grow, the puller learns keys and
exchanges pages with any of them in any order; an exchange may be cut off behind any of
its effects, which keeps what was written so far. -/

namespace ProxyNode

variable {H : Host}

/-- The puller's socket, each server's log and the drains under way. -/
structure Mesh (H : Host) where
  puller : OpLogPullSocket H
  servers : SortedMap DeviceId OpLog
  drains : SortedMap DeviceId DrainState

inductive MeshEvent (H : Host)
  | append (peer : DeviceId) (op : SignedOp)
  | learnKey (key : H.crypto.Key)
  | tick (clock : H.Clock)
  /-- Begin a drain, from the saved cursor or from none. -/
  | start (peer : DeviceId) (saved : Bool)
  /-- One request of a drain; a `stop` ends the drain behind that many effects. What a
  preview comes back with is left open. -/
  | exchange (peer : DeviceId) (now : ℕ) (preview : PullRequest → PullAnswer) (stop : Option ℕ)

namespace Mesh

def append (s : Mesh H) (peer : DeviceId) (op : SignedOp) : Mesh H :=
  match s.servers.get? peer with
  | none => s
  | some log => { s with servers := s.servers.insert peer (log.append op).1 }

def start (s : Mesh H) (peer : DeviceId) (saved : Bool) : Mesh H :=
  let cursor := if saved then s.puller.cursors.get? peer else none
  { s with drains := s.drains.insert peer (.start cursor) }

def endDrain (drains : SortedMap DeviceId DrainState) (peer : DeviceId) :
    DrainNext → SortedMap DeviceId DrainState
  | .again d => drains.insert peer d
  | .done _ _ => drains.erase peer

def exchange (limits : PageLimits) (s : Mesh H) (peer : DeviceId) (now : ℕ)
    (preview : PullRequest → PullAnswer) (stop : Option ℕ) : Mesh H :=
  match s.servers.get? peer, s.drains.get? peer with
  | some log, some d =>
    let (effects, next) :=
      drainStep limits peer false false ⟨now, serveLog limits peer log, preview⟩ s.puller d
    match stop with
    | some n =>
      { s with puller := s.puller.after (effects.take n), drains := s.drains.erase peer }
    | none => { s with puller := s.puller.after effects, drains := endDrain s.drains peer next }
  | _, _ => s

def step (limits : PageLimits) (s : Mesh H) : MeshEvent H → Mesh H
  | .append peer op => s.append peer op
  | .learnKey key => { s with puller := { s.puller with registry := s.puller.registry.insertKey key } }
  | .tick clock => { s with puller := { s.puller with clock := clock } }
  | .start peer saved => s.start peer saved
  | .exchange peer now preview stop => s.exchange limits peer now preview stop

def run (limits : PageLimits) (s : Mesh H) (events : List (MeshEvent H)) : Mesh H :=
  events.foldl (step limits) s

end Mesh

end ProxyNode
