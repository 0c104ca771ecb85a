import ProxyNode.Spec.Kv

/-! A node's log and its key/value store over time: ops come in one by one, and at any
point the whole log is replayed into the store as it then is. -/

namespace ProxyNode

structure Replica where
  log : OpLog
  data : KvStore

inductive ReplicaEvent
  | append (op : SignedOp)
  | replay

namespace Replica

def new (random : Epoch) : Replica := ⟨.new random, (∅ : KvStore)⟩

def step (r : Replica) : ReplicaEvent → Replica
  | .append op => { r with log := (r.log.append op).1 }
  | .replay => { r with data := (kvStore.replay r.log r.data).1 }

def run (r : Replica) (events : List ReplicaEvent) : Replica := events.foldl step r

end Replica

def appended (events : List ReplicaEvent) : List SignedOp :=
  events.filterMap fun
    | .append op => some op
    | .replay => none

end ProxyNode
