import ProxyNode.Base.Loop
import ProxyNode.Spec.Log

/-! The in-memory log as the source keeps it, three views that nothing ties together, and
the two loops that page through it. A page whose arrival order names an op the map does
not hold is `none`, where the source's `expect` stops. -/

namespace ProxyNode

structure RawLog where
  ops : SortedMap OrderKey SignedOp
  ids : Finset OpId
  relayEpoch : Epoch
  relayOrder : List OrderKey

namespace RawLog

def new (random : Epoch) : RawLog :=
  ⟨∅, ∅, if random = zeroEpoch then ⟨1 :: List.replicate 31 0, congrArg Nat.succ List.length_replicate⟩
    else random, []⟩

def append (log : RawLog) (op : SignedOp) : RawLog × Bool :=
  if op.id ∈ log.ids then (log, false)
  else
    (⟨log.ops.insert op.orderKey op, insert op.id log.ids, log.relayEpoch, log.relayOrder ++ [op.orderKey]⟩, true)

def takeIn (log : RawLog) (ops : List SignedOp) : RawLog := ops.foldl (fun log op => (log.append op).1) log

def iter (log : RawLog) : List SignedOp := log.ops.values

def since (log : RawLog) (cursor : OrderKey) : List SignedOp := (log.ops.above (some cursor)).map Prod.snd

def relayState (log : RawLog) : RelayStreamState := ⟨log.relayEpoch, log.relayOrder.length, 0⟩

def relayPage (log : RawLog) (after limit : ℕ) : Option RelayLogPage := do
  let entries ← ((log.relayOrder.zipIdx.drop (min after log.relayOrder.length)).take limit).mapM
    fun e => (log.ops.get? e.1).map fun op => ⟨e.2 + 1, op⟩
  return ⟨log.relayState, entries⟩

/-- A reader of the arrival stream: where it is, what it has, and the ops that come in before
each of its next pages. -/
structure Reader where
  log : RawLog
  after : ℕ
  got : List RelayLogEntry
  later : List (List SignedOp)

/-- One page on, from the last sequence seen; an empty page ends the reading. -/
def relayTurn (limit : ℕ) (r : Reader) : Option (RawLog × List RelayLogEntry) ⊕ Reader :=
  let log := r.log.takeIn (r.later.headD [])
  match log.relayPage r.after limit with
  | none => .inl none
  | some page =>
    match page.entries.getLast? with
    | none => .inl (some (log, r.got))
    | some last => .inr ⟨log, last.seq, r.got ++ page.entries, r.later.tail⟩

/-- One page on in the total order, from the last key seen. -/
def sinceTurn (log : RawLog) (limit : ℕ) (r : OrderKey × List SignedOp) :
    List SignedOp ⊕ (OrderKey × List SignedOp) :=
  let page := (log.since r.1).take limit
  match page.getLast? with
  | none => .inl r.2
  | some last => .inr (last.orderKey, r.2 ++ page)

end RawLog

end ProxyNode
