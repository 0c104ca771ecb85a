import Mathlib.Data.Finset.Insert
import ProxyNode.Base.SortedMap
import ProxyNode.Spec.Op

/-! The in-memory op-log: ops by order key, a dedup set of content ids and the arrival
order a relay serves from. The three views agree in every value of the type, so the
arrival order always resolves to an op. -/

namespace ProxyNode

abbrev Epoch := Bytes 32

def zeroEpoch : Epoch := Wire.fill 32 0

/-- Identity and bounds of an arrival stream: `floor` is the greatest sequence no longer
available, `head` the greatest assigned. -/
structure RelayStreamState where
  epoch : Epoch
  head : ℕ
  floor : ℕ
deriving DecidableEq

abbrev RelayEnvelopeRow := ℕ × SignedOp × List Byte

abbrev OriginEnvelopeRow := OrderKey × List Byte

structure RelayLogEntry where
  seq : ℕ
  op : SignedOp

structure RelayLogPage where
  state : RelayStreamState
  entries : List RelayLogEntry

structure OpLog where
  ops : SortedMap OrderKey SignedOp
  ids : Finset OpId
  relayEpoch : Epoch
  relayOrder : List OrderKey
  keyed : ∀ k op, ops.get? k = some op → op.orderKey = k
  arrived : ∀ k, k ∈ ops.keys ↔ k ∈ relayOrder
  deduped : (relayOrder.map OrderKey.opId).Nodup
  mem_ids : ∀ id, id ∈ ids ↔ id ∈ relayOrder.map OrderKey.opId
  epoch_ne : relayEpoch ≠ zeroEpoch

namespace OpLog

/-- An empty log over the epoch drawn from the system's random source; the all-zero
draw is moved off zero. -/
def new (random : Epoch) : OpLog where
  ops := ∅
  ids := ∅
  relayEpoch := if random = zeroEpoch then ⟨1 :: List.replicate 31 0, rfl⟩ else random
  relayOrder := []
  keyed := by simp
  arrived := fun k => by rw [SortedMap.mem_keys]; simp
  deduped := List.nodup_nil
  mem_ids := by simp
  epoch_ne := by
    split_ifs with h
    · decide
    · exact h

theorem insert_keyed (log : OpLog) (op : SignedOp) (k : OrderKey) (op' : SignedOp)
    (h : (log.ops.insert op.orderKey op).get? k = some op') : op'.orderKey = k := by
  rw [SortedMap.get?_insert] at h
  split_ifs at h with hk
  · obtain rfl := Option.some.inj h
    exact hk.symm
  · exact log.keyed k op' h

theorem insert_arrived (log : OpLog) (op : SignedOp) (k : OrderKey) :
    k ∈ (log.ops.insert op.orderKey op).keys ↔ k ∈ log.relayOrder ++ [op.orderKey] := by
  rw [SortedMap.mem_keys_insert, log.arrived, List.mem_append, List.mem_singleton, or_comm]

theorem insert_deduped (log : OpLog) (op : SignedOp) (h : op.id ∉ log.ids) :
    ((log.relayOrder ++ [op.orderKey]).map OrderKey.opId).Nodup := by
  rw [log.mem_ids] at h
  rw [List.map_append, List.nodup_append]
  refine ⟨log.deduped, List.nodup_singleton _, ?_⟩
  rintro a ha b hb rfl
  rw [List.map_singleton, List.mem_singleton] at hb
  exact h (by simpa [hb] using ha)

theorem insert_mem_ids (log : OpLog) (op : SignedOp) (id : OpId) :
    id ∈ insert op.id log.ids ↔ id ∈ (log.relayOrder ++ [op.orderKey]).map OrderKey.opId := by
  rw [Finset.mem_insert, log.mem_ids, List.map_append, List.mem_append, List.map_singleton,
    List.mem_singleton, SignedOp.orderKey_opId, or_comm]

/-- Insert, deduplicating by op id; the flag tells whether the op was new. -/
def append (log : OpLog) (op : SignedOp) : OpLog × Bool :=
  if h : op.id ∈ log.ids then (log, false)
  else
    ({ ops := log.ops.insert op.orderKey op
       ids := insert op.id log.ids
       relayEpoch := log.relayEpoch
       relayOrder := log.relayOrder ++ [op.orderKey]
       keyed := log.insert_keyed op
       arrived := log.insert_arrived op
       deduped := log.insert_deduped op h
       mem_ids := log.insert_mem_ids op
       epoch_ne := log.epoch_ne }, true)

def takeIn (log : OpLog) (ops : List SignedOp) : OpLog :=
  ops.foldl (fun log op => (log.append op).1) log

def contains (log : OpLog) (id : OpId) : Bool := decide (id ∈ log.ids)

def iter (log : OpLog) : List SignedOp := log.ops.values

def since (log : OpLog) (cursor : OrderKey) : List SignedOp := (log.ops.above (some cursor)).map Prod.snd

def head (log : OpLog) : Option OrderKey := log.ops.lastKey?

def relayState (log : OpLog) : RelayStreamState := ⟨log.relayEpoch, log.relayOrder.length, 0⟩

def arrival (log : OpLog) (k : {k // k ∈ log.relayOrder}) : SignedOp :=
  (log.ops.get? k.1).get (by
    obtain ⟨op, h⟩ := SortedMap.mem_keys.1 ((log.arrived k.1).2 k.2)
    rw [h]
    rfl)

def relayPage (log : OpLog) (after limit : ℕ) : RelayLogPage where
  state := log.relayState
  entries := ((log.relayOrder.attach.zipIdx.drop (min after log.relayOrder.length)).take limit).map
    fun e => ⟨e.2 + 1, log.arrival e.1⟩

def origins (log : OpLog) : List DeviceId :=
  (log.ops.values.foldl (fun set op => set.insert op.body.device ()) (∅ : SortedMap DeviceId Unit)).keys

/-- One origin's rows strictly after `after`, ascending, optionally of one store. The
limit is tested after a row is pushed, so that a limit of zero still yields one. -/
def originSince (log : OpLog) (origin : DeviceId) (after : Option OrderKey)
    (store : Option (List Byte)) (limit : ℕ) : List OriginEnvelopeRow :=
  (((log.ops.above after).filter fun e =>
      e.2.body.device = origin ∧ store.all fun wanted => e.2.body.store.1 = wanted).take
    (max limit 1)).map fun e => (e.1, e.2.toBytes)

def relaySinceWithEnvelopes (log : OpLog) (after limit : ℕ) : List RelayEnvelopeRow :=
  (log.relayPage after limit).entries.map fun e => (e.seq, e.op, e.op.toBytes)

end OpLog

/-! ## Stores and replay -/

structure OpContext where
  opId : OpId
  orderKey : OrderKey
  hlc : Hlc
  device : DeviceId

/-- A replicated store adapter. An `apply` that fails may have changed the state. -/
structure Store where
  State : Type
  Op : Type
  storeId : State → StoreId
  decode : State → List Byte → Except String Op
  apply : State → OpContext → Op → State × Option String

namespace Store

variable (S : Store)

def applyLoop (storeId : StoreId) : List SignedOp → S.State → S.State × Option String
  | [], st => (st, none)
  | op :: ops, st =>
    if op.body.store ≠ storeId then applyLoop storeId ops st
    else match S.decode st op.body.payload.1 with
      | .error e => (st, some ("store error during replay: " ++ e))
      | .ok native =>
        match S.apply st ⟨op.id, op.orderKey, op.body.hlc, op.body.device⟩ native with
        | (st, some e) => (st, some ("store error during replay: " ++ e))
        | (st, none) => applyLoop storeId ops st

/-- Apply the ops of this store in the order given, stopping at the first failure. -/
def applyOps (ops : List SignedOp) (st : S.State) : S.State × Option String :=
  S.applyLoop (S.storeId st) ops st

/-- One call of `apply`, as it leaves the state. -/
def applyOp (st : S.State) (op : SignedOp) : S.State :=
  match S.decode st op.body.payload.1 with
  | .error _ => st
  | .ok native => (S.apply st ⟨op.id, op.orderKey, op.body.hlc, op.body.device⟩ native).1

/-- The ops that `applyLoop` calls `apply` for, the failing one at most last. -/
def passedLoop (storeId : StoreId) : List SignedOp → S.State → List SignedOp
  | [], _ => []
  | op :: ops, st =>
    if op.body.store ≠ storeId then passedLoop storeId ops st
    else match S.decode st op.body.payload.1 with
      | .error _ => []
      | .ok native =>
        match S.apply st ⟨op.id, op.orderKey, op.body.hlc, op.body.device⟩ native with
        | (_, some _) => [op]
        | (st, none) => op :: passedLoop storeId ops st

def passed (ops : List SignedOp) (st : S.State) : List SignedOp := S.passedLoop (S.storeId st) ops st

def replay (log : OpLog) (st : S.State) : S.State × Option String := S.applyOps log.iter st

end Store

end ProxyNode
