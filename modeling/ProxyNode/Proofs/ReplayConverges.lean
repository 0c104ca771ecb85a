import ProxyNode.Base.LastWrite
import ProxyNode.Sanity.LogReads
import ProxyNode.Spec.Replica

/-! Replay converges. Replays run into the same store after any prefix of the insertions,
and the store is never cleared; after the last one it holds for each key what the greatest
op naming it says. -/

namespace ProxyNode

open Wire List

/-- The key an op of the key/value store writes, and what it leaves there. -/
def kvWrite (op : SignedOp) : Option (List Byte × Option (List Byte)) :=
  if op.body.store = kvStoreId then (KvOp.decode op.body.payload.1).map fun kv => (kv.key, kv.effect) else none

def Decodes (op : SignedOp) : Prop := op.body.store = kvStoreId → (KvOp.decode op.body.payload.1).isSome = true

instance : DecidablePred Decodes := fun _ => inferInstanceAs (Decidable (_ → _))

variable {a b : SignedOp}

theorem kvWrite_body (h : a.body = b.body) : kvWrite a = kvWrite b := by
  rw [kvWrite, kvWrite, h]

theorem orderKey_eq (hid : a.id = b.id) (hbody : a.body = b.body) : a.orderKey = b.orderKey := by
  rw [SignedOp.orderKey, SignedOp.orderKey, hid, hbody]

/-! ## One replay -/

theorem kvStore_apply (data : KvStore) (kv : KvOp) : KvStore.apply data kv = data.write kv.key kv.effect := by
  cases kv <;> rfl

theorem applyLoop_eq {ops : List SignedOp} (h : ∀ op ∈ ops, Decodes op) (data : KvStore) :
    kvStore.applyLoop kvStoreId ops data = (applyWrites kvWrite ops data, none) := by
  induction ops generalizing data with
  | nil => rfl
  | cons op ops ih =>
    obtain ⟨hop, hops⟩ := forall_mem_cons.1 h
    by_cases hs : op.body.store = kvStoreId
    · obtain ⟨kv, hkv⟩ := Option.isSome_iff_exists.1 (hop hs)
      have hw : kvWrite op = some (kv.key, kv.effect) := by rw [kvWrite, if_pos hs, hkv, Option.map_some]
      have hstep : applyWrites kvWrite (op :: ops) data = applyWrites kvWrite ops (KvStore.apply data kv) := by
        rw [applyWrites, foldl_cons, hw, kvStore_apply]
        rfl
      have hd : kvStore.decode data op.body.payload.1 = .ok kv := kvStore_decode hkv data
      simp only [Store.applyLoop, hs, ne_eq, not_true_eq_false, if_false, hstep]
      rw [hd]
      exact ih hops _
    · have hw : kvWrite op = none := if_neg hs
      have hstep : applyWrites kvWrite (op :: ops) data = applyWrites kvWrite ops data := by
        rw [applyWrites, foldl_cons, hw]
        rfl
      simp only [Store.applyLoop, ne_eq, hs, not_false_eq_true, if_true, hstep]
      exact ih hops data

theorem replay_eq {log : OpLog} (h : ∀ op ∈ log.arrivals, Decodes op) (data : KvStore) :
    kvStore.replay log data = (applyWrites kvWrite log.iter data, none) :=
  applyLoop_eq (fun op hop => h op (OpLog.mem_iter.1 hop)) data

/-! ## Histories -/

theorem Replica.run_append (r : Replica) (events : List ReplicaEvent) (event : ReplicaEvent) :
    r.run (events ++ [event]) = (r.run events).step event := by
  rw [run, foldl_append]
  rfl

theorem appended_append (events events' : List ReplicaEvent) :
    appended (events ++ events') = appended events ++ appended events' :=
  filterMap_append

theorem Replica.held (random : Epoch) (events : List ReplicaEvent) :
    (∀ op ∈ ((new random).run events).log.arrivals, op ∈ appended events) ∧
      ∀ op ∈ appended events, ((new random).run events).log.contains op.id = true := by
  induction events using reverseRecOn with
  | nil => exact ⟨by simp [run, new, OpLog.arrivals, OpLog.new], by simp [appended]⟩
  | append_singleton events event ih =>
    obtain ⟨hheld, hin⟩ := ih
    rw [run_append, appended_append]
    cases event with
    | append op =>
      constructor
      · intro x hx
        rcases OpLog.mem_arrivals_append hx with hx | rfl
        · exact mem_append_left _ (hheld x hx)
        · exact mem_append_right _ (mem_singleton_self _)
      · intro x hx
        rcases mem_append.1 hx with hx | hx
        · exact OpLog.contains_append.2 (.inl (hin x hx))
        · obtain rfl : x = op := by simpa [appended] using hx
          exact OpLog.contains_append.2 (.inr rfl)
    | replay =>
      have hnone : appended [ReplicaEvent.replay] = [] := rfl
      rw [hnone, append_nil]
      exact ⟨hheld, hin⟩

/-- Between replays the store holds no key that no op of the log writes: the log only
grows, so what an earlier replay left is written again by a later one. -/
theorem Replica.support (random : Epoch) (events : List ReplicaEvent)
    (h : ∀ op ∈ ((new random).run events).log.arrivals, Decodes op) {key v : List Byte}
    (hv : ((new random).run events).data.get? key = some v) :
    ∃ op ∈ ((new random).run events).log.iter, ∃ v, kvWrite op = some (key, v) := by
  induction events using reverseRecOn generalizing v with
  | nil => simp [run, new] at hv
  | append_singleton events event ih =>
    rw [run_append] at h hv ⊢
    cases event with
    | append op =>
      have hsub : ∀ x ∈ ((new random).run events).log.arrivals,
          x ∈ (((new random).run events).log.append op).1.arrivals :=
        ((new random).run events).log.extends_append op |>.arrivals.subset
      obtain ⟨x, hx, hw⟩ := ih (fun x hx => h x (hsub x hx)) hv
      exact ⟨x, OpLog.mem_iter.2 (hsub x (OpLog.mem_iter.1 hx)), hw⟩
    | replay =>
      replace h : ∀ op ∈ ((new random).run events).log.arrivals, Decodes op := h
      have hdata : ((new random).run events).step .replay =
          ⟨((new random).run events).log, applyWrites kvWrite ((new random).run events).log.iter
            ((new random).run events).data⟩ := by
        rw [step, replay_eq h]
      rw [hdata] at hv
      rcases applyWrites_support hv with hv | hw
      · exact ih h hv
      · exact hw

theorem Replica.lastWrite (random : Epoch) (events : List ReplicaEvent)
    (h : ∀ op ∈ ((new random).run events).log.arrivals, Decodes op) (key : List Byte) :
    LastWrite kvWrite SignedOp.orderKey ((new random).run events).log.iter key
      (((new random).run (events ++ [.replay])).data.get? key) := by
  rw [run_append, step, replay_eq h]
  exact applyWrites_lastWrite (OpLog.iter_sorted _) fun v hv => support random events h hv

/-- Ops of one order key in a log are one op. -/
theorem OpLog.write_of_orderKey {log : OpLog} (ha : a ∈ log.iter) (hb : b ∈ log.iter)
    (h : a.orderKey = b.orderKey) : kvWrite a = kvWrite b := by
  rw [OpLog.eq_of_id (OpLog.mem_iter.1 ha) (OpLog.mem_iter.1 hb) (congrArg OrderKey.opId h)]

/-- What came in and what the log holds say the same about every key, if ids are content
addresses. -/
theorem Replica.lastWrite_appended (random : Epoch) {events : List ReplicaEvent}
    (hdec : ∀ op ∈ appended events, Decodes op)
    (hid : ∀ a ∈ appended events, ∀ b ∈ appended events, a.id = b.id → a.body = b.body) (key : List Byte) :
    LastWrite kvWrite SignedOp.orderKey (appended events) key
      (((new random).run (events ++ [.replay])).data.get? key) := by
  obtain ⟨hheld, hin⟩ := held random events
  have hlast := lastWrite random events (fun op hop => hdec op (hheld op hop)) key
  refine hlast.congr (fun a ha => ⟨a, hheld a (OpLog.mem_iter.1 ha), rfl, rfl⟩) fun b hb => ?_
  obtain ⟨a, ha, hab⟩ := OpLog.contains_iff.1 (hin b hb)
  have hbody := hid a (hheld a ha) b hb hab
  exact ⟨a, OpLog.mem_iter.2 ha, kvWrite_body hbody, orderKey_eq hab hbody⟩

/-- Two stores that each hold the last writes of the same ops are equal. -/
theorem eq_of_lastWrite {ops ops' : List SignedOp} {data data' : KvStore} (hsame : ∀ op, op ∈ ops' ↔ op ∈ ops)
    (hrank : ∀ a ∈ ops, ∀ b ∈ ops, a.orderKey = b.orderKey → kvWrite a = kvWrite b)
    (h : ∀ key, LastWrite kvWrite SignedOp.orderKey ops key (data.get? key))
    (h' : ∀ key, LastWrite kvWrite SignedOp.orderKey ops' key (data'.get? key)) : data' = data := by
  apply SortedMap.ext_get?
  intro key
  have hmov := (h' key).congr (fun a ha => ⟨a, (hsame a).1 ha, rfl, rfl⟩) fun b hb =>
    ⟨b, (hsame b).2 hb, rfl, rfl⟩
  exact hmov.unique hrank (h key)

/-- Whatever the insertion order and wherever replays came between, the last replay succeeds
and leaves for each key what the op of greatest order key naming it says, and nothing else;
so nodes whose logs hold the same ops have equal stores. Ids being content addresses, the
same holds of the ops that came in. -/
theorem kv_replay_converges (random : Epoch) (events : List ReplicaEvent)
    (hdec : ∀ op ∈ appended events, Decodes op) :
    (kvStore.replay ((Replica.new random).run events).log ((Replica.new random).run events).data).2 = none ∧
    (∀ key, LastWrite kvWrite SignedOp.orderKey ((Replica.new random).run events).log.iter key
      (((Replica.new random).run (events ++ [.replay])).data.get? key)) ∧
    (∀ random' events', (∀ op, op ∈ ((Replica.new random').run events').log.iter ↔
        op ∈ ((Replica.new random).run events).log.iter) →
      ((Replica.new random').run (events' ++ [.replay])).data =
        ((Replica.new random).run (events ++ [.replay])).data) ∧
    ((∀ a ∈ appended events, ∀ b ∈ appended events, a.id = b.id → a.body = b.body) →
      (∀ key, LastWrite kvWrite SignedOp.orderKey (appended events) key
        (((Replica.new random).run (events ++ [.replay])).data.get? key)) ∧
      ∀ random' events', (∀ op, op ∈ appended events' ↔ op ∈ appended events) →
        ((Replica.new random').run (events' ++ [.replay])).data =
          ((Replica.new random).run (events ++ [.replay])).data) := by
  have hheld : ∀ op ∈ ((Replica.new random).run events).log.arrivals, Decodes op := fun op hop =>
    hdec op ((Replica.held random events).1 op hop)
  have hlast := Replica.lastWrite random events hheld
  refine ⟨by rw [replay_eq hheld], hlast, fun random' events' hsame => ?_, fun hid => ⟨?_, ?_⟩⟩
  · refine eq_of_lastWrite hsame (fun a ha b hb => OpLog.write_of_orderKey ha hb) hlast ?_
    exact Replica.lastWrite random' events' fun op hop =>
      hheld op (OpLog.mem_iter.1 ((hsame op).1 (OpLog.mem_iter.2 hop)))
  · exact Replica.lastWrite_appended random hdec hid
  · intro random' events' hsame
    refine eq_of_lastWrite hsame (fun a ha b hb hab => ?_) (Replica.lastWrite_appended random hdec hid) ?_
    · exact kvWrite_body (hid a ha b hb (congrArg OrderKey.opId hab))
    · exact Replica.lastWrite_appended random' (fun op hop => hdec op ((hsame op).1 hop))
        fun a ha b hb => hid a ((hsame a).1 ha) b ((hsame b).1 hb)

def lateDelete : List ReplicaEvent :=
  [.append (plainPut (padTo 32 [7]) 20), .replay,
    .append (plainOp (padTo 32 [8]) 10 ⟨KvOp.encode (.delete (ascii "k")), by decide⟩)]

theorem kv_replay_converges_late_delete :
    ((Replica.new (fill 32 3)).run (lateDelete ++ [.replay])).data.get? (ascii "k") = some (ascii "v") ∧
      ∀ key, LastWrite kvWrite SignedOp.orderKey (appended lateDelete) key
        (((Replica.new (fill 32 3)).run (lateDelete ++ [.replay])).data.get? key) :=
  ⟨by decide +kernel,
    ((kv_replay_converges (fill 32 3) lateDelete (by decide +kernel)).2.2.2 (by decide +kernel)).1⟩

end ProxyNode
