import ProxyNode.Base.Table
import ProxyNode.Sanity.Arrivals

/-! The reads of the log in memory as ordered reads of its arrivals. -/

namespace ProxyNode.OpLog

open List SortedMap

variable {log : OpLog}

theorem arrivals_keys_nodup (log : OpLog) : (log.arrivals.map SignedOp.orderKey).Nodup := by
  refine List.Nodup.of_map OrderKey.opId ?_
  rw [map_map]
  exact log.arrivals_ids_nodup

theorem mem_since {cursor : OrderKey} {op : SignedOp} :
    op ∈ log.since cursor ↔ op ∈ log.arrivals ∧ cursor < op.orderKey := by
  simp only [since, mem_map, mem_above]
  constructor
  · rintro ⟨⟨k, op⟩, ⟨he, hb⟩, rfl⟩
    obtain ⟨rfl, hop⟩ := entry_arrived he
    exact ⟨hop, hb cursor rfl⟩
  · rintro ⟨hop, hlt⟩
    refine ⟨(op.orderKey, op), ⟨mem_arrivals.1 hop, ?_⟩, rfl⟩
    rintro x hx
    rwa [← Option.some.inj hx]

theorem sorted_values {es : List (OrderKey × SignedOp)} (hsub : ∀ e ∈ es, e ∈ log.ops.entries)
    (hsrt : es.Pairwise fun x y => x.1 < y.1) :
    (es.map Prod.snd).Pairwise fun a b => a.orderKey < b.orderKey := by
  refine pairwise_map.2 (hsrt.imp_of_mem ?_)
  rintro ⟨k, a⟩ ⟨l, b⟩ ha hb hkl
  obtain ⟨rfl, -⟩ := entry_arrived (hsub _ ha)
  obtain ⟨rfl, -⟩ := entry_arrived (hsub _ hb)
  exact hkl

theorem mem_iter {log : OpLog} {op : SignedOp} : op ∈ log.iter ↔ op ∈ log.arrivals := by
  constructor
  · intro h
    obtain ⟨e, he, rfl⟩ := mem_map.1 h
    exact (entry_arrived (k := e.1) he).2
  · exact fun h => mem_map.2 ⟨_, mem_arrivals.1 h, rfl⟩

theorem iter_sorted (log : OpLog) : log.iter.Pairwise (·.orderKey < ·.orderKey) :=
  sorted_values (fun _ he => he) log.ops.sorted

theorem since_sorted (log : OpLog) (cursor : OrderKey) :
    (log.since cursor).Pairwise fun a b => a.orderKey < b.orderKey :=
  sorted_values (fun _ he => (mem_above.1 he).1) (log.ops.above_sorted _)

theorem since_eq (log : OpLog) (cursor : OrderKey) :
    log.since cursor = (log.arrivals.filter fun op => cursor < op.orderKey).orderBy SignedOp.orderKey := by
  have hsrt := log.since_sorted cursor
  refine (orderBy_eq ?_ hsrt).symm
  refine (perm_ext_iff_of_nodup ?_ (log.arrivals_nodup.filter _)).2 fun op => ?_
  · exact hsrt.imp fun hlt heq => absurd hlt (by rw [heq]; exact lt_irrefl _)
  · rw [mem_since, mem_filter, decide_eq_true_eq]

def ofStore (store : Option (List Byte)) (op : SignedOp) : Bool := store.all fun wanted => op.body.store.1 = wanted

def originOpsIn (log : OpLog) (origin : DeviceId) (after : Option OrderKey) (store : Option (List Byte)) :
    List SignedOp :=
  (log.arrivals.filter fun op => op.body.device = origin ∧ ofStore store op ∧ after.all (· < op.orderKey)).orderBy
    SignedOp.orderKey

theorem originSince_store_eq (log : OpLog) (origin : DeviceId) (after : Option OrderKey)
    (store : Option (List Byte)) (limit : ℕ) :
    log.originSince origin after store limit =
      ((log.originOpsIn origin after store).take (max limit 1)).map fun op => (op.orderKey, op.toBytes) := by
  generalize hes : (log.ops.above after).filter (fun e =>
      e.2.body.device = origin ∧ store.all fun wanted => e.2.body.store.1 = wanted) = es
  have hsub : ∀ e ∈ es, e ∈ log.ops.entries := by
    intro e he
    rw [← hes, mem_filter] at he
    exact (mem_above.1 he.1).1
  have hsrt : (es.map Prod.snd).Pairwise fun a b => a.orderKey < b.orderKey := by
    refine sorted_values hsub ?_
    rw [← hes]
    exact (log.ops.above_sorted after).filter _
  have hops : log.originOpsIn origin after store = es.map Prod.snd := by
    refine orderBy_eq ((perm_ext_iff_of_nodup ?_ (log.arrivals_nodup.filter _)).2 fun op => ?_) hsrt
    · exact hsrt.imp fun hlt heq => absurd hlt (by rw [heq]; exact lt_irrefl _)
    · simp only [← hes, mem_map, mem_filter, mem_above, decide_eq_true_eq]
      constructor
      · rintro ⟨⟨k, op⟩, ⟨⟨he, hb⟩, hd, hst⟩, rfl⟩
        obtain ⟨rfl, hop⟩ := entry_arrived he
        refine ⟨hop, hd, hst, ?_⟩
        cases after with
        | none => rfl
        | some a => simpa using hb a rfl
      · rintro ⟨hop, hd, hst, hb⟩
        refine ⟨(op.orderKey, op), ⟨⟨mem_arrivals.1 hop, ?_⟩, hd, hst⟩, rfl⟩
        rintro a rfl
        simpa using hb
  rw [originSince, hes, hops, ← map_take, map_map]
  refine map_congr_left fun e he => ?_
  obtain ⟨heq, -⟩ := entry_arrived (hsub e (mem_of_mem_take he))
  rw [heq]
  rfl

theorem head_eq (log : OpLog) : log.head = (log.arrivals.map SignedOp.orderKey).max? := by
  rw [head, lastKey?, arrivals_map_orderKey]
  cases hlast : log.ops.keys.getLast? with
  | none =>
    rw [getLast?_eq_none_iff] at hlast
    have hnil : log.relayOrder = [] := by
      refine eq_nil_iff_forall_not_mem.2 fun k hk => ?_
      rw [← log.arrived, hlast] at hk
      exact absurd hk not_mem_nil
    simp [hnil]
  | some k =>
    obtain ⟨ks, hks⟩ := getLast?_eq_some_iff.1 hlast
    have hsrt := log.ops.keys_sorted
    rw [hks, pairwise_append] at hsrt
    symm
    refine max?_eq_some_iff.2 ⟨(log.arrived k).1 (by simp [hks]), fun b hb => ?_⟩
    rw [← log.arrived, hks, mem_append, mem_singleton] at hb
    rcases hb with hb | rfl
    · exact (hsrt.2.2 b hb k (mem_singleton_self k)).le
    · exact le_rfl

end ProxyNode.OpLog
