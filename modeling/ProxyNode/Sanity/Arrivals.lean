import ProxyNode.Base.Lists
import ProxyNode.Spec.Log

/-! A log is determined by the ops it holds in order of arrival. Every query of the log is
read off that list: membership, the page behind a sequence, the origins and the ops of
one origin above a key. -/

namespace ProxyNode.OpLog

open List SortedMap

/-- The ops of the log, first insertion first. -/
def arrivals (log : OpLog) : List SignedOp := log.relayOrder.attach.map log.arrival

theorem get?_arrival (log : OpLog) (k : {k // k ∈ log.relayOrder}) :
    log.ops.get? k.1 = some (log.arrival k) := by
  simp [arrival]

theorem arrivals_map_some (log : OpLog) :
    log.arrivals.map some = log.relayOrder.map log.ops.get? := by
  rw [arrivals, map_map, ← attach_map_val (f := log.ops.get?)]
  exact map_congr_left fun k _ => (log.get?_arrival k).symm

@[simp] theorem arrivals_map_orderKey (log : OpLog) :
    log.arrivals.map SignedOp.orderKey = log.relayOrder := by
  have h : ∀ k : {k // k ∈ log.relayOrder}, (log.arrival k).orderKey = k.1 := fun k =>
    log.keyed k.1 _ (log.get?_arrival k)
  rw [arrivals, map_map]
  exact (map_congr_left fun k _ => h k).trans (attach_map_subtype_val _)

@[simp] theorem length_arrivals (log : OpLog) : log.arrivals.length = log.relayOrder.length := by
  rw [← log.arrivals_map_orderKey, length_map]

variable {log : OpLog} {op : SignedOp}

theorem mem_arrivals :
    op ∈ log.arrivals ↔ (op.orderKey, op) ∈ log.ops.entries := by
  rw [← get?_eq_some]
  constructor
  · intro h
    obtain ⟨k, -, rfl⟩ := mem_map.1 h
    rw [log.keyed k.1 _ (log.get?_arrival k)]
    exact log.get?_arrival k
  · intro h
    have hk : op.orderKey ∈ log.relayOrder := (log.arrived _).1 (SortedMap.mem_keys.2 ⟨op, h⟩)
    refine mem_map.2 ⟨⟨op.orderKey, hk⟩, mem_attach _ _, ?_⟩
    exact Option.some.inj ((log.get?_arrival _).symm.trans h)

theorem entry_arrived {k : OrderKey} (h : (k, op) ∈ log.ops.entries) :
    k = op.orderKey ∧ op ∈ log.arrivals := by
  have hk : op.orderKey = k := log.keyed k op (get?_eq_some.2 h)
  subst hk
  exact ⟨rfl, mem_arrivals.2 h⟩

variable {id : OpId}

theorem contains_iff :
    log.contains id = true ↔ ∃ op ∈ log.arrivals, op.id = id := by
  rw [contains, decide_eq_true_iff, log.mem_ids, ← log.arrivals_map_orderKey, map_map, mem_map]
  rfl

theorem contains_of_mem (h : op ∈ log.arrivals) :
    log.contains op.id = true :=
  contains_iff.2 ⟨op, h, rfl⟩

theorem arrivals_ids_nodup (log : OpLog) : (log.arrivals.map SignedOp.id).Nodup := by
  have h := log.deduped
  rwa [← log.arrivals_map_orderKey, map_map] at h

theorem arrivals_nodup (log : OpLog) : log.arrivals.Nodup := log.arrivals_ids_nodup.of_map

theorem eq_of_id {a b : SignedOp} (ha : a ∈ log.arrivals) (hb : b ∈ log.arrivals) (h : a.id = b.id) : a = b :=
  inj_on_of_nodup_map log.arrivals_ids_nodup ha hb h

/-! ## Appending -/

theorem append_of_contains (h : log.contains op.id = true) :
    log.append op = (log, false) :=
  dif_pos (decide_eq_true_iff.1 h)

theorem arrivals_append_new (h : log.contains op.id = false) :
    (log.append op).1.arrivals = log.arrivals ++ [op] := by
  have hid : op.id ∉ log.ids := decide_eq_false_iff_not.1 h
  apply map_injective_iff.2 (Option.some_injective _)
  rw [arrivals_map_some, append, dif_neg hid, map_append, map_append, arrivals_map_some]
  -- the new key differs from every key that arrived before it
  congr 1
  · refine map_congr_left fun k hk => ?_
    rw [get?_insert, if_neg]
    rintro rfl
    exact hid ((log.mem_ids _).2 (mem_map_of_mem hk))
  · simp

@[simp] theorem append_relayEpoch (log : OpLog) (op : SignedOp) :
    (log.append op).1.relayEpoch = log.relayEpoch := by
  unfold append
  split_ifs <;> rfl

theorem mem_arrivals_append {x : SignedOp} (h : x ∈ (log.append op).1.arrivals) :
    x ∈ log.arrivals ∨ x = op := by
  cases hc : log.contains op.id with
  | true => rw [append_of_contains hc] at h; exact .inl h
  | false =>
    rw [arrivals_append_new hc] at h
    simpa using h

theorem contains_append :
    (log.append op).1.contains id = true ↔ log.contains id = true ∨ id = op.id := by
  cases hc : log.contains op.id with
  | true =>
    rw [append_of_contains hc]
    exact ⟨.inl, fun h => h.elim (fun h => h) (fun h => h ▸ hc)⟩
  | false =>
    rw [contains_iff, contains_iff, arrivals_append_new hc]
    simp [or_and_right, exists_or, eq_comm]

/-! ## Extension -/

/-- `log'` continues `log`: same stream, later arrivals only. -/
structure Extends (log log' : OpLog) : Prop where
  epoch : log'.relayEpoch = log.relayEpoch
  arrivals : log.arrivals <+: log'.arrivals

theorem Extends.refl (log : OpLog) : log.Extends log := ⟨rfl, prefix_refl _⟩

theorem Extends.trans {a b c : OpLog} (h : a.Extends b) (h' : b.Extends c) : a.Extends c :=
  ⟨h'.epoch.trans h.epoch, h.arrivals.trans h'.arrivals⟩

theorem extends_append (log : OpLog) (op : SignedOp) : log.Extends (log.append op).1 := by
  refine ⟨append_relayEpoch log op, ?_⟩
  cases hc : log.contains op.id with
  | true => rw [append_of_contains hc]
  | false => rw [arrivals_append_new hc]; exact prefix_append _ _

theorem Extends.contains {log' : OpLog} (h : log.Extends log') (hid : log.contains id = true) :
    log'.contains id = true := by
  obtain ⟨op, hop, rfl⟩ := contains_iff.1 hid
  exact contains_of_mem (h.arrivals.subset hop)

/-- Below the head of the shorter log both streams agree. -/
theorem Extends.take {log' : OpLog} (h : log.Extends log') {n : ℕ} (hn : n ≤ log.arrivals.length) :
    log'.arrivals.take n = log.arrivals.take n := by
  obtain ⟨t, ht⟩ := h.arrivals
  rw [← ht, take_append_of_le_length hn]

/-- Ops of distinct ids, appended to an empty log, arrive as they are. -/
theorem arrivals_takeIn_new (random : Epoch) {ops : List SignedOp} (h : (ops.map SignedOp.id).Nodup) :
    ((new random).takeIn ops).arrivals = ops := by
  induction ops using reverseRecOn with
  | nil => rfl
  | append_singleton ops op ih =>
    rw [map_append, nodup_append] at h
    obtain ⟨hops, -, hdisj⟩ := h
    have hnew : ((new random).takeIn ops).contains op.id = false := by
      refine eq_false_of_ne_true fun hin => ?_
      obtain ⟨x, hx, hid⟩ := contains_iff.1 hin
      rw [ih hops] at hx
      exact hdisj _ (mem_map_of_mem hx) op.id (by simp) hid
    have hsnoc : (new random).takeIn (ops ++ [op]) = (((new random).takeIn ops).append op).1 := by
      rw [takeIn, foldl_append]
      rfl
    rw [hsnoc, arrivals_append_new hnew, ih hops]

theorem mem_takeIn {ops : List SignedOp} (h : op ∈ (log.takeIn ops).arrivals) : op ∈ log.arrivals ∨ op ∈ ops := by
  induction ops using reverseRecOn with
  | nil => exact .inl h
  | append_singleton ops x ih =>
    rw [takeIn, foldl_append] at h
    rcases mem_arrivals_append h with h | rfl
    · exact (ih h).imp_right (mem_append_left _)
    · exact .inr (by simp)

theorem extends_takeIn (log : OpLog) (ops : List SignedOp) : log.Extends (log.takeIn ops) := by
  induction ops generalizing log with
  | nil => exact .refl log
  | cons op ops ih => exact (log.extends_append op).trans (ih _)

theorem takeIn_append (log : OpLog) (a b : List SignedOp) : log.takeIn (a ++ b) = (log.takeIn a).takeIn b :=
  foldl_append

theorem length_takeIn_le (log : OpLog) (ops : List SignedOp) :
    (log.takeIn ops).arrivals.length ≤ log.arrivals.length + ops.length := by
  induction ops generalizing log with
  | nil => exact le_rfl
  | cons op ops ih =>
    have hrest := ih (log.append op).1
    have hone : (log.append op).1.arrivals.length ≤ log.arrivals.length + 1 := by
      cases hc : log.contains op.id with
      | true =>
        rw [append_of_contains hc]
        exact Nat.le_succ _
      | false =>
        rw [arrivals_append_new hc, length_append]
        rfl
    rw [length_cons]
    exact le_trans hrest (by omega)

/-! ## Queries -/

theorem relayState_head (log : OpLog) : log.relayState.head = log.arrivals.length :=
  log.length_arrivals.symm

theorem relayPage_entries (log : OpLog) (after limit : ℕ) :
    (log.relayPage after limit).entries =
      (((log.arrivals.drop after).take limit).zipIdx after).map fun e => ⟨e.2 + 1, e.1⟩ := by
  have hd : log.relayOrder.attach.zipIdx.drop (min after log.relayOrder.length) =
      log.relayOrder.attach.zipIdx.drop after := by
    rcases le_total after log.relayOrder.length with h | h
    · rw [min_eq_left h]
    · rw [min_eq_right h, drop_of_length_le (by simp), drop_of_length_le (by simpa using h)]
  have hz : ((log.arrivals.drop after).take limit).zipIdx after =
      (log.arrivals.zipIdx.drop after).take limit := by
    rw [drop_zipIdx, take_zipIdx, Nat.zero_add]
  rw [hz]
  simp only [relayPage, hd, arrivals, zipIdx_map, ← map_drop, ← map_take, map_map]
  rfl

theorem relaySinceWithEnvelopes_eq (log : OpLog) (after limit : ℕ) :
    log.relaySinceWithEnvelopes after limit =
      (((log.arrivals.drop after).take limit).zipIdx after).map fun e => (e.2 + 1, e.1, e.1.toBytes) := by
  rw [relaySinceWithEnvelopes, relayPage_entries, map_map]
  rfl

theorem mem_origins {origin : DeviceId} :
    origin ∈ log.origins ↔ ∃ op ∈ log.arrivals, op.body.device = origin := by
  have hstep : ∀ (set : SortedMap DeviceId Unit) (op : SignedOp),
      origin ∈ (set.insert op.body.device ()).keys ↔ origin ∈ set.keys ∨ op.body.device = origin := by
    intro set op
    rw [mem_keys_insert, or_comm, eq_comm]
  rw [origins, foldl_iff_exists (M := fun set => origin ∈ SortedMap.keys set) hstep]
  have he : origin ∉ (∅ : SortedMap DeviceId Unit).keys := by simp [SortedMap.mem_keys]
  constructor
  · rintro (h | ⟨op, hop, rfl⟩)
    · exact absurd h he
    · obtain ⟨⟨k, v⟩, hkv, rfl⟩ := mem_map.1 hop
      exact ⟨v, (entry_arrived hkv).2, rfl⟩
  · rintro ⟨op, hop, rfl⟩
    exact .inr ⟨op, mem_map.2 ⟨_, mem_arrivals.1 hop, rfl⟩, rfl⟩

theorem origins_sorted (log : OpLog) : log.origins.Pairwise (· < ·) :=
  keys_sorted _

def originOps (log : OpLog) (origin : DeviceId) (after : Option OrderKey) : List SignedOp :=
  ((log.ops.above after).filter fun e => e.2.body.device = origin).map Prod.snd

theorem mem_originOps {origin : DeviceId} {after : Option OrderKey} :
    op ∈ log.originOps origin after ↔
      op ∈ log.arrivals ∧ op.body.device = origin ∧ ∀ b, after = some b → b < op.orderKey := by
  simp only [originOps, mem_map, mem_filter, mem_above, decide_eq_true_eq]
  constructor
  · rintro ⟨⟨k, op⟩, ⟨⟨he, hb⟩, hd⟩, rfl⟩
    obtain ⟨rfl, hop⟩ := entry_arrived he
    exact ⟨hop, hd, hb⟩
  · rintro ⟨hop, hd, hb⟩
    exact ⟨(op.orderKey, op), ⟨⟨mem_arrivals.1 hop, hb⟩, hd⟩, rfl⟩

theorem originOps_sorted (log : OpLog) (origin : DeviceId) (after : Option OrderKey) :
    (log.originOps origin after).Pairwise fun a b => a.orderKey < b.orderKey := by
  refine pairwise_map.2 (List.Pairwise.imp_of_mem ?_ ((log.ops.above_sorted after).filter _))
  rintro ⟨k, a⟩ ⟨l, b⟩ ha hb hkl
  obtain ⟨rfl, -⟩ := entry_arrived (mem_above.1 (mem_of_mem_filter ha)).1
  obtain ⟨rfl, -⟩ := entry_arrived (mem_above.1 (mem_of_mem_filter hb)).1
  exact hkl

theorem originSince_eq (log : OpLog) (origin : DeviceId) (after : Option OrderKey) (limit : ℕ) :
    log.originSince origin after none limit =
      ((log.originOps origin after).take (max limit 1)).map fun op => (op.orderKey, op.toBytes) := by
  simp only [originSince, originOps, Option.all_none, and_true, ← map_take, map_map]
  refine map_congr_left ?_
  rintro ⟨k, op⟩ h
  have he := (mem_above.1 (mem_of_mem_filter (mem_of_mem_take h))).1
  obtain ⟨rfl, -⟩ := entry_arrived he
  rfl

end ProxyNode.OpLog
