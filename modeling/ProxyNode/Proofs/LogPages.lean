import Mathlib.Data.Set.Function
import ProxyNode.Sanity.LogReads
import ProxyNode.Spec.Kv
import ProxyNode.Spec.RawLog

/-! The log of the source never leaves the logs whose views agree, so its pages always
resolve; and pages of either kind, chained until one is empty, tile the log. -/

namespace ProxyNode

open List OpLog

namespace OpLog

def toRaw (log : OpLog) : RawLog := ⟨log.ops, log.ids, log.relayEpoch, log.relayOrder⟩

theorem toRaw_append (log : OpLog) (op : SignedOp) :
    log.toRaw.append op = ((log.append op).1.toRaw, (log.append op).2) := by
  unfold append RawLog.append
  by_cases h : op.id ∈ log.ids
  · rw [dif_pos h]
    exact if_pos h
  · rw [dif_neg h]
    exact if_neg h

theorem toRaw_takeIn (log : OpLog) (ops : List SignedOp) : (log.takeIn ops).toRaw = log.toRaw.takeIn ops := by
  induction ops generalizing log with
  | nil => rfl
  | cons op ops ih =>
    refine (ih _).trans ?_
    rw [RawLog.takeIn, RawLog.takeIn, foldl_cons, toRaw_append]

/-- An op came in if it is the first of its id and the log had none. -/
theorem mem_takeIn_iff {log : OpLog} {ops : List SignedOp} {op : SignedOp} :
    op ∈ (log.takeIn ops).arrivals ↔
      op ∈ log.arrivals ∨ log.contains op.id = false ∧ ops.find? (·.id = op.id) = some op := by
  induction ops generalizing log with
  | nil => simp [takeIn]
  | cons a ops ih =>
    refine ih.trans ?_
    dsimp only
    by_cases heq : a.id = op.id
    · rw [find?_cons_of_pos (by simpa using heq), Option.some.injEq, contains_append.2 (.inr heq.symm)]
      cases hc : log.contains a.id with
      | true => simp [append_of_contains hc, ← heq, hc]
      | false => simp [arrivals_append_new hc, ← heq, hc, eq_comm]
    · rw [find?_cons_of_neg (by simpa using heq)]
      cases hc : log.contains a.id with
      | true => rw [append_of_contains hc]
      | false =>
        have hne : op ≠ a := fun h => heq (h ▸ rfl)
        have hsame : (log.append a).1.contains op.id = log.contains op.id := by
          rw [Bool.eq_iff_iff, contains_append, or_iff_left (Ne.symm heq)]
        rw [hsame, arrivals_append_new hc, mem_append, mem_singleton, or_iff_left hne]

/-- The `expect` of the source is never reached. -/
theorem toRaw_relayPage (log : OpLog) (after limit : ℕ) :
    log.toRaw.relayPage after limit = some (log.relayPage after limit) := by
  generalize hes : (log.relayOrder.attach.zipIdx.drop (min after log.relayOrder.length)).take limit = es
  have hmap : (log.relayOrder.zipIdx.drop (min after log.relayOrder.length)).take limit =
      es.map (Prod.map Subtype.val id) := by
    rw [← hes, map_take, map_drop, ← zipIdx_map, attach_map_subtype_val]
  have hents : (es.map (Prod.map Subtype.val id)).mapM
      (fun e => (log.ops.get? e.1).map fun op => (⟨e.2 + 1, op⟩ : RelayLogEntry)) =
        some (es.map fun e => ⟨e.2 + 1, log.arrival e.1⟩) :=
    mapM_map_pure fun e _ => congrArg (Option.map _) (log.get?_arrival e.1)
  unfold RawLog.relayPage
  dsimp only [toRaw]
  rw [hmap, hents, relayPage, hes]
  rfl

theorem views_agree (log : OpLog) : log.relayOrder.Nodup ∧ log.relayOrder.Perm log.ops.keys ∧
    Set.BijOn OrderKey.opId {k | k ∈ log.relayOrder} log.ids := by
  have hnd : log.relayOrder.Nodup := log.deduped.of_map
  refine ⟨hnd, (perm_ext_iff_of_nodup hnd log.ops.keys_nodup).2 fun k => (log.arrived k).symm, ?_, ?_, ?_⟩
  · intro k hk
    exact Finset.mem_coe.2 ((log.mem_ids _).2 (mem_map_of_mem hk))
  · intro k hk l hl heq
    exact inj_on_of_nodup_map log.deduped hk hl heq
  · intro id hid
    exact mem_map.1 ((log.mem_ids id).1 (Finset.mem_coe.1 hid))

end OpLog

namespace RawLog

/-! ## Pages of the arrival stream -/

theorem last_seq {l : List SignedOp} (after : ℕ) (h : l ≠ []) : ∃ op,
    ((l.zipIdx after).map fun e => (⟨e.2 + 1, e.1⟩ : RelayLogEntry)).getLast? = some ⟨after + l.length, op⟩ := by
  obtain ⟨front, op, rfl⟩ := (eq_nil_or_concat' l).resolve_left h
  exact ⟨op, by simp [zipIdx_append, Nat.add_assoc]⟩

/-- A reader in the middle of a log that has taken in the batches before `later`. -/
structure Reads (start : OpLog) (batches : List (List SignedOp)) (log : OpLog) (r : Reader) : Prop where
  log_eq : r.log = log.toRaw
  got : r.got.map RelayLogEntry.op = log.arrivals.take r.after
  after_le : r.after ≤ log.arrivals.length
  came : ∃ past, batches = past ++ r.later ∧ log = start.takeIn past.flatten

def Reader.left (r : Reader) : ℕ := r.log.relayOrder.length + r.later.flatten.length - r.after

variable {log : OpLog} {batches : List (List SignedOp)}

theorem Reads.came_next {start : OpLog} {r : Reader} (h : Reads start batches log r) :
    ∃ past, batches = past ++ r.later.tail ∧ log.takeIn (r.later.headD []) = start.takeIn past.flatten := by
  obtain ⟨past, hpast, hlog⟩ := h.came
  cases hl : r.later with
  | nil => exact ⟨past, by rw [hpast, hl]; rfl, hlog⟩
  | cons batch later =>
    refine ⟨past ++ [batch], by rw [hpast, hl, append_assoc]; rfl, ?_⟩
    rw [flatten_append, takeIn_append, ← hlog, flatten_singleton]
    rfl

variable {limit : ℕ}

/-- A turn is the end of the log that stands there, or leaves less to read. -/
theorem Reads.turn {start : OpLog} {r : Reader} (hlim : 0 < limit) (h : Reads start batches log r) :
    (∃ past, past <+: batches ∧ r.got.map RelayLogEntry.op = (start.takeIn past.flatten).arrivals ∧
      relayTurn limit r = .inl (some ((start.takeIn past.flatten).toRaw, r.got))) ∨
    ∃ log' r', relayTurn limit r = .inr r' ∧ Reads start batches log' r' ∧ r'.left < r.left := by
  obtain ⟨past, hpast, hlog⟩ := h.came_next
  generalize hlog' : log.takeIn (r.later.headD []) = log'
  have hext : log.Extends log' := hlog' ▸ log.extends_takeIn _
  have hgot : r.got.map RelayLogEntry.op = log'.arrivals.take r.after := by rw [h.got, hext.take h.after_le]
  have hpage : (r.log.takeIn (r.later.headD [])).relayPage r.after limit =
      some (log'.relayPage r.after limit) := by
    rw [h.log_eq, ← toRaw_takeIn, hlog', toRaw_relayPage]
  have hlen : log'.arrivals.length ≤ log.arrivals.length + (r.later.headD []).length :=
    hlog' ▸ log.length_takeIn_le _
  have haft : r.after ≤ log'.arrivals.length := h.after_le.trans hext.arrivals.length_le
  have hents := log'.relayPage_entries r.after limit
  by_cases hnil : (log'.arrivals.drop r.after).take limit = []
  · -- nothing behind the reader: what it has is the whole log
    left
    have hdrop : log'.arrivals.drop r.after = [] := (take_eq_nil_iff.1 hnil).resolve_left hlim.ne'
    rw [hnil] at hents
    refine ⟨past, ⟨_, hpast.symm⟩, ?_, ?_⟩
    · rw [← hlog, hlog', hgot, take_of_length_le (drop_eq_nil_iff.1 hdrop)]
    · simp only [relayTurn, hpage, hents]
      rw [← hlog, h.log_eq, ← toRaw_takeIn]
      rfl
  · right
    generalize hp : (log'.arrivals.drop r.after).take limit = page
    rw [hp] at hents hnil
    obtain ⟨op, hlast⟩ := last_seq r.after hnil
    rw [← hents] at hlast
    have hprefix : page <+: log'.arrivals.drop r.after := hp ▸ take_prefix ..
    have hfit := hprefix.length_le
    have hpos := length_pos_iff.2 hnil
    rw [length_drop] at hfit
    refine ⟨log', ⟨log'.toRaw, r.after + page.length, r.got ++ (log'.relayPage r.after limit).entries,
      r.later.tail⟩, ?_, ⟨rfl, ?_, Nat.add_le_of_le_sub' haft hfit, past, hpast, hlog'.symm.trans hlog⟩, ?_⟩
    · simp only [relayTurn, hpage, hlast]
      rw [h.log_eq, ← toRaw_takeIn, hlog']
    · have hops : (log'.relayPage r.after limit).entries.map RelayLogEntry.op = page := by
        rw [hents, map_map]
        exact zipIdx_map_fst r.after page
      rw [map_append, hgot, hops, take_add, ← prefix_iff_eq_take.1 hprefix]
    · have hleft : r.later.flatten.length = (r.later.headD []).length + r.later.tail.flatten.length := by
        cases r.later <;> simp
      have hlen₁ := log'.length_arrivals
      have hlen₂ := log.length_arrivals
      have hle := h.after_le
      rw [Reader.left, Reader.left, h.log_eq]
      dsimp only [toRaw]
      omega

theorem relay_pages_tile (start : OpLog) (hlim : 0 < limit) (batches : List (List SignedOp)) {fuel : ℕ}
    (hfuel : start.arrivals.length + batches.flatten.length < fuel) :
    ∃ past entries, Loop.run (relayTurn limit) fuel ⟨start.toRaw, 0, [], batches⟩ =
        some (some ((start.takeIn past.flatten).toRaw, entries)) ∧
      past <+: batches ∧ entries.map RelayLogEntry.op = (start.takeIn past.flatten).arrivals := by
  have hstart : Reads start batches start ⟨start.toRaw, 0, [], batches⟩ := ⟨rfl, rfl, Nat.zero_le _, [], rfl, rfl⟩
  rw [length_arrivals] at hfuel
  have hends := Loop.run_within (fun r => ∃ log, Reads start batches log r)
    (fun res => ∃ past, ∃ entries : List RelayLogEntry, res = some ((start.takeIn past.flatten).toRaw, entries) ∧
      past <+: batches ∧ entries.map RelayLogEntry.op = (start.takeIn past.flatten).arrivals) Reader.left
    (fun r ⟨log, h⟩ => (h.turn hlim).imp
      (fun ⟨past, hpast, hops, hr⟩ => ⟨_, hr, past, r.got, rfl, hpast, hops⟩)
      fun ⟨log', r', hr, h', hlt⟩ => ⟨r', hr, ⟨log', h'⟩, hlt⟩) ⟨start, hstart⟩ hfuel
  obtain ⟨_, hrun, past, entries, rfl, hpast, hops⟩ := hends
  exact ⟨past, entries, hrun, hpast, hops⟩

/-! ## Pages in the total order -/

theorem nodup_of_keys {l : List SignedOp} (h : l.Pairwise fun a b => a.orderKey < b.orderKey) : l.Nodup :=
  h.imp fun hlt heq => absurd hlt (by rw [heq]; exact lt_irrefl _)

/-- Behind an op of a read in order lies what the read from its key gives. -/
theorem since_after {cursor : OrderKey} {front back : List SignedOp} {op : SignedOp}
    (h : log.since cursor = front ++ op :: back) : log.since op.orderKey = back := by
  have hsrt := log.since_sorted cursor
  have hmem : ∀ x, x ∈ front ∨ x = op ∨ x ∈ back ↔ x ∈ log.arrivals ∧ cursor < x.orderKey := by
    intro x
    rw [← mem_since, h, mem_append, mem_cons]
  have hop := ((hmem op).1 (.inr (.inl rfl))).2
  rw [h, pairwise_append, pairwise_cons] at hsrt
  obtain ⟨-, ⟨hback, hsrt⟩, hfro⟩ := hsrt
  suffices hperm : (log.since op.orderKey).Perm back from
    hperm.eq_of_pairwise (fun a b _ _ hab hba => absurd hba (lt_asymm hab)) (log.since_sorted _) hsrt
  refine (perm_ext_iff_of_nodup (nodup_of_keys (log.since_sorted _)) (nodup_of_keys hsrt)).2 fun x => ?_
  rw [mem_since]
  constructor
  · rintro ⟨hx, hlt⟩
    rcases (hmem x).2 ⟨hx, hop.trans hlt⟩ with hx | rfl | hx
    · exact absurd (hfro x hx op mem_cons_self) hlt.asymm
    · exact absurd hlt (lt_irrefl _)
    · exact hx
  · intro hx
    exact ⟨((hmem x).1 (.inr (.inr hx))).1, hback x hx⟩

theorem since_pages_tile (log : OpLog) (hlim : 0 < limit) (cursor : OrderKey) {fuel : ℕ}
    (hfuel : (log.since cursor).length < fuel) :
    Loop.run (sinceTurn log.toRaw limit) fuel (cursor, []) = some (log.since cursor) := by
  suffices hends : ∃ res, Loop.run (sinceTurn log.toRaw limit) fuel (cursor, []) = some res ∧
      res = log.since cursor by
    obtain ⟨_, hrun, rfl⟩ := hends
    exact hrun
  refine Loop.run_within (fun r => r.2 ++ log.since r.1 = log.since cursor) _ (fun r => (log.since r.1).length) ?_
    (nil_append _) hfuel
  rintro ⟨c, got⟩ h
  dsimp only at h ⊢
  generalize hp : (log.since c).take limit = page
  have hraw : log.toRaw.since c = log.since c := rfl
  rcases eq_nil_or_concat' page with rfl | ⟨front, last, rfl⟩
  · have hnil := (take_eq_nil_iff.1 hp).resolve_left hlim.ne'
    rw [hnil, append_nil] at h
    exact .inl ⟨got, by simp [sinceTurn, hraw, hp], h⟩
  · have hspl : log.since c = front ++ last :: (log.since c).drop limit := by
      have htile := take_append_drop limit (log.since c)
      rw [hp, append_assoc] at htile
      exact htile.symm
    have hrest := since_after hspl
    refine .inr ⟨(last.orderKey, got ++ (front ++ [last])), by simp [sinceTurn, hraw, hp], ?_, ?_⟩
    · rw [hrest, ← h, append_assoc, append_assoc]
      exact congrArg (got ++ ·) hspl.symm
    · have hlen := congrArg length hspl
      rw [length_append, length_cons] at hlen
      rw [hrest]
      omega

end RawLog

/-- The views of the log stay in bijection, it holds the first op of each id, no page meets a
missing op, and either way of paging yields every op once, the arrivals also when more come in
between pages. -/
theorem log_pages_tile (random : Epoch) (ops : List SignedOp) :
    let log := (RawLog.new random).takeIn ops
    (log.relayOrder.Nodup ∧ log.relayOrder.Perm log.ops.keys ∧
      Set.BijOn OrderKey.opId {k | k ∈ log.relayOrder} log.ids ∧
      (∀ k op, log.ops.get? k = some op → op.orderKey = k) ∧
      ∀ op, op ∈ log.iter ↔ ops.find? (·.id = op.id) = some op) ∧
    (∀ after limit, ∃ page, log.relayPage after limit = some page) ∧
    ∀ limit, 0 < limit →
      (∀ batches fuel, ops.length + batches.flatten.length < fuel → ∃ past entries,
        Loop.run (RawLog.relayTurn limit) fuel ⟨log, 0, [], batches⟩ =
          some (some (log.takeIn past.flatten, entries)) ∧ past <+: batches ∧
        (entries.map RelayLogEntry.op).Nodup ∧
        ∀ op, op ∈ entries.map RelayLogEntry.op ↔ op ∈ (log.takeIn past.flatten).iter) ∧
      ∀ fuel, ops.length < fuel → ∃ out,
        Loop.run (RawLog.sinceTurn log limit) fuel (OrderKey.min, []) = some out ∧ out.Nodup ∧
        ∀ op, op ∈ out ↔ op ∈ log.iter ∧ OrderKey.min < op.orderKey := by
  intro log
  have hfst : ∀ op, op ∈ ((OpLog.new random).takeIn ops).iter ↔ ops.find? (·.id = op.id) = some op := by
    intro op
    have hemp : op ∉ (OpLog.new random).arrivals := List.not_mem_nil
    rw [OpLog.mem_iter, OpLog.mem_takeIn_iff, or_iff_right hemp]
    exact and_iff_right rfl
  generalize hstart : (OpLog.new random).takeIn ops = start at hfst
  have hlog : log = start.toRaw := by
    rw [← hstart, OpLog.toRaw_takeIn]
    rfl
  have hlen : start.arrivals.length ≤ ops.length := by
    have hle := (OpLog.new random).length_takeIn_le ops
    rw [hstart] at hle
    exact hle.trans (Nat.zero_add _).le
  obtain ⟨hnd, hperm, hbij⟩ := start.views_agree
  rw [hlog]
  refine ⟨⟨hnd, hperm, hbij, start.keyed, hfst⟩, fun after limit => ⟨_, start.toRaw_relayPage after limit⟩, ?_⟩
  intro limit hlim
  constructor
  · intro batches fuel hfuel
    obtain ⟨past, entries, hrun, hpast, hops⟩ :=
      RawLog.relay_pages_tile start hlim batches (lt_of_le_of_lt (Nat.add_le_add_right hlen _) hfuel)
    rw [OpLog.toRaw_takeIn] at hrun
    refine ⟨past, entries, hrun, hpast, ?_, fun op => ?_⟩
    · rw [hops]
      exact OpLog.arrivals_nodup _
    · rw [hops, ← OpLog.mem_iter, ← OpLog.toRaw_takeIn]
      rfl
  · intro fuel hfuel
    have hmem : ∀ op, op ∈ start.since OrderKey.min ↔ op ∈ start.iter ∧ OrderKey.min < op.orderKey := by
      intro op
      rw [OpLog.mem_since, OpLog.mem_iter]
    have hnodup := RawLog.nodup_of_keys (start.since_sorted OrderKey.min)
    have hle : (start.since OrderKey.min).length ≤ start.arrivals.length :=
      (List.subperm_of_subset hnodup fun op hop => (OpLog.mem_since.1 hop).1).length_le
    exact ⟨_, RawLog.since_pages_tile start hlim OrderKey.min (lt_of_le_of_lt (hle.trans hlen) hfuel), hnodup,
      hmem⟩

/-- Pages of one over an op sent twice, another one coming in before the first page. -/
theorem sent_twice_paged :
    let a := plainPut (padTo 32 [7]) 20
    let b := plainPut (padTo 32 [5]) 10
    let log := (RawLog.new (Wire.fill 32 9)).takeIn [a, a]
    ∃ past entries, Loop.run (RawLog.relayTurn 1) 4 ⟨log, 0, [], [[b]]⟩ =
        some (some (log.takeIn past.flatten, entries)) ∧ past <+: [[b]] ∧
      (entries.map RelayLogEntry.op).Nodup ∧
      ∀ op, op ∈ entries.map RelayLogEntry.op ↔ op ∈ (log.takeIn past.flatten).iter :=
  ((log_pages_tile (Wire.fill 32 9) [plainPut (padTo 32 [7]) 20, plainPut (padTo 32 [7]) 20]).2.2 1
    Nat.one_pos).1 [[plainPut (padTo 32 [5]) 10]] 4 (by decide)

end ProxyNode
