import Mathlib.Data.Prod.Lex
import ProxyNode.Sanity.LogReads
import ProxyNode.Sanity.PageFill

/-! Honest serving. A socket serves a set of ops if its origins cover their devices and its
keyed reads are ordered reads of them. An audit ignores the claims, so that what it visits
is a matter of the ops alone: the own origin's first on a fresh exchange, and from a token
on the ops behind the one it names. -/

namespace ProxyNode

open List SignedOp

def originShare (ops : List SignedOp) (store : Option (List Byte)) (origin : DeviceId)
    (after : Option OrderKey) : List SignedOp :=
  (ops.filter fun op => op.body.device = origin ∧ OpLog.ofStore store op ∧ after.all (· < op.orderKey)).orderBy
    SignedOp.orderKey

structure ServesOps (socket : MeshPullSocket) (ops : List SignedOp) : Prop where
  distinct : (ops.map SignedOp.id).Nodup
  sorted : socket.origins.Pairwise (· < ·)
  origins : ∀ op ∈ ops, op.body.device ∈ socket.origins
  originSince : ∀ store, ReadsStore socket store (originShare ops store)

theorem servesOps_serveState (log : OpLog) (own : DeviceId) :
    ServesOps ((PageReads.atomic log).serveState own) log.arrivals where
  distinct := log.arrivals_ids_nodup
  sorted := log.origins_sorted
  origins := fun op hop => OpLog.mem_origins.2 ⟨op, hop, rfl⟩
  originSince := fun store origin after limit hlim => by
    rw [show originShare log.arrivals store origin after = log.originOpsIn origin after store from rfl]
    exact (log.originSince_store_eq origin after store limit).trans (by rw [max_eq_left hlim]; rfl)

/-! ## The order of a visit -/

/-- Origins ascend, and the keys within an origin. -/
def SignedOp.visitKey (op : SignedOp) : DeviceId ×ₗ OrderKey := toLex (op.body.device, op.orderKey)

/-- The order of a fresh exchange: the own origin first. -/
def freshOrder (own : DeviceId) (ops : List SignedOp) : List SignedOp :=
  (ops.filter fun op => op.body.device = own).orderBy SignedOp.visitKey ++
    (ops.filter fun op => op.body.device ≠ own).orderBy SignedOp.visitKey

def opsPast (ops : List SignedOp) (x : SignedOp) : List SignedOp :=
  (ops.filter fun op => x.visitKey < op.visitKey).orderBy SignedOp.visitKey

variable {ops : List SignedOp} {store : Option (List Byte)}

theorem visitKey_lt {a b : SignedOp} :
    a.visitKey < b.visitKey ↔ a.body.device < b.body.device ∨
      a.body.device = b.body.device ∧ a.orderKey < b.orderKey :=
  Prod.Lex.lt_iff

theorem visitKeys_nodup (h : (ops.map SignedOp.id).Nodup) : (ops.map visitKey).Nodup := by
  refine List.Nodup.of_map (fun key => (ofLex key).2.opId) ?_
  rw [map_map]
  exact h

theorem ids_nodup_filter (h : (ops.map SignedOp.id).Nodup) (p : SignedOp → Bool) :
    ((ops.filter p).map SignedOp.id).Nodup :=
  h.sublist (filter_sublist.map _)

variable {op : SignedOp}

theorem mem_originShare {origin : DeviceId} {after : Option OrderKey} :
    op ∈ originShare ops store origin after ↔
      op ∈ ops ∧ op.body.device = origin ∧ OpLog.ofStore store op = true ∧ after.all (· < op.orderKey) = true := by
  rw [originShare, mem_orderBy, mem_filter, decide_eq_true_eq]

theorem originShare_sorted (h : (ops.map SignedOp.id).Nodup) (store : Option (List Byte)) (origin : DeviceId)
    (after : Option OrderKey) :
    (originShare ops store origin after).Pairwise fun a b => a.orderKey < b.orderKey := by
  refine orderBy_lt (List.Nodup.of_map OrderKey.opId ?_)
  rw [map_map]
  exact ids_nodup_filter h _

variable {x : SignedOp}

theorem mem_opsPast : op ∈ opsPast ops x ↔ op ∈ ops ∧ x.visitKey < op.visitKey := by
  rw [opsPast, mem_orderBy, mem_filter, decide_eq_true_eq]

variable {own : DeviceId}

theorem mem_freshOrder : op ∈ freshOrder own ops ↔ op ∈ ops := by
  rw [freshOrder, mem_append, mem_orderBy, mem_orderBy, mem_filter, mem_filter,
    decide_eq_true_eq, decide_eq_true_eq, ← and_or_left]
  exact and_iff_left (em _)

variable {first rest : List SignedOp}

/-- What lies behind a later op is the rest of what lies behind an earlier one. -/
theorem opsPast_rest (h : (ops.map SignedOp.id).Nodup) {y : SignedOp}
    (hord : opsPast ops x = first ++ y :: rest) : opsPast ops y = rest := by
  rw [← orderBy_past (visitKeys_nodup (ids_nodup_filter h _)) hord, opsPast, filter_filter]
  have hy : x.visitKey < y.visitKey := (mem_opsPast.1 (hord ▸ by simp : y ∈ opsPast ops x)).2
  refine congrArg _ (filter_congr fun op _ => ?_)
  by_cases hop : y.visitKey < op.visitKey
  · simp [hop, hy.trans hop]
  · simp [hop]

def visitFrom (own : DeviceId) (ops : List SignedOp) : Option SignedOp → List SignedOp
  | none => freshOrder own ops
  | some x => opsPast ops x

theorem mem_of_visit {stop : Option SignedOp} (hop : op ∈ visitFrom own ops stop) :
    op ∈ ops := by
  cases stop with
  | none => exact mem_freshOrder.1 hop
  | some x => exact (mem_opsPast.1 hop).1

/-- Less is left to visit behind an op of a visit. -/
theorem visitFrom_shrinks {stop : Option SignedOp} (hnd : (ops.map SignedOp.id).Nodup)
    (hord : visitFrom own ops stop = first ++ x :: rest) :
    (opsPast ops x).length < (visitFrom own ops stop).length := by
  cases stop with
  | none =>
    have hx : x ∈ visitFrom own ops none := by
      rw [hord]
      exact mem_append_right _ mem_cons_self
    have hlen : (freshOrder own ops).length = ops.length := by
      rw [freshOrder, length_append, length_orderBy, length_orderBy]
      simpa using (filter_append_perm (fun op => decide (op.body.device = own)) ops).length_eq
    rw [visitFrom, hlen, opsPast, length_orderBy]
    exact length_filter_lt_length_iff_exists.2 ⟨x, mem_freshOrder.1 hx, by simp⟩
  | some y =>
    rw [opsPast_rest hnd hord, hord, length_append, length_cons]
    omega

/-- An op of a fresh exchange lies among the own origin's or behind all of them. -/
theorem freshOrder_split (h : freshOrder own ops = first ++ x :: rest) :
    (x.body.device = own ∧ ∃ tail, (ops.filter fun op => op.body.device = own).orderBy visitKey =
      first ++ x :: tail) ∨
    (x.body.device ≠ own ∧ ∃ front,
      first = (ops.filter fun op => op.body.device = own).orderBy visitKey ++
      front ∧ (ops.filter fun op => op.body.device ≠ own).orderBy visitKey = front ++ x :: rest) := by
  have hown : ∀ y ∈ (ops.filter fun op => op.body.device = own).orderBy visitKey,
    y.body.device = own := by
    intro y hy
    simpa using (mem_filter.1 ((mem_orderBy _).1 hy)).2
  have hoth : ∀ y ∈ (ops.filter fun op => op.body.device ≠ own).orderBy visitKey,
      y.body.device ≠ own := by
    intro y hy
    simpa using (mem_filter.1 ((mem_orderBy _).1 hy)).2
  rw [freshOrder, append_eq_append_iff] at h
  rcases h with ⟨front, hfst, hrest⟩ | ⟨tail, htail, hrest⟩
  · refine .inr ⟨hoth x (hrest ▸ ?_), front, hfst, hrest⟩
    exact mem_append_right _ mem_cons_self
  · cases tail with
    | nil =>
      rw [append_nil] at htail
      rw [nil_append] at hrest
      exact .inr ⟨hoth x (hrest ▸ mem_cons_self), [], by rw [append_nil, htail], hrest.symm⟩
    | cons y tail =>
      obtain ⟨rfl, -⟩ := cons.inj hrest
      exact .inl ⟨hown x (htail ▸ mem_append_right _ mem_cons_self), tail, htail⟩

/-! ## What an audit visits -/

section Audit

variable {socket : MeshPullSocket} (h : ServesOps socket ops) (claims : CoverageVector)

def inStore (ops : List SignedOp) (store : Option (List Byte)) : List SignedOp := ops.filter (OpLog.ofStore store)

theorem inStore_none (ops : List SignedOp) : inStore ops none = ops := filter_true ops

theorem readAfter_audit (resume : Option Resume) (o : DeviceId) :
    readAfter claims true resume o = if resume.bind (·.origin) = some o then resume.bind
      (·.afterKey) else none := by
  rw [readAfter, claimFor, if_pos rfl]
  rfl

/-- Over ascending origins a visit is an ordered read. -/
theorem visited_eq (store : Option (List Byte)) (resume : Option Resume) {origins : List DeviceId}
    {l : List SignedOp} (hnd : (ops.map SignedOp.id).Nodup) (horigins : origins.Pairwise (· < ·))
    (hl : (l.map SignedOp.id).Nodup) (hmem : ∀ op, op ∈ l ↔ op ∈ inStore ops store ∧ op.body.device ∈ origins ∧
      ∀ k, readAfter claims true resume op.body.device = some k → k < op.orderKey) :
    visited (originShare ops store) claims true resume origins = l.orderBy visitKey := by
  have hup : (visited (originShare ops store) claims true resume origins).Pairwise
      fun a b => a.visitKey < b.visitKey := by
    refine pairwise_flatMap.2 ⟨fun o _ => ?_, horigins.imp ?_⟩
    · refine (originShare_sorted hnd store o _).imp_of_mem fun ha hb hlt => visitKey_lt.2 (.inr ⟨?_, hlt⟩)
      rw [(mem_originShare.1 ha).2.1, (mem_originShare.1 hb).2.1]
    · intro o o' hlt a ha b hb
      rw [visitKey_lt, (mem_originShare.1 ha).2.1, (mem_originShare.1 hb).2.1]
      exact .inl hlt
  refine (orderBy_eq ((perm_ext_iff_of_nodup ?_ (hl.of_map _)).2 fun op => ?_) hup).symm
  · exact hup.imp fun hlt heq => absurd hlt (by rw [heq]; exact lt_irrefl _)
  · rw [hmem, visited, mem_flatMap]
    constructor
    · rintro ⟨o, ho, hop⟩
      obtain ⟨hin, rfl, hst, hk⟩ := mem_originShare.1 hop
      exact ⟨mem_filter.2 ⟨hin, hst⟩, ho, fun k hk' => by simpa [hk'] using hk⟩
    · rintro ⟨hin, ho, hk⟩
      obtain ⟨hin, hst⟩ := mem_filter.1 hin
      refine ⟨_, ho, mem_originShare.2 ⟨hin, rfl, hst, ?_⟩⟩
      cases hr : readAfter claims true resume op.body.device with
      | none => rfl
      | some k => simpa using hk k hr

include h in
theorem visited_token (x : SignedOp) :
    visited (originShare ops store) claims true (some (cutToken x)) (visitOrder socket (some (cutToken x))) =
      opsPast (inStore ops store) x := by
  have hvis : visitOrder socket (some (cutToken x)) = originsFrom socket.origins (some x.body.device) :=
    if_neg (by simp)
  have hsrt : (originsFrom socket.origins (some x.body.device)).Pairwise (· < ·) :=
    h.sorted.sublist (dropWhile_sublist _)
  rw [hvis, opsPast]
  refine visited_eq claims store _ h.distinct hsrt
    (ids_nodup_filter (ids_nodup_filter h.distinct _) _) fun op => ?_
  rw [mem_filter, decide_eq_true_eq, visitKey_lt, mem_originsFrom h.sorted, readAfter_audit]
  refine and_congr_right fun hop => ?_
  have horg := h.origins op (mem_filter.1 hop).1
  simp only [cutToken, keyedResume, Option.bind_some, Option.some.injEq, forall_eq', horg, true_and]
  by_cases hd : x.body.device = op.body.device
  · simp [hd]
  · simp [hd, lt_iff_le_and_ne]

include h in
theorem visited_fresh :
    visited (originShare ops store) claims true none (visitOrder socket none) =
      freshOrder socket.ownDeviceId (inStore ops store) := by
  have hnone : ∀ o, readAfter claims true none o = none := fun o => by rw [readAfter_audit]; rfl
  have hids := ids_nodup_filter h.distinct (OpLog.ofStore store)
  unfold visitOrder freshOrder
  split_ifs with hown
  · rw [visited, flatMap_cons, ← visited, hnone]
    congr 1
    · have hshare : visited (originShare ops store) claims true none [socket.ownDeviceId] =
          ((inStore ops store).filter fun op => op.body.device = socket.ownDeviceId).orderBy visitKey :=
        visited_eq claims store none h.distinct (pairwise_singleton _ _) (ids_nodup_filter hids _)
          fun op => by simp [hnone]
      rw [visited, flatMap_singleton, hnone] at hshare
      exact hshare
    · refine visited_eq claims store none h.distinct (h.sorted.filter _) (ids_nodup_filter hids _) fun op => ?_
      rw [mem_filter, mem_filter, decide_eq_true_eq, decide_eq_true_eq]
      refine and_congr_right fun hop => ?_
      simp [hnone, h.origins op (mem_filter.1 hop).1, eq_comm]
  · have hown' : socket.ownDeviceId ∉ socket.origins := fun hin => hown ⟨rfl, hin⟩
    have hnil : (inStore ops store).filter (fun op => op.body.device = socket.ownDeviceId) = [] := by
      refine filter_eq_nil_iff.2 fun op hop => ?_
      rw [decide_eq_true_eq]
      exact fun heq => hown' (heq ▸ h.origins op (mem_filter.1 hop).1)
    rw [hnil]
    refine visited_eq claims store none h.distinct h.sorted (ids_nodup_filter hids _) fun op => ?_
    rw [mem_filter, decide_eq_true_eq]
    refine and_congr_right fun hop => ?_
    have horg := h.origins op (mem_filter.1 hop).1
    simp only [Option.bind_none, originsFrom, horg, hnone, reduceCtorEq, false_imp_iff, implies_true, and_true,
      iff_true]
    exact fun heq => hown' (heq ▸ horg)

include h in
theorem ServesOps.channel (limits : PageLimits) (store : Option (List Byte)) (stop : Option SignedOp) :
    Filled limits.pageLimitMax limits.pageByteBudget (visitFrom socket.ownDeviceId (inStore ops store) stop)
      (buildKeyedChannel socket claims true limits.pageByteBudget store (stop.map cutToken)
        limits.pageLimitMax) := by
  have hown : ∀ o after, ∀ op ∈ originShare ops store o after, op.body.device = o :=
    fun o after op hop => (mem_originShare.1 hop).2.1
  have hfill := buildKeyedChannel_fill claims true (h.originSince store) hown (stop.map cutToken)
    limits.pageLimitMax_pos limits.pageByteBudget_pos
  have hvis : visited (originShare ops store) claims true (stop.map cutToken)
      (visitOrder socket (stop.map cutToken)) = visitFrom socket.ownDeviceId (inStore ops store) stop := by
    cases stop with
    | none => exact visited_fresh h claims
    | some x => exact visited_token h claims x
  rwa [hvis] at hfill

end Audit

end ProxyNode
