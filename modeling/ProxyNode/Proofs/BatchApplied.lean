import ProxyNode.Sanity.LogReads
import ProxyNode.Spec.Clock
import ProxyNode.Spec.Kv

/-! An incremental pull applies what it logs, and never moves its cursor back, exactly if the
keys of the batch fit the cursor: the cursor becomes the key of the last op taken, and only the
ops between the two are applied, or none if the two are the same. -/

namespace ProxyNode

open Wire List OpLog

/-! ## What a store is passed -/

namespace Store

variable {S : Store}

/-- The state left is what the calls of `apply` make of it. -/
theorem applyLoop_eq_foldl (storeId : StoreId) (ops : List SignedOp) (st : S.State) :
    (S.applyLoop storeId ops st).1 = (S.passedLoop storeId ops st).foldl S.applyOp st := by
  induction ops generalizing st with
  | nil => rfl
  | cons op ops ih =>
    rw [applyLoop, passedLoop]
    split_ifs
    · exact ih st
    · cases hdec : S.decode st op.body.payload.1 with
      | error e => rfl
      | ok native =>
        dsimp only
        generalize happ : S.apply st ⟨op.id, op.orderKey, op.body.hlc, op.body.device⟩ native = out
        have hstep : S.applyOp st op = out.1 := by rw [applyOp, hdec, ← happ]
        obtain ⟨st', failed⟩ := out
        cases failed with
        | some e => exact hstep.symm
        | none =>
          refine (ih st').trans ?_
          rw [foldl_cons, hstep]

theorem passedLoop_eq {storeId : StoreId} {ops : List SignedOp} {st : S.State}
    (h : (S.applyLoop storeId ops st).2 = none) :
    S.passedLoop storeId ops st = ops.filter fun op => op.body.store = storeId := by
  induction ops generalizing st with
  | nil => rfl
  | cons op ops ih =>
    rw [applyLoop] at h
    rw [passedLoop]
    by_cases hsto : op.body.store ≠ storeId
    · rw [if_pos hsto] at h ⊢
      rw [filter_cons_of_neg (by simpa using hsto)]
      exact ih h
    · rw [if_neg hsto] at h ⊢
      rw [filter_cons_of_pos (by simpa using hsto)]
      cases hdec : S.decode st op.body.payload.1 with
      | error e =>
        rw [hdec] at h
        cases h
      | ok native =>
        rw [hdec] at h
        dsimp only at h ⊢
        generalize S.apply st ⟨op.id, op.orderKey, op.body.hlc, op.body.device⟩ native = out at h ⊢
        obtain ⟨st', failed⟩ := out
        cases failed with
        | some e => cases h
        | none => exact congrArg (op :: ·) (ih h)

theorem mem_passed {ops : List SignedOp} {st : S.State} (h : (S.applyOps ops st).2 = none) {op : SignedOp} :
    op ∈ S.passed ops st ↔ op ∈ ops ∧ op.body.store = S.storeId st := by
  rw [passed, passedLoop_eq h, mem_filter, decide_eq_true_eq]

end Store

theorem mem_takeWhile_sorted {ops : List SignedOp} {through : OrderKey}
    (hsrt : ops.Pairwise fun a b => a.orderKey < b.orderKey) {op : SignedOp} :
    op ∈ ops.takeWhile (fun op => op.orderKey ≤ through) ↔ op ∈ ops ∧ op.orderKey ≤ through := by
  induction ops with
  | nil => simp
  | cons a ops ih =>
    obtain ⟨ha, hrest⟩ := pairwise_cons.1 hsrt
    by_cases hle : a.orderKey ≤ through
    · rw [takeWhile_cons_of_pos (by simpa using hle), mem_cons, mem_cons, ih hrest, or_and_right]
      refine or_congr_left ⟨fun h => ⟨h, h ▸ hle⟩, And.left⟩
    · rw [takeWhile_cons_of_neg (by simpa using hle)]
      refine iff_of_false not_mem_nil ?_
      rintro ⟨hop, hthrough⟩
      rcases mem_cons.1 hop with rfl | hop
      · exact hle hthrough
      · exact hle ((ha op hop).le.trans hthrough)

variable {H : Host}

theorem ApplyMode.mem_ops {log : OpLog} {after through : OrderKey} {op : SignedOp} (mode : ApplyMode) :
    op ∈ mode.ops log after through ↔ op ∈ log.arrivals ∧
      match mode with
      | .replay => True
      | .incremental => after < op.orderKey ∧ op.orderKey ≤ through := by
  cases mode with
  | replay =>
    rw [and_true]
    exact mem_iter
  | incremental =>
    have hsrt : (log.since after).Pairwise fun a b => a.orderKey < b.orderKey :=
      sorted_values (fun e he => (SortedMap.mem_above.1 he).1) (log.ops.above_sorted _)
    rw [ops, mem_takeWhile_sorted hsrt, mem_since, and_assoc]

/-! ## What a batch takes -/

namespace Node

/-- The node behind an op that passes every check of `sync_once_with`, and the number of ops
appended by then. -/
def takeOp (dur : Option (ℕ → WriteOutcome)) (s : Node H × ℕ) (op : SignedOp) : Option (Node H × ℕ) :=
  match s.1.daemon.registry.keyFor op.body.device with
  | none => none
  | some verifying =>
    match op.verify H.crypto verifying with
    | .error _ => none
    | .ok () =>
      match H.clockUpdate s.1.daemon.clock op.body.hlc op.body.device with
      | .error _ => none
      | .ok clock =>
        let node := s.1.perform (.clock clock)
        if node.daemon.log.contains op.id then some (node, s.2)
        else match dur with
          | none => some (node.perform (.append op), s.2 + 1)
          | some writes =>
            let write := node.writerAppend op (writes s.2)
            match write.2 with
            | some _ => none
            | none => some ((node.after write.1).perform (.append op), s.2 + 1)

def taken (dur : Option (ℕ → WriteOutcome)) : List SignedOp → Node H × ℕ → List SignedOp
  | [], _ => []
  | op :: ops, s =>
    match takeOp dur s op with
    | none => []
    | some s => op :: taken dur ops s

def lastKey (ops : List SignedOp) (cursor : OrderKey) : OrderKey :=
  (ops.getLast?.map SignedOp.orderKey).getD cursor

theorem lastKey_cons (op : SignedOp) (ops : List SignedOp) (cursor : OrderKey) :
    lastKey (op :: ops) cursor = lastKey ops op.orderKey := by
  rw [lastKey, lastKey, getLast?_cons, Option.map_some, Option.getD_some]
  cases ops.getLast? <;> rfl

/-- One op in the loop: refused, or taken. -/
theorem syncLoop_cons (dur : Option (ℕ → WriteOutcome)) (op : SignedOp) (ops : List SignedOp) (node : Node H)
    (highest : OrderKey) (appended : ℕ) :
    (takeOp dur (node, appended) op = none ∧ ∃ node' e,
      syncLoop dur (op :: ops) node highest appended = ⟨node', highest, appended, some e⟩ ∧
        node'.daemon.log = node.daemon.log ∧ node'.daemon.store = node.daemon.store) ∨
    ∃ node' n, takeOp dur (node, appended) op = some (node', n) ∧
      syncLoop dur (op :: ops) node highest appended = syncLoop dur ops node' op.orderKey n ∧
      node'.daemon.log = (node.daemon.log.append op).1 ∧ node'.daemon.store = node.daemon.store := by
  simp only [syncLoop, takeOp]
  cases node.daemon.registry.keyFor op.body.device with
  | none => exact .inl ⟨rfl, _, _, rfl, rfl, rfl⟩
  | some verifying =>
    dsimp only
    cases op.verify H.crypto verifying with
    | error e => exact .inl ⟨rfl, _, _, rfl, rfl, rfl⟩
    | ok u =>
      dsimp only
      cases H.clockUpdate node.daemon.clock op.body.hlc op.body.device with
      | error e => exact .inl ⟨rfl, _, _, rfl, rfl, rfl⟩
      | ok clock =>
        dsimp only
        split_ifs with hin
        · refine .inr ⟨_, _, rfl, rfl, ?_, rfl⟩
          exact (congrArg Prod.fst (append_of_contains hin)).symm
        · cases dur with
          | none => exact .inr ⟨_, _, rfl, rfl, rfl, rfl⟩
          | some writes =>
            dsimp only
            obtain ⟨poisoned, hdmn⟩ := (node.perform (.clock clock)).writerAppend_daemon op (writes appended)
            have hlog := congrArg Daemon.log hdmn
            have hsto := congrArg Daemon.store hdmn
            cases ((node.perform (.clock clock)).writerAppend op (writes appended)).2 with
            | some e => exact .inl ⟨rfl, _, _, rfl, hlog, hsto⟩
            | none =>
              refine .inr ⟨_, _, rfl, rfl, ?_, hsto⟩
              exact congrArg (fun log : OpLog => (log.append op).1) hlog

theorem syncLoop_taken (dur : Option (ℕ → WriteOutcome)) (ops : List SignedOp) (node : Node H)
    (highest : OrderKey) (appended : ℕ) :
    let loop := syncLoop dur ops node highest appended
    let first := taken dur ops (node, appended)
    loop.highest = lastKey first highest ∧ loop.node.daemon.log = node.daemon.log.takeIn first ∧
      loop.node.daemon.store = node.daemon.store ∧ (loop.abort = none ↔ first = ops) := by
  induction ops generalizing node highest appended with
  | nil => exact ⟨rfl, rfl, rfl, iff_of_true rfl rfl⟩
  | cons op ops ih =>
    rcases syncLoop_cons dur op ops node highest appended with
      ⟨hnone, node', e, heq, hlog, hsto⟩ | ⟨node', n, hsome, heq, hlog, hsto⟩
    · have htkn : taken dur (op :: ops) (node, appended) = [] := by rw [taken, hnone]
      dsimp only
      rw [heq, htkn]
      exact ⟨rfl, hlog, hsto, iff_of_false nofun nofun⟩
    · obtain ⟨hhigh, hlog', hsto', habort⟩ := ih node' op.orderKey n
      have htkn : taken dur (op :: ops) (node, appended) = op :: taken dur ops (node', n) := by
        rw [taken, hsome]
      dsimp only
      rw [heq, htkn, lastKey_cons]
      refine ⟨hhigh, ?_, hsto'.trans hsto, ?_⟩
      · rw [hlog', hlog]
        rfl
      · rw [habort, cons.injEq]
        exact ⟨fun h => ⟨rfl, h⟩, And.right⟩

/-! ## One batch -/

variable (node : Node H) (ops : List SignedOp) (cursor : OrderKey) (dur : Option (ℕ → WriteOutcome))
  (fsync : Bool) (mode : ApplyMode)

/-- The cursor does not go back, and a batch that ends well has passed every op it appended to
the store that the op is for. -/
def AppliesWhatItLogs : Prop :=
  let r := node.syncOnceWith (.ok ops) cursor dur fsync mode
  cursor ≤ r.cursor ∧
    ∀ n, r.result = .ok n → ∀ op ∈ r.node.daemon.log.arrivals, op ∉ node.daemon.log.arrivals →
      op.body.store = H.store.storeId node.daemon.store →
      op ∈ node.syncPassed ops cursor dur fsync mode

/-- The batch fails behind its ops: the file cannot be synced, or the store fails. The cursor
stays then. -/
def BatchFails : Prop :=
  let first := taken dur ops (node, 0)
  lastKey first cursor ≠ cursor ∧ (dur.isSome = true ∧ fsync = false ∨
    (H.store.applyOps (mode.ops (node.daemon.log.takeIn first) cursor (lastKey first cursor))
      node.daemon.store).2 ≠ none)

/-- The keys of the batch fit the cursor: the last op taken is not below it, and if all are
taken, every new op for the store lies above the cursor and up to that last op; where the whole
log is replayed, it is enough that the last op is not at the cursor itself. -/
def KeysFit : Prop :=
  let first := taken dur ops (node, 0)
  cursor ≤ lastKey first cursor ∧
    (first = ops → ∀ op ∈ (node.daemon.log.takeIn ops).arrivals, op ∉ node.daemon.log.arrivals →
      op.body.store = H.store.storeId node.daemon.store →
      match mode with
      | .replay => lastKey ops cursor ≠ cursor
      | .incremental => cursor < op.orderKey ∧ op.orderKey ≤ lastKey ops cursor)

/-- `sync_once_with` over a batch, with what either mode hands to the store. -/
theorem syncOnceWith_eq :
    node.syncOnceWith (.ok ops) cursor dur fsync mode =
      let loop := syncLoop dur ops node cursor 0
      let result := match loop.abort with
        | some e => .error e
        | none => .ok loop.appended
      if loop.highest = cursor then ⟨loop.node, cursor, result⟩
      else if dur.isSome ∧ fsync = false then ⟨loop.node, cursor, .error "op-log file io error"⟩
      else
        let node := if dur.isSome then loop.node.perform (.disk .sync) else loop.node
        let applied := H.store.applyOps (mode.ops node.daemon.log cursor loop.highest) node.daemon.store
        let node := { node with daemon := { node.daemon with store := applied.1 } }
        match applied.2 with
        | some e => ⟨node, cursor, .error ("replay failed during sync: " ++ e)⟩
        | none => ⟨node, loop.highest, result⟩ := by
  cases mode <;> rfl

theorem daemon_synced :
    (if dur.isSome = true then node.perform (.disk .sync) else node).daemon = node.daemon := by
  split_ifs <;> rfl

/-- The outcome of a sync: it stops with the cursor where it was, or moves it to the last key. -/
theorem syncOnceWith_cases :
    let r := node.syncOnceWith (.ok ops) cursor dur fsync mode
    let first := taken dur ops (node, 0)
    (node.BatchFails ops cursor dur fsync mode ∧ r.cursor = cursor ∧ ∃ e, r.result = .error e) ∨
    (¬ node.BatchFails ops cursor dur fsync mode ∧ r.cursor = lastKey first cursor ∧
      r.node.daemon.log = node.daemon.log.takeIn first ∧ ((∃ n, r.result = .ok n) ↔ first = ops) ∧
      ∀ op, op ∈ node.syncPassed ops cursor dur fsync mode ↔ lastKey first cursor ≠ cursor ∧
        op ∈ mode.ops (node.daemon.log.takeIn first) cursor (lastKey first cursor) ∧
        op.body.store = H.store.storeId node.daemon.store) := by
  obtain ⟨hhigh, hlog, hsto, habort⟩ := syncLoop_taken dur ops node cursor 0
  dsimp only
  rw [BatchFails, syncOnceWith_eq, syncPassed]
  dsimp only
  rw [← hhigh, ← hlog, ← hsto, ← habort]
  generalize syncLoop dur ops node cursor 0 = loop
  have hres : (∃ n, (match loop.abort with
      | some e => (.error e : Except String ℕ)
      | none => .ok loop.appended) = .ok n) ↔ loop.abort = none := by
    cases loop.abort with
    | none => exact iff_of_true ⟨_, rfl⟩ rfl
    | some e => exact iff_of_false nofun nofun
  by_cases hsame : loop.highest = cursor
  · right
    rw [if_pos hsame, if_pos (.inl hsame)]
    refine ⟨fun h => h.1 hsame, hsame.symm, rfl, hres, fun op => ?_⟩
    exact iff_of_false not_mem_nil fun h => h.1 hsame
  · rw [if_neg hsame]
    by_cases hsync : dur.isSome = true ∧ fsync = false
    · left
      rw [if_pos hsync]
      exact ⟨⟨hsame, .inl hsync⟩, rfl, _, rfl⟩
    · rw [if_neg hsync, if_neg (not_or.2 ⟨hsame, hsync⟩)]
      rw [daemon_synced]
      cases hfail : (H.store.applyOps (mode.ops loop.node.daemon.log cursor loop.highest)
          loop.node.daemon.store).2 with
      | some e => exact .inl ⟨⟨hsame, .inr nofun⟩, rfl, _, rfl⟩
      | none =>
        refine .inr ⟨?_, rfl, rfl, hres, fun op => ?_⟩
        · rintro ⟨-, hbad | hbad⟩
          · exact hsync hbad
          · exact hbad rfl
        · rw [Store.mem_passed hfail]
          exact ⟨fun h => ⟨hsame, h⟩, And.right⟩

/-- The store that a sync leaves has been passed what `syncPassed` lists, and nothing else. -/
theorem syncOnceWith_store :
    (node.syncOnceWith (.ok ops) cursor dur fsync mode).node.daemon.store =
      (node.syncPassed ops cursor dur fsync mode).foldl H.store.applyOp node.daemon.store := by
  obtain ⟨-, -, hsto, -⟩ := syncLoop_taken dur ops node cursor 0
  rw [syncOnceWith_eq, syncPassed]
  dsimp only
  generalize syncLoop dur ops node cursor 0 = loop at hsto ⊢
  by_cases hsame : loop.highest = cursor
  · rw [if_pos hsame, if_pos (.inl hsame)]
    exact hsto
  · rw [if_neg hsame]
    by_cases hsync : dur.isSome = true ∧ fsync = false
    · rw [if_pos hsync, if_pos (.inr hsync)]
      exact hsto
    · rw [if_neg hsync, if_neg (not_or.2 ⟨hsame, hsync⟩), ← hsto, Store.passed, ← Store.applyLoop_eq_foldl]
      rw [daemon_synced]
      cases (H.store.applyOps (mode.ops loop.node.daemon.log cursor loop.highest)
        loop.node.daemon.store).2 <;> rfl

theorem taken_prefix (s : Node H × ℕ) : taken dur ops s <+: ops := by
  induction ops generalizing s with
  | nil => exact prefix_rfl
  | cons op ops ih =>
    rw [taken]
    cases takeOp dur s op with
    | none => exact nil_prefix
    | some s' => exact (prefix_cons_inj op).2 (ih s')

/-- In an ascending list no key is above the last. -/
theorem le_lastKey {ops : List SignedOp} (h : ops.Pairwise fun a b => a.orderKey < b.orderKey) {op : SignedOp}
    (hop : op ∈ ops) (cursor : OrderKey) : op.orderKey ≤ lastKey ops cursor := by
  induction ops generalizing op cursor with
  | nil => cases hop
  | cons a ops ih =>
    rw [pairwise_cons] at h
    rw [lastKey_cons]
    rcases mem_cons.1 hop with rfl | hop
    · cases ops with
      | nil => exact le_rfl
      | cons b ops => exact (h.1 b mem_cons_self).le.trans (ih h.2 mem_cons_self _)
    · exact ih h.2 hop _

/-- A batch that ascends above the cursor fits it. -/
theorem keysFit_of_ascending (hup : ops.Pairwise fun a b => a.orderKey < b.orderKey)
    (habove : ∀ op ∈ ops, cursor < op.orderKey) : node.KeysFit ops cursor dur mode := by
  constructor
  · have hfst := taken_prefix ops dur (node, 0)
    cases hend : (taken dur ops (node, 0)).getLast? with
    | none =>
      rw [lastKey, hend]
      exact le_rfl
    | some last =>
      rw [lastKey, hend]
      exact (habove last (hfst.subset (mem_of_getLast? hend))).le
  · intro hall op hop hnew hsto
    have hmem := (mem_takeIn hop).resolve_left hnew
    have hle := le_lastKey hup hmem cursor
    cases mode with
    | replay => exact ((habove op hmem).trans_le hle).ne'
    | incremental => exact ⟨habove op hmem, hle⟩

/-- A sync applies what it logs and keeps its cursor from going back exactly if it fails behind
its batch or the keys of the batch fit the cursor, as those of an ascending batch do. -/
theorem applies_what_it_logs_iff :
    (node.syncOnceWith (.ok ops) cursor dur fsync mode).node.daemon.store =
        (node.syncPassed ops cursor dur fsync mode).foldl H.store.applyOp node.daemon.store ∧
      (node.AppliesWhatItLogs ops cursor dur fsync mode ↔
        (¬ node.BatchFails ops cursor dur fsync mode → node.KeysFit ops cursor dur mode)) ∧
      ((ops.Pairwise fun a b => a.orderKey < b.orderKey) → (∀ op ∈ ops, cursor < op.orderKey) →
        node.KeysFit ops cursor dur mode) := by
  refine ⟨node.syncOnceWith_store ops cursor dur fsync mode, ?_,
    node.keysFit_of_ascending ops cursor dur mode⟩
  rw [AppliesWhatItLogs, KeysFit]
  rcases node.syncOnceWith_cases ops cursor dur fsync mode with
    ⟨hfails, hcur, e, hres⟩ | ⟨hfails, hcur, hlog, hres, hpas⟩
  · refine iff_of_true ⟨hcur.ge, fun n hn => ?_⟩ fun h => absurd hfails h
    cases hres.symm.trans hn
  · rw [hcur, hlog]
    constructor
    · rintro ⟨hle, happ⟩ -
      refine ⟨hle, fun hall op hop hnew hsto => ?_⟩
      obtain ⟨n, hn⟩ := hres.2 hall
      rw [hall] at happ hpas
      obtain ⟨hmov, hmem, -⟩ := (hpas op).1 (happ n hn op hop hnew hsto)
      rw [mode.mem_ops] at hmem
      cases mode with
      | replay => exact hmov
      | incremental => exact hmem.2
    · intro h
      obtain ⟨hle, hfit⟩ := h hfails
      refine ⟨hle, fun n hn op hop hnew hsto => ?_⟩
      have hall := hres.1 ⟨n, hn⟩
      rw [hall] at hop hpas
      have hop' := hfit hall op hop hnew hsto
      rw [hpas, mode.mem_ops]
      cases mode with
      | replay => exact ⟨hop', ⟨hop, trivial⟩, hsto⟩
      | incremental => exact ⟨(hop'.1.trans_le hop'.2).ne', ⟨hop, hop'⟩, hsto⟩

/-! ## Batches that do not fit -/

namespace LateOp

def author : Bytes 32 := padTo 32 [7]

def synced : Node plainHost :=
  ⟨.empty, ⟨(), DeviceRegistry.new.insertKey author, plainLog [plainPut author 30], (∅ : KvStore), false, []⟩⟩

def at30 : OrderKey := (plainPut author 30).orderKey

end LateOp

open LateOp in
/-- The source returns an op below the cursor: the call returns `Ok` with the op in the log, but
nothing is passed to the store and the cursor goes back. A batch that ends at the cursor is not
applied in either mode. -/
theorem late_op_not_applied :
    (synced.syncOnceWith (.ok [plainPut author 20]) at30 none true .incremental).result.toOption = some 1 ∧
    (synced.syncOnceWith (.ok [plainPut author 20]) at30 none true .incremental).node.daemon.log.contains
      (plainPut author 20).id = true ∧
    (plainPut author 20).body.store = kvStoreId ∧
    (synced.syncOnceWith (.ok [plainPut author 20]) at30 none true .incremental).cursor < at30 ∧
    synced.syncPassed [plainPut author 20] at30 none true .incremental = [] ∧
    (synced.syncOnceWith (.ok [plainPut author 40, plainPut author 30]) at30 none true .replay).result.toOption =
      some 1 ∧
    synced.syncPassed [plainPut author 40, plainPut author 30] at30 none true .replay = [] := by
  decide +kernel

end Node

end ProxyNode
