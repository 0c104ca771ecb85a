import ProxyNode.Sanity.SqlOrder
import ProxyNode.Spec.Rows

/-! Compaction never changes a last-write-wins verdict: the head of a row outlives the ops it
was taken from, and nothing an op could lose against is greater. -/

namespace ProxyNode

open List Option

def LogEvent.write? : LogEvent → Option LogWrite
  | .append w => some w
  | .compact _ => none

def writes (events : List LogEvent) : List LogWrite := events.filterMap LogEvent.write?

/-- Ids are content addresses: one id stands for one op of one row. -/
def ContentAddressed (ws : List LogWrite) : Prop :=
  ∀ w ∈ ws, ∀ w' ∈ ws, w.op.id = w'.op.id → w.op.orderKey = w'.op.orderKey ∧ w.row = w'.row

namespace OplogDb

/-- The guard of `writeRowIfNewer`: another op of the row is not older. -/
def beaten (db : OplogDb) (row : RowRef) (key : OrderKey) : Bool :=
  (db.newestAppliedInStore row key.opId).any (key ≤ ·)

def rowKeys (ws : List LogWrite) (row : RowRef) : List SqlKey :=
  (ws.filter (·.row = row)).map fun w => SqlKey.of w.op.orderKey

variable {row : RowRef}

theorem mem_rowKeys {ws : List LogWrite} {key : SqlKey} :
    key ∈ rowKeys ws row ↔ ∃ w ∈ ws, w.row = row ∧ SqlKey.of w.op.orderKey = key := by
  simp [rowKeys, and_assoc]

/-- The log holds only what was appended, and the head of a row is the greatest key ever
appended for it. -/
structure Seen (db : OplogDb) (ws : List LogWrite) : Prop where
  logged : db.Logged
  rows : ∀ r ∈ db.oplog, ∃ w ∈ ws, SqlKey.of w.op.orderKey = r.key ∧ w.row = r.row
  heads : ∀ row, (db.heads.find? (·.row = row)).map (·.key) = (rowKeys ws row).max?

theorem seen_empty (epoch : Epoch) : (empty epoch).Seen [] := ⟨logged_empty epoch, by simp [empty], fun _ => rfl⟩

variable {db : OplogDb} {ws : List LogWrite}

theorem rowKeys_append (ws : List LogWrite) (w : LogWrite) (row : RowRef) :
    rowKeys (ws ++ [w]) row = rowKeys ws row ++ if w.row = row then [SqlKey.of w.op.orderKey] else [] := by
  rw [rowKeys, filter_append, map_append, rowKeys]
  congr 1
  by_cases h : w.row = row <;> simp [h]

theorem max?_concat_of_mem {keys : List SqlKey} {key : SqlKey} (h : key ∈ keys) :
    (keys ++ [key]).max? = keys.max? := by
  rw [max?_concat]
  cases hmax : keys.max? with
  | none =>
    rw [max?_eq_none_iff] at hmax
    rw [hmax] at h
    exact absurd h not_mem_nil
  | some m => rw [elim_some, max_eq_left ((max?_eq_some_iff.1 hmax).2 key h)]

section Seen

variable (h : db.Seen ws)
include h

theorem Seen.store {w : LogWrite} (hids : ContentAddressed (ws ++ [w])) :
    (db.store w).Seen (ws ++ [w]) := by
  refine ⟨h.logged.store w, ?_, fun row => ?_⟩
  · intro r hr
    rcases store_cases db w with ⟨-, heq⟩ | ⟨-, hlog, -⟩
    · rw [heq] at hr
      obtain ⟨w', hw', hsame⟩ := h.rows r hr
      exact ⟨w', mem_append_left _ hw', hsame⟩
    · rw [hlog, mem_append, mem_singleton] at hr
      rcases hr with hr | rfl
      · obtain ⟨w', hw', hsame⟩ := h.rows r hr
        exact ⟨w', mem_append_left _ hw', hsame⟩
      · exact ⟨w, mem_append_right _ (mem_singleton_self w), rfl, rfl⟩
  · rw [rowKeys_append]
    rcases store_cases db w with ⟨⟨r, hr, hid⟩, heq⟩ | ⟨-, -, -, -, -, hheads⟩
    · rw [heq, h.heads row]
      -- the logged op is the same one, so its key is in the list already
      obtain ⟨w', hw', hkey, hrow⟩ := h.rows r hr
      have hid' : w'.op.id = w.op.id := by
        rw [← hid, OplogRow.opId, ← hkey]
        rfl
      obtain ⟨hkeys, hrows⟩ := hids w' (mem_append_left _ hw') w
        (mem_append_right _ (mem_singleton_self w)) hid'
      by_cases hw : w.row = row
      · rw [if_pos hw, max?_concat_of_mem]
        exact mem_rowKeys.2 ⟨w', hw', hrows.trans hw, congrArg SqlKey.of hkeys⟩
      · rw [if_neg hw, append_nil]
    · rw [hheads, upsertHead_find?]
      by_cases hw : w.row = row
      · rw [if_pos hw.symm, if_pos hw, max?_concat, ← h.heads row, hw]
        rfl
      · rw [if_neg (Ne.symm hw), if_neg hw, append_nil]
        exact h.heads row

theorem Seen.compact (isUpsert : List Byte → Bool) (pass : CompactionPass) :
    (db.compact isUpsert pass).Seen ws := by
  have hall := h.logged.stream.compact_induct isUpsert pass
    (fun db' => (∀ r ∈ db'.oplog, ∃ w ∈ ws, SqlKey.of w.op.orderKey = r.key ∧ w.row = r.row) ∧
      ∀ row, (db'.heads.find? (·.row = row)).map (·.key) = (rowKeys ws row).max?)
    ⟨h.rows, h.heads⟩ ?_
  · exact ⟨h.logged.compact isUpsert pass, hall.2.1, hall.2.2⟩
  intro db' chunk _ _ _ hdb'
  refine ⟨fun r hr => hdb'.1 r (mem_deleteOpsChunk_oplog.1 hr).1, fun row => ?_⟩
  rw [deleteOpsChunk_headKey]
  exact hdb'.2 row

theorem Seen.run (isUpsert : List Byte → Bool) (events : List LogEvent)
    (hids : ContentAddressed (ws ++ writes events)) :
    (db.logRun isUpsert events).Seen (ws ++ writes events) := by
  induction events generalizing db ws with
  | nil => simpa [writes, logRun] using h
  | cons event events ih =>
    cases event with
    | append w =>
      have hws : ws ++ writes (.append w :: events) = (ws ++ [w]) ++ writes events := by
        rw [append_assoc]
        rfl
      rw [hws] at hids ⊢
      refine ih (h.store fun a ha b hb => ?_) hids
      exact hids a (mem_append_left _ ha) b (mem_append_left _ hb)
    | compact pass => exact ih (h.compact isUpsert pass) hids

theorem Seen.no_head (hfind : db.heads.find? (·.row = row) = none) :
    ∀ w ∈ ws, w.row ≠ row := by
  have hmax := h.heads row
  rw [hfind, map_none, eq_comm, max?_eq_none_iff] at hmax
  intro w hw hrow
  have hmem : SqlKey.of w.op.orderKey ∈ rowKeys ws row := mem_rowKeys.2 ⟨w, hw, hrow, rfl⟩
  rw [hmax] at hmem
  exact absurd hmem not_mem_nil

/-- The head of a row is an append of it, and no append of the row is above it. -/
theorem Seen.head_top (hlow : ∀ w ∈ ws, w.op.body.hlc.Low) {head : HeadRow}
    (hfind : db.heads.find? (·.row = row) = some head) :
    ∃ top ∈ ws, top.row = row ∧ SqlKey.of top.op.orderKey = head.key ∧
      ∀ w ∈ ws, w.row = row → w.op.orderKey ≤ top.op.orderKey := by
  have hmax := h.heads row
  rw [hfind, map_some] at hmax
  obtain ⟨hmem, hle⟩ := max?_eq_some_iff.1 hmax.symm
  obtain ⟨top, htop, htoprow, htopkey⟩ := mem_rowKeys.1 hmem
  refine ⟨top, htop, htoprow, htopkey, fun w hw hrow => ?_⟩
  have hkey := hle _ (mem_rowKeys.2 ⟨w, hw, hrow, rfl⟩)
  rw [← htopkey] at hkey
  exact not_lt.1 fun hlt => absurd hkey
    (not_le.2 ((SqlKey.of_lt_same (iff_of_true (hlow top htop) (hlow w hw))).2 hlt))

/-- What the scan for a winner goes over are appends of the row. -/
theorem Seen.mem_scan {id : OpId} {r : OplogRow}
    (hr : r ∈ db.oplog.filter fun r => r.row = row && r.applied && r.opId ≠ id) :
    ∃ w ∈ ws, w.row = row ∧ SqlKey.of w.op.orderKey = r.key ∧ w.op.id ≠ id := by
  rw [mem_filter] at hr
  simp only [Bool.and_eq_true, decide_eq_true_eq] at hr
  obtain ⟨w, hw, hkey, hrow⟩ := h.rows r hr.1
  refine ⟨w, hw, hrow.trans hr.2.1.1, hkey, fun heq => hr.2.2 ?_⟩
  rw [OplogRow.opId, ← hkey]
  exact heq

/-- The guard depends on what was appended, not on what is left of it. -/
theorem Seen.beaten_iff (hlow : ∀ w ∈ ws, w.op.body.hlc.Low) {x : OrderKey}
    (hself : ∀ w ∈ ws, w.op.id = x.opId → w.op.orderKey = x) (row : RowRef) :
    db.beaten row x = true ↔ ∃ w ∈ ws, w.row = row ∧ w.op.id ≠ x.opId ∧ x < w.op.orderKey := by
  rw [beaten, newestAppliedInStore]
  cases hfind : db.heads.find? (·.row = row) with
  | none =>
    have hnone := h.no_head hfind
    have hscan : (db.oplog.filter fun r => r.row = row && r.applied && r.opId ≠ x.opId) = [] := by
      refine eq_nil_iff_forall_not_mem.2 fun r hr => ?_
      obtain ⟨w, hw, hrow, -⟩ := h.mem_scan hr
      exact hnone w hw hrow
    rw [hscan]
    refine iff_of_false (by simp) ?_
    rintro ⟨w, hw, hrow, -⟩
    exact hnone w hw hrow
  | some head =>
    obtain ⟨top, htop, htoprow, htopkey, hbelow⟩ := h.head_top hlow hfind
    have htopid : head.key.opId = top.op.id := by
      rw [← htopkey]
      rfl
    by_cases hid : head.key.opId ≠ x.opId
    · simp only [hid, ne_eq, not_false_eq_true, if_true]
      rw [any_some, decide_eq_true_eq, ← htopkey, SqlKey.orderKey_of]
      constructor
      · intro hxle
        rw [htopid] at hid
        refine ⟨top, htop, htoprow, hid, lt_of_le_of_ne hxle fun heq => hid ?_⟩
        rw [heq]
        rfl
      · rintro ⟨w, hw, hrow, -, hlt⟩
        exact hlt.le.trans (hbelow w hw hrow)
    · -- the op is the head itself, and nothing in the row is above it
      simp only [ne_eq, not_not] at hid
      have hxtop : top.op.orderKey = x := hself top htop (htopid.symm.trans hid)
      have hnone : ¬∃ w ∈ ws, w.row = row ∧ w.op.id ≠ x.opId ∧ x < w.op.orderKey := by
        rintro ⟨w, hw, hrow, -, hlt⟩
        exact absurd (hbelow w hw hrow) (not_le.2 (hxtop ▸ hlt))
      refine iff_of_false ?_ hnone
      simp only [hid, ne_eq, not_true_eq_false, if_false]
      intro hany
      rw [Option.any_eq_true] at hany
      obtain ⟨cur, hcur, hxle⟩ := hany
      obtain ⟨key, hkey, rfl⟩ := map_eq_some_iff.1 hcur
      obtain ⟨r, hr, rfl⟩ := mem_map.1 (max?_mem hkey)
      obtain ⟨w, hw, hrow, hwkey, hoth⟩ := h.mem_scan hr
      rw [decide_eq_true_eq, ← hwkey, SqlKey.orderKey_of] at hxle
      have heq : w.op.orderKey = x := le_antisymm (hxtop ▸ hbelow w hw hrow) hxle
      exact hoth (congrArg OrderKey.opId heq)

end Seen

end OplogDb

section

variable {R : Type} [DecidableEq R] [SqlReal R]

/-- `writeRowIfNewer` writes exactly when its guard lets the op through. -/
theorem RowDb.writeRowIfNewer_eq (db : RowDb R) (store : StoreId) (op : ProxyDbOp R) (key : OrderKey)
    (locals : List String) :
    db.writeRowIfNewer store op key locals =
      if db.log.beaten ⟨store, op.table, op.rowPk⟩ key then .ok (db, false)
      else (writeRow db.tables op locals).map fun r => ({ db with tables := r.1 }, r.2) := by
  rw [RowDb.writeRowIfNewer, OplogDb.beaten]
  cases db.log.newestAppliedInStore ⟨store, op.table, op.rowPk⟩ key.opId with
  | none => rfl
  | some cur => simp

end

theorem writes_append (ws : List LogWrite) : writes (ws.map .append) = ws := by
  rw [writes, filterMap_map]
  exact filterMap_some

theorem logRun_append (isUpsert : List Byte → Bool) (ws : List LogWrite) (db : OplogDb) :
    db.logRun isUpsert (ws.map .append) = db.storeAll ws := by
  rw [OplogDb.logRun, foldl_map]
  rfl

/-- Whatever is pruned between the appends, an op wins or loses as if nothing had been, and
`writeRowIfNewer` does the same to the tables. -/
theorem compaction_keeps_verdicts (isUpsert : List Byte → Bool) (epoch : Epoch) (events : List LogEvent)
    (hlow : ∀ w ∈ writes events, w.op.body.hlc.val < 2 ^ 63) (hids : ContentAddressed (writes events))
    (x : OrderKey) (hself : ∀ w ∈ writes events, w.op.id = x.opId → w.op.orderKey = x)
    (pruned whole : OplogDb) (hpruned : pruned = (OplogDb.empty epoch).logRun isUpsert events)
    (hwhole : whole = (OplogDb.empty epoch).storeAll (writes events)) :
    (∀ row, pruned.beaten row x = whole.beaten row x) ∧
      ∀ (R : Type) [DecidableEq R] [SqlReal R] (tables : Tables R) (store : StoreId) (op : ProxyDbOp R)
        (locals : List String),
        ((RowDb.mk tables pruned).writeRowIfNewer store op x locals).map (fun r => (r.1.tables, r.2)) =
          ((RowDb.mk tables whole).writeRowIfNewer store op x locals).map fun r =>
            (r.1.tables, r.2) := by
  have hseen : pruned.Seen (writes events) := by
    rw [hpruned]
    exact (OplogDb.seen_empty epoch).run isUpsert events hids
  have hseen' : whole.Seen (writes events) := by
    have hrun := (OplogDb.seen_empty epoch).run isUpsert ((writes events).map .append)
    rw [writes_append, List.nil_append, logRun_append] at hrun
    rw [hwhole]
    exact hrun hids
  have hverdict : ∀ row, pruned.beaten row x = whole.beaten row x := by
    intro row
    rw [Bool.eq_iff_iff, hseen.beaten_iff hlow hself, hseen'.beaten_iff hlow hself]
  refine ⟨hverdict, fun R _ _ tables store op locals => ?_⟩
  rw [RowDb.writeRowIfNewer_eq, RowDb.writeRowIfNewer_eq]
  simp only [hverdict]
  split
  · rfl
  · cases writeRow tables op locals <;> rfl

def redelivery : List LogEvent :=
  [.append ⟨plainRowOp 1 1 1, "items", "a", originRemote, 0⟩,
    .append ⟨plainRowOp 2 2 2, "items", "a", originRemote, 0⟩,
    .append ⟨plainRowOp 1 3 3, "items", "b", originRemote, 0⟩, .compact plainPass,
    .append ⟨plainRowOp 1 1 1, "items", "a", originRemote, 0⟩]

theorem compaction_keeps_verdicts_redelivered :
    ((OplogDb.empty (Wire.fill 32 7)).logRun (fun _ => false) redelivery).oplog.length = 2 ∧
      ((OplogDb.empty (Wire.fill 32 7)).storeAll (writes redelivery)).oplog.length = 3 ∧
      ((OplogDb.empty (Wire.fill 32 7)).logRun (fun _ => false) redelivery).beaten ⟨rowStoreId, "items", "a"⟩
          (plainRowOp 1 1 1).orderKey =
        ((OplogDb.empty (Wire.fill 32 7)).storeAll (writes redelivery)).beaten ⟨rowStoreId, "items", "a"⟩
          (plainRowOp 1 1 1).orderKey := by
  refine ⟨by decide +kernel, by decide +kernel, ?_⟩
  refine (compaction_keeps_verdicts (fun _ => false) (Wire.fill 32 7) redelivery ?_ ?_ _ ?_ _ _ rfl rfl).1 _
  · decide +kernel
  · unfold ContentAddressed
    decide +kernel
  · decide +kernel

end ProxyNode
