import ProxyNode.Sanity.Winners

/-! The heads are the winners: whatever appends, deferrals, restorations, moves and
compaction passes a store has seen, the head of a row is its greatest applied op, and the
queries that read heads answer with the maximum. -/

namespace ProxyNode

open List

namespace OplogDb

variable {db : OplogDb}

def appliedOps (db : OplogDb) (row : RowRef) : List SignedOp :=
  (db.appliedRows row).filterMap fun r => (SignedOp.fromBytes r.envelope).toOption

/-- An event that keeps the heads: an append of an op in this version with a reading below
`2^63`, or anything but the pruning of a row. -/
def KeepsHeads : SqlEvent → Prop
  | .log (.append w) => w.op.body.v = envelopeVersion ∧ w.op.body.hlc.val < 2 ^ 63
  | .deleteRowBelow .. => False
  | _ => True

theorem HeadsWin.step (h : db.HeadsWin) (isUpsert : List Byte → Bool) {event : SqlEvent}
    (hev : KeepsHeads event) :
    (db.sqlStep isUpsert event).HeadsWin := by
  match event with
  | .log (.append w) => exact h.store hev.1 hev.2
  | .log (.compact pass) => exact h.compact isUpsert pass
  | .deleteRowBelow .. => exact hev.elim
  | .rotate _ => exact ⟨h.ids, h.holds, h.win⟩
  | .defer id => exact h.defer id
  | .restore id table rowPk => exact h.restore id table rowPk
  | .move source target ids => exact h.move source target ids

theorem HeadsWin.run (h : db.HeadsWin) (isUpsert : List Byte → Bool) {events : List SqlEvent}
    (hevs : ∀ event ∈ events, KeepsHeads event) : (db.sqlRun isUpsert events).HeadsWin := by
  induction events generalizing db with
  | nil => exact h
  | cons event events ih =>
    exact ih (h.step isUpsert (hevs event mem_cons_self))
      fun e he => hevs e (mem_cons_of_mem event he)

/-! ## Rows and ops -/

theorem HeadsWin.decode (h : db.HeadsWin) {r : OplogRow} (hr : r ∈ db.oplog) :
    ∃ op, (SignedOp.fromBytes r.envelope).toOption = some op ∧ r.Holds op ∧ op.body.hlc.Low ∧
      r.resolvedPayload = op.body.payload.1 := by
  obtain ⟨op, hop, hv, hlow⟩ := h.holds r hr
  refine ⟨op, ?_, hop, hlow, hop.resolvedPayload hv⟩
  rw [hop.envelope, SignedOp.fromBytes_toBytes hv]
  rfl

/-- The greatest row by column holds the greatest op by key. -/
theorem HeadsWin.greatest_op (h : db.HeadsWin) {rows : List OplogRow} (hsub : ∀ r ∈ rows, r ∈ db.oplog) :
    (rows.greatest (·.key)).map (fun r => (r.key.orderKey, r.resolvedPayload)) =
      ((rows.filterMap fun r => (SignedOp.fromBytes r.envelope).toOption).greatest SignedOp.orderKey).map
        fun op => (op.orderKey, op.body.payload.1) := by
  cases hrow : rows.greatest (·.key) with
  | none =>
    rw [greatest_eq_none] at hrow
    subst hrow
    rfl
  | some r =>
    obtain ⟨hr, hle⟩ := greatest_spec hrow
    obtain ⟨op, hdec, hop, hlow, hpay⟩ := h.decode (hsub r hr)
    have hmem : op ∈ rows.filterMap fun r => (SignedOp.fromBytes r.envelope).toOption :=
      mem_filterMap.2 ⟨r, hr, hdec⟩
    cases hop' : (rows.filterMap fun r => (SignedOp.fromBytes r.envelope).toOption).greatest SignedOp.orderKey with
    | none =>
      rw [greatest_eq_none] at hop'
      rw [hop'] at hmem
      exact absurd hmem not_mem_nil
    | some op' =>
      obtain ⟨hmem', hle'⟩ := greatest_spec hop'
      obtain ⟨r', hr', hdec'⟩ := mem_filterMap.1 hmem'
      obtain ⟨op'', hdec'', hop'', hlow'', hpay''⟩ := h.decode (hsub r' hr')
      obtain rfl : op' = op'' := Option.some.inj (hdec'.symm.trans hdec'')
      have hkeys : op.orderKey = op'.orderKey := by
        refine le_antisymm (hle' op hmem) (not_lt.1 fun hlt => ?_)
        have hle := hle r' hr'
        rw [hop.key, hop''.key] at hle
        exact absurd ((SqlKey.of_lt_same (iff_of_true hlow hlow'')).2 hlt) (not_lt.2 hle)
      have hrows : r = r' := by
        refine inj_on_of_nodup_map h.ids (hsub r hr) (hsub r' hr') ?_
        rw [OplogRow.opId, OplogRow.opId, hop.key, hop''.key, hkeys]
      rw [Option.map_some, Option.map_some, hop.orderKey, hkeys, hrows, hpay'']

theorem appliedOps_others (h : db.HeadsWin) (row : RowRef) (exclude : OpId) :
    ((db.appliedRows row).filter (·.opId ≠ exclude)).filterMap
        (fun r => (SignedOp.fromBytes r.envelope).toOption) =
      (db.appliedOps row).filter (·.id ≠ exclude) := by
  rw [appliedOps, filter_filterMap, filterMap_filter]
  refine filterMap_congr fun r hr => ?_
  obtain ⟨op, hdec, hop, -, -⟩ := h.decode (mem_appliedRows.1 hr).1
  rw [hdec, hop.opId]
  by_cases hid : op.id = exclude <;> simp [hid, Option.filter_some]

/-! ## Heads and queries -/

theorem HeadsWin.entry_eq (h : db.HeadsWin) {row : RowRef} (hrow : isSelfDrainingBulkTable row = false) :
    db.headEntry row = ((db.appliedRows row).greatest (·.key)).map fun r => (r.key, r.resolvedPayload) := by
  have hwin := h.win row hrow
  cases hent : db.headEntry row with
  | none =>
    rw [hent] at hwin
    have hnil : db.appliedRows row = [] :=
      eq_nil_iff_forall_not_mem.2 fun r hr => hwin r (mem_appliedRows.1 hr)
    rw [hnil]
    rfl
  | some e =>
    rw [hent] at hwin
    obtain ⟨r, hr, hle, rfl⟩ := hwin
    have hnd : ((db.appliedRows row).map (·.key)).Nodup := by
      refine List.Nodup.of_map SqlKey.opId ?_
      rw [map_map]
      exact h.ids.sublist (filter_sublist.map _)
    rw [greatest_of_le hnd (mem_appliedRows.2 hr) fun s hs => hle s (mem_appliedRows.1 hs)]
    rfl

/-- Leaving another op out does not change the greatest. -/
theorem HeadsWin.newestOpInStore_eq (h : db.HeadsWin) {row : RowRef} (hrow : isSelfDrainingBulkTable row = false)
    (exclude : OpId) :
    db.newestOpInStore row exclude = (((db.appliedRows row).filter (·.opId ≠ exclude)).greatest (·.key)).map
      fun r => (r.key.orderKey, r.resolvedPayload) := by
  have hent := h.entry_eq hrow
  rw [newestOpInStore]
  cases hfind : db.heads.find? (·.row = row) with
  | none => rfl
  | some head =>
    by_cases hid : head.key.opId = exclude
    · simp [hid]
    rw [headEntry, hfind, Option.map_some, eq_comm, Option.map_eq_some_iff] at hent
    obtain ⟨r, hgrt, hr⟩ := hent
    obtain ⟨hkey, hpay⟩ : r.key = head.key ∧ r.resolvedPayload = head.payload := Prod.ext_iff.1 hr
    obtain ⟨hmem, hle⟩ := greatest_spec hgrt
    have hnd : (((db.appliedRows row).filter (·.opId ≠ exclude)).map (·.key)).Nodup := by
      refine List.Nodup.of_map SqlKey.opId ?_
      rw [map_map]
      exact h.ids.sublist ((filter_sublist.trans filter_sublist).map _)
    have hothers : ((db.appliedRows row).filter (·.opId ≠ exclude)).greatest (·.key) = some r := by
      refine greatest_of_le hnd (mem_filter.2 ⟨hmem, ?_⟩) fun s hs => hle s (mem_filter.1 hs).1
      have hne : r.opId ≠ exclude := fun heq => hid (by rw [← hkey]; exact heq)
      simpa using hne
    simp only [hothers, Option.map_some, ne_eq, hid, not_false_eq_true, if_true]
    rw [← hkey, ← hpay]

theorem newestAppliedInStore_fst (db : OplogDb) (row : RowRef) (exclude : OpId) :
    db.newestAppliedInStore row exclude = (db.newestOpInStore row exclude).map Prod.fst := by
  have hscan : (db.oplog.filter fun r => r.row = row && r.applied && r.opId ≠ exclude) =
      (db.appliedRows row).filter (·.opId ≠ exclude) := by
    rw [appliedRows, filter_filter]
    refine filter_congr fun r _ => ?_
    simp [Bool.and_comm]
  rw [newestAppliedInStore, newestOpInStore, hscan, ← greatest_map_key]
  cases db.heads.find? (·.row = row) with
  | none => simp [Option.map_map, Function.comp_def]
  | some head =>
    by_cases hid : head.key.opId = exclude
    · simp [hid, Option.map_map, Function.comp_def]
    · simp [hid]

/-- In every state reached the log decodes row by row, a row has a head exactly when it has
an applied op, the head carries the key and the payload of the greatest one, and both
queries answer with the greatest one but the op left out. -/
theorem heads_are_winners (isUpsert : List Byte → Bool) (epoch : Epoch) (events : List SqlEvent)
    (hevs : ∀ event ∈ events, KeepsHeads event) (row : RowRef) (hrow : isSelfDrainingBulkTable row = false) :
    let db := (empty epoch).sqlRun isUpsert events
    (db.appliedOps row).map SignedOp.orderKey = (db.appliedRows row).map (·.key.orderKey) ∧
      ((db.heads.find? (·.row = row)).isSome ↔ ∃ r ∈ db.oplog, r.row = row ∧ r.applied = true) ∧
      (db.heads.find? (·.row = row)).map (fun head => (head.key.orderKey, head.payload)) =
        ((db.appliedOps row).greatest SignedOp.orderKey).map (fun op => (op.orderKey, op.body.payload.1)) ∧
      ∀ exclude,
        db.newestOpInStore row exclude =
            (((db.appliedOps row).filter (·.id ≠ exclude)).greatest SignedOp.orderKey).map
              (fun op => (op.orderKey, op.body.payload.1)) ∧
          db.newestAppliedInStore row exclude =
            (((db.appliedOps row).filter (·.id ≠ exclude)).greatest SignedOp.orderKey).map SignedOp.orderKey := by
  intro db
  have h : db.HeadsWin := (headsWin_empty epoch).run isUpsert hevs
  have hrows : ∀ r ∈ db.appliedRows row, r ∈ db.oplog := fun r hr => (mem_appliedRows.1 hr).1
  have hent := h.entry_eq hrow
  refine ⟨?_, ?_, ?_, fun exclude => ?_⟩
  · rw [appliedOps, List.map_filterMap, ← List.filterMap_eq_map]
    refine List.filterMap_congr fun r hr => ?_
    obtain ⟨op, hdec, hop, -, -⟩ := h.decode (hrows r hr)
    rw [hdec, Option.map_some, Function.comp_apply, hop.orderKey]
  · have hsome : (db.heads.find? (·.row = row)).isSome = (db.headEntry row).isSome := by
      rw [headEntry, Option.isSome_map]
    rw [hsome, hent, Option.isSome_map, Option.isSome_iff_ne_none, ne_eq, List.greatest_eq_none,
      List.eq_nil_iff_forall_not_mem, not_forall_not]
    exact exists_congr fun r => mem_appliedRows
  · have hhead := congrArg (Option.map fun e : SqlKey × List Byte => (e.1.orderKey, e.2)) hent
    rw [headEntry, Option.map_map, Option.map_map] at hhead
    exact hhead.trans (h.greatest_op hrows)
  · have hquery := (h.newestOpInStore_eq hrow exclude).trans
      (h.greatest_op fun r hr => hrows r (List.mem_filter.1 hr).1)
    rw [appliedOps_others h] at hquery
    refine ⟨hquery, ?_⟩
    rw [newestAppliedInStore_fst, hquery, Option.map_map]
    rfl

def restoredRun : List SqlEvent :=
  [.log (.append ⟨plainRowOp 1 1 1, "notes", "a", originLocal, 0⟩),
    .log (.append ⟨plainRowOp 1 2 2, "notes", "a", originLocal, 0⟩),
    .log (.append ⟨plainRowOp 1 3 3, "notes", "a", originLocal, 0⟩),
    .defer (Wire.fill 32 3),
    .move ⟨rowStoreId, "notes", "a"⟩ ⟨rowStoreId, "notes", "b"⟩ [Wire.fill 32 2],
    .move ⟨rowStoreId, "notes", "b"⟩ ⟨rowStoreId, "notes", "a"⟩ [Wire.fill 32 2],
    .restore (Wire.fill 32 3) "notes" "a",
    .log (.compact plainPass)]

theorem heads_are_winners_restored :
    ((empty (Wire.fill 32 7)).sqlRun (fun _ => false) restoredRun).oplog.length = 2 ∧
      (((empty (Wire.fill 32 7)).sqlRun (fun _ => false) restoredRun).heads.find?
        (·.row = ⟨rowStoreId, "notes", "a"⟩)).map (fun head => head.key.orderKey) =
          some (plainRowOp 1 3 3).orderKey ∧
      ((((empty (Wire.fill 32 7)).sqlRun (fun _ => false) restoredRun).heads.find?
        (·.row = ⟨rowStoreId, "notes", "a"⟩)).isSome ↔
          ∃ r ∈ ((empty (Wire.fill 32 7)).sqlRun (fun _ => false) restoredRun).oplog,
            r.row = ⟨rowStoreId, "notes", "a"⟩ ∧ r.applied = true) := by
  have hevs : ∀ event ∈ restoredRun, KeepsHeads event := by
    simp [restoredRun, KeepsHeads, plainRowOp]
  refine ⟨by decide +kernel, by decide +kernel, ?_⟩
  exact (heads_are_winners (fun _ => false) (Wire.fill 32 7) restoredRun hevs ⟨rowStoreId, "notes", "a"⟩
    (by decide)).2.1

end OplogDb

end ProxyNode
