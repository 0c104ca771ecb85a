import ProxyNode.Sanity.Envelope
import ProxyNode.Sanity.SqlOrder

/-! The head table under every routine that maintains it. Outside the drained tables the
entry of a row is the key and the payload of its greatest applied op. -/

namespace ProxyNode

open List

/-- An op of this version keeps its payload in its envelope. -/
theorem OplogRow.Holds.resolvedPayload {r : OplogRow} {op : SignedOp} (h : r.Holds op)
    (hv : op.body.v = envelopeVersion) : r.resolvedPayload = op.body.payload.1 := by
  rw [OplogRow.resolvedPayload, h.payload, if_neg (by simp), h.envelope, SignedOp.fromBytes_toBytes hv]

namespace OplogDb

def AppliedIn (db : OplogDb) (row : RowRef) (r : OplogRow) : Prop := r ∈ db.oplog ∧ r.row = row ∧ r.applied = true

variable {row : RowRef} {r : OplogRow}

theorem mem_appliedRows {db : OplogDb} :
    r ∈ db.appliedRows row ↔ db.AppliedIn row r := by
  simp [appliedRows, AppliedIn]

theorem appliedIn_congr {db db' : OplogDb} (h : db'.oplog = db.oplog) (row : RowRef) (r : OplogRow) :
    db'.AppliedIn row r ↔ db.AppliedIn row r := by
  rw [AppliedIn, AppliedIn, h]

/-- The entry of the ops described: none if there are none, else that of the greatest. -/
def EntryOf (entry : Option (SqlKey × List Byte)) (P : OplogRow → Prop) : Prop :=
  match entry with
  | none => ∀ r, ¬P r
  | some e => ∃ r, P r ∧ (∀ s, P s → s.key ≤ r.key) ∧ e = (r.key, r.resolvedPayload)

variable {entry : Option (SqlKey × List Byte)} {P : OplogRow → Prop}

theorem EntryOf.congr {Q : OplogRow → Prop} (h : EntryOf entry P) (hPQ : ∀ r, P r ↔ Q r) : EntryOf entry Q := by
  have heq : P = Q := funext fun r => propext (hPQ r)
  rwa [← heq]

theorem EntryOf.insert (h : EntryOf entry P) (r : OplogRow) :
    EntryOf (some (entry.elim (r.key, r.resolvedPayload) fun e =>
      if e.1 < r.key then (r.key, r.resolvedPayload) else e)) fun s => P s ∨ s = r := by
  cases entry with
  | none =>
    refine ⟨r, .inr rfl, fun s hs => ?_, rfl⟩
    rcases hs with hs | rfl
    · exact absurd hs (h s)
    · exact le_rfl
  | some e =>
    obtain ⟨t, ht, htop, rfl⟩ := h
    rw [Option.elim_some]
    by_cases hlt : t.key < r.key
    · rw [if_pos hlt]
      refine ⟨r, .inr rfl, fun s hs => ?_, rfl⟩
      rcases hs with hs | rfl
      · exact (htop s hs).trans hlt.le
      · exact le_rfl
    · rw [if_neg hlt]
      refine ⟨t, .inl ht, fun s hs => ?_, rfl⟩
      rcases hs with hs | rfl
      · exact htop s hs
      · exact not_lt.1 hlt

theorem EntryOf.shrink {Q : OplogRow → Prop} (h : EntryOf entry P) (hsub : ∀ r, Q r → P r)
    (htop : ∀ r, P r → entry = some (r.key, r.resolvedPayload) → Q r) :
    EntryOf entry Q := by
  cases entry with
  | none => exact fun r hr => h r (hsub r hr)
  | some e =>
    obtain ⟨t, ht, hle, rfl⟩ := h
    exact ⟨t, htop t ht rfl, fun s hs => hle s (hsub s hs), rfl⟩

theorem entryOf_greatest (db : OplogDb) (row : RowRef) :
    EntryOf (((db.appliedRows row).greatest (·.key)).map fun r => (r.key, r.resolvedPayload))
      (db.AppliedIn row) := by
  cases h : (db.appliedRows row).greatest (·.key) with
  | none =>
    rw [greatest_eq_none] at h
    intro r hr
    rw [← mem_appliedRows, h] at hr
    exact absurd hr not_mem_nil
  | some r =>
    obtain ⟨hr, hle⟩ := greatest_spec h
    exact ⟨r, mem_appliedRows.1 hr, fun s hs => hle s (mem_appliedRows.2 hs), rfl⟩

/-! ## The invariant -/

structure HeadsWin (db : OplogDb) : Prop where
  ids : (db.oplog.map (·.opId)).Nodup
  holds : ∀ r ∈ db.oplog, ∃ op : SignedOp, r.Holds op ∧ op.body.v = envelopeVersion ∧ op.body.hlc.Low
  win : ∀ row, isSelfDrainingBulkTable row = false → EntryOf (db.headEntry row) (db.AppliedIn row)

theorem headsWin_empty (epoch : Epoch) : (empty epoch).HeadsWin where
  ids := nodup_nil
  holds := by simp [empty]
  win := fun _ _ r hr => absurd hr.1 not_mem_nil

variable {db : OplogDb}

theorem HeadsWin.store (h : db.HeadsWin) {w : LogWrite} (hv : w.op.body.v = envelopeVersion)
    (hlow : w.op.body.hlc.Low) : (db.store w).HeadsWin := by
  rcases store_cases db w with ⟨-, heq⟩ | ⟨hnew, hlog, -, -, -, hheads⟩
  · rwa [heq]
  have hnewHolds : (logRow w.op w.table w.rowPk w.origin).Holds w.op := logRow_holds _ _ _ _
  refine ⟨?_, ?_, fun row hrow => ?_⟩
  · rw [hlog, map_append, map_singleton]
    refine List.Nodup.append h.ids (nodup_singleton _) ?_
    have hid : (logRow w.op w.table w.rowPk w.origin).opId = w.op.id := rfl
    rw [hid]
    simpa [disjoint_singleton] using hnew
  · rw [hlog]
    intro r hr
    rcases mem_append.1 hr with hr | hr
    · exact h.holds r hr
    · rw [mem_singleton.1 hr]
      exact ⟨w.op, hnewHolds, hv, hlow⟩
  · have hent : (db.store w).headEntry row =
        ((db.withOp w.op w.table w.rowPk w.origin w.now).upsertHead w.op w.row).headEntry row := by
      rw [headEntry, headEntry, hheads]
    rw [hent, upsertHead_entry]
    by_cases hw : row = w.row
    · rw [if_pos hw]
      have hinsert := (h.win row hrow).insert (logRow w.op w.table w.rowPk w.origin)
      rw [hnewHolds.resolvedPayload hv, hw] at hinsert
      refine hinsert.congr fun r => ?_
      rw [AppliedIn, AppliedIn, hlog, mem_append, mem_singleton, hw]
      refine ⟨fun hr => ?_, fun hr => ?_⟩
      · rcases hr with hr | rfl
        · exact ⟨.inl hr.1, hr.2⟩
        · exact ⟨.inr rfl, rfl, rfl⟩
      · rcases hr.1 with hr' | rfl
        · exact .inl ⟨hr', hr.2⟩
        · exact .inr rfl
    · rw [if_neg hw]
      refine (h.win row hrow).congr fun r => ?_
      rw [AppliedIn, AppliedIn, hlog, mem_append, mem_singleton]
      refine ⟨fun hr => ⟨.inl hr.1, hr.2⟩, fun hr => ?_⟩
      rcases hr.1 with hr' | rfl
      · exact ⟨hr', hr.2⟩
      · exact absurd hr.2.1.symm hw

/-! ## Compaction -/

variable {isUpsert : List Byte → Bool} {chunk : List (OpId × ℕ)}

/-- The payload of a head is cleared in the drained tables only. -/
theorem deleteOpsChunk_entry {pins : Pins} (hrow : isSelfDrainingBulkTable row = false) :
    (db.deleteOpsChunk isUpsert pins chunk).headEntry row = db.headEntry row := by
  simp only [headEntry, deleteOpsChunk, trimUpsertHeadPayloads]
  rw [find?_map_row (fun h => by split <;> rfl), Option.map_map]
  cases hfind : db.heads.find? (·.row = row) with
  | none => rfl
  | some h =>
    have hh : h.row = row := by simpa using find?_some hfind
    simp only [Option.map_some, Function.comp, Option.some.injEq]
    rw [if_neg]
    rintro ⟨hany, htab, -⟩
    obtain ⟨r, -, hr⟩ := any_eq_true.1 hany
    simp only [Bool.and_eq_true, decide_eq_true_eq] at hr
    have htables : h.row.tableName ∈ selfDrainingTables := by
      revert htab
      generalize h.row.tableName = table
      unfold selfDrainingHeadTrimTables selfDrainingTables
      simp only [mem_cons, not_mem_nil, or_false]
      tauto
    have hdrain : isSelfDrainingBulkTable row = true := by
      rw [isSelfDrainingBulkTable, ← hh, decide_eq_true_eq]
      exact ⟨by rw [← hr.1.1.1, hr.2], htables⟩
    rw [hrow] at hdrain
    exact Bool.noConfusion hdrain

theorem HeadsWin.deleteOpsChunk (h : db.HeadsWin) {pins : Pins} :
    (db.deleteOpsChunk isUpsert pins chunk).HeadsWin := by
  refine ⟨h.ids.sublist (deleteOpsChunk_oplog_sublist.map _),
    fun r hr => h.holds r (deleteOpsChunk_oplog_sublist.subset hr), fun row hrow => ?_⟩
  rw [deleteOpsChunk_entry hrow]
  refine (h.win row hrow).shrink (fun r hr => ⟨(mem_deleteOpsChunk_oplog.1 hr.1).1, hr.2⟩) fun r hr hent => ?_
  refine ⟨mem_deleteOpsChunk_oplog.2 ⟨hr.1, ?_⟩, hr.2⟩
  -- the winner is the head of its row, which pins it
  obtain ⟨head, hfind, hkey⟩ := Option.map_eq_some_iff.1 hent
  rw [← hr.2.1] at hfind hrow
  exact hit_head hfind (Prod.ext_iff.1 hkey).1 hrow

theorem HeadsWin.compact (h : db.HeadsWin) (isUpsert : List Byte → Bool) (pass : CompactionPass) :
    (db.compact isUpsert pass).HeadsWin :=
  compact_induct isUpsert pass HeadsWin h fun _ _ _ hdb' => hdb'.deleteOpsChunk

/-! ## Deferring an op -/

theorem find?_dropRow (heads : List HeadRow) (row dropped : RowRef) :
    (heads.filter (·.row ≠ dropped)).find? (·.row = row) =
      if row = dropped then none else heads.find? (·.row = row) := by
  split
  · rename_i hrow
    rw [find?_eq_none]
    intro h hh
    have hne : h.row ≠ dropped := by simpa using (mem_filter.1 hh).2
    simp [hrow, hne]
  · rename_i hrow
    induction heads with
    | nil => rfl
    | cons h rest ih =>
      by_cases hh : h.row = row
      · simp [hh, hrow]
      · by_cases hdrop : h.row = dropped <;> simp_all

theorem entry_replaced (heads : List HeadRow) (row replaced : RowRef) (key : SqlKey) (payload : List Byte) :
    ((heads.map fun h => if h.row = replaced then { h with key := key, payload := payload } else h).find?
        (·.row = row)).map (fun h => (h.key, h.payload)) =
      if row = replaced then (heads.find? (·.row = row)).map fun _ => (key, payload)
      else (heads.find? (·.row = row)).map fun h => (h.key, h.payload) := by
  rw [find?_rewriteRow (by intro h; rfl)]
  split
  · rename_i hrow
    rw [hrow, Option.map_map]
    rfl
  · rfl

variable {id : OpId}

/-- The entry `demoteHead` leaves: derived afresh if the op was the head. -/
theorem demoteHead_entry {logged : OplogRow} (hlog : db.oplog.find? (·.opId = id) = some logged)
    (row : RowRef) :
    (db.demoteHead id).headEntry row =
      if row = logged.row ∧ db.heads.any (fun h => h.row = logged.row && h.key.opId = id) = true then
        ((db.appliedRows logged.row).greatest (·.key)).map fun r => (r.key, r.resolvedPayload)
      else db.headEntry row := by
  simp only [demoteHead, hlog]
  by_cases hany : db.heads.any (fun h => h.row = logged.row && h.key.opId = id) = true
  · simp only [hany, if_true, and_true]
    cases hgrt : (db.appliedRows logged.row).greatest (·.key) with
    | none =>
      simp only [headEntry, Option.map_none]
      rw [find?_dropRow]
      split <;> rfl
    | some r =>
      simp only [headEntry, Option.map_some]
      rw [entry_replaced]
      split
      · rename_i hrow
        obtain ⟨h, hh⟩ := any_eq_true.1 hany
        simp only [Bool.and_eq_true, decide_eq_true_eq] at hh
        obtain ⟨h', hfind⟩ : ∃ h', db.heads.find? (·.row = row) = some h' := by
          rw [← Option.isSome_iff_exists, find?_isSome]
          exact ⟨h, hh.1, by simp [hh.2.1, hrow]⟩
        rw [hfind]
        rfl
      · rfl
  · simp [hany]

theorem demoteHead_absent (h : db.oplog.find? (·.opId = id) = none) : db.demoteHead id = db := by
  simp only [demoteHead, h]

variable {f : OplogRow → OplogRow}

theorem mem_setRow {s : OplogRow} :
    s ∈ (db.setRow id f).oplog ↔ ∃ r ∈ db.oplog, (if r.opId = id then f r else r) = s := by
  rw [setRow, mem_map]

/-- Rewriting the row or the mark of an op keeps what it holds. -/
theorem HeadsWin.setRow_holds (h : db.HeadsWin) (id : OpId)
    (hf : ∀ r, (f r).key = r.key ∧ (f r).envelope = r.envelope ∧ (f r).payload = r.payload) :
    ∀ r ∈ (db.setRow id f).oplog, ∃ op : SignedOp, r.Holds op ∧ op.body.v = envelopeVersion ∧ op.body.hlc.Low := by
  intro r hr
  obtain ⟨t, ht, rfl⟩ := mem_setRow.1 hr
  obtain ⟨op, hop, hop'⟩ := h.holds t ht
  split
  · obtain ⟨hkey, henvelope, hpay⟩ := hf t
    exact ⟨op, ⟨hkey.trans hop.key, henvelope.trans hop.envelope, hpay.trans hop.payload⟩, hop'⟩
  · exact ⟨op, hop, hop'⟩

theorem appliedIn_deferred (id : OpId) (row : RowRef) (r : OplogRow) :
    (db.setRow id fun r => { r with applied := false }).AppliedIn row r ↔ db.AppliedIn row r ∧ r.opId ≠ id := by
  rw [AppliedIn, AppliedIn, mem_setRow]
  refine ⟨?_, ?_⟩
  · rintro ⟨⟨t, ht, rfl⟩, hrow, happ⟩
    by_cases hid : t.opId = id
    · rw [if_pos hid] at happ
      exact Bool.noConfusion happ
    · rw [if_neg hid] at hrow happ ⊢
      exact ⟨⟨ht, hrow, happ⟩, hid⟩
  · rintro ⟨⟨hr, hrow, happ⟩, hid⟩
    exact ⟨⟨r, hr, if_neg hid⟩, hrow, happ⟩

/-- An op that made an entry is the head `demoteHead` looks for. -/
theorem isHead_of_entry {payload : List Byte} (hrow : r.row = row) (h : db.headEntry row = some (r.key, payload)) :
    db.isHead r = true := by
  obtain ⟨head, hfind, hkey⟩ := Option.map_eq_some_iff.1 h
  exact isHead_of_find? (hrow ▸ hfind) (Prod.ext_iff.1 hkey).1

theorem HeadsWin.defer (h : db.HeadsWin) (id : OpId) : (db.defer id).HeadsWin := by
  obtain ⟨db₁, hdb₁⟩ : ∃ db₁, (db.setRow id fun r => { r with applied := false }) = db₁ := ⟨_, rfl⟩
  have hids : (db₁.oplog.map (·.opId)).Nodup := by
    rw [← hdb₁, setRow_opIds (by intro r; rfl)]
    exact h.ids
  have happ : ∀ row r, db₁.AppliedIn row r ↔ db.AppliedIn row r ∧ r.opId ≠ id := by
    intro row r
    rw [← hdb₁]
    exact appliedIn_deferred id row r
  have hmarked : ∀ r ∈ db.oplog, r.opId = id → { r with applied := false } ∈ db₁.oplog := by
    intro r hr hid
    rw [← hdb₁]
    exact mem_setRow.2 ⟨r, hr, if_pos hid⟩
  have hheads : db₁.heads = db.heads := by rw [← hdb₁]; rfl
  have hent : ∀ row, db₁.headEntry row = db.headEntry row := by
    intro row
    rw [headEntry, headEntry, hheads]
  have hdb : db.defer id = db₁.demoteHead id := by rw [OplogDb.defer, hdb₁]
  have hlog : (db₁.demoteHead id).oplog = db₁.oplog := by
    obtain ⟨heads, heq⟩ := demoteHead_same db₁ id
    rw [heq]
  rw [hdb]
  refine ⟨by rwa [hlog], ?_, fun row hrow => ?_⟩
  · rw [hlog, ← hdb₁]
    exact h.setRow_holds id fun r => ⟨rfl, rfl, rfl⟩
  refine EntryOf.congr ?_ fun r => (appliedIn_congr hlog row r).symm
  cases hfind : db₁.oplog.find? (·.opId = id) with
  | none =>
    -- an op that is not logged leaves the entry as it was
    have hoth : ∀ r, db.AppliedIn row r → r.opId ≠ id := by
      intro r hr hid
      have hne := find?_eq_none.1 hfind _ (hmarked r hr.1 hid)
      simp only [decide_eq_true_eq] at hne
      exact hne hid
    rw [demoteHead_absent hfind, hent]
    exact (h.win row hrow).congr fun r => by rw [happ, and_iff_left_of_imp (hoth r)]
  | some logged =>
    rw [demoteHead_entry hfind]
    split
    · rename_i hhead
      rw [← hhead.1]
      exact entryOf_greatest db₁ row
    · rename_i hhead
      rw [hent]
      -- the op deferred is not the greatest, or it would have been the head
      refine (h.win row hrow).shrink (fun r hr => ((happ row r).1 hr).1) fun r hr hwin => ?_
      refine (happ row r).2 ⟨hr, fun hid => hhead ?_⟩
      have hlogged : logged = { r with applied := false } :=
        inj_on_of_nodup_map hids (mem_of_find?_eq_some hfind) (hmarked r hr.1 hid)
          ((by simpa using find?_some hfind : logged.opId = id).trans hid.symm)
      rw [hlogged, hheads, ← hid]
      exact ⟨hr.2.1.symm, isHead_of_entry hr.2.1 hwin⟩

/-! ## Restoring an op -/

theorem appliedIn_restored (hids : (db.oplog.map (·.opId)).Nodup) (hfind : db.oplog.find? (·.opId = id) = some r)
    (happ : r.applied = false) (target row : RowRef) (s : OplogRow) :
    (db.setRow id fun r => { r with row := target, applied := true }).AppliedIn row s ↔
      db.AppliedIn row s ∨ row = target ∧ s = { r with row := target, applied := true } := by
  have hid : r.opId = id := by simpa using find?_some hfind
  have hmem := mem_of_find?_eq_some hfind
  rw [AppliedIn, AppliedIn, mem_setRow]
  refine ⟨?_, ?_⟩
  · rintro ⟨⟨t, ht, rfl⟩, hrow, hs⟩
    by_cases hid' : t.opId = id
    · obtain rfl : t = r := inj_on_of_nodup_map hids ht hmem (hid'.trans hid.symm)
      rw [if_pos hid'] at hrow ⊢
      exact .inr ⟨hrow.symm, rfl⟩
    · rw [if_neg hid'] at hrow hs ⊢
      exact .inl ⟨ht, hrow, hs⟩
  · rintro (⟨hs, hrow, hsapp⟩ | ⟨rfl, rfl⟩)
    · refine ⟨⟨s, hs, if_neg fun hid' => ?_⟩, hrow, hsapp⟩
      obtain rfl : s = r := inj_on_of_nodup_map hids hs hmem (hid'.trans hid.symm)
      rw [happ] at hsapp
      exact Bool.noConfusion hsapp
    · exact ⟨⟨r, hmem, if_pos hid⟩, rfl, rfl⟩

theorem HeadsWin.restore (h : db.HeadsWin) (id : OpId) (table rowPk : String) :
    (db.restore id table rowPk).HeadsWin := by
  rw [OplogDb.restore]
  cases hfind : db.oplog.find? (·.opId = id) with
  | none => exact h
  | some r =>
    by_cases happ : r.applied = true
    · simpa only [happ, if_true] using h
    obtain ⟨op, hop, hv, hlow⟩ := h.holds r (mem_of_find?_eq_some hfind)
    have hdec : SignedOp.fromBytes r.envelope = .ok op := by rw [hop.envelope, SignedOp.fromBytes_toBytes hv]
    simp only [happ, Bool.false_eq_true, if_false, hdec]
    generalize htgt : (⟨op.body.store, table, rowPk⟩ : RowRef) = target
    refine ⟨?_, h.setRow_holds id fun r => ⟨rfl, rfl, rfl⟩, fun row hrow => ?_⟩
    · have hopIds : (db.setRow id fun r => { r with row := target, applied := true }).oplog.map (·.opId) =
          db.oplog.map (·.opId) := setRow_opIds (by intro r; rfl) id
      exact hopIds ▸ h.ids
    have hiff := appliedIn_restored h.ids hfind (by simpa using happ) target row
    generalize hr' : ({ r with row := target, applied := true } : OplogRow) = r'
    have hop' : r'.Holds op := by
      rw [← hr']
      exact ⟨hop.key, hop.envelope, hop.payload⟩
    rw [hr'] at hiff
    rw [upsertHead_entry]
    by_cases hrow' : row = target
    · rw [if_pos hrow', ← hrow', ← hop'.key, ← hop'.resolvedPayload hv]
      refine ((h.win row hrow).insert r').congr fun s => ?_
      rw [hrow']
      exact (((hrow' ▸ hiff) s).trans (or_congr_right (and_iff_right rfl))).symm
    · rw [if_neg hrow']
      refine (h.win row hrow).congr fun s => ?_
      exact ((hiff s).trans (or_iff_left fun hs => hrow' hs.1)).symm

/-! ## Moving ops to another row -/

theorem rebuildHead_entry (db : OplogDb) (row row' : RowRef) :
    (db.rebuildHead row).headEntry row' =
      if row' = row then ((db.appliedRows row).greatest (·.key)).map fun r => (r.key, r.resolvedPayload)
      else db.headEntry row' := by
  have hothers := find?_dropRow db.heads row' row
  simp only [headEntry, rebuildHead]
  cases hgrt : (db.appliedRows row).greatest (·.key) with
  | none =>
    simp only [hothers]
    split <;> rfl
  | some newest =>
    cases hleast : (db.appliedRows row).least (·.key) with
    | none =>
      rw [least_eq_none] at hleast
      have hnone : (db.appliedRows row).greatest (·.key) = none := greatest_eq_none.2 hleast
      rw [hnone] at hgrt
      cases hgrt
    | some earliest =>
      simp only [find?_append, hothers]
      by_cases hrow : row' = row
      · simp [hrow]
      · have hne : ¬row = row' := fun h => hrow h.symm
        simp [hrow, hne]

/-- A row that is neither the source nor the target has the ops it had. -/
theorem appliedIn_moved {moved : OplogDb} {source target : RowRef} {ids : List OpId}
    (hmov : moved.oplog = db.oplog.map fun r =>
      if r.row = source ∧ r.opId ∈ ids then { r with row := target } else r)
    (hsrc : row ≠ source) (htgt : row ≠ target) (s : OplogRow) :
    moved.AppliedIn row s ↔ db.AppliedIn row s := by
  rw [AppliedIn, AppliedIn, hmov, mem_map]
  refine ⟨?_, ?_⟩
  · rintro ⟨⟨r, hr, rfl⟩, hsrow, hsapp⟩
    by_cases hmove : r.row = source ∧ r.opId ∈ ids
    · rw [if_pos hmove] at hsrow
      exact absurd hsrow.symm htgt
    · rw [if_neg hmove] at hsrow hsapp ⊢
      exact ⟨hr, hsrow, hsapp⟩
  · rintro ⟨hs, hsrow, hsapp⟩
    exact ⟨⟨s, hs, if_neg fun hmove => hsrc (hsrow.symm.trans hmove.1)⟩, hsrow, hsapp⟩

theorem HeadsWin.move (h : db.HeadsWin) (source target : RowRef) (ids : List OpId) :
    (db.move source target ids).HeadsWin := by
  obtain ⟨moved, hmov⟩ : ∃ moved : OplogDb, { db with oplog := db.oplog.map fun r =>
    if r.row = source ∧ r.opId ∈ ids then { r with row := target } else r } = moved := ⟨_, rfl⟩
  have hmovedLog : moved.oplog = db.oplog.map fun r =>
    if r.row = source ∧ r.opId ∈ ids then { r with row := target } else r := by rw [← hmov]
  have hdb : db.move source target ids = (moved.rebuildHead source).rebuildHead target := by
    rw [OplogDb.move, hmov]
  have hlog : (db.move source target ids).oplog = moved.oplog := by
    obtain ⟨heads, heq⟩ := rebuildHead_same moved source
    obtain ⟨heads', heq'⟩ := rebuildHead_same (moved.rebuildHead source) target
    rw [hdb, heq', heq]
  refine ⟨?_, ?_, fun row hrow => ?_⟩
  · have hopIds : moved.oplog.map (·.opId) = db.oplog.map (·.opId) := by
      rw [hmovedLog, map_map]
      refine map_congr_left fun r _ => ?_
      simp only [Function.comp]
      split <;> rfl
    rw [hlog, hopIds]
    exact h.ids
  · intro s hs
    rw [hlog, hmovedLog] at hs
    obtain ⟨r, hr, rfl⟩ := mem_map.1 hs
    obtain ⟨op, hop, hop'⟩ := h.holds r hr
    split
    · exact ⟨op, ⟨hop.key, hop.envelope, hop.payload⟩, hop'⟩
    · exact ⟨op, hop, hop'⟩
  -- both rows are derived afresh, after the log has changed for good
  have hrebuilt : (moved.rebuildHead source).appliedRows = moved.appliedRows := by
    obtain ⟨heads, heq⟩ := rebuildHead_same moved source
    rw [heq]
    rfl
  refine EntryOf.congr ?_ fun s => (appliedIn_congr hlog row s).symm
  rw [hdb, rebuildHead_entry, rebuildHead_entry, hrebuilt]
  split
  · rename_i htgt
    rw [htgt]
    exact entryOf_greatest moved target
  · rename_i htgt
    split
    · rename_i hsrc
      rw [hsrc]
      exact entryOf_greatest moved source
    · rename_i hsrc
      have hent : moved.headEntry row = db.headEntry row := by rw [← hmov]; rfl
      rw [hent]
      exact (h.win row hrow).congr fun s => (appliedIn_moved hmovedLog hsrc htgt s).symm

end OplogDb

end ProxyNode
