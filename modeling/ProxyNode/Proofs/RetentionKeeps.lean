import Mathlib.Data.Finset.Card
import ProxyNode.Sanity.SqlOrder

/-! What retention keeps, over every run of appends and compaction passes. An op of a row
outside the drained tables only goes while the log holds as many newer ones as the policy
keeps, an older one and, as the head, the newest; none of these is a candidate itself. -/

namespace ProxyNode

open List

def LogEvent.Keeping (k : ℕ) : LogEvent → Prop
  | .append w => w.op.body.hlc.Low
  | .compact pass => pass.policy.keepPerRow = k

instance (k : ℕ) : DecidablePred (LogEvent.Keeping k)
  | .append w => inferInstanceAs (Decidable w.op.body.hlc.Low)
  | .compact pass => inferInstanceAs (Decidable (pass.policy.keepPerRow = k))

namespace OplogDb

variable {db : OplogDb} (isUpsert : List Byte → Bool) (pass : CompactionPass)

/-! ## One pass -/

variable {r : OplogRow}

/-- An op that a pass deletes was drained and not pinned when the pass began. -/
theorem StreamOk.compact_deleted (h : db.StreamOk) (hr : r ∈ db.oplog)
    (hgone : r ∉ (db.compact isUpsert pass).oplog) :
    db.drained pass.policy r = true ∧ db.pinned pass.pins r = false := by
  have hall := h.compact_induct isUpsert pass
    (fun db' => r ∈ db'.oplog ∨ db.drained pass.policy r = true ∧ db.pinned pass.pins r = false) (.inl hr) ?_
  · exact hall.2.resolve_left hgone
  rintro db' chunk - - hchk (hin | hdrn)
  · cases hhit : db'.hit pass.pins chunk r with
    | false => exact .inl (mem_deleteOpsChunk_oplog.2 ⟨hin, hhit⟩)
    | true =>
      simp only [hit, decide_eq_true_eq] at hhit
      obtain ⟨c, hc, hid⟩ := mem_map.1 hhit.1
      obtain ⟨a, s, hjoin, hsid, -, -, hdrn, hpin⟩ := (hchk c hc).found
      have hs := ((mem_joined_iff h.ids).1 hjoin).2.1
      obtain rfl : s = r := inj_on_of_nodup_map h.ids hs hr (hsid.trans hid)
      exact .inr ⟨hdrn, hpin⟩
  · exact .inr hdrn

/-- An arrival that a pass deletes is not the newest. -/
theorem StreamOk.compact_below (h : db.StreamOk) {a : Arrival} (ha : a ∈ db.arrivals)
    (hgone : a ∉ (db.compact isUpsert pass).arrivals) : ∃ b ∈ db.arrivals, a.relaySeq < b.relaySeq := by
  have hall := h.compact_induct isUpsert pass (fun db' => a ∈ db'.arrivals ∨ a.relaySeq < db.headSeq)
    (.inl ha) ?_
  · have hlt := hall.2.resolve_left hgone
    rw [headSeq] at hlt
    cases hmax : (db.arrivals.map (·.relaySeq)).max? with
    | none =>
      rw [hmax] at hlt
      exact absurd hlt (Nat.not_lt_zero _)
    | some m =>
      obtain ⟨b, hb, hm⟩ := mem_map.1 (max?_mem hmax)
      rw [hmax, Option.getD_some] at hlt
      exact ⟨b, hb, hm ▸ hlt⟩
  rintro db' chunk - - hchk (hin | hlt)
  · by_cases hmem : a.opId ∈ chunk.map (·.1)
    · obtain ⟨c, hc, hid⟩ := mem_map.1 hmem
      obtain ⟨b, s, hjoin, hsid, hseq, -⟩ := (hchk c hc).found
      obtain ⟨hb, -, hbs⟩ := (mem_joined_iff h.ids).1 hjoin
      obtain rfl : b = a := inj_on_of_nodup_map h.arrivalIds hb ha (by rw [← hbs, hsid, hid])
      exact .inr (hseq ▸ (hchk c hc).below)
    · exact .inl (mem_deleteOpsChunk_arrivals.2 ⟨hin, fun hmem' => absurd hmem' hmem⟩)
  · exact .inr hlt

theorem StreamOk.compact_sublist (h : db.StreamOk) :
    (db.compact isUpsert pass).oplog.Sublist db.oplog ∧ (db.compact isUpsert pass).arrivals.Sublist db.arrivals :=
  (h.compact_induct isUpsert pass (fun db' => db'.oplog.Sublist db.oplog ∧ db'.arrivals.Sublist db.arrivals)
    ⟨List.Sublist.refl _, List.Sublist.refl _⟩ fun _ _ _ _ _ hdb' =>
      ⟨deleteOpsChunk_oplog_sublist.trans hdb'.1, deleteOpsChunk_arrivals_sublist.trans hdb'.2⟩).2

theorem StreamOk.compact_together (h : db.StreamOk) {a : Arrival} (ha : a ∈ db.arrivals) (hr : r ∈ db.oplog)
    (hid : r.opId = a.opId) :
    a ∈ (db.compact isUpsert pass).arrivals ↔ r ∈ (db.compact isUpsert pass).oplog := by
  refine (h.compact_induct isUpsert pass (fun db' => a ∈ db'.arrivals ↔ r ∈ db'.oplog) (iff_of_true ha hr) ?_).2
  intro db' chunk hok _ _ hsame
  by_cases hin : r ∈ db'.oplog
  · rw [arrival_kept_iff hok.ids (hsame.2 hin) hin hid, mem_deleteOpsChunk_oplog]
    exact (and_iff_right hin).symm
  · refine iff_of_false (fun hkept => ?_) fun hkept => hin (deleteOpsChunk_oplog_sublist.subset hkept)
    exact hin (hsame.1 (deleteOpsChunk_arrivals_sublist.subset hkept))

theorem StreamOk.compact_floor (h : db.StreamOk) :
    db.compactedThroughSeq ≤ (db.compact isUpsert pass).compactedThroughSeq := by
  refine (h.compact_induct isUpsert pass (fun db' => db.compactedThroughSeq ≤ db'.compactedThroughSeq) le_rfl ?_).2
  intro db' chunk hok _ _ hle
  exact hle.trans (deleteOpsChunk_floor isUpsert pass.pins chunk hok.ids).1

theorem StreamOk.compact_lastSeq (h : db.StreamOk) : (db.compact isUpsert pass).lastSeq = db.lastSeq :=
  (h.compact_induct isUpsert pass (fun db' => db'.lastSeq = db.lastSeq) rfl fun _ _ _ _ _ hdb' => hdb').2

structure PassKeeps (pass : CompactionPass) (before after : OplogDb) : Prop where
  pinned : ∀ r ∈ before.oplog, pass.pins.has r.opId = true → r ∈ after.oplog
  together : ∀ a ∈ before.arrivals, ∀ r ∈ before.oplog, r.opId = a.opId → (a ∈ after.arrivals ↔ r ∈ after.oplog)
  newest : ∀ a ∈ before.arrivals, (∀ b ∈ before.arrivals, b.relaySeq ≤ a.relaySeq) → a ∈ after.arrivals
  deleted : ∀ a ∈ before.arrivals, a ∉ after.arrivals → a.relaySeq ≤ after.compactedThroughSeq
  floor : before.compactedThroughSeq ≤ after.compactedThroughSeq

theorem StreamOk.passKeeps (h : db.StreamOk) : PassKeeps pass db (db.compact isUpsert pass) where
  pinned := by
    intro r hr hpin
    by_contra hgone
    have hpinned := (h.compact_deleted isUpsert pass hr hgone).2
    rw [OplogDb.pinned, hpin] at hpinned
    exact Bool.noConfusion hpinned
  together := fun a ha r hr hid => h.compact_together isUpsert pass ha hr hid
  newest := by
    intro a ha htop
    by_contra hgone
    obtain ⟨b, hb, hlt⟩ := h.compact_below isUpsert pass ha hgone
    exact absurd (htop b hb) (not_le.2 hlt)
  deleted := by
    -- above the floor no number is missing
    intro a ha hgone
    by_contra hlt
    have hbd : a.relaySeq ≤ (db.compact isUpsert pass).lastSeq :=
      h.compact_lastSeq isUpsert pass ▸ h.bound a ha
    obtain ⟨b, hb, hseq, -⟩ := (h.compact isUpsert pass).full a.relaySeq (not_le.1 hlt) hbd
    have hb' := (h.compact_sublist isUpsert pass).2.subset hb
    exact hgone (inj_on_of_nodup_map h.seqs hb' ha hseq ▸ hb)
  floor := h.compact_floor isUpsert pass

/-! ## The invariant -/

/-- Ops below `2^63` with their arrivals, and heads that are the greatest of their rows. -/
structure Retained (db : OplogDb) : Prop extends db.Logged where
  low : ∀ r ∈ db.oplog, r.key.orderKey.hlc.Low
  won : ∀ row, isSelfDrainingBulkTable row = false →
    (db.heads.find? (·.row = row)).map (·.key) = (db.appliedKeys row).max?
  streamed : ∀ r ∈ db.oplog, ∃ a ∈ db.arrivals, a.opId = r.opId

theorem retained_empty (epoch : Epoch) : (empty epoch).Retained where
  toLogged := logged_empty epoch
  low := by simp [empty]
  won := fun _ _ => rfl
  streamed := by simp [empty]

theorem Retained.store (h : db.Retained) {w : LogWrite} (hlow : w.op.body.hlc.Low) : (db.store w).Retained where
  toLogged := h.toLogged.store w
  low := by
    rcases store_cases db w with ⟨-, heq⟩ | ⟨-, hlog, -⟩
    · rw [heq]
      exact h.low
    · rw [hlog]
      intro r hr
      rcases mem_append.1 hr with hr | hr
      · exact h.low r hr
      · rw [mem_singleton.1 hr, (logRow_holds _ _ _ _).orderKey]
        exact hlow
  won := fun row hrow => append_headOk (h.won row hrow) _ _ _ _ _
  streamed := by
    rcases store_cases db w with ⟨-, heq⟩ | ⟨-, hlog, harr, -⟩
    · rw [heq]
      exact h.streamed
    · rw [hlog, harr]
      intro r hr
      rcases mem_append.1 hr with hr | hr
      · obtain ⟨a, ha, hid⟩ := h.streamed r hr
        exact ⟨a, mem_append_left _ ha, hid⟩
      · rw [mem_singleton.1 hr]
        exact ⟨_, mem_append_right _ (mem_singleton_self _), rfl⟩

/-- A chunk leaves the greatest op of a row to its head. -/
theorem deleteOpsChunk_won {isUpsert : List Byte → Bool} {pins : Pins} {chunk : List (OpId × ℕ)} {row : RowRef}
    (hrow : isSelfDrainingBulkTable row = false)
    (h : (db.heads.find? (·.row = row)).map (·.key) = (db.appliedKeys row).max?) :
    ((db.deleteOpsChunk isUpsert pins chunk).heads.find? (·.row = row)).map (·.key) =
      ((db.deleteOpsChunk isUpsert pins chunk).appliedKeys row).max? := by
  have hsub : ∀ key ∈ (db.deleteOpsChunk isUpsert pins chunk).appliedKeys row, key ∈ db.appliedKeys row := by
    intro key hkey
    obtain ⟨r, hr, hrest⟩ := mem_appliedKeys.1 hkey
    exact mem_appliedKeys.2 ⟨r, deleteOpsChunk_oplog_sublist.subset hr, hrest⟩
  rw [deleteOpsChunk_headKey]
  cases hfind : db.heads.find? (·.row = row) with
  | none =>
    rw [hfind, Option.map_none, eq_comm, max?_eq_none_iff] at h
    rw [Option.map_none, eq_comm, max?_eq_none_iff]
    rw [h] at hsub
    exact eq_nil_iff_forall_not_mem.2 fun key hkey => absurd (hsub key hkey) not_mem_nil
  | some head =>
    rw [hfind, Option.map_some] at h
    obtain ⟨hmem, hle⟩ := max?_eq_some_iff.1 h.symm
    rw [Option.map_some, eq_comm, max?_eq_some_iff]
    refine ⟨?_, fun key hkey => hle key (hsub key hkey)⟩
    obtain ⟨r, hr, rfl, happ, hkey⟩ := mem_appliedKeys.1 hmem
    exact mem_appliedKeys.2 ⟨r, mem_deleteOpsChunk_oplog.2 ⟨hr, hit_head hfind hkey.symm hrow⟩,
      rfl, happ, hkey⟩

theorem Retained.compact (h : db.Retained) : (db.compact isUpsert pass).Retained where
  toLogged := h.toLogged.compact isUpsert pass
  low := fun r hr => h.low r ((h.stream.compact_sublist isUpsert pass).1.subset hr)
  won := fun row hrow => compact_induct isUpsert pass
    (fun db' => (db'.heads.find? (·.row = row)).map (·.key) = (db'.appliedKeys row).max?) (h.won row hrow)
    fun _ _ _ hwon => deleteOpsChunk_won hrow hwon
  streamed := by
    intro r hr
    have hr' := (h.stream.compact_sublist isUpsert pass).1.subset hr
    obtain ⟨a, ha, hid⟩ := h.streamed r hr'
    exact ⟨a, (h.stream.compact_together isUpsert pass ha hr' hid.symm).2 hr, hid⟩

def Has (db : OplogDb) (row : RowRef) (key : OrderKey) : Prop :=
  ∃ r ∈ db.oplog, r.row = row ∧ r.applied = true ∧ r.key.orderKey = key

theorem Retained.key_eq (h : db.Retained) (hr : r ∈ db.oplog) :
    r.key = SqlKey.of r.key.orderKey := by
  obtain ⟨op, hop, -⟩ := h.holds r hr
  exact hop.key_eq

theorem Retained.lt_iff (h : db.Retained) {s : OplogRow} (hr : r ∈ db.oplog) (hs : s ∈ db.oplog) :
    r.key < s.key ↔ r.key.orderKey < s.key.orderKey := by
  rw [h.key_eq hr, h.key_eq hs, SqlKey.of_lt, SqlKey.orderKey_of, SqlKey.orderKey_of]
  · exact h.low r hr
  · exact h.low s hs

theorem Retained.orderKeys (h : db.Retained) : (db.oplog.map fun r => r.key.orderKey).Nodup := by
  have hids : db.oplog.map (·.opId) = (db.oplog.map fun r => r.key.orderKey).map OrderKey.opId := by
    rw [map_map]
    rfl
  exact List.Nodup.of_map OrderKey.opId (hids ▸ h.stream.ids)

/-- What the log holds beside an op that a scan offers. -/
theorem Retained.drained_spec (h : db.Retained) {policy : CompactionPolicy} (hr : r ∈ db.oplog)
    (hrow : isSelfDrainingBulkTable r.row = false) (hdrn : db.drained policy r = true) :
    (∃ other, db.Has r.row other ∧ other < r.key.orderKey) ∧
      ∃ newer : Finset OrderKey, policy.keepPerRow ≤ newer.card ∧
        ∀ other ∈ newer, db.Has r.row other ∧ r.key.orderKey < other := by
  have happ : ∀ s ∈ db.appliedRows r.row, s ∈ db.oplog ∧ db.Has r.row s.key.orderKey := by
    intro s hs
    simp only [appliedRows, mem_filter, Bool.and_eq_true, decide_eq_true_eq] at hs
    exact ⟨hs.1, s, hs.1, hs.2.1, hs.2.2, rfl⟩
  rw [drained, hrow, Bool.false_or, Bool.and_eq_true] at hdrn
  obtain ⟨hshadowed, holder⟩ := hdrn
  constructor
  · obtain ⟨s, hs, hlt⟩ := any_eq_true.1 holder
    obtain ⟨hs', hhas⟩ := happ s hs
    exact ⟨_, hhas, (h.lt_iff hs' hr).1 (by simpa using hlt)⟩
  · rw [shadowed, decide_eq_true_eq] at hshadowed
    generalize hrows : (db.appliedRows r.row).filter (fun s => r.key < s.key) = rows
    have hnd : (rows.map fun s => s.key.orderKey).Nodup := by
      refine h.orderKeys.sublist (List.Sublist.map _ ?_)
      rw [← hrows]
      exact filter_sublist.trans filter_sublist
    refine ⟨(rows.map fun s => s.key.orderKey).toFinset, ?_, ?_⟩
    · rw [toFinset_card_of_nodup hnd, length_map, ← hrows]
      exact hshadowed
    · intro other hoth
      obtain ⟨s, hs, rfl⟩ := mem_map.1 (mem_toFinset.1 hoth)
      rw [← hrows, mem_filter, decide_eq_true_eq] at hs
      obtain ⟨hs', hhas⟩ := happ s hs.1
      exact ⟨hhas, (h.lt_iff hr hs').1 hs.2⟩

/-! ## Every run -/

section Runs

variable (epoch : Epoch)

def ran (events : List LogEvent) : OplogDb := logRun isUpsert events (empty epoch)

theorem ran_concat (events : List LogEvent) (event : LogEvent) :
    ran isUpsert epoch (events ++ [event]) = (ran isUpsert epoch events).logStep isUpsert event :=
  foldl_concat ..

def EverHad (events : List LogEvent) (row : RowRef) (key : OrderKey) : Prop :=
  ∃ past, past <+: events ∧ (ran isUpsert epoch past).Has row key

variable {isUpsert epoch} {k : ℕ} {events : List LogEvent} {row : RowRef}

variable {key : OrderKey}

theorem not_everHad_nil : ¬ EverHad isUpsert epoch [] row key := by
  rintro ⟨past, hpast, r, hr, -⟩
  rw [prefix_nil.1 hpast] at hr
  exact absurd hr not_mem_nil

theorem everHad_concat {event : LogEvent} :
    EverHad isUpsert epoch (events ++ [event]) row key ↔
      EverHad isUpsert epoch events row key ∨ (ran isUpsert epoch (events ++ [event])).Has row key := by
  constructor
  · rintro ⟨past, hpast, hhas⟩
    rcases prefix_concat_iff.1 hpast with rfl | hpast
    · exact .inr hhas
    · exact .inl ⟨past, hpast, hhas⟩
  · rintro (⟨past, hpast, hhas⟩ | hhas)
    · exact ⟨past, hpast.trans (prefix_append _ _), hhas⟩
    · exact ⟨_, prefix_refl _, hhas⟩

theorem retained_ran (hkeep : ∀ event ∈ events, event.Keeping k) : (ran isUpsert epoch events).Retained := by
  induction events using reverseRecOn with
  | nil => exact retained_empty epoch
  | append_singleton events event ih =>
    obtain ⟨hevs, hev⟩ := forall_mem_append.1 hkeep
    have hlast := hev event (mem_singleton_self event)
    rw [ran_concat]
    cases event with
    | append w => exact (ih hevs).store hlast
    | compact pass => exact (ih hevs).compact isUpsert pass

/-- There was an older op of the row, and as many newer ones as are kept. -/
def Outlived (isUpsert : List Byte → Bool) (epoch : Epoch) (k : ℕ) (events : List LogEvent) (row : RowRef)
    (key : OrderKey) : Prop :=
  (∃ other, EverHad isUpsert epoch events row other ∧ other < key) ∧
    ∃ newer : Finset OrderKey, k ≤ newer.card ∧
      ∀ other ∈ newer, EverHad isUpsert epoch events row other ∧ key < other

theorem Outlived.concat (h : Outlived isUpsert epoch k events row key) (event : LogEvent) :
    Outlived isUpsert epoch k (events ++ [event]) row key := by
  obtain ⟨⟨other, hoth, hlt⟩, newer, hcard, hnewer⟩ := h
  refine ⟨⟨other, everHad_concat.2 (.inl hoth), hlt⟩, newer, hcard, fun other hin => ?_⟩
  exact ⟨everHad_concat.2 (.inl (hnewer other hin).1), (hnewer other hin).2⟩

/-- One event: an op of the row stays or is outlived. -/
theorem step_keeps (h : (ran isUpsert epoch events).Retained) (hrow : isSelfDrainingBulkTable row = false)
    {event : LogEvent} (hev : event.Keeping k) (hhas : (ran isUpsert epoch events).Has row key) :
    (ran isUpsert epoch (events ++ [event])).Has row key ∨
      Outlived isUpsert epoch k (events ++ [event]) row key := by
  obtain ⟨r, hr, rfl, happ, rfl⟩ := hhas
  rw [ran_concat]
  cases event with
  | append w =>
    refine .inl ⟨r, ?_, rfl, happ, rfl⟩
    rw [logStep]
    rcases store_cases (ran isUpsert epoch events) w with ⟨-, heq⟩ | ⟨-, hlog, -⟩
    · rwa [heq]
    · rw [hlog]
      exact mem_append_left _ hr
  | compact pass =>
    by_cases hkept : r ∈ ((ran isUpsert epoch events).compact isUpsert pass).oplog
    · exact .inl ⟨r, hkept, rfl, happ, rfl⟩
    · have hdrn := (h.stream.compact_deleted isUpsert pass hr hkept).1
      obtain ⟨⟨other, hoth, hlt⟩, newer, hcard, hnewer⟩ := h.drained_spec hr hrow hdrn
      have hever : ∀ other, (ran isUpsert epoch events).Has r.row other →
          EverHad isUpsert epoch (events ++ [.compact pass]) r.row other := fun other hhas =>
        everHad_concat.2 (.inl ⟨events, prefix_refl _, hhas⟩)
      refine .inr ⟨⟨other, hever other hoth, hlt⟩, newer, hev ▸ hcard, fun other hin => ?_⟩
      exact ⟨hever other (hnewer other hin).1, (hnewer other hin).2⟩

theorem has_or_outlived (hkeep : ∀ event ∈ events, event.Keeping k)
    (hrow : isSelfDrainingBulkTable row = false) (hever : EverHad isUpsert epoch events row key) :
    (ran isUpsert epoch events).Has row key ∨ Outlived isUpsert epoch k events row key := by
  induction events using reverseRecOn with
  | nil => exact absurd hever not_everHad_nil
  | append_singleton events event ih =>
    obtain ⟨hevs, hev⟩ := forall_mem_append.1 hkeep
    rcases everHad_concat.1 hever with hever | hhas
    · rcases ih hevs hever with hhas | houtlived
      · exact step_keeps (retained_ran hevs) hrow (hev event (mem_singleton_self event)) hhas
      · exact .inr (houtlived.concat event)
    · exact .inl hhas

/-! ### The head -/

theorem step_head (db : OplogDb) (event : LogEvent) {key : SqlKey}
    (h : (db.heads.find? (·.row = row)).map (·.key) = some key) :
    ∃ key', ((db.logStep isUpsert event).heads.find? (·.row = row)).map (·.key) = some key' ∧ key ≤ key' := by
  cases event with
  | append w =>
    rcases store_cases db w with ⟨-, heq⟩ | ⟨-, -, -, -, -, hheads⟩
    · refine ⟨key, ?_, le_rfl⟩
      rw [logStep, heq]
      exact h
    · have hfind := upsertHead_find? (db.withOp w.op w.table w.rowPk w.origin w.now) w.op w.row row
      rw [← hheads] at hfind
      by_cases hw : row = w.row
      · have hold : ((db.withOp w.op w.table w.rowPk w.origin w.now).heads.find? (·.row = w.row)).map (·.key) =
            some key := hw ▸ h
        rw [if_pos hw, hold] at hfind
        exact ⟨_, hfind, le_max_left _ _⟩
      · rw [if_neg hw] at hfind
        exact ⟨key, hfind.trans h, le_rfl⟩
  | compact pass =>
    refine ⟨key, ?_, le_rfl⟩
    exact compact_induct isUpsert pass (fun db' => (db'.heads.find? (·.row = row)).map (·.key) = some key) h
      fun _ _ _ hdb' => (deleteOpsChunk_headKey row).trans hdb'

theorem ever_below_head (hkeep : ∀ event ∈ events, event.Keeping k)
    (hrow : isSelfDrainingBulkTable row = false) (hever : EverHad isUpsert epoch events row key) :
    ∃ top, ((ran isUpsert epoch events).heads.find? (·.row = row)).map (·.key) = some top ∧
      SqlKey.of key ≤ top := by
  induction events using reverseRecOn with
  | nil => exact absurd hever not_everHad_nil
  | append_singleton events event ih =>
    obtain ⟨hevs, -⟩ := forall_mem_append.1 hkeep
    rcases everHad_concat.1 hever with hever | ⟨r, hr, hrow', happ, rfl⟩
    · obtain ⟨top, htop, hle⟩ := ih hevs hever
      obtain ⟨top', htop', hle'⟩ := step_head _ event htop
      rw [ran_concat]
      exact ⟨top', htop', hle.trans hle'⟩
    · have hok : (ran isUpsert epoch (events ++ [event])).Retained := retained_ran hkeep
      have hmem : r.key ∈ (ran isUpsert epoch (events ++ [event])).appliedKeys row :=
        mem_appliedKeys.2 ⟨r, hr, hrow', happ, rfl⟩
      cases hmax : ((ran isUpsert epoch (events ++ [event])).appliedKeys row).max? with
      | none =>
        rw [max?_eq_none_iff.1 hmax] at hmem
        exact absurd hmem not_mem_nil
      | some top =>
        refine ⟨top, (hok.won row hrow).trans hmax, ?_⟩
        rw [← hok.key_eq hr]
        exact (max?_eq_some_iff.1 hmax).2 r.key hmem

/-- What is left of a row, given the ops it ever had: the earliest, the `k` newest, and the
head, which is the newest of all. -/
structure RowKept (k : ℕ) (db : OplogDb) (row : RowRef) (ever : OrderKey → Prop) : Prop where
  earliest : ∀ key, ever key → (∀ other, ever other → key ≤ other) → db.Has row key
  newest : ∀ key, ever key →
    (∀ newer : Finset OrderKey, (∀ other ∈ newer, ever other ∧ key < other) → newer.card < k) → db.Has row key
  headed : ∀ key, ever key → ∃ head, db.heads.find? (·.row = row) = some head
  head : ∀ head, db.heads.find? (·.row = row) = some head →
    db.Has row head.key.orderKey ∧ ∀ key, ever key → key ≤ head.key.orderKey

theorem rowKept_ran (hkeep : ∀ event ∈ events, event.Keeping k) (hrow : isSelfDrainingBulkTable row = false) :
    RowKept k (ran isUpsert epoch events) row (EverHad isUpsert epoch events row) where
  earliest := by
    intro key hever hleast
    rcases has_or_outlived hkeep hrow hever with hhas | ⟨⟨other, hoth, hlt⟩, -⟩
    · exact hhas
    · exact absurd (hleast other hoth) (not_le.2 hlt)
  newest := by
    intro key hever hfew
    rcases has_or_outlived hkeep hrow hever with hhas | ⟨-, newer, hcard, hnewer⟩
    · exact hhas
    · exact absurd (hfew newer hnewer) (not_lt.2 hcard)
  headed := by
    intro key hever
    obtain ⟨top, htop, -⟩ := ever_below_head hkeep hrow hever
    obtain ⟨head, hfind, -⟩ := Option.map_eq_some_iff.1 htop
    exact ⟨head, hfind⟩
  head := by
    intro head hfind
    have hok : (ran isUpsert epoch events).Retained := retained_ran hkeep
    have hwon := hok.won row hrow
    rw [hfind, Option.map_some] at hwon
    obtain ⟨r, hr, hrow', happ, hkey⟩ := mem_appliedKeys.1 (max?_mem hwon.symm)
    refine ⟨⟨r, hr, hrow', happ, congrArg SqlKey.orderKey hkey⟩, fun key hever => ?_⟩
    obtain ⟨top, htop, hle⟩ := ever_below_head hkeep hrow hever
    rw [hfind, Option.map_some, Option.some.injEq] at htop
    obtain ⟨past, hpast, s, hs, -, -, rfl⟩ := hever
    have hlow : s.key.orderKey.hlc.Low :=
      (retained_ran fun event hev => hkeep event (hpast.subset hev)).low s hs
    rw [← htop, ← hkey, hok.key_eq hr] at hle
    rw [← hkey]
    by_contra hlt
    exact absurd hle (not_le.2 ((SqlKey.of_lt (hok.low r hr) hlow).2 (not_le.1 hlt)))

/-! ### The floor -/

theorem step_floor {db : OplogDb} (h : db.StreamOk) (event : LogEvent) :
    db.compactedThroughSeq ≤ (db.logStep isUpsert event).compactedThroughSeq := by
  cases event with
  | append w =>
    rw [logStep]
    rcases store_cases db w with ⟨-, heq⟩ | ⟨-, -, -, -, hflr, -⟩
    · rw [heq]
    · rw [hflr]
  | compact pass => exact h.compact_floor isUpsert pass

theorem floor_mono {past : List LogEvent} (hkeep : ∀ event ∈ events, event.Keeping k)
    (hpast : past <+: events) :
    (ran isUpsert epoch past).compactedThroughSeq ≤ (ran isUpsert epoch events).compactedThroughSeq := by
  induction events using reverseRecOn with
  | nil => rw [prefix_nil.1 hpast]
  | append_singleton events event ih =>
    obtain ⟨hevs, -⟩ := forall_mem_append.1 hkeep
    rcases prefix_concat_iff.1 hpast with rfl | hpast
    · exact le_rfl
    · rw [ran_concat]
      exact (ih hevs hpast).trans (step_floor (retained_ran hevs).stream event)

end Runs

/-- In every run of appends and passes: rows outside the drained tables keep their earliest op,
their `k` newest and their head; a pass keeps what is pinned and the newest arrival, and deletes
ops and arrivals together; a number handed out is missing only at or below the floor, and the
floor does not fall. -/
theorem retention_keeps (isUpsert : List Byte → Bool) (epoch : Epoch) (k : ℕ) (events : List LogEvent)
    (hkeep : ∀ event ∈ events, event.Keeping k) :
    (∀ row, isSelfDrainingBulkTable row = false →
      RowKept k (ran isUpsert epoch events) row (EverHad isUpsert epoch events row)) ∧
    (∀ past pass, past ++ [.compact pass] <+: events →
      PassKeeps pass (ran isUpsert epoch past) (ran isUpsert epoch (past ++ [.compact pass]))) ∧
    (∀ id, (∃ a ∈ (ran isUpsert epoch events).arrivals, a.opId = id) ↔
      ∃ r ∈ (ran isUpsert epoch events).oplog, r.opId = id) ∧
    (∀ n, 0 < n → n ≤ (ran isUpsert epoch events).lastSeq →
      (∀ a ∈ (ran isUpsert epoch events).arrivals, a.relaySeq ≠ n) →
        n ≤ (ran isUpsert epoch events).compactedThroughSeq) ∧
    ∀ past, past <+: events →
      (ran isUpsert epoch past).compactedThroughSeq ≤ (ran isUpsert epoch events).compactedThroughSeq := by
  have hok : (ran isUpsert epoch events).Retained := retained_ran hkeep
  refine ⟨fun row hrow => rowKept_ran hkeep hrow, fun past pass hpast => ?_, fun id => ⟨?_, ?_⟩,
    fun n _ hle hgone => ?_, fun past hpast => floor_mono hkeep hpast⟩
  · have hpast' : ∀ event ∈ past, event.Keeping k := fun event hev =>
      hkeep event (hpast.subset (List.mem_append_left _ hev))
    rw [ran_concat]
    exact (retained_ran hpast').stream.passKeeps isUpsert pass
  · rintro ⟨a, ha, rfl⟩
    exact hok.arrived a ha
  · rintro ⟨r, hr, rfl⟩
    exact hok.streamed r hr
  · by_contra hlt
    obtain ⟨a, ha, hseq, -⟩ := hok.stream.full n (not_le.1 hlt) hle
    exact hgone a ha hseq

def fourWrites : List LogEvent :=
  [.append ⟨plainRowOp 1 1 10, "rows", "a", 0, 0⟩, .append ⟨plainRowOp 1 2 20, "rows", "a", 0, 0⟩,
    .append ⟨plainRowOp 1 3 30, "rows", "a", 0, 0⟩, .append ⟨plainRowOp 1 4 40, "rows", "a", 0, 0⟩,
    .compact plainPass]

/-- The first and the last of four stay. -/
theorem retention_keeps_two_of_four :
    (∀ event ∈ fourWrites, event.Keeping 1) ∧
    (ran (fun _ => false) (Wire.fill 32 7) fourWrites).oplog.map (·.opId) = [Wire.fill 32 1, Wire.fill 32 4] ∧
    RowKept 1 (ran (fun _ => false) (Wire.fill 32 7) fourWrites) ⟨rowStoreId, "rows", "a"⟩
      (EverHad (fun _ => false) (Wire.fill 32 7) fourWrites ⟨rowStoreId, "rows", "a"⟩) := by
  have hkeep : ∀ event ∈ fourWrites, event.Keeping 1 := by decide
  refine ⟨hkeep, by decide +kernel, ?_⟩
  exact (retention_keeps (fun _ => false) (Wire.fill 32 7) 1 fourWrites hkeep).1 _ (by decide)

end OplogDb

end ProxyNode
