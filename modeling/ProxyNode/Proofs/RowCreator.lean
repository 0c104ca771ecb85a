import ProxyNode.Sanity.SqlOrder

/-! The creator of a row: `origin_device` names the device of the row's first op as long as
no append finds every smaller op of its row compacted away, and outside the drained tables
none does. -/

namespace ProxyNode

open OplogDb List

structure Recorded where
  db : OplogDb
  taken : List LogWrite

namespace Recorded

variable (isUpsert : List Byte → Bool)

def step (s : Recorded) : LogEvent → Recorded
  | .append w => ⟨s.db.store w, if s.db.contains w.op.id then s.taken else s.taken ++ [w]⟩
  | .compact pass => ⟨s.db.compact isUpsert pass, s.taken⟩

def run (epoch : Epoch) (events : List LogEvent) : Recorded := events.foldl (step isUpsert) ⟨empty epoch, []⟩

def keys (s : Recorded) (row : RowRef) : List OrderKey := (s.taken.filter (·.row = row)).map (·.op.orderKey)

def creator (s : Recorded) (row : RowRef) : Option DeviceId := (s.keys row).min?.map (·.device)

def CreatorNamed (s : Recorded) (row : RowRef) : Prop := s.db.originDevice row = s.creator row

/-- An append that cannot put its own device in the creator's place: its op is known, an
older one is still logged, it is the oldest ever, or it comes from the creator. -/
def Undisplaced (s : Recorded) (w : LogWrite) : Prop :=
  s.db.contains w.op.id = true ∨ (∃ r ∈ s.db.oplog, r.row = w.row ∧ r.key.orderKey < w.op.orderKey) ∨
    (∀ key ∈ s.keys w.row, w.op.orderKey ≤ key) ∨ s.creator w.row = some w.op.body.device

/-! ## The invariant -/

structure Ok (s : Recorded) : Prop where
  logged : s.db.Logged
  rows : ∀ r ∈ s.db.oplog, ∃ w ∈ s.taken, SqlKey.of w.op.orderKey = r.key ∧ w.row = r.row
  headed : ∀ row, (s.db.heads.find? (·.row = row)).isSome ↔ ∃ w ∈ s.taken, w.row = row
  low : ∀ w ∈ s.taken, w.op.body.hlc.Low
  /-- Outside the drained tables something at or below each op taken is still logged. -/
  kept : ∀ w ∈ s.taken, isSelfDrainingBulkTable w.row = false →
    ∃ r ∈ s.db.oplog, r.row = w.row ∧ r.key ≤ SqlKey.of w.op.orderKey

theorem ok_empty (epoch : Epoch) : Ok ⟨empty epoch, []⟩ :=
  ⟨logged_empty epoch, by simp [empty], by simp [empty], by simp, by simp⟩

variable {s : Recorded}

variable {row : RowRef}

theorem mem_keys {key : OrderKey} :
    key ∈ s.keys row ↔ ∃ w ∈ s.taken, w.row = row ∧ w.op.orderKey = key := by
  simp [keys, and_assoc]

theorem contains_iff {db : OplogDb} {id : OpId} : db.contains id = true ↔ ∃ r ∈ db.oplog, r.opId = id := by
  simp [OplogDb.contains]

theorem not_contains {db : OplogDb} {id : OpId} (hnew : ∀ r ∈ db.oplog, r.opId ≠ id) :
    ¬ db.contains id = true := by
  intro hc
  obtain ⟨r, hr, hid⟩ := contains_iff.1 hc
  exact hnew r hr hid

variable {w : LogWrite}

theorem step_known (hkn : ∃ r ∈ s.db.oplog, r.opId = w.op.id) (heq : s.db.store w = s.db) :
    s.step isUpsert (.append w) = s := by
  simp only [step, contains_iff.2 hkn, heq, if_true]

theorem step_new (hnew : ∀ r ∈ s.db.oplog, r.opId ≠ w.op.id) :
    s.step isUpsert (.append w) = ⟨s.db.store w, s.taken ++ [w]⟩ := by
  simp only [step, not_contains hnew, if_false, Bool.false_eq_true]

theorem Ok.append (h : s.Ok) (hlow : w.op.body.hlc.Low) : (s.step isUpsert (.append w)).Ok := by
  rcases store_cases s.db w with ⟨hkn, heq⟩ | ⟨hnew, hlog, -, -, -, hheads⟩
  · rwa [step_known isUpsert hkn heq]
  rw [step_new isUpsert hnew]
  refine ⟨h.logged.store w, ?_, fun row => ?_, ?_, ?_⟩
  · intro r hr
    rw [hlog, mem_append, mem_singleton] at hr
    rcases hr with hr | rfl
    · obtain ⟨w', hw', hsame⟩ := h.rows r hr
      exact ⟨w', mem_append_left _ hw', hsame⟩
    · exact ⟨w, mem_append_right _ (mem_singleton_self w), rfl, rfl⟩
  · have hsome :=
      congrArg Option.isSome (upsertHead_find? (s.db.withOp w.op w.table w.rowPk w.origin w.now) w.op w.row row)
    rw [Option.isSome_map] at hsome
    rw [hheads, hsome]
    by_cases hw : row = w.row
    · rw [if_pos hw]
      simp [hw]
    · rw [if_neg hw, Option.isSome_map]
      have hsame : (s.db.withOp w.op w.table w.rowPk w.origin w.now).heads = s.db.heads := rfl
      rw [hsame, h.headed row]
      simp [Ne.symm hw]
  · intro w' hw'
    rcases mem_append.1 hw' with hw' | hw'
    · exact h.low w' hw'
    · rwa [mem_singleton.1 hw']
  · intro w' hw' hrow
    rw [hlog]
    rcases mem_append.1 hw' with hw' | hw'
    · obtain ⟨r, hr, hrest⟩ := h.kept w' hw' hrow
      exact ⟨r, mem_append_left _ hr, hrest⟩
    · rw [mem_singleton.1 hw']
      exact ⟨_, mem_append_right _ (mem_singleton_self _), rfl, le_rfl⟩

/-- The oldest op logged for a row has none below it, so no pass finds it. -/
theorem Ok.compact (h : s.Ok) (pass : CompactionPass) : (s.step isUpsert (.compact pass)).Ok := by
  have hall := compact_induct isUpsert pass
    (fun db' => db'.oplog.Sublist s.db.oplog ∧
      (∀ row, (db'.heads.find? (·.row = row)).isSome = (s.db.heads.find? (·.row = row)).isSome) ∧
      ∀ r ∈ s.db.oplog, isSelfDrainingBulkTable r.row = false → s.db.hasOlder r = false → r ∈ db'.oplog)
    ⟨List.Sublist.refl _, fun _ => rfl, fun r hr _ _ => hr⟩ ?_
  · refine ⟨h.logged.compact isUpsert pass, fun r hr => h.rows r (hall.1.subset hr), fun row => ?_, h.low, ?_⟩
    · exact (iff_of_eq (congrArg (· = true) (hall.2.1 row))).trans (h.headed row)
    · intro w hw hrow
      obtain ⟨r, hr, hrrow, hle⟩ := h.kept w hw hrow
      have happ : r ∈ s.db.appliedRows w.row := by
        obtain ⟨op, -, happ, -⟩ := h.logged.holds r hr
        simp [appliedRows, hr, hrrow, happ]
      cases hleast : (s.db.appliedRows w.row).least (·.key) with
      | none =>
        rw [least_eq_none] at hleast
        rw [hleast] at happ
        exact absurd happ not_mem_nil
      | some t =>
        obtain ⟨ht, htle⟩ := least_spec hleast
        have ht' : t ∈ s.db.oplog ∧ t.row = w.row ∧ t.applied = true := by simpa [appliedRows] using ht
        refine ⟨t, hall.2.2 t ht'.1 (by rw [ht'.2.1]; exact hrow) ?_, ht'.2.1, (htle r happ).trans hle⟩
        rw [hasOlder, ht'.2.1, any_eq_false]
        intro u hu
        simpa using htle u hu
  intro db' chunk hchk hdb'
  refine ⟨deleteOpsChunk_oplog_sublist.trans hdb'.1, fun row => ?_, fun r hr hrow holder => ?_⟩
  · have hkey : ((db'.deleteOpsChunk isUpsert pass.pins chunk).heads.find? (·.row = row)).map (·.key) =
        (db'.heads.find? (·.row = row)).map (·.key) := deleteOpsChunk_headKey row
    have hsome := congrArg Option.isSome hkey
    rw [Option.isSome_map, Option.isSome_map] at hsome
    rw [hsome, hdb'.2.1 row]
  · refine mem_deleteOpsChunk_oplog.2 ⟨hdb'.2.2 r hr hrow holder, ?_⟩
    rw [hit, decide_eq_false_iff_not]
    rintro ⟨hid, -⟩
    obtain ⟨c, hc, hcid⟩ := mem_map.1 hid
    obtain ⟨a, r', hjoin, hr'id, -, -, hdrn, -⟩ := (hchk c hc).found
    obtain rfl : r' = r :=
      inj_on_of_nodup_map h.logged.stream.ids (mem_of_find?_eq_some (mem_joined.1 hjoin).2) hr
        (hr'id.trans hcid)
    simp [drained, hrow, holder] at hdrn

theorem Ok.run (epoch : Epoch) {events : List LogEvent}
    (hlow : ∀ w, .append w ∈ events → w.op.body.hlc.Low) : (run isUpsert epoch events).Ok := by
  induction events using reverseRecOn with
  | nil => exact ok_empty epoch
  | append_singleton events event ih =>
    have hs := ih fun w hw => hlow w (mem_append_left _ hw)
    rw [Recorded.run, foldl_append]
    cases event with
    | append w => exact hs.append isUpsert (hlow w (mem_append_right _ (mem_singleton_self _)))
    | compact pass => exact hs.compact isUpsert pass

/-! ## The device kept with the head -/

/-- The device `upsertHead` leaves: the op's own, unless an older op is logged. -/
theorem upsertHead_origin (db : OplogDb) (op : SignedOp) (row row' : RowRef) :
    ((db.upsertHead op row).heads.find? (·.row = row')).map (·.originDevice) =
      if row' = row then
        some (if db.oplog.any (fun r => r.row = row && r.applied && r.key < SqlKey.of op.orderKey) then
          ((db.heads.find? (·.row = row)).map (·.originDevice)).getD op.body.device
        else op.body.device)
      else (db.heads.find? (·.row = row')).map (·.originDevice) := by
  rw [upsertHead_head]
  split
  · rw [Option.map_some, mergedHead]
    cases db.heads.find? (·.row = row) with
    | none => split <;> rfl
    | some h =>
      simp only [Option.elim_some, Option.map_some, Option.getD_some]
      split
      · split <;> rfl
      · rfl
  · rfl

theorem Ok.originDevice_eq (h : s.Ok) (row : RowRef) :
    s.db.originDevice row = (s.db.heads.find? (·.row = row)).map (·.originDevice) := by
  rw [originDevice]
  cases hfind : s.db.heads.find? (·.row = row) with
  | some head => rfl
  | none =>
    have hnone : s.db.appliedRows row = [] := by
      rw [eq_nil_iff_forall_not_mem]
      intro r hr
      have hr' : r ∈ s.db.oplog ∧ r.row = row ∧ r.applied = true := by simpa [appliedRows] using hr
      obtain ⟨w, hw, -, hrow⟩ := h.rows r hr'.1
      have hsome := (h.headed row).2 ⟨w, hw, hrow.trans hr'.2.1⟩
      rw [hfind] at hsome
      exact Bool.noConfusion hsome
    rw [hnone]
    rfl

theorem min?_concat (keys : List OrderKey) (key : OrderKey) :
    (keys ++ [key]).min? = some (keys.min?.elim key (min · key)) := by
  cases keys with
  | nil => rfl
  | cons k keys => rw [cons_append, min?_cons', min?_cons', foldl_append]; rfl

theorem keys_append (db : OplogDb) (w : LogWrite) (row : RowRef) :
    keys ⟨db, s.taken ++ [w]⟩ row = s.keys row ++ if w.row = row then [w.op.orderKey] else [] := by
  rw [keys, keys, filter_append, map_append]
  congr 1
  by_cases h : w.row = row <;> simp [h]

/-- An older op of the row is logged, said of the columns and of the keys. -/
theorem Ok.older_iff (h : s.Ok) (hlow : w.op.body.hlc.Low) :
    ((s.db.withOp w.op w.table w.rowPk w.origin w.now).oplog.any
        fun r => r.row = w.row && r.applied && r.key < SqlKey.of w.op.orderKey) = true ↔
      ∃ r ∈ s.db.oplog, r.row = w.row ∧ r.key.orderKey < w.op.orderKey := by
  have hlt : ∀ r ∈ s.db.oplog, r.key < SqlKey.of w.op.orderKey ↔ r.key.orderKey < w.op.orderKey := by
    intro r hr
    obtain ⟨w', hw', hkey, -⟩ := h.rows r hr
    rw [← hkey, SqlKey.orderKey_of]
    exact SqlKey.of_lt_same (iff_of_true (h.low w' hw') hlow)
  have hlog : (s.db.withOp w.op w.table w.rowPk w.origin w.now).oplog =
      s.db.oplog ++ [logRow w.op w.table w.rowPk w.origin] := rfl
  rw [any_eq_true, hlog]
  refine ⟨?_, ?_⟩
  · rintro ⟨r, hr, hrow⟩
    simp only [Bool.and_eq_true, decide_eq_true_eq] at hrow
    rcases mem_append.1 hr with hr | hr
    · exact ⟨r, hr, hrow.1.1, (hlt r hr).1 hrow.2⟩
    · rw [mem_singleton.1 hr] at hrow
      exact absurd hrow.2 (lt_irrefl _)
  · rintro ⟨r, hr, hrow, hkey⟩
    obtain ⟨op, -, happ, -⟩ := h.logged.holds r hr
    refine ⟨r, mem_append_left _ hr, ?_⟩
    simp [hrow, happ, (hlt r hr).2 hkey]

/-- Where the creator is named, an append keeps it so exactly if it is undisplaced. -/
theorem Ok.append_named_iff (h : s.Ok) (hlow : w.op.body.hlc.Low) (hnam : s.CreatorNamed row) :
    (s.step isUpsert (.append w)).CreatorNamed row ↔ (w.row = row → s.Undisplaced w) := by
  have hok := h.append isUpsert hlow
  rcases store_cases s.db w with ⟨hkn, heq⟩ | ⟨hnew, -, -, -, -, hheads⟩
  · rw [step_known isUpsert hkn heq]
    exact iff_of_true hnam fun _ => Or.inl (contains_iff.2 hkn)
  rw [step_new isUpsert hnew] at hok ⊢
  rw [CreatorNamed, h.originDevice_eq] at hnam
  rw [CreatorNamed, hok.originDevice_eq, creator, keys_append]
  simp only [hheads, upsertHead_origin]
  have hsame : (s.db.withOp w.op w.table w.rowPk w.origin w.now).heads = s.db.heads := rfl
  rw [hsame]
  by_cases hw : w.row = row
  swap
  · rw [if_neg (Ne.symm hw), if_neg hw, append_nil]
    exact iff_of_true hnam fun hrow => absurd hrow hw
  subst hw
  rw [if_pos rfl, if_pos rfl, hnam, min?_concat]
  have hund : s.Undisplaced w ↔ (∃ r ∈ s.db.oplog, r.row = w.row ∧ r.key.orderKey < w.op.orderKey) ∨
      (∀ key ∈ s.keys w.row, w.op.orderKey ≤ key) ∨ s.creator w.row = some w.op.body.device :=
    or_iff_right (not_contains hnew)
  simp only [h.older_iff hlow, forall_const, hund, creator]
  by_cases holder : ∃ r ∈ s.db.oplog, r.row = w.row ∧ r.key.orderKey < w.op.orderKey
  · obtain ⟨r, hr, hrow, hlt⟩ := holder
    obtain ⟨w', hw', hkey, hrow'⟩ := h.rows r hr
    have hmem : r.key.orderKey ∈ s.keys w.row :=
      mem_keys.2 ⟨w', hw', hrow'.trans hrow, by rw [← hkey, SqlKey.orderKey_of]⟩
    obtain ⟨m, hm⟩ : ∃ m, (s.keys w.row).min? = some m :=
      Option.isSome_iff_exists.1 (isSome_min?_of_mem hmem)
    have hle := (min?_eq_some_iff.1 hm).2 _ hmem
    rw [if_pos ⟨r, hr, hrow, hlt⟩, hm]
    refine iff_of_true ?_ (.inl ⟨r, hr, hrow, hlt⟩)
    rw [Option.elim_some, min_eq_left (hle.trans hlt.le)]
    rfl
  · rw [if_neg holder]
    cases hm : (s.keys w.row).min? with
    | none =>
      rw [min?_eq_none_iff] at hm
      refine iff_of_true rfl (.inr (.inl ?_))
      simp [hm]
    | some m =>
      obtain ⟨hmem, hle⟩ := min?_eq_some_iff.1 hm
      simp only [Option.elim_some, Option.map_some, holder, false_or]
      by_cases hlt : m < w.op.orderKey
      · have hleast : ¬∀ key ∈ s.keys w.row, w.op.orderKey ≤ key := fun hall => absurd hlt (not_lt.2 (hall m hmem))
        rw [min_eq_left hlt.le]
        simp only [hleast, false_or]
        exact eq_comm
      · rw [min_eq_right (not_lt.1 hlt)]
        exact iff_of_true rfl (.inl fun key hkey => (not_lt.1 hlt).trans (hle key hkey))

/-- A pass leaves every head its device. -/
theorem Ok.compact_named (h : s.Ok) (pass : CompactionPass) (hnam : s.CreatorNamed row) :
    (s.step isUpsert (.compact pass)).CreatorNamed row := by
  have hkept := compact_induct isUpsert pass
    (fun db' => (db'.heads.find? (·.row = row)).map (·.originDevice) =
      (s.db.heads.find? (·.row = row)).map (·.originDevice)) rfl ?_
  · rw [CreatorNamed, (h.compact isUpsert pass).originDevice_eq]
    rw [CreatorNamed, h.originDevice_eq, ← hkept] at hnam
    exact hnam
  intro db' chunk _ hdb'
  have hheads : ((db'.deleteOpsChunk isUpsert pass.pins chunk).heads.find? (·.row = row)).map
      (fun h => (h.key, h.originDevice)) = (db'.heads.find? (·.row = row)).map fun h => (h.key, h.originDevice) :=
    deleteOpsChunk_heads row
  have horg := congrArg (Option.map Prod.snd) hheads
  rw [Option.map_map, Option.map_map] at horg
  exact horg.trans hdb'

/-- Outside the drained tables every append is undisplaced. -/
theorem Ok.undisplaced (h : s.Ok) (hrow : isSelfDrainingBulkTable w.row = false) : s.Undisplaced w := by
  by_cases hleast : ∀ key ∈ s.keys w.row, w.op.orderKey ≤ key
  · exact .inr (.inr (.inl hleast))
  obtain ⟨key, hnot⟩ := not_forall.1 hleast
  obtain ⟨hkey, hlt⟩ := Classical.not_imp.1 hnot
  obtain ⟨w', hw', hrow', rfl⟩ := mem_keys.1 hkey
  obtain ⟨r, hr, hrrow, hle⟩ := h.kept w' hw' (by rwa [hrow'])
  refine .inr (.inl ⟨r, hr, hrrow.trans hrow', ?_⟩)
  obtain ⟨w'', hw'', hkey'', -⟩ := h.rows r hr
  rw [← hkey''] at hle ⊢
  rw [SqlKey.orderKey_of]
  refine lt_of_le_of_lt (not_lt.1 fun hlt' => ?_) (not_le.1 hlt)
  exact absurd ((SqlKey.of_lt_same (iff_of_true (h.low w' hw') (h.low w'' hw''))).2 hlt') (not_lt.2 hle)

/-! ## Whole runs -/

theorem run_concat (epoch : Epoch) (events : List LogEvent) (event : LogEvent) :
    run isUpsert epoch (events ++ [event]) = (run isUpsert epoch events).step isUpsert event := by
  rw [run, run, foldl_append]
  rfl

theorem run_db (epoch : Epoch) (events : List LogEvent) :
    (run isUpsert epoch events).db = (empty epoch).logRun isUpsert events := by
  induction events using reverseRecOn with
  | nil => rfl
  | append_singleton events event ih =>
    rw [logRun] at ih
    rw [run_concat, logRun, foldl_append, ← ih]
    cases event <;> rfl

theorem named_empty (epoch : Epoch) (row : RowRef) : (run isUpsert epoch []).CreatorNamed row := rfl

theorem named_of_undisplaced (epoch : Epoch) (row : RowRef) {events : List LogEvent}
    (hlow : ∀ w, .append w ∈ events → w.op.body.hlc.Low)
    (hund : ∀ before w after, events = before ++ .append w :: after → w.row = row →
      (run isUpsert epoch before).Undisplaced w) :
    (run isUpsert epoch events).CreatorNamed row := by
  induction events using reverseRecOn with
  | nil => exact named_empty isUpsert epoch row
  | append_singleton events event ih =>
    have hlow' : ∀ w, .append w ∈ events → w.op.body.hlc.Low := fun w hw => hlow w (mem_append_left _ hw)
    have hok := Ok.run isUpsert epoch hlow'
    have hnam := ih hlow' fun before w after heq hrow =>
      hund before w (after ++ [event]) (by rw [heq]; simp) hrow
    rw [run_concat]
    cases event with
    | append w =>
      exact (hok.append_named_iff isUpsert (hlow w (by simp)) hnam).2 (hund events w [] rfl)
    | compact pass => exact hok.compact_named isUpsert pass hnam

/-- The creator of a row is named all along a run exactly if no append to the row displaces
it; outside the drained tables it is named after every run. -/
theorem row_creator_named_iff (epoch : Epoch) (events : List LogEvent)
    (hlow : ∀ w, .append w ∈ events → w.op.body.hlc.val < 2 ^ 63) (row : RowRef) :
    ((∀ before after, events = before ++ after → (run isUpsert epoch before).CreatorNamed row) ↔
        ∀ before w after, events = before ++ .append w :: after → w.row = row →
          (run isUpsert epoch before).Undisplaced w) ∧
      (isSelfDrainingBulkTable row = false →
        ((empty epoch).logRun isUpsert events).originDevice row = (run isUpsert epoch events).creator row) := by
  refine ⟨⟨fun hnam before w after heq => ?_, fun hund before after heq => ?_⟩, fun hrow => ?_⟩
  · have hlow' : ∀ w', .append w' ∈ before → w'.op.body.hlc.Low := fun w' hw' =>
      hlow w' (by rw [heq]; exact List.mem_append_left _ hw')
    have hstep := hnam (before ++ [.append w]) after (by rw [heq]; simp)
    rw [run_concat] at hstep
    exact ((Ok.run isUpsert epoch hlow').append_named_iff isUpsert (hlow w (by rw [heq]; simp))
      (hnam before _ heq)).1 hstep
  · refine named_of_undisplaced isUpsert epoch row
      (fun w hw => hlow w (by rw [heq]; exact List.mem_append_left _ hw)) fun before' w after' heq' => ?_
    exact hund before' w (after' ++ after) (by rw [heq, heq']; simp)
  · rw [← run_db]
    refine named_of_undisplaced isUpsert epoch row hlow fun before w after heq hw => ?_
    refine (Ok.run isUpsert epoch fun w' hw' => ?_).undisplaced (by rwa [hw])
    exact hlow w' (by rw [heq]; exact List.mem_append_left _ hw')

end Recorded

def rewrittenRun (table : String) : List LogEvent :=
  [.append ⟨plainRowOp 1 1 1, table, "a", originLocal, 0⟩, .append ⟨plainRowOp 1 2 2, table, "b", originLocal, 0⟩,
    .compact plainPass, .append ⟨plainRowOp 2 3 3, table, "a", originLocal, 0⟩]

theorem row_creator_named_notes :
    ((empty (Wire.fill 32 7)).logRun (fun _ => false) (rewrittenRun "notes")).originDevice ⟨rowStoreId, "notes",
      "a"⟩ =
        some (Wire.fill 32 1) ∧
      ((empty (Wire.fill 32 7)).logRun (fun _ => false) (rewrittenRun "notes")).originDevice ⟨rowStoreId,
        "notes", "a"⟩ =
        (Recorded.run (fun _ => false) (Wire.fill 32 7) (rewrittenRun "notes")).creator ⟨rowStoreId, "notes",
          "a"⟩ := by
  refine ⟨by decide +kernel, ?_⟩
  refine (Recorded.row_creator_named_iff (fun _ => false) (Wire.fill 32 7) (rewrittenRun "notes") ?_
    ⟨rowStoreId, "notes", "a"⟩).2 (by decide)
  simp [rewrittenRun, plainRowOp]

/-- In a drained table the second device takes the creator's place. -/
theorem row_creator_displaced :
    ((empty (Wire.fill 32 7)).logRun (fun _ => false) (rewrittenRun "items")).originDevice
        ⟨rowStoreId, "items", "a"⟩ = some (Wire.fill 32 2) ∧
      (Recorded.run (fun _ => false) (Wire.fill 32 7) (rewrittenRun "items")).creator ⟨rowStoreId, "items", "a"⟩ =
        some (Wire.fill 32 1) := by
  decide +kernel

end ProxyNode
