import ProxyNode.Sanity.SqlOrder

/-! The reads of the op log in SQLite against the same reads by order key: they agree
exactly where no reading is on the other side of `2^63`. -/

namespace ProxyNode

open SqlKey List

namespace OplogDb

/-! ## The reads by order key -/

def headByKey (db : OplogDb) : Option OrderKey := (db.oplog.map (·.key.orderKey)).max?

def sinceByKey (db : OplogDb) (cursor : OrderKey) (limit : ℕ) : List SignedOp :=
  (((db.oplog.filter fun r => cursor < r.key.orderKey).orderBy (·.key.orderKey)).take limit).filterMap fun r =>
    (SignedOp.fromBytes r.envelope).toOption

def winnerByKey (db : OplogDb) (row : RowRef) : Option OrderKey :=
  ((db.appliedRows row).map (·.key.orderKey)).max?

def newestByKey (db : OplogDb) (row : RowRef) (exclude : OpId) : Option OrderKey :=
  (((db.appliedRows row).filter (·.opId ≠ exclude)).map (·.key.orderKey)).max?

def originSinceByKey (db : OplogDb) (origin : DeviceId) (after : Option OrderKey) (limit : ℕ) :
    List OriginEnvelopeRow :=
  (((db.oplog.filter fun r => r.device = origin ∧ after.all (· < r.key.orderKey)).orderBy (·.key.orderKey)).take
    limit).map fun r => (r.key.orderKey, r.envelope)

def headKey (db : OplogDb) (row : RowRef) : Option OrderKey :=
  (db.heads.find? (·.row = row)).map (·.key.orderKey)

variable {db : OplogDb}

theorem sqlLimit_eq {α : Type*} {rows : List α} (h : rows.length < 2 ^ 63) (limit : ℕ) :
    sqlLimit limit rows = rows.take limit := by
  rw [sqlLimit]
  split_ifs with hl
  · rfl
  · exact (take_of_length_le (by omega)).symm

/-! ## Greatest keys -/

theorem Stored.map_key (h : db.Stored) {rows : List OplogRow} (hsub : ∀ r ∈ rows, r ∈ db.oplog) :
    rows.map (·.key) = (rows.map (·.key.orderKey)).map of := by
  rw [map_map]
  refine map_congr_left fun r hr => ?_
  obtain ⟨op, hop, -⟩ := h.holds r (hsub r hr)
  exact hop.key_eq

theorem Stored.max?_iff (h : db.Stored) {rows : List OplogRow} (hsub : ∀ r ∈ rows, r ∈ db.oplog) :
    (rows.map (·.key)).max?.map orderKey = (rows.map (·.key.orderKey)).max? ↔
      OneSide (rows.map (·.key.orderKey)) := by
  rw [h.map_key hsub]
  exact max?_of_iff _

theorem Stored.head_iff (h : db.Stored) : db.head = db.headByKey ↔ OneSide (db.oplog.map (·.key.orderKey)) := by
  have hhead : db.head = (db.oplog.map (·.key)).max?.map orderKey := by
    rw [head, ← greatest_map_key, Option.map_map]
    rfl
  rw [hhead]
  exact h.max?_iff fun _ hr => hr

theorem Stored.headKey_iff (h : db.Stored) (row : RowRef) :
    db.headKey row = db.winnerByKey row ↔ OneSide ((db.appliedRows row).map (·.key.orderKey)) := by
  have hkey : db.headKey row = ((db.appliedRows row).map (·.key)).max?.map orderKey := by
    have hmax := congrArg (Option.map orderKey) (h.heads row)
    rw [Option.map_map] at hmax
    exact hmax
  rw [hkey]
  exact h.max?_iff fun _ hr => (mem_filter.1 hr).1

theorem Stored.newest_iff (h : db.Stored) (row : RowRef) (exclude : OpId) :
    db.newestAppliedInStore row exclude = db.newestByKey row exclude ↔
      OneSide (((db.appliedRows row).filter (·.opId ≠ exclude)).map (·.key.orderKey)) := by
  have hoth : db.otherKeys row exclude = ((db.appliedRows row).filter (·.opId ≠ exclude)).map (·.key) := by
    rw [otherKeys, appliedRows, filter_filter]
    congr 2
    funext r
    exact Bool.and_comm _ _
  rw [newestAppliedInStore_eq h.heads, hoth]
  exact h.max?_iff fun _ hr => (mem_filter.1 (mem_filter.1 hr).1).1

/-! ## Pages -/

theorem Stored.keys_nodup (h : db.Stored) : (db.oplog.map (·.key.orderKey)).Nodup := by
  refine List.Nodup.of_map OrderKey.opId ?_
  rw [map_map]
  exact h.stream.ids

theorem Stored.sqlKeys_nodup (h : db.Stored) : (db.oplog.map (·.key)).Nodup := by
  refine List.Nodup.of_map opId ?_
  rw [map_map]
  exact h.stream.ids

/-- Rows on one side of `2^63` are read alike by both keys. -/
theorem Stored.orderBy_eq (h : db.Stored) {p : OplogRow → Bool}
    (hside : ∀ r ∈ db.oplog, ∀ s ∈ db.oplog, p r = true → p s = true →
      (r.key.orderKey.hlc.Low ↔ s.key.orderKey.hlc.Low)) :
    (db.oplog.filter p).orderBy (·.key) = (db.oplog.filter p).orderBy (·.key.orderKey) := by
  refine orderBy_congr (h.keys_nodup.sublist (filter_sublist.map _)) ?_
  intro r hr s hs hlt
  obtain ⟨hr, hpr⟩ := mem_filter.1 hr
  obtain ⟨hs, hps⟩ := mem_filter.1 hs
  obtain ⟨op, hop, -⟩ := h.holds r hr
  obtain ⟨op', hop', -⟩ := h.holds s hs
  rw [hop.key_eq, hop'.key_eq]
  exact (of_lt_same (hside r hr s hs hpr hps)).2 hlt

/-- The rows a page after `cursor` reads on its own side. -/
def sameSide (cursor : OrderKey) (r : OplogRow) : Bool :=
  cursor < r.key.orderKey ∧ (r.key.orderKey.hlc.Low ↔ cursor.hlc.Low)

theorem Stored.sameSide_orderBy (h : db.Stored) (cursor : OrderKey) :
    (db.oplog.filter (sameSide cursor)).orderBy (·.key) =
      (db.oplog.filter (sameSide cursor)).orderBy (·.key.orderKey) := by
  refine h.orderBy_eq fun r _ s _ hr hs => ?_
  simp only [sameSide, decide_eq_true_eq] at hr hs
  exact hr.2.trans hs.2.symm

variable {cursor : OrderKey} {r : OplogRow}

theorem Stored.lt_iff_same (h : db.Stored) (hr : r ∈ db.oplog) (hside : r.key.orderKey.hlc.Low ↔ cursor.hlc.Low) :
    of cursor < r.key ↔ cursor < r.key.orderKey := by
  obtain ⟨op, hop, -⟩ := h.holds r hr
  conv_lhs => rw [hop.key_eq]
  exact of_lt_same hside.symm

/-- Behind a low cursor SQL leaves out the high rows, which come last by order key. -/
theorem Stored.since_rows_low (h : db.Stored) (hlow : cursor.hlc.Low) :
    (db.oplog.filter fun r => of cursor < r.key).orderBy (·.key) =
        (db.oplog.filter (sameSide cursor)).orderBy (·.key.orderKey) ∧
      (db.oplog.filter fun r => cursor < r.key.orderKey).orderBy (·.key.orderKey) =
        (db.oplog.filter (sameSide cursor)).orderBy (·.key.orderKey) ++
          (db.oplog.filter fun r => ¬r.key.orderKey.hlc.Low).orderBy (·.key.orderKey) := by
  have hhigh : ∀ r ∈ db.oplog, ¬r.key.orderKey.hlc.Low → ¬of cursor < r.key ∧ cursor < r.key.orderKey := by
    intro r hr hr'
    obtain ⟨op, hop, -⟩ := h.holds r hr
    refine ⟨?_, OrderKey.lt_across hlow hr'⟩
    rw [hop.key_eq]
    exact (of_lt_across hlow hr').not_gt
  refine ⟨?_, ?_⟩
  · rw [← h.sameSide_orderBy cursor]
    congr 1
    refine filter_congr fun r hr => ?_
    by_cases hside : r.key.orderKey.hlc.Low
    · simp [sameSide, h.lt_iff_same hr (iff_of_true hside hlow), hside, hlow]
    · simp [sameSide, (hhigh r hr hside).1, hside, hlow]
  · rw [orderBy_split (h.keys_nodup.sublist (filter_sublist.map _)) (fun r => r.key.orderKey.hlc.Low)]
    · rw [filter_filter, filter_filter]
      congr 2
      · exact filter_congr fun r _ => by simp [sameSide, hlow, Bool.and_comm]
      · refine filter_congr fun r hr => ?_
        by_cases hside : r.key.orderKey.hlc.Low
        · simp [hside]
        · simp [hside, (hhigh r hr hside).2]
    · intro r _ s _ hr hs
      exact OrderKey.lt_across (by simpa using hr) (by simpa using hs)

/-- Behind a high cursor SQL reads the low rows too, last. -/
theorem Stored.since_rows_high (h : db.Stored) (hlow : ¬cursor.hlc.Low) :
    (db.oplog.filter fun r => of cursor < r.key).orderBy (·.key) =
        (db.oplog.filter (sameSide cursor)).orderBy (·.key.orderKey) ++
          (db.oplog.filter fun r => r.key.orderKey.hlc.Low).orderBy (·.key) ∧
      (db.oplog.filter fun r => cursor < r.key.orderKey).orderBy (·.key.orderKey) =
        (db.oplog.filter (sameSide cursor)).orderBy (·.key.orderKey) := by
  have hhigh : ∀ r ∈ db.oplog, r.key.orderKey.hlc.Low → of cursor < r.key ∧ ¬cursor < r.key.orderKey := by
    intro r hr hr'
    obtain ⟨op, hop, -⟩ := h.holds r hr
    refine ⟨?_, (OrderKey.lt_across hr' hlow).not_gt⟩
    rw [hop.key_eq]
    exact of_lt_across hr' hlow
  refine ⟨?_, ?_⟩
  · rw [orderBy_split (h.sqlKeys_nodup.sublist (filter_sublist.map _))
      (fun r => ¬r.key.orderKey.hlc.Low),
      filter_filter, filter_filter, ← h.sameSide_orderBy cursor]
    · congr 2
      · refine filter_congr fun r hr => ?_
        by_cases hside : r.key.orderKey.hlc.Low
        · simp [sameSide, hside, hlow]
        · simp [sameSide, h.lt_iff_same hr (iff_of_false hside hlow), hside, hlow]
      · refine filter_congr fun r hr => ?_
        by_cases hside : r.key.orderKey.hlc.Low
        · simp [hside, (hhigh r hr hside).1]
        · simp [hside]
    · intro r hr s hs hr' hs'
      obtain ⟨op, hop, -⟩ := h.holds r (mem_filter.1 hr).1
      obtain ⟨op', hop', -⟩ := h.holds s (mem_filter.1 hs).1
      rw [hop.key_eq, hop'.key_eq]
      exact of_lt_across (by simpa using hs') (by simpa using hr')
  · congr 1
    refine filter_congr fun r hr => ?_
    by_cases hside : r.key.orderKey.hlc.Low
    · simp [sameSide, (hhigh r hr hside).2, hside, hlow]
    · simp [sameSide, hside, hlow]

/-- A page read in SQL and the page by order key start alike; the rows of the other side
follow in one of them. -/
theorem Stored.since_rows (h : db.Stored) (cursor : OrderKey) :
    ∃ page rest, (∀ r, r ∈ rest ↔ r ∈ db.oplog ∧ ¬(r.key.orderKey.hlc.Low ↔ cursor.hlc.Low)) ∧
      (((db.oplog.filter fun r => of cursor < r.key).orderBy (·.key) = page ∧
          (db.oplog.filter fun r => cursor < r.key.orderKey).orderBy (·.key.orderKey) = page ++ rest) ∨
        ((db.oplog.filter fun r => of cursor < r.key).orderBy (·.key) = page ++ rest ∧
          (db.oplog.filter fun r => cursor < r.key.orderKey).orderBy (·.key.orderKey) = page)) := by
  by_cases hlow : cursor.hlc.Low
  · refine ⟨_, _, fun r => ?_, .inl (h.since_rows_low hlow)⟩
    simp [hlow]
  · refine ⟨_, _, fun r => ?_, .inr (h.since_rows_high hlow)⟩
    simp [hlow]

/-- Pages after a cursor agree exactly when every op that can be served is on its side. -/
theorem Stored.since_iff (h : db.Stored) (hlen : db.oplog.length < 2 ^ 63) (cursor : OrderKey) :
    (∀ limit, db.since cursor limit = db.sinceByKey cursor limit) ↔
      ∀ r ∈ db.oplog, (SignedOp.fromBytes r.envelope).toOption.isSome = true →
        (r.key.orderKey.hlc.Low ↔ cursor.hlc.Low) := by
  obtain ⟨page, rest, hrest, hrows⟩ := h.since_rows cursor
  have hcond : (∀ r ∈ rest, (SignedOp.fromBytes r.envelope).toOption = none) ↔
      ∀ r ∈ db.oplog, (SignedOp.fromBytes r.envelope).toOption.isSome = true →
        (r.key.orderKey.hlc.Low ↔ cursor.hlc.Low) := by
    constructor
    · intro hnone r hr hsome
      by_contra hside
      rw [hnone r ((hrest r).2 ⟨hr, hside⟩)] at hsome
      exact Bool.noConfusion hsome
    · intro hside r hr
      obtain ⟨hr, hne⟩ := (hrest r).1 hr
      by_contra hsome
      exact hne (hside r hr (Option.isSome_iff_ne_none.2 hsome))
  have hlim : ∀ limit, sqlLimit limit ((db.oplog.filter fun r => of cursor < r.key).orderBy (·.key)) =
      ((db.oplog.filter fun r => of cursor < r.key).orderBy (·.key)).take limit := by
    refine sqlLimit_eq (lt_of_le_of_lt ?_ hlen)
    rw [length_orderBy]
    exact length_filter_le _ _
  rw [← hcond, ← filterMap_take_append_iff]
  simp only [since, sinceByKey, hlim]
  rcases hrows with ⟨hsql, hkey⟩ | ⟨hsql, hkey⟩
  · simp only [hsql, hkey]
    exact forall_congr' fun n => eq_comm
  · simp only [hsql, hkey]

/-! ## One origin -/

/-- `(hlc, op_id)`, the key one origin's rows are read by. -/
def originKey (r : OplogRow) : ℤ ×ₗ List Byte := toLex (r.hlc, r.opId.1)

def originRows (db : OplogDb) (origin : DeviceId) (bound : ℤ ×ₗ List Byte) : List OplogRow :=
  (db.oplog.filter fun r => r.device = origin ∧ bound < originKey r).orderBy originKey

def originRowsByKey (db : OplogDb) (origin : DeviceId) (after : Option OrderKey) : List OplogRow :=
  (db.oplog.filter fun r => r.device = origin ∧ after.all (· < r.key.orderKey)).orderBy (·.key.orderKey)

theorem originKey_eq {op : SignedOp} (h : r.Holds op) :
    originKey r = toLex (asI64 r.key.orderKey.hlc, r.key.orderKey.opId.1) := by
  have hhlc : r.hlc = asI64 r.key.orderKey.hlc := by
    rw [OplogRow.hlc, h.key, orderKey_of]
    rfl
  rw [originKey, hhlc]
  rfl

theorem Stored.originKeys_nodup (h : db.Stored) : (db.oplog.map originKey).Nodup := by
  have hids := h.stream.ids.map Subtype.val_injective
  rw [map_map] at hids
  refine List.Nodup.of_map (fun k => (ofLex k).2) ?_
  rw [map_map]
  exact hids

theorem row_device (r : OplogRow) : r.device = r.key.orderKey.device := rfl

/-- Rows of one device on one side of `2^63` compare alike by both keys. -/
theorem originKey_lt {s : OplogRow} {op op' : SignedOp} (hr : r.Holds op) (hs : s.Holds op')
    (hdev : r.device = s.device) (hside : r.key.orderKey.hlc.Low ↔ s.key.orderKey.hlc.Low) :
    originKey r < originKey s ↔ r.key.orderKey < s.key.orderKey := by
  rw [row_device, row_device] at hdev
  simp only [originKey_eq hr, originKey_eq hs, OrderKey.lt_def, Prod.Lex.toLex_lt_toLex, asI64_lt_same hside,
    hdev,
    lt_self_iff_false, false_or, true_and]
  refine or_congr Iff.rfl (and_congr ⟨asI64_inj, congrArg asI64⟩ Iff.rfl)

def originBound (after : Option OrderKey) : ℤ ×ₗ List Byte :=
  toLex (after.elim (-1) fun key => asI64 key.hlc, after.elim [] fun key => key.opId.1)

theorem originSince_none (db : OplogDb) (origin : DeviceId) (after : Option OrderKey) (limit : ℕ) :
    db.originSince origin after none limit =
      (sqlLimit limit (db.originRows origin (originBound after))).map fun r =>
        (⟨asU64 r.hlc, origin, r.opId⟩, r.envelope) := rfl

variable {origin : DeviceId}

theorem mem_originRows {bound : ℤ ×ₗ List Byte} :
    r ∈ db.originRows origin bound ↔ r ∈ db.oplog ∧ r.device = origin ∧ bound < originKey r := by
  rw [originRows, mem_orderBy, mem_filter, decide_eq_true_eq]

theorem mem_originRowsByKey {after : Option OrderKey} :
    r ∈ db.originRowsByKey origin after ↔ r ∈ db.oplog ∧ r.device = origin ∧
      after.all (· < r.key.orderKey) = true := by
  rw [originRowsByKey, mem_orderBy, mem_filter, decide_eq_true_eq]

theorem Stored.originSince_iff_rows (h : db.Stored) (hlen : db.oplog.length < 2 ^ 63) (origin : DeviceId)
    (after : Option OrderKey) :
    (∀ limit, db.originSince origin after none limit = db.originSinceByKey origin after limit) ↔
      db.originRows origin (originBound after) = db.originRowsByKey origin after := by
  have hle : (db.originRows origin (originBound after)).length ≤ db.oplog.length := by
    rw [originRows, length_orderBy]
    exact length_filter_le _ _
  have hle' : (db.originRowsByKey origin after).length ≤ db.oplog.length := by
    rw [originRowsByKey, length_orderBy]
    exact length_filter_le _ _
  have hsql : ∀ limit, db.originSince origin after none limit =
      ((db.originRows origin (originBound after)).take limit).map fun r => (r.key.orderKey, r.envelope) := by
    intro limit
    rw [originSince_none, sqlLimit_eq (lt_of_le_of_lt hle hlen)]
    refine map_congr_left fun r hr => ?_
    rw [← (mem_originRows.1 (mem_of_mem_take hr)).2.1]
    rfl
  constructor
  · intro hall
    have hbyKey : db.originSinceByKey origin after db.oplog.length =
        (db.originRowsByKey origin after).map fun r => (r.key.orderKey, r.envelope) := by
      rw [← take_of_length_le hle']
      rfl
    have hfull := hall db.oplog.length
    rw [hsql, hbyKey, take_of_length_le hle] at hfull
    refine eq_of_map_eq (fun r hr s hs heq => ?_) hfull
    exact inj_on_of_nodup_map h.keys_nodup (mem_originRows.1 hr).1 (mem_originRowsByKey.1 hs).1
      (Prod.ext_iff.1 heq).1
  · intro heq limit
    rw [hsql, heq]
    rfl

/-- Whether a bound by key and the bound in SQL take the same key of an origin. -/
theorem originBound_lt_iff (a k : OrderKey) :
    (originBound (some a) < toLex (asI64 k.hlc, k.opId.1) ↔ a < k) ↔
      (k.hlc.Low ↔ a.hlc.Low) ∧ (k.hlc = a.hlc → (a.opId < k.opId ↔ a < k)) := by
  have hbd : originBound (some a) = toLex (asI64 a.hlc, a.opId.1) := rfl
  rw [hbd]
  by_cases hside : k.hlc.Low ↔ a.hlc.Low
  · simp only [hside, true_and]
    by_cases heq : k.hlc = a.hlc
    · simp only [heq, true_imp_iff, Prod.Lex.toLex_lt_toLex, lt_self_iff_false, false_or, true_and]
      rfl
    · have hne : asI64 a.hlc ≠ asI64 k.hlc := fun h => heq (asI64_inj h.symm)
      simp only [heq, false_imp_iff, OrderKey.lt_def, Prod.Lex.toLex_lt_toLex, hne, false_and, or_false,
        asI64_lt_same hside.symm, Ne.symm heq]
  · simp only [hside, false_and, iff_false, Prod.Lex.toLex_lt_toLex]
    by_cases hlow : a.hlc.Low
    · have hhigh : ¬k.hlc.Low := fun h => hside (iff_of_true h hlow)
      have h1 := OrderKey.lt_across hlow hhigh
      have h2 := lt_of_lt_of_le (asI64_high hhigh) (asI64_low hlow)
      intro hiff
      rcases hiff.2 h1 with h | h
      · exact absurd h h2.not_gt
      · exact absurd h.1 h2.ne'
    · have hlow' : k.hlc.Low := by
        by_contra hh
        exact hside (iff_of_false hh hlow)
      have h1 := OrderKey.lt_across hlow' hlow
      have h2 := lt_of_lt_of_le (asI64_high hlow) (asI64_low hlow')
      intro hiff
      exact absurd (hiff.1 (.inl h2)) h1.not_gt

/-- A scan of one origin is the one by order key where the bound takes the same rows and the
readings of the origin are on one side. -/
theorem Stored.originRows_eq (h : db.Stored) {after : Option OrderKey}
    (hbd : ∀ r ∈ db.oplog, r.device = origin →
      (originBound after < originKey r ↔ after.all (· < r.key.orderKey) = true))
    (hside : ∀ r ∈ db.oplog, r.device = origin → ∀ s ∈ db.oplog, s.device = origin →
      (r.key.orderKey.hlc.Low ↔ s.key.orderKey.hlc.Low)) :
    db.originRows origin (originBound after) = db.originRowsByKey origin after := by
  have hfil : (db.oplog.filter fun r => r.device = origin ∧ originBound after < originKey r) =
      db.oplog.filter fun r => r.device = origin ∧ after.all (· < r.key.orderKey) := by
    refine filter_congr fun r hr => ?_
    by_cases hdev : r.device = origin
    · simp only [hdev, hbd r hr hdev]
    · simp [hdev]
  rw [originRows, originRowsByKey, hfil]
  refine orderBy_congr (h.keys_nodup.sublist (filter_sublist.map _)) ?_
  intro r hr s hs hlt
  rw [mem_filter, decide_eq_true_eq] at hr hs
  obtain ⟨op, hop, -⟩ := h.holds r hr.1
  obtain ⟨op', hop', -⟩ := h.holds s hs.1
  have hsame := hside r hr.1 hr.2.1 s hs.1 hs.2.1
  exact (originKey_lt hop hop' (hr.2.1.trans hs.2.1.symm) hsame).2 hlt

theorem Stored.originSince_some_iff (h : db.Stored) (hlen : db.oplog.length < 2 ^ 63) (origin : DeviceId)
    (a : OrderKey) :
    (∀ limit, db.originSince origin (some a) none limit = db.originSinceByKey origin (some a) limit) ↔
      ∀ r ∈ db.oplog, r.device = origin → (r.key.orderKey.hlc.Low ↔ a.hlc.Low) ∧
        (r.key.orderKey.hlc = a.hlc → (a.opId < r.key.orderKey.opId ↔ a < r.key.orderKey)) := by
  rw [h.originSince_iff_rows hlen]
  constructor
  · intro heq r hr hdev
    obtain ⟨op, hop, -⟩ := h.holds r hr
    have hmem : r ∈ db.originRows origin (originBound (some a)) ↔ r ∈ db.originRowsByKey origin (some a) := by
      rw [heq]
    rw [mem_originRows, mem_originRowsByKey, Option.all_some, decide_eq_true_eq] at hmem
    simp only [hr, hdev, true_and, originKey_eq hop] at hmem
    exact (originBound_lt_iff a r.key.orderKey).1 hmem
  · intro hcond
    refine h.originRows_eq (fun r hr hdev => ?_) fun r hr hdev s hs hdev' => ?_
    · obtain ⟨op, hop, -⟩ := h.holds r hr
      rw [originKey_eq hop, Option.all_some, decide_eq_true_eq]
      exact (originBound_lt_iff a r.key.orderKey).2 (hcond r hr hdev)
    · exact (hcond r hr hdev).1.trans (hcond s hs hdev').1.symm

def lastHlc : Hlc := Fin.last _

theorem asI64_eq_neg_one {hlc : Hlc} : asI64 hlc = -1 ↔ hlc = lastHlc := by
  have hlt := hlc.isLt
  have hval : hlc = lastHlc ↔ hlc.val = 2 ^ 64 - 1 := Fin.ext_iff
  rw [hval, asI64]
  split <;> omega

/-- A scan without a lower bound takes the low keys and those at the last reading. -/
theorem originBound_none_lt (k : OrderKey) :
    originBound none < toLex (asI64 k.hlc, k.opId.1) ↔ k.hlc.Low ∨ k.hlc = lastHlc := by
  have hbd : originBound none = toLex (-1, []) := rfl
  have hpos : ([] : List Byte) < k.opId.1 := by
    cases hid : k.opId.1 with
    | nil =>
      have hlen := k.opId.2
      rw [hid] at hlen
      exact absurd hlen (by decide)
    | cons b bs => exact nil_lt_cons b bs
  rw [hbd, Prod.Lex.toLex_lt_toLex, eq_comm, asI64_eq_neg_one]
  simp only [hpos, and_true]
  refine or_congr_left ⟨fun hlt => ?_, fun hlow => ?_⟩
  · by_contra hhigh
    have := asI64_high hhigh
    omega
  · have := asI64_low hlow
    omega

theorem Stored.originSince_none_iff (h : db.Stored) (hlen : db.oplog.length < 2 ^ 63) (origin : DeviceId) :
    (∀ limit, db.originSince origin none none limit = db.originSinceByKey origin none limit) ↔
      (∀ r ∈ db.oplog, r.device = origin → r.key.orderKey.hlc.Low) ∨
        ∀ r ∈ db.oplog, r.device = origin → r.key.orderKey.hlc = lastHlc := by
  rw [h.originSince_iff_rows hlen]
  constructor
  · intro heq
    have htkn : ∀ r ∈ db.oplog, r.device = origin → r.key.orderKey.hlc.Low ∨ r.key.orderKey.hlc = lastHlc := by
      intro r hr hdev
      obtain ⟨op, hop, -⟩ := h.holds r hr
      have hmem : r ∈ db.originRows origin (originBound none) := by
        rw [heq, mem_originRowsByKey]
        exact ⟨hr, hdev, rfl⟩
      have hlt := (mem_originRows.1 hmem).2.2
      rw [originKey_eq hop] at hlt
      exact (originBound_none_lt _).1 hlt
    by_contra hboth
    simp only [not_or, not_forall] at hboth
    obtain ⟨⟨s, hs, hsd, hshigh⟩, ⟨r, hr, hrd, hrlast⟩⟩ := hboth
    have hrlow := (htkn r hr hrd).resolve_right hrlast
    obtain ⟨op, hop, -⟩ := h.holds r hr
    obtain ⟨op', hop', -⟩ := h.holds s hs
    -- the low row comes first by key and last in SQL
    have hsql : originKey s < originKey r := by
      rw [originKey_eq hop, originKey_eq hop', Prod.Lex.toLex_lt_toLex]
      exact .inl (lt_of_lt_of_le (asI64_high hshigh) (asI64_low hrlow))
    have hkey : originKey r < originKey s := by
      refine lt_of_orderBy_eq (h.keys_nodup.sublist (filter_sublist.map _))
        (h.originKeys_nodup.sublist (filter_sublist.map _)) heq.symm ?_ ?_ (OrderKey.lt_across hrlow hshigh)
      · simp [hr, hrd]
      · simp [hs, hsd]
    exact absurd hkey hsql.not_gt
  · intro hcond
    have htkn : ∀ r ∈ db.oplog, r.device = origin → r.key.orderKey.hlc.Low ∨ r.key.orderKey.hlc = lastHlc := by
      intro r hr hdev
      exact hcond.imp (fun hall => hall r hr hdev) (fun hall => hall r hr hdev)
    refine h.originRows_eq (fun r hr hdev => ?_) fun r hr hdev s hs hdev' => ?_
    · obtain ⟨op, hop, -⟩ := h.holds r hr
      rw [originKey_eq hop]
      exact iff_of_true ((originBound_none_lt r.key.orderKey).2 (htkn r hr hdev)) rfl
    · rcases hcond with hall | hall
      · exact iff_of_true (hall r hr hdev) (hall s hs hdev')
      · rw [hall r hr hdev, hall s hs hdev']

/-- The reads of a log built by appends are those by order key, each exactly when the
readings it compares are on one side of `2^63`. A page of one origin also needs the bound's
op id to stand for the bound where a reading is equal; without a bound it needs readings
that are low, or all the last one. -/
theorem sql_order_iff (epoch : Epoch) (ws : List LogWrite) (hlen : ws.length < 2 ^ 63) (db : OplogDb)
    (hdb : db = (empty epoch).storeAll ws) :
    (∀ cursor, (∀ limit, db.since cursor limit = db.sinceByKey cursor limit) ↔
        ∀ r ∈ db.oplog, (SignedOp.fromBytes r.envelope).toOption.isSome = true →
          (r.key.orderKey.hlc.Low ↔ cursor.hlc.Low)) ∧
      (db.head = db.headByKey ↔ OneSide (db.oplog.map (·.key.orderKey))) ∧
      (∀ row, db.headKey row = db.winnerByKey row ↔ OneSide ((db.appliedRows row).map (·.key.orderKey))) ∧
      (∀ row exclude, db.newestAppliedInStore row exclude = db.newestByKey row exclude ↔
        OneSide (((db.appliedRows row).filter (·.opId ≠ exclude)).map (·.key.orderKey))) ∧
      (∀ origin a, (∀ limit, db.originSince origin (some a) none limit =
          db.originSinceByKey origin (some a) limit) ↔
        ∀ r ∈ db.oplog, r.device = origin → (r.key.orderKey.hlc.Low ↔ a.hlc.Low) ∧
          (r.key.orderKey.hlc = a.hlc → (a.opId < r.key.orderKey.opId ↔ a < r.key.orderKey))) ∧
      ∀ origin, (∀ limit, db.originSince origin none none limit = db.originSinceByKey origin none limit) ↔
        (∀ r ∈ db.oplog, r.device = origin → r.key.orderKey.hlc.Low) ∨
          ∀ r ∈ db.oplog, r.device = origin → r.key.orderKey.hlc = lastHlc := by
  have h : db.Stored := hdb ▸ (stored_empty epoch).storeAll ws
  have hlen' : db.oplog.length < 2 ^ 63 := by
    rw [hdb]
    refine lt_of_le_of_lt (storeAll_length (empty epoch) ws) ?_
    simpa [empty] using hlen
  exact ⟨h.since_iff hlen', h.head_iff, h.headKey_iff, h.newest_iff, h.originSince_some_iff hlen',
    h.originSince_none_iff hlen'⟩

def twoReadings (first second : Hlc) : List LogWrite :=
  [⟨plainRowOp 1 1 first, "notes", "a", originRemote, 0⟩, ⟨plainRowOp 1 2 second, "notes", "a", originRemote, 0⟩]

theorem sql_order_low_readings :
    ((empty (Wire.fill 32 7)).storeAll (twoReadings 5 3)).since ⟨4, Wire.fill 32 0, Wire.fill 32 0⟩ 10 =
      ((empty (Wire.fill 32 7)).storeAll (twoReadings 5 3)).sinceByKey ⟨4, Wire.fill 32 0, Wire.fill 32 0⟩ 10 := by
  refine ((sql_order_iff (Wire.fill 32 7) (twoReadings 5 3) (by decide) _ rfl).1 _).2 ?_ 10
  decide +kernel

/-- A reading of `2^63` sorts below the reading 5: it is neither the head nor the row's
winner, is left out of a page, and is not served with its origin. -/
theorem sql_order_crosses_sign :
    ((empty (Wire.fill 32 7)).storeAll (twoReadings 5 (2 ^ 63))).headByKey = some
      (plainRowOp 1 2 (2 ^ 63)).orderKey ∧
      ((empty (Wire.fill 32 7)).storeAll (twoReadings 5 (2 ^ 63))).head = some (plainRowOp 1 1 5).orderKey ∧
      ((empty (Wire.fill 32 7)).storeAll (twoReadings 5 (2 ^ 63))).headKey ⟨rowStoreId, "notes", "a"⟩ =
        some (plainRowOp 1 1 5).orderKey ∧
      ((empty (Wire.fill 32 7)).storeAll (twoReadings 5 (2 ^ 63))).newestAppliedInStore ⟨rowStoreId, "notes", "a"⟩
        (Wire.fill 32 0) = some (plainRowOp 1 1 5).orderKey ∧
      (((empty (Wire.fill 32 7)).storeAll (twoReadings 5 (2 ^ 63))).sinceByKey (plainRowOp 1 1 5).orderKey
        10).length = 1 ∧
      (((empty (Wire.fill 32 7)).storeAll (twoReadings 5 (2 ^ 63))).since (plainRowOp 1 1 5).orderKey 10).length
        = 0 ∧
      (((empty (Wire.fill 32 7)).storeAll (twoReadings 5 (2 ^ 63))).originSince (Wire.fill 32 1) none none
        10).length = 1 := by
  refine ⟨?_, ?_, ?_, ?_, ?_, ?_, ?_⟩ <;> decide +kernel

end OplogDb

end ProxyNode
