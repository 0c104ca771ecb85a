import ProxyNode.Sanity.Heads
import ProxyNode.Spec.SqlRun

/-! What a compaction pass may touch: the candidates a scan returns, and the rows a chunk
deletes. -/

namespace ProxyNode

open List

namespace OplogDb

/-! ## The scan -/

structure Candidate (db : OplogDb) (policy : CompactionPolicy) (pins : Pins) (safeFloor : ℕ)
    (c : OpId × ℕ) : Prop where
  found : ∃ a r, (a, r) ∈ db.joined ∧ r.opId = c.1 ∧ a.relaySeq = c.2 ∧ r.applied = true ∧
    db.drained policy r = true ∧ db.pinned pins r = false
  floor : c.2 ≤ safeFloor
  below : c.2 < db.headSeq

variable {db : OplogDb} {policy : CompactionPolicy} {pins : Pins} {late : ℕ → Bool} {safeFloor : ℕ}

theorem mem_scanPageRows {afterSeq : ℕ} {e : Arrival × OplogRow} (h : e ∈ db.scanPageRows safeFloor afterSeq) :
    e ∈ db.joined ∧ e.2.applied = true ∧ e.1.relaySeq ≤ safeFloor ∧ e.1.relaySeq < db.headSeq := by
  have h := (mem_orderBy _).1 (mem_of_mem_take h)
  simp only [mem_filter, decide_eq_true_eq] at h
  exact ⟨h.1, h.2.1, h.2.2.2.1, h.2.2.2.2⟩

theorem scanRows_candidates {rows : List (Arrival × OplogRow)}
    (hrows : ∀ e ∈ rows, e ∈ db.joined ∧ e.2.applied = true ∧ e.1.relaySeq ≤ safeFloor ∧
      e.1.relaySeq < db.headSeq)
    {st : ScanState} (hst : ∀ c ∈ st.candidates, db.Candidate policy pins safeFloor c) :
    ∀ c ∈ (db.scanRows policy pins late rows st).1.candidates, db.Candidate policy pins safeFloor c := by
  induction rows generalizing st with
  | nil => exact hst
  | cons e rows ih =>
    obtain ⟨⟨hjoin, happ, hflr, hbelow⟩, hrest⟩ := forall_mem_cons.1 hrows
    obtain ⟨a, r⟩ := e
    have hnew (hdrn : db.drained policy r = true) (hpin : db.pinned pins r = false) :
        ∀ c ∈ st.candidates ++ [(r.opId, a.relaySeq)], db.Candidate policy pins safeFloor c := by
      intro c hc
      rw [mem_append, mem_singleton] at hc
      rcases hc with hc | rfl
      · exact hst c hc
      · exact ⟨⟨a, r, hjoin, rfl, rfl, happ, hdrn, hpin⟩, hflr, hbelow⟩
    simp only [scanRows]
    split_ifs with hlate hdrn hlate' hpin hfull
    · exact hst
    · exact hst
    · exact ih hrest hst
    · exact hnew hdrn (by simpa using hpin)
    · exact ih hrest (hnew hdrn (by simpa using hpin))
    · exact ih hrest hst

variable {turns : ℕ}

theorem scanPages_candidates {scanCap : ℕ} {st : ScanState}
    (hst : ∀ c ∈ st.candidates, db.Candidate policy pins safeFloor c) :
    ∀ c ∈ (db.scanPages policy pins late safeFloor scanCap turns st).1.candidates,
      db.Candidate policy pins safeFloor c := by
  induction turns generalizing st with
  | zero => exact hst
  | succ turns ih =>
    simp only [scanPages]
    split_ifs with hgo hlate
    · exact hst
    · cases hrows : db.scanPageRows safeFloor st.afterSeq with
      | nil => exact hst
      | cons e rows =>
        have hpage : ∀ c ∈
          (db.scanRows policy pins late (e :: rows) { st with looks := st.looks + 1 }).1.candidates,
            db.Candidate policy pins safeFloor c :=
          scanRows_candidates (fun x hx => mem_scanPageRows (hrows ▸ hx)) hst
        obtain ⟨⟨next, done⟩, hscan⟩ :
          ∃ out, db.scanRows policy pins late (e :: rows) { st with looks := st.looks + 1 } = out := ⟨_, rfl⟩
        rw [hscan] at hpage
        simp only [hscan]
        cases done with
        | true => exact hpage
        | false => exact ih hpage
    · exact hst

theorem mem_candidates {late : ℕ → Bool} {resumeAfter : ℕ} {probeIndex : CompactionProbeIndex} {c : OpId × ℕ}
    (h : c ∈ (db.compactionCandidates policy pins safeFloor late resumeAfter probeIndex).candidates) :
    db.Candidate policy pins safeFloor c := by
  simp only [compactionCandidates] at h
  refine scanPages_candidates ?_ c h
  exact fun c hc => absurd hc not_mem_nil

/-! ## The pass -/

theorem mem_of_mem_chunksOf {α : Type*} {size : ℕ} {l chunk : List α} (h : chunk ∈ chunksOf size turns l) :
    ∀ x ∈ chunk, x ∈ l := by
  induction turns generalizing l with
  | zero => simp [chunksOf] at h
  | succ turns ih =>
    cases l with
    | nil => simp [chunksOf] at h
    | cons y l =>
      rw [chunksOf, mem_cons] at h
      intro x hx
      rcases h with rfl | h
      · exact mem_of_mem_take hx
      · exact mem_of_mem_drop (ih h x hx)
      · simp

theorem exists_chunk {α : Type*} {size : ℕ} (hsize : 0 < size) {l : List α} (hturns : l.length ≤ turns) {x : α}
    (hx : x ∈ l) : ∃ chunk ∈ chunksOf size turns l, x ∈ chunk := by
  induction turns generalizing l with
  | zero =>
    rw [length_eq_zero_iff.1 (Nat.le_zero.1 hturns)] at hx
    exact absurd hx not_mem_nil
  | succ turns ih =>
    cases l with
    | nil => exact absurd hx not_mem_nil
    | cons y l =>
      rw [chunksOf]
      · rw [← take_append_drop size (y :: l)] at hx
        rcases mem_append.1 hx with hx | hx
        · exact ⟨_, mem_cons_self, hx⟩
        · have hlen : ((y :: l).drop size).length ≤ turns := by
            rw [length_drop]
            rw [length_cons] at hturns ⊢
            omega
          obtain ⟨chunk, hchk, hin⟩ := ih hlen hx
          exact ⟨chunk, mem_cons_of_mem _ hchk, hin⟩
      · nofun

/-- What each chunk of candidates preserves, the pass preserves. -/
theorem compact_induct (isUpsert : List Byte → Bool) (pass : CompactionPass) (P : OplogDb → Prop) (h0 : P db)
    (hstep : ∀ db' chunk, (∀ c ∈ chunk, db.Candidate pass.policy pass.pins pass.safeFloor c) → P db' →
      P (db'.deleteOpsChunk isUpsert pass.pins chunk)) :
    P (db.compact isUpsert pass) := by
  have hfold : ∀ chunks : List (List (OpId × ℕ)), ∀ db', P db' →
      (∀ chunk ∈ chunks, ∀ c ∈ chunk, db.Candidate pass.policy pass.pins pass.safeFloor c) →
      P (chunks.foldl (fun db chunk => db.deleteOpsChunk isUpsert pass.pins chunk) db') := by
    intro chunks
    induction chunks with
    | nil => exact fun _ h _ => h
    | cons chunk chunks ih =>
      intro db' h hall
      obtain ⟨hchk, hrest⟩ := forall_mem_cons.1 hall
      exact ih _ (hstep db' chunk hchk h) hrest
  exact hfold _ db h0 fun chunk hchk c hc => mem_candidates (mem_of_mem_chunksOf hchk c hc)

/-! ## A chunk -/

variable {r : OplogRow}

theorem mem_joined {a : Arrival} :
    (a, r) ∈ db.joined ↔ a ∈ db.arrivals ∧ db.oplog.find? (·.opId = a.opId) = some r := by
  simp only [joined, mem_filterMap, Option.map_eq_some_iff, Prod.mk.injEq]
  constructor
  · rintro ⟨a', ha, r', hr, rfl, rfl⟩
    exact ⟨ha, hr⟩
  · rintro ⟨ha, hr⟩
    exact ⟨a, ha, r, hr, rfl, rfl⟩

theorem joined_arrivals (db : OplogDb) :
    db.joined.map (·.1) = db.arrivals.filter fun a => (db.oplog.find? (·.opId = a.opId)).isSome := by
  rw [joined]
  induction db.arrivals with
  | nil => rfl
  | cons a arrivals ih =>
    cases hfind : db.oplog.find? (·.opId = a.opId) with
    | none => simp [hfind, ih]
    | some r => simp [hfind, ih]

theorem find?_opId (hids : (db.oplog.map (·.opId)).Nodup) (hr : r ∈ db.oplog) :
    db.oplog.find? (·.opId = r.opId) = some r := by
  cases hfind : db.oplog.find? (·.opId = r.opId) with
  | none =>
    rw [find?_eq_none] at hfind
    exact absurd (by simp) (hfind r hr)
  | some s =>
    have hs : s.opId = r.opId := by simpa using find?_some hfind
    rw [inj_on_of_nodup_map hids (mem_of_find?_eq_some hfind) hr hs]

/-- With distinct ids the join pairs an arrival with the op of its id. -/
theorem mem_joined_iff (hids : (db.oplog.map (·.opId)).Nodup) {a : Arrival} :
    (a, r) ∈ db.joined ↔ a ∈ db.arrivals ∧ r ∈ db.oplog ∧ r.opId = a.opId := by
  rw [mem_joined]
  refine and_congr_right fun _ => ?_
  constructor
  · intro h
    exact ⟨mem_of_find?_eq_some h, by simpa using find?_some h⟩
  · rintro ⟨hr, hid⟩
    rw [← hid]
    exact find?_opId hids hr

section Chunk

variable {isUpsert : List Byte → Bool} {chunk : List (OpId × ℕ)}

variable {r : OplogRow}

theorem mem_deleteOpsChunk_oplog :
    r ∈ (db.deleteOpsChunk isUpsert pins chunk).oplog ↔ r ∈ db.oplog ∧ db.hit pins chunk r = false := by
  simp [deleteOpsChunk]

theorem deleteOpsChunk_oplog_sublist :
    (db.deleteOpsChunk isUpsert pins chunk).oplog.Sublist db.oplog := filter_sublist

theorem deleteOpsChunk_arrivals_sublist :
    (db.deleteOpsChunk isUpsert pins chunk).arrivals.Sublist db.arrivals := filter_sublist

/-- An arrival of a chunk goes unless it is pinned or its op is the head of a kept row. -/
theorem mem_deleteOpsChunk_arrivals {a : Arrival} :
    a ∈ (db.deleteOpsChunk isUpsert pins chunk).arrivals ↔ a ∈ db.arrivals ∧
      (a.opId ∈ chunk.map (·.1) → pins.has a.opId = false →
        ∃ r ∈ db.oplog, r.opId = a.opId ∧ db.isHead r = true ∧ isSelfDrainingBulkTable r.row = false) := by
  simp only [deleteOpsChunk, mem_filter]
  refine and_congr_right fun _ => ?_
  simp only [Bool.not_eq_true', decide_eq_false_iff_not, not_and, not_not, any_eq_true, Bool.and_eq_true,
    decide_eq_true_eq, Bool.not_eq_true', Bool.not_eq_true, and_assoc]

/-- With distinct ids an arrival whose op is logged goes exactly with the op. -/
theorem arrival_kept_iff (hids : (db.oplog.map (·.opId)).Nodup) {a : Arrival} (ha : a ∈ db.arrivals)
    (hr : r ∈ db.oplog) (hid : r.opId = a.opId) :
    a ∈ (db.deleteOpsChunk isUpsert pins chunk).arrivals ↔ db.hit pins chunk r = false := by
  rw [mem_deleteOpsChunk_arrivals]
  have huniq : (∃ s ∈ db.oplog, s.opId = a.opId ∧ db.isHead s = true ∧ isSelfDrainingBulkTable s.row = false) ↔
      db.isHead r = true ∧ isSelfDrainingBulkTable r.row = false := by
    constructor
    · rintro ⟨s, hs, hsid, hhead⟩
      rwa [inj_on_of_nodup_map hids hr hs (hid.trans hsid.symm)]
    · exact fun h => ⟨r, hr, hid, h⟩
  rw [huniq]
  simp only [ha, true_and, hit, pinned, hid, decide_eq_false_iff_not, not_and, not_not, Bool.or_eq_true,
    Bool.and_eq_true, Bool.not_eq_true']
  refine imp_congr_right fun _ => ?_
  cases pins.has a.opId <;> simp [and_comm]

/-- The floor never falls, covers every arrival whose op goes, and is moved only onto one. -/
theorem deleteOpsChunk_floor (isUpsert : List Byte → Bool) (pins : Pins) (chunk : List (OpId × ℕ))
    (hids : (db.oplog.map (·.opId)).Nodup) :
    db.compactedThroughSeq ≤ (db.deleteOpsChunk isUpsert pins chunk).compactedThroughSeq ∧
      (∀ a ∈ db.arrivals, ∀ r ∈ db.oplog, r.opId = a.opId → db.hit pins chunk r = true →
        a.relaySeq ≤ (db.deleteOpsChunk isUpsert pins chunk).compactedThroughSeq) ∧
      ((db.deleteOpsChunk isUpsert pins chunk).compactedThroughSeq = db.compactedThroughSeq ∨
        ∃ a ∈ db.arrivals, ∃ r ∈ db.oplog, r.opId = a.opId ∧ db.hit pins chunk r = true ∧
          a.relaySeq = (db.deleteOpsChunk isUpsert pins chunk).compactedThroughSeq) := by
  generalize hseqs : (db.joined.filter fun e => db.hit pins chunk e.2).map (·.1.relaySeq) = seqs
  have hmem : ∀ n, n ∈ seqs ↔ ∃ a ∈ db.arrivals, ∃ r ∈ db.oplog, r.opId = a.opId ∧ db.hit pins chunk r = true ∧
      a.relaySeq = n := by
    intro n
    simp only [← hseqs, mem_map, mem_filter, Prod.exists, mem_joined_iff hids]
    constructor
    · rintro ⟨a, r, ⟨⟨ha, hr, hid⟩, hhit⟩, hn⟩
      exact ⟨a, ha, r, hr, hid, hhit, hn⟩
    · rintro ⟨a, ha, r, hr, hid, hhit, hn⟩
      exact ⟨a, r, ⟨⟨ha, hr, hid⟩, hhit⟩, hn⟩
  simp only [deleteOpsChunk, hseqs]
  split
  · rename_i hnone
    refine ⟨le_rfl, fun a _ r hr _ hhit => ?_, .inl rfl⟩
    have : r ∈ db.oplog.filter (db.hit pins chunk) := mem_filter.2 ⟨hr, hhit⟩
    rw [hnone] at this
    exact absurd this not_mem_nil
  · cases hmax : seqs.max? with
    | none =>
      rw [max?_eq_none_iff] at hmax
      refine ⟨le_max_left _ _, fun a ha r hr hid hhit => ?_, .inl (by simp)⟩
      have : a.relaySeq ∈ seqs := (hmem _).2 ⟨a, ha, r, hr, hid, hhit, rfl⟩
      rw [hmax] at this
      exact absurd this not_mem_nil
    | some m =>
      obtain ⟨hm, hle⟩ := max?_eq_some_iff.1 hmax
      simp only [Option.getD_some]
      refine ⟨le_max_left _ _, fun a ha r hr hid hhit => ?_, ?_⟩
      · exact (hle _ ((hmem _).2 ⟨a, ha, r, hr, hid, hhit, rfl⟩)).trans (le_max_right _ _)
      · rcases max_choice db.compactedThroughSeq m with h | h
        · exact .inl h
        · rw [h]
          exact .inr ((hmem m).1 hm)

theorem isHead_of_find? {head : HeadRow} (hfind : db.heads.find? (·.row = r.row) = some head)
    (hkey : head.key = r.key) : db.isHead r = true := by
  refine any_eq_true.2 ⟨head, mem_of_find?_eq_some hfind, ?_⟩
  have hheadrow : head.row = r.row := by simpa using find?_some hfind
  simp [hheadrow, hkey, OplogRow.opId]

/-- A chunk changes at most the payload of a head. -/
theorem deleteOpsChunk_heads (row : RowRef) :
    ((db.deleteOpsChunk isUpsert pins chunk).heads.find? (·.row = row)).map (fun h => (h.key, h.originDevice)) =
      (db.heads.find? (·.row = row)).map fun h => (h.key, h.originDevice) := by
  simp only [deleteOpsChunk, trimUpsertHeadPayloads]
  rw [find?_map_row (fun h => by split <;> rfl), Option.map_map]
  congr 1
  funext h
  simp only [Function.comp]
  split <;> rfl

theorem deleteOpsChunk_headKey (row : RowRef) :
    ((db.deleteOpsChunk isUpsert pins chunk).heads.find? (·.row = row)).map (·.key) =
      (db.heads.find? (·.row = row)).map (·.key) := by
  have hpair : ((db.deleteOpsChunk isUpsert pins chunk).heads.find? (·.row = row)).map (fun h =>
      (h.key, h.originDevice)) = _ := deleteOpsChunk_heads row
  have hkeys := congrArg (Option.map Prod.fst) hpair
  rw [Option.map_map, Option.map_map] at hkeys
  exact hkeys

/-- Outside the drained tables the head of a row is pinned. -/
theorem hit_head {head : HeadRow} (hfind : db.heads.find? (·.row = r.row) = some head) (hkey : head.key = r.key)
    (hrow : isSelfDrainingBulkTable r.row = false) : db.hit pins chunk r = false := by
  have hpin : db.pinned pins r = true := by
    rw [pinned, hrow, isHead_of_find? hfind hkey]
    simp
  simp [hit, hpin]

end Chunk

end OplogDb

end ProxyNode
