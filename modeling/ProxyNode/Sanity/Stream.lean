import ProxyNode.Sanity.Compaction

/-! The arrival stream in SQLite under everything that writes the op log. -/

namespace ProxyNode

open List

namespace OplogDb

/-- No arrival is above the last number handed out, one holds it, and above the floor there
is none without its op. -/
structure StreamOk (db : OplogDb) : Prop where
  ids : (db.oplog.map (·.opId)).Nodup
  arrivalIds : (db.arrivals.map (·.opId)).Nodup
  ascending : db.arrivals.Pairwise fun a b => a.relaySeq < b.relaySeq
  bound : ∀ a ∈ db.arrivals, a.relaySeq ≤ db.lastSeq
  top : db.lastSeq = 0 ∨ ∃ a ∈ db.arrivals, a.relaySeq = db.lastSeq
  floor : db.compactedThroughSeq ≤ db.lastSeq
  /-- The arrival the floor was raised to is gone. -/
  hole : db.compactedThroughSeq = 0 ∨ ∀ a ∈ db.arrivals, a.relaySeq ≠ db.compactedThroughSeq
  full : ∀ n, db.compactedThroughSeq < n → n ≤ db.lastSeq →
    ∃ a ∈ db.arrivals, a.relaySeq = n ∧ ∃ r ∈ db.oplog, r.opId = a.opId

theorem streamOk_empty (epoch : Epoch) : (empty epoch).StreamOk where
  ids := nodup_nil
  arrivalIds := nodup_nil
  ascending := List.Pairwise.nil
  bound := by simp [empty]
  top := Or.inl rfl
  floor := le_rfl
  hole := Or.inl rfl
  full := by
    intro n hlt hle
    simp only [empty] at hlt hle
    omega

variable {db : OplogDb}

theorem StreamOk.seqs (h : db.StreamOk) : (db.arrivals.map (·.relaySeq)).Nodup :=
  pairwise_map.2 (h.ascending.imp fun hlt => hlt.ne)

theorem StreamOk.joined_ascending (h : db.StreamOk) :
    db.joined.Pairwise fun e e' => e.1.relaySeq < e'.1.relaySeq := by
  have hasc := h.ascending.filter fun a => (db.oplog.find? (·.opId = a.opId)).isSome
  rw [← joined_arrivals, pairwise_map] at hasc
  exact hasc

theorem StreamOk.headSeq_eq (h : db.StreamOk) : db.headSeq = db.lastSeq := by
  rw [headSeq]
  rcases h.top with h0 | ⟨a, ha, heq⟩
  · cases hmax : (db.arrivals.map (·.relaySeq)).max? with
    | none => exact h0.symm
    | some m =>
      obtain ⟨a, ha, rfl⟩ := mem_map.1 (max?_mem hmax)
      have := h.bound a ha
      rw [Option.getD_some]
      omega
  · have hmax : (db.arrivals.map (·.relaySeq)).max? = some db.lastSeq := by
      refine max?_eq_some_iff.2 ⟨heq ▸ mem_map_of_mem ha, ?_⟩
      simpa using h.bound
    rw [hmax, Option.getD_some]

/-- A write that keeps the stream and the ids of the log keeps the invariant. -/
theorem StreamOk.congr (h : db.StreamOk) {db' : OplogDb} (harr : db'.arrivals = db.arrivals)
    (hlast : db'.lastSeq = db.lastSeq) (hflr : db'.compactedThroughSeq = db.compactedThroughSeq)
    (hids : db'.oplog.map (·.opId) = db.oplog.map (·.opId)) : db'.StreamOk where
  ids := hids ▸ h.ids
  arrivalIds := harr ▸ h.arrivalIds
  ascending := harr ▸ h.ascending
  bound := by
    rw [harr, hlast]
    exact h.bound
  top := by
    rw [harr, hlast]
    exact h.top
  floor := by
    rw [hflr, hlast]
    exact h.floor
  hole := by
    rw [hflr, harr]
    exact h.hole
  full := by
    intro n hlt hle
    rw [hflr] at hlt
    rw [hlast] at hle
    obtain ⟨a, ha, hn, r, hr, hid⟩ := h.full n hlt hle
    refine ⟨a, harr ▸ ha, hn, ?_⟩
    have hmem : a.opId ∈ db'.oplog.map (·.opId) := by
      rw [hids, ← hid]
      exact mem_map_of_mem hr
    obtain ⟨r', hr', hid'⟩ := mem_map.1 hmem
    exact ⟨r', hr', hid'⟩

/-! ## Append -/

theorem noteOwnOp_stream (db : OplogDb) (op : SignedOp) :
    (db.noteOwnOp op).arrivals = db.arrivals ∧ (db.noteOwnOp op).lastSeq = db.lastSeq ∧
      (db.noteOwnOp op).compactedThroughSeq = db.compactedThroughSeq := by
  simp only [noteOwnOp, advanceLocalCoverage]
  split
  · split <;> exact ⟨rfl, rfl, rfl⟩
  · exact ⟨rfl, rfl, rfl⟩

theorem append_new_stream {op : SignedOp} (h : ∀ r ∈ db.oplog, r.opId ≠ op.id) (table rowPk : String)
    (origin now : ℤ) :
    (db.append op table rowPk origin now).1.arrivals = db.arrivals ++ [⟨db.lastSeq + 1, op.id, now⟩] ∧
      (db.append op table rowPk origin now).1.lastSeq = db.lastSeq + 1 ∧
      (db.append op table rowPk origin now).1.compactedThroughSeq = db.compactedThroughSeq := by
  rw [append_new h]
  split
  · exact noteOwnOp_stream _ op
  · exact ⟨rfl, rfl, rfl⟩

theorem StreamOk.append (h : db.StreamOk) {op : SignedOp}
    (hfrs : (∃ r ∈ db.oplog, r.opId = op.id) ∨ ∀ a ∈ db.arrivals, a.opId ≠ op.id) (table rowPk : String)
    (origin now : ℤ) : (db.append op table rowPk origin now).1.StreamOk := by
  by_cases hkn : ∃ r ∈ db.oplog, r.opId = op.id
  · rwa [append_known hkn]
  have hnew : ∀ r ∈ db.oplog, r.opId ≠ op.id := fun r hr hid => hkn ⟨r, hr, hid⟩
  have hleft : ∀ a ∈ db.arrivals, a.opId ≠ op.id := hfrs.resolve_left hkn
  obtain ⟨harr, hlast, hflr⟩ := append_new_stream hnew table rowPk origin now
  have hlog := append_new_oplog hnew table rowPk origin now
  have hid : (logRow op table rowPk origin).opId = op.id := rfl
  refine ⟨?_, ?_, ?_, ?_, ?_, ?_, ?_, ?_⟩
  · rw [hlog, map_append, map_singleton, hid]
    refine List.Nodup.append h.ids (nodup_singleton _) ?_
    simpa [disjoint_singleton] using hnew
  · rw [harr, map_append, map_singleton]
    refine List.Nodup.append h.arrivalIds (nodup_singleton _) ?_
    simpa [disjoint_singleton] using hleft
  · rw [harr, pairwise_append]
    refine ⟨h.ascending, pairwise_singleton _ _, fun a ha b hb => ?_⟩
    rw [mem_singleton] at hb
    have := h.bound a ha
    rw [hb]
    exact Nat.lt_succ_of_le this
  · rw [harr, hlast]
    intro a ha
    rcases mem_append.1 ha with ha | ha
    · exact (h.bound a ha).trans (Nat.le_succ _)
    · rw [mem_singleton.1 ha]
  · rw [harr, hlast]
    exact .inr ⟨_, mem_append_right _ (mem_singleton_self _), rfl⟩
  · rw [hflr, hlast]
    exact h.floor.trans (Nat.le_succ _)
  · rw [hflr, harr]
    refine h.hole.imp_right fun hhole a ha => ?_
    rcases mem_append.1 ha with ha | ha
    · exact hhole a ha
    · have := h.floor
      rw [mem_singleton.1 ha]
      simp only
      omega
  · rw [hflr, hlast, harr, hlog]
    intro n hlt hle
    by_cases htop : n = db.lastSeq + 1
    · exact ⟨_, mem_append_right _ (mem_singleton_self _), htop.symm, _,
        mem_append_right _ (mem_singleton_self _), hid⟩
    · obtain ⟨a, ha, hn, r, hr, hrid⟩ := h.full n hlt (by omega)
      exact ⟨a, mem_append_left _ ha, hn, r, mem_append_left _ hr, hrid⟩

/-! ## Compaction -/

theorem StreamOk.deleteOpsChunk (h : db.StreamOk) {isUpsert : List Byte → Bool} {pins : Pins}
    {chunk : List (OpId × ℕ)}
    (hbelow : ∀ c ∈ chunk, ∀ a ∈ db.arrivals, a.opId = c.1 → a.relaySeq < db.lastSeq) :
    (db.deleteOpsChunk isUpsert pins chunk).StreamOk := by
  obtain ⟨hmono, hcov, hfrom⟩ := deleteOpsChunk_floor isUpsert pins chunk h.ids
  refine ⟨h.ids.sublist (deleteOpsChunk_oplog_sublist.map _),
    h.arrivalIds.sublist (deleteOpsChunk_arrivals_sublist.map _),
    h.ascending.sublist deleteOpsChunk_arrivals_sublist,
    fun a ha => h.bound a (deleteOpsChunk_arrivals_sublist.subset ha), ?_, ?_, ?_, ?_⟩
  · refine h.top.imp_right fun ⟨a, ha, htop⟩ => ⟨a, mem_deleteOpsChunk_arrivals.2 ⟨ha, fun hmem _ => ?_⟩, htop⟩
    obtain ⟨c, hc, hid⟩ := mem_map.1 hmem
    exact absurd htop (hbelow c hc a ha hid.symm).ne
  · rcases hfrom with heq | ⟨a, ha, -, -, -, -, heq⟩
    · rw [heq]
      exact h.floor
    · rw [← heq]
      exact h.bound a ha
  · rcases hfrom with heq | ⟨a, ha, r, hr, hid, hhit, heq⟩
    · rw [heq]
      exact h.hole.imp_right fun hhole a ha => hhole a (deleteOpsChunk_arrivals_sublist.subset ha)
    · refine .inr fun b hb hseq => ?_
      -- the arrival at the new floor is the one whose op went
      have hba : b = a := inj_on_of_nodup_map h.seqs (deleteOpsChunk_arrivals_sublist.subset hb) ha
        (hseq.trans heq.symm)
      rw [hba, arrival_kept_iff h.ids ha hr hid, hhit] at hb
      exact Bool.noConfusion hb
  · intro n hlt hle
    obtain ⟨a, ha, hn, r, hr, hid⟩ := h.full n (lt_of_le_of_lt hmono hlt) hle
    have hkept : db.hit pins chunk r = false := by
      by_contra hhit
      have := hcov a ha r hr hid (by simpa using hhit)
      omega
    exact ⟨a, (arrival_kept_iff h.ids ha hr hid).2 hkept, hn, r, mem_deleteOpsChunk_oplog.2 ⟨hr, hkept⟩, hid⟩

/-- A pass keeps the stream, and whatever each of its chunks keeps on a stream that is well
formed: it only takes ops that arrived before the newest. -/
theorem StreamOk.compact_induct (h : db.StreamOk) (isUpsert : List Byte → Bool) (pass : CompactionPass)
    (P : OplogDb → Prop) (h0 : P db) (hstep : ∀ db' chunk, db'.StreamOk → db'.oplog.Sublist db.oplog →
      (∀ c ∈ chunk, db.Candidate pass.policy pass.pins pass.safeFloor c) → P db' →
      P (db'.deleteOpsChunk isUpsert pass.pins chunk)) :
    (db.compact isUpsert pass).StreamOk ∧ P (db.compact isUpsert pass) := by
  have hbelow : ∀ c, db.Candidate pass.policy pass.pins pass.safeFloor c → ∀ a ∈ db.arrivals, a.opId = c.1 →
      a.relaySeq < db.lastSeq := by
    intro c hc a ha hid
    obtain ⟨b, r, hjoin, hrid, hseq, -⟩ := hc.found
    obtain ⟨hb, -, hbr⟩ := (mem_joined_iff h.ids).1 hjoin
    have hab : a = b := inj_on_of_nodup_map h.arrivalIds ha hb (by rw [hid, ← hbr, hrid])
    rw [hab, hseq, ← h.headSeq_eq]
    exact hc.below
  have hall := OplogDb.compact_induct isUpsert pass
    (fun db' => db'.StreamOk ∧ db'.oplog.Sublist db.oplog ∧ db'.arrivals.Sublist db.arrivals ∧
      db'.lastSeq = db.lastSeq ∧ P db')
    ⟨h, List.Sublist.refl _, List.Sublist.refl _, rfl, h0⟩ ?_
  · exact ⟨hall.1, hall.2.2.2.2⟩
  rintro db' chunk hchk ⟨hok, hlog, hsub, hlast, hP⟩
  refine ⟨hok.deleteOpsChunk fun c hc a ha hid => ?_, deleteOpsChunk_oplog_sublist.trans hlog,
    deleteOpsChunk_arrivals_sublist.trans hsub, hlast, hstep db' chunk hok hlog hchk hP⟩
  rw [hlast]
  exact hbelow c (hchk c hc) a (hsub.subset ha) hid

theorem StreamOk.compact (h : db.StreamOk) (isUpsert : List Byte → Bool) (pass : CompactionPass) :
    (db.compact isUpsert pass).StreamOk :=
  (h.compact_induct isUpsert pass (fun _ => True) trivial fun _ _ _ _ _ _ => trivial).1

/-! ## Pruning below a watermark, and a new epoch -/

theorem StreamOk.deleteRowBelow (h : db.StreamOk) {row : RowRef} {c : OrderKey} {keep : Option OpId}
    (hbelow : ∀ r ∈ db.oplog, belowRow row c keep r = true → ∀ a ∈ db.arrivals, a.opId = r.opId →
      a.relaySeq ≤ db.compactedThroughSeq) :
    (db.deleteRowBelow row c keep).StreamOk := by
  refine ⟨h.ids.sublist (filter_sublist.map _), h.arrivalIds, h.ascending, h.bound, h.top, h.floor, h.hole,
    ?_⟩
  intro n hlt hle
  obtain ⟨a, ha, hn, r, hr, hid⟩ := h.full n hlt hle
  refine ⟨a, ha, hn, r, mem_filter.2 ⟨hr, ?_⟩, hid⟩
  by_contra hgone
  have hseq := hbelow r hr (by simpa using hgone) a ha hid.symm
  have hlt' : db.compactedThroughSeq < n := hlt
  omega

theorem StreamOk.rotate (h : db.StreamOk) (hflr : db.compactedThroughSeq = 0) (random : Epoch) :
    (db.rotateRelayStreamEpoch random).StreamOk :=
  h.congr rfl rfl hflr.symm rfl

/-! ## Deferred and moved ops -/

theorem setRow_opIds {f : OplogRow → OplogRow} (hf : ∀ r, (f r).key = r.key) (id : OpId) :
    (db.setRow id f).oplog.map (·.opId) = db.oplog.map (·.opId) := by
  rw [setRow, map_map]
  refine map_congr_left fun r _ => ?_
  simp only [Function.comp]
  split
  · exact congrArg SqlKey.opId (hf r)
  · rfl

theorem demoteHead_same (db : OplogDb) (id : OpId) : ∃ heads, db.demoteHead id = { db with heads := heads } := by
  rw [demoteHead]
  split
  · exact ⟨_, rfl⟩
  · split_ifs
    · split <;> exact ⟨_, rfl⟩
    · exact ⟨_, rfl⟩

theorem rebuildHead_same (db : OplogDb) (row : RowRef) :
    ∃ heads, db.rebuildHead row = { db with heads := heads } := by
  simp only [rebuildHead]
  split <;> exact ⟨_, rfl⟩

theorem StreamOk.defer (h : db.StreamOk) (id : OpId) : (db.defer id).StreamOk := by
  obtain ⟨heads, hsame⟩ := demoteHead_same (db.setRow id fun r => { r with applied := false }) id
  rw [OplogDb.defer, hsame]
  exact h.congr rfl rfl rfl (setRow_opIds (by intro r; rfl) id)

theorem StreamOk.restore (h : db.StreamOk) (id : OpId) (table rowPk : String) :
    (db.restore id table rowPk).StreamOk := by
  rw [OplogDb.restore]
  split
  · exact h
  · split_ifs
    · exact h
    · split
      · exact h
      · exact h.congr rfl rfl rfl (setRow_opIds (by intro r; rfl) id)

theorem StreamOk.move (h : db.StreamOk) (source target : RowRef) (ids : List OpId) :
    (db.move source target ids).StreamOk := by
  simp only [OplogDb.move]
  obtain ⟨heads, hsame⟩ := rebuildHead_same { db with oplog := db.oplog.map fun r =>
    if r.row = source ∧ r.opId ∈ ids then { r with row := target } else r } source
  rw [hsame]
  obtain ⟨heads', hsame'⟩ := rebuildHead_same { db with
    oplog := db.oplog.map fun r => if r.row = source ∧ r.opId ∈ ids then { r with row := target } else r
    heads := heads } target
  rw [hsame']
  refine h.congr rfl rfl rfl ?_
  rw [map_map]
  refine map_congr_left fun r _ => ?_
  simp only [Function.comp]
  split <;> rfl

end OplogDb

end ProxyNode
