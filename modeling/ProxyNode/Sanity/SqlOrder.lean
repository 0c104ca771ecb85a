import ProxyNode.Sanity.Stream

/-! The signed order of the SQL columns against the order of the keys they hold: the two
agree on either side of `2^63` and are opposite across it. -/

namespace ProxyNode

open SqlKey List

/-- A reading that stays positive when cast to a signed word. -/
def Hlc.Low (hlc : Hlc) : Prop := hlc.val < 2 ^ 63

instance (hlc : Hlc) : Decidable hlc.Low := inferInstanceAs (Decidable (_ < _))

theorem asI64_low {hlc : Hlc} (h : hlc.Low) : 0 ≤ asI64 hlc := by
  simp only [Hlc.Low] at h
  rw [asI64, if_pos h]
  omega

theorem asI64_high {hlc : Hlc} (h : ¬hlc.Low) : asI64 hlc < 0 := by
  simp only [Hlc.Low] at h
  have := hlc.isLt
  rw [asI64, if_neg h]
  omega

theorem asI64_lt_same {a b : Hlc} (h : a.Low ↔ b.Low) : asI64 a < asI64 b ↔ a < b := by
  simp only [Hlc.Low] at h
  rw [Fin.lt_def, asI64, asI64]
  split <;> split <;> omega

theorem OrderKey.lt_def (a b : OrderKey) :
    a < b ↔ toLex (a.hlc, toLex (a.device, a.opId)) < toLex (b.hlc, toLex (b.device, b.opId)) := Iff.rfl

variable {a b : OrderKey}

/-- On one side of `2^63` the signed columns sort as the order keys do. -/
theorem SqlKey.of_lt_same (h : a.hlc.Low ↔ b.hlc.Low) : of a < of b ↔ a < b := by
  simp only [OrderKey.lt_def, of, Prod.Lex.toLex_lt_toLex, asI64_lt_same h]
  exact or_congr Iff.rfl (and_congr_left fun _ => ⟨asI64_inj, congrArg asI64⟩)

/-- Across `2^63` they sort the other way. -/
theorem SqlKey.of_lt_across (ha : a.hlc.Low) (hb : ¬b.hlc.Low) : of b < of a := by
  simp only [of, Prod.Lex.toLex_lt_toLex]
  exact .inl (lt_of_lt_of_le (asI64_high hb) (asI64_low ha))

theorem OrderKey.lt_across (ha : a.hlc.Low) (hb : ¬b.hlc.Low) : a < b := by
  simp only [OrderKey.lt_def, Prod.Lex.toLex_lt_toLex]
  refine .inl ?_
  rw [Fin.lt_def]
  have hlow : a.hlc.val < 2 ^ 63 := ha
  have hhigh : ¬b.hlc.val < 2 ^ 63 := hb
  omega

def OneSide (keys : List OrderKey) : Prop := (∀ k ∈ keys, k.hlc.Low) ∨ ∀ k ∈ keys, ¬k.hlc.Low

instance (keys : List OrderKey) : Decidable (OneSide keys) := inferInstanceAs (Decidable (_ ∨ _))

theorem OneSide.same {keys : List OrderKey} (h : OneSide keys) (ha : a ∈ keys) (hb : b ∈ keys) :
    a.hlc.Low ↔ b.hlc.Low := by
  rcases h with h | h
  · exact iff_of_true (h a ha) (h b hb)
  · exact iff_of_false (h a ha) (h b hb)

theorem not_oneSide {keys : List OrderKey} (h : ¬OneSide keys) :
    ∃ a ∈ keys, ∃ b ∈ keys, a.hlc.Low ∧ ¬b.hlc.Low := by
  simp only [OneSide, not_or, not_forall, not_not] at h
  obtain ⟨⟨b, hb, hhigh⟩, ⟨a, ha, hlow⟩⟩ := h
  exact ⟨a, ha, b, hb, hlow, hhigh⟩

/-- The greatest key in SQL is the greatest key exactly when no two keys are apart. -/
theorem max?_of_iff (keys : List OrderKey) :
    (keys.map of).max?.map orderKey = keys.max? ↔ OneSide keys := by
  cases hmax : keys.max? with
  | none =>
    rw [max?_eq_none_iff] at hmax
    simp [hmax, OneSide]
  | some m =>
    obtain ⟨hm, hle⟩ := max?_eq_some_iff.1 hmax
    constructor
    · intro h
      by_contra hside
      obtain ⟨a, ha, b, hb, hlow, hhigh⟩ := not_oneSide hside
      obtain ⟨s, hs, hsm⟩ := Option.map_eq_some_iff.1 h
      obtain ⟨hmem, hsle⟩ := max?_eq_some_iff.1 hs
      obtain ⟨m', -, rfl⟩ := mem_map.1 hmem
      rw [orderKey_of] at hsm
      subst hsm
      -- the greatest key is not low, the greatest SQL key is
      by_cases hml : m'.hlc.Low
      · exact absurd (hle b hb) (not_le.2 (OrderKey.lt_across hml hhigh))
      · exact absurd (hsle _ (mem_map_of_mem ha)) (not_le.2 (of_lt_across hlow hml))
    · intro h
      have hsql : (keys.map of).max? = some (of m) := by
        refine max?_eq_some_iff.2 ⟨mem_map_of_mem hm, fun s hs => ?_⟩
        obtain ⟨k, hk, rfl⟩ := mem_map.1 hs
        exact not_lt.1 fun hlt => absurd (hle k hk) (not_le.2 ((of_lt_same (h.same hm hk)).1 hlt))
      rw [hsql, Option.map_some, orderKey_of]

/-! ## Stored ops -/

/-- A log row that holds an op: its key, its envelope, and no payload of its own. -/
structure OplogRow.Holds (r : OplogRow) (op : SignedOp) : Prop where
  key : r.key = SqlKey.of op.orderKey
  envelope : r.envelope = op.toBytes
  payload : r.payload = []

variable {r : OplogRow} {op : SignedOp}

theorem OplogRow.Holds.key_eq (h : r.Holds op) :
    r.key = of r.key.orderKey := by
  rw [h.key, orderKey_of]

theorem OplogRow.Holds.orderKey (h : r.Holds op) :
    r.key.orderKey = op.orderKey := by
  rw [h.key, orderKey_of]

theorem OplogRow.Holds.opId (h : r.Holds op) : r.opId = op.id := by
  rw [OplogRow.opId, h.key, opId_of, SignedOp.orderKey_opId]

namespace OplogDb

/-- What appends and compaction make of the log: every row holds an applied op, every
arrival has its op. -/
structure Logged (db : OplogDb) : Prop where
  stream : db.StreamOk
  holds : ∀ r ∈ db.oplog, ∃ op : SignedOp, r.Holds op ∧ r.applied = true ∧ r.row.storeId = op.body.store
  arrived : ∀ a ∈ db.arrivals, ∃ r ∈ db.oplog, r.opId = a.opId

structure Stored (db : OplogDb) : Prop extends db.Logged where
  heads : db.HeadsOk

theorem logged_empty (epoch : Epoch) : (empty epoch).Logged :=
  ⟨streamOk_empty epoch, by simp [empty], by simp [empty]⟩

theorem stored_empty (epoch : Epoch) : (empty epoch).Stored := ⟨logged_empty epoch, headsOk_empty epoch⟩

theorem store_cases (db : OplogDb) (w : LogWrite) :
    ((∃ r ∈ db.oplog, r.opId = w.op.id) ∧ db.store w = db) ∨
      ((∀ r ∈ db.oplog, r.opId ≠ w.op.id) ∧
        (db.store w).oplog = db.oplog ++ [logRow w.op w.table w.rowPk w.origin] ∧
        (db.store w).arrivals = db.arrivals ++ [⟨db.lastSeq + 1, w.op.id, w.now⟩] ∧
        (db.store w).lastSeq = db.lastSeq + 1 ∧
        (db.store w).compactedThroughSeq = db.compactedThroughSeq ∧
        (db.store w).heads = ((db.withOp w.op w.table w.rowPk w.origin w.now).upsertHead w.op w.row).heads) := by
  by_cases hkn : ∃ r ∈ db.oplog, r.opId = w.op.id
  · exact .inl ⟨hkn, by rw [store, append_known hkn]⟩
  · have hnew : ∀ r ∈ db.oplog, r.opId ≠ w.op.id := fun r hr hid => hkn ⟨r, hr, hid⟩
    obtain ⟨harr, hlast, hflr⟩ := append_new_stream hnew w.table w.rowPk w.origin w.now
    exact .inr ⟨hnew, append_new_oplog hnew _ _ _ _, harr, hlast, hflr, append_new_heads hnew _ _ _ _⟩

theorem logRow_holds (op : SignedOp) (table rowPk : String) (origin : ℤ) :
    (logRow op table rowPk origin).Holds op :=
  ⟨rfl, rfl, rfl⟩

variable {db : OplogDb}

theorem Logged.store (h : db.Logged) (w : LogWrite) : (db.store w).Logged := by
  rcases store_cases db w with ⟨-, heq⟩ | ⟨hnew, hlog, harr, -⟩
  · rwa [heq]
  · have hfrs : ∀ a ∈ db.arrivals, a.opId ≠ w.op.id := by
      intro a ha hid
      obtain ⟨r, hr, hrid⟩ := h.arrived a ha
      exact hnew r hr (hrid.trans hid)
    refine ⟨h.stream.append (.inr hfrs) _ _ _ _, ?_, ?_⟩
    · rw [hlog]
      intro r hr
      rcases mem_append.1 hr with hr | hr
      · exact h.holds r hr
      · rw [mem_singleton.1 hr]
        exact ⟨w.op, logRow_holds _ _ _ _, rfl, rfl⟩
    · rw [hlog, harr]
      intro a ha
      rcases mem_append.1 ha with ha | ha
      · obtain ⟨r, hr, hid⟩ := h.arrived a ha
        exact ⟨r, mem_append_left _ hr, hid⟩
      · rw [mem_singleton.1 ha]
        exact ⟨_, mem_append_right _ (mem_singleton_self _), rfl⟩

theorem Stored.store (h : db.Stored) (w : LogWrite) : (db.store w).Stored :=
  ⟨h.toLogged.store w, append_headsOk h.heads _ _ _ _ _⟩

theorem Stored.storeAll (h : db.Stored) (ws : List LogWrite) : (db.storeAll ws).Stored := by
  induction ws generalizing db with
  | nil => exact h
  | cons w ws ih => exact ih (h.store w)

theorem storeAll_length (db : OplogDb) (ws : List LogWrite) :
    (db.storeAll ws).oplog.length ≤ db.oplog.length + ws.length := by
  induction ws generalizing db with
  | nil => exact le_rfl
  | cons w ws ih =>
    refine (ih (db.store w)).trans ?_
    rcases store_cases db w with ⟨-, heq⟩ | ⟨-, hlog, -⟩
    · rw [heq, length_cons]
      omega
    · rw [hlog, length_append, length_singleton, length_cons]
      omega

theorem Logged.compact (h : db.Logged) (isUpsert : List Byte → Bool) (pass : CompactionPass) :
    (db.compact isUpsert pass).Logged := by
  have hall := h.stream.compact_induct isUpsert pass
    (fun db' => (∀ r ∈ db'.oplog, ∃ op : SignedOp, r.Holds op ∧ r.applied = true ∧ r.row.storeId = op.body.store) ∧
      ∀ a ∈ db'.arrivals, ∃ r ∈ db'.oplog, r.opId = a.opId)
    ⟨h.holds, h.arrived⟩ ?_
  · exact ⟨hall.1, hall.2.1, hall.2.2⟩
  intro db' chunk hok _ _ hlog
  refine ⟨fun r hr => hlog.1 r (mem_deleteOpsChunk_oplog.1 hr).1, fun a ha => ?_⟩
  have ha' := deleteOpsChunk_arrivals_sublist.subset ha
  obtain ⟨r, hr, hid⟩ := hlog.2 a ha'
  exact ⟨r, mem_deleteOpsChunk_oplog.2 ⟨hr, (arrival_kept_iff hok.ids ha' hr hid).1 ha⟩, hid⟩

theorem Logged.step (h : db.Logged) (isUpsert : List Byte → Bool) (event : LogEvent) :
    (db.logStep isUpsert event).Logged := by
  cases event with
  | append w => exact h.store w
  | compact pass => exact h.compact isUpsert pass

end OplogDb

end ProxyNode
