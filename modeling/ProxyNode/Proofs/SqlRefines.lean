import ProxyNode.Proofs.SqlOrder
import ProxyNode.Sanity.LogReads
import ProxyNode.Sanity.Mirror

/-! The op log in SQLite refines the log in memory: built by the same appends of readings
below `2^63`, the two answer alike, except behind a cursor at or above `2^63`. -/

namespace ProxyNode

open OplogDb List

namespace OpLog

variable {log : OpLog}

theorem mem_appendAll {ws : List LogWrite} {op : SignedOp} (h : op ∈ (log.appendAll ws).arrivals) :
    op ∈ log.arrivals ∨ ∃ w ∈ ws, w.op = op := by
  induction ws generalizing log with
  | nil => exact .inl h
  | cons w ws ih =>
    rcases ih h with h | ⟨w', hw', rfl⟩
    · rcases mem_arrivals_append h with h | rfl
      · exact .inl h
      · exact .inr ⟨w, mem_cons_self, rfl⟩
    · exact .inr ⟨w', mem_cons_of_mem w hw', rfl⟩

end OpLog

namespace OplogDb

/-- The skip scan meets, in ascending order, every device above its start. -/
theorem skipScan_spec (db : OplogDb) (turns : ℕ) (d : Option DeviceId)
    (hturns : ((db.oplog.map (·.device)).filter fun device => d.all (· < device)).length ≤ turns) :
    (db.skipScan turns d).Pairwise (· < ·) ∧
      ∀ x, x ∈ db.skipScan turns d ↔ x ∈ db.oplog.map (·.device) ∧ d.all (· < x) = true := by
  induction turns generalizing d with
  | zero =>
    have hnil := eq_nil_of_length_eq_zero (Nat.le_zero.1 hturns)
    refine ⟨List.Pairwise.nil, fun x => ⟨fun hx => absurd hx not_mem_nil, fun hx => ?_⟩⟩
    exact absurd (hnil ▸ mem_filter.2 hx) not_mem_nil
  | succ turns ih =>
    rw [skipScan]
    cases hnext : db.nextOrigin d with
    | none =>
      rw [nextOrigin, min?_eq_none_iff] at hnext
      refine ⟨List.Pairwise.nil, fun x => ⟨fun hx => absurd hx not_mem_nil, fun hx => ?_⟩⟩
      exact absurd (hnext ▸ mem_filter.2 hx) not_mem_nil
    | some m =>
      obtain ⟨hm, hle⟩ := min?_eq_some_iff.1 hnext
      rw [mem_filter] at hm
      -- past the least device there is one row less to meet
      have hstep : ∀ x, (some m).all (· < x) = true → d.all (· < x) = true := by
        intro x hx
        cases d with
        | none => rfl
        | some d =>
          simp only [Option.all_some, decide_eq_true_eq] at hx hm ⊢
          exact hm.2.trans hx
      have hfewer : ((db.oplog.map (·.device)).filter fun x => (some m).all (· < x)).length ≤ turns := by
        have hsub : ((db.oplog.map (·.device)).filter fun x => (some m).all (· < x)) =
            (((db.oplog.map (·.device)).filter fun x => d.all (· < x)).filter fun x => (some m).all (· < x)) := by
          rw [filter_filter]
          refine filter_congr fun x _ => ?_
          by_cases hx : (some m).all (· < x) = true
          · rw [hx, hstep x hx]
            rfl
          · rw [Bool.not_eq_true] at hx
            rw [hx, Bool.false_and]
        rw [hsub]
        refine Nat.le_of_lt_succ (lt_of_lt_of_le (length_filter_lt_length_iff_exists.2 ?_) hturns)
        exact ⟨m, mem_filter.2 hm, by simp⟩
      obtain ⟨hpair, hmem⟩ := ih (some m) hfewer
      refine ⟨pairwise_cons.2 ⟨fun x hx => by simpa using ((hmem x).1 hx).2, hpair⟩, fun x => ?_⟩
      rw [mem_cons, hmem]
      constructor
      · rintro (rfl | ⟨hx, hlt⟩)
        · exact hm
        · exact ⟨hx, hstep x hlt⟩
      · rintro ⟨hx, hd⟩
        rcases eq_or_lt_of_le (hle x (mem_filter.2 ⟨hx, hd⟩)) with heq | hlt
        · exact .inl heq.symm
        · exact .inr ⟨hx, by simpa using hlt⟩

theorem origins_spec (db : OplogDb) :
    db.origins.Pairwise (· < ·) ∧ ∀ x, x ∈ db.origins ↔ x ∈ db.oplog.map (·.device) := by
  have hturns : ((db.oplog.map (·.device)).filter fun device => (none : Option DeviceId).all (· < device)).length ≤
      db.oplog.length := by
    refine (length_filter_le _ _).trans ?_
    rw [length_map]
  obtain ⟨hsrt, hmem⟩ := skipScan_spec db db.oplog.length none hturns
  exact ⟨hsrt, fun x => (hmem x).trans (and_iff_left rfl)⟩

end OplogDb

namespace Mirrors

variable {db : OplogDb} {log : OpLog}

def AllLow (log : OpLog) : Prop := ∀ op ∈ log.arrivals, op.body.hlc.Low

theorem head_eq (h : Mirrors db log) (hlow : AllLow log) : db.head = log.head := by
  have hkeys : db.oplog.map (·.key.orderKey) = log.arrivals.map SignedOp.orderKey := by
    have hcols := congrArg (map fun c => c.1.orderKey) h.rows
    rw [map_map, map_map] at hcols
    refine hcols.trans (map_congr_left fun op _ => ?_)
    exact SqlKey.orderKey_of op.orderKey
  have hside : OneSide (db.oplog.map (·.key.orderKey)) := by
    rw [hkeys]
    refine .inl fun k hk => ?_
    obtain ⟨op, hop, rfl⟩ := mem_map.1 hk
    exact hlow op hop
  rw [h.stored.head_iff.2 hside, headByKey, hkeys, OpLog.head_eq]

def sqlSince (log : OpLog) (cursor : OrderKey) : List SignedOp :=
  (log.arrivals.filter fun op => SqlKey.of cursor < SqlKey.of op.orderKey).orderBy fun op => SqlKey.of op.orderKey

theorem since_eq (h : Mirrors db log) (hlen : db.oplog.length < 2 ^ 63)
    (hv : ∀ op ∈ log.arrivals, op.body.v = envelopeVersion) (cursor : OrderKey) (limit : ℕ) :
    db.since cursor limit = (sqlSince log cursor).take limit := by
  have hread := h.read (fun c => SqlKey.of cursor < c.1) (fun c => c.1)
  have hlength : ((db.oplog.filter fun r => SqlKey.of cursor < r.key).orderBy (·.key)).length < 2 ^ 63 := by
    rw [length_orderBy]
    exact lt_of_le_of_lt (length_filter_le _ _) hlen
  have hdec : ∀ rows : List OplogRow, ∀ ops : List SignedOp,
      rows.map OplogRow.columns = ops.map SignedOp.columns → (∀ op ∈ ops, op.body.v = envelopeVersion) →
      rows.filterMap (fun r => (SignedOp.fromBytes r.envelope).toOption) = ops := by
    intro rows ops hcols hops
    have hmap : rows.filterMap (fun r => (SignedOp.fromBytes r.envelope).toOption) =
        (rows.map OplogRow.columns).filterMap fun c => (SignedOp.fromBytes c.2.1).toOption := by
      rw [filterMap_map]
      rfl
    rw [hmap, hcols, filterMap_map]
    refine (filterMap_congr fun op hop => ?_).trans (filterMap_some)
    simp only [Function.comp, SignedOp.columns, SignedOp.fromBytes_toBytes (hops op hop), Except.toOption]
  rw [since, sqlLimit_eq hlength]
  refine hdec _ _ ?_ fun op hop => ?_
  · rw [map_take, map_take]
    exact congrArg (take limit) hread
  · have hop := mem_of_mem_take hop
    rw [sqlSince, mem_orderBy, mem_filter] at hop
    exact hv op hop.1

/-- Pages agree behind a cursor below `2^63`, and behind no other unless there is nothing
to serve. -/
theorem since_iff (h : Mirrors db log) (hlen : db.oplog.length < 2 ^ 63) (hlow : AllLow log)
    (hv : ∀ op ∈ log.arrivals, op.body.v = envelopeVersion) (cursor : OrderKey) :
    (∀ limit, db.since cursor limit = (log.since cursor).take limit) ↔ cursor.hlc.Low ∨ log.arrivals = [] := by
  simp only [h.since_eq hlen hv]
  constructor
  · intro hall
    by_contra hne
    simp only [not_or] at hne
    obtain ⟨op, hop⟩ := exists_mem_of_ne_nil _ hne.2
    have hmem : op ∈ sqlSince log cursor := by
      rw [sqlSince, mem_orderBy, mem_filter, decide_eq_true_eq]
      exact ⟨hop, SqlKey.of_lt_across (hlow op hop) hne.1⟩
    have hfull := hall ((sqlSince log cursor).length + (log.since cursor).length)
    rw [take_of_length_le (by omega), take_of_length_le (by omega)] at hfull
    rw [hfull, OpLog.mem_since] at hmem
    exact absurd hmem.2 (OrderKey.lt_across (hlow op hop) hne.1).not_gt
  · rintro (hcur | hnil) limit
    · congr 1
      have hside : ∀ op ∈ log.arrivals, cursor.hlc.Low ↔ op.orderKey.hlc.Low :=
        fun op hop => iff_of_true hcur (hlow op hop)
      have hfil : (log.arrivals.filter fun op => SqlKey.of cursor < SqlKey.of op.orderKey) =
          log.arrivals.filter fun op => cursor < op.orderKey :=
        filter_congr fun op hop => by rw [decide_eq_decide, SqlKey.of_lt_same (hside op hop)]
      rw [sqlSince, hfil, OpLog.since_eq]
      refine orderBy_congr (log.arrivals_keys_nodup.sublist (filter_sublist.map _)) ?_
      intro a ha b hb hlt
      have ha' := hside a (mem_filter.1 ha).1
      have hb' := hside b (mem_filter.1 hb).1
      exact (SqlKey.of_lt_same (ha'.symm.trans hb')).2 hlt
    · rw [sqlSince, OpLog.since_eq, hnil]
      rfl

/-! ## Origins -/

theorem mem_devices (h : Mirrors db log) {d : DeviceId} :
    d ∈ db.oplog.map (·.device) ↔ ∃ op ∈ log.arrivals, op.body.device = d := by
  have hcols := congrArg (map fun c => (ofLex (ofLex c.1).2).1) h.rows
  rw [map_map, map_map] at hcols
  have hdevs : db.oplog.map (·.device) = log.arrivals.map (·.body.device) := hcols
  rw [hdevs, mem_map]

theorem origins_eq (h : Mirrors db log) : db.origins = log.origins := by
  obtain ⟨hsrt, hmem⟩ := origins_spec db
  refine List.Perm.eq_of_pairwise (fun a b _ _ hab hba => absurd hab hba.not_gt) hsrt log.origins_sorted ?_
  refine (perm_ext_iff_of_nodup (hsrt.imp fun hlt => hlt.ne)
    (log.origins_sorted.imp fun hlt => hlt.ne)).2 ?_
  intro d
  rw [hmem, h.mem_devices, OpLog.mem_origins]

/-- `(hlc, op_id)` of an op, as its columns hold them. -/
def sqlOriginKey (op : SignedOp) : ℤ ×ₗ List Byte := toLex (asI64 op.body.hlc, op.id.1)

def sqlOriginOps (log : OpLog) (origin : DeviceId) (after : Option OrderKey) (store : Option (List Byte)) :
    List SignedOp :=
  (log.arrivals.filter fun op => op.body.device = origin ∧ OpLog.ofStore store op ∧
    OplogDb.originBound after < sqlOriginKey op).orderBy sqlOriginKey

theorem sqlOriginKeys_nodup (log : OpLog) : (log.arrivals.map sqlOriginKey).Nodup := by
  have hids := log.arrivals_ids_nodup.map Subtype.val_injective
  rw [map_map] at hids
  refine List.Nodup.of_map (fun k => (ofLex k).2) ?_
  rw [map_map]
  exact hids

/-- For one device, comparing the device column as well changes nothing. -/
theorem triple_lt {x y : ℤ} {d : List Byte} {i j : List Byte} :
    toLex (x, toLex (d, i)) < toLex (y, toLex (d, j)) ↔ toLex (x, i) < toLex (y, j) := by
  simp [Prod.Lex.toLex_lt_toLex]

/-- A page of one origin, by a filter and a key on the columns. -/
theorem page_eq (h : Mirrors db log) (hlen : db.oplog.length < 2 ^ 63) {origin : DeviceId} {κ : Type*}
    [LinearOrder κ] (p : SqlKey × List Byte × StoreId → Bool) (key : SqlKey × List Byte × StoreId → κ)
    (hp : ∀ op ∈ log.arrivals, p op.columns = true → op.body.device = origin) (limit : ℕ) :
    (sqlLimit limit ((db.oplog.filter fun r => p r.columns).orderBy fun r => key r.columns)).map
        (fun r => ((⟨asU64 r.hlc, origin, r.opId⟩ : OrderKey), r.envelope)) =
      (((log.arrivals.filter fun op => p op.columns).orderBy fun op => key op.columns).take limit).map
        fun op => (op.orderKey, op.toBytes) := by
  have hread := congrArg (take limit) (h.read p key)
  have hlength : ((db.oplog.filter fun r => p r.columns).orderBy fun r => key r.columns).length < 2 ^ 63 := by
    rw [length_orderBy]
    exact lt_of_le_of_lt (length_filter_le _ _) hlen
  rw [sqlLimit_eq hlength]
  rw [← map_take, ← map_take] at hread
  have hpage := congrArg (map fun c : SqlKey × List Byte × StoreId =>
    ((⟨asU64 (ofLex c.1).1, origin, c.1.opId⟩ : OrderKey), c.2.1)) hread
  rw [map_map, map_map] at hpage
  refine hpage.trans (map_congr_left fun op hop => ?_)
  have hop := mem_filter.1 ((mem_orderBy _).1 (mem_of_mem_take hop))
  have hkey : (⟨asU64 (asI64 op.body.hlc), op.body.device, op.id⟩ : OrderKey) = op.orderKey := by
    rw [asU64_asI64]
    rfl
  rw [← hp op hop.1 hop.2, ← hkey]
  rfl

theorem originSince_eq (h : Mirrors db log) (hlen : db.oplog.length < 2 ^ 63) (origin : DeviceId)
    (after : Option OrderKey) (store : Option (List Byte)) (limit : ℕ) :
    db.originSince origin after store limit =
      ((sqlOriginOps log origin after store).take limit).map fun op => (op.orderKey, op.toBytes) := by
  cases store with
  | none =>
    have hpage := h.page_eq hlen (fun c => (ofLex (ofLex c.1).2).1 = origin ∧
        originBound after < toLex ((ofLex c.1).1, c.1.opId.1))
      (fun c => toLex ((ofLex c.1).1, c.1.opId.1)) (fun op _ hp => (of_decide_eq_true hp).1) limit
    refine hpage.trans ?_
    congr 2
    have hfil : (log.arrivals.filter fun op => op.body.device = origin ∧ OpLog.ofStore none op ∧
        originBound after < sqlOriginKey op) = log.arrivals.filter fun op => op.body.device = origin ∧
        originBound after < sqlOriginKey op :=
      filter_congr fun op _ => by simp [OpLog.ofStore]
    rw [sqlOriginOps, hfil]
    rfl
  | some store =>
    have hpage := h.page_eq hlen (fun c => c.2.2.1 = store ∧ (ofLex (ofLex c.1).2).1 = origin ∧
        toLex (after.elim (-1) fun key => asI64 key.hlc, toLex (origin.1, after.elim [] fun key => key.opId.1)) <
          toLex ((ofLex c.1).1, toLex ((ofLex (ofLex c.1).2).1.1, c.1.opId.1)))
      (fun c => toLex ((ofLex c.1).1, toLex ((ofLex (ofLex c.1).2).1.1, c.1.opId.1)))
      (fun op _ hp => (of_decide_eq_true hp).2.1) limit
    refine hpage.trans ?_
    congr 2
    have hfil : (log.arrivals.filter fun op => op.body.store.1 = store ∧ op.body.device = origin ∧
        toLex (after.elim (-1) fun key => asI64 key.hlc, toLex (origin.1, after.elim [] fun key => key.opId.1)) <
          toLex (asI64 op.body.hlc, toLex (op.body.device.1, op.id.1))) =
        log.arrivals.filter fun op => op.body.device = origin ∧ OpLog.ofStore (some store) op ∧
          originBound after < sqlOriginKey op := by
      refine filter_congr fun op _ => ?_
      rw [decide_eq_decide]
      constructor
      · rintro ⟨hst, rfl, hlt⟩
        exact ⟨rfl, by simpa [OpLog.ofStore] using hst, triple_lt.1 hlt⟩
      · rintro ⟨rfl, hst, hlt⟩
        exact ⟨by simpa [OpLog.ofStore] using hst, rfl, triple_lt.2 hlt⟩
    rw [sqlOriginOps, ← hfil]
    refine (orderBy_congr ((sqlOriginKeys_nodup log).sublist (filter_sublist.map _)) ?_)
    intro a ha b hb hlt
    have hda : a.body.device = origin := (of_decide_eq_true (mem_filter.1 ha).2).2.1
    have hdb : b.body.device = origin := (of_decide_eq_true (mem_filter.1 hb).2).2.1
    have hpair : toLex (asI64 a.body.hlc, toLex (a.body.device.1, a.id.1)) <
        toLex (asI64 b.body.hlc, toLex (b.body.device.1, b.id.1)) := by
      rw [hda, hdb]
      exact triple_lt.2 hlt
    exact hpair

/-- Where the bounds take the same ops of an origin, the pages read the same ops. -/
theorem sqlOriginOps_eq (hlow : AllLow log) {origin : DeviceId} {after : Option OrderKey}
    {store : Option (List Byte)} (hbd : ∀ op ∈ log.arrivals, op.body.device = origin →
      (originBound after < sqlOriginKey op ↔ after.all (· < op.orderKey) = true)) :
    sqlOriginOps log origin after store = log.originOpsIn origin after store := by
  have hfil : (log.arrivals.filter fun op => op.body.device = origin ∧ OpLog.ofStore store op ∧
      originBound after < sqlOriginKey op) = log.arrivals.filter fun op => op.body.device = origin ∧
        OpLog.ofStore store op ∧ after.all (· < op.orderKey) := by
    refine filter_congr fun op hop => ?_
    rw [decide_eq_decide]
    exact and_congr_right fun hd => and_congr_right fun _ => hbd op hop hd
  rw [sqlOriginOps, OpLog.originOpsIn, hfil]
  refine orderBy_congr (log.arrivals_keys_nodup.sublist (filter_sublist.map _)) ?_
  intro a ha b hb hlt
  rw [mem_filter, decide_eq_true_eq] at ha hb
  -- one device on one side of the sign bit
  have hside : a.orderKey.hlc.Low ↔ b.orderKey.hlc.Low := iff_of_true (hlow a ha.1) (hlow b hb.1)
  have hdev : a.orderKey.device = b.orderKey.device := ha.2.1.trans hb.2.1.symm
  simp only [OrderKey.lt_def, Prod.Lex.toLex_lt_toLex, hdev, lt_self_iff_false, false_or, true_and] at hlt
  rcases hlt with hlt | ⟨heq, hid⟩
  · exact Prod.Lex.toLex_lt_toLex.2 (.inl ((asI64_lt_same hside).2 hlt))
  · exact Prod.Lex.toLex_lt_toLex.2 (.inr ⟨congrArg asI64 heq, hid⟩)

theorem originSince_none_eq (h : Mirrors db log) (hlen : db.oplog.length < 2 ^ 63) (hlow : AllLow log)
    (origin : DeviceId) (store : Option (List Byte)) {limit : ℕ} (hlim : 1 ≤ limit) :
    db.originSince origin none store limit = log.originSince origin none store limit := by
  have hops : sqlOriginOps log origin none store = log.originOpsIn origin none store := by
    refine sqlOriginOps_eq hlow fun op hop _ => iff_of_true ?_ rfl
    exact (originBound_none_lt op.orderKey).2 (.inl (hlow op hop))
  rw [h.originSince_eq hlen, OpLog.originSince_store_eq, hops, max_eq_left hlim]

/-- Pages of an origin after one of its keys agree when the key is below `2^63`, and
otherwise only if there is nothing of the origin to serve. -/
theorem originSince_some_iff (h : Mirrors db log) (hlen : db.oplog.length < 2 ^ 63) (hlow : AllLow log)
    (a : OrderKey) (store : Option (List Byte)) :
    (∀ limit, 1 ≤ limit → db.originSince a.device (some a) store limit =
        log.originSince a.device (some a) store limit) ↔
      a.hlc.Low ∨ ∀ op ∈ log.arrivals, op.body.device = a.device → OpLog.ofStore store op = false := by
  constructor
  · intro hall
    by_contra hne
    simp only [not_or, not_forall, Bool.not_eq_false] at hne
    obtain ⟨hhigh, op, hop, hdevice, hsto⟩ := hne
    have hmem : op ∈ sqlOriginOps log a.device (some a) store := by
      rw [sqlOriginOps, mem_orderBy, mem_filter, decide_eq_true_eq]
      refine ⟨hop, hdevice, hsto, Prod.Lex.toLex_lt_toLex.2 (.inl ?_)⟩
      exact lt_of_lt_of_le (asI64_high hhigh) (asI64_low (hlow op hop))
    generalize hn :
      (sqlOriginOps log a.device (some a) store).length + (log.originOpsIn a.device (some a) store).length = n
    have hfull := hall (n + 1) (by omega)
    rw [h.originSince_eq hlen, OpLog.originSince_store_eq, take_of_length_le (by omega),
      take_of_length_le (by omega)] at hfull
    have hkey : (op.orderKey, op.toBytes) ∈
        (log.originOpsIn a.device (some a) store).map fun op => (op.orderKey, op.toBytes) := by
      rw [← hfull]
      exact mem_map_of_mem hmem
    obtain ⟨op', hop', heq⟩ := mem_map.1 hkey
    rw [OpLog.originOpsIn, mem_orderBy, mem_filter, decide_eq_true_eq] at hop'
    have hlt : a < op'.orderKey := by simpa using hop'.2.2.2
    have hsame : op'.orderKey = op.orderKey := (Prod.ext_iff.1 heq).1
    rw [hsame] at hlt
    exact absurd hlt (OrderKey.lt_across (hlow op hop) hhigh).not_gt
  · intro hcond limit hlim
    rw [h.originSince_eq hlen, OpLog.originSince_store_eq, max_eq_left hlim]
    rcases hcond with hcond | hcond
    · congr 2
      refine sqlOriginOps_eq hlow fun op hop hdevice => ?_
      rw [Option.all_some, decide_eq_true_eq]
      refine (originBound_lt_iff a op.orderKey).2 ⟨iff_of_true (hlow op hop) hcond, fun heq => ?_⟩
      have hdev : a.device = op.orderKey.device := hdevice.symm
      simp [OrderKey.lt_def, Prod.Lex.toLex_lt_toLex, heq, hdev]
    · have hnone : sqlOriginOps log a.device (some a) store = [] ∧
        log.originOpsIn a.device (some a) store = [] := by
        rw [sqlOriginOps, OpLog.originOpsIn, orderBy_eq_nil, orderBy_eq_nil, filter_eq_nil_iff,
          filter_eq_nil_iff]
        constructor <;>
        · intro op hop hp
          have hp := of_decide_eq_true hp
          rw [hcond op hop hp.1] at hp
          exact Bool.noConfusion hp.2.1
      rw [hnone.1, hnone.2]

/-! ## Arrivals -/

theorem find?_columns (h : Mirrors db log) {op : SignedOp} (hop : op ∈ log.arrivals) :
    (db.oplog.find? (·.opId = op.id)).map OplogRow.columns = some op.columns := by
  have hmem : op.columns ∈ db.oplog.map OplogRow.columns := by
    rw [h.rows]
    exact mem_map_of_mem hop
  obtain ⟨r, hr, hcols⟩ := mem_map.1 hmem
  have hid : r.opId = op.id := congrArg (fun c => c.1.opId) hcols
  rw [← hid, find?_opId h.stored.stream.ids hr, Option.map_some, hcols]

theorem joined_columns (h : Mirrors db log) :
    db.joined.map (fun e => (e.1.relaySeq, e.2.columns)) = log.arrivals.zipIdx.map fun e =>
      (e.2 + 1, e.1.columns) := by
  have hmap : db.joined.map (fun e => (e.1.relaySeq, e.2.columns)) =
      (db.arrivals.map fun a => (a.relaySeq, a.opId)).filterMap fun p =>
        (db.oplog.find? (·.opId = p.2)).map fun r => (p.1, r.columns) := by
    rw [joined, map_filterMap, filterMap_map]
    refine filterMap_congr fun a _ => ?_
    rw [Option.map_map]
    rfl
  rw [hmap, h.arrivals, filterMap_map]
  refine (filterMap_congr fun e he => ?_).trans (congrFun filterMap_eq_map _)
  have hfind := h.find?_columns (fst_mem_of_mem_zipIdx he)
  have hpair := congrArg (Option.map fun c => (e.2 + 1, c)) hfind
  rw [Option.map_map] at hpair
  exact hpair

theorem decodeEnvelopes_eq {rows : List (Arrival × OplogRow)} {es : List (SignedOp × ℕ)}
    (h : rows.map (fun e => (e.1.relaySeq, e.2.columns)) = es.map fun e => (e.2 + 1, e.1.columns))
    (hv : ∀ e ∈ es, e.1.body.v = envelopeVersion) :
    decodeEnvelopes rows = .ok (es.map fun e => (e.2 + 1, e.1, e.1.toBytes)) := by
  induction rows generalizing es with
  | nil =>
    rw [map_nil, eq_comm, map_eq_nil_iff] at h
    rw [h]
    rfl
  | cons row rows ih =>
    cases es with
    | nil => simp at h
    | cons e es =>
      obtain ⟨hve, hvs⟩ := forall_mem_cons.1 hv
      rw [map_cons, map_cons, cons.injEq, Prod.mk.injEq] at h
      obtain ⟨⟨hseq, hcols⟩, hrest⟩ := h
      have henv : row.2.envelope = e.1.toBytes := congrArg (fun c => c.2.1) hcols
      obtain ⟨a, r⟩ := row
      simp only at hseq henv
      rw [decodeEnvelopes, henv, SignedOp.fromBytes_toBytes hve, ih hrest hvs, hseq]
      rfl

theorem relaySinceWithEnvelopes_eq (h : Mirrors db log) (hv : ∀ op ∈ log.arrivals, op.body.v = envelopeVersion)
    {after limit : ℕ} (haft : after < 2 ^ 63) (hlim : limit < 2 ^ 63) :
    db.relaySinceWithEnvelopes after limit = .ok (log.relaySinceWithEnvelopes after limit) := by
  rw [relaySinceWithEnvelopes, if_neg (by omega), if_neg (by omega)]
  have hordered : ((db.joined.filter (·.1.relaySeq > after)).orderBy (·.1.relaySeq)) =
      db.joined.filter (·.1.relaySeq > after) := by
    exact orderBy_of_pairwise _ ((h.stored.stream.joined_ascending.imp le_of_lt).filter _)
  have hcols : (((db.joined.filter (·.1.relaySeq > after)).orderBy (·.1.relaySeq)).take limit).map
        (fun e => (e.1.relaySeq, e.2.columns)) =
      ((log.arrivals.zipIdx.drop after).take limit).map fun e => (e.2 + 1, e.1.columns) := by
    have hfil := congrArg (filter fun p => decide (p.1 > after)) h.joined_columns
    rw [filter_map, filter_map] at hfil
    have hdrop : log.arrivals.zipIdx.filter (fun e => decide (e.2 + 1 > after)) =
      log.arrivals.zipIdx.drop after := by
      rw [← Nat.sub_zero after, ← filter_zipIdx]
      refine filter_congr fun e _ => ?_
      rw [decide_eq_decide, Nat.sub_zero]
      omega
    rw [hordered, map_take, map_take, ← hdrop]
    exact congrArg (take limit) hfil
  rw [decodeEnvelopes_eq hcols, OpLog.relaySinceWithEnvelopes_eq]
  · rw [drop_zipIdx, take_zipIdx, Nat.zero_add]
  · intro e he
    exact hv e.1 (fst_mem_of_mem_zipIdx (mem_of_mem_drop (mem_of_mem_take he)))

theorem relayState_eq (h : Mirrors db log) :
    (db.relayStreamState.head, db.relayStreamState.floor) = (log.relayState.head, log.relayState.floor) := by
  have hhead : db.headSeq = log.arrivals.length := h.stored.stream.headSeq_eq.trans h.last
  simp only [relayStreamState, hhead, h.floor, OpLog.relayState_head]
  rfl

end Mirrors

/-- The two logs after the same appends answer alike: whether they hold an id, their head,
their origins, the pages of an origin from its start, the arrival stream and its bounds. A
page behind a cursor, and a page of an origin behind one of its keys, agree exactly when that
key is below `2^63` or there is nothing to serve. -/
theorem sqlite_refines_memory (epoch random : Epoch) (ws : List LogWrite) (hlen : ws.length < 2 ^ 63)
    (hv : ∀ w ∈ ws, w.op.body.v = envelopeVersion) (hlow : ∀ w ∈ ws, w.op.body.hlc.val < 2 ^ 63)
    (db : OplogDb) (hdb : db = (OplogDb.empty epoch).storeAll ws)
    (log : OpLog) (hlog : log = (OpLog.new random).appendAll ws) :
    (∀ id, db.contains id = log.contains id) ∧ db.head = log.head ∧ db.origins = log.origins ∧
      (∀ cursor, (∀ limit, db.since cursor limit = (log.since cursor).take limit) ↔
        cursor.hlc.val < 2 ^ 63 ∨ log.arrivals = []) ∧
      (∀ origin store limit, 1 ≤ limit →
        db.originSince origin none store limit = log.originSince origin none store limit) ∧
      (∀ a store, (∀ limit, 1 ≤ limit → db.originSince a.device (some a) store limit =
          log.originSince a.device (some a) store limit) ↔
        a.hlc.val < 2 ^ 63 ∨ ∀ op ∈ log.arrivals, op.body.device = a.device → OpLog.ofStore store op = false) ∧
      (∀ after limit, after < 2 ^ 63 → limit < 2 ^ 63 →
        db.relaySinceWithEnvelopes after limit = .ok (log.relaySinceWithEnvelopes after limit)) ∧
      (db.relayStreamState.head, db.relayStreamState.floor) = (log.relayState.head, log.relayState.floor) := by
  have h : Mirrors db log := hdb ▸ hlog ▸ (Mirrors.empty epoch random).storeAll ws
  have hops : ∀ op ∈ log.arrivals, ∃ w ∈ ws, w.op = op := by
    intro op hop
    rw [hlog] at hop
    exact (OpLog.mem_appendAll hop).resolve_left List.not_mem_nil
  have hlow' : Mirrors.AllLow log := by
    intro op hop
    obtain ⟨w, hw, rfl⟩ := hops op hop
    exact hlow w hw
  have hv' : ∀ op ∈ log.arrivals, op.body.v = envelopeVersion := by
    intro op hop
    obtain ⟨w, hw, rfl⟩ := hops op hop
    exact hv w hw
  have hlen' : db.oplog.length < 2 ^ 63 := by
    rw [hdb]
    refine lt_of_le_of_lt (OplogDb.storeAll_length (OplogDb.empty epoch) ws) ?_
    simpa [OplogDb.empty] using hlen
  exact ⟨h.contains_eq, h.head_eq hlow', h.origins_eq, h.since_iff hlen' hlow' hv',
    fun origin store limit hlim => h.originSince_none_eq hlen' hlow' origin store hlim,
    h.originSince_some_iff hlen' hlow', fun after limit haft hlim =>
      h.relaySinceWithEnvelopes_eq hv' haft hlim,
    h.relayState_eq⟩

theorem sqlite_refines_memory_two_ops :
    ((OplogDb.empty (Wire.fill 32 7)).storeAll (OplogDb.twoReadings 5 3)).head =
      ((OpLog.new (Wire.fill 32 8)).appendAll (OplogDb.twoReadings 5 3)).head :=
  (sqlite_refines_memory (Wire.fill 32 7) (Wire.fill 32 8) (OplogDb.twoReadings 5 3) (by decide) (by decide)
    (by decide)
    _ rfl _ rfl).2.1

/-- Behind a cursor at `2^63` SQLite serves the whole log, the log in memory nothing. -/
theorem sqlite_serves_behind_high_cursor :
    (((OplogDb.empty (Wire.fill 32 7)).storeAll (OplogDb.twoReadings 5 3)).since
        ⟨2 ^ 63, Wire.fill 32 1, Wire.fill 32 0⟩ 10).length = 2 ∧
      (((OpLog.new (Wire.fill 32 8)).appendAll (OplogDb.twoReadings 5 3)).since
        ⟨2 ^ 63, Wire.fill 32 1, Wire.fill 32 0⟩) = [] ∧
      (((OplogDb.empty (Wire.fill 32 7)).storeAll (OplogDb.twoReadings 5 3)).originSince (Wire.fill 32 1)
        (some ⟨2 ^ 63, Wire.fill 32 1, Wire.fill 32 0⟩) none 10).length = 2 ∧
      ((OpLog.new (Wire.fill 32 8)).appendAll (OplogDb.twoReadings 5 3)).originSince (Wire.fill 32 1)
        (some ⟨2 ^ 63, Wire.fill 32 1, Wire.fill 32 0⟩) none 10 = [] := by
  refine ⟨?_, ?_, ?_, ?_⟩ <;> decide +kernel

end ProxyNode
