import ProxyNode.Sanity.Heads
import ProxyNode.Sanity.RowWrite

/-! Deliveries of row changes. Whichever of the two comes first, the guard compares a change
with the changes delivered before it; what a delivery does to the table is said once here,
and an invariant of such steps holds along a run. -/

namespace ProxyNode

open List

section

variable {R : Type} [SqlReal R]

/-- The changes of one table and store: ops the table can take, clock readings that SQL
compares as they are, and ids that are content addresses. -/
structure TableOps (s : Schema R) (name : String) (locals : List String) (store : StoreId)
    (ops : List (RowChange R)) : Prop where
  name_valid : isValidIdent name = true
  name_shared : name ∉ locals
  table : ∀ c ∈ ops, c.op.table = name
  store : ∀ c ∈ ops, c.signed.body.store = store
  fits : ∀ c ∈ ops, FitsSchema s c.op
  hlc : ∀ c ∈ ops, c.signed.body.hlc.val < 2 ^ 63
  ids : ∀ a ∈ ops, ∀ b ∈ ops, a.signed.id = b.signed.id → a = b

abbrev RowChange.orderKey (c : RowChange R) : OrderKey := c.signed.orderKey

theorem rowPk_of_keyValues {a b : ProxyDbOp R} (h : a.keyValues = b.keyValues) : a.rowPk = b.rowPk := by
  have hrender : ∀ op : ProxyDbOp R, op.key.map (·.val.render) = op.keyValues.map Scalar.render := by
    intro op
    rw [ProxyDbOp.keyValues, map_map]
    rfl
  rw [ProxyDbOp.rowPk, ProxyDbOp.rowPk, hrender, hrender, h]

/-! ## The log against the changes delivered -/

variable {s : Schema R} {name : String} {locals : List String} {store : StoreId} {ops seen : List (RowChange R)}

omit [SqlReal R] in
theorem TableOps.eq_of_orderKey (hops : TableOps s name locals store ops) {a b : RowChange R}
    (ha : a ∈ ops) (hb : b ∈ ops) (h : a.orderKey = b.orderKey) : a = b :=
  hops.ids a ha b hb (congrArg OrderKey.opId h)

structure Logs (store : StoreId) (name : String) (r : OplogRow) (c : RowChange R) : Prop where
  key : r.key = SqlKey.of c.orderKey
  row : r.row = ⟨store, name, c.op.rowPk⟩
  applied : r.applied = true

structure LogOk (store : StoreId) (name : String) (log : OplogDb) (seen : List (RowChange R)) : Prop where
  heads : log.HeadsOk
  rows : ∀ r ∈ log.oplog, ∃ c ∈ seen, Logs store name r c
  logged : ∀ c ∈ seen, ∃ r ∈ log.oplog, Logs store name r c

variable {c : RowChange R}

theorem Logs.opId {r : OplogRow} (h : Logs store name r c) : r.opId = c.signed.id := by
  rw [OplogRow.opId, h.key]
  rfl

variable {log : OplogDb}

def Beaten (seen : List (RowChange R)) (c : RowChange R) : Prop :=
  ∃ y ∈ seen, y.op.rowPk = c.op.rowPk ∧ c.orderKey < y.orderKey

theorem beaten_cons : Beaten (c :: seen) c ↔ Beaten seen c := by
  constructor
  · rintro ⟨y, hy, hpk, hlt⟩
    rcases mem_cons.1 hy with rfl | hy
    · exact absurd hlt (lt_irrefl _)
    · exact ⟨y, hy, hpk, hlt⟩
  · rintro ⟨y, hy, hpk, hlt⟩
    exact ⟨y, mem_cons_of_mem _ hy, hpk, hlt⟩

/-- The database when the changes in `seen` have been delivered. -/
structure StateOk (s : Schema R) (name : String) (store : StoreId) (db : RowDb R) (seen : List (RowChange R))
    (t : Table R) : Prop where
  log : LogOk store name db.log seen
  table : db.tables name = some t
  schema : t.schema = s
  plain : t.KeysPlain

def Takes [DecidableEq R] (seen : List (RowChange R)) (c : RowChange R) (t t' : Table R) : Prop :=
  Beaten seen c ∧ t' = t ∨ ¬ Beaten seen c ∧ Writes c.op t t'

section Delivered

variable (hops : TableOps s name locals store ops) (hseen : ∀ c ∈ seen, c ∈ ops)
include hops hseen

theorem LogOk.append (h : LogOk store name log seen) (hc : c ∈ ops) (origin now : ℤ) :
    LogOk store name (log.append c.signed c.op.table c.op.rowPk origin now).1 (c :: seen) := by
  by_cases hkn : ∃ r ∈ log.oplog, r.opId = c.signed.id
  · -- the id is the change's own, so the change is in the log already
    rw [OplogDb.append_known hkn]
    obtain ⟨r, hr, hid⟩ := hkn
    obtain ⟨c', hc', hlogs⟩ := h.rows r hr
    obtain rfl : c' = c := hops.ids c' (hseen c' hc') c hc (hlogs.opId.symm.trans hid)
    refine ⟨h.heads, fun r hr => ?_, fun x hx => ?_⟩
    · obtain ⟨x, hx, hlog⟩ := h.rows r hr
      exact ⟨x, mem_cons_of_mem _ hx, hlog⟩
    · rcases mem_cons.1 hx with rfl | hx
      · exact ⟨r, hr, hlogs⟩
      · exact h.logged x hx
  · have hnew : ∀ r ∈ log.oplog, r.opId ≠ c.signed.id := fun r hr hid => hkn ⟨r, hr, hid⟩
    have hlog := OplogDb.append_new_oplog hnew c.op.table c.op.rowPk origin now
    have hown : Logs store name (OplogDb.logRow c.signed c.op.table c.op.rowPk origin) c := by
      refine ⟨rfl, ?_, rfl⟩
      rw [OplogDb.logRow, hops.store c hc, hops.table c hc]
    refine ⟨OplogDb.append_headsOk h.heads _ _ _ _ _, fun r hr => ?_, fun x hx => ?_⟩
    · rw [hlog] at hr
      rcases mem_append.1 hr with hr | hr
      · obtain ⟨x, hx, hlogs⟩ := h.rows r hr
        exact ⟨x, mem_cons_of_mem _ hx, hlogs⟩
      · obtain rfl := mem_singleton.1 hr
        exact ⟨c, mem_cons_self, hown⟩
    · rw [hlog]
      rcases mem_cons.1 hx with rfl | hx
      · exact ⟨_, mem_append_right _ (mem_singleton_self _), hown⟩
      · obtain ⟨r, hr, hlogs⟩ := h.logged x hx
        exact ⟨r, mem_append_left _ hr, hlogs⟩

theorem LogOk.mem_otherKeys (h : LogOk store name log seen) (hc : c ∈ ops) (key : SqlKey) :
    key ∈ log.otherKeys ⟨store, name, c.op.rowPk⟩ c.signed.id ↔
      ∃ y ∈ seen, y.op.rowPk = c.op.rowPk ∧ y ≠ c ∧ key = SqlKey.of y.orderKey := by
  rw [OplogDb.mem_otherKeys, OplogDb.mem_appliedKeys]
  constructor
  · rintro ⟨⟨r, hr, hrow, -, rfl⟩, hid⟩
    obtain ⟨y, hy, hlogs⟩ := h.rows r hr
    refine ⟨y, hy, ?_, fun hyc => hid ?_, hlogs.key⟩
    · rw [hlogs.row] at hrow
      exact congrArg RowRef.rowPk hrow
    · exact hyc ▸ hlogs.opId
  · rintro ⟨y, hy, hpk, hne, rfl⟩
    obtain ⟨r, hr, hlogs⟩ := h.logged y hy
    refine ⟨⟨r, hr, ?_, hlogs.applied, hlogs.key⟩, fun hid => hne ?_⟩
    · rw [hlogs.row, hpk]
    · exact hops.ids y (hseen y hy) c hc hid

/-- The newest other op of the row key is at or above the change exactly if the change is
beaten. -/
theorem LogOk.newest (h : LogOk store name log seen) (hc : c ∈ ops) :
    Beaten seen c ↔ ∃ cur, log.newestAppliedInStore ⟨store, name, c.op.rowPk⟩ c.signed.id = some cur ∧
      c.orderKey ≤ cur := by
  have hkeys := h.mem_otherKeys hops hseen hc
  rw [OplogDb.newestAppliedInStore_eq h.heads]
  constructor
  · rintro ⟨y, hy, hpk, hlt⟩
    have hmem : SqlKey.of y.orderKey ∈ log.otherKeys ⟨store, name, c.op.rowPk⟩ c.signed.id :=
      (hkeys _).2 ⟨y, hy, hpk, fun hyc => absurd hlt (hyc ▸ lt_irrefl _), rfl⟩
    cases hmax : (log.otherKeys ⟨store, name, c.op.rowPk⟩ c.signed.id).max? with
    | none => simp [max?_eq_none_iff.1 hmax] at hmem
    | some m =>
      obtain ⟨hm, hle⟩ := max?_eq_some_iff.1 hmax
      obtain ⟨y', hy', -, -, rfl⟩ := (hkeys _).1 hm
      have hyy : y.orderKey ≤ y'.orderKey := not_lt.1 fun hyy =>
        not_lt.2 (hle _ hmem) ((SqlKey.of_lt (hops.hlc y' (hseen y' hy')) (hops.hlc y (hseen y hy))).2 hyy)
      exact ⟨y'.orderKey, by rw [Option.map_some, SqlKey.orderKey_of], hlt.le.trans hyy⟩
  · rintro ⟨cur, hcur, hle⟩
    obtain ⟨m, hmax, rfl⟩ := Option.map_eq_some_iff.1 hcur
    obtain ⟨y, hy, hpk, hne, rfl⟩ := (hkeys _).1 (max?_eq_some_iff.1 hmax).1
    rw [SqlKey.orderKey_of] at hle
    exact ⟨y, hy, hpk, hle.lt_of_ne fun heq => hne (hops.eq_of_orderKey hc (hseen y hy) heq).symm⟩

variable [DecidableEq R] {db : RowDb R}

/-- The guard refuses exactly the beaten changes. -/
theorem LogOk.write_eq (h : LogOk store name db.log seen) (hc : c ∈ ops) :
    (Beaten seen c → db.write locals c = .ok db) ∧
    (¬ Beaten seen c → db.write locals c =
      (writeRow db.tables c.op locals).map fun r => { db with tables := r.1 }) := by
  have hnew := h.newest hops hseen hc
  have hmap : ∀ x : Except SqliteError (Tables R × Bool),
      (x.map fun r => (({ db with tables := r.1 } : RowDb R), r.2)).map Prod.fst =
        x.map fun r => { db with tables := r.1 } := by
    intro x
    cases x <;> rfl
  simp only [RowDb.write, RowDb.writeRowIfNewer, hops.store c hc, hops.table c hc, SignedOp.orderKey_opId]
  cases hcur : db.log.newestAppliedInStore ⟨store, name, c.op.rowPk⟩ c.signed.id with
  | none =>
    rw [hcur] at hnew
    exact ⟨fun hb => by simpa using hnew.1 hb, fun _ => hmap _⟩
  | some cur =>
    rw [hcur] at hnew
    constructor
    · intro hb
      obtain ⟨_, heq, hle⟩ := hnew.1 hb
      obtain rfl := Option.some.inj heq
      simp only [if_pos hle]
      rfl
    · intro hb
      have hle : ¬ c.orderKey ≤ cur := fun hle => hb (hnew.2 ⟨cur, rfl, hle⟩)
      simp only [if_neg hle]
      exact hmap _

/-! ## One delivery -/

variable {t : Table R}

/-- The write of a delivery, from a log that may or may not hold the change. -/
theorem StateOk.write (h : StateOk s name store db seen t) (hc : c ∈ ops) :
    ∃ db' t', db.write locals c = .ok db' ∧ db'.log = db.log ∧ StateOk s name store db' seen t' ∧
      Takes seen c t t' := by
  obtain ⟨hbeat, hwrite⟩ := h.log.write_eq hops hseen hc
  by_cases hb : Beaten seen c
  · exact ⟨db, t, hbeat hb, rfl, h, .inl ⟨hb, rfl⟩⟩
  · have hname := hops.table c hc
    obtain ⟨tables', flag, t', hrow, htab, hw⟩ := writeRow_ok db.tables locals (t := t)
      (hname ▸ hops.name_valid) (hname ▸ hops.name_shared) (hname ▸ h.table) (h.schema ▸ hops.fits c hc) h.plain
    rw [hname] at htab
    refine ⟨{ db with tables := tables' }, t', by rw [hwrite hb, hrow]; rfl, rfl, ?_, .inr ⟨hb, hw⟩⟩
    exact ⟨h.log, htab, hw.schema.trans h.schema, hw.plain⟩

/-- A delivery succeeds, logs the change and takes it, in either order of the two. -/
theorem StateOk.deliver (h : StateOk s name store db seen t) {d : RowDelivery R} (hd : d.change ∈ ops) :
    ∃ db' t', db.deliver locals d = .ok db' ∧ StateOk s name store db' (d.change :: seen) t' ∧
      Takes seen d.change t t' := by
  have hseen' : ∀ c ∈ d.change :: seen, c ∈ ops := forall_mem_cons.2 ⟨hd, hseen⟩
  cases hfst : d.logFirst with
  | true =>
    have happ : StateOk s name store (db.append d) (d.change :: seen) t :=
      ⟨h.log.append hops hseen hd d.origin d.now, h.table, h.schema, h.plain⟩
    obtain ⟨db', t', hw, -, hok, htake⟩ := happ.write hops hseen' hd
    refine ⟨db', t', by rw [RowDb.deliver, hfst, if_pos rfl, hw], hok, ?_⟩
    rwa [Takes, beaten_cons] at htake
  | false =>
    obtain ⟨db', t', hw, hlog, hok, htake⟩ := h.write hops hseen hd
    refine ⟨db'.append d, t', by rw [RowDb.deliver, hfst, if_neg (by simp), hw]; rfl, ?_, htake⟩
    exact ⟨hok.log.append hops hseen hd d.origin d.now, hok.table, hok.schema, hok.plain⟩

end Delivered

variable [DecidableEq R]

theorem RowDb.run_cons (db : RowDb R) (d : RowDelivery R) (ds : List (RowDelivery R)) :
    db.run locals (d :: ds) = (db.deliver locals d).bind (·.run locals ds) :=
  foldlM_cons

/-- What every delivery of an op preserves holds at the end of a run, which succeeds. -/
theorem StateOk.run {P : List (RowChange R) → Table R → Prop} (hops : TableOps s name locals store ops)
    (hstep : ∀ seen c t t', (∀ x ∈ seen, x ∈ ops) → c ∈ ops → t.schema = s → Takes seen c t t' →
      P seen t → P (c :: seen) t')
    {ds : List (RowDelivery R)} (hds : ∀ d ∈ ds, d.change ∈ ops) (h : StateOk s name store db seen t)
    (hseen : ∀ c ∈ seen, c ∈ ops) (hP : P seen t) :
    ∃ db' seen' t', db.run locals ds = .ok db' ∧ StateOk s name store db' seen' t' ∧
      (∀ c, c ∈ seen' ↔ c ∈ ds.map (·.change) ∨ c ∈ seen) ∧ P seen' t' := by
  induction ds generalizing db seen t with
  | nil => exact ⟨db, seen, t, rfl, h, by simp, hP⟩
  | cons d ds ih =>
    obtain ⟨hd, hds⟩ := forall_mem_cons.1 hds
    obtain ⟨db₁, t₁, hdel, hok, htake⟩ := h.deliver hops hseen hd
    have hseen₁ : ∀ c ∈ d.change :: seen, c ∈ ops := forall_mem_cons.2 ⟨hd, hseen⟩
    obtain ⟨db', seen', t', hrun, hok', hmem, hP'⟩ :=
      ih hds hok hseen₁ (hstep seen d.change t t₁ hseen hd h.schema htake hP)
    refine ⟨db', seen', t', ?_, hok', fun c => ?_, hP'⟩
    · rw [RowDb.run_cons, hdel]
      exact hrun
    · rw [hmem, map_cons, mem_cons, mem_cons]
      tauto

end

end ProxyNode
