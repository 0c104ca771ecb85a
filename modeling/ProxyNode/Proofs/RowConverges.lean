import Mathlib.Data.Finset.Max
import ProxyNode.Base.LastWrite
import ProxyNode.Sanity.RowRuns

/-! When row changes converge. The guard compares order keys only, while an upsert touches
only its own columns: the older writes of a row show through the columns the winner's image
does not have, and changes of different rows that share a row key block each other. Nothing
else does. -/

namespace ProxyNode

open List

section

variable {R : Type} [SqlReal R]

def RowDb.start (s : Schema R) (name : String) (epoch : Epoch) : RowDb R :=
  ⟨fun n => if n = name then some ⟨s, []⟩ else none, .empty epoch⟩

def written (s : Schema R) (c : RowChange R) : Option (List (Scalar R) × Option (List (Scalar R))) :=
  some (c.op.keyValues, (s.effect c.op none).map fun r => s.columns.map r)

def Delivers (ops : List (RowChange R)) (ds : List (RowDelivery R)) : Prop :=
  ∀ c, c ∈ ds.map (·.change) ↔ c ∈ ops

/-- Any two deliveries of the changes end with the same contents of every row: what the
change of greatest order key about that row wrote. -/
def RowsConverge [DecidableEq R] (s : Schema R) (name : String) (locals : List String)
    (ops : List (RowChange R)) : Prop :=
  ∀ epoch epoch' ds ds', Delivers ops ds → Delivers ops ds' →
    ∃ db db' t t', (RowDb.start s name epoch).run locals ds = .ok db ∧
      (RowDb.start s name epoch').run locals ds' = .ok db' ∧
      db.tables name = some t ∧ db'.tables name = some t' ∧
      ∀ pk, t.contents pk = t'.contents pk ∧ LastWrite (written s) RowChange.orderKey ops pk (t.contents pk)

/-- The change of greatest order key among those that share its row key. -/
def Top (ops : List (RowChange R)) (t : RowChange R) : Prop :=
  t ∈ ops ∧ ∀ x ∈ ops, x.op.rowPk = t.op.rowPk → x.orderKey ≤ t.orderKey

/-- Every older upsert that shares the row key of a winner is about the same row, and what it
sets beyond the winner's image are defaults. -/
def ImagesCover (s : Schema R) (ops : List (RowChange R)) : Prop :=
  ∀ t, Top ops t → ∀ u ∈ ops, u ≠ t → u.op.rowPk = t.op.rowPk → ∀ cols, u.op.mutation = .upsert cols →
    u.op.keyValues = t.op.keyValues ∧ ∀ image, t.op.mutation = .upsert image → ∀ c ∈ cols,
      c.name ∈ s.columns → (∀ c' ∈ image, c'.name ≠ c.name) → c.value = s.default c.name

variable {s : Schema R} {name : String} {locals : List String} {store : StoreId} {ops seen : List (RowChange R)}

variable {c : RowChange R}

theorem exists_top [DecidableEq R] (hc : c ∈ ops) : ∃ t, Top ops t ∧ t.op.rowPk = c.op.rowPk := by
  obtain ⟨t, ht, hmax⟩ := (ops.filter (·.op.rowPk = c.op.rowPk)).toFinset.exists_max_image RowChange.orderKey
    ⟨c, by simpa using hc⟩
  simp only [mem_toFinset, mem_filter, decide_eq_true_eq] at ht hmax
  exact ⟨t, ⟨ht.1, fun x hx hpk => hmax x ⟨hx, hpk.trans ht.2⟩⟩, ht.2⟩

theorem Top.not_beaten {t : RowChange R} (ht : Top ops t) (hseen : ∀ c ∈ seen, c ∈ ops) : ¬ Beaten seen t := by
  rintro ⟨y, hy, hpk, hlt⟩
  exact absurd (ht.2 y (hseen y hy) hpk) (not_le.2 hlt)

/-- Once the winner was delivered, the other changes of its row key are refused. -/
theorem Top.beats (hops : TableOps s name locals store ops) {t : RowChange R} (ht : Top ops t)
    (hmem : t ∈ seen) (hc : c ∈ ops) (hpk : c.op.rowPk = t.op.rowPk) (hne : c ≠ t) : Beaten seen c :=
  ⟨t, hmem, hpk.symm, (ht.2 c hc hpk).lt_of_ne fun heq => hne (hops.eq_of_orderKey hc ht.1 heq)⟩

theorem StateOk.start (s : Schema R) (name : String) (store : StoreId) (epoch : Epoch) :
    StateOk s name store (RowDb.start s name epoch) [] ⟨s, []⟩ :=
  ⟨⟨OplogDb.headsOk_empty epoch, by simp [RowDb.start, OplogDb.empty], by simp⟩, if_pos rfl, rfl, by
    simp [Table.KeysPlain]⟩

/-! ## Covered images converge -/

/-- Along a run with covered images: a stored row was written by a delivered upsert, a
delivered winner has left its state, and before that the columns outside its image hold
defaults. -/
structure Covered [DecidableEq R] (s : Schema R) (ops seen : List (RowChange R)) (t : Table R) : Prop where
  source : ∀ pk r, t.select pk = some r →
    ∃ u ∈ seen, u.op.keyValues = pk ∧ ∃ cols, u.op.mutation = .upsert cols
  winner : ∀ w ∈ seen, Top ops w → t.select w.op.keyValues = s.effect w.op none
  outside : ∀ w, Top ops w → ∀ image, w.op.mutation = .upsert image → ∀ r, t.select w.op.keyValues = some r →
    ∀ col, (∀ c ∈ s.present image, c.name ≠ col) → r col = s.default col

variable {cols : List (Column R)}

omit [SqlReal R] in
theorem effect_upsert {op : ProxyDbOp R} (hm : op.mutation = .upsert cols) (r : Option (Row R)) :
    s.effect op r = some (Row.set (r.getD s.default) (s.present cols)) := by
  rw [Schema.effect, hm]

omit [SqlReal R] in
theorem effect_delete {op : ProxyDbOp R} (hm : op.mutation = .delete) (r : Option (Row R)) :
    s.effect op r = none := by
  rw [Schema.effect, hm]

omit [SqlReal R] in
/-- An image over a row that has defaults elsewhere is the image over defaults. -/
theorem set_eq_image {r r' : Row R} (h : ∀ col, (∀ c ∈ cols, c.name ≠ col) → r col = r' col) :
    Row.set r cols = Row.set r' cols := by
  funext col
  cases hf : cols.find? (·.name = col) with
  | none =>
    have hnone : ∀ c ∈ cols, c.name ≠ col := by simpa using find?_eq_none.1 hf
    rw [Row.set_of_not_mem hnone, Row.set_of_not_mem hnone, h col hnone]
  | some c => simp only [Row.set, hf]

variable [DecidableEq R] {t : Table R} {w : RowChange R}

theorem Covered.outside_getD (h : Covered s ops seen t) (hw : Top ops w) {image : List (Column R)}
    (hm : w.op.mutation = .upsert image) {col : String} (hcol : ∀ c ∈ s.present image, c.name ≠ col) :
    (t.select w.op.keyValues).getD s.default col = s.default col := by
  cases hsel : t.select w.op.keyValues with
  | none => rfl
  | some r => exact h.outside w hw image hm r hsel col hcol

theorem Covered.refuse (h : Covered s ops seen t) (hseen : ∀ x ∈ seen, x ∈ ops) (hb : Beaten seen c) :
    Covered s ops (c :: seen) t := by
  refine ⟨fun pk r hr => ?_, fun w hw htop => ?_, h.outside⟩
  · obtain ⟨u, hu, hrest⟩ := h.source pk r hr
    exact ⟨u, mem_cons_of_mem _ hu, hrest⟩
  · rcases mem_cons.1 hw with rfl | hw
    · exact absurd hb (htop.not_beaten hseen)
    · exact h.winner w hw htop

section Write

variable {c : RowChange R} {t t' : Table R}
  (hsel : ∀ pk, t'.select pk = if pk = c.op.keyValues then s.effect c.op (t.select pk) else t.select pk)

include hsel

theorem Covered.write_source (h : Covered s ops seen t) (pk : List (Scalar R)) (r : Row R)
    (hr : t'.select pk = some r) :
    ∃ u ∈ c :: seen, u.op.keyValues = pk ∧ ∃ cols, u.op.mutation = .upsert cols := by
  rw [hsel] at hr
  by_cases hpk : pk = c.op.keyValues
  · rw [if_pos hpk] at hr
    cases hmc : c.op.mutation with
    | delete => simp [effect_delete hmc] at hr
    | upsert cols => exact ⟨c, mem_cons_self, hpk.symm, cols, hmc⟩
  · rw [if_neg hpk] at hr
    obtain ⟨u, hu, hrest⟩ := h.source pk r hr
    exact ⟨u, mem_cons_of_mem _ hu, hrest⟩

/-- The winner of a row writes over defaults, so it leaves its own state. -/
theorem Covered.write_winner (hops : TableOps s name locals store ops) (hc : c ∈ ops)
    (hb : ¬ Beaten seen c) (h : Covered s ops seen t) (w : RowChange R) (hw : w ∈ c :: seen) (htop : Top ops w) :
    t'.select w.op.keyValues = s.effect w.op none := by
  rw [hsel]
  by_cases hpk : w.op.keyValues = c.op.keyValues
  · rw [if_pos hpk]
    have hwc : w = c := by
      by_contra hne
      rcases mem_cons.1 hw with hwc | hw
      · exact hne hwc
      · exact hb (htop.beats hops hw hc (rowPk_of_keyValues hpk).symm (Ne.symm hne))
    subst hwc
    cases hmc : w.op.mutation with
    | delete => rw [effect_delete hmc, effect_delete hmc]
    | upsert cols =>
      rw [effect_upsert hmc, effect_upsert hmc]
      exact congrArg some (set_eq_image fun col hcol => h.outside_getD htop hmc hcol)
  · rw [if_neg hpk]
    rcases mem_cons.1 hw with rfl | hw
    · exact absurd rfl hpk
    · exact h.winner w hw htop

/-- What a change sets outside a winner's image are defaults. -/
theorem Covered.write_outside (hcov : ImagesCover s ops) (hc : c ∈ ops) (h : Covered s ops seen t)
    (w : RowChange R) (htop : Top ops w) (image : List (Column R)) (hm : w.op.mutation = .upsert image) (r : Row R)
    (hr : t'.select w.op.keyValues = some r) (col : String) (hcol : ∀ c ∈ s.present image, c.name ≠ col) :
    r col = s.default col := by
  rw [hsel] at hr
  by_cases hpk : w.op.keyValues = c.op.keyValues
  · rw [if_pos hpk] at hr
    cases hmc : c.op.mutation with
    | delete => simp [effect_delete hmc] at hr
    | upsert cols =>
      rw [effect_upsert hmc, Option.some.injEq] at hr
      subst hr
      rcases Row.set_cases ((t.select w.op.keyValues).getD s.default) (s.present cols) col with
        ⟨x, hx, rfl, hset⟩ | ⟨-, hset⟩
      · rw [hset]
        obtain ⟨hxc, hxs⟩ := mem_filter.1 hx
        have hxs : x.name ∈ s.columns := by simpa using hxs
        by_cases hwc : c = w
        · subst hwc
          obtain rfl : cols = image := by simpa [hmc] using hm
          exact absurd rfl (hcol x hx)
        · obtain ⟨-, hdef⟩ := hcov w htop c hc hwc (rowPk_of_keyValues hpk.symm) cols hmc
          refine hdef image hm x hxc hxs fun c' hc' heq => hcol c' ?_ heq
          exact mem_filter.2 ⟨hc', by simpa [heq] using hxs⟩
      · rw [hset, h.outside_getD htop hm hcol]
  · rw [if_neg hpk] at hr
    exact h.outside w htop image hm r hr col hcol

end Write

theorem Covered.step (hops : TableOps s name locals store ops) (hcov : ImagesCover s ops)
    {t' : Table R} (hseen : ∀ x ∈ seen, x ∈ ops) (hc : c ∈ ops) (hs : t.schema = s) (htake : Takes seen c t t')
    (h : Covered s ops seen t) : Covered s ops (c :: seen) t' := by
  rcases htake with ⟨hb, rfl⟩ | ⟨hb, hw⟩
  · exact h.refuse hseen hb
  · have hsel := hw.select
    rw [hs] at hsel
    exact ⟨h.write_source hsel, h.write_winner hsel hops hc hb, h.write_outside hsel hcov hc⟩

/-- With covered images a row some upsert is about has a winner of its own. -/
theorem ImagesCover.top_of_upsert (hcov : ImagesCover s ops) {u : RowChange R} (hu : u ∈ ops)
    (hm : u.op.mutation = .upsert cols) :
    ∃ w, Top ops w ∧ w.op.keyValues = u.op.keyValues := by
  obtain ⟨w, htop, hpk⟩ := exists_top hu
  by_cases huw : u = w
  · exact ⟨w, htop, by rw [huw]⟩
  · exact ⟨w, htop, (hcov w htop u hu huw hpk.symm cols hm).1.symm⟩

section Last

variable (hops : TableOps s name locals store ops)
include hops

theorem Covered.lastWrite (hcov : ImagesCover s ops)
    (hall : ∀ c, c ∈ seen ↔ c ∈ ops) (hs : t.schema = s) (h : Covered s ops seen t) (pk : List (Scalar R)) :
    LastWrite (written s) RowChange.orderKey ops pk (t.contents pk) := by
  by_cases hex : ∃ c ∈ ops, c.op.keyValues = pk
  · obtain ⟨c, hc, hcpk⟩ := hex
    obtain ⟨w, hw, hmax⟩ := (ops.filter (·.op.keyValues = pk)).toFinset.exists_max_image RowChange.orderKey
      ⟨c, by simpa using ⟨hc, hcpk⟩⟩
    simp only [mem_toFinset, mem_filter, decide_eq_true_eq] at hw hmax
    obtain ⟨hwops, hwpk⟩ := hw
    -- a winner of the row key that is about this row is the row's own winner
    have htopw : ∀ T, Top ops T → T.op.keyValues = pk → t.select pk = s.effect w.op none := by
      intro T htop hT
      have hTw : T = w := hops.eq_of_orderKey htop.1 hwops (le_antisymm (hmax T ⟨htop.1, hT⟩)
        (htop.2 w hwops (rowPk_of_keyValues (hwpk.trans hT.symm))))
      rw [← hwpk]
      exact h.winner w ((hall w).2 hwops) (hTw ▸ htop)
    have hstate : t.select pk = s.effect w.op none := by
      cases hm : w.op.mutation with
      | upsert cols =>
        obtain ⟨T, htop, hT⟩ := hcov.top_of_upsert hwops hm
        exact htopw T htop (hT.trans hwpk)
      | delete =>
        rw [effect_delete hm]
        by_contra hne
        obtain ⟨r, hr⟩ := Option.ne_none_iff_exists'.1 hne
        obtain ⟨u, hu, hupk, cols, hmu⟩ := h.source pk r hr
        obtain ⟨T, htop, hT⟩ := hcov.top_of_upsert ((hall u).1 hu) hmu
        exact hne ((htopw T htop (hT.trans hupk)).trans (effect_delete hm none))
    refine .inl ⟨w, hwops, ?_, fun x hx v hv => hmax x ⟨hx, ?_⟩⟩
    · rw [written, hwpk, Table.contents_eq, hstate, hs]
    · exact congrArg Prod.fst (Option.some.inj hv)
  · refine .inr ⟨fun c hc v hv => hex ⟨c, hc, congrArg Prod.fst (Option.some.inj hv)⟩, ?_⟩
    rw [Table.contents_eq, Option.map_eq_none_iff]
    by_contra hne
    obtain ⟨r, hr⟩ := Option.ne_none_iff_exists'.1 hne
    obtain ⟨u, hu, hupk, -⟩ := h.source pk r hr
    exact hex ⟨u, (hall u).1 hu, hupk⟩

theorem ImagesCover.converge (hcover : ImagesCover s ops) :
    RowsConverge s name locals ops := by
  have hrun : ∀ epoch ds, Delivers ops ds → ∃ db t, (RowDb.start s name epoch).run locals ds = .ok db ∧
      db.tables name = some t ∧ ∀ pk, LastWrite (written s) RowChange.orderKey ops pk (t.contents pk) := by
    intro epoch ds hds
    have hinit : Covered s ops [] (⟨s, []⟩ : Table R) :=
      ⟨fun _ _ h => by simp [Table.select] at h, by simp, fun _ _ _ _ _ h => by simp [Table.select] at h⟩
    obtain ⟨db, seen, t, hok, hst, hmem, hcov⟩ := (StateOk.start s name store epoch).run hops
      (fun _ _ _ _ hseen hc hs htake h => Covered.step hops hcover hseen hc hs htake h)
      (fun d hd => (hds d.change).1 (mem_map_of_mem hd)) (by simp) hinit
    refine ⟨db, t, hok, hst.table, hcov.lastWrite hops hcover (fun c => ?_) hst.schema⟩
    rw [hmem, hds c]
    simp
  intro epoch epoch' ds ds' hds hds'
  obtain ⟨db, t, hok, htab, hlast⟩ := hrun epoch ds hds
  obtain ⟨db', t', hok', htab', hlast'⟩ := hrun epoch' ds' hds'
  exact ⟨db, db', t, t', hok, hok', htab, htab', fun pk =>
    ⟨(hlast pk).unique (fun _ ha _ hb h => by rw [hops.eq_of_orderKey ha hb h]) (hlast' pk), hlast pk⟩⟩

end Last

/-! ## Images that do not cover diverge -/

omit [DecidableEq R] [SqlReal R] in
theorem effect_again (op : ProxyDbOp R) (r : Option (Row R)) : s.effect op (s.effect op r) = s.effect op r := by
  cases hm : op.mutation with
  | delete => rw [effect_delete hm, effect_delete hm]
  | upsert cols =>
    rw [effect_upsert hm, effect_upsert hm, Option.getD_some]
    exact congrArg some (set_eq_image fun col hcol => Row.set_of_not_mem hcol _)

variable {pk : List (Scalar R)}

/-- After a winner was delivered the rows of its row key do not change any more. -/
theorem frozen (hops : TableOps s name locals store ops) (htop : Top ops w)
    (hpk : ∀ c ∈ ops, c.op.keyValues = pk → c.op.rowPk = w.op.rowPk) {v : Option (Row R)}
    (hv : pk = w.op.keyValues → s.effect w.op v = v) {t' : Table R} (hc : c ∈ ops) (hs : t.schema = s)
    (htake : Takes seen c t t') (h : w ∈ seen ∧ t.select pk = v) : w ∈ c :: seen ∧ t'.select pk = v := by
  obtain ⟨hmem, hsel⟩ := h
  refine ⟨mem_cons_of_mem _ hmem, ?_⟩
  rcases htake with ⟨-, rfl⟩ | ⟨hb, hw⟩
  · exact hsel
  · rw [hw.select, hs, hsel]
    by_cases hkv : pk = c.op.keyValues
    · have hcw : c = w := by
        by_contra hne
        exact hb (htop.beats hops hmem hc (hpk c hc hkv.symm) hne)
      rw [if_pos hkv, hcw, hv (hcw ▸ hkv)]
    · rw [if_neg hkv]

def once (cs : List (RowChange R)) : List (RowDelivery R) := cs.map fun c => ⟨c, false, 0, 0⟩

omit [DecidableEq R] [SqlReal R] in
theorem once_change (cs : List (RowChange R)) : (once cs).map (·.change) = cs := by
  rw [once, map_map]
  exact map_id cs

variable {db : RowDb R}

theorem StateOk.deliver_fresh (h : StateOk s name store db seen t)
    (hops : TableOps s name locals store ops) (hseen : ∀ c ∈ seen, c ∈ ops) {d : RowDelivery R}
    (hd : d.change ∈ ops) (hfrs : ¬ Beaten seen d.change) :
    ∃ db' t', db.deliver locals d = .ok db' ∧ StateOk s name store db' (d.change :: seen) t' ∧
      ∀ pk, t'.select pk =
        if pk = d.change.op.keyValues then s.effect d.change.op (t.select pk) else t.select pk := by
  obtain ⟨db', t', hdel, hok, htake⟩ := h.deliver hops hseen hd
  rcases htake with ⟨hb, -⟩ | ⟨-, hw⟩
  · exact absurd hb hfrs
  · exact ⟨db', t', hdel, hok, fun pk => h.schema ▸ hw.select pk⟩

/-- From the delivery of a winner on, delivering everything leaves a row of its row key. -/
theorem StateOk.settled (h : StateOk s name store db seen t) (hops : TableOps s name locals store ops)
    (hseen : ∀ c ∈ seen, c ∈ ops) (htop : Top ops w) (hmem : w ∈ seen)
    (hpk : ∀ c ∈ ops, c.op.keyValues = pk → c.op.rowPk = w.op.rowPk)
    (hv : pk = w.op.keyValues → s.effect w.op (t.select pk) = t.select pk) :
    ∃ db' t', db.run locals (once ops) = .ok db' ∧ db'.tables name = some t' ∧ t'.schema = s ∧
      t'.select pk = t.select pk := by
  have hds : ∀ d ∈ once ops, d.change ∈ ops := by
    intro d hd
    obtain ⟨c, hc, rfl⟩ := mem_map.1 hd
    exact hc
  obtain ⟨db', _, t', hrun, hok, -, -, hsel⟩ := h.run hops
    (fun _ _ _ _ _ hc hs htake hP => frozen hops htop hpk hv hc hs htake hP) hds hseen ⟨hmem, rfl⟩
  exact ⟨db', t', hrun, hok.table, hok.schema, hsel⟩

/-- A winner, and then everything: the row keeps what the winner made of it. -/
theorem StateOk.winner_next (h : StateOk s name store db seen t)
    (hops : TableOps s name locals store ops) (hseen : ∀ c ∈ seen, c ∈ ops) (htop : Top ops w)
    (hpk : ∀ c ∈ ops, c.op.keyValues = pk → c.op.rowPk = w.op.rowPk) :
    ∃ db' t', db.run locals (once (w :: ops)) = .ok db' ∧ db'.tables name = some t' ∧ t'.schema = s ∧
      t'.select pk = if pk = w.op.keyValues then s.effect w.op (t.select pk) else t.select pk := by
  obtain ⟨db₁, t₁, hdel, hok, hsel⟩ := h.deliver_fresh hops hseen (d := ⟨w, false, 0, 0⟩) htop.1
    (htop.not_beaten hseen)
  obtain ⟨db', t', hrun, htab, hs, hend⟩ := hok.settled hops (forall_mem_cons.2 ⟨htop.1, hseen⟩) htop
    mem_cons_self hpk fun hkv => by rw [hsel, if_pos hkv, effect_again]
  refine ⟨db', t', ?_, htab, hs, hend.trans (hsel pk)⟩
  rw [once, map_cons, RowDb.run_cons, hdel]
  exact hrun

theorem run_older_first (hops : TableOps s name locals store ops) (htop : Top ops w) {u : RowChange R}
    (hu : u ∈ ops) (epoch : Epoch) (hpk : ∀ c ∈ ops, c.op.keyValues = u.op.keyValues → c.op.rowPk = w.op.rowPk) :
    ∃ db t, (RowDb.start s name epoch).run locals (once (u :: w :: ops)) = .ok db ∧
      db.tables name = some t ∧ t.schema = s ∧ t.select u.op.keyValues =
        if u.op.keyValues = w.op.keyValues then s.effect w.op (s.effect u.op none) else s.effect u.op none := by
  obtain ⟨db₁, t₁, hdel, hok, hsel⟩ := (StateOk.start s name store epoch).deliver_fresh hops (by simp)
    (d := ⟨u, false, 0, 0⟩) hu (by simp [Beaten])
  have hsel₁ : t₁.select u.op.keyValues = s.effect u.op none := (hsel _).trans (if_pos rfl)
  obtain ⟨db, t, hrun, htab, hs, hend⟩ := hok.winner_next hops (by simpa using hu) htop hpk
  refine ⟨db, t, ?_, htab, hs, hsel₁ ▸ hend⟩
  rw [once, map_cons, RowDb.run_cons, hdel]
  exact hrun

theorem RowsConverge.imagesCover (hops : TableOps s name locals store ops)
    (h : RowsConverge s name locals ops) : ImagesCover s ops := by
  intro w htop u hu huw hpk cols hm
  have hclass : ∀ c ∈ ops, c.op.keyValues = u.op.keyValues → c.op.rowPk = w.op.rowPk := fun c _ hkv =>
    (rowPk_of_keyValues hkv).trans hpk
  have hdel : ∀ cs : List (RowChange R), (∀ c ∈ cs, c ∈ ops) → Delivers ops (once (cs ++ ops)) := by
    intro cs hcs c
    rw [once_change, mem_append]
    exact ⟨fun hc => hc.elim (hcs c) id, .inr⟩
  -- the two orders agree on the older change's row
  obtain ⟨epoch⟩ : Nonempty Epoch := ⟨Wire.fill 32 0⟩
  obtain ⟨db₁, t₁, hrun₁, htab₁, hs₁, hsel₁⟩ := run_older_first hops htop hu epoch hclass
  obtain ⟨db₂, t₂, hrun₂, htab₂, hs₂, hsel₂⟩ :=
    (StateOk.start s name store epoch).winner_next hops (by simp) htop hclass
  obtain ⟨_, _, _, _, hr₁, hr₂, ht₁, ht₂, hsame⟩ := h epoch epoch _ _
    (hdel [u, w] (by simp [hu, htop.1])) (hdel [w] (by simp [htop.1]))
  obtain rfl := Except.ok.inj (hrun₁.symm.trans hr₁)
  obtain rfl := Except.ok.inj (hrun₂.symm.trans hr₂)
  obtain rfl := Option.some.inj (htab₁.symm.trans ht₁)
  obtain rfl := Option.some.inj (htab₂.symm.trans ht₂)
  have heq := (hsame u.op.keyValues).1
  have hemp : (⟨s, []⟩ : Table R).select u.op.keyValues = none := rfl
  rw [Table.contents_eq, Table.contents_eq, hsel₁, hsel₂, hs₁, hs₂, hemp, effect_upsert hm] at heq
  have hkv : u.op.keyValues = w.op.keyValues := by
    by_contra hne
    simp [hne] at heq
  refine ⟨hkv, fun image himage c hc hcol hfree => ?_⟩
  rw [if_pos hkv, if_pos hkv, effect_upsert himage, effect_upsert himage, Option.map_some, Option.map_some,
    Option.some.injEq, map_inj_left] at heq
  have hpres : ∀ c' ∈ s.present image, c'.name ≠ c.name := fun c' hc' => hfree c' (mem_filter.1 hc').1
  have hval := heq c.name hcol
  obtain ⟨-, hn, -⟩ := (hops.fits u hu).image cols hm
  rw [Row.set_of_not_mem hpres, Row.set_of_not_mem hpres, Option.getD_some, Option.getD_none,
    Row.set_of_mem (present_nodup hn) (mem_filter.2 ⟨hc, by simpa using hcol⟩)] at hval
  exact hval

/-- Row changes converge exactly if the images of the winners cover those of the changes they
replace. -/
theorem rows_converge_iff {R : Type} [DecidableEq R] [SqlReal R] (s : Schema R) (name : String)
    (locals : List String) (store : StoreId) (ops : List (RowChange R))
    (hops : TableOps s name locals store ops) :
    RowsConverge s name locals ops ↔ ImagesCover s ops :=
  ⟨fun h => h.imagesCover hops, fun h => h.converge hops⟩

end

/-! ## A column added on one device -/

local instance noReals : SqlReal Empty := ⟨nofun, nofun⟩

/-- A table of this device after a migration has added the column `b`. -/
def notes : Schema Empty where
  columns := ["id", "a", "b"]
  key := ["id"]
  default := fun _ => .null
  key_ne := by simp
  key_sub := by simp

def noteChange (device : Byte) (hlc : Hlc) (cols : List (Column Empty)) : RowChange Empty where
  signed :=
    { body :=
        { v := 1, hlc := hlc, device := Wire.fill 32 device, store := rowStoreId,
          payload := ⟨[], Nat.two_pow_pos 63⟩ }
      sig := Wire.fill 64 0
      id := Wire.fill 32 device }
  op := { table := "notes", key := [⟨"id", .int 1⟩], mutation := .upsert (⟨"id", .int 1⟩ :: cols) }

def migratedNote (hlc : Hlc) : RowChange Empty := noteChange 1 hlc [⟨"a", .int 10⟩, ⟨"b", .int 11⟩]

def unmigratedNote (hlc : Hlc) : RowChange Empty := noteChange 2 hlc [⟨"a", .int 20⟩]

theorem noteChange_fits (device : Byte) (hlc : Hlc) {cols : List (Column Empty)}
    (hval : invalidIdent (cols.map (·.name)) = none) (hn : ("id" :: cols.map (·.name)).Nodup) :
    FitsSchema notes (noteChange device hlc cols).op := by
  refine ⟨rfl, by simp [noteChange, Scalar.plain], by decide +kernel, fun image himage => ?_⟩
  obtain rfl : (⟨"id", .int 1⟩ :: cols : List (Column Empty)) = image := by simpa [noteChange] using himage
  refine ⟨?_, hn, by simp [noteChange]⟩
  rw [map_cons, invalidIdent, find?_cons_of_neg (by decide +kernel)]
  exact hval

theorem notes_ops (hlc hlc' : Hlc) (h : hlc.val < 2 ^ 63) (h' : hlc'.val < 2 ^ 63) :
    TableOps notes "notes" [] rowStoreId [migratedNote hlc, unmigratedNote hlc'] where
  name_valid := by decide +kernel
  name_shared := by simp
  table := by simp [migratedNote, unmigratedNote, noteChange]
  store := by simp [migratedNote, unmigratedNote, noteChange]
  fits := by
    simp only [forall_mem_cons, not_mem_nil, false_implies, implies_true, and_true]
    exact ⟨noteChange_fits 1 hlc (by decide +kernel) (by decide),
      noteChange_fits 2 hlc' (by decide +kernel) (by decide)⟩
  hlc := by
    simp only [forall_mem_cons, not_mem_nil, false_implies, implies_true, and_true]
    exact ⟨h, h'⟩
  ids := by
    have hne : (migratedNote hlc).signed.id ≠ (unmigratedNote hlc').signed.id := by
      change Wire.fill 32 1 ≠ Wire.fill 32 2
      decide +kernel
    intro a ha b hb hid
    rcases mem_pair.1 ha with rfl | rfl <;> rcases mem_pair.1 hb with rfl | rfl
    · rfl
    · exact absurd hid hne
    · exact absurd hid.symm hne
    · rfl

def noteAfter (cs : List (RowChange Empty)) : Option (List (Scalar Empty)) :=
  match (RowDb.start notes "notes" (Wire.fill 32 0)).run [] (once cs) with
  | .ok db => (db.tables "notes").bind (·.contents [.int 1])
  | .error _ => none

/-- The older value of `b` stays under a newer image without the column in one order, and is
never written in the other. -/
theorem older_column_shows_through :
    TableOps notes "notes" [] rowStoreId [migratedNote 10, unmigratedNote 20] ∧
    noteAfter [migratedNote 10, unmigratedNote 20] = some [.int 1, .int 20, .int 11] ∧
    noteAfter [unmigratedNote 20, migratedNote 10] = some [.int 1, .int 20, .null] :=
  ⟨notes_ops 10 20 (by decide) (by decide), by decide +kernel, by decide +kernel⟩

/-- With the image that has the column on top, the two changes converge. -/
theorem rows_converge_iff_migrated_last :
    RowsConverge notes "notes" [] [migratedNote 20, unmigratedNote 10] := by
  refine (rows_converge_iff notes "notes" [] rowStoreId _ (notes_ops 20 10 (by decide) (by decide))).2 ?_
  rintro w ⟨hw, hmax⟩ u hu hne - cols hm
  have hlt : (unmigratedNote 10).orderKey < (migratedNote 20).orderKey := by decide +kernel
  -- the winner is the change with the column
  obtain rfl : w = migratedNote 20 := by
    rcases List.mem_pair.1 hw with rfl | rfl
    · rfl
    · exact absurd (hmax (migratedNote 20) (by simp) (by decide +kernel)) (not_le.2 hlt)
  obtain rfl : u = unmigratedNote 10 := (List.mem_pair.1 hu).resolve_left hne
  obtain rfl : ([⟨"id", .int 1⟩, ⟨"a", .int 20⟩] : List (Column Empty)) = cols := by
    simpa [unmigratedNote, noteChange] using hm
  refine ⟨rfl, fun image himage c hc _ hfree => ?_⟩
  obtain rfl : ([⟨"id", .int 1⟩, ⟨"a", .int 10⟩, ⟨"b", .int 11⟩] : List (Column Empty)) = image := by
    simpa [migratedNote, noteChange] using himage
  rcases List.mem_pair.1 hc with rfl | rfl
  · exact absurd rfl (hfree ⟨"id", .int 1⟩ (by simp))
  · exact absurd rfl (hfree ⟨"a", .int 10⟩ (by simp))

end ProxyNode
