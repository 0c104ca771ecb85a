import ProxyNode.Sanity.PageRoom

/-! How a keyed channel fills. It serves the ops it visits up to and including the first
one that leaves no room, and its token names that op. -/

namespace ProxyNode

open List Option

/-- Ops that leave room on a page: neither the entry limit nor the byte budget is reached. -/
def Fits (limit budget : ℕ) (ops : List SignedOp) : Prop :=
  ops.length < limit ∧ entryBytes (ops.map entryOf) < budget

instance (limit budget : ℕ) (ops : List SignedOp) : Decidable (Fits limit budget ops) :=
  inferInstanceAs (Decidable (_ ∧ _))

def cutToken (op : SignedOp) : Resume := keyedResume op.body.device (some op.orderKey)

inductive Filled (limit budget : ℕ) (visit : List SignedOp) : List PageEntry × Option Resume → Prop
  | whole (room : Fits limit budget visit) : Filled limit budget visit (visit.map entryOf, none)
  | upTo (first : List SignedOp) (x : SignedOp) (rest : List SignedOp) (order : visit = first ++ x :: rest)
    (room : Fits limit budget first) (full : ¬Fits limit budget (first ++ [x])) :
    Filled limit budget visit ((first ++ [x]).map entryOf, some (cutToken x))

variable {limit budget : ℕ}

theorem Fits.sublist {a b : List SignedOp} (h : Fits limit budget b) (hab : a.Sublist b) :
    Fits limit budget a :=
  ⟨lt_of_le_of_lt hab.length_le h.1, lt_of_le_of_lt (entryBytes_le (hab.map entryOf)) h.2⟩

theorem Fits.perm {a b : List SignedOp} (hab : a.Perm b) : Fits limit budget a ↔ Fits limit budget b := by
  rw [Fits, Fits, hab.length_eq, entryBytes, entryBytes, ((hab.map entryOf).map PageEntry.length).sum_nat]

theorem Fits.nil (hlim : 0 < limit) (hbyt : 0 < budget) : Fits limit budget [] := ⟨hlim, hbyt⟩

/-- The op of `visit` that leaves no room behind `served`. -/
def fillStop (limit budget : ℕ) : List SignedOp → List SignedOp → Option SignedOp
  | _, [] => none
  | served, x :: rest =>
    if Fits limit budget (served ++ [x]) then fillStop limit budget (served ++ [x]) rest else some x

theorem fillStop_none {served visit : List SignedOp} (hsvd : Fits limit budget served) :
    fillStop limit budget served visit = none ↔ Fits limit budget (served ++ visit) := by
  induction visit generalizing served with
  | nil =>
    rw [append_nil]
    exact iff_of_true rfl hsvd
  | cons x rest ih =>
    rw [fillStop, append_cons served x rest]
    by_cases hx : Fits limit budget (served ++ [x])
    · rw [if_pos hx, ih hx]
    · rw [if_neg hx]
      exact iff_of_false (some_ne_none x) fun h => hx (h.sublist (sublist_append_left _ _))

theorem fillStop_full (served first : List SignedOp) {x : SignedOp} (rest : List SignedOp)
    (hroom : Fits limit budget (served ++ first)) (hfull : ¬Fits limit budget (served ++ first ++ [x])) :
    fillStop limit budget served (first ++ x :: rest) = some x := by
  induction first generalizing served with
  | nil =>
    rw [append_nil] at hfull
    exact if_neg hfull
  | cons y first ih =>
    rw [append_cons served y first] at hroom hfull
    rw [cons_append, fillStop, if_pos (hroom.sublist (sublist_append_left _ _))]
    exact ih _ hroom hfull

theorem fillStop_split {served visit : List SignedOp} {x : SignedOp} (hsvd : Fits limit budget served)
    (h : fillStop limit budget served visit = some x) :
    ∃ first rest, visit = first ++ x :: rest ∧ Fits limit budget (served ++ first) ∧
      ¬Fits limit budget (served ++ first ++ [x]) := by
  induction visit generalizing served with
  | nil => cases h
  | cons y visit ih =>
    rw [fillStop] at h
    split_ifs at h with hy
    · obtain ⟨first, rest, rfl, hroom, hfull⟩ := ih hy h
      refine ⟨y :: first, rest, rfl, ?_⟩
      rw [append_cons]
      exact ⟨hroom, hfull⟩
    · obtain rfl := some.inj h
      refine ⟨[], visit, rfl, ?_⟩
      rw [append_nil]
      exact ⟨hsvd, hy⟩

/-- A channel's token names the op the page stopped at. -/
theorem Filled.token {visit : List SignedOp} {answer : List PageEntry × Option Resume}
    (hnil : Fits limit budget []) (h : Filled limit budget visit answer) :
    answer.2 = (fillStop limit budget [] visit).map cutToken := by
  cases h with
  | whole room => rw [(fillStop_none hnil).2 room, map_none]
  | upTo first x rest order room full => rw [order, fillStop_full [] first rest room full, map_some]

theorem entryBytes_map_concat (served : List SignedOp) (op : SignedOp) :
    entryBytes ((served ++ [op]).map entryOf) =
      entryBytes (served.map entryOf) + Wire.base64Length op.toBytes.length := by
  simp [entryBytes, entryOf, PageEntry.length]

/-- One origin's ops `l`, read behind `served` ones: all of them with room left, or up to
the one that fills the page. -/
theorem encodeOriginRows_fill (l served : List SignedOp) (hfit : Fits limit budget served)
    {rows : List OriginEnvelopeRow} (hrows : rows = (l.take (limit - served.length)).map rowOf)
    {encoded : EncodedRows} (henc : encodeOriginRows budget rows (entryBytes (served.map entryOf)) = encoded) :
    (Fits limit budget (served ++ l) ∧ encoded.keyed = l.map entryOf ∧
      encoded.bytes = entryBytes ((served ++ l).map entryOf)) ∨
    ∃ first x rest, l = first ++ x :: rest ∧ Fits limit budget (served ++ first) ∧
      ¬Fits limit budget (served ++ first ++ [x]) ∧ encoded.keyed = (first ++ [x]).map entryOf ∧
      encoded.bytes = entryBytes ((served ++ first ++ [x]).map entryOf) ∧
      encoded.lastKey = some x.orderKey := by
  induction l generalizing served rows encoded with
  | nil =>
    subst hrows henc
    rw [take_nil, append_nil]
    exact .inl ⟨hfit, rfl, rfl⟩
  | cons a l ih =>
    have hstep := entryBytes_map_concat served a
    obtain ⟨r, hr⟩ : ∃ r, limit - served.length = r + 1 := Nat.exists_eq_add_one.2 (Nat.sub_pos_of_lt hfit.1)
    rw [hr, take_succ_cons] at hrows
    by_cases hbyt : budget ≤ entryBytes (served.map entryOf) + Wire.base64Length a.toBytes.length
    · -- the byte budget ends the page here
      rw [hrows, encodeOriginRows_cut hbyt] at henc
      subst henc
      rw [← hstep] at hbyt ⊢
      refine .inr ⟨[], a, l, rfl, ?_⟩
      rw [append_nil]
      exact ⟨hfit, fun h => absurd h.2 (not_lt.2 hbyt), rfl, rfl, rfl⟩
    · rw [hrows, encodeOriginRows_more hbyt, ← hstep] at henc
      rw [← hstep, not_le] at hbyt
      generalize hmore :
        encodeOriginRows budget ((l.take r).map rowOf) (entryBytes ((served ++ [a]).map entryOf)) = more
      rw [hmore] at henc
      subst henc
      by_cases hfit' : Fits limit budget (served ++ [a])
      · have hr' : limit - (served ++ [a]).length = r := by
          rw [length_append, length_singleton]
          omega
        have hcons : ∀ tail, served ++ a :: tail = served ++ [a] ++ tail := fun tail => by simp
        rcases ih (served ++ [a]) hfit' (by rw [hr']) hmore with
          ⟨hf, hk, hb⟩ | ⟨first, x, rest, rfl, hf, hn, hk, hb, hl⟩
        · rw [hcons]
          exact .inl ⟨hf, congrArg (entryOf a :: ·) hk, hb⟩
        · refine .inr ⟨a :: first, x, rest, rfl, ?_⟩
          rw [hcons]
          exact ⟨hf, hn, congrArg (entryOf a :: ·) hk, hb, congrArg (·.or (some a.orderKey)) hl⟩
      · -- the entry limit does
        have hr0 : r = 0 := by
          by_contra hne
          refine hfit' ⟨?_, hbyt⟩
          rw [length_append, length_singleton]
          omega
        rw [hr0, take_zero] at hmore
        subst hmore
        refine .inr ⟨[], a, l, rfl, ?_⟩
        rw [append_nil]
        exact ⟨hfit, hfit', rfl, rfl, rfl⟩

section Channel

variable {socket : MeshPullSocket} {ops : DeviceId → Option OrderKey → List SignedOp}
  {store : Option (List Byte)}

/-- Everything a channel would serve without limits, in order. -/
def visited (ops : DeviceId → Option OrderKey → List SignedOp) (claims : CoverageVector) (audit : Bool)
    (resume : Option Resume) (origins : List DeviceId) : List SignedOp :=
  origins.flatMap fun o => ops o (readAfter claims audit resume o)

theorem Filled.of_turn {served l tail first rest : List SignedOp} {x : SignedOp} {origin : DeviceId}
    (hl : l = first ++ x :: rest) (hroom : Fits limit budget (served ++ first))
    (hfull : ¬Fits limit budget (served ++ first ++ [x])) (hx : x.body.device = origin) :
    Filled limit budget (served ++ (l ++ tail))
      (served.map entryOf ++ (first ++ [x]).map entryOf, some (keyedResume origin (some x.orderKey))) := by
  have hord : served ++ (l ++ tail) = served ++ first ++ x :: (rest ++ tail) := by simp [hl]
  rw [← map_append, ← append_assoc served first [x], ← hx]
  exact .upTo (served ++ first) x (rest ++ tail) hord hroom hfull

/-- The loop over the remaining origins, behind `served` ops that leave room. -/
theorem keyedLoop_fill (claims : CoverageVector) (audit : Bool) (hr : ReadsStore socket store ops)
    (hown : ∀ o after, ∀ op ∈ ops o after, op.body.device = o) (resume : Option Resume)
    (origins : List DeviceId) (served : List SignedOp) (hfit : Fits limit budget served) :
    Filled limit budget (served ++ visited ops claims audit resume origins)
      (keyedLoop socket claims audit budget store resume origins (served.map entryOf)
        (limit - served.length) (entryBytes (served.map entryOf))) := by
  induction origins generalizing served with
  | nil =>
    rw [visited, flatMap_nil, append_nil]
    exact .whole hfit
  | cons o origins ih =>
    generalize hl : ops o (readAfter claims audit resume o) = l
    generalize hrows :
      socket.originSince o (readAfter claims audit resume o) store (limit - served.length) = rows
    generalize henc : encodeOriginRows budget rows (entryBytes (served.map entryOf)) = encoded
    have hread : rows = (l.take (limit - served.length)).map rowOf := by
      rw [← hrows, ← hl]
      exact hr _ _ _ (Nat.sub_pos_of_lt hfit.1)
    have hlen : rows.length = min (limit - served.length) l.length := by
      rw [hread, length_map, length_take]
    rw [keyedLoop_turn _ _ _ _ _ _ _ _ _ _ _ hrows henc, visited, flatMap_cons, ← visited, hl]
    rcases encodeOriginRows_fill l served hfit hread henc with
      ⟨hf, hk, hb⟩ | ⟨first, x, rest, hspl, hf, hn, hk, hb, hlast⟩
    · have hlt := hf.1
      have hklen : encoded.keyed.length = l.length := by rw [hk, length_map]
      rw [length_append] at hlt
      rw [if_neg (by have := hb ▸ hf.2; omega), hk, hb, ← map_append, ← append_assoc,
        show limit - served.length - (l.map entryOf).length = limit - (served ++ l).length by
          rw [length_append, length_map, Nat.sub_sub]]
      exact ih (served ++ l) hf
    · have hx : x ∈ l := hspl ▸ mem_append_right first mem_cons_self
      rw [if_pos ?_, hk, hlast]
      · exact .of_turn hspl hf hn (hown o _ x (hl ▸ hx))
      · -- the op that fills the page ends the turn
        have hlt := hf.1
        have hle : first.length + 1 ≤ l.length := by rw [hspl]; simp
        rw [Fits, ← hb, length_append, length_singleton] at hn
        rw [length_append] at hlt hn
        omega

/-- A keyed channel serves what it visits up to the op that fills the page. -/
theorem buildKeyedChannel_fill (claims : CoverageVector) (audit : Bool) (hr : ReadsStore socket store ops)
    (hown : ∀ o after, ∀ op ∈ ops o after, op.body.device = o) (resume : Option Resume)
    (hlim : 0 < limit) (hbyt : 0 < budget) :
    Filled limit budget (visited ops claims audit resume (visitOrder socket resume))
      (buildKeyedChannel socket claims audit budget store resume limit) := by
  rw [buildKeyedChannel_loop resume hlim (hr.length_le hlim)]
  exact keyedLoop_fill claims audit hr hown resume _ [] (.nil hlim hbyt)

end Channel

end ProxyNode
