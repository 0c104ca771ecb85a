import Mathlib.Data.List.Sigma
import ProxyNode.Sanity.Roster
import ProxyNode.Spec.Kv

/-! Merging the candidates that share a key. Each entry of the list is decided by its own group
alone, so the order in which the groups are visited does not matter. -/

namespace ProxyNode.Roster

open CandidatePeer List SortedMap

variable {D T : Type} [LinearOrder T] {C : Crypto} {parseSeen : Text → Option T}

/-! ## Groups -/

abbrev Entry (D : Type) := CandidatePeer D × ℕ

variable (C) in
def entriesOf (cands : List (CandidatePeer D)) (m : DeviceId) : List (Entry D) :=
  cands.zipIdx.filter fun entry => entry.1.meshId C = some m

variable (parseSeen) in
def keptOf : List (Entry D) → Option (Entry D)
  | [] => none
  | first :: rest => some (keptEntry parseSeen first rest)

variable {cands : List (CandidatePeer D)} {m : DeviceId} {e : Entry D}

theorem mem_entriesOf :
    e ∈ entriesOf C cands m ↔ e ∈ cands.zipIdx ∧ e.1.meshId C = some m := by
  rw [entriesOf, mem_filter, decide_eq_true_eq]

variable {group : List (Entry D)}

theorem get?_byKey :
    (byKey C cands).get? m = some group ↔ group = entriesOf C cands m ∧ group ≠ [] := by
  unfold byKey entriesOf
  convert get?_groupBy

theorem mem_values :
    group ∈ (byKey C cands).values ↔ ∃ m, group = entriesOf C cands m ∧ group ≠ [] := by
  unfold values
  rw [mem_map]
  constructor
  · rintro ⟨⟨m, group⟩, hmem, rfl⟩
    exact ⟨m, get?_byKey.1 (get?_eq_some.2 hmem)⟩
  · rintro ⟨m, hgroup⟩
    exact ⟨(m, group), get?_eq_some.1 (get?_byKey.2 hgroup), rfl⟩

theorem eq_of_index {e' : Entry D} (he : e ∈ cands.zipIdx) (he' : e' ∈ cands.zipIdx)
    (h : e.2 = e'.2) : e = e' :=
  inj_on_of_nodup_map (nodup_zipIdx_map_snd cands) he he' h

/-! ## The entry that is kept -/

/-- The candidate of a group that is kept: the first that is this node, or the first seen last. -/
def IsKept (parseSeen : Text → Option T) (group : List (CandidatePeer D)) (kept : CandidatePeer D) : Prop :=
  (∃ front back, group = front ++ kept :: back ∧ kept.isSelf = true ∧ ∀ c ∈ front, c.isSelf = false) ∨
    (∀ c ∈ group, c.isSelf = false) ∧ ∃ front back, group = front ++ kept :: back ∧
      (∀ c ∈ front, seenAt parseSeen c < seenAt parseSeen kept) ∧
      ∀ c ∈ back, seenAt parseSeen c ≤ seenAt parseSeen kept

theorem keptEntry_spec (parseSeen : Text → Option T) (first : Entry D) (rest : List (Entry D)) :
    keptEntry parseSeen first rest ∈ first :: rest ∧
      IsKept parseSeen ((first :: rest).map Prod.fst) (keptEntry parseSeen first rest).1 := by
  unfold keptEntry
  cases hself : (first :: rest).find? (·.1.isSelf) with
  | some e =>
    obtain ⟨he, front, back, hspl, hfro⟩ := find?_eq_some_iff_append.1 hself
    rw [Option.getD_some]
    refine ⟨mem_of_find?_eq_some hself, .inl ⟨front.map Prod.fst, back.map Prod.fst, ?_, he, ?_⟩⟩
    · rw [hspl, map_append, map_cons]
    · intro c hc
      obtain ⟨e', he', rfl⟩ := mem_map.1 hc
      simpa using hfro e' he'
  | none =>
    rw [Option.getD_none]
    obtain ⟨front, back, hspl, hfro, hback⟩ := foldl_first_max (fun e => seenAt parseSeen e.1) first rest
    have hbest : latestSeen parseSeen first rest = rest.foldl (fun best entry =>
      if seenAt parseSeen best.1 < seenAt parseSeen entry.1 then entry else best) first := rfl
    rw [← hbest] at hspl hfro hback
    refine ⟨?_, .inr ⟨?_, front.map Prod.fst, back.map Prod.fst, ?_, ?_, ?_⟩⟩
    · rw [hspl]
      exact mem_append_right _ mem_cons_self
    · intro c hc
      obtain ⟨e, he, rfl⟩ := mem_map.1 hc
      simpa using find?_eq_none.1 hself e he
    · rw [hspl, map_append, map_cons]
    · intro c hc
      obtain ⟨e, he, rfl⟩ := mem_map.1 hc
      exact hfro e he
    · intro c hc
      obtain ⟨e, he, rfl⟩ := mem_map.1 hc
      exact hback e he

theorem keptOf_spec (h : keptOf parseSeen group = some e) :
    e ∈ group ∧ IsKept parseSeen (group.map Prod.fst) e.1 := by
  cases group with
  | nil => cases h
  | cons first rest =>
    obtain rfl := Option.some.inj h
    exact keptEntry_spec parseSeen first rest

theorem keptOf_singleton (e : Entry D) : keptOf parseSeen [e] = some e := by
  have hkept := (keptEntry_spec parseSeen e []).1
  rw [keptOf, mem_singleton.1 hkept]

/-! ## What it takes from the others -/

theorem mergeAlwaysOn_true {a b : Option Bool} :
    mergeAlwaysOn a b = some true ↔ a = some true ∨ b = some true := by
  rcases a with - | (_ | _) <;> rcases b with - | (_ | _) <;> decide

theorem mergeAlwaysOn_isSome {a b : Option Bool} :
    (mergeAlwaysOn a b).isSome = true ↔ a.isSome = true ∨ b.isSome = true := by
  rcases a with - | (_ | _) <;> rcases b with - | (_ | _) <;> decide

theorem mem_pushMissing {known : List Text} {endpoint e : Text} :
    e ∈ pushMissing known endpoint ↔ e ∈ known ∨ e = endpoint := by
  unfold pushMissing
  split_ifs with h
  · refine ⟨.inl, ?_⟩
    rintro (he | rfl)
    · exact he
    · exact h
  · rw [mem_append, mem_singleton]

/-- A candidate with the fields of `kept` that merging leaves, and the others from the group. -/
structure MergedFrom (group : List (CandidatePeer D)) (kept merged : CandidatePeer D) : Prop where
  others : merged = { kept with
    endpoints := merged.endpoints, alwaysOn := merged.alwaysOn, alwaysOnReady := merged.alwaysOnReady }
  endpoints : ∀ e, e ∈ merged.endpoints ↔ ∃ c ∈ group, e ∈ c.endpoints
  alwaysOn : merged.alwaysOn = some true ↔ ∃ c ∈ group, c.alwaysOn = some true
  alwaysOnKnown : merged.alwaysOn.isSome = true ↔ ∃ c ∈ group, c.alwaysOn.isSome = true
  alwaysOnReady : merged.alwaysOnReady = true ↔ ∃ c ∈ group, c.alwaysOnReady = true

/-- A field that is a disjunction over two candidates is one over the group. -/
theorem absorb_iff {M : CandidatePeer D → Prop} (hM : ∀ a b, M (absorbOne a b) ↔ M a ∨ M b)
    {kept : Entry D} {indices : List (Entry D)} (hkept : kept ∈ indices)
    (hidx : ∀ e ∈ indices, e.2 = kept.2 → e = kept) :
    M (absorb kept indices) ↔ ∃ c ∈ indices.map Prod.fst, M c := by
  have hstep : ∀ (merged : CandidatePeer D) (e : Entry D),
      M (if e.2 = kept.2 then merged else absorbOne merged e.1) ↔ M merged ∨ e.2 ≠ kept.2 ∧ M e.1 := by
    intro merged e
    split_ifs with h
    · simp [h]
    · simp [h, hM]
  rw [absorb, foldl_iff_exists hstep]
  constructor
  · rintro (h | ⟨e, he, -, h⟩)
    · exact ⟨kept.1, mem_map_of_mem hkept, h⟩
    · exact ⟨e.1, mem_map_of_mem he, h⟩
  · rintro ⟨c, hc, h⟩
    obtain ⟨e, he, rfl⟩ := mem_map.1 hc
    by_cases hsame : e.2 = kept.2
    · exact .inl (hidx e he hsame ▸ h)
    · exact .inr ⟨e, he, hsame, h⟩

theorem absorb_others (kept : Entry D) (indices : List (Entry D)) :
    absorb kept indices = { kept.1 with
      endpoints := (absorb kept indices).endpoints, alwaysOn := (absorb kept indices).alwaysOn,
      alwaysOnReady := (absorb kept indices).alwaysOnReady } := by
  unfold absorb
  induction indices using reverseRecOn with
  | nil => rfl
  | append_singleton indices e ih =>
    rw [foldl_append, foldl_cons, foldl_nil]
    split_ifs
    · exact ih
    · rw [ih]
      rfl

theorem absorb_spec {kept : Entry D} {indices : List (Entry D)} (hkept : kept ∈ indices)
    (hidx : ∀ e ∈ indices, e.2 = kept.2 → e = kept) :
    MergedFrom (indices.map Prod.fst) kept.1 (absorb kept indices) where
  others := absorb_others kept indices
  endpoints := fun e => by
    refine absorb_iff (M := fun c => e ∈ c.endpoints) (fun a b => ?_) hkept hidx
    have hfold := foldl_iff_exists (M := fun known => e ∈ known)
      (fun known endpoint => @mem_pushMissing known endpoint e) b.endpoints a.endpoints
    simpa [absorbOne] using hfold
  alwaysOn := absorb_iff (M := fun c => c.alwaysOn = some true) (fun _ _ => mergeAlwaysOn_true) hkept hidx
  alwaysOnKnown :=
    absorb_iff (M := fun c => c.alwaysOn.isSome = true) (fun _ _ => mergeAlwaysOn_isSome) hkept hidx
  alwaysOnReady :=
    absorb_iff (M := fun c => c.alwaysOnReady = true) (fun _ _ => Bool.or_eq_true _ _ ▸ Iff.rfl) hkept hidx

theorem absorb_singleton (e : Entry D) : absorb e [e] = e.1 := if_pos rfl

/-! ## The pass over the groups -/

section Pass

variable (parseSeen)

def droppedOf : List (Entry D) → List ℕ
  | first :: second :: rest =>
    ((first :: second :: rest).map Prod.snd).filter (· ≠ (keptEntry parseSeen first (second :: rest)).2)
  | _ => []

/-- The index of a group that stays, and the candidate it then has. -/
def absorbedOf : List (Entry D) → Option (ℕ × CandidatePeer D)
  | first :: second :: rest =>
    let kept := keptEntry parseSeen first (second :: rest)
    some (kept.2, absorb kept (first :: second :: rest))
  | _ => none

theorem pass_eq (groups : List (List (Entry D))) : groups.foldl (mergeGroup parseSeen) ⟨[], ∅⟩ =
    ⟨groups.flatMap (droppedOf parseSeen), .collect (groups.filterMap (absorbedOf parseSeen))⟩ := by
  induction groups using reverseRecOn with
  | nil => rfl
  | append_singleton groups group ih =>
    rw [foldl_append, foldl_cons, foldl_nil, ih]
    rw [flatMap_append, filterMap_append, collect, collect, foldl_append]
    rcases group with _ | ⟨first, _ | ⟨second, rest⟩⟩
    · exact congrArg (Merging.mk · _) (append_nil _).symm
    · exact congrArg (Merging.mk · _) (append_nil _).symm
    · exact congrArg (Merging.mk · _) (congrArg _ (append_nil _).symm)

theorem index_of_dropped {i : ℕ} (h : i ∈ droppedOf parseSeen group) : i ∈ group.map Prod.snd := by
  match group, h with
  | _ :: _ :: _, h => exact (mem_filter.1 h).1

theorem index_of_absorbed {i : ℕ} {a : CandidatePeer D} (h : absorbedOf parseSeen group = some (i, a)) :
    i ∈ group.map Prod.snd := by
  match group, h with
  | first :: second :: rest, h =>
    cases h
    exact mem_map_of_mem (keptEntry_spec parseSeen first (second :: rest)).1

end Pass

/-! ## Each entry by its own group -/

variable (C parseSeen) in
/-- What becomes of an entry: it stays, or stands for its group, or goes. -/
def mergedEntry (cands : List (CandidatePeer D)) (e : Entry D) : Option (CandidatePeer D) :=
  match e.1.meshId C with
  | none => some e.1
  | some m =>
    if (keptOf parseSeen (entriesOf C cands m)).map Prod.snd = some e.2 then
      some (absorb e (entriesOf C cands m))
    else none

variable (C parseSeen) in
def mergedList (cands : List (CandidatePeer D)) : List (CandidatePeer D) :=
  cands.zipIdx.filterMap (mergedEntry C parseSeen cands)

section Entries

variable {groups : List (List (Entry D))}
  (hgroups : ∀ group, group ∈ groups ↔ ∃ m, group = entriesOf C cands m ∧ group ≠ []) (he : e ∈ cands.zipIdx)

include hgroups he

/-- An index is met in the group of its entry and in no other. -/
theorem exists_group_iff {P : List (Entry D) → Prop} (hP : ∀ group, P group → e.2 ∈ group.map Prod.snd) :
    (∃ group ∈ groups, P group) ↔ ∃ m, e.1.meshId C = some m ∧ P (entriesOf C cands m) := by
  constructor
  · rintro ⟨group, hgroup, h⟩
    obtain ⟨m, rfl, -⟩ := (hgroups group).1 hgroup
    obtain ⟨e', he', hidx⟩ := mem_map.1 (hP _ h)
    obtain ⟨hmem, hmesh⟩ := mem_entriesOf.1 he'
    obtain rfl := eq_of_index hmem he hidx
    exact ⟨m, hmesh, h⟩
  · rintro ⟨m, hmesh, h⟩
    exact ⟨_, (hgroups _).2 ⟨m, rfl, ne_nil_of_mem (mem_entriesOf.2 ⟨he, hmesh⟩)⟩, h⟩

theorem mergedEntry_of_pass :
    (if e.2 ∉ (groups.foldl (mergeGroup parseSeen) ⟨[], ∅⟩).dropped then
        some (((groups.foldl (mergeGroup parseSeen) ⟨[], ∅⟩).absorbed.get? e.2).getD e.1)
      else none) = mergedEntry C parseSeen cands e := by
  have hdrop := exists_group_iff hgroups he fun _ => index_of_dropped parseSeen (i := e.2)
  have habs := fun a => exists_group_iff hgroups he fun _ => index_of_absorbed parseSeen (i := e.2) (a := a)
  simp only [← mem_flatMap] at hdrop
  simp only [← mem_filterMap] at habs
  rw [pass_eq]
  dsimp only
  unfold mergedEntry
  cases hmesh : e.1.meshId C with
  | none =>
    simp only [hmesh, reduceCtorEq, false_and, exists_false, iff_false] at hdrop habs
    have hget := get?_collect (o := none) fun a =>
      iff_of_false (habs a) (Option.some_ne_none a).symm
    rw [if_pos hdrop, hget, Option.getD_none]
  | some m =>
    have hmem : e ∈ entriesOf C cands m := mem_entriesOf.2 ⟨he, hmesh⟩
    have hidx : ∀ e' ∈ entriesOf C cands m, e'.2 = e.2 → e' = e :=
      fun e' he' hi => eq_of_index (mem_entriesOf.1 he').1 he hi
    simp only [hmesh, Option.some.injEq, exists_eq_left'] at hdrop habs ⊢
    generalize entriesOf C cands m = group at hmem hidx hdrop habs ⊢
    match group with
    | [x] =>
      obtain rfl := mem_singleton.1 hmem
      have hget := get?_collect (o := none) fun a =>
        (habs a).trans (iff_of_false (Option.some_ne_none _).symm (Option.some_ne_none a).symm)
      rw [if_pos (hdrop.not.2 not_mem_nil), hget, keptOf_singleton, Option.map_some, if_pos rfl,
        absorb_singleton, Option.getD_none]
    | first :: second :: rest =>
      have hkept := (keptEntry_spec parseSeen first (second :: rest)).1
      rw [keptOf, Option.map_some]
      by_cases hi : (keptEntry parseSeen first (second :: rest)).2 = e.2
      · have hself := hidx _ hkept hi
        have hget := get?_collect (o := some (absorb e (first :: second :: rest))) fun a =>
          (habs a).trans (by rw [absorbedOf, hself, Option.some.injEq, Prod.mk.injEq, Option.some.injEq,
            and_iff_right rfl])
        rw [if_pos (congrArg some hi), hget, Option.getD_some, if_pos]
        intro hmem
        exact of_decide_eq_true (mem_filter.1 (hdrop.1 hmem)).2 hi.symm
      · rw [if_neg fun heq => hi (Option.some.inj heq), if_neg]
        refine not_not.2 (hdrop.2 (mem_filter.2 ⟨mem_map_of_mem hmem, ?_⟩))
        exact decide_eq_true fun heq => hi heq.symm

end Entries

variable {order : List (List (Entry D)) → List (List (Entry D))}

/-- The merged list, entry by entry, whatever the order of the groups. -/
theorem mergeSharedKeys_eq (hord : ∀ groups, (order groups).Perm groups) (hnd : (cands.map deviceId).Nodup) :
    mergeSharedKeys C parseSeen order cands = mergedList C parseSeen cands := by
  have hgroups : ∀ group, group ∈ order (byKey C cands).values ↔
      ∃ m, group = entriesOf C cands m ∧ group ≠ [] :=
    fun group => (hord _).mem_iff.trans mem_values
  unfold mergeSharedKeys
  rw [if_neg (not_not.2 hnd)]
  dsimp only
  rw [← filterMap_eq_map, filterMap_filter]
  refine filterMap_congr fun e he => ?_
  rw [← mergedEntry_of_pass hgroups he]
  simp only [Function.comp_apply, decide_eq_true_eq]

/-! ## The merged list -/

section Merged

variable {cands : List (CandidatePeer D)}

variable {c : CandidatePeer D}

theorem mergedEntry_eq_some {e : Entry D} (he : e ∈ cands.zipIdx)
    (h : mergedEntry C parseSeen cands e = some c) :
    (e.1.meshId C = none ∧ c = e.1) ∨ ∃ m, e.1.meshId C = some m ∧
      keptOf parseSeen (entriesOf C cands m) = some e ∧ c = absorb e (entriesOf C cands m) := by
  unfold mergedEntry at h
  cases hmesh : e.1.meshId C with
  | none =>
    rw [hmesh] at h
    exact .inl ⟨rfl, (Option.some.inj h).symm⟩
  | some m =>
    rw [hmesh] at h
    dsimp only at h
    split_ifs at h with hkept
    obtain ⟨k, hk, hi⟩ := Option.map_eq_some_iff.1 hkept
    obtain rfl := eq_of_index (mem_entriesOf.1 (keptOf_spec hk).1).1 he hi
    exact .inr ⟨m, rfl, hk, (Option.some.inj h).symm⟩

theorem mergedEntry_same {e : Entry D} (he : e ∈ cands.zipIdx) (h : mergedEntry C parseSeen cands e = some c) :
    c.deviceId = e.1.deviceId ∧ c.meshId C = e.1.meshId C := by
  rcases mergedEntry_eq_some he h with ⟨-, rfl⟩ | ⟨m, -, -, rfl⟩
  · exact ⟨rfl, rfl⟩
  · rw [absorb_others]
    exact ⟨rfl, rfl⟩

theorem map_fst_entriesOf (cands : List (CandidatePeer D)) (m : DeviceId) :
    (entriesOf C cands m).map Prod.fst = cands.filter (fun c => c.meshId C = some m) := by
  have hfil := filter_map (f := Prod.fst) (p := fun c : CandidatePeer D => decide (c.meshId C = some m))
    (l := cands.zipIdx)
  rw [zipIdx_map_fst] at hfil
  exact hfil.symm

variable (C parseSeen) in
theorem merged_deviceIds (cands : List (CandidatePeer D)) :
    ((mergedList C parseSeen cands).map deviceId).Sublist
      (cands.map deviceId) := by
  have hsub := map_filterMap_sublist (f := mergedEntry C parseSeen cands) (g := deviceId)
    (h := deviceId ∘ Prod.fst) fun e he c hc => (mergedEntry_same he hc).1
  rwa [← map_map, zipIdx_map_fst] at hsub

variable {m : DeviceId}

/-- A merged candidate with a mesh id stands for its group. -/
theorem merged_of_meshId (hc : c ∈ mergedList C parseSeen cands) (hm : c.meshId C = some m) :
    ∃ e, keptOf parseSeen (entriesOf C cands m) = some e ∧ c = absorb e (entriesOf C cands m) := by
  obtain ⟨e, he, hce⟩ := mem_filterMap.1 hc
  rw [(mergedEntry_same he hce).2] at hm
  rcases mergedEntry_eq_some he hce with ⟨hnone, -⟩ | ⟨m', hm', hk, rfl⟩
  · rw [hnone] at hm
    cases hm
  · rw [Option.some.inj (hm'.symm.trans hm)] at hk ⊢
    exact ⟨e, hk, rfl⟩

variable (parseSeen) in
theorem merged_meshIds (hnd : (cands.map deviceId).Nodup) :
    ((mergedList C parseSeen cands).filterMap (meshId C)).Nodup := by
  refine nodup_meshIds (hnd.sublist (merged_deviceIds C parseSeen cands)).of_map ?_
  intro a ha b hb m hma hmb
  obtain ⟨e, hk, rfl⟩ := merged_of_meshId ha hma
  obtain ⟨e', hk', rfl⟩ := merged_of_meshId hb hmb
  rw [Option.some.inj (hk.symm.trans hk')]

variable (parseSeen) in
theorem mesh_id_present (hm : m ∈ cands.filterMap (meshId C)) :
    m ∈ (mergedList C parseSeen cands).filterMap (meshId C) := by
  obtain ⟨c, hc, hmesh⟩ := mem_filterMap.1 hm
  have hgroup : c ∈ (entriesOf C cands m).map Prod.fst := by
    rw [map_fst_entriesOf]
    exact mem_filter.2 ⟨hc, decide_eq_true hmesh⟩
  obtain ⟨first, rest, hspl⟩ : ∃ first rest, entriesOf C cands m = first :: rest :=
    exists_cons_of_ne_nil fun hnil => by simp [hnil] at hgroup
  have hkept : keptOf parseSeen (entriesOf C cands m) = some (keptEntry parseSeen first rest) := by
    rw [hspl]
    rfl
  obtain ⟨hmem, hmesh'⟩ := mem_entriesOf.1 (keptOf_spec hkept).1
  have hmerged : mergedEntry C parseSeen cands (keptEntry parseSeen first rest) =
      some (absorb (keptEntry parseSeen first rest) (entriesOf C cands m)) := by
    rw [mergedEntry, hmesh']
    dsimp only
    rw [hkept, Option.map_some, if_pos rfl]
  refine mem_filterMap.2 ⟨_, mem_filterMap.2 ⟨_, hmem, hmerged⟩, ?_⟩
  rw [(mergedEntry_same hmem hmerged).2, hmesh']

theorem mem_merged_of_none (hnone : c.meshId C = none) :
    c ∈ mergedList C parseSeen cands ↔ c ∈ cands := by
  rw [mergedList, mem_filterMap]
  constructor
  · rintro ⟨e, he, hce⟩
    rw [(mergedEntry_same he hce).2] at hnone
    rcases mergedEntry_eq_some he hce with ⟨-, rfl⟩ | ⟨m, hm, -⟩
    · exact fst_mem_of_mem_zipIdx he
    · rw [hnone] at hm
      cases hm
  · intro hc
    rw [← zipIdx_map_fst (l := cands) (i := 0)] at hc
    obtain ⟨e, he, rfl⟩ := mem_map.1 hc
    refine ⟨e, he, ?_⟩
    rw [mergedEntry, hnone]

theorem merged_stands (hc : c ∈ mergedList C parseSeen cands) (hm : c.meshId C = some m) :
    ∃ kept, IsKept parseSeen (cands.filter fun c => c.meshId C = some m) kept ∧
      MergedFrom (cands.filter fun c => c.meshId C = some m) kept c := by
  obtain ⟨e, hk, rfl⟩ := merged_of_meshId hc hm
  obtain ⟨hmem, hkept⟩ := keptOf_spec hk
  rw [← map_fst_entriesOf]
  refine ⟨e.1, hkept, absorb_spec hmem fun e' he' hi => ?_⟩
  exact eq_of_index (mem_entriesOf.1 he').1 (mem_entriesOf.1 hmem).1 hi

end Merged

/-! ## Merging again -/

/-- Where no two candidates share a key, a group is one entry. -/
theorem entriesOf_eq_singleton (hnd : cands.Nodup)
    (hmesh : (cands.filterMap (meshId C)).Nodup) (he : e ∈ cands.zipIdx)
    (hm : e.1.meshId C = some m) : entriesOf C cands m = [e] := by
  have hfst : (cands.zipIdx.map Prod.fst).Nodup := by rwa [zipIdx_map_fst]
  have hall : ∀ e' ∈ entriesOf C cands m, e' = e := by
    intro e' he'
    obtain ⟨hmem, hm'⟩ := mem_entriesOf.1 he'
    refine inj_on_of_nodup_map hfst hmem he ?_
    exact eq_of_meshId hmesh (fst_mem_of_mem_zipIdx hmem) (fst_mem_of_mem_zipIdx he) hm' hm
  have hself : e ∈ entriesOf C cands m := mem_entriesOf.2 ⟨he, hm⟩
  have hnodup : (entriesOf C cands m).Nodup := hfst.of_map.filter _
  have hrep := eq_replicate_of_mem hall
  rw [hrep, nodup_replicate] at hnodup
  rw [hrep, Nat.le_antisymm hnodup (length_pos_of_mem hself)]
  rfl

theorem mergeSharedKeys_of_nodup (hord : ∀ groups, (order groups).Perm groups)
    (hnd : (cands.map deviceId).Nodup) (hmesh : (cands.filterMap (meshId C)).Nodup) :
    mergeSharedKeys C parseSeen order cands = cands := by
  have hstays : ∀ e ∈ cands.zipIdx, mergedEntry C parseSeen cands e = some e.1 := by
    intro e he
    unfold mergedEntry
    cases hm : e.1.meshId C with
    | none => rfl
    | some m =>
      dsimp only
      rw [entriesOf_eq_singleton hnd.of_map hmesh he hm, keptOf_singleton, Option.map_some, if_pos rfl,
        absorb_singleton]
  rw [mergeSharedKeys_eq hord hnd, mergedList, filterMap_congr hstays]
  exact (congrFun filterMap_eq_map _).trans (zipIdx_map_fst ..)

/-- Merging is a deduplication by mesh id that does not depend on the order of the groups. -/
theorem merge_shared_keys_deduplicates (C : Crypto) (parseSeen : Text → Option T)
    {cands : List (CandidatePeer D)} (hnd : (cands.map CandidatePeer.deviceId).Nodup)
    (order : List (List (CandidatePeer D × ℕ)) → List (List (CandidatePeer D × ℕ)))
    (hord : ∀ groups, (order groups).Perm groups) :
    let merged := mergeSharedKeys C parseSeen order cands
    (∀ order', (∀ groups, (order' groups).Perm groups) →
        mergeSharedKeys C parseSeen order' cands = merged) ∧
      (merged.map CandidatePeer.deviceId).Sublist (cands.map CandidatePeer.deviceId) ∧
      (merged.filterMap (CandidatePeer.meshId C)).Nodup ∧
      (∀ m ∈ cands.filterMap (CandidatePeer.meshId C), m ∈ merged.filterMap (CandidatePeer.meshId C)) ∧
      (∀ c, c.meshId C = none → (c ∈ merged ↔ c ∈ cands)) ∧
      (∀ c ∈ merged, ∀ m, c.meshId C = some m →
        ∃ kept, IsKept parseSeen (cands.filter fun c => c.meshId C = some m) kept ∧
          MergedFrom (cands.filter fun c => c.meshId C = some m) kept c) ∧
      ∀ order', (∀ groups, (order' groups).Perm groups) → mergeSharedKeys C parseSeen order' merged = merged := by
  intro merged
  have hmerged : merged = mergedList C parseSeen cands := mergeSharedKeys_eq hord hnd
  have hids := merged_deviceIds C parseSeen cands
  have hmesh := merged_meshIds (C := C) parseSeen hnd
  rw [← hmerged] at hids hmesh
  refine ⟨fun order' hord' => ?_, hids, hmesh, fun m hm => ?_, fun c hnone => ?_, fun c hc m hm => ?_, ?_⟩
  · rw [hmerged, mergeSharedKeys_eq hord' hnd]
  · rw [hmerged]
    exact mesh_id_present parseSeen hm
  · rw [hmerged]
    exact mem_merged_of_none hnone
  · rw [hmerged] at hc
    exact merged_stands hc hm
  · exact fun order' hord' => mergeSharedKeys_of_nodup hord' (hnd.sublist hids) hmesh

/-! ## One device listed twice -/

def listed (deviceId seen endpoint : String) (alwaysOn : Option Bool) : CandidatePeer Unit :=
  ⟨deviceId.toList, false, some (encodeHex (List.replicate 33 7)).toList, [endpoint.toList], some seen.toList,
    alwaysOn, false, true, ()⟩

def listedTwice : List (CandidatePeer Unit) := [listed "old" "i" "a" (some true), listed "new" "ii" "b" none]

def unaryTime (text : Text) : Option ℕ := some text.length

/-- The one seen last is kept, with the endpoint and the setting of the other. -/
theorem listed_twice_merged :
    mergeSharedKeys plainCrypto unaryTime List.reverse listedTwice =
        [{ listed "new" "ii" "b" (some true) with endpoints := ["b".toList, "a".toList] }] ∧
      mergeSharedKeys plainCrypto unaryTime id (mergeSharedKeys plainCrypto unaryTime List.reverse listedTwice) =
        mergeSharedKeys plainCrypto unaryTime List.reverse listedTwice :=
  ⟨by decide +kernel,
    (merge_shared_keys_deduplicates plainCrypto unaryTime (by decide +kernel) List.reverse
      List.reverse_perm).2.2.2.2.2.2 id List.Perm.refl⟩

end ProxyNode.Roster
