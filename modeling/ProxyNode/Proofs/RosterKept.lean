import Mathlib.Data.List.Chain
import ProxyNode.Sanity.Roster
import ProxyNode.Spec.Kv

/-! Reconciling a feed with the last roster. The loop tests whether a kept key is present in the
growing roster and replaces entries by device id, so an entry that an earlier step relied on can
be replaced by a later one. `placed` is the list of previous candidates that are put into the
roster; they are the ends of chains through the two lists, in which each candidate takes the place
under which the feed has the key of the next. -/

namespace ProxyNode.Roster

open Text Wire CandidatePeer List

variable {D : Type} (C : Crypto) (pulls : Finset DeviceId)

/-- The previous candidates that are put into the roster: those to be kept whose key no incoming
candidate holds, save one whose place was taken by then. -/
def placedStep (incoming placed : List (CandidatePeer D)) (kept : CandidatePeer D) : List (CandidatePeer D) :=
  match recentKey C pulls kept with
  | none => placed
  | some keptKey =>
    if ∃ i ∈ incoming, i.hasKey keptKey = true ∧ i.deviceId ∉ placed.map CandidatePeer.deviceId then placed
    else placed ++ [kept]

def placed (incoming prev : List (CandidatePeer D)) : List (CandidatePeer D) :=
  prev.foldl (placedStep C pulls incoming) []

variable {C pulls}

variable {kept k i last : CandidatePeer D} {key : Text}

theorem recentKey_eq_some :
    recentKey C pulls kept = some key ↔ kept.accountAuthenticated = true ∧
      kept.meshPublicKeyHex = some key ∧ ∃ m ∈ pulls, candidateDeviceId C key = some m := by
  unfold recentKey
  cases kept.accountAuthenticated with
  | false => simp
  | true =>
    cases kept.meshPublicKeyHex with
    | none => simp
    | some own =>
      cases hid : candidateDeviceId C own with
      | none =>
        simp only [Bool.not_true, Bool.false_eq_true, if_false, hid, true_and, Option.some.injEq]
        exact ⟨nofun, by rintro ⟨rfl, m, -, hm⟩; rw [hid] at hm; cases hm⟩
      | some m =>
        simp only [Bool.not_true, Bool.false_eq_true, if_false, hid, true_and, Option.some.injEq]
        constructor
        · intro h
          split_ifs at h with hm
          cases h
          exact ⟨rfl, m, hm, hid⟩
        · rintro ⟨rfl, m', hm', hid'⟩
          rw [hid] at hid'
          rw [if_pos (Option.some.inj hid' ▸ hm')]

theorem hasKey_self {c : CandidatePeer D} (h : c.meshPublicKeyHex = some key) :
    c.hasKey key = true := by
  rw [hasKey, h]
  exact decide_eq_true rfl

theorem meshId_of_recentKey (h : recentKey C pulls kept = some key) :
    ∃ m ∈ pulls, kept.meshId C = some m ∧ candidateDeviceId C key = some m := by
  obtain ⟨-, hkey, m, hm, hid⟩ := recentKey_eq_some.1 h
  refine ⟨m, hm, ?_, hid⟩
  rw [meshId, hkey, Option.bind_some, hid]

/-! ## The loop -/

/-- The roster while the loop runs: the incoming candidates whose place was not taken, and the
candidates placed so far. -/
structure Reconciled (incoming placed roster : List (CandidatePeer D)) : Prop where
  deviceIds : (roster.map CandidatePeer.deviceId).Nodup
  mem : ∀ c, c ∈ roster ↔ (c ∈ incoming ∧ c.deviceId ∉ placed.map CandidatePeer.deviceId) ∨
    ∃ k ∈ placed, c = carriedForward k

variable {incoming prev before after : List (CandidatePeer D)}

theorem Reconciled.present {placed roster : List (CandidatePeer D)} (h : Reconciled incoming placed roster)
    (hfrs : ∀ k ∈ placed, k.hasKey key = false) :
    roster.any (·.hasKey key) = true ↔
      ∃ i ∈ incoming, i.hasKey key = true ∧ i.deviceId ∉ placed.map deviceId := by
  rw [any_eq_true]
  constructor
  · rintro ⟨c, hc, hkey⟩
    rcases (h.mem c).1 hc with ⟨hi, hfree⟩ | ⟨k, hk, rfl⟩
    · exact ⟨c, hi, hkey, hfree⟩
    · have hkey : k.hasKey key = true := hkey
      rw [hfrs k hk] at hkey
      cases hkey
  · rintro ⟨i, hi, hkey, hfree⟩
    exact ⟨i, (h.mem i).2 (.inl ⟨hi, hfree⟩), hkey⟩

theorem Reconciled.step {placed roster : List (CandidatePeer D)} (h : Reconciled incoming placed roster)
    (hdev : kept.deviceId ∉ placed.map deviceId)
    (hfrs : ∀ key, recentKey C pulls kept = some key → ∀ k ∈ placed, k.hasKey key = false) :
    Reconciled incoming (placedStep C pulls incoming placed kept) (reconcileStep C pulls roster kept) := by
  unfold placedStep reconcileStep
  cases hkey : recentKey C pulls kept with
  | none => exact h
  | some key =>
    dsimp only
    have hpres := h.present (hfrs key hkey)
    by_cases hthere : roster.any (·.hasKey key) = true
    · rw [if_pos hthere, if_pos (hpres.1 hthere)]
      exact h
    · rw [if_neg hthere, if_neg (hpres.not.1 hthere)]
      refine ⟨nodup_putBy _ h.deviceIds, fun c => ?_⟩
      rw [mem_putBy h.deviceIds, h.mem]
      have hname : (carriedForward kept).deviceId = kept.deviceId := rfl
      simp only [map_append, map_cons, map_nil, mem_append, mem_singleton, hname, not_or]
      constructor
      · rintro (⟨⟨hi, hfree⟩ | ⟨k, hk, rfl⟩, hne⟩ | rfl)
        · exact .inl ⟨hi, hfree, hne⟩
        · exact .inr ⟨k, .inl hk, rfl⟩
        · exact .inr ⟨kept, .inr rfl, rfl⟩
      · rintro (⟨hi, hfree, hne⟩ | ⟨k, hk | rfl, rfl⟩)
        · exact .inl ⟨.inl ⟨hi, hfree⟩, hne⟩
        · refine .inl ⟨.inr ⟨k, hk, rfl⟩, fun heq => hdev ?_⟩
          exact mem_map.2 ⟨k, hk, heq⟩
        · exact .inr rfl

theorem mem_placedStep {placed : List (CandidatePeer D)} :
    k ∈ placedStep C pulls incoming placed kept ↔
      k ∈ placed ∨ k = kept ∧ ∃ key, recentKey C pulls kept = some key ∧
        ∀ i ∈ incoming, i.hasKey key = true → i.deviceId ∈ placed.map deviceId := by
  unfold placedStep
  cases recentKey C pulls kept with
  | none => simp
  | some key =>
    dsimp only
    split_ifs with hheld
    · obtain ⟨i, hi, hhas, hfree⟩ := hheld
      refine ⟨.inl, Or.rec id ?_⟩
      rintro ⟨-, key', heq, htkn⟩
      exact absurd (htkn i hi (Option.some.inj heq ▸ hhas)) hfree
    · push Not at hheld
      rw [mem_append, mem_singleton]
      refine or_congr_right ⟨fun heq => ⟨heq, key, rfl, hheld⟩, And.left⟩

theorem mem_placed_append :
    k ∈ placed C pulls incoming (prev ++ [last]) ↔
      k ∈ placed C pulls incoming prev ∨ k = last ∧ ∃ key, recentKey C pulls last = some key ∧
        ∀ i ∈ incoming, i.hasKey key = true →
          i.deviceId ∈ (placed C pulls incoming prev).map deviceId := by
  rw [placed, foldl_append]
  exact mem_placedStep

theorem mem_placed (h : k ∈ placed C pulls incoming prev) :
    k ∈ prev ∧ (recentKey C pulls k).isSome = true := by
  induction prev using reverseRecOn with
  | nil => cases h
  | append_singleton prev last ih =>
    rcases mem_placed_append.1 h with h | ⟨rfl, key, hkey, -⟩
    · exact ⟨mem_append_left _ (ih h).1, (ih h).2⟩
    · exact ⟨mem_append_right _ (mem_singleton_self _), by rw [hkey]; rfl⟩

theorem reconciled (pulls : Finset DeviceId) (hinc : (incoming.map deviceId).Nodup)
    (hprev : (prev.map deviceId).Nodup) (hmesh : (prev.filterMap (meshId C)).Nodup) :
    Reconciled incoming (placed C pulls incoming prev) (reconcileRoster C incoming prev pulls) := by
  induction prev using reverseRecOn with
  | nil => exact ⟨hinc, fun c => by simp [placed, reconcileRoster]⟩
  | append_singleton prev kept ih =>
    rw [map_append, nodup_append] at hprev
    have hrest := ih hprev.1 (hmesh.sublist ((sublist_append_left _ _).filterMap _))
    rw [placed, foldl_append, reconcileRoster, foldl_append]
    refine hrest.step (fun hmem => ?_) fun key hkey k hk => ?_
    · obtain ⟨k, hk, heq⟩ := mem_map.1 hmem
      exact hprev.2.2 _ (mem_map_of_mem (mem_placed hk).1) _ (mem_singleton_self _) heq
    · -- a placed candidate with the same key would have the same mesh id
      by_contra hsame
      obtain ⟨m, -, hm, hid⟩ := meshId_of_recentKey hkey
      have hk' : k.meshId C = some m := (meshId_of_hasKey (Bool.of_not_eq_false hsame)).trans hid
      have heq : k = kept := eq_of_meshId hmesh (mem_append_left _ (mem_placed hk).1)
        (mem_append_right _ (mem_singleton_self _)) hk' hm
      exact hprev.2.2 _ (mem_map_of_mem (mem_placed hk).1) _ (mem_singleton_self _)
        (congrArg deviceId heq)

theorem mem_placed_before (h : k ∈ placed C pulls incoming (before ++ after)) :
    k ∈ placed C pulls incoming before ∨ k ∈ after := by
  induction after using reverseRecOn with
  | nil => exact .inl (append_nil before ▸ h)
  | append_singleton after last ih =>
    rw [← append_assoc] at h
    rcases mem_placed_append.1 h with h | ⟨rfl, -⟩
    · exact (ih h).imp_right (mem_append_left _)
    · exact .inr (mem_append_right _ (mem_singleton_self _))

/-- A candidate is placed where its turn comes, or not at all. -/
theorem mem_placed_turn (hnd : (before ++ kept :: after).Nodup) (hkey : recentKey C pulls kept = some key) :
    kept ∈ placed C pulls incoming (before ++ kept :: after) ↔
      ∀ i ∈ incoming, i.hasKey key = true →
        i.deviceId ∈ (placed C pulls incoming before).map deviceId := by
  induction after using reverseRecOn with
  | nil =>
    have hbef : kept ∉ before := fun h => (nodup_append.1 hnd).2.2 _ h _ mem_cons_self rfl
    rw [mem_placed_append, or_iff_right fun h => hbef (mem_placed h).1]
    simp [hkey]
  | append_singleton after last ih =>
    rw [← cons_append, ← append_assoc] at hnd ⊢
    have hne : kept ≠ last := (nodup_append.1 hnd).2.2 _ (by simp) _ (mem_singleton_self _)
    rw [mem_placed_append, or_iff_left fun h => hne h.1]
    exact ih (nodup_append.1 hnd).1

/-! ## What is kept -/

def KeepsRecent (C : Crypto) (pulls : Finset DeviceId) (prev roster : List (CandidatePeer D)) : Prop :=
  ∀ kept ∈ prev, kept.accountAuthenticated = true → ∀ key, kept.meshPublicKeyHex = some key →
    ∀ m ∈ pulls, candidateDeviceId C key = some m → ∃ c ∈ roster, c.hasKey key = true

/-- Whether `i` has the key of `k`. -/
def CandidatePeer.holds (i k : CandidatePeer D) : Bool := k.meshPublicKeyHex.any i.hasKey

/-- Recent candidates in the order of the last roster, each of which takes the place of the next
one's key: the feed has no entry with the key of the first, and has the key of each other one
under the device id of the one before it. -/
structure TakeOver (C : Crypto) (pulls : Finset DeviceId)
    (incoming prev chain : List (CandidatePeer D)) : Prop where
  order : chain <+ prev
  recent : ∀ k ∈ chain, (recentKey C pulls k).isSome = true
  absent : ∀ k ∈ chain.head?, ∀ i ∈ incoming, i.holds k = false
  linked : chain.IsChain fun a b => ∃ i ∈ incoming, i.deviceId = a.deviceId ∧ i.holds b = true

section

variable (C : Crypto) (pulls : Finset DeviceId) (incoming prev : List (CandidatePeer D))

/-- No chain ends at the device id under which the feed has the key of an earlier recent candidate. -/
def NoneLost : Prop :=
  ∀ front last, TakeOver C pulls incoming prev (front ++ [last]) →
    ∀ k, [k, last] <+ prev → (recentKey C pulls k).isSome = true →
      ∀ i ∈ incoming, i.deviceId = last.deviceId → i.holds k = false

/-- Where the feed has the mesh id of a recent candidate and its key in another encoding only, a
chain ends at the device id of that entry. -/
def NoneDoubled : Prop :=
  ∀ k ∈ prev, (recentKey C pulls k).isSome = true → (∀ i ∈ incoming, i.holds k = false) →
    ∀ i ∈ incoming, i.meshId C = k.meshId C →
      ∃ front last, TakeOver C pulls incoming prev (front ++ [last]) ∧ last.deviceId = i.deviceId

end

theorem holds_of_recentKey (h : recentKey C pulls kept = some key) :
    i.holds kept = i.hasKey key := by
  rw [holds, (recentKey_eq_some.1 h).2.1]
  rfl

theorem meshId_of_holds (h : i.holds k = true) : i.meshId C = k.meshId C := by
  obtain ⟨key, hkey, hhas⟩ := (Option.any_eq_true _ _).1 h
  rw [meshId_of_hasKey hhas, meshId, hkey]
  rfl

namespace TakeOver

variable {front : List (CandidatePeer D)}

theorem single (hmem : kept ∈ prev) (hrec : (recentKey C pulls kept).isSome = true)
    (habs : ∀ i ∈ incoming, i.holds kept = false) :
    TakeOver C pulls incoming prev ([] ++ [kept]) where
  order := singleton_sublist.2 hmem
  recent := by simpa using hrec
  absent := by simpa using habs
  linked := .singleton _

theorem snoc (h : TakeOver C pulls incoming prev (front ++ [k]))
    (hrec : (recentKey C pulls last).isSome = true) (hi : i ∈ incoming)
    (hdev : i.deviceId = k.deviceId) (hholds : i.holds last = true) :
    TakeOver C pulls incoming (prev ++ [last]) (front ++ [k] ++ [last]) where
  order := h.order.append (Sublist.refl _)
  recent := by
    intro c hc
    rcases mem_append.1 hc with hc | hc
    · exact h.recent c hc
    · exact mem_singleton.1 hc ▸ hrec
  absent := by
    have hhead : (front ++ [k] ++ [last]).head? = (front ++ [k]).head? := by cases front <;> rfl
    rw [hhead]
    exact h.absent
  linked := by
    refine isChain_append.2 ⟨h.linked, .singleton _, fun a ha b hb => ?_⟩
    rw [getLast?_concat, Option.mem_some] at ha
    rw [head?_cons, Option.mem_some] at hb
    subst ha hb
    exact ⟨i, hi, hdev, hholds⟩

theorem mono {more chain : List (CandidatePeer D)} (h : TakeOver C pulls incoming prev chain)
    (hsub : prev <+ more) : TakeOver C pulls incoming more chain :=
  { h with order := h.order.trans hsub }

/-- A chain with the last candidate of the roster at its end is the candidate alone, or one of the
others goes before it. -/
theorem unsnoc (h : TakeOver C pulls incoming (prev ++ [kept]) (front ++ [last])) (hfro : front <+ prev) :
    (∀ i ∈ incoming, i.holds last = false) ∨
      ∃ rest k, TakeOver C pulls incoming prev (rest ++ [k]) ∧
        ∃ i ∈ incoming, i.deviceId = k.deviceId ∧ i.holds last = true := by
  rcases eq_nil_or_concat' front with rfl | ⟨rest, k, rfl⟩
  · exact .inl (h.absent last rfl)
  · have hlinks := isChain_append.1 h.linked
    refine .inr ⟨rest, k, ⟨hfro, fun c hc => h.recent c (mem_append_left _ hc), ?_, hlinks.1⟩, ?_⟩
    · have hhead : (rest ++ [k]).head? = (rest ++ [k] ++ [last]).head? := by cases rest <;> rfl
      rw [hhead]
      exact h.absent
    · exact hlinks.2.2 k getLast?_concat last rfl

end TakeOver

/-- The placed candidates are the ends of the chains. -/
theorem mem_placed_iff (hmesh : (incoming.filterMap (meshId C)).Nodup) :
    k ∈ placed C pulls incoming prev ↔
      ∃ front, TakeOver C pulls incoming prev (front ++ [k]) := by
  induction prev using reverseRecOn generalizing k with
  | nil =>
    refine ⟨nofun, ?_⟩
    rintro ⟨front, h⟩
    exact absurd (sublist_nil.1 h.order) (by simp)
  | append_singleton prev last ih =>
    rw [mem_placed_append]
    constructor
    · rintro (hk | ⟨rfl, key, hkey, htkn⟩)
      · obtain ⟨front, h⟩ := ih.1 hk
        exact ⟨front, h.mono (sublist_append_left _ _)⟩
      · have hrec : (recentKey C pulls k).isSome = true := by rw [hkey]; rfl
        by_cases habs : ∀ i ∈ incoming, i.holds k = false
        · exact ⟨[], .single (mem_append_right _ (mem_singleton_self _)) hrec habs⟩
        · push Not at habs
          obtain ⟨i, hi, hheld⟩ := habs
          have hholds := Bool.of_not_eq_false hheld
          obtain ⟨k', hk', hdev⟩ := mem_map.1 (htkn i hi (holds_of_recentKey hkey ▸ hholds))
          obtain ⟨front, h⟩ := ih.1 hk'
          exact ⟨front ++ [k'], h.snoc hrec hi hdev.symm hholds⟩
    · rintro ⟨front, h⟩
      -- the chain lies in the roster before `last`, or `last` is its end
      obtain ⟨c, t, heq, hc, ht⟩ := sublist_append_iff.1 h.order
      rcases sublist_singleton.1 ht with rfl | rfl
      · rw [append_nil] at heq
        exact .inl (ih.2 ⟨front, { h with order := heq ▸ hc }⟩)
      · obtain ⟨rfl, hend⟩ := append_inj' heq rfl
        obtain rfl : k = last := head_eq_of_cons_eq hend
        obtain ⟨key, hkey⟩ :=
          Option.isSome_iff_exists.1 (h.recent k (mem_append_right _ (mem_singleton_self _)))
        refine .inr ⟨rfl, key, hkey, fun i hi hhas => ?_⟩
        rw [← holds_of_recentKey hkey] at hhas
        rcases h.unsnoc hc with habs | ⟨rest, k', hbef, j, hj, hdev, hheld⟩
        · rw [habs i hi] at hhas
          cases hhas
        · -- the feed has the key once
          obtain ⟨m, -, hm, -⟩ := meshId_of_recentKey hkey
          have hij : i = j := eq_of_meshId hmesh hi hj ((meshId_of_holds hhas).trans hm)
            ((meshId_of_holds hheld).trans hm)
          exact mem_map.2 ⟨k', ih.2 ⟨rest, hbef⟩, hij ▸ hdev.symm⟩

theorem taken_iff (hmesh : (incoming.filterMap (meshId C)).Nodup) {id : Text} :
    id ∈ (placed C pulls incoming prev).map deviceId ↔
      ∃ front last, TakeOver C pulls incoming prev (front ++ [last]) ∧ last.deviceId = id := by
  simp only [mem_map, mem_placed_iff hmesh]
  constructor
  · rintro ⟨last, ⟨front, h⟩, hid⟩
    exact ⟨front, last, h, hid⟩
  · rintro ⟨front, last, h, hid⟩
    exact ⟨last, ⟨front, h⟩, hid⟩

/-- Where the feed has the key of a placed candidate, the place of that entry was taken. -/
theorem holder_taken (h : k ∈ placed C pulls incoming prev) (hi : i ∈ incoming) (hholds : i.holds k = true) :
    i.deviceId ∈ (placed C pulls incoming prev).map deviceId := by
  induction prev using reverseRecOn with
  | nil => cases h
  | append_singleton prev last ih =>
    have hmore : ∀ {t}, t ∈ (placed C pulls incoming prev).map deviceId →
        t ∈ (placed C pulls incoming (prev ++ [last])).map deviceId := by
      intro t ht
      obtain ⟨c, hc, rfl⟩ := mem_map.1 ht
      exact mem_map_of_mem (mem_placed_append.2 (.inl hc))
    rcases mem_placed_append.1 h with h | ⟨rfl, key, hkey, htkn⟩
    · exact hmore (ih h)
    · exact hmore (htkn i hi (holds_of_recentKey hkey ▸ hholds))

section

variable (hinc : Valid C incoming) (hprev : Valid C prev)

include hinc hprev

theorem valid_reconcileRoster (h : NoneDoubled C pulls incoming prev) :
    Valid C (reconcileRoster C incoming prev pulls) := by
  have hloop := reconciled pulls hinc.deviceIds hprev.deviceIds hprev.meshIds
  have hfrom : ∀ c ∈ reconcileRoster C incoming prev pulls,
      ∃ d, (d ∈ incoming ∨ d ∈ prev) ∧ c.deviceId = d.deviceId ∧ c.meshPublicKeyHex = d.meshPublicKeyHex := by
    intro c hc
    rcases (hloop.mem c).1 hc with ⟨hi, -⟩ | ⟨k, hk, rfl⟩
    · exact ⟨c, .inl hi, rfl, rfl⟩
    · exact ⟨k, .inr (mem_placed hk).1, rfl, rfl⟩
  refine ⟨fun c hc => ?_, hloop.deviceIds, fun c hc => ?_, nodup_meshIds hloop.deviceIds.of_map ?_⟩
  · obtain ⟨d, hd | hd, hname, -⟩ := hfrom c hc
    · exact hname ▸ hinc.named d hd
    · exact hname ▸ hprev.named d hd
  · obtain ⟨d, hd | hd, -, hkey⟩ := hfrom c hc
    · rw [meshId, hkey]
      exact hinc.keys d hd
    · rw [meshId, hkey]
      exact hprev.keys d hd
  · -- an incoming candidate whose place is free and a placed one cannot share a mesh id
    have hacross : ∀ i ∈ incoming,
        i.deviceId ∉ (placed C pulls incoming prev).map deviceId →
        ∀ k ∈ placed C pulls incoming prev, i.meshId C ≠ k.meshId C := by
      intro i hi hfree k hk hsame
      obtain ⟨hmem, hrec⟩ := mem_placed hk
      by_cases habs : ∀ j ∈ incoming, j.holds k = false
      · exact hfree ((taken_iff hinc.meshIds).2 (h k hmem hrec habs i hi hsame))
      · push Not at habs
        obtain ⟨j, hj, hheld⟩ := habs
        have hholds := Bool.of_not_eq_false hheld
        obtain ⟨key, hkey⟩ := Option.isSome_iff_exists.1 hrec
        obtain ⟨m, -, hm, -⟩ := meshId_of_recentKey hkey
        have heq : j = i := eq_of_meshId hinc.meshIds hj hi ((meshId_of_holds hholds).trans hm)
          (hsame.trans hm)
        exact hfree (heq ▸ holder_taken hk hj hholds)
    intro a ha b hb m hma hmb
    rcases (hloop.mem a).1 ha with ⟨hai, hfree⟩ | ⟨k, hk, rfl⟩
    · rcases (hloop.mem b).1 hb with ⟨hbi, -⟩ | ⟨k', hk', rfl⟩
      · exact eq_of_meshId hinc.meshIds hai hbi hma hmb
      · exact absurd (hma.trans hmb.symm) (hacross a hai hfree k' hk')
    · rcases (hloop.mem b).1 hb with ⟨hbi, hfree⟩ | ⟨k', hk', rfl⟩
      · exact absurd (hmb.trans hma.symm) (hacross b hbi hfree k hk)
      · have hma : k.meshId C = some m := hma
        have hmb : k'.meshId C = some m := hmb
        rw [eq_of_meshId hprev.meshIds (mem_placed hk).1 (mem_placed hk').1 hma hmb]

theorem keepsRecent_reconcileRoster (h : NoneLost C pulls incoming prev) :
    KeepsRecent C pulls prev (reconcileRoster C incoming prev pulls) := by
  have hloop := reconciled pulls hinc.deviceIds hprev.deviceIds hprev.meshIds
  intro kept hkept hauth key hkey m hm hid
  have hrec : recentKey C pulls kept = some key := recentKey_eq_some.2 ⟨hauth, hkey, m, hm, hid⟩
  by_cases hplaced : kept ∈ placed C pulls incoming prev
  · exact ⟨carriedForward kept, (hloop.mem _).2 (.inr ⟨kept, hplaced, rfl⟩), hasKey_self hkey⟩
  · -- the feed had the key under an id that was free then, and no later chain ends at that id
    obtain ⟨before, after, rfl⟩ := append_of_mem hkept
    have hturn := (mem_placed_turn hprev.deviceIds.of_map hrec).not.1 hplaced
    push Not at hturn
    obtain ⟨i, hi, hhas, hfree⟩ := hturn
    refine ⟨i, (hloop.mem i).2 (.inl ⟨hi, fun htkn => ?_⟩), hhas⟩
    obtain ⟨last, hlast, hdev⟩ := mem_map.1 htkn
    obtain ⟨front, hchain⟩ := (mem_placed_iff hinc.meshIds).1 hlast
    have hlater : last ∈ after := by
      rcases mem_placed_before hlast with hbef | hmem
      · exact absurd (mem_map.2 ⟨last, hbef, hdev⟩) hfree
      · rcases mem_cons.1 hmem with rfl | hmem
        · exact absurd hlast hplaced
        · exact hmem
    have hord : [kept, last] <+ before ++ kept :: after :=
      ((singleton_sublist.2 hlater).cons_cons kept).trans (sublist_append_right _ _)
    have hnot := h front last hchain kept hord (by rw [hrec]; rfl) i hi hdev.symm
    rw [holds_of_recentKey hrec, hhas] at hnot
    cases hnot

theorem noneLost_of_kept
    (hkps : KeepsRecent C pulls prev (reconcileRoster C incoming prev pulls)) :
    NoneLost C pulls incoming prev := by
  have hloop := reconciled pulls hinc.deviceIds hprev.deviceIds hprev.meshIds
  intro front last hchain kept hord hsome i hi hdev
  by_contra hheld
  have htkn : i.deviceId ∈ (placed C pulls incoming prev).map deviceId :=
    (taken_iff hinc.meshIds).2 ⟨front, last, hchain, hdev.symm⟩
  obtain ⟨key, hrec⟩ := Option.isSome_iff_exists.1 hsome
  have hhas : i.hasKey key = true := holds_of_recentKey hrec ▸ Bool.of_not_eq_false hheld
  obtain ⟨m, hm, hmesh, hid⟩ := meshId_of_recentKey hrec
  obtain ⟨hauth, hkey, -⟩ := recentKey_eq_some.1 hrec
  have hkept : kept ∈ prev := hord.subset mem_cons_self
  obtain ⟨c, hc, hhasc⟩ := hkps kept hkept hauth key hkey m hm hid
  have hmc : c.meshId C = some m := (meshId_of_hasKey hhasc).trans hid
  rcases (hloop.mem c).1 hc with ⟨hci, hfree⟩ | ⟨k, hk, rfl⟩
  · have hmi : i.meshId C = some m := (meshId_of_hasKey hhas).trans hid
    exact hfree (eq_of_meshId hinc.meshIds hci hi hmc hmi ▸ htkn)
  · -- `kept` was placed, so at its turn the place was taken, by `last`, which comes later
    have hmk : k.meshId C = some m := hmc
    have hplaced := eq_of_meshId hprev.meshIds (mem_placed hk).1 hkept hmk hmesh ▸ hk
    obtain ⟨front', back, rfl, hfro, hback⟩ := cons_sublist_iff.1 hord
    obtain ⟨before, after, rfl⟩ := append_of_mem hfro
    rw [append_assoc, cons_append] at hplaced hprev
    have hturn := (mem_placed_turn hprev.deviceIds.of_map hrec).1 hplaced i hi hhas
    obtain ⟨taker, htaker, hsame⟩ := mem_map.1 hturn
    have hdis := hprev.deviceIds
    rw [map_append, nodup_append] at hdis
    refine hdis.2.2 _ (mem_map_of_mem (mem_placed htaker).1) last.deviceId ?_ (hsame.trans hdev)
    exact mem_map_of_mem (mem_cons_of_mem _ (mem_append_right _ (singleton_sublist.1 hback)))

theorem noneDoubled_of_valid (hval : Valid C (reconcileRoster C incoming prev pulls)) :
    NoneDoubled C pulls incoming prev := by
  have hloop := reconciled pulls hinc.deviceIds hprev.deviceIds hprev.meshIds
  intro kept hkept hsome habs i hi hsame
  have hplaced : kept ∈ placed C pulls incoming prev :=
    (mem_placed_iff hinc.meshIds).2 ⟨[], .single hkept hsome habs⟩
  obtain ⟨key, hrec⟩ := Option.isSome_iff_exists.1 hsome
  obtain ⟨m, -, hmesh, -⟩ := meshId_of_recentKey hrec
  rw [← taken_iff hinc.meshIds]
  by_contra hfree
  have heq : i = carriedForward kept := eq_of_meshId hval.meshIds ((hloop.mem i).2 (.inl ⟨hi, hfree⟩))
    ((hloop.mem _).2 (.inr ⟨kept, hplaced, rfl⟩)) (hsame.trans hmesh) hmesh
  have hself : i.hasKey key = true := heq ▸ hasKey_self (recentKey_eq_some.1 hrec).2.1
  rw [← holds_of_recentKey hrec, habs i hi] at hself
  cases hself

end

/-- Reconciling keeps the roster valid and the recent keys in it exactly where no chain of recent
candidates ends at an id under which the feed has an earlier one's key, and a feed entry with a
recent key in another encoding has such a chain at its id. -/
theorem reconcile_keeps_recent_iff {incoming prev : List (CandidatePeer D)}
    (hinc : ∃ keys, validateCandidateKeys C incoming = .ok keys)
    (hprev : ∃ keys, validateCandidateKeys C prev = .ok keys) (pulls : Finset DeviceId) :
    ((∃ keys, validateCandidateKeys C (reconcileRoster C incoming prev pulls) = .ok keys) ∧
        KeepsRecent C pulls prev (reconcileRoster C incoming prev pulls)) ↔
      NoneLost C pulls incoming prev ∧ NoneDoubled C pulls incoming prev := by
  rw [validateCandidateKeys_ok_iff] at hinc hprev ⊢
  constructor
  · rintro ⟨hval, hkps⟩
    exact ⟨noneLost_of_kept hinc hprev hkps, noneDoubled_of_valid hinc hprev hval⟩
  · rintro ⟨hlost, hdoubled⟩
    exact ⟨valid_reconcileRoster hinc hprev hdoubled,
      keepsRecent_reconcileRoster hinc hprev hlost⟩

/-! ## Two devices that swap keys -/

def peer (deviceId : String) (b : Byte) : CandidatePeer Unit :=
  ⟨deviceId.toList, false, some (encodeHex (List.replicate 33 b)).toList, [], none, none, false, true, ()⟩

/-- The feed has the key of `mac` under the name of `phone`; both pulled of late. The key is
present when `mac` is looked at, and goes when `phone` takes its place back. -/
theorem swapped_key_lost :
    (∃ keys, validateCandidateKeys plainCrypto [peer "phone" 1] = .ok keys) ∧
      (∃ keys, validateCandidateKeys plainCrypto [peer "mac" 1, peer "phone" 2] = .ok keys) ∧
      reconcileRoster plainCrypto [peer "phone" 1] [peer "mac" 1, peer "phone" 2] {fill 32 1, fill 32 2} =
        [peer "phone" 2] ∧
      ¬ KeepsRecent plainCrypto {fill 32 1, fill 32 2} [peer "mac" 1, peer "phone" 2] [peer "phone" 2] := by
  refine ⟨⟨[(fill 32 1, fill 33 1)], by decide +kernel⟩,
    ⟨[(fill 32 1, fill 33 1), (fill 32 2, fill 33 2)], by decide +kernel⟩, by decide +kernel, fun hkps => ?_⟩
  obtain ⟨c, hc, hhas⟩ := hkps (peer "mac" 1) List.mem_cons_self rfl _ rfl (fill 32 1) (by decide +kernel)
    (by decide +kernel)
  rw [List.mem_singleton.1 hc] at hhas
  exact absurd hhas (by decide +kernel)

/-- With `phone` met first, its place is taken back before `mac` is looked at, whose key is then
put back as well. -/
theorem lost_peer_put_back :
    (∃ keys, validateCandidateKeys plainCrypto
        (reconcileRoster plainCrypto [peer "phone" 1] [peer "phone" 2, peer "mac" 1] {fill 32 1, fill 32 2}) =
          .ok keys) ∧
      KeepsRecent plainCrypto {fill 32 1, fill 32 2} [peer "phone" 2, peer "mac" 1]
        (reconcileRoster plainCrypto [peer "phone" 1] [peer "phone" 2, peer "mac" 1] {fill 32 1, fill 32 2}) := by
  refine (reconcile_keeps_recent_iff ⟨[(fill 32 1, fill 33 1)], by decide +kernel⟩
    ⟨[(fill 32 2, fill 33 2), (fill 32 1, fill 33 1)], by decide +kernel⟩ _).2 ⟨?_, ?_⟩
  · intro _ last _ k hord _ i hi hdev
    cases hord.eq_of_length rfl
    rw [mem_singleton.1 hi] at hdev
    exact absurd hdev (by decide +kernel)
  · have hheld : ∀ k ∈ [peer "phone" 2, peer "mac" 1], ∀ i ∈ [peer "phone" 1],
        i.meshId plainCrypto = k.meshId plainCrypto → i.holds k = true := by decide +kernel
    intro k hk _ habs i hi hsame
    exact absurd (habs i hi) (by rw [hheld k hk i hi hsame]; exact Bool.noConfusion)

end ProxyNode.Roster
