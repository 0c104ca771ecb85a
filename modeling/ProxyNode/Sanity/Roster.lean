import Mathlib.Data.List.Nodup
import Mathlib.Data.List.Pairwise
import ProxyNode.Spec.Roster

/-! What the check of a roster's keys accepts, and keys that differ in case. -/

namespace ProxyNode.Roster

open Text Wire CandidatePeer List

/-! ## Keys in either case -/

theorem hexVal_toLower (c : Char) : hexVal c.toLower = hexVal c := by
  rcases toLower_cases c with hsame | ⟨hrng, hval⟩
  · rw [hsame]
  · have hnat : ∀ d : Char, hexVal d = if 48 ≤ d.toNat ∧ d.toNat ≤ 57 then some (d.toNat - 48)
        else if 97 ≤ d.toNat ∧ d.toNat ≤ 102 then some (d.toNat - 97 + 10)
        else if 65 ≤ d.toNat ∧ d.toNat ≤ 70 then some (d.toNat - 65 + 10) else none := fun _ => rfl
    rw [hnat, hnat, hval]
    split_ifs <;> first | omega | rfl

theorem decodePairs_lower (t : Text) : decodePairs (toAsciiLowercase t) = decodePairs t := by
  unfold toAsciiLowercase
  induction t using decodePairs.induct with
  | case1 => rfl
  | case2 => rfl
  | case3 high low rest ih =>
    simp only [map_cons, decodePairs, hexVal_toLower, ih]

theorem decodeSec1_congr {s t : Text} (h : eqIgnoreAsciiCase s t = true) : decodeSec1 s = decodeSec1 t := by
  have hpairs : decodePairs s = decodePairs t := by
    rw [← decodePairs_lower s, ← decodePairs_lower t, of_decide_eq_true h]
  unfold decodeSec1
  rw [hpairs]

variable {D : Type} {C : Crypto}

theorem candidateDeviceId_congr {s t : Text} (h : eqIgnoreAsciiCase s t = true) :
    candidateDeviceId C s = candidateDeviceId C t := by
  rw [candidateDeviceId, decodeSec1_congr h, candidateDeviceId]

theorem meshId_of_hasKey {candidate : CandidatePeer D} {key : Text} (h : candidate.hasKey key = true) :
    candidate.meshId C = candidateDeviceId C key := by
  unfold hasKey at h
  unfold meshId
  cases hkey : candidate.meshPublicKeyHex with
  | none =>
    rw [hkey] at h
    cases h
  | some own =>
    rw [hkey] at h
    exact candidateDeviceId_congr h

/-! ## The check -/

structure Valid (C : Crypto) (candidates : List (CandidatePeer D)) : Prop where
  named : ∀ c ∈ candidates, trim c.deviceId ≠ []
  deviceIds : (candidates.map CandidatePeer.deviceId).Nodup
  keys : ∀ c ∈ candidates, c.meshPublicKeyHex.isSome = true → (c.meshId C).isSome = true
  meshIds : (candidates.filterMap (CandidatePeer.meshId C)).Nodup

variable {cs : List (CandidatePeer D)}

theorem valid_cons {c : CandidatePeer D} :
    Valid C (c :: cs) ↔ trim c.deviceId ≠ [] ∧ c.deviceId ∉ cs.map deviceId ∧
      (c.meshPublicKeyHex.isSome = true → (c.meshId C).isSome = true) ∧
      (∀ m, c.meshId C = some m → m ∉ cs.filterMap (meshId C)) ∧ Valid C cs := by
  constructor
  · intro h
    obtain ⟨hname, hnam⟩ := forall_mem_cons.1 h.named
    obtain ⟨hnot, hids⟩ := nodup_cons.1 h.deviceIds
    obtain ⟨hkey, hkeys⟩ := forall_mem_cons.1 h.keys
    have hmesh := h.meshIds
    cases hm : c.meshId C with
    | none =>
      rw [filterMap_cons_none hm] at hmesh
      exact ⟨hname, hnot, hm ▸ hkey, nofun, hnam, hids, hkeys, hmesh⟩
    | some m =>
      rw [filterMap_cons_some hm, nodup_cons] at hmesh
      refine ⟨hname, hnot, fun _ => rfl, fun m' hm' => ?_, hnam, hids, hkeys, hmesh.2⟩
      exact Option.some.inj hm' ▸ hmesh.1
  · rintro ⟨hname, hnot, hkey, hfrs, h⟩
    refine ⟨forall_mem_cons.2 ⟨hname, h.named⟩, nodup_cons.2 ⟨hnot, h.deviceIds⟩,
      forall_mem_cons.2 ⟨hkey, h.keys⟩, ?_⟩
    cases hm : c.meshId C with
    | none =>
      rw [filterMap_cons_none hm]
      exact h.meshIds
    | some m =>
      rw [filterMap_cons_some hm]
      exact nodup_cons.2 ⟨hfrs m hm, h.meshIds⟩

theorem validateFrom_cons_ok {logicalIds : List Text} {meshIds : List DeviceId} {c : CandidatePeer D} :
    (∃ keys, validateFrom C logicalIds meshIds (c :: cs) = .ok keys) ↔
      trim c.deviceId ≠ [] ∧ c.deviceId ∉ logicalIds ∧
        (c.meshPublicKeyHex.isSome = true → (c.meshId C).isSome = true) ∧
        (∀ m, c.meshId C = some m → m ∉ meshIds) ∧
        ∃ keys, validateFrom C (c.deviceId :: logicalIds) ((c.meshId C).toList ++ meshIds) cs = .ok keys := by
  rw [validateFrom]
  by_cases hname : trim c.deviceId = [] ∨ c.deviceId ∈ logicalIds
  · rw [if_pos hname]
    exact ⟨nofun, fun h => (hname.elim h.1 h.2.1).elim⟩
  rw [if_neg hname]
  obtain ⟨hblk, hnew⟩ := not_or.1 hname
  refine Iff.trans ?_ (and_iff_right hblk).symm |>.trans (and_congr_right fun _ => (and_iff_right hnew).symm)
  unfold meshId
  cases hkey : c.meshPublicKeyHex with
  | none => exact ⟨fun h => ⟨nofun, nofun, h⟩, fun h => h.2.2⟩
  | some keyHex =>
    rw [Option.bind_some, candidateDeviceId]
    dsimp only
    cases decodeSec1 keyHex with
    | none => exact ⟨nofun, fun h => nomatch h.1 rfl⟩
    | some sec1 =>
      rw [Option.bind_some]
      dsimp only
      cases deviceIdFromSec1 C sec1 with
      | error why => exact ⟨nofun, fun h => nomatch h.1 rfl⟩
      | ok meshId =>
        dsimp only [Except.toOption]
        by_cases hmesh : meshId ∈ meshIds
        · rw [if_pos hmesh]
          exact ⟨nofun, fun h => absurd hmesh (h.2.1 meshId rfl)⟩
        · rw [if_neg hmesh]
          constructor
          · rintro ⟨keys, hok⟩
            refine ⟨fun _ => rfl, fun m hm => Option.some.inj hm ▸ hmesh, ?_⟩
            cases hrest : validateFrom C (c.deviceId :: logicalIds) (meshId :: meshIds) cs with
            | error why =>
              rw [hrest] at hok
              cases hok
            | ok rest => exact ⟨rest, hrest⟩
          · rintro ⟨-, -, keys, hok⟩
            have hok : validateFrom C (c.deviceId :: logicalIds) (meshId :: meshIds) cs = .ok keys := hok
            exact ⟨_, by rw [hok]; rfl⟩

/-- The loop passes what is valid in itself and against the ids met before. -/
theorem validateFrom_ok_iff {logicalIds : List Text} {meshIds : List DeviceId} :
    (∃ keys, validateFrom C logicalIds meshIds cs = .ok keys) ↔
      Valid C cs ∧ (∀ c ∈ cs, c.deviceId ∉ logicalIds) ∧
        ∀ m ∈ cs.filterMap (meshId C), m ∉ meshIds := by
  induction cs generalizing logicalIds meshIds with
  | nil => exact iff_of_true ⟨[], rfl⟩ ⟨⟨by simp, nodup_nil, by simp, nodup_nil⟩, by simp, by simp⟩
  | cons c cs ih =>
    have hids : (∀ d ∈ cs, d.deviceId ∉ c.deviceId :: logicalIds) ↔
        c.deviceId ∉ cs.map deviceId ∧ ∀ d ∈ cs, d.deviceId ∉ logicalIds := by
      simp only [mem_cons, not_or, mem_map, not_exists, not_and]
      exact forall₂_and
    have hmeshIds : (∀ m ∈ cs.filterMap (meshId C), m ∉ (c.meshId C).toList ++ meshIds) ↔
        (∀ m, c.meshId C = some m → m ∉ cs.filterMap (meshId C)) ∧
          ∀ m ∈ cs.filterMap (meshId C), m ∉ meshIds := by
      simp only [mem_append, not_or, Option.mem_toList]
      rw [forall₂_and]
      exact and_congr_left' ⟨fun h m hm hmem => h m hmem hm, fun h m hmem hm => h m hm hmem⟩
    have hfst : (∀ m ∈ (c :: cs).filterMap (meshId C), m ∉ meshIds) ↔
        (∀ m, c.meshId C = some m → m ∉ meshIds) ∧ ∀ m ∈ cs.filterMap (meshId C), m ∉ meshIds := by
      cases hm : c.meshId C with
      | none =>
        rw [filterMap_cons_none hm]
        simp
      | some m =>
        rw [filterMap_cons_some hm, forall_mem_cons]
        exact and_congr_left' ⟨fun h m' heq => Option.some.inj heq ▸ h, fun h => h m rfl⟩
    rw [validateFrom_cons_ok, ih, valid_cons, forall_mem_cons, hids, hmeshIds, hfst]
    constructor
    · rintro ⟨hname, hlogical, hkey, hmesh, hval, ⟨hid, hids⟩, hown, hrest⟩
      exact ⟨⟨hname, hid, hkey, hown, hval⟩, ⟨hlogical, hids⟩, hmesh, hrest⟩
    · rintro ⟨⟨hname, hid, hkey, hown, hval⟩, ⟨hlogical, hids⟩, hmesh, hrest⟩
      exact ⟨hname, hlogical, hkey, hmesh, hval, ⟨hid, hids⟩, hown, hrest⟩

theorem validateCandidateKeys_ok_iff :
    (∃ keys, validateCandidateKeys C cs = .ok keys) ↔ Valid C cs := by
  rw [validateCandidateKeys, validateFrom_ok_iff]
  exact and_iff_left ⟨fun _ _ => not_mem_nil, fun _ _ => not_mem_nil⟩

/-! ## Candidates told apart -/

theorem eq_of_meshId (h : (cs.filterMap (meshId C)).Nodup) {a b : CandidatePeer D} (ha : a ∈ cs)
    (hb : b ∈ cs) {m : DeviceId} (hma : a.meshId C = some m) (hmb : b.meshId C = some m) : a = b := by
  by_contra hne
  have hsymm : Std.Symm fun a a' : CandidatePeer D =>
      ∀ m, a.meshId C = some m → ∀ m', a'.meshId C = some m' → m ≠ m' :=
    ⟨fun _ _ h m hm m' hm' heq => h m' hm' m hm heq.symm⟩
  exact (pairwise_filterMap.1 h).forall ha hb hne m hma m hmb rfl

theorem nodup_meshIds (hnd : cs.Nodup)
    (h : ∀ a ∈ cs, ∀ b ∈ cs, ∀ m, a.meshId C = some m → b.meshId C = some m → a = b) :
    (cs.filterMap (meshId C)).Nodup := by
  refine pairwise_filterMap.2 (hnd.imp_of_mem ?_)
  rintro a b ha hb hne m hma m' hmb rfl
  exact hne (h a ha b hb m hma hmb)

end ProxyNode.Roster
