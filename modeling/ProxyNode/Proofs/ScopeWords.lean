import ProxyNode.Sanity.Scopes

/-! The readers of a scope agree on its words: the normalizer, the families it opens, the test
for purposes alone and the expiry of its token. -/

namespace ProxyNode.OAuth

open Text List

theorem scopeFamilies_eq (scope : Text) :
    scopeFamilies (some scope) = families.filter ((askedWords scope).contains ·) := by
  unfold scopeFamilies askedWords
  by_cases hblk : trim scope = []
  · rw [Option.map_some, Option.filter_some, if_neg (by simpa using hblk), if_pos hblk]
  · rw [Option.map_some, Option.filter_some, if_pos (by simpa using hblk), if_neg hblk]
    dsimp only
    rw [splitWhitespace_trim]

theorem mem_scopeFamilies {scope family : Text} :
    family ∈ scopeFamilies (some scope) ↔ family ∈ askedWords scope ∧ isFamily family = true := by
  rw [scopeFamilies_eq, mem_filter, and_comm, contains_iff_mem, isFamily, contains_iff_mem]

/-! ## The words of a normalized scope -/

variable {s n : Text}

theorem askedWords_normalized (h : normalizeScope (some s) = .ok n) :
    askedWords n = sortedFamilies (askedWords s) ++ sortedPurposes (askedWords s) := by
  obtain ⟨hkn, rfl⟩ := normalizeScope_eq_ok h
  have hwds := (scopeParts_sorted _ askedWords_solid hkn).words
  rw [askedWords, if_neg, hwds]
  rw [← splitWhitespace_eq_nil_iff, hwds]
  -- a scope asks for a word, and it is sorted to one side or the other
  obtain ⟨w, hw⟩ := exists_mem_of_ne_nil (askedWords s) (askedWords_ne_nil s)
  refine ne_nil_of_mem (a := w) (mem_append.2 ?_)
  cases hfam : isFamily w with
  | true => exact .inl (mem_sortedFamilies.2 ⟨hw, hfam⟩)
  | false => exact .inr (mem_sortedPurposes.2 ⟨hw, hfam⟩)

theorem mem_askedWords_normalized (h : normalizeScope (some s) = .ok n) {w : Text} :
    w ∈ askedWords n ↔ w ∈ askedWords s := by
  rw [askedWords_normalized h, mem_append, mem_sortedFamilies, mem_sortedPurposes]
  cases isFamily w <;> simp

theorem nodup_sortedFamilies (words : List Text) : (sortedFamilies words).Nodup :=
  (orderBy_perm _ _).nodup_iff.2 (nodup_foldl_addOnce _ nodup_nil)

theorem sortedFamilies_append {words purposes : List Text} (h : ∀ w ∈ purposes, isFamily w = false) :
    sortedFamilies (sortedFamilies words ++ purposes) = sortedFamilies words := by
  have hfil : (sortedFamilies words ++ purposes).filter isFamily = sortedFamilies words := by
    rw [filter_append, filter_eq_self.2, filter_eq_nil_iff.2, append_nil]
    · exact fun w hw => by simp [h w hw]
    · exact fun w hw => (mem_sortedFamilies.1 hw).2
  rw [sortedFamilies, hfil, foldl_addOnce_of_nodup (nodup_sortedFamilies words), nil_append]
  exact orderBy_of_pairwise _ (orderBy_pairwise _ _)

theorem normalizeScope_idem (h : normalizeScope (some s) = .ok n) :
    normalizeScope (some n) = .ok n := by
  obtain ⟨hkn, htext⟩ := normalizeScope_eq_ok h
  have hfams : ∀ w ∈ sortedFamilies (askedWords s), isFamily w = true :=
    fun _ hw => (mem_sortedFamilies.1 hw).2
  have hpurs : ∀ w ∈ sortedPurposes (askedWords s), isFamily w = false :=
    fun _ hw => (mem_sortedPurposes.1 hw).2
  have hnd : (sortedPurposes (askedWords s)).Nodup := nodup_foldl_addOnce _ nodup_nil
  have hlast := @sortedPurposes_between _ _ [] hfams hpurs hnd nofun
  rw [append_nil] at hlast
  rw [normalizeScope_of_known fun w hw => hkn w ((mem_askedWords_normalized h).1 hw), askedWords_normalized h,
    sortedFamilies_append hpurs, hlast, htext]

/-- A normalized scope is not blank and has each word once. -/
theorem words_normalized (h : normalizeScope (some s) = .ok n) :
    splitWhitespace n = askedWords n ∧ (splitWhitespace n).Nodup := by
  have hwds : splitWhitespace n = askedWords n := by
    obtain ⟨hkn, rfl⟩ := normalizeScope_eq_ok h
    rw [askedWords_normalized h]
    exact (scopeParts_sorted _ askedWords_solid hkn).words
  refine ⟨hwds, ?_⟩
  rw [hwds, askedWords_normalized h, nodup_append]
  refine ⟨nodup_sortedFamilies _, nodup_foldl_addOnce _ nodup_nil, fun a ha b hb heq => ?_⟩
  have hfam := (mem_sortedFamilies.1 ha).2
  rw [heq, (mem_sortedPurposes.1 hb).2] at hfam
  cases hfam

/-! ## Order, repetition and expiry -/

theorem mem_askedWords_congr {s' : Text} (h : ∀ w, w ∈ splitWhitespace s' ↔ w ∈ splitWhitespace s) (w : Text) :
    w ∈ askedWords s' ↔ w ∈ askedWords s := by
  have hblk : trim s' = [] ↔ trim s = [] := by
    rw [← splitWhitespace_eq_nil_iff, ← splitWhitespace_eq_nil_iff, eq_nil_iff_forall_not_mem,
      eq_nil_iff_forall_not_mem]
    exact forall_congr' fun w => not_congr (h w)
  unfold askedWords
  by_cases hs : trim s = []
  · rw [if_pos hs, if_pos (hblk.2 hs)]
  · rw [if_neg hs, if_neg (hblk.not.2 hs)]
    exact h w

theorem normalizeScope_congr {s' : Text} (h : normalizeScope (some s) = .ok n)
    (hsame : ∀ w, w ∈ askedWords s' ↔ w ∈ askedWords s) :
    ∃ n', normalizeScope (some s') = .ok n' ∧ scopeFamilies (some n') = scopeFamilies (some n) ∧
      ((splitWhitespace n').filter isPurpose).Perm ((splitWhitespace n).filter isPurpose) := by
  have hnorm := normalizeScope_of_known fun w hw => (normalizeScope_eq_ok h).1 w ((hsame w).1 hw)
  obtain ⟨n', hn'⟩ : ∃ n', normalizeScope (some s') = .ok n' := ⟨_, hnorm⟩
  have hwds : ∀ w, w ∈ askedWords n' ↔ w ∈ askedWords n := fun w => by
    rw [mem_askedWords_normalized hn', hsame, mem_askedWords_normalized h]
  obtain ⟨heq, hnd⟩ := words_normalized h
  obtain ⟨heq', hnd'⟩ := words_normalized hn'
  refine ⟨n', hn', ?_, ?_⟩
  · rw [scopeFamilies_eq, scopeFamilies_eq]
    exact filter_congr fun w _ => by simp only [contains_eq_mem, hwds]
  · rw [perm_ext_iff_of_nodup (hnd'.filter _) (hnd.filter _)]
    intro w
    rw [mem_filter, mem_filter, heq, heq', hwds]

/-- A normalized scope names purposes alone exactly if it opens no family. -/
theorem scopeIsPurposeOnly_iff (h : normalizeScope (some s) = .ok n) :
    scopeIsPurposeOnly n = true ↔ scopeFamilies (some n) = [] := by
  obtain ⟨hwds, -⟩ := words_normalized h
  have hkn := (normalizeScope_eq_ok (normalizeScope_idem h)).1
  rw [scopeIsPurposeOnly, decide_eq_true_eq, all_eq_true, hwds, eq_nil_iff_forall_not_mem]
  simp only [Bool.and_eq_true, Bool.not_eq_true', mem_scopeFamilies, not_and, Bool.not_eq_true]
  refine ⟨fun ⟨_, honly⟩ w hw => (honly w hw).1, fun hnone => ⟨askedWords_ne_nil n, fun w hw => ?_⟩⟩
  exact ⟨hnone w hw, (hkn w hw).resolve_left (by simp [hnone w hw])⟩

theorem expiresAtFor_eq_noExpiry {scope : Text} {now : ℕ} (hnow : now < 2 ^ 62) :
    expiresAtFor scope now = noExpiry ↔ scopeIsPurposeOnly scope = true := by
  unfold expiresAtFor
  split_ifs with hpur
  · exact ⟨fun _ => hpur, fun _ => rfl⟩
  · refine ⟨fun h => ?_, fun h => absurd h hpur⟩
    simp only [noExpiry, tokenTtlSecs] at h
    omega

/-- Normalizing a scope neither widens nor loses what it asks for. -/
theorem normalized_scope_agrees {s n : Text} (h : normalizeScope (some s) = .ok n) :
    normalizeScope (some n) = .ok n ∧
      (∀ family, family ∈ scopeFamilies (some n) ↔
        if trim s = [] then family = defaultScope else family ∈ families ∧ family ∈ splitWhitespace s) ∧
      (∀ w, isPurpose w = true → (w ∈ splitWhitespace n ↔ w ∈ splitWhitespace s)) ∧
      (∀ s', (∀ w, w ∈ splitWhitespace s' ↔ w ∈ splitWhitespace s) →
        ∃ n', normalizeScope (some s') = .ok n' ∧ scopeFamilies (some n') = scopeFamilies (some n) ∧
          ((splitWhitespace n').filter isPurpose).Perm ((splitWhitespace n).filter isPurpose)) ∧
      ∀ now < 2 ^ 62, (expiresAtFor n now = noExpiry ↔ scopeFamilies (some n) = []) := by
  refine ⟨normalizeScope_idem h, fun family => ?_, fun w hw => ?_, fun s' hsame => ?_, fun now hnow => ?_⟩
  · rw [mem_scopeFamilies, mem_askedWords_normalized h, askedWords]
    split_ifs with hblk
    · rw [List.mem_singleton]
      refine ⟨And.left, fun heq => ⟨heq, ?_⟩⟩
      rw [heq]
      decide
    · rw [isFamily, List.contains_iff_mem, and_comm]
  · rw [(words_normalized h).1, mem_askedWords_normalized h, askedWords]
    split_ifs with hblk
    · rw [splitWhitespace_eq_nil_iff.2 hblk]
      refine iff_of_false (fun hdefault => ?_) List.not_mem_nil
      rw [List.mem_singleton.1 hdefault] at hw
      exact absurd hw (by decide)
    · rfl
  · exact normalizeScope_congr h (mem_askedWords_congr hsame)
  · exact (expiresAtFor_eq_noExpiry hnow).trans (scopeIsPurposeOnly_iff h)

theorem mail_and_party_agrees :
    normalizeScope (some " party:1 mail  threads mail".toList) = .ok "threads mail party:1".toList ∧
      normalizeScope (some "threads mail party:1".toList) = .ok "threads mail party:1".toList ∧
      expiresAtFor "threads mail party:1".toList 0 ≠ noExpiry := by
  have hn : normalizeScope (some " party:1 mail  threads mail".toList) = .ok "threads mail party:1".toList := by
    decide
  obtain ⟨hidem, -, -, -, hexpiry⟩ := normalized_scope_agrees hn
  exact ⟨hn, hidem, fun h => absurd ((hexpiry 0 (by decide)).1 h) (by decide)⟩

end ProxyNode.OAuth
