import ProxyNode.Spec.OAuth

/-! What a normalized scope is: families, then purposes, each once. -/

namespace ProxyNode.OAuth

open Text List

/-! ## Words taken once -/

def addOnce (words : List Text) (word : Text) : List Text := if word ∈ words then words else words ++ [word]

variable {w : Text}

theorem mem_addOnce {words : List Text} {word : Text} : w ∈ addOnce words word ↔ w ∈ words ∨ w = word := by
  unfold addOnce
  split_ifs with h
  · constructor
    · exact .inl
    · rintro (hw | rfl)
      · exact hw
      · exact h
  · rw [mem_append, mem_singleton]

theorem mem_foldl_addOnce {words new : List Text} :
    w ∈ new.foldl addOnce words ↔ w ∈ words ∨ w ∈ new := by
  induction new generalizing words with
  | nil => simp
  | cons word new ih => rw [foldl_cons, ih, mem_addOnce, mem_cons, or_assoc]

theorem nodup_foldl_addOnce {words : List Text} (new : List Text) (h : words.Nodup) :
    (new.foldl addOnce words).Nodup := by
  induction new generalizing words with
  | nil => exact h
  | cons word new ih =>
    refine ih ?_
    unfold addOnce
    split_ifs with hmem
    · exact h
    · exact nodup_append.2 ⟨h, nodup_singleton _, fun a ha b hb => by
        rw [mem_singleton.1 hb]
        rintro rfl
        exact hmem ha⟩

theorem foldl_addOnce_of_nodup {words new : List Text} (h : (words ++ new).Nodup) :
    new.foldl addOnce words = words ++ new := by
  induction new generalizing words with
  | nil => rw [foldl_nil, append_nil]
  | cons word new ih =>
    have hnot : word ∉ words := fun hmem =>
      (nodup_append.1 h).2.2 word hmem word mem_cons_self rfl
    rw [← singleton_append, ← append_assoc] at h
    rw [foldl_cons, addOnce, if_neg hnot, ih h, append_assoc, singleton_append]

/-! ## Sorted words -/

def isFamily (word : Text) : Bool := families.contains word

theorem sortWords_of_known {words : List Text} (h : ∀ w ∈ words, isFamily w = true ∨ isPurpose w = true)
    (known purposes : List Text) : sortWords words known purposes =
      .ok ((words.filter isFamily).foldl addOnce known, (words.filter (!isFamily ·)).foldl addOnce purposes) := by
  induction words generalizing known purposes with
  | nil => rfl
  | cons w words ih =>
    have hrest := ih fun v hv => h v (mem_cons_of_mem _ hv)
    rw [sortWords]
    by_cases hfam : w ∈ families
    · have hw : isFamily w = true := by simpa [isFamily] using hfam
      rw [if_pos hfam, hrest, filter_cons_of_pos hw, filter_cons_of_neg (by simp [hw])]
      rfl
    · have hw : isFamily w = false := by simpa [isFamily] using hfam
      have hpur : isPurpose w = true := by
        rcases h w mem_cons_self with hf | hp
        · rw [hw] at hf
          cases hf
        · exact hp
      rw [if_neg hfam, if_pos hpur, hrest, filter_cons_of_neg (by simp [hw]),
        filter_cons_of_pos (by simp [hw])]
      rfl

variable {known purposes : List Text}

theorem known_of_sortWords {words : List Text} {sorted : List Text × List Text}
    (h : sortWords words known purposes = .ok sorted) : ∀ w ∈ words, isFamily w = true ∨ isPurpose w = true := by
  induction words generalizing known purposes with
  | nil => exact nofun
  | cons w words ih =>
    rw [sortWords] at h
    by_cases hfam : w ∈ families
    · rw [if_pos hfam] at h
      intro v hv
      rcases mem_cons.1 hv with rfl | hv
      · exact .inl (by simpa [isFamily] using hfam)
      · exact ih h v hv
    · rw [if_neg hfam] at h
      by_cases hpur : isPurpose w = true
      · rw [if_pos hpur] at h
        intro v hv
        rcases mem_cons.1 hv with rfl | hv
        · exact .inr hpur
        · exact ih h v hv
      · rw [if_neg hpur] at h
        cases h

theorem families_words : ∀ w ∈ families, Solid w ∧ w ≠ [] := by
  have hall : families.all (fun w => w.all (fun c => isWhitespace c == false) && !w.isEmpty) = true := by
    decide +kernel
  intro w hw
  have hw := all_eq_true.1 hall w hw
  rw [Bool.and_eq_true, all_eq_true] at hw
  exact ⟨fun c hc => by simpa using hw.1 c hc, by simpa using hw.2⟩

/-! ## Normalized scopes -/

structure ScopeParts (scope : Text) (known purposes : List Text) : Prop where
  text : scope = [' '].intercalate (known ++ purposes)
  areFamilies : ∀ w ∈ known, isFamily w = true
  arePurposes : ∀ w ∈ purposes, isFamily w = false ∧ isPurpose w = true
  solid : ∀ w ∈ purposes, Solid w ∧ w ≠ []
  nodup : purposes.Nodup

variable {scope : Text}

theorem ScopeParts.solid_all (h : ScopeParts scope known purposes) :
    ∀ w ∈ known ++ purposes, Solid w ∧ w ≠ [] := by
  intro w hw
  rcases mem_append.1 hw with hw | hw
  · exact families_words w (by simpa [isFamily] using h.areFamilies w hw)
  · exact h.solid w hw

theorem ScopeParts.words (h : ScopeParts scope known purposes) :
    scope.splitWhitespace = known ++ purposes := by
  rw [h.text]
  exact splitWhitespace_intercalate h.solid_all

def sortedFamilies (words : List Text) : List Text :=
  ((words.filter isFamily).foldl addOnce []).orderBy families.idxOf

def sortedPurposes (words : List Text) : List Text := (words.filter (!isFamily ·)).foldl addOnce []

theorem mem_sortedFamilies {words : List Text} :
    w ∈ sortedFamilies words ↔ w ∈ words ∧ isFamily w = true := by
  rw [sortedFamilies, mem_orderBy, mem_foldl_addOnce, mem_filter]
  simp

theorem mem_sortedPurposes {words : List Text} :
    w ∈ sortedPurposes words ↔ w ∈ words ∧ isFamily w = false := by
  rw [sortedPurposes, mem_foldl_addOnce, mem_filter]
  simp

def askedWords (requested : Text) : List Text :=
  if trim requested = [] then [defaultScope] else requested.splitWhitespace

theorem askedWords_ne_nil (requested : Text) : askedWords requested ≠ [] := by
  unfold askedWords
  split_ifs with hblk
  · exact cons_ne_nil _ _
  · exact fun hnone => hblk (splitWhitespace_eq_nil_iff.1 hnone)

variable {requested : Text}

theorem askedWords_solid : ∀ w ∈ askedWords requested, Solid w ∧ w ≠ [] := by
  unfold askedWords
  split_ifs
  · rintro w hw
    rw [mem_singleton.1 hw]
    exact families_words _ (by decide)
  · exact fun w hw => ⟨solid_of_mem_splitWhitespace hw, ne_nil_of_mem_splitWhitespace hw⟩

theorem normalizeScope_of_known (h : ∀ w ∈ askedWords requested, isFamily w = true ∨ isPurpose w = true) :
    normalizeScope (some requested) = .ok ([' '].intercalate
      (sortedFamilies (askedWords requested) ++ sortedPurposes (askedWords requested))) := by
  by_cases hblk : trim requested = []
  · simp only [normalizeScope, Option.map_some, Option.getD_some, askedWords, if_pos hblk]
    rfl
  · rw [askedWords, if_neg hblk] at h ⊢
    simp only [normalizeScope, Option.map_some, Option.getD_some, if_neg hblk, splitWhitespace_trim,
      sortWords_of_known h]
    rfl

theorem normalizeScope_eq_ok (h : normalizeScope (some requested) = .ok scope) :
    (∀ w ∈ askedWords requested, isFamily w = true ∨ isPurpose w = true) ∧
      scope = [' '].intercalate
        (sortedFamilies (askedWords requested) ++ sortedPurposes (askedWords requested)) := by
  have hkn : ∀ w ∈ askedWords requested, isFamily w = true ∨ isPurpose w = true := by
    by_cases hblk : trim requested = []
    · rw [askedWords, if_pos hblk]
      decide
    · rw [askedWords, if_neg hblk, ← splitWhitespace_trim]
      simp only [normalizeScope, Option.map_some, Option.getD_some, if_neg hblk] at h
      cases hsort : sortWords (trim requested).splitWhitespace [] [] with
      | error why => simp [hsort] at h
      | ok sorted => exact known_of_sortWords hsort
  rw [normalizeScope_of_known hkn] at h
  exact ⟨hkn, (Except.ok.inj h).symm⟩

theorem scopeParts_sorted (words : List Text) (hwds : ∀ w ∈ words, Solid w ∧ w ≠ [])
    (h : ∀ w ∈ words, isFamily w = true ∨ isPurpose w = true) :
    ScopeParts ([' '].intercalate (sortedFamilies words ++ sortedPurposes words)) (sortedFamilies words)
      (sortedPurposes words) where
  text := rfl
  areFamilies := fun _ hw => (mem_sortedFamilies.1 hw).2
  arePurposes := fun w hw => by
    obtain ⟨hmem, hfam⟩ := mem_sortedPurposes.1 hw
    exact ⟨hfam, (h w hmem).resolve_left (by simp [hfam])⟩
  solid := fun w hw => hwds w (mem_sortedPurposes.1 hw).1
  nodup := nodup_foldl_addOnce _ nodup_nil

theorem normalizeScope_parts {requested : Option Text} (h : normalizeScope requested = .ok scope) :
    ∃ known purposes, ScopeParts scope known purposes := by
  have hsome : normalizeScope (some (requested.getD [])) = .ok scope := by
    cases requested <;> exact h
  obtain ⟨hkn, rfl⟩ := normalizeScope_eq_ok hsome
  exact ⟨_, _, scopeParts_sorted _ askedWords_solid hkn⟩

/-- Purposes between families are the purposes of a scope. -/
theorem sortedPurposes_between {more : List Text} (hkn : ∀ w ∈ known, isFamily w = true)
    (hpurs : ∀ w ∈ purposes, isFamily w = false) (hnd : purposes.Nodup)
    (hmore : ∀ w ∈ more, isFamily w = true) :
    sortedPurposes (known ++ purposes ++ more) = purposes := by
  have hfil : (known ++ purposes ++ more).filter (!isFamily ·) = purposes := by
    rw [filter_append, filter_append, filter_eq_nil_iff.2, filter_eq_self.2,
      filter_eq_nil_iff.2, nil_append, append_nil]
    · exact fun w hw => by simp [hmore w hw]
    · exact fun w hw => by simp [hpurs w hw]
    · exact fun w hw => by simp [hkn w hw]
  rw [sortedPurposes, hfil, foldl_addOnce_of_nodup (by simpa using hnd), nil_append]

/-- A family asked for behind a normalized scope joins its families; its purposes stay. -/
theorem normalizeScope_add_family {family : Text} (h : ScopeParts scope known purposes)
    (hfam : isFamily family = true) :
    ∃ scope' known', normalizeScope (some (scope ++ ' ' :: family)) = .ok scope' ∧
      ScopeParts scope' known' purposes ∧ ∀ w, w ∈ known' ↔ w ∈ known ∨ w = family := by
  have hword : splitWhitespace family = [family] := by
    obtain ⟨hsolid, hne⟩ := families_words family (by simpa [isFamily] using hfam)
    exact splitWhitespace_of_solid hsolid hne
  have hwds : askedWords (scope ++ ' ' :: family) = known ++ purposes ++ [family] := by
    have hspl : splitWhitespace (scope ++ ' ' :: family) = known ++ purposes ++ [family] := by
      rw [splitWhitespace_append_cons _ _ (by decide), h.words, hword]
    rw [askedWords, if_neg, hspl]
    rw [← splitWhitespace_eq_nil_iff, hspl]
    simp
  have hall : ∀ w ∈ askedWords (scope ++ ' ' :: family), isFamily w = true ∨ isPurpose w = true := by
    rw [hwds]
    intro w hw
    rcases mem_append.1 hw with hw | hw
    · rcases mem_append.1 hw with hw | hw
      · exact .inl (h.areFamilies w hw)
      · exact .inr (h.arePurposes w hw).2
    · rw [mem_singleton.1 hw]
      exact .inl hfam
  have hpurs : sortedPurposes (askedWords (scope ++ ' ' :: family)) = purposes := by
    rw [hwds]
    exact sortedPurposes_between h.areFamilies (fun w hw => (h.arePurposes w hw).1) h.nodup
      (by simpa using hfam)
  have hprt := scopeParts_sorted _ askedWords_solid hall
  rw [hpurs] at hprt
  refine ⟨_, _, normalizeScope_of_known hall, by rwa [hpurs], fun w => ?_⟩
  rw [mem_sortedFamilies, hwds]
  simp only [mem_append, mem_singleton]
  constructor
  · rintro ⟨(hw | hw) | hw, hf⟩
    · exact .inl hw
    · rw [(h.arePurposes w hw).1] at hf
      cases hf
    · exact .inr hw
  · rintro (hw | rfl)
    · exact ⟨.inl (.inl hw), h.areFamilies w hw⟩
    · exact ⟨.inr rfl, hfam⟩

end ProxyNode.OAuth
