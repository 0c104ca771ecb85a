import ProxyNode.Proofs.ScopeWords
import ProxyNode.Spec.McpTools

/-! The grant of a party's bearer. The tunnel reads the first word of the stored scope only, and
the normalizer keeps purposes in the order they were asked for, so what a bearer is granted
follows the first word that was asked for. -/

namespace ProxyNode.Mcp

open OAuth Text PartyScope List

/-! ## The first word -/

theorem head_foldl_addOnce {words : List Text} (h : words ≠ []) (new : List Text) :
    (new.foldl addOnce words).head? = words.head? := by
  induction new generalizing words with
  | nil => rfl
  | cons word new ih =>
    have hstep : addOnce words word ≠ [] ∧ (addOnce words word).head? = words.head? := by
      unfold addOnce
      split_ifs
      · exact ⟨h, rfl⟩
      · exact ⟨append_ne_nil_of_left_ne_nil h _, head?_append_of_ne_nil _ h⟩
    rw [foldl_cons, ih hstep.1, hstep.2]

theorem head_sortedPurposes {words : List Text} (h : ∀ w ∈ words, isFamily w = false) :
    (sortedPurposes words).head? = words.head? := by
  have hall : words.filter (!isFamily ·) = words := filter_eq_self.2 fun w hw => by simp [h w hw]
  rw [sortedPurposes, hall]
  cases words with
  | nil => rfl
  | cons word words =>
    have hfst : addOnce [] word = [word] := rfl
    rw [foldl_cons, hfst, head_foldl_addOnce (cons_ne_nil _ _), head?_cons, head?_cons]

/-- A party is read off the first word of a scope. -/
theorem parse_congr {s t : Text} (h : s.splitWhitespace.head? = t.splitWhitespace.head?) :
    parse s = parse t := by
  unfold parse
  rw [h]

theorem parse_of_head {s word : Text} (h : s.splitWhitespace.head? = some word) :
    parse s = parse word := by
  have hmem : word ∈ s.splitWhitespace := mem_of_head? h
  refine parse_congr ?_
  rw [h, splitWhitespace_of_solid (solid_of_mem_splitWhitespace hmem) (ne_nil_of_mem_splitWhitespace hmem),
    head?_cons]

/-! ## Scopes of purposes alone -/

/-- A scope that was normalized and opens no family. -/
structure PurposesOnly (requested scope : Text) : Prop where
  normalized : normalizeScope (some requested) = .ok scope
  families : scopeFamilies (some scope) = []

namespace PurposesOnly

variable {requested scope : Text}

section Purposes

variable (h : PurposesOnly requested scope)
include h

theorem not_family : ∀ w ∈ askedWords requested, isFamily w = false := by
  intro w hw
  have hnone := eq_nil_iff_forall_not_mem.1 h.families w
  rw [mem_scopeFamilies, mem_askedWords_normalized h.normalized] at hnone
  simpa [hw] using hnone

theorem asked : askedWords requested = requested.splitWhitespace := by
  have hfam := h.not_family
  unfold askedWords at hfam ⊢
  split_ifs at hfam ⊢ with hblk
  · exact absurd (hfam defaultScope mem_cons_self) (by decide)
  · rfl

theorem mem_words {w : Text} :
    w ∈ scope.splitWhitespace ↔ w ∈ requested.splitWhitespace := by
  rw [(words_normalized h.normalized).1, mem_askedWords_normalized h.normalized, h.asked]

theorem words_ne_nil : requested.splitWhitespace ≠ [] := by
  rw [← h.asked]
  exact askedWords_ne_nil requested

theorem parse_eq : parse scope = parse requested := by
  have hfams : sortedFamilies (askedWords requested) = [] := by
    rw [eq_nil_iff_forall_not_mem]
    intro w hw
    obtain ⟨hmem, hfam⟩ := mem_sortedFamilies.1 hw
    rw [h.not_family w hmem] at hfam
    cases hfam
  refine parse_congr ?_
  rw [(words_normalized h.normalized).1, askedWords_normalized h.normalized, hfams, nil_append,
    head_sortedPurposes h.not_family, h.asked]

theorem tunnelGrant_eq :
    tunnelGrant (some (.oauth (some scope))) =
      if (parse requested).isSome then .nothing else .seat := by
  rw [tunnelGrant, h.parse_eq]

/-- Another order of the words is as good a scope. -/
theorem reordered (other : Text) (hperm : other.splitWhitespace.Perm requested.splitWhitespace) :
    ∃ scope', PurposesOnly other scope' := by
  have hsame := @mem_askedWords_congr requested other fun _ => hperm.mem_iff
  obtain ⟨scope', hok, hfams, -⟩ := normalizeScope_congr h.normalized hsame
  exact ⟨scope', hok, hfams.trans h.families⟩

theorem of_reordered {other scope' : Text} (hperm : other.splitWhitespace.Perm requested.splitWhitespace)
    (hok : normalizeScope (some other) = .ok scope') : PurposesOnly other scope' := by
  obtain ⟨again, hagain⟩ := h.reordered other hperm
  have heq : again = scope' := Except.ok.inj (hagain.normalized.symm.trans hok)
  exact heq ▸ hagain

/-- Any of the words can be asked for first. -/
theorem word_first {word : Text} (hword : word ∈ requested.splitWhitespace) :
    ∃ other scope', other.splitWhitespace.Perm requested.splitWhitespace ∧ PurposesOnly other scope' ∧
      parse other = parse word := by
  obtain ⟨words, hperm⟩ : ∃ words, (word :: words).Perm requested.splitWhitespace :=
    ⟨_, (perm_cons_erase hword).symm⟩
  have hsolid : ∀ w ∈ word :: words, Solid w ∧ w ≠ [] := fun w hw =>
    ⟨solid_of_mem_splitWhitespace (hperm.mem_iff.1 hw), ne_nil_of_mem_splitWhitespace (hperm.mem_iff.1 hw)⟩
  have hspl := splitWhitespace_intercalate hsolid
  obtain ⟨scope', hscope'⟩ := h.reordered ([' '].intercalate (word :: words)) (by rwa [hspl])
  refine ⟨_, scope', by rwa [hspl], hscope', parse_of_head ?_⟩
  rw [hspl, head?_cons]

end Purposes

end PurposesOnly

/-! ## The grant -/

variable {V : Type}

def emptySurface : McpToolSurface V where
  allTools := []
  handleToolCall := fun _ _ _ => .errorText []

theorem callerGrant_emptySurface (principal : Option TunnelPrincipal) :
    callerGrant (emptySurface (V := V)) principal none none = tunnelGrant principal := by
  cases hgrant : tunnelGrant principal <;> simp only [callerGrant, hgrant] <;> decide

/-- The grant of the bearer of a scope of purposes: nothing if the scope asks for a party first,
or if its participant is granted nothing. -/
theorem callerGrant_eq_nothing {requested scope : Text} (h : PurposesOnly requested scope)
    (surface : McpToolSurface V) (pid policy : Option Text) :
    callerGrant surface (some (.oauth (some scope))) pid policy = .nothing ↔
      (parse requested).isSome = true ∨
        ∃ id, pid = some id ∧ surface.participantGrant id = some .nothing := by
  unfold callerGrant
  rw [combinedGrant_eq_nothing, h.tunnelGrant_eq]
  refine or_congr ?_ ?_
  · split_ifs with hpty
    · exact ⟨fun _ => hpty, fun _ => rfl⟩
    · exact ⟨nofun, fun hsome => absurd hsome hpty⟩
  · cases pid with
    | none => simp
    | some id => cases hgrant : surface.participantGrant id <;> simp [hgrant]

/-- The party that asks for something else first is granted a seat, and the order of the words
tells nothing only where each of them is a party's. -/
theorem party_grant_iff_first_word {requested scope : Text}
    (hok : normalizeScope (some requested) = .ok scope) (hpty : (partyScopeOf (some scope)).isSome = true)
    (hfams : scopeFamilies (some scope) = []) :
    (∀ (surface : McpToolSurface V) (pid policy : Option Text),
      callerGrant surface (some (.oauth (some scope))) pid policy = .nothing ↔
        (PartyScope.parse requested).isSome = true ∨
          ∃ id, pid = some id ∧ surface.participantGrant id = some .nothing) ∧
    ((∀ other scope', other.splitWhitespace.Perm requested.splitWhitespace →
        normalizeScope (some other) = .ok scope' →
        ∀ (surface : McpToolSurface V) (pid policy : Option Text),
          callerGrant surface (some (.oauth (some scope'))) pid policy =
            callerGrant surface (some (.oauth (some scope))) pid policy) ↔
      ∀ word ∈ requested.splitWhitespace, (PartyScope.parse word).isSome = true) := by
  have h : PurposesOnly requested scope := ⟨hok, hfams⟩
  refine ⟨callerGrant_eq_nothing h, fun hsame word hword => ?_, fun hall other scope' hperm hok' => ?_⟩
  · -- a party's word first, then this one: the tunnel's grant is the same for both
    obtain ⟨party, hmem, hsome⟩ : ∃ party ∈ requested.splitWhitespace, (PartyScope.parse party).isSome = true := by
      obtain ⟨party, hmem, hsome⟩ := List.findSome?_isSome_iff.1 hpty
      exact ⟨party, h.mem_words.1 hmem, hsome⟩
    have hgrant : ∀ w ∈ requested.splitWhitespace,
        tunnelGrant (some (.oauth (some scope))) = if (PartyScope.parse w).isSome then .nothing else .seat := by
      intro w hw
      obtain ⟨other, scope', hperm, hoth, hparse⟩ := h.word_first hw
      have hequal := hsame other scope' hperm hoth.normalized emptySurface none none
      rw [callerGrant_emptySurface, callerGrant_emptySurface, hoth.tunnelGrant_eq, hparse] at hequal
      exact hequal.symm
    have hboth := (hgrant party hmem).symm.trans (hgrant word hword)
    by_contra hnot
    rw [if_pos hsome, if_neg hnot] at hboth
    cases hboth
  · have hoth := h.of_reordered hperm hok'
    have hfst : ∀ {t u : Text}, PurposesOnly t u →
        (∀ w ∈ t.splitWhitespace, (PartyScope.parse w).isSome = true) →
        tunnelGrant (some (.oauth (some u))) = .nothing := by
      intro t u ht hwds
      obtain ⟨word, rest, hspl⟩ := List.exists_cons_of_ne_nil ht.words_ne_nil
      have hhead : t.splitWhitespace.head? = some word := by rw [hspl, List.head?_cons]
      rw [ht.tunnelGrant_eq, parse_of_head hhead, if_pos (hwds word (List.mem_of_head? hhead))]
    intro surface pid policy
    unfold callerGrant
    rw [hfst h hall, hfst hoth fun w hw => hall w (hperm.mem_iff.1 hw)]

def proofFirst : Text := "ask-proof:v1 party:p1".toList

def partyFirst : Text := "party:p1 ask-proof:v1".toList

/-- A bearer that asks for the party behind its proof is granted a seat; in front of it, nothing. -/
theorem proof_first_keeps_seat :
    normalizeScope (some proofFirst) = .ok proofFirst ∧ (partyScopeOf (some proofFirst)).isSome = true ∧
      scopeFamilies (some proofFirst) = [] ∧
      callerGrant (emptySurface (V := Unit)) (some (.oauth (some proofFirst))) none none = .seat ∧
      partyFirst.splitWhitespace.Perm proofFirst.splitWhitespace ∧
      normalizeScope (some partyFirst) = .ok partyFirst ∧
      callerGrant (emptySurface (V := Unit)) (some (.oauth (some partyFirst))) none none = .nothing := by
  decide +kernel

theorem party_first_granted_nothing :
    callerGrant (emptySurface (V := Unit)) (some (.oauth (some partyFirst))) none none = .nothing :=
  have hok : normalizeScope (some partyFirst) = .ok partyFirst := by decide +kernel
  ((party_grant_iff_first_word hok (by decide +kernel) (by decide +kernel)).1 emptySurface none none).2
    (Or.inl (by decide +kernel))

end ProxyNode.Mcp
