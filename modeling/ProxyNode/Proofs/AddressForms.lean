import Mathlib.Data.Bool.AllAny
import ProxyNode.Spec.Address

/-! One form for an address: what is parsed is canonical, and every spelling of a canonical
address parses to it. -/

namespace ProxyNode

open Text List Except

/-! ## Names -/

theorem isNameChar_range {c : Char} (h : isNameChar c = true) :
    (97 ≤ c.toNat ∧ c.toNat ≤ 122) ∨ (48 ≤ c.toNat ∧ c.toNat ≤ 57) ∨ c.toNat = 45 := by
  rw [isNameChar, Bool.or_eq_true, Bool.or_eq_true, isLower_iff, isDigit_iff, beq_iff_eq] at h
  rcases h with (h | h) | rfl
  · exact .inl h
  · exact .inr (.inl h)
  · exact .inr (.inr rfl)

theorem isNameChar_cases {c : Char} (h : isNameChar c = true) :
    c.toLower = c ∧ isWhitespace c = false ∧ c ≠ ':' ∧ c ≠ '/' ∧ c ≠ ';' ∧ c ≠ '.' := by
  have hrng := isNameChar_range h
  have hne : ∀ d : Char, isNameChar d = false → c ≠ d := by
    rintro d hd rfl
    rw [h] at hd
    cases hd
  refine ⟨?_, ?_, hne _ (by decide), hne _ (by decide), hne _ (by decide), hne _ (by decide)⟩
  · rcases toLower_cases c with hsame | ⟨hupper, -⟩
    · exact hsame
    · omega
  · simp only [isWhitespace, Bool.or_eq_false_iff, Bool.and_eq_false_iff, decide_eq_false_iff_not,
      beq_eq_false_iff_ne]
    omega

section Names

variable {t : Text} (h : ∀ c ∈ t, isNameChar c = true)

include h

theorem solid_of_names : Solid t := fun c hc => (isNameChar_cases (h c hc)).2.1

theorem normal_of_names : toAsciiLowercase (trim t) = t := by
  rw [(solid_of_names h).trim, toAsciiLowercase, map_congr_left fun c hc => (isNameChar_cases (h c hc)).1,
    map_id']

theorem utf8Length_of_names : t.utf8Length = t.length := by
  have hsize : t.map Char.utf8Size = t.map fun _ => 1 := map_congr_left fun c hc => by
    have hrng := isNameChar_range (h c hc)
    exact Char.utf8Size_eq_one_iff.2 (show c.toNat ≤ 127 by omega)
  rw [utf8Length, hsize, map_const', sum_replicate_nat, Nat.mul_one]

end Names

/-! ## Canonical addresses -/

structure IsUserName (user : Text) : Prop where
  chars : ∀ c ∈ user, isNameChar c = true
  first : user.head? ≠ some '-'
  last : user.getLast? ≠ some '-'
  length : 3 ≤ user.length ∧ user.length ≤ 30

namespace AgentAddress

structure Canonical (a : AgentAddress) : Prop where
  user : IsUserName a.user
  agent : ∀ agent, a.agent = some agent → isAgentId agent = true ∧ isReserved agent = false

end AgentAddress

theorem normalizeUser_isUserName {raw user : Text} (h : normalizeUser raw = .ok user) : IsUserName user := by
  unfold normalizeUser at h
  dsimp only at h
  split_ifs at h with hemp hname hends hlen
  obtain rfl := ok.inj h
  have hchars : ∀ c ∈ toAsciiLowercase (trim raw), isNameChar c = true := by simpa using hname
  rw [utf8Length_of_names hchars] at hlen
  exact ⟨hchars, fun hh => hends (.inl hh), fun hh => hends (.inr hh), by omega⟩

theorem IsUserName.normalizeUser {user : Text} (h : IsUserName user) : normalizeUser user = .ok user := by
  have hlen := h.length
  have hne : user ≠ [] := by
    rintro rfl
    exact absurd hlen.1 (by decide)
  unfold ProxyNode.normalizeUser
  rw [normal_of_names h.chars]
  dsimp only
  rw [if_neg hne, if_neg (by simpa using h.chars), if_neg (not_or.2 ⟨h.first, h.last⟩), if_neg]
  rw [utf8Length_of_names h.chars]
  omega

theorem isAgentId_chars {agent : Text} (h : isAgentId agent = true) :
    agent ≠ [] ∧ ∀ c ∈ agent, isNameChar c = true := by
  rw [isAgentId, Bool.and_eq_true, Bool.and_eq_true, all_eq_true] at h
  refine ⟨?_, h.2⟩
  rintro rfl
  exact absurd h.1.1 (by decide)

theorem normalizeAgent_ok {raw agent : Text} (h : normalizeAgent raw = .ok agent) :
    isAgentId agent = true ∧ isReserved agent = false := by
  unfold normalizeAgent at h
  dsimp only at h
  split_ifs at h with hid hreserved
  obtain rfl := ok.inj h
  exact ⟨by simpa using hid, by simpa using hreserved⟩

theorem normalizeAgent_of_ok {agent : Text} (h : isAgentId agent = true ∧ isReserved agent = false) :
    normalizeAgent agent = .ok agent := by
  unfold normalizeAgent
  rw [normal_of_names (isAgentId_chars h.1).2]
  dsimp only
  rw [if_neg (by simp [h.1]), if_neg (by simp [h.2])]

namespace AgentAddress

theorem canonical_of_parse {text : Text} {a : AgentAddress} (h : parse text = .ok a) : a.Canonical := by
  unfold parse at h
  dsimp only at h
  split at h
  · cases h
  · rename_i user huser
    have hname : IsUserName user := by
      split at huser
      · exact normalizeUser_isUserName huser
      · split_ifs at huser
        exact normalizeUser_isUserName huser
    split_ifs at h
    · obtain rfl := ok.inj h
      exact ⟨hname, nofun⟩
    · split at h
      · cases h
      · rename_i agent hag
        obtain rfl := ok.inj h
        refine ⟨hname, fun agent' heq => ?_⟩
        obtain rfl := Option.some.inj heq
        exact normalizeAgent_ok hag

/-! ## Spellings -/

def schemes : List Text := [[], "https://".toList, "http://".toList]

/-- A spelling in lower case: the name alone or with the domain, then the agent. -/
def spelling (a : AgentAddress) (scheme : Text) (short slash : Bool) : Text :=
  scheme ++ ((if short then a.user else a.host) ++
    ((a.agent.map ('/' :: ·)).getD [] ++ if slash then ['/'] else []))

theorem withoutScheme_append {scheme rest : Text} (hsch : scheme ∈ schemes) (hrest : ':' ∉ rest) :
    withoutScheme (scheme ++ rest) = rest := by
  have hnone : ∀ scheme : Text, ':' ∈ scheme → scheme.isPrefixOf? rest = none := by
    intro scheme hcol
    cases hspl : scheme.isPrefixOf? rest with
    | none => rfl
    | some tail =>
      rw [isPrefixOf?_eq_some_iff_append_eq] at hspl
      exact absurd (hspl ▸ mem_append_left _ hcol) hrest
  unfold withoutScheme
  rcases mem_cons.1 hsch with rfl | hsch
  · rw [nil_append, hnone _ (by decide), hnone _ (by decide), Option.getD_none]
  · rcases mem_cons.1 hsch with rfl | hsch
    · rfl
    · rw [mem_singleton.1 hsch]
      rfl

section Spelled

variable {a : AgentAddress} (h : a.Canonical)

include h

theorem Canonical.host_chars : ∀ c ∈ a.host, isNameChar c = true ∨ c = '.' := by
  intro c hc
  rcases mem_append.1 hc with hc | hc
  · exact .inl (h.user.chars c hc)
  · have hall : ∀ c ∈ '.' :: domain, isNameChar c = true ∨ c = '.' := all_iff_forall_prop.1 (by decide)
    exact hall c hc

/-- What stands for the name and for the agent is made of names, dots and slashes. -/
theorem Canonical.spelled_chars (short slash : Bool) :
    ∀ c ∈ a.spelling [] short slash, isNameChar c = true ∨ c = '.' ∨ c = '/' := by
  have hpath : ∀ c ∈ (a.agent.map ('/' :: ·)).getD [], isNameChar c = true ∨ c = '.' ∨ c = '/' := by
    cases hag : a.agent with
    | none => exact nofun
    | some agent =>
      refine forall_mem_cons.2 ⟨.inr (.inr rfl), fun c hc => Or.inl ?_⟩
      exact (isAgentId_chars (h.agent agent hag).1).2 c hc
  rw [spelling, nil_append, forall_mem_append, forall_mem_append]
  refine ⟨fun c hc => ?_, hpath, fun c hc => ?_⟩
  · cases short with
    | true => exact .inl (h.user.chars c hc)
    | false => exact (h.host_chars c hc).imp_right Or.inl
  · cases slash with
    | true => exact .inr (.inr (mem_singleton.1 hc))
    | false => cases hc

/-- The first slash ends the name, and the path is the agent with a slash at its end or none. -/
theorem Canonical.read_path (short slash : Bool) :
    ∃ path, (splitOnce '/' (a.spelling [] short slash)).getD (a.spelling [] short slash, []) =
        (if short then a.user else a.host, path) ∧
      (['/'].isSuffixOf? path).getD path = a.agent.getD [] ∧ '/' ∉ a.agent.getD [] := by
  generalize hname : (if short then a.user else a.host) = name
  have hsl : ∀ {t : Text}, (∀ c ∈ t, isNameChar c = true ∨ c = '.') → '/' ∉ t := by
    intro t ht hc
    rcases ht _ hc with h | h
    · exact absurd h (by decide)
    · exact absurd h (by decide)
  have hfree : '/' ∉ name := by
    rw [← hname]
    cases short with
    | true => exact hsl fun c hc => Or.inl (h.user.chars c hc)
    | false => exact hsl h.host_chars
  rw [spelling, nil_append, hname]
  cases hag : a.agent with
  | none =>
    cases slash with
    | true =>
      refine ⟨[], ?_, rfl, not_mem_nil⟩
      change (splitOnce '/' (name ++ '/' :: [])).getD _ = _
      rw [splitOnce_append hfree, Option.getD_some]
    | false =>
      refine ⟨[], ?_, rfl, not_mem_nil⟩
      change (splitOnce '/' (name ++ [])).getD (name ++ [], []) = _
      rw [append_nil, splitOnce_eq_none.2 hfree, Option.getD_none]
  | some agent =>
    have hag : '/' ∉ agent :=
      hsl fun c hc => Or.inl ((isAgentId_chars (h.agent agent hag).1).2 c hc)
    rw [Option.map_some, Option.getD_some, cons_append, splitOnce_append hfree]
    refine ⟨_, rfl, ?_, hag⟩
    cases slash with
    | true => rw [if_pos rfl, isSuffixOf?_eq_some_iff_append_eq.2 rfl]; rfl
    | false =>
      rw [if_neg Bool.false_ne_true, append_nil]
      cases hsuffix : ['/'].isSuffixOf? agent with
      | none => rfl
      | some rest =>
        rw [isSuffixOf?_eq_some_iff_append_eq] at hsuffix
        exact absurd (hsuffix ▸ mem_append_right _ (mem_singleton_self _)) hag

/-- Either form of the name is read as the name. -/
theorem Canonical.read_name (short : Bool) :
    (match (domain.isSuffixOf? (if short then a.user else a.host)).bind (['.'].isSuffixOf? ·) with
      | some user => normalizeUser user
      | none => if (if short then a.user else a.host).contains '.' then .error .notProxyIng
        else normalizeUser (if short then a.user else a.host)) = .ok a.user := by
  have hdot : '.' ∉ a.user := fun hc => (isNameChar_cases (h.user.chars _ hc)).2.2.2.2.2 rfl
  cases short with
  | true =>
    have hnone : domain.isSuffixOf? a.user = none := by
      cases hsuffix : domain.isSuffixOf? a.user with
      | none => rfl
      | some front =>
        rw [isSuffixOf?_eq_some_iff_append_eq] at hsuffix
        exact absurd (hsuffix ▸ mem_append_right front (by decide : '.' ∈ domain)) hdot
    rw [if_pos rfl, hnone, Option.bind_none]
    dsimp only
    rw [if_neg (by simpa using hdot), h.user.normalizeUser]
  | false =>
    have hdomain : domain.isSuffixOf? a.host = some (a.user ++ ['.']) := by
      rw [isSuffixOf?_eq_some_iff_append_eq, host, append_assoc]
      rfl
    rw [if_neg Bool.false_ne_true, hdomain, Option.bind_some, isSuffixOf?_eq_some_iff_append_eq.2 rfl]
    exact h.user.normalizeUser

theorem Canonical.parse_spelling {scheme text : Text} (hsch : scheme ∈ schemes) (short slash : Bool)
    (htext : toAsciiLowercase (trim text) = a.spelling scheme short slash) : parse text = .ok a := by
  have hcol : ':' ∉ a.spelling [] short slash := by
    intro hc
    rcases h.spelled_chars short slash _ hc with h | h | h
    · exact absurd h (by decide)
    · exact absurd h (by decide)
    · exact absurd h (by decide)
  have hrest : a.spelling scheme short slash = scheme ++ a.spelling [] short slash := rfl
  obtain ⟨path, hspl, hpath, hflat⟩ := h.read_path short slash
  unfold parse
  rw [htext, hrest, withoutScheme_append hsch hcol]
  dsimp only
  rw [hspl]
  dsimp only
  rw [hpath]
  split
  · next why hwhy => cases hwhy.symm.trans (h.read_name short)
  · next user huser =>
    obtain rfl := ok.inj (huser.symm.trans (h.read_name short))
    cases hag : a.agent with
    | none => rw [Option.getD_none, if_pos rfl, ← hag]
    | some agent =>
      rw [hag, Option.getD_some] at hflat
      have hid := h.agent agent hag
      rw [Option.getD_some, if_neg (isAgentId_chars hid.1).1, if_neg (by simpa using hflat),
        normalizeAgent_of_ok hid]
      dsimp only
      rw [← hag]

theorem Canonical.spelled_plain {scheme : Text} (hsch : scheme ∈ schemes) (short slash : Bool) :
    ∀ c ∈ a.spelling scheme short slash, c.toLower = c ∧ isWhitespace c = false := by
  have hschemes : ∀ scheme ∈ schemes, ∀ c ∈ scheme, c.toLower = c ∧ isWhitespace c = false := by
    intro scheme hsch
    refine all_iff_forall_prop.1 ?_
    revert scheme
    decide
  intro c hc
  rcases mem_append.1 hc with hc | hc
  · exact hschemes scheme hsch c hc
  · rcases h.spelled_chars short slash c hc with hname | rfl | rfl
    · exact ⟨(isNameChar_cases hname).1, (isNameChar_cases hname).2.1⟩
    · decide
    · decide

theorem Canonical.parse_display : parse a.display = .ok a := by
  have hpl := h.spelled_plain (mem_cons_self : [] ∈ schemes) false false
  have hdisplay : a.display = a.spelling [] false false := by
    rw [display, spelling, host, nil_append]
    cases a.agent <;> simp
  refine h.parse_spelling mem_cons_self false false ?_
  rw [hdisplay, Solid.trim fun c hc => (hpl c hc).2, toAsciiLowercase,
    map_congr_left fun c hc => (hpl c hc).1, map_id']

end Spelled

/-- Addresses have one canonical form, and every spelling of one parses to it. -/
theorem addresses_have_one_form :
    (∀ text a, parse text = .ok a → parse a.display = .ok a ∧ a.Canonical) ∧
      ∀ a : AgentAddress, a.Canonical → ∀ scheme ∈ schemes, ∀ (short slash : Bool) (front body back : Text),
        (∀ c ∈ front, isWhitespace c = true) → (∀ c ∈ back, isWhitespace c = true) →
        toAsciiLowercase body = a.spelling scheme short slash → parse (front ++ body ++ back) = .ok a := by
  refine ⟨fun text a hparse => ?_, fun a h scheme hsch short slash front body back hfro hback hbody => ?_⟩
  · have h := canonical_of_parse hparse
    exact ⟨h.parse_display, h⟩
  · have hsolid : Solid body := by
      refine solid_of_lower ?_
      rw [hbody]
      exact fun c hc => (h.spelled_plain hsch short slash c hc).2
    refine h.parse_spelling hsch short slash ?_
    rw [trim_pad hfro hback hsolid, hbody]

def claude : AgentAddress := ⟨"alex".toList, some "claude".toList⟩

theorem spelled_claude : parse " HTTPS://Alex.proxy.ING/claude/\n".toList = .ok claude := by
  have hcanonical : claude.Canonical :=
    ⟨⟨List.all_iff_forall_prop.1 (by decide), by decide, by decide, by decide⟩, fun agent h => by
      obtain rfl := Option.some.inj h
      decide⟩
  exact addresses_have_one_form.2 claude hcanonical "https://".toList (by decide) false true [' ']
    "HTTPS://Alex.proxy.ING/claude/".toList ['\n'] (List.all_iff_forall_prop.1 (by decide))
    (List.all_iff_forall_prop.1 (by decide)) (by decide)

end AgentAddress

end ProxyNode
