import Mathlib.Data.Bool.AllAny
import ProxyNode.Base.Lists
import ProxyNode.Sanity.Percent
import ProxyNode.Spec.AskSigner

/-! The words of a signed ask's scope are read as they were written. -/

namespace ProxyNode.OAuth

open Text AskProof List

/-! ## Parts between semicolons -/

/-- A text that can stand between semicolons. -/
structure Part (t : Text) : Prop where
  solid : Solid t
  separator : ';' ∉ t

def namedText (e : String × Text) : Text := e.1.toList ++ '=' :: e.2

variable {t : Text}

theorem Part.append {u : Text} (ht : Part t) (hu : Part u) : Part (t ++ u) := by
  refine ⟨fun c hc => ?_, fun hc => ?_⟩
  · rcases mem_append.1 hc with hc | hc
    · exact ht.solid c hc
    · exact hu.solid c hc
  · rcases mem_append.1 hc with hc | hc
    · exact ht.separator hc
    · exact hu.separator hc

theorem part_of_chars (h : ∀ c ∈ t, c.isAlphanum = true ∨ c = '-' ∨ c = '_' ∨ c = '%' ∨ c = '=') :
    Part t := by
  refine ⟨fun c hc => ?_, fun hc => absurd (h _ hc) (by decide)⟩
  rcases h c hc with hc | rfl | rfl | rfl | rfl
  · exact isWhitespace_of_alphanum hc
  all_goals decide

theorem Part.named {name : String} {value : Text} (hname : name.toList.all Char.isAlphanum = true)
    (h : Part value) : Part (namedText (name, value)) := by
  have hfro : Part (name.toList ++ ['=']) := by
    refine part_of_chars fun c hc => ?_
    rcases mem_append.1 hc with hc | hc
    · exact .inl (all_eq_true.1 hname c hc)
    · exact .inr (.inr (.inr (.inr (mem_singleton.1 hc))))
  have hwhole := hfro.append h
  rwa [append_assoc] at hwhole

theorem nameValue_named {e : String × Text} (hname : e.1.toList.all Char.isAlphanum = true) :
    nameValue (namedText e) = (e.1.toList, e.2) := by
  have hnot : '=' ∉ e.1.toList := fun hmem => absurd (all_eq_true.1 hname _ hmem) (by decide)
  rw [nameValue, namedText, splitOnce_append hnot]
  rfl

theorem splitOn_parts {parts : List Text} (h : ∀ t ∈ parts, Part t) (hne : parts ≠ []) :
    ([';'].intercalate parts).splitOn ';' = parts :=
  splitOn_intercalate ';' (fun t ht => (h t ht).separator) hne

theorem Part.intercalate {parts : List Text} (h : ∀ t ∈ parts, Part t) : Solid ([';'].intercalate parts) := by
  intro c hc
  rcases mem_intercalate hc with hc | ⟨t, ht, hc⟩
  · rw [mem_singleton.1 hc]
    decide
  · exact (h t ht).solid c hc

/-! ## Numbers, keys and signatures -/

theorem parseU64_toString {n : ℕ} (h : n < 2 ^ 64) : parseU64 (toString n).toList = some n := by
  have hdgs : ∀ c ∈ (toString n).toList, c.isDigit = true := fun c hc => isDigit_of_mem_toString hc
  have hval : (toString n).toList.foldl (fun m c => 10 * m + (c.toNat - '0'.toNat)) 0 = n := by
    rw [toString_eq_toDigits]
    exact Nat.ofDigitChars_toDigits (by decide) (by decide)
  have hne : (toString n).toList ≠ [] := by
    rw [toString_eq_toDigits]
    exact Nat.toDigits_ne_nil
  have hsign : ['+'].isPrefixOf? (toString n).toList = none := by
    cases htext : (toString n).toList with
    | nil => rfl
    | cons c t =>
      have hc : c ≠ '+' := by
        rintro rfl
        exact absurd (hdgs '+' (htext ▸ mem_cons_self)) (by decide)
      simp [isPrefixOf?, hc.symm]
  rw [parseU64, hsign, Option.getD_none]
  dsimp only
  rw [if_neg, hval, if_pos h]
  simp only [not_or, Bool.not_eq_true', Bool.not_eq_false, all_eq_true]
  exact ⟨hne, hdgs⟩

theorem isHexLower_of_mem_encodeHex {bytes : List Byte} {c : Char} (h : c ∈ (encodeHex bytes).toList) :
    isHexLower c = true := by
  have hall : ∀ n < 16, isHexLower (hexDigits.getD n '0') = true := by decide
  rw [encodeHex, String.toList_ofList, mem_flatMap] at h
  obtain ⟨b, -, hc⟩ := h
  simp only [mem_cons, not_mem_nil, or_false] at hc
  rcases hc with rfl | rfl
  · exact hall _ (by omega)
  · exact hall _ (Nat.mod_lt _ (by decide))

theorem utf8Length_encodeHex (bytes : List Byte) : utf8Length (encodeHex bytes).toList = 2 * bytes.length := by
  have hall : ∀ n < 16, (hexDigits.getD n '0').utf8Size = 1 := by decide
  rw [encodeHex, String.toList_ofList]
  induction bytes with
  | nil => rfl
  | cons b bytes ih =>
    rw [flatMap_cons]
    unfold utf8Length at ih ⊢
    rw [map_append, sum_append, ih]
    simp only [map_cons, map_nil, sum_cons, sum_nil, hall _ (Nat.mod_lt _ (by decide)),
      hall (b.val / 16) (by omega), length_cons]
    omega

theorem isKeyId_toHex (id : Bytes 32) : isKeyId (toHex id).toList = true := by
  have hlen : utf8Length (toHex id).toList = 64 := by rw [toHex, utf8Length_encodeHex, id.2]
  rw [isKeyId, hlen, Bool.and_eq_true, all_eq_true]
  exact ⟨rfl, fun c hc => isHexLower_of_mem_encodeHex hc⟩

theorem isNonce_encodeHex (random : Bytes 16) : isNonce (encodeHex random.1).toList = true := by
  have hlen : utf8Length (encodeHex random.1).toList = 32 := by rw [utf8Length_encodeHex, random.2]
  rw [isNonce, hlen, Bool.and_eq_true, all_eq_true]
  exact ⟨rfl, fun c hc => isHexLower_of_mem_encodeHex hc⟩

theorem part_of_hex (h : t.all isHexLower = true) : Part t := by
  refine part_of_chars fun c hc => Or.inl ?_
  have hhex := all_eq_true.1 h c hc
  rw [isHexLower, Bool.or_eq_true, Bool.and_eq_true, decide_eq_true_eq, decide_eq_true_eq] at hhex
  rcases hhex with hdigit | ⟨hlow, hhigh⟩
  · simp [Char.isAlphanum, hdigit]
  · have hf : c.toNat ≤ 102 := hhigh
    exact isAlphanum_iff.2 (.inl (.inr ⟨hlow, hf.trans (by decide)⟩))

theorem base64UrlDigit_chars (n : ℕ) :
    (base64UrlDigit n).isAlphanum = true ∨ base64UrlDigit n = '-' ∨ base64UrlDigit n = '_' := by
  have hall : ∀ c ∈ base64UrlDigits, c.isAlphanum = true ∨ c = '-' ∨ c = '_' :=
    all_iff_forall_prop.1 (by decide)
  rw [base64UrlDigit, getD_eq_getElem?_getD]
  cases hget : base64UrlDigits[n]? with
  | none => exact .inl (by decide)
  | some c => exact hall c (mem_of_getElem? hget)

theorem part_encodeBase64Url (bytes : List Byte) : Part (encodeBase64Url bytes) := by
  have hdgs : ∀ digits : List ℕ, Part (digits.map base64UrlDigit) := by
    refine fun digits => part_of_chars fun c hc => ?_
    obtain ⟨n, -, rfl⟩ := mem_map.1 hc
    rcases base64UrlDigit_chars n with hc | hc | hc
    · exact .inl hc
    · exact .inr (.inl hc)
    · exact .inr (.inr (.inl hc))
  induction bytes using encodeBase64Url.induct with
  | case1 => exact hdgs []
  | case2 a => exact hdgs [_, _]
  | case3 a b => exact hdgs [_, _, _]
  | case4 a b c rest ih => exact (hdgs [_, _, _, _]).append ih

theorem encodeBase64Url_ne_nil {bytes : List Byte} (h : bytes ≠ []) : encodeBase64Url bytes ≠ [] := by
  match bytes with
  | [] => exact absurd rfl h
  | [_] => exact cons_ne_nil _ _
  | [_, _] => exact cons_ne_nil _ _
  | _ :: _ :: _ :: _ => exact cons_ne_nil _ _

/-! ## The proof word -/

def AskProof.parts (proof : AskProof) : List (String × Text) :=
  [("key", proof.keyId), ("to", proof.to), ("exp", (toString proof.expiresAt).toList), ("nonce", proof.nonce),
    ("sig", proof.signature)]

theorem AskProof.toWord_eq (proof : AskProof) :
    proof.toWord = proofPrefix ++ [';'].intercalate (proofVersion :: proof.parts.map namedText) := by
  have hkey : ";key=".toList = ';' :: "key".toList ++ ['='] := by decide
  have hto : ";to=".toList = ';' :: "to".toList ++ ['='] := by decide
  have hexp : ";exp=".toList = ';' :: "exp".toList ++ ['='] := by decide
  have hnonce : ";nonce=".toList = ';' :: "nonce".toList ++ ['='] := by decide
  have hsig : ";sig=".toList = ';' :: "sig".toList ++ ['='] := by decide
  simp only [toWord, parts, namedText, map_cons, map_nil, intercalate_cons_cons,
    intercalate_singleton, hkey, hto, hexp, hnonce, hsig, append_assoc, cons_append,
    nil_append]

structure AskProof.Written (proof : AskProof) : Prop where
  keyId : isKeyId proof.keyId = true
  «to» : Part proof.to ∧ proof.to ≠ []
  expiresAt : proof.expiresAt < 2 ^ 64
  nonce : isNonce proof.nonce = true
  signature : Part proof.signature ∧ proof.signature ≠ []

theorem readParts_named {named : List (String × Text)} {slots : List (Text × Text)}
    (hnames : ∀ e ∈ named, e.1.toList ∈ partNames) (hnd : (named.map fun e => e.1.toList).Nodup)
    (hfrs : ∀ e ∈ named, slots.lookup e.1.toList = none) :
    readParts (named.map namedText) slots =
      .ok ((named.map fun e => (e.1.toList, e.2)).reverse ++ slots) := by
  have hchars : ∀ name ∈ partNames, name.all Char.isAlphanum = true := by decide
  induction named generalizing slots with
  | nil => rfl
  | cons e named ih =>
    have hname := hnames e mem_cons_self
    obtain ⟨hnot, hnd'⟩ := nodup_cons.1 hnd
    rw [map_cons, readParts, nameValue_named (hchars _ hname)]
    dsimp only
    rw [if_neg (not_not.2 hname), if_neg (by simp [hfrs e mem_cons_self]),
      ih (fun f hf => hnames f (mem_cons_of_mem _ hf)) hnd' fun f hf => ?_]
    · simp
    · have hoth : f.1.toList ≠ e.1.toList := fun heq => hnot (mem_map.2 ⟨f, hf, heq⟩)
      rw [lookup_cons, beq_false_of_ne hoth]
      exact hfrs f (mem_cons_of_mem _ hf)

variable {proof : AskProof}

theorem AskProof.Written.part (h : proof.Written) :
    ∀ t ∈ proofVersion :: proof.parts.map namedText, Part t := by
  have hexp : Part (toString proof.expiresAt).toList := part_of_chars fun c hc =>
    Or.inl (by simp [Char.isAlphanum, isDigit_of_mem_toString hc])
  have hkey : Part proof.keyId := part_of_hex (Bool.and_eq_true_iff.1 h.keyId).2
  have hnonce : Part proof.nonce := part_of_hex (Bool.and_eq_true_iff.1 h.nonce).2
  have hvers : Part proofVersion := part_of_chars (all_iff_forall_prop.1 (by decide))
  simp only [parts, map_cons, map_nil, forall_mem_cons]
  exact ⟨hvers, hkey.named (by decide), h.to.1.named (by decide), hexp.named (by decide),
    hnonce.named (by decide), h.signature.1.named (by decide), by simp⟩

theorem AskProof.Written.parse (h : proof.Written) :
    AskProof.parse proof.toWord = .ok proof := by
  have hprefix : proofPrefix.isPrefixOf? proof.toWord =
      some ([';'].intercalate (proofVersion :: proof.parts.map namedText)) :=
    isPrefixOf?_eq_some_iff_append_eq.2 proof.toWord_eq.symm
  have hnd : (proof.parts.map fun e => e.1.toList).Nodup :=
    show (["key", "to", "exp", "nonce", "sig"].map String.toList).Nodup by decide
  have hread := @readParts_named proof.parts [] (by simp [parts, partNames]) hnd fun _ _ => rfl
  generalize hslots : (proof.parts.map fun e => (e.1.toList, e.2)).reverse ++ [] = slots
  have hlook : ∀ e ∈ proof.parts, slots.lookup e.1.toList = some e.2 := by
    intro e he
    refine lookup_of_mem ?_ ?_
    · rwa [← hslots, append_nil, map_reverse, nodup_reverse, map_map]
    · rw [← hslots, append_nil, mem_reverse]
      exact mem_map.2 ⟨e, he, rfl⟩
  have hkey := hlook ("key", proof.keyId) (by simp [parts])
  have hto := hlook ("to", proof.to) (by simp [parts])
  have hexp := hlook ("exp", (toString proof.expiresAt).toList) (by simp [parts])
  have hnonce := hlook ("nonce", proof.nonce) (by simp [parts])
  have hsig := hlook ("sig", proof.signature) (by simp [parts])
  rw [hslots] at hread
  rw [AskProof.parse, hprefix]
  dsimp only
  rw [splitOn_parts h.part (cons_ne_nil _ _), head?_cons, if_neg (by simp), tail_cons, hread]
  simp only [hkey, hto, hexp, hnonce, hsig, Option.filter_some, h.keyId, h.to.2, h.nonce, h.signature.2,
    Option.bind_some, parseU64_toString h.expiresAt, if_true, ne_eq, not_false_eq_true, decide_true]

theorem AskProof.Written.solid (h : proof.Written) : Solid proof.toWord := by
  rw [proof.toWord_eq]
  intro c hc
  rcases mem_append.1 hc with hc | hc
  · have hall : ∀ c ∈ proofPrefix, isWhitespace c = false := all_iff_forall_prop.1 (by decide)
    exact hall c hc
  · exact Part.intercalate h.part c hc

/-! ## The party word -/

def PartyScope.parts (party : PartyScope) : List (String × Text) :=
  [("title", percentEncodeWith Char.isAlphanum party.title), ("host", party.host), ("agents", party.agent),
    ("loadout", party.loadout)]

theorem PartyScope.toScope_eq (party : PartyScope) : party.toScope =
    "party:".toList ++ [';'].intercalate (party.conversationId :: party.parts.map namedText) := by
  have htitle : ";title=".toList = ';' :: "title".toList ++ ['='] := by decide
  have hhost : ";host=".toList = ';' :: "host".toList ++ ['='] := by decide
  have hagents : ";agents=".toList = ';' :: "agents".toList ++ ['='] := by decide
  have hloadout : ";loadout=".toList = ';' :: "loadout".toList ++ ['='] := by decide
  unfold toScope
  rw [htitle, hhost, hagents, hloadout]
  generalize "party:".toList = start
  simp only [parts, namedText, map_cons, map_nil, intercalate_cons_cons, intercalate_singleton,
    append_assoc, cons_append, nil_append]

/-- A party whose parts can be told apart in its word, with a title to show. -/
structure PartyScope.Written (party : PartyScope) : Prop where
  conversationId : Part party.conversationId ∧ party.conversationId ≠ []
  title : trim party.title ≠ []
  host : Part party.host
  agent : Part party.agent
  loadout : Part party.loadout

variable {party : PartyScope}

theorem PartyScope.Written.part (h : party.Written) :
    ∀ t ∈ party.conversationId :: party.parts.map namedText, Part t := by
  have htitle : Part (percentEncodeWith Char.isAlphanum party.title) := by
    refine part_of_chars fun c hc => ?_
    rcases mem_percentEncodeWith hc with hc | hc | hc
    · exact .inr (.inr (.inr (.inl hc)))
    · exact .inl hc
    · exact .inl hc
  simp only [PartyScope.parts, map_cons, map_nil, forall_mem_cons]
  exact ⟨h.conversationId.1, htitle.named (by decide), h.host.named (by decide), h.agent.named (by decide),
    h.loadout.named (by decide), nofun⟩

theorem PartyScope.Written.solid (h : party.Written) : Solid party.toScope := by
  rw [party.toScope_eq]
  intro c hc
  rcases mem_append.1 hc with hc | hc
  · have hall : ∀ c ∈ "party:".toList, isWhitespace c = false := all_iff_forall_prop.1 (by decide)
    exact hall c hc
  · exact Part.intercalate h.part c hc

theorem PartyScope.namedPart_named (party : PartyScope) (value : Text) :
    party.namedPart (namedText ("title", value)) =
        { party with title := (percentDecodeText value).getD value } ∧
      party.namedPart (namedText ("host", value)) = { party with host := trim value } ∧
      party.namedPart (namedText ("agents", value)) = { party with agent := trim value } ∧
      party.namedPart (namedText ("loadout", value)) = { party with loadout := trim value } := by
  have hread : ∀ name : String, name.toList.all Char.isAlphanum = true →
      nameValue (namedText (name, value)) = (name.toList, value) := fun name hname => nameValue_named hname
  have htrim : trim "title".toList = "title".toList ∧ trim "host".toList = "host".toList ∧
      trim "agents".toList = "agents".toList ∧ trim "loadout".toList = "loadout".toList := by decide
  obtain ⟨htitle, hhost, hagents, hloadout⟩ := htrim
  unfold namedPart
  refine ⟨?_, ?_, ?_, ?_⟩
  · rw [hread _ (by decide)]
    dsimp only
    rw [htitle, if_pos rfl]
  · rw [hread _ (by decide)]
    dsimp only
    rw [hhost, if_neg (by decide), if_pos rfl]
  · rw [hread _ (by decide)]
    dsimp only
    rw [hagents, if_neg (by decide), if_neg (by decide), if_pos rfl]
  · rw [hread _ (by decide)]
    dsimp only
    rw [hloadout, if_neg (by decide), if_neg (by decide), if_neg (by decide), if_pos rfl]

theorem PartyScope.Written.parse (h : party.Written) :
    PartyScope.parse party.toScope = some party := by
  have hne : party.toScope ≠ [] := by
    rw [party.toScope_eq]
    exact cons_ne_nil _ _
  have hprefix : "party:".toList.isPrefixOf? party.toScope =
      some ([';'].intercalate (party.conversationId :: party.parts.map namedText)) :=
    isPrefixOf?_eq_some_iff_append_eq.2 party.toScope_eq.symm
  have htitle : (percentDecodeText (percentEncodeWith Char.isAlphanum party.title)).getD
      (percentEncodeWith Char.isAlphanum party.title) = party.title := by
    rw [percentDecodeText_encode (by decide), Option.getD_some]
  rw [PartyScope.parse, splitWhitespace_of_solid h.solid hne, head?_cons, Option.bind_some, hprefix]
  dsimp only
  rw [splitOn_parts h.part (cons_ne_nil _ _)]
  dsimp only
  rw [h.conversationId.1.solid.trim, if_neg h.conversationId.2]
  simp only [PartyScope.parts, map_cons, map_nil, foldl_cons, foldl_nil,
    PartyScope.namedPart_named, htitle, h.host.solid.trim, h.agent.solid.trim, h.loadout.solid.trim,
    if_neg h.title]

end ProxyNode.OAuth
