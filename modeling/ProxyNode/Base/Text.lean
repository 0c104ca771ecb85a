import Mathlib.Algebra.GroupWithZero.Nat
import Mathlib.Data.List.Infix
import Mathlib.Data.List.TakeWhile
import Mathlib.Data.String.Basic

/-! Texts as lists of characters, with the reads of text a protocol is written in: trimmed
fields, words, separated parts and lines. -/

abbrev Text := List Char

instance Text.lawfulBEq : LawfulBEq Text := inferInstance

namespace Text

open List

/-- The characters with Unicode's `White_Space` property. -/
def isWhitespace (c : Char) : Bool :=
  let n := c.toNat
  (9 ≤ n && n ≤ 13) || n == 0x20 || n == 0x85 || n == 0xA0 || n == 0x1680 || (0x2000 ≤ n && n ≤ 0x200A) ||
    n == 0x2028 || n == 0x2029 || n == 0x202F || n == 0x205F || n == 0x3000

def trim (t : Text) : Text := ((t.dropWhile isWhitespace).reverse.dropWhile isWhitespace).reverse

def splitWhitespace (t : Text) : List Text := (t.splitOnP isWhitespace).filter (· ≠ [])

/-- The text before and behind the first `c`. -/
def splitOnce (c : Char) (t : Text) : Option (Text × Text) :=
  if c ∈ t then some (t.takeWhile (· ≠ c), (t.dropWhile (· ≠ c)).tail) else none

def rsplitOnce (c : Char) (t : Text) : Option (Text × Text) :=
  (splitOnce c t.reverse).map fun e => (e.2.reverse, e.1.reverse)

def trimEndMatches (c : Char) (t : Text) : Text := (t.reverse.dropWhile (· = c)).reverse

def toAsciiLowercase (t : Text) : Text := t.map Char.toLower

def utf8Length (t : Text) : ℕ := (t.map Char.utf8Size).sum

def joinLines (lines : List Text) : Text := ['\n'].intercalate lines

def Solid (t : Text) : Prop := ∀ c ∈ t, isWhitespace c = false

theorem newline_whitespace : isWhitespace '\n' = true := by decide

variable {t : Text}

theorem Solid.newline (h : Solid t) : '\n' ∉ t := by
  intro hmem
  have := h _ hmem
  rw [newline_whitespace] at this
  cases this

theorem mem_of_splitOnP {p : Char → Bool} {part : Text} (h : part ∈ t.splitOnP p) :
    ∀ c ∈ part, c ∈ t ∧ p c = false := by
  induction t generalizing part with
  | nil =>
    rw [splitOnP_nil, mem_singleton] at h
    subst h
    exact nofun
  | cons x t ih =>
    rw [splitOnP_cons_eq_if_modifyHead] at h
    by_cases hx : p x = true
    · rw [if_pos hx, mem_cons] at h
      rcases h with rfl | h
      · exact nofun
      · exact fun c hc => ⟨mem_cons_of_mem _ (ih h c hc).1, (ih h c hc).2⟩
    · rw [if_neg hx] at h
      cases hprt : t.splitOnP p with
      | nil =>
        rw [hprt] at h
        cases h
      | cons first parts =>
        rw [hprt, modifyHead_cons, mem_cons] at h
        intro c hc
        rcases h with rfl | h
        · rcases mem_cons.1 hc with rfl | hc
          · exact ⟨mem_cons_self, by simpa using hx⟩
          · have hfst := ih (hprt ▸ mem_cons_self) c hc
            exact ⟨mem_cons_of_mem _ hfst.1, hfst.2⟩
        · have hpart := ih (hprt ▸ mem_cons_of_mem _ h) c hc
          exact ⟨mem_cons_of_mem _ hpart.1, hpart.2⟩

theorem solid_of_mem_splitWhitespace {word : Text} (h : word ∈ t.splitWhitespace) : Solid word :=
  fun c hc => (mem_of_splitOnP (mem_filter.1 h).1 c hc).2

theorem ne_nil_of_mem_splitWhitespace {word : Text} (h : word ∈ t.splitWhitespace) : word ≠ [] := by
  simpa using (mem_filter.1 h).2

variable {c : Char}

theorem isLower_iff : c.isLower = true ↔ 97 ≤ c.toNat ∧ c.toNat ≤ 122 :=
  Bool.and_eq_true_iff.trans (and_congr decide_eq_true_iff decide_eq_true_iff)

theorem isDigit_iff : c.isDigit = true ↔ 48 ≤ c.toNat ∧ c.toNat ≤ 57 :=
  Bool.and_eq_true_iff.trans (and_congr decide_eq_true_iff decide_eq_true_iff)

theorem isAlphanum_iff : c.isAlphanum = true ↔
    ((65 ≤ c.toNat ∧ c.toNat ≤ 90) ∨ (97 ≤ c.toNat ∧ c.toNat ≤ 122)) ∨ (48 ≤ c.toNat ∧ c.toNat ≤ 57) :=
  Bool.or_eq_true_iff.trans
    (or_congr (Bool.or_eq_true_iff.trans (or_congr decide_eq_true_iff isLower_iff)) isDigit_iff)

theorem isWhitespace_of_alphanum (h : c.isAlphanum = true) : isWhitespace c = false := by
  rw [isAlphanum_iff] at h
  simp only [isWhitespace, Bool.or_eq_false_iff, Bool.and_eq_false_iff, decide_eq_false_iff_not,
    beq_eq_false_iff_ne]
  omega

/-- Lower case moves the upper-case letters and nothing else. -/
theorem toLower_cases (c : Char) :
    c.toLower = c ∨ (65 ≤ c.toNat ∧ c.toNat ≤ 90) ∧ c.toLower.toNat = c.toNat + 32 := by
  unfold Char.toLower
  split
  · next hupper =>
    have hrng : 65 ≤ c.toNat ∧ c.toNat ≤ 90 := hupper
    refine Or.inr ⟨hrng, (UInt32.toNat_add _ _).trans (Nat.mod_eq_of_lt ?_)⟩
    change c.toNat + 32 < 2 ^ 32
    omega
  · exact Or.inl rfl

/-- Lower case puts in nothing but lower-case letters. -/
theorem eq_of_toLower_eq {d : Char} (hd : d.isLower = false) (h : c.toLower = d) : c = d := by
  rcases toLower_cases c with hsame | ⟨hrng, hval⟩
  · exact hsame.symm.trans h
  · have hlower : d.isLower = true := by
      rw [isLower_iff, ← h]
      omega
    rw [hd] at hlower
    cases hlower

theorem Solid.toAsciiLowercase (h : Solid t) : Solid (toAsciiLowercase t) := by
  intro d hd
  obtain ⟨c, hc, rfl⟩ := mem_map.1 hd
  cases hlower : c.toLower.isLower with
  | true => exact isWhitespace_of_alphanum (isAlphanum_iff.2 (.inl (.inr (isLower_iff.1 hlower))))
  | false =>
    rw [← eq_of_toLower_eq hlower rfl]
    exact h c hc

theorem Solid.trim (h : Solid t) : trim t = t := by
  have hkept : ∀ u : Text, Solid u → u.dropWhile isWhitespace = u := by
    intro u hu
    cases u with
    | nil => rfl
    | cons c u => exact dropWhile_cons_of_neg (by simp [hu c mem_cons_self])
  rw [Text.trim, hkept t h, hkept _ fun c hc => h c (mem_reverse.1 hc), reverse_reverse]

theorem solid_of_lower (h : Solid (toAsciiLowercase t)) : Solid t := by
  intro c hc
  have hlower := h _ (mem_map_of_mem hc)
  rcases toLower_cases c with hsame | ⟨hrng, -⟩
  · rwa [hsame] at hlower
  · exact isWhitespace_of_alphanum (isAlphanum_iff.2 (.inl (.inl hrng)))

/-- Blanks around a text without any are trimmed. -/
theorem trim_pad {front back : Text} (hfro : ∀ c ∈ front, isWhitespace c = true)
    (hback : ∀ c ∈ back, isWhitespace c = true) (h : Solid t) : trim (front ++ t ++ back) = t := by
  have hdrop : ∀ blank u : Text, (∀ c ∈ blank, isWhitespace c = true) →
      (blank ++ u).dropWhile isWhitespace = u.dropWhile isWhitespace :=
    fun blank u hblk => dropWhile_append_of_pos hblk
  cases t with
  | nil =>
    rw [append_nil, trim, hdrop _ _ hfro, dropWhile_eq_nil_iff.2 hback]
    rfl
  | cons c t =>
    have hfst : ((c :: t) ++ back).dropWhile isWhitespace = (c :: t) ++ back :=
      dropWhile_cons_of_neg (by simp [h c mem_cons_self])
    rw [trim, append_assoc, hdrop _ _ hfro, hfst, reverse_append,
      hdrop _ _ fun d hd => hback d (mem_reverse.1 hd)]
    have hself := h.trim
    rwa [trim, dropWhile_cons_of_neg (by simp [h c mem_cons_self])] at hself

theorem splitWhitespace_of_solid (h : Solid t) (hne : t ≠ []) : splitWhitespace t = [t] := by
  rw [splitWhitespace, splitOnP_eq_singleton h]
  simp [hne]

/-! ## Texts around a character -/

theorem splitOnce_append (h : c ∉ t) (u : Text) :
    splitOnce c (t ++ c :: u) = some (t, u) := by
  have hkept : ∀ x ∈ t, decide (x ≠ c) = true := fun x hx => decide_eq_true fun heq => h (heq ▸ hx)
  rw [splitOnce, if_pos (mem_append_right _ mem_cons_self), takeWhile_append_of_pos hkept,
    dropWhile_append_of_pos hkept]
  simp

theorem splitOnce_eq_some {a b : Text} (h : splitOnce c t = some (a, b)) :
    t = a ++ c :: b ∧ c ∉ a := by
  by_cases hmem : c ∈ t
  · obtain ⟨a', b', rfl, hnot⟩ := eq_append_cons_of_mem hmem
    rw [splitOnce_append hnot] at h
    obtain ⟨rfl, rfl⟩ := Prod.mk.inj (Option.some.inj h)
    exact ⟨rfl, hnot⟩
  · rw [splitOnce, if_neg hmem] at h
    cases h

theorem splitOnce_eq_none : splitOnce c t = none ↔ c ∉ t := by
  by_cases hmem : c ∈ t
  · rw [splitOnce, if_pos hmem]
    exact iff_of_false (Option.some_ne_none _) (not_not.2 hmem)
  · rw [splitOnce, if_neg hmem]
    exact iff_of_true rfl hmem

theorem rsplitOnce_append (t : Text) {u : Text} (h : c ∉ u) :
    rsplitOnce c (t ++ c :: u) = some (t, u) := by
  have hreverse : (t ++ c :: u).reverse = u.reverse ++ c :: t.reverse := by simp
  rw [rsplitOnce, hreverse, splitOnce_append (by simpa using h)]
  simp

theorem rsplitOnce_eq_some {a b : Text} (h : rsplitOnce c t = some (a, b)) :
    t = a ++ c :: b ∧ c ∉ b := by
  obtain ⟨parts, hspl, heq⟩ := Option.map_eq_some_iff.1 h
  obtain ⟨x, y⟩ := parts
  obtain ⟨hreverse, hnot⟩ := splitOnce_eq_some hspl
  obtain ⟨rfl, rfl⟩ := Prod.mk.inj heq
  refine ⟨?_, by simpa using hnot⟩
  rw [← reverse_reverse t, hreverse]
  simp

theorem mem_intercalate {sep : Text} {texts : List Text} (h : c ∈ sep.intercalate texts) :
    c ∈ sep ∨ ∃ t ∈ texts, c ∈ t := by
  induction texts with
  | nil => exact absurd h not_mem_nil
  | cons t texts ih =>
    cases texts with
    | nil =>
      rw [intercalate_singleton] at h
      exact Or.inr ⟨t, mem_cons_self, h⟩
    | cons u texts =>
      rw [intercalate_cons_cons, mem_append, mem_append] at h
      rcases h with (h | h) | h
      · exact Or.inr ⟨t, mem_cons_self, h⟩
      · exact Or.inl h
      · rcases ih h with hsep | ⟨v, hv, hc⟩
        · exact Or.inl hsep
        · exact Or.inr ⟨v, mem_cons_of_mem _ hv, hc⟩

/-! ## Joined texts -/

variable {ts : List Text}

theorem intercalate_cons (t : Text) (h : ts ≠ []) :
    [c].intercalate (t :: ts) = t ++ c :: [c].intercalate ts := by
  cases ts with
  | nil => exact absurd rfl h
  | cons u ts => rw [intercalate_cons_cons, append_assoc, singleton_append]

/-- Lists that are the same up to one place, where a text of the second goes on with a separator
and with what the first has behind that place. -/
def Shifted (c : Char) (ts us : List Text) : Prop :=
  ∃ common t m rest rest', ts = common ++ t :: rest ∧ us = common ++ (t ++ c :: m) :: rest' ∧
    [c].intercalate rest = m ++ c :: [c].intercalate rest'

variable {us : List Text}

theorem Shifted.cons (t : Text) (h : Shifted c ts us) :
    Shifted c (t :: ts) (t :: us) := by
  obtain ⟨common, u, m, rest, rest', rfl, rfl, hrest⟩ := h
  exact ⟨t :: common, u, m, rest, rest', rfl, rfl, hrest⟩

theorem Shifted.intercalate_eq (h : Shifted c ts us) (hlen : ts.length = us.length) :
    [c].intercalate ts = [c].intercalate us := by
  obtain ⟨common, t, m, rest, rest', rfl, rfl, hrest⟩ := h
  induction common with
  | nil =>
    have hne : rest ≠ [] := by
      rintro rfl
      simp at hrest
    have hne' : rest' ≠ [] := by
      rintro rfl
      exact hne (length_eq_zero_iff.1 (by simpa using hlen))
    rw [nil_append, nil_append, intercalate_cons _ hne, intercalate_cons _ hne', hrest]
    simp
  | cons u common ih =>
    rw [cons_append, cons_append, intercalate_cons _ (by simp), intercalate_cons _ (by simp),
      ih (by simpa using hlen)]

/-- Texts that differ only where they hold no separator are not shifted. -/
theorem not_shifted (h : ∀ (i : ℕ) x y, ts[i]? = some x → us[i]? = some y → x = y ∨ c ∉ y) :
    ¬ Shifted c ts us := by
  rintro ⟨common, t, m, rest, rest', rfl, rfl, -⟩
  rcases h common.length t (t ++ c :: m) (by simp) (by simp) with heq | hnot
  · simp at heq
  · exact hnot (by simp)

/-- Texts that join to the same: the same texts, or one list is the other shifted. -/
def JoinAlike (c : Char) (ts us : List Text) : Prop := ts = us ∨ Shifted c ts us ∨ Shifted c us ts

theorem JoinAlike.symm (h : JoinAlike c ts us) : JoinAlike c us ts :=
  h.imp Eq.symm Or.symm

/-- A text in front, which may go on on the right. -/
theorem JoinAlike.cons (t : Text) {more : Text} (h : c :: [c].intercalate ts = more ++ c :: [c].intercalate us)
    (ih : [c].intercalate ts = [c].intercalate us → JoinAlike c ts us) :
    JoinAlike c (t :: ts) ((t ++ more) :: us) := by
  cases more with
  | nil =>
    rw [append_nil]
    rcases ih (cons.inj h).2 with rfl | hshf | hshf
    · exact Or.inl rfl
    · exact Or.inr (Or.inl (hshf.cons t))
    · exact Or.inr (Or.inr (hshf.cons t))
  | cons d m =>
    obtain ⟨rfl, hrest⟩ := cons.inj h
    exact Or.inr (Or.inl ⟨[], t, m, ts, us, rfl, rfl, hrest⟩)

theorem intercalate_eq_iff (hlen : ts.length = us.length) :
    [c].intercalate ts = [c].intercalate us ↔ JoinAlike c ts us := by
  constructor
  · intro h
    induction ts generalizing us with
    | nil => exact Or.inl (length_eq_zero_iff.1 hlen.symm).symm
    | cons t ts ih =>
      cases us with
      | nil => cases hlen
      | cons u us =>
        have hlen' : ts.length = us.length := Nat.succ.inj hlen
        rcases eq_or_ne ts [] with rfl | hne
        · obtain rfl := length_eq_zero_iff.1 hlen'.symm
          rw [intercalate_singleton, intercalate_singleton] at h
          exact Or.inl (by rw [h])
        · have hne' : us ≠ [] := by
            rintro rfl
            exact hne (length_eq_zero_iff.1 hlen')
          rw [intercalate_cons t hne, intercalate_cons u hne'] at h
          rcases append_eq_append_iff.1 h with ⟨more, rfl, hrest⟩ | ⟨more, rfl, hrest⟩
          · exact JoinAlike.cons t hrest (ih hlen')
          · exact (JoinAlike.cons u hrest fun heq => (ih hlen' heq.symm).symm).symm
  · rintro (rfl | hshf | hshf)
    · rfl
    · exact hshf.intercalate_eq hlen
    · exact (hshf.intercalate_eq hlen.symm).symm

/-! ## Words -/

theorem splitWhitespace_append_cons (t u : Text) (hc : isWhitespace c = true) :
    splitWhitespace (t ++ c :: u) = splitWhitespace t ++ splitWhitespace u := by
  rw [splitWhitespace, splitOnP_append_cons t u hc, filter_append]
  rfl

theorem splitWhitespace_of_white (h : ∀ c ∈ t, isWhitespace c = true) : splitWhitespace t = [] := by
  induction t with
  | nil => rfl
  | cons c t ih =>
    have hcons := splitWhitespace_append_cons [] t (h c mem_cons_self)
    rw [nil_append] at hcons
    rw [hcons, ih fun d hd => h d (mem_cons_of_mem _ hd)]
    rfl

theorem splitWhitespace_append_white (t : Text) {u : Text} (h : ∀ c ∈ u, isWhitespace c = true) :
    splitWhitespace (t ++ u) = splitWhitespace t := by
  cases u with
  | nil => rw [append_nil]
  | cons c u =>
    rw [splitWhitespace_append_cons t u (h c mem_cons_self),
      splitWhitespace_of_white fun d hd => h d (mem_cons_of_mem _ hd), append_nil]

theorem splitWhitespace_white_append (u : Text) (h : ∀ c ∈ t, isWhitespace c = true) :
    splitWhitespace (t ++ u) = splitWhitespace u := by
  induction t with
  | nil => rfl
  | cons c t ih =>
    have hcons := splitWhitespace_append_cons [] (t ++ u) (h c mem_cons_self)
    rw [nil_append] at hcons
    rw [cons_append, hcons, ih fun d hd => h d (mem_cons_of_mem _ hd)]
    rfl

theorem splitWhitespace_trim (t : Text) : splitWhitespace (trim t) = splitWhitespace t := by
  have hback : ∀ u : Text, splitWhitespace (u.reverse.dropWhile isWhitespace).reverse = splitWhitespace u := by
    intro u
    have hspl := congrArg reverse (takeWhile_append_dropWhile (p := isWhitespace) (l := u.reverse))
    rw [reverse_append, reverse_reverse] at hspl
    rw [← splitWhitespace_append_white _ (u := (u.reverse.takeWhile isWhitespace).reverse), hspl]
    intro c hc
    exact mem_takeWhile_imp (mem_reverse.1 hc)
  rw [trim, hback]
  have hfro := splitWhitespace_white_append (t := t.takeWhile isWhitespace) (t.dropWhile isWhitespace)
    fun c hc => mem_takeWhile_imp hc
  rw [← hfro, takeWhile_append_dropWhile]

/-- A text without words is blank. -/
theorem splitWhitespace_eq_nil_iff : splitWhitespace t = [] ↔ trim t = [] := by
  constructor
  · intro hnone
    have hwhite : t.dropWhile isWhitespace = [] := by
      have hfro := splitWhitespace_white_append (t.dropWhile isWhitespace) (t := t.takeWhile isWhitespace)
        fun c hc => mem_takeWhile_imp hc
      rw [takeWhile_append_dropWhile, hnone] at hfro
      cases hdrop : t.dropWhile isWhitespace with
      | nil => rfl
      | cons c rest =>
        -- the first character that is no blank starts a word
        have hc := head_dropWhile_not isWhitespace (l := t) (by rw [hdrop]; exact cons_ne_nil _ _)
        simp only [hdrop, head_cons] at hc
        rw [hdrop, splitWhitespace, splitOnP_cons_eq_if_modifyHead, if_neg (by simp [hc])] at hfro
        cases hprt : rest.splitOnP isWhitespace with
        | nil => exact absurd hprt (splitOnP_ne_nil _ _)
        | cons first parts => simp [hprt] at hfro
    rw [trim, hwhite]
    rfl
  · intro hblk
    rw [← splitWhitespace_trim, hblk]
    rfl

/-- Words that are put together with blanks can be read back. -/
theorem splitWhitespace_intercalate {words : List Text} (h : ∀ w ∈ words, Solid w ∧ w ≠ []) :
    splitWhitespace ([' '].intercalate words) = words := by
  induction words with
  | nil => rfl
  | cons w words ih =>
    obtain ⟨hw, hne⟩ := h w mem_cons_self
    cases words with
    | nil => rw [intercalate_singleton, splitWhitespace_of_solid hw hne]
    | cons w' words =>
      have hrest := ih fun v hv => h v (mem_cons_of_mem _ hv)
      rw [intercalate_cons_cons, append_assoc, singleton_append,
        splitWhitespace_append_cons _ _ (by decide), splitWhitespace_of_solid hw hne, hrest]
      rfl

/-! ## Numbers -/

theorem toString_eq_toDigits (n : ℕ) : (toString n).toList = Nat.toDigits 10 n := by
  simp [Nat.toString_eq_repr, Nat.repr]

theorem isDigit_of_mem_toString {n : ℕ} {c : Char} (h : c ∈ (toString n).toList) : c.isDigit = true := by
  rw [toString_eq_toDigits] at h
  exact Nat.isDigit_of_mem_toDigits (by decide) (by decide) h

theorem toString_nat_inj {m n : ℕ} (h : (toString m).toList = (toString n).toList) : m = n := by
  have hval := congrArg (Nat.ofDigitChars 10 · 0) h
  simpa [toString_eq_toDigits] using hval

/-- An integer is its digits, behind a sign if it is below zero. -/
theorem toString_int (v : ℤ) :
    (toString v).toList = (if v < 0 then ['-'] else []) ++ (toString v.natAbs).toList := by
  cases v with
  | ofNat n => rfl
  | negSucc n =>
    rw [if_pos (Int.negSucc_lt_zero n)]
    exact String.toList_append

theorem not_mem_int {c : Char} (hc : c.isDigit = false) (hsign : c ≠ '-') (v : ℤ) : c ∉ (toString v).toList := by
  rw [toString_int, mem_append, not_or]
  refine ⟨by split_ifs <;> simp [hsign], fun hmem => ?_⟩
  rw [isDigit_of_mem_toString hmem] at hc
  cases hc

theorem toString_int_inj {a b : ℤ} (h : toString a = toString b) : a = b := by
  have hprt : (toString a).toList = (toString b).toList := congrArg _ h
  have hsign : ∀ n : ℕ, '-' ∉ (toString n).toList := fun n hmem =>
    absurd (isDigit_of_mem_toString hmem) (by decide)
  rw [toString_int, toString_int] at hprt
  split_ifs at hprt with ha hb hb
  · have habs := toString_nat_inj (cons.inj hprt).2
    omega
  · rw [nil_append] at hprt
    exact absurd (hprt ▸ mem_cons_self) (hsign b.natAbs)
  · rw [nil_append] at hprt
    exact absurd (hprt ▸ mem_cons_self) (hsign a.natAbs)
  · have habs := toString_nat_inj hprt
    omega

/-! ## Lines -/

theorem joinLines_inj {a b : List Text} (ha : ∀ l ∈ a, '\n' ∉ l) (hb : ∀ l ∈ b, '\n' ∉ l) (hane : a ≠ [])
    (hbne : b ≠ []) (h : joinLines a = joinLines b) : a = b := by
  rw [← splitOn_intercalate '\n' ha hane, ← splitOn_intercalate '\n' hb hbne]
  exact congrArg _ h

end Text
