import Mathlib.Data.Fin.Basic
import Mathlib.Data.List.Basic
import Mathlib.Data.List.Lex
import Mathlib.Data.ZMod.Defs
import Mathlib.Order.Fin.Basic
import Mathlib.Tactic.NormNum
import Mathlib.Tactic.Tauto

/-! Byte strings and the self-delimiting encodings built from them: fixed-width
strings, base-128 varints of at most ten bytes, length-prefixed strings and
words of either byte order. Every reader takes its value off the front of a byte string and
returns the rest, so that a record is read by chaining readers. -/

abbrev Byte := Fin 256

abbrev Bytes (n : ℕ) := {l : List Byte // l.length = n}

instance Byte.neZero : NeZero 256 := ⟨by decide⟩

instance Word64.neZero : NeZero (2 ^ 64) := ⟨by decide⟩

instance Bytes.lawfulBEq : LawfulBEq (Bytes 32) := inferInstance

namespace Wire

open List

def byte (n : ℕ) : Byte := Fin.ofNat 256 n

@[simp] theorem byte_val (n : ℕ) : (byte n).val = n % 256 := rfl

variable {n : ℕ}

theorem byte_val_of_lt (h : n < 256) : (byte n).val = n := Nat.mod_eq_of_lt h

/-- A 64-bit word, most significant byte first. -/
def be64 (n : ℕ) : List Byte := (List.range 8).reverse.map fun i => byte (n / 256 ^ i)

@[simp] theorem length_be64 (n : ℕ) : (be64 n).length = 8 := rfl

/-- The low `k` bytes of a number, most significant first. -/
def be (k n : ℕ) : List Byte := (List.range k).reverse.map fun i => byte (n / 256 ^ i)

@[simp] theorem length_be (k n : ℕ) : (be k n).length = k := by simp [be]

theorem be_succ (k n : ℕ) : be (k + 1) n = byte (n / 256 ^ k) :: be k n := by
  rw [be, range_succ, reverse_append]
  rfl

def beVal : List Byte → ℕ
  | [] => 0
  | b :: l => b.val * 256 ^ l.length + beVal l

theorem beVal_be (k n : ℕ) : beVal (be k n) = n % 256 ^ k := by
  induction k with
  | zero => simp [be, beVal, Nat.mod_one]
  | succ k ih => rw [be_succ, beVal, ih, length_be, byte_val, Nat.mod_pow_succ, Nat.mul_comm, Nat.add_comm]

theorem beVal_be64 (n : Fin (2 ^ 64)) : beVal (be64 n.val) = n.val :=
  (beVal_be 8 n.val).trans (Nat.mod_eq_of_lt n.isLt)

theorem be64_injective : Function.Injective fun n : Fin (2 ^ 64) => be64 n.val :=
  fun a b h => Fin.ext <| by
    rw [← beVal_be64 a, ← beVal_be64 b]
    exact congrArg beVal h

theorem beVal_lt (l : List Byte) : beVal l < 256 ^ l.length := by
  induction l with
  | nil => simp [beVal]
  | cons b l ih =>
    have hb : (b.val + 1) * 256 ^ l.length ≤ 256 * 256 ^ l.length := Nat.mul_le_mul_right _ b.isLt
    rw [beVal, length_cons, pow_succ']
    rw [Nat.succ_mul] at hb
    omega

variable {b : Byte} {l r : List Byte}

theorem beVal_lt_of_head {c : Byte} (h : l.length = r.length) (hbc : b < c) :
    beVal (b :: l) < beVal (c :: r) := by
  have hl := beVal_lt l
  have hstep := Nat.mul_le_mul_right (256 ^ r.length) (Nat.succ_le_of_lt (Fin.lt_def.1 hbc))
  rw [Nat.succ_mul] at hstep
  rw [beVal, beVal, h]
  rw [h] at hl
  omega

/-- Byte strings of one length are ordered as the numbers they spell. -/
theorem lt_iff_beVal_lt (h : l.length = r.length) : l < r ↔ beVal l < beVal r := by
  induction l generalizing r with
  | nil =>
    obtain rfl := length_eq_zero_iff.1 h.symm
    simp [beVal]
  | cons b l ih =>
    cases r with
    | nil => simp at h
    | cons c r =>
      have hlen : l.length = r.length := Nat.succ.inj h
      rw [cons_lt_cons_iff, ih hlen]
      rcases lt_trichotomy b c with hbc | rfl | hbc
      · exact iff_of_true (Or.inl hbc) (beVal_lt_of_head hlen hbc)
      · simp [beVal, hlen]
      · have hgt := beVal_lt_of_head hlen.symm hbc
        refine iff_of_false ?_ hgt.asymm
        rintro (hlt | ⟨rfl, -⟩)
        · exact absurd hlt hbc.asymm
        · exact absurd hbc (lt_irrefl _)

/-- Of two strings, the first parts of one length decide, then the rest. -/
theorem append_lt_append_iff {x y : List Byte} (h : l.length = r.length) :
    l ++ x < r ++ y ↔ l < r ∨ l = r ∧ x < y := by
  induction l generalizing r with
  | nil =>
    obtain rfl := length_eq_zero_iff.1 h.symm
    simp
  | cons b l ih =>
    cases r with
    | nil => simp at h
    | cons c r =>
      rw [cons_append, cons_append, cons_lt_cons_iff, cons_lt_cons_iff,
        ih (Nat.succ.inj h), cons.injEq]
      tauto

def fill (n : ℕ) (b : Byte) : Bytes n := ⟨List.replicate n b, List.length_replicate⟩

/-! ## Readers -/

def takeBytes (n : ℕ) (l : List Byte) : Option (List Byte × List Byte) :=
  if n ≤ l.length then some (l.take n, l.drop n) else none

theorem takeBytes_append (l r : List Byte) : takeBytes l.length (l ++ r) = some (l, r) := by
  simp [takeBytes]

theorem takeBytes_eq_some {a : List Byte} :
    takeBytes n l = some (a, r) ↔ l = a ++ r ∧ a.length = n := by
  unfold takeBytes
  split_ifs with h
  · rw [Option.some.injEq, Prod.mk.injEq]
    constructor
    · rintro ⟨rfl, rfl⟩
      exact ⟨(take_append_drop n l).symm, length_take_of_le h⟩
    · rintro ⟨rfl, rfl⟩
      simp
  · constructor
    · intro hn
      cases hn
    · rintro ⟨rfl, rfl⟩
      simp at h

/-- Base-128 digits of `n`, least significant first, in at most `k` bytes. -/
def varintIn : ℕ → ℕ → List Byte
  | 0, _ => []
  | k + 1, n => if n < 128 then [byte n] else byte (n % 128 + 128) :: varintIn k (n / 128)

/-- An unsigned 64-bit value as a varint: ten bytes always suffice. -/
def varint (n : ℕ) : List Byte := varintIn 10 n

/-- Read a varint of at most `k` bytes whose last byte carries at most `last`.
Overlong forms pass. -/
def takeVarintIn (last : ℕ) : ℕ → List Byte → Option (ℕ × List Byte)
  | 0, _ => none
  | _ + 1, [] => none
  | k + 1, b :: bs =>
    if b.val < 128 then
      if k = 0 ∧ last < b.val then none else some (b.val, bs)
    else (takeVarintIn last k bs).map fun p => (b.val - 128 + 128 * p.1, p.2)

def takeVarint64 : List Byte → Option (ℕ × List Byte) := takeVarintIn 1 10

def takeVarint32 : List Byte → Option (ℕ × List Byte) := takeVarintIn 15 5

variable {last k : ℕ}

theorem takeVarintIn_varintIn (r : List Byte) (hl : last < 128) (hn : n < (last + 1) * 128 ^ k) (j : ℕ) :
    takeVarintIn last (k + 1) (varintIn (k + 1 + j) n ++ r) = some (n, r) := by
  induction k generalizing n with
  | zero =>
    have h1 : n < last + 1 := by simpa using hn
    have hv := byte_val_of_lt (show n < 256 by omega)
    rw [show 0 + 1 + j = j + 1 by omega, varintIn]
    simp only [if_pos (show n < 128 by omega), singleton_append, takeVarintIn, hv]
    rw [if_neg (by omega)]
  | succ k ih =>
    rw [show k + 1 + 1 + j = k + 1 + j + 1 by omega, varintIn]
    split_ifs with h
    · have hv := byte_val_of_lt (show n < 256 by omega)
      simp only [singleton_append, takeVarintIn, hv, if_pos h]
      rw [if_neg (by omega)]
    · have hv := byte_val_of_lt (show n % 128 + 128 < 256 by omega)
      have hd : n / 128 < (last + 1) * 128 ^ k := by
        rw [pow_succ, ← Nat.mul_assoc] at hn
        exact Nat.div_lt_of_lt_mul (by rwa [Nat.mul_comm])
      rw [cons_append, takeVarintIn, hv, if_neg (by omega), ih hd]
      simp only [Option.map_some, Option.some.injEq, Prod.mk.injEq, and_true]
      omega

theorem takeVarint64_varint (hn : n < 2 ^ 64) (r : List Byte) :
    takeVarint64 (varint n ++ r) = some (n, r) :=
  takeVarintIn_varintIn r (by decide) (lt_of_lt_of_le hn (by norm_num)) 0

/-- A varint that is not padded with digits of no weight. -/
def Shortest (p : List Byte) : Prop := p.getLast? ≠ some 0 ∨ p = [0]

/-- A varint as it was read, up to its last digit: when it is zero, and when it is the written form. -/
structure ReadAs (last k n : ℕ) (p : List Byte) : Prop where
  reads : takeVarintIn last k p = some (n, [])
  zero : n = 0 → p.getLast? = some 0
  single : p = [0] → n = 0
  form : p = varintIn k n ↔ Shortest p

theorem ReadAs.final (hb : b.val < 128) (hlast : ¬ (k = 0 ∧ last < b.val)) :
    ReadAs last (k + 1) b.val [b] where
  reads := by rw [takeVarintIn, if_pos hb, if_neg hlast]
  zero hz := by
    rw [show b = 0 from Fin.ext hz]
    rfl
  single hz := by
    rw [(cons.inj hz).1]
    rfl
  form := by
    rw [varintIn, if_pos hb, show byte b.val = b from Fin.ext (byte_val_of_lt b.isLt)]
    refine iff_of_true rfl ?_
    by_cases hz : b = 0
    · exact Or.inr (by rw [hz])
    · exact Or.inl (by simpa using hz)

theorem ReadAs.cons {m : ℕ} {q : List Byte} (h : ReadAs last k m q) (hb : ¬ b.val < 128) :
    ReadAs last (k + 1) (b.val - 128 + 128 * m) (b :: q) := by
  have hq : q ≠ [] := by
    rintro rfl
    have hread := h.reads
    cases k <;> cases hread
  have hblt := b.isLt
  have hlast : (b :: q).getLast? = q.getLast? := getLast?_cons_of_ne_nil hq
  have hnot : b :: q ≠ [0] := fun hbq => hq (cons.inj hbq).2
  refine ⟨?_, fun hz => ?_, fun hbq => absurd hbq hnot, ?_⟩
  · rw [takeVarintIn, if_neg hb, h.reads]
    rfl
  · rw [hlast]
    exact h.zero (by omega)
  · rw [Shortest, hlast, or_iff_left hnot, varintIn]
    by_cases hm : m = 0
    · rw [if_pos (by omega)]
      exact iff_of_false (fun hbq => hq (cons.inj hbq).2) fun hne => hne (h.zero hm)
    · rw [if_neg (by omega), show (b.val - 128 + 128 * m) / 128 = m by omega,
        show (b.val - 128 + 128 * m) % 128 + 128 = b.val by omega,
        show byte b.val = b from Fin.ext (byte_val_of_lt hblt), cons.injEq, and_iff_right rfl, h.form,
        Shortest, or_iff_left fun hq0 => hm (h.single hq0)]

/-- What a varint was read from: the bytes in front of the rest, which are the written form if
they are the shortest one. -/
theorem takeVarintIn_spec (h : takeVarintIn last k l = some (n, r)) :
    ∃ p, l = p ++ r ∧ ReadAs last k n p := by
  induction k generalizing n l with
  | zero => cases h
  | succ k ih =>
    cases l with
    | nil => cases h
    | cons b bs =>
      rw [takeVarintIn] at h
      by_cases hb : b.val < 128
      · rw [if_pos hb] at h
        split_ifs at h with hlast
        obtain ⟨rfl, rfl⟩ := Prod.mk.inj (Option.some.inj h)
        exact ⟨[b], rfl, .final hb hlast⟩
      · rw [if_neg hb] at h
        obtain ⟨⟨m, r'⟩, hrest, heq⟩ := Option.map_eq_some_iff.1 h
        obtain ⟨rfl, rfl⟩ := Prod.mk.inj heq
        obtain ⟨q, rfl, hread⟩ := ih hrest
        exact ⟨b :: q, rfl, hread.cons hb⟩

variable {p : List Byte}

theorem takeVarintIn_append (h : takeVarintIn last k p = some (n, [])) (r : List Byte) :
    takeVarintIn last k (p ++ r) = some (n, r) := by
  induction k generalizing n p with
  | zero => cases h
  | succ k ih =>
    cases p with
    | nil => cases h
    | cons b bs =>
      rw [takeVarintIn] at h
      rw [cons_append, takeVarintIn]
      by_cases hb : b.val < 128
      · rw [if_pos hb] at h ⊢
        split_ifs at h ⊢ with hlast
        obtain ⟨rfl, rfl⟩ := Prod.mk.inj (Option.some.inj h)
        rfl
      · rw [if_neg hb] at h ⊢
        obtain ⟨⟨m, r'⟩, hrest, heq⟩ := Option.map_eq_some_iff.1 h
        obtain ⟨rfl, rfl⟩ := Prod.mk.inj heq
        rw [ih hrest]
        rfl

theorem takeVarintIn_lt (h : takeVarintIn last (k + 1) l = some (n, r)) :
    n < (last + 1) * 128 ^ k := by
  induction k generalizing n l with
  | zero =>
    cases l with
    | nil => cases h
    | cons b bs =>
      rw [takeVarintIn] at h
      split_ifs at h with hb hlast
      · obtain ⟨rfl, rfl⟩ := Prod.mk.inj (Option.some.inj h)
        simp only [true_and, not_lt] at hlast
        omega
      · cases h
  | succ k ih =>
    cases l with
    | nil => cases h
    | cons b bs =>
      rw [takeVarintIn] at h
      split_ifs at h with hb hlast
      · obtain ⟨rfl, rfl⟩ := Prod.mk.inj (Option.some.inj h)
        calc b.val < 128 := hb
          _ ≤ (last + 1) * 128 ^ (k + 1) :=
            le_trans (Nat.le_self_pow (Nat.succ_ne_zero k) 128) (Nat.le_mul_of_pos_left _ (Nat.succ_pos last))
      · obtain ⟨⟨m, r'⟩, hrest, heq⟩ := Option.map_eq_some_iff.1 h
        obtain ⟨rfl, rfl⟩ := Prod.mk.inj heq
        have hm := ih hrest
        have hblt := b.isLt
        dsimp only
        rw [pow_succ, ← Nat.mul_assoc]
        omega

theorem takeVarint64_lt (h : takeVarint64 l = some (n, r)) : n < 2 ^ 64 :=
  lt_of_lt_of_le (takeVarintIn_lt h) (by norm_num)

/-- Of the forms of a number the shortest is the written one. -/
theorem takeVarint64_form (h : takeVarint64 p = some (n, [])) :
    p = varint n ↔ Shortest p := by
  obtain ⟨p', hp, -, -, -, hform⟩ := takeVarintIn_spec h
  rw [append_nil] at hp
  rw [hp]
  exact hform

def blob (l : List Byte) : List Byte := varint l.length ++ l

def takeBlob (l : List Byte) : Option (List Byte × List Byte) :=
  (takeVarint64 l).bind fun p => takeBytes p.1 p.2

theorem takeBlob_blob (hl : l.length < 2 ^ 64) (r : List Byte) :
    takeBlob (blob l ++ r) = some (l, r) := by
  rw [takeBlob, blob, append_assoc, takeVarint64_varint hl]
  exact takeBytes_append l r

/-- A length in any of its forms, and the string behind it. -/
theorem takeBlob_form (h : takeVarint64 p = some (l.length, [])) (r : List Byte) :
    takeBlob (p ++ (l ++ r)) = some (l, r) := by
  rw [takeBlob, takeVarint64, takeVarintIn_append h]
  exact takeBytes_append l r

theorem takeBlob_spec {bytes : List Byte} (h : takeBlob bytes = some (l, r)) :
    ∃ p, bytes = p ++ (l ++ r) ∧ takeVarint64 p = some (l.length, []) := by
  obtain ⟨⟨n, rest⟩, hlen, htake⟩ := Option.bind_eq_some_iff.1 h
  obtain ⟨p, rfl, hp, -⟩ := takeVarintIn_spec hlen
  obtain ⟨rfl, rfl⟩ := takeBytes_eq_some.1 htake
  exact ⟨p, rfl, hp⟩

theorem length_varintIn_le (k n : ℕ) : (varintIn k n).length ≤ k := by
  induction k generalizing n with
  | zero => exact le_rfl
  | succ k ih =>
    rw [varintIn]
    split_ifs with h
    · exact Nat.succ_le_succ (Nat.zero_le k)
    · exact Nat.succ_le_succ (ih (n / 128))

theorem length_blob_le (l : List Byte) : (blob l).length ≤ 10 + l.length := by
  rw [blob, length_append]
  exact Nat.add_le_add_right (length_varintIn_le 10 l.length) l.length

def bool (b : Bool) : Byte := if b then 1 else 0

def takeBool : List Byte → Option (Bool × List Byte)
  | [] => none
  | b :: bs => if b = 0 then some (false, bs) else if b = 1 then some (true, bs) else none

theorem takeBool_bool (b : Bool) (r : List Byte) : takeBool (bool b :: r) = some (b, r) := by
  cases b <;> rfl

section Sequence

variable {α : Type*} (read : List Byte → Option (α × List Byte))

def takeMany : ℕ → List Byte → Option (List α × List Byte)
  | 0, bytes => some ([], bytes)
  | n + 1, bytes => (read bytes).bind fun p => (takeMany n p.2).map fun q => (p.1 :: q.1, q.2)

variable {read}

theorem takeMany_flatMap {write : α → List Byte} {l : List α}
    (h : ∀ a ∈ l, ∀ r, read (write a ++ r) = some (a, r)) (r : List Byte) :
    takeMany read l.length (l.flatMap write ++ r) = some (l, r) := by
  induction l with
  | nil => rfl
  | cons a l ih =>
    obtain ⟨ha, hl⟩ := forall_mem_cons.1 h
    rw [length_cons, flatMap_cons, append_assoc, takeMany, ha, Option.bind_some, ih hl]
    rfl

end Sequence

/-- Ends in `z` and has it nowhere else. -/
def Terminated (z : Byte) (l : List Byte) : Prop := ∃ body, z ∉ body ∧ l = body ++ [z]

/-- Terminated strings in front of others are told apart. -/
theorem Terminated.append_inj {z : Byte} {a b x y : List Byte} (ha : Terminated z a) (hb : Terminated z b)
    (h : a ++ x = b ++ y) : a = b ∧ x = y := by
  obtain ⟨a, hza, rfl⟩ := ha
  obtain ⟨b, hzb, rfl⟩ := hb
  induction a generalizing b with
  | nil =>
    cases b with
    | nil => exact ⟨rfl, by simpa using h⟩
    | cons c b =>
      obtain ⟨rfl, -⟩ := cons.inj h
      exact absurd mem_cons_self hzb
  | cons c a ih =>
    cases b with
    | nil =>
      obtain ⟨rfl, -⟩ := cons.inj h
      exact absurd mem_cons_self hza
    | cons d b =>
      obtain ⟨rfl, htail⟩ := cons.inj h
      have hza' : z ∉ a := fun hz => hza (mem_cons_of_mem _ hz)
      have hzb' : z ∉ b := fun hz => hzb (mem_cons_of_mem _ hz)
      obtain ⟨hab, hxy⟩ := ih hza' b hzb' htail
      exact ⟨congrArg (c :: ·) hab, hxy⟩

/-! ## Little-endian words -/

/-- The four little-endian bytes of `n` taken modulo `2 ^ 32`. -/
def le32 (n : ℕ) : List Byte :=
  [byte n, byte (n / 256), byte (n / 256 ^ 2), byte (n / 256 ^ 3)]

def ofLe32 : List Byte → ℕ
  | [a, b, c, d] => a.val + 256 * b.val + 256 ^ 2 * c.val + 256 ^ 3 * d.val
  | _ => 0

@[simp] theorem le32_length (n : ℕ) : (le32 n).length = 4 := rfl

theorem ofLe32_le32 (n : ℕ) : ofLe32 (le32 n) = n % 2 ^ 32 := by
  simp only [le32, ofLe32, byte_val]
  norm_num
  omega

/-- The length of the padded base64 text of `n` bytes. -/
def base64Length (n : ℕ) : ℕ := 4 * ((n + 2) / 3)

/-! ## UTF-8 -/

def continuation (b : Byte) : Bool := 128 ≤ b.val ∧ b.val < 192

/-- Well-formed UTF-8: no overlong form, no surrogate, nothing above `U+10FFFF`. -/
def validUtf8 : List Byte → Bool
  | [] => true
  | a :: r =>
    if a.val < 0x80 then validUtf8 r
    else match r with
      | b :: r =>
        if 0xC2 ≤ a.val ∧ a.val ≤ 0xDF then continuation b && validUtf8 r
        else match r with
          | c :: r =>
            if 0xE0 ≤ a.val ∧ a.val ≤ 0xEF then
              continuation b && continuation c && (a.val != 0xE0 || 0xA0 ≤ b.val) &&
                (a.val != 0xED || b.val ≤ 0x9F) && validUtf8 r
            else match r with
              | d :: r =>
                decide (0xF0 ≤ a.val ∧ a.val ≤ 0xF4) && continuation b && continuation c &&
                  continuation d && (a.val != 0xF0 || 0x90 ≤ b.val) &&
                  (a.val != 0xF4 || b.val ≤ 0x8F) && validUtf8 r
              | [] => false
          | [] => false
      | [] => false

theorem validUtf8_ascii (h : ∀ b ∈ l, b.val < 128) : validUtf8 l = true := by
  induction l with
  | nil => rfl
  | cons a r ih =>
    unfold validUtf8
    rw [if_pos (h a mem_cons_self)]
    exact ih fun b hb => h b (mem_cons_of_mem _ hb)

end Wire
