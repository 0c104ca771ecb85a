import ProxyNode.Spec.AskProof

/-! Percent encoding: what is encoded decodes to itself, whatever characters are kept, and holds
no other characters than those and `%`. -/

namespace ProxyNode.OAuth

open Text List

theorem percentEncode_eq (t : Text) : percentEncode t = percentEncodeWith isUnreserved t := rfl

/-! ## Texts and bytes -/

theorem fromUTF8?_encoded (t : Text) :
    String.fromUTF8? ⟨(t.flatMap String.utf8EncodeChar).toArray⟩ = some (String.ofList t) := by
  have hbyt : (⟨(t.flatMap String.utf8EncodeChar).toArray⟩ : ByteArray) = t.utf8Encode :=
    ByteArray.ext data_toByteArray.symm
  rw [hbyt, String.fromUTF8?, dif_pos (.intro t rfl)]
  rfl

theorem hexByte_hexDigit : ∀ n < 16, ∃ b, String.utf8EncodeChar (hexDigit n) = [b] ∧
    hexByte b = some (UInt8.ofNat n) ∧ (hexDigit n).isAlphanum = true := by
  have hall : ∀ n < 16, String.utf8EncodeChar (hexDigit n) = [UInt8.ofNat (hexDigit n).toNat] ∧
      hexByte (UInt8.ofNat (hexDigit n).toNat) = some (UInt8.ofNat n) ∧ (hexDigit n).isAlphanum = true := by
    decide
  exact fun n hn => ⟨_, hall n hn⟩

/-- A byte below 128 is the character it stands for. -/
theorem utf8EncodeChar_ofNat {b : UInt8} (h : b.toNat < 128) :
    String.utf8EncodeChar (Char.ofNat b.toNat) = [b] := by
  have hall : ∀ n < 128, String.utf8EncodeChar (Char.ofNat n) = [UInt8.ofNat n] := by decide +kernel
  rw [hall _ h, UInt8.ofNat_toNat]

/-! ## Decoding -/

theorem percentDecode_cons {b : UInt8} (h : b ≠ 37) (rest : List UInt8) :
    percentDecode (b :: rest) = b :: percentDecode rest := by
  match rest with
  | [] => rfl
  | [_] => rfl
  | _ :: _ :: _ => rw [percentDecode, if_pos h]

variable {keep : Char → Bool}

theorem percentDecode_byte (hkeep : keep '%' = false) (b : UInt8) (rest : List UInt8) :
    percentDecode ((percentEncodeByteWith keep b).flatMap String.utf8EncodeChar ++ rest) =
      b :: percentDecode rest := by
  unfold percentEncodeByteWith
  dsimp only
  split_ifs with hkept
  · rw [Bool.and_eq_true, decide_eq_true_eq] at hkept
    have hpercent : b ≠ 37 := by
      rintro rfl
      exact absurd (hkept.2.symm.trans hkeep) (by decide)
    rw [flatMap_singleton, utf8EncodeChar_ofNat hkept.1, singleton_append, percentDecode_cons hpercent]
  · obtain ⟨high, hhigh, hhighByte, -⟩ := hexByte_hexDigit (b.toNat / 16) (by have := b.toNat_lt; omega)
    obtain ⟨low, hlow, hlowByte, -⟩ := hexByte_hexDigit (b.toNat % 16) (by omega)
    have hval : UInt8.ofNat (b.toNat / 16) * 16 + UInt8.ofNat (b.toNat % 16) = b := by
      have := b.toNat_lt
      apply UInt8.toNat_inj.1
      simp only [UInt8.toNat_add, UInt8.toNat_mul, UInt8.toNat_ofNat', UInt8.reduceToNat]
      omega
    have hpercent : String.utf8EncodeChar '%' = [37] := by decide
    simp only [flatMap_cons, flatMap_nil, append_nil, hpercent, hhigh, hlow, cons_append,
      nil_append]
    rw [percentDecode, if_neg (by simp), hhighByte, hlowByte]
    dsimp only
    rw [hval]

theorem percentDecode_bytes (hkeep : keep '%' = false) (bytes : List UInt8) :
    percentDecode ((bytes.flatMap (percentEncodeByteWith keep)).flatMap String.utf8EncodeChar) = bytes := by
  induction bytes with
  | nil => rfl
  | cons b bytes ih => rw [flatMap_cons, flatMap_append, percentDecode_byte hkeep, ih]

theorem percentDecodeText_encode (hkeep : keep '%' = false) (t : Text) :
    percentDecodeText (percentEncodeWith keep t) = some t := by
  rw [percentDecodeText, percentEncodeWith, percentDecode_bytes hkeep, fromUTF8?_encoded, Option.map_some,
    String.toList_ofList]

/-! ## The characters of an encoded text -/

theorem mem_percentEncodeWith {t : Text} {c : Char} (h : c ∈ percentEncodeWith keep t) :
    c = '%' ∨ c.isAlphanum = true ∨ keep c = true := by
  obtain ⟨b, -, hc⟩ := mem_flatMap.1 h
  unfold percentEncodeByteWith at hc
  dsimp only at hc
  split_ifs at hc with hkept
  · rw [Bool.and_eq_true] at hkept
    rw [mem_singleton.1 hc]
    exact .inr (.inr hkept.2)
  · simp only [mem_cons, not_mem_nil, or_false] at hc
    rcases hc with rfl | rfl | rfl
    · exact .inl rfl
    · obtain ⟨-, -, -, hdigit⟩ := hexByte_hexDigit (b.toNat / 16) (by have := b.toNat_lt; omega)
      exact .inr (.inl hdigit)
    · obtain ⟨-, -, -, hdigit⟩ := hexByte_hexDigit (b.toNat % 16) (by omega)
      exact .inr (.inl hdigit)

end ProxyNode.OAuth
