import ProxyNode.Base.Text
import ProxyNode.Spec.FileStore
import ProxyNode.Spec.Rows

/-! The text a row is looked up by. Two keys of the same columns have one text if their fields
render alike, or if a field holds the separator and the fields behind it make up for that. -/

namespace ProxyNode

open Text List

def pkSep : Char := '\x1f'

section

variable {R : Type} [SqlReal R]

def keyTexts (op : ProxyDbOp R) : List Text := op.key.map (·.val.render.toList)

/-- A field of one key goes on with a separator and with what the other key has behind it. -/
def Overlapping (a b : ProxyDbOp R) : Prop :=
  Shifted pkSep (keyTexts a) (keyTexts b) ∨ Shifted pkSep (keyTexts b) (keyTexts a)

variable {a b : ProxyDbOp R}

theorem rowPk_eq_iff (hlen : a.key.length = b.key.length) :
    a.rowPk = b.rowPk ↔ keyTexts a = keyTexts b ∨ Overlapping a b := by
  have htext : ∀ op : ProxyDbOp R, op.rowPk.toList = [pkSep].intercalate (keyTexts op) := by
    intro op
    rw [ProxyDbOp.rowPk, String.toList_intercalate, map_map]
    rfl
  rw [← String.toList_inj, htext, htext, intercalate_eq_iff (by simpa [keyTexts] using hlen)]
  rfl

/-- At one place of two keys stand two fields of them. -/
theorem mem_zip_of_keyTexts {i : ℕ} {x y : Text} (hx : (keyTexts a)[i]? = some x)
    (hy : (keyTexts b)[i]? = some y) :
    ∃ e ∈ a.key.zip b.key, e.1.val.render.toList = x ∧ e.2.val.render.toList = y := by
  obtain ⟨f, hf, rfl⟩ : ∃ f, a.key[i]? = some f ∧ f.val.render.toList = x := by simpa [keyTexts] using hx
  obtain ⟨g, hg, rfl⟩ : ∃ g, b.key[i]? = some g ∧ g.val.render.toList = y := by simpa [keyTexts] using hy
  exact ⟨(f, g), mem_of_getElem? (getElem?_zip_eq_some.2 ⟨hf, hg⟩), rfl, rfl⟩

/-- Where the texts of two keys are the same, so are those of each two fields. -/
theorem render_eq_of_mem_zip (h : keyTexts a = keyTexts b) {e : KeyField R × KeyField R}
    (he : e ∈ a.key.zip b.key) : e.1.val.render = e.2.val.render := by
  obtain ⟨i, hi⟩ := mem_iff_getElem?.1 he
  obtain ⟨hf, hg⟩ := getElem?_zip_eq_some.1 hi
  have hplace := congrArg (·[i]?) h
  simpa [keyTexts, hf, hg, String.toList_inj] using hplace

/-! ## Values -/

variable [DecidableEq R]

/-- One SQL value: equal in SQL, or both `NULL`. -/
def SameValue (a b : Scalar R) : Prop := a = b ∨ sqlEq a b = true
deriving Decidable

def SameKey (a b : ProxyDbOp R) : Prop := List.Forall₂ (fun f g => SameValue f.val g.val) a.key b.key
deriving Decidable

/-- What is known of the texts of reals: there is one to each value, a point or a letter sets it
apart from an integer's, and none holds a separator. -/
structure PlainReals (R : Type) [SqlReal R] : Prop where
  injective : Function.Injective (SqlReal.text (R := R))
  ne_int : ∀ (r : R) (v : ℤ), SqlReal.text r ≠ toString v
  no_sep : ∀ r : R, pkSep ∉ (SqlReal.text r).toList

def SameKind : Scalar R → Scalar R → Prop
  | .null, .null | .int _, .int _ | .real _, .real _ | .text _, .text _ | .blob _, .blob _ => True
  | _, _ => False

/-- The fields render alike, and at one place they are values of different kinds. -/
def Confused (a b : ProxyDbOp R) : Prop :=
  keyTexts a = keyTexts b ∧ ∃ e ∈ a.key.zip b.key, ¬ SameKind e.1.val e.2.val

theorem encodeHex_injective {a b : List Byte} (h : encodeHex a = encodeHex b) : a = b :=
  Option.some.inj (by rw [← decodeHex_encodeHex a, h, decodeHex_encodeHex])

/-- Of two values with one text, those of one kind are one value. -/
theorem sameValue_iff_sameKind {a b : Scalar R} (hreal : PlainReals R) (h : a.render = b.render) :
    SameValue a b ↔ SameKind a b := by
  constructor
  · rintro (rfl | heq)
    · cases a <;> trivial
    · unfold sqlEq at heq
      split at heq
      · cases heq
      · exact absurd h.symm (hreal.ne_int _ _)
      · exact absurd h (hreal.ne_int _ _)
      · rw [of_decide_eq_true heq]
        cases b <;> trivial
  · intro hkind
    refine .inl ?_
    unfold SameKind at hkind
    split at hkind
    · rfl
    · exact congrArg _ (toString_int_inj h)
    · exact congrArg _ (hreal.injective h)
    · exact congrArg _ h
    · exact congrArg _ (encodeHex_injective h)
    · exact hkind.elim

theorem sep_not_mem_int (v : ℤ) : pkSep ∉ (toString v).toList := not_mem_int (by decide) (by decide) v

/-- Values that are the same and render apart are numbers, which hold no separator. -/
theorem SameValue.render {a b : Scalar R} (hreal : PlainReals R) (h : SameValue a b) :
    a.render = b.render ∨ pkSep ∉ a.render.toList ∧ pkSep ∉ b.render.toList := by
  rcases h with rfl | heq
  · exact .inl rfl
  · unfold sqlEq at heq
    split at heq
    · cases heq
    · exact .inr ⟨sep_not_mem_int _, hreal.no_sep _⟩
    · exact .inr ⟨hreal.no_sep _, sep_not_mem_int _⟩
    · exact .inl (by rw [of_decide_eq_true heq])

theorem SameKey.not_overlapping (hreal : PlainReals R) (h : SameKey a b) :
    ¬ Overlapping a b := by
  have hplace : ∀ (i : ℕ) (x y : Text), (keyTexts a)[i]? = some x → (keyTexts b)[i]? = some y →
      x = y ∨ pkSep ∉ x ∧ pkSep ∉ y := by
    intro i x y hx hy
    obtain ⟨⟨f, g⟩, hmem, rfl, rfl⟩ := mem_zip_of_keyTexts hx hy
    exact ((forall₂_iff_zip.1 h).2 hmem).render hreal |>.imp_left fun heq => by rw [heq]
  rintro (hshf | hshf)
  · exact not_shifted (fun i x y hx hy => (hplace i x y hx hy).imp_right And.right) hshf
  · exact not_shifted (fun i x y hx hy => (hplace i y x hy hx).imp Eq.symm And.left) hshf

/-- Keys are unambiguous exactly if they are not confused and do not overlap. -/
theorem unambiguous_iff (hreal : PlainReals R) (hlen : a.key.length = b.key.length) :
    (a.rowPk = b.rowPk → SameKey a b) ↔ ¬ Confused a b ∧ ¬ Overlapping a b := by
  rw [rowPk_eq_iff hlen]
  constructor
  · intro h
    refine ⟨fun ⟨htexts, e, he, hkind⟩ => ?_, fun hover => ?_⟩
    · have hsame := (forall₂_iff_zip.1 (h (.inl htexts))).2 he
      exact hkind ((sameValue_iff_sameKind hreal (render_eq_of_mem_zip htexts he)).1 hsame)
    · exact (h (.inr hover)).not_overlapping hreal hover
  · rintro ⟨hconfused, hover⟩ (htexts | hover')
    · refine forall₂_iff_zip.2 ⟨hlen, fun {f g} hfg => ?_⟩
      refine (sameValue_iff_sameKind hreal (render_eq_of_mem_zip htexts hfg)).2 ?_
      by_contra hkind
      exact hconfused ⟨htexts, (f, g), hfg, hkind⟩
    · exact absurd hover' hover

end

/-! ## Files -/

/-- The entity of the second goes on with a separator and with the start of the first's path. -/
def FileOverlap (a b : FileStoreOp) : Prop :=
  ∃ m, b.entityId.toList = a.entityId.toList ++ pkSep :: m ∧ a.path.toList = m ++ pkSep :: b.path.toList

theorem shifted_pair {c : Char} {e p e' p' : Text} :
    Shifted c [e, p] [e', p'] ↔ ∃ m, e' = e ++ c :: m ∧ p = m ++ c :: p' := by
  constructor
  · rintro ⟨common, t, m, rest, rest', ha, hb, hrest⟩
    cases common with
    | nil =>
      obtain ⟨rfl, rfl⟩ := cons.inj ha
      obtain ⟨rfl, rfl⟩ := cons.inj hb
      exact ⟨m, rfl, by simpa using hrest⟩
    | cons x common =>
      -- nothing is behind the path for a separator to be in
      have hlen := congrArg length ha
      have hnone : rest = [] := length_eq_zero_iff.1 (by simp at hlen; omega)
      rw [hnone] at hrest
      simp at hrest
  · rintro ⟨m, rfl, rfl⟩
    exact ⟨[], e, m, [_], [p'], rfl, rfl, by simp⟩

theorem file_unambiguous_iff (a b : FileStoreOp) :
    (a.rowPk = b.rowPk → a.entityId = b.entityId ∧ a.path = b.path) ↔ ¬ FileOverlap a b ∧ ¬ FileOverlap b a := by
  have htext : ∀ op : FileStoreOp, op.rowPk.toList = [pkSep].intercalate [op.entityId.toList, op.path.toList] := by
    intro op
    rw [FileStoreOp.rowPk, rowPkOf, String.toList_intercalate]
    rfl
  have hiff : a.rowPk = b.rowPk ↔
      [a.entityId.toList, a.path.toList] = [b.entityId.toList, b.path.toList] ∨
        FileOverlap a b ∨ FileOverlap b a := by
    rw [← String.toList_inj, htext, htext, intercalate_eq_iff (by simp), JoinAlike, shifted_pair, shifted_pair]
    rfl
  rw [hiff, ← String.toList_inj, ← String.toList_inj, ← not_or]
  constructor
  · rintro h hover
    obtain ⟨hentity, hpath⟩ := h (.inr hover)
    rcases hover with ⟨m, hm, -⟩ | ⟨m, hm, -⟩
    · rw [hentity] at hm
      simp at hm
    · rw [hentity] at hm
      simp at hm
  · rintro hover (heq | hover')
    · simpa using heq
    · exact absurd hover' hover

/-- Row keys are unambiguous exactly where no two are confused or overlap: keys of a table's
columns, and keys of files. -/
theorem row_keys_unambiguous_iff {R : Type} [SqlReal R] [DecidableEq R] (hreal : PlainReals R) :
    (∀ a b : ProxyDbOp R, a.table = b.table → a.key.map (·.col) = b.key.map (·.col) →
        ((a.rowPk = b.rowPk → SameKey a b) ↔ ¬ Confused a b ∧ ¬ Overlapping a b)) ∧
      ∀ a b : FileStoreOp, (a.rowPk = b.rowPk → a.entityId = b.entityId ∧ a.path = b.path) ↔
        ¬ FileOverlap a b ∧ ¬ FileOverlap b a := by
  refine ⟨fun a b _ hcols => unambiguous_iff hreal ?_, file_unambiguous_iff⟩
  simpa using congrArg List.length hcols

local instance oneReal : SqlReal Unit := ⟨fun _ => "0.5", fun _ => none⟩

theorem plainReals_unit : PlainReals Unit where
  injective _ _ _ := rfl
  ne_int _ v h := by
    have hpt : '.' ∈ "0.5".toList := by decide
    have htext : "0.5" = toString v := h
    exact not_mem_int (by decide) (by decide) v (htext ▸ hpt)
  no_sep _ := (by decide : pkSep ∉ "0.5".toList)

def keyed (values : List (Scalar Unit)) : ProxyDbOp Unit where
  table := "t"
  key := values.map fun v => ⟨"k", v⟩
  mutation := .delete

theorem number_keys_unambiguous :
    ¬ Confused (keyed [.int 1, .real ()]) (keyed [.int 1, .int 2]) ∧
      ¬ Overlapping (keyed [.int 1, .real ()]) (keyed [.int 1, .int 2]) :=
  ((row_keys_unambiguous_iff plainReals_unit).1 (keyed [.int 1, .real ()]) (keyed [.int 1, .int 2]) rfl rfl).1
    fun h => absurd h (by decide)

/-- Keys of different rows with one text: across kinds of values, and over the separator. -/
theorem row_keys_collide :
    (keyed [.int 1]).rowPk = (keyed [.text "1"]).rowPk ∧ (keyed [.null]).rowPk = (keyed [.text ""]).rowPk ∧
      (keyed [.blob [171]]).rowPk = (keyed [.text "ab"]).rowPk ∧
      (keyed [.text "a\x1fb", .text "c"]).rowPk = (keyed [.text "a", .text "b\x1fc"]).rowPk ∧
      (FileStoreOp.mk "a\x1fb" "c" .delete).rowPk = (FileStoreOp.mk "a" "b\x1fc" .delete).rowPk ∧
      ¬ SameKey (keyed [.int 1]) (keyed [.text "1"]) ∧ ¬ SameKey (keyed [.null]) (keyed [.text ""]) ∧
      ¬ SameKey (keyed [.blob [171]]) (keyed [.text "ab"]) ∧
      ¬ SameKey (keyed [.text "a\x1fb", .text "c"]) (keyed [.text "a", .text "b\x1fc"]) := by
  decide

end ProxyNode
