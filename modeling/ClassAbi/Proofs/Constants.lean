import ClassAbi.ClassFile.Constant

/-!
# Integer constants and their kinds

The class file keeps an integer constant as a 32-bit number and loses its kind.
An annotation value has the kind beside it, as a tag.  A field has it in the
first byte of its descriptor.  `Constant.FitsField` says that a constant is one
that a field with some descriptor can have.
-/

namespace ClassAbi

namespace Constant

/-- The low half of a number, with the sign that it has on its own. -/
theorem toInt32_lowHalf (v : Int64) : v.toUInt64.toUInt32.toInt32 = v.toInt32 := by
  apply Int32.toBitVec_inj.mp
  exact (BitVec.signExtend_eq_setWidth_of_le (v := 32) v.toBitVec (by decide)).symm

/-! ## Kinds by tag -/

/-- The number that the class file keeps and the tag give the constant back. -/
theorem ofIntegerTag?_intValue {c : Constant} (h : c.isInteger = true) :
    ofIntegerTag? c.tag c.intValue = some c := by
  cases c with
  | boolean v => cases v <;> rfl
  | byte v => exact congrArg (some ∘ byte) (by simp [intValue, bits, toInt32_lowHalf])
  | char v => exact congrArg (some ∘ char) (UInt16.toNat_inj.mp (by simp [intValue, bits]))
  | short v => exact congrArg (some ∘ short) (by simp [intValue, bits, toInt32_lowHalf])
  | int v => exact congrArg (some ∘ int) (by simp [intValue, bits, toInt32_lowHalf])
  | _ => cases h

/-- A constant made of a tag and a number is of an integer kind and has the tag. -/
theorem tag_of_ofIntegerTag? {tag : UInt8} {v : Int32} {c : Constant}
    (h : ofIntegerTag? tag v = some c) : c.tag = tag ∧ c.isInteger = true := by
  unfold ofIntegerTag? at h
  repeat' split at h
  all_goals cases h
  all_goals exact ⟨(beq_iff_eq.mp ‹_›).symm, rfl⟩

/-- Whether a tag makes a constant does not depend on the number. -/
theorem isSome_ofIntegerTag? (tag : UInt8) (v w : Int32) :
    (ofIntegerTag? tag v).isSome = (ofIntegerTag? tag w).isSome := by
  simp only [ofIntegerTag?, apply_ite Option.isSome, Option.isSome_some]

/-! ## Kinds by descriptor -/

/-- The tag of the integer constants that a field with this descriptor has: the
first byte where that names an integer kind, and otherwise that of `int`. -/
def fieldTag : Text → UInt8
  | [] => 73
  | x :: _ => if x = 90 ∨ x = 66 ∨ x = 67 ∨ x = 83 then x else 73

/-- A field with this descriptor can have the constant as its initial value.  No
field has a class literal, and an integer has the kind that the descriptor
prescribes. -/
structure FitsField (descriptor : Text) (c : Constant) : Prop where
  /-- The constant is no class literal. -/
  noClass : ∀ d, c ≠ classLiteral d
  /-- The kind of an integer is that of the field. -/
  integer : c.isInteger = true → c.tag = fieldTag descriptor

theorem ofFieldInteger_eq (descriptor : Text) (v : Int32) :
    ofIntegerTag? (fieldTag descriptor) v = some (ofFieldInteger descriptor v) := by
  cases descriptor with
  | nil => rfl
  | cons x rest =>
    by_cases h : x = 90 ∨ x = 66 ∨ x = 67 ∨ x = 83
    · rcases h with rfl | rfl | rfl | rfl <;> rfl
    · have : ofFieldInteger (x :: rest) v = int v := by
        rw [not_or, not_or, not_or] at h
        obtain ⟨h1, h2, h3, h4⟩ := h
        by_cases h5 : x = 73 <;>
          simp [ofFieldInteger, ofIntegerTag?, h1, h2, h3, h4, h5]
      rw [this, fieldTag, if_neg h]
      rfl

theorem ofFieldInteger_intValue {descriptor : Text} {c : Constant} (fits : c.FitsField descriptor)
    (h : c.isInteger = true) : ofFieldInteger descriptor c.intValue = c := by
  have := ofFieldInteger_eq descriptor c.intValue
  rw [← fits.integer h, ofIntegerTag?_intValue h] at this
  exact (Option.some.inj this).symm

theorem fitsField_ofFieldInteger (descriptor : Text) (v : Int32) :
    (ofFieldInteger descriptor v).FitsField descriptor := by
  obtain ⟨tag, integer⟩ := tag_of_ofIntegerTag? (ofFieldInteger_eq descriptor v)
  refine ⟨fun d h => ?_, fun _ => tag⟩
  rw [h] at integer
  cases integer

end Constant

end ClassAbi
