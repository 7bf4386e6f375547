import ClassAbi.ClassFile.ConstantTable
import ClassAbi.Proofs.Chains

/-!
# Looking up in a growing table

While a class is written, its constant pool grows.  An index that has an entry
keeps it, so what is found in a table is found in every table it is `Within`.
All that is written is described by what its indexes refer to in the final
table, and nothing has to be said again when the pool grows.

Entries that nothing can refer to do not count.  So a table also stays `Within`
another one that has anything in their place.
-/

namespace ClassAbi

/-- A declaration can refer to the entry. -/
def TableEntry.Referable : TableEntry → Prop
  | unusable | other _ => False
  | _ => True

namespace ConstantTable

/-- Every entry of `t` that a declaration can refer to is one of `u`, with the same index. -/
def Within (t u : ConstantTable) : Prop :=
  ∀ index e, e.Referable → t.entryAt index = .ok e → u.entryAt index = .ok e

namespace Within

theorem refl (t : ConstantTable) : t.Within t := fun _ _ _ h => h

theorem trans {t u v : ConstantTable} (h : t.Within u) (h' : u.Within v) : t.Within v :=
  fun index e referable found => h' index e referable (h index e referable found)

end Within

/-! ## Entries by index -/

theorem entryAt_eq_ok {t : ConstantTable} {index : UInt16} {e : TableEntry} :
    t.entryAt index = .ok e ↔ index ≠ 0 ∧ t[index.toNat]? = some e := by
  rw [entryAt]
  split
  · next zero =>
    constructor
    · intro h
      cases h
    · rintro ⟨h, -⟩
      exact absurd (beq_iff_eq.mp zero) h
  · next nonzero =>
    have index_ne : index ≠ 0 := fun h => nonzero (beq_iff_eq.mpr h)
    cases found : t[index.toNat]? with
    | none => simp
    | some e' => simp [index_ne]

theorem within_append (t : ConstantTable) (more : Array TableEntry) : t.Within (t ++ more) := by
  intro index e _ found
  obtain ⟨nonzero, found⟩ := entryAt_eq_ok.mp found
  refine entryAt_eq_ok.mpr ⟨nonzero, ?_⟩
  have lt : index.toNat < t.size := by
    rw [Array.getElem?_eq_some_iff] at found
    exact found.1
  rw [Array.getElem?_append_left lt, found]

/-! ## Texts, classes and numbers by index -/

theorem utf8At_eq_ok {t : ConstantTable} {index : UInt16} {value : Text} :
    t.utf8At index = .ok value ↔ t.entryAt index = .ok (.utf8 value) := by
  rw [utf8At, bind_eq_ok]
  constructor
  · rintro ⟨e, found, h⟩
    cases e <;> cases h
    exact found
  · intro found
    exact ⟨_, found, rfl⟩

theorem classNameAt_eq_ok {t : ConstantTable} {index : UInt16} {name : Text} :
    t.classNameAt index = .ok name ↔
      ∃ i, t.entryAt index = .ok (.classRef i) ∧ t.utf8At i = .ok name := by
  rw [classNameAt, bind_eq_ok]
  constructor
  · rintro ⟨e, found, h⟩
    cases e <;> try cases h
    exact ⟨_, found, h⟩
  · rintro ⟨i, found, h⟩
    exact ⟨_, found, h⟩

section Within

variable {t u : ConstantTable} {index : UInt16}

/-- A lookup that depends on the entry alone finds the same in a larger table. -/
theorem Within.lookup {α : Type} {pick : TableEntry → Except ReadError α} {a : α}
    (h : t.Within u) (picks : ∀ e, pick e = .ok a → e.Referable)
    (found : t.entryAt index >>= pick = .ok a) : u.entryAt index >>= pick = .ok a := by
  obtain ⟨e, entry, picked⟩ := bind_eq_ok.mp found
  exact bind_eq_ok.mpr ⟨e, h _ _ (picks e picked) entry, picked⟩

theorem Within.utf8At (h : t.Within u) {value : Text} (found : t.utf8At index = .ok value) :
    u.utf8At index = .ok value :=
  utf8At_eq_ok.mpr (h _ _ trivial (utf8At_eq_ok.mp found))

theorem Within.classNameAt (h : t.Within u) {name : Text}
    (found : t.classNameAt index = .ok name) : u.classNameAt index = .ok name := by
  obtain ⟨i, entry, name⟩ := classNameAt_eq_ok.mp found
  exact classNameAt_eq_ok.mpr ⟨i, h _ _ trivial entry, h.utf8At name⟩

theorem Within.constantAt (h : t.Within u) {descriptor : Text} {c : Constant}
    (found : t.constantAt descriptor index = .ok c) : u.constantAt descriptor index = .ok c := by
  obtain ⟨e, entry, picked⟩ := bind_eq_ok.mp found
  have referable : e.Referable := by cases e <;> trivial
  refine bind_eq_ok.mpr ⟨e, h _ _ referable entry, ?_⟩
  cases e with
  | string i =>
    obtain ⟨value, text, picked⟩ := bind_eq_ok.mp picked
    exact bind_eq_ok.mpr ⟨value, h.utf8At text, picked⟩
  | _ => exact picked

end Within

/-! ## Constants of annotation values -/

/-- The constant that the index stands for, in an annotation value with the tag of
the constant. -/
def HasElement (t : ConstantTable) (index : UInt16) : Constant → Prop
  | .string s => t.utf8At index = .ok s
  | .classLiteral s => t.utf8At index = .ok s
  | .long v => t.longAt index = .ok (.long v)
  | .float b => t.floatAt index = .ok (.float b)
  | .double b => t.doubleAt index = .ok (.double b)
  | c => ∃ v, t.integerAt index = .ok v ∧ Constant.ofIntegerTag? c.tag v = some c

theorem Within.hasElement {t u : ConstantTable} (h : t.Within u) {index : UInt16} {c : Constant}
    (found : t.HasElement index c) : u.HasElement index c := by
  cases c with
  | string s => exact h.utf8At found
  | classLiteral s => exact h.utf8At found
  | long v => exact h.lookup (fun e picked => by cases e <;> trivial) found
  | float b => exact h.lookup (fun e picked => by cases e <;> trivial) found
  | double b => exact h.lookup (fun e picked => by cases e <;> trivial) found
  | _ =>
    obtain ⟨v, found, kind⟩ := found
    exact ⟨v, h.lookup (fun e picked => by cases e <;> trivial) found, kind⟩

end ConstantTable

end ClassAbi
