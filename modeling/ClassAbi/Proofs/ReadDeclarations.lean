import ClassAbi.Proofs.FoundLayouts
import Mathlib.Data.Nat.Bitwise

/-!
# What a reader can deliver

Whatever file is read without a problem, the events are those of a class, and of
a class that can be written again.  `Legible` says what is known about it: the
access words are such as flags and a mark of deprecation make, every field has
an initial value of its own kind, the elements of arrays have no names, values
nest no deeper than allowed, and what makes one attribute is shorter than the
file.  `exists_legible_of_readClass` takes the delivery of a whole file apart.
-/

namespace ClassAbi

/-! ## Access words -/

/-- The access word that is read back after the word was written. -/
def Access.stored (a : Access) : Access := .ofFlags a.flags a.isDeprecated

theorem Access.flags_ofFlags (flags : UInt16) (deprecated : Bool) :
    (Access.ofFlags flags deprecated).flags = flags := by
  cases deprecated with
  | false => exact UInt16.toUInt16_toUInt32 flags
  | true =>
    have none : deprecatedFlag.toUInt16 = 0 := rfl
    rw [ofFlags, if_pos rfl, Access.flags, UInt32.toUInt16_or, none, UInt16.or_zero]
    exact UInt16.toUInt16_toUInt32 flags

/-- The mark lies above the flags. -/
theorem Access.flags_and_deprecatedFlag (flags : UInt16) :
    flags.toUInt32 &&& deprecatedFlag = 0 := by
  have lt : flags.toNat < 2 ^ 17 := Nat.lt_trans flags.toNat_lt (by decide)
  apply UInt32.toNat_inj.mp
  rw [UInt32.toNat_and, UInt16.toNat_toUInt32, show deprecatedFlag.toNat = 2 ^ 17 from rfl,
    Nat.and_two_pow, Nat.testBit_lt_two_pow lt]
  rfl

theorem Access.isDeprecated_ofFlags (flags : UInt16) (deprecated : Bool) :
    (Access.ofFlags flags deprecated).isDeprecated = deprecated := by
  cases deprecated with
  | false =>
    rw [ofFlags, if_neg Bool.false_ne_true, isDeprecated, flags_and_deprecatedFlag]
    rfl
  | true =>
    have split : (flags.toUInt32 ||| deprecatedFlag) &&& deprecatedFlag =
        flags.toUInt32 &&& deprecatedFlag ||| deprecatedFlag :=
      UInt32.toBitVec_inj.mp BitVec.and_or_distrib_right
    rw [ofFlags, if_pos rfl, isDeprecated, split, flags_and_deprecatedFlag]
    rfl

theorem Access.stored_ofFlags (flags : UInt16) (deprecated : Bool) :
    (Access.ofFlags flags deprecated).stored = .ofFlags flags deprecated := by
  rw [stored, flags_ofFlags, isDeprecated_ofFlags]

/-! ## Legible declarations -/

/-- The greatest length of an attribute is one less than this. -/
def attributeLimit : Nat := 0x100000000

/-- The annotation can be read. -/
structure Annotation.Legible (a : Annotation) : Prop where
  readBack : a.values.readBack true = a.values
  nesting : a.values.nesting ≤ nestingLimit + 1

/-- The number of bytes that the annotations of one visibility take. -/
def tableSize (as : List Annotation) : Nat := 2 + (as.map Annotation.encodedSize).sum

/-- The annotations of an owner can be read. -/
structure AnnotationsLegible (as : List Annotation) : Prop where
  each : ∀ a ∈ as, a.Legible
  size : ∀ visible, tableSize (as.filter (·.visible == visible)) < attributeLimit

/-- The field can be read. -/
structure Field.Legible (f : Field) : Prop where
  access : f.header.access.stored = f.header.access
  value : ∀ c, f.header.value = some c → c.FitsField f.header.descriptor
  annotations : AnnotationsLegible f.annotations

/-- The parameter annotations of one visibility can be read. -/
structure ParametersLegible (visible : Bool) (tables : List (List Annotation)) : Prop where
  count : tables.length ≤ 0xFF
  each : ∀ as ∈ tables, ∀ a ∈ as, a.visible = visible ∧ a.Legible
  size : 1 + (tables.map tableSize).sum < attributeLimit

/-- The method can be read. -/
structure Method.Legible (m : Method) : Prop where
  access : m.header.access.stored = m.header.access
  exceptions : ∀ names, m.header.exceptions = some names → names.length ≤ 0xFFFF
  parts : ∃ (v : Option Value) (as : List Annotation)
      (tables : Bool → Option (List (List Annotation))),
    (∀ x, v = some x → x.readBack = x ∧ x.nesting ≤ nestingLimit ∧ x.encodedSize < attributeLimit) ∧
    AnnotationsLegible as ∧
    (∀ visible x, tables visible = some x → ParametersLegible visible x) ∧
    m = .tabled m.header v as tables

/-- The class can be read. -/
structure ClassDeclaration.Legible (c : ClassDeclaration) : Prop where
  access : c.header.access.stored = c.header.access
  interfaces : ∃ names, c.header.interfaces = some names ∧ names.length ≤ 0xFFFF
  annotations : AnnotationsLegible c.annotations
  fields : ∀ f ∈ c.fields, f.Legible
  methods : ∀ m ∈ c.methods, m.Legible

/-! ## Reading -/

section Reading

variable {d : ByteArray} {t : ConstantTable}

theorem Annotation.EncodedBy.legible {visible : Bool} {a : Annotation} {bs : Text}
    (h : a.EncodedBy t visible bs) : a.Legible := by
  obtain ⟨-, nesting, -, i, items, -, encoded, -⟩ := h
  exact ⟨encoded.readBack, nesting⟩

theorem AnnotationsEncodedBy.length {visible : Bool} {as : List Annotation} {bs : Text}
    (h : AnnotationsEncodedBy t visible as bs) : bs.length = tableSize as := by
  obtain ⟨-, items, each, rfl⟩ := h
  rw [List.length_append, length_bytesU2, each.length (·.length), tableSize]

theorem ParametersEncodedBy.length {visible : Bool} {tables : List (List Annotation)} {bs : Text}
    (h : ParametersEncodedBy t visible tables bs) :
    bs.length = 1 + (tables.map tableSize).sum := by
  obtain ⟨-, items, each, rfl⟩ := h
  rw [List.length_cons, each.length (·.length), Nat.add_comm]

theorem HoldsAt.length_lt {offset : Nat} {bs : Text} (h : HoldsAt d offset bs)
    (short : d.size < attributeLimit) : bs.length < attributeLimit := by
  have := h.le
  omega

/-- The annotations of one owner and one visibility, as they are read. -/
theorem exists_of_readAnnotationsAt {opening : Text → Bool → Event} {visible : Bool}
    {place : Option Nat} {events : List Event} (short : d.size < attributeLimit)
    (h : readAnnotationsAt d t (opening · visible) place = ⟨events, .ok ()⟩) :
    ∃ as : List Annotation, (∀ a ∈ as, a.visible = visible ∧ a.Legible) ∧
      tableSize as < attributeLimit ∧ events = as.flatMap (·.events opening) := by
  cases place with
  | none =>
    cases h
    exact ⟨[], by simp, by decide, rfl⟩
  | some offset =>
    simp only [readAnnotationsAt, Delivery.bind_eq_ok, Delivery.pure_eq_ok,
      readAnnotations_eq_ok] at h
    obtain ⟨_, _, _, ⟨as, bs, encoded, held, -, rfl⟩, ⟨rfl, -⟩, rfl⟩ := h
    refine ⟨as, ?_, ?_, List.append_nil _⟩
    · intro a ha
      obtain ⟨item, hitem⟩ := encoded.2.choose_spec.1.exists_of_mem ha
      exact ⟨hitem.1, hitem.legible⟩
    · rw [← encoded.length]
      exact held.length_lt short

/-- The annotations of both visibilities together. -/
theorem annotationsLegible_append {as bs : List Annotation}
    (has : ∀ a ∈ as, a.visible = true ∧ a.Legible) (hbs : ∀ a ∈ bs, a.visible = false ∧ a.Legible)
    (asSize : tableSize as < attributeLimit) (bsSize : tableSize bs < attributeLimit) :
    AnnotationsLegible (as ++ bs) where
  each := by
    intro a ha
    rcases List.mem_append.mp ha with ha | ha
    · exact (has a ha).2
    · exact (hbs a ha).2
  size := by
    intro visible
    rw [filter_visible_append (fun a ha => (has a ha).1) fun a ha => (hbs a ha).1]
    cases visible with
    | true => exact asSize
    | false => exact bsSize

/-- The parameter annotations of one visibility, as they are read. -/
theorem exists_of_readParameterAnnotationsAt {visible : Bool} {place : Option Nat}
    {events : List Event} (short : d.size < attributeLimit)
    (h : readParameterAnnotationsAt d t visible place = ⟨events, .ok ()⟩) :
    ∃ tables, (∀ x, tables = some x → ParametersLegible visible x) ∧
      events = (parameterParts visible tables).flatMap MethodPart.events := by
  cases place with
  | none =>
    cases h
    exact ⟨none, by simp, rfl⟩
  | some offset =>
    simp only [readParameterAnnotationsAt, Delivery.bind_eq_ok, Delivery.pure_eq_ok,
      readParameterAnnotations_eq_ok] at h
    obtain ⟨_, _, _, ⟨tables, bs, encoded, held, -, rfl⟩, ⟨rfl, -⟩, rfl⟩ := h
    refine ⟨some tables, ?_, ?_⟩
    · rintro x ⟨⟩
      refine ⟨encoded.1, ?_, ?_⟩
      · intro as has a ha
        obtain ⟨table, htable⟩ := encoded.2.choose_spec.1.exists_of_mem has
        obtain ⟨item, hitem⟩ := htable.2.choose_spec.1.exists_of_mem ha
        exact ⟨hitem.1, hitem.legible⟩
      · rw [← encoded.length]
        exact held.length_lt short
    · rw [List.append_nil, parameterParts, List.flatMap_cons, List.flatMap_map]
      rfl

/-- The default value, as it is read. -/
theorem exists_of_readDefaultAt {place : Option Nat} {events : List Event}
    (short : d.size < attributeLimit) (h : readDefaultAt d t place = ⟨events, .ok ()⟩) :
    ∃ v : Option Value,
      (∀ x, v = some x →
        x.readBack = x ∧ x.nesting ≤ nestingLimit ∧ x.encodedSize < attributeLimit) ∧
      events = (defaultParts v).flatMap MethodPart.events := by
  cases place with
  | none =>
    cases h
    exact ⟨none, by simp, rfl⟩
  | some offset =>
    simp only [readDefaultAt, Delivery.bind_eq_ok, Delivery.deliver_eq_ok,
      readOuterValue_eq_ok] at h
    obtain ⟨_, _, _, rfl, ⟨_, _, _, ⟨v, bs, encoded, held, -, rfl⟩, rfl, rfl⟩, rfl⟩ := h
    refine ⟨some v, ?_, ?_⟩
    · rintro x ⟨⟩
      refine ⟨encoded.1.readBack, encoded.2, ?_⟩
      rw [← encoded.1.length]
      exact held.length_lt short
    · simp [defaultParts, MethodPart.events, Values.events]

/-! ## Members -/

/-- The initial value that is found for a field is of the kind of the field. -/
theorem fitsField_of_constantAt {descriptor : Text} {i : UInt16} {c : Constant}
    (h : t.constantAt descriptor i = .ok c) : c.FitsField descriptor := by
  obtain ⟨e, -, h⟩ := bind_eq_ok.mp h
  cases e with
  | integer v =>
    cases h
    exact Constant.fitsField_ofFieldInteger descriptor v.toInt32
  | string j =>
    obtain ⟨s, -, h⟩ := bind_eq_ok.mp h
    cases h
    exact ⟨by simp, by simp [Constant.isInteger]⟩
  | float b =>
    cases h
    exact ⟨by simp, by simp [Constant.isInteger]⟩
  | long v =>
    cases h
    exact ⟨by simp, by simp [Constant.isInteger]⟩
  | double b =>
    cases h
    exact ⟨by simp, by simp [Constant.isInteger]⟩
  | _ => cases h

theorem fitsField_of_constantValueAt {descriptor : Text} {place : Option Nat} {c : Constant}
    (h : constantValueAt d t descriptor place = .ok (some c)) : c.FitsField descriptor := by
  cases place with
  | none => cases h
  | some offset =>
    obtain ⟨⟨i, _⟩, -, h⟩ := bind_eq_ok.mp h
    obtain ⟨c', found, h⟩ := bind_eq_ok.mp h
    cases h
    exact fitsField_of_constantAt found

theorem length_of_exceptionsAt {place : Option Nat} {names : List Text}
    (h : exceptionsAt d t place = .ok (some names)) : names.length ≤ 0xFFFF := by
  cases place with
  | none => cases h
  | some offset =>
    obtain ⟨⟨names', _⟩, scanned, h⟩ := bind_eq_ok.mp h
    cases h
    obtain ⟨bs, encoded, -⟩ := scanClassRefs_eq_ok.mp scanned
    exact encoded.1

theorem legible_of_fieldHeader {l : MemberLayout} {header : FieldHeader}
    (h : fieldHeader d t l = .ok header) :
    header.access.stored = header.access ∧
      ∀ c, header.value = some c → c.FitsField header.descriptor := by
  simp only [fieldHeader, bind_eq_ok, pure_eq_ok] at h
  obtain ⟨name, -, descriptor, -, signature, -, value, found, rfl⟩ := h
  refine ⟨Access.stored_ofFlags _ _, ?_⟩
  rintro c rfl
  exact fitsField_of_constantValueAt found

theorem legible_of_methodHeader {l : MemberLayout} {header : MethodHeader}
    (h : methodHeader d t l = .ok header) :
    header.access.stored = header.access ∧
      ∀ names, header.exceptions = some names → names.length ≤ 0xFFFF := by
  simp only [methodHeader, bind_eq_ok, pure_eq_ok] at h
  obtain ⟨name, -, descriptor, -, signature, -, exceptions, found, rfl⟩ := h
  refine ⟨Access.stored_ofFlags _ _, ?_⟩
  rintro names rfl
  exact length_of_exceptionsAt found

/-- A field that is read is a legible field. -/
theorem exists_legible_of_readField {l : MemberLayout} {events : List Event}
    (short : d.size < attributeLimit) (h : readField d t l = ⟨events, .ok ()⟩) :
    ∃ f : Field, events = f.events ∧ f.Legible := by
  simp only [readField, Delivery.bind_eq_ok, Delivery.ofExcept_eq_ok, Delivery.deliver_eq_ok] at h
  obtain ⟨_, header, _, ⟨rfl, hheader⟩, ⟨_, _, _, rfl, ⟨_, _, _, visible, ⟨_, _, _, invisible, rfl,
    rfl⟩, rfl⟩, rfl⟩, rfl⟩ := h
  obtain ⟨access, value⟩ := legible_of_fieldHeader hheader
  obtain ⟨as, has, asSize, rfl⟩ := exists_of_readAnnotationsAt short visible
  obtain ⟨bs, hbs, bsSize, rfl⟩ := exists_of_readAnnotationsAt short invisible
  refine ⟨⟨header, as ++ bs⟩, ?_, access, value, annotationsLegible_append has hbs asSize bsSize⟩
  simp [Field.events]

/-- A method that is read is a legible method. -/
theorem exists_legible_of_readMethod {l : MemberLayout} {events : List Event}
    (short : d.size < attributeLimit) (h : readMethod d t l = ⟨events, .ok ()⟩) :
    ∃ m : Method, events = m.events ∧ m.Legible := by
  simp only [readMethod, Delivery.bind_eq_ok, Delivery.ofExcept_eq_ok, Delivery.deliver_eq_ok] at h
  obtain ⟨_, header, _, ⟨rfl, hheader⟩, ⟨_, _, _, rfl, ⟨_, _, _, default, ⟨_, _, _, visible,
    ⟨_, _, _, invisible, ⟨_, _, _, shown, ⟨_, _, _, hidden, rfl, rfl⟩, rfl⟩, rfl⟩, rfl⟩, rfl⟩,
    rfl⟩, rfl⟩ := h
  obtain ⟨access, exceptions⟩ := legible_of_methodHeader hheader
  obtain ⟨v, hv, rfl⟩ := exists_of_readDefaultAt short default
  obtain ⟨as, has, asSize, rfl⟩ := exists_of_readAnnotationsAt short visible
  obtain ⟨bs, hbs, bsSize, rfl⟩ := exists_of_readAnnotationsAt short invisible
  obtain ⟨first, hfirst, rfl⟩ := exists_of_readParameterAnnotationsAt short shown
  obtain ⟨second, hsecond, rfl⟩ := exists_of_readParameterAnnotationsAt short hidden
  let tables := fun visible : Bool => if visible then first else second
  refine ⟨.tabled header v (as ++ bs) tables, ?_, access, exceptions, v, as ++ bs, tables, hv,
    annotationsLegible_append has hbs asSize bsSize, ?_, rfl⟩
  · rw [Method.events_tabled, List.flatMap_append]
    simp only [List.append_assoc, List.nil_append, List.singleton_append]
    rfl
  · intro visible x hx
    cases visible with
    | true => exact hfirst x hx
    | false => exact hsecond x hx

/-! ## Classes -/

/-- Members that are read one behind the other are legible. -/
theorem exists_legible_of_foldMembers {α : Type} {legible : α → Prop}
    {read : MemberLayout → Delivery Unit} {told : α → List Event}
    (hread : ∀ {l events}, read l = ⟨events, .ok ()⟩ → ∃ x, events = told x ∧ legible x)
    {ls : List MemberLayout} {events : List Event}
    (h : Delivery.fold (fun _ l => read l) () ls = ⟨events, .ok ()⟩) :
    ∃ xs : List α, events = xs.flatMap told ∧ ∀ x ∈ xs, legible x := by
  induction ls generalizing events with
  | nil =>
    obtain ⟨rfl, -⟩ := Delivery.fold_nil_eq_ok.mp h
    exact ⟨[], rfl, by simp⟩
  | cons l ls ih =>
    rw [Delivery.fold_cons_eq_ok] at h
    obtain ⟨_, _, _, first, rest, rfl⟩ := h
    obtain ⟨x, rfl, hx⟩ := hread first
    obtain ⟨xs, rfl, hxs⟩ := ih rest
    exact ⟨x :: xs, rfl, List.forall_mem_cons.mpr ⟨hx, hxs⟩⟩

/-- The header that is scanned is one of a legible class. -/
theorem header_of_scan {l : ClassLayout} (h : ClassLayout.scan d = .ok l) :
    l.header.access.stored = l.header.access ∧
      ∃ names, l.header.interfaces = some names ∧ names.length ≤ 0xFFFF := by
  obtain ⟨f, laidOut⟩ := exists_classFile_of_scan h
  obtain ⟨names, refs, interfaces⟩ := laidOut.interfaces
  refine ⟨?_, names, interfaces, refs.1⟩
  rw [laidOut.access]
  exact Access.stored_ofFlags _ _

/-- What is read without a problem from a file that an attribute could hold is a legible
class. -/
theorem exists_legible_of_readClass {events : List Event} (short : d.size < attributeLimit)
    (h : readClass d = ⟨events, .ok ()⟩) :
    ∃ c : ClassDeclaration, events = c.events ∧ c.Legible := by
  simp only [readClass, ClassLayout.read, Delivery.bind_eq_ok, Delivery.ofExcept_eq_ok,
    Delivery.deliver_eq_ok] at h
  obtain ⟨_, l, _, ⟨rfl, scanned⟩, ⟨_, _, _, rfl, ⟨_, _, _, visible, ⟨_, _, _, invisible,
    ⟨_, _, _, hfields, ⟨_, _, _, hmethods, rfl, rfl⟩, rfl⟩, rfl⟩, rfl⟩, rfl⟩, rfl⟩ := h
  obtain ⟨access, interfaces⟩ := header_of_scan scanned
  obtain ⟨as, has, asSize, rfl⟩ := exists_of_readAnnotationsAt short visible
  obtain ⟨bs, hbs, bsSize, rfl⟩ := exists_of_readAnnotationsAt short invisible
  obtain ⟨fields, rfl, legibleFields⟩ :=
    exists_legible_of_foldMembers (exists_legible_of_readField short) hfields
  obtain ⟨methods, rfl, legibleMethods⟩ :=
    exists_legible_of_foldMembers (exists_legible_of_readMethod short) hmethods
  refine ⟨⟨l.header, as ++ bs, fields, methods⟩, ?_, access, interfaces,
    annotationsLegible_append has hbs asSize bsSize, legibleFields, legibleMethods⟩
  rw [ClassDeclaration.events_eq, List.flatMap_append]
  simp only [List.append_assoc, List.nil_append, List.singleton_append]

end Reading

end ClassAbi
