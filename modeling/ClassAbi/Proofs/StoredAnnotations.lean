import ClassAbi.Proofs.StoredValues
import Mathlib.Algebra.GroupWithZero.Nat

/-!
# Annotations as they stand in a file

The annotations of one owner and one visibility are a table: their number, and
then their encodings one behind the other.  The parameter annotations of a
method are a number of parameters and such a table for each.  Both are read
exactly where they stand, and the reader delivers what was encoded.

`EachEncodedBy` and `TableEncodedBy` take the encoding of one item, so that the
lists of class references of a file are tables as well.
-/

namespace ClassAbi

/-! ## Items one behind the other -/

/-- The bytes are encodings of the items, one behind the other. -/
def EachEncodedBy {α : Type} (encodes : α → Text → Prop) : List α → Text → Prop
  | [], bs => bs = []
  | a :: as, bs =>
    ∃ front back, encodes a front ∧ EachEncodedBy encodes as back ∧ bs = front ++ back

/-- The bytes are the number of items and encodings of the items. -/
def TableEncodedBy {α : Type} (encodes : α → Text → Prop) (as : List α) (bs : Text) : Prop :=
  as.length ≤ 0xFFFF ∧
    ∃ items, EachEncodedBy encodes as items ∧ bs = bytesU2 as.length.toUInt16 ++ items

namespace EachEncodedBy

variable {α : Type} {encodes : α → Text → Prop}

theorem append {as as' : List α} {bs bs' : Text} (h : EachEncodedBy encodes as bs)
    (h' : EachEncodedBy encodes as' bs') : EachEncodedBy encodes (as ++ as') (bs ++ bs') := by
  induction as generalizing bs with
  | nil =>
    rw [EachEncodedBy] at h
    rw [h]
    exact h'
  | cons a as ih =>
    obtain ⟨front, back, item, rest, rfl⟩ := h
    exact ⟨front, back ++ bs', item, ih rest, List.append_assoc front back bs'⟩

theorem singleton {a : α} {bs : Text} (h : encodes a bs) : EachEncodedBy encodes [a] bs :=
  ⟨bs, [], h, rfl, (List.append_nil bs).symm⟩

theorem exists_of_mem {as : List α} {bs : Text} (h : EachEncodedBy encodes as bs) {a : α}
    (mem : a ∈ as) : ∃ item, encodes a item := by
  induction as generalizing bs with
  | nil => cases mem
  | cons a' as ih =>
    obtain ⟨front, back, item, rest, -⟩ := h
    cases mem with
    | head => exact ⟨front, item⟩
    | tail _ mem => exact ih rest mem

/-- Encodings whose lengths are known have their sum as length. -/
theorem length {size : α → Nat} (hsize : ∀ {a bs}, encodes a bs → bs.length = size a)
    {as : List α} {bs : Text} (h : EachEncodedBy encodes as bs) :
    bs.length = (as.map size).sum := by
  induction as generalizing bs with
  | nil =>
    rw [EachEncodedBy] at h
    rw [h]
    rfl
  | cons a as ih =>
    obtain ⟨front, back, item, rest, rfl⟩ := h
    rw [List.length_append, hsize item, ih rest, List.map_cons, List.sum_cons]

end EachEncodedBy

section Reading

variable {d : ByteArray} {t : ConstantTable}

/-- Items are delivered one behind the other exactly where encodings of them stand. -/
theorem foldEach_eq_ok {α β : Type} {encodes : α → Text → Prop} {told : α → List Event}
    {part : Nat → β → Delivery Nat}
    (hpart : ∀ {b offset stop events}, part offset b = ⟨events, .ok stop⟩ ↔
      ∃ a bs, encodes a bs ∧ HoldsAt d offset bs ∧ stop = offset + bs.length ∧ events = told a)
    {numbers : List β} {offset stop : Nat} {events : List Event} (inside : offset ≤ d.size) :
    Delivery.fold part offset numbers = ⟨events, .ok stop⟩ ↔
      ∃ as bs, as.length = numbers.length ∧ EachEncodedBy encodes as bs ∧ HoldsAt d offset bs ∧
        stop = offset + bs.length ∧ events = as.flatMap told := by
  induction numbers generalizing offset events with
  | nil =>
    rw [Delivery.fold_nil_eq_ok]
    constructor
    · rintro ⟨rfl, rfl⟩
      exact ⟨[], [], rfl, rfl, HoldsAt.nil_iff.mpr inside, rfl, rfl⟩
    · rintro ⟨as, bs, length, each, -, rfl, rfl⟩
      rw [List.eq_nil_of_length_eq_zero length] at each ⊢
      rw [EachEncodedBy] at each
      subst each
      exact ⟨rfl, rfl⟩
  | cons b numbers ih =>
    rw [Delivery.fold_cons_eq_ok]
    constructor
    · rintro ⟨first, middle, second, item, rest, rfl⟩
      obtain ⟨a, front, encoded, held, rfl, rfl⟩ := hpart.mp item
      obtain ⟨as, back, length, each, held', rfl, rfl⟩ := (ih held.le).mp rest
      refine ⟨a :: as, front ++ back, congrArg (· + 1) length, ⟨front, back, encoded, each, rfl⟩,
        held.append held', ?_, rfl⟩
      rw [List.length_append, Nat.add_assoc]
    · rintro ⟨as, bs, length, each, held, rfl, rfl⟩
      cases as with
      | nil => cases length
      | cons a as =>
        obtain ⟨front, back, encoded, each, rfl⟩ := each
        have first := hpart (b := b).mpr ⟨a, front, encoded, held.left, rfl, rfl⟩
        refine ⟨told a, offset + front.length, as.flatMap told, first, ?_, rfl⟩
        refine (ih held.left.le).mpr ⟨as, back, Nat.succ.inj length, each, held.right, ?_, rfl⟩
        rw [List.length_append, Nat.add_assoc]

/-- Items are scanned one behind the other exactly where encodings of them stand. -/
theorem scanEach_eq_ok {α : Type} {encodes : α → Text → Prop}
    {item : Nat → Except ReadError (α × Nat)}
    (hitem : ∀ {offset a stop}, item offset = .ok (a, stop) ↔
      ∃ bs, encodes a bs ∧ HoldsAt d offset bs ∧ stop = offset + bs.length)
    {count offset stop : Nat} {items items' : Array α} (inside : offset ≤ d.size) :
    scanEach item count offset items = .ok (items', stop) ↔
      ∃ as bs, as.length = count ∧ EachEncodedBy encodes as bs ∧ HoldsAt d offset bs ∧
        stop = offset + bs.length ∧ items' = items ++ as.toArray := by
  induction count generalizing offset items with
  | zero =>
    rw [scanEach]
    constructor
    · intro h
      cases h
      exact ⟨[], [], rfl, rfl, HoldsAt.nil_iff.mpr inside, rfl, by simp⟩
    · rintro ⟨as, bs, length, each, -, rfl, rfl⟩
      rw [List.eq_nil_of_length_eq_zero length] at each ⊢
      rw [EachEncodedBy] at each
      subst each
      simp
  | succ count ih =>
    rw [scanEach]
    constructor
    · intro h
      split at h
      · next a middle first =>
        obtain ⟨front, encoded, held, rfl⟩ := hitem.mp first
        obtain ⟨as, back, length, each, held', rfl, rfl⟩ := (ih held.le).mp h
        refine ⟨a :: as, front ++ back, congrArg (· + 1) length,
          ⟨front, back, encoded, each, rfl⟩, held.append held', ?_, ?_⟩
        · rw [List.length_append, Nat.add_assoc]
        · simp
      · cases h
    · rintro ⟨as, bs, length, each, held, rfl, rfl⟩
      cases as with
      | nil => cases length
      | cons a as =>
        obtain ⟨front, back, encoded, each, rfl⟩ := each
        have first := hitem.mpr ⟨front, encoded, held.left, rfl⟩
        simp only [first]
        refine (ih held.left.le).mpr ⟨as, back, Nat.succ.inj length, each, held.right, ?_, ?_⟩
        · rw [List.length_append, Nat.add_assoc]
        · simp

/-! ## References to texts and classes -/

/-- The bytes are an index of the text. -/
def TextRef (t : ConstantTable) (value bs : Text) : Prop :=
  ∃ i, t.utf8At i = .ok value ∧ bs = bytesU2 i

/-- The bytes are an index of the class. -/
def ClassRef (t : ConstantTable) (name bs : Text) : Prop :=
  ∃ i, t.classNameAt i = .ok name ∧ bs = bytesU2 i

theorem scanClassRef_eq_ok {offset stop : Nat} {name : Text} :
    scanClassRef d t offset = .ok (name, stop) ↔
      ∃ bs, ClassRef t name bs ∧ HoldsAt d offset bs ∧ stop = offset + bs.length := by
  simp only [scanClassRef, bind_eq_ok, pure_eq_ok, Prod.exists, scanU2_eq_ok, Prod.mk.injEq]
  constructor
  · rintro ⟨i, _, ⟨index, rfl⟩, _, found, rfl, rfl⟩
    exact ⟨bytesU2 i, ⟨i, found, rfl⟩, index, rfl⟩
  · rintro ⟨_, ⟨i, found, rfl⟩, index, rfl⟩
    exact ⟨i, _, ⟨index, rfl⟩, name, found, rfl, rfl⟩

theorem scanClassRefs_eq_ok {offset stop : Nat} {names : List Text} :
    scanClassRefs d t offset = .ok (names, stop) ↔
      ∃ bs, TableEncodedBy (ClassRef t) names bs ∧ HoldsAt d offset bs ∧
        stop = offset + bs.length := by
  simp only [scanClassRefs, bind_eq_ok, pure_eq_ok, Prod.exists, scanU2_eq_ok, Prod.mk.injEq]
  constructor
  · rintro ⟨count, _, ⟨number, rfl⟩, items, _, scanned, rfl, rfl⟩
    obtain ⟨as, bs, length, each, held, rfl, rfl⟩ :=
      (scanEach_eq_ok scanClassRef_eq_ok number.le).mp scanned
    rw [toUInt16_of_eq_toNat length] at number
    rw [Array.empty_append, List.toList_toArray]
    refine ⟨_, ⟨le_of_eq_toNat length, bs, each, rfl⟩, number.append held, ?_⟩
    rw [List.length_append, length_bytesU2, length_bytesU2, Nat.add_assoc]
  · rintro ⟨_, ⟨count, bs, each, rfl⟩, held, rfl⟩
    have items : scanEach (scanClassRef d t) names.length (offset + 2) #[] =
        .ok (names.toArray, offset + 2 + bs.length) :=
      (scanEach_eq_ok scanClassRef_eq_ok held.left.le).mpr
        ⟨names, bs, rfl, each, held.right, rfl, Array.empty_append.symm⟩
    refine ⟨_, _, ⟨held.left, rfl⟩, names.toArray, _, ?_, rfl, rfl⟩
    rw [toNat_toUInt16 count, items, List.length_append, length_bytesU2, Nat.add_assoc]

/-! ## Annotations of one owner -/

/-- The bytes encode the annotation, which has the visibility and nests no deeper than
a reader follows. -/
def Annotation.EncodedBy (t : ConstantTable) (visible : Bool) (a : Annotation) (bs : Text) : Prop :=
  a.visible = visible ∧ a.values.nesting ≤ nestingLimit + 1 ∧ a.values.length ≤ 0xFFFF ∧
    ∃ i items, t.utf8At i = .ok a.descriptor ∧ a.values.EncodedBy t true items ∧
      bs = bytesU2 i ++ (bytesU2 a.values.length.toUInt16 ++ items)

/-- The number of bytes that encode the annotation. -/
def Annotation.encodedSize (a : Annotation) : Nat := 4 + a.values.encodedSize true

theorem Annotation.EncodedBy.length {visible : Bool} {a : Annotation} {bs : Text}
    (h : a.EncodedBy t visible bs) : bs.length = a.encodedSize := by
  obtain ⟨-, -, -, i, items, -, encoded, rfl⟩ := h
  simp only [List.length_append, length_bytesU2, Annotation.encodedSize, encoded.length]
  omega

/-- The bytes encode the annotations of one owner and one visibility. -/
def AnnotationsEncodedBy (t : ConstantTable) (visible : Bool) : List Annotation → Text → Prop :=
  TableEncodedBy <| Annotation.EncodedBy t visible

/-- An annotation is read exactly where an encoding of it stands. -/
theorem readAnnotation_eq_ok {opening : Text → Bool → Event} {visible : Bool} {offset stop : Nat}
    {events : List Event} :
    (do
      let (descriptor, offset) ← readUtf8Ref d t offset
      .deliver (opening descriptor visible)
      readNamedValues d t (readOuterValue d t) offset) = (⟨events, .ok stop⟩ : Delivery Nat) ↔
      ∃ a bs, Annotation.EncodedBy t visible a bs ∧ HoldsAt d offset bs ∧
        stop = offset + bs.length ∧ events = a.events opening := by
  have outer : readOuterValue d t = readValue d t (nestingLimit + 1) := rfl
  simp only [outer, Delivery.bind_eq_ok, Prod.exists, readUtf8Ref_eq_ok, Delivery.deliver_eq_ok,
    readNamedValues_eq_ok]
  constructor
  · rintro ⟨_, descriptor, _, _, ⟨rfl, rfl, i, hi, type⟩, ⟨_, _, _, rfl,
      ⟨vs, bs, encoded, nesting, count, held, rfl, rfl⟩, rfl⟩, rfl⟩
    refine ⟨⟨descriptor, visible, vs⟩, _, ⟨rfl, nesting, count, i, bs, type, encoded, rfl⟩,
      hi.append held, ?_, rfl⟩
    simp only [List.length_append, length_bytesU2, Nat.add_assoc]
  · rintro ⟨a, _, ⟨rfl, nesting, count, i, bs, type, encoded, rfl⟩, held, rfl, rfl⟩
    refine ⟨[], a.descriptor, _, _, ⟨rfl, rfl, i, held.left, type⟩, ⟨_, (), _, rfl,
      ⟨a.values, bs, encoded, nesting, count, held.right, ?_, rfl⟩, rfl⟩, rfl⟩
    simp only [List.length_append, length_bytesU2, Nat.add_assoc]

/-- The annotations of one owner and one visibility are read exactly where they stand. -/
theorem readAnnotations_eq_ok {opening : Text → Bool → Event} {visible : Bool} {offset stop : Nat}
    {events : List Event} :
    readAnnotations d t (opening · visible) offset = ⟨events, .ok stop⟩ ↔
      ∃ as bs, AnnotationsEncodedBy t visible as bs ∧ HoldsAt d offset bs ∧
        stop = offset + bs.length ∧ events = as.flatMap (·.events opening) := by
  simp only [readAnnotations, Delivery.bind_eq_ok (m := Delivery.ofExcept _),
    Delivery.ofExcept_eq_ok, Prod.exists, scanU2_eq_ok]
  constructor
  · rintro ⟨_, count, _, _, ⟨rfl, number, rfl⟩, h, rfl⟩
    obtain ⟨as, bs, length, each, held, rfl, rfl⟩ :=
      (foldEach_eq_ok readAnnotation_eq_ok number.le).mp h
    rw [List.length_range] at length
    rw [toUInt16_of_eq_toNat length] at number
    refine ⟨as, _, ⟨le_of_eq_toNat length, bs, each, rfl⟩, number.append held, ?_, rfl⟩
    simp only [List.length_append, length_bytesU2, Nat.add_assoc]
  · rintro ⟨as, _, ⟨count, bs, each, rfl⟩, held, rfl, rfl⟩
    refine ⟨[], _, _, _, ⟨rfl, held.left, rfl⟩, ?_, rfl⟩
    refine (foldEach_eq_ok readAnnotation_eq_ok held.left.le).mpr
      ⟨as, bs, ?_, each, held.right, ?_, rfl⟩
    · rw [List.length_range, toNat_toUInt16 count]
    · simp only [List.length_append, length_bytesU2, Nat.add_assoc]

/-! ## Annotations of parameters -/

/-- The bytes encode the annotations of the parameters of a method, of one visibility. -/
def ParametersEncodedBy (t : ConstantTable) (visible : Bool) (tables : List (List Annotation))
    (bs : Text) : Prop :=
  tables.length ≤ 0xFF ∧ ∃ items, EachEncodedBy (AnnotationsEncodedBy t visible) tables items ∧
    bs = tables.length.toUInt8 :: items

/-- The annotations of parameters, each with its parameter.  The first of the tables is
that of parameter `first`. -/
def numberedFrom (first : Nat) (tables : List (List Annotation)) : List (Int × Annotation) :=
  (tables.zipIdx first).flatMap fun (as, i) => as.map ((i : Int), ·)

theorem numberedFrom_cons (first : Nat) (as : List Annotation) (tables : List (List Annotation)) :
    numberedFrom first (as :: tables) =
      as.map ((first : Int), ·) ++ numberedFrom (first + 1) tables :=
  rfl

/-- The events of an annotation of a parameter. -/
def parameterEvents (x : Int × Annotation) : List Event := x.2.events (.annotateParameter x.1)

theorem flatMap_parameterEvents (p : Int) (as : List Annotation) :
    (as.map (p, ·)).flatMap parameterEvents = as.flatMap (·.events (.annotateParameter p)) :=
  List.flatMap_map ..

/-- Reading tables one behind the other.  Each parameter is read under its own number,
so the induction counts it up. -/
theorem foldParameters_eq_ok {visible : Bool} {count first offset stop : Nat}
    {events : List Event} (inside : offset ≤ d.size) :
    Delivery.fold (fun offset (parameter : Nat) =>
        readAnnotations d t (fun descriptor => .annotateParameter parameter descriptor visible)
          offset) offset (List.range' first count) = ⟨events, .ok stop⟩ ↔
      ∃ tables bs, tables.length = count ∧
        EachEncodedBy (AnnotationsEncodedBy t visible) tables bs ∧ HoldsAt d offset bs ∧
        stop = offset + bs.length ∧ events = (numberedFrom first tables).flatMap parameterEvents := by
  induction count generalizing first offset events with
  | zero =>
    rw [List.range'_zero, Delivery.fold_nil_eq_ok]
    constructor
    · rintro ⟨rfl, rfl⟩
      exact ⟨[], [], rfl, rfl, HoldsAt.nil_iff.mpr inside, rfl, rfl⟩
    · rintro ⟨tables, bs, length, each, -, rfl, rfl⟩
      rw [List.eq_nil_of_length_eq_zero length] at each ⊢
      rw [EachEncodedBy] at each
      subst each
      exact ⟨rfl, rfl⟩
  | succ count ih =>
    rw [List.range'_succ, Delivery.fold_cons_eq_ok]
    constructor
    · rintro ⟨_, middle, _, item, rest, rfl⟩
      have item : readAnnotations d t (Event.annotateParameter first · visible) offset =
        ⟨_, .ok middle⟩ := item
      obtain ⟨as, front, encoded, held, rfl, rfl⟩ := readAnnotations_eq_ok.mp item
      obtain ⟨tables, back, length, each, held', rfl, rfl⟩ := (ih held.le).mp rest
      refine ⟨as :: tables, front ++ back, congrArg (· + 1) length,
        ⟨front, back, encoded, each, rfl⟩, held.append held', ?_, ?_⟩
      · rw [List.length_append, Nat.add_assoc]
      · rw [numberedFrom_cons, List.flatMap_append, flatMap_parameterEvents]
    · rintro ⟨tables, bs, length, each, held, rfl, rfl⟩
      cases tables with
      | nil => cases length
      | cons as tables =>
        obtain ⟨front, back, encoded, each, rfl⟩ := each
        refine ⟨_, offset + front.length, (numberedFrom (first + 1) tables).flatMap parameterEvents,
          readAnnotations_eq_ok.mpr ⟨as, front, encoded, held.left, rfl, rfl⟩, ?_, ?_⟩
        · refine (ih held.left.le).mpr
            ⟨tables, back, Nat.succ.inj length, each, held.right, ?_, rfl⟩
          rw [List.length_append, Nat.add_assoc]
        · rw [numberedFrom_cons, List.flatMap_append, flatMap_parameterEvents]

/-- Parameter annotations are read exactly where they stand. -/
theorem readParameterAnnotations_eq_ok {visible : Bool} {offset stop : Nat} {events : List Event} :
    readParameterAnnotations d t visible offset = ⟨events, .ok stop⟩ ↔
      ∃ tables bs, ParametersEncodedBy t visible tables bs ∧ HoldsAt d offset bs ∧
        stop = offset + bs.length ∧
        events = .parameterCount tables.length visible ::
          (numberedFrom 0 tables).flatMap parameterEvents := by
  simp only [readParameterAnnotations, Delivery.bind_eq_ok (m := Delivery.ofExcept _),
    Delivery.bind_eq_ok (m := Delivery.deliver _), Delivery.ofExcept_eq_ok, Prod.exists,
    Delivery.deliver_eq_ok, scanU1_eq_ok, List.range_eq_range']
  constructor
  · rintro ⟨_, count, _, _, ⟨rfl, number, rfl⟩, ⟨_, _, _, rfl, h, rfl⟩, rfl⟩
    obtain ⟨tables, bs, length, each, held, rfl, rfl⟩ := (foldParameters_eq_ok number.le).mp h
    have lt := count.toNat_lt
    have number' : HoldsAt d offset [tables.length.toUInt8] := by
      rw [length]
      rwa [show count.toNat.toUInt8 = count from UInt8.ofNat_toNat]
    refine ⟨tables, _, ⟨by omega, bs, each, rfl⟩, HoldsAt.cons_iff.mpr ⟨number', held⟩, ?_, ?_⟩
    · simp only [List.length_cons, List.length_nil]
      omega
    · rw [length]
      rfl
  · rintro ⟨tables, _, ⟨count, bs, each, rfl⟩, held, rfl, rfl⟩
    obtain ⟨number, held⟩ := HoldsAt.cons_iff.mp held
    refine ⟨[], _, _, _, ⟨rfl, number, rfl⟩, ⟨_, (), _, rfl, (foldParameters_eq_ok held.1).mpr
      ⟨tables, bs, (toNat_toUInt8 count).symm, each, held, ?_, rfl⟩, rfl⟩, ?_⟩
    · rw [List.length_cons]
      omega
    · rw [toNat_toUInt8 count]
      rfl

end Reading

end ClassAbi
