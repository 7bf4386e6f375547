import ClassAbi.ClassFile.Declaration
import ClassAbi.ClassFile.Reader
import ClassAbi.Proofs.Constants
import ClassAbi.Proofs.Lookups
import ClassAbi.Proofs.Positions

/-!
# Annotation values as they stand in a file

`Value.EncodedBy t v bs` says that the bytes `bs` are an element value of JVMS
4.7.16.1 that stands for `v`, with the constant pool `t`.  One value has many
encodings, since several indexes may have the same entry.  The elements of an
array and the value of a default have no names in the file, so they have the
empty name here.

Reading a value succeeds exactly on the encodings of values that nest no deeper
than allowed.  `readValue_of_encodedBy` goes by the tree of the value, and
`exists_encodedBy_of_readValue` by the number of levels that are left.  Both
have a list of values beside them, whose items are read by `readItem`.
-/

namespace ClassAbi

/-! ## Encodings -/

/-- The bytes in front of a value that stand for its name. -/
def NameEncodedBy (t : ConstantTable) (named : Bool) (name bs : Text) : Prop :=
  if named then ∃ i, t.utf8At i = .ok name ∧ bs = bytesU2 i else name = [] ∧ bs = []

mutual

/-- The bytes encode the value. -/
def Value.EncodedBy (t : ConstantTable) : Value → Text → Prop
  | .constant c, bs => ∃ i, t.HasElement i c ∧ bs = c.tag :: bytesU2 i
  | .enum descriptor value, bs =>
    ∃ i j, t.utf8At i = .ok descriptor ∧ t.utf8At j = .ok value ∧
      bs = 101 :: (bytesU2 i ++ bytesU2 j)
  | .nested descriptor values, bs =>
    ∃ i items, t.utf8At i = .ok descriptor ∧ values.EncodedBy t true items ∧
      values.length ≤ 0xFFFF ∧
      bs = 64 :: (bytesU2 i ++ (bytesU2 values.length.toUInt16 ++ items))
  | .array elements, bs =>
    ∃ items, elements.EncodedBy t false items ∧ elements.length ≤ 0xFFFF ∧
      bs = 91 :: (bytesU2 elements.length.toUInt16 ++ items)

/-- The bytes encode the values one behind the other, with names or without. -/
def Values.EncodedBy (t : ConstantTable) (named : Bool) : Values → Text → Prop
  | .nil, bs => bs = []
  | .cons name value rest, bs =>
    ∃ front item back, NameEncodedBy t named name front ∧ value.EncodedBy t item ∧
      rest.EncodedBy t named back ∧ bs = front ++ (item ++ back)

end

/-! ## What an encoding keeps -/

mutual

/-- The value without the names of array elements, which no encoding has. -/
def Value.readBack : Value → Value
  | .constant c => .constant c
  | .enum descriptor value => .enum descriptor value
  | .nested descriptor values => .nested descriptor (values.readBack true)
  | .array elements => .array (elements.readBack false)

/-- The values of a list with names or without. -/
def Values.readBack (named : Bool) : Values → Values
  | .nil => .nil
  | .cons name value rest =>
    .cons (if named then name else []) value.readBack (rest.readBack named)

end

mutual

/-- The number of bytes that encode the value. -/
def Value.encodedSize : Value → Nat
  | .constant _ => 3
  | .enum _ _ => 5
  | .nested _ values => 5 + values.encodedSize true
  | .array elements => 3 + elements.encodedSize false

/-- The number of bytes that encode the values with names or without. -/
def Values.encodedSize (named : Bool) : Values → Nat
  | .nil => 0
  | .cons _ value rest => (if named then 2 else 0) + value.encodedSize + rest.encodedSize named

end

theorem NameEncodedBy.readBack {t : ConstantTable} {named : Bool} {name bs : Text}
    (h : NameEncodedBy t named name bs) : (if named then name else []) = name := by
  cases named with
  | false => exact h.1.symm
  | true => rfl

theorem NameEncodedBy.length {t : ConstantTable} {named : Bool} {name bs : Text}
    (h : NameEncodedBy t named name bs) : bs.length = if named then 2 else 0 := by
  cases named with
  | false => rw [h.2]; rfl
  | true =>
    obtain ⟨i, -, rfl⟩ := h
    rfl

mutual

theorem Value.EncodedBy.readBack {t : ConstantTable} :
    ∀ {v : Value} {bs : Text}, v.EncodedBy t bs → v.readBack = v
  | .constant c, _, _ => rfl
  | .enum descriptor value, _, _ => rfl
  | .nested descriptor values, _, h => by
    rw [Value.EncodedBy] at h
    obtain ⟨i, items, -, encoded, -, -⟩ := h
    rw [Value.readBack, encoded.readBack]
  | .array elements, _, h => by
    rw [Value.EncodedBy] at h
    obtain ⟨items, encoded, -, -⟩ := h
    rw [Value.readBack, encoded.readBack]

theorem Values.EncodedBy.readBack {t : ConstantTable} {named : Bool} :
    ∀ {vs : Values} {bs : Text}, vs.EncodedBy t named bs → vs.readBack named = vs
  | .nil, _, _ => rfl
  | .cons name value rest, _, h => by
    rw [Values.EncodedBy] at h
    obtain ⟨front, item, back, hname, hitem, hback, -⟩ := h
    rw [Values.readBack, hname.readBack, hitem.readBack, hback.readBack]

end

mutual

theorem Value.EncodedBy.length {t : ConstantTable} :
    ∀ {v : Value} {bs : Text}, v.EncodedBy t bs → bs.length = v.encodedSize
  | .constant c, _, h => by
    rw [Value.EncodedBy] at h
    obtain ⟨i, -, rfl⟩ := h
    rfl
  | .enum descriptor value, _, h => by
    rw [Value.EncodedBy] at h
    obtain ⟨i, j, -, -, rfl⟩ := h
    rfl
  | .nested descriptor values, _, h => by
    rw [Value.EncodedBy] at h
    obtain ⟨i, items, -, encoded, -, rfl⟩ := h
    simp only [List.length_cons, List.length_append, length_bytesU2, Value.encodedSize,
      encoded.length]
    omega
  | .array elements, _, h => by
    rw [Value.EncodedBy] at h
    obtain ⟨items, encoded, -, rfl⟩ := h
    simp only [List.length_cons, List.length_append, length_bytesU2, Value.encodedSize,
      encoded.length]
    omega

theorem Values.EncodedBy.length {t : ConstantTable} {named : Bool} :
    ∀ {vs : Values} {bs : Text}, vs.EncodedBy t named bs → bs.length = vs.encodedSize named
  | .nil, _, h => by
    rw [Values.EncodedBy] at h
    rw [h]
    rfl
  | .cons name value rest, _, h => by
    rw [Values.EncodedBy] at h
    obtain ⟨front, item, back, hname, hitem, hback, rfl⟩ := h
    rw [List.length_append, List.length_append, hname.length, hitem.length, hback.length,
      Values.encodedSize, Nat.add_assoc]

end

/-! ## Reading a constant -/

/-- An integer constant is found by the number that stands for it. -/
theorem hasElement_iff_of_isInteger {t : ConstantTable} {index : UInt16} {c : Constant}
    (h : c.isInteger = true) :
    t.HasElement index c ↔
      ∃ v, t.integerAt index = .ok v ∧ Constant.ofIntegerTag? c.tag v = some c := by
  cases c with
  | long v => cases h
  | float b => cases h
  | double b => cases h
  | string s => cases h
  | classLiteral s => cases h
  | _ => exact Iff.rfl

/-- The tags that make a constant of a number are those of the integer kinds. -/
theorem isInteger_iff_tag {c : Constant} :
    c.isInteger = true ↔ (Constant.ofIntegerTag? c.tag 0).isSome = true := by
  cases c <;> exact Iff.of_eq rfl

/-- A lookup for a tag finds the constants with that tag. -/
theorem elementLookup_eq_ok {t : ConstantTable} {tag : UInt8}
    {lookup : UInt16 → Except ReadError Constant} (h : elementLookup t tag = some lookup)
    {index : UInt16} {c : Constant} :
    lookup index = .ok c ↔ c.tag = tag ∧ t.HasElement index c := by
  unfold elementLookup at h
  split at h
  · next integer =>
    cases h
    constructor
    · intro h
      obtain ⟨v, found, h⟩ := bind_eq_ok.mp h
      have made : (Constant.ofIntegerTag? tag v).isSome := by
        rw [Constant.isSome_ofIntegerTag? tag v 0, integer]
      obtain ⟨c', hc'⟩ := Option.isSome_iff_exists.mp made
      rw [hc'] at h
      cases h
      obtain ⟨rfl, kind⟩ := Constant.tag_of_ofIntegerTag? hc'
      exact ⟨rfl, (hasElement_iff_of_isInteger kind).mpr ⟨v, found, hc'⟩⟩
    · rintro ⟨rfl, found⟩
      obtain ⟨v, found, kind⟩ :=
        (hasElement_iff_of_isInteger (isInteger_iff_tag.mpr integer)).mp found
      exact bind_eq_ok.mpr ⟨v, found, by rw [kind]; rfl⟩
  · -- Each remaining tag has one kind, and the lookup of that kind.
    repeat' split at h
    all_goals cases h
    all_goals
      rw [beq_iff_eq] at *
      subst tag
      constructor
      · intro found
        obtain ⟨e, entry, picked⟩ := bind_eq_ok.mp found
        first
        | cases e <;> cases picked <;> exact ⟨rfl, found⟩
        | (cases picked; exact ⟨rfl, entry⟩)
      · rintro ⟨tag, found⟩
        cases c <;> first
        | exact found
        | exact bind_eq_ok.mpr ⟨_, found, rfl⟩
        | cases tag

theorem scanElement_eq_ok {d : ByteArray} {t : ConstantTable} {tag : UInt8}
    {lookup : UInt16 → Except ReadError Constant} (h : elementLookup t tag = some lookup)
    {offset stop : Nat} {c : Constant} :
    scanElement d lookup offset = .ok (c, stop) ↔
      c.tag = tag ∧ stop = offset + 2 ∧
        ∃ i, HoldsAt d offset (bytesU2 i) ∧ t.HasElement i c := by
  simp only [scanElement, bind_eq_ok, pure_eq_ok, Prod.exists, scanU2_eq_ok, Prod.mk.injEq]
  constructor
  · rintro ⟨i, _, ⟨index, rfl⟩, _, found, rfl, rfl⟩
    obtain ⟨tag, found⟩ := (elementLookup_eq_ok h).mp found
    exact ⟨tag, rfl, i, index, found⟩
  · rintro ⟨tag, rfl, i, index, found⟩
    exact ⟨i, _, ⟨index, rfl⟩, c, (elementLookup_eq_ok h).mpr ⟨tag, found⟩, rfl, rfl⟩

/-- Every constant has a tag with a lookup. -/
theorem exists_elementLookup (t : ConstantTable) (c : Constant) :
    ∃ lookup, elementLookup t c.tag = some lookup := by
  cases c <;> exact ⟨_, rfl⟩

/-! ## Reading a list of values -/

theorem scanUtf8Ref_eq_ok {d : ByteArray} {t : ConstantTable} {offset stop : Nat} {value : Text} :
    scanUtf8Ref d t offset = .ok (value, stop) ↔
      stop = offset + 2 ∧ ∃ i, HoldsAt d offset (bytesU2 i) ∧ t.utf8At i = .ok value := by
  simp only [scanUtf8Ref, bind_eq_ok, pure_eq_ok, Prod.exists, scanU2_eq_ok, Prod.mk.injEq]
  constructor
  · rintro ⟨i, _, ⟨index, rfl⟩, _, found, rfl, rfl⟩
    exact ⟨rfl, i, index, found⟩
  · rintro ⟨rfl, i, index, found⟩
    exact ⟨i, _, ⟨index, rfl⟩, value, found, rfl, rfl⟩

/-- One item of a list of values, with its name or without. -/
def readItem (d : ByteArray) (t : ConstantTable) (named : Bool)
    (readValue : Text → Nat → Delivery Nat) (offset : Nat) : Delivery Nat :=
  if named then do
    let (name, offset) ← readUtf8Ref d t offset
    readValue name offset
  else readValue [] offset

theorem readNamedValues_eq (d : ByteArray) (t : ConstantTable)
    (readValue : Text → Nat → Delivery Nat) (offset : Nat) :
    readNamedValues d t readValue offset = (do
      let (count, offset) ← .ofExcept (scanU2 d offset)
      let offset ← Delivery.fold (fun offset _ => readItem d t true readValue offset) offset
        (List.range count.toNat)
      .deliver (.value .close)
      return offset) :=
  rfl

theorem readElements_eq (d : ByteArray) (t : ConstantTable)
    (readValue : Text → Nat → Delivery Nat) (count offset : Nat) :
    readElements readValue count offset = (do
      let offset ← Delivery.fold (fun offset _ => readItem d t false readValue offset) offset
        (List.range count)
      .deliver (.value .close)
      return offset) :=
  rfl

/-- A name is read where its bytes stand, and then the value behind it. -/
theorem readItem_eq_ok {d : ByteArray} {t : ConstantTable} {named : Bool}
    {readValue : Text → Nat → Delivery Nat} {offset stop : Nat} {events : List Event}
    (inside : offset ≤ d.size) :
    readItem d t named readValue offset = ⟨events, .ok stop⟩ ↔
      ∃ name bs, NameEncodedBy t named name bs ∧ HoldsAt d offset bs ∧
        readValue name (offset + bs.length) = ⟨events, .ok stop⟩ := by
  cases named with
  | false =>
    constructor
    · intro h
      exact ⟨[], [], ⟨rfl, rfl⟩, HoldsAt.nil_iff.mpr inside, h⟩
    · rintro ⟨name, bs, ⟨rfl, rfl⟩, -, h⟩
      exact h
  | true =>
    simp only [readItem, readUtf8Ref, if_true, Delivery.bind_eq_ok, Delivery.ofExcept_eq_ok,
      Prod.exists, scanUtf8Ref_eq_ok, NameEncodedBy]
    constructor
    · rintro ⟨_, name, _, _, ⟨rfl, rfl, i, index, found⟩, h, rfl⟩
      exact ⟨name, _, ⟨i, found, rfl⟩, index, h⟩
    · rintro ⟨name, _, ⟨i, found, rfl⟩, index, h⟩
      exact ⟨[], name, _, events, ⟨rfl, rfl, i, index, found⟩, h, rfl⟩

/-! ## Encoded values are read -/

section Reading

variable {d : ByteArray} {t : ConstantTable}

/-- The events of a list of values with the event that closes it. -/
def Values.closed (vs : Values) : List Event := (vs.events ++ [ValueEvent.close]).map .value

theorem readUtf8Ref_eq_ok {offset stop : Nat} {events : List Event} {value : Text} :
    readUtf8Ref d t offset = ⟨events, .ok (value, stop)⟩ ↔
      events = [] ∧ stop = offset + 2 ∧
        ∃ i, HoldsAt d offset (bytesU2 i) ∧ t.utf8At i = .ok value := by
  rw [readUtf8Ref, Delivery.ofExcept_eq_ok, scanUtf8Ref_eq_ok]

/-- What is read behind the tag of a constant. -/
theorem readValue_of_lookup {levels offset : Nat} {tag : UInt8} {name : Text}
    {lookup : UInt16 → Except ReadError Constant} (held : HoldsAt d offset [tag])
    (constant : elementLookup t tag = some lookup) :
    readValue d t (levels + 1) name offset = (do
      let (value, offset) ← .ofExcept (scanElement d lookup (offset + 1))
      .deliver (.value (.constant name value))
      return offset) := by
  rw [readValue, scanU1_eq_ok.mpr ⟨held, rfl⟩, Delivery.ofExcept_ok, Delivery.ok_bind]
  simp only [constant]
  rfl

/-- What is read behind a tag that no constant has. -/
theorem readValue_of_tag {levels offset : Nat} {tag : UInt8} {name : Text}
    (held : HoldsAt d offset [tag]) (noConstant : elementLookup t tag = none) :
    readValue d t (levels + 1) name offset =
      if tag == 101 then do
        let (descriptor, offset) ← readUtf8Ref d t (offset + 1)
        let (value, offset) ← readUtf8Ref d t offset
        .deliver (.value (.enum name descriptor value))
        return offset
      else if tag == 64 then do
        let (descriptor, offset) ← readUtf8Ref d t (offset + 1)
        .deliver (.value (.nested name descriptor))
        readNamedValues d t (readValue d t levels) offset
      else if tag == 91 then do
        let (count, offset) ← .ofExcept (scanU2 d (offset + 1))
        .deliver (.value (.array name))
        readElements (readValue d t levels) count.toNat offset
      else .fail (.unknownValue tag offset) := by
  rw [readValue, scanU1_eq_ok.mpr ⟨held, rfl⟩, Delivery.ofExcept_ok, Delivery.ok_bind]
  simp only [noConstant]
  rfl

/-- A list closes behind its values. -/
theorem closing_eq_ok {m : Delivery Nat} {events : List Event} {stop : Nat} :
    (do let offset ← m; .deliver (.value .close); return offset) = ⟨events, .ok stop⟩ ↔
      ∃ inner, m = ⟨inner, .ok stop⟩ ∧ events = inner ++ [.value .close] := by
  simp only [Delivery.bind_eq_ok, Delivery.deliver_eq_ok, Delivery.pure_eq_ok]
  constructor
  · rintro ⟨inner, _, _, h, ⟨_, _, _, rfl, ⟨rfl, rfl⟩, rfl⟩, rfl⟩
    exact ⟨inner, h, rfl⟩
  · rintro ⟨inner, h, rfl⟩
    exact ⟨inner, stop, _, h, ⟨_, (), _, rfl, ⟨rfl, rfl⟩, rfl⟩, rfl⟩

mutual

/-- The encoding of a value is read as the value. -/
theorem readValue_of_encodedBy : ∀ (v : Value) {levels offset : Nat} {bs : Text} (name : Text),
    v.EncodedBy t bs → v.nesting < levels → HoldsAt d offset bs →
      readValue d t levels name offset =
        ⟨(v.events name).map .value, .ok (offset + bs.length)⟩
  | .constant c, levels + 1, offset, _, name, encoded, _, held => by
    rw [Value.EncodedBy] at encoded
    obtain ⟨i, found, rfl⟩ := encoded
    obtain ⟨htag, hindex⟩ := HoldsAt.cons_iff.mp held
    obtain ⟨lookup, hlookup⟩ := exists_elementLookup t c
    rw [readValue_of_lookup htag hlookup, (scanElement_eq_ok hlookup).mpr ⟨rfl, rfl, i, hindex, found⟩]
    rfl
  | .enum descriptor value, levels + 1, offset, _, name, encoded, _, held => by
    rw [Value.EncodedBy] at encoded
    obtain ⟨i, j, hi, hj, rfl⟩ := encoded
    obtain ⟨htag, held⟩ := HoldsAt.cons_iff.mp held
    have first := readUtf8Ref_eq_ok.mpr ⟨rfl, rfl, i, held.left, hi⟩
    have second := readUtf8Ref_eq_ok.mpr ⟨rfl, rfl, j, held.right, hj⟩
    rw [readValue_of_tag htag rfl]
    refine Delivery.bind_eq_ok.mpr ⟨_, _, _, first, ?_, rfl⟩
    refine Delivery.bind_eq_ok.mpr ⟨_, _, _, second, ?_, rfl⟩
    rfl
  | .nested descriptor values, levels + 1, offset, _, name, encoded, nesting, held => by
    rw [Value.EncodedBy] at encoded
    obtain ⟨i, items, hi, hitems, count, rfl⟩ := encoded
    rw [Value.nesting] at nesting
    obtain ⟨htag, held⟩ := HoldsAt.cons_iff.mp held
    have type := readUtf8Ref_eq_ok.mpr ⟨rfl, rfl, i, held.left, hi⟩
    have number := scanU2_eq_ok.mpr ⟨held.right.left, rfl⟩
    have inner := fold_of_encodedBy values hitems (Nat.le_of_lt_succ nesting) held.right.right
      (List.range values.length.toUInt16.toNat) (by rw [List.length_range, toNat_toUInt16 count])
    rw [readValue_of_tag htag rfl]
    refine Delivery.bind_eq_ok.mpr ⟨_, _, _, type, ?_, rfl⟩
    refine Delivery.bind_eq_ok.mpr
      ⟨_, (), _, Delivery.deliver_eq_ok.mpr rfl, ?_, List.map_cons⟩
    rw [readNamedValues_eq]
    refine Delivery.bind_eq_ok.mpr ⟨_, _, _, Delivery.ofExcept_eq_ok.mpr ⟨rfl, number⟩, ?_, rfl⟩
    refine closing_eq_ok.mpr ⟨_, ?_, List.map_append⟩
    have stop : offset + (64 :: (bytesU2 i ++ (bytesU2 values.length.toUInt16 ++ items))).length =
        offset + 1 + 2 + 2 + items.length := by
      simp only [List.length_cons, List.length_append, length_bytesU2]
      omega
    rw [stop]
    exact inner
  | .array elements, levels + 1, offset, _, name, encoded, nesting, held => by
    rw [Value.EncodedBy] at encoded
    obtain ⟨items, hitems, count, rfl⟩ := encoded
    rw [Value.nesting] at nesting
    obtain ⟨htag, held⟩ := HoldsAt.cons_iff.mp held
    have number := scanU2_eq_ok.mpr ⟨held.left, rfl⟩
    have inner := fold_of_encodedBy elements hitems (Nat.le_of_lt_succ nesting) held.right
      (List.range elements.length.toUInt16.toNat)
      (by rw [List.length_range, toNat_toUInt16 count])
    rw [readValue_of_tag htag rfl]
    refine Delivery.bind_eq_ok.mpr ⟨_, _, _, Delivery.ofExcept_eq_ok.mpr ⟨rfl, number⟩, ?_, rfl⟩
    refine Delivery.bind_eq_ok.mpr
      ⟨_, (), _, Delivery.deliver_eq_ok.mpr rfl, ?_, List.map_cons⟩
    rw [readElements_eq d t]
    refine closing_eq_ok.mpr ⟨_, ?_, List.map_append⟩
    have stop : offset + (91 :: (bytesU2 elements.length.toUInt16 ++ items)).length =
        offset + 1 + 2 + items.length := by
      simp only [List.length_cons, List.length_append, length_bytesU2]
      omega
    rw [stop]
    exact inner

/-- The encodings of values are read as the values, whatever numbers them. -/
theorem fold_of_encodedBy : ∀ (vs : Values) {levels offset : Nat} {named : Bool} {bs : Text},
    vs.EncodedBy t named bs → vs.nesting ≤ levels → HoldsAt d offset bs →
      ∀ numbers : List Nat, numbers.length = vs.length →
        Delivery.fold (fun offset _ => readItem d t named (readValue d t levels) offset) offset
          numbers = ⟨vs.events.map .value, .ok (offset + bs.length)⟩
  | .nil, levels, offset, named, _, encoded, _, held, numbers, length => by
    rw [Values.EncodedBy] at encoded
    subst encoded
    cases numbers with
    | nil => rfl
    | cons n numbers => cases length
  | .cons name v rest, levels, offset, named, _, encoded, nesting, held, numbers, length => by
    rw [Values.EncodedBy] at encoded
    obtain ⟨front, item, back, hname, hitem, hback, rfl⟩ := encoded
    rw [Values.nesting] at nesting
    have first : v.nesting < levels := by omega
    have others : rest.nesting ≤ levels := by omega
    have inside : offset ≤ d.size := held.1
    cases numbers with
    | nil => cases length
    | cons n numbers =>
      have value := readValue_of_encodedBy v name hitem first held.right.left
      have this := (readItem_eq_ok inside).mpr ⟨name, front, hname, held.left, value⟩
      have behind := fold_of_encodedBy rest hback others held.right.right numbers
        (Nat.succ.inj length)
      refine Delivery.fold_cons_eq_ok.mpr ⟨_, _, rest.events.map .value, this, ?_, ?_⟩
      · rw [behind, List.length_append, List.length_append, Nat.add_assoc, Nat.add_assoc]
      · rw [Values.events, List.map_append]

end

/-! ## What is read was encoded -/

/-- Where the values of one level are encodings, so are lists of them. -/
theorem exists_encodedBy_of_fold {levels : Nat} {named : Bool}
    (sound : ∀ {name : Text} {offset stop : Nat} {events : List Event},
      readValue d t levels name offset = ⟨events, .ok stop⟩ →
        ∃ v bs, Value.EncodedBy t v bs ∧ v.nesting < levels ∧ HoldsAt d offset bs ∧
          stop = offset + bs.length ∧ events = (v.events name).map .value)
    {numbers : List Nat} {offset stop : Nat} {events : List Event} (inside : offset ≤ d.size)
    (h : Delivery.fold (fun offset _ => readItem d t named (readValue d t levels) offset) offset
      numbers = ⟨events, .ok stop⟩) :
    ∃ vs bs, Values.EncodedBy t named vs bs ∧ vs.nesting ≤ levels ∧ vs.length = numbers.length ∧
      HoldsAt d offset bs ∧ stop = offset + bs.length ∧ events = vs.events.map .value := by
  induction numbers generalizing offset events with
  | nil =>
    obtain ⟨rfl, rfl⟩ := Delivery.fold_nil_eq_ok.mp h
    exact ⟨.nil, [], rfl, Nat.zero_le _, rfl, HoldsAt.nil_iff.mpr inside, rfl, rfl⟩
  | cons n numbers ih =>
    obtain ⟨first, middle, second, item, rest, rfl⟩ := Delivery.fold_cons_eq_ok.mp h
    obtain ⟨name, front, hname, hfront, item⟩ := (readItem_eq_ok inside).mp item
    obtain ⟨v, value, encoded, nesting, hvalue, rfl, rfl⟩ := sound item
    obtain ⟨vs, back, hvs, others, length, hback, rfl, rfl⟩ := ih hvalue.le rest
    refine ⟨.cons name v vs, front ++ (value ++ back), ⟨front, value, back, hname, encoded, hvs, rfl⟩,
      ?_, congrArg Nat.succ length, hfront.append (hvalue.append hback), ?_, ?_⟩
    · rw [Values.nesting]
      omega
    · simp only [List.length_append]
      omega
    · rw [Values.events, List.map_append]

/-- A value that is read stands in the file as an encoding, and the values inside it
have as many lists around them as the levels allow. -/
theorem exists_encodedBy_of_readValue {levels : Nat} {name : Text} {offset stop : Nat}
    {events : List Event} (h : readValue d t levels name offset = ⟨events, .ok stop⟩) :
    ∃ v bs, Value.EncodedBy t v bs ∧ v.nesting < levels ∧ HoldsAt d offset bs ∧
      stop = offset + bs.length ∧ events = (v.events name).map .value := by
  induction levels generalizing name offset stop events with
  | zero =>
    cases h
  | succ levels ih =>
    obtain ⟨tag, htag⟩ : ∃ tag, HoldsAt d offset [tag] := by
      rw [readValue] at h
      obtain ⟨_, ⟨tag, _⟩, _, start, -⟩ := Delivery.bind_eq_ok.mp h
      exact ⟨tag, (scanU1_eq_ok.mp (Delivery.ofExcept_eq_ok.mp start).2).1⟩
    cases hlookup : elementLookup t tag with
    | some lookup =>
      rw [readValue_of_lookup htag hlookup] at h
      simp only [Delivery.bind_eq_ok, Delivery.ofExcept_eq_ok, Prod.exists,
        scanElement_eq_ok hlookup, Delivery.deliver_eq_ok, Delivery.pure_eq_ok] at h
      obtain ⟨_, c, _, _, ⟨rfl, rfl, rfl, i, index, found⟩, ⟨_, _, _, rfl, ⟨rfl, rfl⟩, rfl⟩, rfl⟩ := h
      exact ⟨.constant c, _, ⟨i, found, rfl⟩, Nat.succ_pos _, HoldsAt.cons_iff.mpr ⟨htag, index⟩,
        rfl, rfl⟩
    | none =>
      rw [readValue_of_tag htag hlookup] at h
      split at h
      · next enum =>
        simp only [Delivery.bind_eq_ok, Prod.exists, readUtf8Ref_eq_ok, Delivery.deliver_eq_ok,
          Delivery.pure_eq_ok] at h
        obtain ⟨_, descriptor, _, _, ⟨rfl, rfl, i, hi, type⟩, ⟨_, value, _, _,
          ⟨rfl, rfl, j, hj, constant⟩, ⟨_, _, _, rfl, ⟨rfl, rfl⟩, rfl⟩, rfl⟩, rfl⟩ := h
        rw [beq_iff_eq.mp enum] at htag
        exact ⟨.enum descriptor value, _, ⟨i, j, type, constant, rfl⟩, Nat.succ_pos _,
          HoldsAt.cons_iff.mpr ⟨htag, hi.append hj⟩, rfl, rfl⟩
      split at h
      · next nested =>
        simp only [readNamedValues_eq, Delivery.bind_eq_ok (m := readUtf8Ref _ _ _),
          Delivery.bind_eq_ok (m := Delivery.deliver _),
          Delivery.bind_eq_ok (m := Delivery.ofExcept _), closing_eq_ok, Delivery.ofExcept_eq_ok,
          Prod.exists, readUtf8Ref_eq_ok, Delivery.deliver_eq_ok, scanU2_eq_ok] at h
        obtain ⟨_, descriptor, _, _, ⟨rfl, rfl, i, hi, type⟩, ⟨_, _, _, rfl, ⟨_, count, _, _,
          ⟨rfl, number, rfl⟩, ⟨inner, h, rfl⟩, rfl⟩, rfl⟩, rfl⟩ := h
        obtain ⟨vs, bs, encoded, nesting, length, held, rfl, rfl⟩ :=
          exists_encodedBy_of_fold ih number.le h
        rw [List.length_range] at length
        rw [beq_iff_eq.mp nested] at htag
        have counted := toUInt16_of_eq_toNat length
        rw [counted] at number held
        refine ⟨.nested descriptor vs, _, ⟨i, bs, type, encoded, le_of_eq_toNat length, rfl⟩,
          Nat.lt_succ_of_le nesting,
          HoldsAt.cons_iff.mpr ⟨htag, hi.append (number.append held)⟩, ?_, ?_⟩
        · simp only [List.length_cons, List.length_append, length_bytesU2]
          omega
        · simp [Value.events]
      split at h
      · next array =>
        simp only [readElements_eq d t, Delivery.bind_eq_ok (m := Delivery.deliver _),
          Delivery.bind_eq_ok (m := Delivery.ofExcept _), closing_eq_ok, Delivery.ofExcept_eq_ok,
          Prod.exists, Delivery.deliver_eq_ok, scanU2_eq_ok] at h
        obtain ⟨_, count, _, _, ⟨rfl, number, rfl⟩, ⟨_, _, _, rfl, ⟨inner, h, rfl⟩, rfl⟩, rfl⟩ := h
        obtain ⟨vs, bs, encoded, nesting, length, held, rfl, rfl⟩ :=
          exists_encodedBy_of_fold ih number.le h
        rw [List.length_range] at length
        rw [beq_iff_eq.mp array] at htag
        have counted := toUInt16_of_eq_toNat length
        rw [counted] at number held
        refine ⟨.array vs, _, ⟨bs, encoded, le_of_eq_toNat length, rfl⟩, Nat.lt_succ_of_le nesting,
          HoldsAt.cons_iff.mpr ⟨htag, number.append held⟩, ?_, ?_⟩
        · simp only [List.length_cons, List.length_append, length_bytesU2]
          omega
        · simp [Value.events]
      · cases h

/-- A value is read exactly where an encoding of it stands, if the values inside it
have no more lists around them than the levels allow. -/
theorem readValue_eq_ok {levels : Nat} {name : Text} {offset stop : Nat} {events : List Event} :
    readValue d t levels name offset = ⟨events, .ok stop⟩ ↔
      ∃ v bs, Value.EncodedBy t v bs ∧ v.nesting < levels ∧ HoldsAt d offset bs ∧
        stop = offset + bs.length ∧ events = (v.events name).map .value := by
  constructor
  · exact exists_encodedBy_of_readValue
  · rintro ⟨v, bs, encoded, nesting, held, rfl, rfl⟩
    exact readValue_of_encodedBy v name encoded nesting held

/-- A list of named values is read exactly where its count and encodings of the values
stand. -/
theorem readNamedValues_eq_ok {levels offset stop : Nat} {events : List Event} :
    readNamedValues d t (readValue d t levels) offset = ⟨events, .ok stop⟩ ↔
      ∃ vs bs, Values.EncodedBy t true vs bs ∧ vs.nesting ≤ levels ∧ vs.length ≤ 0xFFFF ∧
        HoldsAt d offset (bytesU2 vs.length.toUInt16 ++ bs) ∧
        stop = offset + 2 + bs.length ∧ events = vs.closed := by
  rw [readNamedValues_eq]
  simp only [Delivery.bind_eq_ok (m := Delivery.ofExcept _), closing_eq_ok,
    Delivery.ofExcept_eq_ok, Prod.exists, scanU2_eq_ok]
  constructor
  · rintro ⟨_, count, _, _, ⟨rfl, number, rfl⟩, ⟨inner, h, rfl⟩, rfl⟩
    obtain ⟨vs, bs, encoded, nesting, length, held, rfl, rfl⟩ :=
      exists_encodedBy_of_fold exists_encodedBy_of_readValue number.le h
    rw [List.length_range] at length
    rw [toUInt16_of_eq_toNat length] at number
    refine ⟨vs, bs, encoded, nesting, le_of_eq_toNat length, number.append held, rfl, ?_⟩
    rw [Values.closed, List.map_append]
    rfl
  · rintro ⟨vs, bs, encoded, nesting, count, held, rfl, rfl⟩
    have inner := fold_of_encodedBy vs encoded nesting held.right
      (List.range vs.length.toUInt16.toNat) (by rw [List.length_range, toNat_toUInt16 count])
    exact ⟨[], _, _, _, ⟨rfl, held.left, rfl⟩, ⟨_, inner, rfl⟩, List.map_append⟩

end Reading

end ClassAbi
