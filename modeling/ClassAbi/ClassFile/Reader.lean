import ClassAbi.ClassFile.Delivery
import ClassAbi.ClassFile.Layout

/-!
# Reading a class file

`readClass` delivers the declarations of a class file as events: the header, the
annotations of the class, the fields, the methods and the end.  Method bodies,
debug information and unknown attributes are left out.

`ClassLayout.scan` comes first, so a file that ends too early delivers nothing.
After it, members are read one after the other and each in a fixed order, however
the file orders their attributes.

An annotation is read from where its attribute begins.  Its own counts say where
it ends, and only the end of the file bounds it.  Values may nest in at most
`nestingLimit` lists.
-/

namespace ClassAbi

/-! ## Annotation values -/

/-- The greatest number of lists around an annotation value, not counting the
annotation itself. -/
def nestingLimit : Nat := 128

/-- A text that a number at `offset` refers to. -/
def readUtf8Ref (d : ByteArray) (t : ConstantTable) (offset : Nat) : Delivery (Text × Nat) :=
  .ofExcept (scanUtf8Ref d t offset)

/-- The values of an annotation: their count, then name and value of each.  The
list closes behind them. -/
def readNamedValues (d : ByteArray) (t : ConstantTable)
    (readValue : Text → Nat → Delivery Nat) (offset : Nat) : Delivery Nat := do
  let (count, offset) ← .ofExcept (scanU2 d offset)
  let offset ← Delivery.fold (fun offset _ => do
    let (name, offset) ← readUtf8Ref d t offset
    readValue name offset) offset (List.range count.toNat)
  .deliver (.value .close)
  return offset

/-- The elements of an array.  The list closes behind them. -/
def readElements (readValue : Text → Nat → Delivery Nat) (count offset : Nat) :
    Delivery Nat := do
  let offset ← Delivery.fold (fun offset _ => readValue [] offset) offset (List.range count)
  .deliver (.value .close)
  return offset

/-- How the constant with an index is looked up, for the tag of a constant value.
Other tags have no lookup. -/
def elementLookup (t : ConstantTable) (tag : UInt8) :
    Option (UInt16 → Except ReadError Constant) :=
  if (Constant.ofIntegerTag? tag 0).isSome then
    some fun index => do
      let value ← t.integerAt index
      return (Constant.ofIntegerTag? tag value).getD (.int value)
  else if tag == 74 then some t.longAt                         -- J
  else if tag == 70 then some t.floatAt                        -- F
  else if tag == 68 then some t.doubleAt                       -- D
  else if tag == 115 then                                      -- s
    some fun index => do return .string (← t.utf8At index)
  else if tag == 99 then                                       -- c
    some fun index => do return .classLiteral (← t.utf8At index)
  else none

/-- The constant that an index at `offset` refers to. -/
def scanElement (d : ByteArray) (lookup : UInt16 → Except ReadError Constant) (offset : Nat) :
    Except ReadError (Constant × Nat) := do
  let (index, offset) ← scanU2 d offset
  let value ← lookup index
  return (value, offset)

/-- A value at `offset`, in which values may nest in `levels - 1` more lists. -/
def readValue (d : ByteArray) (t : ConstantTable) :
    (levels : Nat) → (name : Text) → (offset : Nat) → Delivery Nat
  | 0, _, _ => .fail .nestedTooDeeply
  | levels + 1, name, start => do
    let (tag, offset) ← .ofExcept (scanU1 d start)
    match elementLookup t tag with
    | some lookup => do
      let (value, offset) ← .ofExcept (scanElement d lookup offset)
      .deliver (.value (.constant name value))
      return offset
    | none =>
      if tag == 101 then do                                    -- e
        let (descriptor, offset) ← readUtf8Ref d t offset
        let (value, offset) ← readUtf8Ref d t offset
        .deliver (.value (.enum name descriptor value))
        return offset
      else if tag == 64 then do                                -- @
        let (descriptor, offset) ← readUtf8Ref d t offset
        .deliver (.value (.nested name descriptor))
        readNamedValues d t (readValue d t levels) offset
      else if tag == 91 then do                                -- [
        let (count, offset) ← .ofExcept (scanU2 d offset)
        .deliver (.value (.array name))
        readElements (readValue d t levels) count.toNat offset
      else .fail (.unknownValue tag start)

/-- A value that no list encloses. -/
def readOuterValue (d : ByteArray) (t : ConstantTable) (name : Text) (offset : Nat) :
    Delivery Nat :=
  readValue d t (nestingLimit + 1) name offset

/-! ## Annotations -/

/-- Annotations with their count in front, each opened by `opening`. -/
def readAnnotations (d : ByteArray) (t : ConstantTable) (opening : Text → Event) (offset : Nat) :
    Delivery Nat := do
  let (count, offset) ← .ofExcept (scanU2 d offset)
  Delivery.fold (fun offset _ => do
    let (descriptor, offset) ← readUtf8Ref d t offset
    .deliver (opening descriptor)
    readNamedValues d t (readOuterValue d t) offset) offset (List.range count.toNat)

/-- The annotations at a noted place. -/
def readAnnotationsAt (d : ByteArray) (t : ConstantTable) (opening : Text → Event) :
    Option Nat → Delivery Unit
  | none => return
  | some offset => do
    let _ ← readAnnotations d t opening offset
    return

/-- Parameter annotations: the number of parameters, then the annotations of each. -/
def readParameterAnnotations (d : ByteArray) (t : ConstantTable) (visible : Bool)
    (offset : Nat) : Delivery Nat := do
  let (count, offset) ← .ofExcept (scanU1 d offset)
  .deliver (.parameterCount count.toNat visible)
  Delivery.fold (fun offset (parameter : Nat) =>
    readAnnotations d t (fun descriptor => .annotateParameter parameter descriptor visible)
      offset) offset (List.range count.toNat)

/-- The parameter annotations at a noted place. -/
def readParameterAnnotationsAt (d : ByteArray) (t : ConstantTable) (visible : Bool) :
    Option Nat → Delivery Unit
  | none => return
  | some offset => do
    let _ ← readParameterAnnotations d t visible offset
    return

/-- The default value at a noted place. -/
def readDefaultAt (d : ByteArray) (t : ConstantTable) : Option Nat → Delivery Unit
  | none => return
  | some offset => do
    .deliver .default
    let _ ← readOuterValue d t [] offset
    .deliver (.value .close)

/-! ## Members -/

/-- The initial value at a noted place, for a field with the given descriptor. -/
def constantValueAt (d : ByteArray) (t : ConstantTable) (descriptor : Text) :
    Option Nat → Except ReadError (Option Constant)
  | none => .ok none
  | some offset => do
    let (index, _) ← scanU2 d offset
    let value ← t.constantAt descriptor index
    return some value

/-- The exceptions at a noted place. -/
def exceptionsAt (d : ByteArray) (t : ConstantTable) :
    Option Nat → Except ReadError (Option (List Text))
  | none => .ok none
  | some offset => do
    let (names, _) ← scanClassRefs d t offset
    return some names

/-- The header of a field. -/
def fieldHeader (d : ByteArray) (t : ConstantTable) (m : MemberLayout) :
    Except ReadError FieldHeader := do
  let name ← t.utf8At m.name
  let descriptor ← t.utf8At m.descriptor
  let signature ← signatureAt d t m.attributes.signature
  let value ← constantValueAt d t descriptor m.attributes.constantValue
  return { access := .ofFlags m.flags m.attributes.deprecated, name, descriptor, signature, value }

/-- The header of a method. -/
def methodHeader (d : ByteArray) (t : ConstantTable) (m : MemberLayout) :
    Except ReadError MethodHeader := do
  let name ← t.utf8At m.name
  let descriptor ← t.utf8At m.descriptor
  let signature ← signatureAt d t m.attributes.signature
  let exceptions ← exceptionsAt d t m.attributes.exceptions
  return {
    access := .ofFlags m.flags m.attributes.deprecated, name, descriptor, signature, exceptions }

/-- A field with its annotations. -/
def readField (d : ByteArray) (t : ConstantTable) (m : MemberLayout) : Delivery Unit := do
  let h ← .ofExcept (fieldHeader d t m)
  .deliver (.field h)
  readAnnotationsAt d t (.annotateField · true) m.attributes.visibleAnnotations
  readAnnotationsAt d t (.annotateField · false) m.attributes.invisibleAnnotations
  .deliver .fieldEnd

/-- A method with its default, its annotations and those of its parameters. -/
def readMethod (d : ByteArray) (t : ConstantTable) (m : MemberLayout) : Delivery Unit := do
  let h ← .ofExcept (methodHeader d t m)
  .deliver (.method h)
  readDefaultAt d t m.attributes.annotationDefault
  readAnnotationsAt d t (.annotateMethod · true) m.attributes.visibleAnnotations
  readAnnotationsAt d t (.annotateMethod · false) m.attributes.invisibleAnnotations
  readParameterAnnotationsAt d t true m.attributes.visibleParameterAnnotations
  readParameterAnnotationsAt d t false m.attributes.invisibleParameterAnnotations
  .deliver .methodEnd

/-! ## Classes -/

/-- The declarations of a class file that has been gone through. -/
def ClassLayout.read (d : ByteArray) (c : ClassLayout) : Delivery Unit := do
  .deliver (.header c.header)
  readAnnotationsAt d c.table (.annotate · true) c.attributes.visibleAnnotations
  readAnnotationsAt d c.table (.annotate · false) c.attributes.invisibleAnnotations
  Delivery.fold (fun _ m => readField d c.table m) () c.fields.toList
  Delivery.fold (fun _ m => readMethod d c.table m) () c.methods.toList
  .deliver .classEnd

/-- The declarations of a class file. -/
def readClass (d : ByteArray) : Delivery Unit := do
  let c ← .ofExcept (ClassLayout.scan d)
  c.read d

end ClassAbi
