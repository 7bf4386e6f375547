import ClassAbi.ClassFile.ConstantTable
import ClassAbi.ClassFile.Event
import ClassAbi.ClassFile.Magic

/-!
# The layout of a class file

A class file is its version, its constant pool, the class header, the fields,
the methods and the attributes of the class (JVMS 4.1).  The header event needs
the generic signature, which is an attribute of the class and so stands at the
end.  `ClassLayout.scan` therefore goes through the whole file once and notes
where the attributes of the class and of each member are.  It delivers nothing.

Attributes are known by name.  Those that matter have a shortest possible
length, checked here, so that their first number can always be read.
-/

namespace ClassAbi

/-- Where the attributes of one owner have their contents.  Of several with one
name the last counts. -/
structure AttributeLocations where
  /-- The generic signature. -/
  signature : Option Nat := none
  /-- The initial value of a field. -/
  constantValue : Option Nat := none
  /-- The declared exceptions of a method. -/
  exceptions : Option Nat := none
  /-- The default value of an annotation element. -/
  annotationDefault : Option Nat := none
  /-- The annotations visible at run time. -/
  visibleAnnotations : Option Nat := none
  /-- The other annotations. -/
  invisibleAnnotations : Option Nat := none
  /-- The parameter annotations visible at run time. -/
  visibleParameterAnnotations : Option Nat := none
  /-- The other parameter annotations. -/
  invisibleParameterAnnotations : Option Nat := none
  /-- Whether there is a mark of deprecation. -/
  deprecated : Bool := false
deriving DecidableEq, Repr, Inhabited

namespace AttributeLocations

/-- The shortest contents of an attribute that matters. -/
def shortestLength (name : Text) : Nat :=
  if name == Text.ascii "Signature" || name == Text.ascii "ConstantValue" ||
      name == Text.ascii "Exceptions" || name == Text.ascii "RuntimeVisibleAnnotations" ||
      name == Text.ascii "RuntimeInvisibleAnnotations" then 2
  else if name == Text.ascii "AnnotationDefault" ||
      name == Text.ascii "RuntimeVisibleParameterAnnotations" ||
      name == Text.ascii "RuntimeInvisibleParameterAnnotations" then 1
  else 0

/-- Notes an attribute whose contents stand at `offset`.  An attribute of
another name changes nothing. -/
def note (a : AttributeLocations) (name : Text) (offset : Nat) : AttributeLocations :=
  if name == Text.ascii "Signature" then { a with signature := some offset }
  else if name == Text.ascii "ConstantValue" then { a with constantValue := some offset }
  else if name == Text.ascii "Exceptions" then { a with exceptions := some offset }
  else if name == Text.ascii "AnnotationDefault" then { a with annotationDefault := some offset }
  else if name == Text.ascii "RuntimeVisibleAnnotations" then
    { a with visibleAnnotations := some offset }
  else if name == Text.ascii "RuntimeInvisibleAnnotations" then
    { a with invisibleAnnotations := some offset }
  else if name == Text.ascii "RuntimeVisibleParameterAnnotations" then
    { a with visibleParameterAnnotations := some offset }
  else if name == Text.ascii "RuntimeInvisibleParameterAnnotations" then
    { a with invisibleParameterAnnotations := some offset }
  else if name == Text.ascii "Deprecated" then { a with deprecated := true }
  else a

/-- Goes through `count` attributes. -/
def scanEach (d : ByteArray) (t : ConstantTable) :
    (count offset : Nat) → AttributeLocations → Except ReadError (AttributeLocations × Nat)
  | 0, offset, a => .ok (a, offset)
  | count + 1, offset, a => do
    let (nameIndex, offset) ← scanU2 d offset
    let (length, offset) ← scanU4 d offset
    let name ← t.utf8At nameIndex
    let stop ← skipBytes d offset length.toNat
    if length.toNat < shortestLength name then .error (.shortAttribute name offset)
    else scanEach d t count stop (a.note name offset)

/-- Goes through a list of attributes with its count in front. -/
def scan (d : ByteArray) (t : ConstantTable) (offset : Nat) :
    Except ReadError (AttributeLocations × Nat) := do
  let (count, offset) ← scanU2 d offset
  scanEach d t count.toNat offset {}

end AttributeLocations

/-- A field or method, with its references still unfollowed. -/
structure MemberLayout where
  /-- The flags. -/
  flags : UInt16
  /-- The index of the name. -/
  name : UInt16
  /-- The index of the descriptor. -/
  descriptor : UInt16
  /-- Where its attributes are. -/
  attributes : AttributeLocations
deriving DecidableEq, Repr, Inhabited

namespace MemberLayout

/-- A member at `offset`. -/
def scan (d : ByteArray) (t : ConstantTable) (offset : Nat) :
    Except ReadError (MemberLayout × Nat) := do
  let _ ← skipBytes d offset 6
  let (flags, offset) ← scanU2 d offset
  let (name, offset) ← scanU2 d offset
  let (descriptor, offset) ← scanU2 d offset
  let (attributes, offset) ← AttributeLocations.scan d t offset
  return (⟨flags, name, descriptor, attributes⟩, offset)

/-- A list of members with its count in front. -/
def scanAll (d : ByteArray) (t : ConstantTable) (offset : Nat) :
    Except ReadError (Array MemberLayout × Nat) := do
  let (count, offset) ← scanU2 d offset
  ClassAbi.scanEach (scan d t) count.toNat offset #[]

end MemberLayout

/-- What a class file consists of. -/
structure ClassLayout where
  /-- The constant pool. -/
  table : ConstantTable
  /-- The class header. -/
  header : ClassHeader
  /-- The fields. -/
  fields : Array MemberLayout
  /-- The methods. -/
  methods : Array MemberLayout
  /-- Where the attributes of the class are. -/
  attributes : AttributeLocations
  /-- Where the class file ends.  What follows is not looked at. -/
  stop : Nat
deriving Repr, Inhabited

/-- A number that stands at `offset` and refers to a text. -/
def scanUtf8Ref (d : ByteArray) (t : ConstantTable) (offset : Nat) :
    Except ReadError (Text × Nat) := do
  let (index, offset) ← scanU2 d offset
  let value ← t.utf8At index
  return (value, offset)

/-- A number that stands at `offset` and refers to a class. -/
def scanClassRef (d : ByteArray) (t : ConstantTable) (offset : Nat) :
    Except ReadError (Text × Nat) := do
  let (index, offset) ← scanU2 d offset
  let name ← t.classNameAt index
  return (name, offset)

/-- The superclass with an index, which is 0 where there is none. -/
def superNameAt (t : ConstantTable) (index : UInt16) : Except ReadError (Option Text) :=
  if index == 0 then .ok none
  else do
    let name ← t.classNameAt index
    return some name

/-- A list of references to classes with its count in front. -/
def scanClassRefs (d : ByteArray) (t : ConstantTable) (offset : Nat) :
    Except ReadError (List Text × Nat) := do
  let (count, offset) ← scanU2 d offset
  let (names, offset) ← scanEach (scanClassRef d t) count.toNat offset #[]
  return (names.toList, offset)

/-- The generic signature at a noted place. -/
def signatureAt (d : ByteArray) (t : ConstantTable) :
    Option Nat → Except ReadError (Option Text)
  | none => .ok none
  | some offset => do
    let (value, _) ← scanUtf8Ref d t offset
    return some value

namespace ClassLayout

/-- Goes through a whole class file. -/
def scan (d : ByteArray) : Except ReadError ClassLayout := do
  let (magic, offset) ← scanU4 d 0
  if magic != classMagic then .error (.badMagic magic)
  else
    let (minor, offset) ← scanU2 d offset
    let (major, offset) ← scanU2 d offset
    let (table, offset) ← scanPool d offset
    let (flags, offset) ← scanU2 d offset
    let (name, offset) ← scanClassRef d table offset
    let (superIndex, offset) ← scanU2 d offset
    let superName ← superNameAt table superIndex
    let (interfaces, offset) ← scanClassRefs d table offset
    let (fields, offset) ← MemberLayout.scanAll d table offset
    let (methods, offset) ← MemberLayout.scanAll d table offset
    let (attributes, stop) ← AttributeLocations.scan d table offset
    let signature ← signatureAt d table attributes.signature
    return {
      table, fields, methods, attributes, stop
      header := {
        version := minor.toUInt32 <<< 16 ||| major.toUInt32
        access := .ofFlags flags attributes.deprecated
        name, signature, superName
        interfaces := some interfaces } }

end ClassLayout

end ClassAbi
