import ClassAbi.ClassFile.Access
import ClassAbi.ClassFile.Pool

/-!
# Attributes under construction

A class, a field and a method end with a list of attributes (JVMS 4.7).  Each has
a name, which is a text of the constant pool, and contents with their length in
front.  `putAttributes` writes such a list, its count first.

The annotations of a declaration make up to two attributes, one for each
visibility.  `AnnotationTable` is the contents of one of them, and
`AnnotationTables` is the pair.
-/

namespace ClassAbi

/-- An attribute. -/
structure Attribute where
  /-- The name of the attribute. -/
  name : Text
  /-- The contents, which may refer to the constant pool. -/
  info : Buffer
deriving Inhabited

namespace Attribute

/-- Appends an attribute.  Its name becomes a text of the pool. -/
def put (a : Attribute) (p : Pool) (b : Buffer) : Except EncodeFault (Pool × Buffer) := do
  let (name, p) ← p.addUtf8 a.name
  return (p, ((b.pushU2 name).pushU4 a.info.size.toUInt32).append a.info)

/-- The attribute that holds nothing but one index of the pool. -/
def ofIndex (name : Text) (index : UInt16) : Attribute := ⟨name, Buffer.empty.pushU2 index⟩

/-- The generic signature, where there is one. -/
def signature (index : Option UInt16) : List Attribute :=
  index.toList.map (ofIndex (Text.ascii "Signature"))

/-- The mark of a deprecated declaration. -/
def deprecated (a : Access) : List Attribute :=
  if a.isDeprecated then [⟨Text.ascii "Deprecated", ∅⟩] else []

end Attribute

/-- Appends attributes in order. -/
def putEach (attributes : List Attribute) (p : Pool) (b : Buffer) :
    Except EncodeFault (Pool × Buffer) :=
  attributes.foldlM (fun (p, b) a => a.put p b) (p, b)

/-- Appends the number of attributes and the attributes in order. -/
def putAttributes (attributes : List Attribute) (p : Pool) (b : Buffer) :
    Except EncodeFault (Pool × Buffer) :=
  putEach attributes p (b.pushU2 attributes.length.toUInt16)

/-! ## Tables of annotations -/

/-- The annotations of one visibility: how many, and their encoding. -/
structure AnnotationTable where
  /-- The number of annotations. -/
  count : UInt16
  /-- The encoded annotations. -/
  entries : Buffer
deriving Inhabited

namespace AnnotationTable

/-- No annotations. -/
def empty : AnnotationTable := ⟨0, ∅⟩

/-- Appends the count and the annotations. -/
def put (t : AnnotationTable) (b : Buffer) : Buffer := (b.pushU2 t.count).append t.entries

/-- The attribute that holds the table, if the table holds anything. -/
def asAttribute (name : String) (t : AnnotationTable) : List Attribute :=
  if t.count == 0 then [] else [⟨Text.ascii name, t.put ∅⟩]

end AnnotationTable

/-- The annotations of a declaration or a parameter, by visibility. -/
structure AnnotationTables where
  /-- The annotations visible at run time. -/
  visible : AnnotationTable
  /-- The other annotations. -/
  invisible : AnnotationTable
deriving Inhabited

namespace AnnotationTables

/-- No annotations. -/
def empty : AnnotationTables := ⟨.empty, .empty⟩

/-- The table of one visibility. -/
def get (t : AnnotationTables) (visible : Bool) : AnnotationTable :=
  if visible then t.visible else t.invisible

/-- Changes the table of one visibility. -/
def modify (t : AnnotationTables) (visible : Bool) (f : AnnotationTable → AnnotationTable) :
    AnnotationTables :=
  if visible then { t with visible := f t.visible } else { t with invisible := f t.invisible }

/-- The attributes that hold the annotations of a declaration. -/
def attributes (t : AnnotationTables) : List Attribute :=
  t.visible.asAttribute "RuntimeVisibleAnnotations" ++
    t.invisible.asAttribute "RuntimeInvisibleAnnotations"

end AnnotationTables

end ClassAbi
