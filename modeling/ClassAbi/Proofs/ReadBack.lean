import ClassAbi.Proofs.DeclarationParts
import ClassAbi.Proofs.ReadDeclarations

/-!
# What is read back

A class that is told, written and read again comes back in the reader's order,
and without what the file does not keep.  Access words keep their flags and the
mark of deprecation.  Absent interfaces become an empty list.  The visible
annotations of an owner come before the others, and the elements of an array and
the default value lose their names.

For each visibility with a stated number of parameters or with a parameter
annotation there is one number again.  It is the last that was stated, or the
smallest that covers every annotated parameter if that is larger.

`ClassStream.Writable` says what must hold of a class for this to be all.
-/

namespace ClassAbi

/-! ## The normal form -/

/-- The annotation without the names of array elements. -/
def Annotation.readBack (a : Annotation) : Annotation :=
  { a with values := a.values.readBack true }

/-- The annotations of one visibility, as they are read back. -/
def readBackOf (visible : Bool) (as : List Annotation) : List Annotation :=
  (as.filter (·.visible == visible)).map Annotation.readBack

/-- The annotations of an owner, as they are read back. -/
def readBackAll (as : List Annotation) : List Annotation :=
  readBackOf true as ++ readBackOf false as

/-- The field as it is read back. -/
def Field.readBack (f : Field) : Field where
  header := { f.header with access := f.header.access.stored }
  annotations := readBackAll f.annotations

namespace Method

/-- The parameters that must be covered for the annotations of one visibility. -/
def annotatedParameters (m : Method) (visible : Bool) : List Nat :=
  (m.parameterAnnotations.filter (·.2.visible == visible)).map (·.1.toNat)

/-- The number of parameters that is read back for one visibility. -/
def coveredParameters (m : Method) (visible : Bool) : Option Nat :=
  ((m.parameterCounts visible).getLast?.toList.map Int.toNat ++
    (m.annotatedParameters visible).map (· + 1)).max?

/-- The parameter annotations of one visibility, as they are read back. -/
def parameterTables (m : Method) (visible : Bool) : Option (List (List Annotation)) :=
  (m.coveredParameters visible).map fun count =>
    (List.range count).map fun i => readBackOf visible (m.annotationsOf i)

/-- The method as it is read back. -/
def readBack (m : Method) : Method :=
  .tabled { m.header with access := m.header.access.stored }
    (m.defaultValues.head?.map Value.readBack) (readBackAll m.annotations) m.parameterTables

end Method

/-- The header as it is read back. -/
def ClassHeader.readBack (h : ClassHeader) : ClassHeader :=
  { h with access := h.access.stored, interfaces := some (h.interfaces.getD []) }

/-- The class as it is read back. -/
def ClassStream.readBack (s : ClassStream) : ClassDeclaration where
  header := s.header.readBack
  annotations := readBackAll s.annotations
  fields := s.fields.map Field.readBack
  methods := s.methods.map Method.readBack

/-! ## What can be written -/

/-- A reader can follow the values of the annotations. -/
def Readable (as : List Annotation) : Prop := ∀ a ∈ as, a.values.nesting ≤ nestingLimit + 1

/-- The field keeps its meaning in a file. -/
structure Field.Writable (f : Field) : Prop where
  /-- The initial value is of the kind of the field. -/
  value : ∀ c, f.header.value = some c → c.FitsField f.header.descriptor
  /-- A reader can follow the annotations. -/
  annotations : Readable f.annotations

/-- The method keeps its meaning in a file. -/
structure Method.Writable (m : Method) : Prop where
  /-- The number of exceptions fits. -/
  exceptions : ∀ names, m.header.exceptions = some names → names.length ≤ 0xFFFF
  /-- A default has one value. -/
  default : m.defaults ≠ [] → m.defaultValues.length = 1
  /-- A reader can follow the default. -/
  defaultNesting : ∀ v ∈ m.defaultValues, v.nesting ≤ nestingLimit
  /-- A reader can follow the annotations. -/
  annotations : Readable m.annotations
  /-- A reader can follow the parameter annotations. -/
  parameterAnnotations : Readable (m.parameterAnnotations.map (·.2))

/-- The class keeps its meaning in a file. -/
structure ClassStream.Writable (s : ClassStream) : Prop where
  /-- The number of interfaces fits. -/
  interfaces : (s.header.interfaces.getD []).length ≤ 0xFFFF
  /-- A reader can follow the annotations. -/
  annotations : Readable s.annotations
  /-- The fields keep their meaning. -/
  fields : ∀ f ∈ s.fields, f.Writable
  /-- The methods keep their meaning. -/
  methods : ∀ m ∈ s.methods, m.Writable

/-! ## Nesting -/

mutual

theorem Value.nesting_readBack : ∀ v : Value, v.readBack.nesting = v.nesting
  | .constant _ => rfl
  | .enum _ _ => rfl
  | .nested _ values => values.nesting_readBack true
  | .array elements => elements.nesting_readBack false

theorem Values.nesting_readBack (named : Bool) :
    ∀ vs : Values, (vs.readBack named).nesting = vs.nesting
  | .nil => rfl
  | .cons name value rest => by
    rw [Values.readBack, Values.nesting, Values.nesting, value.nesting_readBack,
      rest.nesting_readBack]

end

end ClassAbi
