import ClassAbi.ClassFile.Event

/-!
# Declarations as trees

The tree of a class and its flattening to events.  A sequence of events is well
formed when it is the flattening of a tree: everything that opens also closes,
and closes before the next event of what encloses it.

`Values.events` does not close its list, since what opened the list decides
how.  An annotation, a default and a nested list all append one `close`.
-/

namespace ClassAbi

/-! ## Annotation values -/

mutual

/-- One value of an annotation. -/
inductive Value where
  /-- A constant. -/
  | constant (value : Constant)
  /-- A constant of an enum type. -/
  | enum (descriptor value : Text)
  /-- A nested annotation. -/
  | nested (descriptor : Text) (values : Values)
  /-- An array. -/
  | array (elements : Values)

/-- Values with their names, in order.  The elements of an array have names
too, which nothing looks at. -/
inductive Values where
  /-- No more values. -/
  | nil
  /-- A named value and the values after it. -/
  | cons (name : Text) (value : Value) (rest : Values)

end

deriving instance DecidableEq for Value, Values
deriving instance Repr for Value, Values

namespace Values

/-- The number of values, not counting what is nested in them. -/
def length : Values → Nat
  | nil => 0
  | cons _ _ rest => rest.length + 1

end Values

mutual

/-- The events of one value under a name. -/
def Value.events (name : Text) : Value → List ValueEvent
  | .constant c => [.constant name c]
  | .enum descriptor value => [.enum name descriptor value]
  | .nested descriptor values => .nested name descriptor :: (values.events ++ [.close])
  | .array elements => .array name :: (elements.events ++ [.close])

/-- The events of the values of a list, without the event that closes it. -/
def Values.events : Values → List ValueEvent
  | .nil => []
  | .cons name value rest => value.events name ++ rest.events

end

mutual

/-- The greatest number of lists around a value inside this one, and 0 if there is
none inside. -/
def Value.nesting : Value → Nat
  | .constant _ => 0
  | .enum _ _ => 0
  | .nested _ values => values.nesting
  | .array elements => elements.nesting

/-- The greatest number of lists around a value of a list or inside one, the list
itself included. -/
def Values.nesting : Values → Nat
  | .nil => 0
  | .cons _ value rest => max (value.nesting + 1) rest.nesting

end

/-! ## Declarations -/

/-- An annotation of a declaration. -/
structure Annotation where
  /-- The type of the annotation. -/
  descriptor : Text
  /-- Whether the annotation is visible at run time. -/
  visible : Bool
  /-- Its values. -/
  values : Values
deriving DecidableEq, Repr

/-- The events of an annotation that `opening` opens. -/
def Annotation.events (a : Annotation) (opening : Text → Bool → Event) : List Event :=
  opening a.descriptor a.visible :: (a.values.events ++ [ValueEvent.close]).map .value

/-- A field. -/
structure Field where
  /-- What the field is. -/
  header : FieldHeader
  /-- Its annotations. -/
  annotations : List Annotation
deriving DecidableEq, Repr

/-- The events of a field. -/
def Field.events (f : Field) : List Event :=
  .field f.header :: (f.annotations.flatMap (·.events .annotateField) ++ [.fieldEnd])

/-- What can stand between the header and the end of a method. -/
inductive MethodPart where
  /-- The default value of an annotation element. -/
  | default (values : Values)
  /-- An annotation of the method. -/
  | annotate (a : Annotation)
  /-- The number of parameters that can carry annotations of one visibility. -/
  | parameterCount (count : Int) (visible : Bool)
  /-- An annotation of a parameter. -/
  | annotateParameter (parameter : Int) (a : Annotation)
deriving DecidableEq, Repr

/-- The events of one part of a method. -/
def MethodPart.events : MethodPart → List Event
  | default values => .default :: (values.events ++ [ValueEvent.close]).map .value
  | annotate a => a.events .annotateMethod
  | parameterCount count visible => [.parameterCount count visible]
  | annotateParameter p a => a.events (.annotateParameter p)

/-- A method. -/
structure Method where
  /-- What the method is. -/
  header : MethodHeader
  /-- Its default, annotations and parameter annotations. -/
  parts : List MethodPart
deriving DecidableEq, Repr

/-- The events of a method. -/
def Method.events (m : Method) : List Event :=
  .method m.header :: (m.parts.flatMap MethodPart.events ++ [.methodEnd])

/-- What can stand between the header and the end of a class. -/
inductive ClassPart where
  /-- An annotation of the class. -/
  | annotate (a : Annotation)
  /-- A field. -/
  | field (f : Field)
  /-- A method. -/
  | method (m : Method)
deriving DecidableEq, Repr

/-- The events of one part of a class. -/
def ClassPart.events : ClassPart → List Event
  | annotate a => a.events .annotate
  | field f => f.events
  | method m => m.events

/-- A class as it is told: its header, then its parts in any order. -/
structure ClassStream where
  /-- What the class is. -/
  header : ClassHeader
  /-- Its annotations, fields and methods. -/
  parts : List ClassPart
deriving DecidableEq, Repr

namespace ClassStream

/-- The events of a class. -/
def events (s : ClassStream) : List Event :=
  .header s.header :: (s.parts.flatMap ClassPart.events ++ [.classEnd])

/-- The annotations of the class in the order they are told. -/
def annotations (s : ClassStream) : List Annotation :=
  s.parts.filterMap fun | .annotate a => some a | _ => none

/-- The fields in the order they are told. -/
def fields (s : ClassStream) : List Field :=
  s.parts.filterMap fun | .field f => some f | _ => none

/-- The methods in the order they are told. -/
def methods (s : ClassStream) : List Method :=
  s.parts.filterMap fun | .method m => some m | _ => none

end ClassStream

/-- A class whose annotations are told before its fields, and these before its
methods. -/
structure ClassDeclaration where
  /-- What the class is. -/
  header : ClassHeader
  /-- Its annotations. -/
  annotations : List Annotation
  /-- Its fields. -/
  fields : List Field
  /-- Its methods. -/
  methods : List Method
deriving DecidableEq, Repr

namespace ClassDeclaration

/-- The class as a stream. -/
def stream (c : ClassDeclaration) : ClassStream :=
  ⟨c.header, c.annotations.map .annotate ++ c.fields.map .field ++ c.methods.map .method⟩

/-- The events of a class. -/
def events (c : ClassDeclaration) : List Event := c.stream.events

end ClassDeclaration

end ClassAbi
