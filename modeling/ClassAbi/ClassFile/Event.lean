import ClassAbi.ClassFile.Access
import ClassAbi.ClassFile.Constant

/-!
# Declaration events

A class is told as a sequence of events: its header, then its annotations, its
fields, its methods and an end.  A field, a method, an annotation, an array
value and a nested annotation each open with one event and close with another,
and what lies between belongs to them.  `Declaration` holds the trees whose
flattening is such a sequence.

The reader of class files produces events.  The encoder and the outline consume
them one at a time.  They accept any sequence, since a reader that meets a
problem stops in the middle.

Access words carry the Deprecated attribute (`Access.deprecatedFlag`).  What a
class file may leave out is an `Option`.
-/

namespace ClassAbi

/-- The header of a class. -/
structure ClassHeader where
  /-- The minor version in the high half, the major version in the low half. -/
  version : UInt32
  /-- The access word. -/
  access : Access
  /-- The internal name, such as `java/lang/Object`. -/
  name : Text
  /-- The generic signature. -/
  signature : Option Text
  /-- The superclass, which only the root class lacks. -/
  superName : Option Text
  /-- The interfaces.  A class file always has the list, even if it is empty. -/
  interfaces : Option (List Text)
deriving DecidableEq, Repr, Inhabited

/-- The header of a field. -/
structure FieldHeader where
  /-- The access word. -/
  access : Access
  /-- The name. -/
  name : Text
  /-- The type descriptor. -/
  descriptor : Text
  /-- The generic signature. -/
  signature : Option Text
  /-- The initial value of a constant field. -/
  value : Option Constant
deriving DecidableEq, Repr, Inhabited

/-- The header of a method. -/
structure MethodHeader where
  /-- The access word. -/
  access : Access
  /-- The name. -/
  name : Text
  /-- The type descriptor. -/
  descriptor : Text
  /-- The generic signature. -/
  signature : Option Text
  /-- The declared exceptions, where the method has an Exceptions attribute. -/
  exceptions : Option (List Text)
deriving DecidableEq, Repr, Inhabited

/-- An event inside the values of an annotation, an array or a default.  The
name of a value is empty in an array and in a default. -/
inductive ValueEvent where
  /-- A constant. -/
  | constant (name : Text) (value : Constant)
  /-- A constant of an enum type. -/
  | enum (name descriptor value : Text)
  /-- A nested annotation opens. -/
  | nested (name descriptor : Text)
  /-- An array opens. -/
  | array (name : Text)
  /-- The innermost open list of values closes. -/
  | close
deriving DecidableEq, Repr, Inhabited

/-- An event of a class. -/
inductive Event where
  /-- The class header. -/
  | header (h : ClassHeader)
  /-- An annotation of the class opens. -/
  | annotate (descriptor : Text) (visible : Bool)
  /-- A field opens. -/
  | field (h : FieldHeader)
  /-- An annotation of the field opens. -/
  | annotateField (descriptor : Text) (visible : Bool)
  /-- The field closes. -/
  | fieldEnd
  /-- A method opens. -/
  | method (h : MethodHeader)
  /-- The default value of an annotation element opens.  It holds one value. -/
  | default
  /-- An annotation of the method opens. -/
  | annotateMethod (descriptor : Text) (visible : Bool)
  /-- The number of parameters that can carry annotations of one visibility. -/
  | parameterCount (count : Int) (visible : Bool)
  /-- An annotation of a parameter of the method opens. -/
  | annotateParameter (parameter : Int) (descriptor : Text) (visible : Bool)
  /-- The method closes. -/
  | methodEnd
  /-- An event among the innermost open values. -/
  | value (e : ValueEvent)
  /-- The class ends. -/
  | classEnd
deriving DecidableEq, Repr, Inhabited

end ClassAbi
