import ClassAbi.Outline.Annotations

/-!
# Recorded members

The fields and methods of an outline.  Each keeps its header and its annotations
in the order of arrival, and replays them in canonical order.

A method replays its default, its annotations, and then for each visibility the
stated number of annotable parameters and the annotations of the parameters.
-/

namespace ClassAbi

/-! ## Fields -/

/-- A field of an outline. -/
structure FieldOutline where
  /-- What the field is. -/
  header : FieldHeader
  /-- Its annotations in the order of arrival. -/
  annotations : Array AnnotationOutline
deriving DecidableEq, Repr, Inhabited

namespace FieldOutline

/-- What tells the field from others. -/
def key (f : FieldOutline) : MemberKey := ⟨f.header.name, f.header.descriptor⟩

/-- By name, then by descriptor. -/
def before (a b : FieldOutline) : Bool := a.key.before b.key

/-- The events of the field. -/
def replay (f : FieldOutline) : List Event :=
  .field f.header :: (AnnotationOutline.replayAll f.annotations .annotateField ++ [.fieldEnd])

end FieldOutline

/-! ## Methods -/

/-- An annotation of a parameter. -/
structure ParameterOutline where
  /-- The number of the parameter. -/
  parameter : Nat
  /-- The annotation. -/
  outline : AnnotationOutline
deriving DecidableEq, Repr, Inhabited

namespace ParameterOutline

/-- What tells the annotation from others of the method's parameters. -/
def key (p : ParameterOutline) : ParameterKey := ⟨p.parameter, p.outline.key⟩

/-- By parameter, then as annotations. -/
def before (a b : ParameterOutline) : Bool := a.key.before b.key

end ParameterOutline

/-- A method of an outline. -/
structure MethodOutline where
  /-- What the method is. -/
  header : MethodHeader
  /-- The default value of an annotation element, as last told. -/
  defaultValue : Option RecordedValues
  /-- The annotations in the order of arrival. -/
  annotations : Array AnnotationOutline
  /-- The stated number of parameters with visible annotations. -/
  visibleParameters : Option Int
  /-- The stated number of parameters with other annotations. -/
  invisibleParameters : Option Int
  /-- The annotations of parameters in the order of arrival. -/
  parameters : Array ParameterOutline
deriving DecidableEq, Repr, Inhabited

namespace MethodOutline

/-- A method with nothing but its header. -/
def ofHeader (h : MethodHeader) : MethodOutline := ⟨h, none, #[], none, none, #[]⟩

/-- What tells the method from others. -/
def key (m : MethodOutline) : MemberKey := ⟨m.header.name, m.header.descriptor⟩

/-- By name, then by descriptor. -/
def before (a b : MethodOutline) : Bool := a.key.before b.key

/-- The number of annotations that arrived for a parameter. -/
def parameterAnnotationCount (m : MethodOutline) (parameter : Int) : Nat :=
  m.parameters.toList.countP fun p => (p.parameter : Int) == parameter

/-- The stated number of annotable parameters. -/
def parameterCount (m : MethodOutline) (visible : Bool) : Option Int :=
  if visible then m.visibleParameters else m.invisibleParameters

/-- The events of the default value. -/
def replayDefault (m : MethodOutline) : List Event :=
  match m.defaultValue with
  | none => []
  | some values => .default :: values.replay.map .value

/-- The events of the parameter annotations of one visibility. -/
def replayParameters (m : MethodOutline) (visible : Bool) : List Event :=
  (m.parameterCount visible).toList.map (.parameterCount · visible) ++
    ((canonicalOrder ParameterOutline.before m.parameters.toList).filter
        fun p => p.outline.key.visible == visible).flatMap
      fun p => p.outline.replay (.annotateParameter p.parameter)

/-- The events of the method. -/
def replay (m : MethodOutline) : List Event :=
  .method m.header ::
    (m.replayDefault ++ AnnotationOutline.replayAll m.annotations .annotateMethod ++
      m.replayParameters true ++ m.replayParameters false ++ [.methodEnd])

end MethodOutline

end ClassAbi
