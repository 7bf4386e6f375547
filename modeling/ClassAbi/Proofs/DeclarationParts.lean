import ClassAbi.Proofs.StoredClass

/-!
# What declarations consist of

The parts of a class and of a method come in any order.  What they say is looked
at one kind of part at a time, each kind in the order of the parts: annotations,
fields and methods of a class, and defaults, annotations, stated numbers of
parameters and parameter annotations of a method.  A part that is added behind
the others adds to its own kind and leaves the rest.
-/

namespace ClassAbi

/-! ## Parts of methods -/

/-- The values of a list without their names. -/
def Values.toList : Values → List Value
  | .nil => []
  | .cons _ value rest => value :: rest.toList

namespace MethodPart

/-- The default that the part is. -/
def default? : MethodPart → Option Values
  | default values => some values
  | _ => none

/-- The annotation that the part is. -/
def annotation? : MethodPart → Option Annotation
  | annotate a => some a
  | _ => none

/-- The number of parameters that the part states for one visibility. -/
def parameterCount? (visible : Bool) : MethodPart → Option Int
  | parameterCount count v => if v = visible then some count else none
  | _ => none

/-- The parameter annotation that the part is. -/
def parameterAnnotation? : MethodPart → Option (Int × Annotation)
  | annotateParameter parameter a => some (parameter, a)
  | _ => none

end MethodPart

theorem filterMap_append_one {α β : Type} (f : α → Option β) (l : List α) (a : α) :
    (l ++ [a]).filterMap f = l.filterMap f ++ (f a).toList := by
  rw [List.filterMap_append]
  cases h : f a <;> simp [h]

namespace Method

/-- The defaults. -/
def defaults (m : Method) : List Values := m.parts.filterMap MethodPart.default?

/-- The annotations. -/
def annotations (m : Method) : List Annotation := m.parts.filterMap MethodPart.annotation?

/-- The stated numbers of parameters of one visibility. -/
def parameterCounts (m : Method) (visible : Bool) : List Int :=
  m.parts.filterMap (MethodPart.parameterCount? visible)

/-- The parameter annotations. -/
def parameterAnnotations (m : Method) : List (Int × Annotation) :=
  m.parts.filterMap MethodPart.parameterAnnotation?

/-- The parameter annotations of one visibility. -/
def parameterAnnotationsOf (m : Method) (visible : Bool) : List (Int × Annotation) :=
  m.parameterAnnotations.filter fun x => x.2.visible == visible

/-- The last stated number of parameters of one visibility, if there is one. -/
def lastCount (m : Method) (visible : Bool) : List Int :=
  (m.parameterCounts visible).getLast?.toList

/-- The values of all defaults. -/
def defaultValues (m : Method) : List Value := m.defaults.flatMap Values.toList

/-- The annotations of one parameter. -/
def annotationsOf (m : Method) (parameter : Nat) : List Annotation :=
  (m.parameterAnnotations.filter (·.1 = (parameter : Int))).map (·.2)

/-- The method with one more part. -/
def addPart (m : Method) (part : MethodPart) : Method := { m with parts := m.parts ++ [part] }

variable (m : Method) (part : MethodPart)

@[simp] theorem header_addPart : (m.addPart part).header = m.header := rfl

theorem defaults_addPart : (m.addPart part).defaults = m.defaults ++ part.default?.toList :=
  filterMap_append_one ..

theorem defaultValues_addPart : (m.addPart part).defaultValues =
    m.defaultValues ++ part.default?.toList.flatMap Values.toList := by
  rw [defaultValues, defaults_addPart, List.flatMap_append]
  rfl

theorem annotations_addPart :
    (m.addPart part).annotations = m.annotations ++ part.annotation?.toList :=
  filterMap_append_one ..

theorem parameterCounts_addPart (visible : Bool) : (m.addPart part).parameterCounts visible =
    m.parameterCounts visible ++ (part.parameterCount? visible).toList :=
  filterMap_append_one ..

theorem parameterAnnotations_addPart : (m.addPart part).parameterAnnotations =
    m.parameterAnnotations ++ part.parameterAnnotation?.toList :=
  filterMap_append_one ..

theorem annotationsOf_addPart (parameter : Nat) : (m.addPart part).annotationsOf parameter =
    m.annotationsOf parameter ++
      (part.parameterAnnotation?.toList.filter (·.1 = (parameter : Int))).map (·.2) := by
  rw [annotationsOf, parameterAnnotations_addPart, List.filter_append, List.map_append]
  rfl

end Method

/-! ## Methods told in order -/

/-- The part that an annotation of a parameter makes. -/
def parameterPart (x : Int × Annotation) : MethodPart := .annotateParameter x.1 x.2

namespace Method

/-- The method with its parts in the order of a reader: the defaults, the annotations, and for
each visibility the numbers of parameters and the annotations of the parameters. -/
def ordered (h : MethodHeader) (ds : List Values) (as : List Annotation) (cs : Bool → List Int)
    (ps : Bool → List (Int × Annotation)) : Method where
  header := h
  parts := ds.map .default ++ as.map .annotate ++
    ((cs true).map (.parameterCount · true) ++ (ps true).map parameterPart) ++
    ((cs false).map (.parameterCount · false) ++ (ps false).map parameterPart)

variable (h : MethodHeader) (ds : List Values) (as : List Annotation) (cs : Bool → List Int)
  (ps : Bool → List (Int × Annotation))

@[simp] theorem defaults_ordered : (ordered h ds as cs ps).defaults = ds := by
  simp [ordered, defaults, List.filterMap_map, Function.comp_def, MethodPart.default?,
    parameterPart]

@[simp] theorem annotations_ordered : (ordered h ds as cs ps).annotations = as := by
  simp [ordered, annotations, List.filterMap_map, Function.comp_def, MethodPart.annotation?,
    parameterPart]

@[simp] theorem parameterCounts_ordered (visible : Bool) :
    (ordered h ds as cs ps).parameterCounts visible = cs visible := by
  cases visible <;>
    simp [ordered, parameterCounts, List.filterMap_map, Function.comp_def,
      MethodPart.parameterCount?, parameterPart]

@[simp] theorem parameterAnnotations_ordered :
    (ordered h ds as cs ps).parameterAnnotations = ps true ++ ps false := by
  simp [ordered, parameterAnnotations, List.filterMap_map, Function.comp_def,
    MethodPart.parameterAnnotation?, parameterPart]

theorem parameterAnnotationsOf_ordered (shown : ∀ visible, ∀ x ∈ ps visible, x.2.visible = visible)
    (visible : Bool) : (ordered h ds as cs ps).parameterAnnotationsOf visible = ps visible := by
  rw [parameterAnnotationsOf, parameterAnnotations_ordered,
    filter_visible_append (shown true) (shown false)]
  cases visible <;> rfl

/-- A method as a reader finds it is told in order. -/
theorem tabled_eq_ordered (h : MethodHeader) (v : Option Value) (as : List Annotation)
    (tables : Bool → Option (List (List Annotation))) :
    tabled h v as tables = ordered h (v.toList.map fun x => .cons [] x .nil) as
      (fun visible => (tables visible).toList.map fun x => (x.length : Int))
      (fun visible => numberedFrom 0 ((tables visible).getD [])) := by
  have parameters : ∀ visible, parameterParts visible (tables visible) =
      ((tables visible).toList.map fun x => (x.length : Int)).map (.parameterCount · visible) ++
        (numberedFrom 0 ((tables visible).getD [])).map parameterPart := by
    intro visible
    cases tables visible <;> rfl
  have default : defaultParts v = (v.toList.map fun x => Values.cons [] x .nil).map .default := by
    cases v <;> rfl
  rw [tabled, parameters, parameters, default]
  rfl

end Method

/-! ## Parts of classes -/

namespace ClassPart

/-- The annotation that the part is. -/
def annotation? : ClassPart → Option Annotation
  | annotate a => some a
  | _ => none

/-- The field that the part is. -/
def field? : ClassPart → Option Field
  | field f => some f
  | _ => none

/-- The method that the part is. -/
def method? : ClassPart → Option Method
  | method m => some m
  | _ => none

end ClassPart

namespace ClassStream

/-- The class with one more part. -/
def addPart (s : ClassStream) (part : ClassPart) : ClassStream :=
  { s with parts := s.parts ++ [part] }

variable (s : ClassStream) (part : ClassPart)

@[simp] theorem header_addPart : (s.addPart part).header = s.header := rfl

theorem annotations_eq : s.annotations = s.parts.filterMap ClassPart.annotation? := rfl

theorem fields_eq : s.fields = s.parts.filterMap ClassPart.field? := rfl

theorem methods_eq : s.methods = s.parts.filterMap ClassPart.method? := rfl

theorem annotations_addPart :
    (s.addPart part).annotations = s.annotations ++ part.annotation?.toList :=
  filterMap_append_one ..

theorem fields_addPart : (s.addPart part).fields = s.fields ++ part.field?.toList :=
  filterMap_append_one ..

theorem methods_addPart : (s.addPart part).methods = s.methods ++ part.method?.toList :=
  filterMap_append_one ..

end ClassStream

end ClassAbi
