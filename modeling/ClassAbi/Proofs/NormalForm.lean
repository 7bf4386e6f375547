import ClassAbi.Proofs.CanonicalOrder
import ClassAbi.Proofs.DeclarationParts

/-!
# The normal form of a class

What an outline keeps of a class, and in which order, said of the class itself.
Annotations, fields and methods come strictly ascending by their keys, of each
key the one that was told first, and private and bridge members are left out.
Of several defaults and of several stated numbers of parameters the last counts.

`ClassStream.IsNormalForm` relates a class to its normal form, part by part.
There is one normal form (`IsNormalForm.eq_canonical`), and
`ClassStream.canonical` computes it.
-/

namespace ClassAbi

/-! ## Keys -/

/-- What tells the annotation from others of its owner. -/
def Annotation.key (a : Annotation) : AnnotationKey := ⟨a.descriptor, a.visible⟩

/-- What tells the field from others. -/
def Field.key (f : Field) : MemberKey := ⟨f.header.name, f.header.descriptor⟩

/-- What tells the method from others. -/
def Method.key (m : Method) : MemberKey := ⟨m.header.name, m.header.descriptor⟩

/-- What tells an annotation of a parameter from others of the method's parameters. -/
def parameterKey (x : Int × Annotation) : ParameterKey := ⟨x.1.toNat, x.2.key⟩

/-- The field is one that other classes can see. -/
def Field.isRetained (f : Field) : Bool := !f.header.access.isPrivate

/-- The method is one that other classes can see and that the source code has. -/
def Method.isRetained (m : Method) : Bool :=
  !(m.header.access.isPrivate || m.header.access.isBridge)

/-! ## The relation -/

/-- The field with its annotations in normal form. -/
structure Field.IsNormalForm (f f' : Field) : Prop where
  /-- The header is kept. -/
  header : f'.header = f.header
  /-- The annotations are in normal form. -/
  annotations : IsCanonical Annotation.key AnnotationKey.before f.annotations f'.annotations

namespace Method

/-- The method with its parts in normal form: the last default, the annotations, and for each
visibility the last number of parameters and the annotations of the parameters. -/
def IsNormalForm (m m' : Method) : Prop :=
  ∃ (as : List Annotation) (ps : Bool → List (Int × Annotation)),
    IsCanonical Annotation.key AnnotationKey.before m.annotations as ∧
    (∀ visible, IsCanonical parameterKey ParameterKey.before (m.parameterAnnotationsOf visible)
      (ps visible)) ∧
    m' = .ordered m.header m.defaults.getLast?.toList as m.lastCount ps

end Method

/-- The class with what is retained of it in normal form. -/
structure ClassStream.IsNormalForm (s : ClassStream) (c : ClassDeclaration) : Prop where
  /-- The header is kept. -/
  header : c.header = s.header
  /-- The annotations are in normal form. -/
  annotations : IsCanonical Annotation.key AnnotationKey.before s.annotations c.annotations
  /-- The fields that are retained are in normal form, and each of them is. -/
  fields : ∃ fs, IsCanonical Field.key MemberKey.before (s.fields.filter Field.isRetained) fs ∧
    List.Forall₂ Field.IsNormalForm fs c.fields
  /-- The methods that are retained are in normal form, and each of them is. -/
  methods : ∃ ms, IsCanonical Method.key MemberKey.before (s.methods.filter Method.isRetained) ms ∧
    List.Forall₂ Method.IsNormalForm ms c.methods

/-! ## The function -/

/-- The annotations in normal form. -/
def canonicalAnnotations (as : List Annotation) : List Annotation :=
  canonicalOrder (fun a b => a.key.before b.key) as

/-- The field in normal form. -/
def Field.canonical (f : Field) : Field := ⟨f.header, canonicalAnnotations f.annotations⟩

namespace Method

/-- The parameter annotations of one visibility in normal form. -/
def canonicalParameters (m : Method) (visible : Bool) : List (Int × Annotation) :=
  canonicalOrder (fun x y => (parameterKey x).before (parameterKey y))
    (m.parameterAnnotationsOf visible)

/-- The method in normal form. -/
def canonical (m : Method) : Method :=
  .ordered m.header m.defaults.getLast?.toList (canonicalAnnotations m.annotations) m.lastCount
    m.canonicalParameters

end Method

namespace ClassStream

/-- The retained fields in canonical order. -/
def canonicalFields (s : ClassStream) : List Field :=
  canonicalOrder (fun f g => f.key.before g.key) (s.fields.filter Field.isRetained)

/-- The retained methods in canonical order. -/
def canonicalMethods (s : ClassStream) : List Method :=
  canonicalOrder (fun m n => m.key.before n.key) (s.methods.filter Method.isRetained)

/-- The class in normal form. -/
def canonical (s : ClassStream) : ClassDeclaration where
  header := s.header
  annotations := canonicalAnnotations s.annotations
  fields := s.canonicalFields.map Field.canonical
  methods := s.canonicalMethods.map Method.canonical

end ClassStream

/-! ## The function computes the relation -/

theorem isCanonical_annotations (as : List Annotation) :
    IsCanonical Annotation.key AnnotationKey.before as (canonicalAnnotations as) :=
  isCanonical_canonicalOrder strictOrder_annotationKey Annotation.key as

theorem isCanonical_parameters (m : Method) (visible : Bool) :
    IsCanonical parameterKey ParameterKey.before (m.parameterAnnotationsOf visible)
      (m.canonicalParameters visible) :=
  isCanonical_canonicalOrder strictOrder_parameterKey parameterKey _

theorem isCanonical_fields (s : ClassStream) :
    IsCanonical Field.key MemberKey.before (s.fields.filter Field.isRetained) s.canonicalFields :=
  isCanonical_canonicalOrder strictOrder_memberKey Field.key _

theorem isCanonical_methods (s : ClassStream) :
    IsCanonical Method.key MemberKey.before (s.methods.filter Method.isRetained)
      s.canonicalMethods :=
  isCanonical_canonicalOrder strictOrder_memberKey Method.key _

theorem Field.isNormalForm_canonical (f : Field) : f.IsNormalForm f.canonical :=
  ⟨rfl, isCanonical_annotations f.annotations⟩

theorem Method.isNormalForm_canonical (m : Method) : m.IsNormalForm m.canonical :=
  ⟨_, m.canonicalParameters, isCanonical_annotations m.annotations, isCanonical_parameters m, rfl⟩

theorem forall₂_map_right {α : Type} {r : α → α → Prop} {f : α → α} (h : ∀ a, r a (f a))
    (l : List α) : List.Forall₂ r l (l.map f) := by
  induction l with
  | nil => exact .nil
  | cons a l ih => exact .cons (h a) ih

theorem ClassStream.isNormalForm_canonical (s : ClassStream) : s.IsNormalForm s.canonical where
  header := rfl
  annotations := isCanonical_annotations s.annotations
  fields := ⟨_, isCanonical_fields s, forall₂_map_right Field.isNormalForm_canonical _⟩
  methods := ⟨_, isCanonical_methods s, forall₂_map_right Method.isNormalForm_canonical _⟩

/-! ## There is one normal form -/

theorem eq_canonicalAnnotations {as chosen : List Annotation}
    (h : IsCanonical Annotation.key AnnotationKey.before as chosen) :
    chosen = canonicalAnnotations as :=
  (h.canonicalOrder_eq strictOrder_annotationKey).symm

theorem Field.IsNormalForm.eq_canonical {f f' : Field} (h : f.IsNormalForm f') :
    f' = f.canonical := by
  obtain ⟨header, annotations⟩ := f'
  obtain ⟨rfl, hannotations⟩ := h
  exact congrArg (Field.mk f.header) (eq_canonicalAnnotations hannotations)

theorem Method.IsNormalForm.eq_canonical {m m' : Method} (h : m.IsNormalForm m') :
    m' = m.canonical := by
  obtain ⟨as, ps, annotations, parameters, rfl⟩ := h
  have same : ps = m.canonicalParameters := by
    funext visible
    exact ((parameters visible).canonicalOrder_eq strictOrder_parameterKey).symm
  rw [eq_canonicalAnnotations annotations, same]
  rfl

theorem eq_map_of_forall₂ {α : Type} {r : α → α → Prop} {f : α → α} (h : ∀ {a b}, r a b → b = f a)
    {l l' : List α} (related : List.Forall₂ r l l') : l' = l.map f := by
  induction related with
  | nil => rfl
  | cons first _ ih => rw [List.map_cons, ← h first, ih]

/-- A class has one normal form. -/
theorem ClassStream.IsNormalForm.eq_canonical {s : ClassStream} {c : ClassDeclaration}
    (h : s.IsNormalForm c) : c = s.canonical := by
  obtain ⟨header, annotations, fields, methods⟩ := c
  obtain ⟨rfl, hannotations, ⟨fs, hfields, eachField⟩, ⟨ms, hmethods, eachMethod⟩⟩ := h
  have fieldOrder := hfields.canonicalOrder_eq strictOrder_memberKey
  have methodOrder := hmethods.canonicalOrder_eq strictOrder_memberKey
  have fieldForms : fields = fs.map Field.canonical :=
    eq_map_of_forall₂ (fun form => form.eq_canonical) eachField
  have methodForms : methods = ms.map Method.canonical :=
    eq_map_of_forall₂ (fun form => form.eq_canonical) eachMethod
  have same : annotations = canonicalAnnotations s.annotations := eq_canonicalAnnotations hannotations
  rw [ClassStream.canonical, canonicalFields, canonicalMethods, fieldOrder, methodOrder,
    ← fieldForms, ← methodForms, same]

end ClassAbi
