import ClassAbi.Proofs.NormalForm
import ClassAbi.Proofs.UniqueReading

/-!
# The surface of a class

What other classes can be compiled against, with no order left in it: the
header, and for each key the annotation, the visible field or the visible method
that was told first with the key.  A member shows its surface in the same way.

Two classes have the same surface exactly when they have the same normal form
(`surface_eq_iff`).  Both say for each key what is found first, once as a
function of the key and once as a list in the order of the keys.
-/

namespace ClassAbi

/-! ## Data by key -/

section Keyed

variable {α κ δ : Type} [DecidableEq κ] {key : α → κ} {data : α → δ}

/-- The data of the first item with a key. -/
def firstData (key : α → κ) (data : α → δ) (items : List α) (k : κ) : Option δ :=
  (items.find? (key · = k)).map data

theorem key_of_find? {items : List α} {k : κ} {a : α} (found : items.find? (key · = k) = some a) :
    key a = k := by
  simpa using List.find?_some found

/-- Items that show the same data exactly where they have the same form have the same data by
key exactly where their first items have the same forms. -/
theorem firstData_eq_iff {items items' : List α} (form : α → α)
    (agree : ∀ a ∈ items, ∀ b ∈ items', key a = key b → (data a = data b ↔ form a = form b)) :
    firstData key data items = firstData key data items' ↔
      ∀ k, (items.find? (key · = k)).map form = (items'.find? (key · = k)).map form := by
  rw [funext_iff]
  refine forall_congr' fun k => ?_
  rw [firstData, firstData]
  cases found : items.find? (key · = k) with
  | none => cases items'.find? (key · = k) <;> simp
  | some a =>
    cases found' : items'.find? (key · = k) with
    | none => simp
    | some b =>
      have same : key a = key b := (key_of_find? found).trans (key_of_find? found').symm
      simp only [Option.map_some, Option.some.injEq]
      exact agree a (List.mem_of_find?_eq_some found) b (List.mem_of_find?_eq_some found') same

/-- The canonical forms of some items and of others are the same exactly where the same is
found first. -/
theorem canonical_map_eq_iff {before : κ → κ → Bool} (order : StrictOrder before)
    {items items' chosen chosen' : List α} (form : α → α) (same : ∀ a, key (form a) = key a)
    (h : IsCanonical key before items chosen) (h' : IsCanonical key before items' chosen') :
    chosen.map form = chosen'.map form ↔
      ∀ k, (items.find? (key · = k)).map form = (items'.find? (key · = k)).map form := by
  have find : ∀ (l : List α) k, (l.map form).find? (key · = k) = (l.find? (key · = k)).map form := by
    intro l k
    have comp : ((fun a => decide (key a = k)) ∘ form) = fun a => decide (key a = k) := by
      funext a
      simp only [Function.comp, same]
    rw [List.find?_map, comp]
  constructor
  · intro eq k
    rw [← h.first, ← h'.first, ← find, ← find, eq]
  · intro eq
    refine eq_of_find? order (h.map same).ascending (h'.map same).ascending fun k => ?_
    rw [find, find, h.first, h'.first, eq]

end Keyed

/-! ## Annotations -/

/-- The values of the first annotation with each key. -/
def annotationSurface (as : List Annotation) : AnnotationKey → Option Values :=
  firstData Annotation.key Annotation.values as

/-- An annotation is its key and its values. -/
theorem Annotation.values_eq_iff {a b : Annotation} (same : a.key = b.key) :
    a.values = b.values ↔ a = b := by
  obtain ⟨descriptor, visible, values⟩ := a
  obtain ⟨descriptor', visible', values'⟩ := b
  obtain ⟨rfl, rfl⟩ := AnnotationKey.mk.inj same
  constructor
  · rintro rfl
    rfl
  · intro eq
    rw [eq]

theorem annotationSurface_eq_iff {as bs : List Annotation} :
    annotationSurface as = annotationSurface bs ↔
      canonicalAnnotations as = canonicalAnnotations bs := by
  have found := firstData_eq_iff (κ := AnnotationKey) id
    fun a (_ : a ∈ as) b (_ : b ∈ bs) same => Annotation.values_eq_iff same
  have listed := canonical_map_eq_iff strictOrder_annotationKey id (fun _ => rfl)
    (isCanonical_annotations as) (isCanonical_annotations bs)
  rw [List.map_id, List.map_id] at listed
  exact found.trans listed.symm

/-! ## Fields -/

/-- What a field shows of itself under its key. -/
structure FieldSurface where
  /-- The access word. -/
  access : Access
  /-- The generic signature. -/
  signature : Option Text
  /-- The initial value. -/
  value : Option Constant
  /-- The values of its annotations. -/
  annotations : AnnotationKey → Option Values

/-- The surface of the field. -/
def Field.surface (f : Field) : FieldSurface where
  access := f.header.access
  signature := f.header.signature
  value := f.header.value
  annotations := annotationSurface f.annotations

theorem Field.surface_eq_iff {f g : Field} (same : f.key = g.key) :
    f.surface = g.surface ↔ f.canonical = g.canonical := by
  obtain ⟨⟨access, name, descriptor, signature, value⟩, as⟩ := f
  obtain ⟨⟨access', name', descriptor', signature', value'⟩, bs⟩ := g
  obtain ⟨rfl, rfl⟩ := MemberKey.mk.inj same
  simp only [surface, canonical, FieldSurface.mk.injEq, Field.mk.injEq, FieldHeader.mk.injEq,
    annotationSurface_eq_iff, true_and, and_assoc]

/-! ## Methods -/

/-- What a method shows of itself under its key. -/
structure MethodSurface where
  /-- The access word. -/
  access : Access
  /-- The generic signature. -/
  signature : Option Text
  /-- The declared exceptions. -/
  exceptions : Option (List Text)
  /-- The last default. -/
  default : Option Values
  /-- The values of its annotations. -/
  annotations : AnnotationKey → Option Values
  /-- The last number of parameters of each visibility. -/
  parameterCount : Bool → Option Int
  /-- The values of the annotations of its parameters. -/
  parameterAnnotations : ParameterKey → Option Values

/-- The values of the first annotation of a parameter with each key. -/
def parameterSurface (xs : List (Int × Annotation)) : ParameterKey → Option Values :=
  firstData parameterKey (·.2.values) xs

/-- The surface of the method. -/
def Method.surface (m : Method) : MethodSurface where
  access := m.header.access
  signature := m.header.signature
  exceptions := m.header.exceptions
  default := m.defaults.getLast?
  annotations := annotationSurface m.annotations
  parameterCount := fun visible => (m.parameterCounts visible).getLast?
  parameterAnnotations := parameterSurface m.parameterAnnotations

/-- No parameter has a negative number. -/
def Method.ParametersNonneg (m : Method) : Prop := ∀ x ∈ m.parameterAnnotations, 0 ≤ x.1

/-- An annotation of a parameter is its key and its values. -/
theorem parameter_values_eq_iff {x y : Int × Annotation} (hx : 0 ≤ x.1) (hy : 0 ≤ y.1)
    (same : parameterKey x = parameterKey y) : x.2.values = y.2.values ↔ x = y := by
  obtain ⟨parameter, keys⟩ := ParameterKey.mk.inj same
  have first : x.1 = y.1 := by omega
  have second : x.2.values = y.2.values ↔ x.2 = y.2 := Annotation.values_eq_iff keys
  rw [second, Prod.ext_iff]
  exact (and_iff_right first).symm

/-- What is found by key among all parameter annotations is found among those of each
visibility. -/
theorem parameterSurface_eq_iff {m n : Method} (hm : m.ParametersNonneg) (hn : n.ParametersNonneg) :
    parameterSurface m.parameterAnnotations = parameterSurface n.parameterAnnotations ↔
      m.canonicalParameters = n.canonicalParameters := by
  have split : ∀ (m : Method) visible k, (m.parameterAnnotationsOf visible).find?
      (parameterKey · = k) = if k.key.visible == visible then
        m.parameterAnnotations.find? (parameterKey · = k) else none :=
    fun m visible => find?_filter_key parameterKey (·.key.visible == visible) m.parameterAnnotations
  have found := firstData_eq_iff (κ := ParameterKey) id
    fun x (hx : x ∈ m.parameterAnnotations) y (hy : y ∈ n.parameterAnnotations) same =>
      parameter_values_eq_iff (hm x hx) (hn y hy) same
  have listed : ∀ visible, m.canonicalParameters visible = n.canonicalParameters visible ↔
      ∀ k, (m.parameterAnnotationsOf visible).find? (parameterKey · = k) =
        (n.parameterAnnotationsOf visible).find? (parameterKey · = k) := by
    intro visible
    have := canonical_map_eq_iff strictOrder_parameterKey id (fun _ => rfl)
      (isCanonical_parameters m visible) (isCanonical_parameters n visible)
    simpa only [List.map_id, Option.map_id, id] using this
  simp only [Option.map_id, id] at found
  rw [parameterSurface, parameterSurface, found, funext_iff]
  simp only [listed, split]
  constructor
  · intro eq visible k
    rw [eq]
  · intro eq k
    simpa using eq k.key.visible k

theorem toList_inj {α : Type} {o o' : Option α} : o.toList = o'.toList ↔ o = o' := by
  cases o <;> cases o' <;> simp

theorem Method.lastCount_eq_iff {m n : Method} : m.lastCount = n.lastCount ↔
    (fun visible => (m.parameterCounts visible).getLast?) =
      fun visible => (n.parameterCounts visible).getLast? := by
  simp only [funext_iff, lastCount, toList_inj]

theorem Method.defaults_canonical (m : Method) :
    m.canonical.defaults = m.defaults.getLast?.toList :=
  defaults_ordered ..

theorem Method.annotations_canonical (m : Method) :
    m.canonical.annotations = canonicalAnnotations m.annotations :=
  annotations_ordered ..

theorem Method.parameterCounts_canonical (m : Method) (visible : Bool) :
    m.canonical.parameterCounts visible = m.lastCount visible :=
  parameterCounts_ordered ..

theorem Method.parameterAnnotationsOf_canonical (m : Method) (visible : Bool) :
    m.canonical.parameterAnnotationsOf visible = m.canonicalParameters visible := by
  refine parameterAnnotationsOf_ordered _ _ _ _ _ (fun visible x mem => ?_) visible
  have mem := (isCanonical_parameters m visible).mem strictOrder_parameterKey mem
  exact beq_iff_eq.mp (List.mem_filter.mp mem).2

/-- Methods in normal form are the same if their parts of each kind are. -/
theorem Method.canonical_eq_iff {m n : Method} : m.canonical = n.canonical ↔
    m.header = n.header ∧ m.defaults.getLast? = n.defaults.getLast? ∧
      canonicalAnnotations m.annotations = canonicalAnnotations n.annotations ∧
      m.lastCount = n.lastCount ∧ m.canonicalParameters = n.canonicalParameters := by
  constructor
  · intro eq
    have header : m.canonical.header = n.canonical.header := by rw [eq]
    refine ⟨header, ?_, ?_, ?_, ?_⟩
    · have := congrArg defaults eq
      rwa [defaults_canonical, defaults_canonical, toList_inj] at this
    · have := congrArg annotations eq
      rwa [annotations_canonical, annotations_canonical] at this
    · funext visible
      rw [← parameterCounts_canonical, eq, parameterCounts_canonical]
    · funext visible
      rw [← parameterAnnotationsOf_canonical, eq, parameterAnnotationsOf_canonical]
  · rintro ⟨header, default, annotations, counts, parameters⟩
    rw [canonical, canonical, header, default, annotations, counts, parameters]

/-- The header of a method is its key and what it shows. -/
theorem Method.header_eq_iff {m n : Method} (same : m.key = n.key) : m.header = n.header ↔
    m.header.access = n.header.access ∧ m.header.signature = n.header.signature ∧
      m.header.exceptions = n.header.exceptions := by
  obtain ⟨⟨access, name, descriptor, signature, exceptions⟩, parts⟩ := m
  obtain ⟨⟨access', name', descriptor', signature', exceptions'⟩, parts'⟩ := n
  obtain ⟨rfl, rfl⟩ := MemberKey.mk.inj same
  simp only [MethodHeader.mk.injEq, true_and]

theorem Method.surface_eq_iff {m n : Method} (hm : m.ParametersNonneg) (hn : n.ParametersNonneg)
    (same : m.key = n.key) : m.surface = n.surface ↔ m.canonical = n.canonical := by
  rw [canonical_eq_iff, header_eq_iff same, ← annotationSurface_eq_iff, lastCount_eq_iff,
    ← parameterSurface_eq_iff hm hn]
  simp only [surface, MethodSurface.mk.injEq, and_assoc]

/-! ## Classes -/

/-- What a class shows of itself. -/
structure ClassSurface where
  /-- The version, the access word and the names in the header. -/
  header : ClassHeader
  /-- The values of its annotations. -/
  annotations : AnnotationKey → Option Values
  /-- The fields that other classes can see. -/
  fields : MemberKey → Option FieldSurface
  /-- The methods that other classes can see. -/
  methods : MemberKey → Option MethodSurface

namespace ClassDeclaration

/-- The surface of the class. -/
def surface (c : ClassDeclaration) : ClassSurface where
  header := c.header
  annotations := annotationSurface c.annotations
  fields := firstData Field.key Field.surface (c.fields.filter Field.isRetained)
  methods := firstData Method.key Method.surface (c.methods.filter Method.isRetained)

/-- The normal form of the class. -/
def canonical (c : ClassDeclaration) : ClassDeclaration := c.stream.canonical

/-- Classes have the same surface exactly where they have the same normal form. -/
theorem surface_eq_iff {c d : ClassDeclaration} (hc : ∀ m ∈ c.methods, m.ParametersNonneg)
    (hd : ∀ m ∈ d.methods, m.ParametersNonneg) :
    c.surface = d.surface ↔ c.canonical = d.canonical := by
  have fields := firstData_eq_iff Field.canonical
    fun f (_ : f ∈ c.fields.filter Field.isRetained) g (_ : g ∈ d.fields.filter Field.isRetained)
      same => Field.surface_eq_iff same
  have methods := firstData_eq_iff Method.canonical
    fun m (hm : m ∈ c.methods.filter Method.isRetained) n
      (hn : n ∈ d.methods.filter Method.isRetained) same =>
      Method.surface_eq_iff (hc m (List.mem_of_mem_filter hm)) (hd n (List.mem_of_mem_filter hn))
        same
  have listedFields := canonical_map_eq_iff strictOrder_memberKey Field.canonical (fun _ => rfl)
    (isCanonical_fields c.stream) (isCanonical_fields d.stream)
  have listedMethods := canonical_map_eq_iff strictOrder_memberKey Method.canonical (fun _ => rfl)
    (isCanonical_methods c.stream) (isCanonical_methods d.stream)
  rw [fields_stream, fields_stream] at listedFields
  rw [methods_stream, methods_stream] at listedMethods
  simp only [surface, ClassSurface.mk.injEq, annotationSurface_eq_iff, fields, methods, canonical,
    ClassStream.canonical, ClassDeclaration.mk.injEq, ← listedFields, ← listedMethods,
    header_stream, annotations_stream]

end ClassDeclaration

end ClassAbi
