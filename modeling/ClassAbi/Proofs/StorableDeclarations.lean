import ClassAbi.Proofs.LegibleDeclarations
import ClassAbi.Proofs.PoolSupply

/-!
# Declarations that can be stored

A class is `Storable` with a supply of pool keys if everything that its file
refers to has its key in the supply, the names of attributes included, and if
everything that its file counts fits into the count.  The normal form of a
storable class is storable, and what is storable is writable.

Integers are the one kind of key that depends on how a constant is used.  With
another supply of everything else a class is still storable if its events tell
no integers but those of the other supply (`ClassStream.Storable.transfer`).
-/

namespace ClassAbi

/-! ## Values and annotations -/

mutual

/-- The value can be stored. -/
def Value.Storable (U : List PoolKey) : Value → Prop
  | .constant c => c.elementKey ∈ U
  | .enum descriptor value => .text descriptor ∈ U ∧ .text value ∈ U
  | .nested descriptor values =>
    .text descriptor ∈ U ∧ values.length ≤ 0xFFFF ∧ values.Storable U true
  | .array elements => elements.length ≤ 0xFFFF ∧ elements.Storable U false

/-- The values of a list with names or without can be stored. -/
def Values.Storable (U : List PoolKey) (named : Bool) : Values → Prop
  | .nil => True
  | .cons name value rest =>
    (named = true → .text name ∈ U) ∧ value.Storable U ∧ rest.Storable U named

end

/-- The annotation can be stored in an attribute of the kind. -/
structure Annotation.Storable (U : List PoolKey) (kind : Bool → AttributeKind) (a : Annotation) :
    Prop where
  attributeName : .text (kind a.visible).name ∈ U
  descriptor : .text a.descriptor ∈ U
  count : a.values.length ≤ 0xFFFF
  values : a.values.Storable U true
  nesting : a.values.nesting ≤ nestingLimit + 1

/-- The annotations of each visibility can be counted. -/
def AnnotationsCounted (as : List Annotation) : Prop :=
  ∀ visible, (as.filter (·.visible == visible)).length ≤ 0xFFFF

theorem AnnotationsCounted.of_subperm {as bs : List Annotation} (counted : AnnotationsCounted bs)
    (h : as.Subperm bs) : AnnotationsCounted as :=
  fun visible => Nat.le_trans (h.filter _).length_le (counted visible)

/-! ## Members -/

/-- What any declaration can have beside its own can be stored: the mark of deprecation and the
generic signature. -/
structure MarksStorable (U : List PoolKey) (access : Access) (signature : Option Text) : Prop where
  deprecated : access.isDeprecated → .text (Text.ascii "Deprecated") ∈ U
  signature : ∀ s, signature = some s → .text AttributeKind.signature.name ∈ U ∧ .text s ∈ U

/-- The field can be stored. -/
structure Field.Storable (U : List PoolKey) (f : Field) : Prop where
  name : .text f.header.name ∈ U
  descriptor : .text f.header.descriptor ∈ U
  marks : MarksStorable U f.header.access f.header.signature
  value : ∀ c, f.header.value = some c →
    .text AttributeKind.constantValue.name ∈ U ∧ c.fieldKey ∈ U ∧ c.FitsField f.header.descriptor
  annotations : ∀ a ∈ f.annotations, a.Storable U .annotations
  counted : AnnotationsCounted f.annotations

/-- The part of a method can be stored.  A default has one value. -/
def MethodPart.Storable (U : List PoolKey) : MethodPart → Prop
  | .default values => .text AttributeKind.annotationDefault.name ∈ U ∧
      (∃ name v, values = .cons name v .nil ∧ v.nesting ≤ nestingLimit) ∧ values.Storable U false
  | .annotate a => a.Storable U .annotations
  | .parameterCount count visible =>
    .text (AttributeKind.parameterAnnotations visible).name ∈ U ∧ 0 ≤ count ∧ count ≤ 0xFF
  | .annotateParameter parameter a =>
    a.Storable U .parameterAnnotations ∧ 0 ≤ parameter ∧ parameter < 0xFF

/-- The annotations of the method and of each of its parameters can be counted. -/
structure Method.Counted (m : Method) : Prop where
  annotations : AnnotationsCounted m.annotations
  parameters : ∀ i, AnnotationsCounted (m.annotationsOf i)

/-- The method can be stored. -/
structure Method.Storable (U : List PoolKey) (m : Method) : Prop where
  name : .text m.header.name ∈ U
  descriptor : .text m.header.descriptor ∈ U
  marks : MarksStorable U m.header.access m.header.signature
  exceptions : ∀ names, m.header.exceptions = some names →
    .text AttributeKind.exceptions.name ∈ U ∧ names.length ≤ 0xFFFF ∧
      ∀ name ∈ names, .classRef name ∈ U
  parts : ∀ part ∈ m.parts, part.Storable U
  defaults : m.defaults.length ≤ 1
  counted : m.Counted

/-- The class can be stored. -/
structure ClassStream.Storable (U : List PoolKey) (s : ClassStream) : Prop where
  name : .classRef s.header.name ∈ U
  superName : ∀ name, s.header.superName = some name → .classRef name ∈ U
  marks : MarksStorable U s.header.access s.header.signature
  interfaces : ∀ name ∈ s.header.interfaces.getD [], .classRef name ∈ U
  interfaceCount : (s.header.interfaces.getD []).length ≤ 0xFFFF
  annotations : ∀ a ∈ s.annotations, a.Storable U .annotations
  counted : AnnotationsCounted s.annotations
  fields : ∀ f ∈ s.fields, f.Storable U
  fieldCount : s.fields.length ≤ 0xFFFF
  methods : ∀ m ∈ s.methods, m.Storable U
  methodCount : s.methods.length ≤ 0xFFFF

/-! ## What is storable is writable -/

section Parts

/-- What is picked of a list, where only one item of the list makes each. -/
theorem mem_filterMap_iff {α β : Type} {f : α → Option β} {g : β → α}
    (h : ∀ a b, f a = some b ↔ a = g b) {l : List α} {b : β} : b ∈ l.filterMap f ↔ g b ∈ l := by
  rw [List.mem_filterMap]
  constructor
  · rintro ⟨a, mem, eq⟩
    rwa [← (h a b).mp eq]
  · exact fun mem => ⟨g b, mem, (h (g b) b).mpr rfl⟩

namespace Method

variable {m : Method}

theorem mem_defaults {vs : Values} : vs ∈ m.defaults ↔ .default vs ∈ m.parts :=
  mem_filterMap_iff fun part _ => by cases part <;> simp [MethodPart.default?]

theorem mem_annotations {a : Annotation} : a ∈ m.annotations ↔ .annotate a ∈ m.parts :=
  mem_filterMap_iff fun part _ => by cases part <;> simp [MethodPart.annotation?]

theorem mem_parameterCounts {visible : Bool} {count : Int} :
    count ∈ m.parameterCounts visible ↔ .parameterCount count visible ∈ m.parts :=
  mem_filterMap_iff (f := MethodPart.parameterCount? visible)
      (g := fun c => MethodPart.parameterCount c visible) fun part _ => by
    cases part <;> simp [MethodPart.parameterCount?, and_comm]

theorem mem_parameterAnnotations {x : Int × Annotation} :
    x ∈ m.parameterAnnotations ↔ parameterPart x ∈ m.parts :=
  mem_filterMap_iff fun part x => by
    cases part <;> simp [MethodPart.parameterAnnotation?, parameterPart, Prod.ext_iff]

end Method

namespace ClassStream

variable {s : ClassStream}

theorem mem_annotations {a : Annotation} : a ∈ s.annotations ↔ .annotate a ∈ s.parts :=
  mem_filterMap_iff (f := ClassPart.annotation?) fun part _ => by
    cases part <;> simp [ClassPart.annotation?]

theorem mem_fields {f : Field} : f ∈ s.fields ↔ .field f ∈ s.parts :=
  mem_filterMap_iff (f := ClassPart.field?) fun part _ => by cases part <;> simp [ClassPart.field?]

theorem mem_methods {m : Method} : m ∈ s.methods ↔ .method m ∈ s.parts :=
  mem_filterMap_iff (f := ClassPart.method?) fun part _ => by
    cases part <;> simp [ClassPart.method?]

end ClassStream

end Parts

section Writable

variable {U : List PoolKey}

theorem Field.Storable.writable {f : Field} (h : f.Storable U) : f.Writable where
  value c there := (h.value c there).2.2
  annotations a mem := (h.annotations a mem).nesting

theorem Method.Storable.writable {m : Method} (h : m.Storable U) : m.Writable where
  exceptions names there := (h.exceptions names there).2.1
  default := by
    intro told
    obtain ⟨vs, only⟩ : ∃ vs, m.defaults = [vs] := by
      have := h.defaults
      match eq : m.defaults with
      | [] => exact absurd eq told
      | [vs] => exact ⟨vs, rfl⟩
      | _ :: _ :: _ => rw [eq] at this; simp at this
    have mem : vs ∈ m.defaults := by simp [only]
    obtain ⟨-, ⟨name, v, rfl, -⟩, -⟩ := h.parts _ (mem_defaults.mp mem)
    rw [defaultValues, only]
    rfl
  defaultNesting := by
    intro v mem
    obtain ⟨vs, hvs, hv⟩ := List.mem_flatMap.mp mem
    obtain ⟨-, ⟨name, v', rfl, nesting⟩, -⟩ := h.parts _ (mem_defaults.mp hvs)
    rwa [List.mem_singleton.mp hv]
  annotations a mem := by
    have stored : a.Storable U .annotations := h.parts _ (mem_annotations.mp mem)
    exact stored.nesting
  parameterAnnotations := by
    intro a mem
    obtain ⟨x, hx, rfl⟩ := List.mem_map.mp mem
    have stored : x.2.Storable U .parameterAnnotations ∧ _ :=
      h.parts _ (mem_parameterAnnotations.mp hx)
    exact stored.1.nesting

theorem ClassStream.Storable.writable {s : ClassStream} (h : s.Storable U) : s.Writable where
  interfaces := h.interfaceCount
  annotations a mem := (h.annotations a mem).nesting
  fields f mem := (h.fields f mem).writable
  methods m mem := (h.methods m mem).writable

end Writable

/-! ## Normal forms -/

section Canonical

variable {U : List PoolKey}

theorem Field.Storable.canonical {f : Field} (h : f.Storable U) : f.canonical.Storable U :=
  { h with
    annotations := fun a mem => h.annotations a (mem_of_mem_canonicalAnnotations mem)
    counted := h.counted.of_subperm (canonicalAnnotations_subperm f.annotations) }

namespace Method

/-- A normal form has no parts of its own. -/
theorem mem_of_mem_canonical_parts {m : Method} {part : MethodPart}
    (mem : part ∈ m.canonical.parts) : part ∈ m.parts := by
  have last {α : Type} {l : List α} {a : α} (mem : a ∈ l.getLast?.toList) : a ∈ l :=
    List.mem_of_getLast? (Option.mem_toList.mp mem)
  have parameters {visible : Bool} {part : MethodPart}
      (mem : part ∈ (m.lastCount visible).map (.parameterCount · visible) ++
        (m.canonicalParameters visible).map parameterPart) : part ∈ m.parts := by
    rcases List.mem_append.mp mem with mem | mem
    · obtain ⟨count, there, rfl⟩ := List.mem_map.mp mem
      exact mem_parameterCounts.mp (last there)
    · obtain ⟨x, there, rfl⟩ := List.mem_map.mp mem
      have there := (isCanonical_parameters m visible).mem strictOrder_parameterKey there
      exact mem_parameterAnnotations.mp (List.mem_filter.mp there).1
  simp only [canonical, ordered, List.mem_append (s := _ ++ _)] at mem
  rcases mem with (mem | mem) | mem
  · rcases List.mem_append.mp mem with mem | mem
    · obtain ⟨vs, there, rfl⟩ := List.mem_map.mp mem
      exact mem_defaults.mp (last there)
    · obtain ⟨a, there, rfl⟩ := List.mem_map.mp mem
      exact mem_annotations.mp (mem_of_mem_canonicalAnnotations there)
  · exact parameters mem
  · exact parameters mem

theorem Counted.canonical {m : Method} (h : m.Counted) : m.canonical.Counted where
  annotations := by
    rw [annotations_canonical]
    exact h.annotations.of_subperm (canonicalAnnotations_subperm m.annotations)
  parameters i visible := by
    have fewer : (m.canonicalParameters visible).Subperm (m.parameterAnnotationsOf visible) :=
      canonicalOrder_subperm strictOrder_parameterKey parameterKey _
    have counted := h.parameters i visible
    rw [filter_annotationsOf, List.length_map] at counted
    rw [filter_annotationsOf, List.length_map, parameterAnnotationsOf_canonical]
    exact Nat.le_trans (fewer.filter _).length_le counted

theorem Storable.canonical {m : Method} (h : m.Storable U) : m.canonical.Storable U where
  name := h.name
  descriptor := h.descriptor
  marks := h.marks
  exceptions := h.exceptions
  parts part mem := h.parts part (mem_of_mem_canonical_parts mem)
  defaults := by
    rw [defaults_canonical]
    cases m.defaults.getLast? <;> simp
  counted := h.counted.canonical

end Method

/-- The normal form of a class that can be stored can be stored. -/
theorem ClassStream.Storable.canonical {s : ClassStream} (h : s.Storable U) :
    s.canonical.stream.Storable U where
  name := h.name
  superName := h.superName
  marks := h.marks
  interfaces := h.interfaces
  interfaceCount := h.interfaceCount
  annotations a mem := by
    rw [ClassDeclaration.annotations_stream] at mem
    exact h.annotations a (mem_of_mem_canonicalAnnotations mem)
  counted := by
    rw [ClassDeclaration.annotations_stream]
    exact h.counted.of_subperm (canonicalAnnotations_subperm s.annotations)
  fields f mem := by
    rw [ClassDeclaration.fields_stream] at mem
    obtain ⟨f, there, rfl⟩ := List.mem_map.mp mem
    have there := (isCanonical_fields s).mem strictOrder_memberKey there
    exact (h.fields f (List.mem_filter.mp there).1).canonical
  fieldCount := by
    have fewer : s.canonicalFields.Subperm (s.fields.filter Field.isRetained) :=
      canonicalOrder_subperm strictOrder_memberKey Field.key _
    have retained := List.length_filter_le Field.isRetained s.fields
    have count := h.fieldCount
    have length := fewer.length_le
    rw [ClassDeclaration.fields_stream, ClassStream.canonical, List.length_map]
    omega
  methods m mem := by
    rw [ClassDeclaration.methods_stream] at mem
    obtain ⟨m, there, rfl⟩ := List.mem_map.mp mem
    have there := (isCanonical_methods s).mem strictOrder_memberKey there
    exact (h.methods m (List.mem_filter.mp there).1).canonical
  methodCount := by
    have fewer : s.canonicalMethods.Subperm (s.methods.filter Method.isRetained) :=
      canonicalOrder_subperm strictOrder_memberKey Method.key _
    have retained := List.length_filter_le Method.isRetained s.methods
    have count := h.methodCount
    have length := fewer.length_le
    rw [ClassDeclaration.methods_stream, ClassStream.canonical, List.length_map]
    omega

end Canonical

/-! ## What normal forms tell -/

theorem Field.canonical_events_subset (f : Field) : f.canonical.events ⊆ f.events := by
  intro e mem
  simp only [Field.events, List.mem_cons, List.mem_append, List.mem_flatMap] at mem ⊢
  rcases mem with rfl | ⟨a, there, told⟩ | last
  · exact .inl rfl
  · exact .inr (.inl ⟨a, mem_of_mem_canonicalAnnotations there, told⟩)
  · exact .inr (.inr last)

theorem Method.canonical_events_subset (m : Method) : m.canonical.events ⊆ m.events := by
  intro e mem
  simp only [Method.events, List.mem_cons, List.mem_append, List.mem_flatMap] at mem ⊢
  rcases mem with rfl | ⟨part, there, told⟩ | last
  · exact .inl rfl
  · exact .inr (.inl ⟨part, mem_of_mem_canonical_parts there, told⟩)
  · exact .inr (.inr last)

/-- A normal form tells nothing of its own. -/
theorem ClassStream.canonical_events_subset (s : ClassStream) : s.canonical.events ⊆ s.events := by
  have ofPart {part : ClassPart} {e : Event} (there : part ∈ s.parts) (told : e ∈ part.events) :
      e ∈ s.events :=
    List.mem_cons_of_mem _ (List.mem_append_left _ (List.mem_flatMap.mpr ⟨part, there, told⟩))
  intro e mem
  rw [ClassDeclaration.events_eq] at mem
  simp only [List.mem_cons, List.mem_append, List.mem_flatMap] at mem
  rcases mem with rfl | ((⟨a, there, told⟩ | ⟨f, there, told⟩) | ⟨m, there, told⟩) | last
  · exact List.mem_cons_self
  · exact ofPart (mem_annotations.mp (mem_of_mem_canonicalAnnotations there)) told
  · obtain ⟨f, chosen, rfl⟩ := List.mem_map.mp there
    have retained := (isCanonical_fields s).mem strictOrder_memberKey chosen
    exact ofPart (mem_fields.mp (List.mem_filter.mp retained).1) (f.canonical_events_subset told)
  · obtain ⟨m, chosen, rfl⟩ := List.mem_map.mp there
    have retained := (isCanonical_methods s).mem strictOrder_memberKey chosen
    exact ofPart (mem_methods.mp (List.mem_filter.mp retained).1) (m.canonical_events_subset told)
  · exact List.mem_cons_of_mem _ (List.mem_append_right _ (List.mem_cons.mpr last))

/-! ## Another supply -/

/-- The constant that the event tells. -/
def Event.constant? : Event → Option Constant
  | .field h => h.value
  | .value (.constant _ c) => some c
  | _ => none

/-- The supply has the integers that the event tells. -/
def Event.IntegersIn (U : List PoolKey) (e : Event) : Prop :=
  ∀ c, e.constant? = some c → c.isInteger = true → .integer c.intValue ∈ U

/-- The supply `V` has all keys of `U` but integers. -/
def SuppliesAlso (U V : List PoolKey) : Prop := ∀ k ∈ U, (∀ v, k ≠ .integer v) → k ∈ V

section Transfer

variable {U V : List PoolKey} (also : SuppliesAlso U V)

include also

theorem SuppliesAlso.text {t : Text} (h : .text t ∈ U) : .text t ∈ V := also _ h (by simp)

theorem SuppliesAlso.classRef {name : Text} (h : .classRef name ∈ U) : .classRef name ∈ V :=
  also _ h (by simp)

theorem SuppliesAlso.fieldKey {c : Constant} (h : c.fieldKey ∈ U)
    (integers : c.isInteger = true → .integer c.intValue ∈ V) : c.fieldKey ∈ V := by
  cases c with
  | long v => exact also _ h (by simp [Constant.fieldKey])
  | float b => exact also _ h (by simp [Constant.fieldKey])
  | double b => exact also _ h (by simp [Constant.fieldKey])
  | string t => exact also _ h (by simp [Constant.fieldKey])
  | classLiteral t => exact also _ h (by simp [Constant.fieldKey])
  | _ => exact integers rfl

theorem SuppliesAlso.elementKey {c : Constant} (h : c.elementKey ∈ U)
    (integers : c.isInteger = true → .integer c.intValue ∈ V) : c.elementKey ∈ V := by
  have field (same : c.elementKey = c.fieldKey) : c.elementKey ∈ V := by
    rw [same] at h ⊢
    exact also.fieldKey h integers
  cases c with
  | string t => exact also.text h
  | classLiteral t => exact also.text h
  | _ => exact field rfl

mutual

theorem Value.Storable.transfer : ∀ {v : Value} {name : Text}, v.Storable U →
    (∀ e ∈ (v.events name).map Event.value, e.IntegersIn V) → v.Storable V
  | .constant c, name, h, integers => by
    rw [Value.Storable] at h ⊢
    exact also.elementKey h fun isInteger =>
      integers _ List.mem_cons_self c rfl isInteger
  | .enum descriptor value, _, h, _ => by
    rw [Value.Storable] at h ⊢
    exact ⟨also.text h.1, also.text h.2⟩
  | .nested descriptor values, _, h, integers => by
    rw [Value.Storable] at h ⊢
    refine ⟨also.text h.1, h.2.1, h.2.2.transfer fun e mem => integers e ?_⟩
    rw [Value.events, List.map_cons, List.map_append]
    exact List.mem_cons_of_mem _ (List.mem_append_left _ mem)
  | .array elements, _, h, integers => by
    rw [Value.Storable] at h ⊢
    refine ⟨h.1, h.2.transfer fun e mem => integers e ?_⟩
    rw [Value.events, List.map_cons, List.map_append]
    exact List.mem_cons_of_mem _ (List.mem_append_left _ mem)

theorem Values.Storable.transfer : ∀ {vs : Values} {named : Bool}, vs.Storable U named →
    (∀ e ∈ vs.events.map Event.value, e.IntegersIn V) → vs.Storable V named
  | .nil, _, _, _ => by
    rw [Values.Storable]
    trivial
  | .cons name value rest, named, h, integers => by
    rw [Values.Storable] at h ⊢
    rw [Values.events, List.map_append] at integers
    exact ⟨fun isNamed => also.text (h.1 isNamed),
      h.2.1.transfer fun e mem => integers e (List.mem_append_left _ mem),
      h.2.2.transfer fun e mem => integers e (List.mem_append_right _ mem)⟩

end

theorem Annotation.Storable.transfer {kind : Bool → AttributeKind} {a : Annotation}
    (h : a.Storable U kind) {opening : Text → Bool → Event}
    (integers : ∀ e ∈ a.events opening, e.IntegersIn V) : a.Storable V kind :=
  { h with
    attributeName := also.text h.attributeName
    descriptor := also.text h.descriptor
    values := h.values.transfer also fun e mem => integers e (by
      rw [ Annotation.events, List.map_append]
      exact List.mem_cons_of_mem _ (List.mem_append_left _ mem)) }

theorem MarksStorable.transfer {access : Access} {signature : Option Text}
    (h : MarksStorable U access signature) : MarksStorable V access signature where
  deprecated told := also.text (h.deprecated told)
  signature s told := ⟨also.text (h.signature s told).1, also.text (h.signature s told).2⟩

theorem Field.Storable.transfer {f : Field} (h : f.Storable U)
    (integers : ∀ e ∈ f.events, e.IntegersIn V) : f.Storable V :=
  { h with
    name := also.text h.name
    descriptor := also.text h.descriptor
    marks := h.marks.transfer also
    value := fun c told => by
      obtain ⟨named, key, fits⟩ := h.value c told
      exact ⟨also.text named, also.fieldKey key (integers _ List.mem_cons_self c told), fits⟩
    annotations := fun a mem => (h.annotations a mem).transfer also fun e there =>
      integers e (List.mem_cons_of_mem _ (List.mem_append_left _
        (List.mem_flatMap.mpr ⟨a, mem, there⟩))) }

theorem MethodPart.Storable.transfer {part : MethodPart} (h : part.Storable U)
    (integers : ∀ e ∈ part.events, e.IntegersIn V) : part.Storable V := by
  cases part with
  | default values =>
    refine ⟨also.text h.1, h.2.1, h.2.2.transfer also fun e mem => integers e ?_⟩
    rw [MethodPart.events, List.map_append]
    exact List.mem_cons_of_mem _ (List.mem_append_left _ mem)
  | annotate a =>
    have h : a.Storable U .annotations := h
    exact h.transfer also integers
  | parameterCount count visible => exact ⟨also.text h.1, h.2⟩
  | annotateParameter parameter a => exact ⟨h.1.transfer also integers, h.2⟩

theorem Method.Storable.transfer {m : Method} (h : m.Storable U)
    (integers : ∀ e ∈ m.events, e.IntegersIn V) : m.Storable V :=
  { h with
    name := also.text h.name
    descriptor := also.text h.descriptor
    marks := h.marks.transfer also
    exceptions := fun names told => by
      obtain ⟨named, count, each⟩ := h.exceptions names told
      exact ⟨also.text named, count, fun name mem => also.classRef (each name mem)⟩
    parts := fun part mem => (h.parts part mem).transfer also fun e there =>
      integers e (List.mem_cons_of_mem _ (List.mem_append_left _
        (List.mem_flatMap.mpr ⟨part, mem, there⟩))) }

/-- A class can be stored with another supply that has the integers of the class. -/
theorem ClassStream.Storable.transfer {s : ClassStream} (h : s.Storable U)
    (integers : ∀ e ∈ s.events, e.IntegersIn V) : s.Storable V := by
  -- The events of a part are among those of the class.
  have told {part : ClassPart} (mem : part ∈ s.parts) : ∀ e ∈ part.events, e.IntegersIn V :=
    fun e there => integers e (List.mem_cons_of_mem _ (List.mem_append_left _
      (List.mem_flatMap.mpr ⟨part, mem, there⟩)))
  exact { h with
    name := also.classRef h.name
    superName := fun name there => also.classRef (h.superName name there)
    marks := h.marks.transfer also
    interfaces := fun name mem => also.classRef (h.interfaces name mem)
    annotations := fun a mem => (h.annotations a mem).transfer also (told (mem_annotations.mp mem))
    fields := fun f mem => (h.fields f mem).transfer also (told (mem_fields.mp mem))
    methods := fun m mem => (h.methods m mem).transfer also (told (mem_methods.mp mem)) }

end Transfer

end ClassAbi
