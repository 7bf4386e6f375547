import ClassAbi.Proofs.ParameterTables
import ClassAbi.Proofs.Surface
import ClassAbi.Proofs.WrittenSizes
import Mathlib.Algebra.Order.BigOperators.Group.List
import Mathlib.Algebra.Order.Group.Nat

/-!
# Writing what was read

What is read can be written, and so can its normal form.  Leaving out and sorting
makes nothing larger, so attributes that fitted into a file fit again.

A reader delivers the visible annotations of an owner in front of the others.
That changes the order of annotations and not which is first of its key, so what
is read back has the normal form of what was written.  The normal form of a
normal form is the normal form itself.
-/

namespace ClassAbi

/-! ## Annotations -/

theorem sum_le_of_subperm {α : Type} (size : α → Nat) {l l' : List α} (h : l.Subperm l') :
    (l.map size).sum ≤ (l'.map size).sum := by
  obtain ⟨l'', perm, sub⟩ := h
  rw [← (perm.map size).sum_eq]
  exact (sub.map size).sum_le_sum fun _ _ => Nat.zero_le _

theorem Annotation.Legible.readBack_eq {a : Annotation} (h : a.Legible) : a.readBack = a := by
  obtain ⟨descriptor, visible, values⟩ := a
  have same : values.readBack true = values := h.readBack
  show Annotation.mk descriptor visible (values.readBack true) = ⟨descriptor, visible, values⟩
  rw [same]

theorem map_readBack_eq {as : List Annotation} (h : ∀ a ∈ as, a.Legible) :
    as.map Annotation.readBack = as :=
  (List.map_congr_left fun a mem => (h a mem).readBack_eq).trans (List.map_id _)

theorem readBackOf_eq {as : List Annotation} (h : ∀ a ∈ as, a.Legible) (visible : Bool) :
    readBackOf visible as = as.filter (·.visible == visible) :=
  map_readBack_eq fun a mem => h a (List.mem_of_mem_filter mem)

/-- Of the annotations of an owner, the same are first as were told first. -/
theorem find?_readBackAll {as : List Annotation} (h : ∀ a ∈ as, a.Legible) (k : AnnotationKey) :
    (readBackAll as).find? (·.key = k) = as.find? (·.key = k) := by
  have split : ∀ visible, (as.filter (·.visible == visible)).find? (·.key = k) =
      if k.visible == visible then as.find? (·.key = k) else none :=
    fun visible => find?_filter_key Annotation.key (·.visible == visible) as k
  rw [readBackAll, readBackOf_eq h, readBackOf_eq h, List.find?_append, split, split]
  cases k.visible <;> simp

theorem canonicalAnnotations_readBackAll {as : List Annotation} (h : ∀ a ∈ as, a.Legible) :
    canonicalAnnotations (readBackAll as) = canonicalAnnotations as :=
  (isCanonical_annotations (readBackAll as)).eq strictOrder_annotationKey
    (isCanonical_annotations as) (find?_readBackAll h)

theorem canonicalAnnotations_idem (as : List Annotation) :
    canonicalAnnotations (canonicalAnnotations as) = canonicalAnnotations as :=
  (isCanonical_self (isCanonical_annotations as).ascending).canonicalOrder_eq
    strictOrder_annotationKey

theorem mem_of_mem_canonicalAnnotations {as : List Annotation} {a : Annotation}
    (mem : a ∈ canonicalAnnotations as) : a ∈ as :=
  (isCanonical_annotations as).mem strictOrder_annotationKey mem

theorem tableSize_le_of_subperm {as bs : List Annotation} (h : as.Subperm bs) :
    tableSize as ≤ tableSize bs :=
  Nat.add_le_add_left (sum_le_of_subperm Annotation.encodedSize h) 2

theorem canonicalAnnotations_subperm (as : List Annotation) :
    (canonicalAnnotations as).Subperm as :=
  canonicalOrder_subperm strictOrder_annotationKey Annotation.key as

namespace AnnotationsLegible

variable {as : List Annotation}

theorem canonical (h : AnnotationsLegible as) : AnnotationsLegible (canonicalAnnotations as) where
  each a mem := h.each a (mem_of_mem_canonicalAnnotations mem)
  size visible :=
    Nat.lt_of_le_of_lt (tableSize_le_of_subperm ((canonicalAnnotations_subperm as).filter _))
      (h.size visible)

theorem small (h : AnnotationsLegible as) : AnnotationsSmall as := by
  intro visible
  rw [readBackOf_eq h.each]
  exact h.size visible

theorem readable (h : AnnotationsLegible as) : Readable as := fun a mem => (h.each a mem).nesting

end AnnotationsLegible

/-! ## Fields -/

namespace Field

variable {f : Field}

theorem canonical_canonical (f : Field) : f.canonical.canonical = f.canonical :=
  congrArg (Field.mk f.header) (canonicalAnnotations_idem f.annotations)

namespace Legible

theorem canonical (h : f.Legible) : f.canonical.Legible where
  access := h.access
  value := h.value
  annotations := h.annotations.canonical

theorem writable (h : f.Legible) : f.Writable where
  value := h.value
  annotations := h.annotations.readable

theorem header_readBack (h : f.Legible) : f.readBack.header = f.header := by
  obtain ⟨header, as⟩ := f
  show { header with access := header.access.stored } = header
  rw [show header.access.stored = header.access from h.access]

/-- What is read back has the same normal form. -/
theorem canonical_readBack (h : f.Legible) : f.readBack.canonical = f.canonical := by
  rw [Field.canonical, Field.canonical, h.header_readBack]
  exact congrArg (Field.mk f.header) (canonicalAnnotations_readBackAll h.annotations.each)

end Legible

end Field

/-! ## Parameters -/

section Parameters

variable {tables : Bool → Option (List (List Annotation))}

theorem ParametersLegible.canonical {visible : Bool} {ts : List (List Annotation)}
    (h : ParametersLegible visible ts) :
    ParametersLegible visible (ts.map canonicalAnnotations) where
  count := by
    rw [List.length_map]
    exact h.count
  each := by
    intro as mem a mem'
    obtain ⟨bs, there, rfl⟩ := List.mem_map.mp mem
    exact h.each bs there a (mem_of_mem_canonicalAnnotations mem')
  size := by
    have le : ((ts.map canonicalAnnotations).map tableSize).sum ≤ (ts.map tableSize).sum := by
      rw [List.map_map]
      exact List.sum_le_sum fun as _ => tableSize_le_of_subperm (canonicalAnnotations_subperm as)
    exact Nat.lt_of_le_of_lt (Nat.add_le_add_left le 1) h.size

theorem tablesShown_of_legible
    (h : ∀ visible x, tables visible = some x → ParametersLegible visible x) :
    TablesShown tables := by
  intro visible as mem a mem'
  cases eq : tables visible with
  | none =>
    rw [eq] at mem
    cases mem
  | some ts =>
    rw [eq] at mem
    exact ((h visible ts eq).each as mem a mem').1

/-- Tables that are read back are as they were. -/
theorem map_tables_readBack
    (h : ∀ visible x, tables visible = some x → ParametersLegible visible x) (visible : Bool) :
    (tables visible).map (·.map (·.map Annotation.readBack)) = tables visible := by
  cases eq : tables visible with
  | none => rfl
  | some ts =>
    refine congrArg some ((List.map_congr_left fun as mem => ?_).trans (List.map_id _))
    exact map_readBack_eq fun a mem' => ((h visible ts eq).each as mem a mem').2

end Parameters

/-! ## Methods -/

namespace Method

variable {m : Method}

theorem canonical_canonical (m : Method) : m.canonical.canonical = m.canonical := by
  have last : ∀ {α : Type} (o : Option α), o.toList.getLast? = o := by
    intro α o
    cases o <;> rfl
  refine canonical_eq_iff.mpr ⟨rfl, ?_, ?_, ?_, ?_⟩
  · rw [defaults_canonical, last]
  · rw [annotations_canonical, canonicalAnnotations_idem]
  · funext visible
    rw [lastCount, parameterCounts_canonical, lastCount, last]
  · funext visible
    rw [canonicalParameters, parameterAnnotationsOf_canonical]
    exact (isCanonical_self (isCanonical_parameters m visible).ascending).canonicalOrder_eq
      strictOrder_parameterKey

namespace Legible

theorem canonical (h : m.Legible) : m.canonical.Legible where
  access := h.access
  exceptions := h.exceptions
  parts := by
    obtain ⟨v, as, tables, hv, has, htables, eq⟩ := h.parts
    refine ⟨v, canonicalAnnotations as, fun visible => (tables visible).map
      (·.map canonicalAnnotations), hv, has.canonical, ?_, ?_⟩
    · intro visible x found
      obtain ⟨ts, there, rfl⟩ := Option.map_eq_some_iff.mp found
      exact (htables visible ts there).canonical
    · rw [eq, canonical_tabled _ v as (tablesShown_of_legible htables)]
      rfl

theorem writable (h : m.Legible) : m.Writable := by
  obtain ⟨v, as, tables, hv, has, htables, eq⟩ := h.parts
  have shown := tablesShown_of_legible htables
  refine ⟨h.exceptions, ?_, ?_, ?_, ?_⟩
  · rw [eq, defaults_tabled, defaultValues_tabled]
    cases v <;> simp
  · rw [eq, defaultValues_tabled]
    intro x mem
    exact (hv x (Option.mem_toList.mp mem)).2.1
  · rw [eq, annotations_tabled]
    exact has.readable
  · intro a mem
    obtain ⟨x, mem', rfl⟩ := List.mem_map.mp mem
    have there : x ∈ m.parameterAnnotationsOf x.2.visible :=
      List.mem_filter.mpr ⟨mem', beq_self_eq_true _⟩
    rw [eq, parameterAnnotationsOf_tabled _ v as shown] at there
    obtain ⟨_, -, -, -, as', table, here⟩ := exists_of_mem_numberedFrom there
    cases eq' : tables x.2.visible with
    | none =>
      rw [eq'] at table
      cases table
    | some ts =>
      rw [eq'] at table
      exact ((htables _ ts eq').each as' table x.2 here).2.nesting

theorem small (h : m.Legible) : m.Small := by
  obtain ⟨v, as, tables, hv, has, htables, eq⟩ := h.parts
  refine ⟨?_, ?_, ?_⟩
  · rw [eq, defaultValues_tabled]
    intro x mem
    obtain ⟨same, -, size⟩ := hv x (Option.mem_toList.mp mem)
    rw [same]
    exact size
  · rw [eq, annotations_tabled]
    exact has.small
  · intro visible ts
    rw [eq, parameterTables_tabled _ v as (tablesShown_of_legible htables),
      map_tables_readBack htables]
    exact fun found => (htables visible ts found).size

theorem header_readBack (h : m.Legible) : m.readBack.header = m.header := by
  obtain ⟨header, parts⟩ := m
  show { header with access := header.access.stored } = header
  rw [show header.access.stored = header.access from h.access]

/-- What is read back has its annotations in another order. -/
theorem exists_readBack (h : m.Legible) :
    ∃ (v : Option Value) (as : List Annotation) (tables : Bool → Option (List (List Annotation))),
      (∀ a ∈ as, a.Legible) ∧ TablesShown tables ∧ m = tabled m.header v as tables ∧
      m.readBack = tabled m.header v (readBackAll as) tables := by
  obtain ⟨v, as, tables, hv, has, htables, eq⟩ := h.parts
  have shown := tablesShown_of_legible htables
  have value : v.map Value.readBack = v := by
    cases v with
    | none => rfl
    | some x => exact congrArg some (hv x rfl).1
  have header := h.header_readBack
  refine ⟨v, as, tables, has.each, shown, eq, ?_⟩
  rw [eq, readBack_tabled _ v as shown, value, funext (map_tables_readBack htables)] at header ⊢
  exact congrArg (tabled · v (readBackAll as) tables) header

/-- What is read back has the same normal form. -/
theorem canonical_readBack (h : m.Legible) : m.readBack.canonical = m.canonical := by
  obtain ⟨v, as, tables, has, shown, eq, back⟩ := h.exists_readBack
  rw [back, canonical_tabled _ v _ shown, canonicalAnnotations_readBackAll has,
    ← canonical_tabled _ v as shown, ← eq]

end Legible

end Method

/-! ## Classes -/

section Retained

variable {α κ : Type} [DecidableEq κ] {key : α → κ} {before : κ → κ → Bool} {p : α → Bool}

/-- Members in normal form that are retained are in normal form. -/
theorem canonicalOrder_forms (order : StrictOrder before) (form : α → α)
    (same : ∀ a, key (form a) = key a) (left : ∀ a, p (form a) = p a)
    (idem : ∀ a, form (form a) = form a) {items chosen : List α}
    (h : IsCanonical key before (items.filter p) chosen) :
    (canonicalOrder (fun a b => before (key a) (key b)) ((chosen.map form).filter p)).map form =
      chosen.map form := by
  have all : chosen.filter p = chosen :=
    List.filter_eq_self.mpr fun a mem => (List.mem_filter.mp (h.mem order mem)).2
  rw [canonicalOrder_filter_map order key form form same (fun a _ => left a) (fun a _ => idem a), all,
    (isCanonical_self h.ascending).canonicalOrder_eq order]

end Retained

namespace ClassDeclaration

variable {c : ClassDeclaration}

theorem canonical_canonical (c : ClassDeclaration) : c.canonical.canonical = c.canonical := by
  have fields := canonicalOrder_forms strictOrder_memberKey Field.canonical (fun _ => rfl)
    (fun _ => rfl) Field.canonical_canonical (isCanonical_fields c.stream)
  have methods := canonicalOrder_forms strictOrder_memberKey Method.canonical (fun _ => rfl)
    (fun _ => rfl) Method.canonical_canonical (isCanonical_methods c.stream)
  have annotations := canonicalAnnotations_idem c.stream.annotations
  unfold canonical
  rw [ClassStream.canonical, ClassStream.canonicalFields, ClassStream.canonicalMethods,
    annotations_stream, fields_stream, methods_stream]
  exact congr (congr (congrArg (ClassDeclaration.mk c.header) annotations) fields) methods

namespace Legible

theorem canonical (h : c.Legible) : c.canonical.Legible where
  access := h.access
  interfaces := h.interfaces
  annotations := by
    have legible := h.annotations.canonical
    rwa [← annotations_stream c] at legible
  fields := by
    intro f mem
    obtain ⟨g, mem', rfl⟩ := List.mem_map.mp mem
    have there := List.mem_of_mem_filter ((isCanonical_fields c.stream).mem strictOrder_memberKey mem')
    rw [fields_stream] at there
    exact (h.fields g there).canonical
  methods := by
    intro m mem
    obtain ⟨n, mem', rfl⟩ := List.mem_map.mp mem
    have there :=
      List.mem_of_mem_filter ((isCanonical_methods c.stream).mem strictOrder_memberKey mem')
    rw [methods_stream] at there
    exact (h.methods n there).canonical

theorem writable (h : c.Legible) : c.stream.Writable where
  interfaces := by
    obtain ⟨names, eq, le⟩ := h.interfaces
    show (c.header.interfaces.getD []).length ≤ 0xFFFF
    rwa [eq]
  annotations := by
    rw [annotations_stream]
    exact h.annotations.readable
  fields := by
    rw [fields_stream]
    exact fun f mem => (h.fields f mem).writable
  methods := by
    rw [methods_stream]
    exact fun m mem => (h.methods m mem).writable

theorem small (h : c.Legible) : c.stream.Small where
  annotations := by
    rw [annotations_stream]
    exact h.annotations.small
  fields := by
    rw [fields_stream]
    exact fun f mem => (h.fields f mem).annotations.small
  methods := by
    rw [methods_stream]
    exact fun m mem => (h.methods m mem).small

theorem header_readBack (h : c.Legible) : c.stream.readBack.header = c.header := by
  obtain ⟨names, eq, -⟩ := h.interfaces
  obtain ⟨header, annotations, fields, methods⟩ := c
  have access : header.access.stored = header.access := h.access
  have interfaces : some (header.interfaces.getD []) = header.interfaces := by
    rw [show header.interfaces = some names from eq, Option.getD_some]
  show header.readBack = header
  rw [ClassHeader.readBack, access, interfaces]

/-- What is read back of a class has the normal form of the class. -/
theorem canonical_readBack (h : c.Legible) : c.stream.readBack.canonical = c.canonical := by
  have retainedField : ∀ f ∈ c.fields, f.readBack.isRetained = f.isRetained := by
    intro f mem
    rw [Field.isRetained, (h.fields f mem).header_readBack, Field.isRetained]
  have retainedMethod : ∀ m ∈ c.methods, m.readBack.isRetained = m.isRetained := by
    intro m mem
    rw [Method.isRetained, (h.methods m mem).header_readBack, Method.isRetained]
  have fields := canonicalOrder_filter_map strictOrder_memberKey Field.key Field.readBack
    Field.canonical (fun _ => rfl) retainedField
    fun f mem => (h.fields f mem).canonical_readBack
  have methods := canonicalOrder_filter_map strictOrder_memberKey Method.key Method.readBack
    Method.canonical (fun _ => rfl) retainedMethod
    fun m mem => (h.methods m mem).canonical_readBack
  have annotations := canonicalAnnotations_readBackAll h.annotations.each
  have header := h.header_readBack
  unfold ClassDeclaration.canonical
  rw [ClassStream.canonical, ClassStream.canonical, ClassStream.canonicalFields,
    ClassStream.canonicalMethods, ClassStream.canonicalFields, ClassStream.canonicalMethods,
    annotations_stream, fields_stream, methods_stream, annotations_stream, fields_stream,
    methods_stream, header_stream, header_stream, header]
  rw [ClassStream.readBack, annotations_stream, fields_stream, methods_stream]
  exact congr (congr (congrArg (ClassDeclaration.mk c.header) annotations) fields) methods

end Legible

end ClassDeclaration

end ClassAbi
