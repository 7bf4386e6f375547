import ClassAbi.Proofs.UniqueReading
import ClassAbi.Proofs.WrittenDrafts

/-!
# Well-formed class files

A class file is well-formed if its indexes refer to entries of the right kind
and every attribute that a reader knows has contents that such an attribute can
have.  Entries that nothing refers to, the order of the attributes, how often
one occurs and what stands in attributes of other names are left open.

Every well-formed class file denotes one class, and the reader delivers it
(`readClass_of_wellFormed`).  What the reader does not know has no part in
that: two files with the same `essence` are read alike if the pool of the second
has every entry of the first that can be referred to.
-/

namespace ClassAbi

/-! ## Well-formed parts -/

section Parts

variable (t : ConstantTable)

/-- The attribute has a name, and contents that the name allows. -/
structure AttributeInfo.WellFormed (a : AttributeInfo) : Prop where
  named : ∃ name, t.utf8At a.name = .ok name
  encodes : ∀ k : AttributeKind, t.utf8At a.name = .ok k.name → k.Encodes t a.info
  short : a.info.length < 0x100000000

/-- The attributes of one owner are well-formed. -/
structure AttributesWellFormed (attributes : List AttributeInfo) : Prop where
  each : ∀ a ∈ attributes, a.WellFormed t
  count : attributes.length ≤ 0xFFFF

/-- The member has a name and a descriptor, and its attributes are well-formed. -/
structure MemberInfo.WellFormed (m : MemberInfo) : Prop where
  name : ∃ name, t.utf8At m.name = .ok name
  descriptor : ∃ descriptor, t.utf8At m.descriptor = .ok descriptor
  attributes : AttributesWellFormed t m.attributes

/-- The field is well-formed, and an initial value of it is a constant. -/
structure MemberInfo.WellFormedField (m : MemberInfo) : Prop extends m.WellFormed t where
  constants : ∀ descriptor, t.utf8At m.descriptor = .ok descriptor → ∀ a ∈ m.attributes,
    t.utf8At a.name = .ok AttributeKind.constantValue.name →
      ∃ c, ConstantRef t descriptor c a.info

end Parts

/-- The class file is well-formed. -/
structure ClassFile.WellFormed (f : ClassFile) : Prop where
  pool : ∀ i ∈ f.pool, i.Fits
  size : f.table.size ≤ 0xFFFF
  name : ∃ name, f.table.classNameAt f.thisClass = .ok name
  superName : ∃ name, superNameAt f.table f.superClass = .ok name
  interfaces : ∀ i ∈ f.interfaces, ∃ name, f.table.classNameAt i = .ok name
  interfaceCount : f.interfaces.length ≤ 0xFFFF
  fields : ∀ m ∈ f.fields, m.WellFormedField f.table
  fieldCount : f.fields.length ≤ 0xFFFF
  methods : ∀ m ∈ f.methods, m.WellFormed f.table
  methodCount : f.methods.length ≤ 0xFFFF
  attributes : AttributesWellFormed f.table f.attributes

/-! ## What well-formed parts denote -/

/-- A name that demands contents is that of a kind. -/
theorem AttributeLocations.exists_kind_of_shortestLength {name : Text}
    (h : shortestLength name ≠ 0) : ∃ k : AttributeKind, name = k.name := by
  unfold shortestLength at h
  simp only [Bool.or_eq_true, beq_iff_eq] at h
  split at h
  · next eq =>
    obtain (((eq | eq) | eq) | eq) | eq := eq
    exacts [⟨.signature, eq⟩, ⟨.constantValue, eq⟩, ⟨.exceptions, eq⟩, ⟨.annotations true, eq⟩,
      ⟨.annotations false, eq⟩]
  · split at h
    · next eq =>
      obtain (eq | eq) | eq := eq
      exacts [⟨.annotationDefault, eq⟩, ⟨.parameterAnnotations true, eq⟩,
        ⟨.parameterAnnotations false, eq⟩]
    · exact absurd rfl h

section Existence

variable {t : ConstantTable} {attributes : List AttributeInfo}

theorem AttributeInfo.WellFormed.fits {a : AttributeInfo} (h : a.WellFormed t) : a.Fits t where
  named := by
    obtain ⟨name, found⟩ := h.named
    refine ⟨name, found, ?_⟩
    by_cases zero : AttributeLocations.shortestLength name = 0
    · rw [zero]
      exact Nat.zero_le _
    · obtain ⟨k, rfl⟩ := AttributeLocations.exists_kind_of_shortestLength zero
      exact (h.encodes k found).shortestLength_le
  short := h.short

theorem MemberInfo.WellFormed.fits {m : MemberInfo} (h : m.WellFormed t) : m.Fits t where
  attributes a mem := (h.attributes.each a mem).fits
  count := h.attributes.count

theorem exists_mem_of_lastInfo {name info : Text} (h : lastInfo t name attributes = some info) :
    ∃ a ∈ attributes, t.utf8At a.name = .ok name ∧ a.info = info := by
  have mem := List.mem_of_getLast? h
  obtain ⟨a, mem, eq⟩ := List.mem_filterMap.mp mem
  split at eq
  · next named => exact ⟨a, mem, named, Option.some.inj eq⟩
  · cases eq

/-- The last attribute of a kind has data if every attribute of the kind has. -/
theorem exists_kindHolds {k : AttributeKind} {α : Type} {encodes : α → Text → Prop}
    (h : ∀ a ∈ attributes, t.utf8At a.name = .ok k.name → ∃ x, encodes x a.info) :
    ∃ x, KindHolds t attributes k encodes x := by
  unfold KindHolds
  cases found : lastInfo t k.name attributes with
  | none => exact ⟨none, .none⟩
  | some info =>
    obtain ⟨a, mem, named, rfl⟩ := exists_mem_of_lastInfo found
    obtain ⟨x, encoded⟩ := h a mem named
    exact ⟨some x, .some encoded⟩

namespace AttributesWellFormed

variable (h : AttributesWellFormed t attributes)
include h

theorem exists_signature : ∃ s, KindHolds t attributes .signature (TextRef t) s :=
  exists_kindHolds fun a mem => (h.each a mem).encodes .signature

theorem exists_exceptions :
    ∃ names, KindHolds t attributes .exceptions (TableEncodedBy (ClassRef t)) names :=
  exists_kindHolds fun a mem => (h.each a mem).encodes .exceptions

theorem exists_default : ∃ v, KindHolds t attributes .annotationDefault (DefaultEncodedBy t) v :=
  exists_kindHolds fun a mem => (h.each a mem).encodes .annotationDefault

theorem exists_annotations : ∃ as, AnnotationsDenoted t attributes as := by
  have each (visible : Bool) : ∃ as, KindHolds t attributes (.annotations visible)
      (AnnotationsEncodedBy t visible) as :=
    exists_kindHolds fun a mem => (h.each a mem).encodes (.annotations visible)
  choose tables holds using each
  exact ⟨_, tables, holds, rfl⟩

theorem exists_parameters : ∃ tables : Bool → Option (List (List Annotation)), ∀ visible,
    KindHolds t attributes (.parameterAnnotations visible) (ParametersEncodedBy t visible)
      (tables visible) := by
  have each (visible : Bool) : ∃ tables, KindHolds t attributes (.parameterAnnotations visible)
      (ParametersEncodedBy t visible) tables :=
    exists_kindHolds fun a mem => (h.each a mem).encodes (.parameterAnnotations visible)
  choose tables holds using each
  exact ⟨tables, holds⟩

end AttributesWellFormed

theorem MemberInfo.WellFormedField.exists_field {m : MemberInfo} (h : m.WellFormedField t) :
    ∃ f, m.DenotesField t f := by
  obtain ⟨name, hname⟩ := h.name
  obtain ⟨descriptor, hdescriptor⟩ := h.descriptor
  obtain ⟨signature, hsignature⟩ := h.attributes.exists_signature
  obtain ⟨value, hvalue⟩ := exists_kindHolds (h.constants descriptor hdescriptor)
  obtain ⟨as, annotations⟩ := h.attributes.exists_annotations
  exact ⟨⟨⟨.ofFlags m.flags (marksDeprecated t m.attributes), name, descriptor, signature, value⟩,
    as⟩, h.fits, hname, hdescriptor, rfl, hsignature, hvalue, annotations⟩

theorem MemberInfo.WellFormed.exists_method {m : MemberInfo} (h : m.WellFormed t) :
    ∃ x, m.DenotesMethod t x := by
  obtain ⟨name, hname⟩ := h.name
  obtain ⟨descriptor, hdescriptor⟩ := h.descriptor
  obtain ⟨signature, hsignature⟩ := h.attributes.exists_signature
  obtain ⟨exceptions, hexceptions⟩ := h.attributes.exists_exceptions
  obtain ⟨v, hdefault⟩ := h.attributes.exists_default
  obtain ⟨as, annotations⟩ := h.attributes.exists_annotations
  obtain ⟨tables, parameters⟩ := h.attributes.exists_parameters
  exact ⟨.tabled ⟨.ofFlags m.flags (marksDeprecated t m.attributes), name, descriptor, signature,
    exceptions⟩ v as tables, h.fits, hname, hdescriptor, rfl, hsignature, hexceptions,
    v, as, tables, hdefault, annotations, parameters, rfl⟩

end Existence

/-- A well-formed class file denotes a class. -/
theorem ClassFile.WellFormed.exists_class {f : ClassFile} (h : f.WellFormed) :
    ∃ c, f.Denotes c := by
  obtain ⟨name, hname⟩ := h.name
  obtain ⟨superName, hsuperName⟩ := h.superName
  obtain ⟨signature, hsignature⟩ := h.attributes.exists_signature
  obtain ⟨names, found⟩ := exists_forall₂ h.interfaces
  have interfaces := tableEncodedBy_of_classes found (found.length_eq ▸ h.interfaceCount)
  obtain ⟨as, annotations⟩ := h.attributes.exists_annotations
  obtain ⟨fields, hfields⟩ := exists_forall₂ fun m mem => (h.fields m mem).exists_field
  obtain ⟨methods, hmethods⟩ := exists_forall₂ fun m mem => (h.methods m mem).exists_method
  exact ⟨⟨⟨f.minor.toUInt32 <<< 16 ||| f.major.toUInt32,
      .ofFlags f.flags (marksDeprecated f.table f.attributes), name, signature, superName,
      some names⟩, as, fields, methods⟩,
    { pool := h.pool, size := h.size, version := rfl, access := rfl, name := hname
      superName := hsuperName, signature := hsignature, interfaces := ⟨names, interfaces, rfl⟩
      fits := fun a mem => (h.attributes.each a mem).fits
      attributeCount := h.attributes.count, annotations, fieldCount := h.fieldCount
      fields := hfields, methodCount := h.methodCount, methods := hmethods }⟩

/-! ## What does not matter -/

/-- The names of the attributes that a reader knows. -/
def knownNames : List Text :=
  Text.ascii "Deprecated" ::
    [.signature, .constantValue, .exceptions, .annotationDefault, .annotations true,
      .annotations false, .parameterAnnotations true, .parameterAnnotations false].map
      AttributeKind.name

theorem AttributeKind.name_mem_knownNames (k : AttributeKind) : k.name ∈ knownNames := by
  rcases k with _ | _ | _ | _ | _ | _ <;> try cases ‹Bool›
  all_goals simp [knownNames]

/-- The attribute has a name that a reader knows. -/
def AttributeInfo.isKnown (t : ConstantTable) (a : AttributeInfo) : Bool :=
  knownNames.any fun name => t.utf8At a.name = .ok name

/-- The member without the attributes that no reader knows. -/
def MemberInfo.essence (t : ConstantTable) (m : MemberInfo) : MemberInfo :=
  { m with attributes := m.attributes.filter (·.isKnown t) }

/-- The class file without its pool and without the attributes that no reader knows. -/
def ClassFile.essence (f : ClassFile) : ClassFile :=
  { f with
    pool := []
    fields := f.fields.map (·.essence f.table)
    methods := f.methods.map (·.essence f.table)
    attributes := f.attributes.filter (·.isKnown f.table) }

theorem infosNamed_filter_isKnown {t : ConstantTable} {name : Text} (known : name ∈ knownNames)
    (attributes : List AttributeInfo) :
    infosNamed t name (attributes.filter (·.isKnown t)) = infosNamed t name attributes := by
  rw [infosNamed, infosNamed, List.filterMap_filter]
  refine List.filterMap_congr fun a _ => ?_
  split
  · rfl
  · next unknown =>
    rw [if_neg]
    intro named
    exact unknown (List.any_eq_true.mpr ⟨name, known, decide_eq_true named⟩)

section Essence

variable {t u : ConstantTable} {attributes attributes' : List AttributeInfo}

/-- What the attributes of a known name hold does not depend on the others, nor on what else is in
the pool. -/
theorem infosNamed_eq_of_essence (h : AttributesWellFormed t attributes) (within : t.Within u)
    (same : attributes'.filter (·.isKnown u) = attributes.filter (·.isKnown t)) {name : Text}
    (known : name ∈ knownNames) :
    infosNamed u name attributes' = infosNamed t name attributes := by
  rw [← infosNamed_filter_isKnown known, same, ← infosNamed_filter_isKnown known attributes]
  refine List.filterMap_congr fun a mem => ?_
  obtain ⟨name', found⟩ := (h.each a (List.mem_of_mem_filter mem)).named
  rw [found, within.utf8At found]

theorem marksDeprecated_eq_of_essence (h : AttributesWellFormed t attributes) (within : t.Within u)
    (same : attributes'.filter (·.isKnown u) = attributes.filter (·.isKnown t)) :
    marksDeprecated u attributes' = marksDeprecated t attributes := by
  rw [marksDeprecated, marksDeprecated, infosNamed_eq_of_essence h within same List.mem_cons_self]

/-- Data that attributes of the kind hold in one file, they hold in the other. -/
theorem KindHolds.of_essence {k : AttributeKind} {α : Type} {encodes encodes' : α → Text → Prop}
    {a : Option α} (holds : KindHolds t attributes k encodes a)
    (h : AttributesWellFormed t attributes) (within : t.Within u)
    (same : attributes'.filter (·.isKnown u) = attributes.filter (·.isKnown t))
    (imp : ∀ {x bs}, encodes x bs → encodes' x bs) : KindHolds u attributes' k encodes' a := by
  rw [KindHolds, lastInfo, infosNamed_eq_of_essence h within same k.name_mem_knownNames]
  exact rel_mono imp holds

theorem TextRef.mono (within : t.Within u) {s bs : Text} (h : TextRef t s bs) : TextRef u s bs := by
  obtain ⟨i, found, rfl⟩ := h
  exact ⟨i, within.utf8At found, rfl⟩

theorem ClassRef.mono (within : t.Within u) {name bs : Text} (h : ClassRef t name bs) :
    ClassRef u name bs := by
  obtain ⟨i, found, rfl⟩ := h
  exact ⟨i, within.classNameAt found, rfl⟩

theorem ConstantRef.mono (within : t.Within u) {descriptor : Text} {c : Constant} {bs : Text}
    (h : ConstantRef t descriptor c bs) : ConstantRef u descriptor c bs := by
  obtain ⟨i, found, rfl⟩ := h
  exact ⟨i, within.constantAt found, rfl⟩

theorem TableEncodedBy.mono {α : Type} {encodes encodes' : α → Text → Prop}
    (imp : ∀ {a bs}, encodes a bs → encodes' a bs) {as : List α} {bs : Text}
    (h : TableEncodedBy encodes as bs) : TableEncodedBy encodes' as bs := by
  obtain ⟨count, items, each, rfl⟩ := h
  exact ⟨count, items, each.mono imp, rfl⟩

theorem AnnotationsEncodedBy.mono (within : t.Within u) {visible : Bool} {as : List Annotation}
    {bs : Text} (h : AnnotationsEncodedBy t visible as bs) : AnnotationsEncodedBy u visible as bs :=
  TableEncodedBy.mono (fun encoded => encoded.mono within) h

theorem ParametersEncodedBy.mono (within : t.Within u) {visible : Bool}
    {tables : List (List Annotation)} {bs : Text} (h : ParametersEncodedBy t visible tables bs) :
    ParametersEncodedBy u visible tables bs := by
  obtain ⟨count, items, each, rfl⟩ := h
  exact ⟨count, items, each.mono fun encoded => encoded.mono within, rfl⟩

theorem AnnotationsDenoted.of_essence {as : List Annotation}
    (denoted : AnnotationsDenoted t attributes as) (h : AttributesWellFormed t attributes)
    (within : t.Within u)
    (same : attributes'.filter (·.isKnown u) = attributes.filter (·.isKnown t)) :
    AnnotationsDenoted u attributes' as := by
  obtain ⟨tables, holds, rfl⟩ := denoted
  exact ⟨tables, fun visible => (holds visible).of_essence h within same (·.mono within), rfl⟩

theorem MemberInfo.DenotesField.of_essence {m m' : MemberInfo} {f : Field}
    (denotes : m.DenotesField t f) (h : m.WellFormedField t) (h' : m'.WellFormedField u)
    (within : t.Within u) (same : m'.essence u = m.essence t) : m'.DenotesField u f := by
  injection same with flags name descriptor attributes
  have known := h.attributes
  constructor
  case fits => exact h'.fits
  case name => exact name ▸ within.utf8At denotes.name
  case descriptor => exact descriptor ▸ within.utf8At denotes.descriptor
  case access =>
    rw [flags, marksDeprecated_eq_of_essence known within attributes]
    exact denotes.access
  case signature => exact denotes.signature.of_essence known within attributes (·.mono within)
  case value => exact denotes.value.of_essence known within attributes (·.mono within)
  case annotations => exact denotes.annotations.of_essence known within attributes

theorem MemberInfo.DenotesMethod.of_essence {m m' : MemberInfo} {x : Method}
    (denotes : m.DenotesMethod t x) (h : m.WellFormed t) (h' : m'.WellFormed u)
    (within : t.Within u) (same : m'.essence u = m.essence t) : m'.DenotesMethod u x := by
  injection same with flags name descriptor attributes
  have known := h.attributes
  constructor
  case fits => exact h'.fits
  case name => exact name ▸ within.utf8At denotes.name
  case descriptor => exact descriptor ▸ within.utf8At denotes.descriptor
  case access =>
    rw [flags, marksDeprecated_eq_of_essence known within attributes]
    exact denotes.access
  case signature => exact denotes.signature.of_essence known within attributes (·.mono within)
  case exceptions =>
    exact denotes.exceptions.of_essence known within attributes
      (TableEncodedBy.mono (·.mono within))
  case parts =>
    obtain ⟨v, as, tables, default, annotations, parameters, eq⟩ := denotes.parts
    refine ⟨v, as, tables, ?_, annotations.of_essence known within attributes, ?_, eq⟩
    · exact default.of_essence known within attributes
        fun encoded => ⟨encoded.1.mono within, encoded.2⟩
    · intro visible
      exact (parameters visible).of_essence known within attributes (·.mono within)

/-- Members that agree in what matters denote the same. -/
theorem forall₂_of_essence {α : Type} {denotes denotes' : MemberInfo → α → Prop}
    {ms ms' : List MemberInfo} {xs : List α}
    (same : ms'.map (·.essence u) = ms.map (·.essence t))
    (imp : ∀ m ∈ ms, ∀ m' ∈ ms', m'.essence u = m.essence t → ∀ x, denotes m x → denotes' m' x)
    (h : List.Forall₂ denotes ms xs) : List.Forall₂ denotes' ms' xs := by
  induction h generalizing ms' with
  | nil =>
    rw [List.map_nil, List.map_eq_nil_iff] at same
    subst same
    exact .nil
  | @cons m x ms xs first _ ih =>
    obtain ⟨m', ms', rfl, eq, same⟩ := List.map_eq_cons_iff.mp same
    refine .cons (imp m List.mem_cons_self m' List.mem_cons_self eq x first) (ih same ?_)
    exact fun y hy y' hy' => imp y (List.mem_cons_of_mem m hy) y' (List.mem_cons_of_mem m' hy')

end Essence

theorem superNameAt_mono {t u : ConstantTable} (within : t.Within u) {index : UInt16}
    {name : Option Text} (h : superNameAt t index = .ok name) : superNameAt u index = .ok name := by
  unfold superNameAt at h ⊢
  split
  · next zero => rwa [if_pos zero] at h
  · next nonzero =>
    rw [if_neg nonzero] at h
    obtain ⟨found, h, eq⟩ := bind_eq_ok.mp h
    exact bind_eq_ok.mpr ⟨found, within.classNameAt h, eq⟩

/-- A file that agrees in what matters denotes the same class. -/
theorem ClassFile.Denotes.of_essence {f g : ClassFile} {c : ClassDeclaration} (denotes : f.Denotes c)
    (hf : f.WellFormed) (hg : g.WellFormed) (within : f.table.Within g.table)
    (same : g.essence = f.essence) : g.Denotes c := by
  injection same with minor major _ flags thisClass superClass interfaces fields methods attributes
  have known := hf.attributes
  constructor
  case pool => exact hg.pool
  case size => exact hg.size
  case version =>
    rw [minor, major]
    exact denotes.version
  case access =>
    rw [flags, marksDeprecated_eq_of_essence known within attributes]
    exact denotes.access
  case name => exact thisClass ▸ within.classNameAt denotes.name
  case superName => exact superClass ▸ superNameAt_mono within denotes.superName
  case signature => exact denotes.signature.of_essence known within attributes (·.mono within)
  case interfaces =>
    obtain ⟨names, encoded, eq⟩ := denotes.interfaces
    rw [interfaces]
    exact ⟨names, encoded.mono (·.mono within), eq⟩
  case fits => exact fun a mem => (hg.attributes.each a mem).fits
  case attributeCount => exact hg.attributes.count
  case annotations => exact denotes.annotations.of_essence known within attributes
  case fieldCount => exact hg.fieldCount
  case fields =>
    refine forall₂_of_essence fields ?_ denotes.fields
    exact fun m hm m' hm' eq x h => h.of_essence (hf.fields m hm) (hg.fields m' hm') within eq
  case methodCount => exact hg.methodCount
  case methods =>
    refine forall₂_of_essence methods ?_ denotes.methods
    exact fun m hm m' hm' eq x h => h.of_essence (hf.methods m hm) (hg.methods m' hm') within eq

/-! ## Reading well-formed files -/

/-- A well-formed class file is read as the only class that it denotes.  So is every other one that
agrees in what matters and has in its pool what this one refers to. -/
theorem readClass_of_wellFormed {f : ClassFile} (wellFormed : f.WellFormed) {d : ByteArray}
    (held : HoldsAt d 0 f.encode) :
    ∃ c, f.Denotes c ∧ (∀ c', f.Denotes c' → c' = c) ∧ readClass d = ⟨c.events, .ok ()⟩ ∧
      ∀ (g : ClassFile) (d' : ByteArray), g.WellFormed → f.table.Within g.table →
        g.essence = f.essence → HoldsAt d' 0 g.encode → readClass d' = ⟨c.events, .ok ()⟩ := by
  obtain ⟨c, denotes⟩ := wellFormed.exists_class
  have read := readClass_of_denotes denotes held
  refine ⟨c, denotes, ?_, read, ?_⟩
  · intro c' denotes'
    have read' := readClass_of_denotes denotes' held
    rw [read] at read'
    exact (ClassDeclaration.events_injective (congrArg Delivery.events read')).symm
  · intro g d' hg within same held'
    exact readClass_of_denotes (denotes.of_essence wellFormed hg within same) held'

/-- A class file with references forward, entries that nothing refers to, a signature that does
not count and an attribute that no reader knows. -/
def untidyFile : ClassFile where
  minor := 0
  major := 52
  pool := [.classRef 4, .long 7, .utf8 [65], .utf8 (Text.ascii "Signature"), .utf8 [83], .utf8 [84],
    .other 9 [0, 1, 0, 99], .utf8 (Text.ascii "Code"), .utf8 (Text.ascii "()V"), .utf8 [65]]
  flags := 0x21
  thisClass := 1
  superClass := 0
  interfaces := []
  fields := []
  methods := [⟨1, 4, 10, [⟨9, [1, 2, 3]⟩]⟩]
  attributes := [⟨5, [0, 6]⟩, ⟨9, []⟩, ⟨5, [0, 7]⟩]

/-- An attribute of another name can hold anything. -/
theorem wellFormed_of_unknown {t : ConstantTable} {a : AttributeInfo} {name : Text}
    (named : t.utf8At a.name = .ok name) (unknown : name ∉ knownNames)
    (short : a.info.length < 0x100000000) : a.WellFormed t where
  named := ⟨name, named⟩
  encodes k same := by
    rw [named, Except.ok.injEq] at same
    exact absurd (same ▸ k.name_mem_knownNames) unknown
  short := short

theorem wellFormed_of_signature {t : ConstantTable} {name index : UInt16} {s : Text}
    (named : t.utf8At name = .ok AttributeKind.signature.name) (found : t.utf8At index = .ok s) :
    AttributeInfo.WellFormed t ⟨name, bytesU2 index⟩ where
  named := ⟨_, named⟩
  encodes k same := by
    rw [named, Except.ok.injEq] at same
    obtain rfl := AttributeKind.name_injective same
    exact ⟨s, index, found, rfl⟩
  short := show 2 < _ by decide

theorem wellFormed_untidyFile : untidyFile.WellFormed where
  pool := by
    intro i mem
    simp only [untidyFile, List.mem_cons, List.not_mem_nil, or_false] at mem
    rcases mem with rfl | rfl | rfl | rfl | rfl | rfl | rfl | rfl | rfl | rfl <;>
    · unfold PoolItem.Fits
      decide
  size := by decide
  name := ⟨[65], by decide⟩
  superName := ⟨none, rfl⟩
  interfaces := List.forall_mem_nil _
  interfaceCount := by decide
  fields := List.forall_mem_nil _
  fieldCount := by decide
  methods := by
    intro m mem
    obtain rfl := List.mem_singleton.mp mem
    have named : untidyFile.table.utf8At 9 = .ok (Text.ascii "Code") := by decide
    have code : AttributeInfo.WellFormed untidyFile.table ⟨9, [1, 2, 3]⟩ :=
      wellFormed_of_unknown named (by decide) (show 3 < _ by decide)
    exact ⟨⟨[65], by decide⟩, ⟨Text.ascii "()V", by decide⟩,
      List.forall_mem_singleton.mpr code, by decide⟩
  methodCount := by decide
  attributes := by
    have signature : untidyFile.table.utf8At 5 = .ok AttributeKind.signature.name := by decide
    have named : untidyFile.table.utf8At 9 = .ok (Text.ascii "Code") := by decide
    have first : untidyFile.table.utf8At 6 = .ok [83] := by decide
    have last : untidyFile.table.utf8At 7 = .ok [84] := by decide
    have code : AttributeInfo.WellFormed untidyFile.table ⟨9, []⟩ :=
      wellFormed_of_unknown named (by decide) (show 0 < _ by decide)
    have first := wellFormed_of_signature signature first
    have last := wellFormed_of_signature signature last
    exact ⟨List.forall_mem_cons.mpr ⟨first, List.forall_mem_cons.mpr ⟨code,
      List.forall_mem_singleton.mpr last⟩⟩, by decide⟩

theorem readClass_untidyFile :
    untidyFile.WellFormed ∧ HoldsAt ⟨untidyFile.encode.toArray⟩ 0 untidyFile.encode ∧
      ∃ c, untidyFile.Denotes c ∧ (∀ c', untidyFile.Denotes c' → c' = c) ∧
        readClass ⟨untidyFile.encode.toArray⟩ = ⟨c.events, .ok ()⟩ ∧
        ∀ (g : ClassFile) (d' : ByteArray), g.WellFormed → untidyFile.table.Within g.table →
          g.essence = untidyFile.essence → HoldsAt d' 0 g.encode →
            readClass d' = ⟨c.events, .ok ()⟩ := by
  have held := HoldsAt.self ⟨untidyFile.encode.toArray⟩
  exact ⟨wellFormed_untidyFile, held, readClass_of_wellFormed wellFormed_untidyFile held⟩

end ClassAbi
