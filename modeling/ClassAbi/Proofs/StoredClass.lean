import ClassAbi.Proofs.StoredLayout

/-!
# Class files and what they declare

A class file denotes a class if following its references and decoding its
attributes gives the class.  Each attribute that matters must be encoded as the
format prescribes.  An attribute of another name may hold anything.

`ClassFile.Denotes` is the relation, and `readClass_of_denotes` says that the
reader delivers what a class file denotes, whatever bytes follow the file.
`AttributeLocations.ReadExactly` says that an attribute is read to the end that
its length declares.
-/

namespace ClassAbi

/-! ## Contents of attributes -/

/-- The bytes are an index of the initial value of a field with the descriptor. -/
def ConstantRef (t : ConstantTable) (descriptor : Text) (c : Constant) (bs : Text) : Prop :=
  ∃ i, t.constantAt descriptor i = .ok c ∧ bs = bytesU2 i

/-- The bytes encode the default value, which nests no deeper than a reader follows. -/
def DefaultEncodedBy (t : ConstantTable) (v : Value) (bs : Text) : Prop :=
  v.EncodedBy t bs ∧ v.nesting ≤ nestingLimit

namespace AttributeKind

/-- The bytes are contents that an attribute of the kind can have. -/
def Encodes (t : ConstantTable) : AttributeKind → Text → Prop
  | signature, bs => ∃ s, TextRef t s bs
  | constantValue, bs => ∃ i, bs = bytesU2 i
  | exceptions, bs => ∃ names, TableEncodedBy (ClassRef t) names bs
  | annotationDefault, bs => ∃ v, DefaultEncodedBy t v bs
  | annotations visible, bs => ∃ as, AnnotationsEncodedBy t visible as bs
  | parameterAnnotations visible, bs => ∃ tables, ParametersEncodedBy t visible tables bs

/-- Reading the contents of an attribute of the kind at `offset` ends at `stop`. -/
def ReadsTo (d : ByteArray) (t : ConstantTable) (offset stop : Nat) : AttributeKind → Prop
  | signature => ∃ s, scanUtf8Ref d t offset = .ok (s, stop)
  | constantValue => ∃ i, scanU2 d offset = .ok (i, stop)
  | exceptions => ∃ names, scanClassRefs d t offset = .ok (names, stop)
  | annotationDefault => ∃ events, readOuterValue d t [] offset = ⟨events, .ok stop⟩
  | annotations visible => ∀ opening : Text → Bool → Event,
      ∃ events, readAnnotations d t (opening · visible) offset = ⟨events, .ok stop⟩
  | parameterAnnotations visible =>
      ∃ events, readParameterAnnotations d t visible offset = ⟨events, .ok stop⟩

end AttributeKind

/-- The length in front of the contents at `offset` declares that they end at `stop`. -/
def DeclaredEnd (d : ByteArray) (offset stop : Nat) : Prop :=
  ∃ length, scanU4 d (offset - 4) = .ok (length, offset) ∧ stop = offset + length.toNat

/-- Every attribute that is noted is read to its declared end and no further. -/
def AttributeLocations.ReadExactly (d : ByteArray) (t : ConstantTable) (a : AttributeLocations) :
    Prop :=
  ∀ k offset, a.place k = some offset →
    ∃ stop, k.ReadsTo d t offset stop ∧ DeclaredEnd d offset stop

section Reading

variable {d : ByteArray} {t : ConstantTable}

theorem LocatedAt.declaredEnd {info : Text} {offset : Nat} (h : LocatedAt d info offset) :
    DeclaredEnd d offset (offset + info.length) := by
  obtain ⟨-, short, start, rfl, length⟩ := h
  refine ⟨info.length.toUInt32, ?_, by rw [toNat_toUInt32 short]⟩
  rw [Nat.add_sub_cancel]
  exact scanU4_eq_ok.mpr ⟨length, rfl⟩

theorem readOuterValue_eq_ok {name : Text} {offset stop : Nat} {events : List Event} :
    readOuterValue d t name offset = ⟨events, .ok stop⟩ ↔
      ∃ v bs, DefaultEncodedBy t v bs ∧ HoldsAt d offset bs ∧ stop = offset + bs.length ∧
        events = (v.events name).map .value := by
  simp only [readOuterValue, readValue_eq_ok, DefaultEncodedBy, Nat.lt_succ_iff, and_assoc]

/-- Contents of the kind are read to their end. -/
theorem AttributeKind.Encodes.readsTo {k : AttributeKind} {bs : Text} {offset : Nat}
    (h : k.Encodes t bs) (held : HoldsAt d offset bs) :
    k.ReadsTo d t offset (offset + bs.length) := by
  cases k with
  | signature =>
    obtain ⟨s, i, found, rfl⟩ := h
    exact ⟨s, scanUtf8Ref_eq_ok.mpr ⟨rfl, i, held, found⟩⟩
  | constantValue =>
    obtain ⟨i, rfl⟩ := h
    exact ⟨i, scanU2_eq_ok.mpr ⟨held, rfl⟩⟩
  | exceptions =>
    obtain ⟨names, encoded⟩ := h
    exact ⟨names, scanClassRefs_eq_ok.mpr ⟨bs, encoded, held, rfl⟩⟩
  | annotationDefault =>
    obtain ⟨v, encoded⟩ := h
    exact ⟨_, readOuterValue_eq_ok.mpr ⟨v, bs, encoded, held, rfl, rfl⟩⟩
  | annotations visible =>
    obtain ⟨as, encoded⟩ := h
    exact fun opening => ⟨_, readAnnotations_eq_ok.mpr ⟨as, bs, encoded, held, rfl, rfl⟩⟩
  | parameterAnnotations visible =>
    obtain ⟨tables, encoded⟩ := h
    exact ⟨_, readParameterAnnotations_eq_ok.mpr ⟨tables, bs, encoded, held, rfl, rfl⟩⟩

/-- The attributes that are noted have contents of their kind. -/
def AttributesProper (t : ConstantTable) (attributes : List AttributeInfo) : Prop :=
  ∀ (k : AttributeKind) info, lastInfo t k.name attributes = some info → k.Encodes t info

/-- Attributes with proper contents are read exactly. -/
theorem NotedIn.readExactly {attributes : List AttributeInfo} {a : AttributeLocations}
    (noted : NotedIn d t attributes a) (proper : AttributesProper t attributes) :
    a.ReadExactly d t := by
  intro k offset place
  have := noted.place k
  rw [place] at this
  cases found : lastInfo t k.name attributes with
  | none =>
    rw [found] at this
    cases this
  | some info =>
    rw [found] at this
    cases this with
    | some located =>
      exact ⟨_, (proper k info found).readsTo located.1, located.declaredEnd⟩

/-! ## Reading attributes -/

/-- The attributes of the kind encode the data, if there is any. -/
def KindHolds (t : ConstantTable) (attributes : List AttributeInfo) (k : AttributeKind)
    {α : Type} (encodes : α → Text → Prop) (a : Option α) : Prop :=
  Option.Rel encodes a (lastInfo t k.name attributes)

/-- The data stands at a place, if there is any. -/
def FoundAt (d : ByteArray) {α : Type} (encodes : α → Text → Prop) (a : Option α)
    (place : Option Nat) : Prop :=
  Option.Rel (fun x offset => ∃ bs, encodes x bs ∧ HoldsAt d offset bs) a place

theorem KindHolds.foundAt {attributes : List AttributeInfo} {k : AttributeKind} {α : Type}
    {encodes : α → Text → Prop} {a : Option α} {l : AttributeLocations}
    (h : KindHolds t attributes k encodes a) (noted : NotedIn d t attributes l) :
    FoundAt d encodes a (l.place k) := by
  have place := noted.place k
  rw [KindHolds] at h
  rw [FoundAt]
  generalize lastInfo t k.name attributes = info at h place
  generalize l.place k = offset at place ⊢
  cases h with
  | none =>
    cases place
    exact .none
  | some encoded =>
    cases place with
    | some located => exact .some ⟨_, encoded, located.1⟩

theorem signatureAt_of_foundAt {s : Option Text} {place : Option Nat}
    (h : FoundAt d (TextRef t) s place) : signatureAt d t place = .ok s := by
  cases h with
  | none => rfl
  | some found =>
    obtain ⟨_, ⟨i, found, rfl⟩, held⟩ := found
    exact bind_eq_ok.mpr ⟨_, scanUtf8Ref_eq_ok.mpr ⟨rfl, i, held, found⟩, rfl⟩

theorem constantValueAt_of_foundAt {descriptor : Text} {c : Option Constant} {place : Option Nat}
    (h : FoundAt d (ConstantRef t descriptor) c place) :
    constantValueAt d t descriptor place = .ok c := by
  cases h with
  | none => rfl
  | some found =>
    obtain ⟨_, ⟨i, found, rfl⟩, held⟩ := found
    exact bind_eq_ok.mpr ⟨_, scanU2_eq_ok.mpr ⟨held, rfl⟩, bind_eq_ok.mpr ⟨_, found, rfl⟩⟩

theorem exceptionsAt_of_foundAt {names : Option (List Text)} {place : Option Nat}
    (h : FoundAt d (TableEncodedBy (ClassRef t)) names place) :
    exceptionsAt d t place = .ok names := by
  cases h with
  | none => rfl
  | some found =>
    obtain ⟨bs, encoded, held⟩ := found
    exact bind_eq_ok.mpr ⟨_, scanClassRefs_eq_ok.mpr ⟨bs, encoded, held, rfl⟩, rfl⟩

theorem readAnnotationsAt_of_foundAt {opening : Text → Bool → Event} {visible : Bool}
    {as : Option (List Annotation)} {place : Option Nat}
    (h : FoundAt d (AnnotationsEncodedBy t visible) as place) :
    readAnnotationsAt d t (opening · visible) place =
      ⟨(as.getD []).flatMap (·.events opening), .ok ()⟩ := by
  cases h with
  | none => rfl
  | some found =>
    obtain ⟨bs, encoded, held⟩ := found
    exact Delivery.bind_eq_ok.mpr ⟨_, _, [],
      readAnnotations_eq_ok.mpr ⟨_, bs, encoded, held, rfl, rfl⟩, rfl, (List.append_nil _).symm⟩

/-- The parts of a method that its parameter annotations of one visibility make. -/
def parameterParts (visible : Bool) : Option (List (List Annotation)) → List MethodPart
  | none => []
  | some tables =>
    .parameterCount tables.length visible ::
      (numberedFrom 0 tables).map fun x => .annotateParameter x.1 x.2

theorem readParameterAnnotationsAt_of_foundAt {visible : Bool}
    {tables : Option (List (List Annotation))} {place : Option Nat}
    (h : FoundAt d (ParametersEncodedBy t visible) tables place) :
    readParameterAnnotationsAt d t visible place =
      ⟨(parameterParts visible tables).flatMap MethodPart.events, .ok ()⟩ := by
  cases h with
  | none => rfl
  | some found =>
    obtain ⟨bs, encoded, held⟩ := found
    refine Delivery.bind_eq_ok.mpr ⟨_, _, [],
      readParameterAnnotations_eq_ok.mpr ⟨_, bs, encoded, held, rfl, rfl⟩, rfl, ?_⟩
    rw [List.append_nil, parameterParts, List.flatMap_cons, List.flatMap_map]
    rfl

/-- The part of a method that its default value makes. -/
def defaultParts : Option Value → List MethodPart
  | none => []
  | some v => [.default (.cons [] v .nil)]

theorem readDefaultAt_of_foundAt {v : Option Value} {place : Option Nat}
    (h : FoundAt d (DefaultEncodedBy t) v place) :
    readDefaultAt d t place = ⟨(defaultParts v).flatMap MethodPart.events, .ok ()⟩ := by
  cases h with
  | none => rfl
  | some found =>
    obtain ⟨bs, encoded, held⟩ := found
    refine Delivery.bind_eq_ok.mpr ⟨_, (), _, Delivery.deliver_eq_ok.mpr rfl, ?_, rfl⟩
    refine Delivery.bind_eq_ok.mpr ⟨_, _, [.value .close],
      readOuterValue_eq_ok.mpr ⟨_, bs, encoded, held, rfl, rfl⟩, rfl, ?_⟩
    simp [Values.events]

end Reading

/-! ## Denotation -/

/-- The method with its parts as a reader finds them, one table of annotations for each
parameter. -/
def Method.tabled (h : MethodHeader) (v : Option Value) (as : List Annotation)
    (tables : Bool → Option (List (List Annotation))) : Method where
  header := h
  parts := defaultParts v ++ as.map .annotate ++ parameterParts true (tables true) ++
    parameterParts false (tables false)

theorem Method.events_tabled (h : MethodHeader) (v : Option Value) (as : List Annotation)
    (tables : Bool → Option (List (List Annotation))) :
    (tabled h v as tables).events =
      .method h :: ((defaultParts v).flatMap MethodPart.events ++
        as.flatMap (·.events .annotateMethod) ++
        (parameterParts true (tables true)).flatMap MethodPart.events ++
        (parameterParts false (tables false)).flatMap MethodPart.events ++ [.methodEnd]) := by
  rw [events, tabled, List.flatMap_append, List.flatMap_append, List.flatMap_append,
    List.flatMap_map]
  rfl

/-- Of visible items with invisible ones behind them, those of one visibility. -/
theorem filter_visible_append {α : Type} {shown : α → Bool} {xs ys : List α}
    (hxs : ∀ x ∈ xs, shown x = true) (hys : ∀ y ∈ ys, shown y = false) (visible : Bool) :
    (xs ++ ys).filter (shown · == visible) = if visible then xs else ys := by
  rw [List.filter_append]
  cases visible with
  | true =>
    rw [List.filter_eq_self.mpr fun x mem => by rw [hxs x mem]; rfl,
      List.filter_eq_nil_iff.mpr fun y mem => by rw [hys y mem]; decide, List.append_nil]
    rfl
  | false =>
    rw [List.filter_eq_nil_iff.mpr fun x mem => by rw [hxs x mem]; decide,
      List.filter_eq_self.mpr fun y mem => by rw [hys y mem]; rfl, List.nil_append]
    rfl

/-- The attributes encode the annotations of their owner, the visible ones first. -/
def AnnotationsDenoted (t : ConstantTable) (attributes : List AttributeInfo)
    (as : List Annotation) : Prop :=
  ∃ tables : Bool → Option (List Annotation),
    (∀ visible, KindHolds t attributes (.annotations visible) (AnnotationsEncodedBy t visible)
      (tables visible)) ∧
    as = (tables true).getD [] ++ (tables false).getD []

/-- The member is the field. -/
structure MemberInfo.DenotesField (t : ConstantTable) (m : MemberInfo) (f : Field) : Prop where
  fits : m.Fits t
  name : t.utf8At m.name = .ok f.header.name
  descriptor : t.utf8At m.descriptor = .ok f.header.descriptor
  access : f.header.access = .ofFlags m.flags (marksDeprecated t m.attributes)
  signature : KindHolds t m.attributes .signature (TextRef t) f.header.signature
  value : KindHolds t m.attributes .constantValue (ConstantRef t f.header.descriptor) f.header.value
  annotations : AnnotationsDenoted t m.attributes f.annotations

/-- The member is the method. -/
structure MemberInfo.DenotesMethod (t : ConstantTable) (m : MemberInfo) (x : Method) : Prop where
  fits : m.Fits t
  name : t.utf8At m.name = .ok x.header.name
  descriptor : t.utf8At m.descriptor = .ok x.header.descriptor
  access : x.header.access = .ofFlags m.flags (marksDeprecated t m.attributes)
  signature : KindHolds t m.attributes .signature (TextRef t) x.header.signature
  exceptions : KindHolds t m.attributes .exceptions (TableEncodedBy (ClassRef t))
    x.header.exceptions
  parts : ∃ (v : Option Value) (as : List Annotation)
      (tables : Bool → Option (List (List Annotation))),
    KindHolds t m.attributes .annotationDefault (DefaultEncodedBy t) v ∧
    AnnotationsDenoted t m.attributes as ∧
    (∀ visible, KindHolds t m.attributes (.parameterAnnotations visible)
      (ParametersEncodedBy t visible) (tables visible)) ∧
    x = .tabled x.header v as tables

/-- The table of the constant pool of a class file. -/
def ClassFile.table (f : ClassFile) : ConstantTable := tableOf f.pool

/-- The class file is the class. -/
structure ClassFile.Denotes (f : ClassFile) (c : ClassDeclaration) : Prop where
  pool : ∀ i ∈ f.pool, i.Fits
  size : f.table.size ≤ 0xFFFF
  version : c.header.version = f.minor.toUInt32 <<< 16 ||| f.major.toUInt32
  access : c.header.access = .ofFlags f.flags (marksDeprecated f.table f.attributes)
  name : f.table.classNameAt f.thisClass = .ok c.header.name
  superName : superNameAt f.table f.superClass = .ok c.header.superName
  signature : KindHolds f.table f.attributes .signature (TextRef f.table) c.header.signature
  interfaces : ∃ names,
    TableEncodedBy (ClassRef f.table) names (encodeTable bytesU2 f.interfaces) ∧
    c.header.interfaces = some names
  fits : ∀ a ∈ f.attributes, a.Fits f.table
  attributeCount : f.attributes.length ≤ 0xFFFF
  annotations : AnnotationsDenoted f.table f.attributes c.annotations
  fieldCount : f.fields.length ≤ 0xFFFF
  fields : List.Forall₂ (MemberInfo.DenotesField f.table) f.fields c.fields
  methodCount : f.methods.length ≤ 0xFFFF
  methods : List.Forall₂ (MemberInfo.DenotesMethod f.table) f.methods c.methods

/-- Every attribute of the class file that is read has proper contents. -/
structure ClassFile.Proper (f : ClassFile) : Prop where
  fields : ∀ m ∈ f.fields, AttributesProper f.table m.attributes
  methods : ∀ m ∈ f.methods, AttributesProper f.table m.attributes
  attributes : AttributesProper f.table f.attributes

/-- Every attribute that is noted of a class file is read to its declared end. -/
structure ClassLayout.ReadExactly (d : ByteArray) (l : ClassLayout) : Prop where
  fields : ∀ m ∈ l.fields, m.attributes.ReadExactly d l.table
  methods : ∀ m ∈ l.methods, m.attributes.ReadExactly d l.table
  attributes : l.attributes.ReadExactly d l.table

/-! ## Reading what is denoted -/

section Denoted

variable {d : ByteArray} {t : ConstantTable}

theorem readAnnotationsAt_of_denoted {attributes : List AttributeInfo} {as : List Annotation}
    {l : AttributeLocations} (denoted : AnnotationsDenoted t attributes as)
    (noted : NotedIn d t attributes l) (opening : Text → Bool → Event) :
    ∃ first second,
      readAnnotationsAt d t (opening · true) l.visibleAnnotations = ⟨first, .ok ()⟩ ∧
      readAnnotationsAt d t (opening · false) l.invisibleAnnotations = ⟨second, .ok ()⟩ ∧
      first ++ second = as.flatMap (·.events opening) := by
  obtain ⟨tables, holds, rfl⟩ := denoted
  exact ⟨_, _, readAnnotationsAt_of_foundAt ((holds true).foundAt noted),
    readAnnotationsAt_of_foundAt ((holds false).foundAt noted), List.flatMap_append.symm⟩

theorem fieldHeader_of_denotes {m : MemberInfo} {f : Field} {l : MemberLayout}
    (denotes : m.DenotesField t f) (laidOut : LaidOut d t m l) :
    fieldHeader d t l = .ok f.header := by
  have signature := signatureAt_of_foundAt (denotes.signature.foundAt laidOut.attributes)
  have value := constantValueAt_of_foundAt (denotes.value.foundAt laidOut.attributes)
  have access : Access.ofFlags l.flags l.attributes.deprecated = f.header.access := by
    rw [denotes.access, laidOut.flags, laidOut.attributes.deprecated]
  refine bind_eq_ok.mpr ⟨_, by rw [laidOut.name]; exact denotes.name, ?_⟩
  refine bind_eq_ok.mpr ⟨_, by rw [laidOut.descriptor]; exact denotes.descriptor, ?_⟩
  refine bind_eq_ok.mpr ⟨_, signature, bind_eq_ok.mpr ⟨_, value, ?_⟩⟩
  rw [access]
  rfl

theorem methodHeader_of_denotes {m : MemberInfo} {x : Method} {l : MemberLayout}
    (denotes : m.DenotesMethod t x) (laidOut : LaidOut d t m l) :
    methodHeader d t l = .ok x.header := by
  have signature := signatureAt_of_foundAt (denotes.signature.foundAt laidOut.attributes)
  have exceptions := exceptionsAt_of_foundAt (denotes.exceptions.foundAt laidOut.attributes)
  have access : Access.ofFlags l.flags l.attributes.deprecated = x.header.access := by
    rw [denotes.access, laidOut.flags, laidOut.attributes.deprecated]
  refine bind_eq_ok.mpr ⟨_, by rw [laidOut.name]; exact denotes.name, ?_⟩
  refine bind_eq_ok.mpr ⟨_, by rw [laidOut.descriptor]; exact denotes.descriptor, ?_⟩
  refine bind_eq_ok.mpr ⟨_, signature, bind_eq_ok.mpr ⟨_, exceptions, ?_⟩⟩
  rw [access]
  rfl

/-- A field is read as the field that its member denotes. -/
theorem readField_of_denotes {m : MemberInfo} {f : Field} {l : MemberLayout}
    (denotes : m.DenotesField t f) (laidOut : LaidOut d t m l) :
    readField d t l = ⟨f.events, .ok ()⟩ := by
  have header := fieldHeader_of_denotes denotes laidOut
  obtain ⟨visible, invisible, h, h', annotations⟩ :=
    readAnnotationsAt_of_denoted denotes.annotations laidOut.attributes .annotateField
  have chain : readField d t l =
      ⟨[] ++ ([.field f.header] ++ (visible ++ (invisible ++ [.fieldEnd]))), .ok ()⟩ :=
    Delivery.ok_then (Delivery.ofExcept_eq_ok.mpr ⟨rfl, header⟩)
      (Delivery.ok_then rfl (Delivery.ok_then h (Delivery.ok_then h' rfl)))
  rw [chain, ← List.append_assoc visible, annotations]
  rfl

/-- A method is read as the method that its member denotes. -/
theorem readMethod_of_denotes {m : MemberInfo} {x : Method} {l : MemberLayout}
    (denotes : m.DenotesMethod t x) (laidOut : LaidOut d t m l) :
    readMethod d t l = ⟨x.events, .ok ()⟩ := by
  have header := methodHeader_of_denotes denotes laidOut
  obtain ⟨v, as, tables, default, denoted, parameters, eq⟩ := denotes.parts
  have noted := laidOut.attributes
  obtain ⟨visible, invisible, h, h', annotations⟩ :=
    readAnnotationsAt_of_denoted denoted noted .annotateMethod
  have chain : readMethod d t l =
      ⟨[] ++ ([.method x.header] ++ ((defaultParts v).flatMap MethodPart.events ++
        (visible ++ (invisible ++ ((parameterParts true (tables true)).flatMap MethodPart.events ++
          ((parameterParts false (tables false)).flatMap MethodPart.events ++
            [.methodEnd])))))), .ok ()⟩ :=
    Delivery.ok_then (Delivery.ofExcept_eq_ok.mpr ⟨rfl, header⟩)
      (Delivery.ok_then rfl
      (Delivery.ok_then (readDefaultAt_of_foundAt (default.foundAt noted))
      (Delivery.ok_then h
      (Delivery.ok_then h'
      (Delivery.ok_then (readParameterAnnotationsAt_of_foundAt ((parameters true).foundAt noted))
      (Delivery.ok_then (readParameterAnnotationsAt_of_foundAt ((parameters false).foundAt noted))
        rfl))))))
  rw [chain, ← List.append_assoc visible, annotations, eq, Method.events_tabled]
  simp only [List.append_assoc, List.nil_append, List.singleton_append]
  rfl

theorem exists_of_forall₂ {α β : Type} {r : α → β → Prop} {as : List α} {bs : List β}
    (h : List.Forall₂ r as bs) {a : α} (mem : a ∈ as) : ∃ b ∈ bs, r a b := by
  induction h with
  | nil => cases mem
  | cons related _ ih =>
    cases mem with
    | head => exact ⟨_, List.mem_cons_self, related⟩
    | tail _ mem =>
      obtain ⟨b, mem, related⟩ := ih mem
      exact ⟨b, List.mem_cons_of_mem _ mem, related⟩

/-- Members are read one behind the other as what they denote. -/
theorem foldMembers_of_denotes {α : Type} {denotes : MemberInfo → α → Prop}
    {read : MemberLayout → Delivery Unit} {told : α → List Event} {ms : List MemberInfo}
    {xs : List α} {ls : List MemberLayout} (laidOut : List.Forall₂ (LaidOut d t) ms ls)
    (denoted : List.Forall₂ denotes ms xs)
    (hread : ∀ {m x l}, denotes m x → LaidOut d t m l → read l = ⟨told x, .ok ()⟩) :
    Delivery.fold (fun _ l => read l) () ls = ⟨xs.flatMap told, .ok ()⟩ := by
  induction laidOut generalizing xs with
  | nil =>
    cases denoted
    rfl
  | cons first _ ih =>
    cases denoted with
    | cons meaning others =>
      exact Delivery.fold_cons_eq_ok.mpr ⟨_, (), _, hread meaning first, ih others, rfl⟩

/-! ## Whole files -/

theorem ClassDeclaration.events_eq (c : ClassDeclaration) :
    c.events = .header c.header ::
      (c.annotations.flatMap (·.events .annotate) ++ c.fields.flatMap Field.events ++
        c.methods.flatMap Method.events ++ [.classEnd]) := by
  rw [events, stream, ClassStream.events, List.flatMap_append, List.flatMap_append,
    List.flatMap_map, List.flatMap_map, List.flatMap_map]
  rfl

/-- A class file is gone through to its end. -/
theorem scan_of_denotes {f : ClassFile} {c : ClassDeclaration} (denotes : f.Denotes c)
    (held : HoldsAt d 0 f.encode) :
    ∃ l, ClassLayout.scan d = .ok l ∧ l.table = f.table ∧ l.header = c.header ∧
      List.Forall₂ (LaidOut d f.table) f.fields l.fields.toList ∧
      List.Forall₂ (LaidOut d f.table) f.methods l.methods.toList ∧
      NotedIn d f.table f.attributes l.attributes ∧ l.stop = f.encode.length := by
  have pool := scanPool_eq denotes.pool denotes.size held.right.right.right.left
  obtain ⟨names, interfaces, hnames⟩ := denotes.interfaces
  have fieldFits : ∀ m ∈ f.fields, m.Fits f.table := by
    intro m hm
    obtain ⟨x, -, denoted⟩ := exists_of_forall₂ denotes.fields hm
    exact denoted.fits
  have methodFits : ∀ m ∈ f.methods, m.Fits f.table := by
    intro m hm
    obtain ⟨x, -, denoted⟩ := exists_of_forall₂ denotes.methods hm
    exact denoted.fits
  have body := held.right.right.right.right
  obtain ⟨fields, hfields, fieldsLaidOut⟩ := scanAll_members fieldFits denotes.fieldCount
    body.right.right.right.right.left
  obtain ⟨methods, hmethods, methodsLaidOut⟩ := scanAll_members methodFits denotes.methodCount
    body.right.right.right.right.right.left
  obtain ⟨attributes, hattributes, noted⟩ := scan_attributes denotes.fits denotes.attributeCount
    body.right.right.right.right.right.right
  have signature := signatureAt_of_foundAt (denotes.signature.foundAt noted)
  have access : Access.ofFlags f.flags attributes.deprecated = c.header.access := by
    rw [denotes.access, noted.deprecated]
  refine ⟨⟨f.table, c.header, fields, methods, attributes, f.encode.length⟩, ?_, rfl, rfl,
    fieldsLaidOut, methodsLaidOut, noted, rfl⟩
  refine bind_eq_ok.mpr ⟨_, scanU4_eq_ok.mpr ⟨held.left, rfl⟩, ?_⟩
  simp only [bne_self_eq_false, Bool.false_eq_true, if_false]
  refine bind_eq_ok.mpr ⟨_, scanU2_eq_ok.mpr ⟨held.right.left, rfl⟩, ?_⟩
  refine bind_eq_ok.mpr ⟨_, scanU2_eq_ok.mpr ⟨held.right.right.left, rfl⟩, ?_⟩
  refine bind_eq_ok.mpr ⟨_, pool, ?_⟩
  refine bind_eq_ok.mpr ⟨_, scanU2_eq_ok.mpr ⟨body.left, rfl⟩, ?_⟩
  refine bind_eq_ok.mpr
    ⟨_, scanClassRef_eq_ok.mpr ⟨_, ⟨_, denotes.name, rfl⟩, body.right.left, rfl⟩, ?_⟩
  refine bind_eq_ok.mpr ⟨_, scanU2_eq_ok.mpr ⟨body.right.right.left, rfl⟩, ?_⟩
  refine bind_eq_ok.mpr ⟨_, denotes.superName, ?_⟩
  refine bind_eq_ok.mpr
    ⟨_, scanClassRefs_eq_ok.mpr ⟨_, interfaces, body.right.right.right.left, rfl⟩, ?_⟩
  refine bind_eq_ok.mpr ⟨_, hfields, bind_eq_ok.mpr ⟨_, hmethods, ?_⟩⟩
  refine bind_eq_ok.mpr ⟨_, hattributes, bind_eq_ok.mpr ⟨_, signature, ?_⟩⟩
  simp only [access, ← denotes.version, ← hnames]
  refine congrArg (fun stop => Except.ok (⟨_, _, _, _, _, stop⟩ : ClassLayout)) ?_
  simp only [ClassFile.encode, ClassFile.encodeBody, List.length_append, Nat.add_assoc, Nat.zero_add]

theorem readExactly_of_laidOut {ms : List MemberInfo} {ls : List MemberLayout}
    (laidOut : List.Forall₂ (LaidOut d t) ms ls)
    (proper : ∀ m ∈ ms, AttributesProper t m.attributes) :
    ∀ l ∈ ls, l.attributes.ReadExactly d t := by
  intro l hl
  obtain ⟨m, hm, of⟩ := exists_of_forall₂ laidOut.flip hl
  exact of.attributes.readExactly (proper m hm)

/-- A class file with proper attributes is gone through to its end, and each attribute is
read to its own. -/
theorem exists_layout_of_denotes {f : ClassFile} {c : ClassDeclaration} (denotes : f.Denotes c)
    (proper : f.Proper) (held : HoldsAt d 0 f.encode) :
    ∃ l, ClassLayout.scan d = .ok l ∧ l.stop = f.encode.length ∧ l.ReadExactly d := by
  obtain ⟨l, scanned, table, -, fields, methods, noted, stop⟩ := scan_of_denotes denotes held
  refine ⟨l, scanned, stop, ?_, ?_, ?_⟩
  · rw [table]
    intro m hm
    exact readExactly_of_laidOut fields proper.fields m (Array.mem_toList_iff.mpr hm)
  · rw [table]
    intro m hm
    exact readExactly_of_laidOut methods proper.methods m (Array.mem_toList_iff.mpr hm)
  · rw [table]
    exact noted.readExactly proper.attributes

/-- A class file is read as the class that it denotes. -/
theorem readClass_of_denotes {f : ClassFile} {c : ClassDeclaration} (denotes : f.Denotes c)
    (held : HoldsAt d 0 f.encode) : readClass d = ⟨c.events, .ok ()⟩ := by
  obtain ⟨l, scanned, table, header, fields, methods, noted, -⟩ := scan_of_denotes denotes held
  rw [← table] at fields methods noted
  obtain ⟨visible, invisible, h, h', annotations⟩ := readAnnotationsAt_of_denoted
    (table ▸ denotes.annotations) noted .annotate
  have readFields := foldMembers_of_denotes fields denotes.fields
    (fun denoted laidOut => readField_of_denotes (table ▸ denoted) laidOut)
  have readMethods := foldMembers_of_denotes methods denotes.methods
    (fun denoted laidOut => readMethod_of_denotes (table ▸ denoted) laidOut)
  have chain : readClass d =
      ⟨[] ++ ([.header l.header] ++ (visible ++ (invisible ++ (c.fields.flatMap Field.events ++
        (c.methods.flatMap Method.events ++ [.classEnd]))))), .ok ()⟩ :=
    Delivery.ok_then (Delivery.ofExcept_eq_ok.mpr ⟨rfl, scanned⟩)
      (Delivery.ok_then rfl
      (Delivery.ok_then h (Delivery.ok_then h'
      (Delivery.ok_then readFields (Delivery.ok_then readMethods rfl)))))
  rw [chain, ← List.append_assoc visible, annotations, header, c.events_eq]
  simp only [List.append_assoc, List.nil_append, List.singleton_append]

end Denoted

end ClassAbi
