import ClassAbi.Proofs.CarriedContents

/-!
# Which bytes an attribute is decoded from

An attribute that is read is decoded from the place where its contents begin, and its
own counts say how far.  `readClass_decodes` describes these bytes for every file that
is accepted.  They stand inside the file.  The length of the attribute leaves room for
the first number, so an attribute of a single number does not leave its contents.

The others can.  `overrunFile` has an annotation whose counts promise more than the
contents have, and the reader takes the missing bytes from the attribute that follows.
Where no attribute does that, the events are determined by the contents alone.
-/

namespace ClassAbi

/-! ## Decoding -/

/-- The attribute with these contents, which stand at the offset, is decoded from bytes
that begin there. -/
structure DecodedAt (d : ByteArray) (t : ConstantTable) (k : AttributeKind) (info : Text)
    (offset : Nat) : Prop where
  located : LocatedAt d info offset
  declared : DeclaredEnd d offset (offset + info.length)
  shortest : AttributeLocations.shortestLength k.name ≤ info.length
  decoded : ∃ bs, k.Encodes t bs ∧ HoldsAt d offset bs ∧
    k.ReadsTo d t offset (offset + bs.length) ∧
    (k = .signature ∨ k = .constantValue → bs <+: info)

/-- The attributes that are read for their owner are decoded, the last of each kind. -/
def AttributesDecoded (d : ByteArray) (t : ConstantTable) (owner : AttributeOwner)
    (attributes : List AttributeInfo) (a : AttributeLocations) : Prop :=
  ∀ k : AttributeKind, k.readFor owner →
    Option.Rel (DecodedAt d t k) (lastInfo t k.name attributes) (a.place k)

/-- The attributes of a class file that are read are decoded. -/
structure ClassFile.Decoded (d : ByteArray) (f : ClassFile) (l : ClassLayout) : Prop where
  attributes : AttributesDecoded d f.table .classFile f.attributes l.attributes
  fields : List.Forall₂ (fun m x => AttributesDecoded d f.table .field m.attributes x.attributes)
    f.fields l.fields.toList
  methods : List.Forall₂ (fun m x => AttributesDecoded d f.table .method m.attributes x.attributes)
    f.methods l.methods.toList

section Decoding

variable {d : ByteArray} {t : ConstantTable}

/-- Contents of the kind stand at the place, if one is noted. -/
def EncodedAt (d : ByteArray) (t : ConstantTable) (k : AttributeKind) (place : Option Nat) : Prop :=
  ∀ offset, place = some offset → ∃ bs, k.Encodes t bs ∧ HoldsAt d offset bs

theorem encodedAt_of_signatureAt {place : Option Nat} {s : Option Text}
    (h : signatureAt d t place = .ok s) : EncodedAt d t .signature place := by
  rintro offset rfl
  obtain ⟨⟨value, stop⟩, ref, -⟩ := bind_eq_ok.mp h
  obtain ⟨-, i, held, found⟩ := scanUtf8Ref_eq_ok.mp ref
  exact ⟨_, ⟨value, i, found, rfl⟩, held⟩

theorem encodedAt_of_constantValueAt {descriptor : Text} {place : Option Nat} {c : Option Constant}
    (h : constantValueAt d t descriptor place = .ok c) : EncodedAt d t .constantValue place := by
  rintro offset rfl
  obtain ⟨⟨index, stop⟩, number, -⟩ := bind_eq_ok.mp h
  exact ⟨_, ⟨index, rfl⟩, (scanU2_eq_ok.mp number).1⟩

theorem encodedAt_of_exceptionsAt {place : Option Nat} {names : Option (List Text)}
    (h : exceptionsAt d t place = .ok names) : EncodedAt d t .exceptions place := by
  rintro offset rfl
  obtain ⟨⟨value, stop⟩, refs, -⟩ := bind_eq_ok.mp h
  obtain ⟨bs, encoded, held, -⟩ := scanClassRefs_eq_ok.mp refs
  exact ⟨bs, ⟨value, encoded⟩, held⟩

theorem encodedAt_of_readAnnotationsAt {opening : Text → Bool → Event} {visible : Bool}
    {place : Option Nat} {events : List Event} {u : Unit}
    (h : readAnnotationsAt d t (opening · visible) place = ⟨events, .ok u⟩) :
    EncodedAt d t (.annotations visible) place := by
  rintro offset rfl
  obtain ⟨_, _, _, read, -, -⟩ := Delivery.bind_eq_ok.mp h
  obtain ⟨as, bs, encoded, held, -, -⟩ := readAnnotations_eq_ok.mp read
  exact ⟨bs, ⟨as, encoded⟩, held⟩

theorem encodedAt_of_readParameterAnnotationsAt {visible : Bool} {place : Option Nat}
    {events : List Event} {u : Unit}
    (h : readParameterAnnotationsAt d t visible place = ⟨events, .ok u⟩) :
    EncodedAt d t (.parameterAnnotations visible) place := by
  rintro offset rfl
  obtain ⟨_, _, _, read, -, -⟩ := Delivery.bind_eq_ok.mp h
  obtain ⟨tables, bs, encoded, held, -, -⟩ := readParameterAnnotations_eq_ok.mp read
  exact ⟨bs, ⟨tables, encoded⟩, held⟩

theorem encodedAt_of_readDefaultAt {place : Option Nat} {events : List Event} {u : Unit}
    (h : readDefaultAt d t place = ⟨events, .ok u⟩) : EncodedAt d t .annotationDefault place := by
  rintro offset rfl
  obtain ⟨_, _, _, -, read, -⟩ := Delivery.bind_eq_ok.mp h
  obtain ⟨_, _, _, read, -, -⟩ := Delivery.bind_eq_ok.mp read
  obtain ⟨v, bs, encoded, held, -, -⟩ := readOuterValue_eq_ok.mp read
  exact ⟨bs, ⟨v, encoded⟩, held⟩

/-- The bytes of a single number are no more than the shortest contents. -/
theorem AttributeKind.Encodes.length_of_single {k : AttributeKind} {bs : Text}
    (h : k.Encodes t bs) (single : k = .signature ∨ k = .constantValue) :
    bs.length = AttributeLocations.shortestLength k.name := by
  obtain rfl | rfl := single
  · obtain ⟨s, i, -, rfl⟩ := h
    rfl
  · obtain ⟨i, rfl⟩ := h
    rfl

/-- Of an attribute that is noted, the shortest length was checked. -/
theorem shortest_of_lastInfo {attributes : List AttributeInfo} {info name : Text}
    (fits : ∀ x ∈ attributes, x.Fits t) (h : lastInfo t name attributes = some info) :
    AttributeLocations.shortestLength name ≤ info.length := by
  have mem : info ∈ infosNamed t name attributes := List.mem_of_getLast? h
  obtain ⟨x, hx, named⟩ := List.mem_filterMap.mp mem
  split at named
  · next found =>
    cases named
    obtain ⟨name', found', le⟩ := (fits x hx).named
    cases found.symm.trans found'
    exact le
  · cases named

/-- Where contents of the kinds that are read stand, the attributes are decoded. -/
theorem NotedIn.attributesDecoded {owner : AttributeOwner} {attributes : List AttributeInfo}
    {a : AttributeLocations} (noted : NotedIn d t attributes a)
    (fits : ∀ x ∈ attributes, x.Fits t)
    (encoded : ∀ k : AttributeKind, k.readFor owner → EncodedAt d t k (a.place k)) :
    AttributesDecoded d t owner attributes a := by
  intro k hk
  have place := noted.place k
  have encoded := encoded k hk
  have shortest : ∀ info, lastInfo t k.name attributes = some info →
      AttributeLocations.shortestLength k.name ≤ info.length := fun _ => shortest_of_lastInfo fits
  generalize lastInfo t k.name attributes = info at place shortest ⊢
  generalize a.place k = offset at place encoded ⊢
  cases place with
  | none => exact .none
  | some located =>
    obtain ⟨bs, encodes, held⟩ := encoded _ rfl
    have shortest := shortest _ rfl
    refine .some ⟨located, located.declaredEnd, shortest, bs, encodes, held, encodes.readsTo held, ?_⟩
    intro single
    rw [← encodes.length_of_single single] at shortest
    exact List.prefix_of_prefix_length_le held.2 located.1.2 shortest

theorem encodedAt_of_readField {x : MemberLayout} {events : List Event} {u : Unit}
    (h : readField d t x = ⟨events, .ok u⟩) (k : AttributeKind) (hk : k.readFor .field) :
    EncodedAt d t k (x.attributes.place k) := by
  obtain ⟨_, header, _, made, h, -⟩ := Delivery.bind_eq_ok.mp h
  obtain ⟨_, _, _, -, h, -⟩ := Delivery.bind_eq_ok.mp h
  obtain ⟨_, _, _, visible, h, -⟩ := Delivery.bind_eq_ok.mp h
  obtain ⟨_, _, _, invisible, -, -⟩ := Delivery.bind_eq_ok.mp h
  obtain ⟨-, made⟩ := Delivery.ofExcept_eq_ok.mp made
  simp only [fieldHeader, bind_eq_ok] at made
  obtain ⟨_, -, _, -, _, signature, _, value, -⟩ := made
  cases k with
  | signature => exact encodedAt_of_signatureAt signature
  | constantValue => exact encodedAt_of_constantValueAt value
  | annotations v =>
    cases v with
    | true => exact encodedAt_of_readAnnotationsAt visible
    | false => exact encodedAt_of_readAnnotationsAt invisible
  | _ => cases hk

theorem encodedAt_of_readMethod {x : MemberLayout} {events : List Event} {u : Unit}
    (h : readMethod d t x = ⟨events, .ok u⟩) (k : AttributeKind) (hk : k.readFor .method) :
    EncodedAt d t k (x.attributes.place k) := by
  obtain ⟨_, header, _, made, h, -⟩ := Delivery.bind_eq_ok.mp h
  obtain ⟨_, _, _, -, h, -⟩ := Delivery.bind_eq_ok.mp h
  obtain ⟨_, _, _, default, h, -⟩ := Delivery.bind_eq_ok.mp h
  obtain ⟨_, _, _, visible, h, -⟩ := Delivery.bind_eq_ok.mp h
  obtain ⟨_, _, _, invisible, h, -⟩ := Delivery.bind_eq_ok.mp h
  obtain ⟨_, _, _, visibleParameters, h, -⟩ := Delivery.bind_eq_ok.mp h
  obtain ⟨_, _, _, invisibleParameters, -, -⟩ := Delivery.bind_eq_ok.mp h
  obtain ⟨-, made⟩ := Delivery.ofExcept_eq_ok.mp made
  simp only [methodHeader, bind_eq_ok] at made
  obtain ⟨_, -, _, -, _, signature, _, exceptions, -⟩ := made
  cases k with
  | signature => exact encodedAt_of_signatureAt signature
  | constantValue => cases hk
  | exceptions => exact encodedAt_of_exceptionsAt exceptions
  | annotationDefault => exact encodedAt_of_readDefaultAt default
  | annotations v =>
    cases v with
    | true => exact encodedAt_of_readAnnotationsAt visible
    | false => exact encodedAt_of_readAnnotationsAt invisible
  | parameterAnnotations v =>
    cases v with
    | true => exact encodedAt_of_readParameterAnnotationsAt visibleParameters
    | false => exact encodedAt_of_readParameterAnnotationsAt invisibleParameters

/-- Members that are all read are decoded one by one. -/
theorem membersDecoded {owner : AttributeOwner} {read : MemberLayout → Delivery Unit}
    (encoded : ∀ {x events u}, read x = ⟨events, .ok u⟩ →
      ∀ k : AttributeKind, k.readFor owner → EncodedAt d t k (x.attributes.place k))
    {ms : List MemberInfo} {xs : List MemberLayout} (laidOut : List.Forall₂ (LaidOut d t) ms xs)
    (fits : ∀ m ∈ ms, m.Fits t) {events : List Event} {u : Unit}
    (h : Delivery.fold (fun _ x => read x) () xs = ⟨events, .ok u⟩) :
    List.Forall₂ (fun m x => AttributesDecoded d t owner m.attributes x.attributes) ms xs := by
  induction laidOut generalizing events with
  | nil => exact .nil
  | cons first _ ih =>
    obtain ⟨_, _, _, item, others, -⟩ := Delivery.fold_cons_eq_ok.mp h
    obtain ⟨fit, fits⟩ := List.forall_mem_cons.mp fits
    exact .cons (first.attributes.attributesDecoded fit.attributes (encoded item)) (ih fits others)

theorem ClassFile.LaidOutAs.decoded {f : ClassFile} {l : ClassLayout} (laidOut : f.LaidOutAs d l)
    {events : List Event} (h : l.read d = ⟨events, .ok ()⟩) : f.Decoded d l := by
  obtain ⟨_, _, _, -, h, -⟩ := Delivery.bind_eq_ok.mp h
  obtain ⟨_, _, _, visible, h, -⟩ := Delivery.bind_eq_ok.mp h
  obtain ⟨_, _, _, invisible, h, -⟩ := Delivery.bind_eq_ok.mp h
  obtain ⟨_, _, _, fields, h, -⟩ := Delivery.bind_eq_ok.mp h
  obtain ⟨_, _, _, methods, -, -⟩ := Delivery.bind_eq_ok.mp h
  rw [laidOut.table] at visible invisible fields methods
  refine ⟨laidOut.attributes.attributesDecoded laidOut.attributeFits ?_,
    membersDecoded encodedAt_of_readField laidOut.fields laidOut.fieldFits fields,
    membersDecoded encodedAt_of_readMethod laidOut.methods laidOut.methodFits methods⟩
  intro k hk
  cases k with
  | signature => exact encodedAt_of_signatureAt laidOut.signature
  | annotations v =>
    cases v with
    | true => exact encodedAt_of_readAnnotationsAt visible
    | false => exact encodedAt_of_readAnnotationsAt invisible
  | _ => cases hk

end Decoding

/-! ## Attributes that stay inside their contents -/

/-- No attribute that is read for its owner is read beyond its declared end. -/
def AttributeLocations.Contained (d : ByteArray) (t : ConstantTable) (owner : AttributeOwner)
    (a : AttributeLocations) : Prop :=
  ∀ k : AttributeKind, k.readFor owner → ∀ offset stop declared, a.place k = some offset →
    k.ReadsTo d t offset stop → DeclaredEnd d offset declared → stop ≤ declared

/-- No attribute of the class file is read beyond its declared end. -/
structure ClassLayout.Contained (d : ByteArray) (l : ClassLayout) : Prop where
  attributes : l.attributes.Contained d l.table .classFile
  fields : ∀ m ∈ l.fields, m.attributes.Contained d l.table .field
  methods : ∀ m ∈ l.methods, m.attributes.Contained d l.table .method

/-- The attributes of one owner have the same contents as others, as far as they are read. -/
structure SameContents (t : ConstantTable) (owner : AttributeOwner)
    (attributes attributes' : List AttributeInfo) : Prop where
  info : ∀ k : AttributeKind, k.readFor owner →
    lastInfo t k.name attributes' = lastInfo t k.name attributes
  deprecated : marksDeprecated t attributes' = marksDeprecated t attributes

/-- Two members differ in nothing but attributes that are not read. -/
structure MemberInfo.SameContents (t : ConstantTable) (owner : AttributeOwner)
    (m m' : MemberInfo) : Prop where
  flags : m'.flags = m.flags
  name : m'.name = m.name
  descriptor : m'.descriptor = m.descriptor
  attributes : ClassAbi.SameContents t owner m.attributes m'.attributes

/-- Two class files differ in nothing but the order of their attributes and those that are
not read. -/
structure ClassFile.SameContents (f f' : ClassFile) : Prop where
  minor : f'.minor = f.minor
  major : f'.major = f.major
  table : f'.table = f.table
  flags : f'.flags = f.flags
  thisClass : f'.thisClass = f.thisClass
  superClass : f'.superClass = f.superClass
  interfaces : f'.interfaces = f.interfaces
  attributes : ClassAbi.SameContents f.table .classFile f.attributes f'.attributes
  fields : List.Forall₂ (MemberInfo.SameContents f.table .field) f.fields f'.fields
  methods : List.Forall₂ (MemberInfo.SameContents f.table .method) f.methods f'.methods

section Contained

variable {d d' : ByteArray} {t : ConstantTable}

/-- Attributes that stay inside their contents are carried to where the same contents
stand. -/
theorem AttributeLocations.Contained.carriedTo {owner : AttributeOwner}
    {attributes attributes' : List AttributeInfo} {a a' : AttributeLocations}
    (contained : a.Contained d t owner) (noted : NotedIn d t attributes a)
    (noted' : NotedIn d' t attributes' a') (same : SameContents t owner attributes attributes') :
    a.CarriedTo d d' t owner a' := by
  refine ⟨?_, by rw [noted.deprecated, noted'.deprecated, same.deprecated]⟩
  intro k hk
  have contained := contained k hk
  have place := noted.place k
  have place' := noted'.place k
  rw [same.info k hk] at place'
  generalize lastInfo t k.name attributes = info at place place'
  generalize a.place k = offset at contained place
  generalize a'.place k = offset' at place'
  cases place with
  | none =>
    cases place'
    exact .none
  | some located =>
    cases place' with
    | some located' =>
    refine .some fun bs encodes held => ?_
    have le := contained _ _ _ rfl (encodes.readsTo held) located.declaredEnd
    obtain ⟨rest, rfl⟩ := List.prefix_of_prefix_length_le held.2 located.1.2 (by omega)
    exact located'.1.left

theorem members_carriedTo {owner : AttributeOwner} {ms ms' : List MemberInfo}
    {xs xs' : List MemberLayout} (contained : ∀ x ∈ xs, x.attributes.Contained d t owner)
    (laidOut : List.Forall₂ (LaidOut d t) ms xs) (laidOut' : List.Forall₂ (LaidOut d' t) ms' xs')
    (same : List.Forall₂ (MemberInfo.SameContents t owner) ms ms') :
    List.Forall₂ (MemberLayout.CarriedTo d d' t owner) xs xs' := by
  induction laidOut generalizing ms' xs' with
  | nil =>
    cases same
    cases laidOut'
    exact .nil
  | cons first _ ih =>
    cases same with
    | cons same others =>
    cases laidOut' with
    | cons first' others' =>
    obtain ⟨here, contained⟩ := List.forall_mem_cons.mp contained
    refine .cons ⟨?_, ?_, ?_, ?_⟩ (ih contained others' others)
    · rw [first'.flags, same.flags, first.flags]
    · rw [first'.name, same.name, first.name]
    · rw [first'.descriptor, same.descriptor, first.descriptor]
    · exact here.carriedTo first.attributes first'.attributes same.attributes

theorem classRefs_unique {names names' : List Text} {bs : Text}
    (h : TableEncodedBy (ClassRef t) names bs) (h' : TableEncodedBy (ClassRef t) names' bs) :
    names = names' := by
  have held : HoldsAt ⟨bs.toArray⟩ 0 bs := HoldsAt.self ⟨bs.toArray⟩
  have scanned := scanClassRefs_eq_ok.mpr ⟨bs, h, held, rfl⟩
  cases scanned.symm.trans (scanClassRefs_eq_ok.mpr ⟨bs, h', held, rfl⟩)
  rfl

theorem ClassHeader.eq_of_parts {h h' : ClassHeader} (version : h.version = h'.version)
    (access : h.access = h'.access) (name : h.name = h'.name)
    (signature : h.signature = h'.signature) (superName : h.superName = h'.superName)
    (interfaces : h.interfaces = h'.interfaces) : h = h' := by
  cases h
  cases h'
  cases version
  cases access
  cases name
  cases signature
  cases superName
  cases interfaces
  rfl

/-- A class file whose attributes stay inside their contents is carried to where a file with
the same contents stands. -/
theorem ClassLayout.Contained.carriedTo {f f' : ClassFile} {l l' : ClassLayout}
    (contained : l.Contained d) (laidOut : f.LaidOutAs d l) (laidOut' : f'.LaidOutAs d' l')
    (same : f.SameContents f') : l.CarriedTo d d' l' := by
  have table : l'.table = l.table := by rw [laidOut'.table, laidOut.table, same.table]
  obtain ⟨inAttributes, inFields, inMethods⟩ := contained
  rw [laidOut.table] at inAttributes inFields inMethods
  have noted' := laidOut'.attributes
  have fields' := laidOut'.fields
  have methods' := laidOut'.methods
  have name' := laidOut'.name
  have superName' := laidOut'.superName
  have signature' := laidOut'.signature
  obtain ⟨names, refs, interfaces⟩ := laidOut.interfaces
  obtain ⟨names', refs', interfaces'⟩ := laidOut'.interfaces
  rw [same.table] at noted' fields' methods' name' superName' signature' refs'
  rw [same.thisClass, laidOut.name] at name'
  rw [same.superClass, laidOut.superName] at superName'
  rw [same.interfaces] at refs'
  have attributes := inAttributes.carriedTo laidOut.attributes noted' same.attributes
  have signed := signatureAt_of_carried (attributes.place .signature rfl) laidOut.signature
  have header : l'.header = l.header := by
    have version : l'.header.version = l.header.version := by
      rw [laidOut'.version, laidOut.version, same.minor, same.major]
    have access : l'.header.access = l.header.access := by
      rw [laidOut'.access, laidOut.access, same.flags, attributes.deprecated]
    have names_eq : l'.header.interfaces = l.header.interfaces := by
      rw [interfaces', interfaces, classRefs_unique refs refs']
    have signature_eq := Except.ok.inj (signature'.symm.trans signed)
    exact ClassHeader.eq_of_parts version access (Except.ok.inj name').symm signature_eq
      (Except.ok.inj superName').symm names_eq
  refine ⟨table, header, ?_, ?_, ?_⟩
  · rw [laidOut.table]
    exact attributes
  · rw [laidOut.table]
    exact members_carriedTo (fun x hx => inFields x (Array.mem_toList_iff.mp hx)) laidOut.fields
      fields' same.fields
  · rw [laidOut.table]
    exact members_carriedTo (fun x hx => inMethods x (Array.mem_toList_iff.mp hx)) laidOut.methods
      methods' same.methods

end Contained

/-- Of a file that is accepted, every attribute that is read is decoded from bytes of the file
that begin where its contents begin, and an attribute of a single number from its contents
alone.  If no attribute is read beyond its declared end, then every file with the same contents
delivers the same. -/
theorem readClass_decodes {d : ByteArray} {events : List Event}
    (h : readClass d = ⟨events, .ok ()⟩) :
    ∃ (l : ClassLayout) (f : ClassFile), ClassLayout.scan d = .ok l ∧ f.LaidOutAs d l ∧
      f.Decoded d l ∧
      (l.Contained d → ∀ (d' : ByteArray) (l' : ClassLayout) (f' : ClassFile),
        ClassLayout.scan d' = .ok l' → f'.LaidOutAs d' l' → f.SameContents f' →
          readClass d' = ⟨events, .ok ()⟩) := by
  obtain ⟨l, scanned, read⟩ := readClass_eq_ok.mp h
  obtain ⟨f, laidOut⟩ := exists_classFile_of_scan scanned
  refine ⟨l, f, scanned, laidOut, laidOut.decoded read, ?_⟩
  intro contained d' l' f' scanned' laidOut' same
  have carried := contained.carriedTo laidOut laidOut' same
  exact readClass_eq_ok.mpr ⟨l', scanned', carried.read_extends _ _ read⟩

/-! ## An annotation that leaves its contents -/

/-- A class with an attribute for its annotations, which has the contents, and an empty
attribute behind it, which has the name with the index. -/
def annotatedFile (contents : Text) (following : UInt16) : ClassFile where
  minor := 0
  major := 52
  pool := [.utf8 [65], .classRef 1, .utf8 (Text.ascii "RuntimeVisibleAnnotations"), .utf8 [88]]
  flags := 0x21
  thisClass := 2
  superClass := 0
  interfaces := []
  fields := []
  methods := []
  attributes := [⟨3, contents⟩, ⟨following, []⟩]

/-- The bytes of the class. -/
def annotatedBytes (contents : Text) (following : UInt16) : ByteArray :=
  ⟨(annotatedFile contents following).encode.toArray⟩

/-- What is delivered of the class when it has one annotation without values. -/
def annotatedEvents (descriptor : Text) : List Event :=
  [.header ⟨52, .ofFlags 0x21 false, [65], none, none, some []⟩, .annotate descriptor true,
    .value .close, .classEnd]

theorem readClass_decodes_annotated :
    readClass (annotatedBytes [0, 1, 0, 4, 0, 0] 4) = ⟨annotatedEvents [88], .ok ()⟩ ∧
    ∃ (l : ClassLayout) (f : ClassFile),
      ClassLayout.scan (annotatedBytes [0, 1, 0, 4, 0, 0] 4) = .ok l ∧
      f.LaidOutAs (annotatedBytes [0, 1, 0, 4, 0, 0] 4) l ∧
      f.Decoded (annotatedBytes [0, 1, 0, 4, 0, 0] 4) l ∧
      (l.Contained (annotatedBytes [0, 1, 0, 4, 0, 0] 4) →
        ∀ (d' : ByteArray) (l' : ClassLayout) (f' : ClassFile),
          ClassLayout.scan d' = .ok l' → f'.LaidOutAs d' l' → f.SameContents f' →
            readClass d' = ⟨annotatedEvents [88], .ok ()⟩) := by
  have accepted : readClass (annotatedBytes [0, 1, 0, 4, 0, 0] 4) =
    ⟨annotatedEvents [88], .ok ()⟩ := rfl
  exact ⟨accepted, readClass_decodes accepted⟩

/-- The annotation is counted by its contents and stands in the attribute behind them: the
index of its descriptor is the name of that attribute, and the number of its values the upper
half of that attribute's length.  With another attribute there, another annotation is
delivered. -/
theorem readClass_overrun :
    readClass (annotatedBytes [0, 1] 4) = ⟨annotatedEvents [88], .ok ()⟩ ∧
    readClass (annotatedBytes [0, 1] 1) = ⟨annotatedEvents [65], .ok ()⟩ ∧
    ∃ l, ClassLayout.scan (annotatedBytes [0, 1] 4) = .ok l ∧
      ¬ l.Contained (annotatedBytes [0, 1] 4) := by
  refine ⟨rfl, rfl, ?_⟩
  have layout : ∃ l, ClassLayout.scan (annotatedBytes [0, 1] 4) = .ok l ∧
      l.table = (annotatedFile [0, 1] 4).table ∧ l.attributes.visibleAnnotations = some 69 :=
    ⟨_, rfl, rfl, rfl⟩
  obtain ⟨l, scanned, table, place⟩ := layout
  refine ⟨l, scanned, fun contained => ?_⟩
  have reads : AttributeKind.ReadsTo (annotatedBytes [0, 1] 4) l.table 69 75 (.annotations true) := by
    rw [table]
    exact fun opening => ⟨[opening [88] true, .value .close], rfl⟩
  have declared : DeclaredEnd (annotatedBytes [0, 1] 4) 69 71 := ⟨2, rfl, rfl⟩
  have le := contained.attributes (.annotations true) rfl 69 75 71 place reads declared
  omega

end ClassAbi
