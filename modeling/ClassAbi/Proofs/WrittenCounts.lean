import ClassAbi.Proofs.RoundTrip
import ClassAbi.Proofs.SuppliedClasses

/-!
# The counts of a written file

A class file says of each of its lists how many items it has, and of each
attribute how many bytes.  `encodeTable` and `AttributeInfo.encode` write these
numbers, and the bytes of a number hold it only if it is small enough.  So the
counts of a file are right where its lists are (`ClassFile.Counts`).

Whatever class was told, the lists of the file that is written of it are small
enough, with two exceptions (`encodeClass_counts`).  Nothing looks at how many
interfaces a class and how many exceptions a method is told to have, and the
constant pool does not run out either, since it has each name once.  A class with
65536 interfaces is written as one with none (`encodeClass_miscounts`).
-/

namespace ClassAbi

/-! ## The contents of attributes -/

section Contents

variable (t : ConstantTable)

/-- The bytes spell the annotations of one owner and one visibility. -/
def AnnotationsSpelledBy : List Annotation → Text → Prop :=
  TableEncodedBy fun a => Annotation.SpelledBy t a

/-- The bytes spell the annotations of the parameters of a method, of one visibility. -/
def ParametersSpelledBy (tables : List (List Annotation)) (bs : Text) : Prop :=
  tables.length ≤ 0xFF ∧ ∃ items, EachEncodedBy (AnnotationsSpelledBy t) tables items ∧
    bs = tables.length.toUInt8 :: items

/-- What an attribute of a field has in it. -/
def Field.Contents (f : Field) : AttributeKind → Text → Prop
  | .signature, bs => ∃ s, f.header.signature = some s ∧ TextRef t s bs
  | .constantValue, bs => f.header.value.isSome ∧ ∃ i, bs = bytesU2 i
  | .annotations visible, bs => AnnotationsSpelledBy t (readBackOf visible f.annotations) bs
  | _, _ => False

/-- What an attribute of a method has in it.  The number in front of the exceptions is theirs if
there are at most 65535. -/
def Method.Contents (m : Method) : AttributeKind → Text → Prop
  | .signature, bs => ∃ s, m.header.signature = some s ∧ TextRef t s bs
  | .exceptions, bs => ∃ names indexes, m.header.exceptions = some names ∧
      List.Forall₂ (fun i name => t.classNameAt i = .ok name) indexes names ∧
      bs = encodeTable bytesU2 indexes
  | .annotationDefault, bs =>
      EachEncodedBy (fun v => Value.EncodedBy t v) (m.defaultValues.map Value.readBack) bs
  | .annotations visible, bs => AnnotationsSpelledBy t (readBackOf visible m.annotations) bs
  | .parameterAnnotations visible, bs =>
      ∃ tables, m.parameterTables visible = some tables ∧ ParametersSpelledBy t tables bs
  | .constantValue, _ => False

/-- What an attribute of a class has in it. -/
def ClassStream.Contents (s : ClassStream) : AttributeKind → Text → Prop
  | .signature, bs => ∃ signature, s.header.signature = some signature ∧ TextRef t signature bs
  | .annotations visible, bs => AnnotationsSpelledBy t (readBackOf visible s.annotations) bs
  | _, _ => False

/-- The attributes are few enough to be counted, and each has in it what its kind asks for.  A mark
of deprecation has nothing in it. -/
structure AttributesCount (contents : AttributeKind → Text → Prop) (xs : List AttributeInfo) :
    Prop where
  count : xs.length ≤ 0xFFFF
  each : ∀ x ∈ xs, (t.utf8At x.name = .ok (Text.ascii "Deprecated") ∧ x.info = []) ∨
    ∃ k : AttributeKind, t.utf8At x.name = .ok k.name ∧ contents k x.info

end Contents

/-- The class file counts what was told of the class.  The number in front of the interfaces is
theirs if there are at most 65535. -/
structure ClassFile.Counts (f : ClassFile) (s : ClassStream) : Prop where
  pool : ∀ i ∈ f.pool, i.Fits
  indexCount : f.table.size ≤ 0xFFFF
  interfaces : List.Forall₂ (fun i name => f.table.classNameAt i = .ok name) f.interfaces
    (s.header.interfaces.getD [])
  fieldCount : f.fields.length ≤ 0xFFFF
  fields : List.Forall₂
    (fun m x => AttributesCount f.table (Field.Contents f.table x) m.attributes) f.fields s.fields
  methodCount : f.methods.length ≤ 0xFFFF
  methods : List.Forall₂
    (fun m x => AttributesCount f.table (Method.Contents f.table x) m.attributes) f.methods
    s.methods
  attributes : AttributesCount f.table (s.Contents f.table) f.attributes

/-! ## Pieces -/

section Pieces

variable {t : ConstantTable} {contents : AttributeKind → Text → Prop}

/-- The attribute that the piece makes, if it makes one, has in it what its kind asks for. -/
def PieceCounts (contents : AttributeKind → Text → Prop) (piece : Text × Option Buffer) : Prop :=
  ∀ info, piece.2 = some info → (piece.1 = Text.ascii "Deprecated" ∧ info.toList = []) ∨
    ∃ k : AttributeKind, piece.1 = k.name ∧ contents k info.toList

theorem attributesCount_of_pieces {pieces : List (Text × Option Buffer)} {xs : List AttributeInfo}
    (isInfo : List.Forall₂ (IsInfo t) (ofPieces pieces) xs) (few : pieces.length ≤ 0xFFFF)
    (counts : ∀ piece ∈ pieces, PieceCounts contents piece) : AttributesCount t contents xs where
  count := by
    rw [← isInfo.length_eq]
    exact Nat.le_trans (length_ofPieces pieces) few
  each := by
    intro x mem
    obtain ⟨a, made, name, info⟩ := exists_left_of_forall₂ isInfo mem
    rw [info, name]
    rcases counts _ (mem_ofPieces made) a.info rfl with ⟨same, nothing⟩ | ⟨k, same, has⟩
    · exact .inl ⟨congrArg Except.ok same, nothing⟩
    · exact .inr ⟨k, congrArg Except.ok same, has⟩

theorem pieceCounts_deprecated (a : Access) : PieceCounts contents (deprecatedPiece a) := by
  intro info made
  unfold deprecatedPiece at made
  split at made
  · cases made
    exact .inl ⟨rfl, rfl⟩
  · cases made

theorem pieceCounts_of_rel {k : AttributeKind} {info : Option Buffer} {α : Type}
    {encodes : α → Text → Prop} {a : Option α} (rel : Option.Rel encodes a (info.map Buffer.toList))
    (imp : ∀ x bs, a = some x → encodes x bs → contents k bs) :
    PieceCounts contents (k.name, info) := by
  rintro b rfl
  cases rel with
  | some encoded => exact .inr ⟨k, rfl, imp _ _ rfl encoded⟩

theorem AnnotationTable.Collects.spelledBy {table : AnnotationTable} {as : List Annotation}
    (h : table.Collects t as) :
    AnnotationsSpelledBy t (as.map Annotation.readBack) (table.put ∅).toList :=
  AnnotationTable.encodedBy (by rw [h.count, List.length_map]) h.entries

theorem AnnotationTables.Collects.pieceCounts {tables : AnnotationTables} {as : List Annotation}
    (h : tables.Collects t as) {visible : Bool}
    (imp : ∀ bs, AnnotationsSpelledBy t (readBackOf visible as) bs →
      contents (.annotations visible) bs) : PieceCounts contents (tablePiece visible tables) := by
  intro info made
  unfold tablePiece at made
  split at made
  · cases made
  · cases made
    exact .inr ⟨_, rfl, imp _ (h visible).spelledBy⟩

/-! ## Drafts -/

theorem FieldDraft.Collects.attributesCount {d : FieldDraft} {f : Field} (h : d.Collects t f)
    {xs : List AttributeInfo} (isInfo : List.Forall₂ (IsInfo t) d.attributes xs) :
    AttributesCount t (f.Contents t) xs := by
  have constant : PieceCounts (f.Contents t) (constantPiece d.value) := by
    intro info made
    obtain ⟨i, there, rfl⟩ := Option.map_eq_some_iff.mp made
    have value := h.value
    rw [there] at value
    refine .inr ⟨.constantValue, rfl, ?_, i, rfl⟩
    generalize f.header.value = c at value
    cases value
    rfl
  rw [attributes_eq] at isInfo
  refine attributesCount_of_pieces isInfo (by decide : 5 ≤ 0xFFFF) ?_
  simp only [pieces, List.forall_mem_cons]
  exact ⟨constant,
    pieceCounts_of_rel (k := .signature) (rel_signature h.signature) fun s _ told ref =>
      ⟨s, told, ref⟩,
    pieceCounts_deprecated _, h.annotations.pieceCounts fun _ spelled => spelled,
    h.annotations.pieceCounts fun _ spelled => spelled, List.forall_mem_nil _⟩

theorem MethodDraft.Collects.attributesCount {d : MethodDraft} {m : Method} (h : d.Collects t m)
    {xs : List AttributeInfo} (isInfo : List.Forall₂ (IsInfo t) d.attributes xs) :
    AttributesCount t (m.Contents t) xs := by
  have exceptions : PieceCounts (m.Contents t) d.exceptionsPiece := by
    intro info made
    obtain ⟨indexes, there, rfl⟩ := Option.map_eq_some_iff.mp made
    have found := h.exceptions
    rw [there] at found
    obtain ⟨names, told, found⟩ : ∃ names, m.header.exceptions = some names ∧
        List.Forall₂ (fun i name => t.classNameAt i = .ok name) indexes names := by
      generalize m.header.exceptions = all at found
      cases found with
      | some found => exact ⟨_, rfl, found⟩
    exact .inr ⟨.exceptions, rfl, names, indexes, told, found, Buffer.toList_pushIndexes ..⟩
  have default : PieceCounts (m.Contents t) d.defaultPiece := by
    intro info made
    unfold defaultPiece at made
    split at made
    · cases made
    · cases made
      exact .inr ⟨.annotationDefault, rfl, h.defaults⟩
  have parameters (visible : Bool) : PieceCounts (m.Contents t) (d.parametersPiece visible) := by
    intro info made
    obtain ⟨count, covered, rfl⟩ := Option.map_eq_some_iff.mp made
    rw [h.parameterCount] at covered
    refine .inr ⟨.parameterAnnotations visible, rfl, _,
      Option.map_eq_some_iff.mpr ⟨count, covered, rfl⟩, ?_,
      toList_parameterInfo (fun i => (h.parameters i visible).spelledBy) count⟩
    rw [List.length_map, List.length_range]
    exact h.coveredParameters_le covered
  rw [attributes_eq] at isInfo
  refine attributesCount_of_pieces isInfo (by decide : 8 ≤ 0xFFFF) ?_
  simp only [pieces, List.forall_mem_cons]
  exact ⟨exceptions,
    pieceCounts_of_rel (k := .signature) (rel_signature h.signature) fun s _ told ref =>
      ⟨s, told, ref⟩,
    pieceCounts_deprecated _, default, h.annotations.pieceCounts fun _ spelled => spelled,
    h.annotations.pieceCounts fun _ spelled => spelled, parameters true, parameters false,
    List.forall_mem_nil _⟩

end Pieces

/-! ## Files -/

/-- The file of an encoder that has collected a class counts what was told of it. -/
theorem Encoder.IsFile.counts {e : Encoder} {d : HeaderDraft} {f : ClassFile} {s : ClassStream}
    (h : e.IsFile d f) (there : e.header = some d) (collects : e.Collects s) : f.Counts s := by
  have within := h.within
  have header := h.header_holds there collects.header
  have annotations := collects.annotations.mono within
  have fields := collects.fields.imp fun _ _ collected => collected.mono within
  have methods := collects.methods.imp fun _ _ collected => collected.mono within
  have infos := h.attributes
  rw [attributes_eq] at infos
  exact {
    pool := h.fits
    indexCount := h.indexCount_le
    interfaces := by
      rw [h.interfaces]
      exact header.interfaces
    fieldCount := h.fieldCount_le
    fields := by
      rw [← List.map_id s.fields]
      exact denotes_of_holds (fun _ _ isField collected => collected.attributesCount isField.attributes)
        h.fields fields
    methodCount := h.methodCount_le
    methods := by
      rw [← List.map_id s.methods]
      exact denotes_of_holds (fun _ _ isMethod collected => collected.attributesCount isMethod.attributes)
        h.methods methods
    attributes := by
      refine attributesCount_of_pieces infos (by decide : 4 ≤ 0xFFFF) ?_
      simp only [pieces, List.forall_mem_cons]
      exact ⟨pieceCounts_of_rel (k := .signature) (rel_signature header.signature)
          fun s _ told ref => ⟨s, told, ref⟩,
        pieceCounts_deprecated _, annotations.pieceCounts fun _ spelled => spelled,
        annotations.pieceCounts fun _ spelled => spelled, List.forall_mem_nil _⟩ }

/-- A class that is written at all is written as a file that counts what was told of it, but for
interfaces and exceptions beyond 65535. -/
theorem encodeClass_counts {s : ClassStream} {bytes : ByteArray}
    (h : encodeClass s.events = .ok bytes) :
    ∃ f : ClassFile, bytes.data.toList = f.encode ∧ f.Counts s := by
  obtain ⟨e, told, written⟩ := encodeClass_eq_ok.mp h
  have collects := Encoder.collects_of_ofEvents told
  obtain ⟨d, f, there, isFile, all⟩ := Encoder.toBytes_spec collects.pool written
  exact ⟨f, all, isFile.counts there collects⟩

/-- A class with two fields. -/
theorem encodeClass_counts_bothFields :
    ∃ bytes, encodeClass (classOfFields [visibleField, privateField]).stream.events = .ok bytes ∧
      ∃ f : ClassFile, bytes.data.toList = f.encode ∧
        f.Counts (classOfFields [visibleField, privateField]).stream := by
  obtain ⟨bytes, toBytes, -⟩ := exists_toBytes_bothFields
  have written := encodeClass_eq_ok.mpr ⟨_, ofEvents_bothFields, toBytes⟩
  exact ⟨bytes, written, encodeClass_counts written⟩

/-! ## Too many interfaces -/

/-- A class that names one interface a number of times. -/
def classRepeating (n : Nat) : ClassStream :=
  ⟨⟨52, .ofFlags 0x21 false, [65], none, none, some (List.replicate n [73])⟩, []⟩

/-- The pool with the class. -/
def poolOfClass : Pool :=
  ⟨#[.utf8 [65], .classRef 1],
    (Std.HashMap.emptyWithCapacity.insert (.utf8 [65]) 1).insert (.classRef 1) 2, 3⟩

/-- The pool with the class and its interface. -/
def poolOfInterface : Pool :=
  ⟨poolOfClass.entries ++ #[.utf8 [73], .classRef 3],
    (poolOfClass.indexes.insert (.utf8 [73]) 3).insert (.classRef 3) 4, 5⟩

/-- A class that the pool has gets its index each time. -/
theorem Encoder.addClasses_replicate {p q : Pool} {name : Text} {i : UInt16}
    (first : p.addClass name = .ok (i, q)) (again : q.addClass name = .ok (i, q)) {n : Nat}
    (pos : 0 < n) : addClasses p (List.replicate n name) = .ok (List.replicate n i, q) := by
  have each : ∀ (n : Nat) (before : List UInt16),
      (List.replicate n name).foldlM (fun (x : List UInt16 × Pool) name => do
        let added ← x.2.addClass name
        return (added.1 :: x.1, added.2)) (before, q) =
          (.ok (List.replicate n i ++ before, q) : Except EncodeFault _) := by
    intro n
    induction n with
    | zero => exact fun before => rfl
    | succ n ih =>
      intro before
      rw [List.replicate_succ, List.foldlM_cons]
      refine bind_eq_ok.mpr ⟨_, bind_eq_ok.mpr ⟨_, again, rfl⟩, ?_⟩
      rw [ih, List.replicate_succ', List.append_assoc]
      rfl
  obtain ⟨n, rfl⟩ := Nat.exists_eq_add_one.mpr pos
  refine bind_eq_ok.mpr ⟨(List.replicate n i ++ [i], q), ?_, ?_⟩
  · rw [List.replicate_succ, List.foldlM_cons]
    exact bind_eq_ok.mpr ⟨_, bind_eq_ok.mpr ⟨_, first, rfl⟩, each n [i]⟩
  · rw [← List.replicate_succ']
    exact congrArg (fun indexes => Except.ok (indexes, q)) List.reverse_replicate

theorem addClass_class : (∅ : Pool).addClass [65] = .ok (2, poolOfClass) := by
  simp [Pool.addClass, Pool.addUtf8, Pool.add, PoolEntry.slots, EmptyCollection.emptyCollection,
    Pool.empty, ok_bind, poolOfClass]

theorem addClass_interface : poolOfClass.addClass [73] = .ok (4, poolOfInterface) := by
  simp [Pool.addClass, Pool.addUtf8, Pool.add, PoolEntry.slots, ok_bind, poolOfClass,
    poolOfInterface]

theorem addClass_interface_again : poolOfInterface.addClass [73] = .ok (4, poolOfInterface) := by
  have text : poolOfInterface.addUtf8 [73] = .ok (3, poolOfInterface) := by
    simp [Pool.addUtf8, Pool.add, poolOfClass, poolOfInterface, Std.HashMap.getElem_insert]
  have reference : poolOfInterface.add (.classRef 3) = .ok (4, poolOfInterface) := by
    simp [Pool.add, poolOfClass, poolOfInterface]
  exact bind_eq_ok.mpr ⟨_, text, reference⟩

/-- The header of the class, by the indexes of the pool. -/
def headerRepeating (n : Nat) : HeaderDraft :=
  ⟨52, .ofFlags 0x21 false, 2, none, none, List.replicate n 4⟩

/-- The encoder that has taken the class. -/
def encoderRepeating (n : Nat) : Encoder :=
  { (∅ : Encoder) with pool := poolOfInterface, header := some (headerRepeating n) }

theorem ofEvents_classRepeating {n : Nat} (pos : 0 < n) :
    Encoder.ofEvents (classRepeating n).events = .ok (encoderRepeating n) := by
  have interfaces := Encoder.addClasses_replicate addClass_interface addClass_interface_again pos
  have visited : (∅ : Encoder).visitHeader (classRepeating n).header =
      .ok (encoderRepeating n) :=
    bind_eq_ok.mpr ⟨_, addClass_class, bind_eq_ok.mpr ⟨(none, poolOfClass), rfl,
      bind_eq_ok.mpr ⟨(none, poolOfClass), rfl, bind_eq_ok.mpr ⟨_, interfaces, rfl⟩⟩⟩⟩
  exact bind_eq_ok.mpr ⟨_, visited, rfl⟩

theorem exists_body_encoderRepeating (n : Nat) :
    ∃ b, (encoderRepeating n).body (headerRepeating n) = .ok (poolOfInterface, b) ∧
      b.toList = [0, 0x21, 0, 2, 0, 0] ++
        (encodeTable bytesU2 (List.replicate n 4) ++ [0, 0, 0, 0, 0, 0]) := by
  have nothing : (encoderRepeating n).attributes (headerRepeating n) = [] := by
    have plain : Access.isDeprecated (headerRepeating n).access = false :=
      (by decide : Access.isDeprecated (.ofFlags 0x21 false) = false)
    have none : (encoderRepeating n).annotations.attributes = [] := rfl
    rw [Encoder.attributes, none, Attribute.deprecated, plain]
    rfl
  let indexes := List.replicate n (4 : UInt16)
  let front := ((Buffer.empty.pushU2 0x21).pushU2 2).pushU2 0
  let interfaces := indexes.foldl Buffer.pushU2 (front.pushU2 indexes.length.toUInt16)
  refine ⟨((interfaces.pushU2 0).pushU2 0).pushU2 0, ?_, ?_⟩
  · rw [Encoder.body, nothing]
    rfl
  · rw [Buffer.toList_pushU2, Buffer.toList_pushU2, Buffer.toList_pushU2, Buffer.toList_pushIndexes]
    simp only [List.append_assoc]
    rfl

/-- The class is written with the number of its interfaces in front of them, whatever it is. -/
theorem encodeClass_classRepeating (n : Nat) (pos : 0 < n) :
    ∃ bytes, encodeClass (classRepeating n).events = .ok bytes ∧
      bytes.data.toList =
        [0xCA, 0xFE, 0xBA, 0xBE, 0, 0, 0, 52, 0, 5, 1, 0, 1, 65, 7, 0, 1, 1, 0, 1, 73, 7, 0, 3,
          0, 0x21, 0, 2, 0, 0] ++
        (encodeTable bytesU2 (List.replicate n 4) ++ [0, 0, 0, 0, 0, 0]) := by
  obtain ⟨b, body, written⟩ := exists_body_encoderRepeating n
  let start := ((Buffer.empty.pushU4 classMagic).pushU2 ((52 : UInt32) >>> 16).toUInt16).pushU2
    (52 : UInt32).toUInt16
  refine ⟨((poolOfInterface.put start).append b).bytes, ?_, ?_⟩
  · refine encodeClass_eq_ok.mpr ⟨_, ofEvents_classRepeating pos, ?_⟩
    have header : (encoderRepeating n).header = some (headerRepeating n) := rfl
    have few : (encoderRepeating n).fields.size ≤ 0xFFFF := Nat.zero_le _
    have few' : (encoderRepeating n).methods.size ≤ 0xFFFF := Nat.zero_le _
    rw [Encoder.toBytes, header]
    simp only [if_pos few, if_pos few', body]
    rfl
  · have front : (poolOfInterface.put start).toList = [0xCA, 0xFE, 0xBA, 0xBE, 0, 0, 0, 52, 0, 5,
        1, 0, 1, 65, 7, 0, 1, 1, 0, 1, 73, 7, 0, 3] := rfl
    show Buffer.toList _ = _
    rw [Buffer.toList_append, front, written]
    rfl

/-- A class with 65536 interfaces is written with the number 0 in front of them. -/
theorem encodeClass_miscounts :
    ∃ bytes, encodeClass (classRepeating 0x10000).events = .ok bytes ∧
      bytes.data.toList =
        [0xCA, 0xFE, 0xBA, 0xBE, 0, 0, 0, 52, 0, 5, 1, 0, 1, 65, 7, 0, 1, 1, 0, 1, 73, 7, 0, 3,
          0, 0x21, 0, 2, 0, 0] ++
        (bytesU2 0 ++ (List.replicate 0x10000 4).flatMap bytesU2 ++ [0, 0, 0, 0, 0, 0]) := by
  obtain ⟨bytes, written, all⟩ := encodeClass_classRepeating 0x10000 (by decide)
  have zero : (0x10000 : Nat).toUInt16 = 0 := by decide
  rw [encodeTable, List.length_replicate, zero] at all
  exact ⟨bytes, written, all⟩

end ClassAbi
