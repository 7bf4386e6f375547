import ClassAbi.Proofs.WrittenDrafts

/-!
# Files as they are written

Writing an encoder makes a class file.  Attributes, fields and methods are
written one behind the other while the pool grows by the names of the
attributes.  `putItems_spec` is that loop, and what an item is in the pool at its
own time it still is in the pool at the end.

The file that is written of an encoder that holds a class denotes what is read
back of the class (`exists_file_of_toBytes`).
-/

namespace ClassAbi

/-! ## Items one behind the other -/

section Items

variable {α β : Type} {put : α → Pool → Buffer → Except EncodeFault (Pool × Buffer)}
  {r : ConstantTable → α → β → Prop} {encode : β → Text}

/-- Items that are each written as something that they are related to are written as
such things one behind the other. -/
theorem putItems_spec (mono : ∀ {t u a b}, t.Within u → r t a b → r u a b)
    (hput : ∀ {a p q b c}, p.WellFormed → put a p b = .ok (q, c) →
      p.Grows q ∧ ∃ x, r q.table a x ∧ c.toList = b.toList ++ encode x)
    {items : List α} {p q : Pool} {b c : Buffer} (hp : p.WellFormed)
    (h : items.foldlM (fun (x : Pool × Buffer) a => put a x.1 x.2) (p, b) = .ok (q, c)) :
    p.Grows q ∧ ∃ xs, List.Forall₂ (r q.table) items xs ∧
      c.toList = b.toList ++ xs.flatMap encode := by
  induction items generalizing p b with
  | nil =>
    cases h
    exact ⟨hp.grows, [], .nil, (List.append_nil _).symm⟩
  | cons a items ih =>
    rw [List.foldlM_cons] at h
    obtain ⟨⟨p', b'⟩, first, h⟩ := bind_eq_ok.mp h
    obtain ⟨grows, x, related, written⟩ := hput hp first
    obtain ⟨grows', xs, others, written'⟩ := ih grows.wellFormed h
    refine ⟨grows.trans grows', x :: xs, .cons (mono grows'.within related) others, ?_⟩
    rw [written', written, List.flatMap_cons, List.append_assoc]

end Items

/-! ## Attributes -/

theorem IsInfo.mono {t u : ConstantTable} (within : t.Within u) {a : Attribute}
    {x : AttributeInfo} (h : IsInfo t a x) : IsInfo u a x :=
  ⟨within.utf8At h.1, h.2⟩

section Written

variable {p q : Pool} {b c : Buffer}

theorem put_attribute_spec {a : Attribute} (hp : p.WellFormed) (h : a.put p b = .ok (q, c)) :
    p.Grows q ∧ ∃ x, IsInfo q.table a x ∧ c.toList = b.toList ++ x.encode := by
  obtain ⟨⟨i, p'⟩, added, h⟩ := bind_eq_ok.mp h
  obtain ⟨grows, found⟩ := Pool.addUtf8_spec hp added
  cases h
  refine ⟨grows, ⟨i, a.info.toList⟩, ⟨found, rfl⟩, ?_⟩
  simp [AttributeInfo.encode, Buffer.length_toList]

theorem putAttributes_spec {attributes : List Attribute} (hp : p.WellFormed)
    (h : putAttributes attributes p b = .ok (q, c)) :
    p.Grows q ∧ ∃ xs, List.Forall₂ (IsInfo q.table) attributes xs ∧
      c.toList = b.toList ++ encodeTable AttributeInfo.encode xs := by
  obtain ⟨grows, xs, infos, written⟩ :=
    putItems_spec (fun within isInfo => isInfo.mono within) put_attribute_spec hp h
  refine ⟨grows, xs, infos, ?_⟩
  rw [written, Buffer.toList_pushU2, encodeTable, infos.length_eq, List.append_assoc]

/-! ## Members -/

/-- The member of a class file is the draft of a member, which has the attributes. -/
structure IsMember (t : ConstantTable) (flags name descriptor : UInt16)
    (attributes : List Attribute) (m : MemberInfo) : Prop where
  flags : m.flags = flags
  name : m.name = name
  descriptor : m.descriptor = descriptor
  attributes : List.Forall₂ (IsInfo t) attributes m.attributes

/-- The member of a class file is the field. -/
def IsField (t : ConstantTable) (d : FieldDraft) : MemberInfo → Prop :=
  IsMember t d.access.flags d.name d.descriptor d.attributes

/-- The member of a class file is the method. -/
def IsMethod (t : ConstantTable) (d : MethodDraft) : MemberInfo → Prop :=
  IsMember t d.access.flags d.name d.descriptor d.attributes

theorem IsMember.mono {t u : ConstantTable} (within : t.Within u) {flags name descriptor : UInt16}
    {attributes : List Attribute} {m : MemberInfo}
    (h : IsMember t flags name descriptor attributes m) :
    IsMember u flags name descriptor attributes m :=
  { h with attributes := h.attributes.imp fun _ _ isInfo => isInfo.mono within }

theorem put_member_spec {flags name descriptor : UInt16} {attributes : List Attribute}
    (hp : p.WellFormed)
    (h : putAttributes attributes p (((b.pushU2 flags).pushU2 name).pushU2 descriptor) =
      .ok (q, c)) :
    p.Grows q ∧ ∃ m, IsMember q.table flags name descriptor attributes m ∧
      c.toList = b.toList ++ m.encode := by
  obtain ⟨grows, xs, infos, written⟩ := putAttributes_spec hp h
  refine ⟨grows, ⟨flags, name, descriptor, xs⟩, ⟨rfl, rfl, rfl, infos⟩, ?_⟩
  rw [written]
  simp [MemberInfo.encode]

theorem putFields_spec {fields : List FieldDraft} (hp : p.WellFormed)
    (h : Encoder.putFields fields p b = .ok (q, c)) :
    p.Grows q ∧ ∃ ms, List.Forall₂ (IsField q.table) fields ms ∧
      c.toList = b.toList ++ ms.flatMap MemberInfo.encode := by
  have h : fields.foldlM (fun (x : Pool × Buffer) d => d.put x.1 x.2) (p, b) = .ok (q, c) := h
  exact putItems_spec (r := IsField) (fun within isField => IsMember.mono within isField)
    put_member_spec hp h

theorem putMethods_spec {methods : List MethodDraft} (hp : p.WellFormed)
    (h : Encoder.putMethods methods p b = .ok (q, c)) :
    p.Grows q ∧ ∃ ms, List.Forall₂ (IsMethod q.table) methods ms ∧
      c.toList = b.toList ++ ms.flatMap MemberInfo.encode := by
  have h : methods.foldlM (fun (x : Pool × Buffer) d => d.put x.1 x.2) (p, b) = .ok (q, c) := h
  exact putItems_spec (r := IsMethod) (fun within isMethod => IsMember.mono within isMethod)
    put_member_spec hp h

end Written

/-! ## Files -/

/-- The class file is the encoder, whose header is the draft. -/
structure Encoder.IsFile (e : Encoder) (h : HeaderDraft) (f : ClassFile) : Prop where
  minor : f.minor = (h.version >>> 16).toUInt16
  major : f.major = h.version.toUInt16
  pool : ∃ p, e.pool.Grows p ∧ f.pool = p.items
  flags : f.flags = h.access.flags
  thisClass : f.thisClass = h.thisClass
  superClass : f.superClass = h.superClass.getD 0
  interfaces : f.interfaces = h.interfaces
  fieldCount : e.fields.size ≤ 0xFFFF
  fields : List.Forall₂ (IsField f.table) e.fields.toList f.fields
  methodCount : e.methods.size ≤ 0xFFFF
  methods : List.Forall₂ (IsMethod f.table) e.methods.toList f.methods
  attributes : List.Forall₂ (IsInfo f.table) (e.attributes h) f.attributes

namespace Encoder.IsFile

variable {e : Encoder} {d : HeaderDraft} {f : ClassFile}

/-- The table of the file is that of a pool that the pool of the encoder has grown to. -/
theorem exists_table (h : e.IsFile d f) :
    ∃ p, e.pool.Grows p ∧ f.pool = p.items ∧ f.table = p.table := by
  obtain ⟨p, grows, pool⟩ := h.pool
  exact ⟨p, grows, pool, by rw [ClassFile.table, pool]; rfl⟩

theorem within (h : e.IsFile d f) : e.pool.table.Within f.table := by
  obtain ⟨p, grows, -, table⟩ := h.exists_table
  rw [table]
  exact grows.within

theorem fits (h : e.IsFile d f) : ∀ i ∈ f.pool, i.Fits := by
  obtain ⟨p, grows, pool⟩ := h.pool
  rw [pool]
  exact grows.wellFormed.fits

theorem indexCount_le (h : e.IsFile d f) : f.table.size ≤ 0xFFFF := by
  obtain ⟨p, grows, -, table⟩ := h.exists_table
  have lt := p.next.toNat_lt
  rw [table, grows.wellFormed.size]
  omega

theorem fieldCount_le (h : e.IsFile d f) : f.fields.length ≤ 0xFFFF := by
  rw [← h.fields.length_eq, Array.length_toList]
  exact h.fieldCount

theorem methodCount_le (h : e.IsFile d f) : f.methods.length ≤ 0xFFFF := by
  rw [← h.methods.length_eq, Array.length_toList]
  exact h.methodCount

/-- The header is what it was in the smaller pool. -/
theorem header_holds (h : e.IsFile d f) (there : e.header = some d) {header : ClassHeader}
    (held : ∃ d, e.header = some d ∧ d.Holds e.pool.table header) : d.Holds f.table header := by
  obtain ⟨d', there', held⟩ := held
  rw [there] at there'
  cases there'
  exact held.mono h.within

end Encoder.IsFile

theorem Encoder.toBytes_spec {e : Encoder} (hp : e.pool.WellFormed) {bytes : ByteArray}
    (h : e.toBytes = .ok bytes) :
    ∃ d f, e.header = some d ∧ e.IsFile d f ∧ bytes.data.toList = f.encode := by
  unfold toBytes at h
  cases header : e.header with
  | none =>
    rw [header] at h
    cases h
  | some d =>
    rw [header] at h
    simp only at h
    split at h
    · next fieldCount =>
      split at h
      · next methodCount =>
        obtain ⟨⟨p, b⟩, body, h⟩ := bind_eq_ok.mp h
        obtain ⟨⟨p₁, b₁⟩, fields, body⟩ := bind_eq_ok.mp body
        obtain ⟨⟨p₂, b₂⟩, methods, body⟩ := bind_eq_ok.mp body
        obtain ⟨grows₁, fs, isFields, written₁⟩ := putFields_spec hp fields
        obtain ⟨grows₂, ms, isMethods, written₂⟩ := putMethods_spec grows₁.wellFormed methods
        obtain ⟨grows₃, xs, infos, written₃⟩ := putAttributes_spec grows₂.wellFormed body
        have after := grows₂.trans grows₃
        refine ⟨d, ⟨(d.version >>> 16).toUInt16, d.version.toUInt16, p.items, d.access.flags,
          d.thisClass, d.superClass.getD 0, d.interfaces, fs, ms, xs⟩, rfl, {
            minor := rfl
            major := rfl
            pool := ⟨p, grows₁.trans after, rfl⟩
            flags := rfl
            thisClass := rfl
            superClass := rfl
            interfaces := rfl
            fieldCount := fieldCount
            fields := isFields.imp fun _ _ isField => isField.mono after.within
            methodCount := methodCount
            methods := isMethods.imp fun _ _ isMethod => isMethod.mono grows₃.within
            attributes := infos }, ?_⟩
        have fieldLength := isFields.length_eq
        have methodLength := isMethods.length_eq
        rw [Array.length_toList] at fieldLength methodLength
        have start := Pool.toList_put (grows₁.trans after).wellFormed (((Buffer.empty.pushU4
          classMagic).pushU2 (d.version >>> 16).toUInt16).pushU2 d.version.toUInt16)
        cases h
        show Buffer.toList _ = _
        rw [Buffer.toList_append, start, written₃, written₂, Buffer.toList_pushU2 b₁, written₁,
          Buffer.toList_pushU2 (List.foldl ..), Buffer.toList_pushIndexes, fieldLength,
          methodLength]
        have nothing : Buffer.empty.toList = [] := rfl
        simp [ClassFile.encode, ClassFile.encodeBody, encodeTable, nothing]
      · cases h
    · cases h

/-! ## What a file denotes -/

/-- No attribute that is written is longer than its length can say. -/
structure Encoder.AttributesShort (e : Encoder) : Prop where
  fields : ∀ d ∈ e.fields.toList, ∀ a ∈ d.attributes, a.info.size < attributeLimit
  methods : ∀ d ∈ e.methods.toList, ∀ a ∈ d.attributes, a.info.size < attributeLimit
  attributes : ∀ h, e.header = some h → ∀ a ∈ e.attributes h, a.info.size < attributeLimit

/-- The superclass index 0 stands for no superclass, and no class has it. -/
theorem superNameAt_getD {t : ConstantTable} {index : Option UInt16} {name : Option Text}
    (h : Option.Rel (fun i s => t.classNameAt i = .ok s) index name) :
    superNameAt t (index.getD 0) = .ok name := by
  cases h with
  | none => rfl
  | @some i s found =>
    obtain ⟨_, entry, -⟩ := ConstantTable.classNameAt_eq_ok.mp found
    obtain ⟨nonzero, -⟩ := ConstantTable.entryAt_eq_ok.mp entry
    rw [Option.getD_some, superNameAt, beq_eq_false_iff_ne.mpr nonzero]
    exact bind_eq_ok.mpr ⟨s, found, rfl⟩

namespace Encoder

variable {e : Encoder} {d : HeaderDraft}

/-- What attributes a class can have. -/
def pieces (e : Encoder) (d : HeaderDraft) : List (Text × Option Buffer) :=
  [signaturePiece d.signature, deprecatedPiece d.access, tablePiece true e.annotations,
    tablePiece false e.annotations]

theorem attributes_eq (e : Encoder) (d : HeaderDraft) : e.attributes d = ofPieces (e.pieces d) := by
  rw [attributes, signature_eq, deprecated_eq, annotations_eq, ← ofPieces_append,
    ← ofPieces_append]
  rfl

theorem distinct (e : Encoder) (d : HeaderDraft) : ((e.pieces d).map Prod.fst).Nodup := by
  show [AttributeKind.signature.name, Text.ascii "Deprecated",
    (AttributeKind.annotations true).name, (AttributeKind.annotations false).name].Nodup
  decide

theorem proper_attributes {t : ConstantTable} {h : ClassHeader} {as : List Annotation}
    (header : d.Holds t h) (annotations : e.annotations.Holds t as) :
    ∀ a ∈ e.attributes d, a.Proper t := by
  rw [attributes_eq]
  refine proper_of_mem_ofPieces ?_
  simp only [pieces, List.forall_mem_cons]
  refine ⟨pieceProper_of_rel (k := .signature) (rel_signature header.signature) ?_,
    pieceProper_deprecated _, pieceProper_of_rel (annotations.rel true) ?_,
    pieceProper_of_rel (annotations.rel false) ?_, List.forall_mem_nil _⟩
  all_goals
    intro x bs encoded
    exact ⟨x, encoded⟩

end Encoder

section Members

variable {t : ConstantTable} {m : MemberInfo}

theorem IsField.denotes {d : FieldDraft} {f : Field} (h : IsField t d m) (holds : d.Holds t f)
    (short : ∀ a ∈ d.attributes, a.info.size < attributeLimit) : m.DenotesField t f.readBack := by
  obtain ⟨flags, name, descriptor, xs⟩ := m
  obtain ⟨rfl, rfl, rfl, infos⟩ := h
  exact holds.denotes infos short

theorem IsMethod.denotes {d : MethodDraft} {x : Method} (h : IsMethod t d m) (holds : d.Holds t x)
    (writable : x.Writable) (short : ∀ a ∈ d.attributes, a.info.size < attributeLimit) :
    m.DenotesMethod t x.readBack := by
  obtain ⟨flags, name, descriptor, xs⟩ := m
  obtain ⟨rfl, rfl, rfl, infos⟩ := h
  exact holds.denotes writable infos short

end Members

/-- The members that are written of drafts denote what is read back of what the drafts hold. -/
theorem denotes_of_holds {α δ : Type} {is : δ → MemberInfo → Prop} {holds : δ → α → Prop}
    {denotes : MemberInfo → α → Prop} {ds : List δ} {ms : List MemberInfo} {xs : List α}
    {back : α → α} (hdenotes : ∀ {d m x}, d ∈ ds → x ∈ xs → is d m → holds d x → denotes m (back x))
    (h : List.Forall₂ is ds ms) (h' : List.Forall₂ holds ds xs) :
    List.Forall₂ denotes ms (xs.map back) := by
  induction h generalizing xs with
  | nil =>
    cases h'
    exact .nil
  | cons isMember _ ih =>
    cases h' with
    | cons held others =>
      refine .cons (hdenotes List.mem_cons_self List.mem_cons_self isMember held) (ih ?_ others)
      exact fun hd hx => hdenotes (List.mem_cons_of_mem _ hd) (List.mem_cons_of_mem _ hx)

/-- The file of an encoder that holds a class denotes the class as it is read back, and its
attributes are proper. -/
theorem Encoder.IsFile.denotes {e : Encoder} {d : HeaderDraft} {f : ClassFile} {s : ClassStream}
    (h : e.IsFile d f) (there : e.header = some d) (holds : e.Holds s) (writable : s.Writable)
    (short : e.AttributesShort) : f.Denotes s.readBack ∧ f.Proper := by
  have within := h.within
  have header := h.header_holds there holds.header
  have annotations := holds.annotations.mono within
  have fields := holds.fields.imp fun _ _ held => held.mono within
  have methods := holds.methods.imp fun _ _ held => held.mono within
  have infos := h.attributes
  have proper := proper_attributes header annotations
  have fits := fits_of_isInfo proper (short.attributes d there) infos
  have properInfos := attributesProper_of_isInfo proper infos
  have length := infos.length_eq
  rw [attributes_eq] at infos length
  have distinct := e.distinct d
  refine ⟨?_, ?_⟩
  · exact {
      pool := h.fits
      size := h.indexCount_le
      version := by
        rw [h.minor, h.major, joinU2_halves, header.version]
        rfl
      access := by
        have mem : deprecatedPiece d.access ∈ e.pieces d := by simp [pieces]
        rw [marksDeprecated_of_piece distinct infos mem, h.flags, header.access]
        rfl
      name := by
        rw [h.thisClass]
        exact header.thisClass
      superName := by
        rw [h.superClass]
        exact superNameAt_getD header.superClass
      signature := by
        have mem : signaturePiece d.signature ∈ e.pieces d := by simp [pieces]
        exact kindHolds_of_piece (k := .signature) distinct infos mem
          (rel_signature header.signature)
      interfaces := by
        rw [h.interfaces]
        exact ⟨_, tableEncodedBy_of_classes header.interfaces writable.interfaces, rfl⟩
      fits := fits
      attributeCount := by
        have le := length_ofPieces (e.pieces d)
        rw [length] at le
        exact Nat.le_trans le (by decide : 4 ≤ 0xFFFF)
      annotations := by
        refine annotationsDenoted_of_pieces distinct infos annotations fun visible => ?_
        cases visible <;> simp [pieces]
      fieldCount := h.fieldCount_le
      fields := denotes_of_holds
        (fun mem _ isField held => isField.denotes held (short.fields _ mem)) h.fields fields
      methodCount := h.methodCount_le
      methods := denotes_of_holds
        (fun mem mem' isMethod held =>
          isMethod.denotes held (writable.methods _ mem') (short.methods _ mem))
        h.methods methods }
  · refine ⟨?_, ?_, properInfos⟩
    · intro m hm
      obtain ⟨draft, mem, isField⟩ := exists_of_forall₂ h.fields.flip hm
      obtain ⟨x, -, held⟩ := exists_of_forall₂ fields mem
      exact attributesProper_of_isInfo held.proper isField.attributes
    · intro m hm
      obtain ⟨draft, mem, isMethod⟩ := exists_of_forall₂ h.methods.flip hm
      obtain ⟨x, mem', held⟩ := exists_of_forall₂ methods mem
      exact attributesProper_of_isInfo (held.proper (writable.methods x mem')) isMethod.attributes

/-- What is written of the events of a class is a file that denotes the class as it is
read back. -/
theorem exists_file_of_toBytes {s : ClassStream} {e : Encoder} {bytes : ByteArray}
    (writable : s.Writable) (told : Encoder.ofEvents s.events = .ok e)
    (short : e.AttributesShort) (written : e.toBytes = .ok bytes) :
    ∃ f : ClassFile, f.Denotes s.readBack ∧ f.Proper ∧ HoldsAt bytes 0 f.encode ∧
      f.encode.length = bytes.size := by
  have holds := Encoder.holds_of_ofEvents writable told
  obtain ⟨d, f, there, isFile, all⟩ := Encoder.toBytes_spec holds.pool written
  obtain ⟨denotes, proper⟩ := isFile.denotes there holds writable short
  refine ⟨f, denotes, proper, ?_, ?_⟩
  · rw [← all]
    exact HoldsAt.self bytes
  · rw [← all, Array.length_toList]
    rfl

end ClassAbi
