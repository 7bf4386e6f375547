import ClassAbi.Proofs.WrittenFile

/-!
# The sizes of attributes

An attribute has a fixed size or the size of what it encodes.  So the attributes
of a class are short if the annotations of each owner and visibility, each
default value and the parameter annotations of each method are
(`ClassStream.Small`), whatever the names and numbers in the class.
-/

namespace ClassAbi

/-! ## Small declarations -/

/-- The annotations of each visibility fit into an attribute. -/
def AnnotationsSmall (as : List Annotation) : Prop :=
  ∀ visible, tableSize (readBackOf visible as) < attributeLimit

/-- What makes one attribute of the method fits into it. -/
structure Method.Small (m : Method) : Prop where
  default : ∀ v ∈ m.defaultValues, v.readBack.encodedSize < attributeLimit
  annotations : AnnotationsSmall m.annotations
  parameters : ∀ visible tables, m.parameterTables visible = some tables →
    1 + (tables.map tableSize).sum < attributeLimit

/-- What makes one attribute of the class or a member fits into it. -/
structure ClassStream.Small (s : ClassStream) : Prop where
  annotations : AnnotationsSmall s.annotations
  fields : ∀ f ∈ s.fields, AnnotationsSmall f.annotations
  methods : ∀ m ∈ s.methods, m.Small

/-! ## Pieces -/

/-- The attribute that the piece makes, if it makes one, is short. -/
def PieceShort (piece : Text × Option Buffer) : Prop :=
  ∀ info, piece.2 = some info → info.size < attributeLimit

theorem short_of_mem_ofPieces {pieces : List (Text × Option Buffer)}
    (h : ∀ piece ∈ pieces, PieceShort piece) : ∀ a ∈ ofPieces pieces, a.info.size < attributeLimit :=
  fun a mem => h _ (mem_ofPieces mem) a.info rfl

section Pieces

variable {t : ConstantTable}

theorem pieceShort_of_rel {name : Text} {info : Option Buffer} {α : Type}
    {encodes : α → Text → Prop} {a : Option α}
    (rel : Option.Rel encodes a (info.map Buffer.toList))
    (length : ∀ x bs, a = some x → encodes x bs → bs.length < attributeLimit) :
    PieceShort (name, info) := by
  rintro b rfl
  cases rel with
  | some encoded =>
    rw [← Buffer.length_toList]
    exact length _ _ rfl encoded

theorem pieceShort_signature (index : Option UInt16) : PieceShort (signaturePiece index) := by
  intro info eq
  cases index with
  | none => cases eq
  | some i =>
    cases eq
    exact (by decide : 2 < attributeLimit)

theorem pieceShort_constant (index : Option UInt16) : PieceShort (constantPiece index) := by
  intro info eq
  cases index with
  | none => cases eq
  | some i =>
    cases eq
    exact (by decide : 2 < attributeLimit)

theorem pieceShort_deprecated (a : Access) : PieceShort (deprecatedPiece a) := by
  intro info eq
  unfold deprecatedPiece at eq
  split at eq
  · cases eq
    exact (by decide : 0 < attributeLimit)
  · cases eq

theorem AnnotationTables.Holds.pieceShort {tables : AnnotationTables} {as : List Annotation}
    (h : tables.Holds t as) (small : AnnotationsSmall as) (visible : Bool) :
    PieceShort (tablePiece visible tables) := by
  refine pieceShort_of_rel (h.rel visible) fun x bs eq encoded => ?_
  have held := h.getD visible
  rw [eq, Option.getD_some] at held
  rw [encoded.length, held]
  exact small visible

/-! ## Drafts -/

theorem FieldDraft.Holds.short {d : FieldDraft} {f : Field} (h : d.Holds t f)
    (small : AnnotationsSmall f.annotations) :
    ∀ a ∈ d.attributes, a.info.size < attributeLimit := by
  rw [attributes_eq]
  refine short_of_mem_ofPieces ?_
  simp only [pieces, List.forall_mem_cons]
  exact ⟨pieceShort_constant _, pieceShort_signature _, pieceShort_deprecated _,
    h.annotations.pieceShort small true, h.annotations.pieceShort small false,
    List.forall_mem_nil _⟩

theorem length_of_classes {names : List Text} {bs : Text}
    (h : TableEncodedBy (ClassRef t) names bs) : bs.length < attributeLimit := by
  obtain ⟨count, items, each, rfl⟩ := h
  have size : ∀ {name bs}, ClassRef t name bs → bs.length = 2 := by
    rintro name _ ⟨i, -, rfl⟩
    rfl
  rw [List.length_append, length_bytesU2, each.length size, List.map_const', List.sum_replicate_nat,
    attributeLimit]
  omega

theorem MethodDraft.Holds.short {d : MethodDraft} {m : Method} (h : d.Holds t m)
    (writable : m.Writable) (small : m.Small) :
    ∀ a ∈ d.attributes, a.info.size < attributeLimit := by
  have exceptions : PieceShort d.exceptionsPiece :=
    pieceShort_of_rel (h.exceptionsRel writable) fun _ _ _ encoded => length_of_classes encoded
  have default : PieceShort d.defaultPiece := by
    refine pieceShort_of_rel (h.defaultRel writable) fun x bs eq encoded => ?_
    obtain ⟨v, first, rfl⟩ := Option.map_eq_some_iff.mp eq
    rw [encoded.1.length]
    exact small.default v (List.mem_of_head? first)
  have parameters : ∀ visible, PieceShort (d.parametersPiece visible) := by
    intro visible
    refine pieceShort_of_rel (h.parametersRel visible) fun x bs eq encoded => ?_
    rw [encoded.length]
    exact small.parameters visible x eq
  rw [attributes_eq]
  refine short_of_mem_ofPieces ?_
  simp only [pieces, List.forall_mem_cons]
  exact ⟨exceptions, pieceShort_signature _, pieceShort_deprecated _, default,
    h.annotations.pieceShort small.annotations true,
    h.annotations.pieceShort small.annotations false, parameters true, parameters false,
    List.forall_mem_nil _⟩

end Pieces

/-- The attributes of a small class are short. -/
theorem Encoder.Holds.attributesShort {e : Encoder} {s : ClassStream} (h : e.Holds s)
    (writable : s.Writable) (small : s.Small) : e.AttributesShort where
  fields := by
    intro d mem
    obtain ⟨f, mem', held⟩ := exists_of_forall₂ h.fields mem
    exact held.short (small.fields f mem')
  methods := by
    intro d mem
    obtain ⟨m, mem', held⟩ := exists_of_forall₂ h.methods mem
    exact held.short (writable.methods m mem') (small.methods m mem')
  attributes := by
    intro d there
    rw [attributes_eq]
    refine short_of_mem_ofPieces ?_
    simp only [pieces, List.forall_mem_cons]
    exact ⟨pieceShort_signature _, pieceShort_deprecated _,
      h.annotations.pieceShort small.annotations true,
      h.annotations.pieceShort small.annotations false, List.forall_mem_nil _⟩

end ClassAbi
