import ClassAbi.Proofs.WrittenClass

/-!
# The attributes of a draft

The attributes of a draft are pieces, each with a name of its own and there or
not (`ofPieces`).  So looking for the last attribute with a name finds the piece
with the name.  A draft that holds a member makes attributes that encode what is
read back of the member, and nothing else but the mark of deprecation.
-/

namespace ClassAbi

/-! ## Pieces -/

/-- The attributes that are there, each with its name. -/
def ofPieces (pieces : List (Text × Option Buffer)) : List Attribute :=
  pieces.flatMap fun x => x.2.toList.map (⟨x.1, ·⟩)

/-- The contents of the piece with a name. -/
def pieceOf (pieces : List (Text × Option Buffer)) (name : Text) : Option Buffer :=
  (pieces.lookup name).getD none

theorem ofPieces_append (first second : List (Text × Option Buffer)) :
    ofPieces (first ++ second) = ofPieces first ++ ofPieces second :=
  List.flatMap_append

theorem length_ofPieces (pieces : List (Text × Option Buffer)) :
    (ofPieces pieces).length ≤ pieces.length := by
  induction pieces with
  | nil => exact Nat.le_refl 0
  | cons x pieces ih =>
    obtain ⟨name, info⟩ := x
    cases info with
    | none => exact Nat.le_succ_of_le ih
    | some b => exact Nat.succ_le_succ ih

theorem mem_ofPieces {pieces : List (Text × Option Buffer)} {a : Attribute}
    (h : a ∈ ofPieces pieces) : (a.name, some a.info) ∈ pieces := by
  obtain ⟨⟨name, info⟩, mem, h⟩ := List.mem_flatMap.mp h
  obtain ⟨b, there, rfl⟩ := List.mem_map.mp h
  rw [Option.mem_toList] at there
  rw [← show info = some b from there]
  exact mem

/-- The attributes with a name are the piece with the name. -/
theorem filter_ofPieces {pieces : List (Text × Option Buffer)}
    (distinct : (pieces.map Prod.fst).Nodup) (name : Text) :
    (ofPieces pieces).filter (·.name = name) =
      (pieceOf pieces name).toList.map (⟨name, ·⟩) := by
  induction pieces with
  | nil => rfl
  | cons x pieces ih =>
    obtain ⟨name', info⟩ := x
    obtain ⟨absent, distinct⟩ := List.nodup_cons.mp distinct
    have front : ofPieces ((name', info) :: pieces) =
        info.toList.map (⟨name', ·⟩) ++ ofPieces pieces := rfl
    rw [front, List.filter_append, ih distinct]
    by_cases same : name = name'
    · subst same
      have none : pieceOf pieces name = none := by
        have : pieces.lookup name = none := by
          rw [List.lookup_eq_none_iff]
          intro x mem
          rw [bne_iff_ne]
          intro same
          rw [same] at absent
          exact absent (List.mem_map.mpr ⟨x, mem, rfl⟩)
        rw [pieceOf, this]
        rfl
      have here : pieceOf ((name, info) :: pieces) name = info := by
        rw [pieceOf, List.lookup_cons_self]
        rfl
      rw [none, here]
      cases info <;> simp
    · have other : pieceOf ((name', info) :: pieces) name = pieceOf pieces name := by
        rw [pieceOf, List.lookup_cons, beq_eq_false_iff_ne.mpr same]
        rfl
      rw [other]
      have differs : ¬name' = name := fun h => same h.symm
      cases info <;> simp [differs]

/-! ## Attributes and what is written of them -/

/-- The attribute of a class file is the attribute. -/
def IsInfo (t : ConstantTable) (a : Attribute) (x : AttributeInfo) : Prop :=
  t.utf8At x.name = .ok a.name ∧ x.info = a.info.toList

section Attributes

variable {t : ConstantTable}

theorem infosNamed_of_isInfo {as : List Attribute} {xs : List AttributeInfo}
    (h : List.Forall₂ (IsInfo t) as xs) (name : Text) :
    infosNamed t name xs = (as.filter (·.name = name)).map (·.info.toList) := by
  induction h with
  | nil => rfl
  | @cons a x as xs is _ ih =>
    rw [infosNamed_cons is.1, ih, is.2, List.filter_cons]
    by_cases same : a.name = name <;> simp [same]

/-- The last attribute with a name is the piece with the name. -/
theorem lastInfo_of_isInfo {pieces : List (Text × Option Buffer)} {xs : List AttributeInfo}
    (distinct : (pieces.map Prod.fst).Nodup) (h : List.Forall₂ (IsInfo t) (ofPieces pieces) xs)
    (name : Text) : lastInfo t name xs = (pieceOf pieces name).map Buffer.toList := by
  rw [lastInfo, infosNamed_of_isInfo h, filter_ofPieces distinct]
  cases pieceOf pieces name <;> rfl

/-- The attribute is a mark of deprecation, or has contents of its kind. -/
def Attribute.Proper (t : ConstantTable) (a : Attribute) : Prop :=
  a.name = Text.ascii "Deprecated" ∨ ∃ k : AttributeKind, a.name = k.name ∧ k.Encodes t a.info.toList

theorem Value.encodedSize_pos (v : Value) : 1 ≤ v.encodedSize := by
  cases v <;> simp only [Value.encodedSize] <;> omega

/-- No two kinds have names of one length. -/
theorem AttributeKind.length_name (k : AttributeKind) :
    k.name.length = match k with
      | signature => 9
      | constantValue => 13
      | exceptions => 10
      | annotationDefault => 17
      | annotations visible => if visible then 25 else 27
      | parameterAnnotations visible => if visible then 34 else 36 := by
  rcases k with _ | _ | _ | _ | _ | _ <;> try cases ‹Bool›
  all_goals rfl

theorem AttributeKind.name_injective {k k' : AttributeKind} (h : k.name = k'.name) : k = k' := by
  have length := congrArg List.length h
  rw [length_name, length_name] at length
  rcases k with _ | _ | _ | _ | _ | _ <;> rcases k' with _ | _ | _ | _ | _ | _ <;>
    try cases ‹Bool› <;> try cases ‹Bool›
  all_goals first | rfl | exact absurd length (by decide)

/-- Proper contents are long enough for their kind. -/
theorem AttributeKind.Encodes.shortestLength_le {k : AttributeKind} {bs : Text}
    (h : k.Encodes t bs) : AttributeLocations.shortestLength k.name ≤ bs.length := by
  cases k with
  | signature =>
    obtain ⟨s, i, -, rfl⟩ := h
    exact Nat.le_refl 2
  | constantValue =>
    obtain ⟨i, rfl⟩ := h
    exact Nat.le_refl 2
  | exceptions =>
    obtain ⟨names, -, items, -, rfl⟩ := h
    exact Nat.le_add_left 2 items.length
  | annotationDefault =>
    obtain ⟨v, encoded, -⟩ := h
    rw [encoded.length]
    exact v.encodedSize_pos
  | annotations visible =>
    obtain ⟨as, -, items, -, rfl⟩ := h
    cases visible <;> exact Nat.le_add_left 2 items.length
  | parameterAnnotations visible =>
    obtain ⟨tables, -, items, -, rfl⟩ := h
    cases visible <;> exact Nat.le_add_left 1 items.length

/-- An attribute can stand in a file if its name is in the pool, its contents are proper
and short enough. -/
theorem Attribute.Proper.fits {a : Attribute} {x : AttributeInfo} (h : a.Proper t)
    (isInfo : IsInfo t a x) (short : a.info.size < attributeLimit) : x.Fits t where
  named := by
    refine ⟨a.name, isInfo.1, ?_⟩
    rw [isInfo.2]
    rcases h with mark | ⟨k, name, encodes⟩
    · rw [mark]
      exact Nat.zero_le _
    · rw [name]
      exact encodes.shortestLength_le
  short := by
    rw [isInfo.2, Buffer.length_toList]
    exact short

/-- Where every attribute is proper, so are the last contents of every kind. -/
theorem attributesProper_of_isInfo {as : List Attribute} {xs : List AttributeInfo}
    (proper : ∀ a ∈ as, a.Proper t) (h : List.Forall₂ (IsInfo t) as xs) :
    AttributesProper t xs := by
  intro k info last
  rw [lastInfo, infosNamed_of_isInfo h] at last
  obtain ⟨a, mem, rfl⟩ := List.mem_map.mp (List.mem_of_getLast? last)
  obtain ⟨mem, name⟩ := List.mem_filter.mp mem
  rw [decide_eq_true_eq] at name
  rcases proper a mem with mark | ⟨k', same, encodes⟩
  · rw [name] at mark
    rcases k with _ | _ | _ | _ | _ | _ <;> try cases ‹Bool›
    all_goals exact absurd mark (by decide)
  · rw [name] at same
    rw [AttributeKind.name_injective same]
    exact encodes

theorem fits_of_isInfo {as : List Attribute} {xs : List AttributeInfo}
    (proper : ∀ a ∈ as, a.Proper t) (short : ∀ a ∈ as, a.info.size < attributeLimit)
    (h : List.Forall₂ (IsInfo t) as xs) : ∀ x ∈ xs, x.Fits t := by
  induction h with
  | nil =>
    intro x hx
    cases hx
  | @cons a x as xs isInfo _ ih =>
    intro y hy
    rcases List.mem_cons.mp hy with rfl | hy
    · exact (proper a List.mem_cons_self).fits isInfo (short a List.mem_cons_self)
    · exact ih (fun b hb => proper b (List.mem_cons_of_mem a hb))
        (fun b hb => short b (List.mem_cons_of_mem a hb)) y hy

/-! ## Pieces and what they hold -/

/-- The attribute that the piece makes, if it makes one, is proper. -/
def PieceProper (t : ConstantTable) (piece : Text × Option Buffer) : Prop :=
  ∀ info, piece.2 = some info → Attribute.Proper t ⟨piece.1, info⟩

theorem proper_of_mem_ofPieces {pieces : List (Text × Option Buffer)}
    (h : ∀ piece ∈ pieces, PieceProper t piece) : ∀ a ∈ ofPieces pieces, a.Proper t :=
  fun a mem => h _ (mem_ofPieces mem) a.info rfl

theorem pieceProper_of_rel {k : AttributeKind} {info : Option Buffer} {α : Type}
    {encodes : α → Text → Prop} {a : Option α}
    (rel : Option.Rel encodes a (info.map Buffer.toList))
    (imp : ∀ {x bs}, encodes x bs → k.Encodes t bs) : PieceProper t (k.name, info) := by
  rintro b rfl
  cases rel with
  | some encoded => exact .inr ⟨k, rfl, imp encoded⟩

/-- A piece is found under its name. -/
theorem pieceOf_of_mem {pieces : List (Text × Option Buffer)}
    (distinct : (pieces.map Prod.fst).Nodup) {name : Text} {info : Option Buffer}
    (mem : (name, info) ∈ pieces) : pieceOf pieces name = info := by
  induction pieces with
  | nil => cases mem
  | cons x pieces ih =>
    obtain ⟨absent, distinct⟩ := List.nodup_cons.mp distinct
    rcases List.mem_cons.mp mem with rfl | mem
    · rw [pieceOf, List.lookup_cons_self]
      rfl
    · have differs : name ≠ x.1 := by
        rintro rfl
        exact absent (List.mem_map.mpr ⟨_, mem, rfl⟩)
      rw [pieceOf, List.lookup_cons, beq_eq_false_iff_ne.mpr differs]
      exact ih distinct mem

/-- The attributes hold what a piece holds. -/
theorem kindHolds_of_piece {pieces : List (Text × Option Buffer)} {xs : List AttributeInfo}
    (distinct : (pieces.map Prod.fst).Nodup) (h : List.Forall₂ (IsInfo t) (ofPieces pieces) xs)
    {k : AttributeKind} {info : Option Buffer} (mem : (k.name, info) ∈ pieces) {α : Type}
    {encodes : α → Text → Prop} {a : Option α}
    (rel : Option.Rel encodes a (info.map Buffer.toList)) : KindHolds t xs k encodes a := by
  rw [KindHolds, lastInfo_of_isInfo distinct h, pieceOf_of_mem distinct mem]
  exact rel

/-! ## Signatures, marks and annotations -/

/-- The piece that holds a signature. -/
def signaturePiece (index : Option UInt16) : Text × Option Buffer :=
  (Text.ascii "Signature", index.map fun i => Buffer.empty.pushU2 i)

/-- The piece that marks a deprecated declaration. -/
def deprecatedPiece (a : Access) : Text × Option Buffer :=
  (Text.ascii "Deprecated", if a.isDeprecated then some ∅ else none)

/-- The piece that holds the annotations of one visibility. -/
def tablePiece (visible : Bool) (tables : AnnotationTables) : Text × Option Buffer :=
  ((AttributeKind.annotations visible).name,
    if (tables.get visible).count == 0 then none else some ((tables.get visible).put ∅))

theorem signature_eq (index : Option UInt16) :
    Attribute.signature index = ofPieces [signaturePiece index] := by
  cases index <;> rfl

theorem deprecated_eq (a : Access) : Attribute.deprecated a = ofPieces [deprecatedPiece a] := by
  unfold Attribute.deprecated
  simp only [ofPieces, deprecatedPiece]
  split <;> rfl

theorem annotations_eq (tables : AnnotationTables) :
    tables.attributes = ofPieces [tablePiece true tables, tablePiece false tables] := by
  have one : ∀ (name : String) (t : AnnotationTable), t.asAttribute name =
      ofPieces [(Text.ascii name, if t.count == 0 then none else some (t.put ∅))] := by
    intro name t
    unfold AnnotationTable.asAttribute
    split <;> simp [ofPieces, *]
  rw [AnnotationTables.attributes, one, one, ← ofPieces_append]
  rfl

/-- A table is written as the items that it counts. -/
theorem AnnotationTable.encodedBy {α : Type} {encodes : α → Text → Prop} {table : AnnotationTable}
    {as : List α} (count : table.count.toNat = as.length)
    (entries : EachEncodedBy encodes as table.entries.toList) :
    TableEncodedBy encodes as (table.put ∅).toList := by
  have lt := table.count.toNat_lt
  refine ⟨by omega, table.entries.toList, entries, ?_⟩
  rw [← count, AnnotationTable.put, Buffer.toList_append, Buffer.toList_pushU2]
  exact congrArg (fun n => bytesU2 n ++ table.entries.toList) UInt16.ofNat_toNat.symm

/-- A table of annotations is written as the annotations that it holds. -/
theorem AnnotationTable.Holds.encodedBy {visible : Bool} {table : AnnotationTable}
    {as : List Annotation} (h : table.Holds t visible as) :
    AnnotationsEncodedBy t visible (as.map Annotation.readBack) (table.put ∅).toList :=
  AnnotationTable.encodedBy (by rw [h.count, List.length_map]) h.entries

/-- The annotations of one visibility that a piece holds. -/
def tableOfVisible (visible : Bool) (tables : AnnotationTables) (as : List Annotation) :
    Option (List Annotation) :=
  if (tables.get visible).count == 0 then none else some (readBackOf visible as)

theorem AnnotationTables.Holds.rel {tables : AnnotationTables} {as : List Annotation}
    (h : tables.Holds t as) (visible : Bool) :
    Option.Rel (AnnotationsEncodedBy t visible) (tableOfVisible visible tables as)
      ((tablePiece visible tables).2.map Buffer.toList) := by
  simp only [tableOfVisible, tablePiece]
  split
  · exact .none
  · exact .some (h visible).encodedBy

/-- Without a piece there are no annotations, so nothing is lost. -/
theorem AnnotationTables.Holds.getD {tables : AnnotationTables} {as : List Annotation}
    (h : tables.Holds t as) (visible : Bool) :
    (tableOfVisible visible tables as).getD [] = readBackOf visible as := by
  rw [tableOfVisible]
  split
  · next zero =>
    have count := (h visible).count
    rw [beq_iff_eq.mp zero] at count
    rw [readBackOf, List.eq_nil_of_length_eq_zero count.symm]
    rfl
  · rfl

/-- The signature that a piece holds. -/
theorem rel_signature {index : Option UInt16} {s : Option Text}
    (h : Option.Rel (fun i s => t.utf8At i = .ok s) index s) :
    Option.Rel (TextRef t) s ((signaturePiece index).2.map Buffer.toList) := by
  cases h with
  | none => exact .none
  | some found => exact .some ⟨_, found, rfl⟩

/-- The mark of deprecation that a piece holds. -/
theorem marksDeprecated_of_piece {pieces : List (Text × Option Buffer)} {xs : List AttributeInfo}
    (distinct : (pieces.map Prod.fst).Nodup) (h : List.Forall₂ (IsInfo t) (ofPieces pieces) xs)
    {a : Access} (mem : deprecatedPiece a ∈ pieces) : marksDeprecated t xs = a.isDeprecated := by
  rw [marksDeprecated, infosNamed_of_isInfo h, filter_ofPieces distinct,
    pieceOf_of_mem distinct mem]
  cases a.isDeprecated <;> rfl

theorem pieceProper_deprecated (a : Access) : PieceProper t (deprecatedPiece a) :=
  fun _ _ => .inl rfl

/-- The annotations of an owner that its attributes hold. -/
theorem annotationsDenoted_of_pieces {pieces : List (Text × Option Buffer)}
    {xs : List AttributeInfo} (distinct : (pieces.map Prod.fst).Nodup)
    (h : List.Forall₂ (IsInfo t) (ofPieces pieces) xs) {tables : AnnotationTables}
    {as : List Annotation} (holds : tables.Holds t as)
    (mem : ∀ visible, tablePiece visible tables ∈ pieces) :
    AnnotationsDenoted t xs (readBackAll as) := by
  refine ⟨fun visible => tableOfVisible visible tables as, ?_, ?_⟩
  · intro visible
    exact kindHolds_of_piece distinct h (mem visible) (holds.rel visible)
  · rw [holds.getD, holds.getD]
    rfl

end Attributes

end ClassAbi
