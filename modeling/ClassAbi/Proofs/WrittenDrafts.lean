import ClassAbi.Proofs.WrittenAttributes

/-!
# What drafts denote

A member of a class file whose attributes are those of a draft denotes what is
read back of the member that the draft holds.  Each attribute is a piece of its
own, so every part of the member is a matter of one piece.

The parameter annotations of a method need an argument of their own: the number
of parameters is a running maximum over all parameters, and it is the maximum of
the stated number and of one more than each annotated parameter.
-/

namespace ClassAbi

/-! ## Lists of classes -/

theorem Buffer.toList_foldl_pushU2 (l : List UInt16) (b : Buffer) :
    (l.foldl Buffer.pushU2 b).toList = b.toList ++ l.flatMap bytesU2 := by
  induction l generalizing b with
  | nil => simp
  | cons v l ih => simp [ih]

theorem Buffer.toList_pushIndexes (l : List UInt16) (b : Buffer) :
    (l.foldl Buffer.pushU2 (b.pushU2 l.length.toUInt16)).toList =
      b.toList ++ encodeTable bytesU2 l := by
  rw [toList_foldl_pushU2, toList_pushU2, List.append_assoc]
  rfl

section Drafts

variable {t : ConstantTable}

theorem tableEncodedBy_of_classes {indexes : List UInt16} {names : List Text}
    (h : List.Forall₂ (fun i name => t.classNameAt i = .ok name) indexes names)
    (count : names.length ≤ 0xFFFF) :
    TableEncodedBy (ClassRef t) names (encodeTable bytesU2 indexes) := by
  have each : EachEncodedBy (ClassRef t) names (indexes.flatMap bytesU2) := by
    clear count
    induction h with
    | nil => rfl
    | cons found _ ih => exact ⟨_, _, ⟨_, found, rfl⟩, ih, rfl⟩
  refine ⟨count, _, each, ?_⟩
  rw [encodeTable, h.length_eq]

/-! ## Fields -/

/-- The piece that holds the initial value of a field. -/
def constantPiece (index : Option UInt16) : Text × Option Buffer :=
  (AttributeKind.constantValue.name, index.map fun i => Buffer.empty.pushU2 i)

namespace FieldDraft

variable {d : FieldDraft} {f : Field}

/-- What attributes a field can have. -/
def pieces (d : FieldDraft) : List (Text × Option Buffer) :=
  [constantPiece d.value, signaturePiece d.signature, deprecatedPiece d.access,
    tablePiece true d.annotations, tablePiece false d.annotations]

theorem attributes_eq (d : FieldDraft) : d.attributes = ofPieces d.pieces := by
  have value : d.value.toList.map (Attribute.ofIndex (Text.ascii "ConstantValue")) =
      ofPieces [constantPiece d.value] := by
    cases d.value <;> rfl
  rw [attributes, value, signature_eq, deprecated_eq, annotations_eq, ← ofPieces_append,
    ← ofPieces_append, ← ofPieces_append]
  rfl

theorem distinct (d : FieldDraft) : (d.pieces.map Prod.fst).Nodup := by
  show [AttributeKind.constantValue.name, AttributeKind.signature.name, Text.ascii "Deprecated",
    (AttributeKind.annotations true).name, (AttributeKind.annotations false).name].Nodup
  decide

theorem Holds.constant (h : d.Holds t f) :
    Option.Rel (ConstantRef t f.header.descriptor) f.header.value
      ((constantPiece d.value).2.map Buffer.toList) := by
  have value := h.value
  unfold constantPiece
  generalize d.value = index at value
  generalize f.header.value = c at value
  cases value with
  | none => exact .none
  | some found => exact .some ⟨_, found, rfl⟩

theorem Holds.proper (h : d.Holds t f) : ∀ a ∈ d.attributes, a.Proper t := by
  rw [attributes_eq]
  refine proper_of_mem_ofPieces ?_
  simp only [pieces, List.forall_mem_cons]
  refine ⟨pieceProper_of_rel h.constant ?_,
    pieceProper_of_rel (k := .signature) (rel_signature h.signature) ?_,
    pieceProper_deprecated _, pieceProper_of_rel (h.annotations.rel true) ?_,
    pieceProper_of_rel (h.annotations.rel false) ?_, List.forall_mem_nil _⟩
  · rintro c _ ⟨i, -, rfl⟩
    exact ⟨i, rfl⟩
  all_goals
    intro x bs encoded
    exact ⟨x, encoded⟩

/-- A member with the attributes of the draft is the field as it is read back. -/
theorem Holds.denotes (h : d.Holds t f) {xs : List AttributeInfo}
    (isInfo : List.Forall₂ (IsInfo t) d.attributes xs)
    (short : ∀ a ∈ d.attributes, a.info.size < attributeLimit) :
    MemberInfo.DenotesField t ⟨d.access.flags, d.name, d.descriptor, xs⟩ f.readBack := by
  have fits := fits_of_isInfo h.proper short isInfo
  have length := isInfo.length_eq
  rw [attributes_eq] at isInfo length
  have count : xs.length ≤ 5 := by
    rw [← length]
    exact length_ofPieces d.pieces
  exact {
    fits := ⟨fits, Nat.le_trans count (by decide)⟩
    name := h.name
    descriptor := h.descriptor
    access := by
      rw [marksDeprecated_of_piece d.distinct isInfo (a := d.access) (by simp [pieces]), h.access]
      rfl
    signature := by
      have mem : signaturePiece d.signature ∈ d.pieces := by simp [pieces]
      exact kindHolds_of_piece (k := .signature) d.distinct isInfo mem (rel_signature h.signature)
    value := by
      have mem : constantPiece d.value ∈ d.pieces := by simp [pieces]
      exact kindHolds_of_piece d.distinct isInfo mem h.constant
    annotations := annotationsDenoted_of_pieces d.distinct isInfo h.annotations fun visible => by
      cases visible <;> simp [pieces] }

end FieldDraft

/-! ## Methods -/

/-- Of numbers, only which there are counts for the greatest. -/
theorem max?_congr {l l' : List Nat} (h : ∀ n, n ∈ l ↔ n ∈ l') : l.max? = l'.max? := by
  refine Option.ext fun n => ?_
  rw [List.max?_eq_some_iff, List.max?_eq_some_iff, h]
  simp only [h]

namespace MethodDraft

variable {d : MethodDraft} {m : Method}

/-- The number of parameters grows to cover each table with annotations. -/
theorem foldl_covered (visible : Bool) (tables : List (AnnotationTables × Nat)) (n : Option Nat) :
    tables.foldl (fun count ((x, i) : AnnotationTables × Nat) =>
        if (x.get visible).count != 0 && count.getD 0 ≤ i then some (i + 1) else count) n =
      (n.toList ++
        (tables.filter fun (x : AnnotationTables × Nat) => (x.1.get visible).count != 0).map
          fun (x : AnnotationTables × Nat) => x.2 + 1).max? := by
  induction tables generalizing n with
  | nil => cases n <;> rfl
  | cons x tables ih =>
    obtain ⟨x, i⟩ := x
    simp only [List.foldl_cons, List.filter_cons]
    rw [ih]
    by_cases there : ((x.get visible).count != 0) = true
    · rw [if_pos there, there, Bool.true_and]
      cases n with
      | none => simp
      | some n =>
        -- The table makes the number no smaller.
        rw [Option.getD_some, List.map_cons, Option.toList_some, List.singleton_append,
          List.max?_cons', List.foldl_cons]
        by_cases covered : n ≤ i
        · rw [if_pos (decide_eq_true covered), Nat.max_eq_right (Nat.le_succ_of_le covered)]
          rfl
        · rw [if_neg (by simpa using covered), Nat.max_eq_left (Nat.lt_of_not_le covered)]
          rfl
    · rw [if_neg there, Bool.eq_false_iff.mpr there, Bool.false_and]
      rfl

/-- The annotated parameters are those whose tables count annotations. -/
theorem Collects.mem_annotatedParameters (h : d.Collects t m) (visible : Bool) {i : Nat} :
    i ∈ m.annotatedParameters visible ↔
      ∃ x, d.parameters[i]? = some x ∧ (x.get visible).count ≠ 0 := by
  have holds := h.parameters i visible
  have some_iff : ((d.parameters[i]?.getD .empty).get visible).count ≠ 0 ↔
      ∃ a ∈ m.annotationsOf i, a.visible = visible := by
    rw [← not_iff_not, not_not, ← UInt16.toNat_inj, holds.count]
    simp
  have table_iff : (∃ x, d.parameters[i]? = some x ∧ (x.get visible).count ≠ 0) ↔
      ((d.parameters[i]?.getD .empty).get visible).count ≠ 0 := by
    cases d.parameters[i]? with
    | none => cases visible <;> simp [AnnotationTables.empty, AnnotationTables.get,
        AnnotationTable.empty]
    | some x => simp
  rw [table_iff, some_iff, Method.annotatedParameters, Method.annotationsOf]
  constructor
  · intro mem
    obtain ⟨x, hx, rfl⟩ := List.mem_map.mp mem
    obtain ⟨mem, shown⟩ := List.mem_filter.mp hx
    have range := h.parameterRange x mem
    refine ⟨x.2, List.mem_map.mpr ⟨x, List.mem_filter.mpr ⟨mem, ?_⟩, rfl⟩, beq_iff_eq.mp shown⟩
    exact decide_eq_true (Int.toNat_of_nonneg range.1).symm
  · rintro ⟨a, mem, shown⟩
    obtain ⟨x, hx, rfl⟩ := List.mem_map.mp mem
    obtain ⟨mem, same⟩ := List.mem_filter.mp hx
    refine List.mem_map.mpr ⟨x, List.mem_filter.mpr ⟨mem, beq_iff_eq.mpr shown⟩, ?_⟩
    rw [of_decide_eq_true same, Int.toNat_natCast]

/-- The number of parameters that is written is the one that is read back. -/
theorem Collects.parameterCount (h : d.Collects t m) (visible : Bool) :
    d.parameterCount visible = m.coveredParameters visible := by
  rw [MethodDraft.parameterCount, foldl_covered, h.counts, Method.coveredParameters]
  refine max?_congr fun n => ?_
  rw [List.mem_append, List.mem_append, Option.toList_map]
  refine or_congr_right ?_
  constructor
  · intro mem
    obtain ⟨⟨x, i⟩, hx, rfl⟩ := List.mem_map.mp mem
    obtain ⟨there, counts⟩ := List.mem_filter.mp hx
    rw [List.mem_zipIdx_iff_getElem?, Array.getElem?_toList] at there
    have annotated := (h.mem_annotatedParameters visible).mpr ⟨x, there, bne_iff_ne.mp counts⟩
    exact List.mem_map.mpr ⟨i, annotated, rfl⟩
  · intro mem
    obtain ⟨i, annotated, rfl⟩ := List.mem_map.mp mem
    obtain ⟨x, there, counts⟩ := (h.mem_annotatedParameters visible).mp annotated
    refine List.mem_map.mpr ⟨(x, i), List.mem_filter.mpr ⟨?_, bne_iff_ne.mpr counts⟩, rfl⟩
    rw [List.mem_zipIdx_iff_getElem?, Array.getElem?_toList]
    exact there

/-- The number of parameters fits into a byte. -/
theorem Collects.coveredParameters_le (h : d.Collects t m) {visible : Bool} {n : Nat}
    (covered : m.coveredParameters visible = some n) : n ≤ 0xFF := by
  have mem := List.max?_mem covered
  rcases List.mem_append.mp mem with mem | mem
  · obtain ⟨c, last, rfl⟩ := List.mem_map.mp mem
    have range := h.countRange visible c (List.mem_of_getLast? (Option.mem_toList.mp last))
    omega
  · obtain ⟨i, annotated, rfl⟩ := List.mem_map.mp mem
    obtain ⟨x, hx, rfl⟩ := List.mem_map.mp annotated
    have range := h.parameterRange x (List.mem_filter.mp hx).1
    omega

theorem toList_put (table : AnnotationTable) (b : Buffer) :
    (table.put b).toList = b.toList ++ (table.put ∅).toList := by
  simp [AnnotationTable.put]

section Parameters

variable {α : Type} {encodes : α → Text → Prop} {tableOf : Nat → α} {visible : Bool}
  (encoded : ∀ i,
    encodes (tableOf i) ((((d.parameters[i]?).getD .empty).get visible).put ∅).toList)

include encoded

/-- The tables of some parameters, one behind the other. -/
theorem each_parameters (l : List Nat) (b : Buffer) :
    ∃ items, (l.foldl (fun b i => ((d.parameters.getD i .empty).get visible).put b) b).toList =
        b.toList ++ items ∧ EachEncodedBy encodes (l.map tableOf) items := by
  induction l generalizing b with
  | nil => exact ⟨[], (List.append_nil _).symm, rfl⟩
  | cons i l ih =>
    obtain ⟨items, all, each⟩ := ih (((d.parameters.getD i .empty).get visible).put b)
    have first := encoded i
    rw [← Array.getD_eq_getD_getElem?] at first
    refine ⟨_, ?_, _, items, first, each, rfl⟩
    rw [List.foldl_cons, all, toList_put, List.append_assoc]

/-- The contents of a parameter annotations attribute are the number of parameters and their
tables. -/
theorem toList_parameterInfo (count : Nat) :
    ∃ items, EachEncodedBy encodes ((List.range count).map tableOf) items ∧
      (d.parameterInfo visible count).toList =
        ((List.range count).map tableOf).length.toUInt8 :: items := by
  obtain ⟨items, all, each⟩ :=
    each_parameters encoded (List.range count) (Buffer.empty.pushU1 count.toUInt8)
  refine ⟨items, each, ?_⟩
  rw [MethodDraft.parameterInfo, all, List.length_map, List.length_range]
  rfl

end Parameters

theorem Holds.parameterInfo (h : d.Holds t m) {visible : Bool} {count : Nat}
    (le : count ≤ 0xFF) :
    ParametersEncodedBy t visible
      ((List.range count).map fun i => readBackOf visible (m.annotationsOf i))
      (d.parameterInfo visible count).toList := by
  refine ⟨?_, toList_parameterInfo (fun i => (h.parameters i visible).encodedBy) count⟩
  rw [List.length_map, List.length_range]
  exact le

/-! ### Pieces of methods -/

/-- The piece that holds the declared exceptions. -/
def exceptionsPiece (d : MethodDraft) : Text × Option Buffer :=
  (AttributeKind.exceptions.name, d.exceptions.map fun exceptions =>
    exceptions.foldl Buffer.pushU2 (Buffer.empty.pushU2 exceptions.length.toUInt16))

/-- The piece that holds the default value. -/
def defaultPiece (d : MethodDraft) : Text × Option Buffer :=
  (AttributeKind.annotationDefault.name, if d.defaults.size == 0 then none else some d.defaults)

/-- The piece that holds the parameter annotations of one visibility. -/
def parametersPiece (d : MethodDraft) (visible : Bool) : Text × Option Buffer :=
  ((AttributeKind.parameterAnnotations visible).name,
    (d.parameterCount visible).map (d.parameterInfo visible))

/-- What attributes a method can have. -/
def pieces (d : MethodDraft) : List (Text × Option Buffer) :=
  [d.exceptionsPiece, signaturePiece d.signature, deprecatedPiece d.access, d.defaultPiece,
    tablePiece true d.annotations, tablePiece false d.annotations, d.parametersPiece true,
    d.parametersPiece false]

theorem attributes_eq (d : MethodDraft) : d.attributes = ofPieces d.pieces := by
  have exceptions : d.exceptionsAttribute = ofPieces [d.exceptionsPiece] := by
    unfold exceptionsAttribute exceptionsPiece
    cases d.exceptions <;> rfl
  have default : d.defaultAttribute = ofPieces [d.defaultPiece] := by
    unfold defaultAttribute defaultPiece
    split <;> simp_all [ofPieces]
    rfl
  have shown : d.parameterAttribute "RuntimeVisibleParameterAnnotations" true =
      ofPieces [d.parametersPiece true] := by
    unfold parameterAttribute parametersPiece
    cases d.parameterCount true <;> rfl
  have hidden : d.parameterAttribute "RuntimeInvisibleParameterAnnotations" false =
      ofPieces [d.parametersPiece false] := by
    unfold parameterAttribute parametersPiece
    cases d.parameterCount false <;> rfl
  rw [attributes, exceptions, signature_eq, deprecated_eq, default, annotations_eq, shown, hidden]
  simp only [← ofPieces_append]
  rfl

theorem distinct (d : MethodDraft) : (d.pieces.map Prod.fst).Nodup := by
  show [AttributeKind.exceptions.name, AttributeKind.signature.name, Text.ascii "Deprecated",
    AttributeKind.annotationDefault.name, (AttributeKind.annotations true).name,
    (AttributeKind.annotations false).name, (AttributeKind.parameterAnnotations true).name,
    (AttributeKind.parameterAnnotations false).name].Nodup
  decide

theorem Holds.exceptionsRel (h : d.Holds t m) (writable : m.Writable) :
    Option.Rel (TableEncodedBy (ClassRef t)) m.header.exceptions
      (d.exceptionsPiece.2.map Buffer.toList) := by
  have exceptions := h.exceptions
  have count := writable.exceptions
  unfold exceptionsPiece
  generalize d.exceptions = indexes at exceptions
  generalize m.header.exceptions = names at exceptions count
  cases exceptions with
  | none => exact .none
  | some found =>
    refine .some ?_
    rw [Buffer.toList_pushIndexes]
    exact tableEncodedBy_of_classes found (count _ rfl)

/-- A default that was told has one value, so something is written for it. -/
theorem Holds.defaultRel (h : d.Holds t m) (writable : m.Writable) :
    Option.Rel (DefaultEncodedBy t) (m.defaultValues.head?.map Value.readBack)
      (d.defaultPiece.2.map Buffer.toList) := by
  have holds := h.defaults
  unfold defaultPiece
  by_cases told : m.defaults = []
  · have none : m.defaultValues = [] := by rw [Method.defaultValues, told]; rfl
    rw [none] at holds ⊢
    have size : d.defaults.size = 0 := by
      rw [← Buffer.length_toList, show d.defaults.toList = [] from holds]
      rfl
    rw [size]
    exact .none
  · obtain ⟨v, one⟩ := List.length_eq_one_iff.mp (writable.default told)
    have nesting := writable.defaultNesting v (by rw [one]; exact List.mem_singleton_self v)
    rw [one] at holds ⊢
    obtain ⟨bs, back, encoded, rest, all⟩ := holds
    rw [show back = [] from rest, List.append_nil] at all
    have size : d.defaults.size ≠ 0 := by
      have := v.readBack.encodedSize_pos
      rw [← Buffer.length_toList, all, encoded.length]
      omega
    rw [beq_eq_false_iff_ne.mpr size]
    refine .some ⟨?_, v.nesting_readBack.trans_le nesting⟩
    rw [all]
    exact encoded

theorem Holds.parametersRel (h : d.Holds t m) (visible : Bool) :
    Option.Rel (ParametersEncodedBy t visible) (m.parameterTables visible)
      ((d.parametersPiece visible).2.map Buffer.toList) := by
  unfold parametersPiece Method.parameterTables
  rw [h.collects.parameterCount]
  cases covered : m.coveredParameters visible with
  | none => exact .none
  | some count => exact .some (h.parameterInfo (h.collects.coveredParameters_le covered))

theorem Holds.proper (h : d.Holds t m) (writable : m.Writable) :
    ∀ a ∈ d.attributes, a.Proper t := by
  rw [attributes_eq]
  refine proper_of_mem_ofPieces ?_
  simp only [pieces, List.forall_mem_cons]
  refine ⟨pieceProper_of_rel (h.exceptionsRel writable) ?_,
    pieceProper_of_rel (k := .signature) (rel_signature h.signature) ?_, pieceProper_deprecated _,
    pieceProper_of_rel (h.defaultRel writable) ?_, pieceProper_of_rel (h.annotations.rel true) ?_,
    pieceProper_of_rel (h.annotations.rel false) ?_, pieceProper_of_rel (h.parametersRel true) ?_,
    pieceProper_of_rel (h.parametersRel false) ?_, List.forall_mem_nil _⟩
  all_goals
    intro x bs encoded
    exact ⟨x, encoded⟩

/-- A member with the attributes of the draft is the method as it is read back. -/
theorem Holds.denotes (h : d.Holds t m) (writable : m.Writable) {xs : List AttributeInfo}
    (isInfo : List.Forall₂ (IsInfo t) d.attributes xs)
    (short : ∀ a ∈ d.attributes, a.info.size < attributeLimit) :
    MemberInfo.DenotesMethod t ⟨d.access.flags, d.name, d.descriptor, xs⟩ m.readBack := by
  have fits := fits_of_isInfo (h.proper writable) short isInfo
  have length := isInfo.length_eq
  rw [attributes_eq] at isInfo length
  have count : xs.length ≤ 8 := by
    rw [← length]
    exact length_ofPieces d.pieces
  exact {
    fits := ⟨fits, Nat.le_trans count (by decide)⟩
    name := h.name
    descriptor := h.descriptor
    access := by
      rw [marksDeprecated_of_piece d.distinct isInfo (a := d.access) (by simp [pieces]), h.access]
      rfl
    signature := by
      have mem : signaturePiece d.signature ∈ d.pieces := by simp [pieces]
      exact kindHolds_of_piece (k := .signature) d.distinct isInfo mem (rel_signature h.signature)
    exceptions := by
      have mem : d.exceptionsPiece ∈ d.pieces := by simp [pieces]
      exact kindHolds_of_piece d.distinct isInfo mem (h.exceptionsRel writable)
    parts := by
      have default : d.defaultPiece ∈ d.pieces := by simp [pieces]
      have annotations : ∀ visible, tablePiece visible d.annotations ∈ d.pieces := by
        intro visible
        cases visible <;> simp [pieces]
      have parameters : ∀ visible, d.parametersPiece visible ∈ d.pieces := by
        intro visible
        cases visible <;> simp [pieces]
      exact ⟨_, _, m.parameterTables,
        kindHolds_of_piece d.distinct isInfo default (h.defaultRel writable),
        annotationsDenoted_of_pieces d.distinct isInfo h.annotations annotations,
        fun visible => kindHolds_of_piece d.distinct isInfo (parameters visible)
          (h.parametersRel visible), rfl⟩ }

end MethodDraft

end Drafts

end ClassAbi
