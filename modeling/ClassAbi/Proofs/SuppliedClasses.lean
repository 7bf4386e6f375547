import ClassAbi.Proofs.SuppliedValues
import ClassAbi.Proofs.WrittenFile

/-!
# Encoding classes that can be stored

The events of a class that can be stored are taken to the end, and then its file
is written (`exists_encodeClass`).  A draft counts what was told so far, which is
never more than what is told in all, so no count is exceeded on the way.  Every
attribute that a draft makes has its name in the supply, since what makes the
attribute was told.
-/

namespace ClassAbi

variable {U : List PoolKey} (supply : IsSupply U)

/-! ## Counts on the way -/

/-- What is counted of an owner so far leaves room for one more annotation. -/
theorem AnnotationTables.Collects.few {t : ConstantTable} {tables : AnnotationTables}
    {as : List Annotation} (h : tables.Collects t as) {a : Annotation}
    (counted : AnnotationsCounted (as ++ [a])) : (tables.get a.visible).count.toNat < 0xFFFF := by
  have count := counted a.visible
  rw [List.filter_append, List.length_append] at count
  have one : ([a].filter (·.visible == a.visible)).length = 1 := by simp
  rw [(h a.visible).count]
  omega

/-- Fewer parts make smaller counts. -/
theorem Method.Counted.of_sublist {m m' : Method} (h : m'.Counted)
    (fewer : m.parts.Sublist m'.parts) : m.Counted where
  annotations := h.annotations.of_subperm (fewer.filterMap _).subperm
  parameters i := (h.parameters i).of_subperm
    (((fewer.filterMap _).filter _).map _).subperm

namespace Encoder

variable {e : Encoder} {p : Pool}

/-! ## Headers -/

section Headers

theorem exists_addOptional {α β : Type} {add : Pool → α → Except EncodeFault (β × Pool)}
    {a : Option α} (room : p.Room U)
    (hadd : ∀ x, a = some x → ∃ i q, add p x = .ok (i, q) ∧ q.Room U) :
    ∃ i q, addOptional add p a = .ok (i, q) ∧ q.Room U := by
  cases a with
  | none => exact ⟨none, p, rfl, room⟩
  | some x =>
    obtain ⟨i, q, added, room⟩ := hadd x rfl
    exact ⟨some i, q, bind_eq_ok.mpr ⟨_, added, rfl⟩, room⟩

include supply

theorem exists_addOptionalUtf8 {t : Option Text} (room : p.Room U)
    (mem : ∀ x, t = some x → .text x ∈ U) :
    ∃ i q, addOptional Pool.addUtf8 p t = .ok (i, q) ∧ q.Room U :=
  exists_addOptional room fun x there => by
    obtain ⟨i, q, added, room, -⟩ := Pool.exists_addUtf8 supply room (mem x there)
    exact ⟨i, q, added, room⟩

theorem exists_addClasses {names : List Text} (room : p.Room U)
    (mem : ∀ name ∈ names, .classRef name ∈ U) :
    ∃ indexes q, addClasses p names = .ok (indexes, q) ∧ q.Room U := by
  have each : ∀ (names : List Text) (before : List UInt16) {p : Pool}, p.Room U →
      (∀ name ∈ names, .classRef name ∈ U) → ∃ all q,
      names.foldlM (fun (x : List UInt16 × Pool) name => do
        let added ← x.2.addClass name
        return (added.1 :: x.1, added.2)) (before, p) =
          (.ok (all, q) : Except EncodeFault _) ∧ q.Room U := by
    intro names
    induction names with
    | nil => exact fun before p room _ => ⟨before, p, rfl, room⟩
    | cons name names ih =>
      intro before p room mem
      obtain ⟨i, r, added, room⟩ :=
        Pool.exists_addClass supply room (mem name List.mem_cons_self)
      obtain ⟨all, q, rest, room⟩ :=
        ih (i :: before) room fun x hx => mem x (List.mem_cons_of_mem name hx)
      refine ⟨all, q, ?_, room⟩
      rw [List.foldlM_cons]
      exact bind_eq_ok.mpr ⟨_, bind_eq_ok.mpr ⟨_, added, rfl⟩, rest⟩
  obtain ⟨all, q, collected, room⟩ := each names [] room mem
  exact ⟨all.reverse, q, bind_eq_ok.mpr ⟨_, collected, rfl⟩, room⟩

theorem succeeds_visitField {f : Field} (stored : f.Storable U) (room : e.pool.Room U) :
    Succeeds U (e.visitField f.header) := by
  obtain ⟨i₁, p₁, name, room, -⟩ := Pool.exists_addUtf8 supply room stored.name
  obtain ⟨i₂, p₂, descriptor, room, -⟩ := Pool.exists_addUtf8 supply room stored.descriptor
  obtain ⟨i₃, p₃, signature, room⟩ := exists_addOptionalUtf8 supply room
    fun s told => (stored.marks.signature s told).2
  obtain ⟨i₄, p₄, value, room⟩ := exists_addOptional room
    fun c told => Pool.exists_addConstant supply room (stored.value c told).2.1
  exact ⟨_, bind_eq_ok.mpr ⟨_, name, bind_eq_ok.mpr ⟨_, descriptor, bind_eq_ok.mpr ⟨_, signature,
    bind_eq_ok.mpr ⟨_, value, rfl⟩⟩⟩⟩, room⟩

theorem succeeds_visitMethod {m : Method} (stored : m.Storable U) (room : e.pool.Room U) :
    Succeeds U (e.visitMethod m.header) := by
  obtain ⟨i₁, p₁, name, room, -⟩ := Pool.exists_addUtf8 supply room stored.name
  obtain ⟨i₂, p₂, descriptor, room, -⟩ := Pool.exists_addUtf8 supply room stored.descriptor
  obtain ⟨i₃, p₃, signature, room⟩ := exists_addOptionalUtf8 supply room
    fun s told => (stored.marks.signature s told).2
  obtain ⟨i₄, p₄, exceptions, room⟩ := exists_addOptional room
    fun names told => exists_addClasses supply room (stored.exceptions names told).2.2
  exact ⟨_, bind_eq_ok.mpr ⟨_, name, bind_eq_ok.mpr ⟨_, descriptor, bind_eq_ok.mpr ⟨_, signature,
    bind_eq_ok.mpr ⟨_, exceptions, rfl⟩⟩⟩⟩, room⟩

theorem succeeds_visitHeader {s : ClassStream} (stored : s.Storable U) (room : e.pool.Room U) :
    Succeeds U (e.visitHeader s.header) := by
  obtain ⟨i₁, p₁, name, room⟩ := Pool.exists_addClass supply room stored.name
  obtain ⟨i₂, p₂, superName, room⟩ := exists_addOptional room
    fun n told => Pool.exists_addClass supply room (stored.superName n told)
  obtain ⟨i₃, p₃, signature, room⟩ := exists_addOptionalUtf8 supply room
    fun s told => (stored.marks.signature s told).2
  obtain ⟨i₄, p₄, interfaces, room⟩ := exists_addClasses supply room stored.interfaces
  exact ⟨_, bind_eq_ok.mpr ⟨_, name, bind_eq_ok.mpr ⟨_, superName, bind_eq_ok.mpr ⟨_, signature,
    bind_eq_ok.mpr ⟨_, interfaces, rfl⟩⟩⟩⟩, room⟩

end Headers

/-! ## Fields -/

section Fields

include supply

/-- Annotations of the last field. -/
theorem succeeds_fieldAnnotations {before : Array FieldDraft} {as : List Annotation}
    (stored : ∀ a ∈ as, a.Storable U .annotations) {d : FieldDraft} {f : Field}
    (hfields : e.fields = before.push d) (hp : e.pool.WellFormed) (room : e.pool.Room U)
    (collects : d.Collects e.pool.table f) (counted : AnnotationsCounted (f.annotations ++ as)) :
    Succeeds U (e.run (as.flatMap (·.events .annotateField))) := by
  induction as generalizing e d f with
  | nil => exact ⟨e, rfl, room⟩
  | cons a as ih =>
    have stored' := stored a List.mem_cons_self
    have last : e.fields.size - 1 = before.size := by simp [hfields]
    rw [← List.singleton_append, ← List.append_assoc] at counted
    have few := collects.annotations.few (a := a)
      (counted.of_subperm (List.sublist_append_left _ _).subperm)
    rw [List.flatMap_cons, run_append]
    refine Succeeds.bind ?_ fun e₁ first room => ?_
    · rw [run_opening, step, last]
      exact succeeds_annotation supply stored' (hasTarget_ofField hfields a.visible) trivial room
        (by rwa [table_ofField hfields])
    · obtain ⟨p, d₁, grows, rfl, collects⟩ :=
        run_fieldAnnotation hfields hp collects first
      exact ih (fun x hx => stored x (List.mem_cons_of_mem a hx)) rfl grows.wellFormed room collects
        counted

/-- The events of a field are taken. -/
theorem succeeds_field {f : Field} (stored : f.Storable U) (hp : e.pool.WellFormed)
    (room : e.pool.Room U) : Succeeds U (e.run f.events) := by
  rw [Field.events, run_cons]
  refine (succeeds_visitField supply stored room).bind fun e₁ opened room => ?_
  obtain ⟨p, d, grows, rfl, collects⟩ := visitField_spec hp opened
  rw [run_append]
  refine Succeeds.bind ?_ fun e₂ _ room => ⟨e₂, rfl, room⟩
  exact succeeds_fieldAnnotations supply stored.annotations rfl grows.wellFormed room collects
    stored.counted

end Fields

/-! ## Methods -/

section Methods

variable {before : Array MethodDraft} {d : MethodDraft} {m : Method}

include supply

/-- A part of the last method. -/
theorem succeeds_part {part : MethodPart} (stored : part.Storable U)
    (hmethods : e.methods = before.push d) (room : e.pool.Room U)
    (collects : d.Collects e.pool.table m) (counted : (m.addPart part).Counted) :
    Succeeds U (e.run part.events) := by
  have last : e.methods.size - 1 = before.size := by simp [hmethods]
  cases part with
  | default values =>
    obtain ⟨-, ⟨name, v, rfl, -⟩, stored⟩ := stored
    have one : (Values.cons name v .nil).length ≤ 0xFFFF := (by decide : 1 ≤ 0xFFFF)
    rw [MethodPart.events, run_cons, step, last, ok_bind]
    exact succeeds_default supply stored one (hasTarget_ofDefault hmethods) room
  | annotate a =>
    have few := collects.annotations.few (a := a) (by
      simpa [Method.annotations_addPart, MethodPart.annotation?] using counted.annotations)
    rw [MethodPart.events, run_opening, step, last]
    exact succeeds_annotation supply stored (hasTarget_ofMethod hmethods a.visible) trivial room
      (by rwa [table_ofMethod hmethods])
  | parameterCount count visible =>
    exact ⟨_, bind_eq_ok.mpr ⟨_, if_pos stored.2, rfl⟩, room⟩
  | annotateParameter parameter a =>
    obtain ⟨stored, range⟩ := stored
    obtain ⟨k, rfl⟩ : ∃ k : Nat, parameter = k := ⟨parameter.toNat, by omega⟩
    have there := lt_size_extended d k
    have has : ({ e with methods := before.push (extended d k) } : Encoder).HasTarget
        (.ofParameter before.size k a.visible) := hasTarget_ofParameter rfl there a.visible
    have few := ((collects.extended k).parameters k).few (a := a) (by
      simpa [Method.annotationsOf_addPart, MethodPart.parameterAnnotation?]
        using counted.parameters k)
    rw [run_annotateParameter hmethods range]
    exact succeeds_annotation supply stored has trivial room
      (by rwa [table_ofParameter rfl there])

/-- Parts of the last method. -/
theorem succeeds_parts {parts : List MethodPart} (stored : ∀ part ∈ parts, part.Storable U)
    (hmethods : e.methods = before.push d) (hp : e.pool.WellFormed) (room : e.pool.Room U)
    (collects : d.Collects e.pool.table m)
    (counted : (⟨m.header, m.parts ++ parts⟩ : Method).Counted) :
    Succeeds U (e.run (parts.flatMap MethodPart.events)) := by
  induction parts generalizing e d m with
  | nil => exact ⟨e, rfl, room⟩
  | cons part parts ih =>
    rw [← List.singleton_append, ← List.append_assoc] at counted
    rw [List.flatMap_cons, run_append]
    refine Succeeds.bind ?_ fun e₁ first room => ?_
    · exact succeeds_part supply (stored part List.mem_cons_self) hmethods room collects
        (counted.of_sublist (List.sublist_append_left _ _))
    · obtain ⟨p, d₁, grows, rfl, collects⟩ :=
        run_part hmethods hp collects first
      exact ih (fun x hx => stored x (List.mem_cons_of_mem part hx)) rfl grows.wellFormed room
        collects counted

/-- The events of a method are taken. -/
theorem succeeds_method (stored : m.Storable U) (hp : e.pool.WellFormed) (room : e.pool.Room U) :
    Succeeds U (e.run m.events) := by
  rw [Method.events, run_cons]
  refine (succeeds_visitMethod supply stored room).bind fun e₁ opened room => ?_
  obtain ⟨p, d, grows, rfl, collects⟩ := visitMethod_spec hp opened
  rw [run_append]
  refine Succeeds.bind ?_ fun e₂ _ room => ⟨e₂, rfl, room⟩
  exact succeeds_parts supply stored.parts rfl grows.wellFormed room collects stored.counted

end Methods

/-! ## Classes -/

section Classes

variable {s : ClassStream}

include supply

/-- One part of a class. -/
theorem succeeds_classPart (stored : s.Storable U) {part : ClassPart} (mem : part ∈ s.parts)
    {told : ClassStream} (collects : e.Collects told) (room : e.pool.Room U)
    (counted : AnnotationsCounted (told.addPart part).annotations) :
    Succeeds U (e.run part.events) := by
  cases part with
  | annotate a =>
    have has : e.HasTarget (.ofClass a.visible) := trivial
    rw [ClassStream.annotations_addPart] at counted
    rw [ClassPart.events, run_opening, step]
    exact succeeds_annotation supply (stored.annotations a (ClassStream.mem_annotations.mpr mem))
      has trivial room (collects.annotations.few counted)
  | field f =>
    exact succeeds_field supply (stored.fields f (ClassStream.mem_fields.mpr mem)) collects.pool
      room
  | method m =>
    exact succeeds_method supply (stored.methods m (ClassStream.mem_methods.mpr mem)) collects.pool
      room

/-- Parts of a class. -/
theorem succeeds_classParts (stored : s.Storable U) {parts : List ClassPart}
    (mem : ∀ part ∈ parts, part ∈ s.parts) {told : ClassStream} (collects : e.Collects told)
    (room : e.pool.Room U)
    (counted : AnnotationsCounted (⟨told.header, told.parts ++ parts⟩ : ClassStream).annotations) :
    Succeeds U (e.run (parts.flatMap ClassPart.events)) := by
  induction parts generalizing e told with
  | nil => exact ⟨e, rfl, room⟩
  | cons part parts ih =>
    have here := mem part List.mem_cons_self
    rw [← List.singleton_append, ← List.append_assoc] at counted
    rw [List.flatMap_cons, run_append]
    refine Succeeds.bind ?_ fun e₁ first room => ?_
    · exact succeeds_classPart supply stored here collects room
        (counted.of_subperm ((List.sublist_append_left _ _).filterMap _).subperm)
    · exact ih (fun x hx => mem x (List.mem_cons_of_mem part hx))
        (run_classPart collects first) room counted

/-- The events of a class that can be stored are taken. -/
theorem succeeds_events (stored : s.Storable U) : Succeeds U (ofEvents s.events) := by
  rw [ofEvents, ClassStream.events, run_cons]
  refine (succeeds_visitHeader supply stored (Pool.room_empty U)).bind fun e₁ opened room => ?_
  rw [run_append]
  refine Succeeds.bind ?_ fun e₂ _ room => ⟨e₂, rfl, room⟩
  exact succeeds_classParts supply stored (fun _ mem => mem) (visitHeader_spec opened) room
    stored.counted

end Classes

end Encoder

/-! ## Names of attributes -/

section Names

/-- The attribute that the piece makes, if it makes one, has its name in the supply. -/
def PieceNamed (U : List PoolKey) (piece : Text × Option Buffer) : Prop :=
  ∀ info, piece.2 = some info → .text piece.1 ∈ U

theorem named_of_mem_ofPieces {pieces : List (Text × Option Buffer)}
    (h : ∀ piece ∈ pieces, PieceNamed U piece) : ∀ a ∈ ofPieces pieces, .text a.name ∈ U :=
  fun a mem => h _ (mem_ofPieces mem) a.info rfl

variable {t : ConstantTable}

theorem pieceNamed_of_rel {name : Text} {info : Option Buffer} {α : Type}
    {encodes : α → Text → Prop} {a : Option α} (rel : Option.Rel encodes a (info.map Buffer.toList))
    (told : ∀ x, a = some x → .text name ∈ U) : PieceNamed U (name, info) := by
  rintro b rfl
  cases rel with
  | some _ => exact told _ rfl

theorem MarksStorable.named {access : Access} {signature : Option Text} {index : Option UInt16}
    (h : MarksStorable U access signature)
    (found : Option.Rel (fun i s => t.utf8At i = .ok s) index signature) :
    PieceNamed U (signaturePiece index) ∧ PieceNamed U (deprecatedPiece access) := by
  refine ⟨pieceNamed_of_rel (rel_signature found) fun s told => (h.signature s told).1, ?_⟩
  intro info made
  unfold deprecatedPiece at made
  split at made
  · next told => exact h.deprecated told
  · cases made

/-- A table of annotations is written only where there are annotations. -/
theorem AnnotationTables.Holds.named {tables : AnnotationTables} {as : List Annotation}
    (h : tables.Holds t as) (stored : ∀ a ∈ as, a.Storable U .annotations) (visible : Bool) :
    PieceNamed U (tablePiece visible tables) := by
  refine pieceNamed_of_rel (h.rel visible) fun x some => ?_
  have count : (tables.get visible).count.toNat ≠ 0 := by
    intro zero
    have zero : (tables.get visible).count = 0 := UInt16.toNat_inj.mp zero
    rw [tableOfVisible, zero] at some
    cases some
  rw [(h visible).count] at count
  obtain ⟨a, mem⟩ := List.exists_mem_of_length_pos (Nat.pos_of_ne_zero count)
  obtain ⟨mem, shown⟩ := List.mem_filter.mp mem
  rw [← beq_iff_eq.mp shown]
  exact (stored a mem).attributeName

theorem FieldDraft.Holds.named {d : FieldDraft} {f : Field} (h : d.Holds t f)
    (stored : f.Storable U) : ∀ a ∈ d.attributes, .text a.name ∈ U := by
  obtain ⟨signature, deprecated⟩ := stored.marks.named h.signature
  rw [attributes_eq]
  refine named_of_mem_ofPieces ?_
  simp only [pieces, List.forall_mem_cons, h.access]
  exact ⟨pieceNamed_of_rel h.constant fun c told => (stored.value c told).1, signature, deprecated,
    h.annotations.named stored.annotations true, h.annotations.named stored.annotations false,
    List.forall_mem_nil _⟩

theorem MethodDraft.Holds.named {d : MethodDraft} {m : Method} (h : d.Holds t m)
    (stored : m.Storable U) : ∀ a ∈ d.attributes, .text a.name ∈ U := by
  obtain ⟨signature, deprecated⟩ := stored.marks.named h.signature
  have annotations : ∀ a ∈ m.annotations, a.Storable U .annotations :=
    fun a mem => stored.parts _ (Method.mem_annotations.mp mem)
  have exceptions : PieceNamed U d.exceptionsPiece :=
    pieceNamed_of_rel (h.exceptionsRel stored.writable) fun names told =>
      (stored.exceptions names told).1
  have default : PieceNamed U d.defaultPiece := by
    refine pieceNamed_of_rel (h.defaultRel stored.writable) fun v told => ?_
    obtain ⟨v, first, rfl⟩ := Option.map_eq_some_iff.mp told
    obtain ⟨vs, mem, -⟩ := List.mem_flatMap.mp (List.mem_of_head? first)
    exact (stored.parts _ (Method.mem_defaults.mp mem)).1
  -- Parameters are covered because a number was stated or because one has an annotation.
  have parameters (visible : Bool) : PieceNamed U (d.parametersPiece visible) := by
    refine pieceNamed_of_rel (h.parametersRel visible) fun tables told => ?_
    obtain ⟨n, covered, -⟩ := Option.map_eq_some_iff.mp told
    rcases List.mem_append.mp (List.max?_mem covered) with mem | mem
    · obtain ⟨count, last, -⟩ := List.mem_map.mp mem
      have mem := List.mem_of_getLast? (Option.mem_toList.mp last)
      exact (stored.parts _ (Method.mem_parameterCounts.mp mem)).1
    · obtain ⟨i, annotated, -⟩ := List.mem_map.mp mem
      obtain ⟨x, mem, -⟩ := List.mem_map.mp annotated
      obtain ⟨mem, shown⟩ := List.mem_filter.mp mem
      rw [← beq_iff_eq.mp shown]
      exact (stored.parts _ (Method.mem_parameterAnnotations.mp mem)).1.attributeName
  rw [attributes_eq]
  refine named_of_mem_ofPieces ?_
  simp only [pieces, List.forall_mem_cons, h.access]
  exact ⟨exceptions, signature, deprecated, default, h.annotations.named annotations true,
    h.annotations.named annotations false, parameters true, parameters false,
    List.forall_mem_nil _⟩

theorem Encoder.Holds.named {e : Encoder} {s : ClassStream} (h : e.Holds s) (stored : s.Storable U)
    {d : HeaderDraft} (header : d.Holds e.pool.table s.header) :
    ∀ a ∈ e.attributes d, .text a.name ∈ U := by
  obtain ⟨signature, deprecated⟩ := stored.marks.named header.signature
  rw [attributes_eq]
  refine named_of_mem_ofPieces ?_
  simp only [pieces, List.forall_mem_cons, header.access]
  exact ⟨signature, deprecated, h.annotations.named stored.annotations true,
    h.annotations.named stored.annotations false, List.forall_mem_nil _⟩

end Names

/-! ## Writing the file -/

section Written

variable {p : Pool} {b : Buffer}

/-- Items that can each be written can be written one behind the other. -/
theorem exists_putItems {α : Type} (put : α → Pool → Buffer → Except EncodeFault (Pool × Buffer))
    {items : List α}
    (hput : ∀ a ∈ items, ∀ {p b}, p.Room U → ∃ q c, put a p b = .ok (q, c) ∧ q.Room U)
    (room : p.Room U) :
    ∃ q c, items.foldlM (fun (x : Pool × Buffer) a => put a x.1 x.2) (p, b) = .ok (q, c) ∧
      q.Room U := by
  induction items generalizing p b with
  | nil => exact ⟨p, b, rfl, room⟩
  | cons a items ih =>
    obtain ⟨p', b', first, room⟩ := hput a List.mem_cons_self (b := b) room
    obtain ⟨q, c, rest, room⟩ := ih (fun x hx => hput x (List.mem_cons_of_mem a hx)) (b := b') room
    exact ⟨q, c, by rw [List.foldlM_cons, first, ok_bind, rest], room⟩

include supply

theorem exists_putAttributes {attributes : List Attribute}
    (named : ∀ a ∈ attributes, .text a.name ∈ U) (room : p.Room U) :
    ∃ q c, putAttributes attributes p b = .ok (q, c) ∧ q.Room U :=
  exists_putItems Attribute.put (fun a mem p b room => by
    obtain ⟨i, q, added, room, -⟩ := Pool.exists_addUtf8 supply room (named a mem)
    exact ⟨q, _, bind_eq_ok.mpr ⟨_, added, rfl⟩, room⟩) room

theorem exists_putFields {fields : List FieldDraft}
    (named : ∀ d ∈ fields, ∀ a ∈ d.attributes, .text a.name ∈ U) (room : p.Room U) :
    ∃ q c, Encoder.putFields fields p b = .ok (q, c) ∧ q.Room U :=
  exists_putItems FieldDraft.put
    (fun d mem _ _ room => exists_putAttributes supply (named d mem) room) room

theorem exists_putMethods {methods : List MethodDraft}
    (named : ∀ d ∈ methods, ∀ a ∈ d.attributes, .text a.name ∈ U) (room : p.Room U) :
    ∃ q c, Encoder.putMethods methods p b = .ok (q, c) ∧ q.Room U :=
  exists_putItems MethodDraft.put
    (fun d mem _ _ room => exists_putAttributes supply (named d mem) room) room

end Written

/-- The bytes are those of a class file whose constant pool counts `count` indexes. -/
def CountsIndexes (bytes : ByteArray) (count : UInt16) : Prop := scanU2 bytes 8 = .ok (count, 10)

/-- The count of the pool stands behind the magic number and the version. -/
theorem countsIndexes_put {q : Pool} (hq : q.WellFormed) {start : Buffer} (eight : start.size = 8)
    (b : Buffer) : CountsIndexes ((q.put start).append b).bytes q.next := by
  have all : ((q.put start).append b).bytes.data.toList =
      start.toList ++ (bytesU2 q.next ++ (q.items.flatMap PoolItem.encode ++ b.toList)) := by
    have count : (tableOf q.items).size.toUInt16 = q.next := by
      rw [show (tableOf q.items).size = q.next.toNat from hq.size]
      exact UInt16.ofNat_toNat
    show Buffer.toList _ = _
    rw [Buffer.toList_append, Pool.toList_put hq, encodePool, count]
    simp only [List.append_assoc]
  have held := HoldsAt.self ((q.put start).append b).bytes
  rw [all] at held
  have behind := held.right.left
  rw [Buffer.length_toList, eight] at behind
  exact scanU2_eq_ok.mpr ⟨behind, rfl⟩

include supply in
/-- The file of a class that can be stored is written, with no more indexes than the supply
has. -/
theorem exists_encodeClass {s : ClassStream} (stored : s.Storable U) :
    ∃ bytes count, encodeClass s.events = .ok bytes ∧ CountsIndexes bytes count ∧
      count.toNat ≤ 1 + totalSlots U := by
  obtain ⟨e, told, room⟩ := Encoder.succeeds_events supply stored
  have holds := Encoder.holds_of_ofEvents stored.writable told
  obtain ⟨d, header, held⟩ := holds.header
  have fieldCount : e.fields.size ≤ 0xFFFF := by
    rw [← Array.length_toList, holds.fields.length_eq]
    exact stored.fieldCount
  have methodCount : e.methods.size ≤ 0xFFFF := by
    rw [← Array.length_toList, holds.methods.length_eq]
    exact stored.methodCount
  have fields : ∀ x ∈ e.fields.toList, ∀ a ∈ x.attributes, .text a.name ∈ U := by
    intro x mem
    obtain ⟨f, mem', holds⟩ := exists_of_forall₂ holds.fields mem
    exact holds.named (stored.fields f mem')
  have methods : ∀ x ∈ e.methods.toList, ∀ a ∈ x.attributes, .text a.name ∈ U := by
    intro x mem
    obtain ⟨m, mem', holds⟩ := exists_of_forall₂ holds.methods mem
    exact holds.named (stored.methods m mem')
  obtain ⟨p₁, b₁, first, room⟩ := exists_putFields supply fields room
  obtain ⟨p₂, b₂, second, room⟩ := exists_putMethods supply methods room
  obtain ⟨p₃, b₃, third, room⟩ := exists_putAttributes supply (holds.named stored held) room
  have grows := (putFields_spec holds.pool first).1
  have grows := (putMethods_spec grows.wellFormed second).1
  have grows := (putAttributes_spec grows.wellFormed third).1
  have body : e.body d = .ok (p₃, b₃) :=
    bind_eq_ok.mpr ⟨_, first, bind_eq_ok.mpr ⟨_, second, third⟩⟩
  have eight : (((Buffer.empty.pushU4 classMagic).pushU2 (d.version >>> 16).toUInt16).pushU2
      d.version.toUInt16).size = 8 := rfl
  refine ⟨_, p₃.next, ?_, countsIndexes_put grows.wellFormed eight b₃, ?_⟩
  · refine bind_eq_ok.mpr ⟨e, told, ?_⟩
    rw [Encoder.toBytes, header]
    simp only [if_pos fieldCount, if_pos methodCount]
    exact bind_eq_ok.mpr ⟨_, body, rfl⟩
  · exact Nat.le_trans (Nat.le_add_right _ _) room

end ClassAbi
