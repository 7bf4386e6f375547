import ClassAbi.Proofs.WrittenMembers

/-!
# Classes under construction

`Encoder.Collects` relates an encoder to the class that its events have told so
far.  The header establishes it, and each annotation, field and method keeps it
for the class with that part.  So the encoder after the events of a whole class
has collected the class (`collects_of_ofEvents`), and every index that it has
kept stands for what was told in the constant pool at the end.  It `Holds` the
class if the class can be written (`holds_of_ofEvents`).
-/

namespace ClassAbi

/-! ## The header -/

/-- The draft is the header. -/
structure HeaderDraft.Holds (t : ConstantTable) (d : HeaderDraft) (h : ClassHeader) : Prop where
  version : d.version = h.version
  access : d.access = h.access
  thisClass : t.classNameAt d.thisClass = .ok h.name
  superClass : Option.Rel (fun i name => t.classNameAt i = .ok name) d.superClass h.superName
  signature : Option.Rel (fun i s => t.utf8At i = .ok s) d.signature h.signature
  interfaces : List.Forall₂ (fun i name => t.classNameAt i = .ok name) d.interfaces
    (h.interfaces.getD [])

theorem HeaderDraft.Holds.mono {t u : ConstantTable} (within : t.Within u) {d : HeaderDraft}
    {h : ClassHeader} (holds : d.Holds t h) : d.Holds u h where
  version := holds.version
  access := holds.access
  thisClass := within.classNameAt holds.thisClass
  superClass := rel_mono within.classNameAt holds.superClass
  signature := rel_mono within.utf8At holds.signature
  interfaces := holds.interfaces.imp fun _ _ => within.classNameAt

namespace Encoder

/-- The encoder has collected the class. -/
structure Collects (e : Encoder) (s : ClassStream) : Prop where
  pool : e.pool.WellFormed
  header : ∃ d, e.header = some d ∧ d.Holds e.pool.table s.header
  annotations : e.annotations.Collects e.pool.table s.annotations
  fields : List.Forall₂ (FieldDraft.Collects e.pool.table) e.fields.toList s.fields
  methods : List.Forall₂ (MethodDraft.Collects e.pool.table) e.methods.toList s.methods

theorem visitHeader_spec {e : Encoder} {h : ClassHeader}
    (visited : (∅ : Encoder).visitHeader h = .ok e) : e.Collects ⟨h, []⟩ := by
  obtain ⟨⟨name, p₁⟩, hname, visited⟩ := bind_eq_ok.mp visited
  obtain ⟨⟨superName, p₂⟩, hsuper, visited⟩ := bind_eq_ok.mp visited
  obtain ⟨⟨signature, p₃⟩, hsignature, visited⟩ := bind_eq_ok.mp visited
  obtain ⟨⟨interfaces, p₄⟩, hinterfaces, visited⟩ := bind_eq_ok.mp visited
  obtain ⟨grows₁, name⟩ := Pool.addClass_spec Pool.wellFormed_empty hname
  obtain ⟨grows₂, superName⟩ := addOptional_spec (r := fun t i s => t.classNameAt i = .ok s)
    grows₁.wellFormed (fun _ added => Pool.addClass_spec grows₁.wellFormed added) hsuper
  obtain ⟨grows₃, signature⟩ := addOptional_spec (r := fun t i s => t.utf8At i = .ok s)
    grows₂.wellFormed (fun _ added => Pool.addUtf8_spec grows₂.wellFormed added) hsignature
  obtain ⟨grows₄, interfaces⟩ := addClasses_spec grows₃.wellFormed hinterfaces
  cases visited
  have after := grows₃.trans grows₄
  exact {
    pool := grows₄.wellFormed
    header := ⟨_, rfl, {
      version := rfl
      access := rfl
      thisClass := (grows₂.trans after).within.classNameAt name
      superClass := rel_mono after.within.classNameAt superName
      signature := rel_mono grows₄.within.utf8At signature
      interfaces := interfaces }⟩
    annotations := AnnotationTables.collects_empty _
    fields := .nil
    methods := .nil }

/-- A pool that has grown is one for the same class. -/
theorem Collects.grow {e : Encoder} {s : ClassStream} (h : e.Collects s) {p : Pool}
    (grows : e.pool.Grows p) : ({ e with pool := p } : Encoder).Collects s where
  pool := grows.wellFormed
  header := by
    obtain ⟨d, there, holds⟩ := h.header
    exact ⟨d, there, holds.mono grows.within⟩
  annotations := h.annotations.mono grows.within
  fields := h.fields.imp fun _ _ collects => collects.mono grows.within
  methods := h.methods.imp fun _ _ collects => collects.mono grows.within

/-- One part of a class. -/
theorem run_classPart {e e' : Encoder} {s : ClassStream} {part : ClassPart}
    (collects : e.Collects s) (h : e.run part.events = .ok e') :
    e'.Collects (s.addPart part) := by
  cases part with
  | annotate a =>
    rw [ClassPart.events, run_opening, step] at h
    have has : e.HasTarget (.ofClass a.visible) := trivial
    obtain ⟨p, bs, grows, room, spelled, rfl⟩ := run_annotation has trivial collects.pool h
    have collects := collects.grow grows
    refine ⟨collects.pool, collects.header, ?_, ?_, ?_⟩
    · rw [ClassStream.annotations_addPart]
      exact collects.annotations.add room spelled
    · simpa [modifyTable, ClassStream.fields_addPart, ClassPart.field?] using collects.fields
    · simpa [modifyTable, ClassStream.methods_addPart, ClassPart.method?] using collects.methods
  | field f =>
    obtain ⟨p, d, grows, rfl, field⟩ := run_field collects.pool h
    have collects := collects.grow grows
    refine ⟨collects.pool, collects.header, ?_, ?_, ?_⟩
    · simpa [ClassStream.annotations_addPart, ClassPart.annotation?] using collects.annotations
    · rw [ClassStream.fields_addPart, Array.toList_push]
      exact List.rel_append collects.fields (.cons field .nil)
    · simpa [ClassStream.methods_addPart, ClassPart.method?] using collects.methods
  | method m =>
    obtain ⟨p, d, grows, rfl, method⟩ := run_method collects.pool h
    have collects := collects.grow grows
    refine ⟨collects.pool, collects.header, ?_, ?_, ?_⟩
    · simpa [ClassStream.annotations_addPart, ClassPart.annotation?] using collects.annotations
    · simpa [ClassStream.fields_addPart, ClassPart.field?] using collects.fields
    · rw [ClassStream.methods_addPart, Array.toList_push]
      exact List.rel_append collects.methods (.cons method .nil)

/-- Parts of a class. -/
theorem run_classParts {parts : List ClassPart} {e e' : Encoder} {s : ClassStream}
    (collects : e.Collects s) (h : e.run (parts.flatMap ClassPart.events) = .ok e') :
    e'.Collects { s with parts := s.parts ++ parts } := by
  induction parts generalizing e s with
  | nil =>
    cases h
    rw [List.append_nil]
    exact collects
  | cons part parts ih =>
    rw [List.flatMap_cons, run_append] at h
    obtain ⟨e₁, first, h⟩ := bind_eq_ok.mp h
    have collects := ih (run_classPart collects first) h
    rw [ClassStream.addPart, List.append_assoc] at collects
    exact collects

/-- The encoder after the events of a class has collected the class. -/
theorem collects_of_ofEvents {e : Encoder} {s : ClassStream} (h : ofEvents s.events = .ok e) :
    e.Collects s := by
  rw [ofEvents, ClassStream.events, run_cons] at h
  obtain ⟨e₁, header, h⟩ := bind_eq_ok.mp h
  have collects := visitHeader_spec header
  rw [run_append] at h
  obtain ⟨e₂, told, h⟩ := bind_eq_ok.mp h
  have collects := run_classParts collects told
  cases h
  exact collects

/-! ## Classes that can be written -/

/-- The encoder is the class. -/
structure Holds (e : Encoder) (s : ClassStream) : Prop where
  pool : e.pool.WellFormed
  header : ∃ d, e.header = some d ∧ d.Holds e.pool.table s.header
  annotations : e.annotations.Holds e.pool.table s.annotations
  fields : List.Forall₂ (FieldDraft.Holds e.pool.table) e.fields.toList s.fields
  methods : List.Forall₂ (MethodDraft.Holds e.pool.table) e.methods.toList s.methods

/-- The encoder after the events of a class that can be written is the class. -/
theorem holds_of_ofEvents {e : Encoder} {s : ClassStream} (writable : s.Writable)
    (h : ofEvents s.events = .ok e) : e.Holds s :=
  have collects := collects_of_ofEvents h
  { collects with
    annotations := collects.annotations.holds writable.annotations
    fields := forall₂_imp_mem collects.fields fun f mem _ held => held.holds (writable.fields f mem)
    methods := forall₂_imp_mem collects.methods fun m mem _ held =>
      held.holds (writable.methods m mem) }

end Encoder

end ClassAbi
