import ClassAbi.Proofs.ReadBack
import ClassAbi.Proofs.WrittenValues

/-!
# Members under construction

A draft of a field or a method collects what the events so far have told, by
indexes of the pool.  `FieldDraft.Collects` and `MethodDraft.Collects` relate a
draft to the member that was told.  Each part of a member takes a draft that has
collected what came before to one that has also collected the part, and the pool
grows.

Anything that can be told is collected.  A draft `Holds` a member if a reader can
also make of it what was told: if the annotations nest no deeper than a reader
follows, and an initial value is of the kind of its field.
-/

namespace ClassAbi

/-! ## One annotation -/

/-- The bytes spell the annotation.  Its values may nest deeper than a reader follows. -/
def Annotation.SpelledBy (t : ConstantTable) (a : Annotation) (bs : Text) : Prop :=
  a.values.length ≤ 0xFFFF ∧
    ∃ i items, t.utf8At i = .ok a.descriptor ∧ a.values.EncodedBy t true items ∧
      bs = bytesU2 i ++ (bytesU2 a.values.length.toUInt16 ++ items)

namespace Encoder

theorem run_opening (e : Encoder) (a : Annotation) (opening : Text → Bool → Event) :
    e.run (a.events opening) = e.step (opening a.descriptor a.visible) >>= fun e =>
      e.run ((a.values.events ++ [ValueEvent.close]).map .value) :=
  rfl

/-- An annotation that begins counts as one more and is then written where its list opens,
behind its type. -/
theorem annotate_eq_writing {e : Encoder} {target : ValueTarget} {descriptor : Text} {type : UInt16}
    {p : Pool} (isTable : IsTable target) (room : (e.table target).count < 0xFFFF)
    (added : e.pool.addUtf8 descriptor = .ok (type, p)) {b : Buffer}
    (hb : b = (e.table target).entries.pushText (bytesU2 type)) :
    e.annotate target descriptor = .ok ((e.modifyTable
      (fun t => { t with count := (e.table target).count + 1 }) target).writing target p
        ((target, ⟨true, some b.size, 0⟩) :: e.opened) (b.pushText (bytesU2 0))) := by
  have size : b.size = (e.table target).entries.size + 2 := by
    rw [hb]
    exact Buffer.size_pushText ..
  rw [writing_modifyTable p _ _ isTable, size, hb]
  simp only [annotate, if_pos room]
  refine bind_eq_ok.mpr ⟨_, added, congrArg Except.ok ?_⟩
  exact modifyTable_congr rfl

/-- The events of an annotation spell it behind what the table of the target has. -/
theorem run_annotation {e e' : Encoder} {target : ValueTarget} {a : Annotation}
    (has : e.HasTarget target) (isTable : IsTable target) (hp : e.pool.WellFormed)
    (h : (e.annotate target a.descriptor >>= fun e =>
      e.run ((a.values.events ++ [ValueEvent.close]).map .value)) = .ok e') :
    ∃ p bs, e.pool.Grows p ∧ (e.table target).count.toNat < 0xFFFF ∧
      a.readBack.SpelledBy p.table bs ∧
      e' = { e with pool := p }.modifyTable (fun t => ⟨t.count + 1, t.entries.pushText bs⟩)
        target := by
  obtain ⟨room, type, p, added⟩ : (e.table target).count < 0xFFFF ∧
      ∃ type p, e.pool.addUtf8 a.descriptor = .ok (type, p) := by
    obtain ⟨e₁, opened, -⟩ := bind_eq_ok.mp h
    simp only [annotate] at opened
    split at opened
    · next room =>
      obtain ⟨⟨type, p⟩, added, -⟩ := bind_eq_ok.mp opened
      exact ⟨room, type, p, added⟩
    · cases opened
  obtain ⟨grows, found⟩ := Pool.addUtf8_spec hp added
  obtain ⟨b, hb⟩ : ∃ b, b = (e.table target).entries.pushText (bytesU2 type) := ⟨_, rfl⟩
  have has' := hasTarget_modifyTable has fun t => { t with count := (e.table target).count + 1 }
  rw [annotate_eq_writing isTable room added hb, ok_bind, List.map_append, List.map_singleton] at h
  obtain ⟨p', items, rfl, grows', count, encoded⟩ :=
    run_list a.values has' grows.wellFormed (run_values a.values) h
  have length : a.readBack.values.length = a.values.length :=
    Values.length_readBack true a.values
  refine ⟨p', bytesU2 type ++ (bytesU2 a.values.length.toUInt16 ++ items), grows.trans grows',
    room, ⟨?_, type, items, grows'.within.utf8At found, encoded, ?_⟩, ?_⟩
  · rw [length]
    exact count
  · rw [length]
  · rw [writing_modifyTable p' _ _ isTable, hb, Buffer.pushText_pushText]
    exact modifyTable_congr rfl

/-- The events of a default append encodings of its values to the buffer of the target. -/
theorem run_default {e e' : Encoder} {i : Nat} {vs : Values}
    (has : e.HasTarget (.ofDefault i)) (hp : e.pool.WellFormed)
    (h : ({ e with opened := (.ofDefault i, .ofDefault) :: e.opened } : Encoder).run
      ((vs.events ++ [ValueEvent.close]).map .value) = .ok e') :
    ∃ p bs, e.pool.Grows p ∧ (vs.readBack false).EncodedBy p.table false bs ∧
      e' = { e with pool := p }.setBuffer ((e.buffer (.ofDefault i)).pushText bs)
        (.ofDefault i) := by
  have begun := writing_default (e := e) e.pool ((.ofDefault i, .ofDefault) :: e.opened) i
  rw [← begun, List.map_append, run_append] at h
  obtain ⟨e₁, inner, h⟩ := bind_eq_ok.mp h
  obtain ⟨p, items, rfl, grows, -, encoded⟩ := run_values vs has hp inner
  refine ⟨p, items, grows, encoded, ?_⟩
  obtain ⟨e₂, closed, h⟩ := bind_eq_ok.mp h
  obtain ⟨ls, p', b', written, rfl⟩ := step_writing has closed
  cases written
  cases h
  rfl

end Encoder

/-! ## Tables of annotations -/

section Tables

variable {t u : ConstantTable}

/-- Only what is said of the items that are there matters. -/
theorem EachEncodedBy.imp {α : Type} {encodes encodes' : α → Text → Prop} {as : List α} {bs : Text}
    (h : EachEncodedBy encodes as bs) (imp : ∀ a ∈ as, ∀ {bs}, encodes a bs → encodes' a bs) :
    EachEncodedBy encodes' as bs := by
  induction as generalizing bs with
  | nil => exact h
  | cons a as ih =>
    obtain ⟨front, back, item, rest, rfl⟩ := h
    exact ⟨front, back, imp a List.mem_cons_self item,
      ih rest fun x hx => imp x (List.mem_cons_of_mem a hx), rfl⟩

theorem EachEncodedBy.mono {α : Type} {encodes encodes' : α → Text → Prop}
    (imp : ∀ {a bs}, encodes a bs → encodes' a bs) {as : List α} {bs : Text}
    (h : EachEncodedBy encodes as bs) : EachEncodedBy encodes' as bs :=
  h.imp fun _ _ => imp

theorem Annotation.SpelledBy.mono (within : t.Within u) {a : Annotation} {bs : Text}
    (h : a.SpelledBy t bs) : a.SpelledBy u bs := by
  obtain ⟨count, i, items, found, encoded, rfl⟩ := h
  exact ⟨count, i, items, within.utf8At found, encoded.mono within, rfl⟩

theorem Annotation.EncodedBy.mono (within : t.Within u) {visible : Bool} {a : Annotation}
    {bs : Text} (h : a.EncodedBy t visible bs) : a.EncodedBy u visible bs :=
  ⟨h.1, h.2.1, SpelledBy.mono within h.2.2⟩

/-- The table has collected the annotations. -/
structure AnnotationTable.Collects (t : ConstantTable) (table : AnnotationTable)
    (as : List Annotation) : Prop where
  count : table.count.toNat = as.length
  entries : EachEncodedBy (fun a => Annotation.SpelledBy t a) (as.map Annotation.readBack)
    table.entries.toList

/-- The tables have collected the annotations of an owner. -/
def AnnotationTables.Collects (t : ConstantTable) (tables : AnnotationTables)
    (as : List Annotation) : Prop :=
  ∀ visible, (tables.get visible).Collects t (as.filter (·.visible == visible))

theorem AnnotationTables.collects_empty (t : ConstantTable) :
    AnnotationTables.empty.Collects t [] := by
  intro visible
  cases visible <;> exact ⟨rfl, rfl⟩

theorem AnnotationTable.Collects.mono (within : t.Within u) {table : AnnotationTable}
    {as : List Annotation} (h : table.Collects t as) : table.Collects u as :=
  ⟨h.count, h.entries.mono fun spelled => spelled.mono within⟩

theorem AnnotationTables.Collects.mono (within : t.Within u) {tables : AnnotationTables}
    {as : List Annotation} (h : tables.Collects t as) : tables.Collects u as :=
  fun visible => (h visible).mono within

/-- A table that takes one more annotation. -/
theorem AnnotationTable.Collects.add {table : AnnotationTable} {as : List Annotation}
    {a : Annotation} {bs : Text} (h : table.Collects t as)
    (room : table.count.toNat < 0xFFFF) (spelled : a.readBack.SpelledBy t bs) :
    AnnotationTable.Collects t ⟨table.count + 1, table.entries.pushText bs⟩ (as ++ [a]) where
  count := by
    have one : (1 : UInt16).toNat = 1 := rfl
    rw [UInt16.toNat_add, one, h.count, List.length_append, List.length_singleton]
    have := h.count
    omega
  entries := by
    rw [List.map_append, Buffer.toList_pushText]
    exact h.entries.append (.singleton spelled)

theorem AnnotationTables.Collects.add {tables : AnnotationTables} {as : List Annotation}
    {a : Annotation} {bs : Text} (h : tables.Collects t as)
    (room : (tables.get a.visible).count.toNat < 0xFFFF) (spelled : a.readBack.SpelledBy t bs) :
    (tables.modify a.visible fun x => ⟨x.count + 1, x.entries.pushText bs⟩).Collects t
      (as ++ [a]) := by
  intro visible
  rw [List.filter_append]
  by_cases same : visible = a.visible
  · subst same
    rw [AnnotationTables.get_modify, List.filter_singleton, beq_self_eq_true]
    exact (h a.visible).add room spelled
  · have differs : (a.visible == visible) = false := beq_eq_false_iff_ne.mpr fun h => same h.symm
    rw [AnnotationTables.get_modify_of_ne _ same, List.filter_singleton, differs]
    simpa using h visible

/-! ### Annotations that a reader can follow -/

/-- The table is the annotations, all of one visibility. -/
structure AnnotationTable.Holds (t : ConstantTable) (visible : Bool) (table : AnnotationTable)
    (as : List Annotation) : Prop where
  count : table.count.toNat = as.length
  entries : EachEncodedBy (fun a => Annotation.EncodedBy t visible a) (as.map Annotation.readBack)
    table.entries.toList

/-- The tables are the annotations of an owner. -/
def AnnotationTables.Holds (t : ConstantTable) (tables : AnnotationTables) (as : List Annotation) :
    Prop :=
  ∀ visible, (tables.get visible).Holds t visible (as.filter (·.visible == visible))

theorem AnnotationTables.Holds.mono (within : t.Within u) {tables : AnnotationTables}
    {as : List Annotation} (h : tables.Holds t as) : tables.Holds u as :=
  fun visible => ⟨(h visible).count, (h visible).entries.mono fun encoded => encoded.mono within⟩

theorem AnnotationTables.Holds.collects {tables : AnnotationTables} {as : List Annotation}
    (h : tables.Holds t as) : tables.Collects t as :=
  fun visible => ⟨(h visible).count, (h visible).entries.mono fun encoded => encoded.2.2⟩

theorem AnnotationTables.Collects.holds {tables : AnnotationTables} {as : List Annotation}
    (h : tables.Collects t as) (readable : Readable as) : tables.Holds t as := by
  refine fun visible => ⟨(h visible).count, (h visible).entries.imp fun x here _ spelled => ?_⟩
  obtain ⟨a, mem, rfl⟩ := List.mem_map.mp here
  obtain ⟨mem, shown⟩ := List.mem_filter.mp mem
  exact ⟨beq_iff_eq.mp shown, (Values.nesting_readBack true a.values).trans_le (readable a mem),
    spelled⟩

end Tables

/-! ## Texts and classes -/

section Indexes

variable {p q : Pool}

/-- What is added if it is there has its index. -/
theorem Encoder.addOptional_spec {α β : Type} {add : Pool → α → Except EncodeFault (β × Pool)}
    {r : ConstantTable → β → α → Prop} {a : Option α} {index : Option β} (hp : p.WellFormed)
    (hadd : ∀ {x i}, a = some x → add p x = .ok (i, q) → p.Grows q ∧ r q.table i x)
    (h : addOptional add p a = .ok (index, q)) :
    p.Grows q ∧ Option.Rel (r q.table) index a := by
  cases a with
  | none =>
    cases h
    exact ⟨hp.grows, .none⟩
  | some x =>
    obtain ⟨⟨i, p'⟩, added, h⟩ := bind_eq_ok.mp h
    cases h
    obtain ⟨grows, found⟩ := hadd rfl added
    exact ⟨grows, .some found⟩

/-- Classes are added in order. -/
theorem Encoder.addClasses_spec {names : List Text} {indexes : List UInt16} (hp : p.WellFormed)
    (h : addClasses p names = .ok (indexes, q)) :
    p.Grows q ∧ List.Forall₂ (fun i name => q.table.classNameAt i = .ok name) indexes names := by
  -- The fold collects the indexes in reverse, behind those that are there.
  have each : ∀ (names : List Text) (before : List UInt16) {p : Pool} {all : List UInt16},
      p.WellFormed →
      names.foldlM (fun (x : List UInt16 × Pool) name => do
        let added ← x.2.addClass name
        return (added.1 :: x.1, added.2)) (before, p) = (.ok (all, q) : Except EncodeFault _) →
      p.Grows q ∧ ∃ indexes, all = indexes.reverse ++ before ∧
        List.Forall₂ (fun i name => q.table.classNameAt i = .ok name) indexes names := by
    intro names
    induction names with
    | nil =>
      intro before p all hp h
      cases h
      exact ⟨hp.grows, [], rfl, .nil⟩
    | cons name names ih =>
      intro before p all hp h
      rw [List.foldlM_cons] at h
      obtain ⟨⟨_, _⟩, step, h⟩ := bind_eq_ok.mp h
      obtain ⟨⟨i, r⟩, added, step⟩ := bind_eq_ok.mp step
      cases step
      obtain ⟨grows, found⟩ := Pool.addClass_spec hp added
      obtain ⟨grows', indexes, rfl, others⟩ := ih (i :: before) grows.wellFormed h
      refine ⟨grows.trans grows', i :: indexes, ?_, .cons (grows'.within.classNameAt found) others⟩
      simp
  obtain ⟨⟨all, r⟩, collected, h⟩ := bind_eq_ok.mp h
  cases h
  obtain ⟨grows, indexes, rfl, found⟩ := each names [] hp collected
  rw [List.append_nil, List.reverse_reverse]
  exact ⟨grows, found⟩

theorem rel_mono {α β : Type} {r r' : α → β → Prop} (imp : ∀ {a b}, r a b → r' a b) {a : Option α}
    {b : Option β} (h : Option.Rel r a b) : Option.Rel r' a b := by
  cases h with
  | none => exact .none
  | some related => exact .some (imp related)

end Indexes

/-! ## Fields -/

/-- The draft has collected the field.  An initial value of another kind than the field has an
index too. -/
structure FieldDraft.Collects (t : ConstantTable) (d : FieldDraft) (f : Field) : Prop where
  access : d.access = f.header.access
  name : t.utf8At d.name = .ok f.header.name
  descriptor : t.utf8At d.descriptor = .ok f.header.descriptor
  signature : Option.Rel (fun i s => t.utf8At i = .ok s) d.signature f.header.signature
  value : Option.Rel (fun i c => c.FitsField f.header.descriptor →
    t.constantAt f.header.descriptor i = .ok c) d.value f.header.value
  annotations : d.annotations.Collects t f.annotations

theorem FieldDraft.Collects.mono {t u : ConstantTable} (within : t.Within u) {d : FieldDraft}
    {f : Field} (h : d.Collects t f) : d.Collects u f where
  access := h.access
  name := within.utf8At h.name
  descriptor := within.utf8At h.descriptor
  signature := rel_mono within.utf8At h.signature
  value := rel_mono (fun found fits => within.constantAt (found fits)) h.value
  annotations := h.annotations.mono within

/-- The draft is the field. -/
structure FieldDraft.Holds (t : ConstantTable) (d : FieldDraft) (f : Field) : Prop where
  access : d.access = f.header.access
  name : t.utf8At d.name = .ok f.header.name
  descriptor : t.utf8At d.descriptor = .ok f.header.descriptor
  signature : Option.Rel (fun i s => t.utf8At i = .ok s) d.signature f.header.signature
  value : Option.Rel (fun i c => t.constantAt f.header.descriptor i = .ok c) d.value f.header.value
  annotations : d.annotations.Holds t f.annotations

theorem FieldDraft.Holds.mono {t u : ConstantTable} (within : t.Within u) {d : FieldDraft}
    {f : Field} (h : d.Holds t f) : d.Holds u f where
  access := h.access
  name := within.utf8At h.name
  descriptor := within.utf8At h.descriptor
  signature := rel_mono within.utf8At h.signature
  value := rel_mono within.constantAt h.value
  annotations := h.annotations.mono within

theorem FieldDraft.Collects.holds {t : ConstantTable} {d : FieldDraft} {f : Field}
    (h : d.Collects t f) (writable : f.Writable) : d.Holds t f :=
  { h with
    value := by
      have fits := writable.value
      have value := h.value
      generalize f.header.value = c at fits value
      generalize d.value = index at value
      cases value with
      | none => exact .none
      | some found => exact .some (found (fits _ rfl))
    annotations := h.annotations.holds writable.annotations }

namespace Encoder

theorem visitField_spec {e e' : Encoder} {h : FieldHeader} (hp : e.pool.WellFormed)
    (visited : e.visitField h = .ok e') :
    ∃ p d, e.pool.Grows p ∧ e' = { e with pool := p, fields := e.fields.push d } ∧
      d.Collects p.table ⟨h, []⟩ := by
  obtain ⟨⟨name, p₁⟩, hname, visited⟩ := bind_eq_ok.mp visited
  obtain ⟨⟨descriptor, p₂⟩, hdescriptor, visited⟩ := bind_eq_ok.mp visited
  obtain ⟨⟨signature, p₃⟩, hsignature, visited⟩ := bind_eq_ok.mp visited
  obtain ⟨⟨value, p₄⟩, hvalue, visited⟩ := bind_eq_ok.mp visited
  obtain ⟨grows₁, name⟩ := Pool.addUtf8_spec hp hname
  obtain ⟨grows₂, descriptor⟩ := Pool.addUtf8_spec grows₁.wellFormed hdescriptor
  obtain ⟨grows₃, signature⟩ := addOptional_spec (r := fun t i s => t.utf8At i = .ok s)
    grows₂.wellFormed (fun _ added => Pool.addUtf8_spec grows₂.wellFormed added) hsignature
  obtain ⟨grows₄, value⟩ := addOptional_spec
    (r := fun t i c => c.FitsField h.descriptor → t.constantAt h.descriptor i = .ok c)
    grows₃.wellFormed (fun _ added => Pool.addConstant_spec grows₃.wellFormed added) hvalue
  cases visited
  have after := grows₃.trans grows₄
  refine ⟨p₄, _, grows₁.trans (grows₂.trans after), rfl, rfl, ?_, after.within.utf8At descriptor,
    rel_mono grows₄.within.utf8At signature, value, AnnotationTables.collects_empty _⟩
  exact (grows₂.trans after).within.utf8At name

/-- An annotation of the last field. -/
theorem run_fieldAnnotation {e e' : Encoder} {before : Array FieldDraft} {d : FieldDraft}
    {f : Field} {a : Annotation} (hfields : e.fields = before.push d) (hp : e.pool.WellFormed)
    (collects : d.Collects e.pool.table f) (h : e.run (a.events .annotateField) = .ok e') :
    ∃ p d', e.pool.Grows p ∧ e' = { e with pool := p, fields := before.push d' } ∧
      d'.Collects p.table { f with annotations := f.annotations ++ [a] } := by
  have last : e.fields.size - 1 = before.size := by simp [hfields]
  rw [run_opening, step, last] at h
  obtain ⟨p, bs, grows, room, spelled, rfl⟩ :=
    run_annotation (hasTarget_ofField hfields a.visible) trivial hp h
  rw [table_ofField hfields] at room
  refine ⟨p, { d with annotations := d.annotations.modify a.visible fun t =>
    ⟨t.count + 1, t.entries.pushText bs⟩ }, grows, ?_, ?_⟩
  · simp only [modifyTable, hfields, modify_push]
  · have collects := collects.mono grows.within
    exact { collects with annotations := collects.annotations.add room spelled }

/-- Annotations of the last field. -/
theorem run_fieldAnnotations {before : Array FieldDraft} {as : List Annotation}
    {e e' : Encoder} {d : FieldDraft} {f : Field} (hfields : e.fields = before.push d)
    (hp : e.pool.WellFormed) (collects : d.Collects e.pool.table f)
    (h : e.run (as.flatMap (·.events .annotateField)) = .ok e') :
    ∃ p d', e.pool.Grows p ∧ e' = { e with pool := p, fields := before.push d' } ∧
      d'.Collects p.table { f with annotations := f.annotations ++ as } := by
  induction as generalizing e d f with
  | nil =>
    cases h
    refine ⟨e'.pool, d, hp.grows, ?_, ?_⟩
    · rw [← hfields]
    · rw [List.append_nil]
      exact collects
  | cons a as ih =>
    rw [List.flatMap_cons, run_append] at h
    obtain ⟨e₁, first, h⟩ := bind_eq_ok.mp h
    obtain ⟨p, d₁, grows, rfl, collects⟩ := run_fieldAnnotation hfields hp collects first
    obtain ⟨p', d', grows', rfl, collects⟩ := ih rfl grows.wellFormed collects h
    refine ⟨p', d', grows.trans grows', rfl, ?_⟩
    rw [List.append_assoc] at collects
    exact collects

/-- The events of a field add a draft that has collected the field. -/
theorem run_field {e e' : Encoder} {f : Field} (hp : e.pool.WellFormed)
    (h : e.run f.events = .ok e') :
    ∃ p d, e.pool.Grows p ∧ e' = { e with pool := p, fields := e.fields.push d } ∧
      d.Collects p.table f := by
  rw [Field.events, run_cons] at h
  obtain ⟨e₁, opened, h⟩ := bind_eq_ok.mp h
  obtain ⟨p, d, grows, rfl, collects⟩ := visitField_spec hp opened
  rw [run_append] at h
  obtain ⟨e₂, annotated, h⟩ := bind_eq_ok.mp h
  obtain ⟨p', d', grows', rfl, collects⟩ :=
    run_fieldAnnotations rfl grows.wellFormed collects annotated
  cases h
  exact ⟨p', d', grows.trans grows', rfl, collects⟩

end Encoder

/-! ## Methods -/

/-- Values without names are encoded one behind the other. -/
theorem Values.EncodedBy.each {t : ConstantTable} : ∀ {vs : Values} {bs : Text},
    (vs.readBack false).EncodedBy t false bs →
      EachEncodedBy (fun v => Value.EncodedBy t v) (vs.toList.map Value.readBack) bs
  | .nil, _, h => h
  | .cons name value rest, _, h => by
    rw [Values.readBack, Values.EncodedBy] at h
    obtain ⟨front, item, back, hname, hitem, hback, rfl⟩ := h
    rw [hname.2, List.nil_append]
    exact ⟨item, back, hitem, hback.each, rfl⟩

/-- The draft has collected the method. -/
structure MethodDraft.Collects (t : ConstantTable) (d : MethodDraft) (m : Method) : Prop where
  access : d.access = m.header.access
  name : t.utf8At d.name = .ok m.header.name
  descriptor : t.utf8At d.descriptor = .ok m.header.descriptor
  signature : Option.Rel (fun i s => t.utf8At i = .ok s) d.signature m.header.signature
  exceptions : Option.Rel (List.Forall₂ fun i name => t.classNameAt i = .ok name) d.exceptions
    m.header.exceptions
  defaults : EachEncodedBy (fun v => Value.EncodedBy t v) (m.defaultValues.map Value.readBack)
    d.defaults.toList
  annotations : d.annotations.Collects t m.annotations
  counts : ∀ visible, (if visible then d.visibleParameters else d.invisibleParameters) =
    (m.parameterCounts visible).getLast?.map Int.toNat
  countRange : ∀ visible, ∀ c ∈ m.parameterCounts visible, 0 ≤ c ∧ c ≤ 0xFF
  parameters : ∀ i, AnnotationTables.Collects t ((d.parameters[i]?).getD .empty)
    (m.annotationsOf i)
  parameterRange : ∀ x ∈ m.parameterAnnotations, 0 ≤ x.1 ∧ x.1 < 0xFF

theorem MethodDraft.Collects.mono {t u : ConstantTable} (within : t.Within u) {d : MethodDraft}
    {m : Method} (h : d.Collects t m) : d.Collects u m where
  access := h.access
  name := within.utf8At h.name
  descriptor := within.utf8At h.descriptor
  signature := rel_mono within.utf8At h.signature
  exceptions := rel_mono (fun found => found.imp fun _ _ => within.classNameAt) h.exceptions
  defaults := h.defaults.mono fun encoded => encoded.mono within
  annotations := h.annotations.mono within
  counts := h.counts
  countRange := h.countRange
  parameters := fun i => (h.parameters i).mono within
  parameterRange := h.parameterRange

/-- The draft is the method. -/
structure MethodDraft.Holds (t : ConstantTable) (d : MethodDraft) (m : Method) : Prop where
  access : d.access = m.header.access
  name : t.utf8At d.name = .ok m.header.name
  descriptor : t.utf8At d.descriptor = .ok m.header.descriptor
  signature : Option.Rel (fun i s => t.utf8At i = .ok s) d.signature m.header.signature
  exceptions : Option.Rel (List.Forall₂ fun i name => t.classNameAt i = .ok name) d.exceptions
    m.header.exceptions
  defaults : EachEncodedBy (fun v => Value.EncodedBy t v) (m.defaultValues.map Value.readBack)
    d.defaults.toList
  annotations : d.annotations.Holds t m.annotations
  counts : ∀ visible, (if visible then d.visibleParameters else d.invisibleParameters) =
    (m.parameterCounts visible).getLast?.map Int.toNat
  countRange : ∀ visible, ∀ c ∈ m.parameterCounts visible, 0 ≤ c ∧ c ≤ 0xFF
  parameters : ∀ i, AnnotationTables.Holds t ((d.parameters[i]?).getD .empty) (m.annotationsOf i)
  parameterRange : ∀ x ∈ m.parameterAnnotations, 0 ≤ x.1 ∧ x.1 < 0xFF

theorem MethodDraft.Holds.mono {t u : ConstantTable} (within : t.Within u) {d : MethodDraft}
    {m : Method} (h : d.Holds t m) : d.Holds u m where
  access := h.access
  name := within.utf8At h.name
  descriptor := within.utf8At h.descriptor
  signature := rel_mono within.utf8At h.signature
  exceptions := rel_mono (fun found => found.imp fun _ _ => within.classNameAt) h.exceptions
  defaults := h.defaults.mono fun encoded => encoded.mono within
  annotations := h.annotations.mono within
  counts := h.counts
  countRange := h.countRange
  parameters := fun i => (h.parameters i).mono within
  parameterRange := h.parameterRange

theorem MethodDraft.Holds.collects {t : ConstantTable} {d : MethodDraft} {m : Method}
    (h : d.Holds t m) : d.Collects t m :=
  { h with
    annotations := h.annotations.collects
    parameters := fun i => (h.parameters i).collects }

theorem MethodDraft.Collects.holds {t : ConstantTable} {d : MethodDraft} {m : Method}
    (h : d.Collects t m) (writable : m.Writable) : d.Holds t m :=
  { h with
    annotations := h.annotations.holds writable.annotations
    parameters := fun i => by
      refine (h.parameters i).holds fun a here => ?_
      obtain ⟨x, mem, rfl⟩ := List.mem_map.mp here
      exact writable.parameterAnnotations x.2
        (List.mem_map.mpr ⟨x, (List.mem_filter.mp mem).1, rfl⟩) }

/-! ### Parts that a draft takes -/

section Taken

variable {t : ConstantTable} {d : MethodDraft} {m : Method}

theorem MethodDraft.Collects.addDefault (h : d.Collects t m) {vs : Values} {bs : Text}
    (encoded : (vs.readBack false).EncodedBy t false bs) :
    MethodDraft.Collects t { d with defaults := d.defaults.pushText bs }
      (m.addPart (.default vs)) :=
  { h with
    defaults := by
      rw [Method.defaultValues_addPart, List.map_append, Buffer.toList_pushText]
      refine h.defaults.append ?_
      simpa [MethodPart.default?] using encoded.each
    annotations := by
      simpa [Method.annotations_addPart, MethodPart.annotation?] using h.annotations
    counts := by simpa [Method.parameterCounts_addPart, MethodPart.parameterCount?] using h.counts
    countRange := by
      simpa [Method.parameterCounts_addPart, MethodPart.parameterCount?] using h.countRange
    parameters := by
      simpa [Method.annotationsOf_addPart, MethodPart.parameterAnnotation?] using h.parameters
    parameterRange := by
      simpa [Method.parameterAnnotations_addPart, MethodPart.parameterAnnotation?]
        using h.parameterRange }

theorem MethodDraft.Collects.annotate (h : d.Collects t m) {a : Annotation} {bs : Text}
    (room : (d.annotations.get a.visible).count.toNat < 0xFFFF)
    (spelled : a.readBack.SpelledBy t bs) :
    MethodDraft.Collects t
      { d with annotations := d.annotations.modify a.visible fun t =>
          ⟨t.count + 1, t.entries.pushText bs⟩ }
      (m.addPart (.annotate a)) :=
  { h with
    defaults := by
      simpa [Method.defaultValues_addPart, MethodPart.default?] using h.defaults
    annotations := by
      rw [Method.annotations_addPart]
      exact h.annotations.add room spelled
    counts := by simpa [Method.parameterCounts_addPart, MethodPart.parameterCount?] using h.counts
    countRange := by
      simpa [Method.parameterCounts_addPart, MethodPart.parameterCount?] using h.countRange
    parameters := by
      simpa [Method.annotationsOf_addPart, MethodPart.parameterAnnotation?] using h.parameters
    parameterRange := by
      simpa [Method.parameterAnnotations_addPart, MethodPart.parameterAnnotation?]
        using h.parameterRange }

theorem MethodDraft.Collects.addParameterCount (h : d.Collects t m) {count : Int}
    (range : 0 ≤ count ∧ count ≤ 0xFF) (visible : Bool) :
    MethodDraft.Collects t
      (if visible then { d with visibleParameters := some count.toNat }
        else { d with invisibleParameters := some count.toNat })
      (m.addPart (.parameterCount count visible)) := by
  have inRange : ∀ v, ∀ c ∈ (m.addPart (.parameterCount count visible)).parameterCounts v,
      0 ≤ c ∧ c ≤ 0xFF := by
    intro v c hc
    rw [Method.parameterCounts_addPart, MethodPart.parameterCount?] at hc
    rcases List.mem_append.mp hc with hc | hc
    · exact h.countRange v c hc
    · split at hc
      · rw [Option.toList_some, List.mem_singleton] at hc
        rw [hc]
        exact range
      · cases hc
  -- The two visibilities differ in the number that changes, and in nothing else.
  cases visible
  all_goals exact
    { h with
      defaults := by
        simpa [Method.defaultValues_addPart, MethodPart.default?] using h.defaults
      annotations := by
        simpa [Method.annotations_addPart, MethodPart.annotation?] using h.annotations
      counts := by
        intro v
        have count := h.counts v
        rw [Method.parameterCounts_addPart, MethodPart.parameterCount?]
        cases v
        all_goals simp_all
      countRange := inRange
      parameters := by
        simpa [Method.annotationsOf_addPart, MethodPart.parameterAnnotation?] using h.parameters
      parameterRange := by
        simpa [Method.parameterAnnotations_addPart, MethodPart.parameterAnnotation?]
          using h.parameterRange }

/-- The method has tables for its first parameters up to number `k`. -/
def Encoder.extended (d : MethodDraft) (k : Nat) : MethodDraft :=
  { d with parameters :=
      d.parameters ++ Array.replicate (k + 1 - d.parameters.size) AnnotationTables.empty }

theorem Encoder.lt_size_extended (d : MethodDraft) (k : Nat) :
    k < (extended d k).parameters.size := by
  simp only [extended, Array.size_append, Array.size_replicate]
  omega

/-- Tables that are added are empty, as those that are missing are. -/
theorem Encoder.getD_extended (d : MethodDraft) (k i : Nat) :
    ((extended d k).parameters[i]?).getD .empty = (d.parameters[i]?).getD .empty := by
  simp only [extended]
  by_cases old : i < d.parameters.size
  · rw [Array.getElem?_append_left old]
  · have missing : d.parameters[i]? = none := Array.getElem?_eq_none (Nat.le_of_not_lt old)
    rw [Array.getElem?_append_right (Nat.le_of_not_lt old), Array.getElem?_replicate, missing]
    split <;> rfl

theorem MethodDraft.Collects.extended (h : d.Collects t m) (k : Nat) :
    (Encoder.extended d k).Collects t m :=
  { h with parameters := fun i => by rw [Encoder.getD_extended]; exact h.parameters i }

theorem MethodDraft.Collects.annotateParameter (h : d.Collects t m) {k : Nat} {a : Annotation}
    {bs : Text} (there : k < d.parameters.size) (range : (k : Int) < 0xFF)
    (room : (((d.parameters[k]?).getD .empty).get a.visible).count.toNat < 0xFFFF)
    (spelled : a.readBack.SpelledBy t bs) :
    MethodDraft.Collects t
      { d with parameters := d.parameters.modify k fun tables =>
          tables.modify a.visible fun t => ⟨t.count + 1, t.entries.pushText bs⟩ }
      (m.addPart (.annotateParameter k a)) :=
  { h with
    defaults := by
      simpa [Method.defaultValues_addPart, MethodPart.default?] using h.defaults
    annotations := by
      simpa [Method.annotations_addPart, MethodPart.annotation?] using h.annotations
    counts := by simpa [Method.parameterCounts_addPart, MethodPart.parameterCount?] using h.counts
    countRange := by
      simpa [Method.parameterCounts_addPart, MethodPart.parameterCount?] using h.countRange
    parameters := by
      intro i
      rw [Method.annotationsOf_addPart, Array.getElem?_modify]
      by_cases same : k = i
      · subst same
        have added := (h.parameters k).add room spelled
        simpa [MethodPart.parameterAnnotation?, there] using added
      · rw [if_neg same]
        have differs : ¬(k : Int) = i := by omega
        simpa [MethodPart.parameterAnnotation?, differs] using h.parameters i
    parameterRange := by
      intro x hx
      rw [Method.parameterAnnotations_addPart] at hx
      rcases List.mem_append.mp hx with hx | hx
      · exact h.parameterRange x hx
      · cases List.mem_singleton.mp hx
        exact ⟨Int.natCast_nonneg k, range⟩ }

end Taken

namespace Encoder

theorem visitMethod_spec {e e' : Encoder} {h : MethodHeader} (hp : e.pool.WellFormed)
    (visited : e.visitMethod h = .ok e') :
    ∃ p d, e.pool.Grows p ∧ e' = { e with pool := p, methods := e.methods.push d } ∧
      d.Collects p.table ⟨h, []⟩ := by
  obtain ⟨⟨name, p₁⟩, hname, visited⟩ := bind_eq_ok.mp visited
  obtain ⟨⟨descriptor, p₂⟩, hdescriptor, visited⟩ := bind_eq_ok.mp visited
  obtain ⟨⟨signature, p₃⟩, hsignature, visited⟩ := bind_eq_ok.mp visited
  obtain ⟨⟨exceptions, p₄⟩, hexceptions, visited⟩ := bind_eq_ok.mp visited
  obtain ⟨grows₁, name⟩ := Pool.addUtf8_spec hp hname
  obtain ⟨grows₂, descriptor⟩ := Pool.addUtf8_spec grows₁.wellFormed hdescriptor
  obtain ⟨grows₃, signature⟩ := addOptional_spec (r := fun t i s => t.utf8At i = .ok s)
    grows₂.wellFormed (fun _ added => Pool.addUtf8_spec grows₂.wellFormed added) hsignature
  obtain ⟨grows₄, exceptions⟩ := addOptional_spec
    (r := fun t => List.Forall₂ fun i name => t.classNameAt i = .ok name) grows₃.wellFormed
    (fun _ added => addClasses_spec grows₃.wellFormed added) hexceptions
  cases visited
  have after := grows₃.trans grows₄
  refine ⟨p₄, _, grows₁.trans (grows₂.trans after), rfl, ?_⟩
  exact {
    access := rfl
    name := (grows₂.trans after).within.utf8At name
    descriptor := after.within.utf8At descriptor
    signature := rel_mono grows₄.within.utf8At signature
    exceptions := exceptions
    defaults := rfl
    annotations := AnnotationTables.collects_empty _
    counts := fun visible => by cases visible <;> rfl
    countRange := fun visible c hc => nomatch hc
    parameters := fun i => AnnotationTables.collects_empty _
    parameterRange := fun x hx => nomatch hx }

section Parts

variable {e e' : Encoder} {before : Array MethodDraft} {d : MethodDraft} {m : Method}

/-- A default of the last method. -/
theorem run_defaultPart {vs : Values} (hmethods : e.methods = before.push d)
    (hp : e.pool.WellFormed) (collects : d.Collects e.pool.table m)
    (h : e.run (MethodPart.default vs).events = .ok e') :
    ∃ p d', e.pool.Grows p ∧ e' = { e with pool := p, methods := before.push d' } ∧
      d'.Collects p.table (m.addPart (.default vs)) := by
  have last : e.methods.size - 1 = before.size := by simp [hmethods]
  rw [MethodPart.events, run_cons, step, last, ok_bind] at h
  obtain ⟨p, bs, grows, encoded, rfl⟩ := run_default (hasTarget_ofDefault hmethods) hp h
  have buffer : e.buffer (.ofDefault before.size) = d.defaults := by
    simp [Encoder.buffer, Encoder.table, hmethods]
  refine ⟨p, { d with defaults := d.defaults.pushText bs }, grows, ?_,
    (collects.mono grows.within).addDefault encoded⟩
  simp only [setBuffer, buffer, hmethods, modify_push]

/-- An annotation of the last method. -/
theorem run_annotatePart {a : Annotation} (hmethods : e.methods = before.push d)
    (hp : e.pool.WellFormed) (collects : d.Collects e.pool.table m)
    (h : e.run (MethodPart.annotate a).events = .ok e') :
    ∃ p d', e.pool.Grows p ∧ e' = { e with pool := p, methods := before.push d' } ∧
      d'.Collects p.table (m.addPart (.annotate a)) := by
  have last : e.methods.size - 1 = before.size := by simp [hmethods]
  rw [MethodPart.events, run_opening, step, last] at h
  obtain ⟨p, bs, grows, room, spelled, rfl⟩ :=
    run_annotation (hasTarget_ofMethod hmethods a.visible) trivial hp h
  rw [table_ofMethod hmethods] at room
  refine ⟨p, { d with annotations := d.annotations.modify a.visible fun t =>
    ⟨t.count + 1, t.entries.pushText bs⟩ }, grows, ?_,
    (collects.mono grows.within).annotate room spelled⟩
  simp only [modifyTable, hmethods, modify_push]

/-- A stated number of parameters of the last method. -/
theorem run_parameterCountPart {count : Int} {visible : Bool}
    (hmethods : e.methods = before.push d) (hp : e.pool.WellFormed)
    (collects : d.Collects e.pool.table m)
    (h : e.run (MethodPart.parameterCount count visible).events = .ok e') :
    ∃ p d', e.pool.Grows p ∧ e' = { e with pool := p, methods := before.push d' } ∧
      d'.Collects p.table (m.addPart (.parameterCount count visible)) := by
  have last : e.methods.size - 1 = before.size := by simp [hmethods]
  obtain ⟨e₁, stated, h⟩ := bind_eq_ok.mp h
  cases h
  rw [step, visitParameterCount, last] at stated
  split at stated
  · next range =>
    cases stated
    refine ⟨e.pool, if visible then { d with visibleParameters := some count.toNat }
      else { d with invisibleParameters := some count.toNat }, hp.grows, ?_,
      collects.addParameterCount range visible⟩
    rw [hmethods, modify_push]
  · cases stated

/-- An annotation of a parameter of the last method begins in the tables of the method, which are
there for all parameters up to this one. -/
theorem run_annotateParameter (hmethods : e.methods = before.push d) {k : Nat}
    (range : 0 ≤ (k : Int) ∧ (k : Int) < 0xFF) (a : Annotation) :
    e.run (MethodPart.annotateParameter k a).events =
      ({ e with methods := before.push (extended d k) } : Encoder).annotate
        (.ofParameter before.size k a.visible) a.descriptor >>= fun e =>
          e.run ((a.values.events ++ [ValueEvent.close]).map .value) := by
  have last : e.methods.size - 1 = before.size := by simp [hmethods]
  have extends_last : e.methods.modify before.size (extended · k) = before.push (extended d k) := by
    rw [hmethods, modify_push]
  rw [MethodPart.events, run_opening, step, annotateParameter, if_pos range, last, ← extends_last]
  rfl

/-- An annotation of a parameter of the last method. -/
theorem run_annotateParameterPart {parameter : Int} {a : Annotation}
    (hmethods : e.methods = before.push d) (hp : e.pool.WellFormed)
    (collects : d.Collects e.pool.table m)
    (h : e.run (MethodPart.annotateParameter parameter a).events = .ok e') :
    ∃ p d', e.pool.Grows p ∧ e' = { e with pool := p, methods := before.push d' } ∧
      d'.Collects p.table (m.addPart (.annotateParameter parameter a)) := by
  by_cases range : 0 ≤ parameter ∧ parameter < 0xFF
  · obtain ⟨k, rfl⟩ : ∃ k : Nat, parameter = k := ⟨parameter.toNat, by omega⟩
    have there := lt_size_extended d k
    rw [run_annotateParameter hmethods range] at h
    have has : ({ e with methods := before.push (extended d k) } : Encoder).HasTarget
        (.ofParameter before.size k a.visible) := hasTarget_ofParameter rfl there a.visible
    obtain ⟨p, bs, grows, room, spelled, rfl⟩ := run_annotation has trivial hp h
    rw [table_ofParameter rfl there] at room
    refine ⟨p, { extended d k with
      parameters := (extended d k).parameters.modify k fun tables =>
        tables.modify a.visible fun t => ⟨t.count + 1, t.entries.pushText bs⟩ }, grows, ?_,
      ((collects.mono grows.within).extended k).annotateParameter there range.2 room spelled⟩
    simp only [modifyTable, modify_push]
  · rw [MethodPart.events, run_opening, step, annotateParameter, if_neg range] at h
    cases h

end Parts

/-- A part of the last method. -/
theorem run_part {e e' : Encoder} {before : Array MethodDraft} {d : MethodDraft} {m : Method}
    {part : MethodPart} (hmethods : e.methods = before.push d) (hp : e.pool.WellFormed)
    (collects : d.Collects e.pool.table m)
    (h : e.run part.events = .ok e') :
    ∃ p d', e.pool.Grows p ∧ e' = { e with pool := p, methods := before.push d' } ∧
      d'.Collects p.table (m.addPart part) := by
  cases part with
  | default values => exact run_defaultPart hmethods hp collects h
  | annotate a => exact run_annotatePart hmethods hp collects h
  | parameterCount count visible => exact run_parameterCountPart hmethods hp collects h
  | annotateParameter parameter a => exact run_annotateParameterPart hmethods hp collects h

/-- Parts of the last method. -/
theorem run_parts {before : Array MethodDraft} {parts : List MethodPart}
    {e e' : Encoder} {d : MethodDraft} {m : Method} (hmethods : e.methods = before.push d)
    (hp : e.pool.WellFormed) (collects : d.Collects e.pool.table m)
    (h : e.run (parts.flatMap MethodPart.events) = .ok e') :
    ∃ p d', e.pool.Grows p ∧ e' = { e with pool := p, methods := before.push d' } ∧
      d'.Collects p.table { m with parts := m.parts ++ parts } := by
  induction parts generalizing e d m with
  | nil =>
    cases h
    refine ⟨e'.pool, d, hp.grows, ?_, ?_⟩
    · rw [← hmethods]
    · rw [List.append_nil]
      exact collects
  | cons part parts ih =>
    rw [List.flatMap_cons, run_append] at h
    obtain ⟨e₁, first, h⟩ := bind_eq_ok.mp h
    obtain ⟨p, d₁, grows, rfl, collects⟩ := run_part hmethods hp collects first
    obtain ⟨p', d', grows', rfl, collects⟩ := ih rfl grows.wellFormed collects h
    refine ⟨p', d', grows.trans grows', rfl, ?_⟩
    rw [Method.addPart, List.append_assoc] at collects
    exact collects

/-- The events of a method add a draft that has collected the method. -/
theorem run_method {e e' : Encoder} {m : Method} (hp : e.pool.WellFormed)
    (h : e.run m.events = .ok e') :
    ∃ p d, e.pool.Grows p ∧ e' = { e with pool := p, methods := e.methods.push d } ∧
      d.Collects p.table m := by
  rw [Method.events, run_cons] at h
  obtain ⟨e₁, opened, h⟩ := bind_eq_ok.mp h
  obtain ⟨p, d, grows, rfl, collects⟩ := visitMethod_spec hp opened
  rw [run_append] at h
  obtain ⟨e₂, told, h⟩ := bind_eq_ok.mp h
  obtain ⟨p', d', grows', rfl, collects⟩ := run_parts rfl grows.wellFormed collects told
  cases h
  exact ⟨p', d', grows.trans grows', rfl, collects⟩

end Encoder

end ClassAbi
