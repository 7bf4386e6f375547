import ClassAbi.Proofs.LegibleDeclarations

/-!
# Reading what was written

A class that keeps its meaning in a file is read back from the file that it is
written to.  The file is gone through to its last byte, each attribute is read to
the end that its length declares, and the reader delivers the class as it is
`readBack`.
-/

namespace ClassAbi

section Written

variable {s : ClassStream} {e : Encoder} {bytes : ByteArray}

theorem encodeClass_eq_ok {events : List Event} :
    encodeClass events = .ok bytes ↔ ∃ e, Encoder.ofEvents events = .ok e ∧ e.toBytes = .ok bytes :=
  bind_eq_ok

/-- What is written is read. -/
theorem readClass_of_toBytes (writable : s.Writable) (told : Encoder.ofEvents s.events = .ok e)
    (short : e.AttributesShort) (written : e.toBytes = .ok bytes) :
    readClass bytes = ⟨s.readBack.events, .ok ()⟩ := by
  obtain ⟨f, denotes, -, held, -⟩ := exists_file_of_toBytes writable told short written
  exact readClass_of_denotes denotes held

/-- A small class is read back from its file. -/
theorem readClass_of_small (writable : s.Writable) (small : s.Small)
    (written : encodeClass s.events = .ok bytes) :
    readClass bytes = ⟨s.readBack.events, .ok ()⟩ := by
  obtain ⟨e, told, written⟩ := encodeClass_eq_ok.mp written
  have short := (Encoder.holds_of_ofEvents writable told).attributesShort writable small
  exact readClass_of_toBytes writable told short written

/-- The file of a class that keeps its meaning in a file, with attributes whose lengths can be
stated, is read to its end, each attribute to its own, and as the class that was told. -/
theorem readClass_of_encodeClass (writable : s.Writable)
    (told : Encoder.ofEvents s.events = .ok e) (short : e.AttributesShort)
    (written : encodeClass s.events = .ok bytes) :
    readClass bytes = ⟨s.readBack.events, .ok ()⟩ ∧
      ∃ l, ClassLayout.scan bytes = .ok l ∧ l.stop = bytes.size ∧ l.ReadExactly bytes := by
  obtain ⟨e', told', written⟩ := encodeClass_eq_ok.mp written
  have same : e = e' := Except.ok.inj (told.symm.trans told')
  subst same
  obtain ⟨f, denotes, proper, held, size⟩ := exists_file_of_toBytes writable told short written
  obtain ⟨l, scanned, stop, exactly⟩ := exists_layout_of_denotes denotes proper held
  exact ⟨readClass_of_denotes denotes held, l, scanned, stop.trans size, exactly⟩

end Written

/-! ## A class with two fields -/

/-- A field that other classes can see. -/
def visibleField : Field := ⟨⟨.ofFlags 1 false, Text.ascii "f", Text.ascii "I", none, none⟩, []⟩

/-- A field that other classes cannot see. -/
def privateField : Field := ⟨⟨.ofFlags 2 false, Text.ascii "g", Text.ascii "J", none, none⟩, []⟩

/-- A class with nothing but fields. -/
def classOfFields (fields : List Field) : ClassDeclaration :=
  ⟨⟨52, .ofFlags 0x21 false, Text.ascii "A", none, none, some []⟩, [], fields, []⟩

/-- The encoder that has taken the class with the first field. -/
def encoderOfVisible : Encoder where
  pool := ⟨#[.utf8 [65], .classRef 1, .utf8 [102], .utf8 [73]],
    (((Std.HashMap.emptyWithCapacity.insert (.utf8 [65]) 1).insert (.classRef 1) 2).insert
      (.utf8 [102]) 3).insert (.utf8 [73]) 4, 5⟩
  header := some ⟨52, .ofFlags 0x21 false, 2, none, none, []⟩
  annotations := .empty
  fields := #[⟨.ofFlags 1 false, 3, 4, none, none, .empty⟩]
  methods := #[]
  opened := []

/-- The encoder that has taken the class with both fields. -/
def encoderOfBoth : Encoder where
  pool := ⟨encoderOfVisible.pool.entries ++ #[.utf8 [103], .utf8 [74]],
    (encoderOfVisible.pool.indexes.insert (.utf8 [103]) 5).insert (.utf8 [74]) 6, 7⟩
  header := encoderOfVisible.header
  annotations := .empty
  fields := encoderOfVisible.fields.push ⟨.ofFlags 2 false, 5, 6, none, none, .empty⟩
  methods := #[]
  opened := []

theorem run_visibleField :
    Encoder.run ∅ (.header (classOfFields []).header :: visibleField.events) =
      .ok encoderOfVisible := by
  simp [Encoder.run, Encoder.step, Encoder.visitHeader, Encoder.visitField, Encoder.addOptional,
    Encoder.addClasses, Pool.addClass, Pool.addUtf8, Pool.add, PoolEntry.slots, Field.events,
    EmptyCollection.emptyCollection, Encoder.empty, Pool.empty, classOfFields, visibleField,
    Text.ascii, ok_bind, pure, Except.pure, encoderOfVisible]

theorem run_privateField : Encoder.run encoderOfVisible privateField.events = .ok encoderOfBoth := by
  simp [Encoder.run, Encoder.step, Encoder.visitField, Encoder.addOptional, Pool.addUtf8, Pool.add,
    PoolEntry.slots, Field.events, privateField, Text.ascii, ok_bind, pure, Except.pure,
    encoderOfVisible, encoderOfBoth]

theorem ofEvents_visibleField :
    Encoder.ofEvents (classOfFields [visibleField]).events = .ok encoderOfVisible := by
  have events : (classOfFields [visibleField]).events =
      (.header (classOfFields []).header :: visibleField.events) ++ [.classEnd] := rfl
  rw [Encoder.ofEvents, events, Encoder.run_append]
  exact bind_eq_ok.mpr ⟨_, run_visibleField, rfl⟩

theorem ofEvents_bothFields :
    Encoder.ofEvents (classOfFields [visibleField, privateField]).events = .ok encoderOfBoth := by
  have events : (classOfFields [visibleField, privateField]).events =
      (.header (classOfFields []).header :: visibleField.events) ++
        (privateField.events ++ [.classEnd]) := rfl
  rw [Encoder.ofEvents, events, Encoder.run_append]
  refine bind_eq_ok.mpr ⟨_, run_visibleField, ?_⟩
  rw [Encoder.run_append]
  exact bind_eq_ok.mpr ⟨_, run_privateField, rfl⟩

theorem exists_toBytes_visibleField :
    ∃ bytes, encoderOfVisible.toBytes = .ok bytes ∧ bytes.size < attributeLimit :=
  ⟨_, rfl, by decide⟩

theorem exists_toBytes_bothFields :
    ∃ bytes, encoderOfBoth.toBytes = .ok bytes ∧ bytes.size < attributeLimit :=
  ⟨_, rfl, by decide⟩

theorem attributesShort_encoderOfBoth : encoderOfBoth.AttributesShort := by
  refine ⟨by decide, by decide, ?_⟩
  rintro _ ⟨⟩
  decide

theorem annotationsLegible_nil : AnnotationsLegible [] := ⟨List.forall_mem_nil _, by decide⟩

theorem legible_bothFields : (classOfFields [visibleField, privateField]).Legible where
  access := rfl
  interfaces := ⟨[], rfl, by decide⟩
  annotations := annotationsLegible_nil
  fields := by
    have plain : ∀ header : FieldHeader, header.access.stored = header.access →
        header.value = none → Field.Legible ⟨header, []⟩ := by
      intro header access value
      refine ⟨access, fun c some => ?_, annotationsLegible_nil⟩
      rw [value] at some
      cases some
    exact List.forall_mem_cons.mpr ⟨plain _ rfl rfl,
      List.forall_mem_cons.mpr ⟨plain _ rfl rfl, List.forall_mem_nil _⟩⟩
  methods := List.forall_mem_nil _

theorem readClass_of_encodeClass_bothFields :
    ∃ bytes, (classOfFields [visibleField, privateField]).stream.Writable ∧
      Encoder.ofEvents (classOfFields [visibleField, privateField]).stream.events =
        .ok encoderOfBoth ∧
      encoderOfBoth.AttributesShort ∧
      encodeClass (classOfFields [visibleField, privateField]).stream.events = .ok bytes ∧
      readClass bytes =
        ⟨(classOfFields [visibleField, privateField]).stream.readBack.events, .ok ()⟩ ∧
      ∃ l, ClassLayout.scan bytes = .ok l ∧ l.stop = bytes.size ∧ l.ReadExactly bytes := by
  obtain ⟨bytes, toBytes, -⟩ := exists_toBytes_bothFields
  have written := encodeClass_eq_ok.mpr ⟨_, ofEvents_bothFields, toBytes⟩
  exact ⟨bytes, legible_bothFields.writable, ofEvents_bothFields, attributesShort_encoderOfBoth,
    written, readClass_of_encodeClass legible_bothFields.writable ofEvents_bothFields
      attributesShort_encoderOfBoth written⟩

end ClassAbi
