import ClassAbi.Proofs.LegibleDeclarations
import ClassAbi.Proofs.RecordedOutline
import ClassAbi.Proofs.RoundTrip

/-!
# The files of outlines

The outline of a class file is written as the normal form of the class that is
read.  The written file says the same as the normal form, so reading it again and
writing its outline gives the file once more, and two class files have the same
outline file exactly when their classes have the same surface.
-/

namespace ClassAbi

/-! ## Numbers of parameters -/

theorem Method.parametersNonneg_tabled (h : MethodHeader) (v : Option Value)
    (as : List Annotation) (tables : Bool → Option (List (List Annotation))) :
    (tabled h v as tables).ParametersNonneg := by
  intro x mem
  rw [tabled_eq_ordered, parameterAnnotations_ordered] at mem
  rcases List.mem_append.mp mem with mem | mem
  · obtain ⟨i, number, -⟩ := exists_of_mem_numberedFrom mem
    omega
  · obtain ⟨i, number, -⟩ := exists_of_mem_numberedFrom mem
    omega

theorem Method.Legible.parametersNonneg {m : Method} (h : m.Legible) : m.ParametersNonneg := by
  obtain ⟨v, as, tables, -, -, -, eq⟩ := h.parts
  have nonneg := parametersNonneg_tabled m.header v as tables
  rwa [← eq] at nonneg

theorem ClassDeclaration.Legible.parametersNonneg {c : ClassDeclaration} (h : c.Legible) :
    ∀ m ∈ c.methods, m.ParametersNonneg :=
  fun m mem => (h.methods m mem).parametersNonneg

theorem ClassStream.parametersNonneg_readBack (s : ClassStream) :
    ∀ m ∈ s.readBack.methods, m.ParametersNonneg := by
  intro m mem
  obtain ⟨m, -, rfl⟩ := List.mem_map.mp mem
  exact Method.parametersNonneg_tabled _ _ _ m.parameterTables

/-! ## What is read back, in any order -/

/-- Annotations are read back in another order. -/
theorem readBackAll_perm {as : List Annotation} (h : ∀ a ∈ as, a.Legible) :
    (readBackAll as).Perm as := by
  have others : as.filter (·.visible == false) = as.filter (!·.visible == true) :=
    List.filter_congr fun a _ => by cases a.visible <;> rfl
  rw [readBackAll, readBackOf_eq h, readBackOf_eq h, others]
  exact List.filter_append_perm (·.visible == true) as

theorem Field.Legible.events_readBack_perm {f : Field} (h : f.Legible) :
    f.readBack.events.Perm f.events := by
  rw [Field.events, Field.events, h.header_readBack]
  exact (((readBackAll_perm h.annotations.each).flatMap_right _).append_right _).cons _

theorem Method.Legible.events_readBack_perm {m : Method} (h : m.Legible) :
    m.readBack.events.Perm m.events := by
  obtain ⟨v, as, tables, has, -, eq, back⟩ := h.exists_readBack
  have parts : m.readBack.parts.Perm m.parts := by
    rw [back, eq]
    exact ((((readBackAll_perm has).map _).append_left _).append_right _).append_right _
  rw [Method.events, Method.events, h.header_readBack]
  exact ((parts.flatMap_right _).append_right _).cons _

/-- The events of a class and of what is read back of it are the same in another order. -/
theorem ClassDeclaration.Legible.events_readBack_perm {c : ClassDeclaration} (h : c.Legible) :
    c.stream.readBack.events.Perm c.events := by
  have fields : (c.fields.map Field.readBack).flatMap Field.events |>.Perm
      (c.fields.flatMap Field.events) := by
    rw [List.flatMap_map]
    exact .flatMap_left _ fun f mem => (h.fields f mem).events_readBack_perm
  have methods : (c.methods.map Method.readBack).flatMap Method.events |>.Perm
      (c.methods.flatMap Method.events) := by
    rw [List.flatMap_map]
    exact .flatMap_left _ fun m mem => (h.methods m mem).events_readBack_perm
  have annotations := (readBackAll_perm h.annotations.each).flatMap_right (·.events .annotate)
  rw [events_eq, events_eq, h.header_readBack, ClassStream.readBack, annotations_stream,
    fields_stream, methods_stream]
  exact ((((annotations.append fields).append methods).append_right _).cons _)

/-! ## Outlines of class files -/

section Files

variable {file : Text} {d : ByteArray} {o : Outline} {A : ByteArray}

/-- The outline of a class that is read is told as the normal form of the class. -/
theorem exists_outline_of_readClass (file : Text) {c : ClassDeclaration}
    (nonneg : ∀ m ∈ c.methods, m.ParametersNonneg) (read : readClass d = ⟨c.events, .ok ()⟩) :
    ∃ o, Outline.ofClassFile file d = .ok (o, .ok ()) ∧ o.replay = .ok c.canonical.events := by
  have nonneg : ∀ m ∈ c.stream.methods, m.ParametersNonneg := by
    rwa [c.methods_stream]
  refine ⟨c.stream.outline file, ?_, ClassStream.replay_outline file nonneg⟩
  rw [Outline.ofClassFile, read]
  exact bind_eq_ok.mpr ⟨_, ofEvents_eq_outline file nonneg, rfl⟩

/-- A class file with an outline is that of a class that can be read. -/
theorem exists_class_of_ofClassFile (short : d.size < attributeLimit)
    (accepted : Outline.ofClassFile file d = .ok (o, .ok ())) :
    ∃ c : ClassDeclaration, c.Legible ∧ readClass d = ⟨c.events, .ok ()⟩ ∧
      o.replay = .ok c.canonical.events := by
  obtain ⟨o', told, eq⟩ := bind_eq_ok.mp accepted
  cases read : readClass d with
  | mk events result =>
    rw [read] at told eq
    cases eq
    obtain ⟨c, rfl, legible⟩ := exists_legible_of_readClass short read
    obtain ⟨o', accepted', replay⟩ :=
      exists_outline_of_readClass file legible.parametersNonneg read
    rw [accepted] at accepted'
    cases accepted'
    exact ⟨c, legible, rfl, replay⟩

/-- The file of an outline is that of the events that tell it. -/
theorem encode_eq_ok_iff {events : List Event} (replay : o.replay = .ok events) :
    o.encode = .ok A ↔ encodeClass events = .ok A := by
  rw [Outline.encode, replay]
  show (encodeClass events).mapError OutlineFault.encode = .ok A ↔ encodeClass events = .ok A
  cases encodeClass events <;> simp [Except.mapError]

/-- The outline file of a class that can be read is read as the normal form. -/
theorem ClassDeclaration.Legible.readClass_canonical {c : ClassDeclaration} (h : c.Legible)
    (written : encodeClass c.canonical.events = .ok A) :
    readClass A = ⟨c.canonical.stream.readBack.events, .ok ()⟩ :=
  readClass_of_small h.canonical.writable h.canonical.small written

/-- A class that can be read is read from its own file too, and its outline is the normal form. -/
theorem ClassDeclaration.Legible.exists_outline (file : Text) {c : ClassDeclaration}
    (h : c.Legible) (written : encodeClass c.events = .ok d) :
    ∃ o, Outline.ofClassFile file d = .ok (o, .ok ()) ∧ o.replay = .ok c.canonical.events := by
  have read := readClass_of_small h.writable h.small written
  obtain ⟨o, accepted, replay⟩ :=
    exists_outline_of_readClass file (ClassStream.parametersNonneg_readBack c.stream) read
  rw [h.canonical_readBack] at replay
  exact ⟨o, accepted, replay⟩

/-- The outline of an outline file is the outline, and nothing is left out of it. -/
theorem outline_of_encode (file' : Text) (short : d.size < attributeLimit)
    (accepted : Outline.ofClassFile file d = .ok (o, .ok ())) (encoded : o.encode = .ok A) :
    ∃ o' events, Outline.ofClassFile file' A = .ok (o', .ok ()) ∧ o.replay = .ok events ∧
      o'.replay = .ok events ∧ (readClass A).events.Perm events ∧ o'.encode = .ok A := by
  obtain ⟨c, legible, -, replay⟩ := exists_class_of_ofClassFile short accepted
  have written := (encode_eq_ok_iff replay).mp encoded
  have read := legible.readClass_canonical written
  obtain ⟨o', accepted', replay'⟩ := legible.canonical.exists_outline file' written
  rw [ClassDeclaration.canonical_canonical] at replay'
  refine ⟨o', c.canonical.events, accepted', replay, replay', ?_,
    (encode_eq_ok_iff replay').mpr written⟩
  rw [read]
  exact legible.canonical.events_readBack_perm

/-! ## A private field -/

theorem canonical_bothFields :
    (classOfFields [visibleField, privateField]).canonical = classOfFields [visibleField] := by
  have none : canonicalAnnotations [] = [] :=
    (isCanonical_self .nil).canonicalOrder_eq strictOrder_annotationKey
  have fields : (classOfFields [visibleField, privateField]).stream.canonicalFields =
      [visibleField] :=
    (isCanonical_self (List.pairwise_singleton ..)).canonicalOrder_eq strictOrder_memberKey
  have methods : (classOfFields [visibleField, privateField]).stream.canonicalMethods = [] :=
    (isCanonical_self .nil).canonicalOrder_eq strictOrder_memberKey
  have form : visibleField.canonical = visibleField := congrArg (Field.mk visibleField.header) none
  rw [ClassDeclaration.canonical, ClassStream.canonical, fields, methods, List.map_singleton, form]
  exact congrArg (fun as => ClassDeclaration.mk _ as [visibleField] []) none

/-- The file of a class with a private field, and its outline file without the field, which is
its own outline file. -/
theorem exists_files_bothFields :
    ∃ d o A o', d.size < attributeLimit ∧ A.size < attributeLimit ∧
      Outline.ofClassFile [] d = .ok (o, .ok ()) ∧ Outline.ofClassFile [] A = .ok (o', .ok ()) ∧
      o.encode = .ok A ∧ o'.encode = .ok A := by
  obtain ⟨d, toBytes, short⟩ := exists_toBytes_bothFields
  obtain ⟨A, toBytes', short'⟩ := exists_toBytes_visibleField
  have written := encodeClass_eq_ok.mpr ⟨_, ofEvents_bothFields, toBytes⟩
  have written' : encodeClass (classOfFields [visibleField, privateField]).canonical.events =
      .ok A := by
    rw [canonical_bothFields]
    exact encodeClass_eq_ok.mpr ⟨_, ofEvents_visibleField, toBytes'⟩
  obtain ⟨o, accepted, replay⟩ := legible_bothFields.exists_outline [] written
  obtain ⟨o', accepted', replay'⟩ := legible_bothFields.canonical.exists_outline [] written'
  rw [ClassDeclaration.canonical_canonical] at replay'
  exact ⟨d, o, A, o', short, short', accepted, accepted', (encode_eq_ok_iff replay).mpr written',
    (encode_eq_ok_iff replay').mpr written'⟩

theorem outline_of_encode_bothFields :
    ∃ d o A, d.size < attributeLimit ∧ Outline.ofClassFile [] d = .ok (o, .ok ()) ∧
      o.encode = .ok A ∧
      ∃ o' events, Outline.ofClassFile [] A = .ok (o', .ok ()) ∧ o.replay = .ok events ∧
        o'.replay = .ok events ∧ (readClass A).events.Perm events ∧ o'.encode = .ok A := by
  obtain ⟨d, o, A, -, short, -, accepted, -, encoded, -⟩ := exists_files_bothFields
  exact ⟨d, o, A, short, accepted, encoded, outline_of_encode [] short accepted encoded⟩

end Files

section Pairs

variable {file₁ file₂ : Text} {d₁ d₂ : ByteArray} {o₁ o₂ : Outline} {A₁ A₂ : ByteArray}

/-- Two class files have the same outline file exactly when their classes have the same
surface. -/
theorem encode_eq_iff_surface_eq (short₁ : d₁.size < attributeLimit)
    (short₂ : d₂.size < attributeLimit) (accepted₁ : Outline.ofClassFile file₁ d₁ = .ok (o₁, .ok ()))
    (accepted₂ : Outline.ofClassFile file₂ d₂ = .ok (o₂, .ok ())) (encoded₁ : o₁.encode = .ok A₁)
    (encoded₂ : o₂.encode = .ok A₂) :
    ∃ c₁ c₂ : ClassDeclaration, readClass d₁ = ⟨c₁.events, .ok ()⟩ ∧
      readClass d₂ = ⟨c₂.events, .ok ()⟩ ∧ (A₁ = A₂ ↔ c₁.surface = c₂.surface) := by
  obtain ⟨c₁, legible₁, read₁, replay₁⟩ := exists_class_of_ofClassFile short₁ accepted₁
  obtain ⟨c₂, legible₂, read₂, replay₂⟩ := exists_class_of_ofClassFile short₂ accepted₂
  have written₁ := (encode_eq_ok_iff replay₁).mp encoded₁
  have written₂ := (encode_eq_ok_iff replay₂).mp encoded₂
  refine ⟨c₁, c₂, read₁, read₂, ?_⟩
  rw [ClassDeclaration.surface_eq_iff legible₁.parametersNonneg legible₂.parametersNonneg]
  constructor
  · rintro rfl
    -- The normal form can be read off the file.
    have delivered := (legible₁.readClass_canonical written₁).symm.trans
      (legible₂.readClass_canonical written₂)
    have back := ClassDeclaration.events_injective (Delivery.mk.inj delivered).1
    rw [← c₁.canonical_canonical, ← legible₁.canonical.canonical_readBack, back,
      legible₂.canonical.canonical_readBack, c₂.canonical_canonical]
  · intro same
    rw [same, written₂] at written₁
    exact (Except.ok.inj written₁).symm

theorem encode_eq_iff_surface_eq_bothFields :
    ∃ d₁ d₂ o₁ o₂ A₁ A₂, d₁.size < attributeLimit ∧ d₂.size < attributeLimit ∧
      Outline.ofClassFile [] d₁ = .ok (o₁, .ok ()) ∧ Outline.ofClassFile [] d₂ = .ok (o₂, .ok ()) ∧
      o₁.encode = .ok A₁ ∧ o₂.encode = .ok A₂ ∧
      ∃ c₁ c₂ : ClassDeclaration, readClass d₁ = ⟨c₁.events, .ok ()⟩ ∧
        readClass d₂ = ⟨c₂.events, .ok ()⟩ ∧ (A₁ = A₂ ↔ c₁.surface = c₂.surface) := by
  obtain ⟨d, o, A, o', short, short', accepted, accepted', encoded, encoded'⟩ :=
    exists_files_bothFields
  exact ⟨d, A, o, o', A, A, short, short', accepted, accepted', encoded, encoded',
    encode_eq_iff_surface_eq short short' accepted accepted' encoded encoded'⟩

end Pairs

end ClassAbi
