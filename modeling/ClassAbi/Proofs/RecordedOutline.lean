import ClassAbi.Outline.Class
import ClassAbi.Proofs.NormalForm
import ClassAbi.Proofs.Targets

/-!
# What is recorded of a class

The events of a class leave the outline of the class in the recorder
(`ClassStream.outline`): everything that is retained, in the order in which it
was told.  The last annotation, field or method that was opened is the last of
its array, so each step changes the last item or adds one behind it.

Telling the outline again gives the normal form of the class
(`replay_outline`).
-/

namespace ClassAbi

/-! ## Outlines of parts -/

/-- The values as they are recorded. -/
def RecordedValues.ofValues (vs : Values) : RecordedValues := ⟨vs.events.toArray, 0, vs.length⟩

/-- The annotation as it is recorded. -/
def Annotation.outline (a : Annotation) : AnnotationOutline := ⟨a.key, .ofValues a.values⟩

/-- The field as it is recorded. -/
def Field.outline (f : Field) : FieldOutline :=
  ⟨f.header, (f.annotations.map Annotation.outline).toArray⟩

/-- The annotation of a parameter as it is recorded. -/
def parameterOutline (x : Int × Annotation) : ParameterOutline := ⟨x.1.toNat, x.2.outline⟩

/-- The method as it is recorded. -/
def Method.outline (m : Method) : MethodOutline where
  header := m.header
  defaultValue := m.defaults.getLast?.map .ofValues
  annotations := (m.annotations.map Annotation.outline).toArray
  visibleParameters := (m.parameterCounts true).getLast?
  invisibleParameters := (m.parameterCounts false).getLast?
  parameters := (m.parameterAnnotations.map parameterOutline).toArray

/-- One more part adds to what is recorded of the method, or replaces it. -/
theorem Method.outline_addPart (m : Method) (part : MethodPart) : (m.addPart part).outline =
    { header := m.header
      defaultValue := (part.default?.map .ofValues).or m.outline.defaultValue
      annotations := m.outline.annotations ++ (part.annotation?.toList.map Annotation.outline).toArray
      visibleParameters := (part.parameterCount? true).or m.outline.visibleParameters
      invisibleParameters := (part.parameterCount? false).or m.outline.invisibleParameters
      parameters :=
        m.outline.parameters ++ (part.parameterAnnotation?.toList.map parameterOutline).toArray } := by
  have last : ∀ {α : Type} (l : List α) (o : Option α), (l ++ o.toList).getLast? = o.or l.getLast? := by
    intro α l o
    cases o <;> simp
  simp only [outline, defaults_addPart, annotations_addPart, parameterCounts_addPart,
    parameterAnnotations_addPart, last, Option.map_or, List.map_append, List.append_toArray]
  rfl

/-- The class as it is recorded. -/
def ClassStream.outline (file : Text) (s : ClassStream) : Outline where
  file := file
  header := some s.header
  annotations := (s.annotations.map Annotation.outline).toArray
  fields := ((s.fields.filter Field.isRetained).map Field.outline).toArray
  methods := ((s.methods.filter Method.isRetained).map Method.outline).toArray

/-- One more part adds to what is recorded of the class, if it is retained. -/
theorem ClassStream.outline_addPart (file : Text) (s : ClassStream) (part : ClassPart) :
    (s.addPart part).outline file = { s.outline file with
      annotations := (s.outline file).annotations ++
        (part.annotation?.toList.map Annotation.outline).toArray
      fields := (s.outline file).fields ++
        ((part.field?.toList.filter Field.isRetained).map Field.outline).toArray
      methods := (s.outline file).methods ++
        ((part.method?.toList.filter Method.isRetained).map Method.outline).toArray } := by
  simp only [outline, annotations_addPart, fields_addPart, methods_addPart, List.filter_append,
    List.map_append, List.append_toArray, header_addPart]

/-! ## Values -/

namespace RecordedValues

mutual

/-- The events of a value are recorded one behind the other, as one more value. -/
theorem foldl_record_value (name : Text) (v : Value) (r : RecordedValues) :
    (v.events name).foldl record r =
      ⟨r.events ++ (v.events name).toArray, r.depth,
        if r.depth == 0 then r.size + 1 else r.size⟩ := by
  cases v with
  | constant c => simp [Value.events, record]
  | enum descriptor value => simp [Value.events, record]
  | nested descriptor values =>
    rw [Value.events, List.foldl_cons, List.foldl_append, foldl_record_values]
    simp [record]
  | array elements =>
    rw [Value.events, List.foldl_cons, List.foldl_append, foldl_record_values]
    simp [record]

theorem foldl_record_values (vs : Values) (r : RecordedValues) :
    vs.events.foldl record r =
      ⟨r.events ++ vs.events.toArray, r.depth,
        if r.depth == 0 then r.size + vs.length else r.size⟩ := by
  cases vs with
  | nil => simp [Values.events, Values.length]
  | cons name value rest =>
    rw [Values.events, List.foldl_append, foldl_record_value, foldl_record_values]
    cases r.depth == 0 with
    | false => simp
    | true =>
      simp [Values.length]
      omega

end

theorem foldl_record_list (vs : Values) :
    (vs.events ++ [ValueEvent.close]).foldl record ∅ = ofValues vs := by
  rw [List.foldl_append, foldl_record_values]
  simp [record, ofValues, EmptyCollection.emptyCollection, empty]

theorem replay_ofValues (vs : Values) : (ofValues vs).replay = vs.events ++ [ValueEvent.close] := by
  simp [ofValues, replay]

end RecordedValues

namespace Recorder

/-! ## Lists of values -/

variable {r : Recorder}

theorem run_cons (r : Recorder) (event : Event) (events : List Event) :
    r.run (event :: events) = r.step event >>= fun r => r.run events :=
  List.foldlM_cons

theorem run_append (r : Recorder) (first second : List Event) :
    r.run (first ++ second) = r.run first >>= fun r => r.run second :=
  List.foldlM_append

theorem modifyValues_modifyValues (r : Recorder) (f g : RecordedValues → RecordedValues)
    (target : RecordTarget) :
    (r.modifyValues f target).modifyValues g target = r.modifyValues (fun x => g (f x)) target := by
  cases target <;>
    simp [modifyValues, modifyField, modifyMethod, modify_modify, AnnotationOutline.modifyValues,
      Function.comp_def]

theorem modifyValues_id (r : Recorder) (target : RecordTarget) :
    r.modifyValues (fun x => x) target = r := by
  have annotations : ∀ (a : Array AnnotationOutline) j, a.modify j (·.modifyValues fun x => x) = a :=
    fun a j => modify_eq_self fun _ _ => rfl
  have parameters : ∀ (a : Array ParameterOutline) j, (a.modify j fun p =>
      { p with outline := p.outline.modifyValues fun x => x }) = a :=
    fun a j => modify_eq_self fun _ _ => rfl
  cases target with
  | nowhere => rfl
  | ofClass j => rw [modifyValues, annotations]
  | ofField i j => rw [modifyValues, modifyField, modify_eq_self fun d _ => by rw [annotations]]
  | ofDefault i => rw [modifyValues, modifyMethod, modify_eq_self fun d _ => by rw [Option.map_id']]
  | ofMethod i j => rw [modifyValues, modifyMethod, modify_eq_self fun d _ => by rw [annotations]]
  | ofParameter i j =>
    rw [modifyValues, modifyMethod, modify_eq_self fun d _ => by rw [parameters]]

theorem modifyValues_opened (r : Recorder) (f : RecordedValues → RecordedValues)
    (target : RecordTarget) (opened : List RecordTarget) :
    ({ r with opened := opened } : Recorder).modifyValues f target =
      { r.modifyValues f target with opened := opened } := by
  cases target <;> rfl

theorem opened_modifyValues (r : Recorder) (f : RecordedValues → RecordedValues)
    (target : RecordTarget) : (r.modifyValues f target).opened = r.opened := by
  cases target <;> rfl

/-- The values of a list and its end are recorded where the list was opened, which is then
no longer open. -/
theorem run_closed {target : RecordTarget} {outer : List RecordTarget} {vs : Values}
    (opened : r.opened = target :: outer)
    (values : r.run (vs.events.map .value) =
      .ok (r.modifyValues (fun x => vs.events.foldl RecordedValues.record x) target)) :
    r.run ((vs.events ++ [ValueEvent.close]).map .value) =
      .ok { r.modifyValues
        (fun x => (vs.events ++ [ValueEvent.close]).foldl RecordedValues.record x) target with
          opened := outer } := by
  rw [List.map_append, run_append, values, ok_bind]
  show Except.ok (recordValue _ _) = _
  rw [recordValue, opened_modifyValues, opened]
  simp only [modifyValues_opened, modifyValues_modifyValues, List.foldl_append, List.foldl_cons,
    List.foldl_nil]

mutual

/-- The events of a value are recorded at the place of the innermost open list. -/
theorem run_value (name : Text) (v : Value) {r : Recorder} {target : RecordTarget}
    {outer : List RecordTarget} (opened : r.opened = target :: outer) :
    r.run ((v.events name).map .value) =
      .ok (r.modifyValues (fun x => (v.events name).foldl RecordedValues.record x) target) := by
  obtain ⟨outline, field, method, _⟩ := r
  cases opened
  cases v with
  | constant c => rfl
  | enum descriptor value => rfl
  | nested descriptor values =>
    rw [Value.events, List.map_cons, run_cons, step, ok_bind, recordValue]
    rw [run_closed (opened_modifyValues ..) (run_values values (opened_modifyValues ..))]
    rw [modifyValues_modifyValues]
    exact congrArg Except.ok (modifyValues_opened ..).symm
  | array elements =>
    rw [Value.events, List.map_cons, run_cons, step, ok_bind, recordValue]
    rw [run_closed (opened_modifyValues ..) (run_values elements (opened_modifyValues ..))]
    rw [modifyValues_modifyValues]
    exact congrArg Except.ok (modifyValues_opened ..).symm

theorem run_values (vs : Values) {r : Recorder} {target : RecordTarget}
    {outer : List RecordTarget} (opened : r.opened = target :: outer) :
    r.run (vs.events.map .value) =
      .ok (r.modifyValues (fun x => vs.events.foldl RecordedValues.record x) target) := by
  cases vs with
  | nil => exact congrArg Except.ok (modifyValues_id r target).symm
  | cons name value rest =>
    have opened' := opened
    rw [← opened_modifyValues r _ target] at opened'
    rw [Values.events, List.map_append, run_append, run_value name value opened, ok_bind,
      run_values rest opened', modifyValues_modifyValues]
    simp only [List.foldl_append]

end

/-! ## Annotations -/

theorem run_opening (r : Recorder) (a : Annotation) (opening : Text → Bool → Event) :
    r.run (a.events opening) = r.step (opening a.descriptor a.visible) >>= fun r =>
      r.run ((a.values.events ++ [ValueEvent.close]).map .value) :=
  rfl

theorem run_list (vs : Values) {target : RecordTarget} {outer : List RecordTarget}
    (opened : r.opened = target :: outer) :
    r.run ((vs.events ++ [ValueEvent.close]).map .value) =
      .ok { r.modifyValues
        (fun x => (vs.events ++ [ValueEvent.close]).foldl RecordedValues.record x) target with
          opened := outer } :=
  run_closed opened (run_values vs opened)

/-- What is recorded in an owner that is left out is not recorded. -/
theorem run_nowhere (r : Recorder) (vs : Values) :
    (r.openAt .nowhere).run ((vs.events ++ [ValueEvent.close]).map .value) = .ok r := by
  have opened : (r.openAt .nowhere).opened = .nowhere :: r.opened := rfl
  exact run_list vs opened

/-- A new annotation with its values. -/
theorem modifyValues_outline (a : Annotation) :
    (⟨a.key, ∅⟩ : AnnotationOutline).modifyValues
      (fun x => (a.values.events ++ [ValueEvent.close]).foldl RecordedValues.record x) =
        a.outline := by
  rw [AnnotationOutline.modifyValues, RecordedValues.foldl_record_list]
  rfl

/-- An annotation of the class. -/
theorem run_annotation (r : Recorder) (a : Annotation) :
    r.run (a.events .annotate) = .ok { r with outline := { r.outline with
      annotations := r.outline.annotations.push a.outline } } := by
  rw [run_opening, step, ok_bind, annotateClass, openAt, run_list _ rfl]
  simp only [modifyValues, modify_push]
  rw [← modifyValues_outline]
  rfl

/-! ## Fields -/

section Fields

variable {before : Array FieldOutline} {f : Field}

/-- The recorder whose last field is retained and is the field so far. -/
def atField (r : Recorder) (before : Array FieldOutline) (f : Field) : Recorder where
  outline := { r.outline with fields := before.push f.outline }
  field := some before.size
  method := r.method
  opened := r.opened

/-- An annotation of a field that is retained. -/
theorem run_fieldAnnotation (a : Annotation) :
    (r.atField before f).run (a.events .annotateField) =
      .ok (r.atField before ⟨f.header, f.annotations ++ [a]⟩) := by
  have there : (r.atField before f).outline.fields[before.size]? = some f.outline :=
    Array.getElem?_push_size
  have grown : (⟨f.header, f.annotations ++ [a]⟩ : Field).outline =
      ⟨f.header, f.outline.annotations.push a.outline⟩ := by
    simp [Field.outline]
  rw [run_opening, step, ok_bind]
  show Recorder.run ((modifyField ..).openAt (.ofField before.size _)) _ = _
  rw [there, Option.map_some, Option.getD_some, run_list _ rfl]
  simp only [atField, modifyField, openAt, modifyValues, modify_push]
  rw [grown, ← modifyValues_outline]
  rfl

theorem run_fieldAnnotations (as : List Annotation) :
    (r.atField before f).run (as.flatMap (·.events .annotateField)) =
      .ok (r.atField before ⟨f.header, f.annotations ++ as⟩) := by
  induction as generalizing f with
  | nil =>
    rw [List.append_nil]
    rfl
  | cons a as ih =>
    rw [List.flatMap_cons, run_append, run_fieldAnnotation, ok_bind, ih, List.append_assoc]
    rfl

/-- The annotations of a field that is left out are not recorded. -/
theorem run_fieldAnnotations_none (left : r.field = none) (as : List Annotation) :
    r.run (as.flatMap (·.events .annotateField)) = .ok r := by
  induction as with
  | nil => rfl
  | cons a as ih =>
    rw [List.flatMap_cons, run_append, run_opening, step, ok_bind, annotateField, left, run_nowhere,
      ok_bind, ih]

/-- A field is recorded behind the other fields if it is retained. -/
theorem run_field (r : Recorder) (f : Field) :
    ∃ i, r.run f.events = .ok { r with
      outline := { r.outline with
        fields := if f.isRetained then r.outline.fields.push f.outline else r.outline.fields }
      field := i } := by
  rw [Field.events, run_cons, step, ok_bind, run_append, recordField]
  cases hidden : f.header.access.isPrivate with
  | true =>
    refine ⟨none, ?_⟩
    rw [if_pos rfl, run_fieldAnnotations_none rfl, Field.isRetained, hidden]
    rfl
  | false =>
    refine ⟨some r.outline.fields.size, ?_⟩
    have opened : (r.atField r.outline.fields ⟨f.header, []⟩).run
        (f.annotations.flatMap (·.events .annotateField)) =
          .ok (r.atField r.outline.fields f) :=
      run_fieldAnnotations f.annotations
    rw [if_neg Bool.false_ne_true, Field.isRetained, hidden]
    exact congrArg (· >>= fun r => r.run [.fieldEnd]) opened

end Fields

/-! ## Methods -/

section Methods

variable {before : Array MethodOutline} {m : Method}

/-- The recorder whose last method is retained and is the method so far. -/
def atMethod (r : Recorder) (before : Array MethodOutline) (m : Method) : Recorder where
  outline := { r.outline with methods := before.push m.outline }
  field := r.field
  method := some before.size
  opened := r.opened

theorem getElem?_atMethod (r : Recorder) (before : Array MethodOutline) (m : Method) :
    (r.atMethod before m).outline.methods[before.size]? = some m.outline :=
  Array.getElem?_push_size

/-- A default replaces an earlier one. -/
theorem run_default (vs : Values) :
    (r.atMethod before m).run (MethodPart.default vs).events =
      .ok (r.atMethod before (m.addPart (.default vs))) := by
  have grown : (m.addPart (.default vs)).outline =
      { m.outline with defaultValue := some (.ofValues vs) } := by
    simp [Method.outline_addPart, MethodPart.default?, MethodPart.annotation?,
      MethodPart.parameterCount?, MethodPart.parameterAnnotation?]
    rfl
  rw [MethodPart.events, run_cons, step, ok_bind]
  show Recorder.run ((modifyMethod ..).openAt (.ofDefault before.size)) _ = _
  rw [run_list _ rfl]
  simp only [atMethod, modifyMethod, openAt, modifyValues, modify_push, Option.map_some]
  rw [grown, RecordedValues.foldl_record_list]

/-- An annotation of a method that is retained. -/
theorem run_methodAnnotation (a : Annotation) :
    (r.atMethod before m).run (MethodPart.annotate a).events =
      .ok (r.atMethod before (m.addPart (.annotate a))) := by
  have grown : (m.addPart (.annotate a)).outline =
      { m.outline with annotations := m.outline.annotations.push a.outline } := by
    simp [Method.outline_addPart, MethodPart.default?, MethodPart.annotation?,
      MethodPart.parameterCount?, MethodPart.parameterAnnotation?]
    rfl
  rw [MethodPart.events, run_opening, step, ok_bind]
  show Recorder.run ((modifyMethod ..).openAt (.ofMethod before.size _)) _ = _
  rw [getElem?_atMethod, Option.map_some, Option.getD_some, run_list _ rfl]
  simp only [atMethod, modifyMethod, openAt, modifyValues, modify_push]
  rw [grown, ← modifyValues_outline]
  rfl

/-- A stated number of parameters replaces an earlier one of the visibility. -/
theorem run_parameterCount (count : Int) (visible : Bool) :
    (r.atMethod before m).run (MethodPart.parameterCount count visible).events =
      .ok (r.atMethod before (m.addPart (.parameterCount count visible))) := by
  have grown : (m.addPart (.parameterCount count visible)).outline =
      if visible then { m.outline with visibleParameters := some count }
      else { m.outline with invisibleParameters := some count } := by
    cases visible <;>
      simp [Method.outline_addPart, MethodPart.default?, MethodPart.annotation?,
        MethodPart.parameterCount?, MethodPart.parameterAnnotation?] <;> rfl
  show Except.ok (modifyMethod ..) = _
  simp only [atMethod, modifyMethod, modify_push]
  rw [grown]

/-- An annotation of a parameter of a method that is retained. -/
theorem run_parameterAnnotation {parameter : Int} (nonneg : 0 ≤ parameter) (a : Annotation) :
    (r.atMethod before m).run (MethodPart.annotateParameter parameter a).events =
      .ok (r.atMethod before (m.addPart (.annotateParameter parameter a))) := by
  obtain ⟨k, rfl⟩ := Int.eq_ofNat_of_zero_le nonneg
  have grown : (m.addPart (.annotateParameter k a)).outline =
      { m.outline with parameters := m.outline.parameters.push ⟨k, a.outline⟩ } := by
    simp [Method.outline_addPart, MethodPart.default?, MethodPart.annotation?,
      MethodPart.parameterCount?, MethodPart.parameterAnnotation?, parameterOutline]
    rfl
  rw [MethodPart.events, run_opening, step, ok_bind]
  show Recorder.run ((modifyMethod ..).openAt (.ofParameter before.size _)) _ = _
  rw [getElem?_atMethod, Option.map_some, Option.getD_some, run_list _ rfl]
  simp only [atMethod, modifyMethod, openAt, modifyValues, modify_push]
  rw [grown, ← modifyValues_outline]
  rfl

/-- The parts of a method that is retained. -/
theorem run_methodParts {parts : List MethodPart}
    (nonneg : ∀ x ∈ parts.filterMap MethodPart.parameterAnnotation?, 0 ≤ x.1) :
    (r.atMethod before m).run (parts.flatMap MethodPart.events) =
      .ok (r.atMethod before { m with parts := m.parts ++ parts }) := by
  induction parts generalizing m with
  | nil =>
    rw [List.append_nil]
    rfl
  | cons part parts ih =>
    have first : (r.atMethod before m).run part.events = .ok (r.atMethod before (m.addPart part)) := by
      cases part with
      | default vs => exact run_default vs
      | annotate a => exact run_methodAnnotation a
      | parameterCount count visible => exact run_parameterCount count visible
      | annotateParameter parameter a =>
        have inRange := nonneg (parameter, a) (by simp [MethodPart.parameterAnnotation?])
        exact run_parameterAnnotation inRange a
    have others : ∀ x ∈ parts.filterMap MethodPart.parameterAnnotation?, 0 ≤ x.1 := by
      intro x mem
      obtain ⟨part', mem, eq⟩ := List.mem_filterMap.mp mem
      exact nonneg x (List.mem_filterMap.mpr ⟨part', List.mem_cons_of_mem part mem, eq⟩)
    rw [List.flatMap_cons, run_append, first, ok_bind, ih others, Method.addPart, List.append_assoc]
    rfl

/-- The parts of a method that is left out are not recorded. -/
theorem run_methodParts_none (left : r.method = none) (parts : List MethodPart) :
    r.run (parts.flatMap MethodPart.events) = .ok r := by
  induction parts with
  | nil => rfl
  | cons part parts ih =>
    have first : r.run part.events = .ok r := by
      cases part with
      | default vs =>
        rw [MethodPart.events, run_cons, step, ok_bind, openDefault, left, run_nowhere]
      | annotate a =>
        rw [MethodPart.events, run_opening, step, ok_bind, annotateMethod, left, run_nowhere]
      | parameterCount count visible =>
        rw [MethodPart.events, run_cons, step, recordParameterCount, left]
        rfl
      | annotateParameter parameter a =>
        rw [MethodPart.events, run_opening, step, ok_bind]
        simp only [annotateParameter, left]
        exact run_nowhere r a.values
    rw [List.flatMap_cons, run_append, first, ok_bind, ih]

/-- A method is recorded behind the other methods if it is retained. -/
theorem run_method (r : Recorder) {m : Method} (nonneg : ∀ x ∈ m.parameterAnnotations, 0 ≤ x.1) :
    ∃ i, r.run m.events = .ok { r with
      outline := { r.outline with
        methods := if m.isRetained then r.outline.methods.push m.outline else r.outline.methods }
      method := i } := by
  rw [Method.events, run_cons, step, ok_bind, run_append, recordMethod]
  cases left : m.header.access.isPrivate || m.header.access.isBridge with
  | true =>
    refine ⟨none, ?_⟩
    rw [if_pos rfl, run_methodParts_none rfl, Method.isRetained, left]
    rfl
  | false =>
    refine ⟨some r.outline.methods.size, ?_⟩
    have told : (r.atMethod r.outline.methods ⟨m.header, []⟩).run
        (m.parts.flatMap MethodPart.events) = .ok (r.atMethod r.outline.methods m) :=
      run_methodParts nonneg
    rw [if_neg Bool.false_ne_true, Method.isRetained, left]
    exact congrArg (· >>= fun r => r.run [.methodEnd]) told

end Methods

/-! ## Classes -/

/-- A part of a class is recorded behind what is recorded of the class. -/
theorem run_classPart {file : Text} {s : ClassStream} (told : r.outline = s.outline file)
    {part : ClassPart}
    (nonneg : ∀ m, part = .method m → ∀ x ∈ m.parameterAnnotations, 0 ≤ x.1) :
    ∃ r', r.run part.events = .ok r' ∧ r'.outline = (s.addPart part).outline file := by
  cases part with
  | annotate a =>
    refine ⟨_, run_annotation r a, ?_⟩
    rw [ClassStream.outline_addPart, told]
    simp [ClassPart.annotation?, ClassPart.field?, ClassPart.method?]
  | field f =>
    obtain ⟨i, recorded⟩ := run_field r f
    refine ⟨_, recorded, ?_⟩
    rw [ClassStream.outline_addPart, told]
    cases retained : f.isRetained <;>
      simp [ClassPart.annotation?, ClassPart.field?, ClassPart.method?, retained]
  | method m =>
    obtain ⟨i, recorded⟩ := run_method r (nonneg m rfl)
    refine ⟨_, recorded, ?_⟩
    rw [ClassStream.outline_addPart, told]
    cases retained : m.isRetained <;>
      simp [ClassPart.annotation?, ClassPart.field?, ClassPart.method?, retained]

/-- The parts of a class are recorded one behind the other. -/
theorem run_classParts {file : Text} {parts : List ClassPart}
    (nonneg : ∀ m, .method m ∈ parts → ∀ x ∈ m.parameterAnnotations, 0 ≤ x.1) {r : Recorder}
    {s : ClassStream} (told : r.outline = s.outline file) :
    ∃ r', r.run (parts.flatMap ClassPart.events) = .ok r' ∧
      r'.outline = (⟨s.header, s.parts ++ parts⟩ : ClassStream).outline file := by
  induction parts generalizing r s with
  | nil =>
    refine ⟨r, rfl, ?_⟩
    rw [List.append_nil]
    exact told
  | cons part parts ih =>
    have here : ∀ m, part = .method m → ∀ x ∈ m.parameterAnnotations, 0 ≤ x.1 :=
      fun m eq => nonneg m (eq ▸ List.mem_cons_self)
    obtain ⟨r₁, first, told⟩ := run_classPart told here
    obtain ⟨r₂, others, told⟩ := ih (fun m mem => nonneg m (List.mem_cons_of_mem part mem)) told
    refine ⟨r₂, ?_, ?_⟩
    · rw [List.flatMap_cons, run_append, first, ok_bind, others]
    · rw [told, ClassStream.addPart, List.append_assoc]
      rfl

end Recorder

/-- The events of a class leave what is recorded of the class. -/
theorem ofEvents_eq_outline (file : Text) {s : ClassStream}
    (nonneg : ∀ m ∈ s.methods, ∀ x ∈ m.parameterAnnotations, 0 ≤ x.1) :
    Outline.ofEvents file s.events = .ok (s.outline file) := by
  let start : ClassStream := ⟨s.header, []⟩
  have header : (Recorder.named file).step (.header s.header) =
      .ok { Recorder.named file with outline := start.outline file } :=
    rfl
  have methods : ∀ m, .method m ∈ s.parts → ∀ x ∈ m.parameterAnnotations, 0 ≤ x.1 :=
    fun m mem => nonneg m (List.mem_filterMap.mpr ⟨.method m, mem, rfl⟩)
  obtain ⟨r, parts, told⟩ := Recorder.run_classParts methods
    (r := { Recorder.named file with outline := start.outline file }) (s := start) rfl
  rw [Outline.ofEvents, ClassStream.events, Recorder.run_cons, header, ok_bind, Recorder.run_append,
    parts, ok_bind]
  exact congrArg Except.ok told

/-! ## Telling the outline again -/

theorem Annotation.replay_outline (a : Annotation) (opening : Text → Bool → Event) :
    a.outline.replay opening = a.events opening := by
  rw [AnnotationOutline.replay, outline, RecordedValues.replay_ofValues]
  rfl

theorem flatMap_replay_outline (as : List Annotation) (opening : Text → Bool → Event) :
    (canonicalOrder AnnotationOutline.before (as.map Annotation.outline)).flatMap
        (·.replay opening) = (canonicalAnnotations as).flatMap (·.events opening) := by
  have order : canonicalOrder AnnotationOutline.before (as.map Annotation.outline) =
      (canonicalAnnotations as).map Annotation.outline :=
    canonicalOrder_map strictOrder_annotationKey AnnotationOutline.key (fun a => rfl) as
  rw [order, List.flatMap_map]
  exact List.flatMap_congr fun a _ => a.replay_outline opening

theorem Field.replay_outline (f : Field) : f.outline.replay = f.canonical.events := by
  rw [FieldOutline.replay, AnnotationOutline.replayAll, outline, flatMap_replay_outline]
  rfl

namespace Method

/-- The parameter annotations of one visibility are told in normal form. -/
theorem replayParameters_outline {m : Method} (nonneg : ∀ x ∈ m.parameterAnnotations, 0 ≤ x.1)
    (visible : Bool) :
    m.outline.replayParameters visible =
      ((m.lastCount visible).map (MethodPart.parameterCount · visible) ++
        (m.canonicalParameters visible).map parameterPart).flatMap MethodPart.events := by
  have count : m.outline.parameterCount visible = (m.parameterCounts visible).getLast? := by
    cases visible <;> rfl
  have order : canonicalOrder ParameterOutline.before (m.parameterAnnotations.map parameterOutline) =
      (canonicalOrder (fun x y => (parameterKey x).before (parameterKey y))
        m.parameterAnnotations).map parameterOutline :=
    canonicalOrder_map strictOrder_parameterKey ParameterOutline.key (fun a => rfl) _
  have filtered : m.canonicalParameters visible =
      (canonicalOrder (fun x y => (parameterKey x).before (parameterKey y))
        m.parameterAnnotations).filter fun x => x.2.visible == visible :=
    ((isCanonical_canonicalOrder strictOrder_parameterKey parameterKey
      m.parameterAnnotations).filter fun k : ParameterKey =>
        k.key.visible == visible).canonicalOrder_eq strictOrder_parameterKey
  have told : ∀ x ∈ m.canonicalParameters visible,
      (parameterOutline x).outline.replay (.annotateParameter (parameterOutline x).parameter) =
        (parameterPart x).events := by
    intro x mem
    have mem := (isCanonical_parameters m visible).mem strictOrder_parameterKey mem
    have there := nonneg x (List.mem_of_mem_filter mem)
    show x.2.outline.replay (.annotateParameter (x.1.toNat : Int)) = _
    rw [x.2.replay_outline, Int.toNat_of_nonneg there]
    rfl
  have listed : (canonicalOrder ParameterOutline.before m.outline.parameters.toList).filter
      (fun p => p.outline.key.visible == visible) =
        (m.canonicalParameters visible).map parameterOutline := by
    rw [filtered, outline, List.toList_toArray, order, List.filter_map]
    rfl
  rw [MethodOutline.replayParameters, count, listed, List.flatMap_map, List.flatMap_append,
    List.flatMap_map, List.flatMap_map, List.flatMap_congr told, lastCount]
  cases (m.parameterCounts visible).getLast? <;> rfl

theorem replay_outline {m : Method} (nonneg : ∀ x ∈ m.parameterAnnotations, 0 ≤ x.1) :
    m.outline.replay = m.canonical.events := by
  have default : m.outline.replayDefault =
      (m.defaults.getLast?.toList.map MethodPart.default).flatMap MethodPart.events := by
    rw [MethodOutline.replayDefault, outline]
    cases m.defaults.getLast? with
    | none => rfl
    | some vs =>
      simp only [Option.map_some, RecordedValues.replay_ofValues]
      simp [MethodPart.events]
  have annotations : AnnotationOutline.replayAll m.outline.annotations .annotateMethod =
      ((canonicalAnnotations m.annotations).map MethodPart.annotate).flatMap MethodPart.events := by
    rw [AnnotationOutline.replayAll, outline, List.toList_toArray, flatMap_replay_outline,
      List.flatMap_map]
    rfl
  rw [MethodOutline.replay, default, annotations, replayParameters_outline nonneg,
    replayParameters_outline nonneg, Method.events, canonical, ordered]
  simp only [List.flatMap_append]
  rfl

end Method

/-- The outline of a class is told as the normal form of the class. -/
theorem ClassStream.replay_outline (file : Text) {s : ClassStream}
    (nonneg : ∀ m ∈ s.methods, ∀ x ∈ m.parameterAnnotations, 0 ≤ x.1) :
    (s.outline file).replay = .ok s.canonical.events := by
  have annotations : (s.outline file).canonicalAnnotations.flatMap (·.replay .annotate) =
      (canonicalAnnotations s.annotations).flatMap (·.events .annotate) :=
    flatMap_replay_outline s.annotations .annotate
  have fieldOrder : (s.outline file).canonicalFields = s.canonicalFields.map Field.outline :=
    canonicalOrder_map strictOrder_memberKey FieldOutline.key (fun f => rfl) _
  have methodOrder : (s.outline file).canonicalMethods = s.canonicalMethods.map Method.outline :=
    canonicalOrder_map strictOrder_memberKey MethodOutline.key (fun m => rfl) _
  have methods : ∀ m ∈ s.canonicalMethods, m.outline.replay = m.canonical.events := by
    intro m mem
    have mem := (isCanonical_methods s).mem strictOrder_memberKey mem
    exact Method.replay_outline (nonneg m (List.mem_of_mem_filter mem))
  rw [Outline.replay, annotations, fieldOrder, methodOrder, ClassDeclaration.events_eq]
  simp only [List.flatMap_map, Field.replay_outline, List.flatMap_congr methods, canonical]
  rfl

/-! ## Normal forms are replayed -/

/-- The outline of a class replays the normal form of the class, of which there is one. -/
theorem Outline.replay_isNormalForm (file : Text) {s : ClassStream}
    (nonneg : ∀ m ∈ s.methods, ∀ x ∈ m.parameterAnnotations, 0 ≤ x.1) :
    ∃ o c, Outline.ofEvents file s.events = .ok o ∧ o.replay = .ok c.events ∧
      s.IsNormalForm c ∧ ∀ c', s.IsNormalForm c' → c' = c := by
  refine ⟨s.outline file, s.canonical, ofEvents_eq_outline file nonneg,
    ClassStream.replay_outline file nonneg, s.isNormalForm_canonical, ?_⟩
  intro c' form
  exact form.eq_canonical

/-- A class that tells a method before a private field, with two annotations of one type on the
second parameter of the method and one on the first. -/
def crowdedClass : ClassStream where
  header := ⟨52, .ofFlags 0x21 false, Text.ascii "A", none, none, none⟩
  parts := [
    .method ⟨⟨.ofFlags 1 false, Text.ascii "m", Text.ascii "(II)V", none, none⟩, [
      .annotateParameter 1 ⟨Text.ascii "LX;", true, .nil⟩,
      .annotateParameter 1 ⟨Text.ascii "LX;", true, .cons [] (.constant (.int 1)) .nil⟩,
      .annotateParameter 0 ⟨Text.ascii "LX;", true, .nil⟩]⟩,
    .field ⟨⟨.ofFlags 2 false, Text.ascii "f", Text.ascii "I", none, none⟩, []⟩]

theorem Outline.replay_crowdedClass :
    (∀ m ∈ crowdedClass.methods, ∀ x ∈ m.parameterAnnotations, 0 ≤ x.1) ∧
      ∃ o c, Outline.ofEvents [] crowdedClass.events = .ok o ∧ o.replay = .ok c.events ∧
        crowdedClass.IsNormalForm c ∧ ∀ c', crowdedClass.IsNormalForm c' → c' = c := by
  have nonneg : ∀ m ∈ crowdedClass.methods, ∀ x ∈ m.parameterAnnotations, 0 ≤ x.1 := by decide
  exact ⟨nonneg, Outline.replay_isNormalForm [] nonneg⟩

end ClassAbi
