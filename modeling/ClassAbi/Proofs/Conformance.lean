import ClassAbi.Proofs.Deliveries
import ClassAbi.Proofs.StoredClass

/-!
# What a reader delivers conforms

Whatever the bytes are, the events of a reader come in one order: the header,
the annotations of the class, its fields, its methods and the end.  Annotations
that are visible at run time come before the others.  A method tells its default
before its annotations, and these before those of its parameters, whose number
comes first (`ClassDeclaration.Conforms`).

Each function of the reader follows the language of what it is to deliver, by
induction on how deeply values may still nest.  So a reader that fails has
delivered the beginning of a conforming class, and never the whole of one, as
nothing but the end of the class comes after all that can fail
(`readClass_conforms`).
-/

namespace ClassAbi

/-! ## Conforming classes -/

/-- The annotations that are visible at run time come first. -/
def VisibleFirst (as : List Annotation) : Prop :=
  ∃ shown hidden, (∀ a ∈ shown, a.visible = true) ∧ (∀ a ∈ hidden, a.visible = false) ∧
    as = shown ++ hidden

/-- There is no default, or one of a single value without a name. -/
def DefaultConforms (parts : List MethodPart) : Prop :=
  parts = [] ∨ ∃ v, parts = [.default (.cons [] v .nil)]

/-- The annotation is of a parameter below the count, and has the visibility. -/
def ParameterConforms (count : Nat) (visible : Bool) (x : Int × Annotation) : Prop :=
  0 ≤ x.1 ∧ x.1 < count ∧ x.2.visible = visible

/-- There is nothing about parameters, or their count and then annotations of those that it
counts. -/
def ParametersConform (visible : Bool) (parts : List MethodPart) : Prop :=
  parts = [] ∨ ∃ (count : Nat) (xs : List (Int × Annotation)),
    (∀ x ∈ xs, ParameterConforms count visible x) ∧
    parts = .parameterCount count visible :: xs.map fun x => .annotateParameter x.1 x.2

/-- The parts of the method come in the order of a reader. -/
def Method.Conforms (m : Method) : Prop :=
  ∃ default as shown hidden, DefaultConforms default ∧ VisibleFirst as ∧
    ParametersConform true shown ∧ ParametersConform false hidden ∧
    m.parts = default ++ (as.map .annotate ++ (shown ++ hidden))

/-- The parts of the class come in the order of a reader. -/
structure ClassDeclaration.Conforms (c : ClassDeclaration) : Prop where
  annotations : VisibleFirst c.annotations
  fields : ∀ f ∈ c.fields, VisibleFirst f.annotations
  methods : ∀ m ∈ c.methods, m.Conforms

/-- The events are those of a class, from its header to its end, in the order of a reader. -/
def ConformingStream (events : List Event) : Prop :=
  ∃ c : ClassDeclaration, c.Conforms ∧ events = c.events

/-! ## Languages of the parts -/

/-- The events of items one behind the other, all of which have the property. -/
def eventsOf {α : Type} (P : α → Prop) (told : α → List Event) : Language Event :=
  {events | ∃ as : List α, (∀ a ∈ as, P a) ∧ events = as.flatMap told}

/-- The events of one value under the name. -/
def valueEvents (name : Text) : Language Event :=
  {events | ∃ v : Value, events = (v.events name).map .value}

/-- The events of the values of a list. -/
def valuesEvents : Language Event := {events | ∃ vs : Values, events = vs.events.map .value}

/-- The events of the values of a list, and the event that closes it. -/
def listEvents : Language Event :=
  {events | ∃ vs : Values, events = (vs.events ++ [ValueEvent.close]).map .value}

/-- The events of annotations of one visibility. -/
def annotationEvents (opening : Text → Bool → Event) (visible : Bool) : Language Event :=
  eventsOf (·.visible = visible) fun a : Annotation => a.events opening

/-- The events of parts of a method. -/
def partEvents (P : List MethodPart → Prop) : Language Event :=
  {events | ∃ parts, P parts ∧ events = parts.flatMap MethodPart.events}

section Languages

variable {α : Type} {P : α → Prop} {told : α → List Event}

theorem nil_mem_eventsOf : [] ∈ eventsOf P told := ⟨[], List.forall_mem_nil P, rfl⟩

theorem append_mem_eventsOf {first second : List Event} (h : first ∈ eventsOf P told)
    (h' : second ∈ eventsOf P told) : first ++ second ∈ eventsOf P told := by
  obtain ⟨as, has, rfl⟩ := h
  obtain ⟨bs, hbs, rfl⟩ := h'
  exact ⟨as ++ bs, List.forall_mem_append.mpr ⟨has, hbs⟩, List.flatMap_append.symm⟩

theorem mem_eventsOf {a : α} (h : P a) : told a ∈ eventsOf P told :=
  ⟨[a], List.forall_mem_singleton.mpr h, (List.flatMap_singleton told a).symm⟩

/-- A fold whose parts tell such items tells such items. -/
theorem follows_eventsOf_fold {β σ : Type} [Inhabited σ] {part : σ → β → Delivery σ}
    {items : List β} (s : σ) (h : ∀ s, ∀ b ∈ items, (part s b).Follows (eventsOf P told)) :
    (Delivery.fold part s items).Follows (eventsOf P told) :=
  Delivery.follows_fold s h nil_mem_eventsOf fun _ h _ h' => append_mem_eventsOf h h'

theorem append_mem_valuesEvents {name : Text} {first second : List Event}
    (h : first ∈ valueEvents name) (h' : second ∈ valuesEvents) : first ++ second ∈ valuesEvents := by
  obtain ⟨v, rfl⟩ := h
  obtain ⟨vs, rfl⟩ := h'
  exact ⟨.cons name v vs, by rw [Values.events, List.map_append]⟩

/-- The values of a list may have been told under any names. -/
theorem append_mem_valuesEvents_of_exists {first second : List Event}
    (h : first ∈ {events | ∃ name, events ∈ valueEvents name}) (h' : second ∈ valuesEvents) :
    first ++ second ∈ valuesEvents := by
  obtain ⟨name, h⟩ := h
  exact append_mem_valuesEvents h h'

theorem append_close_mem_listEvents {first : List Event} (h : first ∈ valuesEvents) :
    first ++ [Event.value .close] ∈ listEvents := by
  obtain ⟨vs, rfl⟩ := h
  exact ⟨vs, by rw [List.map_append]; rfl⟩

end Languages

/-! ## Values -/

section Reading

variable {d : ByteArray} {t : ConstantTable}

/-- A list that is told value by value and then closed. -/
theorem follows_close {m : Delivery Nat} (h : m.Follows valuesEvents) :
    Delivery.Follows (do
      let offset ← m
      .deliver (.value .close)
      return offset) listEvents := by
  refine h.bind (M := {[.value .close]}) (fun offset => ?_) ?_
  · exact Delivery.follows_deliver_bind (M := 1) (Delivery.follows_pure offset rfl)
      (by rintro _ rfl; rfl)
  · rintro first hfirst _ rfl
    exact append_close_mem_listEvents hfirst

theorem follows_readNamedValues {readValue : Text → Nat → Delivery Nat}
    (h : ∀ name offset, (readValue name offset).Follows (valueEvents name)) (offset : Nat) :
    (readNamedValues d t readValue offset).Follows listEvents := by
  refine Delivery.follows_ofExcept_bind fun ⟨count, offset⟩ => follows_close ?_
  refine Delivery.follows_fold (L := {events | ∃ name, events ∈ valueEvents name}) offset ?_
    ⟨.nil, rfl⟩ fun _ h _ h' => append_mem_valuesEvents_of_exists h h'
  rintro offset i -
  refine Delivery.follows_ofExcept_bind fun ⟨name, offset⟩ => ?_
  exact (h name offset).mono fun _ told => ⟨name, told⟩

theorem follows_readElements {readValue : Text → Nat → Delivery Nat}
    (h : ∀ name offset, (readValue name offset).Follows (valueEvents name)) (count offset : Nat) :
    (readElements readValue count offset).Follows listEvents := by
  refine follows_close (Delivery.follows_fold (L := valueEvents []) offset ?_ ⟨.nil, rfl⟩ ?_)
  · rintro offset i -
    exact h [] offset
  · exact fun _ h _ h' => append_mem_valuesEvents h h'

/-- A value that is one event. -/
theorem follows_deliver_value {name : Text} {e : ValueEvent} {v : Value} (offset : Nat)
    (h : v.events name = [e]) :
    Delivery.Follows (do
      .deliver (.value e)
      return offset) (valueEvents name) :=
  Delivery.follows_deliver_bind (M := 1) (Delivery.follows_pure offset rfl) (by
    rintro _ rfl
    exact ⟨v, by rw [h]; rfl⟩)

/-- A value is told, or the beginning of one, however deeply values may still nest. -/
theorem follows_readValue (levels : Nat) (name : Text) (offset : Nat) :
    (readValue d t levels name offset).Follows (valueEvents name) := by
  induction levels generalizing name offset with
  | zero => exact Delivery.follows_fail _ ⟨.enum [] [], rfl⟩
  | succ levels ih =>
    rw [readValue]
    refine Delivery.follows_ofExcept_bind ?_
    rintro ⟨tag, offset⟩
    dsimp only
    split
    · next lookup _ =>
      refine Delivery.follows_ofExcept_bind ?_
      rintro ⟨c, offset⟩
      exact follows_deliver_value offset (v := .constant c) rfl
    split
    · refine Delivery.follows_ofExcept_bind ?_
      rintro ⟨descriptor, offset⟩
      refine Delivery.follows_ofExcept_bind ?_
      rintro ⟨value, offset⟩
      exact follows_deliver_value offset (v := .enum descriptor value) rfl
    split
    · refine Delivery.follows_ofExcept_bind ?_
      rintro ⟨descriptor, offset⟩
      refine Delivery.follows_deliver_bind (follows_readNamedValues ih offset) ?_
      rintro _ ⟨vs, rfl⟩
      exact ⟨.nested descriptor vs, rfl⟩
    split
    · refine Delivery.follows_ofExcept_bind ?_
      rintro ⟨count, offset⟩
      refine Delivery.follows_deliver_bind (follows_readElements ih count.toNat offset) ?_
      rintro _ ⟨vs, rfl⟩
      exact ⟨.array vs, rfl⟩
    · exact Delivery.follows_fail _ ⟨.enum [] [], rfl⟩

/-! ## Annotations -/

theorem follows_readAnnotations (opening : Text → Bool → Event) (visible : Bool) (offset : Nat) :
    (readAnnotations d t (opening · visible) offset).Follows (annotationEvents opening visible) := by
  refine Delivery.follows_ofExcept_bind fun ⟨count, offset⟩ => follows_eventsOf_fold offset ?_
  rintro offset i -
  refine Delivery.follows_ofExcept_bind fun ⟨descriptor, offset⟩ => ?_
  refine Delivery.follows_deliver_bind
    (follows_readNamedValues (follows_readValue (nestingLimit + 1)) offset) ?_
  rintro _ ⟨vs, rfl⟩
  exact mem_eventsOf (a := (⟨descriptor, visible, vs⟩ : Annotation)) rfl

/-- What is read for its events alone. -/
theorem follows_discard {m : Delivery Nat} {L : Language Event} (h : m.Follows L) :
    Delivery.Follows (do
      let _ ← m
      return ()) L := by
  refine h.bind (M := 1) (fun _ => Delivery.follows_pure () rfl) ?_
  rintro first hfirst _ rfl
  rwa [List.append_nil]

theorem follows_readAnnotationsAt (opening : Text → Bool → Event) (visible : Bool)
    (place : Option Nat) :
    (readAnnotationsAt d t (opening · visible) place).Follows
      (annotationEvents opening visible) := by
  cases place with
  | none => exact Delivery.follows_pure () nil_mem_eventsOf
  | some offset => exact follows_discard (follows_readAnnotations opening visible offset)

/-- The visible annotations and then the others. -/
theorem exists_visibleFirst {opening : Text → Bool → Event} {first second : List Event}
    (h : first ∈ annotationEvents opening true) (h' : second ∈ annotationEvents opening false) :
    ∃ as, VisibleFirst as ∧ first ++ second = as.flatMap (·.events opening) := by
  obtain ⟨shown, hshown, rfl⟩ := h
  obtain ⟨hidden, hhidden, rfl⟩ := h'
  exact ⟨_, ⟨shown, hidden, hshown, hhidden, rfl⟩, List.flatMap_append.symm⟩

/-- The annotations of each parameter are read under its number, so all numbers are below the
count. -/
theorem follows_readParameterAnnotations (visible : Bool) (offset : Nat) :
    (readParameterAnnotations d t visible offset).Follows
      (partEvents (ParametersConform visible)) := by
  refine Delivery.follows_ofExcept_bind fun ⟨count, offset⟩ => ?_
  have each : Delivery.Follows
      (Delivery.fold (fun offset (parameter : Nat) => readAnnotations d t
        (fun descriptor => .annotateParameter parameter descriptor visible) offset) offset
        (List.range count.toNat))
      (eventsOf (ParameterConforms count.toNat visible)
        fun x => x.2.events (.annotateParameter x.1)) := by
    refine follows_eventsOf_fold offset fun offset parameter mem => ?_
    have below := List.mem_range.mp mem
    refine (follows_readAnnotations (.annotateParameter parameter) visible offset).mono ?_
    rintro _ ⟨as, has, rfl⟩
    refine ⟨as.map ((parameter : Int), ·), ?_, ?_⟩
    · intro x hx
      obtain ⟨a, ha, rfl⟩ := List.mem_map.mp hx
      exact ⟨Int.natCast_nonneg parameter, Int.ofNat_lt.mpr below, has a ha⟩
    · rw [List.flatMap_map]
  refine Delivery.follows_deliver_bind each ?_
  rintro _ ⟨xs, hxs, rfl⟩
  refine ⟨_, .inr ⟨count.toNat, xs, hxs, rfl⟩, ?_⟩
  rw [List.flatMap_cons, List.flatMap_map]
  rfl

theorem follows_readParameterAnnotationsAt (visible : Bool) (place : Option Nat) :
    (readParameterAnnotationsAt d t visible place).Follows
      (partEvents (ParametersConform visible)) := by
  cases place with
  | none => exact Delivery.follows_pure () ⟨[], .inl rfl, rfl⟩
  | some offset => exact follows_discard (follows_readParameterAnnotations visible offset)

theorem follows_readDefaultAt (place : Option Nat) :
    (readDefaultAt d t place).Follows (partEvents DefaultConforms) := by
  cases place with
  | none => exact Delivery.follows_pure () ⟨[], .inl rfl, rfl⟩
  | some offset =>
    have value : Delivery.Follows (do
        let _ ← readOuterValue d t [] offset
        .deliver (.value .close))
        {events | ∃ v : Value, events = (v.events []).map .value ++ [.value .close]} := by
      refine (follows_readValue (nestingLimit + 1) [] offset).bind (M := {[.value .close]})
        (fun _ => Delivery.follows_deliver _) ?_
      rintro _ ⟨v, rfl⟩ _ rfl
      exact ⟨v, rfl⟩
    refine Delivery.follows_deliver_bind value ?_
    rintro _ ⟨v, rfl⟩
    exact ⟨_, .inr ⟨v, rfl⟩, by simp [MethodPart.events, Values.events]⟩

/-! ## Members -/

theorem follows_readField (m : MemberLayout) :
    (readField d t m).Follows
      {events | ∃ f : Field, VisibleFirst f.annotations ∧ events = f.events} := by
  refine Delivery.follows_ofExcept_bind fun h => ?_
  have annotations :=
    (follows_readAnnotationsAt (d := d) (t := t) .annotateField true
      m.attributes.visibleAnnotations).mul fun _ =>
    (follows_readAnnotationsAt (d := d) (t := t) .annotateField false
      m.attributes.invisibleAnnotations).mul fun _ =>
    Delivery.follows_deliver .fieldEnd
  refine Delivery.follows_deliver_bind annotations ?_
  rintro _ ⟨first, hfirst, _, ⟨second, hsecond, _, rfl, rfl⟩, rfl⟩
  obtain ⟨as, visibleFirst, eq⟩ := exists_visibleFirst hfirst hsecond
  refine ⟨⟨h, as⟩, visibleFirst, ?_⟩
  rw [Field.events, ← eq, List.append_assoc]

theorem follows_readMethod (m : MemberLayout) :
    (readMethod d t m).Follows {events | ∃ x : Method, x.Conforms ∧ events = x.events} := by
  refine Delivery.follows_ofExcept_bind fun h => ?_
  have parts :=
    (follows_readDefaultAt (d := d) (t := t) m.attributes.annotationDefault).mul fun _ =>
    (follows_readAnnotationsAt (d := d) (t := t) .annotateMethod true
      m.attributes.visibleAnnotations).mul fun _ =>
    (follows_readAnnotationsAt (d := d) (t := t) .annotateMethod false
      m.attributes.invisibleAnnotations).mul fun _ =>
    (follows_readParameterAnnotationsAt (d := d) (t := t) true
      m.attributes.visibleParameterAnnotations).mul fun _ =>
    (follows_readParameterAnnotationsAt (d := d) (t := t) false
      m.attributes.invisibleParameterAnnotations).mul fun _ =>
    Delivery.follows_deliver .methodEnd
  refine Delivery.follows_deliver_bind parts ?_
  rintro _ ⟨_, ⟨default, hdefault, rfl⟩, _, ⟨first, hfirst, _, ⟨second, hsecond, _,
    ⟨_, ⟨shown, hshown, rfl⟩, _, ⟨_, ⟨hidden, hhidden, rfl⟩, _, rfl, rfl⟩, rfl⟩, rfl⟩, rfl⟩, rfl⟩
  obtain ⟨as, visibleFirst, eq⟩ := exists_visibleFirst hfirst hsecond
  refine ⟨⟨h, _⟩, ⟨default, as, shown, hidden, hdefault, visibleFirst, hshown, hhidden, rfl⟩, ?_⟩
  have annotations : (as.map MethodPart.annotate).flatMap MethodPart.events = first ++ second := by
    rw [eq, List.flatMap_map]
    rfl
  simp only [Method.events, List.flatMap_append, annotations, List.append_assoc]

end Reading

/-! ## Step by step -/

/-- What is done to read a field. -/
def fieldSteps (d : ByteArray) (t : ConstantTable) (m : MemberLayout) : List (Delivery Unit) :=
  [do
    let h ← .ofExcept (fieldHeader d t m)
    .deliver (.field h),
   readAnnotationsAt d t (.annotateField · true) m.attributes.visibleAnnotations,
   readAnnotationsAt d t (.annotateField · false) m.attributes.invisibleAnnotations,
   .deliver .fieldEnd]

/-- What is done to read a method. -/
def methodSteps (d : ByteArray) (t : ConstantTable) (m : MemberLayout) : List (Delivery Unit) :=
  [do
    let h ← .ofExcept (methodHeader d t m)
    .deliver (.method h),
   readDefaultAt d t m.attributes.annotationDefault,
   readAnnotationsAt d t (.annotateMethod · true) m.attributes.visibleAnnotations,
   readAnnotationsAt d t (.annotateMethod · false) m.attributes.invisibleAnnotations,
   readParameterAnnotationsAt d t true m.attributes.visibleParameterAnnotations,
   readParameterAnnotationsAt d t false m.attributes.invisibleParameterAnnotations,
   .deliver .methodEnd]

/-- What is done to read a class that has been gone through, up to its end. -/
def ClassLayout.steps (d : ByteArray) (c : ClassLayout) : List (Delivery Unit) :=
  .deliver (.header c.header) ::
    readAnnotationsAt d c.table (.annotate · true) c.attributes.visibleAnnotations ::
    readAnnotationsAt d c.table (.annotate · false) c.attributes.invisibleAnnotations ::
    (c.fields.toList.flatMap (fieldSteps d c.table) ++
      c.methods.toList.flatMap (methodSteps d c.table))

section Steps

variable {d : ByteArray} {t : ConstantTable}

theorem inTurn_fieldSteps (m : MemberLayout) :
    Delivery.inTurn (fieldSteps d t m) = readField d t m := by
  simp only [fieldSteps, readField, Delivery.inTurn, bind_assoc]
  rfl

theorem inTurn_methodSteps (m : MemberLayout) :
    Delivery.inTurn (methodSteps d t m) = readMethod d t m := by
  simp only [methodSteps, readMethod, Delivery.inTurn, bind_assoc]
  rfl

theorem inTurn_fields (fields : List MemberLayout) :
    Delivery.inTurn (fields.flatMap (fieldSteps d t)) =
      Delivery.fold (fun _ m => readField d t m) () fields := by
  rw [Delivery.inTurn_flatMap, Delivery.fold_eq_inTurn]
  simp only [inTurn_fieldSteps]

theorem inTurn_methods (methods : List MemberLayout) :
    Delivery.inTurn (methods.flatMap (methodSteps d t)) =
      Delivery.fold (fun _ m => readMethod d t m) () methods := by
  rw [Delivery.inTurn_flatMap, Delivery.fold_eq_inTurn]
  simp only [inTurn_methodSteps]

/-- A class is read in steps and then ends. -/
theorem ClassLayout.read_eq_inTurn (c : ClassLayout) :
    c.read d = Delivery.inTurn (c.steps d) >>= fun _ => .deliver .classEnd := by
  simp only [steps, read, Delivery.inTurn, Delivery.inTurn_append, inTurn_fields, inTurn_methods,
    bind_assoc]

/-- Before its end, a class is told as a conforming class that only lacks the end. -/
theorem ClassLayout.follows_steps (c : ClassLayout) :
    (Delivery.inTurn (c.steps d)).Follows
      {events | ConformingStream (events ++ [.classEnd])} := by
  simp only [steps, Delivery.inTurn, Delivery.inTurn_append, inTurn_fields, inTurn_methods]
  have fields : (Delivery.fold (fun _ m => readField d c.table m) () c.fields.toList).Follows
      (eventsOf (fun f : Field => VisibleFirst f.annotations) Field.events) :=
    follows_eventsOf_fold () fun _ m _ => (follows_readField m).mono (by
      rintro _ ⟨f, hf, rfl⟩
      exact mem_eventsOf hf)
  have methods : (Delivery.fold (fun _ m => readMethod d c.table m) () c.methods.toList).Follows
      (eventsOf Method.Conforms Method.events) :=
    follows_eventsOf_fold () fun _ m _ => (follows_readMethod m).mono (by
      rintro _ ⟨x, hx, rfl⟩
      exact mem_eventsOf hx)
  have rest :=
    (follows_readAnnotationsAt (d := d) (t := c.table) .annotate true
      c.attributes.visibleAnnotations).mul fun _ =>
    (follows_readAnnotationsAt (d := d) (t := c.table) .annotate false
      c.attributes.invisibleAnnotations).mul fun _ =>
    fields.mul fun _ => methods
  refine Delivery.follows_deliver_bind rest ?_
  rintro _ ⟨first, hfirst, _, ⟨second, hsecond, _, ⟨_, ⟨fs, hfs, rfl⟩, _, ⟨ms, hms, rfl⟩, rfl⟩,
    rfl⟩, rfl⟩
  obtain ⟨as, visibleFirst, eq⟩ := exists_visibleFirst hfirst hsecond
  refine ⟨⟨c.header, as, fs, ms⟩, ⟨visibleFirst, hfs, hms⟩, ?_⟩
  rw [ClassDeclaration.events_eq, ← eq]
  simp only [List.append_assoc, List.cons_append]

end Steps

/-! ## Complete and incomplete streams -/

theorem ReadError.message_ne_nil (e : ReadError) : e.message ≠ [] := by
  cases e <;> simp [message, Text.ascii]

/-- The problem is the first one met, and the events are those delivered up to it.  Either the file
cannot be gone through, before anything is delivered, or one of the steps of reading it has the
problem after all steps before it have succeeded. -/
inductive FirstProblem (d : ByteArray) : List Event → ReadError → Prop
  | scanning {e : ReadError} (failed : ClassLayout.scan d = .error e) : FirstProblem d [] e
  | reading {c : ClassLayout} {before after : List (Delivery Unit)} {step : Delivery Unit}
      {e : ReadError} (scanned : ClassLayout.scan d = .ok c)
      (steps : c.steps d = before ++ step :: after)
      (succeeded : ∀ earlier ∈ before, earlier.result = .ok ()) (failed : step.result = .error e) :
      FirstProblem d (before.flatMap (·.events) ++ step.events) e

/-- The events are the beginning of a conforming stream, which goes on. -/
def IncompleteStream (events : List Event) : Prop :=
  ∃ full, ConformingStream full ∧ events <+: full ∧ events ≠ full

theorem incompleteStream_nil : IncompleteStream [] := by
  have empty : VisibleFirst [] := ⟨[], [], List.forall_mem_nil _, List.forall_mem_nil _, rfl⟩
  exact ⟨_, ⟨⟨default, [], [], []⟩, ⟨empty, List.forall_mem_nil _, List.forall_mem_nil _⟩, rfl⟩,
    List.nil_prefix, List.cons_ne_nil _ _ ∘ Eq.symm⟩

/-- What lacks the end is incomplete, and so is all that it begins with. -/
theorem incompleteStream_of_prefix {events full : List Event} {e : Event}
    (conforming : ConformingStream (full ++ [e])) (begins : events <+: full) :
    IncompleteStream events := by
  refine ⟨full ++ [e], conforming, begins.trans (List.prefix_append ..), ?_⟩
  rintro rfl
  have := begins.length_le
  rw [List.length_append, List.length_singleton] at this
  exact Nat.not_succ_le_self _ this

/-- What is read of any bytes is a complete conforming stream, or the beginning of one up to the
first problem met, which has a message. -/
theorem readClass_conforms (d : ByteArray) :
    match (readClass d).result with
    | .ok () => ConformingStream (readClass d).events
    | .error e => e.message ≠ [] ∧ FirstProblem d (readClass d).events e ∧
        IncompleteStream (readClass d).events := by
  rw [readClass]
  cases scanned : ClassLayout.scan d with
  | error e => exact ⟨e.message_ne_nil, .scanning scanned, incompleteStream_nil⟩
  | ok c =>
    rw [Delivery.ofExcept_ok, Delivery.ok_bind, c.read_eq_inTurn]
    have follows := c.follows_steps (d := d)
    have problem (e : ReadError) (failed : (Delivery.inTurn (c.steps d)).result = .error e) :=
      Delivery.exists_of_inTurn_eq_error failed
    generalize Delivery.inTurn (c.steps d) = m at follows problem
    obtain ⟨events, e | ⟨⟨⟩⟩⟩ := m
    · obtain ⟨full, conforming, begins⟩ := follows
      obtain ⟨before, step, after, steps, succeeded, failed, rfl⟩ := problem e rfl
      exact ⟨e.message_ne_nil, .reading scanned steps succeeded failed,
        incompleteStream_of_prefix conforming begins⟩
    · exact follows

end ClassAbi
