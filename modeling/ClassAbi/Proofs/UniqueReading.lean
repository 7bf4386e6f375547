import ClassAbi.Proofs.DeclarationParts

/-!
# Events can be read in one way

No sequence of events is that of two classes.  Every declaration has a code of
its own, none of which begins another (`PrefixFree`), and items that end with an
event that none of them begins with can be told apart one by one.
-/

namespace ClassAbi

/-! ## Prefix codes -/

/-- What begins with the code of an item determines the item and what follows. -/
def PrefixFree {α : Type} (code : α → List Event) : Prop :=
  ∀ ⦃a b : α⦄ ⦃x y : List Event⦄, code a ++ x = code b ++ y → a = b ∧ x = y

/-- Codes one behind the other up to an event that begins none of them. -/
theorem PrefixFree.list {α : Type} {code : α → List Event} (free : PrefixFree code) (mark : Event)
    (begins : ∀ a, ∃ e l, code a = e :: l ∧ e ≠ mark) :
    PrefixFree fun as : List α => as.flatMap code ++ [mark] := by
  intro as
  induction as with
  | nil =>
    intro bs x y h
    cases bs with
    | nil => exact ⟨rfl, List.tail_eq_of_cons_eq h⟩
    | cons b bs =>
      obtain ⟨e, l, eq, differs⟩ := begins b
      simp only [List.flatMap_cons, eq] at h
      exact absurd (List.head_eq_of_cons_eq h).symm differs
  | cons a as ih =>
    intro bs x y h
    cases bs with
    | nil =>
      obtain ⟨e, l, eq, differs⟩ := begins a
      simp only [List.flatMap_cons, eq] at h
      exact absurd (List.head_eq_of_cons_eq h) differs
    | cons b bs =>
      simp only [List.flatMap_cons, List.append_assoc] at h
      obtain ⟨rfl, others⟩ := free h
      simp only [← List.append_assoc] at others
      obtain ⟨rfl, rfl⟩ := ih others
      exact ⟨rfl, rfl⟩

/-! ## Values -/

mutual

theorem Value.events_prefix {name name' : Text} {x y : List Event} (v v' : Value)
    (h : (v.events name).map .value ++ x = (v'.events name').map .value ++ y) :
    name = name' ∧ v = v' ∧ x = y := by
  cases v with
  | constant c =>
    cases v' with
    | constant c' =>
      simp only [Value.events, List.map_cons, List.map_nil, List.cons_append, List.nil_append,
        List.cons.injEq, Event.value.injEq, ValueEvent.constant.injEq] at h
      obtain ⟨⟨rfl, rfl⟩, rfl⟩ := h
      exact ⟨rfl, rfl, rfl⟩
    | _ => simp [Value.events] at h
  | enum descriptor value =>
    cases v' with
    | enum descriptor' value' =>
      simp only [Value.events, List.map_cons, List.map_nil, List.cons_append, List.nil_append,
        List.cons.injEq, Event.value.injEq, ValueEvent.enum.injEq] at h
      obtain ⟨⟨rfl, rfl, rfl⟩, rfl⟩ := h
      exact ⟨rfl, rfl, rfl⟩
    | _ => simp [Value.events] at h
  | nested descriptor values =>
    cases v' with
    | nested descriptor' values' =>
      simp only [Value.events, List.map_cons, List.cons_append, List.cons.injEq,
        Event.value.injEq, ValueEvent.nested.injEq] at h
      obtain ⟨⟨rfl, rfl⟩, h⟩ := h
      obtain ⟨rfl, rfl⟩ := Values.events_prefix values values' h
      exact ⟨rfl, rfl, rfl⟩
    | _ => simp [Value.events] at h
  | array elements =>
    cases v' with
    | array elements' =>
      simp only [Value.events, List.map_cons, List.cons_append, List.cons.injEq,
        Event.value.injEq, ValueEvent.array.injEq] at h
      obtain ⟨rfl, h⟩ := h
      obtain ⟨rfl, rfl⟩ := Values.events_prefix elements elements' h
      exact ⟨rfl, rfl, rfl⟩
    | _ => simp [Value.events] at h

/-- The values of a list end with the first event that closes a list outside of them. -/
theorem Values.events_prefix {x y : List Event} (vs vs' : Values)
    (h : (vs.events ++ [ValueEvent.close]).map .value ++ x =
      (vs'.events ++ [ValueEvent.close]).map .value ++ y) : vs = vs' ∧ x = y := by
  cases vs with
  | nil =>
    cases vs' with
    | nil => exact ⟨rfl, List.tail_eq_of_cons_eq h⟩
    | cons name' value' rest' => cases value' <;> simp [Values.events, Value.events] at h
  | cons name value rest =>
    cases vs' with
    | nil => cases value <;> simp [Values.events, Value.events] at h
    | cons name' value' rest' =>
      simp only [Values.events, List.map_append, List.append_assoc] at h
      obtain ⟨rfl, rfl, others⟩ := Value.events_prefix value value' h
      have others : (rest.events ++ [ValueEvent.close]).map .value ++ x =
          (rest'.events ++ [ValueEvent.close]).map .value ++ y := by
        simpa only [List.map_append, List.append_assoc] using others
      obtain ⟨rfl, rfl⟩ := Values.events_prefix rest rest' others
      exact ⟨rfl, rfl⟩

end

/-! ## Annotations -/

/-- The event that opens an annotation shows the type and the visibility. -/
def OpensUniquely (opening : Text → Bool → Event) : Prop :=
  ∀ ⦃d d' v v'⦄, opening d v = opening d' v' → d = d' ∧ v = v'

theorem Annotation.events_prefix {opening : Text → Bool → Event} (unique : OpensUniquely opening) :
    PrefixFree fun a : Annotation => a.events opening := by
  rintro ⟨d, v, vs⟩ ⟨d', v', vs'⟩ x y h
  obtain ⟨open', h⟩ := List.cons.inj h
  obtain ⟨rfl, rfl⟩ := unique open'
  obtain ⟨rfl, rfl⟩ := Values.events_prefix vs vs' h
  exact ⟨rfl, rfl⟩

theorem opensUniquely_annotate : OpensUniquely .annotate := by
  intro d d' v v' h
  exact Event.annotate.inj h

theorem opensUniquely_annotateField : OpensUniquely .annotateField := by
  intro d d' v v' h
  exact Event.annotateField.inj h

theorem opensUniquely_annotateMethod : OpensUniquely .annotateMethod := by
  intro d d' v v' h
  exact Event.annotateMethod.inj h

theorem opensUniquely_annotateParameter (p : Int) : OpensUniquely (.annotateParameter p) := by
  intro d d' v v' h
  exact (Event.annotateParameter.inj h).2

/-! ## Members -/

theorem Field.events_prefix : PrefixFree Field.events := by
  rintro ⟨header, as⟩ ⟨header', as'⟩ x y h
  obtain ⟨opened, h⟩ := List.cons.inj h
  obtain rfl := Event.field.inj opened
  have each := Annotation.events_prefix opensUniquely_annotateField
  have free := each.list .fieldEnd fun a => ⟨_, _, rfl, Event.noConfusion⟩
  obtain ⟨rfl, rfl⟩ := free h
  exact ⟨rfl, rfl⟩

theorem MethodPart.events_prefix : PrefixFree MethodPart.events := by
  intro p p' x y h
  cases p with
  | default vs =>
    cases p' with
    | default vs' =>
      obtain ⟨rfl, rfl⟩ := Values.events_prefix vs vs' (List.tail_eq_of_cons_eq h)
      exact ⟨rfl, rfl⟩
    | _ => cases List.head_eq_of_cons_eq h
  | annotate a =>
    cases p' with
    | annotate a' =>
      obtain ⟨rfl, rfl⟩ := Annotation.events_prefix opensUniquely_annotateMethod h
      exact ⟨rfl, rfl⟩
    | _ => cases List.head_eq_of_cons_eq h
  | parameterCount count visible =>
    cases p' with
    | parameterCount count' visible' =>
      cases h
      exact ⟨rfl, rfl⟩
    | _ => cases List.head_eq_of_cons_eq h
  | annotateParameter parameter a =>
    cases p' with
    | annotateParameter parameter' a' =>
      obtain ⟨same, -⟩ := Event.annotateParameter.inj (List.head_eq_of_cons_eq h)
      subst same
      obtain ⟨rfl, rfl⟩ := Annotation.events_prefix (opensUniquely_annotateParameter parameter) h
      exact ⟨rfl, rfl⟩
    | _ => cases List.head_eq_of_cons_eq h

theorem Method.events_prefix : PrefixFree Method.events := by
  rintro ⟨header, parts⟩ ⟨header', parts'⟩ x y h
  obtain ⟨opened, h⟩ := List.cons.inj h
  obtain rfl := Event.method.inj opened
  have free := MethodPart.events_prefix.list .methodEnd
    fun p => by cases p <;> exact ⟨_, _, rfl, Event.noConfusion⟩
  obtain ⟨rfl, rfl⟩ := free h
  exact ⟨rfl, rfl⟩

/-! ## Classes -/

theorem ClassPart.events_prefix : PrefixFree ClassPart.events := by
  intro p p' x y h
  cases p with
  | annotate a =>
    cases p' with
    | annotate a' =>
      obtain ⟨rfl, rfl⟩ := Annotation.events_prefix opensUniquely_annotate h
      exact ⟨rfl, rfl⟩
    | _ => cases List.head_eq_of_cons_eq h
  | field f =>
    cases p' with
    | field f' =>
      obtain ⟨rfl, rfl⟩ := Field.events_prefix h
      exact ⟨rfl, rfl⟩
    | _ => cases List.head_eq_of_cons_eq h
  | method m =>
    cases p' with
    | method m' =>
      obtain ⟨rfl, rfl⟩ := Method.events_prefix h
      exact ⟨rfl, rfl⟩
    | _ => cases List.head_eq_of_cons_eq h

/-- The events of a class are those of no other class. -/
theorem ClassStream.events_injective {s s' : ClassStream} (h : s.events = s'.events) : s = s' := by
  obtain ⟨header, parts⟩ := s
  obtain ⟨header', parts'⟩ := s'
  obtain ⟨opened, h⟩ := List.cons.inj h
  obtain rfl := Event.header.inj opened
  have free := ClassPart.events_prefix.list .classEnd
    fun p => by cases p <;> exact ⟨_, _, rfl, Event.noConfusion⟩
  obtain ⟨rfl, -⟩ := free (congrArg (· ++ []) h)
  rfl

/-! ## Classes told in order -/

namespace ClassDeclaration

@[simp] theorem header_stream (c : ClassDeclaration) : c.stream.header = c.header := rfl

@[simp] theorem annotations_stream (c : ClassDeclaration) :
    c.stream.annotations = c.annotations := by
  simp [stream, ClassStream.annotations_eq, ClassPart.annotation?, List.filterMap_map,
    Function.comp_def]

@[simp] theorem fields_stream (c : ClassDeclaration) : c.stream.fields = c.fields := by
  simp [stream, ClassStream.fields_eq, ClassPart.field?, List.filterMap_map, Function.comp_def]

@[simp] theorem methods_stream (c : ClassDeclaration) : c.stream.methods = c.methods := by
  simp [stream, ClassStream.methods_eq, ClassPart.method?, List.filterMap_map, Function.comp_def]

theorem events_injective {c c' : ClassDeclaration} (h : c.events = c'.events) : c = c' := by
  have same : c.stream = c'.stream := ClassStream.events_injective h
  have header : c.header = c'.header := congrArg ClassStream.header same
  have annotations : c.annotations = c'.annotations := by
    simpa using congrArg ClassStream.annotations same
  have fields : c.fields = c'.fields := by simpa using congrArg ClassStream.fields same
  have methods : c.methods = c'.methods := by simpa using congrArg ClassStream.methods same
  cases c
  cases c'
  cases header
  cases annotations
  cases fields
  cases methods
  rfl

end ClassDeclaration

end ClassAbi
