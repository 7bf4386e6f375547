import ClassAbi.Extraction.Collection
import ClassAbi.Proofs.Actions
import ClassAbi.Proofs.Conformance
import ClassAbi.Proofs.OutlineFiles

/-!
# What tasks come to

What a reader delivers is the beginning of a conforming class, which has one header.  So
it can always be recorded: a task has an outline or a reason why it has none, and it
never ends the program.

Running tasks queues the outlines of those that have one (`exists_runOn_runTasks`).
What a task comes to depends on the disk alone, and tasks do not change the disk.
-/

namespace ClassAbi

/-! ## Recording what is delivered -/

theorem ParametersConform.nonneg {visible : Bool} {parts : List MethodPart}
    (h : ParametersConform visible parts) {x : Int × Annotation}
    (mem : .annotateParameter x.1 x.2 ∈ parts) : 0 ≤ x.1 := by
  obtain rfl | ⟨count, xs, conforms, rfl⟩ := h
  · cases mem
  · obtain ⟨y, here, eq⟩ := List.mem_map.mp ((List.mem_cons.mp mem).resolve_left nofun)
    obtain ⟨same, -⟩ := MethodPart.annotateParameter.inj eq
    rw [← same]
    exact (conforms y here).1

theorem Method.Conforms.parametersNonneg {m : Method} (h : m.Conforms) : m.ParametersNonneg := by
  obtain ⟨default, as, shown, hidden, defaultConforms, -, hshown, hhidden, parts⟩ := h
  intro x mem
  obtain ⟨part, here, eq⟩ := List.mem_filterMap.mp mem
  obtain rfl : part = .annotateParameter x.1 x.2 := by
    cases part with
    | annotateParameter parameter a => cases eq; rfl
    | _ => cases eq
  rw [parts] at here
  obtain here | here := List.mem_append.mp here
  · obtain rfl | ⟨v, rfl⟩ := defaultConforms
    · cases here
    · cases List.mem_singleton.mp here
  obtain here | here := List.mem_append.mp here
  · obtain ⟨a, -, eq⟩ := List.mem_map.mp here
    cases eq
  · exact (List.mem_append.mp here).elim hshown.nonneg hhidden.nonneg

theorem ConformingStream.exists_outline {events : List Event} (h : ConformingStream events)
    (file : Text) : ∃ o, Outline.ofEvents file events = .ok o ∧ o.file = file := by
  obtain ⟨c, conforms, rfl⟩ := h
  have nonneg : ∀ m ∈ c.stream.methods, m.ParametersNonneg := by
    rw [c.methods_stream]
    exact fun m mem => (conforms.methods m mem).parametersNonneg
  exact ⟨c.stream.outline file, ofEvents_eq_outline file nonneg, rfl⟩

/-- What is the beginning of recorded events can be recorded. -/
theorem Outline.exists_ofEvents_of_prefix {file : Text} {events full : List Event} {o : Outline}
    (begins : events <+: full) (recorded : ofEvents file full = .ok o) :
    ∃ o', ofEvents file events = .ok o' := by
  obtain ⟨rest, rfl⟩ := begins
  obtain ⟨r, run, -⟩ := bind_eq_ok.mp recorded
  rw [Recorder.run_append] at run
  obtain ⟨r', first, -⟩ := bind_eq_ok.mp run
  exact ⟨r'.outline, bind_eq_ok.mpr ⟨r', first, rfl⟩⟩

/-- What is read of any bytes can be recorded. -/
theorem Outline.exists_ofClassFile (file : Text) (d : ByteArray) :
    ∃ o ended, ofClassFile file d = .ok (o, ended) ∧ (ended = .ok () → o.file = file) := by
  have conforms := readClass_conforms d
  cases result : (readClass d).result with
  | ok =>
    rw [result] at conforms
    obtain ⟨o, recorded, named⟩ := ConformingStream.exists_outline conforms file
    exact ⟨o, _, bind_eq_ok.mpr ⟨o, recorded, rfl⟩, fun _ => named⟩
  | error e =>
    rw [result] at conforms
    obtain ⟨-, -, full, conforming, begins, -⟩ := conforms
    obtain ⟨o, recorded, -⟩ := conforming.exists_outline file
    obtain ⟨o', recorded⟩ := exists_ofEvents_of_prefix begins recorded
    refine ⟨o', _, bind_eq_ok.mpr ⟨o', recorded, rfl⟩, fun ended => ?_⟩
    rw [result] at ended
    cases ended

/-! ## Outlines of tasks -/

namespace ClassTask

/-- The task has the outline. -/
def HasOutline (d : Disk) (t : ClassTask) (o : Outline) : Prop := t.outline d = .ok (.ok o)

/-- A task has an outline of its name, or a reason why it has none. -/
theorem exists_outline (t : ClassTask) (d : Disk) :
    (∃ o, t.HasOutline d o ∧ o.file = t.name) ∨ ∃ e, t.outline d = .ok (.error e) := by
  unfold HasOutline outline
  cases t.classFile d with
  | error e => exact .inr ⟨e, rfl⟩
  | ok bytes =>
    obtain ⟨o, ended, recorded, named⟩ := Outline.exists_ofClassFile t.name bytes
    dsimp only
    rw [outlineOf, recorded]
    cases ended with
    | ok => exact .inl ⟨o, rfl, named rfl⟩
    | error e => exact .inr ⟨_, rfl⟩

theorem HasOutline.file_eq {t : ClassTask} {d : Disk} {o : Outline} (h : t.HasOutline d o) :
    o.file = t.name := by
  obtain ⟨o', has, named⟩ | ⟨e, failed⟩ := t.exists_outline d
  · cases has.symm.trans h
    exact named
  · cases failed.symm.trans h

/-- The outline of a task, if it has one. -/
def outline? (d : Disk) (t : ClassTask) : Option Outline :=
  match t.outline d with
  | .ok (.ok o) => some o
  | _ => none

theorem outline?_eq_some {t : ClassTask} {d : Disk} {o : Outline} :
    t.outline? d = some o ↔ t.HasOutline d o := by
  unfold outline? HasOutline
  constructor
  · intro found
    split at found
    · next has =>
      cases found
      exact has
    · cases found
  · intro has
    rw [has]

end ClassTask

/-! ## Running tasks -/

namespace OutputArchive

variable {a a' a'' : OutputArchive} {h h' h'' : Host}

/-- Queues outlines one behind the other. -/
def addAll (a : OutputArchive) (os : List Outline) : OutputArchive := os.foldl add a

theorem addAll_eq (a : OutputArchive) (os : List Outline) :
    a.addAll os = { a with queue := a.queue ++ os.toArray } := by
  unfold addAll
  induction os generalizing a with
  | nil => rw [List.foldl_nil, Array.append_empty]
  | cons o os ih =>
    rw [List.foldl_cons, ih]
    simp [add]

/-- A task that is run queues its outline.  It fails exactly if it has none. -/
theorem exists_runOn_runTask (a : OutputArchive) (t : ClassTask) (h : Host) :
    ∃ h', (a.runTask t).runOn h =
        (.ok ((t.outline? h.disk).isSome, a.addAll (t.outline? h.disk).toList), h') ∧
      h'.disk = h.disk := by
  unfold runTask
  rw [Action.runOn_bind_of_ok (Action.runOn_disk h)]
  obtain ⟨o, has, -⟩ | ⟨e, failed⟩ := t.exists_outline h.disk
  · rw [ClassTask.outline?_eq_some.mpr has, show t.outline h.disk = _ from has]
    exact ⟨h, rfl, rfl⟩
  · rw [ClassTask.outline?, failed]
    exact ⟨_, rfl, rfl⟩

theorem runTasks_cons {t : ClassTask} {ts : List ClassTask} {done rest : Bool}
    (first : (a.runTask t).runOn h = (.ok (done, a'), h'))
    (second : (a'.runTasks ts).runOn h' = (.ok (rest, a''), h'')) :
    (a.runTasks (t :: ts)).runOn h = (.ok (done && rest, a''), h'') :=
  (Action.runOn_bind_of_ok first).trans (Action.runOn_bind_of_ok second)

theorem runTasks_append {ts us : List ClassTask} {done rest : Bool}
    (first : (a.runTasks ts).runOn h = (.ok (done, a'), h'))
    (second : (a'.runTasks us).runOn h' = (.ok (rest, a''), h'')) :
    (a.runTasks (ts ++ us)).runOn h = (.ok (done && rest, a''), h'') := by
  induction ts generalizing a h done with
  | nil =>
    cases first
    rw [Bool.true_and]
    exact second
  | cons t ts ih =>
    obtain ⟨⟨one, a₁⟩, h₁, run, first⟩ := Action.runOn_bind_eq_ok.mp first
    obtain ⟨⟨others, a₂⟩, h₂, first, eq⟩ := Action.runOn_bind_eq_ok.mp first
    cases eq
    rw [List.cons_append, Bool.and_assoc]
    exact runTasks_cons run (ih first)

theorem runTasks_append_singleton {ts : List ClassTask} {t : ClassTask} {done one : Bool}
    (first : (a.runTasks ts).runOn h = (.ok (done, a'), h'))
    (second : (a'.runTask t).runOn h' = (.ok (one, a''), h'')) :
    (a.runTasks (ts ++ [t])).runOn h = (.ok (done && one, a''), h'') := by
  refine runTasks_append first ?_
  rw [← Bool.and_true one]
  exact runTasks_cons second rfl

/-- Tasks that are run queue their outlines.  One of them fails exactly if it has none. -/
theorem exists_runOn_runTasks (a : OutputArchive) (ts : List ClassTask) (h : Host) :
    ∃ h', (a.runTasks ts).runOn h =
        (.ok (ts.all fun t => (t.outline? h.disk).isSome,
          a.addAll (ts.filterMap (·.outline? h.disk))), h') ∧
      h'.disk = h.disk := by
  induction ts generalizing a h with
  | nil => exact ⟨h, rfl, rfl⟩
  | cons t ts ih =>
    obtain ⟨h₁, run, disk⟩ := exists_runOn_runTask a t h
    obtain ⟨h₂, rest, disk'⟩ := ih (a.addAll (t.outline? h.disk).toList) h₁
    refine ⟨h₂, (runTasks_cons run rest).trans ?_, disk'.trans disk⟩
    rw [disk, List.all_cons, List.filterMap_cons]
    cases t.outline? h.disk <;> rfl

end OutputArchive

end ClassAbi
