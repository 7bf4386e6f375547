import ClassAbi.Program
import ClassAbi.Proofs.ExtractionResults

/-!
# Runs of the program

A run ends in one of four ways.  The command line makes no sense, and nothing has
happened.  Or the archive is written with all classes that the sources bring.  Or
something fails, and nothing is left at the path of the output.  Or a class is read that
cannot be written again, which breaks the run off in the middle of writing: the file
with the entries before that class is left (`runProgram_spec`).

The exit status tells which of the four it was.
-/

namespace ClassAbi

/-! ## Exit statuses -/

namespace LogHandler

/-- A message ends the program as it says, unless its level has no name. -/
theorem ending_console (least : Nat) (m : LogMessage) :
    (console least m).ending = m.ending ∨ (console least m).ending = some 37 := by
  unfold console
  split
  · exact .inl rfl
  · cases level : m.level with
    | beyond excess => exact .inr rfl
    | _ => exact .inl rfl

theorem ending_console_ofFatal (least : Nat) (f : Fatal) :
    (console least (.ofFatal f)).ending = some (f.exit : Int) := by
  unfold console
  split <;> rfl

end LogHandler

namespace LogSession

/-- Messages of a console, of which only a broken check ends the program. -/
structure Steady (s : LogSession) : Prop where
  handler : ∃ least, s.handler = .console least
  ending : s.ending = none ∨ s.ending = some 37

theorem steady_use (least : Nat) : (start.use (.console least)).Steady := ⟨⟨least, rfl⟩, .inl rfl⟩

theorem Steady.send {s : LogSession} (steady : s.Steady) (e : LogEntry) :
    (s.send (.ofEntry e)).Steady := by
  obtain ⟨⟨least, handler⟩, ending⟩ := steady
  unfold LogSession.send
  cases eq : s.ending with
  | some status => exact ⟨⟨least, handler⟩, ending⟩
  | none =>
    refine ⟨⟨least, handler⟩, ?_⟩
    show (s.handler _).ending = none ∨ (s.handler _).ending = some 37
    rw [handler]
    obtain same | broken := LogHandler.ending_console least (.ofEntry e)
    · rw [same, LogMessage.ending]
      split
      · exact .inr rfl
      · exact .inl rfl
    · exact .inr broken

theorem Steady.sendAll {s : LogSession} (steady : s.Steady) (log : List LogEntry) :
    (s.sendAll (log.map LogMessage.ofEntry)).Steady := by
  unfold LogSession.sendAll
  induction log generalizing s with
  | nil => exact steady
  | cons e log ih => exact ih (steady.send e)

/-- A broken check ends the program with its status. -/
theorem Steady.status_send {s : LogSession} (steady : s.Steady) {f : Fatal} (broken : f.exit = 37) :
    (s.send (.ofFatal f)).status = 37 := by
  obtain ⟨⟨least, handler⟩, ending⟩ := steady
  unfold LogSession.send
  cases eq : s.ending with
  | some ended =>
    obtain none | broken := ending
    · cases eq.symm.trans none
    · rw [status, broken]
      rfl
  | none =>
    have ended : (s.handler (.ofFatal f)).ending = some 37 := by
      rw [handler, LogHandler.ending_console_ofFatal, broken]
      rfl
    simp only [status, ended]
    rfl

end LogSession

theorem OutlineFault.exit_fatal (f : OutlineFault) : f.fatal.exit = 37 := by
  cases f with
  | encode fault => cases fault <;> rfl
  | _ => rfl

/-! ## Gathering all sources -/

/-- The sources that options name. -/
def Options.classSources (o : Options) : List ClassSource := o.sources.map (⟨·, o.classRoot⟩)

/-- Either all sources are added, or one of them fails. -/
theorem Collection.exists_runOn_addSources (c : Collection) (root : Text) (paths : List Text)
    (h : Host) :
    (∃ ts h', Brought h.disk (paths.map (⟨·, root⟩)) (paths.map fun _ => true) ts ∧
      (c.addSources root paths).runOn h = (.ok (true, ts.foldl insert c), h') ∧
      h'.disk = h.disk) ∨
    ∃ c' h', (c.addSources root paths).runOn h = (.ok (false, c'), h') ∧ h'.disk = h.disk := by
  induction paths generalizing c h with
  | nil => exact .inl ⟨[], h, .nil, rfl, rfl⟩
  | cons path paths ih =>
    by_cases provides : ∃ ts, Provides h.disk ⟨path, root⟩ ts
    · obtain ⟨ts, provides⟩ := provides
      obtain ⟨h₁, added, disk⟩ := exists_runOn_addSource_of_provides provides c
      obtain ⟨us, h₂, brought, run, disk'⟩ | ⟨c', h₂, run, disk'⟩ := ih (ts.foldl insert c) h₁
      · rw [disk] at brought
        refine .inl ⟨ts ++ us, h₂, .taken provides brought, ?_, disk'.trans disk⟩
        rw [List.foldl_append]
        exact (Action.runOn_bind_of_ok added).trans run
      · exact .inr ⟨c', h₂, (Action.runOn_bind_of_ok added).trans run, disk'.trans disk⟩
    · obtain ⟨h₁, added, disk⟩ := exists_runOn_addSource_of_not_provides (not_exists.mp provides) c
      exact .inr ⟨c, h₁, Action.runOn_bind_of_ok added, disk⟩

/-! ## Ways to end -/

/-- The tasks are those that the sources bring: no source fails, and of each name the first one
counts. -/
def Options.Gathers (o : Options) (d : Disk) (tasks : List ClassTask) : Prop :=
  ∃ ts, Brought d o.classSources (o.sources.map fun _ => true) ts ∧ tasks = firstOfEach [] ts

theorem Options.Gathers.distinct {o : Options} {d : Disk} {tasks : List ClassTask}
    (gathers : o.Gathers d tasks) : (tasks.map ClassTask.name).Nodup := by
  obtain ⟨ts, -, rfl⟩ := gathers
  exact nodup_names_firstOfEach

/-- The archive of all classes is at the path. -/
def Disk.HasOutput (d' : Disk) (o : Options) (d : Disk) : Prop :=
  ∃ tasks es, o.Gathers d tasks ∧ Extracts d tasks es ∧
    d'.lookup o.output = .ok (.file (archiveBytes (!o.noCompress) es).toByteArray)

/-- A class was read that cannot be written again, and the entries before it are at the path. -/
def Disk.HasRemains (d' : Disk) (o : Options) (d : Disk) : Prop :=
  ∃ tasks es f, o.Gathers d tasks ∧
    Writes (!o.noCompress) [] (outlinesOf d tasks) es (.fault f) ∧
    d'.lookup o.output = .ok (.file (entriesBytes (!o.noCompress) es).toByteArray)

/-- What an action of the program ends with, and what it leaves where the output was made on the
disk `d`. -/
def Extracted (o : Options) (d : Disk) (result : Except Fatal RunStatus) (d' : Disk) : Prop :=
  (result = .ok .success ∧ d'.HasOutput o d) ∨
  (result = .ok .extractionFailed ∧ d'.lookup o.output = .error .noEntry) ∨
  (∃ f, result = .error f ∧ f.exit = 37) ∧ d'.HasRemains o d

namespace OutputArchive

variable {o : Options} {compress : Bool} {place : DiskPlace} {a : OutputArchive} {h : Host}
  {d : Disk} {tasks : List ClassTask}

/-- How an extraction of tasks with different names ends. -/
theorem Wrote.extract_cases {path : Text} (created : d.create path = .ok (place, h.disk))
    (wrote : a.Wrote compress path place []) (fresh : a.queue = #[])
    (distinct : (tasks.map ClassTask.name).Nodup) :
    ∃ result h', (a.extract tasks).runOn h = (result, h') ∧
      ((∃ a' es, result = .ok (true, a') ∧ Extracts h.disk tasks es ∧
          h'.disk.lookup path = .ok (.file (archiveBytes compress es).toByteArray)) ∨
        (∃ a', result = .ok (false, a') ∧ h'.disk.lookup path = .error .noEntry) ∨
        ∃ es f, result = .error f.fatal ∧
          Writes compress [] (outlinesOf h.disk tasks) es (.fault f) ∧
          h'.disk.lookup path = .ok (.file (entriesBytes compress es).toByteArray)) := by
  by_cases all : tasks.all fun t => (t.outline? h.disk).isSome
  · obtain ⟨es, stop, writes⟩ := Writes.exists_writes compress [] (outlinesOf h.disk tasks)
    obtain ⟨result, h', run, committed⟩ :=
      wrote.extract created fresh distinct all writes (.refl tasks)
    refine ⟨result, h', run, ?_⟩
    cases stop with
    | complete =>
      obtain ⟨_, rfl, entries⟩ := writes.forall₂_of_complete
      obtain ⟨-, ⟨a', rfl⟩, found⟩ | ⟨-, ⟨a', rfl⟩, gone⟩ := committed
      · exact .inl ⟨a', es, rfl, extracts_of_writtenAs distinct all entries, found⟩
      · exact .inr (.inl ⟨a', rfl, gone⟩)
    | refused =>
      obtain ⟨⟨a', rfl⟩, gone⟩ := committed
      exact .inr (.inl ⟨a', rfl, gone⟩)
    | fault f =>
      obtain ⟨rfl, found⟩ := committed
      exact .inr (.inr ⟨es, f, rfl, writes, found⟩)
  · obtain ⟨a', h', run, gone⟩ := wrote.comesTo_nothing created all tasks (.refl tasks)
    exact ⟨_, h', run, .inr (.inl ⟨a', rfl, gone⟩)⟩

/-- How the program ends once the output is open. -/
theorem Wrote.extractSources (created : d.create o.output = .ok (place, h.disk))
    (wrote : a.Wrote (!o.noCompress) o.output place []) (fresh : a.queue = #[]) :
    ∃ result h', (ClassAbi.extractSources o a).runOn h = (result, h') ∧
      Extracted o h.disk result h'.disk := by
  unfold ClassAbi.extractSources
  obtain ⟨ts, h₁, brought, added, disk⟩ | ⟨c, h₁, added, disk⟩ :=
    Collection.empty.exists_runOn_addSources o.classRoot o.sources h
  · rw [Action.runOn_bind_of_ok added]
    have names : ∀ name, name ∈ Collection.empty.claims ↔ name ∈ ([] : List Text) := by
      simp [Collection.empty]
    have gathers : o.Gathers h.disk (ts.foldl Collection.insert .empty).tasks.toList :=
      ⟨ts, brought, Collection.tasks_foldl_insert names ts⟩
    rw [← disk] at created
    obtain ⟨result, h₂, run, ended⟩ := wrote.extract_cases created fresh gathers.distinct
    rw [disk] at ended
    obtain ⟨a', es, rfl, extracts, found⟩ | ⟨a', rfl, gone⟩ | ⟨es, f, rfl, writes, found⟩ := ended
    · exact ⟨_, _, Action.runOn_bind_of_ok run, .inl ⟨rfl, _, es, gathers, extracts, found⟩⟩
    · exact ⟨_, h₂, Action.runOn_bind_of_ok run, .inr (.inl ⟨rfl, gone⟩)⟩
    · exact ⟨_, h₂, Action.runOn_bind_of_error run,
        .inr (.inr ⟨⟨_, rfl, f.exit_fatal⟩, _, es, f, gathers, writes, found⟩)⟩
  · rw [Action.runOn_bind_of_ok added]
    rw [← disk] at created
    obtain ⟨a', h₂, discarded, gone⟩ := wrote.discard created
    exact ⟨_, h₂, Action.runOn_bind_of_ok discarded, .inr (.inl ⟨rfl, gone⟩)⟩

end OutputArchive

/-! ## Whole runs -/

/-- The program changes nothing if the output cannot be made. -/
theorem runOn_extractClasses (o : Options) (h : Host) :
    ∃ result h', (extractClasses o).runOn h = (result, h') ∧
      ((result = .ok .extractionFailed ∧ h'.disk = h.disk) ∨
        ∃ place d, h.disk.create o.output = .ok (place, d) ∧ Extracted o d result h'.disk) := by
  have closed : ¬(OutputArchive.new (!o.noCompress)).file.isSome = true := Bool.false_ne_true
  cases created : h.disk.create o.output with
  | error e =>
    have failed : ∃ h', ((OutputArchive.new (!o.noCompress)).openFile o.output).runOn h =
        (.ok (false, .new (!o.noCompress)), h') ∧ h'.disk = h.disk := by
      unfold OutputArchive.openFile
      rw [if_neg closed, Action.runOn_bind_of_ok (Action.runOn_disk h), created]
      exact ⟨_, rfl, rfl⟩
    obtain ⟨h', failed, disk⟩ := failed
    exact ⟨_, h', Action.runOn_bind_of_ok failed, .inl ⟨rfl, disk⟩⟩
  | ok made =>
    obtain ⟨place, d⟩ := made
    have opened : ((OutputArchive.new (!o.noCompress)).openFile o.output).runOn h =
        (.ok (true, { OutputArchive.new (!o.noCompress) with
          path := o.output, file := some (.start place) }), { h with disk := d }) := by
      unfold OutputArchive.openFile
      rw [if_neg closed, Action.runOn_bind_of_ok (Action.runOn_disk h), created]
      rfl
    obtain ⟨place', d', created', rfl, wrote⟩ := OutputArchive.openFile_eq_ok opened
    obtain ⟨result, h', run, ended⟩ := wrote.extractSources created' rfl
    exact ⟨result, h', (Action.runOn_bind_of_ok opened).trans run, .inr ⟨place, d, rfl, ended⟩⟩

end ClassAbi
