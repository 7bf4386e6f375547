import ClassAbi.Proofs.PoolRuns
import ClassAbi.Proofs.TaskResults

/-!
# Schedules of an extraction

However the workers of an extraction get on, what they have done at any moment is what
running some tasks one after the other does, in the order in which they were run
(`Extraction.Holds`).  When the join has returned these are all tasks, each of them once.

No schedule gets stuck before the join has returned, and none goes on for ever, as every
event makes the extraction older and its age is bounded.
-/

namespace ClassAbi

/-! ## Pools that tasks are pushed into -/

namespace WorkerPool

/-- What holds of a pool that a number of tasks are pushed into before it is joined. -/
structure Fed (tasks jobs : Nat) (p : WorkerPool) : Prop where
  valid : p.Valid
  accepted : p.accepted.toList = List.range p.pushes
  pushes_le : p.pushes ≤ tasks
  closed : p.isAccepting = false → p.pushes = tasks
  workers : p.workers.length = max jobs 1

theorem fed_new (tasks jobs : Nat) : (new jobs).Fed tasks jobs where
  valid := valid_new jobs
  accepted := rfl
  pushes_le := Nat.zero_le _
  closed done := nomatch done
  workers := List.length_replicate

namespace Fed

variable {tasks jobs worker : Nat} {p p' : WorkerPool} (fed : p.Fed tasks jobs)
include fed

theorem push (accepting : p.isAccepting) (more : p.pushes < tasks) : p.push.2.Fed tasks jobs := by
  have valid := fed.valid.push accepting
  rw [push_of_isAccepting accepting] at valid ⊢
  refine ⟨valid, ?_, more, fun done => ?_, fed.workers⟩
  · rw [Array.toList_push, fed.accepted, List.range_succ]
  · have closed : p.isAccepting = false := done
    rw [accepting] at closed
    cases closed

theorem take (taken : p.take? worker = some p') : p'.Fed tasks jobs := by
  have valid := fed.valid.take taken
  obtain ⟨task, -, -, rfl⟩ := take?_eq_some.mp taken
  exact ⟨valid, fed.accepted, fed.pushes_le, fed.closed, List.length_set.trans fed.workers⟩

theorem finish (finished : p.finish? worker = some p') : p'.Fed tasks jobs := by
  have valid := fed.valid.finish finished
  obtain ⟨task, -, rfl⟩ := finish?_eq_some.mp finished
  exact ⟨valid, fed.accepted, fed.pushes_le, fed.closed, List.length_set.trans fed.workers⟩

theorem stop (stopped : p.stop? worker = some p') : p'.Fed tasks jobs := by
  have valid := fed.valid.stop stopped
  obtain ⟨-, -, -, rfl⟩ := stop?_eq_some.mp stopped
  exact ⟨valid, fed.accepted, fed.pushes_le, fed.closed, List.length_set.trans fed.workers⟩

theorem beginJoin (accepting : p.isAccepting) (all : p.pushes = tasks) :
    p.beginJoin.2.Fed tasks jobs := by
  have valid := fed.valid.beginJoin accepting
  rw [beginJoin_of_isAccepting accepting] at valid ⊢
  exact ⟨valid, fed.accepted, fed.pushes_le, fun _ => all, fed.workers⟩

theorem joinReturn (returned : p.joinReturn? = some p') : p'.Fed tasks jobs := by
  have valid := fed.valid.joinReturn returned
  obtain ⟨waiting, -, rfl⟩ := joinReturn?_eq_some.mp returned
  have closed := isAccepting_eq_false.mpr (waiting.trans_ne nofun)
  exact ⟨valid, fed.accepted, fed.pushes_le, fun _ => fed.closed closed, fed.workers⟩

/-- The tasks that were taken are the first ones. -/
theorem perm : (p.finished.toList ++ p.running).Perm (List.range p.taken) := by
  have perm := fed.valid.perm
  have taken := fed.valid.taken_le
  rw [← Array.length_toList, fed.accepted, List.length_range] at taken
  rwa [fed.accepted, List.take_range, Nat.min_eq_left taken] at perm

theorem taken_le : p.taken ≤ tasks := by
  have taken := fed.valid.taken_le
  rw [← Array.length_toList, fed.accepted, List.length_range] at taken
  exact taken.trans fed.pushes_le

theorem age_le : p.age ≤ 3 * tasks + max jobs 1 + 2 := by
  have age := fed.valid.age_le
  have accepted := congrArg List.length fed.accepted
  rw [Array.length_toList, List.length_range] at accepted
  have pushes := fed.pushes_le
  have workers := fed.workers
  omega

/-- When the join has returned all tasks are finished. -/
theorem finished_perm (returned : p.join = .returned) :
    p.finished.toList.Perm (List.range tasks) := by
  have closed := isAccepting_eq_false.mpr (returned.trans_ne nofun)
  have some : p.workers ≠ [] := by
    rintro none
    have workers := fed.workers
    rw [none, List.length_nil] at workers
    omega
  rw [← fed.closed closed, ← fed.accepted]
  exact fed.valid.finished_perm returned some

end Fed

end WorkerPool

/-! ## Extractions -/

theorem Action.runOn_pure_eq_ok {α : Type} {a b : α} {h h' : Host}
    (run : (pure a : Action α).runOn h = (.ok b, h')) : a = b ∧ h = h' := by
  cases run
  exact ⟨rfl, rfl⟩

theorem filterMap_getElem?_range {α : Type} (l : List α) :
    ((List.range l.length).filterMap fun i => l[i]?) = l := by
  induction l with
  | nil => rfl
  | cons a l ih =>
    rw [List.length_cons, List.range_succ_eq_map, List.filterMap_cons, List.filterMap_map]
    exact congrArg (a :: ·) ih

namespace Extraction

variable {tasks : List ClassTask} {jobs worker : Nat} {a : OutputArchive} {h h' h'' : Host}
  {s s' : Extraction}

/-- The tasks that were run, in this order. -/
def order (s : Extraction) (tasks : List ClassTask) : List ClassTask :=
  s.ran.filterMap fun task => tasks[task]?

/-- What an extraction has done to an archive and a host. -/
structure Holds (tasks : List ClassTask) (jobs : Nat) (a : OutputArchive) (h : Host)
    (s : Extraction) (h' : Host) : Prop where
  fed : s.pool.Fed tasks.length jobs
  /-- No task is run twice. -/
  nodup : s.ran.Nodup
  /-- A task is taken before it is run. -/
  taken : ∀ task ∈ s.ran, task < s.pool.taken
  /-- A task is run before it is finished. -/
  finished : ∀ task ∈ s.pool.finished.toList, task ∈ s.ran
  /-- The archive is as if the tasks had been run one after the other. -/
  run : (a.runTasks (s.order tasks)).runOn h = (.ok (s.allDone, s.archive), h')

theorem holds_start (tasks : List ClassTask) (jobs : Nat) (a : OutputArchive) (h : Host) :
    (start jobs a).Holds tasks jobs a h h where
  fed := WorkerPool.fed_new _ _
  nodup := List.nodup_nil
  taken := List.forall_mem_nil _
  finished := List.forall_mem_nil _
  run := rfl

/-- How much has happened to an extraction. -/
def age (s : Extraction) : Nat := s.pool.age + s.ran.length

theorem Holds.age_le (holds : s.Holds tasks jobs a h h') :
    s.age ≤ 4 * tasks.length + max jobs 1 + 2 := by
  have pool := holds.fed.age_le
  have ran : s.ran.length ≤ tasks.length := by
    have some : s.ran ⊆ List.range tasks.length := fun task mem =>
      List.mem_range.mpr (Nat.lt_of_lt_of_le (holds.taken task mem) holds.fed.taken_le)
    have length := (holds.nodup.subperm some).length_le
    rwa [List.length_range] at length
  rw [age]
  omega

/-- The pool changes, and no task is run. -/
theorem Holds.setPool (holds : s.Holds tasks jobs a h h') {p : WorkerPool}
    (fed : p.Fed tasks.length jobs) (age : p.age = s.pool.age + 1)
    (taken : s.pool.taken ≤ p.taken) (finished : ∀ task ∈ p.finished.toList, task ∈ s.ran) :
    (s.setPool p).Holds tasks jobs a h h' ∧ (s.setPool p).age = s.age + 1 := by
  refine ⟨⟨fed, holds.nodup, ?_, finished, holds.run⟩, ?_⟩
  · exact fun task mem => Nat.lt_of_lt_of_le (holds.taken task mem) taken
  · show p.age + s.ran.length = s.pool.age + s.ran.length + 1
    omega

theorem due?_eq_some {task : Nat} {t : ClassTask} : s.due? tasks worker = some (task, t) ↔
    s.pool.workers[worker]? = some (.running task) ∧ task ∉ s.ran ∧ tasks[task]? = some t := by
  rw [← WorkerPool.taskOf?_eq_some, due?]
  cases s.pool.taskOf? worker with
  | none => exact ⟨nofun, nofun⟩
  | some task' =>
    dsimp only
    rw [Option.ite_none_left_eq_some, List.contains_iff_mem, Option.map_eq_some_iff]
    constructor
    · rintro ⟨fresh, t', here, eq⟩
      cases eq
      exact ⟨rfl, fresh, here⟩
    · rintro ⟨eq, fresh, here⟩
      cases eq
      exact ⟨fresh, t, here, rfl⟩

theorem hasRun_iff : s.hasRun worker ↔
    ∃ task, s.pool.workers[worker]? = some (.running task) ∧ task ∈ s.ran := by
  rw [hasRun, Option.any_eq_true]
  refine exists_congr fun task => ?_
  rw [List.contains_iff_mem, WorkerPool.taskOf?_eq_some]

/-- The task of a worker was taken. -/
theorem Holds.lt_taken (holds : s.Holds tasks jobs a h h') {task : Nat}
    (runs : s.pool.workers[worker]? = some (.running task)) : task < s.pool.taken := by
  have mem : task ∈ s.pool.running :=
    List.mem_filterMap.mpr ⟨_, List.mem_of_getElem? runs, rfl⟩
  exact List.mem_range.mp (holds.fed.perm.subset (List.mem_append_right _ mem))

/-- A task is run behind those that were run before. -/
theorem Holds.runDue (holds : s.Holds tasks jobs a h h')
    (happened : (s.runDue? tasks worker).runOn h' = (.ok (some s'), h'')) :
    s'.Holds tasks jobs a h h'' ∧ s'.age = s.age + 1 := by
  unfold runDue? at happened
  split at happened
  · cases happened
  · next task t due =>
    obtain ⟨runs, fresh, here⟩ := due?_eq_some.mp due
    obtain ⟨⟨done, archive⟩, h₁, ran, step⟩ := Action.runOn_bind_eq_ok.mp happened
    obtain ⟨eq, rfl⟩ := Action.runOn_pure_eq_ok step
    cases eq
    refine ⟨⟨holds.fed, ?_, ?_, ?_, ?_⟩, ?_⟩
    · refine List.nodup_append.mpr ⟨holds.nodup, List.nodup_singleton _, ?_⟩
      rintro other mem _ same rfl
      exact fresh (List.mem_singleton.mp same ▸ mem)
    · refine List.forall_mem_append.mpr ⟨holds.taken, ?_⟩
      exact List.forall_mem_singleton.mpr (holds.lt_taken runs)
    · exact fun other mem => List.mem_append_left _ (holds.finished other mem)
    · have order : s.order tasks ++ [t] =
          (s.ran ++ [task]).filterMap fun task => tasks[task]? := by
        rw [filterMap_append_one, here]
        rfl
      show (a.runTasks ((s.ran ++ [task]).filterMap fun task => tasks[task]?)).runOn h = _
      rw [← order]
      exact OutputArchive.runTasks_append_singleton holds.run ran
    · show s.pool.age + (s.ran ++ [task]).length = s.pool.age + s.ran.length + 1
      rw [List.length_append, List.length_singleton, Nat.add_assoc]

/-- What has happened keeps to what an extraction does, and makes it older. -/
theorem Holds.step (holds : s.Holds tasks jobs a h h') {e : ExtractionEvent}
    (happened : (s.step? tasks e).runOn h' = (.ok (some s'), h'')) :
    s'.Holds tasks jobs a h h'' ∧ s'.age = s.age + 1 := by
  cases e with
  | push =>
    obtain ⟨step, rfl⟩ := Action.runOn_pure_eq_ok happened
    obtain ⟨possible, eq⟩ := Option.ite_none_right_eq_some.mp step
    cases eq
    rw [Bool.and_eq_true, decide_eq_true_eq] at possible
    have pushed := WorkerPool.push_of_isAccepting possible.1
    refine holds.setPool (holds.fed.push possible.1 possible.2)
      (WorkerPool.age_push possible.1) ?_ ?_
    · rw [pushed]
    · rw [pushed]
      exact holds.finished
  | take worker =>
    obtain ⟨step, rfl⟩ := Action.runOn_pure_eq_ok happened
    obtain ⟨p, taken, rfl⟩ := Option.map_eq_some_iff.mp step
    have age := WorkerPool.age_take taken
    have fed := holds.fed.take taken
    obtain ⟨task, -, -, rfl⟩ := WorkerPool.take?_eq_some.mp taken
    exact holds.setPool fed age (Nat.le_succ _) holds.finished
  | run worker => exact holds.runDue happened
  | finish worker =>
    obtain ⟨step, rfl⟩ := Action.runOn_pure_eq_ok happened
    obtain ⟨hasRun, step⟩ := Option.ite_none_right_eq_some.mp step
    obtain ⟨p, finished, rfl⟩ := Option.map_eq_some_iff.mp step
    have age := WorkerPool.age_finish finished
    have fed := holds.fed.finish finished
    obtain ⟨task, runs, rfl⟩ := WorkerPool.finish?_eq_some.mp finished
    obtain ⟨task', runs', ran⟩ := hasRun_iff.mp hasRun
    cases runs.symm.trans runs'
    refine holds.setPool fed age (Nat.le_refl _) fun other mem => ?_
    have mem : other ∈ (s.pool.finished.push task).toList := mem
    rw [Array.toList_push] at mem
    obtain mem | mem := List.mem_append.mp mem
    · exact holds.finished other mem
    · rwa [List.mem_singleton.mp mem]
  | stop worker =>
    obtain ⟨step, rfl⟩ := Action.runOn_pure_eq_ok happened
    obtain ⟨p, stopped, rfl⟩ := Option.map_eq_some_iff.mp step
    have age := WorkerPool.age_stop stopped
    have fed := holds.fed.stop stopped
    obtain ⟨-, -, -, rfl⟩ := WorkerPool.stop?_eq_some.mp stopped
    exact holds.setPool fed age (Nat.le_refl _) holds.finished
  | join =>
    obtain ⟨step, rfl⟩ := Action.runOn_pure_eq_ok happened
    obtain ⟨possible, eq⟩ := Option.ite_none_right_eq_some.mp step
    cases eq
    rw [Bool.and_eq_true, beq_iff_eq] at possible
    have joined := WorkerPool.beginJoin_of_isAccepting possible.1
    refine holds.setPool (holds.fed.beginJoin possible.1 possible.2)
      (WorkerPool.age_beginJoin possible.1) ?_ ?_
    · rw [joined]
    · rw [joined]
      exact holds.finished
  | joinReturn =>
    obtain ⟨step, rfl⟩ := Action.runOn_pure_eq_ok happened
    obtain ⟨p, returned, rfl⟩ := Option.map_eq_some_iff.mp step
    have age := WorkerPool.age_joinReturn returned
    have fed := holds.fed.joinReturn returned
    obtain ⟨-, -, rfl⟩ := WorkerPool.joinReturn?_eq_some.mp returned
    exact holds.setPool fed age (Nat.le_refl _) holds.finished

theorem exists_runOn_runDue? (s : Extraction) {task : Nat} {t : ClassTask}
    (due : s.due? tasks worker = some (task, t)) (h : Host) :
    ∃ s' h', (s.runDue? tasks worker).runOn h = (.ok (some s'), h') := by
  obtain ⟨h', run, -⟩ := s.archive.exists_runOn_runTask t h
  rw [runDue?, due]
  exact ⟨_, h', Action.runOn_bind_of_ok run⟩

/-- Whatever is to happen, it happens or it cannot. -/
theorem exists_runOn_step? (tasks : List ClassTask) (s : Extraction) (e : ExtractionEvent)
    (h : Host) : ∃ r h', (s.step? tasks e).runOn h = (.ok r, h') := by
  cases e with
  | run worker =>
    cases due : s.due? tasks worker with
    | none =>
      rw [step?, runDue?, due]
      exact ⟨_, h, rfl⟩
    | some found =>
      obtain ⟨s', h', run⟩ := s.exists_runOn_runDue? due h
      exact ⟨some s', h', run⟩
  | _ => exact ⟨_, h, rfl⟩

/-- No extraction gets stuck before the join has returned. -/
theorem Holds.exists_step (holds : s.Holds tasks jobs a h h') (runs : s.pool.join ≠ .returned) :
    ∃ e s' h'', (s.step? tasks e).runOn h' = (.ok (some s'), h'') := by
  cases join : s.pool.join with
  | none =>
    have accepting : s.pool.isAccepting := beq_iff_eq.mpr join
    by_cases more : s.pool.pushes < tasks.length
    · refine ⟨.push, s.setPool s.pool.push.2, h', ?_⟩
      rw [step?, if_pos (Bool.and_eq_true .. |>.mpr ⟨accepting, decide_eq_true more⟩)]
      rfl
    · have all : s.pool.pushes = tasks.length :=
        Nat.le_antisymm holds.fed.pushes_le (Nat.not_lt.mp more)
      refine ⟨.join, s.setPool s.pool.beginJoin.2, h', ?_⟩
      rw [step?, if_pos (Bool.and_eq_true .. |>.mpr ⟨accepting, beq_iff_eq.mpr all⟩)]
      rfl
  | waiting =>
    obtain ⟨worker, task, runs⟩ | ⟨worker, p, taken⟩ | ⟨worker, p, stopped⟩ | ⟨p, returned⟩ :=
      WorkerPool.exists_of_waiting join
    · by_cases ran : task ∈ s.ran
      · have hasRun := hasRun_iff.mpr ⟨task, runs, ran⟩
        obtain ⟨p, finished⟩ : ∃ p, s.pool.finish? worker = some p :=
          ⟨_, WorkerPool.finish?_eq_some.mpr ⟨task, runs, rfl⟩⟩
        refine ⟨.finish worker, s.setPool p, h', ?_⟩
        rw [step?, if_pos hasRun, finished]
        rfl
      · have inside := Nat.lt_of_lt_of_le (holds.lt_taken runs) holds.fed.taken_le
        have due : s.due? tasks worker = some (task, tasks[task]) :=
          due?_eq_some.mpr ⟨runs, ran, List.getElem?_eq_getElem inside⟩
        exact ⟨.run worker, s.exists_runOn_runDue? due h'⟩
    · refine ⟨.take worker, s.setPool p, h', ?_⟩
      rw [step?, taken]
      rfl
    · refine ⟨.stop worker, s.setPool p, h', ?_⟩
      rw [step?, stopped]
      rfl
    · refine ⟨.joinReturn, s.setPool p, h', ?_⟩
      rw [step?, returned]
      rfl
  | returned => exact absurd join runs

/-- A schedule is gone through to its end, unless something in it cannot happen. -/
theorem Holds.run? (holds : s.Holds tasks jobs a h h') (events : List ExtractionEvent) :
    ∃ r h'', (s.run? tasks events).runOn h' = (.ok r, h'') ∧
      ∀ s', r = some s' → s'.Holds tasks jobs a h h'' ∧ s'.age = s.age + events.length := by
  induction events generalizing s h' with
  | nil =>
    refine ⟨_, h', rfl, ?_⟩
    rintro s' ⟨⟩
    exact ⟨holds, rfl⟩
  | cons e events ih =>
    obtain ⟨r, h₁, step⟩ := exists_runOn_step? tasks s e h'
    cases r with
    | none => exact ⟨none, h₁, Action.runOn_bind_of_ok step, nofun⟩
    | some s₁ =>
      obtain ⟨holds₁, age₁⟩ := holds.step step
      obtain ⟨r, h₂, run, result⟩ := ih holds₁
      refine ⟨r, h₂, (Action.runOn_bind_of_ok step).trans run, fun s' eq => ?_⟩
      obtain ⟨holds₂, age₂⟩ := result s' eq
      rw [age₁] at age₂
      rw [List.length_cons]
      exact ⟨holds₂, by omega⟩

/-- When the join has returned all tasks were run, each of them once. -/
theorem Holds.order_perm (holds : s.Holds tasks jobs a h h') (returned : s.pool.join = .returned) :
    (s.order tasks).Perm tasks := by
  have finished := holds.fed.finished_perm returned
  have all : s.ran.Perm (List.range tasks.length) := by
    refine (List.perm_ext_iff_of_nodup holds.nodup List.nodup_range).mpr fun task => ?_
    refine ⟨fun mem => List.mem_range.mpr ?_, fun mem => ?_⟩
    · exact Nat.lt_of_lt_of_le (holds.taken task mem) holds.fed.taken_le
    · exact holds.finished task (finished.mem_iff.mpr mem)
  exact (all.filterMap _).trans (.of_eq (filterMap_getElem?_range tasks))

end Extraction

end ClassAbi
