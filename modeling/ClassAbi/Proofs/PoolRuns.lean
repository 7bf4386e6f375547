import ClassAbi.Extraction.Schedule
import Mathlib.Data.List.Basic

/-!
# What holds of a pool at all times

Of the accepted tasks those that were taken are either finished or run by a worker, each
of them once (`WorkerPool.Valid`).  A worker stops only when the pool is closed and no
task waits, so when the join has returned all accepted tasks are finished.

Everything that happens makes the pool older by one (`WorkerPool.age`).
-/

namespace ClassAbi

/-- The list around an item, and the list with another item there. -/
theorem exists_split_set {α : Type} {l : List α} {i : Nat} {a : α} (found : l[i]? = some a)
    (b : α) :
    ∃ before after, l = before ++ a :: after ∧ l.set i b = before ++ b :: after := by
  obtain ⟨inside, rfl⟩ := List.getElem?_eq_some_iff.mp found
  refine ⟨l.take i, l.drop (i + 1), ?_, List.set_eq_take_append_cons_drop.trans (if_pos inside)⟩
  rw [List.getElem_cons_drop, List.take_append_drop]

theorem mem_of_mem_set {α : Type} {l : List α} {i : Nat} {a b : α} (mem : a ∈ l.set i b)
    (differs : a ≠ b) : a ∈ l :=
  (List.mem_or_eq_of_mem_set mem).resolve_right differs

/-- How far the join is, as a number. -/
def JoinState.age : JoinState → Nat
  | none => 0
  | waiting => 1
  | returned => 2

namespace WorkerPool

variable {p p' : WorkerPool} {worker : Nat}

/-! ## What can happen -/

theorem taskOf?_eq_some {task : Nat} :
    p.taskOf? worker = some task ↔ p.workers[worker]? = some (.running task) := by
  rw [taskOf?, Option.bind_eq_some_iff]
  constructor
  · rintro ⟨w, found, runs⟩
    cases w <;> cases runs
    exact found
  · exact fun found => ⟨_, found, rfl⟩

theorem isAccepting_eq_false : p.isAccepting = false ↔ p.join ≠ .none := beq_eq_false_iff_ne

theorem push_of_isAccepting (accepting : p.isAccepting) :
    p.push.2 = { p with pushes := p.pushes + 1, accepted := p.accepted.push p.pushes } := by
  rw [push, if_pos accepting]

theorem beginJoin_of_isAccepting (accepting : p.isAccepting) :
    p.beginJoin.2 = { p with join := .waiting } := by
  rw [beginJoin, if_pos accepting]

theorem take?_eq_some : p.take? worker = some p' ↔
    ∃ task, p.workers[worker]? = some .looking ∧ p.accepted[p.taken]? = some task ∧
      p' = { p with taken := p.taken + 1 }.setWorker worker (.running task) := by
  unfold take?
  constructor
  · intro taken
    split at taken
    · next task looking waits =>
      cases taken
      exact ⟨task, looking, waits, rfl⟩
    · cases taken
  · rintro ⟨task, looking, waits, rfl⟩
    rw [looking, waits]

theorem finish?_eq_some : p.finish? worker = some p' ↔
    ∃ task, p.workers[worker]? = some (.running task) ∧
      p' = { p with finished := p.finished.push task }.setWorker worker .looking := by
  unfold finish?
  constructor
  · intro finished
    split at finished
    · next task running =>
      cases finished
      exact ⟨task, running, rfl⟩
    · cases finished
  · rintro ⟨task, running, rfl⟩
    rw [running]

theorem stop?_eq_some : p.stop? worker = some p' ↔
    p.isAccepting = false ∧ p.accepted.size ≤ p.taken ∧ p.workers[worker]? = some .looking ∧
      p' = p.setWorker worker .stopped := by
  unfold stop?
  constructor
  · intro stopped
    split at stopped
    · cases stopped
    · next closed =>
      rw [Bool.or_eq_true, not_or, Bool.not_eq_true, Bool.not_eq_true', Bool.not_eq_false,
        isDrained, decide_eq_true_eq] at closed
      split at stopped
      · next looking =>
        cases stopped
        exact ⟨closed.1, closed.2, looking, rfl⟩
      · cases stopped
  · rintro ⟨closed, drained, looking, rfl⟩
    rw [if_neg, looking]
    rw [closed, isDrained, decide_eq_true drained]
    decide

theorem joinReturn?_eq_some : p.joinReturn? = some p' ↔
    p.join = .waiting ∧ (∀ w ∈ p.workers, w = .stopped) ∧ p' = { p with join := .returned } := by
  unfold joinReturn?
  constructor
  · intro returned
    split at returned
    · next ready =>
      cases returned
      rw [Bool.and_eq_true, beq_iff_eq, List.all_eq_true] at ready
      exact ⟨ready.1, fun w mem => beq_iff_eq.mp (ready.2 w mem), rfl⟩
    · cases returned
  · rintro ⟨waiting, stopped, rfl⟩
    rw [if_pos]
    rw [Bool.and_eq_true, beq_iff_eq, List.all_eq_true]
    exact ⟨waiting, fun w mem => beq_iff_eq.mpr (stopped w mem)⟩

/-- While a join waits, a worker runs a task, or something can happen. -/
theorem exists_of_waiting (waiting : p.join = .waiting) :
    (∃ (worker : Nat) (task : Nat), p.workers[worker]? = some (.running task)) ∨
      (∃ worker p', p.take? worker = some p') ∨ (∃ worker p', p.stop? worker = some p') ∨
      ∃ p', p.joinReturn? = some p' := by
  have closed := isAccepting_eq_false.mpr (waiting.trans_ne nofun)
  by_cases busy : ∃ w ∈ p.workers, w ≠ .stopped
  · obtain ⟨w, mem, active⟩ := busy
    obtain ⟨worker, found⟩ := List.mem_iff_getElem?.mp mem
    cases w with
    | looking =>
      by_cases drained : p.accepted.size ≤ p.taken
      · exact .inr (.inr (.inl ⟨worker, _, stop?_eq_some.mpr ⟨closed, drained, found, rfl⟩⟩))
      · have waits := Array.getElem?_eq_getElem (Nat.not_le.mp drained)
        exact .inr (.inl ⟨worker, _, take?_eq_some.mpr ⟨_, found, waits, rfl⟩⟩)
    | running task => exact .inl ⟨worker, task, found⟩
    | stopped => exact absurd rfl active
  · simp only [not_exists, not_and, not_not] at busy
    exact .inr (.inr (.inr ⟨_, joinReturn?_eq_some.mpr ⟨waiting, busy, rfl⟩⟩))

/-! ## What holds at all times -/

/-- The tasks that workers run. -/
def running (p : WorkerPool) : List Nat := p.workers.filterMap Worker.task?

/-- When a worker changes, the others go on. -/
theorem exists_running_setWorker {w : Worker} (found : p.workers[worker]? = some w) (w' : Worker) :
    ∃ before after : List Nat, p.running = before ++ (w.task?.toList ++ after) ∧
      (p.setWorker worker w').running = before ++ (w'.task?.toList ++ after) := by
  have middle (before after : List Worker) (w : Worker) :
      (before ++ w :: after).filterMap Worker.task? =
        before.filterMap Worker.task? ++ (w.task?.toList ++ after.filterMap Worker.task?) := by
    rw [List.filterMap_append, List.filterMap_cons]
    cases w <;> rfl
  obtain ⟨before, after, split, set⟩ := exists_split_set found w'
  refine ⟨before.filterMap Worker.task?, after.filterMap Worker.task?, ?_, ?_⟩
  · rw [running, split, middle]
  · rw [running, setWorker, set, middle]

/-- What holds of a pool at all times. -/
structure Valid (p : WorkerPool) : Prop where
  /-- Only accepted tasks are taken. -/
  taken_le : p.taken ≤ p.accepted.size
  /-- A task that was taken is finished or is run. -/
  perm : (p.finished.toList ++ p.running).Perm (p.accepted.toList.take p.taken)
  /-- A worker stops when there is nothing left to do. -/
  stopped : .stopped ∈ p.workers → p.isAccepting = false ∧ p.accepted.size ≤ p.taken
  /-- The join returns when all workers have stopped. -/
  returned : p.join = .returned → ∀ w ∈ p.workers, w = .stopped

theorem valid_new (size : Nat) : (new size).Valid where
  taken_le := Nat.zero_le _
  perm := by
    have idle : (new size).running = [] := by
      refine List.filterMap_eq_nil_iff.mpr fun w mem => ?_
      rw [List.eq_of_mem_replicate mem]
      rfl
    rw [idle]
    exact .nil
  stopped mem := nomatch List.eq_of_mem_replicate mem
  returned done := nomatch done

namespace Valid

variable (valid : p.Valid)
include valid

theorem push (accepting : p.isAccepting) : p.push.2.Valid := by
  rw [push_of_isAccepting accepting]
  refine ⟨?_, ?_, fun mem => ?_, valid.returned⟩
  · rw [Array.size_push]
    exact Nat.le_succ_of_le valid.taken_le
  · rw [Array.toList_push, List.take_append_of_le_length valid.taken_le]
    exact valid.perm
  · have closed := (valid.stopped mem).1
    rw [accepting] at closed
    cases closed

theorem take (taken : p.take? worker = some p') : p'.Valid := by
  obtain ⟨task, looking, waits, rfl⟩ := take?_eq_some.mp taken
  obtain ⟨before, after, was, now⟩ := exists_running_setWorker looking (.running task)
  obtain ⟨inside, rfl⟩ := Array.getElem?_eq_some_iff.mp waits
  refine ⟨inside, ?_, fun mem => ?_, fun done => ?_⟩
  · show (p.finished.toList ++ (p.setWorker worker _).running).Perm _
    have perm := valid.perm
    rw [was] at perm
    have more : p.accepted.toList.take (p.taken + 1) =
        p.accepted.toList.take p.taken ++ [p.accepted[p.taken]] := by
      rw [← Array.getElem_toList, List.take_append_getElem]
    rw [now]
    refine .trans ?_ (.trans (perm.append_right [p.accepted[p.taken]]) (.of_eq more.symm))
    rw [List.append_assoc, List.append_assoc]
    exact (List.perm_append_comm.append_left _).append_left _
  · have mem : .stopped ∈ p.workers.set worker (.running p.accepted[p.taken]) := mem
    obtain ⟨-, drained⟩ := valid.stopped (mem_of_mem_set mem nofun)
    exact absurd inside (Nat.not_lt.mpr drained)
  · cases valid.returned done _ (List.mem_of_getElem? looking)

theorem finish (finished : p.finish? worker = some p') : p'.Valid := by
  obtain ⟨task, runs, rfl⟩ := finish?_eq_some.mp finished
  obtain ⟨before, after, was, now⟩ := exists_running_setWorker runs .looking
  refine ⟨valid.taken_le, ?_, fun mem => ?_, fun done => ?_⟩
  · show ((p.finished.push task).toList ++ (p.setWorker worker _).running).Perm _
    have perm := valid.perm
    rw [was] at perm
    rw [now, Array.toList_push, List.append_assoc]
    refine .trans (.append_left _ ?_) perm
    exact List.perm_append_comm_assoc [task] _ _
  · have mem : .stopped ∈ p.workers.set worker .looking := mem
    exact valid.stopped (mem_of_mem_set mem nofun)
  · cases valid.returned done _ (List.mem_of_getElem? runs)

theorem stop (stopped : p.stop? worker = some p') : p'.Valid := by
  obtain ⟨closed, drained, looking, rfl⟩ := stop?_eq_some.mp stopped
  obtain ⟨before, after, was, now⟩ := exists_running_setWorker looking .stopped
  refine ⟨valid.taken_le, ?_, fun _ => ⟨closed, drained⟩, fun done => ?_⟩
  · show (p.finished.toList ++ (p.setWorker worker _).running).Perm _
    rw [now]
    exact was ▸ valid.perm
  · cases valid.returned done _ (List.mem_of_getElem? looking)

theorem beginJoin (accepting : p.isAccepting) : p.beginJoin.2.Valid := by
  rw [beginJoin_of_isAccepting accepting]
  refine ⟨valid.taken_le, valid.perm, fun mem => ?_, fun done => nomatch done⟩
  have closed := (valid.stopped mem).1
  rw [accepting] at closed
  cases closed

theorem joinReturn (returned : p.joinReturn? = some p') : p'.Valid := by
  obtain ⟨waiting, stopped, rfl⟩ := joinReturn?_eq_some.mp returned
  exact ⟨valid.taken_le, valid.perm, fun mem => ⟨rfl, (valid.stopped mem).2⟩, fun _ => stopped⟩

/-- When the join has returned all accepted tasks are finished. -/
theorem finished_perm (returned : p.join = .returned) (some : p.workers ≠ []) :
    p.finished.toList.Perm p.accepted.toList := by
  have stopped := valid.returned returned
  have idle : p.running = [] := by
    refine List.filterMap_eq_nil_iff.mpr fun w mem => ?_
    rw [stopped w mem]
    rfl
  obtain ⟨w, ws, workers⟩ := List.exists_cons_of_ne_nil some
  have mem : w ∈ p.workers := workers ▸ List.mem_cons_self
  have drained := (valid.stopped (stopped w mem ▸ mem)).2
  have perm := valid.perm
  rw [idle, List.append_nil, List.take_of_length_le drained] at perm
  exact perm

end Valid

/-! ## Getting older -/

/-- How much has happened to a pool. -/
def age (p : WorkerPool) : Nat :=
  p.pushes + p.taken + p.finished.size + p.workers.count .stopped + p.join.age

theorem age_new (size : Nat) : (new size).age = 0 := by
  have idle : (new size).workers.count .stopped = 0 := by
    rw [new, List.count_replicate]
    rfl
  rw [age, idle]
  rfl

theorem age_push (accepting : p.isAccepting) : p.push.2.age = p.age + 1 := by
  rw [push_of_isAccepting accepting, age, age]
  dsimp only
  omega

theorem age_beginJoin (accepting : p.isAccepting) : p.beginJoin.2.age = p.age + 1 := by
  have open' : p.join = .none := beq_iff_eq.mp accepting
  rw [beginJoin_of_isAccepting accepting, age, age, open']
  rfl

/-- When a worker changes, one more has stopped or none. -/
theorem count_stopped_set {w : Worker} (found : p.workers[worker]? = some w)
    (active : w ≠ .stopped) (w' : Worker) : (p.workers.set worker w').count .stopped =
      p.workers.count .stopped + if w' = .stopped then 1 else 0 := by
  obtain ⟨before, after, split, set⟩ := exists_split_set found w'
  rw [set, split, List.count_append, List.count_append, List.count_cons,
    List.count_cons_of_ne active]
  simp only [beq_iff_eq]
  exact (Nat.add_assoc ..).symm

theorem age_take (taken : p.take? worker = some p') : p'.age = p.age + 1 := by
  obtain ⟨task, looking, -, rfl⟩ := take?_eq_some.mp taken
  rw [age, age]
  simp only [setWorker, count_stopped_set looking nofun, reduceCtorEq, if_false]
  omega

theorem age_finish (finished : p.finish? worker = some p') : p'.age = p.age + 1 := by
  obtain ⟨task, runs, rfl⟩ := finish?_eq_some.mp finished
  rw [age, age]
  simp only [setWorker, count_stopped_set runs nofun, reduceCtorEq, if_false, Array.size_push]
  omega

theorem age_stop (stopped : p.stop? worker = some p') : p'.age = p.age + 1 := by
  obtain ⟨-, -, looking, rfl⟩ := stop?_eq_some.mp stopped
  rw [age, age]
  simp only [setWorker, count_stopped_set looking nofun, if_true]
  omega

theorem age_joinReturn (returned : p.joinReturn? = some p') : p'.age = p.age + 1 := by
  obtain ⟨waiting, -, rfl⟩ := joinReturn?_eq_some.mp returned
  rw [age, age, waiting]
  rfl

/-- A pool does not get older than its tasks and workers allow. -/
theorem Valid.age_le (valid : p.Valid) :
    p.age ≤ p.pushes + 2 * p.accepted.size + p.workers.length + 2 := by
  have finished : p.finished.size ≤ p.taken := by
    have length := valid.perm.length_eq
    rw [List.length_append, Array.length_toList, List.length_take] at length
    omega
  have stopped : p.workers.count .stopped ≤ p.workers.length := List.count_le_length
  have join : p.join.age ≤ 2 := by cases p.join <;> decide
  have taken := valid.taken_le
  rw [age]
  omega

end WorkerPool

end ClassAbi
