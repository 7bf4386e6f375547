import ClassAbi.Proofs.PoolRuns
import ClassAbi.WorkerPool.Shared
import Mathlib.Data.List.Nodup

/-!
# Shared pools lose no task and run none twice

`SharedPool.Lossless` says what holds of a shared pool at any time, in terms of the pool
and of what was recorded.  Three invariants carry it.  The records agree with the pool
(`SharedPool.Agrees`), a task that a worker has is begun once (`SharedPool.RunsOnce`), and
pushes and joins were answered by whether the pool was closed then (`SharedPool.Answers`).
Each is kept by every move (`SharedPool.Moves`), so they hold after all moves.
-/

namespace ClassAbi

/-! ## Workers and their tasks -/

namespace WorkerPool

variable {p : WorkerPool}

theorem push_of_not_isAccepting (shut : p.isAccepting = false) :
    p.push.2 = { p with pushes := p.pushes + 1 } := by
  rw [push, if_neg (by rw [shut]; exact Bool.false_ne_true)]

theorem Valid.push_refused (valid : p.Valid) (shut : p.isAccepting = false) : p.push.2.Valid := by
  rw [push_of_not_isAccepting shut]
  exact ⟨valid.taken_le, valid.perm, valid.stopped, valid.returned⟩

/-- The worker has the task. -/
def Has (p : WorkerPool) (worker task : Nat) : Prop := p.workers[worker]? = some (.running task)

/-- When a worker changes, the others have what they had. -/
theorem has_setWorker {worker : Nat} {w : Worker} (found : p.workers[worker]? = some w)
    (w' : Worker) (other task : Nat) : (p.setWorker worker w').Has other task ↔
      if other = worker then w' = .running task else p.Has other task := by
  obtain ⟨inside, -⟩ := List.getElem?_eq_some_iff.mp found
  unfold Has setWorker
  dsimp only
  by_cases here : other = worker
  · subst here
    rw [List.getElem?_set_self inside, if_pos rfl, Option.some_inj]
  · rw [List.getElem?_set_ne (Ne.symm here), if_neg here]

theorem count_running (p : WorkerPool) (task : Nat) :
    p.running.count task = p.workers.count (.running task) := by
  rw [running, List.count_filterMap, List.count]
  congr 1
  funext w
  cases w <;> simp [Worker.task?]

end WorkerPool

/-! ## What was recorded -/

namespace PoolRecord

/-- The task that was pushed. -/
def pushed? : PoolRecord → Option Nat
  | pushed _ task _ => some task
  | _ => none

/-- The task that was pushed and accepted. -/
def accepted? : PoolRecord → Option Nat
  | pushed _ task true => some task
  | _ => none

/-- The task that was taken. -/
def taken? : PoolRecord → Option Nat
  | took _ task => some task
  | _ => none

/-- The task that was begun. -/
def begun? : PoolRecord → Option Nat
  | began _ task => some task
  | _ => none

/-- The task that was ended. -/
def ended? : PoolRecord → Option Nat
  | ended _ task => some task
  | _ => none

/-- A join was called, and has closed the pool or has found it closed. -/
def isJoin : PoolRecord → Bool
  | closed _ => true
  | joined _ waited => !waited
  | _ => false

/-- A join has closed the pool. -/
def isClosing : PoolRecord → Bool
  | closed _ => true
  | _ => false

/-- The join that has waited for the workers has returned. -/
def isReturn : PoolRecord → Bool
  | joined _ waited => waited
  | _ => false

/-- What is recorded of a call is the right answer to it, behind what was recorded earlier. -/
def AnsweredAfter (earlier : List PoolRecord) : PoolRecord → Prop
  | pushed _ _ accepted => accepted = true ↔ ∀ other, closed other ∉ earlier
  | joined _ false => ∃ other, closed other ∈ earlier
  | joined thread true => closed thread ∈ earlier
  | _ => True

end PoolRecord

namespace SharedPool

/-- The tasks that were pushed. -/
def pushed (s : SharedPool) : List Nat := s.records.filterMap PoolRecord.pushed?

/-- The tasks whose pushes were accepted. -/
def accepted (s : SharedPool) : List Nat := s.records.filterMap PoolRecord.accepted?

/-- The tasks that were taken. -/
def taken (s : SharedPool) : List Nat := s.records.filterMap PoolRecord.taken?

/-- The tasks that were begun. -/
def begun (s : SharedPool) : List Nat := s.records.filterMap PoolRecord.begun?

/-- The tasks that were ended. -/
def ended (s : SharedPool) : List Nat := s.records.filterMap PoolRecord.ended?

/-- What holds of a shared pool of the given size at any time. -/
structure Lossless (size : Nat) (s : SharedPool) : Prop where
  /-- There are as many workers as were asked for, and one at least. -/
  workers : s.pool.size = max size 1
  /-- Each push brings a task of its own. -/
  numbered : s.pushed = List.range s.pool.pushes
  /-- An accepted task waits, or is with one worker, or has ended, and that once. -/
  place : ∀ task ∈ s.accepted, s.pool.queue.count task +
    s.pool.workers.count (.running task) + s.ended.count task = 1
  /-- A task that was not accepted is nowhere and was never taken or begun. -/
  refused : ∀ task, task ∉ s.accepted → task ∉ s.pool.queue ∧ .running task ∉ s.pool.workers ∧
    task ∉ s.taken ∧ task ∉ s.begun ∧ task ∉ s.ended
  /-- The tasks that were taken, and behind them those that wait, are the accepted ones in
  their order. -/
  order : s.taken ++ s.pool.queue = s.accepted
  /-- No task is begun twice. -/
  once : ∀ task, s.begun.count task ≤ 1
  /-- What has ended was begun, and what was begun was taken. -/
  begun : s.ended ⊆ s.begun ∧ s.begun ⊆ s.taken
  /-- A push is accepted just when no join has closed the pool before. -/
  pushes : ∀ earlier thread task accepted,
    earlier ++ [PoolRecord.pushed thread task accepted] <+: s.records →
      (accepted = true ↔ ∀ other, .closed other ∉ earlier)
  /-- Of the joins that were called exactly one has closed the pool. -/
  closing : s.records.countP PoolRecord.isClosing = if s.records.any PoolRecord.isJoin then 1 else 0
  /-- All others find the pool closed. -/
  joins : ∀ earlier thread, earlier ++ [PoolRecord.joined thread false] <+: s.records →
    ∃ other, .closed other ∈ earlier
  /-- Only the join that has closed the pool waits and returns that it did, and it returns
  once. -/
  returns : s.records.countP PoolRecord.isReturn ≤ 1 ∧
    ∀ earlier thread, earlier ++ [PoolRecord.joined thread true] <+: s.records →
      .closed thread ∈ earlier
  /-- When that join has returned no task waits and none is run, and every accepted task
  was begun and ended once. -/
  returned : ∀ thread, .joined thread true ∈ s.records → s.pool.queue = [] ∧
    (∀ w ∈ s.pool.workers, w = .stopped) ∧
    ∀ task ∈ s.accepted, s.begun.count task = 1 ∧ s.ended.count task = 1
  /-- No join finds tasks that were left. -/
  steady : s.fatal = none

/-! ## What a move does -/

variable {s s' : SharedPool} {size : Nat}

/-- What a move makes of a shared pool. -/
inductive Moves (s : SharedPool) : SharedPool → Prop where
  | accept (thread : Nat) (accepting : s.pool.isAccepting) :
    Moves s ({ s with pool := s.pool.push.2 }.note (.pushed thread s.pool.pushes true))
  | refuse (thread : Nat) (shut : s.pool.isAccepting = false) :
    Moves s ({ s with pool := s.pool.push.2 }.note (.pushed thread s.pool.pushes false))
  | close (thread : Nat) (accepting : s.pool.isAccepting) :
    Moves s ({ s with pool := s.pool.beginJoin.2, joiner := some thread }.note (.closed thread))
  | rejoin (thread : Nat) (shut : s.pool.isAccepting = false) :
    Moves s (s.note (.joined thread false))
  | joinReturn (thread : Nat) (p : WorkerPool) (joins : s.joiner = some thread)
    (returned : s.pool.joinReturn? = some p) :
    Moves s ({ s with pool := p, joiner := none }.note (.joined thread true))
  | fail (p : WorkerPool) (fatal : Fatal) (returned : s.pool.joinReturn? = some p)
    (left : p.queue ≠ []) : Moves s { s with fatal := some fatal }
  | take (worker task : Nat) (p : WorkerPool) (first : s.pool.accepted[s.pool.taken]? = some task)
    (taken : s.pool.take? worker = some p) :
    Moves s ({ s with pool := p }.note (.took worker task))
  | stop (worker : Nat) (p : WorkerPool) (stopped : s.pool.stop? worker = some p) :
    Moves s { s with pool := p }
  | rest (asleep : List Nat) : Moves s { s with asleep := asleep }
  | start (worker task : Nat) (runs : s.pool.workers[worker]? = some (.running task))
    (fresh : worker ∉ s.atWork) :
    Moves s ({ s with atWork := worker :: s.atWork }.note (.began worker task))
  | finish (worker task : Nat) (p : WorkerPool)
    (runs : s.pool.workers[worker]? = some (.running task)) (busy : worker ∈ s.atWork)
    (finished : s.pool.finish? worker = some p) :
    Moves s ({ s with pool := p, atWork := s.atWork.filter (· ≠ worker) }.note
      (.ended worker task))

theorem moves_of_push? {thread : Nat} (h : s.push? thread = some s') : s.Moves s' := by
  rw [push?, Option.ite_none_left_eq_some] at h
  have made : { s with pool := s.pool.push.2 }.note
      (.pushed thread s.pool.pushes s.pool.push.1) = s' := Option.some.inj h.2
  rw [← made]
  cases accepting : s.pool.isAccepting with
  | true =>
    have answer : s.pool.push.1 = true := by rw [WorkerPool.push, if_pos accepting]
    rw [answer]
    exact .accept thread accepting
  | false =>
    have answer : s.pool.push.1 = false := by
      rw [WorkerPool.push, if_neg (by rw [accepting]; exact Bool.false_ne_true)]
    rw [answer]
    exact .refuse thread accepting

theorem moves_of_join? {thread : Nat} (h : s.join? thread = some s') : s.Moves s' := by
  rw [join?, Option.ite_none_left_eq_some] at h
  obtain ⟨-, h⟩ := h
  cases accepting : s.pool.isAccepting with
  | true =>
    have answer : s.pool.beginJoin.1 = true := by rw [WorkerPool.beginJoin, if_pos accepting]
    simp only [answer, if_true] at h
    cases h
    exact .close thread accepting
  | false =>
    have answer : s.pool.beginJoin = (false, s.pool) := by
      rw [WorkerPool.beginJoin, if_neg (by rw [accepting]; exact Bool.false_ne_true)]
    simp only [answer, Bool.false_eq_true, if_false] at h
    cases h
    exact .rejoin thread accepting

theorem moves_of_joinReturn? (h : s.joinReturn? = some s') : s.Moves s' := by
  unfold joinReturn? at h
  split at h
  · next thread p joins returned =>
    split at h
    · cases h
      exact .joinReturn thread p joins returned
    · next left =>
      cases h
      exact .fail p _ returned left
  · cases h

theorem moves_of_look? {worker : Nat} (h : s.look? worker = some s') : s.Moves s' := by
  rw [look?, Option.ite_none_left_eq_some] at h
  obtain ⟨-, h⟩ := h
  split at h
  · next task tasks queue =>
    obtain ⟨p, taken, rfl⟩ := Option.map_eq_some_iff.mp h
    have first : s.pool.accepted[s.pool.taken]? = some task := by
      have head := congrArg List.head? queue
      rwa [WorkerPool.queue, List.head?_drop, Array.getElem?_toList] at head
    exact .take worker task p first taken
  · split at h
    · cases h
      exact .rest _
    · obtain ⟨p, stopped, rfl⟩ := Option.map_eq_some_iff.mp h
      exact .stop worker p stopped

theorem moves_of_start? {worker : Nat} (h : s.start? worker = some s') : s.Moves s' := by
  unfold start? at h
  split at h
  · next task runs =>
    rw [Option.ite_none_left_eq_some] at h
    obtain ⟨fresh, ⟨⟩⟩ := h
    exact .start worker task runs fresh
  · cases h

theorem moves_of_finish? {worker : Nat} (h : s.finish? worker = some s') : s.Moves s' := by
  unfold finish? at h
  split at h
  · next task runs =>
    rw [Option.ite_none_right_eq_some] at h
    obtain ⟨busy, h⟩ := h
    obtain ⟨p, finished, rfl⟩ := Option.map_eq_some_iff.mp h
    exact .finish worker task p runs busy finished
  · cases h

theorem moves_of_move? {m : PoolMove} (h : s.move? m = some s') : s.Moves s' := by
  unfold move? at h
  rw [Option.ite_none_left_eq_some] at h
  obtain ⟨-, h⟩ := h
  cases m with
  | push thread => exact moves_of_push? h
  | join thread => exact moves_of_join? h
  | joinReturn => exact moves_of_joinReturn? h
  | look worker => exact moves_of_look? h
  | wake worker =>
    have h : s.wake? worker = some s' := h
    rw [wake?, Option.ite_none_right_eq_some] at h
    obtain ⟨-, ⟨⟩⟩ := h
    exact .rest _
  | start worker => exact moves_of_start? h
  | finish worker => exact moves_of_finish? h

/-! ## The records agree with the pool -/

/-- The pool is as the records say. -/
structure Agrees (size : Nat) (s : SharedPool) : Prop where
  valid : s.pool.Valid
  workers : s.pool.workers.length = max size 1
  pushed : s.pushed = List.range s.pool.pushes
  accepted : s.accepted = s.pool.accepted.toList
  taken : s.taken = s.pool.accepted.toList.take s.pool.taken
  ended : s.ended = s.pool.finished.toList

theorem agrees_new (size : Nat) : (new size).Agrees size where
  valid := WorkerPool.valid_new size
  workers := List.length_replicate
  pushed := rfl
  accepted := rfl
  taken := rfl
  ended := rfl

/-- What is picked from the records, when there is one more. -/
theorem filterMap_of_note {r : PoolRecord} (records : s'.records = s.records ++ [r])
    (pick : PoolRecord → Option Nat) :
    s'.records.filterMap pick = s.records.filterMap pick ++ (pick r).toList := by
  cases found : pick r <;> simp [records, found]

namespace Agrees

variable (h : s.Agrees size)
include h

/-- What is recorded is what has happened to the pool. -/
theorem of_note {r : PoolRecord} (records : s'.records = s.records ++ [r])
    (valid : s'.pool.Valid) (workers : s'.pool.workers.length = s.pool.workers.length)
    (pushed : List.range s'.pool.pushes = List.range s.pool.pushes ++ r.pushed?.toList)
    (accepted : s'.pool.accepted.toList = s.pool.accepted.toList ++ r.accepted?.toList)
    (taken : s'.pool.accepted.toList.take s'.pool.taken =
      s.pool.accepted.toList.take s.pool.taken ++ r.taken?.toList)
    (ended : s'.pool.finished.toList = s.pool.finished.toList ++ r.ended?.toList) :
    s'.Agrees size := by
  refine ⟨valid, workers.trans h.workers, ?_, ?_, ?_, ?_⟩
  · rw [pushed, ← h.pushed]
    exact filterMap_of_note records _
  · rw [accepted, ← h.accepted]
    exact filterMap_of_note records _
  · rw [taken, ← h.taken]
    exact filterMap_of_note records _
  · rw [ended, ← h.ended]
    exact filterMap_of_note records _

theorem move (moves : s.Moves s') : s'.Agrees size := by
  cases moves with
  | accept thread accepting =>
    have pushed := WorkerPool.push_of_isAccepting accepting
    refine h.of_note rfl (h.valid.push accepting) ?_ ?_ ?_ ?_ ?_ <;> simp only [note, pushed]
    · exact List.range_succ
    · exact Array.toList_push
    · rw [Array.toList_push, List.take_append_of_le_length h.valid.taken_le]
      exact (List.append_nil _).symm
    · exact (List.append_nil _).symm
  | refuse thread shut =>
    have pushed := WorkerPool.push_of_not_isAccepting shut
    have valid := h.valid.push_refused shut
    refine h.of_note rfl valid ?_ ?_ ?_ ?_ ?_ <;> simp only [note, pushed]
    · exact List.range_succ
    all_goals exact (List.append_nil _).symm
  | close thread accepting =>
    have begun := WorkerPool.beginJoin_of_isAccepting accepting
    refine h.of_note rfl (h.valid.beginJoin accepting) ?_ ?_ ?_ ?_ ?_ <;> simp only [note, begun]
    all_goals exact (List.append_nil _).symm
  | rejoin thread shut =>
    refine h.of_note rfl h.valid rfl ?_ ?_ ?_ ?_
    all_goals exact (List.append_nil _).symm
  | joinReturn thread p joins returned =>
    have valid := h.valid.joinReturn returned
    obtain ⟨-, -, rfl⟩ := WorkerPool.joinReturn?_eq_some.mp returned
    refine h.of_note rfl valid rfl ?_ ?_ ?_ ?_
    all_goals exact (List.append_nil _).symm
  | fail p fatal returned left => exact ⟨h.valid, h.workers, h.pushed, h.accepted, h.taken, h.ended⟩
  | take worker task p first taken =>
    have valid := h.valid.take taken
    obtain ⟨task', -, waits, rfl⟩ := WorkerPool.take?_eq_some.mp taken
    refine h.of_note rfl valid List.length_set ?_ ?_ ?_ ?_
    · exact (List.append_nil _).symm
    · exact (List.append_nil _).symm
    · have first : s.pool.accepted.toList[s.pool.taken]?.toList = [task] := by simp [first]
      exact List.take_add_one.trans (congrArg _ first)
    · exact (List.append_nil _).symm
  | stop worker p stopped =>
    have valid := h.valid.stop stopped
    obtain ⟨-, -, -, rfl⟩ := WorkerPool.stop?_eq_some.mp stopped
    exact ⟨valid, List.length_set.trans h.workers, h.pushed, h.accepted, h.taken, h.ended⟩
  | rest asleep => exact ⟨h.valid, h.workers, h.pushed, h.accepted, h.taken, h.ended⟩
  | start worker task runs fresh =>
    refine h.of_note rfl h.valid rfl ?_ ?_ ?_ ?_
    all_goals exact (List.append_nil _).symm
  | finish worker task p runs busy finished =>
    have valid := h.valid.finish finished
    obtain ⟨task', runs', rfl⟩ := WorkerPool.finish?_eq_some.mp finished
    cases runs.symm.trans runs'
    refine h.of_note rfl valid List.length_set ?_ ?_ ?_ ?_
    · exact (List.append_nil _).symm
    · exact (List.append_nil _).symm
    · exact (List.append_nil _).symm
    · exact Array.toList_push

/-- Accepted tasks are told apart, since each push brings another. -/
theorem nodup_accepted : s.accepted.Nodup := by
  have sub : s.accepted.Sublist s.pushed := by
    unfold SharedPool.accepted SharedPool.pushed
    induction s.records with
    | nil => exact .slnil
    | cons r records ih =>
      cases r with
      | pushed thread task accepted =>
        cases accepted with
        | true => exact ih.cons_cons task
        | false => exact ih.cons task
      | _ => exact ih
  exact sub.nodup (h.pushed ▸ List.nodup_range)

/-- The tasks that workers have, those that have ended and those that wait are the accepted
ones. -/
theorem perm : (s.ended ++ s.pool.running ++ s.pool.queue).Perm s.accepted := by
  rw [h.ended, h.accepted, WorkerPool.queue]
  exact (h.valid.perm.append_right _).trans (.of_eq (List.take_append_drop ..))

/-- No two workers have the same task. -/
theorem worker_eq {task i j : Nat} (runs : s.pool.Has i task) (runs' : s.pool.Has j task) :
    i = j := by
  have nodup := h.perm.nodup_iff.mpr h.nodup_accepted
  have running : s.pool.running.Nodup := (List.nodup_append.mp (List.nodup_append.mp nodup).1).2.1
  have apart {i j : Nat} (lt : i < j) (runs : s.pool.Has i task) (runs' : s.pool.Has j task) :
      False := by
    obtain ⟨inside, here⟩ := List.getElem?_eq_some_iff.mp runs
    obtain ⟨inside', here'⟩ := List.getElem?_eq_some_iff.mp runs'
    have differs := List.pairwise_iff_getElem.mp (List.pairwise_filterMap.mp running)
    refine differs i j inside inside' lt task ?_ task ?_ rfl
    · rw [here]
      rfl
    · rw [here']
      rfl
  rcases Nat.lt_trichotomy i j with lt | same | lt
  · exact (apart lt runs runs').elim
  · exact same
  · exact (apart lt runs' runs).elim

/-- What a worker has was taken. -/
theorem mem_taken {worker task : Nat} (has : s.pool.Has worker task) : task ∈ s.taken := by
  have mem : task ∈ s.pool.running :=
    List.mem_filterMap.mpr ⟨_, List.mem_of_getElem? has, rfl⟩
  rw [h.taken]
  exact h.valid.perm.subset (List.mem_append_right _ mem)

/-- The first task that waits was not taken. -/
theorem not_mem_taken {task : Nat} (first : s.pool.accepted[s.pool.taken]? = some task) :
    task ∉ s.taken := by
  intro mem
  obtain ⟨inside, rfl⟩ := Array.getElem?_eq_some_iff.mp first
  have nodup := h.nodup_accepted
  rw [h.accepted] at nodup
  rw [h.taken] at mem
  obtain ⟨i, before, same⟩ := List.mem_take_iff_getElem.mp mem
  rw [← Array.getElem_toList] at same
  have eq := nodup.getElem_inj_iff.mp same
  omega

end Agrees

/-! ## A task is begun once -/

/-- The workers that have begun their tasks are those at work. -/
structure RunsOnce (s : SharedPool) : Prop where
  begun_taken : s.begun ⊆ s.taken
  nodup : s.begun.Nodup
  ended_begun : s.ended ⊆ s.begun
  /-- A worker at work has begun a task. -/
  atWork : ∀ worker ∈ s.atWork, ∃ task ∈ s.begun, s.pool.Has worker task
  /-- No one has begun the task of another worker. -/
  notYet : ∀ worker task, s.pool.Has worker task → worker ∉ s.atWork → task ∉ s.begun

theorem runsOnce_new (size : Nat) : (new size).RunsOnce where
  begun_taken := List.nil_subset _
  nodup := .nil
  ended_begun := List.nil_subset _
  atWork _ mem := nomatch mem
  notYet _ _ _ _ mem := nomatch mem

namespace RunsOnce

variable (h : s.RunsOnce)
include h

/-- Workers go on with their tasks, and no task is begun or ended. -/
theorem of_same (begun : s'.begun = s.begun) (taken : s'.taken = s.taken)
    (ended : s'.ended = s.ended) (atWork : s'.atWork = s.atWork)
    (has : ∀ worker task, s'.pool.Has worker task ↔ s.pool.Has worker task) : s'.RunsOnce := by
  refine ⟨?_, ?_, ?_, ?_, ?_⟩
  · rw [begun, taken]
    exact h.begun_taken
  · rw [begun]
    exact h.nodup
  · rw [begun, ended]
    exact h.ended_begun
  · simp only [begun, atWork, has]
    exact h.atWork
  · simp only [begun, atWork, has]
    exact h.notYet

omit h in
/-- What is not in a record stays what it was. -/
theorem filterMap_of_none {r : PoolRecord} (records : s'.records = s.records ++ [r])
    {pick : PoolRecord → Option Nat} (none : pick r = none) :
    s'.records.filterMap pick = s.records.filterMap pick := by
  rw [filterMap_of_note records, none]
  exact List.append_nil _

/-- A worker takes a task that no one has begun. -/
theorem take {worker task : Nat} {p : WorkerPool} (fresh : task ∉ s.taken)
    (first : s.pool.accepted[s.pool.taken]? = some task) (taken : s.pool.take? worker = some p)
    (records : s'.records = s.records ++ [.took worker task]) (pool : s'.pool = p)
    (atWork : s'.atWork = s.atWork) : s'.RunsOnce := by
  obtain ⟨task', looking, waits, rfl⟩ := WorkerPool.take?_eq_some.mp taken
  cases first.symm.trans waits
  have idle : worker ∉ s.atWork := by
    intro mem
    obtain ⟨task', -, has⟩ := h.atWork worker mem
    cases looking.symm.trans has
  have begun : s'.begun = s.begun := filterMap_of_none records rfl
  have ended : s'.ended = s.ended := filterMap_of_none records rfl
  have more : s'.taken = s.taken ++ [task] := filterMap_of_note records _
  have has (other task' : Nat) : s'.pool.Has other task' ↔
      if other = worker then Worker.running task = .running task' else s.pool.Has other task' := by
    rw [pool]
    exact WorkerPool.has_setWorker looking _ other task'
  refine ⟨?_, ?_, ?_, ?_, ?_⟩
  · rw [begun, more]
    exact List.subset_append_of_subset_left _ h.begun_taken
  · rw [begun]
    exact h.nodup
  · rw [begun, ended]
    exact h.ended_begun
  · intro other mem
    rw [atWork] at mem
    obtain ⟨task', mem', runs⟩ := h.atWork other mem
    refine ⟨task', begun ▸ mem', (has other task').mpr ?_⟩
    rwa [if_neg]
    rintro rfl
    exact idle mem
  · intro other task' runs rests
    rw [atWork] at rests
    rw [begun]
    rw [has] at runs
    split at runs
    · cases runs
      exact fun mem => fresh (h.begun_taken mem)
    · exact h.notYet other task' runs rests

/-- A worker begins the task that it has. -/
theorem start (agrees : s.Agrees size) {worker task : Nat} (runs : s.pool.Has worker task)
    (rests : worker ∉ s.atWork) (records : s'.records = s.records ++ [.began worker task])
    (pool : s'.pool = s.pool) (atWork : s'.atWork = worker :: s.atWork) : s'.RunsOnce := by
  have fresh := h.notYet worker task runs rests
  have begun : s'.begun = s.begun ++ [task] := filterMap_of_note records _
  have ended : s'.ended = s.ended := filterMap_of_none records rfl
  have taken : s'.taken = s.taken := filterMap_of_none records rfl
  refine ⟨?_, ?_, ?_, ?_, ?_⟩
  · rw [begun, taken]
    refine List.append_subset.mpr ⟨h.begun_taken, ?_⟩
    simpa using agrees.mem_taken runs
  · rw [begun]
    exact List.nodup_append.mpr ⟨h.nodup, List.nodup_singleton _, by
      rintro other mem _ here rfl
      exact fresh (List.mem_singleton.mp here ▸ mem)⟩
  · rw [begun, ended]
    exact List.subset_append_of_subset_left _ h.ended_begun
  · intro other mem
    rw [atWork] at mem
    rw [begun, pool]
    rcases List.mem_cons.mp mem with rfl | mem
    · exact ⟨task, List.mem_append_right _ List.mem_cons_self, runs⟩
    · obtain ⟨task', mem', runs'⟩ := h.atWork other mem
      exact ⟨task', List.mem_append_left _ mem', runs'⟩
  · intro other task' runs' rests'
    rw [atWork, List.mem_cons, not_or] at rests'
    rw [pool] at runs'
    rw [begun, List.mem_append, List.mem_singleton, not_or]
    refine ⟨h.notYet other task' runs' rests'.2, ?_⟩
    rintro rfl
    exact rests'.1 (agrees.worker_eq runs' runs)

/-- A worker ends the task that it has begun. -/
theorem finish {worker task : Nat} {p : WorkerPool}
    (runs : s.pool.Has worker task) (busy : worker ∈ s.atWork)
    (finished : s.pool.finish? worker = some p)
    (records : s'.records = s.records ++ [.ended worker task]) (pool : s'.pool = p)
    (atWork : s'.atWork = s.atWork.filter (· ≠ worker)) : s'.RunsOnce := by
  obtain ⟨task', runs', rfl⟩ := WorkerPool.finish?_eq_some.mp finished
  have begun : s'.begun = s.begun := filterMap_of_none records rfl
  have taken : s'.taken = s.taken := filterMap_of_none records rfl
  have ended : s'.ended = s.ended ++ [task] := filterMap_of_note records _
  have has (other task' : Nat) : s'.pool.Has other task' ↔
      if other = worker then Worker.looking = .running task' else s.pool.Has other task' := by
    rw [pool]
    exact WorkerPool.has_setWorker runs' _ other task'
  refine ⟨?_, ?_, ?_, ?_, ?_⟩
  · rw [begun, taken]
    exact h.begun_taken
  · rw [begun]
    exact h.nodup
  · rw [begun, ended]
    obtain ⟨task', mem, here⟩ := h.atWork worker busy
    cases runs.symm.trans here
    refine List.append_subset.mpr ⟨h.ended_begun, ?_⟩
    simpa using mem
  · intro other mem
    rw [atWork, List.mem_filter, decide_eq_true_eq] at mem
    obtain ⟨task', mem', runs'⟩ := h.atWork other mem.1
    refine ⟨task', begun ▸ mem', (has other task').mpr ?_⟩
    rwa [if_neg mem.2]
  · intro other task' runs' rests
    rw [has] at runs'
    split at runs'
    · cases runs'
    · next elsewhere =>
      rw [atWork, List.mem_filter, decide_eq_true_eq, not_and, not_not] at rests
      rw [begun]
      exact h.notYet other task' runs' fun mem => elsewhere (rests mem)

theorem move (agrees : s.Agrees size) (moves : s.Moves s') : s'.RunsOnce := by
  have same {s' : SharedPool} {r : PoolRecord} (records : s'.records = s.records ++ [r])
      (other : r.begun? = none ∧ r.taken? = none ∧ r.ended? = none) (atWork : s'.atWork = s.atWork)
      (has : ∀ worker task, s'.pool.Has worker task ↔ s.pool.Has worker task) : s'.RunsOnce :=
    h.of_same (filterMap_of_none records other.1) (filterMap_of_none records other.2.1)
      (filterMap_of_none records other.2.2) atWork has
  cases moves with
  | accept thread accepting =>
    refine same rfl ⟨rfl, rfl, rfl⟩ rfl fun worker task => ?_
    rw [WorkerPool.push_of_isAccepting accepting]
    rfl
  | refuse thread shut =>
    refine same rfl ⟨rfl, rfl, rfl⟩ rfl fun worker task => ?_
    rw [WorkerPool.push_of_not_isAccepting shut]
    rfl
  | close thread accepting =>
    refine same rfl ⟨rfl, rfl, rfl⟩ rfl fun worker task => ?_
    rw [WorkerPool.beginJoin_of_isAccepting accepting]
    rfl
  | rejoin thread shut => exact same rfl ⟨rfl, rfl, rfl⟩ rfl fun _ _ => .rfl
  | joinReturn thread p joins returned =>
    obtain ⟨-, -, rfl⟩ := WorkerPool.joinReturn?_eq_some.mp returned
    exact same rfl ⟨rfl, rfl, rfl⟩ rfl fun _ _ => .rfl
  | fail p fatal returned left => exact h.of_same rfl rfl rfl rfl fun _ _ => .rfl
  | rest asleep => exact h.of_same rfl rfl rfl rfl fun _ _ => .rfl
  | stop worker p stopped =>
    obtain ⟨-, -, looking, rfl⟩ := WorkerPool.stop?_eq_some.mp stopped
    refine h.of_same rfl rfl rfl rfl fun other task => ?_
    rw [WorkerPool.has_setWorker looking]
    split
    · next here =>
      subst here
      rw [WorkerPool.Has, looking]
      simp
    · rfl
  | take worker task p first taken =>
    exact h.take (agrees.not_mem_taken first) first taken rfl rfl rfl
  | start worker task runs fresh => exact h.start agrees runs fresh rfl rfl rfl
  | finish worker task p runs busy finished => exact h.finish runs busy finished rfl rfl rfl

end RunsOnce

/-! ## Pushes and joins are answered -/

/-- Every call was answered by whether the pool was closed then. -/
structure Answers (s : SharedPool) : Prop where
  answered : ∀ earlier r, earlier ++ [r] <+: s.records → r.AnsweredAfter earlier
  /-- A pool that accepts tasks was never joined. -/
  fresh : s.pool.isAccepting → ∀ r ∈ s.records, r.isJoin = false
  closing : s.records.countP PoolRecord.isClosing = if s.pool.isAccepting then 0 else 1
  joiner : ∀ thread, s.joiner = some thread → .closed thread ∈ s.records
  returns : s.records.countP PoolRecord.isReturn = if s.pool.join = .returned then 1 else 0

theorem answers_new (size : Nat) : (new size).Answers where
  answered earlier r within := by simp [new] at within
  fresh _ _ mem := nomatch mem
  closing := rfl
  joiner thread waits := nomatch waits
  returns := rfl

namespace Answers

variable (h : s.Answers)
include h

/-- A join has closed the pool just when the pool accepts no tasks. -/
theorem isAccepting_iff : s.pool.isAccepting ↔ ∀ other, .closed other ∉ s.records := by
  have closing := h.closing
  constructor
  · intro accepting other mem
    rw [if_pos accepting, List.countP_eq_zero] at closing
    exact closing _ mem rfl
  · intro none
    by_contra shut
    rw [if_neg shut] at closing
    obtain ⟨r, mem, isClosing⟩ := List.countP_pos_iff.mp (closing ▸ Nat.one_pos)
    cases r with
    | closed other => exact none other mem
    | _ => cases isClosing

theorem exists_closed (shut : s.pool.isAccepting = false) : ∃ other, .closed other ∈ s.records := by
  by_contra none
  have accepting := h.isAccepting_iff.mpr fun other mem => none ⟨other, mem⟩
  rw [shut] at accepting
  cases accepting

/-- What is recorded is the answer to a call, or nothing was called. -/
theorem of_note {r : PoolRecord} (records : s'.records = s.records ++ [r])
    (answer : r.AnsweredAfter s.records)
    (fresh : s'.pool.isAccepting → s.pool.isAccepting ∧ r.isJoin = false)
    (closing : (if s'.pool.isAccepting then 0 else 1) =
      (if s.pool.isAccepting then 0 else 1) + if r.isClosing then 1 else 0)
    (joiner : ∀ thread, s'.joiner = some thread → s.joiner = some thread ∨ r = .closed thread)
    (returns : (if s'.pool.join = .returned then 1 else 0) =
      (if s.pool.join = .returned then 1 else 0) + if r.isReturn then 1 else 0) :
    s'.Answers where
  answered earlier x within := by
    rw [records, List.prefix_concat_iff] at within
    rcases within with last | within
    · obtain ⟨rfl, rfl⟩ := List.append_inj' last rfl |>.imp id List.singleton_inj.mp
      exact answer
    · exact h.answered earlier x within
  fresh accepting x mem := by
    obtain ⟨before, none⟩ := fresh accepting
    rw [records, List.mem_append, List.mem_singleton] at mem
    rcases mem with mem | rfl
    · exact h.fresh before x mem
    · exact none
  closing := by rw [records, List.countP_append, List.countP_singleton, h.closing, closing]
  joiner thread waits := by
    rw [records, List.mem_append, List.mem_singleton]
    rcases joiner thread waits with before | rfl
    · exact .inl (h.joiner thread before)
    · exact .inr rfl
  returns := by rw [records, List.countP_append, List.countP_singleton, h.returns, returns]

/-- Nothing is recorded, and the pool is neither closed nor does a join return. -/
theorem of_same (records : s'.records = s.records) (joiner : s'.joiner = s.joiner)
    (join : s'.pool.join = s.pool.join) : s'.Answers := by
  have accepting : s'.pool.isAccepting = s.pool.isAccepting := by
    rw [WorkerPool.isAccepting, WorkerPool.isAccepting, join]
  refine ⟨?_, ?_, ?_, ?_, ?_⟩
  · rw [records]
    exact h.answered
  · rw [records, accepting]
    exact h.fresh
  · rw [records, accepting]
    exact h.closing
  · rw [records, joiner]
    exact h.joiner
  · rw [records, join]
    exact h.returns

/-- A worker has done something. -/
theorem of_worker {r : PoolRecord} (records : s'.records = s.records ++ [r])
    (joiner : s'.joiner = s.joiner) (join : s'.pool.join = s.pool.join)
    (answer : r.AnsweredAfter s.records)
    (other : r.isJoin = false ∧ r.isClosing = false ∧ r.isReturn = false) : s'.Answers := by
  have accepting : s'.pool.isAccepting = s.pool.isAccepting := by
    rw [WorkerPool.isAccepting, WorkerPool.isAccepting, join]
  refine h.of_note records answer ?_ ?_ ?_ ?_
  · rw [accepting]
    exact fun before => ⟨before, other.1⟩
  · rw [accepting, other.2.1]
    rfl
  · rw [joiner]
    exact fun thread => .inl
  · rw [join, other.2.2]
    rfl

theorem move (moves : s.Moves s') : s'.Answers := by
  cases moves with
  | accept thread accepting =>
    refine h.of_worker rfl rfl ?_ ⟨fun _ => h.isAccepting_iff.mp accepting, fun _ => rfl⟩
      ⟨rfl, rfl, rfl⟩
    rw [WorkerPool.push_of_isAccepting accepting]
    rfl
  | refuse thread shut =>
    have some := h.exists_closed shut
    refine h.of_worker rfl rfl ?_ ⟨nofun, ?_⟩ ⟨rfl, rfl, rfl⟩
    · rw [WorkerPool.push_of_not_isAccepting shut]
      rfl
    · intro none
      obtain ⟨other, mem⟩ := some
      exact absurd mem (none other)
  | close thread accepting =>
    have open' : s.pool.join = .none := beq_iff_eq.mp accepting
    rw [WorkerPool.beginJoin_of_isAccepting accepting]
    refine h.of_note rfl trivial nofun ?_ ?_ ?_
    · rw [accepting]
      rfl
    · rintro other ⟨⟩
      exact .inr rfl
    · rw [open']
      rfl
  | rejoin thread shut =>
    refine h.of_note rfl (h.exists_closed shut) ?_ rfl (fun _ => .inl) rfl
    intro accepting
    rw [show s.pool.isAccepting = true from accepting] at shut
    cases shut
  | joinReturn thread p joins returned =>
    obtain ⟨waiting, -, rfl⟩ := WorkerPool.joinReturn?_eq_some.mp returned
    have shut := WorkerPool.isAccepting_eq_false.mpr (waiting.trans_ne nofun)
    refine h.of_note rfl (h.joiner thread joins) nofun ?_ nofun ?_
    · rw [shut]
      rfl
    · rw [waiting]
      rfl
  | fail p fatal returned left => exact h.of_same rfl rfl rfl
  | rest asleep => exact h.of_same rfl rfl rfl
  | stop worker p stopped =>
    obtain ⟨-, -, -, rfl⟩ := WorkerPool.stop?_eq_some.mp stopped
    exact h.of_same rfl rfl rfl
  | take worker task p first taken =>
    obtain ⟨-, -, -, rfl⟩ := WorkerPool.take?_eq_some.mp taken
    exact h.of_worker rfl rfl rfl trivial ⟨rfl, rfl, rfl⟩
  | start worker task runs fresh => exact h.of_worker rfl rfl rfl trivial ⟨rfl, rfl, rfl⟩
  | finish worker task p runs busy finished =>
    obtain ⟨-, -, rfl⟩ := WorkerPool.finish?_eq_some.mp finished
    exact h.of_worker rfl rfl rfl trivial ⟨rfl, rfl, rfl⟩

end Answers

/-! ## What holds at any time -/

/-- When the join has returned no task waits. -/
theorem Agrees.queue_eq_nil (h : s.Agrees size) (returned : s.pool.join = .returned) :
    s.pool.queue = [] := by
  have some : 0 < s.pool.workers.length := by
    rw [h.workers]
    exact Nat.lt_of_lt_of_le Nat.one_pos (Nat.le_max_right ..)
  obtain ⟨w, mem⟩ := List.exists_mem_of_length_pos some
  have stopped := h.valid.returned returned w mem
  have drained := (h.valid.stopped (stopped ▸ mem)).2
  exact List.drop_eq_nil_of_le drained

/-- What holds of a shared pool after all moves that can be made. -/
structure Holds (size : Nat) (s : SharedPool) : Prop where
  agrees : s.Agrees size
  runsOnce : s.RunsOnce
  answers : s.Answers
  steady : s.fatal = none

theorem holds_new (size : Nat) : (new size).Holds size :=
  ⟨agrees_new size, runsOnce_new size, answers_new size, rfl⟩

theorem Holds.move (h : s.Holds size) (moves : s.Moves s') : s'.Holds size := by
  refine ⟨h.agrees.move moves, h.runsOnce.move h.agrees moves, h.answers.move moves, ?_⟩
  cases moves with
  | fail p fatal returned left =>
    have agrees : ({ s with pool := p } : SharedPool).Agrees size := by
      have valid := h.agrees.valid.joinReturn returned
      obtain ⟨-, -, rfl⟩ := WorkerPool.joinReturn?_eq_some.mp returned
      exact { h.agrees with valid }
    obtain ⟨-, -, rfl⟩ := WorkerPool.joinReturn?_eq_some.mp returned
    exact absurd (agrees.queue_eq_nil rfl) left
  | _ => exact h.steady

theorem Holds.run? (h : s.Holds size) {moves : List PoolMove} (run : s.run? moves = some s') :
    s'.Holds size := by
  induction moves generalizing s with
  | nil =>
    cases run
    exact h
  | cons m moves ih =>
    obtain ⟨s₁, first, rest⟩ := Option.bind_eq_some_iff.mp run
    exact ih (h.move (moves_of_move? first)) rest

/-- The tasks that were taken, and then those that wait. -/
theorem Agrees.taken_append (h : s.Agrees size) : s.taken ++ s.pool.queue = s.accepted := by
  rw [h.taken, h.accepted]
  exact List.take_append_drop ..

/-- An accepted task waits, is with a worker or has ended, and one of these only. -/
theorem Agrees.count_eq_one (h : s.Agrees size) {task : Nat} (mem : task ∈ s.accepted) :
    s.pool.queue.count task + s.pool.workers.count (.running task) + s.ended.count task = 1 := by
  have count := h.perm.count_eq task
  rw [List.count_append, List.count_append, WorkerPool.count_running, h.nodup_accepted.count,
    if_pos mem] at count
  omega

theorem Answers.closing_eq (h : s.Answers) : s.records.countP PoolRecord.isClosing =
    if s.records.any PoolRecord.isJoin then 1 else 0 := by
  rw [h.closing]
  cases accepting : s.pool.isAccepting with
  | true =>
    have none : s.records.any PoolRecord.isJoin = false :=
      List.any_eq_false.mpr fun r mem => by simp [h.fresh accepting r mem]
    rw [none]
    rfl
  | false =>
    obtain ⟨other, mem⟩ := h.exists_closed accepting
    have some : s.records.any PoolRecord.isJoin = true := List.any_eq_true.mpr ⟨_, mem, rfl⟩
    rw [some]
    rfl

/-- The join that has closed the pool has returned if that was recorded. -/
theorem Answers.join_eq (h : s.Answers) {thread : Nat} (mem : .joined thread true ∈ s.records) :
    s.pool.join = .returned := by
  have returns := h.returns
  by_contra other
  rw [if_neg other, List.countP_eq_zero] at returns
  exact returns _ mem rfl

/-- Whatever moves threads and workers make, no task is lost and none is run twice. -/
theorem lossless_of_run {moves : List PoolMove} (run : (new size).run? moves = some s) :
    s.Lossless size := by
  obtain ⟨agrees, runsOnce, answers, steady⟩ := (holds_new size).run? run
  have accepted_of_taken : s.taken ⊆ s.accepted := by
    rw [← agrees.taken_append]
    exact List.subset_append_left _ _
  exact {
    workers := agrees.workers
    numbered := agrees.pushed
    place := fun task mem => agrees.count_eq_one mem
    refused := by
      intro task out
      have nowhere : task ∉ s.ended ++ s.pool.running ++ s.pool.queue :=
        fun mem => out (agrees.perm.subset mem)
      rw [List.mem_append, List.mem_append, not_or, not_or] at nowhere
      refine ⟨nowhere.2, fun mem => nowhere.1.2 (List.mem_filterMap.mpr ⟨_, mem, rfl⟩),
        fun mem => out (accepted_of_taken mem),
        fun mem => out (accepted_of_taken (runsOnce.begun_taken mem)), nowhere.1.1⟩
    order := agrees.taken_append
    once := List.nodup_iff_count_le_one.mp runsOnce.nodup
    begun := ⟨runsOnce.ended_begun, runsOnce.begun_taken⟩
    pushes := fun earlier thread task accepted within => answers.answered _ _ within
    closing := answers.closing_eq
    joins := fun earlier thread within => answers.answered _ _ within
    returns := by
      refine ⟨?_, fun earlier thread within => answers.answered _ _ within⟩
      rw [answers.returns]
      split <;> decide
    returned := by
      intro thread mem
      have returned := answers.join_eq mem
      have stopped := agrees.valid.returned returned
      have queue := agrees.queue_eq_nil returned
      refine ⟨queue, stopped, fun task accepted => ?_⟩
      have place := agrees.count_eq_one accepted
      have idle : s.pool.workers.count (.running task) = 0 :=
        List.count_eq_zero.mpr fun mem => nomatch stopped _ mem
      rw [queue, idle, List.count_nil] at place
      have ended : s.ended.count task = 1 := by omega
      have begun := runsOnce.ended_begun (List.count_pos_iff.mp (ended ▸ Nat.one_pos))
      exact ⟨List.count_eq_one_of_mem runsOnce.nodup begun, ended⟩
    steady }

/-- Two threads push while two workers look and a third thread joins: the last push comes too
late, a fourth thread joins in vain, and the first worker goes to sleep on the way. -/
def racingMoves : List PoolMove :=
  [.look 0, .push 1, .push 2, .wake 0, .look 1, .start 1, .push 1, .join 3, .look 0, .push 2,
    .join 4, .start 0, .finish 1, .look 1, .start 1, .finish 0, .look 0, .finish 1, .look 1,
    .joinReturn]

theorem lossless_of_run_racing : ∃ s, (new 2).run? racingMoves = some s ∧
    s.accepted = [0, 1, 2] ∧ s.ended = [0, 1, 2] ∧ .pushed 2 3 false ∈ s.records ∧
    .joined 4 false ∈ s.records ∧ .joined 3 true ∈ s.records ∧ s.Lossless 2 := by
  have ran : ((new 2).run? racingMoves).isSome := by decide
  obtain ⟨s, run⟩ := Option.isSome_iff_exists.mp ran
  have told : ((new 2).run? racingMoves).all fun s => s.accepted = [0, 1, 2] ∧ s.ended = [0, 1, 2] ∧
    .pushed 2 3 false ∈ s.records ∧ .joined 4 false ∈ s.records ∧ .joined 3 true ∈ s.records := by
    decide
  rw [run, Option.all_some, decide_eq_true_eq] at told
  exact ⟨s, run, told.1, told.2.1, told.2.2.1, told.2.2.2.1, told.2.2.2.2, lossless_of_run run⟩

end SharedPool

end ClassAbi
