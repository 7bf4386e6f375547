import ClassAbi.Fatal
import ClassAbi.WorkerPool

/-!
# Pools that threads share

Any number of threads push tasks into a pool and join it, while its workers look for
tasks and run them.  Only one of them has the pool at a time, and a task is run while
others have the pool.  `SharedPool.move?` has one case for each stretch that nothing can
come in between of: what a push or a join does with the pool, one look of a worker at
the pool, and the beginning and the end of a task.

A worker that looks at the pool takes the first task that waits.  If none waits it goes
to sleep while the pool accepts tasks, and stops when the pool is closed.  A worker that
sleeps may wake at any time, for a reason or for none, and looks again.

What happens is recorded, so that it can be said later what a push has answered or which
worker has run a task.
-/

namespace ClassAbi

/-- Something that has happened to a shared pool. -/
inductive PoolRecord where
  /-- A thread has pushed a task, which was accepted or not. -/
  | pushed (thread task : Nat) (accepted : Bool)
  /-- The join of a thread has closed the pool and waits for the workers. -/
  | closed (thread : Nat)
  /-- The join of a thread has returned, and has waited for the workers or not. -/
  | joined (thread : Nat) (waited : Bool)
  /-- A worker has taken a task. -/
  | took (worker task : Nat)
  /-- A worker has begun a task. -/
  | began (worker task : Nat)
  /-- A worker has ended a task. -/
  | ended (worker task : Nat)
deriving DecidableEq, Repr

/-- What a thread or a worker does next. -/
inductive PoolMove where
  /-- A thread pushes a task. -/
  | push (thread : Nat)
  /-- A thread joins the pool. -/
  | join (thread : Nat)
  /-- The join that waits for the workers returns. -/
  | joinReturn
  /-- A worker looks at the pool. -/
  | look (worker : Nat)
  /-- A worker wakes. -/
  | wake (worker : Nat)
  /-- A worker begins the task that it has taken. -/
  | start (worker : Nat)
  /-- A worker ends its task. -/
  | finish (worker : Nat)
deriving DecidableEq, Repr

/-- The end of a program in which a join finds tasks that were left. -/
def WorkerPool.tasksLeft (count : Nat) : Fatal :=
  ⟨Fatal.internalError, .ascii "ThreadPool error: " ++ .ofNat count ++
    .ascii " task(s) remained in queue after Join()"⟩

/-- A pool with the threads that use it. -/
structure SharedPool where
  /-- The pool. -/
  pool : WorkerPool
  /-- The workers that sleep. -/
  asleep : List Nat
  /-- The workers that have begun the tasks that they have taken. -/
  atWork : List Nat
  /-- The thread whose join waits for the workers. -/
  joiner : Option Nat
  /-- What has ended the program. -/
  fatal : Option Fatal
  /-- What has happened, the first thing in front. -/
  records : List PoolRecord
deriving DecidableEq, Repr

namespace SharedPool

/-- A new pool of the given size. -/
def new (size : Nat) : SharedPool := ⟨.new size, [], [], none, none, []⟩

/-- Records what has happened. -/
def note (s : SharedPool) (r : PoolRecord) : SharedPool := { s with records := s.records ++ [r] }

/-! ## Threads

A thread whose join waits does nothing else. -/

/-- A thread pushes a task. -/
def push? (s : SharedPool) (thread : Nat) : Option SharedPool :=
  if s.joiner = some thread then none
  else
    let (accepted, p) := s.pool.push
    some ({ s with pool := p }.note (.pushed thread s.pool.pushes accepted))

/-- A thread joins the pool, and waits for the workers or returns at once. -/
def join? (s : SharedPool) (thread : Nat) : Option SharedPool :=
  if s.joiner = some thread then none
  else
    let (waits, p) := s.pool.beginJoin
    if waits then some ({ s with pool := p, joiner := some thread }.note (.closed thread))
    else some ({ s with pool := p }.note (.joined thread false))

/-- All workers have stopped, and the join that waits for them returns.  If tasks were
left it would end the program instead. -/
def joinReturn? (s : SharedPool) : Option SharedPool :=
  match s.joiner, s.pool.joinReturn? with
  | some thread, some p =>
    if p.queue = [] then some ({ s with pool := p, joiner := none }.note (.joined thread true))
    else some { s with fatal := some (WorkerPool.tasksLeft p.queue.length) }
  | _, _ => none

/-! ## Workers -/

/-- A worker looks at the pool: it takes the first task, goes to sleep or stops. -/
def look? (s : SharedPool) (worker : Nat) : Option SharedPool :=
  if worker ∈ s.asleep ∨ s.pool.workers[worker]? ≠ some .looking then none
  else match s.pool.queue with
    | task :: _ =>
      (s.pool.take? worker).map fun p => { s with pool := p }.note (.took worker task)
    | [] =>
      if s.pool.isAccepting then some { s with asleep := worker :: s.asleep }
      else (s.pool.stop? worker).map fun p => { s with pool := p }

/-- A worker wakes. -/
def wake? (s : SharedPool) (worker : Nat) : Option SharedPool :=
  if worker ∈ s.asleep then some { s with asleep := s.asleep.erase worker } else none

/-- A worker begins the task that it has taken. -/
def start? (s : SharedPool) (worker : Nat) : Option SharedPool :=
  match s.pool.workers[worker]? with
  | some (.running task) =>
    if worker ∈ s.atWork then none
    else some ({ s with atWork := worker :: s.atWork }.note (.began worker task))
  | _ => none

/-- A worker ends the task that it has begun. -/
def finish? (s : SharedPool) (worker : Nat) : Option SharedPool :=
  match s.pool.workers[worker]? with
  | some (.running task) =>
    if worker ∈ s.atWork then
      (s.pool.finish? worker).map fun p =>
        { s with pool := p, atWork := s.atWork.filter (· ≠ worker) }.note (.ended worker task)
    else none
  | _ => none

/-! ## Moves -/

/-- The pool after a move, if the move can be made.  Nothing can be done when the program
has ended. -/
def move? (s : SharedPool) (m : PoolMove) : Option SharedPool :=
  if s.fatal.isSome then none
  else match m with
    | .push thread => s.push? thread
    | .join thread => s.join? thread
    | .joinReturn => s.joinReturn?
    | .look worker => s.look? worker
    | .wake worker => s.wake? worker
    | .start worker => s.start? worker
    | .finish worker => s.finish? worker

/-- The pool after a series of moves. -/
def run? (s : SharedPool) (moves : List PoolMove) : Option SharedPool := moves.foldlM move? s

end SharedPool

end ClassAbi
