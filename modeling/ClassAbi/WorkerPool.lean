/-!
# Worker pools

A pool of workers runs tasks that are pushed into it.  Tasks wait in a queue.  A
worker that has nothing to do takes the first one, runs it and comes back.  Joining
the pool closes it: no more tasks are accepted, and each worker stops once the queue
is empty.  The first join waits until all workers have stopped, later ones do not
wait.

Workers, pushes and joins interleave freely.  `WorkerPool.step?` has one case for
each thing that happens without anything else in between.  It says what the pool is
like afterwards, or that the thing cannot happen now.  A task is known by the number
of the push that brought it.

`WorkerPool.joinEvents` is one of the ways in which a join can go: the first worker
runs all waiting tasks.
-/

namespace ClassAbi

/-- What a worker does. -/
inductive Worker where
  /-- It looks for a task. -/
  | looking
  /-- It runs a task. -/
  | running (task : Nat)
  /-- It has stopped for good. -/
  | stopped
deriving DecidableEq, Repr, Inhabited

/-- How far the join that closed the pool is. -/
inductive JoinState where
  /-- No join has closed the pool. -/
  | none
  /-- A join waits for the workers. -/
  | waiting
  /-- The join has returned. -/
  | returned
deriving DecidableEq, Repr, Inhabited

/-- A pool of workers with its tasks. -/
structure WorkerPool where
  /-- The number of pushes so far. -/
  pushes : Nat
  /-- The accepted tasks, in the order of their pushes. -/
  accepted : Array Nat
  /-- The number of tasks that were taken.  The others wait. -/
  taken : Nat
  /-- What each worker does. -/
  workers : List Worker
  /-- The tasks that were run, in the order in which they ended. -/
  finished : Array Nat
  /-- How far the join that closed the pool is. -/
  join : JoinState
deriving DecidableEq, Repr

/-- What can happen to a pool. -/
inductive PoolEvent where
  /-- A push brings a task. -/
  | push
  /-- A worker takes the first task. -/
  | take (worker : Nat)
  /-- A worker ends its task. -/
  | finish (worker : Nat)
  /-- A worker stops. -/
  | stop (worker : Nat)
  /-- A join closes the pool, or finds it closed and returns at once. -/
  | join
  /-- The join that closed the pool returns. -/
  | joinReturn
deriving DecidableEq, Repr

namespace WorkerPool

/-- A new pool of the given size.  It has one worker at least. -/
def new (size : Nat) : WorkerPool :=
  ⟨0, #[], 0, List.replicate (max size 1) .looking, #[], .none⟩

/-- Whether tasks are accepted. -/
def isAccepting (p : WorkerPool) : Bool := p.join == .none

/-- The number of workers. -/
def size (p : WorkerPool) : Nat := p.workers.length

/-- The tasks that wait, the first one to be taken in front. -/
def queue (p : WorkerPool) : List Nat := p.accepted.toList.drop p.taken

/-- Whether no task waits. -/
def isDrained (p : WorkerPool) : Bool := p.accepted.size ≤ p.taken

/-- Changes what a worker does. -/
def setWorker (p : WorkerPool) (worker : Nat) (w : Worker) : WorkerPool :=
  { p with workers := p.workers.set worker w }

/-! ## What can happen -/

/-- The pool after a push, and whether the push is accepted. -/
def push (p : WorkerPool) : Bool × WorkerPool :=
  if p.isAccepting then
    (true, { p with pushes := p.pushes + 1, accepted := p.accepted.push p.pushes })
  else (false, { p with pushes := p.pushes + 1 })

/-- The pool after a join has begun, and whether that join is the one that waits for
the workers. -/
def beginJoin (p : WorkerPool) : Bool × WorkerPool :=
  if p.isAccepting then (true, { p with join := .waiting }) else (false, p)

/-- The pool after a worker has taken the first task that waits. -/
def take? (p : WorkerPool) (worker : Nat) : Option WorkerPool :=
  match p.workers[worker]?, p.accepted[p.taken]? with
  | some .looking, some task =>
    some ({ p with taken := p.taken + 1 }.setWorker worker (.running task))
  | _, _ => none

/-- The pool after a worker has ended its task. -/
def finish? (p : WorkerPool) (worker : Nat) : Option WorkerPool :=
  match p.workers[worker]? with
  | some (.running task) =>
    some ({ p with finished := p.finished.push task }.setWorker worker .looking)
  | _ => none

/-- The pool after a worker has stopped.  That takes a closed pool in which no task
waits. -/
def stop? (p : WorkerPool) (worker : Nat) : Option WorkerPool :=
  if p.isAccepting || !p.isDrained then none
  else match p.workers[worker]? with
    | some .looking => some (p.setWorker worker .stopped)
    | _ => none

/-- The pool after the join that closed it has returned.  That takes all workers to
have stopped. -/
def joinReturn? (p : WorkerPool) : Option WorkerPool :=
  if p.join == .waiting && p.workers.all (· == .stopped) then some { p with join := .returned }
  else none

/-- The pool after something has happened. -/
def step? (p : WorkerPool) : PoolEvent → Option WorkerPool
  | .push => some p.push.2
  | .take worker => p.take? worker
  | .finish worker => p.finish? worker
  | .stop worker => p.stop? worker
  | .join => some p.beginJoin.2
  | .joinReturn => p.joinReturn?

/-- The pool after a series of events. -/
def run? (p : WorkerPool) (events : List PoolEvent) : Option WorkerPool := events.foldlM step? p

/-! ## One way to run the tasks -/

/-- The pool after a number of pushes, and how many of them are accepted. -/
def pushMany (p : WorkerPool) : (count : Nat) → Nat × WorkerPool
  | 0 => (0, p)
  | count + 1 =>
    let (accepted, p) := p.pushMany count
    let (isAccepted, p) := p.push
    (accepted + isAccepted.toNat, p)

/-- A join, the waiting tasks run by the first worker, the end of all workers, and the
return of the join. -/
def joinEvents (p : WorkerPool) : List PoolEvent :=
  .join :: p.queue.flatMap (fun _ => [.take 0, .finish 0]) ++
    (List.range p.size).map .stop ++ [.joinReturn]

/-- The pool after a join has returned, and whether that join waited for the
workers. -/
def joinAll (p : WorkerPool) : Bool × WorkerPool :=
  if p.isAccepting then (true, (p.run? p.joinEvents).getD p) else (false, p)

end WorkerPool

end ClassAbi
