import ClassAbi.Extraction.Collection
import ClassAbi.WorkerPool

/-!
# Extracting with several workers

The tasks of an extraction are pushed into a pool one after the other, and then the
pool is joined.  While a worker has a task, the task is run once: its outline is
queued or it fails.  Nothing else that happens in the pool touches the archive.  When
the join has returned the archive is written or given up (`OutputArchive.conclude`).

`Extraction.step?` says what an extraction is like after one more thing has happened,
or that the thing cannot happen now.  `Extraction.run?` goes through a whole schedule.
A schedule decides nothing but the order in which the tasks are run, and
`OutputArchive.extract` takes just that order.
-/

namespace ClassAbi

/-- An extraction while its tasks are run. -/
structure Extraction where
  /-- The pool.  A task of the pool is the number of a class. -/
  pool : WorkerPool
  /-- The tasks that were run, in this order. -/
  ran : List Nat
  /-- The archive in which outlines are queued. -/
  archive : OutputArchive
  /-- Whether no task has failed. -/
  allDone : Bool

/-- What can happen to an extraction. -/
inductive ExtractionEvent where
  /-- The next task is pushed. -/
  | push
  /-- A worker takes a task. -/
  | take (worker : Nat)
  /-- The task of a worker is run. -/
  | run (worker : Nat)
  /-- A worker ends its task. -/
  | finish (worker : Nat)
  /-- A worker stops. -/
  | stop (worker : Nat)
  /-- All tasks have been pushed, and the pool is joined. -/
  | join
  /-- The join returns. -/
  | joinReturn
deriving DecidableEq, Repr

namespace OutputArchive

/-- Writes the queued outlines if no task has failed.  Otherwise the archive is given
up. -/
def conclude (a : OutputArchive) (allDone : Bool) : Action (Bool × OutputArchive) := do
  if allDone then a.commit else return (false, ← a.discard)

end OutputArchive

/-- The task that a worker runs. -/
def Worker.task? : Worker → Option Nat
  | running task => some task
  | _ => none

/-- The task that the worker with a number runs. -/
def WorkerPool.taskOf? (p : WorkerPool) (worker : Nat) : Option Nat :=
  p.workers[worker]?.bind Worker.task?

namespace Extraction

/-- An extraction with a new pool, before the first push. -/
def start (jobs : Nat) (a : OutputArchive) : Extraction := ⟨.new jobs, [], a, true⟩

/-- Changes the pool. -/
def setPool (s : Extraction) (p : WorkerPool) : Extraction := { s with pool := p }

/-- The task that a worker has to run, unless it was run. -/
def due? (s : Extraction) (tasks : List ClassTask) (worker : Nat) : Option (Nat × ClassTask) :=
  match s.pool.taskOf? worker with
  | none => none
  | some task => if s.ran.contains task then none else tasks[task]?.map (task, ·)

/-- Whether the task of a worker was run. -/
def hasRun (s : Extraction) (worker : Nat) : Bool := (s.pool.taskOf? worker).any s.ran.contains

/-- The extraction after the task of a worker was run. -/
def runDue? (tasks : List ClassTask) (s : Extraction) (worker : Nat) :
    Action (Option Extraction) :=
  match s.due? tasks worker with
  | none => return none
  | some (task, t) => do
    let (done, archive) ← s.archive.runTask t
    return some { s with ran := s.ran ++ [task], archive, allDone := s.allDone && done }

/-- The extraction after something has happened. -/
def step? (tasks : List ClassTask) (s : Extraction) : ExtractionEvent → Action (Option Extraction)
  | .push => return if s.pool.isAccepting && s.pool.pushes < tasks.length
      then some (s.setPool s.pool.push.2) else none
  | .take worker => return (s.pool.take? worker).map s.setPool
  | .run worker => s.runDue? tasks worker
  | .finish worker => return if s.hasRun worker
      then (s.pool.finish? worker).map s.setPool else none
  | .stop worker => return (s.pool.stop? worker).map s.setPool
  | .join => return if s.pool.isAccepting && s.pool.pushes == tasks.length
      then some (s.setPool s.pool.beginJoin.2) else none
  | .joinReturn => return s.pool.joinReturn?.map s.setPool

/-- The extraction after a series of events. -/
def run? (tasks : List ClassTask) (s : Extraction) :
    List ExtractionEvent → Action (Option Extraction)
  | [] => return some s
  | e :: events => do
    match ← s.step? tasks e with
    | none => return none
    | some s => s.run? tasks events

end Extraction

end ClassAbi
