import ClassAbi.Archive.Output
import ClassAbi.Extraction.EntryName
import ClassAbi.Extraction.Task
import Std.Data.HashMap

/-!
# Collecting and extracting classes

A `Collection` gathers tasks from sources, which are archives and loose class files.
Every class name belongs to the source that brings it first.  Later sources, and
later entries of one archive, are passed over with a warning.

An archive with a fault anywhere in its directory brings nothing, and neither does a
source that cannot be opened.  So a source that fails leaves the collection as it
was.

`Collection.extract` runs all tasks, queues the outlines and writes the archive.  It
takes the order in which the tasks happen to be run.  Outlines are written in the
order of their names, so that order shows in the messages alone.
-/

namespace ClassAbi

/-- Classes gathered from sources. -/
structure Collection where
  /-- The tasks in the order in which they were found. -/
  tasks : Array ClassTask
  /-- For each name that is taken, the path of the source that brought it. -/
  claims : Std.HashMap Text Text
deriving Inhabited

namespace Collection

/-- The collection without classes. -/
def empty : Collection := ⟨#[], ∅⟩

instance : EmptyCollection Collection := ⟨empty⟩

/-- The number of classes. -/
def size (c : Collection) : Nat := c.tasks.size

/-! ## Gathering -/

/-- The collection with a task, unless its name is taken. -/
def insert (c : Collection) (t : ClassTask) : Collection :=
  if c.claims.contains t.name then c
  else ⟨c.tasks.push t, c.claims.insert t.name t.origin.path⟩

/-- Takes a task and says so if its name belongs to an earlier source. -/
def claim (c : Collection) (t : ClassTask) : Action Collection := do
  if let some owner := c.claims[t.name]? then
    Action.log .warning
      (Text.ascii "Ignoring " ++ t.name ++ Text.ascii " from " ++ t.origin.path ++
        Text.ascii ", already provided by " ++ owner)
  return c.insert t

/-- Takes tasks one after the other. -/
def claimAll (c : Collection) : List ClassTask → Action Collection
  | [] => return c
  | t :: rest => do
    let c ← c.claim t
    c.claimAll rest

end Collection

/-! ## Archives as sources -/

/-- The tasks for the entries of one archive. -/
structure ArchiveTasks where
  /-- The names met so far. -/
  names : Std.HashSet Text
  /-- The task of each name, in the order of the entries. -/
  tasks : Array ClassTask
  /-- The names of the entries that repeat an earlier one. -/
  repeats : Array Text
deriving Inhabited

namespace ArchiveTasks

/-- Takes the task of the next entry. -/
def insert (a : ArchiveTasks) (t : ClassTask) : ArchiveTasks :=
  if a.names.contains t.name then { a with repeats := a.repeats.push t.name }
  else { a with names := a.names.insert t.name, tasks := a.tasks.push t }

/-- The tasks for the classes among the entries of the archive at `path`. -/
def ofEntries (path : Text) (contents : ByteArray) (entries : List Entry) : ArchiveTasks :=
  let classes := entries.filter fun e => isClassEntry e.record.name
  (classes.map fun e => ⟨e.record.name, .archived path contents e⟩).foldl insert ⟨∅, #[], #[]⟩

end ArchiveTasks

/-- Warns of entries that repeat earlier ones. -/
def warnOfRepeats (path : Text) : List Text → Action Unit
  | [] => return
  | name :: rest => do
    Action.log .warning
      (Text.ascii "Ignoring duplicate entry " ++ name ++ Text.ascii " in " ++ path)
    warnOfRepeats path rest

namespace Collection

/-- Takes the classes of the archive at a path. -/
def addArchive (c : Collection) (path : Text) : Action (Bool × Collection) := do
  let (opened, a) ← Action.ofExcept (InputArchive.closed.openFile (← Action.disk) path)
  match opened with
  | .error e =>
    Action.log .error e.message
    return (false, c)
  | .ok _ =>
    let (entries, a) ← Action.ofExcept a.entries
    let found := ArchiveTasks.ofEntries path a.view.data entries.toList
    warnOfRepeats path found.repeats.toList
    match a.fault with
    | some f =>
      Action.log .error f.message
      return (false, c)
    | none =>
      let c' ← c.claimAll found.tasks.toList
      Action.log .info
        (path ++ Text.ascii ": " ++ Text.ofNat (c'.size - c.size) ++ Text.ascii " classes")
      return (true, c')

/-- Takes the loose class file at a path below a class root. -/
def addClassFile (c : Collection) (path root : Text) : Action (Bool × Collection) :=
  match entryNameFor path root with
  | .error e => do
    Action.log .error e.message
    return (false, c)
  | .ok name => do return (true, ← c.claim ⟨name, .loose path⟩)

/-- Takes the source at a path, which is a loose class file if it is named like
one. -/
def addSource (c : Collection) (path root : Text) : Action (Bool × Collection) :=
  if path.endsWith classSuffix then c.addClassFile path root else c.addArchive path

/-- Takes sources up to the first that fails. -/
def addSources (c : Collection) (root : Text) : List Text → Action (Bool × Collection)
  | [] => return (true, c)
  | path :: rest => do
    let (added, c) ← c.addSource path root
    if added then c.addSources root rest else return (false, c)

end Collection

/-! ## Extracting -/

namespace OutputArchive

/-- Runs a task and queues its outline. -/
def runTask (a : OutputArchive) (t : ClassTask) : Action (Bool × OutputArchive) := do
  match t.outline (← Action.disk) with
  | .error f => a.die f.fatal
  | .ok (.error e) =>
    Action.log .error e.message
    return (false, a)
  | .ok (.ok o) => return (true, a.add o)

/-- Runs every task, also behind one that fails. -/
def runTasks (a : OutputArchive) : List ClassTask → Action (Bool × OutputArchive)
  | [] => return (true, a)
  | t :: rest => do
    let (done, a) ← a.runTask t
    let (restDone, a) ← a.runTasks rest
    return (done && restDone, a)

/-- Runs the tasks in the given order.  If all succeed the queued outlines are
written, and if any fails the archive is given up. -/
def extract (a : OutputArchive) (order : List ClassTask) : Action (Bool × OutputArchive) := do
  let (done, a) ← a.runTasks order
  if done then a.commit else return (false, ← a.discard)

end OutputArchive

/-- Writes the outlines of the classes, running the tasks in the order in which they
were found. -/
def Collection.extract (c : Collection) (a : OutputArchive) : Action (Bool × OutputArchive) :=
  a.extract c.tasks.toList

end ClassAbi
