import ClassAbi.Archive.Input
import ClassAbi.Host
import ClassAbi.Outline.Class

/-!
# Classes to extract

A `ClassTask` says under which name a class is written and where its class file is: in
an archive that was read before, or in a file of its own.  A file of its own is read
when the task is run, not before.

`ClassTask.outline` reads the class file and reconstructs the outline of the class.
Nothing else is needed to run a task, so tasks can be run in any order.
-/

namespace ClassAbi

/-- Where a class file is. -/
inductive ClassOrigin where
  /-- In the archive at `path` whose file has the given contents. -/
  | archived (path : Text) (contents : ByteArray) (entry : Entry)
  /-- In the file at `path`. -/
  | loose (path : Text)
deriving Inhabited

/-- The path of the file that the class file is in, or that it is. -/
def ClassOrigin.path : ClassOrigin → Text
  | archived path _ _ => path
  | loose path => path

/-- A class to extract. -/
structure ClassTask where
  /-- The name of its entry in the output. -/
  name : Text
  /-- Where its class file is. -/
  origin : ClassOrigin
deriving Inhabited

/-- Why a class cannot be extracted. -/
inductive TaskError where
  /-- The data of an entry cannot be read. -/
  | entry (path name : Text) (cause : EntryError)
  /-- A file cannot be shown. -/
  | file (cause : FileError)
  /-- The class file of the class `name` is malformed. -/
  | malformed (path name : Text) (cause : ReadError)
deriving DecidableEq, Repr

/-- The wording of a failure. -/
def TaskError.message : TaskError → Text
  | entry path name cause => cause.message path name
  | file cause => cause.message
  | malformed path name cause =>
    path ++ Text.ascii ": " ++ name ++ Text.ascii ": " ++ cause.message

namespace ClassTask

/-- The bytes of the class file. -/
def classFile (t : ClassTask) (d : Disk) : Except TaskError ByteArray :=
  match t.origin with
  | .archived path contents e => (e.read contents).mapError (.entry path e.record.name)
  | .loose path => (d.read path).mapError .file

/-- The outline of the class that the bytes of its class file describe. -/
def outlineOf (t : ClassTask) (bytes : ByteArray) :
    Except OutlineFault (Except TaskError Outline) := do
  let (o, ended) ← Outline.ofClassFile t.name bytes
  return match ended with
    | .ok _ => .ok o
    | .error cause => .error (.malformed t.origin.path t.name cause)

/-- The outline of the class. -/
def outline (t : ClassTask) (d : Disk) : Except OutlineFault (Except TaskError Outline) :=
  match t.classFile d with
  | .error e => .ok (.error e)
  | .ok bytes => t.outlineOf bytes

end ClassTask

end ClassAbi
