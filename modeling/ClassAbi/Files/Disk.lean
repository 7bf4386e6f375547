import ClassAbi.Files.SystemError
import Std.Data.HashMap

/-!
# Files by path

A `Disk` holds files and directories, and knows the working directory that paths
begin in unless they begin with a slash.  Paths are followed part by part, as Linux
follows them: `.` stays, `..` goes up, a part that is gone through must be a
directory, and a path stops at its first zero byte.

`Disk.lookup` follows a path to what is there, `Disk.create` makes or empties a
file, and `Disk.remove` deletes one.  Each fails with the error that the operating
system has for it.
-/

namespace ClassAbi

/-- What can be at a path. -/
inductive DiskNode where
  /-- A directory. -/
  | directory
  /-- A file with its contents. -/
  | file (contents : ByteArray)
deriving Inhabited

/-- A place is given by the names that lead to it from the root, the last name
first.  There need not be anything. -/
abbrev DiskPlace := List Text

/-- Files and directories, and the directory that paths begin in. -/
structure Disk where
  /-- What is at each place but the root. -/
  nodes : Std.HashMap DiskPlace DiskNode
  /-- The working directory. -/
  workingDirectory : DiskPlace
deriving Inhabited

namespace Disk

/-! ## Places -/

/-- What is at a place.  The root is a directory. -/
def nodeAt (d : Disk) : DiskPlace → Option DiskNode
  | [] => some .directory
  | names => d.nodes[names]?

/-- Puts something at a place. -/
def put (d : Disk) (place : DiskPlace) (node : DiskNode) : Disk :=
  { d with nodes := d.nodes.insert place node }

/-- Makes the directories on the way to a place where there is nothing. -/
def makeParents (d : Disk) : DiskPlace → Disk
  | [] => d
  | _ :: place =>
    let d := d.makeParents place
    { d with nodes := d.nodes.insertIfNew place .directory }

/-- The disk with nothing on it but a working directory. -/
def new (workingDirectory : DiskPlace) : Disk :=
  (⟨∅, workingDirectory⟩ : Disk).makeParents ([] :: workingDirectory)

/-! ## Paths -/

/-- The slash. -/
def slash : UInt8 := 47

/-- The parts between slashes, empty ones included. -/
def splitParts : Text → List Text
  | [] => [[]]
  | c :: rest =>
    match splitParts rest with
    | [] => [[c]]
    | part :: parts => if c == slash then [] :: part :: parts else (c :: part) :: parts

/-- The parts of a path that name something. -/
def namedParts (path : Text) : List Text := (splitParts path).filter (!·.isEmpty)

/-- Whether a path ends with a slash. -/
def endsWithSlash (path : Text) : Bool := path.getLast? == some slash

/-- The part that stays where it is. -/
def here : Text := Text.ascii "."

/-- The part that goes up. -/
def up : Text := Text.ascii ".."

/-- The parts of a path.  A path that ends with a slash means what is inside the
directory there, so it ends with a dot. -/
def pathParts (path : Text) : List Text :=
  if endsWithSlash path then namedParts path ++ [here] else namedParts path

/-- The paths to each part of a path, from the first part to the whole. -/
def pathHeads (path : Text) : List Text :=
  ((List.range path.length).filter fun i => 0 < i && path[i]? == some slash).map path.take ++ [path]

/-- Where a path begins. -/
def pathStart (d : Disk) (path : Text) : DiskPlace :=
  if path.head? == some slash then [] else d.workingDirectory

/-- The longest part that a path can have. -/
def longestPart : Nat := 255

/-- The longest path, with the zero byte behind it. -/
def longestPath : Nat := 4096

/-- Where a part leads from a place.  There need not be anything. -/
def follow (d : Disk) (place : DiskPlace) (part : Text) : Except SystemError DiskPlace :=
  match d.nodeAt place with
  | none => .error .noEntry
  | some (.file _) => .error .notADirectory
  | some .directory =>
    if part == here then .ok place
    else if part == up then .ok place.tail
    else if longestPart < part.length then .error .nameTooLong
    else .ok (part :: place)

/-- Where parts lead from a place, one after the other. -/
def followAll (d : Disk) (place : DiskPlace) (parts : List Text) : Except SystemError DiskPlace :=
  parts.foldlM d.follow place

/-- The path that the operating system sees. -/
def checkedPath (path : Text) : Except SystemError Text :=
  let path := path.beforeNul
  if path.isEmpty then .error .noEntry
  else if longestPath ≤ path.length then .error .nameTooLong
  else .ok path

/-- Where a path leads.  There need not be anything. -/
def resolve (d : Disk) (path : Text) : Except SystemError DiskPlace := do
  let path ← checkedPath path
  d.followAll (d.pathStart path) (pathParts path)

/-! ## Files -/

/-- What is at a path. -/
def lookup (d : Disk) (path : Text) : Except SystemError DiskNode := do
  match d.nodeAt (← d.resolve path) with
  | some node => .ok node
  | none => .error .noEntry

/-- Makes a file at a path or empties the one that is there.  The answer has the place
of the file.  A path that ends with a slash cannot be a file's, whatever is there. -/
def create (d : Disk) (path : Text) : Except SystemError (DiskPlace × Disk) := do
  let path ← checkedPath path
  let parts := namedParts path
  let directory ← d.followAll (d.pathStart path) parts.dropLast
  let last := if endsWithSlash path then here else parts.getLast?.getD here
  let place ← d.follow directory last
  match d.nodeAt place with
  | some .directory => .error .isADirectory
  | _ => .ok (place, d.put place (.file .empty))

/-- Deletes the file at a path. -/
def remove (d : Disk) (path : Text) : Except SystemError Disk := do
  let place ← d.resolve path
  match d.nodeAt place with
  | none => .error .noEntry
  | some .directory => .error .isADirectory
  | some (.file _) => .ok { d with nodes := d.nodes.erase place }

/-- Replaces the contents of the file at a place, if it is still there. -/
def update (d : Disk) (place : DiskPlace) (contents : ByteArray) : Disk :=
  match d.nodes[place]? with
  | some (.file _) => d.put place (.file contents)
  | _ => d

/-! ## Setting up -/

/-- Makes the directories that parts lead to from a place, one after the other, where
there is nothing.  A part that cannot be followed is the end of it. -/
def makeDirectories (d : Disk) (place : DiskPlace) : (parts : List Text) → Disk
  | [] => d
  | part :: parts =>
    match d.follow place part with
    | .error _ => d
    | .ok next =>
      if (d.nodeAt next).isSome then d.makeDirectories next parts
      else (d.put next .directory).makeDirectories next parts

/-- The parts of a path up to its last slash, which lead to the directory that the rest
is in. -/
def directoryParts (path : Text) : List Text :=
  if endsWithSlash path then namedParts path else (namedParts path).dropLast

/-- Makes a directory or a file at a path, with the directories that lead there.  The
path is followed while they are made, so a part that `..` leaves again is made too.
What cannot be made is left out. -/
def place (d : Disk) (path : Text) (node : DiskNode) : Disk :=
  let path := path.beforeNul
  let start := d.pathStart path
  match node with
  | .directory => d.makeDirectories start (namedParts path)
  | .file contents =>
    let d := d.makeDirectories start (directoryParts path)
    match d.create path with
    | .error _ => d
    | .ok (place, d) => d.put place (.file contents)

/-- Puts something where a path leads, unless the path cannot be followed. -/
def putAt (d : Disk) (path : Text) (node : DiskNode) : Disk :=
  match d.resolve path with
  | .ok place => d.put place node
  | .error _ => d

end Disk

end ClassAbi
