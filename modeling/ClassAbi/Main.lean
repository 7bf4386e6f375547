import ClassAbi.Program

/-!
# Command line

`main` brings the files that the arguments name onto a `Disk`, runs the program on it,
shows its messages, and brings the output back.
-/

namespace ClassAbi.CommandLine

/-- The bytes of a text. -/
def toText (s : String) : Text := s.toUTF8.data.toList

/-- The text of bytes, if they are valid. -/
def ofText? (t : Text) : Option String := String.fromUTF8? t.toByteArray

/-- What an open file holds.  A directory can be opened but not read. -/
def readOpened (handle : IO.FS.Handle) : IO DiskNode := do
  try
    return .file (← handle.readBinToEnd)
  catch _ =>
    return .directory

/-- What the file system has at a path. -/
def readNode (path : Text) : IO (Option DiskNode) := do
  match ofText? path with
  | none => return none
  | some name =>
    try
      return some (← readOpened (← IO.FS.Handle.mk name .read))
    catch _ =>
      return none

/-- Brings what is at a path, and at each part of it, onto the disk. -/
def loadPath (d : Disk) (path : Text) : IO Disk :=
  (Disk.pathHeads path).foldlM (fun d head => do
    match ← readNode head with
    | none => return d
    | some node => return d.putAt head node) d

/-- The paths of the command files that arguments name. -/
def commandFilePaths (arguments : List Text) : List Text :=
  arguments.filterMap fun argument =>
    match argument with
    | 64 :: path => some path
    | _ => none

/-- The working directory with the files that arguments name. -/
def loadDisk (arguments : List Text) : IO Disk := do
  let directory := toText ((← IO.getEnv "PWD").getD "")
  let start := Disk.new (Disk.namedParts directory).reverse
  let d ← (commandFilePaths arguments).foldlM loadPath start
  match Options.ofArguments d arguments with
  | .error _ => return d
  | .ok o => (o.output :: o.sources).foldlM loadPath d

/-- The path of the output, if the arguments make sense. -/
def outputPath? (d : Disk) (arguments : List Text) : Option Text :=
  match Options.ofArguments d arguments with
  | .error _ => none
  | .ok o => some o.output

/-- Whether something is a file with the given contents. -/
def isFileOf (contents : ByteArray) : Except SystemError DiskNode → Bool
  | .ok (.file found) => found.data == contents.data
  | _ => false

/-- Brings a file that a run has changed back to the file system. -/
def storePath (before after : Disk) (path : Text) : IO Unit := do
  match ofText? path, before.lookup path, after.lookup path with
  | some name, old, .ok (.file contents) =>
    if !isFileOf contents old then IO.FS.writeBinFile name contents
  | some name, .ok (.file _), .error _ => IO.FS.removeFile name
  | _, _, _ => return

end ClassAbi.CommandLine

/-- Writes an archive with the outlines of the classes that the arguments name. -/
def main (arguments : List String) : IO UInt32 := do
  let arguments := arguments.map ClassAbi.CommandLine.toText
  let disk ← ClassAbi.CommandLine.loadDisk arguments
  let result := ClassAbi.runProgram disk arguments
  match ClassAbi.CommandLine.outputPath? disk arguments with
  | none => pure ()
  | some path => ClassAbi.CommandLine.storePath disk result.disk path
  let stderr ← IO.getStderr
  stderr.write result.output.toByteArray
  return result.exit.toUInt32
