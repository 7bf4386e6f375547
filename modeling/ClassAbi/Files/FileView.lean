import ClassAbi.Files.Disk

/-!
# Views of files

A `FileView` shows the contents of one file for reading.  It is closed at first,
and one file has to be closed before another can be opened.
-/

namespace ClassAbi

/-- Why a file cannot be shown. -/
inductive FileError where
  /-- The view shows a file already. -/
  | alreadyOpen (path : Text)
  /-- The operating system does not open the file. -/
  | cannotOpen (path : Text) (cause : SystemError)
  /-- There is something else than a file. -/
  | notAFile (path : Text)
deriving DecidableEq, Repr

/-- The wording of a failure. -/
def FileError.message : FileError → Text
  | alreadyOpen path => Text.ascii "cannot open " ++ path ++ Text.ascii ": already open"
  | cannotOpen path cause => Text.ascii "cannot open " ++ path ++ Text.ascii ": " ++ cause.text
  | notAFile path => path ++ Text.ascii " is not a regular file"

/-- The contents of a file. -/
def Disk.read (d : Disk) (path : Text) : Except FileError ByteArray :=
  match d.lookup path with
  | .ok (.file contents) => .ok contents
  | .ok .directory => .error (.notAFile path)
  | .error cause => .error (.cannotOpen path cause)

/-- A view of at most one file. -/
structure FileView where
  /-- The contents of the file that is open. -/
  contents : Option ByteArray
deriving Inhabited

namespace FileView

/-- The view that shows nothing. -/
def closed : FileView := ⟨none⟩

/-- Whether the view shows a file. -/
def isOpen (v : FileView) : Bool := v.contents.isSome

/-- The bytes shown, none if no file is open. -/
def data (v : FileView) : ByteArray := v.contents.getD .empty

/-- The number of bytes shown. -/
def size (v : FileView) : Nat := v.data.size

/-- Whether an offset is one of a byte shown. -/
def contains (v : FileView) (offset : Int) : Bool := 0 ≤ offset && offset < v.size

/-- Shows the file at a path. -/
def openFile (v : FileView) (d : Disk) (path : Text) : Except FileError FileView :=
  if v.isOpen then .error (.alreadyOpen path)
  else do
    let contents ← d.read path
    return ⟨some contents⟩

end FileView

end ClassAbi
