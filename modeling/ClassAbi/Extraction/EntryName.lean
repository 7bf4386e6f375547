import ClassAbi.Text

/-!
# Names of class entries

In an archive a class has an entry named for the path of its class file, ending
with `.class`.  A module declaration is compiled to a class file too, which other
classes cannot use.  `isClassEntry` tells the entries of classes from all others.

A class file outside an archive has a path of its own.  Its entry is named for the
part of the path below the directory that all loose class files are found in, the
*class root*.  Without a class root the last part of the path is the name.
-/

namespace ClassAbi

/-- What the name of a class file ends with. -/
def classSuffix : Text := Text.ascii ".class"

/-- The last part of the name of a compiled module declaration. -/
def moduleDeclaration : Text := Text.ascii "module-info.class"

/-- Whether the name of an entry is that of a class. -/
def isClassEntry (name : Text) : Bool :=
  name.endsWith classSuffix && name.baseName != moduleDeclaration

/-- A class file that is not below the class root. -/
structure EntryNameError where
  /-- The path of the class file. -/
  path : Text
  /-- The class root as it was given. -/
  root : Text
deriving DecidableEq, Repr

/-- The wording of a failure. -/
def EntryNameError.message (e : EntryNameError) : Text :=
  e.path ++ Text.ascii " is not under --class_root " ++ e.root

/-- A text without the slashes at its end, given with its last byte first.  The
first byte stays. -/
def dropSlashes : Text → Text
  | 47 :: c :: rest => dropSlashes (c :: rest)
  | reversed => reversed

/-- A class root without the slashes at its end.  The first byte stays. -/
def trimmedRoot (root : Text) : Text := (dropSlashes root.reverse).reverse

/-- What the path of a class file below a class root begins with. -/
def rootHead (root : Text) : Text := trimmedRoot root ++ [47]

/-- The name of the entry for a loose class file. -/
def entryNameFor (path root : Text) : Except EntryNameError Text :=
  if root.isEmpty then .ok path.baseName
  else if path.startsWith (rootHead root) && (rootHead root).length < path.length then
    .ok (path.drop (rootHead root).length)
  else .error ⟨path, root⟩

end ClassAbi
