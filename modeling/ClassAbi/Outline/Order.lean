import ClassAbi.Text

/-!
# Canonical order

A compiler may emit members and annotations in any order.  An outline lists them
in an order of its own, so that order leaves no trace: annotations by type, with
a visible one before an invisible one of the same type, and members by name and
then descriptor.  Of several items with one key only the first to arrive stays.

`canonicalOrder` sorts stably, so the first of equal items comes first among
them, and then leaves out all but the first of each run.
-/

namespace ClassAbi

/-! ## Keys -/

/-- What tells the annotations of one owner apart. -/
structure AnnotationKey where
  /-- The type of the annotation. -/
  descriptor : Text
  /-- Whether the annotation is visible at run time. -/
  visible : Bool
deriving DecidableEq, Repr, Inhabited

/-- By type, and the visible one first. -/
def AnnotationKey.before (a b : AnnotationKey) : Bool :=
  if a.descriptor != b.descriptor then a.descriptor < b.descriptor else a.visible && !b.visible

/-- What tells the fields or the methods of one class apart. -/
structure MemberKey where
  /-- The name. -/
  name : Text
  /-- The descriptor, which tells overloads apart. -/
  descriptor : Text
deriving DecidableEq, Repr, Inhabited

/-- By name, then by descriptor. -/
def MemberKey.before (a b : MemberKey) : Bool :=
  if a.name != b.name then a.name < b.name else a.descriptor < b.descriptor

/-- What tells the annotations of the parameters of one method apart. -/
structure ParameterKey where
  /-- The number of the parameter. -/
  parameter : Nat
  /-- The annotation. -/
  key : AnnotationKey
deriving DecidableEq, Repr, Inhabited

/-- By parameter, then as annotations. -/
def ParameterKey.before (a b : ParameterKey) : Bool :=
  if a.parameter != b.parameter then a.parameter < b.parameter
  else a.key.before b.key

/-- By the name of the entry that a class will have. -/
def fileNameBefore (a b : Text) : Bool := a < b

/-! ## Sorting by key -/

/-- The items in the order of their keys, of each key the first item only. -/
def canonicalOrder (before : α → α → Bool) (items : List α) : List α :=
  (items.mergeSort fun a b => !before b a).eraseRepsBy fun a b => !before a b && !before b a

end ClassAbi
