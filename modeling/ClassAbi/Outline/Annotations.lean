import ClassAbi.ClassFile.Event
import ClassAbi.Outline.Order

/-!
# Recorded annotations

The values of an annotation are recorded as the events that told them.  A list
that was never closed counts as closed at its end, so replaying the values
always closes whatever they open.
-/

namespace ClassAbi

/-- The values of an annotation or a default, as told. -/
structure RecordedValues where
  /-- The events so far. -/
  events : Array ValueEvent
  /-- The number of nested lists that are open. -/
  depth : Nat
  /-- The number of values outside nested lists. -/
  size : Nat
deriving DecidableEq, Repr, Inhabited

namespace RecordedValues

/-- No values. -/
def empty : RecordedValues := ⟨#[], 0, 0⟩

instance : EmptyCollection RecordedValues := ⟨empty⟩

/-- Takes one event.  The event that closes the values themselves is not
recorded, since replaying adds it. -/
def record (r : RecordedValues) (e : ValueEvent) : RecordedValues :=
  let size := if r.depth == 0 then r.size + 1 else r.size
  match e with
  | .constant .. | .enum .. => ⟨r.events.push e, r.depth, size⟩
  | .nested .. | .array .. => ⟨r.events.push e, r.depth + 1, size⟩
  | .close => if r.depth == 0 then r else ⟨r.events.push e, r.depth - 1, r.size⟩

/-- The events of the values and of their end. -/
def replay (r : RecordedValues) : List ValueEvent :=
  r.events.toList ++ List.replicate r.depth .close ++ [.close]

end RecordedValues

/-- An annotation of a class, a member or a parameter. -/
structure AnnotationOutline where
  /-- The type of the annotation and whether it is visible at run time. -/
  key : AnnotationKey
  /-- Its values. -/
  values : RecordedValues
deriving DecidableEq, Repr, Inhabited

namespace AnnotationOutline

/-- Changes the values. -/
def modifyValues (a : AnnotationOutline) (f : RecordedValues → RecordedValues) :
    AnnotationOutline :=
  { a with values := f a.values }

/-- By type, and the visible one first. -/
def before (a b : AnnotationOutline) : Bool := a.key.before b.key

/-- The events of an annotation that `opening` opens. -/
def replay (a : AnnotationOutline) (opening : Text → Bool → Event) : List Event :=
  opening a.key.descriptor a.key.visible :: a.values.replay.map .value

/-- The events of annotations in canonical order. -/
def replayAll (annotations : Array AnnotationOutline) (opening : Text → Bool → Event) :
    List Event :=
  (canonicalOrder before annotations.toList).flatMap (·.replay opening)

end AnnotationOutline

end ClassAbi
