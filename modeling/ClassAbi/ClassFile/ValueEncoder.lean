import ClassAbi.ClassFile.Event
import ClassAbi.ClassFile.Pool

/-!
# Encoding annotation values

The values of an annotation, with everything nested in them, go into one buffer
(JVMS 4.7.16.1).  A list of values has its count in front, and the count is
known only when the list closes.  So opening a list writes a count of 0 and
remembers where it stands, and closing the list patches it.

`OpenList` is a list that has not closed yet.  `OpenList.write` takes one event
of the innermost open list and says which lists are open in its place
afterwards: itself, itself and a new one inside it, or none.
-/

namespace ClassAbi

/-- A list of values that has not closed yet. -/
structure OpenList where
  /-- Whether the values are written with their names. -/
  named : Bool
  /-- Where the count of the list stands, if it has one.  A default has none. -/
  countAt : Option Nat
  /-- The number of values so far. -/
  count : UInt16
deriving DecidableEq, Repr, Inhabited

namespace OpenList

/-- The values of an annotation whose count stands at `offset`. -/
def ofNamed (offset : Nat) : OpenList := ⟨true, some offset, 0⟩

/-- The elements of an array whose count stands at `offset`. -/
def ofArray (offset : Nat) : OpenList := ⟨false, some offset, 0⟩

/-- The one value of a default. -/
def ofDefault : OpenList := ⟨false, none, 0⟩

/-- Counts one more value and writes its name where the list has names. -/
def beginValue (l : OpenList) (p : Pool) (b : Buffer) (name : Text) :
    Except EncodeFault (OpenList × Pool × Buffer) :=
  if l.count < 0xFFFF then
    let l := { l with count := l.count + 1 }
    if l.named then do
      let (index, p) ← p.addUtf8 name
      return (l, p, b.pushU2 index)
    else .ok (l, p, b)
  else .error .tooManyValues

/-- Writes an event of the list `l` behind the buffer `b`.  The first component
of the answer is the open lists that take the place of `l`, innermost first. -/
def write (l : OpenList) (p : Pool) (b : Buffer) :
    ValueEvent → Except EncodeFault (List OpenList × Pool × Buffer)
  | .constant name value => do
    let (l, p, b) ← l.beginValue p b name
    let b := b.pushU1 value.tag
    let (index, p) ← p.addElement value
    return ([l], p, b.pushU2 index)
  | .enum name descriptor value => do
    let (l, p, b) ← l.beginValue p b name
    let b := b.pushU1 101  -- e
    let (type, p) ← p.addUtf8 descriptor
    let (constant, p) ← p.addUtf8 value
    return ([l], p, (b.pushU2 type).pushU2 constant)
  | .nested name descriptor => do
    let (l, p, b) ← l.beginValue p b name
    let b := b.pushU1 64  -- @
    let (type, p) ← p.addUtf8 descriptor
    let b := b.pushU2 type
    return ([ofNamed b.size, l], p, b.pushU2 0)
  | .array name => do
    let (l, p, b) ← l.beginValue p b name
    let b := b.pushU1 91  -- [
    return ([ofArray b.size, l], p, b.pushU2 0)
  | .close => .ok ([], p, match l.countAt with
    | some offset => b.patchU2 offset l.count
    | none => b)

end OpenList

end ClassAbi
