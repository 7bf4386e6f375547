import ClassAbi.ClassFile.Constant
import ClassAbi.ClassFile.EncodeFault
import ClassAbi.ClassFile.PoolEntry
import Std.Data.HashMap

/-!
# Constant pools under construction

A class file refers to its texts and numbers by index into its constant pool.
`Pool.add` stores each distinct entry once and hands out indexes in the order of
first use, so the same entries in the same order always make the same pool.

A class or string entry refers to a text entry.  `addClass` and `addString` add
the text first, so the reference always points back.
-/

namespace ClassAbi

/-- A constant pool under construction. -/
structure Pool where
  /-- The entries in the order of first use. -/
  entries : Array PoolEntry
  /-- The index of every entry. -/
  indexes : Std.HashMap PoolEntry UInt16
  /-- The next index to hand out, which is also the count a class file states. -/
  next : UInt16
deriving Inhabited

namespace Pool

/-- The pool without entries.  Index 0 is never handed out. -/
def empty : Pool := ⟨#[], ∅, 1⟩

instance : EmptyCollection Pool := ⟨empty⟩

/-- The index of an entry, new if the pool does not have it yet. -/
def add (p : Pool) (e : PoolEntry) : Except EncodeFault (UInt16 × Pool) :=
  match p.indexes[e]? with
  | some index => .ok (index, p)
  | none =>
    if p.next.toNat + e.slots ≤ 0xFFFF then
      .ok (p.next, ⟨p.entries.push e, p.indexes.insert e p.next, p.next + e.slots.toUInt16⟩)
    else .error .poolOverflow

/-- The index of a text. -/
def addUtf8 (p : Pool) (t : Text) : Except EncodeFault (UInt16 × Pool) :=
  if t.length ≤ 0xFFFF then p.add (.utf8 t) else .error .textTooLong

/-- The index of a class, by its internal name. -/
def addClass (p : Pool) (name : Text) : Except EncodeFault (UInt16 × Pool) := do
  let (index, p) ← p.addUtf8 name
  p.add (.classRef index)

/-- The index of a string. -/
def addString (p : Pool) (t : Text) : Except EncodeFault (UInt16 × Pool) := do
  let (index, p) ← p.addUtf8 t
  p.add (.string index)

/-- The index of the entry that a field's initial value refers to. -/
def addConstant (p : Pool) : Constant → Except EncodeFault (UInt16 × Pool)
  | .long v => p.add (.long v)
  | .float b => p.add (.float b)
  | .double b => p.add (.double b)
  | .string t => p.addString t
  | .classLiteral t => p.addClass t
  | c => p.add (.integer c.intValue)

/-- The index of the entry that an annotation value refers to.  Unlike a field,
an annotation refers to the text of a string or class literal itself. -/
def addElement (p : Pool) : Constant → Except EncodeFault (UInt16 × Pool)
  | .string t => p.addUtf8 t
  | .classLiteral t => p.addUtf8 t
  | c => p.addConstant c

/-- Appends the count and the entries. -/
def put (p : Pool) (b : Buffer) : Buffer :=
  p.entries.foldl (fun b e => b.pushText e.encode) (b.pushU2 p.next)

end Pool

end ClassAbi
