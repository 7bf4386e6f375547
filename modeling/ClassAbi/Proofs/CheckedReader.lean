import ClassAbi.ClassFile.Reader

/-!
# A reader that checks every step

`readClass` takes offsets and gives offsets back.  The reader here has one cursor
that moves over the file instead, forth as it reads and to wherever an attribute
or an entry of the constant pool was found.  Of the constant pool it keeps where
each entry stands, and reads the contents when it needs them.  The first problem
is kept.  After a problem numbers are read as 0, and the next look at the problem
ends the reading.

Each step of this reader checks itself.  A `Breach` is what no step may do, and
it ends the run at once: to move the cursor or keep an offset out of the file, to
take a byte that the file does not have or an entry that the pool does not have,
to keep an entry whose contents are not all in the file, to meet the end of the
file while an entry is looked up, to leave the cursor elsewhere after that, or to
be inside more than `insideLimit` annotation values.

`CheckedReading` shows that no run has a breach, and that the events and the
problem are those of `readClass`.
-/

namespace ClassAbi

/-! ## The state -/

/-- Where an entry of the constant pool stands: its tag and the offset behind the tag. -/
structure PoolSlot where
  /-- The tag, and 0 where there is no entry. -/
  tag : UInt8
  /-- Where the contents begin. -/
  offset : Nat
deriving DecidableEq, Repr

/-- What a reader must not do. -/
inductive Breach where
  /-- The cursor leaves the file. -/
  | cursorOutside (offset : Nat)
  /-- A byte is taken that the file does not have. -/
  | byteOutside (offset : Nat)
  /-- An entry is taken that the constant pool does not have. -/
  | slotOutside (index : Nat)
  /-- An offset is kept that is not in the file. -/
  | placeOutside (offset : Nat)
  /-- An entry of the constant pool is kept that has contents behind the file. -/
  | contentsOutside (index : Nat)
  /-- The file ends inside an entry that is looked up. -/
  | lookupTruncated
  /-- An entry is looked up, and the cursor does not come back. -/
  | cursorMoved (offset : Nat)
  /-- Annotation values are inside each other beyond the limit. -/
  | tooDeep
deriving DecidableEq, Repr

/-- The state of the reader. -/
structure Cursor where
  /-- The offset of the next byte. -/
  pos : Nat
  /-- The constant pool. -/
  slots : List PoolSlot
  /-- The first problem. -/
  problem : Option ReadError
  /-- The number of annotation values that have begun and not ended. -/
  inside : Nat
  /-- What has been delivered. -/
  events : List Event

/-- The file ended where something was read. -/
def ReadError.isTruncated : ReadError → Bool
  | truncated _ _ _ => true
  | _ => false

/-- A part of the reading: a breach, or the state behind it and its result, of which there is
none if the whole reading ends here. -/
def Walk (α : Type) : Type := Cursor → Except Breach (Option α × Cursor)

instance : Monad Walk where
  pure a := fun c => .ok (some a, c)
  bind m k := fun c =>
    match m c with
    | .ok (some a, c) => k a c
    | .ok (none, c) => .ok (none, c)
    | .error b => .error b

/-- The greatest number of annotation values that are inside each other. -/
def insideLimit : Nat := 130

namespace Walk

variable {α : Type} (d : ByteArray)

/-! ## Steps -/

/-- The state. -/
def state : Walk Cursor := fun c => .ok (some c, c)

/-- Changes the state. -/
def update (f : Cursor → Cursor) : Walk Unit := fun c => .ok (some (), f c)

/-- Ends the reading. -/
def finish : Walk α := fun c => .ok (none, c)

/-- Ends the run with a breach. -/
def breach (b : Breach) : Walk α := fun _ => .error b

/-- A check, which is a breach if it fails. -/
def check (b : Breach) (holds : Prop) [Decidable holds] : Walk Unit :=
  if holds then return else breach b

/-- Ends the reading with a problem, unless there is one already. -/
def stop (e : ReadError) : Walk α := do
  update fun c => { c with problem := c.problem.or (some e) }
  finish

/-- Ends the reading if there is a problem. -/
def unlessFailed : Walk Unit := do
  if (← state).problem.isSome then finish

/-- Delivers an event. -/
def deliver (e : Event) : Walk Unit :=
  update fun c => { c with events := c.events ++ [e] }

/-- A part for each item of a list. -/
def each {β : Type} (part : β → Walk Unit) : List β → Walk Unit
  | [] => return
  | b :: items => do
    part b
    each part items

/-- Moves the cursor. -/
def seek (offset : Nat) : Walk Unit := do
  check (.cursorOutside offset) (offset ≤ d.size)
  update fun c => { c with pos := offset }

/-- Whether so many bytes are left.  If they are not, that is a problem. -/
def require (count : Nat) : Walk Bool := do
  let c ← state
  if c.problem.isSome then return false
  check (.cursorOutside c.pos) (c.pos ≤ d.size)
  if count ≤ d.size - c.pos then return true
  update fun c => { c with problem := some (truncatedAt d c.pos count) }
  return false

/-- The byte at an offset. -/
def byteAt (offset : Nat) : Walk UInt8 :=
  if h : offset < d.size then return d[offset] else breach (.byteOutside offset)

/-! ## Numbers -/

/-- One byte. -/
def readU1 : Walk UInt8 := do
  if ← require d 1 then
    let start := (← state).pos
    let value ← byteAt d start
    seek d (start + 1)
    return value
  else return 0

/-- A 16-bit number. -/
def readU2 : Walk UInt16 := do
  if ← require d 2 then
    let start := (← state).pos
    let high ← byteAt d start
    let low ← byteAt d (start + 1)
    seek d (start + 2)
    return high.toUInt16 <<< 8 ||| low.toUInt16
  else return 0

/-- A 32-bit number. -/
def readU4 : Walk UInt32 := do
  if ← require d 4 then
    let start := (← state).pos
    let first ← byteAt d start
    let second ← byteAt d (start + 1)
    let third ← byteAt d (start + 2)
    let fourth ← byteAt d (start + 3)
    seek d (start + 4)
    return first.toUInt32 <<< 24 ||| second.toUInt32 <<< 16 ||| third.toUInt32 <<< 8 |||
      fourth.toUInt32
  else return 0

/-- A 64-bit number in two halves. -/
def readU8 : Walk UInt64 := do
  let high ← readU4 d
  let low ← readU4 d
  return high.toUInt64 <<< 32 ||| low.toUInt64

/-- Leaves out bytes. -/
def skip (count : Nat) : Walk Unit := do
  if ← require d count then
    seek d ((← state).pos + count)

/-- The bytes from an offset on. -/
def bytesAt (offset count : Nat) : Walk Text := do
  check (.byteOutside (offset + count)) (offset + count ≤ d.size)
  return (d.extract offset (offset + count)).data.toList

/-! ## The constant pool -/

/-- The number of bytes behind the tag of an entry.  A text says itself how long it is. -/
def fixedSize (tag : UInt8) : Option Nat :=
  if tag == tagInteger || tag == tagFloat then some 4
  else if tag == tagLong || tag == tagDouble then some 8
  else if tag == tagClass || tag == tagString then some 2
  else otherEntrySize tag

/-- The file has the contents of the entry to their end. -/
def hasContents (slot : PoolSlot) : Bool :=
  if slot.tag == tagUtf8 then
    match scanU2 d slot.offset with
    | .ok (length, start) => start + length.toNat ≤ d.size
    | .error _ => false
  else
    match fixedSize slot.tag with
    | some size => slot.offset + size ≤ d.size
    | none => false

/-- The entry with an index. -/
def slotAt (index : Nat) : Walk PoolSlot := do
  match (← state).slots[index]? with
  | some slot => return slot
  | none => breach (.slotOutside index)

/-- Keeps an entry whose contents are still to be gone through. -/
def keepSlot (index : Nat) (slot : PoolSlot) : Walk Unit := do
  check (.slotOutside index) (index < (← state).slots.length)
  check (.placeOutside slot.offset) (slot.offset ≤ d.size)
  update fun c => { c with slots := c.slots.set index slot }

/-- Checks an entry whose contents have been gone through. -/
def checkSlot (index : Nat) : Walk Unit := do
  let slot ← slotAt index
  check (.contentsOutside index) (hasContents d slot)

/-- Goes through what is behind the tag of an entry that takes one index. -/
def skipContents (tag : UInt8) (index : Nat) : Walk Unit :=
  if tag == tagUtf8 then do
    let length ← readU2 d
    skip d length.toNat
  else
    match fixedSize tag with
    | some size => skip d size
    | none => do
      unlessFailed
      stop (.unknownEntry tag index)

/-- The entries for `left` more indexes from `index` on. -/
def readEntries : (left index : Nat) → Walk Unit
  | 0, _ => return
  | left + 1, index => do
    let tag ← readU1 d
    keepSlot d index ⟨tag, (← state).pos⟩
    if tag == tagLong || tag == tagDouble then
      match left with
      | 0 => stop (.poolOverrun index)
      | left + 1 => do
        skip d 8
        unlessFailed
        checkSlot d index
        readEntries left (index + 2)
    else do
      skipContents d tag index
      unlessFailed
      checkSlot d index
      readEntries left (index + 1)

/-- The constant pool. -/
def readPool : Walk Unit := do
  let count ← readU2 d
  unlessFailed
  if count == 0 then stop .emptyPool
  else
    update fun c => { c with slots := .replicate count.toNat ⟨0, 0⟩ }
    readEntries d (count.toNat - 1) 1

/-! ## Lookups -/

/-- A lookup does not meet the end of the file, and if it succeeds the cursor is where it was. -/
def lookup (part : Walk α) : Walk α := fun before =>
  match part before with
  | .error b => .error b
  | .ok (result, c) =>
    if before.problem.isNone ∧ c.problem.any ReadError.isTruncated then .error .lookupTruncated
    else if result.isSome ∧ c.pos ≠ before.pos then .error (.cursorMoved c.pos)
    else .ok (result, c)

/-- The entry with an index, which must be in use. -/
def slotInUse (index : UInt16) : Walk PoolSlot := do
  unlessFailed
  if index == 0 || (← state).slots.length ≤ index.toNat then stop (.indexOutOfRange index)
  else slotAt index.toNat

/-- The entry with an index and a tag. -/
def slotTagged (index : UInt16) (tag : UInt8) : Walk PoolSlot := do
  let slot ← slotInUse index
  if slot.tag == tag then return slot
  else stop (.wrongEntry index slot.tag tag)

/-- The text with an index. -/
def utf8At (index : UInt16) : Walk Text := lookup do
  let slot ← slotTagged index tagUtf8
  let saved := (← state).pos
  seek d slot.offset
  let length ← readU2 d
  if ← require d length.toNat then
    let value ← bytesAt d (← state).pos length.toNat
    seek d saved
    return value
  else finish

/-- The index that an entry refers to.  The cursor comes back. -/
def referenceOf (slot : PoolSlot) : Walk UInt16 := do
  let saved := (← state).pos
  seek d slot.offset
  let index ← readU2 d
  seek d saved
  return index

/-- The name of the class with an index. -/
def classNameAt (index : UInt16) : Walk Text := lookup do
  let slot ← slotTagged index tagClass
  utf8At d (← referenceOf d slot)

/-- The bits of the next number, for the tag of its entry. -/
def readBits (tag : UInt8) : Walk UInt64 :=
  if tag == tagLong || tag == tagDouble then readU8 d
  else do return (← readU4 d).toUInt64

/-- The bits of the number with an index and a tag. -/
def numberAt (index : UInt16) (tag : UInt8) : Walk UInt64 := lookup do
  let slot ← slotTagged index tag
  let saved := (← state).pos
  seek d slot.offset
  let bits ← readBits d tag
  seek d saved
  unlessFailed
  return bits

/-- The 32-bit integer with an index. -/
def integerAt (index : UInt16) : Walk Int32 := do
  let bits ← numberAt d index tagInteger
  return bits.toUInt32.toInt32

/-- The initial value with an index, for a field with the given descriptor. -/
def constantAt (descriptor : Text) (index : UInt16) : Walk Constant := lookup do
  let slot ← slotInUse index
  if slot.tag == tagInteger then return .ofFieldInteger descriptor (← integerAt d index)
  else if slot.tag == tagFloat then return .float (← numberAt d index tagFloat).toUInt32
  else if slot.tag == tagLong then return .long (← numberAt d index tagLong).toInt64
  else if slot.tag == tagDouble then return .double (← numberAt d index tagDouble)
  else if slot.tag == tagString then return .string (← utf8At d (← referenceOf d slot))
  else stop (.notAConstant index)

/-! ## Attributes -/

/-- A text that the next number refers to. -/
def readUtf8Ref : Walk Text := do
  let index ← readU2 d
  utf8At d index

/-- A class that the next number refers to. -/
def readClassRef : Walk Text := do
  let index ← readU2 d
  classNameAt d index

/-- Notes an attribute whose contents begin at the cursor. -/
def note (a : AttributeLocations) (name : Text) : Walk AttributeLocations := do
  let start := (← state).pos
  check (.placeOutside start) (start ≤ d.size)
  return a.note name start

/-- Goes through `count` attributes. -/
def readEachAttribute : (count : Nat) → AttributeLocations → Walk AttributeLocations
  | 0, a => return a
  | count + 1, a => do
    let nameIndex ← readU2 d
    let length ← readU4 d
    let name ← utf8At d nameIndex
    if ← require d length.toNat then
      if length.toNat < AttributeLocations.shortestLength name then
        stop (.shortAttribute name (← state).pos)
      else
        let a ← note d a name
        skip d length.toNat
        readEachAttribute count a
    else finish

/-- Goes through the attributes of one owner. -/
def readAttributes : Walk AttributeLocations := do
  let count ← readU2 d
  let a ← readEachAttribute d count.toNat {}
  unlessFailed
  return a

/-- Goes through fields or methods and leaves them out. -/
def skipMembers : Walk Unit := do
  let count ← readU2 d
  each (fun _ => do
    skip d 6
    let _ ← readAttributes d) (List.range count.toNat)
  unlessFailed

/-! ## Annotations -/

/-- A part of the reading inside an annotation value. -/
def insideValue (part : Walk α) : Walk α := fun before =>
  if before.inside < insideLimit then
    match part { before with inside := before.inside + 1 } with
    | .error b => .error b
    | .ok (result, c) => .ok (result, { c with inside := before.inside })
  else .error .tooDeep

/-- The values of an annotation: their count, then name and value of each. -/
def readNamedValues (readValue : Text → Walk Unit) : Walk Unit := do
  let count ← readU2 d
  each (fun _ => do
    let name ← readUtf8Ref d
    readValue name) (List.range count.toNat)
  unlessFailed
  deliver (.value .close)

/-- How the constant with an index is looked up, for the tag of a constant value. -/
def elementLookup (tag : UInt8) : Option (UInt16 → Walk Constant) :=
  if (Constant.ofIntegerTag? tag 0).isSome then
    some fun index => do
      let value ← integerAt d index
      return (Constant.ofIntegerTag? tag value).getD (.int value)
  else if tag == 74 then some fun index => do return .long (← numberAt d index tagLong).toInt64
  else if tag == 70 then some fun index => do return .float (← numberAt d index tagFloat).toUInt32
  else if tag == 68 then some fun index => do return .double (← numberAt d index tagDouble)
  else if tag == 115 then some fun index => do return .string (← utf8At d index)
  else if tag == 99 then some fun index => do return .classLiteral (← utf8At d index)
  else none

/-- An annotation value.  The depth is the number of values that it is inside of. -/
def readValue (name : Text) (depth : Nat) : Walk Unit :=
  insideValue <|
    if nestingLimit < depth then stop .nestedTooDeeply
    else do
      let tag ← readU1 d
      match elementLookup d tag with
      | some find => do
        let index ← readU2 d
        let value ← find index
        deliver (.value (.constant name value))
      | none =>
        if tag == 101 then do
          let descriptor ← readUtf8Ref d
          let value ← readUtf8Ref d
          deliver (.value (.enum name descriptor value))
        else if tag == 64 then do
          let descriptor ← readUtf8Ref d
          deliver (.value (.nested name descriptor))
          readNamedValues d fun name => readValue name (depth + 1)
        else if tag == 91 then do
          let count ← readU2 d
          unlessFailed
          deliver (.value (.array name))
          each (fun _ => readValue [] (depth + 1)) (List.range count.toNat)
          deliver (.value .close)
        else do
          unlessFailed
          stop (.unknownValue tag ((← state).pos - 1))
termination_by nestingLimit + 1 - depth

/-- Annotations with their count in front, each opened by `opening`. -/
def readAnnotations (opening : Text → Event) : Walk Unit := do
  let count ← readU2 d
  each (fun _ => do
    let descriptor ← readUtf8Ref d
    deliver (opening descriptor)
    readNamedValues d fun name => readValue d name 0) (List.range count.toNat)
  unlessFailed

/-- The annotations at a noted place. -/
def readAnnotationsAt (opening : Text → Event) : Option Nat → Walk Unit
  | none => return
  | some offset => do
    seek d offset
    readAnnotations d opening

/-- The parameter annotations at a noted place. -/
def readParameterAnnotationsAt (visible : Bool) : Option Nat → Walk Unit
  | none => return
  | some offset => do
    seek d offset
    let count ← readU1 d
    unlessFailed
    deliver (.parameterCount count.toNat visible)
    each (fun (parameter : Nat) => do
      readAnnotationsAt d (fun descriptor => .annotateParameter parameter descriptor visible)
        (some (← state).pos)) (List.range count.toNat)

/-- The default value at a noted place. -/
def readDefaultAt : Option Nat → Walk Unit
  | none => return
  | some offset => do
    seek d offset
    deliver .default
    readValue d [] 0
    deliver (.value .close)

/-! ## Members -/

/-- The generic signature at a noted place. -/
def signatureAt : Option Nat → Walk (Option Text)
  | none => return none
  | some offset => do
    seek d offset
    return some (← readUtf8Ref d)

/-- The initial value at a noted place, for a field with the given descriptor. -/
def constantValueAt (descriptor : Text) : Option Nat → Walk (Option Constant)
  | none => return none
  | some offset => do
    seek d offset
    let index ← readU2 d
    return some (← constantAt d descriptor index)

/-- So many classes that numbers refer to. -/
def readEachClassRef : (count : Nat) → Array Text → Walk (Array Text)
  | 0, names => return names
  | count + 1, names => do
    let name ← readClassRef d
    readEachClassRef count (names.push name)

/-- Classes that numbers refer to, with their count in front. -/
def readClassRefs : Walk (List Text) := do
  let count ← readU2 d
  let names ← readEachClassRef d count.toNat #[]
  return names.toList

/-- The exceptions at a noted place. -/
def exceptionsAt : Option Nat → Walk (Option (List Text))
  | none => return none
  | some offset => do
    seek d offset
    return some (← readClassRefs d)

/-- A field with its annotations.  The cursor goes on behind the field. -/
def readField : Walk Unit := do
  let flags ← readU2 d
  let name ← readUtf8Ref d
  let descriptor ← readUtf8Ref d
  let a ← readAttributes d
  let behind := (← state).pos
  let signature ← signatureAt d a.signature
  let value ← constantValueAt d descriptor a.constantValue
  deliver (.field { access := .ofFlags flags a.deprecated, name, descriptor, signature, value })
  readAnnotationsAt d (.annotateField · true) a.visibleAnnotations
  readAnnotationsAt d (.annotateField · false) a.invisibleAnnotations
  deliver .fieldEnd
  seek d behind

/-- A method with its default, its annotations and those of its parameters.  The cursor goes on
behind the method. -/
def readMethod : Walk Unit := do
  let flags ← readU2 d
  let name ← readUtf8Ref d
  let descriptor ← readUtf8Ref d
  let a ← readAttributes d
  let behind := (← state).pos
  let signature ← signatureAt d a.signature
  let exceptions ← exceptionsAt d a.exceptions
  deliver (.method {
    access := .ofFlags flags a.deprecated, name, descriptor, signature, exceptions })
  readDefaultAt d a.annotationDefault
  readAnnotationsAt d (.annotateMethod · true) a.visibleAnnotations
  readAnnotationsAt d (.annotateMethod · false) a.invisibleAnnotations
  readParameterAnnotationsAt d true a.visibleParameterAnnotations
  readParameterAnnotationsAt d false a.invisibleParameterAnnotations
  deliver .methodEnd
  seek d behind

/-! ## Classes -/

/-- The superclass with an index, which is 0 where there is none. -/
def superNameAt (index : UInt16) : Walk (Option Text) :=
  if index == 0 then return none
  else do return some (← classNameAt d index)

/-- The declarations of a class file whose members begin at `members`. -/
def readDeclarations (h : ClassHeader) (a : AttributeLocations) (members : Nat) : Walk Unit := do
  deliver (.header h)
  readAnnotationsAt d (.annotate · true) a.visibleAnnotations
  readAnnotationsAt d (.annotate · false) a.invisibleAnnotations
  seek d members
  let fieldCount ← readU2 d
  each (fun _ => readField d) (List.range fieldCount.toNat)
  let methodCount ← readU2 d
  each (fun _ => readMethod d) (List.range methodCount.toNat)
  unlessFailed
  deliver .classEnd

/-- What is behind the constant pool.  The attributes of the class are behind the members, so the
reader goes through the members twice. -/
def readBody (version : UInt32) : Walk Unit := do
  let flags ← readU2 d
  let name ← readClassRef d
  let superIndex ← readU2 d
  let superName ← superNameAt d superIndex
  let interfaces ← readClassRefs d
  let members := (← state).pos
  skipMembers d
  skipMembers d
  let a ← readAttributes d
  let signature ← signatureAt d a.signature
  let access := .ofFlags flags a.deprecated
  readDeclarations d { version, access, name, signature, superName, interfaces := some interfaces }
    a members

/-- A whole class file. -/
def readClass : Walk Unit := do
  let magic ← readU4 d
  unlessFailed
  if magic != classMagic then stop (.badMagic magic)
  else
    let minor ← readU2 d
    let major ← readU2 d
    readPool d
    readBody d (minor.toUInt32 <<< 16 ||| major.toUInt32)

end Walk

/-- Reads a class file with a cursor that stands at its beginning. -/
def walkClass (d : ByteArray) : Except Breach (Option Unit × Cursor) :=
  Walk.readClass d ⟨0, [], none, 0, []⟩

end ClassAbi
