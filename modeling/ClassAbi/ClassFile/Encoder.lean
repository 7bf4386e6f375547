import ClassAbi.ClassFile.Attribute
import ClassAbi.ClassFile.Magic
import ClassAbi.ClassFile.ValueEncoder

/-!
# Encoding a class

`Encoder` takes the events of a class one at a time and keeps what the class
file will hold.  `Encoder.toBytes` writes the file.  Texts and constants enter
the constant pool when their event arrives, the names of attributes when the
file is written, so the file depends on nothing but the sequence of events.

Events are taken in any order.  An annotation goes to the class, to the last
field or to the last method.  Values go to the innermost list that is open,
wherever that list was opened.  `Encoder.ofEvents` runs a whole sequence.
-/

namespace ClassAbi

/-! ## Drafts -/

/-- The header of a class file, by indexes of the pool. -/
structure HeaderDraft where
  /-- The minor version in the high half, the major version in the low half. -/
  version : UInt32
  /-- The access word. -/
  access : Access
  /-- The class. -/
  thisClass : UInt16
  /-- The superclass. -/
  superClass : Option UInt16
  /-- The generic signature. -/
  signature : Option UInt16
  /-- The interfaces. -/
  interfaces : List UInt16
deriving DecidableEq, Repr, Inhabited

/-- A field, by indexes of the pool. -/
structure FieldDraft where
  /-- The access word. -/
  access : Access
  /-- The name. -/
  name : UInt16
  /-- The type descriptor. -/
  descriptor : UInt16
  /-- The generic signature. -/
  signature : Option UInt16
  /-- The initial value. -/
  value : Option UInt16
  /-- The annotations so far. -/
  annotations : AnnotationTables
deriving Inhabited

/-- A method, by indexes of the pool. -/
structure MethodDraft where
  /-- The access word. -/
  access : Access
  /-- The name. -/
  name : UInt16
  /-- The type descriptor. -/
  descriptor : UInt16
  /-- The generic signature. -/
  signature : Option UInt16
  /-- The declared exceptions. -/
  exceptions : Option (List UInt16)
  /-- The encoded default values. -/
  defaults : Buffer
  /-- The annotations so far. -/
  annotations : AnnotationTables
  /-- The stated number of parameters with visible annotations. -/
  visibleParameters : Option Nat
  /-- The stated number of parameters with other annotations. -/
  invisibleParameters : Option Nat
  /-- The annotations of the parameters, up to the last annotated one. -/
  parameters : Array AnnotationTables
deriving Inhabited

/-! ## Writing drafts -/

namespace FieldDraft

/-- The attributes of the field in the order they are written. -/
def attributes (f : FieldDraft) : List Attribute :=
  f.value.toList.map (Attribute.ofIndex (Text.ascii "ConstantValue")) ++
    Attribute.signature f.signature ++ Attribute.deprecated f.access ++ f.annotations.attributes

/-- Appends the field. -/
def put (f : FieldDraft) (p : Pool) (b : Buffer) : Except EncodeFault (Pool × Buffer) :=
  putAttributes f.attributes p (((b.pushU2 f.access.flags).pushU2 f.name).pushU2 f.descriptor)

end FieldDraft

namespace MethodDraft

/-- The number of parameters that an attribute of one visibility covers: the
stated number, but at least every parameter with an annotation.  There is no
attribute if neither is there. -/
def parameterCount (m : MethodDraft) (visible : Bool) : Option Nat :=
  m.parameters.toList.zipIdx.foldl
    (fun count (t, i) =>
      if (t.get visible).count != 0 && count.getD 0 ≤ i then some (i + 1) else count)
    (if visible then m.visibleParameters else m.invisibleParameters)

/-- The contents of a parameter annotations attribute that covers `count`
parameters. -/
def parameterInfo (m : MethodDraft) (visible : Bool) (count : Nat) : Buffer :=
  (List.range count).foldl
    (fun b i => ((m.parameters.getD i .empty).get visible).put b)
    (Buffer.empty.pushU1 count.toUInt8)

/-- The parameter annotations of one visibility. -/
def parameterAttribute (m : MethodDraft) (name : String) (visible : Bool) : List Attribute :=
  (m.parameterCount visible).toList.map fun count =>
    ⟨Text.ascii name, m.parameterInfo visible count⟩

/-- The exceptions, where the method declares a list of them. -/
def exceptionsAttribute (m : MethodDraft) : List Attribute :=
  m.exceptions.toList.map fun exceptions =>
    ⟨Text.ascii "Exceptions",
      exceptions.foldl Buffer.pushU2 (Buffer.empty.pushU2 exceptions.length.toUInt16)⟩

/-- The default value, where something was written for it. -/
def defaultAttribute (m : MethodDraft) : List Attribute :=
  if m.defaults.size == 0 then [] else [⟨Text.ascii "AnnotationDefault", m.defaults⟩]

/-- The attributes of the method in the order they are written. -/
def attributes (m : MethodDraft) : List Attribute :=
  m.exceptionsAttribute ++ Attribute.signature m.signature ++ Attribute.deprecated m.access ++
    m.defaultAttribute ++ m.annotations.attributes ++
    m.parameterAttribute "RuntimeVisibleParameterAnnotations" true ++
    m.parameterAttribute "RuntimeInvisibleParameterAnnotations" false

/-- Appends the method. -/
def put (m : MethodDraft) (p : Pool) (b : Buffer) : Except EncodeFault (Pool × Buffer) :=
  putAttributes m.attributes p (((b.pushU2 m.access.flags).pushU2 m.name).pushU2 m.descriptor)

end MethodDraft

/-! ## The encoder -/

/-- The buffers that annotation values can go to. -/
inductive ValueTarget where
  /-- The annotations of the class. -/
  | ofClass (visible : Bool)
  /-- The annotations of a field, by its number. -/
  | ofField (field : Nat) (visible : Bool)
  /-- The default of a method, by its number. -/
  | ofDefault (method : Nat)
  /-- The annotations of a method. -/
  | ofMethod (method : Nat) (visible : Bool)
  /-- The annotations of a parameter of a method. -/
  | ofParameter (method parameter : Nat) (visible : Bool)
deriving DecidableEq, Repr, Inhabited

/-- A class under construction. -/
structure Encoder where
  /-- The constant pool so far. -/
  pool : Pool
  /-- The header, once it has arrived. -/
  header : Option HeaderDraft
  /-- The annotations of the class so far. -/
  annotations : AnnotationTables
  /-- The fields so far. -/
  fields : Array FieldDraft
  /-- The methods so far. -/
  methods : Array MethodDraft
  /-- The lists of values that are open, innermost first, each with the buffer
  it is written to. -/
  opened : List (ValueTarget × OpenList)
deriving Inhabited

namespace Encoder

/-- The encoder before the first event. -/
def empty : Encoder := ⟨∅, none, .empty, #[], #[], []⟩

instance : EmptyCollection Encoder := ⟨empty⟩

/-! ### The buffer of a target -/

/-- Changes the annotations of one visibility that a target stands for.  A
default is no annotation and stays. -/
def modifyTable (e : Encoder) (f : AnnotationTable → AnnotationTable) : ValueTarget → Encoder
  | .ofClass visible => { e with annotations := e.annotations.modify visible f }
  | .ofField i visible =>
    { e with fields := e.fields.modify i fun d =>
        { d with annotations := d.annotations.modify visible f } }
  | .ofDefault _ => e
  | .ofMethod i visible =>
    { e with methods := e.methods.modify i fun d =>
        { d with annotations := d.annotations.modify visible f } }
  | .ofParameter i parameter visible =>
    { e with methods := e.methods.modify i fun d =>
        { d with parameters := d.parameters.modify parameter (·.modify visible f) } }

/-- The annotations of one visibility that a target stands for. -/
def table (e : Encoder) : ValueTarget → AnnotationTable
  | .ofClass visible => e.annotations.get visible
  | .ofField i visible => (e.fields[i]?.map (·.annotations.get visible)).getD .empty
  | .ofDefault i => ⟨0, (e.methods[i]?.map (·.defaults)).getD .empty⟩
  | .ofMethod i visible => (e.methods[i]?.map (·.annotations.get visible)).getD .empty
  | .ofParameter i parameter visible =>
    (e.methods[i]?.bind fun d => d.parameters[parameter]?.map (·.get visible)).getD .empty

/-- The buffer of a target. -/
def buffer (e : Encoder) (target : ValueTarget) : Buffer := (e.table target).entries

/-- Replaces the buffer of a target. -/
def setBuffer (e : Encoder) (b : Buffer) : ValueTarget → Encoder
  | .ofDefault i =>
    { e with methods := e.methods.modify i fun d => { d with defaults := b } }
  | target => e.modifyTable (fun t => { t with entries := b }) target

/-! ### Events -/

/-- Adds what may be absent to the pool. -/
def addOptional (add : Pool → α → Except EncodeFault (β × Pool)) (p : Pool) :
    Option α → Except EncodeFault (Option β × Pool)
  | none => .ok (none, p)
  | some a => do
    let (index, p) ← add p a
    return (some index, p)

/-- The pool indexes of classes, in order. -/
def addClasses (p : Pool) (names : List Text) : Except EncodeFault (List UInt16 × Pool) := do
  let (reversed, p) ← names.foldlM
    (fun (indexes, p) name => do
      let (index, p) ← Pool.addClass p name
      return (index :: indexes, p))
    ([], p)
  return (reversed.reverse, p)

/-- Takes the class header.  A later header replaces an earlier one. -/
def visitHeader (e : Encoder) (h : ClassHeader) : Except EncodeFault Encoder := do
  let (thisClass, p) ← e.pool.addClass h.name
  let (superClass, p) ← addOptional Pool.addClass p h.superName
  let (signature, p) ← addOptional Pool.addUtf8 p h.signature
  let (interfaces, p) ← addClasses p (h.interfaces.getD [])
  return { e with
    pool := p
    header := some ⟨h.version, h.access, thisClass, superClass, signature, interfaces⟩ }

/-- Takes the header of a new field. -/
def visitField (e : Encoder) (h : FieldHeader) : Except EncodeFault Encoder := do
  let (name, p) ← e.pool.addUtf8 h.name
  let (descriptor, p) ← p.addUtf8 h.descriptor
  let (signature, p) ← addOptional Pool.addUtf8 p h.signature
  let (value, p) ← addOptional Pool.addConstant p h.value
  return { e with
    pool := p
    fields := e.fields.push ⟨h.access, name, descriptor, signature, value, .empty⟩ }

/-- Takes the header of a new method. -/
def visitMethod (e : Encoder) (h : MethodHeader) : Except EncodeFault Encoder := do
  let (name, p) ← e.pool.addUtf8 h.name
  let (descriptor, p) ← p.addUtf8 h.descriptor
  let (signature, p) ← addOptional Pool.addUtf8 p h.signature
  let (exceptions, p) ← addOptional addClasses p h.exceptions
  return { e with
    pool := p
    methods := e.methods.push
      ⟨h.access, name, descriptor, signature, exceptions, ∅, .empty, none, none, #[]⟩ }

/-- Begins an annotation: its type, and a count to be patched. -/
def annotate (e : Encoder) (target : ValueTarget) (descriptor : Text) :
    Except EncodeFault Encoder := do
  let t := e.table target
  if t.count < 0xFFFF then
    let (type, p) ← e.pool.addUtf8 descriptor
    let offset := t.entries.size + 2
    let e := { e with pool := p, opened := (target, .ofNamed offset) :: e.opened }
    return e.modifyTable
      (fun t => ⟨t.count + 1, (t.entries.pushU2 type).pushU2 0⟩) target
  else .error .tooManyAnnotations

/-- Begins an annotation of a parameter of the last method. -/
def annotateParameter (e : Encoder) (parameter : Int) (descriptor : Text) (visible : Bool) :
    Except EncodeFault Encoder :=
  if 0 ≤ parameter ∧ parameter < 0xFF then
    let i := e.methods.size - 1
    let missing := parameter.toNat + 1
    let e := { e with methods := e.methods.modify i fun d =>
      { d with parameters :=
          d.parameters ++ Array.replicate (missing - d.parameters.size) AnnotationTables.empty } }
    e.annotate (.ofParameter i parameter.toNat visible) descriptor
  else .error (.badParameter parameter)

/-- Takes the stated number of annotable parameters of the last method. -/
def visitParameterCount (e : Encoder) (count : Int) (visible : Bool) :
    Except EncodeFault Encoder :=
  if 0 ≤ count ∧ count ≤ 0xFF then
    .ok { e with methods := e.methods.modify (e.methods.size - 1) fun d =>
      if visible then { d with visibleParameters := some count.toNat }
      else { d with invisibleParameters := some count.toNat } }
  else .error (.badParameterCount count)

/-- Takes an event of the innermost open list.  Without an open list it has no
effect. -/
def visitValue (e : Encoder) (event : ValueEvent) : Except EncodeFault Encoder :=
  match e.opened with
  | [] => .ok e
  | (target, l) :: outer => do
    let p := e.pool
    let b := e.buffer target
    let e := { e with pool := ∅ }.setBuffer ∅ target
    let (inner, p, b) ← l.write p b event
    return { e with pool := p, opened := inner.map ((target, ·)) ++ outer }.setBuffer b target

/-- Takes one event. -/
def step (e : Encoder) : Event → Except EncodeFault Encoder
  | .header h => e.visitHeader h
  | .annotate descriptor visible => e.annotate (.ofClass visible) descriptor
  | .field h => e.visitField h
  | .annotateField descriptor visible =>
    e.annotate (.ofField (e.fields.size - 1) visible) descriptor
  | .fieldEnd => .ok e
  | .method h => e.visitMethod h
  | .default => .ok { e with opened := (.ofDefault (e.methods.size - 1), .ofDefault) :: e.opened }
  | .annotateMethod descriptor visible =>
    e.annotate (.ofMethod (e.methods.size - 1) visible) descriptor
  | .parameterCount count visible => e.visitParameterCount count visible
  | .annotateParameter parameter descriptor visible =>
    e.annotateParameter parameter descriptor visible
  | .methodEnd => .ok e
  | .value event => e.visitValue event
  | .classEnd => .ok e

/-- Takes events in order. -/
def run (e : Encoder) (events : List Event) : Except EncodeFault Encoder :=
  events.foldlM step e

/-- The encoder after a sequence of events. -/
def ofEvents (events : List Event) : Except EncodeFault Encoder := run ∅ events

/-! ### The class file -/

/-- Appends fields in order. -/
def putFields (fields : List FieldDraft) (p : Pool) (b : Buffer) :
    Except EncodeFault (Pool × Buffer) :=
  fields.foldlM (fun (p, b) f => f.put p b) (p, b)

/-- Appends methods in order. -/
def putMethods (methods : List MethodDraft) (p : Pool) (b : Buffer) :
    Except EncodeFault (Pool × Buffer) :=
  methods.foldlM (fun (p, b) m => m.put p b) (p, b)

/-- The attributes of the class in the order they are written. -/
def attributes (e : Encoder) (h : HeaderDraft) : List Attribute :=
  Attribute.signature h.signature ++ Attribute.deprecated h.access ++ e.annotations.attributes

/-- What follows the constant pool.  Writing it may add to the pool, so it is
written first. -/
def body (e : Encoder) (h : HeaderDraft) : Except EncodeFault (Pool × Buffer) := do
  let b := ((Buffer.empty.pushU2 h.access.flags).pushU2 h.thisClass).pushU2 (h.superClass.getD 0)
  let b := h.interfaces.foldl Buffer.pushU2 (b.pushU2 h.interfaces.length.toUInt16)
  let (p, b) ← putFields e.fields.toList e.pool (b.pushU2 e.fields.size.toUInt16)
  let (p, b) ← putMethods e.methods.toList p (b.pushU2 e.methods.size.toUInt16)
  putAttributes (e.attributes h) p b

/-- The class file. -/
def toBytes (e : Encoder) : Except EncodeFault ByteArray := do
  let some h := e.header | .error .noHeader
  if e.fields.size ≤ 0xFFFF then
    if e.methods.size ≤ 0xFFFF then
      let (p, b) ← e.body h
      let start := ((Buffer.empty.pushU4 classMagic).pushU2 (h.version >>> 16).toUInt16).pushU2
        h.version.toUInt16
      return ((p.put start).append b).bytes
    else .error .tooManyMethods
  else .error .tooManyFields

end Encoder

/-- The class file of a sequence of events. -/
def encodeClass (events : List Event) : Except EncodeFault ByteArray :=
  (Encoder.ofEvents events).bind Encoder.toBytes

end ClassAbi
