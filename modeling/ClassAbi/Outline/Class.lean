import ClassAbi.ClassFile.Encoder
import ClassAbi.ClassFile.Reader
import ClassAbi.Fatal
import ClassAbi.Outline.Member

/-!
# Outlines of classes

The outline of a class is what other classes can be compiled against: its
header, its annotations, and those fields and methods that others can see.
Private members are left out, and so are bridge methods, which a compiler
generates for methods that the outline has anyway.

`Recorder` takes the events of a class one at a time.  `Outline.replay` tells
the outline as events again, everything in canonical order, and `Outline.encode`
writes these events as a class file.  So classes that differ only in what others
cannot see, or in the order of their members, have the same encoded outline.
-/

namespace ClassAbi

/-- What other classes can see of a class. -/
structure Outline where
  /-- The name of the entry that the class has in an archive. -/
  file : Text
  /-- The class header, once it has arrived. -/
  header : Option ClassHeader
  /-- The annotations in the order of arrival. -/
  annotations : Array AnnotationOutline
  /-- The visible fields in the order of arrival. -/
  fields : Array FieldOutline
  /-- The visible methods in the order of arrival. -/
  methods : Array MethodOutline
deriving DecidableEq, Repr, Inhabited

/-- What can go wrong between telling an outline and writing it. -/
inductive OutlineFault where
  /-- A second class header arrived. -/
  | secondHeader (file : Text)
  /-- There is no class header to replay. -/
  | noHeader (file : Text)
  /-- The outline does not fit into a class file. -/
  | encode (fault : EncodeFault)
deriving DecidableEq, Repr

/-- The fault as the failure of an internal check. -/
def OutlineFault.fatal : OutlineFault → Fatal
  | secondHeader file => .check "!visited_" (file ++ Text.ascii ": class header visited twice")
  | noHeader file => .check "visited_" (file ++ Text.ascii ": no class header to replay")
  | encode fault => fault.fatal

namespace Outline

/-- The outline of which nothing is known. -/
def named (file : Text) : Outline := ⟨file, none, #[], #[], #[]⟩

/-- By the name of the entry. -/
def before (a b : Outline) : Bool := fileNameBefore a.file b.file

/-- The annotations in canonical order. -/
def canonicalAnnotations (o : Outline) : List AnnotationOutline :=
  canonicalOrder AnnotationOutline.before o.annotations.toList

/-- The fields in canonical order. -/
def canonicalFields (o : Outline) : List FieldOutline :=
  canonicalOrder FieldOutline.before o.fields.toList

/-- The methods in canonical order. -/
def canonicalMethods (o : Outline) : List MethodOutline :=
  canonicalOrder MethodOutline.before o.methods.toList

/-- The events of the outline. -/
def replay (o : Outline) : Except OutlineFault (List Event) :=
  match o.header with
  | none => .error (.noHeader o.file)
  | some h => .ok (.header h ::
      (o.canonicalAnnotations.flatMap (·.replay .annotate) ++
        o.canonicalFields.flatMap FieldOutline.replay ++
        o.canonicalMethods.flatMap MethodOutline.replay ++ [.classEnd]))

/-- The class file of the outline. -/
def encode (o : Outline) : Except OutlineFault ByteArray := do
  let events ← o.replay
  (encodeClass events).mapError .encode

end Outline

/-! ## Recording -/

/-- The places that values can be recorded at. -/
inductive RecordTarget where
  /-- Nowhere: the owner is left out. -/
  | nowhere
  /-- An annotation of the class, by its number. -/
  | ofClass (index : Nat)
  /-- An annotation of a field. -/
  | ofField (field index : Nat)
  /-- The default of a method. -/
  | ofDefault (method : Nat)
  /-- An annotation of a method. -/
  | ofMethod (method index : Nat)
  /-- An annotation of a parameter of a method. -/
  | ofParameter (method index : Nat)
deriving DecidableEq, Repr, Inhabited

/-- An outline while events arrive. -/
structure Recorder where
  /-- The outline so far. -/
  outline : Outline
  /-- The number of the last field, unless that was left out. -/
  field : Option Nat
  /-- The number of the last method, unless that was left out. -/
  method : Option Nat
  /-- Where the values of each open list go, the innermost list first. -/
  opened : List RecordTarget
deriving Repr, Inhabited

namespace Recorder

/-- The recorder before the first event. -/
def named (file : Text) : Recorder := ⟨.named file, none, none, []⟩

/-- Changes a field. -/
def modifyField (r : Recorder) (i : Nat) (f : FieldOutline → FieldOutline) : Recorder :=
  { r with outline := { r.outline with fields := r.outline.fields.modify i f } }

/-- Changes a method. -/
def modifyMethod (r : Recorder) (i : Nat) (f : MethodOutline → MethodOutline) : Recorder :=
  { r with outline := { r.outline with methods := r.outline.methods.modify i f } }

/-- Takes the class header.  There must not be one yet. -/
def recordHeader (r : Recorder) (h : ClassHeader) : Except OutlineFault Recorder :=
  if r.outline.header.isSome then .error (.secondHeader r.outline.file)
  else .ok { r with outline := { r.outline with header := some h } }

/-- Takes a field, unless it is private. -/
def recordField (r : Recorder) (h : FieldHeader) : Recorder :=
  if h.access.isPrivate then { r with field := none }
  else { r with
    outline := { r.outline with fields := r.outline.fields.push ⟨h, #[]⟩ }
    field := some r.outline.fields.size }

/-- Takes a method, unless it is private or a bridge. -/
def recordMethod (r : Recorder) (h : MethodHeader) : Recorder :=
  if h.access.isPrivate || h.access.isBridge then { r with method := none }
  else { r with
    outline := { r.outline with methods := r.outline.methods.push (.ofHeader h) }
    method := some r.outline.methods.size }

/-- Opens a list of values. -/
def openAt (r : Recorder) (target : RecordTarget) : Recorder :=
  { r with opened := target :: r.opened }

/-- Opens an annotation of the class. -/
def annotateClass (r : Recorder) (key : AnnotationKey) : Recorder :=
  let target := .ofClass r.outline.annotations.size
  { r with
    outline := { r.outline with annotations := r.outline.annotations.push ⟨key, ∅⟩ } }.openAt target

/-- Opens an annotation of the last field. -/
def annotateField (r : Recorder) (key : AnnotationKey) : Recorder :=
  match r.field with
  | none => r.openAt .nowhere
  | some i =>
    let size := (r.outline.fields[i]?.map (·.annotations.size)).getD 0
    (r.modifyField i fun f => { f with annotations := f.annotations.push ⟨key, ∅⟩ }).openAt
      (.ofField i size)

/-- Opens a new default value of the last method. -/
def openDefault (r : Recorder) : Recorder :=
  match r.method with
  | none => r.openAt .nowhere
  | some i => (r.modifyMethod i fun m => { m with defaultValue := some ∅ }).openAt (.ofDefault i)

/-- Opens an annotation of the last method. -/
def annotateMethod (r : Recorder) (key : AnnotationKey) : Recorder :=
  match r.method with
  | none => r.openAt .nowhere
  | some i =>
    let size := (r.outline.methods[i]?.map (·.annotations.size)).getD 0
    (r.modifyMethod i fun m => { m with annotations := m.annotations.push ⟨key, ∅⟩ }).openAt
      (.ofMethod i size)

/-- Opens an annotation of a parameter of the last method. -/
def annotateParameter (r : Recorder) (parameter : Int) (key : AnnotationKey) : Recorder :=
  match r.method, parameter with
  | some i, .ofNat parameter =>
    let size := (r.outline.methods[i]?.map (·.parameters.size)).getD 0
    (r.modifyMethod i fun m =>
      { m with parameters := m.parameters.push ⟨parameter, key, ∅⟩ }).openAt (.ofParameter i size)
  | _, _ => r.openAt .nowhere

/-- Takes the stated number of annotable parameters of the last method. -/
def recordParameterCount (r : Recorder) (count : Int) (visible : Bool) : Recorder :=
  match r.method with
  | none => r
  | some i => r.modifyMethod i fun m =>
    if visible then { m with visibleParameters := some count }
    else { m with invisibleParameters := some count }

/-- Changes the values that are recorded at a place. -/
def modifyValues (r : Recorder) (f : RecordedValues → RecordedValues) : RecordTarget → Recorder
  | .nowhere => r
  | .ofClass j =>
    { r with outline := { r.outline with
        annotations := r.outline.annotations.modify j (·.modifyValues f) } }
  | .ofField i j => r.modifyField i fun d =>
    { d with annotations := d.annotations.modify j (·.modifyValues f) }
  | .ofDefault i => r.modifyMethod i fun d => { d with defaultValue := d.defaultValue.map f }
  | .ofMethod i j => r.modifyMethod i fun d =>
    { d with annotations := d.annotations.modify j (·.modifyValues f) }
  | .ofParameter i j => r.modifyMethod i fun d =>
    { d with parameters := d.parameters.modify j fun p =>
      { p with outline := p.outline.modifyValues f } }

/-- Takes an event of the innermost open list.  Without an open list it has no
effect. -/
def recordValue (r : Recorder) (e : ValueEvent) : Recorder :=
  match r.opened with
  | [] => r
  | target :: outer =>
    let opened := match e with
      | .nested .. | .array .. => target :: target :: outer
      | .close => outer
      | _ => target :: outer
    { r with opened }.modifyValues (·.record e) target

/-- Takes one event. -/
def step (r : Recorder) : Event → Except OutlineFault Recorder
  | .header h => r.recordHeader h
  | .annotate descriptor visible => .ok (r.annotateClass ⟨descriptor, visible⟩)
  | .field h => .ok (r.recordField h)
  | .annotateField descriptor visible => .ok (r.annotateField ⟨descriptor, visible⟩)
  | .fieldEnd => .ok r
  | .method h => .ok (r.recordMethod h)
  | .default => .ok r.openDefault
  | .annotateMethod descriptor visible => .ok (r.annotateMethod ⟨descriptor, visible⟩)
  | .parameterCount count visible => .ok (r.recordParameterCount count visible)
  | .annotateParameter parameter descriptor visible =>
    .ok (r.annotateParameter parameter ⟨descriptor, visible⟩)
  | .methodEnd => .ok r
  | .value e => .ok (r.recordValue e)
  | .classEnd => .ok r

/-- Takes events in order. -/
def run (r : Recorder) (events : List Event) : Except OutlineFault Recorder :=
  events.foldlM step r

end Recorder

namespace Outline

/-- The outline that events tell. -/
def ofEvents (file : Text) (events : List Event) : Except OutlineFault Outline := do
  let r ← (Recorder.named file).run events
  return r.outline

/-- The outline of the class that a file holds. -/
def ofClassFile (file : Text) (d : ByteArray) :
    Except OutlineFault (Outline × Except ReadError Unit) := do
  let delivery := readClass d
  let outline ← ofEvents file delivery.events
  return (outline, delivery.result)

end Outline

end ClassAbi
