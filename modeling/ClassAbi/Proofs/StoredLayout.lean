import ClassAbi.Proofs.StoredAnnotations
import ClassAbi.Proofs.StoredPool
import Mathlib.Data.List.Forall2
import Mathlib.Data.Option.Basic

/-!
# The layout of a class file

A `ClassFile` is a class file as JVMS 4.1 lays it out, with the contents of its
attributes left as bytes.  `ClassFile.encode` is its bytes.

Going through these bytes notes where each attribute has its contents.  Of
several attributes with one name the last is noted, and `lastInfo` is its
contents.  So an attribute of a kind is `NotedIn` the locations if these have a
place for the kind exactly where there are last contents, and the contents stand
there with their length in front.
-/

namespace ClassAbi

/-! ## Class files -/

/-- An attribute of a class file. -/
structure AttributeInfo where
  /-- The index of the name. -/
  name : UInt16
  /-- The contents. -/
  info : Text
deriving DecidableEq, Repr

/-- A field or method of a class file. -/
structure MemberInfo where
  /-- The flags. -/
  flags : UInt16
  /-- The index of the name. -/
  name : UInt16
  /-- The index of the descriptor. -/
  descriptor : UInt16
  /-- The attributes. -/
  attributes : List AttributeInfo
deriving DecidableEq, Repr

/-- A class file. -/
structure ClassFile where
  /-- The minor version. -/
  minor : UInt16
  /-- The major version. -/
  major : UInt16
  /-- The constant pool. -/
  pool : List PoolItem
  /-- The flags. -/
  flags : UInt16
  /-- The index of the class. -/
  thisClass : UInt16
  /-- The index of the superclass, or 0. -/
  superClass : UInt16
  /-- The indexes of the interfaces. -/
  interfaces : List UInt16
  /-- The fields. -/
  fields : List MemberInfo
  /-- The methods. -/
  methods : List MemberInfo
  /-- The attributes of the class. -/
  attributes : List AttributeInfo
deriving DecidableEq, Repr

/-- Items with their number in front. -/
def encodeTable {α : Type} (encode : α → Text) (items : List α) : Text :=
  bytesU2 items.length.toUInt16 ++ items.flatMap encode

/-- The bytes of an attribute. -/
def AttributeInfo.encode (a : AttributeInfo) : Text :=
  bytesU2 a.name ++ (bytesU4 a.info.length.toUInt32 ++ a.info)

/-- The bytes of a field or method. -/
def MemberInfo.encode (m : MemberInfo) : Text :=
  bytesU2 m.flags ++ (bytesU2 m.name ++ (bytesU2 m.descriptor ++
    encodeTable AttributeInfo.encode m.attributes))

/-- The bytes behind the constant pool. -/
def ClassFile.encodeBody (f : ClassFile) : Text :=
  bytesU2 f.flags ++ (bytesU2 f.thisClass ++ (bytesU2 f.superClass ++
    (encodeTable bytesU2 f.interfaces ++ (encodeTable MemberInfo.encode f.fields ++
      (encodeTable MemberInfo.encode f.methods ++
        encodeTable AttributeInfo.encode f.attributes)))))

/-- The bytes of a class file. -/
def ClassFile.encode (f : ClassFile) : Text :=
  bytesU4 classMagic ++ (bytesU2 f.minor ++ (bytesU2 f.major ++
    (encodePool f.pool ++ f.encodeBody)))

/-! ## Attributes by kind -/

/-- The kinds of attributes whose contents matter. -/
inductive AttributeKind where
  /-- The generic signature. -/
  | signature
  /-- The initial value of a field. -/
  | constantValue
  /-- The declared exceptions of a method. -/
  | exceptions
  /-- The default value of an annotation element. -/
  | annotationDefault
  /-- The annotations of one visibility. -/
  | annotations (visible : Bool)
  /-- The parameter annotations of one visibility. -/
  | parameterAnnotations (visible : Bool)
deriving DecidableEq, Repr

/-- The name of the attributes of a kind. -/
def AttributeKind.name : AttributeKind → Text
  | signature => Text.ascii "Signature"
  | constantValue => Text.ascii "ConstantValue"
  | exceptions => Text.ascii "Exceptions"
  | annotationDefault => Text.ascii "AnnotationDefault"
  | annotations true => Text.ascii "RuntimeVisibleAnnotations"
  | annotations false => Text.ascii "RuntimeInvisibleAnnotations"
  | parameterAnnotations true => Text.ascii "RuntimeVisibleParameterAnnotations"
  | parameterAnnotations false => Text.ascii "RuntimeInvisibleParameterAnnotations"

namespace AttributeLocations

/-- The place that is noted for a kind of attribute. -/
def place (a : AttributeLocations) : AttributeKind → Option Nat
  | .signature => a.signature
  | .constantValue => a.constantValue
  | .exceptions => a.exceptions
  | .annotationDefault => a.annotationDefault
  | .annotations true => a.visibleAnnotations
  | .annotations false => a.invisibleAnnotations
  | .parameterAnnotations true => a.visibleParameterAnnotations
  | .parameterAnnotations false => a.invisibleParameterAnnotations

/-- An attribute is noted as one of its kind. -/
theorem place_note (a : AttributeLocations) (name : Text) (offset : Nat) (k : AttributeKind) :
    (a.note name offset).place k = if name = k.name then some offset else a.place k := by
  split
  · next same =>
    subst name
    rcases k with _ | _ | _ | _ | _ | _ <;> try cases ‹Bool›
    all_goals rfl
  · next differs =>
    -- No branch of `note` but the one with the name of the kind changes its place.
    have differs := beq_eq_false_iff_ne.mpr differs
    rcases k with _ | _ | _ | _ | _ | _ <;> try cases ‹Bool›
    all_goals
      simp only [AttributeKind.name] at differs
      simp only [note, place, differs, Bool.false_eq_true, if_false]
      simp only [apply_ite AttributeLocations.signature, apply_ite AttributeLocations.constantValue,
        apply_ite AttributeLocations.exceptions, apply_ite AttributeLocations.annotationDefault,
        apply_ite AttributeLocations.visibleAnnotations,
        apply_ite AttributeLocations.invisibleAnnotations,
        apply_ite AttributeLocations.visibleParameterAnnotations,
        apply_ite AttributeLocations.invisibleParameterAnnotations, ite_self]

theorem deprecated_note (a : AttributeLocations) (name : Text) (offset : Nat) :
    (a.note name offset).deprecated = (a.deprecated || name == Text.ascii "Deprecated") := by
  by_cases same : name = Text.ascii "Deprecated"
  · subst name
    rw [beq_self_eq_true, Bool.or_true]
    rfl
  · have differs := beq_eq_false_iff_ne.mpr same
    simp only [note, differs, Bool.or_false, Bool.false_eq_true, if_false]
    simp only [apply_ite AttributeLocations.deprecated, ite_self]

end AttributeLocations

/-! ## Going through attributes -/

/-- The contents of the attributes with a name, in order. -/
def infosNamed (t : ConstantTable) (name : Text) (attributes : List AttributeInfo) : List Text :=
  attributes.filterMap fun a => if t.utf8At a.name = .ok name then some a.info else none

/-- The contents of the last attribute with a name. -/
def lastInfo (t : ConstantTable) (name : Text) (attributes : List AttributeInfo) : Option Text :=
  (infosNamed t name attributes).getLast?

/-- There is an attribute that marks its owner as deprecated. -/
def marksDeprecated (t : ConstantTable) (attributes : List AttributeInfo) : Bool :=
  !(infosNamed t (Text.ascii "Deprecated") attributes).isEmpty

/-- An attribute that a class file can have. -/
structure AttributeInfo.Fits (t : ConstantTable) (a : AttributeInfo) : Prop where
  named : ∃ name, t.utf8At a.name = .ok name ∧
    AttributeLocations.shortestLength name ≤ a.info.length
  short : a.info.length < 0x100000000

/-- The contents stand at the offset, and their length in front. -/
def LocatedAt (d : ByteArray) (info : Text) (offset : Nat) : Prop :=
  HoldsAt d offset info ∧ info.length < 0x100000000 ∧
    ∃ start, offset = start + 4 ∧ HoldsAt d start (bytesU4 info.length.toUInt32)

/-- The locations are those of the attributes. -/
structure NotedIn (d : ByteArray) (t : ConstantTable) (attributes : List AttributeInfo)
    (a : AttributeLocations) : Prop where
  place : ∀ k, Option.Rel (LocatedAt d) (lastInfo t k.name attributes) (a.place k)
  deprecated : a.deprecated = marksDeprecated t attributes

theorem infosNamed_cons {t : ConstantTable} {a : AttributeInfo} {name : Text}
    (h : t.utf8At a.name = .ok name) (name' : Text) (attributes : List AttributeInfo) :
    infosNamed t name' (a :: attributes) =
      (if name = name' then [a.info] else []) ++ infosNamed t name' attributes := by
  simp only [infosNamed, List.filterMap_cons, h, Except.ok.injEq]
  split
  · next differs => simp [show name ≠ name' by rintro rfl; simp at differs]
  · next same =>
    split at same
    · next eq => cases same; simp [eq]
    · cases same

theorem lastInfo_cons {t : ConstantTable} {a : AttributeInfo} {name : Text}
    (h : t.utf8At a.name = .ok name) (name' : Text) (attributes : List AttributeInfo) :
    lastInfo t name' (a :: attributes) =
      (lastInfo t name' attributes).or (if name = name' then some a.info else none) := by
  rw [lastInfo, infosNamed_cons h, List.getLast?_append]
  split <;> rfl

section Scanning

variable {d : ByteArray} {t : ConstantTable}

/-- The attributes in front may have noted places, which stay unless a later attribute
has the name. -/
theorem scanEach_attributes {attributes : List AttributeInfo}
    (fits : ∀ x ∈ attributes, x.Fits t) {offset : Nat}
    (held : HoldsAt d offset (attributes.flatMap AttributeInfo.encode))
    {earlier : AttributeKind → Option Text} {a : AttributeLocations}
    (noted : ∀ k, Option.Rel (LocatedAt d) (earlier k) (a.place k)) :
    ∃ a', AttributeLocations.scanEach d t attributes.length offset a =
        .ok (a', offset + (attributes.flatMap AttributeInfo.encode).length) ∧
      (∀ k, Option.Rel (LocatedAt d) ((lastInfo t k.name attributes).or (earlier k))
        (a'.place k)) ∧
      a'.deprecated = (a.deprecated || marksDeprecated t attributes) := by
  induction attributes generalizing offset earlier a with
  | nil =>
    refine ⟨a, rfl, ?_, ?_⟩
    · intro k
      exact noted k
    · exact (Bool.or_false _).symm
  | cons x attributes ih =>
    obtain ⟨⟨name, hname, shortest⟩, short⟩ := fits x List.mem_cons_self
    rw [List.flatMap_cons] at held
    have item := held.left
    have located : LocatedAt d x.info (offset + 2 + 4) :=
      ⟨item.right.right, short, offset + 2, rfl, item.right.left⟩
    have noted' : ∀ k, Option.Rel (LocatedAt d)
        (if name = k.name then some x.info else earlier k)
        ((a.note name (offset + 2 + 4)).place k) := by
      intro k
      rw [AttributeLocations.place_note]
      split
      · exact .some located
      · exact noted k
    obtain ⟨a', scanned, places, deprecated⟩ :=
      ih (fun y hy => fits y (List.mem_cons_of_mem x hy)) held.right noted'
    refine ⟨a', ?_, ?_, ?_⟩
    · rw [List.length_cons, AttributeLocations.scanEach]
      refine bind_eq_ok.mpr ⟨_, scanU2_eq_ok.mpr ⟨item.left, rfl⟩, ?_⟩
      refine bind_eq_ok.mpr ⟨_, scanU4_eq_ok.mpr ⟨item.right.left, rfl⟩, ?_⟩
      refine bind_eq_ok.mpr ⟨name, hname, ?_⟩
      rw [toNat_toUInt32 short]
      refine bind_eq_ok.mpr ⟨_, skipBytes_eq_ok.mpr ⟨located.1.le, rfl⟩, ?_⟩
      rw [if_neg (Nat.not_lt.mpr shortest)]
      have stop : offset + x.encode.length = offset + 2 + 4 + x.info.length := by
        simp only [AttributeInfo.encode, List.length_append, length_bytesU2, length_bytesU4]
        omega
      rw [stop] at scanned
      rw [scanned, List.flatMap_cons, List.length_append, ← Nat.add_assoc, stop]
    · intro k
      have := places k
      rw [lastInfo_cons hname, Option.or_assoc]
      split at this
      · next same => rwa [if_pos same]
      · next differs => rwa [if_neg differs]
    · rw [deprecated, AttributeLocations.deprecated_note, Bool.or_assoc, marksDeprecated,
        marksDeprecated, infosNamed_cons hname]
      by_cases same : name = Text.ascii "Deprecated"
      · simp [same]
      · rw [if_neg same, beq_eq_false_iff_ne.mpr same, Bool.false_or, List.nil_append]

/-- A list of attributes is gone through to its end, and noted. -/
theorem scan_attributes {attributes : List AttributeInfo} (fits : ∀ x ∈ attributes, x.Fits t)
    (count : attributes.length ≤ 0xFFFF) {offset : Nat}
    (held : HoldsAt d offset (encodeTable AttributeInfo.encode attributes)) :
    ∃ a, AttributeLocations.scan d t offset =
        .ok (a, offset + (encodeTable AttributeInfo.encode attributes).length) ∧
      NotedIn d t attributes a := by
  have nothing : ∀ k, Option.Rel (LocatedAt d) none (AttributeLocations.place {} k) := by
    intro k
    rcases k with _ | _ | _ | _ | _ | _ <;> try cases ‹Bool›
    all_goals exact .none
  obtain ⟨a, scanned, places, deprecated⟩ := scanEach_attributes fits held.right nothing
  refine ⟨a, ?_, ?_, ?_⟩
  · refine bind_eq_ok.mpr ⟨_, scanU2_eq_ok.mpr ⟨held.left, rfl⟩, ?_⟩
    simp only [toNat_toUInt16 count]
    rw [length_bytesU2] at scanned
    rw [scanned, encodeTable, List.length_append, length_bytesU2, Nat.add_assoc]
  · intro k
    have := places k
    rwa [Option.or_none] at this
  · rw [deprecated]
    exact Bool.false_or _

/-! ## Going through members -/

/-- A field or method that a class file can have. -/
structure MemberInfo.Fits (t : ConstantTable) (m : MemberInfo) : Prop where
  attributes : ∀ a ∈ m.attributes, a.Fits t
  count : m.attributes.length ≤ 0xFFFF

/-- The layout is that of the member. -/
structure LaidOut (d : ByteArray) (t : ConstantTable) (m : MemberInfo) (l : MemberLayout) :
    Prop where
  flags : l.flags = m.flags
  name : l.name = m.name
  descriptor : l.descriptor = m.descriptor
  attributes : NotedIn d t m.attributes l.attributes

theorem scan_member {m : MemberInfo} (fits : m.Fits t) {offset : Nat}
    (held : HoldsAt d offset m.encode) :
    ∃ l, MemberLayout.scan d t offset = .ok (l, offset + m.encode.length) ∧ LaidOut d t m l := by
  have flags := held.left
  have name := held.right.left
  have descriptor := held.right.right.left
  obtain ⟨a, scanned, noted⟩ := scan_attributes fits.attributes fits.count held.right.right.right
  have room : offset + 6 ≤ d.size := descriptor.le
  refine ⟨⟨m.flags, m.name, m.descriptor, a⟩, ?_, rfl, rfl, rfl, noted⟩
  refine bind_eq_ok.mpr ⟨_, skipBytes_eq_ok.mpr ⟨room, rfl⟩, ?_⟩
  refine bind_eq_ok.mpr ⟨_, scanU2_eq_ok.mpr ⟨flags, rfl⟩, ?_⟩
  refine bind_eq_ok.mpr ⟨_, scanU2_eq_ok.mpr ⟨name, rfl⟩, ?_⟩
  refine bind_eq_ok.mpr ⟨_, scanU2_eq_ok.mpr ⟨descriptor, rfl⟩, ?_⟩
  refine bind_eq_ok.mpr ⟨_, scanned, ?_⟩
  simp only [MemberInfo.encode, List.length_append, length_bytesU2, Nat.add_assoc]
  rfl

theorem scanEach_members {ms : List MemberInfo} (fits : ∀ m ∈ ms, m.Fits t) {offset : Nat}
    (held : HoldsAt d offset (ms.flatMap MemberInfo.encode)) (before : Array MemberLayout) :
    ∃ ls, scanEach (MemberLayout.scan d t) ms.length offset before =
        .ok (before ++ ls.toArray, offset + (ms.flatMap MemberInfo.encode).length) ∧
      List.Forall₂ (LaidOut d t) ms ls := by
  induction ms generalizing offset before with
  | nil => exact ⟨[], by simp [scanEach], .nil⟩
  | cons m ms ih =>
    rw [List.flatMap_cons] at held
    obtain ⟨l, item, laidOut⟩ := scan_member (fits m List.mem_cons_self) held.left
    obtain ⟨ls, scanned, others⟩ :=
      ih (fun x hx => fits x (List.mem_cons_of_mem m hx)) held.right (before.push l)
    refine ⟨l :: ls, ?_, .cons laidOut others⟩
    rw [List.length_cons, scanEach, item]
    simp only
    rw [scanned, List.flatMap_cons, List.length_append, Nat.add_assoc]
    simp

/-- A list of members is gone through to its end. -/
theorem scanAll_members {ms : List MemberInfo} (fits : ∀ m ∈ ms, m.Fits t)
    (count : ms.length ≤ 0xFFFF) {offset : Nat}
    (held : HoldsAt d offset (encodeTable MemberInfo.encode ms)) :
    ∃ ls, MemberLayout.scanAll d t offset =
        .ok (ls, offset + (encodeTable MemberInfo.encode ms).length) ∧
      List.Forall₂ (LaidOut d t) ms ls.toList := by
  obtain ⟨ls, scanned, laidOut⟩ := scanEach_members fits held.right #[]
  refine ⟨ls.toArray, ?_, laidOut⟩
  refine bind_eq_ok.mpr ⟨_, scanU2_eq_ok.mpr ⟨held.left, rfl⟩, ?_⟩
  simp only [toNat_toUInt16 count]
  rw [length_bytesU2] at scanned
  rw [scanned, encodeTable, List.length_append, length_bytesU2, Nat.add_assoc,
    Array.empty_append]

end Scanning

end ClassAbi
