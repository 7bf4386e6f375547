import ClassAbi.Proofs.FoundLayouts

/-!
# Attributes carried to another file

What is read of an attribute are the bytes that encode it, from the place where its
contents begin.  If these bytes also stand at the place that another file notes, the
same is read there.  So a file whose layout is that of another, with the contents of
the attributes that are read carried along, delivers the same.

The attributes that are read depend on their owner (`AttributeKind.readFor`).
-/

namespace ClassAbi

/-! ## Owners of attributes -/

/-- What an attribute can belong to. -/
inductive AttributeOwner where
  /-- The class. -/
  | classFile
  /-- A field. -/
  | field
  /-- A method. -/
  | method
deriving DecidableEq, Repr

/-- Attributes of the kind are read if they belong to this owner.  Elsewhere they are noted
and left alone. -/
def AttributeKind.readFor : AttributeKind → AttributeOwner → Bool
  | signature, _ | annotations _, _ => true
  | constantValue, .field => true
  | exceptions, .method | annotationDefault, .method | parameterAnnotations _, .method => true
  | _, _ => false

/-! ## Deliveries that extend others -/

/-- What the first delivers when it succeeds, the second delivers as well. -/
def Delivery.Extends {α : Type} (m n : Delivery α) : Prop :=
  ∀ events a, m = ⟨events, .ok a⟩ → n = ⟨events, .ok a⟩

namespace Delivery.Extends

variable {α β σ : Type}

theorem refl (m : Delivery α) : m.Extends m := fun _ _ h => h

theorem ofExcept {r s : Except ReadError α} (h : ∀ {a}, r = .ok a → s = .ok a) :
    (Delivery.ofExcept r).Extends (.ofExcept s) := by
  intro events a h'
  obtain ⟨rfl, ok⟩ := Delivery.ofExcept_eq_ok.mp h'
  exact Delivery.ofExcept_eq_ok.mpr ⟨rfl, h ok⟩

theorem bind {m n : Delivery α} {f g : α → Delivery β} (h : m.Extends n)
    (next : ∀ a, (f a).Extends (g a)) : (m >>= f).Extends (n >>= g) := by
  intro events b h'
  obtain ⟨first, a, second, ok, behind, rfl⟩ := Delivery.bind_eq_ok.mp h'
  exact Delivery.ok_then (h _ _ ok) (next a _ _ behind)

theorem fold {τ υ : Type} {r : τ → υ → Prop} (part : σ → τ → Delivery σ)
    (part' : σ → υ → Delivery σ) (each : ∀ {a b}, r a b → ∀ s, (part s a).Extends (part' s b))
    {as : List τ} {bs : List υ} (h : List.Forall₂ r as bs) (s : σ) :
    (Delivery.fold part s as).Extends (Delivery.fold part' s bs) := by
  induction h generalizing s with
  | nil => exact refl _
  | cons first _ ih =>
    rw [fold_cons, fold_cons]
    exact (each first s).bind ih

end Delivery.Extends

/-! ## Contents that are carried -/

/-- Contents of the kind that stand at the first place also stand at the second. -/
def CarriedAt (d d' : ByteArray) (t : ConstantTable) (k : AttributeKind)
    (place place' : Option Nat) : Prop :=
  Option.Rel (fun offset offset' =>
    ∀ bs, k.Encodes t bs → HoldsAt d offset bs → HoldsAt d' offset' bs) place place'

/-- The attributes of an owner are carried, as far as they are read. -/
structure AttributeLocations.CarriedTo (d d' : ByteArray) (t : ConstantTable)
    (owner : AttributeOwner) (a a' : AttributeLocations) : Prop where
  place : ∀ k : AttributeKind, k.readFor owner → CarriedAt d d' t k (a.place k) (a'.place k)
  deprecated : a'.deprecated = a.deprecated

/-- A field or method is carried with its attributes. -/
structure MemberLayout.CarriedTo (d d' : ByteArray) (t : ConstantTable) (owner : AttributeOwner)
    (m m' : MemberLayout) : Prop where
  flags : m'.flags = m.flags
  name : m'.name = m.name
  descriptor : m'.descriptor = m.descriptor
  attributes : m.attributes.CarriedTo d d' t owner m'.attributes

/-- A class is carried with its members and attributes. -/
structure ClassLayout.CarriedTo (d d' : ByteArray) (l l' : ClassLayout) : Prop where
  table : l'.table = l.table
  header : l'.header = l.header
  attributes : l.attributes.CarriedTo d d' l.table .classFile l'.attributes
  fields : List.Forall₂ (MemberLayout.CarriedTo d d' l.table .field) l.fields.toList
    l'.fields.toList
  methods : List.Forall₂ (MemberLayout.CarriedTo d d' l.table .method) l.methods.toList
    l'.methods.toList

section Reading

variable {d d' : ByteArray} {t : ConstantTable} {place place' : Option Nat}

theorem signatureAt_of_carried {s : Option Text} (carried : CarriedAt d d' t .signature place place')
    (h : signatureAt d t place = .ok s) : signatureAt d' t place' = .ok s := by
  cases carried with
  | none => exact h
  | some carried =>
    obtain ⟨⟨value, stop⟩, ref, h⟩ := bind_eq_ok.mp h
    obtain ⟨rfl, i, held, found⟩ := scanUtf8Ref_eq_ok.mp ref
    have held' := carried _ ⟨value, i, found, rfl⟩ held
    exact bind_eq_ok.mpr ⟨(value, _), scanUtf8Ref_eq_ok.mpr ⟨rfl, i, held', found⟩, h⟩

theorem constantValueAt_of_carried {descriptor : Text} {c : Option Constant}
    (carried : CarriedAt d d' t .constantValue place place')
    (h : constantValueAt d t descriptor place = .ok c) :
    constantValueAt d' t descriptor place' = .ok c := by
  cases carried with
  | none => exact h
  | some carried =>
    obtain ⟨⟨index, stop⟩, number, h⟩ := bind_eq_ok.mp h
    obtain ⟨held, rfl⟩ := scanU2_eq_ok.mp number
    have held' := carried _ ⟨index, rfl⟩ held
    exact bind_eq_ok.mpr ⟨(index, _), scanU2_eq_ok.mpr ⟨held', rfl⟩, h⟩

theorem exceptionsAt_of_carried {names : Option (List Text)}
    (carried : CarriedAt d d' t .exceptions place place')
    (h : exceptionsAt d t place = .ok names) : exceptionsAt d' t place' = .ok names := by
  cases carried with
  | none => exact h
  | some carried =>
    obtain ⟨⟨value, stop⟩, refs, h⟩ := bind_eq_ok.mp h
    obtain ⟨bs, encoded, held, rfl⟩ := scanClassRefs_eq_ok.mp refs
    have held' := carried bs ⟨value, encoded⟩ held
    exact bind_eq_ok.mpr ⟨(value, _), scanClassRefs_eq_ok.mpr ⟨bs, encoded, held', rfl⟩, h⟩

theorem readAnnotationsAt_extends {opening : Text → Bool → Event} {visible : Bool}
    (carried : CarriedAt d d' t (.annotations visible) place place') :
    (readAnnotationsAt d t (opening · visible) place).Extends
      (readAnnotationsAt d' t (opening · visible) place') := by
  cases carried with
  | none => exact .refl _
  | some carried =>
    intro events u h
    obtain ⟨first, stop, second, read, behind, rfl⟩ := Delivery.bind_eq_ok.mp h
    obtain ⟨as, bs, encoded, held, -, rfl⟩ := readAnnotations_eq_ok.mp read
    have held' := carried bs ⟨as, encoded⟩ held
    exact Delivery.ok_then (readAnnotations_eq_ok.mpr ⟨as, bs, encoded, held', rfl, rfl⟩) behind

theorem readParameterAnnotationsAt_extends {visible : Bool}
    (carried : CarriedAt d d' t (.parameterAnnotations visible) place place') :
    (readParameterAnnotationsAt d t visible place).Extends
      (readParameterAnnotationsAt d' t visible place') := by
  cases carried with
  | none => exact .refl _
  | some carried =>
    intro events u h
    obtain ⟨first, stop, second, read, behind, rfl⟩ := Delivery.bind_eq_ok.mp h
    obtain ⟨tables, bs, encoded, held, -, rfl⟩ := readParameterAnnotations_eq_ok.mp read
    have held' := carried bs ⟨tables, encoded⟩ held
    exact Delivery.ok_then
      (readParameterAnnotations_eq_ok.mpr ⟨tables, bs, encoded, held', rfl, rfl⟩) behind

theorem readDefaultAt_extends (carried : CarriedAt d d' t .annotationDefault place place') :
    (readDefaultAt d t place).Extends (readDefaultAt d' t place') := by
  cases carried with
  | none => exact .refl _
  | some carried =>
    refine .bind (.refl _) fun _ => ?_
    intro events u h
    obtain ⟨first, stop, second, read, behind, rfl⟩ := Delivery.bind_eq_ok.mp h
    obtain ⟨v, bs, encoded, held, -, rfl⟩ := readOuterValue_eq_ok.mp read
    have held' := carried bs ⟨v, encoded⟩ held
    exact Delivery.ok_then (readOuterValue_eq_ok.mpr ⟨v, bs, encoded, held', rfl, rfl⟩) behind

variable {m m' : MemberLayout}

theorem readField_extends (carried : m.CarriedTo d d' t .field m') :
    (readField d t m).Extends (readField d' t m') := by
  have places := carried.attributes.place
  refine .bind (.ofExcept ?_) fun _ => .bind (.refl _) fun _ => ?_
  · intro h header
    simp only [fieldHeader, bind_eq_ok, carried.flags, carried.name, carried.descriptor,
      carried.attributes.deprecated] at header ⊢
    obtain ⟨name, named, descriptor, described, s, signature, c, value, header⟩ := header
    exact ⟨name, named, descriptor, described, s,
      signatureAt_of_carried (places .signature rfl) signature, c,
      constantValueAt_of_carried (places .constantValue rfl) value, header⟩
  · exact .bind (readAnnotationsAt_extends (places (.annotations true) rfl)) fun _ =>
      .bind (readAnnotationsAt_extends (places (.annotations false) rfl)) fun _ => .refl _

theorem readMethod_extends (carried : m.CarriedTo d d' t .method m') :
    (readMethod d t m).Extends (readMethod d' t m') := by
  have places := carried.attributes.place
  refine .bind (.ofExcept ?_) fun _ => .bind (.refl _) fun _ => ?_
  · intro h header
    simp only [methodHeader, bind_eq_ok, carried.flags, carried.name, carried.descriptor,
      carried.attributes.deprecated] at header ⊢
    obtain ⟨name, named, descriptor, described, s, signature, names, exceptions, header⟩ := header
    exact ⟨name, named, descriptor, described, s,
      signatureAt_of_carried (places .signature rfl) signature, names,
      exceptionsAt_of_carried (places .exceptions rfl) exceptions, header⟩
  · refine .bind (readDefaultAt_extends (places .annotationDefault rfl)) fun _ => ?_
    refine .bind (readAnnotationsAt_extends (places (.annotations true) rfl)) fun _ => ?_
    refine .bind (readAnnotationsAt_extends (places (.annotations false) rfl)) fun _ => ?_
    refine .bind (readParameterAnnotationsAt_extends (places (.parameterAnnotations true) rfl))
      fun _ => ?_
    exact .bind (readParameterAnnotationsAt_extends (places (.parameterAnnotations false) rfl))
      fun _ => .refl _

theorem ClassLayout.CarriedTo.read_extends {l l' : ClassLayout} (carried : l.CarriedTo d d' l') :
    (l.read d).Extends (l'.read d') := by
  have places := carried.attributes.place
  rw [ClassLayout.read, ClassLayout.read, carried.header, carried.table]
  refine .bind (.refl _) fun _ => ?_
  refine .bind (readAnnotationsAt_extends (places (.annotations true) rfl)) fun _ => ?_
  refine .bind (readAnnotationsAt_extends (places (.annotations false) rfl)) fun _ => ?_
  have fields := Delivery.Extends.fold (fun _ m => readField d l.table m)
    (fun _ m => readField d' l.table m) (fun field _ => readField_extends field) carried.fields ()
  have methods := Delivery.Extends.fold (fun _ m => readMethod d l.table m)
    (fun _ m => readMethod d' l.table m) (fun method _ => readMethod_extends method)
    carried.methods ()
  exact .bind fields fun _ => .bind methods fun _ => .refl _

end Reading

theorem readClass_eq_ok {d : ByteArray} {events : List Event} :
    readClass d = ⟨events, .ok ()⟩ ↔
      ∃ l, ClassLayout.scan d = .ok l ∧ l.read d = ⟨events, .ok ()⟩ := by
  rw [readClass, Delivery.bind_eq_ok]
  constructor
  · rintro ⟨_, l, _, first, read, rfl⟩
    obtain ⟨rfl, scanned⟩ := Delivery.ofExcept_eq_ok.mp first
    exact ⟨l, scanned, read⟩
  · rintro ⟨l, scanned, read⟩
    exact ⟨[], l, events, Delivery.ofExcept_eq_ok.mpr ⟨rfl, scanned⟩, read, rfl⟩

end ClassAbi
