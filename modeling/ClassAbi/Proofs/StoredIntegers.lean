import ClassAbi.Proofs.StorableDeclarations
import ClassAbi.Proofs.StoredValues

/-!
# Integers that are told as they are stored

A delivery `Tells` a property of events if every event that it delivers has it,
whether it succeeds or not.

Of the constants that are stored as 32-bit integers, the small kinds keep only a
part of the number.  A constant of the kind `int` keeps all of it, so every `int`
that a reader tells stands in the constant pool (`ClassLayout.read_tells`).
-/

namespace ClassAbi

/-! ## Properties of what is told -/

namespace Delivery

variable {α β : Type} {P : Event → Prop} {m : Delivery α}

/-- Every event that is delivered has the property. -/
def Tells (m : Delivery α) (P : Event → Prop) : Prop := ∀ e ∈ m.events, P e

theorem tells_pure (a : α) : (Pure.pure a : Delivery α).Tells P := List.forall_mem_nil P

theorem tells_fail (e : ReadError) : (fail e : Delivery α).Tells P := List.forall_mem_nil P

theorem tells_ofExcept (r : Except ReadError α) : (ofExcept r).Tells P := List.forall_mem_nil P

theorem tells_deliver {e : Event} (h : P e) : (deliver e).Tells P := by
  simpa [Tells, deliver] using h

theorem Tells.bind {f : α → Delivery β} (h : m.Tells P)
    (h' : ∀ a, m.result = .ok a → (f a).Tells P) : (m >>= f).Tells P := by
  intro e mem
  cases result : m.result with
  | error err =>
    have failed : (m >>= f).events = m.events := by simp [Bind.bind, Delivery.bind, result]
    exact h e (failed ▸ mem)
  | ok a =>
    have both : (m >>= f).events = m.events ++ (f a).events := by
      simp [Bind.bind, Delivery.bind, result]
    rw [both] at mem
    exact (List.mem_append.mp mem).elim (h e) (h' a result e)

theorem tells_fold {σ : Type} {part : σ → α → Delivery σ} (h : ∀ s a, (part s a).Tells P)
    (s : σ) (items : List α) : (fold part s items).Tells P := by
  induction items generalizing s with
  | nil => exact tells_pure s
  | cons a items ih =>
    rw [fold_cons]
    exact (h s a).bind fun s _ => ih s

end Delivery

/-! ## What the reader tells -/

/-- If the event tells an `int`, the number is an entry of the table. -/
def Event.IntsFrom (t : ConstantTable) (e : Event) : Prop :=
  ∀ v, e.constant? = some (.int v) → .integer v.toUInt32 ∈ t

section Reading

variable {d : ByteArray} {t : ConstantTable}

theorem Event.intsFrom_of_none {e : Event} (h : e.constant? = none) : e.IntsFrom t := by
  intro v told
  rw [h] at told
  cases told

namespace ConstantTable

theorem mem_of_entryAt {i : UInt16} {e : TableEntry} (h : t.entryAt i = .ok e) : e ∈ t :=
  Array.mem_of_getElem? (entryAt_eq_ok.mp h).2

theorem integerAt_eq_ok {i : UInt16} {v : Int32} :
    t.integerAt i = .ok v ↔ t.entryAt i = .ok (.integer v.toUInt32) := by
  rw [integerAt, bind_eq_ok]
  constructor
  · rintro ⟨e, found, picked⟩
    cases e <;> cases picked
    simpa using found
  · intro found
    exact ⟨_, found, by simp [pure_eq_ok]⟩

/-- A tag that makes an `int` of a number keeps the number. -/
theorem eq_of_ofIntegerTag?_int {tag : UInt8} {v w : Int32}
    (h : Constant.ofIntegerTag? tag w = some (.int v)) : v = w := by
  obtain rfl : 73 = tag := (Constant.tag_of_ofIntegerTag? h).1
  cases h
  rfl

/-- An `int` of an annotation is the integer that is stored. -/
theorem mem_of_hasElement_int {i : UInt16} {v : Int32} (h : t.HasElement i (.int v)) :
    .integer v.toUInt32 ∈ t := by
  obtain ⟨w, found, kind⟩ := h
  rw [eq_of_ofIntegerTag?_int kind]
  exact mem_of_entryAt (integerAt_eq_ok.mp found)

/-- An `int` that a field begins with is the integer that is stored. -/
theorem mem_of_constantAt_int {descriptor : Text} {i : UInt16} {v : Int32}
    (h : t.constantAt descriptor i = .ok (.int v)) : .integer v.toUInt32 ∈ t := by
  obtain ⟨e, found, picked⟩ := bind_eq_ok.mp h
  cases e with
  | integer w =>
    have kind := Constant.ofFieldInteger_eq descriptor w.toInt32
    rw [Except.ok.inj picked] at kind
    rw [eq_of_ofIntegerTag?_int kind]
    exact mem_of_entryAt found
  | string j =>
    obtain ⟨_, -, picked⟩ := bind_eq_ok.mp picked
    cases picked
  | _ => cases picked

end ConstantTable

/-! ## Annotations -/

theorem readUtf8Ref_tells {P : Event → Prop} (d : ByteArray) (t : ConstantTable) (offset : Nat) :
    (readUtf8Ref d t offset).Tells P :=
  Delivery.tells_ofExcept _

theorem tells_deliver_of_none {e : Event} (h : e.constant? = none) :
    (Delivery.deliver e).Tells (Event.IntsFrom t) :=
  Delivery.tells_deliver (Event.intsFrom_of_none h)

theorem readNamedValues_tells {readValue : Text → Nat → Delivery Nat}
    (h : ∀ name offset, (readValue name offset).Tells (Event.IntsFrom t)) (offset : Nat) :
    (readNamedValues d t readValue offset).Tells (Event.IntsFrom t) :=
  (Delivery.tells_ofExcept _).bind fun _ _ =>
    (Delivery.tells_fold (fun _ _ => (readUtf8Ref_tells d t _).bind fun _ _ => h _ _) _ _).bind
      fun _ _ => (tells_deliver_of_none rfl).bind fun _ _ => Delivery.tells_pure _

theorem readElements_tells {readValue : Text → Nat → Delivery Nat}
    (h : ∀ name offset, (readValue name offset).Tells (Event.IntsFrom t)) (count offset : Nat) :
    (readElements readValue count offset).Tells (Event.IntsFrom t) :=
  (Delivery.tells_fold (fun _ _ => h _ _) _ _).bind fun _ _ =>
    (tells_deliver_of_none rfl).bind fun _ _ => Delivery.tells_pure _

theorem readValue_tells (d : ByteArray) (t : ConstantTable) (levels : Nat) (name : Text)
    (offset : Nat) : (readValue d t levels name offset).Tells (Event.IntsFrom t) := by
  induction levels generalizing name offset with
  | zero => exact Delivery.tells_fail _
  | succ levels ih =>
    rw [readValue]
    refine (Delivery.tells_ofExcept _).bind fun x _ => ?_
    obtain ⟨tag, start⟩ := x
    dsimp only
    split
    · next lookup hlookup =>
      refine (Delivery.tells_ofExcept _).bind fun c scanned => ?_
      obtain ⟨-, -, i, -, found⟩ := (scanElement_eq_ok hlookup).mp scanned
      refine (Delivery.tells_deliver fun v told => ?_).bind fun _ _ => Delivery.tells_pure _
      rw [Option.some.inj told] at found
      exact ConstantTable.mem_of_hasElement_int found
    split
    · exact (readUtf8Ref_tells d t _).bind fun _ _ => (readUtf8Ref_tells d t _).bind fun _ _ =>
        (tells_deliver_of_none rfl).bind fun _ _ => Delivery.tells_pure _
    split
    · exact (readUtf8Ref_tells d t _).bind fun _ _ => (tells_deliver_of_none rfl).bind fun _ _ =>
        readNamedValues_tells ih _
    split
    · exact (Delivery.tells_ofExcept _).bind fun _ _ => (tells_deliver_of_none rfl).bind fun _ _ =>
        readElements_tells ih _ _
    · exact Delivery.tells_fail _

theorem readAnnotations_tells (d : ByteArray) (t : ConstantTable) {opening : Text → Event}
    (h : ∀ descriptor, (opening descriptor).constant? = none) (offset : Nat) :
    (readAnnotations d t opening offset).Tells (Event.IntsFrom t) :=
  (Delivery.tells_ofExcept _).bind fun _ _ => Delivery.tells_fold
    (fun _ _ => (readUtf8Ref_tells d t _).bind fun _ _ => (tells_deliver_of_none (h _)).bind
      fun _ _ => readNamedValues_tells (readValue_tells d t _) _) _ _

theorem readAnnotationsAt_tells (d : ByteArray) (t : ConstantTable) {opening : Text → Event}
    (h : ∀ descriptor, (opening descriptor).constant? = none) (place : Option Nat) :
    (readAnnotationsAt d t opening place).Tells (Event.IntsFrom t) := by
  cases place with
  | none => exact Delivery.tells_pure _
  | some offset =>
    exact (readAnnotations_tells d t h offset).bind fun _ _ => Delivery.tells_pure _

theorem readParameterAnnotationsAt_tells (d : ByteArray) (t : ConstantTable) (visible : Bool)
    (place : Option Nat) :
    (readParameterAnnotationsAt d t visible place).Tells (Event.IntsFrom t) := by
  cases place with
  | none => exact Delivery.tells_pure _
  | some offset =>
    refine Delivery.Tells.bind ?_ fun _ _ => Delivery.tells_pure _
    exact (Delivery.tells_ofExcept _).bind fun _ _ => (tells_deliver_of_none rfl).bind fun _ _ =>
      Delivery.tells_fold (fun _ _ => readAnnotations_tells d t (fun _ => rfl) _) _ _

theorem readDefaultAt_tells (d : ByteArray) (t : ConstantTable) (place : Option Nat) :
    (readDefaultAt d t place).Tells (Event.IntsFrom t) := by
  cases place with
  | none => exact Delivery.tells_pure _
  | some offset =>
    exact (tells_deliver_of_none rfl).bind fun _ _ => (readValue_tells d t _ _ _).bind fun _ _ =>
      tells_deliver_of_none rfl

/-! ## Declarations -/

theorem intsFrom_of_fieldHeader {l : MemberLayout} {header : FieldHeader}
    (h : fieldHeader d t l = .ok header) : (Event.field header).IntsFrom t := by
  simp only [fieldHeader, bind_eq_ok, pure_eq_ok] at h
  obtain ⟨_, -, descriptor, -, _, -, value, hvalue, rfl⟩ := h
  intro v told
  obtain rfl : value = some (.int v) := told
  cases place : l.attributes.constantValue with
  | none =>
    rw [place] at hvalue
    cases hvalue
  | some offset =>
    rw [place] at hvalue
    obtain ⟨_, -, hvalue⟩ := bind_eq_ok.mp hvalue
    obtain ⟨c, found, same⟩ := bind_eq_ok.mp hvalue
    cases same
    exact ConstantTable.mem_of_constantAt_int found

theorem readField_tells (d : ByteArray) (t : ConstantTable) (l : MemberLayout) :
    (readField d t l).Tells (Event.IntsFrom t) :=
  (Delivery.tells_ofExcept _).bind fun _ scanned =>
    (Delivery.tells_deliver (intsFrom_of_fieldHeader scanned)).bind fun _ _ =>
      (readAnnotationsAt_tells d t (fun _ => rfl) _).bind fun _ _ =>
        (readAnnotationsAt_tells d t (fun _ => rfl) _).bind fun _ _ => tells_deliver_of_none rfl

theorem readMethod_tells (d : ByteArray) (t : ConstantTable) (l : MemberLayout) :
    (readMethod d t l).Tells (Event.IntsFrom t) :=
  (Delivery.tells_ofExcept _).bind fun _ _ => (tells_deliver_of_none rfl).bind fun _ _ =>
    (readDefaultAt_tells d t _).bind fun _ _ =>
      (readAnnotationsAt_tells d t (fun _ => rfl) _).bind fun _ _ =>
        (readAnnotationsAt_tells d t (fun _ => rfl) _).bind fun _ _ =>
          (readParameterAnnotationsAt_tells d t true _).bind fun _ _ =>
            (readParameterAnnotationsAt_tells d t false _).bind fun _ _ =>
              tells_deliver_of_none rfl

/-- Every `int` that is told of a class is an integer of the constant pool. -/
theorem ClassLayout.read_tells (d : ByteArray) (l : ClassLayout) :
    (l.read d).Tells (Event.IntsFrom l.table) :=
  (tells_deliver_of_none rfl).bind fun _ _ =>
    (readAnnotationsAt_tells d l.table (fun _ => rfl) _).bind fun _ _ =>
      (readAnnotationsAt_tells d l.table (fun _ => rfl) _).bind fun _ _ =>
        (Delivery.tells_fold (fun _ => readField_tells d l.table) _ _).bind fun _ _ =>
          (Delivery.tells_fold (fun _ => readMethod_tells d l.table) _ _).bind fun _ _ =>
            tells_deliver_of_none rfl

end Reading

end ClassAbi
