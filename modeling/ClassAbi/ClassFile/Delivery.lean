import ClassAbi.ClassFile.Event
import ClassAbi.ClassFile.ReadError

/-!
# Deliveries

Reading a class file delivers events, and may end with a problem after some of
them.  A `Delivery` is the events together with how it ended.  Deliveries chain:
the second part begins where the first ended, and does not happen if the first
met a problem.  So the events of a failed delivery are those before the problem.

`Delivery.fold` delivers a part for each item of a list.  It is the chain of
these parts (`fold_nil`, `fold_cons`), built without nesting.
-/

namespace ClassAbi

/-- Events delivered so far, and a result or the problem that ended them. -/
structure Delivery (α : Type) where
  /-- The events in the order of their delivery. -/
  events : List Event
  /-- How it ended. -/
  result : Except ReadError α

namespace Delivery

/-- The delivery of no events. -/
def pure (a : α) : Delivery α := ⟨[], .ok a⟩

/-- A delivery and what its result leads to. -/
def bind (m : Delivery α) (f : α → Delivery β) : Delivery β :=
  match m.result with
  | .ok a => ⟨m.events ++ (f a).events, (f a).result⟩
  | .error e => ⟨m.events, .error e⟩

instance : Monad Delivery where
  pure := pure
  bind := bind

/-- One event. -/
def deliver (e : Event) : Delivery Unit := ⟨[e], .ok ()⟩

/-- A value that may turn out to be a problem. -/
def ofExcept (r : Except ReadError α) : Delivery α := ⟨[], r⟩

/-- A problem. -/
def fail (e : ReadError) : Delivery α := ⟨[], .error e⟩

/-- Behind the events so far, a part for each item, each part beginning with the
result of the one before it. -/
def foldFrom (part : σ → α → Delivery σ) : List α → σ → Array Event → Delivery σ
  | [], s, events => ⟨events.toList, .ok s⟩
  | a :: items, s, events =>
    match part s a with
    | ⟨more, .ok s⟩ => foldFrom part items s (events ++ more)
    | ⟨more, .error e⟩ => ⟨(events ++ more).toList, .error e⟩

/-- A part for each item, each part beginning with the result of the one before
it. -/
def fold (part : σ → α → Delivery σ) (s : σ) (items : List α) : Delivery σ :=
  foldFrom part items s #[]

/-! ## Laws -/

theorem foldFrom_eq (part : σ → α → Delivery σ) (items : List α) (s : σ) (events : Array Event) :
    foldFrom part items s events =
      ⟨events.toList ++ (fold part s items).events, (fold part s items).result⟩ := by
  unfold fold
  induction items generalizing s events with
  | nil => simp [foldFrom]
  | cons a items ih =>
    unfold foldFrom
    split
    · rw [ih, ih _ (#[] ++ _)]
      simp
    · simp

@[simp] theorem fold_nil (part : σ → α → Delivery σ) (s : σ) : fold part s [] = pure s := rfl

theorem fold_cons (part : σ → α → Delivery σ) (s : σ) (a : α) (items : List α) :
    fold part s (a :: items) = (part s a).bind fun s => fold part s items := by
  conv => lhs; unfold fold foldFrom
  split
  · next h => rw [foldFrom_eq, h]; simp [bind]
  · next h => rw [h]; simp [bind]

end Delivery

end ClassAbi
