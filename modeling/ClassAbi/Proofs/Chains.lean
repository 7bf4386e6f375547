import ClassAbi.ClassFile.Delivery
import Mathlib.Data.List.Forall2

/-!
# Chains of steps that can fail

Reading and writing are chains of steps, each of which gives a value or ends
the chain.  A chain that succeeds is a chain of successes, so its result is
described by what each step gave.  The lemmas here take a successful chain
apart, for `Except` and for deliveries, and put one together.

`Delivery.ok_then` puts two successful deliveries together.  The events of a longer
chain come out as one append for each step.

Where each item of a list gives a value of its own, the items and the values stand side
by side.
-/

namespace ClassAbi

/-! ## Values or failures -/

theorem bind_eq_ok {ε α β : Type} {x : Except ε α} {f : α → Except ε β} {b : β} :
    x >>= f = .ok b ↔ ∃ a, x = .ok a ∧ f a = .ok b := by
  cases x with
  | error e =>
    constructor
    · intro h
      cases h
    · rintro ⟨a, h, -⟩
      cases h
  | ok a =>
    constructor
    · intro h
      exact ⟨a, rfl, h⟩
    · rintro ⟨a', h, h'⟩
      cases h
      exact h'

theorem bind_eq_error {ε α β : Type} {x : Except ε α} {f : α → Except ε β} {e : ε} :
    x >>= f = .error e ↔ x = .error e ∨ ∃ a, x = .ok a ∧ f a = .error e := by
  cases x with
  | error e' => simp [Bind.bind, Except.bind]
  | ok a => simp [Bind.bind, Except.bind]

theorem pure_eq_ok {ε α : Type} {a b : α} : (pure a : Except ε α) = .ok b ↔ a = b := by
  constructor
  · intro h
    cases h
    rfl
  · rintro rfl
    rfl

theorem toOption_eq_some {ε α : Type} {r : Except ε α} {a : α} :
    r.toOption = some a ↔ r = .ok a := by
  cases r <;> simp [Except.toOption]

theorem mapError_eq_ok {ε ε' α : Type} {f : ε → ε'} {x : Except ε α} {a : α} :
    x.mapError f = .ok a ↔ x = .ok a := by
  cases x <;> simp [Except.mapError]

theorem ok_bind {ε α β : Type} (a : α) (f : α → Except ε β) : (.ok a : Except ε α) >>= f = f a :=
  rfl

/-! ## Deliveries -/

namespace Delivery

theorem ext {α : Type} {m n : Delivery α} (events : m.events = n.events)
    (result : m.result = n.result) : m = n := by
  cases m
  cases n
  cases events
  cases result
  rfl

theorem ok_bind {α β : Type} (events : List Event) (a : α) (f : α → Delivery β) :
    (⟨events, .ok a⟩ : Delivery α) >>= f = ⟨events ++ (f a).events, (f a).result⟩ :=
  rfl

theorem ofExcept_ok {α : Type} (a : α) : ofExcept (.ok a) = ⟨[], .ok a⟩ := rfl

theorem ofExcept_eq_ok {α : Type} {r : Except ReadError α} {events : List Event} {a : α} :
    ofExcept r = ⟨events, .ok a⟩ ↔ events = [] ∧ r = .ok a := by
  simp [ofExcept, eq_comm]

theorem pure_eq_ok {α : Type} {events : List Event} {a b : α} :
    (Pure.pure a : Delivery α) = ⟨events, .ok b⟩ ↔ events = [] ∧ a = b := by
  simp [Pure.pure, Delivery.pure, eq_comm]

theorem deliver_eq_ok {e : Event} {events : List Event} {u : Unit} :
    deliver e = ⟨events, .ok u⟩ ↔ events = [e] := by
  simp [deliver, eq_comm]

/-- A delivery in two parts succeeds with the events of both. -/
theorem bind_eq_ok {α β : Type} {m : Delivery α} {f : α → Delivery β} {events : List Event}
    {b : β} :
    m >>= f = ⟨events, .ok b⟩ ↔
      ∃ first a second, m = ⟨first, .ok a⟩ ∧ f a = ⟨second, .ok b⟩ ∧ events = first ++ second := by
  obtain ⟨first, result⟩ := m
  cases result with
  | error e =>
    constructor
    · intro h
      injection h with _ h
      cases h
    · rintro ⟨first', a, second, h, -⟩
      injection h with _ h
      cases h
  | ok a =>
    rw [ok_bind]
    constructor
    · intro h
      injection h with hevents hresult
      exact ⟨first, a, (f a).events, rfl, ext rfl hresult, hevents.symm⟩
    · rintro ⟨first', a', second, h, h', rfl⟩
      cases h
      rw [h']

theorem ok_then {α β : Type} {m : Delivery α} {f : α → Delivery β} {first second : List Event}
    {a : α} {b : β} (h : m = ⟨first, .ok a⟩) (h' : f a = ⟨second, .ok b⟩) :
    m >>= f = ⟨first ++ second, .ok b⟩ :=
  bind_eq_ok.mpr ⟨first, a, second, h, h', rfl⟩

/-- Taking a part and then the rest of a fold. -/
theorem fold_cons_eq_ok {σ α : Type} {part : σ → α → Delivery σ} {s stop : σ} {a : α}
    {items : List α} {events : List Event} :
    fold part s (a :: items) = ⟨events, .ok stop⟩ ↔
      ∃ first s' second, part s a = ⟨first, .ok s'⟩ ∧
        fold part s' items = ⟨second, .ok stop⟩ ∧ events = first ++ second := by
  rw [fold_cons]
  exact bind_eq_ok (m := part s a)

theorem fold_nil_eq_ok {σ α : Type} {part : σ → α → Delivery σ} {s stop : σ}
    {events : List Event} :
    fold part s [] = ⟨events, .ok stop⟩ ↔ events = [] ∧ s = stop := by
  rw [fold_nil]
  exact pure_eq_ok

end Delivery

/-! ## Lists side by side -/

theorem exists_forall₂ {α β : Type} {r : α → β → Prop} {as : List α}
    (h : ∀ a ∈ as, ∃ b, r a b) : ∃ bs, List.Forall₂ r as bs := by
  induction as with
  | nil => exact ⟨[], .nil⟩
  | cons a as ih =>
    obtain ⟨b, first⟩ := h a List.mem_cons_self
    obtain ⟨bs, others⟩ := ih fun x mem => h x (List.mem_cons_of_mem a mem)
    exact ⟨b :: bs, .cons first others⟩

theorem exists_left_of_forall₂ {α β : Type} {r : α → β → Prop} {as : List α} {bs : List β}
    (h : List.Forall₂ r as bs) {b : β} (mem : b ∈ bs) : ∃ a ∈ as, r a b := by
  induction h with
  | nil => cases mem
  | cons first _ ih =>
    obtain rfl | mem := List.mem_cons.mp mem
    · exact ⟨_, List.mem_cons_self, first⟩
    · obtain ⟨a, here, related⟩ := ih mem
      exact ⟨a, List.mem_cons_of_mem _ here, related⟩

/-- Only what is said of the items that are there matters. -/
theorem forall₂_imp_mem {α β : Type} {r r' : α → β → Prop} {as : List α} {bs : List β}
    (h : List.Forall₂ r as bs) (imp : ∀ b ∈ bs, ∀ a, r a b → r' a b) : List.Forall₂ r' as bs := by
  induction h with
  | nil => exact .nil
  | cons first _ ih =>
    exact .cons (imp _ List.mem_cons_self _ first)
      (ih fun b mem => imp b (List.mem_cons_of_mem _ mem))

end ClassAbi
