import ClassAbi.Proofs.Chains
import Mathlib.Computability.Language

/-!
# Deliveries that follow a language

What a reader may deliver is a language of sequences of events.  A delivery
follows the language if it succeeds with a sequence of it, or fails having
delivered the beginning of one (`Delivery.Follows`).  The events of a failed
delivery can only be completed if what was to come has a language that is not
empty, which everything that follows a language shows.

Deliveries that do not depend on each other's results are carried out in turn
(`Delivery.inTurn`).  If one of them fails, those before it have succeeded and
those behind it have delivered nothing (`Delivery.exists_of_inTurn_eq_error`).
-/

namespace ClassAbi

namespace Delivery

variable {α β : Type}

/-! ## Laws of chains -/

theorem id_map_eq (m : Delivery α) : id <$> m = m := by
  obtain ⟨events, error | a⟩ := m
  · rfl
  · exact ext (List.append_nil events) rfl

theorem bind_bind {γ : Type} (m : Delivery α) (f : α → Delivery β) (g : β → Delivery γ) :
    m >>= f >>= g = m >>= fun a => f a >>= g := by
  obtain ⟨events, error | a⟩ := m
  · rfl
  · rw [ok_bind, ok_bind]
    cases h : f a with
    | mk more result =>
      cases result with
      | error e => rfl
      | ok b => exact ext (List.append_assoc ..) rfl

instance : LawfulMonad Delivery := .mk' Delivery id_map_eq (fun _ _ => rfl) bind_bind

/-! ## Following a language -/

/-- A success delivers a sequence of the language, and a failure the beginning of one. -/
def Follows (m : Delivery α) (L : Language Event) : Prop :=
  match m.result with
  | .ok _ => m.events ∈ L
  | .error _ => ∃ full ∈ L, m.events <+: full

section Follows

variable {m : Delivery α} {f : α → Delivery β} {L M N : Language Event}

theorem Follows.nonempty (h : m.Follows L) : ∃ full, full ∈ L := by
  obtain ⟨events, error | a⟩ := m
  · obtain ⟨full, mem, -⟩ := h
    exact ⟨full, mem⟩
  · exact ⟨events, h⟩

theorem Follows.mono (h : m.Follows L) (le : ∀ full ∈ L, full ∈ M) : m.Follows M := by
  obtain ⟨events, error | a⟩ := m
  · obtain ⟨full, mem, begins⟩ := h
    exact ⟨full, le full mem, begins⟩
  · exact le events h

theorem follows_pure (a : α) (nil : [] ∈ L) : (Pure.pure a : Delivery α).Follows L := nil

theorem follows_fail (e : ReadError) {full : List Event} (mem : full ∈ L) :
    (fail e : Delivery α).Follows L :=
  ⟨full, mem, List.nil_prefix⟩

theorem follows_deliver (e : Event) : (deliver e).Follows {[e]} :=
  show [e] ∈ ({[e]} : Language Event) from rfl

/-- Of a chain that fails at its first part, the rest shows how the events could have gone on. -/
theorem Follows.bind [Inhabited α] (h : m.Follows L) (h' : ∀ a, (f a).Follows M)
    (append : ∀ first ∈ L, ∀ second ∈ M, first ++ second ∈ N) : (m >>= f).Follows N := by
  obtain ⟨events, error | a⟩ := m
  · obtain ⟨first, mem, begins⟩ := h
    obtain ⟨second, mem'⟩ := (h' default).nonempty
    exact ⟨first ++ second, append first mem second mem', begins.trans (List.prefix_append ..)⟩
  · rw [ok_bind]
    have rest := h' a
    generalize f a = n at rest
    obtain ⟨more, error | b⟩ := n
    · obtain ⟨second, mem, begins⟩ := rest
      exact ⟨events ++ second, append events h second mem,
        (List.prefix_append_right_inj events).mpr begins⟩
    · exact append events h more rest

theorem Follows.mul [Inhabited α] (h : m.Follows L) (h' : ∀ a, (f a).Follows M) :
    (m >>= f).Follows (L * M) :=
  h.bind h' fun _ mem _ mem' => Language.append_mem_mul mem mem'

/-- What needs a value that may turn out to be a problem. -/
theorem follows_ofExcept_bind [Inhabited α] {r : Except ReadError α}
    (h : ∀ a, (f a).Follows L) : (ofExcept r >>= f).Follows L := by
  cases r with
  | error e =>
    obtain ⟨full, mem⟩ := (h default).nonempty
    exact ⟨full, mem, List.nil_prefix⟩
  | ok a => exact h a

theorem follows_deliver_bind {e : Event} {f : Unit → Delivery β} (h : (f ()).Follows M)
    (cons : ∀ second ∈ M, e :: second ∈ N) : (deliver e >>= f).Follows N := by
  refine (follows_deliver e).bind (fun _ => h) ?_
  rintro _ rfl second mem
  exact cons second mem

/-- A fold follows a language that every part may be put in front of. -/
theorem follows_fold {σ : Type} [Inhabited σ] {part : σ → α → Delivery σ} {items : List α} (s : σ)
    (h : ∀ s, ∀ a ∈ items, (part s a).Follows L) (nil : [] ∈ M)
    (append : ∀ first ∈ L, ∀ second ∈ M, first ++ second ∈ M) : (fold part s items).Follows M := by
  induction items generalizing s with
  | nil => exact nil
  | cons a items ih =>
    rw [fold_cons]
    exact (h s a List.mem_cons_self).bind
      (fun s => ih s fun s b mem => h s b (List.mem_cons_of_mem a mem)) append

end Follows

/-! ## Taking turns -/

/-- One delivery behind the other. -/
def inTurn : List (Delivery Unit) → Delivery Unit
  | [] => Pure.pure ()
  | m :: ms => m >>= fun _ => inTurn ms

theorem inTurn_append (ms ns : List (Delivery Unit)) :
    inTurn (ms ++ ns) = inTurn ms >>= fun _ => inTurn ns := by
  induction ms with
  | nil => rfl
  | cons m ms ih => rw [List.cons_append, inTurn, inTurn, ih, bind_assoc]

/-- Folding without a state is taking turns. -/
theorem fold_eq_inTurn (part : α → Delivery Unit) (items : List α) :
    fold (fun _ a => part a) () items = inTurn (items.map part) := by
  induction items with
  | nil => rfl
  | cons a items ih =>
    rw [fold_cons, List.map_cons, inTurn, ← ih]
    rfl

theorem inTurn_flatMap (steps : α → List (Delivery Unit)) (items : List α) :
    inTurn (items.flatMap steps) = inTurn (items.map fun a => inTurn (steps a)) := by
  induction items with
  | nil => rfl
  | cons a items ih => rw [List.flatMap_cons, inTurn_append, ih, List.map_cons, inTurn]

/-- What fails is one of the deliveries, and only those before it have delivered all of theirs. -/
theorem exists_of_inTurn_eq_error {ms : List (Delivery Unit)} {e : ReadError}
    (h : (inTurn ms).result = .error e) :
    ∃ before m after, ms = before ++ m :: after ∧ (∀ n ∈ before, n.result = .ok ()) ∧
      m.result = .error e ∧ (inTurn ms).events = before.flatMap (·.events) ++ m.events := by
  induction ms with
  | nil => cases h
  | cons m ms ih =>
    obtain ⟨events, error | ⟨⟨⟩⟩⟩ := m
    · exact ⟨[], _, ms, rfl, List.forall_mem_nil _, h, rfl⟩
    · obtain ⟨before, n, after, rfl, succeeded, failed, delivered⟩ := ih h
      refine ⟨⟨events, .ok ()⟩ :: before, n, after, rfl,
        List.forall_mem_cons.mpr ⟨rfl, succeeded⟩, failed, ?_⟩
      rw [inTurn, ok_bind, delivered, List.flatMap_cons, List.append_assoc]

end Delivery

end ClassAbi
