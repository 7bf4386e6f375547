import ClassAbi.Host
import ClassAbi.Proofs.Chains

/-!
# Running actions

An action is run on a host and leaves another.  The lemmas here run the actions
that others are made of, and take a run apart at a bind.
-/

namespace ClassAbi

namespace Action

variable {α β : Type}

theorem runOn_disk (h : Host) : disk.runOn h = (.ok h.disk, h) := rfl

theorem runOn_ofExcept_ok (a : α) (h : Host) : (ofExcept (.ok a)).runOn h = (.ok a, h) := rfl

theorem runOn_bind_of_ok {x : Action α} {f : α → Action β} {h h' : Host} {a : α}
    (first : x.runOn h = (.ok a, h')) : (x >>= f).runOn h = (f a).runOn h' := by
  change (ExceptT.bindCont f (x.runOn h).1) (x.runOn h).2 = _
  rw [first]
  rfl

/-- Nothing follows a fatal message. -/
theorem runOn_bind_of_error {x : Action α} {f : α → Action β} {h h' : Host} {e : Fatal}
    (first : x.runOn h = (.error e, h')) : (x >>= f).runOn h = (.error e, h') := by
  change (ExceptT.bindCont f (x.runOn h).1) (x.runOn h).2 = _
  rw [first]
  rfl

/-- A run of two actions that has a result is a run of each that has one. -/
theorem runOn_bind_eq_ok {x : Action α} {f : α → Action β} {h h'' : Host} {b : β} :
    (x >>= f).runOn h = (.ok b, h'') ↔
      ∃ a h', x.runOn h = (.ok a, h') ∧ (f a).runOn h' = (.ok b, h'') := by
  constructor
  · intro run
    change (ExceptT.bindCont f (x.runOn h).1) (x.runOn h).2 = _ at run
    cases first : x.runOn h with
    | mk result h' =>
      rw [first] at run
      cases result with
      | ok a => exact ⟨a, h', rfl, run⟩
      | error e => cases run
  · rintro ⟨a, h', first, second⟩
    rw [runOn_bind_of_ok first, second]

end Action

end ClassAbi
