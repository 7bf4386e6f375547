import ClassAbi.Proofs.CheckedPool
import ClassAbi.Proofs.Deliveries

/-!
# Checked parts and deliveries

A part of the checked reader is compared with the delivery that the reader makes
of it (`Walk.Delivers`).  Both go wrong in the same places, and where they do the
part ends the reading or reads on with numbers that are 0 until it looks at the
problem.  So a part that begins with a number comes with two duties: to go on as
the delivery does where there is a number (`Reads.delivers`), and to do nothing
where there was none (`Halts`).
-/

namespace ClassAbi

namespace Delivery

variable {α β γ : Type}

theorem events_pure (a : α) : (Pure.pure a : Delivery α).events = [] := rfl

theorem events_ofExcept (r : Except ReadError α) : (ofExcept r).events = [] := rfl

theorem events_error_bind (e : ReadError) (f : α → Delivery β) :
    (ofExcept (.error e) >>= f).events = [] :=
  rfl

theorem ofExcept_pure (a : α) : ofExcept (Pure.pure a) = Pure.pure a := rfl

theorem ofExcept_bind (x : Except ReadError α) (f : α → Except ReadError β) :
    ofExcept (x >>= f) = ofExcept x >>= fun a => ofExcept (f a) := by
  cases x <;> rfl

theorem ofExcept_bind_bind (x : Except ReadError α) (f : α → Except ReadError β)
    (g : β → Delivery γ) :
    ofExcept (x >>= f) >>= g = ofExcept x >>= fun a => ofExcept (f a) >>= g := by
  cases x <;> rfl

end Delivery

namespace Walk

variable {α β γ δ : Type} {d : ByteArray}

theorem id_map_eq (m : Walk α) : id <$> m = m := by
  funext c
  show (m >>= fun a => pure (id a)) c = m c
  rw [bind_apply]
  cases m c with
  | error b => rfl
  | ok x =>
    obtain ⟨result, c'⟩ := x
    cases result <;> rfl

instance : LawfulMonad Walk := .mk' Walk id_map_eq (fun _ _ => rfl) bind_bind

/-- From `p` on, the part delivers what `g` delivers and ends as `g` does.  `R` says what
it gives for the result of `g`, and where the cursor stands then. -/
def Delivers (d : ByteArray) (slots : List PoolSlot) (n : Nat) (m : Walk α) (p : Nat)
    (g : Delivery β) (R : β → α → Nat → Prop) : Prop :=
  ∀ es, match g.result with
  | .ok b => ∃ a q, R b a q ∧ q ≤ d.size ∧
      m ⟨p, slots, none, n, es⟩ = .ok (some a, ⟨q, slots, none, n, es ++ g.events⟩)
  | .error e => ∃ q, q ≤ d.size ∧
      m ⟨p, slots, none, n, es⟩ = .ok (none, ⟨q, slots, some e, n, es ++ g.events⟩)

/-- The value, and the cursor behind it. -/
def Paired (b : α × Nat) (a : α) (q : Nat) : Prop := b = (a, q)

/-- The cursor stands behind what was gone through. -/
def Behind (b : β × Nat) (_ : α) (q : Nat) : Prop := b.2 = q

/-- The cursor stands where the delivery says. -/
def Stops (stop : Nat) (_ : Unit) (q : Nat) : Prop := stop = q

/-- The value, and the cursor anywhere. -/
def Gives (b a : α) (_ : Nat) : Prop := b = a

/-- The cursor stands at an offset. -/
def At (stop : Nat) (_ : β) (_ : α) (q : Nat) : Prop := stop = q

section Rules

variable {slots : List PoolSlot} {n p : Nat} {m : Walk α} {g : Delivery β}
  {R : β → α → Nat → Prop} {S : δ → γ → Nat → Prop}

theorem delivers_pure {a : α} {b : β} (inside : p ≤ d.size) (same : R b a p) :
    Delivers d slots n (pure a) p (pure b) R := by
  intro es
  refine ⟨a, p, same, inside, ?_⟩
  rw [Delivery.events_pure, List.append_nil]
  rfl

theorem delivers_stop {e : ReadError} (inside : p ≤ d.size) :
    Delivers d slots n (stop e : Walk α) p (Delivery.fail e) R := by
  intro es
  refine ⟨p, inside, ?_⟩
  rw [show (Delivery.fail e : Delivery β) = .ofExcept (.error e) from rfl, Delivery.events_ofExcept,
    List.append_nil]
  rfl

theorem Delivers.bind (h : Delivers d slots n m p g R) {k : α → Walk γ} {f : β → Delivery δ}
    (next : ∀ b a q, g.result = .ok b → R b a q → q ≤ d.size →
      Delivers d slots n (k a) q (f b) S) :
    Delivers d slots n (m >>= k) p (g >>= f) S := by
  intro es
  obtain ⟨events, e | b⟩ := g
  · obtain ⟨q, inside, run⟩ := h es
    exact ⟨q, inside, bind_none run⟩
  · obtain ⟨a, q, same, inside, run⟩ := h es
    rw [Delivery.ok_bind, bind_some run]
    have rest := next b a q rfl same inside (es ++ events)
    simp only [List.append_assoc] at rest
    exact rest

/-- The delivery gives something else for its result. -/
theorem Delivers.map (h : Delivers d slots n m p g R) (f : β → δ) {S : δ → α → Nat → Prop}
    (same : ∀ b a q, R b a q → S (f b) a q) :
    Delivers d slots n m p (g >>= fun b => pure (f b)) S := by
  intro es
  have run := h es
  obtain ⟨events, e | b⟩ := g
  · exact run
  · obtain ⟨a, q, holds, inside, run⟩ := run
    refine ⟨a, q, same b a q holds, inside, ?_⟩
    rw [run, Delivery.ok_bind, Delivery.events_pure, List.append_nil]

/-- The part goes on where the delivery has ended. -/
theorem Delivers.ends (h : Delivers d slots n m p g R) {k : α → Walk γ} {S : β → γ → Nat → Prop}
    (next : ∀ b a q, R b a q → q ≤ d.size → Delivers d slots n (k a) q (pure b) S) :
    Delivers d slots n (m >>= k) p g S := by
  rw [← bind_pure g]
  exact h.bind fun b a q _ same le => next b a q same le

/-- A value that is followed by a part of its own. -/
theorem Delivers.pair {g : Delivery (α × Nat)} (h : Delivers d slots n m p g Paired)
    {k : α → Walk γ} {f : α × Nat → Delivery δ}
    (next : ∀ a q, g.result = .ok (a, q) → q ≤ d.size →
      Delivers d slots n (k a) q (f (a, q)) S) :
    Delivers d slots n (m >>= k) p (g >>= f) S :=
  h.bind fun b a q ends same le => by
    cases same
    exact next a q ends le

/-- What is gone through is followed by a part that begins where it stops. -/
theorem Delivers.stop {m : Walk Unit} {g : Delivery Nat} (h : Delivers d slots n m p g Stops)
    {k : Unit → Walk γ} {f : Nat → Delivery δ}
    (next : ∀ q, q ≤ d.size → Delivers d slots n (k ()) q (f q) S) :
    Delivers d slots n (m >>= k) p (g >>= f) S :=
  h.bind fun b a q _ same le => by
    cases same
    exact next b le

/-- A part that is known to succeed without events. -/
theorem Delivers.then {b : β} (h : Delivers d slots n m p (.ofExcept (.ok b)) R)
    {k : α → Walk γ} {g : Delivery δ}
    (next : ∀ a q, R b a q → q ≤ d.size → Delivers d slots n (k a) q g S) :
    Delivers d slots n (m >>= k) p g S := by
  intro es
  obtain ⟨a, q, same, inside, run⟩ := h es
  rw [bind_some run]
  simp only [Delivery.ofExcept, List.append_nil]
  exact next a q same inside es

/-- A number, and what follows it. -/
theorem Reads.delivers {read : Walk α} {junk : α} {scan : Nat → Except ReadError (α × Nat)}
    (reads : Reads d read junk scan) {k : α → Walk γ} {f : α × Nat → Delivery δ}
    (inside : p ≤ d.size) (halts : Halts (k junk))
    (next : ∀ v q, scan p = .ok (v, q) → q ≤ d.size → Delivers d slots n (k v) q (f (v, q)) S) :
    Delivers d slots n (read >>= k) p (.ofExcept (scan p) >>= f) S := by
  intro es
  rcases reads.going slots n es inside with ⟨v, q, scanned, le, run⟩ | ⟨e, scanned, run⟩
  · rw [scanned, bind_some run]
    exact next v q scanned le es
  · rw [scanned, bind_some run, halts _ rfl]
    refine ⟨p, inside, ?_⟩
    rw [Delivery.events_error_bind, List.append_nil]

/-- A number that is known to be there. -/
theorem Reads.then {read : Walk α} {junk : α} {scan : Nat → Except ReadError (α × Nat)}
    (reads : Reads d read junk scan) {k : α → Walk γ} {g : Delivery δ} {v : α} {q : Nat}
    (inside : p ≤ d.size) (scanned : scan p = .ok (v, q))
    (next : q ≤ d.size → Delivers d slots n (k v) q g S) :
    Delivers d slots n (read >>= k) p g S := by
  intro es
  rcases reads.going slots n es inside with ⟨v', q', scanned', le, run⟩ | ⟨e, scanned', -⟩
  · rw [scanned] at scanned'
    cases scanned'
    rw [bind_some run]
    exact next le es
  · rw [scanned] at scanned'
    cases scanned'

/-- What is found, and what follows it. -/
theorem Finds.delivers {r : Except ReadError α} (finds : Finds d slots m r) {k : α → Walk γ}
    {f : α → Delivery δ} (inside : p ≤ d.size)
    (next : ∀ a, r = .ok a → Delivers d slots n (k a) p (f a) S) :
    Delivers d slots n (m >>= k) p (.ofExcept r >>= f) S := by
  intro es
  have run := finds p n es inside
  cases r with
  | ok a =>
    rw [bind_some run]
    exact next a rfl es
  | error e =>
    rw [bind_none run]
    refine ⟨p, inside, ?_⟩
    rw [Delivery.events_error_bind, List.append_nil]

theorem Finds.paired {r : Except ReadError α} (finds : Finds d slots m r) (inside : p ≤ d.size) :
    Delivers d slots n m p (.ofExcept (r >>= fun a => pure (a, p))) Paired := by
  intro es
  have run := finds p n es inside
  cases r with
  | ok a =>
    refine ⟨a, p, rfl, inside, ?_⟩
    rw [run, Delivery.events_ofExcept, List.append_nil]
  | error e =>
    refine ⟨p, inside, ?_⟩
    rw [run, Delivery.events_ofExcept, List.append_nil]

/-- Enough bytes, or the end of the reading. -/
theorem delivers_require {count : Nat} {part : Walk γ} {f : Nat → Delivery δ} (inside : p ≤ d.size)
    (next : p + count ≤ d.size → Delivers d slots n part p (f (p + count)) S) :
    Delivers d slots n (require d count >>= fun enough => if enough then part else finish) p
      (.ofExcept (skipBytes d p count) >>= f) S := by
  by_cases room : p + count ≤ d.size
  · intro es
    rw [bind_some (require_of_le slots n es room), if_pos rfl, skipBytes, if_pos room]
    exact next room es
  · intro es
    rw [bind_some (require_of_lt slots n es inside (by omega)), if_neg Bool.false_ne_true,
      skipBytes, if_neg room]
    refine ⟨p, inside, ?_⟩
    rw [Delivery.events_error_bind, List.append_nil]
    rfl

theorem delivers_skip {count : Nat} {k : Unit → Walk γ} {f : Nat → Delivery δ}
    (inside : p ≤ d.size) (halts : Halts (k ()))
    (next : p + count ≤ d.size → Delivers d slots n (k ()) (p + count) (f (p + count)) S) :
    Delivers d slots n (skip d count >>= k) p (.ofExcept (skipBytes d p count) >>= f) S := by
  by_cases room : p + count ≤ d.size
  · intro es
    rw [bind_some (skip_whole room ..), skipBytes, if_pos room]
    exact next room es
  · intro es
    rw [bind_some (skip_short inside room ..), halts _ rfl, skipBytes, if_neg room]
    refine ⟨p, inside, ?_⟩
    rw [Delivery.events_error_bind, List.append_nil]

theorem delivers_seek {offset : Nat} (inside : offset ≤ d.size) {k : Unit → Walk γ}
    {g : Delivery δ} (next : Delivers d slots n (k ()) offset g S) :
    Delivers d slots n (seek d offset >>= k) p g S := by
  intro es
  rw [bind_some (seek_apply inside _)]
  exact next es

theorem delivers_unlessFailed {k : Unit → Walk γ} {g : Delivery δ}
    (next : Delivers d slots n (k ()) p g S) :
    Delivers d slots n (unlessFailed >>= k) p g S := by
  intro es
  rw [bind_some (unlessFailed_apply ..)]
  exact next es

/-- A last look at the problem. -/
theorem Delivers.unlessFailed {m : Walk Unit} {R : β → Unit → Nat → Prop}
    (h : Delivers d slots n m p g R) :
    Delivers d slots n (m >>= fun _ => Walk.unlessFailed) p g R :=
  h.ends fun _ _ _ same le => delivers_unlessFailed (k := pure) (delivers_pure le same)

theorem delivers_state {k : Cursor → Walk γ} {g : Delivery δ}
    (next : ∀ es, Delivers d slots n (k ⟨p, slots, none, n, es⟩) p g S) :
    Delivers d slots n (state >>= k) p g S :=
  fun es => next es es

theorem halts_state {k : Cursor → Walk γ} (next : ∀ c, Halts (k c)) : Halts (state >>= k) :=
  fun c problem => next c c problem

theorem delivers_deliver {e : Event} {k : Unit → Walk γ} {f : Unit → Delivery δ}
    (next : Delivers d slots n (k ()) p (f ()) S) :
    Delivers d slots n (deliver e >>= k) p (Delivery.deliver e >>= f) S := by
  intro es
  have rest := next (es ++ [e])
  simp only [List.append_assoc] at rest
  exact rest

theorem delivers_event (e : Event) {R : Unit → Unit → Nat → Prop} (inside : p ≤ d.size)
    (same : R () () p) : Delivers d slots n (deliver e) p (Delivery.deliver e) R :=
  fun _ => ⟨(), p, same, inside, rfl⟩

/-- The last event, and what the delivery gives. -/
theorem delivers_last {e : Event} {b : β} {R : β → Unit → Nat → Prop} (inside : p ≤ d.size)
    (same : R b () p) :
    Delivers d slots n (deliver e) p (Delivery.deliver e >>= fun _ => pure b) R :=
  (delivers_event e inside (R := fun _ a q => R b a q) same).map _ fun _ _ _ same => same

theorem delivers_insideValue {R : β → α → Nat → Prop} (shallow : n < insideLimit)
    (h : Delivers d slots (n + 1) m p g R) : Delivers d slots n (insideValue m) p g R := by
  intro es
  have run := h es
  obtain ⟨events, e | b⟩ := g
  · obtain ⟨q, inside, run⟩ := run
    refine ⟨q, inside, ?_⟩
    rw [insideValue, if_pos shallow, run]
  · obtain ⟨a, q, same, inside, run⟩ := run
    refine ⟨a, q, same, inside, ?_⟩
    rw [insideValue, if_pos shallow, run]

/-- A part for each item, each beginning where the one before it ends. -/
theorem delivers_each {ι : Type} {part : ι → Walk Unit} {step : Nat → ι → Delivery Nat}
    (h : ∀ i q, q ≤ d.size → Delivers d slots n (part i) q (step q i) Stops) (items : List ι)
    (inside : p ≤ d.size) :
    Delivers d slots n (each part items) p (Delivery.fold step p items) Stops := by
  induction items generalizing p with
  | nil => exact delivers_pure inside rfl
  | cons i items ih =>
    rw [Delivery.fold_cons, each]
    exact (h i p inside).stop fun q le => ih le

theorem halts_each {ι : Type} {part : ι → Walk Unit} {items : List ι} (none : items = [])
    {k : Unit → Walk γ} (next : Halts (k ())) : Halts (each part items >>= k) := by
  rw [none]
  exact next

end Rules

end Walk

end ClassAbi
