import ClassAbi.Proofs.StorableDeclarations
import ClassAbi.Proofs.WrittenClass

/-!
# Encoding values that can be stored

The events of a value are taken if its pool keys come from a supply and its
counts fit (`takesInto_value`).  The pool keeps its `Pool.Room`.  What is
written where does not matter here, so an event takes an encoder that writes into
some buffer to one that writes into some other.
-/

namespace ClassAbi

variable {U : List PoolKey} (supply : IsSupply U)

/-! ## One event of an open list -/

namespace OpenList

variable {l : OpenList} {p : Pool} {b : Buffer} {name : Text}

/-- The event is taken, with these lists in place of the open one. -/
def Takes (U : List PoolKey) (l : OpenList) (p : Pool) (b : Buffer) (event : ValueEvent)
    (ls : List OpenList) : Prop :=
  ∃ p' b', l.write p b event = .ok (ls, p', b') ∧ p'.Room U

/-- The list has room for a value, and the supply has the name of the value. -/
structure Ready (U : List PoolKey) (l : OpenList) (name : Text) : Prop where
  few : l.count.toNat < 0xFFFF
  named : l.named = true → .text name ∈ U

include supply

theorem Ready.exists_beginValue (h : Ready U l name) (room : p.Room U) :
    ∃ p' b', l.beginValue p b name = .ok (l.counted 1, p', b') ∧ p'.Room U := by
  have few : l.count < 0xFFFF := UInt16.lt_iff_toNat_lt.mpr h.few
  rw [beginValue, if_pos few]
  cases named : l.named with
  | true =>
    obtain ⟨index, q, added, room, -⟩ := Pool.exists_addUtf8 supply room (h.named named)
    refine ⟨q, b.pushU2 index, ?_, room⟩
    simp only [if_true]
    exact bind_eq_ok.mpr ⟨_, added, by rw [counted, named]; rfl⟩
  | false =>
    refine ⟨p, b, ?_, room⟩
    rw [counted]
    simp [named]

theorem Ready.takes_constant (h : Ready U l name) (room : p.Room U) {c : Constant}
    (key : c.elementKey ∈ U) : l.Takes U p b (.constant name c) [l.counted 1] := by
  obtain ⟨q, b₁, begun, room⟩ := h.exists_beginValue supply (b := b) room
  obtain ⟨index, r, added, room⟩ := Pool.exists_addElement supply room key
  exact ⟨r, _, bind_eq_ok.mpr ⟨_, begun, bind_eq_ok.mpr ⟨_, added, rfl⟩⟩, room⟩

theorem Ready.takes_enum (h : Ready U l name) (room : p.Room U) {descriptor value : Text}
    (type : .text descriptor ∈ U) (constant : .text value ∈ U) :
    l.Takes U p b (.enum name descriptor value) [l.counted 1] := by
  obtain ⟨q, b₁, begun, room⟩ := h.exists_beginValue supply (b := b) room
  obtain ⟨i, r, first, room, -⟩ := Pool.exists_addUtf8 supply room type
  obtain ⟨j, r', second, room, -⟩ := Pool.exists_addUtf8 supply room constant
  exact ⟨r', _, bind_eq_ok.mpr ⟨_, begun, bind_eq_ok.mpr ⟨_, first,
    bind_eq_ok.mpr ⟨_, second, rfl⟩⟩⟩, room⟩

theorem Ready.takes_nested (h : Ready U l name) (room : p.Room U) {descriptor : Text}
    (type : .text descriptor ∈ U) :
    ∃ offset, l.Takes U p b (.nested name descriptor) [ofNamed offset, l.counted 1] := by
  obtain ⟨q, b₁, begun, room⟩ := h.exists_beginValue supply (b := b) room
  obtain ⟨i, r, added, room, -⟩ := Pool.exists_addUtf8 supply room type
  exact ⟨_, r, _, bind_eq_ok.mpr ⟨_, begun, bind_eq_ok.mpr ⟨_, added, rfl⟩⟩, room⟩

theorem Ready.takes_array (h : Ready U l name) (room : p.Room U) :
    ∃ offset, l.Takes U p b (.array name) [ofArray offset, l.counted 1] := by
  obtain ⟨q, b₁, begun, room⟩ := h.exists_beginValue supply (b := b) room
  exact ⟨_, q, _, bind_eq_ok.mpr ⟨_, begun, rfl⟩, room⟩

omit supply

theorem takes_close (room : p.Room U) : l.Takes U p b .close [] := ⟨p, _, rfl, room⟩

theorem toNat_counted {n : Nat} (few : l.count.toNat + n ≤ 0xFFFF) :
    (l.counted n).count.toNat = l.count.toNat + n := by
  rw [counted, UInt16.toNat_add, UInt16.toNat_ofNat']
  omega

end OpenList

/-! ## Values -/

namespace Encoder

variable {e : Encoder} {target : ValueTarget} {p : Pool} {l : OpenList}
  {outer : List (ValueTarget × OpenList)} {b : Buffer}

/-- The events are taken into a buffer, with these lists open in the end. -/
def TakesInto (U : List PoolKey) (e : Encoder) (target : ValueTarget) (p : Pool)
    (opened : List (ValueTarget × OpenList)) (b : Buffer) (events : List ValueEvent)
    (opened' : List (ValueTarget × OpenList)) : Prop :=
  ∃ p' b', (e.writing target p opened b).run (events.map .value) =
    .ok (e.writing target p' opened' b') ∧ p'.Room U

theorem TakesInto.append {opened opened' opened'' : List (ValueTarget × OpenList)}
    {events events' : List ValueEvent} (h : e.TakesInto U target p opened b events opened')
    (h' : ∀ {p b}, p.Room U → e.TakesInto U target p opened' b events' opened'') :
    e.TakesInto U target p opened b (events ++ events') opened'' := by
  obtain ⟨p₁, b₁, first, room⟩ := h
  obtain ⟨p₂, b₂, second, room⟩ := h' (b := b₁) room
  exact ⟨p₂, b₂, by rw [List.map_append, run_append, first, ok_bind, second], room⟩

theorem takesInto_of_takes (has : e.HasTarget target) {event : ValueEvent} {ls : List OpenList}
    (h : l.Takes U p b event ls) :
    e.TakesInto U target p ((target, l) :: outer) b [event] (ls.map ((target, ·)) ++ outer) := by
  obtain ⟨p', b', written, room⟩ := h
  have visited := visitValue_writing p b has l outer event
  rw [written] at visited
  exact ⟨p', b', bind_eq_ok.mpr ⟨_, visited, rfl⟩, room⟩

mutual

theorem takesInto_value (supply : IsSupply U) (has : e.HasTarget target) :
    ∀ (v : Value) (name : Text) {p : Pool} {l : OpenList} {outer : List (ValueTarget × OpenList)}
      {b : Buffer}, v.Storable U → l.Ready U name → p.Room U →
      e.TakesInto U target p ((target, l) :: outer) b (v.events name)
        ((target, l.counted 1) :: outer)
  | .constant c, name, p, l, outer, b, stored, ready, room => by
    rw [Value.Storable] at stored
    exact takesInto_of_takes has (ready.takes_constant supply room stored)
  | .enum descriptor value, name, p, l, outer, b, stored, ready, room => by
    rw [Value.Storable] at stored
    exact takesInto_of_takes has (ready.takes_enum supply room stored.1 stored.2)
  | .nested descriptor values, name, p, l, outer, b, stored, ready, room => by
    rw [Value.Storable] at stored
    obtain ⟨offset, opens⟩ := ready.takes_nested supply (b := b) room stored.1
    have few : (OpenList.ofNamed offset).count.toNat + values.length ≤ 0xFFFF :=
      (Nat.zero_add _).trans_le stored.2.1
    exact (takesInto_of_takes has opens).append fun room =>
      (takesInto_values supply has values stored.2.2 few room).append fun room =>
        takesInto_of_takes has (OpenList.takes_close room)
  | .array elements, name, p, l, outer, b, stored, ready, room => by
    rw [Value.Storable] at stored
    obtain ⟨offset, opens⟩ := ready.takes_array supply (b := b) room
    have few : (OpenList.ofArray offset).count.toNat + elements.length ≤ 0xFFFF :=
      (Nat.zero_add _).trans_le stored.1
    exact (takesInto_of_takes has opens).append fun room =>
      (takesInto_values supply has elements stored.2 few room).append fun room =>
        takesInto_of_takes has (OpenList.takes_close room)

theorem takesInto_values (supply : IsSupply U) (has : e.HasTarget target) :
    ∀ (vs : Values) {p : Pool} {l : OpenList} {outer : List (ValueTarget × OpenList)}
      {b : Buffer}, vs.Storable U l.named → l.count.toNat + vs.length ≤ 0xFFFF → p.Room U →
      e.TakesInto U target p ((target, l) :: outer) b vs.events
        ((target, l.counted vs.length) :: outer)
  | .nil, p, l, outer, b, _, _, room => by
    rw [Values.length, OpenList.counted_zero]
    exact ⟨p, b, rfl, room⟩
  | .cons name v rest, p, l, outer, b, stored, few, room => by
    rw [Values.Storable] at stored
    rw [Values.length] at few
    have ready : l.Ready U name := ⟨by omega, stored.1⟩
    have one : (l.counted 1).count.toNat = l.count.toNat + 1 := OpenList.toNat_counted (by omega)
    rw [Values.length, Nat.add_comm, ← OpenList.counted_counted]
    exact (takesInto_value supply has v name stored.2.1 ready room).append
      (takesInto_values supply has rest stored.2.2 (by omega))

end

/-- The values of a list and what closes it are taken. -/
theorem takesInto_closed (supply : IsSupply U) (has : e.HasTarget target) {vs : Values}
    (stored : vs.Storable U l.named) (few : l.count.toNat + vs.length ≤ 0xFFFF) (room : p.Room U) :
    e.TakesInto U target p ((target, l) :: outer) b (vs.events ++ [ValueEvent.close]) outer :=
  (takesInto_values supply has vs stored few room).append fun room =>
    takesInto_of_takes has (OpenList.takes_close room)

/-! ## Annotations and defaults -/

/-- The encoder has taken something that the supply had room for. -/
def Succeeds (U : List PoolKey) (result : Except EncodeFault Encoder) : Prop :=
  ∃ e, result = .ok e ∧ e.pool.Room U

theorem Succeeds.bind {result : Except EncodeFault Encoder} {f : Encoder → Except EncodeFault Encoder}
    (h : Succeeds U result) (h' : ∀ e, result = .ok e → e.pool.Room U → Succeeds U (f e)) :
    Succeeds U (result >>= f) := by
  obtain ⟨e, eq, room⟩ := h
  rw [eq, ok_bind]
  exact h' e eq room

theorem TakesInto.succeeds {opened opened' : List (ValueTarget × OpenList)}
    {events : List ValueEvent} (h : e.TakesInto U target p opened b events opened') :
    Succeeds U ((e.writing target p opened b).run (events.map .value)) := by
  obtain ⟨p', b', run, room⟩ := h
  exact ⟨_, run, by rwa [pool_writing]⟩

/-- An annotation is taken by a table that has room for it. -/
theorem succeeds_annotation (supply : IsSupply U) {kind : Bool → AttributeKind} {a : Annotation}
    (stored : a.Storable U kind) (has : e.HasTarget target) (isTable : IsTable target)
    (room : e.pool.Room U) (few : (e.table target).count.toNat < 0xFFFF) :
    Succeeds U (e.annotate target a.descriptor >>= fun e =>
      e.run ((a.values.events ++ [ValueEvent.close]).map .value)) := by
  obtain ⟨type, p, added, room, -⟩ := Pool.exists_addUtf8 supply room stored.descriptor
  rw [annotate_eq_writing isTable (UInt16.lt_iff_toNat_lt.mpr few) added rfl, ok_bind]
  have has' := hasTarget_modifyTable has fun t => { t with count := (e.table target).count + 1 }
  have count : (0 : UInt16).toNat + a.values.length ≤ 0xFFFF :=
    (Nat.zero_add _).trans_le stored.count
  exact (takesInto_closed supply has' stored.values count room).succeeds

/-- A default is taken. -/
theorem succeeds_default (supply : IsSupply U) {vs : Values} {i : Nat}
    (stored : vs.Storable U false) (one : vs.length ≤ 0xFFFF) (has : e.HasTarget (.ofDefault i))
    (room : e.pool.Room U) :
    Succeeds U (({ e with opened := (.ofDefault i, .ofDefault) :: e.opened } : Encoder).run
      ((vs.events ++ [ValueEvent.close]).map .value)) := by
  rw [← writing_default (e := e) e.pool ((.ofDefault i, .ofDefault) :: e.opened) i]
  have count : (0 : UInt16).toNat + vs.length ≤ 0xFFFF := (Nat.zero_add _).trans_le one
  exact (takesInto_closed supply has stored count room).succeeds

end Encoder

end ClassAbi
