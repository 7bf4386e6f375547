import ClassAbi.Proofs.PoolGrowth
import ClassAbi.Proofs.StoredValues
import ClassAbi.Proofs.Targets

/-!
# Values are written as their encodings

An event of the innermost open list appends to the buffer and may open or close
a list (`OpenList.write`).  The events of a whole value append an encoding of
the value and count it in the list around it, whatever the buffer held before
and whatever lists are open (`run_value`).  The count of a nested list stands
inside what was appended, so patching it touches nothing else.

The encoding refers to the constant pool as it is afterwards.  It keeps its
meaning when the pool grows (`Value.EncodedBy.mono`).
-/

namespace ClassAbi

/-! ## Encodings in a growing pool -/

section Mono

variable {t u : ConstantTable}

theorem NameEncodedBy.mono {named : Bool} {name bs : Text} (within : t.Within u)
    (h : NameEncodedBy t named name bs) : NameEncodedBy u named name bs := by
  cases named with
  | false => exact h
  | true =>
    obtain ⟨i, found, rfl⟩ := h
    exact ⟨i, within.utf8At found, rfl⟩

mutual

theorem Value.EncodedBy.mono (within : t.Within u) :
    ∀ {v : Value} {bs : Text}, v.EncodedBy t bs → v.EncodedBy u bs
  | .constant c, _, h => by
    rw [Value.EncodedBy] at h ⊢
    obtain ⟨i, found, rfl⟩ := h
    exact ⟨i, within.hasElement found, rfl⟩
  | .enum descriptor value, _, h => by
    rw [Value.EncodedBy] at h ⊢
    obtain ⟨i, j, type, constant, rfl⟩ := h
    exact ⟨i, j, within.utf8At type, within.utf8At constant, rfl⟩
  | .nested descriptor values, _, h => by
    rw [Value.EncodedBy] at h ⊢
    obtain ⟨i, items, type, encoded, count, rfl⟩ := h
    exact ⟨i, items, within.utf8At type, encoded.mono within, count, rfl⟩
  | .array elements, _, h => by
    rw [Value.EncodedBy] at h ⊢
    obtain ⟨items, encoded, count, rfl⟩ := h
    exact ⟨items, encoded.mono within, count, rfl⟩

theorem Values.EncodedBy.mono (within : t.Within u) {named : Bool} :
    ∀ {vs : Values} {bs : Text}, vs.EncodedBy t named bs → vs.EncodedBy u named bs
  | .nil, _, h => h
  | .cons name value rest, _, h => by
    rw [Values.EncodedBy] at h ⊢
    obtain ⟨front, item, back, hname, hitem, hback, rfl⟩ := h
    exact ⟨front, item, back, hname.mono within, hitem.mono within, hback.mono within, rfl⟩

end

end Mono

theorem Values.length_readBack (named : Bool) (vs : Values) :
    (vs.readBack named).length = vs.length := by
  induction vs using Values.length.induct with
  | case1 => rfl
  | case2 name value rest ih => rw [Values.readBack, Values.length, Values.length, ih]

/-! ## Buffers that grow -/

namespace Buffer

theorem ext {b c : Buffer} (h : b.toList = c.toList) : b = c := by
  obtain ⟨⟨⟨b⟩⟩⟩ := b
  obtain ⟨⟨⟨c⟩⟩⟩ := c
  cases h
  rfl

theorem pushU1_eq (b : Buffer) (v : UInt8) : b.pushU1 v = b.pushText [v] := rfl

theorem pushU2_eq (b : Buffer) (v : UInt16) : b.pushU2 v = b.pushText (bytesU2 v) := rfl

theorem pushText_pushText (b : Buffer) (x y : Text) :
    (b.pushText x).pushText y = b.pushText (x ++ y) :=
  ext (by simp)

theorem pushText_nil (b : Buffer) : b.pushText [] = b := rfl

theorem size_pushText (b : Buffer) (t : Text) : (b.pushText t).size = b.size + t.length := by
  rw [← length_toList, toList_pushText, List.length_append, length_toList]

/-- A patch changes the number that was written at its place, and nothing behind it. -/
theorem patchU2_pushText (b : Buffer) (v w : UInt16) (t : Text) :
    (b.pushText (bytesU2 v ++ t)).patchU2 b.size w = b.pushText (bytesU2 w ++ t) := by
  apply ext
  rw [toList_patchU2, toList_pushText, toList_pushText, ← length_toList]
  have next : b.toList.length + 1 - b.toList.length = 1 := by omega
  rw [List.set_append_right _ _ (Nat.le_refl _), List.set_append_right _ _ (Nat.le_succ _), next,
    Nat.sub_self]
  rfl

/-- Bytes behind a number that is patched stay. -/
theorem patchU2_pushText_of_le {b : Buffer} {offset : Nat} (inside : offset + 2 ≤ b.size)
    (v : UInt16) (t : Text) :
    (b.pushText t).patchU2 offset v = (b.patchU2 offset v).pushText t := by
  rw [← length_toList] at inside
  apply ext
  rw [toList_patchU2, toList_pushText, toList_pushText, toList_patchU2,
    List.set_append_left _ _ (by omega), List.set_append_left _ _ (by rw [List.length_set]; omega)]

end Buffer

/-! ## One event -/

namespace OpenList

/-- The list with more values in it. -/
def counted (l : OpenList) (n : Nat) : OpenList := { l with count := l.count + n.toUInt16 }

theorem counted_zero (l : OpenList) : l.counted 0 = l := by
  have : l.count + (0 : Nat).toUInt16 = l.count := UInt16.add_zero l.count
  rw [counted, this]

theorem counted_counted (l : OpenList) (m n : Nat) : (l.counted m).counted n = l.counted (m + n) := by
  have : l.count + m.toUInt16 + n.toUInt16 = l.count + (m + n).toUInt16 := by
    rw [UInt16.add_assoc]
    exact congrArg (l.count + ·) (UInt16.ofNat_add m n).symm
  rw [counted, counted, counted, this]

variable {l : OpenList} {p p' : Pool} {b b' : Buffer} {ls : List OpenList} {name : Text}

/-- What is in front of a value is written: its name, if the list has names. -/
theorem beginValue_spec {l' : OpenList} (hp : p.WellFormed)
    (h : l.beginValue p b name = .ok (l', p', b')) :
    l.count.toNat < 0xFFFF ∧ l' = l.counted 1 ∧ p.Grows p' ∧
      ∃ front, b' = b.pushText front ∧
        NameEncodedBy p'.table l.named (if l.named then name else []) front := by
  unfold beginValue at h
  split at h
  · next room =>
    refine ⟨room, ?_⟩
    cases named : l.named with
    | true =>
      simp only [named, if_true] at h
      obtain ⟨⟨index, q⟩, added, h⟩ := bind_eq_ok.mp h
      cases h
      obtain ⟨grows, found⟩ := Pool.addUtf8_spec hp added
      exact ⟨by rw [counted]; simp [named], grows, bytesU2 index, rfl, index, found, rfl⟩
    | false =>
      simp only [named, Bool.false_eq_true, if_false] at h
      cases h
      exact ⟨by rw [counted]; simp [named], hp.grows, [], rfl, rfl, rfl⟩
  · cases h

/-- A value was appended to what an open list has written.  The name in front of it is
empty where the list has no names. -/
structure Appended (l : OpenList) (p p' : Pool) (b b' : Buffer) (name : Text) (v : Value) :
    Prop where
  room : l.count.toNat < 0xFFFF
  grows : p.Grows p'
  bytes : ∃ front item, b' = b.pushText (front ++ item) ∧
    NameEncodedBy p'.table l.named (if l.named then name else []) front ∧
    v.EncodedBy p'.table item

theorem write_constant_spec {c : Constant} (hp : p.WellFormed)
    (h : l.write p b (.constant name c) = .ok (ls, p', b')) :
    ls = [l.counted 1] ∧ Appended l p p' b b' name (.constant c) := by
  obtain ⟨⟨l', q, b₁⟩, begun, h⟩ := bind_eq_ok.mp h
  obtain ⟨⟨index, r⟩, added, h⟩ := bind_eq_ok.mp h
  cases h
  obtain ⟨room, rfl, grows, front, rfl, hname⟩ := beginValue_spec hp begun
  obtain ⟨grows', found⟩ := Pool.addElement_spec grows.wellFormed added
  refine ⟨rfl, room, grows.trans grows', front, c.tag :: bytesU2 index, ?_,
    hname.mono grows'.within, index, found, rfl⟩
  rw [Buffer.pushU1_eq, Buffer.pushU2_eq, Buffer.pushText_pushText, Buffer.pushText_pushText]
  rfl

theorem write_enum_spec {descriptor value : Text} (hp : p.WellFormed)
    (h : l.write p b (.enum name descriptor value) = .ok (ls, p', b')) :
    ls = [l.counted 1] ∧ Appended l p p' b b' name (.enum descriptor value) := by
  obtain ⟨⟨l', q, b₁⟩, begun, h⟩ := bind_eq_ok.mp h
  obtain ⟨⟨i, r⟩, first, h⟩ := bind_eq_ok.mp h
  obtain ⟨⟨j, r'⟩, second, h⟩ := bind_eq_ok.mp h
  cases h
  obtain ⟨room, rfl, grows, front, rfl, hname⟩ := beginValue_spec hp begun
  obtain ⟨grows', type⟩ := Pool.addUtf8_spec grows.wellFormed first
  obtain ⟨grows'', constant⟩ := Pool.addUtf8_spec grows'.wellFormed second
  refine ⟨rfl, room, grows.trans (grows'.trans grows''), front,
    101 :: (bytesU2 i ++ bytesU2 j), ?_, hname.mono (grows'.trans grows'').within,
    i, j, grows''.within.utf8At type, constant, rfl⟩
  simp only [Buffer.pushU1_eq, Buffer.pushU2_eq, Buffer.pushText_pushText, List.append_assoc]
  rfl

/-- A list that opens begins with a count of 0, and its count stands at the end of what
is written. -/
theorem write_nested_spec {descriptor : Text} (hp : p.WellFormed)
    (h : l.write p b (.nested name descriptor) = .ok (ls, p', b')) :
    l.count.toNat < 0xFFFF ∧ p.Grows p' ∧ ∃ front i,
      NameEncodedBy p'.table l.named (if l.named then name else []) front ∧
      p'.table.utf8At i = .ok descriptor ∧
      ls = [ofNamed (b.pushText (front ++ 64 :: bytesU2 i)).size, l.counted 1] ∧
      b' = (b.pushText (front ++ 64 :: bytesU2 i)).pushText (bytesU2 0) := by
  obtain ⟨⟨l', q, b₁⟩, begun, h⟩ := bind_eq_ok.mp h
  obtain ⟨⟨i, r⟩, added, h⟩ := bind_eq_ok.mp h
  cases h
  obtain ⟨room, rfl, grows, front, rfl, hname⟩ := beginValue_spec hp begun
  obtain ⟨grows', type⟩ := Pool.addUtf8_spec grows.wellFormed added
  have head : (((b.pushText front).pushU1 64).pushU2 i) =
      b.pushText (front ++ 64 :: bytesU2 i) := by
    rw [Buffer.pushU1_eq, Buffer.pushU2_eq, Buffer.pushText_pushText, Buffer.pushText_pushText]
    rfl
  refine ⟨room, grows.trans grows', front, i, hname.mono grows'.within, type, ?_, ?_⟩
  · rw [head]
  · rw [head]
    rfl

theorem write_array_spec (hp : p.WellFormed)
    (h : l.write p b (.array name) = .ok (ls, p', b')) :
    l.count.toNat < 0xFFFF ∧ p.Grows p' ∧ ∃ front,
      NameEncodedBy p'.table l.named (if l.named then name else []) front ∧
      ls = [ofArray (b.pushText (front ++ [91])).size, l.counted 1] ∧
      b' = (b.pushText (front ++ [91])).pushText (bytesU2 0) := by
  obtain ⟨⟨l', q, b₁⟩, begun, h⟩ := bind_eq_ok.mp h
  cases h
  obtain ⟨room, rfl, grows, front, rfl, hname⟩ := beginValue_spec hp begun
  have head : (b.pushText front).pushU1 91 = b.pushText (front ++ [91]) := by
    rw [Buffer.pushU1_eq, Buffer.pushText_pushText]
  refine ⟨room, grows, front, hname, ?_, ?_⟩
  · rw [head]
  · rw [head]
    rfl

/-- Closing a list puts the number of its values where its count stands. -/
theorem write_close (offset : Nat) (named : Bool) (n : Nat) (p : Pool) (b : Buffer)
    (items : Text) (at_end : offset = b.size) :
    (⟨named, some offset, n.toUInt16⟩ : OpenList).write p
        ((b.pushText (bytesU2 0)).pushText items) .close =
      .ok ([], p, b.pushText (bytesU2 n.toUInt16 ++ items)) := by
  rw [Buffer.pushText_pushText, write, at_end]
  simp only [Buffer.patchU2_pushText]

end OpenList

/-! ## Whole values -/

namespace Encoder

theorem run_cons (e : Encoder) (event : Event) (events : List Event) :
    e.run (event :: events) = e.step event >>= fun e => e.run events :=
  rfl

theorem run_append (e : Encoder) (first second : List Event) :
    e.run (first ++ second) = e.run first >>= fun e => e.run second :=
  List.foldlM_append

/-- An event of the innermost list, as a step of the encoder. -/
theorem step_writing {e e' : Encoder} {target : ValueTarget} {p : Pool} {l : OpenList}
    {outer : List (ValueTarget × OpenList)} {b : Buffer} {event : ValueEvent}
    (has : e.HasTarget target)
    (h : (e.writing target p ((target, l) :: outer) b).step (.value event) = .ok e') :
    ∃ ls p' b', l.write p b event = .ok (ls, p', b') ∧
      e' = e.writing target p' (ls.map ((target, ·)) ++ outer) b' := by
  have h : (e.writing target p ((target, l) :: outer) b).visitValue event = .ok e' := h
  rw [visitValue_writing p b has] at h
  cases written : l.write p b event with
  | error fault =>
    rw [written] at h
    cases h
  | ok x =>
    rw [written] at h
    cases h
    exact ⟨x.1, x.2.1, x.2.2, rfl, rfl⟩

/-- The values of a nested list, and what closes it, end with its number in front of
them.  What is behind the list goes on as it was. -/
theorem close_list {e : Encoder} {target : ValueTarget} {p : Pool} {named : Bool} {n : Nat}
    {outer : List (ValueTarget × OpenList)} {b : Buffer} {items : Text} (has : e.HasTarget target) :
    (e.writing target p ((target, ⟨named, some b.size, n.toUInt16⟩) :: outer)
        ((b.pushText (bytesU2 0)).pushText items)).step (.value .close) =
      .ok (e.writing target p outer (b.pushText (bytesU2 n.toUInt16 ++ items))) := by
  have written := OpenList.write_close b.size named n p b items rfl
  have h := visitValue_writing p ((b.pushText (bytesU2 0)).pushText items) has
    ⟨named, some b.size, n.toUInt16⟩ outer .close
  rw [written] at h
  exact h

/-- What running the events of the values of a list does. -/
def WritesValues (vs : Values) : Prop :=
  ∀ {e e' : Encoder} {target : ValueTarget} {p : Pool} {l : OpenList}
    {outer : List (ValueTarget × OpenList)} {b : Buffer},
    e.HasTarget target → p.WellFormed →
    (e.writing target p ((target, l) :: outer) b).run (vs.events.map .value) = .ok e' →
    ∃ p' items, e' = e.writing target p' ((target, l.counted vs.length) :: outer)
        (b.pushText items) ∧
      p.Grows p' ∧ l.count.toNat + vs.length ≤ 0xFFFF ∧
      (vs.readBack l.named).EncodedBy p'.table l.named items

/-- A list that has just opened, with its values and what closes it. -/
theorem run_list (vs : Values) {e e' : Encoder} {target : ValueTarget} {p : Pool} {named : Bool}
    {outer : List (ValueTarget × OpenList)} {b : Buffer} (has : e.HasTarget target)
    (hp : p.WellFormed) (writes : WritesValues vs)
    (h : (e.writing target p ((target, ⟨named, some b.size, 0⟩) :: outer)
      (b.pushText (bytesU2 0))).run (vs.events.map .value ++ [.value .close]) = .ok e') :
    ∃ p' items, e' = e.writing target p' outer
        (b.pushText (bytesU2 vs.length.toUInt16 ++ items)) ∧
      p.Grows p' ∧ vs.length ≤ 0xFFFF ∧ (vs.readBack named).EncodedBy p'.table named items := by
  rw [run_append] at h
  obtain ⟨e₁, inner, h⟩ := bind_eq_ok.mp h
  obtain ⟨p', items, rfl, grows, count, encoded⟩ := writes has hp inner
  have full : (⟨named, some b.size, 0⟩ : OpenList).counted vs.length =
      ⟨named, some b.size, vs.length.toUInt16⟩ := by
    rw [OpenList.counted, UInt16.zero_add]
  rw [full] at h
  obtain ⟨e₂, closed, h⟩ := bind_eq_ok.mp h
  rw [close_list has] at closed
  cases closed
  cases h
  have zero : (0 : UInt16).toNat = 0 := rfl
  exact ⟨p', items, rfl, grows, by simpa only [zero, Nat.zero_add] using count, encoded⟩

mutual

/-- The events of a value append an encoding of the value. -/
theorem run_value : ∀ (v : Value) {e e' : Encoder} {target : ValueTarget} {p : Pool} {l : OpenList}
    {outer : List (ValueTarget × OpenList)} {b : Buffer} (name : Text),
    e.HasTarget target → p.WellFormed →
    (e.writing target p ((target, l) :: outer) b).run ((v.events name).map .value) = .ok e' →
    ∃ p' b', e' = e.writing target p' ((target, l.counted 1) :: outer) b' ∧
      OpenList.Appended l p p' b b' name v.readBack
  | .constant c, e, e', target, p, l, outer, b, name, has, hp, h => by
    obtain ⟨e₁, step, h⟩ := bind_eq_ok.mp h
    cases h
    obtain ⟨ls, p', b', written, rfl⟩ := step_writing has step
    obtain ⟨rfl, appended⟩ := OpenList.write_constant_spec hp written
    exact ⟨p', b', rfl, appended⟩
  | .enum descriptor value, e, e', target, p, l, outer, b, name, has, hp, h => by
    obtain ⟨e₁, step, h⟩ := bind_eq_ok.mp h
    cases h
    obtain ⟨ls, p', b', written, rfl⟩ := step_writing has step
    obtain ⟨rfl, appended⟩ := OpenList.write_enum_spec hp written
    exact ⟨p', b', rfl, appended⟩
  | .nested descriptor values, e, e', target, p, l, outer, b, name, has, hp, h => by
    rw [Value.events, List.map_cons, List.map_append] at h
    obtain ⟨e₁, step, h⟩ := bind_eq_ok.mp h
    obtain ⟨ls, p₁, b₁, written, rfl⟩ := step_writing has step
    obtain ⟨room, grows, front, i, hname, type, rfl, rfl⟩ := OpenList.write_nested_spec hp written
    obtain ⟨p₂, items, rfl, grows', count, encoded⟩ :=
      run_list values has grows.wellFormed (run_values values) h
    refine ⟨p₂, _, rfl, room, grows.trans grows',
      front, 64 :: (bytesU2 i ++ (bytesU2 values.length.toUInt16 ++ items)), ?_,
      hname.mono grows'.within, ?_⟩
    · rw [Buffer.pushText_pushText, List.append_assoc]
      rfl
    · rw [Value.readBack, Value.EncodedBy, Values.length_readBack]
      exact ⟨i, items, grows'.within.utf8At type, encoded, count, rfl⟩
  | .array elements, e, e', target, p, l, outer, b, name, has, hp, h => by
    rw [Value.events, List.map_cons, List.map_append] at h
    obtain ⟨e₁, step, h⟩ := bind_eq_ok.mp h
    obtain ⟨ls, p₁, b₁, written, rfl⟩ := step_writing has step
    obtain ⟨room, grows, front, hname, rfl, rfl⟩ := OpenList.write_array_spec hp written
    obtain ⟨p₂, items, rfl, grows', count, encoded⟩ :=
      run_list elements has grows.wellFormed (run_values elements) h
    refine ⟨p₂, _, rfl, room, grows.trans grows',
      front, 91 :: (bytesU2 elements.length.toUInt16 ++ items), ?_, hname.mono grows'.within, ?_⟩
    · rw [Buffer.pushText_pushText, List.append_assoc]
      rfl
    · rw [Value.readBack, Value.EncodedBy, Values.length_readBack]
      exact ⟨items, encoded, count, rfl⟩

/-- The events of the values of a list append encodings of the values. -/
theorem run_values : ∀ (vs : Values), WritesValues vs
  | .nil, e, e', target, p, l, outer, b, has, hp, h => by
    cases h
    have := l.count.toNat_lt
    refine ⟨p, [], ?_, hp.grows, by rw [Values.length]; omega, rfl⟩
    rw [Values.length, OpenList.counted_zero, Buffer.pushText_nil]
  | .cons name v rest, e, e', target, p, l, outer, b, has, hp, h => by
    rw [Values.events, List.map_append, run_append] at h
    obtain ⟨e₁, first, h⟩ := bind_eq_ok.mp h
    obtain ⟨p₁, b₁, rfl, room, grows, front, item, rfl, hname, hitem⟩ := run_value v name has hp first
    obtain ⟨p₂, items, rfl, grows', count, encoded⟩ := run_values rest has grows.wellFormed h
    have room' : (l.counted 1).count.toNat = l.count.toNat + 1 := by
      have one : (1 : Nat).toUInt16.toNat = 1 := rfl
      rw [OpenList.counted, UInt16.toNat_add, one]
      omega
    refine ⟨p₂, front ++ (item ++ items), ?_, grows.trans grows', ?_, ?_⟩
    · rw [OpenList.counted_counted, Values.length, Nat.add_comm 1, Buffer.pushText_pushText,
        List.append_assoc]
    · rw [room'] at count
      rw [Values.length]
      omega
    · rw [Values.readBack, Values.EncodedBy]
      exact ⟨front, item, items, hname.mono grows'.within, hitem.mono grows'.within, encoded, rfl⟩

end

end Encoder

end ClassAbi
