import ClassAbi.Proofs.PoolCalls
import ClassAbi.Proofs.SuppliedValues

/-!
# Values are appended

All the lists of a tree of values go to one buffer.  What a list writes depends on the pool
and the values alone: `Values.emit` says what it is and which fault ends it, and looks at no
buffer.  The events of a list come to `Values.emit`, with the bytes behind whatever is in the
buffer and the number of values at the count of the list (`Encoder.Opens.run_closed`).  This holds
of every list inside as well, which has its count in what is appended.

The bytes refer to the pool as it is in the end.  `Values.encodeWith` is the encoding of JVMS
4.7.16.1 with an index for each key, and the pool has each key at one index
(`Values.emit_spec`).  `Encoder.writtenAs_of_run` says both of every list whose events are
taken.
-/

namespace ClassAbi

/-! ## What is emitted -/

/-- The bytes in front of a value that has `count` values before it. -/
def emitName (named : Bool) (count : UInt16) (name : Text) (p : Pool) :
    Except EncodeFault (Text × Pool) :=
  if count < 0xFFFF then
    if named then do
      let (index, p) ← p.addUtf8 name
      return (bytesU2 index, p)
    else .ok ([], p)
  else .error .tooManyValues

mutual

/-- The bytes of a value, and the pool behind it. -/
def Value.emit (p : Pool) : Value → Except EncodeFault (Text × Pool)
  | .constant c => do
    let (index, p) ← p.addElement c
    return (c.tag :: bytesU2 index, p)
  | .enum descriptor value => do
    let (type, p) ← p.addUtf8 descriptor
    let (constant, p) ← p.addUtf8 value
    return (101 :: (bytesU2 type ++ bytesU2 constant), p)
  | .nested descriptor values => do
    let (type, p) ← p.addUtf8 descriptor
    let (items, p) ← values.emit true 0 p
    return (64 :: (bytesU2 type ++ (bytesU2 values.length.toUInt16 ++ items)), p)
  | .array elements => do
    let (items, p) ← elements.emit false 0 p
    return (91 :: (bytesU2 elements.length.toUInt16 ++ items), p)

/-- The bytes of the values of a list that has `count` values before them, and the pool
behind them. -/
def Values.emit (named : Bool) (count : UInt16) (p : Pool) :
    Values → Except EncodeFault (Text × Pool)
  | .nil => .ok ([], p)
  | .cons name value rest => do
    let (front, p) ← emitName named count name p
    let (item, p) ← value.emit p
    let (back, p) ← rest.emit named (count + 1) p
    return (front ++ (item ++ back), p)

end

/-! ## Counts in a buffer -/

namespace OpenList

/-- The list has no values yet, and its count stands in the buffer. -/
structure Fresh (l : OpenList) (b : Buffer) : Prop where
  empty : l.count = 0
  inside : ∀ offset, l.countAt = some offset → offset + 2 ≤ b.size

/-- The buffer with the number of values at the count of the list. -/
def settle (l : OpenList) (n : Nat) (b : Buffer) : Buffer :=
  match l.countAt with
  | some offset => b.patchU2 offset n.toUInt16
  | none => b

variable {l : OpenList} {b : Buffer}

theorem named_counted (l : OpenList) (n : Nat) : (l.counted n).named = l.named := rfl

theorem countAt_counted (l : OpenList) (n : Nat) : (l.counted n).countAt = l.countAt := rfl

theorem count_counted_one (l : OpenList) : (l.counted 1).count = l.count + 1 := rfl

theorem beginValue_eq (p : Pool) (name : Text) :
    l.beginValue p b name = emitName l.named l.count name p >>= fun x =>
      .ok (l.counted 1, x.2, b.pushText x.1) := by
  unfold beginValue emitName
  split
  · cases named : l.named with
    | false => simp [counted, named, Buffer.pushText_nil, ok_bind]
    | true =>
      simp only [if_true, bind_assoc]
      cases p.addUtf8 name with
      | error fault => rfl
      | ok x => simp [counted, named, ok_bind, Buffer.pushU2_eq]
  · rfl

/-- A list whose count was just written is fresh. -/
theorem fresh_opened (named : Bool) (b : Buffer) :
    (⟨named, some b.size, 0⟩ : OpenList).Fresh (b.pushU2 0) where
  empty := rfl
  inside offset place := by
    cases place
    rw [Buffer.pushU2_eq, Buffer.size_pushText]
    rfl

/-- The count of such a list is what its number of values is written to. -/
theorem settle_opened (named : Bool) (n : Nat) (b : Buffer) :
    (⟨named, some b.size, 0⟩ : OpenList).settle n (b.pushU2 0) =
      b.pushText (bytesU2 n.toUInt16) := by
  have patched := b.patchU2_pushText 0 n.toUInt16 []
  rwa [List.append_nil, List.append_nil] at patched

/-- Closing a list patches its count and leaves what its values appended. -/
theorem Fresh.write_close (h : l.Fresh b) (n : Nat) (p : Pool) (items : Text) :
    (l.counted n).write p (b.pushText items) .close =
      .ok ([], p, (l.settle n b).pushText items) := by
  have number : (l.counted n).count = n.toUInt16 := by
    rw [counted, h.empty, UInt16.zero_add]
  simp only [write, countAt_counted, number, settle]
  cases place : l.countAt with
  | none => rfl
  | some offset => simp only [Buffer.patchU2_pushText_of_le (h.inside offset place)]

end OpenList

/-! ## The events of a list -/

namespace Encoder

variable {e : Encoder} {target : ValueTarget} {p : Pool} {l : OpenList}
  {outer : List (ValueTarget × OpenList)} {b : Buffer}

theorem step_value (has : e.HasTarget target) (event : ValueEvent) :
    (e.writing target p ((target, l) :: outer) b).step (.value event) =
      l.write p b event >>= fun x =>
        .ok (e.writing target x.2.1 (x.1.map ((target, ·)) ++ outer) x.2.2) := by
  refine (visitValue_writing p b has l outer event).trans ?_
  cases l.write p b event <;> rfl

/-- The events of the values of a list append what is emitted. -/
def Appends (vs : Values) : Prop :=
  ∀ {e : Encoder} {target : ValueTarget} {p : Pool} {l : OpenList}
    {outer : List (ValueTarget × OpenList)} {b : Buffer}, e.HasTarget target →
    (e.writing target p ((target, l) :: outer) b).run (vs.events.map .value) =
      vs.emit l.named l.count p >>= fun x =>
        .ok (e.writing target x.2 ((target, l.counted vs.length) :: outer) (b.pushText x.1))

/-- With what closes it a list appends what is emitted, and patches its count. -/
theorem Appends.closed {vs : Values} (appends : Appends vs) (has : e.HasTarget target)
    (fresh : l.Fresh b) :
    (e.writing target p ((target, l) :: outer) b).run vs.closed =
      vs.emit l.named 0 p >>= fun x =>
        .ok (e.writing target x.2 outer ((l.settle vs.length b).pushText x.1)) := by
  rw [Values.closed, List.map_append, run_append, appends has, fresh.empty, bind_assoc]
  congr 1
  funext x
  rw [ok_bind, List.map_singleton, run_cons, step_value has, fresh.write_close]
  rfl

/-- A list that has just opened appends its number of values and what is emitted. -/
theorem Appends.opened {vs : Values} (appends : Appends vs) (has : e.HasTarget target)
    (named : Bool) :
    (e.writing target p ((target, ⟨named, some b.size, 0⟩) :: outer) (b.pushU2 0)).run vs.closed =
      vs.emit named 0 p >>= fun x =>
        .ok (e.writing target x.2 outer (b.pushText (bytesU2 vs.length.toUInt16 ++ x.1))) := by
  rw [appends.closed has (OpenList.fresh_opened named b), OpenList.settle_opened]
  simp only [Buffer.pushText_pushText]

mutual

/-- The events of a value append its name and what is emitted. -/
theorem run_value_eq : ∀ (v : Value) {e : Encoder} {target : ValueTarget} {p : Pool} {l : OpenList}
    {outer : List (ValueTarget × OpenList)} {b : Buffer} (name : Text), e.HasTarget target →
    (e.writing target p ((target, l) :: outer) b).run ((v.events name).map .value) =
      emitName l.named l.count name p >>= fun front => v.emit front.2 >>= fun item =>
        .ok (e.writing target item.2 ((target, l.counted 1) :: outer)
          (b.pushText (front.1 ++ item.1)))
  | .constant c, e, target, p, l, outer, b, name, has => by
    rw [Value.events, List.map_singleton, run_cons, step_value has, OpenList.write,
      OpenList.beginValue_eq]
    -- Both sides do the same steps, so a fault ends them alike.
    rcases emitName l.named l.count name p with fault | ⟨front, q⟩
    · rfl
    simp only [ok_bind, Value.emit]
    rcases q.addElement c with fault | ⟨index, r⟩
    · rfl
    simp only [Buffer.pushU1_eq, Buffer.pushU2_eq, Buffer.pushText_pushText, List.append_assoc]
    rfl
  | .enum descriptor value, e, target, p, l, outer, b, name, has => by
    rw [Value.events, List.map_singleton, run_cons, step_value has, OpenList.write,
      OpenList.beginValue_eq]
    rcases emitName l.named l.count name p with fault | ⟨front, q⟩
    · rfl
    simp only [ok_bind, Value.emit]
    rcases q.addUtf8 descriptor with fault | ⟨type, r⟩
    · rfl
    simp only [ok_bind]
    rcases r.addUtf8 value with fault | ⟨constant, r'⟩
    · rfl
    simp only [Buffer.pushU1_eq, Buffer.pushU2_eq, Buffer.pushText_pushText, List.append_assoc]
    rfl
  | .nested descriptor values, e, target, p, l, outer, b, name, has => by
    rw [Value.events, List.map_cons, run_cons, step_value has, OpenList.write,
      OpenList.beginValue_eq]
    rcases emitName l.named l.count name p with fault | ⟨front, q⟩
    · rfl
    simp only [ok_bind, Value.emit]
    rcases q.addUtf8 descriptor with fault | ⟨type, r⟩
    · rfl
    -- The count of the list inside stands where the buffer ends now.
    refine (Appends.opened (appends values) has true).trans ?_
    simp only [ok_bind]
    rcases values.emit true 0 r with fault | ⟨items, r'⟩
    · rfl
    simp only [Buffer.pushU1_eq, Buffer.pushU2_eq, Buffer.pushText_pushText, List.append_assoc]
    rfl
  | .array elements, e, target, p, l, outer, b, name, has => by
    rw [Value.events, List.map_cons, run_cons, step_value has, OpenList.write,
      OpenList.beginValue_eq]
    rcases emitName l.named l.count name p with fault | ⟨front, q⟩
    · rfl
    refine (Appends.opened (appends elements) has false).trans ?_
    simp only [ok_bind, Value.emit]
    rcases elements.emit false 0 q with fault | ⟨items, r⟩
    · rfl
    simp only [Buffer.pushU1_eq, Buffer.pushText_pushText, List.append_assoc]
    rfl

/-- The events of the values of a list append what is emitted. -/
theorem appends : ∀ (vs : Values), Appends vs
  | .nil, e, target, p, l, outer, b, has => by
    rw [Values.length, OpenList.counted_zero]
    rfl
  | .cons name v rest, e, target, p, l, outer, b, has => by
    rw [Values.events, List.map_append, run_append, run_value_eq v name has]
    simp only [Values.emit]
    rcases emitName l.named l.count name p with fault | ⟨front, q⟩
    · rfl
    simp only [ok_bind]
    rcases v.emit q with fault | ⟨item, r⟩
    · rfl
    simp only [ok_bind]
    refine (appends rest has).trans ?_
    rw [OpenList.counted_counted, Values.length, Nat.add_comm 1, OpenList.named_counted,
      OpenList.count_counted_one]
    rcases rest.emit l.named (l.count + 1) r with fault | ⟨back, r'⟩
    · rfl
    simp only [ok_bind, Buffer.pushText_pushText, List.append_assoc]
    rfl

end

end Encoder

/-! ## Encodings by the indexes of keys -/

mutual

/-- The keys that an encoding of the value refers to, in order. -/
def Value.keys : Value → List PoolKey
  | .constant c => [c.elementKey]
  | .enum descriptor value => [.text descriptor, .text value]
  | .nested descriptor values => .text descriptor :: values.keys true
  | .array elements => elements.keys false

/-- The keys that an encoding of the values refers to, with names or without. -/
def Values.keys (named : Bool) : Values → List PoolKey
  | .nil => []
  | .cons name value rest =>
    (if named then [.text name] else []) ++ (value.keys ++ rest.keys named)

end

mutual

/-- The encoding of a value (JVMS 4.7.16.1) with these indexes of the keys. -/
def Value.encodeWith (index : PoolKey → UInt16) : Value → Text
  | .constant c => c.tag :: bytesU2 (index c.elementKey)
  | .enum descriptor value =>
    101 :: (bytesU2 (index (.text descriptor)) ++ bytesU2 (index (.text value)))
  | .nested descriptor values =>
    64 :: (bytesU2 (index (.text descriptor)) ++
      (bytesU2 values.length.toUInt16 ++ values.encodeWith index true))
  | .array elements =>
    91 :: (bytesU2 elements.length.toUInt16 ++ elements.encodeWith index false)

/-- The encodings of the values one behind the other, with names or without. -/
def Values.encodeWith (index : PoolKey → UInt16) (named : Bool) : Values → Text
  | .nil => []
  | .cons name value rest =>
    (if named then bytesU2 (index (.text name)) else []) ++
      (value.encodeWith index ++ rest.encodeWith index named)

end

/-- The index of a key in the pool of the keys used. -/
def indexIn (used : List PoolKey) (k : PoolKey) : UInt16 := (numberIn used.eraseDups k).toUInt16

namespace Pool

theorem addElement_eq (p : Pool) (c : Constant) : p.addElement c = p.addKey c.elementKey := by
  cases c <;> rfl

variable {p q : Pool} {used : List PoolKey} {k : PoolKey} {i : UInt16}

/-- A key that refers to no other is added alone, and its index stays. -/
theorem Lists.addAlone (h : p.Lists used.eraseDups) (alone : k.text? = none)
    (added : p.addKey k = .ok (i, q)) :
    q.Lists (used ++ [k]).eraseDups ∧ ∀ more, i = indexIn (used ++ k :: more) k := by
  obtain ⟨lists, number⟩ := h.addKey added
  have uses : k.uses = [k] := by rw [PoolKey.uses, alone]; rfl
  rw [uses] at lists number
  refine ⟨lists, fun more => ?_⟩
  have mem : k ∈ used ++ [k] := by simp
  rw [List.append_cons, indexIn, numberIn_eraseDups_append mem]
  exact toUInt16_of_eq_toNat number.symm

/-- The pool finds a key at its index, and nowhere else. -/
theorem Lists.finds_indexIn (h : p.Lists used.eraseDups) (mem : k ∈ used) :
    p.table.Finds i k ↔ i = indexIn used k := by
  have mem := List.mem_eraseDups.mpr mem
  rw [h.finds_iff, ← UInt16.toNat_inj, indexIn, toNat_numberIn h.room mem]
  exact and_iff_right mem

end Pool

theorem Constant.text?_elementKey (c : Constant) : c.elementKey.text? = none := by
  cases c <;> rfl

/-- The pool has the keys behind those used before, and the bytes are what is encoded with
their indexes, also after more keys are added. -/
structure Emitted (used keys : List PoolKey) (encode : (PoolKey → UInt16) → Text) (bs : Text)
    (p : Pool) : Prop where
  lists : p.Lists (used ++ keys).eraseDups
  bytes : ∀ more, bs = encode (indexIn (used ++ (keys ++ more)))

namespace Emitted

variable {used keys keys' : List PoolKey} {encode encode' : (PoolKey → UInt16) → Text}
  {bs bs' : Text} {p q : Pool} {k : PoolKey} {i : UInt16}

theorem nil (h : p.Lists used.eraseDups) : Emitted used [] (fun _ => []) [] p where
  lists := by rwa [List.append_nil]
  bytes _ := rfl

theorem ofKey (h : p.Lists used.eraseDups) (alone : k.text? = none)
    (added : p.addKey k = .ok (i, q)) :
    Emitted used [k] (fun index => bytesU2 (index k)) (bytesU2 i) q := by
  obtain ⟨lists, index⟩ := h.addAlone alone added
  exact ⟨lists, fun more => congrArg bytesU2 (index more)⟩

/-- Bytes that refer to nothing go in front. -/
theorem push (h : Emitted used keys encode bs p) (front : Text) :
    Emitted used keys (fun index => front ++ encode index) (front ++ bs) p where
  lists := h.lists
  bytes more := congrArg (front ++ ·) (h.bytes more)

theorem append (h : Emitted used keys encode bs p)
    (h' : Emitted (used ++ keys) keys' encode' bs' q) :
    Emitted used (keys ++ keys') (fun index => encode index ++ encode' index) (bs ++ bs') q where
  lists := by
    rw [← List.append_assoc]
    exact h'.lists
  bytes more := by
    have front := h.bytes (keys' ++ more)
    have back := h'.bytes more
    rw [List.append_assoc] at back
    rw [List.append_assoc, ← front, ← back]

end Emitted

theorem emitName_spec {used : List PoolKey} {named : Bool} {count : UInt16} {name front : Text}
    {p q : Pool} (h : p.Lists used.eraseDups)
    (emitted : emitName named count name p = .ok (front, q)) :
    Emitted used (if named then [.text name] else [])
      (fun index => if named then bytesU2 (index (.text name)) else []) front q := by
  unfold emitName at emitted
  split at emitted
  · cases named with
    | false =>
      cases emitted
      exact .nil h
    | true =>
      obtain ⟨⟨index, r⟩, added, emitted⟩ := bind_eq_ok.mp emitted
      cases emitted
      exact .ofKey (k := .text name) h rfl added
  · cases emitted

mutual

/-- A value is emitted as its encoding. -/
theorem Value.emit_spec : ∀ (v : Value) {used : List PoolKey} {bs : Text} {p q : Pool},
    p.Lists used.eraseDups → v.emit p = .ok (bs, q) → Emitted used v.keys v.encodeWith bs q
  | .constant c, used, bs, p, q, h, emitted => by
    obtain ⟨⟨index, r⟩, added, emitted⟩ := bind_eq_ok.mp emitted
    cases emitted
    rw [Pool.addElement_eq] at added
    exact (Emitted.ofKey h c.text?_elementKey added).push [c.tag]
  | .enum descriptor value, used, bs, p, q, h, emitted => by
    obtain ⟨⟨type, r⟩, first, emitted⟩ := bind_eq_ok.mp emitted
    obtain ⟨⟨constant, r'⟩, second, emitted⟩ := bind_eq_ok.mp emitted
    cases emitted
    have front := Emitted.ofKey (k := .text descriptor) h rfl first
    have back := Emitted.ofKey (k := .text value) front.lists rfl second
    exact (front.append back).push [101]
  | .nested descriptor values, used, bs, p, q, h, emitted => by
    obtain ⟨⟨type, r⟩, added, emitted⟩ := bind_eq_ok.mp emitted
    obtain ⟨⟨items, r'⟩, inner, emitted⟩ := bind_eq_ok.mp emitted
    cases emitted
    have front := Emitted.ofKey (k := .text descriptor) h rfl added
    have back := values.emit_spec front.lists inner
    exact (front.append (back.push (bytesU2 values.length.toUInt16))).push [64]
  | .array elements, used, bs, p, q, h, emitted => by
    obtain ⟨⟨items, r⟩, inner, emitted⟩ := bind_eq_ok.mp emitted
    cases emitted
    exact (elements.emit_spec h inner).push (91 :: bytesU2 elements.length.toUInt16)

/-- The values of a list are emitted as their encodings. -/
theorem Values.emit_spec : ∀ (vs : Values) {named : Bool} {count : UInt16} {used : List PoolKey}
    {bs : Text} {p q : Pool}, p.Lists used.eraseDups → vs.emit named count p = .ok (bs, q) →
      Emitted used (vs.keys named) (vs.encodeWith · named) bs q
  | .nil, named, count, used, bs, p, q, h, emitted => by
    cases emitted
    exact .nil h
  | .cons name v rest, named, count, used, bs, p, q, h, emitted => by
    obtain ⟨⟨front, r⟩, first, emitted⟩ := bind_eq_ok.mp emitted
    obtain ⟨⟨item, r'⟩, second, emitted⟩ := bind_eq_ok.mp emitted
    obtain ⟨⟨back, r''⟩, third, emitted⟩ := bind_eq_ok.mp emitted
    cases emitted
    have front := emitName_spec h first
    have item := v.emit_spec front.lists second
    have back := rest.emit_spec item.lists third
    exact front.append (item.append back)

end

/-! ## What a list comes to -/

/-- Two items that are replaced, with what is in front of them and behind them. -/
theorem set_set_succ {α : Type} {xs : List α} {i : Nat} (inside : i + 2 ≤ xs.length) (x y : α) :
    (xs.set i x).set (i + 1) y = xs.take i ++ ([x, y] ++ xs.drop (i + 2)) := by
  have first : xs.set i x = xs.take i ++ x :: xs.drop (i + 1) := by
    rw [List.set_eq_take_append_cons_drop, if_pos (by omega)]
  have second : (xs.drop (i + 1)).set 0 y = y :: xs.drop (i + 2) := by
    rw [List.drop_eq_getElem_cons (by omega)]
    rfl
  have length : (xs.take i).length = i := by rw [List.length_take]; omega
  rw [first, List.set_append_right _ _ (by omega), length, Nat.add_sub_cancel_left,
    List.set_cons_succ, second]
  rfl

/-- The bytes with the number of values at the count of the list. -/
def OpenList.withCount (l : OpenList) (n : Nat) (bs : Text) : Text :=
  match l.countAt with
  | some offset => bs.take offset ++ (bytesU2 n.toUInt16 ++ bs.drop (offset + 2))
  | none => bs

theorem OpenList.Fresh.toList_settle {l : OpenList} {b : Buffer} (h : l.Fresh b) (n : Nat) :
    (l.settle n b).toList = l.withCount n b.toList := by
  unfold settle withCount
  cases place : l.countAt with
  | none => rfl
  | some offset =>
    have inside := h.inside offset place
    rw [← Buffer.length_toList] at inside
    rw [Buffer.toList_patchU2, set_set_succ inside]
    rfl

/-- The innermost open list has no values yet, and its count stands in the buffer of the target. -/
structure Encoder.Opens (e : Encoder) (target : ValueTarget) (l : OpenList)
    (outer : List (ValueTarget × OpenList)) : Prop where
  has : e.HasTarget target
  opened : e.opened = (target, l) :: outer
  fresh : l.Fresh (e.buffer target)

/-- What it comes to that an encoder with the pool `p` takes the values of its innermost list
and the event that closes it.  The items are what is appended, and the pool is `q` afterwards. -/
structure Values.WrittenAs (vs : Values) (named : Bool) (p q : Pool) (items : Text) : Prop where
  /-- In every buffer the bytes stay, all but the count of the list, and the items come behind
  them. -/
  appended : ∀ {e : Encoder} {target : ValueTarget} {l : OpenList}
    {outer : List (ValueTarget × OpenList)}, e.Opens target l outer → l.named = named →
    e.pool = p → ∃ b, e.run vs.closed = .ok (e.writing target q outer b) ∧
      b.toList = l.withCount vs.length (e.buffer target).toList ++ items
  /-- The items have the index of the one entry for each key. -/
  indexed : ∃ index, items = vs.encodeWith index named ∧
    ∀ k ∈ vs.keys named, ∀ i, q.table.Finds i k ↔ i = index k
  /-- The items are read as the values, and the count of each list is its number of values. -/
  encoded : (vs.readBack named).EncodedBy q.table named items
  few : vs.length ≤ 0xFFFF

/-- What is emitted is an encoding that is read as the values. -/
theorem Values.encodedBy_of_emit {vs : Values} {named : Bool} {p q : Pool} {items : Text}
    (hp : p.WellFormed) (emitted : vs.emit named 0 p = .ok (items, q)) :
    (vs.readBack named).EncodedBy q.table named items ∧ vs.length ≤ 0xFFFF := by
  -- Any encoder will do, since what is emitted is the same in each.
  have has : (∅ : Encoder).HasTarget (.ofClass true) := trivial
  have run : ((∅ : Encoder).writing (.ofClass true) p [(.ofClass true, ⟨named, none, 0⟩)] ∅).run
      (vs.events.map .value) = _ := Encoder.appends vs has
  rw [emitted, ok_bind] at run
  obtain ⟨q', items', same, -, few, encoded⟩ := Encoder.run_values vs has hp run
  have pools := congrArg Encoder.pool same
  have buffers := congrArg (fun e => (e.buffer (.ofClass true)).toList) same
  simp only [Encoder.pool_writing, Encoder.buffer_writing _ _ _ has, Buffer.toList_pushText,
    List.append_cancel_left_eq] at pools buffers
  rw [← pools, ← buffers] at encoded
  have zero : (0 : UInt16).toNat = 0 := rfl
  exact ⟨encoded, by simpa only [zero, Nat.zero_add] using few⟩

namespace Encoder

/-- An annotation that begins opens the list of its values, behind what the table has. -/
theorem opens_of_annotate {e e' : Encoder} {target : ValueTarget} {descriptor : Text}
    (has : e.HasTarget target) (isTable : IsTable target)
    (h : e.annotate target descriptor = .ok e') :
    ∃ type, e'.Opens target (.ofNamed ((e.buffer target).size + 2)) e.opened ∧
      (e'.buffer target).toList = (e.buffer target).toList ++ (bytesU2 type ++ bytesU2 0) := by
  have opened := h
  simp only [annotate] at opened
  split at opened
  · next room =>
    obtain ⟨⟨type, p⟩, added, -⟩ := bind_eq_ok.mp opened
    have begun := annotate_eq_writing isTable room added rfl
    rw [h] at begun
    cases begun
    have has' := hasTarget_modifyTable has fun t => { t with count := (e.table target).count + 1 }
    refine ⟨type, ⟨?_, ?_, ?_⟩, ?_⟩
    · exact hasTarget_writing _ _ _ has'
    · rw [opened_writing, Buffer.size_pushText]
      rfl
    · rw [buffer_writing _ _ _ has']
      have fresh := OpenList.fresh_opened true ((e.buffer target).pushText (bytesU2 type))
      rwa [Buffer.size_pushText] at fresh
    · rw [buffer_writing _ _ _ has']
      simp [buffer]
  · cases opened

/-- A default that begins opens a list that has no count. -/
theorem opens_of_default {e e' : Encoder} (some : 0 < e.methods.size)
    (h : e.step .default = .ok e') :
    e'.Opens (.ofDefault (e.methods.size - 1)) .ofDefault e.opened := by
  cases h
  exact ⟨Nat.sub_lt some Nat.one_pos, rfl, rfl, nofun⟩

/-- What the values of a list and what closes it do to an encoder, failures included, depends on
its pool alone. -/
theorem Opens.run_closed {e : Encoder} {target : ValueTarget} {l : OpenList}
    {outer : List (ValueTarget × OpenList)} (h : e.Opens target l outer) (vs : Values) :
    e.run vs.closed = vs.emit l.named 0 e.pool >>= fun x =>
      .ok (e.writing target x.2 outer ((l.settle vs.length (e.buffer target)).pushText x.1)) := by
  have run : (e.writing target e.pool ((target, l) :: outer) (e.buffer target)).run vs.closed = _ :=
    Appends.closed (appends vs) h.has h.fresh
  rwa [← h.opened, writing_self] at run

theorem Opens.exists_of_emit {e : Encoder} {target : ValueTarget} {l : OpenList}
    {outer : List (ValueTarget × OpenList)} (h : e.Opens target l outer) {vs : Values} {q : Pool}
    {items : Text} (emitted : vs.emit l.named 0 e.pool = .ok (items, q)) :
    ∃ b, e.run vs.closed = .ok (e.writing target q outer b) ∧
      b.toList = l.withCount vs.length (e.buffer target).toList ++ items := by
  refine ⟨(l.settle vs.length (e.buffer target)).pushText items, ?_, ?_⟩
  · rw [h.run_closed, emitted, ok_bind]
  · rw [Buffer.toList_pushText, h.fresh.toList_settle]

/-- Every delivery of values to a list, with whatever pool and whatever in the buffer, appends
an encoding of the values and patches the count of the list. -/
theorem writtenAs_of_run {calls : List PoolCall} {indexes : List UInt16} {e e' : Encoder}
    {target : ValueTarget} {l : OpenList} {outer : List (ValueTarget × OpenList)} {vs : Values}
    (reached : (∅ : Pool).callEach calls = .ok (indexes, e.pool)) (opens : e.Opens target l outer)
    (run : e.run vs.closed = .ok e') :
    ∃ q items, vs.WrittenAs l.named e.pool q items ∧ ∃ b, e' = e.writing target q outer b ∧
      b.toList = l.withCount vs.length (e.buffer target).toList ++ items := by
  have lists : e.pool.Lists (usedKeys calls).eraseDups := (Pool.lawful_of_run reached).1
  have emits := run
  rw [opens.run_closed] at emits
  obtain ⟨⟨items, q⟩, emitted, -⟩ := bind_eq_ok.mp emits
  obtain ⟨b, ran, bytes⟩ := opens.exists_of_emit emitted
  rw [ran] at run
  have spec := vs.emit_spec lists emitted
  obtain ⟨encoded, few⟩ := Values.encodedBy_of_emit lists.wellFormed emitted
  refine ⟨q, items, ⟨?_, ?_, encoded, few⟩, b, (Except.ok.inj run).symm, bytes⟩
  · intro e₁ target₁ l₁ outer₁ opens₁ named pool
    exact opens₁.exists_of_emit (by rw [named, pool, emitted])
  · refine ⟨_, spec.bytes [], fun k mem i => ?_⟩
    rw [List.append_nil]
    exact spec.lists.finds_indexIn (List.mem_append_right _ mem)

/-! ### Lists of every kind -/

/-- A number, an array with a string and an enum constant, and a nested annotation with a long
number and an empty array. -/
def mixedValues : Values :=
  .cons [97] (.constant (.int 7)) <|
  .cons [98] (.array (.cons [] (.constant (.string [120])) (.cons [] (.enum [69] [120]) .nil))) <|
  .cons [99] (.nested [78] (.cons [100] (.constant (.long 7)) (.cons [97] (.array .nil) .nil))) .nil

/-- The keys of the values, each once. -/
def mixedKeys : List PoolKey := (mixedValues.keys true).eraseDups

theorem isSupply_mixedKeys : IsSupply mixedKeys := by
  have keys : mixedKeys = [.text [97], .integer 7, .text [98], .text [120], .text [69], .text [99],
      .text [78], .text [100], .long 7] := by decide
  rw [keys]
  constructor
  · intro t mem
    simp only [List.mem_cons, PoolKey.text.injEq, reduceCtorEq, List.not_mem_nil, or_false,
      false_or] at mem
    rcases mem with rfl | rfl | rfl | rfl | rfl | rfl | rfl <;> decide
  · intro name mem
    simp at mem
  · intro t mem
    simp at mem
  · decide

theorem storable_mixedValues : mixedValues.Storable mixedKeys true := by
  simp only [mixedValues, Values.Storable, Value.Storable, Values.length]
  decide

/-- An encoder whose list has its count between other bytes. -/
def betweenBytes : Encoder :=
  (∅ : Encoder).writing (.ofClass true) ∅ [(.ofClass true, ⟨true, some 1, 0⟩)]
    (Buffer.empty.pushText [5, 0, 0, 6])

theorem opens_betweenBytes : betweenBytes.Opens (.ofClass true) ⟨true, some 1, 0⟩ [] where
  has := trivial
  opened := opened_writing ..
  fresh := ⟨rfl, by
    rintro offset ⟨⟩
    decide⟩

theorem writtenAs_of_run_mixedValues : ∃ q items b,
    mixedValues.WrittenAs true betweenBytes.pool q items ∧
      betweenBytes.run mixedValues.closed = .ok (betweenBytes.writing (.ofClass true) q [] b) ∧
      b.toList = [5, 0, 3, 6] ++ items := by
  have has : (∅ : Encoder).HasTarget (.ofClass true) := trivial
  have reached : (∅ : Pool).callEach [] = .ok ([], betweenBytes.pool) := rfl
  obtain ⟨p, b₀, run, -⟩ : Encoder.TakesInto mixedKeys ∅ (.ofClass true) ∅
      [(.ofClass true, ⟨true, some 1, 0⟩)] (Buffer.empty.pushText [5, 0, 0, 6])
      (mixedValues.events ++ [ValueEvent.close]) [] :=
    takesInto_closed isSupply_mixedKeys has storable_mixedValues (by decide) (Pool.room_empty _)
  obtain ⟨q, items, written, b, same, bytes⟩ := writtenAs_of_run reached opens_betweenBytes run
  rw [same] at run
  exact ⟨q, items, b, written, run, bytes⟩

end Encoder

end ClassAbi
