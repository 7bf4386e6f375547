import ClassAbi.Proofs.CheckedReader
import ClassAbi.Proofs.Lookups
import ClassAbi.Proofs.StoredPool

/-!
# The steps and lookups of the checked reader

The checked reader is compared with the scans and lookups that `readClass` is made
of, from the inside out.  A number is read as the scan of it says (`Walk.Reads`).
A lookup finds what the table says and leaves the cursor where it is
(`Walk.Finds`).  That needs the slots of the reader to be those of the table: each
slot has the tag of its entry, and the contents stand behind it in the file
(`PoolHeld`).  So no lookup meets the end of the file.

After a problem a number is 0 and a lookup does nothing (`Walk.Halts`).
-/

namespace ClassAbi

namespace Walk

variable {α β γ : Type} {d : ByteArray}

/-! ## Running -/

theorem bind_apply (m : Walk α) (k : α → Walk β) (c : Cursor) :
    (m >>= k) c =
      match m c with
      | .ok (some a, c) => k a c
      | .ok (none, c) => .ok (none, c)
      | .error b => .error b :=
  rfl

theorem pure_apply (a : α) (c : Cursor) : (pure a : Walk α) c = .ok (some a, c) := rfl

theorem bind_bind (m : Walk α) (f : α → Walk β) (g : β → Walk γ) :
    m >>= f >>= g = m >>= fun a => f a >>= g := by
  funext c
  rw [bind_apply, bind_apply, bind_apply]
  cases m c with
  | error b => rfl
  | ok x =>
    obtain ⟨result, c'⟩ := x
    cases result <;> rfl

theorem bind_some {m : Walk α} {k : α → Walk β} {c c' : Cursor} {a : α}
    (h : m c = .ok (some a, c')) : (m >>= k) c = k a c' := by
  rw [bind_apply, h]

theorem bind_none {m : Walk α} {k : α → Walk β} {c c' : Cursor}
    (h : m c = .ok (none, c')) : (m >>= k) c = .ok (none, c') := by
  rw [bind_apply, h]

theorem check_apply {b : Breach} {holds : Prop} [Decidable holds] (h : holds) (c : Cursor) :
    check b holds c = .ok (some (), c) := by
  rw [check, if_pos h]
  rfl

theorem seek_apply {offset : Nat} (h : offset ≤ d.size) (c : Cursor) :
    seek d offset c = .ok (some (), { c with pos := offset }) :=
  bind_some (check_apply h c)

/-! ## After a problem -/

/-- After a problem, nothing more happens. -/
def Halts (m : Walk α) : Prop := ∀ c : Cursor, c.problem.isSome → m c = .ok (none, c)

theorem Halts.bind {m : Walk α} (h : Halts m) (k : α → Walk β) : Halts (m >>= k) :=
  fun c problem => bind_none (h c problem)

theorem halts_unlessFailed : Halts unlessFailed := by
  intro c problem
  simp [unlessFailed, bind_apply, state, problem, finish]

/-! ## Reading numbers -/

/-- The part reads what the scan scans.  After a problem it gives the same each time and does
nothing, and a problem of its own is kept. -/
structure Reads (d : ByteArray) (read : Walk α) (none : α)
    (scan : Nat → Except ReadError (α × Nat)) : Prop where
  going : ∀ {p : Nat} (slots : List PoolSlot) (n : Nat) (es : List Event), p ≤ d.size →
    (∃ v q, scan p = .ok (v, q) ∧ q ≤ d.size ∧
      read ⟨p, slots, .none, n, es⟩ = .ok (some v, ⟨q, slots, .none, n, es⟩)) ∨
    ∃ e, scan p = .error e ∧
      read ⟨p, slots, .none, n, es⟩ = .ok (some none, ⟨p, slots, some e, n, es⟩)
  failed : ∀ c : Cursor, c.problem.isSome → read c = .ok (some none, c)

theorem require_of_le {count p : Nat} (slots : List PoolSlot) (n : Nat) (es : List Event)
    (h : p + count ≤ d.size) :
    require d count ⟨p, slots, none, n, es⟩ = .ok (some true, ⟨p, slots, none, n, es⟩) := by
  have inside : p ≤ d.size := by omega
  have room : count ≤ d.size - p := by omega
  simp [require, bind_apply, pure_apply, check_apply, state, inside, room]

theorem require_of_lt {count p : Nat} (slots : List PoolSlot) (n : Nat) (es : List Event)
    (inside : p ≤ d.size) (h : d.size < p + count) :
    require d count ⟨p, slots, none, n, es⟩ =
      .ok (some false, ⟨p, slots, some (truncatedAt d p count), n, es⟩) := by
  have room : ¬ count ≤ d.size - p := by omega
  simp [require, bind_apply, pure_apply, check_apply, state, update, inside, room]

theorem require_failed (count : Nat) {c : Cursor} (problem : c.problem.isSome) :
    require d count c = .ok (some false, c) := by
  simp [require, bind_apply, pure_apply, state, problem]

/-- A part that needs a number of bytes and reads these. -/
theorem reads_of_require {count : Nat} {part : Walk α} {none : α}
    {scan : Nat → Except ReadError (α × Nat)}
    (fits : ∀ {p : Nat} (slots : List PoolSlot) (n : Nat) (es : List Event), p + count ≤ d.size →
      ∃ v, scan p = .ok (v, p + count) ∧
        part ⟨p, slots, .none, n, es⟩ = .ok (some v, ⟨p + count, slots, .none, n, es⟩))
    (short : ∀ p, ¬ p + count ≤ d.size → scan p = .error (truncatedAt d p count)) :
    Reads d (require d count >>= fun enough => if enough then part else pure none) none scan where
  going {p} slots n es inside := by
    by_cases room : p + count ≤ d.size
    · obtain ⟨v, scanned, read⟩ := fits slots n es room
      refine .inl ⟨v, _, scanned, room, ?_⟩
      rw [bind_some (require_of_le slots n es room), if_pos rfl, read]
    · refine .inr ⟨_, short p room, ?_⟩
      rw [bind_some (require_of_lt slots n es inside (by omega))]
      rfl
  failed c problem := by
    rw [bind_some (require_failed count problem)]
    rfl

theorem byteAt_apply {offset : Nat} (h : offset < d.size) (c : Cursor) :
    byteAt d offset c = .ok (some d[offset], c) := by
  rw [byteAt, dif_pos h]
  rfl

theorem reads_readU1 (d : ByteArray) : Reads d (readU1 d) 0 (scanU1 d) := by
  refine reads_of_require (fun {p} slots n es room => ⟨d[p], dif_pos room, ?_⟩)
    fun p short => dif_neg short
  simp [bind_apply, pure_apply, state, byteAt_apply, seek_apply, room, Nat.lt_of_succ_le room]

theorem reads_readU2 (d : ByteArray) : Reads d (readU2 d) 0 (scanU2 d) := by
  refine reads_of_require (fun {p} slots n es room => ⟨_, dif_pos room, ?_⟩)
    fun p short => dif_neg short
  have first : p < d.size := by omega
  have second : p + 1 < d.size := by omega
  simp [bind_apply, pure_apply, state, byteAt_apply, seek_apply, room, first, second]

theorem reads_readU4 (d : ByteArray) : Reads d (readU4 d) 0 (scanU4 d) := by
  refine reads_of_require (fun {p} slots n es room => ⟨_, dif_pos room, ?_⟩)
    fun p short => dif_neg short
  have first : p < d.size := by omega
  have second : p + 1 < d.size := by omega
  have third : p + 2 < d.size := by omega
  have fourth : p + 3 < d.size := by omega
  simp [bind_apply, pure_apply, state, byteAt_apply, seek_apply, room, first, second, third, fourth]

/-- What is left out, with the nothing that it gives. -/
def scanSkip (d : ByteArray) (count offset : Nat) : Except ReadError (Unit × Nat) := do
  let stop ← skipBytes d offset count
  return ((), stop)

theorem reads_skip (d : ByteArray) (count : Nat) :
    Reads d (skip d count) () (scanSkip d count) := by
  refine reads_of_require (fun {p} slots n es room => ⟨(), ?_, ?_⟩) fun p short => ?_
  · simp [scanSkip, skipBytes, room]
  · simp [bind_apply, state, seek_apply, room]
  · simp [scanSkip, skipBytes, short]

section Halting

variable {read : Walk α} {none : α} {scan : Nat → Except ReadError (α × Nat)}

theorem Reads.halts_bind (h : Reads d read none scan) {k : α → Walk β} (next : Halts (k none)) :
    Halts (read >>= k) := by
  intro c problem
  rw [bind_some (h.failed c problem), next c problem]

end Halting

end Walk

/-! ## Entries of the constant pool -/

/-- The bytes behind the tag of an entry. -/
def TableEntry.contents : TableEntry → Text
  | utf8 s => bytesU2 s.length.toUInt16 ++ s
  | integer v => bytesU4 v
  | float b => bytesU4 b
  | long v => bytesU8 v
  | double b => bytesU8 b
  | classRef i => bytesU2 i
  | string i => bytesU2 i
  | unusable | other _ => []

/-- An entry that a table can have: its text is not too long, and its kind is known. -/
def TableEntry.Known : TableEntry → Prop
  | utf8 s => s.length ≤ 0xFFFF
  | other tag => (otherEntrySize tag).isSome
  | _ => True

/-- Where the slot says, the file has the entry. -/
structure PoolSlot.Holds (d : ByteArray) (slot : PoolSlot) (e : TableEntry) : Prop where
  tag : slot.tag = e.tag
  contents : HoldsAt d slot.offset e.contents
  known : e.Known

/-- The bits of an entry of a number. -/
def TableEntry.bits : TableEntry → Option UInt64
  | integer v => some v.toUInt64
  | float b => some b.toUInt64
  | long v => some v
  | double b => some b
  | _ => none

/-- The bits of the entry with an index, if it has the tag of the number that is looked up. -/
def TableEntry.number (e : TableEntry) (index : UInt16) (tag : UInt8) : Except ReadError UInt64 :=
  if e.tag = tag then
    match e.bits with
    | some bits => .ok bits
    | none => .error (.wrongEntry index e.tag tag)
  else .error (.wrongEntry index e.tag tag)

/-- The slots are those of the entries of the table. -/
def PoolHeld (d : ByteArray) (slots : List PoolSlot) (t : ConstantTable) : Prop :=
  List.Forall₂ (PoolSlot.Holds d) slots t.toList

/-- The tag tells the kind of an entry. -/
theorem TableEntry.Known.tag_eq {e : TableEntry} (known : e.Known) :
    (e.tag = tagUtf8 → ∃ s, e = .utf8 s) ∧ (e.tag = tagInteger → ∃ v, e = .integer v) ∧
      (e.tag = tagFloat → ∃ b, e = .float b) ∧ (e.tag = tagClass → ∃ i, e = .classRef i) ∧
      (e.tag = tagString → ∃ i, e = .string i) ∧ (e.tag = tagLong → ∃ v, e = .long v) ∧
      (e.tag = tagDouble → ∃ b, e = .double b) := by
  cases e with
  | other tag =>
    obtain ⟨size, kind⟩ := Option.isSome_iff_exists.mp known
    obtain ⟨h1, h2, h3, h4, h5, h6, h7⟩ := otherEntrySize_eq_some kind
    exact ⟨fun h => absurd h h1, fun h => absurd h h2, fun h => absurd h h3, fun h => absurd h h4,
      fun h => absurd h h5, fun h => absurd h h6, fun h => absurd h h7⟩
  | _ =>
    simp [TableEntry.tag, tagUtf8, tagInteger, tagFloat, tagClass, tagString, tagLong, tagDouble]

namespace Walk

/-! ## Lookups -/

/-- A lookup gives the result and leaves the state, except that a problem is kept. -/
def Finds (d : ByteArray) (slots : List PoolSlot) (m : Walk α) (r : Except ReadError α) : Prop :=
  ∀ (p n : Nat) (es : List Event), p ≤ d.size →
    m ⟨p, slots, none, n, es⟩ =
      match r with
      | .ok a => .ok (some a, ⟨p, slots, none, n, es⟩)
      | .error e => .ok (none, ⟨p, slots, some e, n, es⟩)

section Finds

variable {slots : List PoolSlot} {m : Walk α} {r : Except ReadError α}

theorem finds_pure (a : α) : Finds d slots (pure a) (.ok a) := fun _ _ _ _ => rfl

theorem finds_stop (e : ReadError) : Finds d slots (stop e : Walk α) (.error e) :=
  fun _ _ _ _ => rfl

theorem Finds.bind (h : Finds d slots m r) {k : α → Walk β} {f : α → Except ReadError β}
    (next : ∀ a, r = .ok a → Finds d slots (k a) (f a)) : Finds d slots (m >>= k) (r >>= f) := by
  intro p n es inside
  cases r with
  | error e => exact bind_none (h p n es inside)
  | ok a =>
    rw [bind_some (h p n es inside)]
    exact next a rfl p n es inside

/-- A lookup that succeeds goes on with what is found. -/
theorem Finds.then {a : α} (h : Finds d slots m (.ok a)) {k : α → Walk β} {s : Except ReadError β}
    (next : Finds d slots (k a) s) : Finds d slots (m >>= k) s := by
  intro p n es inside
  rw [bind_some (h p n es inside)]
  exact next p n es inside

/-- The checks of a lookup are passed. -/
theorem Finds.lookup (h : Finds d slots m r)
    (untruncated : ∀ e, r = .error e → e.isTruncated = false) :
    Finds d slots (Walk.lookup m) r := by
  intro p n es inside
  rw [Walk.lookup, h p n es inside]
  cases r with
  | error e => simp [untruncated e rfl]
  | ok a => simp

theorem finds_slotInUse_of_out {index : UInt16} (h : index = 0 ∨ slots.length ≤ index.toNat) :
    Finds d slots (slotInUse index) (.error (.indexOutOfRange index)) := by
  intro p n es _
  have unused : (index == 0 || decide (slots.length ≤ index.toNat)) = true := by simpa using h
  simp only [slotInUse, unlessFailed, bind_apply, state, Option.isSome_none, Bool.false_eq_true,
    if_false, pure_apply, unused, if_true]
  rfl

theorem finds_slotInUse {index : UInt16} (nonzero : index ≠ 0) {slot : PoolSlot}
    (h : slots[index.toNat]? = some slot) : Finds d slots (slotInUse index) (.ok slot) := by
  intro p n es _
  have used : (index == 0 || decide (slots.length ≤ index.toNat)) = false := by
    have lt := (List.getElem?_eq_some_iff.mp h).1
    simp [nonzero, lt]
  simp only [slotInUse, unlessFailed, bind_apply, state, Option.isSome_none, Bool.false_eq_true,
    if_false, pure_apply, used, slotAt, h]

/-- The slots stand at the same indexes as the entries. -/
theorem getElem?_of_poolHeld {t : ConstantTable} (held : PoolHeld d slots t) {i : Nat}
    {e : TableEntry} (h : t[i]? = some e) : ∃ slot, slots[i]? = some slot ∧ slot.Holds d e := by
  rw [← Array.getElem?_toList] at h
  obtain ⟨lt, rfl⟩ := List.getElem?_eq_some_iff.mp h
  have lt' : i < slots.length := held.length_eq ▸ lt
  exact ⟨slots[i], List.getElem?_eq_getElem lt', held.get lt' lt⟩

/-- A lookup of an entry in use goes on with the entry. -/
theorem Finds.inUse {t : ConstantTable} (held : PoolHeld d slots t) (index : UInt16)
    {k : PoolSlot → Walk β} {pick : TableEntry → Except ReadError β}
    (next : ∀ slot e, t.entryAt index = .ok e → slot.Holds d e → Finds d slots (k slot) (pick e)) :
    Finds d slots (slotInUse index >>= k) (t.entryAt index >>= pick) := by
  have length : slots.length = t.size := by
    rw [held.length_eq, Array.length_toList]
  by_cases unused : index = 0 ∨ t.size ≤ index.toNat
  · have out : t.entryAt index = .error (.indexOutOfRange index) := by
      rw [ConstantTable.entryAt]
      split
      · rfl
      · next nonzero =>
        rw [Array.getElem?_eq_none (unused.resolve_left fun h => nonzero (by simp [h]))]
    rw [out]
    intro p n es inside
    exact bind_none (finds_slotInUse_of_out (length ▸ unused) p n es inside)
  · rw [not_or, Nat.not_le] at unused
    have entry := Array.getElem?_eq_getElem unused.2
    obtain ⟨slot, there, holds⟩ := getElem?_of_poolHeld held entry
    have found := ConstantTable.entryAt_eq_ok.mpr ⟨unused.1, entry⟩
    rw [found, ok_bind]
    intro p n es inside
    rw [bind_some (finds_slotInUse unused.1 there p n es inside)]
    exact next slot _ found holds p n es inside

/-- A lookup of an entry with a tag goes on with the entry, or finds another tag. -/
theorem Finds.tagged {t : ConstantTable} (held : PoolHeld d slots t) (index : UInt16) (tag : UInt8)
    {k : PoolSlot → Walk β} {pick : TableEntry → Except ReadError β}
    (wrong : ∀ e : TableEntry, e.tag ≠ tag → pick e = .error (.wrongEntry index e.tag tag))
    (next : ∀ slot e, slot.Holds d e → e.tag = tag → Finds d slots (k slot) (pick e)) :
    Finds d slots (slotTagged index tag >>= k) (t.entryAt index >>= pick) := by
  rw [slotTagged, bind_bind]
  refine Finds.inUse held index fun slot e _ holds => ?_
  by_cases same : e.tag = tag
  · have tagged : (slot.tag == tag) = true := by rw [holds.tag, same, beq_self_eq_true]
    rw [if_pos tagged]
    exact next slot e holds same
  · have other : ¬ (slot.tag == tag) = true := by rwa [holds.tag, beq_iff_eq]
    rw [if_neg other, wrong e same, holds.tag]
    exact fun _ _ _ _ => rfl

end Finds

/-! ## Reading at an entry -/

section Contents

variable {slots : List PoolSlot}

theorem Reads.of_scan {read : Walk α} {none : α} {scan : Nat → Except ReadError (α × Nat)}
    (reads : Reads d read none scan) {p q : Nat} {v : α} (inside : p ≤ d.size)
    (h : scan p = .ok (v, q)) (slots : List PoolSlot) (n : Nat) (es : List Event) :
    read ⟨p, slots, .none, n, es⟩ = .ok (some v, ⟨q, slots, .none, n, es⟩) := by
  rcases reads.going slots n es inside with ⟨v', q', scanned, -, read⟩ | ⟨e, scanned, -⟩
  · rw [h] at scanned
    cases scanned
    exact read
  · rw [h] at scanned
    cases scanned

theorem bytesAt_apply {offset : Nat} {t : Text} (held : HoldsAt d offset t) (c : Cursor) :
    bytesAt d offset t.length c = .ok (some t, c) := by
  have scanned := scanText_eq_ok.mpr ⟨held, rfl, rfl⟩
  rw [scanText, if_pos held.le] at scanned
  have bytes : (d.extract offset (offset + t.length)).data.toList = t :=
    congrArg Prod.fst (Except.ok.inj scanned)
  rw [bytesAt, bind_some (check_apply held.le c), bytes]
  rfl

/-- No entry of the table is too short, so following a reference does not meet the end. -/
theorem isTruncated_of_entryAt {t : ConstantTable} {index : UInt16} {e : ReadError}
    (h : t.entryAt index = .error e) : e.isTruncated = false := by
  unfold ConstantTable.entryAt at h
  repeat' split at h
  all_goals cases h
  all_goals rfl

theorem isTruncated_of_utf8At {t : ConstantTable} {index : UInt16} {e : ReadError}
    (h : t.utf8At index = .error e) : e.isTruncated = false := by
  rcases bind_eq_error.mp h with h | ⟨entry, -, h⟩
  · exact isTruncated_of_entryAt h
  · cases entry <;> cases h <;> rfl

theorem finds_utf8At {t : ConstantTable} (held : PoolHeld d slots t) (index : UInt16) :
    Finds d slots (utf8At d index) (t.utf8At index) := by
  refine Finds.lookup (Finds.tagged held index tagUtf8 (fun e other => ?_)
    fun slot e holds tag p n es inside => ?_) fun _ => isTruncated_of_utf8At
  · cases e with
    | utf8 s => exact absurd rfl other
    | _ => rfl
  · obtain ⟨s, rfl⟩ := holds.known.tag_eq.1 tag
    have contents : HoldsAt d slot.offset (bytesU2 s.length.toUInt16 ++ s) := holds.contents
    have text : HoldsAt d (slot.offset + 2) s := contents.right
    have length : s.length.toUInt16.toNat = s.length := toNat_toUInt16 holds.known
    have counted := (reads_readU2 d).of_scan contents.1
      (scanU2_eq_ok.mpr ⟨contents.left, rfl⟩) slots n es
    have enough := require_of_le slots n es text.le
    simp only [bind_apply, state, seek_apply contents.1, counted, length, enough, if_true,
      bytesAt_apply text, seek_apply inside]
    rfl

theorem finds_referenceOf {slot : PoolSlot} {i : UInt16} (h : HoldsAt d slot.offset (bytesU2 i)) :
    Finds d slots (referenceOf d slot) (.ok i) := by
  intro p n es inside
  have read := (reads_readU2 d).of_scan h.1 (scanU2_eq_ok.mpr ⟨h, rfl⟩) slots n es
  simp only [referenceOf, bind_apply, state, seek_apply h.1, read, seek_apply inside, pure_apply]

theorem finds_classNameAt {t : ConstantTable} (held : PoolHeld d slots t) (index : UInt16) :
    Finds d slots (classNameAt d index) (t.classNameAt index) := by
  refine Finds.lookup (Finds.tagged held index tagClass (fun e other => ?_)
    fun slot e holds tag => ?_) fun e failed => ?_
  · cases e with
    | classRef i => exact absurd rfl other
    | _ => rfl
  · obtain ⟨i, rfl⟩ := holds.known.tag_eq.2.2.2.1 tag
    exact (finds_referenceOf holds.contents).then (finds_utf8At held i)
  · rcases bind_eq_error.mp failed with failed | ⟨entry, -, failed⟩
    · exact isTruncated_of_entryAt failed
    · cases entry with
      | classRef i => exact isTruncated_of_utf8At failed
      | _ => cases failed; rfl

/-- The bits of a number read at a place. -/
def ReadsBits (d : ByteArray) (tag : UInt8) (offset : Nat) (bits : UInt64) : Prop :=
  offset ≤ d.size ∧ ∃ q, ∀ slots n es,
    readBits d tag ⟨offset, slots, none, n, es⟩ = .ok (some bits, ⟨q, slots, none, n, es⟩)

theorem readsBits_narrow {tag : UInt8} (narrow : (tag == tagLong || tag == tagDouble) = false)
    {offset : Nat} {v : UInt32} (h : HoldsAt d offset (bytesU4 v)) :
    ReadsBits d tag offset v.toUInt64 := by
  refine ⟨h.1, offset + 4, fun slots n es => ?_⟩
  have read := (reads_readU4 d).of_scan h.1 (scanU4_eq_ok.mpr ⟨h, rfl⟩) slots n es
  rw [readBits, if_neg (by simp [narrow]), bind_some read]
  rfl

theorem readsBits_wide {tag : UInt8} (wide : (tag == tagLong || tag == tagDouble) = true)
    {offset : Nat} {v : UInt64} (h : HoldsAt d offset (bytesU8 v)) :
    ReadsBits d tag offset v := by
  refine ⟨h.1, offset + 8, fun slots n es => ?_⟩
  have room : offset + 8 ≤ d.size := h.le
  have scanned := scanU8_eq_ok.mpr ⟨h, rfl⟩
  rw [scanU8, if_pos room] at scanned
  simp only [bind_eq_ok, pure_eq_ok, Prod.exists, Prod.mk.injEq] at scanned
  obtain ⟨high, q, hhigh, low, q', hlow, same, rfl⟩ := scanned
  have first := (reads_readU4 d).of_scan h.1 hhigh slots n es
  have second := (reads_readU4 d).of_scan (scanU4_le hhigh).2 hlow slots n es
  rw [readBits, if_pos wide, readU8, bind_some first, bind_some second, same]
  rfl

/-- A lookup whose result is changed. -/
theorem Finds.map {m : Walk α} {r : Except ReadError α} (h : Finds d slots m r) (f : α → β) :
    Finds d slots (m >>= fun a => pure (f a)) (r >>= fun a => pure (f a)) :=
  h.bind fun _ _ => finds_pure _

/-- The tag is that of a number. -/
def IsNumber (tag : UInt8) : Prop :=
  tag = tagInteger ∨ tag = tagFloat ∨ tag = tagLong ∨ tag = tagDouble

/-- Where a slot holds a number, its bits are read. -/
theorem readsBits_of_holds {slot : PoolSlot} {e : TableEntry} (holds : slot.Holds d e)
    (number : IsNumber e.tag) :
    ∃ bits, e.bits = some bits ∧ ReadsBits d e.tag slot.offset bits := by
  have contents := holds.contents
  obtain ⟨-, integer, float, -, -, long, double⟩ := holds.known.tag_eq
  rcases number with h | h | h | h
  · obtain ⟨v, rfl⟩ := integer h
    exact ⟨_, rfl, readsBits_narrow rfl contents⟩
  · obtain ⟨b, rfl⟩ := float h
    exact ⟨_, rfl, readsBits_narrow rfl contents⟩
  · obtain ⟨v, rfl⟩ := long h
    exact ⟨_, rfl, readsBits_wide rfl contents⟩
  · obtain ⟨b, rfl⟩ := double h
    exact ⟨_, rfl, readsBits_wide rfl contents⟩

/-- A number that is looked up by its tag. -/
theorem finds_numberAt {t : ConstantTable} (held : PoolHeld d slots t) (index : UInt16)
    {tag : UInt8} (isNumber : IsNumber tag) {pick : TableEntry → Except ReadError α}
    {found : UInt64 → α} (picks : ∀ e, pick e = (e.number index tag).map found) :
    Finds d slots (numberAt d index tag >>= fun bits => pure (found bits))
      (t.entryAt index >>= pick) := by
  have same : t.entryAt index >>= pick =
      t.entryAt index >>= (·.number index tag) >>= fun bits => pure (found bits) := by
    cases t.entryAt index with
    | error e => rfl
    | ok e =>
      rw [ok_bind, ok_bind, picks]
      cases e.number index tag <;> rfl
  have untruncated : ∀ e, t.entryAt index >>= (·.number index tag) = .error e →
      e.isTruncated = false := by
    intro e failed
    rcases bind_eq_error.mp failed with failed | ⟨entry, -, failed⟩
    · exact isTruncated_of_entryAt failed
    · unfold TableEntry.number at failed
      repeat' split at failed
      all_goals cases failed
      all_goals rfl
  rw [same]
  refine (Finds.lookup (Finds.tagged held index tag (fun e other => ?_)
    fun slot e holds same p n es inside => ?_) untruncated).map found
  · rw [TableEntry.number, if_neg other]
  · subst same
    obtain ⟨bits, picked, start, q, read⟩ := readsBits_of_holds holds isNumber
    simp only [bind_apply, state, seek_apply start, read, seek_apply inside, unlessFailed,
      pure_apply, TableEntry.number, picked]
    rfl

end Contents

/-! ## Lookups of numbers -/

/-- An entry of another kind is none of a number. -/
theorem number_of_wrong {e : TableEntry} {tag : UInt8} (index : UInt16)
    (h : e.tag = tag → e.bits = none) :
    e.number index tag = .error (.wrongEntry index e.tag tag) := by
  rw [TableEntry.number]
  split
  · next same => rw [h same]
  · rfl

section Numbers

variable {slots : List PoolSlot} {t : ConstantTable} (held : PoolHeld d slots t) (index : UInt16)

include held

theorem finds_integerAt : Finds d slots (integerAt d index) (t.integerAt index) := by
  refine finds_numberAt held index (.inl rfl) fun e => ?_
  cases e with
  | integer v => exact congrArg Except.ok (by simp)
  | other tag => rw [number_of_wrong index fun _ => rfl]; rfl
  | _ => rfl

theorem finds_floatAt :
    Finds d slots (numberAt d index tagFloat >>= fun bits => pure (.float bits.toUInt32))
      (t.floatAt index) := by
  refine finds_numberAt held index (.inr (.inl rfl)) fun e => ?_
  cases e with
  | float b => exact congrArg Except.ok (by simp)
  | other tag => rw [number_of_wrong index fun _ => rfl]; rfl
  | _ => rfl

theorem finds_longAt :
    Finds d slots (numberAt d index tagLong >>= fun bits => pure (.long bits.toInt64))
      (t.longAt index) := by
  refine finds_numberAt held index (.inr (.inr (.inl rfl))) fun e => ?_
  cases e with
  | other tag => rw [number_of_wrong index fun _ => rfl]; rfl
  | _ => rfl

theorem finds_doubleAt :
    Finds d slots (numberAt d index tagDouble >>= fun bits => pure (.double bits))
      (t.doubleAt index) := by
  refine finds_numberAt held index (.inr (.inr (.inr rfl))) fun e => ?_
  cases e with
  | other tag => rw [number_of_wrong index fun _ => rfl]; rfl
  | _ => rfl

/-- An initial value is looked up as the kind of its entry demands. -/
theorem finds_constantAt (descriptor : Text) :
    Finds d slots (constantAt d descriptor index) (t.constantAt descriptor index) := by
  refine Finds.lookup (Finds.inUse held index fun slot e found holds => ?_) fun e failed => ?_
  · have differs {tag : UInt8} (h : e.tag ≠ tag) : ¬ (slot.tag == tag) = true := by
      rwa [holds.tag, beq_iff_eq]
    cases e with
    | integer v =>
      have value := finds_integerAt held index
      rw [ConstantTable.integerAt, found] at value
      rw [show slot.tag = tagInteger from holds.tag, if_pos (by decide)]
      exact value.map _
    | float b =>
      have value := finds_floatAt held index
      rw [ConstantTable.floatAt, found] at value
      rw [show slot.tag = tagFloat from holds.tag, if_neg (by decide), if_pos (by decide)]
      exact value
    | long v =>
      have value := finds_longAt held index
      rw [ConstantTable.longAt, found] at value
      rw [show slot.tag = tagLong from holds.tag, if_neg (by decide), if_neg (by decide),
        if_pos (by decide)]
      exact value
    | double b =>
      have value := finds_doubleAt held index
      rw [ConstantTable.doubleAt, found] at value
      rw [show slot.tag = tagDouble from holds.tag, if_neg (by decide), if_neg (by decide),
        if_neg (by decide), if_pos (by decide)]
      exact value
    | string i =>
      rw [show slot.tag = tagString from holds.tag, if_neg (by decide), if_neg (by decide),
        if_neg (by decide), if_neg (by decide), if_pos (by decide)]
      exact (finds_referenceOf holds.contents).then ((finds_utf8At held i).map _)
    | _ =>
      obtain ⟨-, integer, float, -, string, long, double⟩ := holds.known.tag_eq
      rw [if_neg (differs fun h => by simpa using integer h),
        if_neg (differs fun h => by simpa using float h),
        if_neg (differs fun h => by simpa using long h),
        if_neg (differs fun h => by simpa using double h),
        if_neg (differs fun h => by simpa using string h)]
      exact finds_stop _
  · rcases bind_eq_error.mp failed with failed | ⟨entry, -, failed⟩
    · exact isTruncated_of_entryAt failed
    · cases entry with
      | string i =>
        rcases bind_eq_error.mp failed with failed | ⟨s, -, failed⟩
        · exact isTruncated_of_utf8At failed
        · cases failed
      | _ => cases failed <;> rfl

end Numbers

/-! ## Lookups after a problem -/

theorem Halts.lookup {m : Walk α} (h : Halts m) : Halts (Walk.lookup m) := by
  intro c problem
  rw [Walk.lookup, h c problem]
  simp [Option.isSome_iff_ne_none.mp problem]

theorem halts_slotInUse (index : UInt16) : Halts (slotInUse index) := halts_unlessFailed.bind _

theorem halts_slotTagged (index : UInt16) (tag : UInt8) : Halts (slotTagged index tag) :=
  (halts_slotInUse index).bind _

theorem halts_utf8At (d : ByteArray) (index : UInt16) : Halts (utf8At d index) :=
  ((halts_slotTagged index tagUtf8).bind _).lookup

theorem halts_classNameAt (d : ByteArray) (index : UInt16) : Halts (classNameAt d index) :=
  ((halts_slotTagged index tagClass).bind _).lookup

theorem halts_numberAt (d : ByteArray) (index : UInt16) (tag : UInt8) :
    Halts (numberAt d index tag) :=
  ((halts_slotTagged index tag).bind _).lookup

theorem halts_constantAt (d : ByteArray) (descriptor : Text) (index : UInt16) :
    Halts (constantAt d descriptor index) :=
  ((halts_slotInUse index).bind _).lookup

end Walk

end ClassAbi
