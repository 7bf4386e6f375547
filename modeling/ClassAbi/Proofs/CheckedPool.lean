import ClassAbi.Proofs.CheckedLookups
import ClassAbi.Proofs.FoundLayouts

/-!
# The constant pool of the checked reader

The checked reader makes room for as many entries as the file counts and then goes
through them.  `scanEntries` builds its table as it goes.  Where both have come to
the same index, the slots so far are those of the table so far (`PoolHeld`), and
the others are still empty.  So both end at the same place with the same pool, or
with the same problem.
-/

namespace ClassAbi

/-- A slot holds the item that stands where the slot says. -/
theorem PoolItem.holds {d : ByteArray} {item : PoolItem} {tag : UInt8} {contents : Text}
    {offset : Nat} (encoded : item.encode = tag :: contents) (fits : item.Fits)
    (held : HoldsAt d offset contents) : PoolSlot.Holds d ⟨tag, offset⟩ item.entry := by
  cases item <;> cases encoded
  case other =>
    exact ⟨rfl, HoldsAt.nil_iff.mpr held.1, Option.isSome_iff_exists.mpr ⟨_, fits⟩⟩
  all_goals exact ⟨rfl, held, fits⟩

theorem PoolHeld.append {d : ByteArray} {slots : List PoolSlot} {t : ConstantTable}
    (held : PoolHeld d slots t) {slot : PoolSlot} {e : TableEntry} (holds : slot.Holds d e) :
    PoolHeld d (slots ++ [slot]) (t.push e) := by
  rw [PoolHeld, Array.toList_push]
  exact List.rel_append held (.cons holds .nil)

/-- An empty slot is that of an index without an entry. -/
theorem PoolSlot.Holds.unusable (d : ByteArray) : PoolSlot.Holds d ⟨0, 0⟩ .unusable :=
  ⟨rfl, HoldsAt.nil_iff.mpr (Nat.zero_le _), trivial⟩

namespace Walk

variable {d : ByteArray}

/-- Entries of this tag have a number of bytes that does not depend on the entry. -/
theorem fixedSize_eq {item : PoolItem} {tag : UInt8} {contents : Text}
    (encoded : item.encode = tag :: contents) (fits : item.Fits) (fixed : tag ≠ tagUtf8) :
    fixedSize tag = some contents.length := by
  cases item with
  | utf8 t =>
    cases encoded
    exact absurd rfl fixed
  | other tag contents =>
    cases encoded
    obtain ⟨-, h2, h3, h4, h5, h6, h7⟩ := otherEntrySize_eq_some fits
    have size : otherEntrySize tag = some contents.length := fits
    simp [fixedSize, h2, h3, h4, h5, h6, h7, size]
  | _ =>
    cases encoded
    rfl

/-- An item has the tag of a text only if it is one. -/
theorem eq_utf8_of_tag {item : PoolItem} {contents : Text}
    (encoded : item.encode = tagUtf8 :: contents) (fits : item.Fits) :
    ∃ t, item = .utf8 t ∧ contents = bytesU2 t.length.toUInt16 ++ t ∧
      t.length.toUInt16.toNat = t.length := by
  cases item with
  | utf8 t =>
    cases encoded
    exact ⟨t, rfl, rfl, toNat_toUInt16 fits⟩
  | other tag contents =>
    cases encoded
    exact absurd rfl (otherEntrySize_eq_some fits).1
  | _ => cases encoded

theorem hasContents_of_held {item : PoolItem} {tag : UInt8} {contents : Text} {offset : Nat}
    (encoded : item.encode = tag :: contents) (fits : item.Fits)
    (held : HoldsAt d offset contents) : hasContents d ⟨tag, offset⟩ = true := by
  by_cases text : tag = tagUtf8
  · subst text
    obtain ⟨t, rfl, rfl, length⟩ := eq_utf8_of_tag encoded fits
    have room : offset + 2 + t.length ≤ d.size := held.right.le
    rw [hasContents, if_pos (beq_self_eq_true _), scanU2_eq_ok.mpr ⟨held.left, rfl⟩]
    exact decide_eq_true (by rwa [length])
  · rw [hasContents, if_neg (by simpa using text), fixedSize_eq encoded fits text]
    exact decide_eq_true held.le

/-! ## One entry -/

theorem skip_whole {offset count : Nat} (room : offset + count ≤ d.size) (slots : List PoolSlot)
    (n : Nat) (es : List Event) :
    skip d count ⟨offset, slots, none, n, es⟩ =
      .ok (some (), ⟨offset + count, slots, none, n, es⟩) :=
  (reads_skip d count).of_scan (by omega) (by simp [scanSkip, skipBytes, room]) slots n es

/-- The contents of an item are gone through. -/
theorem skipContents_of_held {item : PoolItem} {tag : UInt8} {contents : Text} {offset : Nat}
    (encoded : item.encode = tag :: contents) (fits : item.Fits)
    (held : HoldsAt d offset contents) (index : Nat) (slots : List PoolSlot) (n : Nat)
    (es : List Event) :
    skipContents d tag index ⟨offset, slots, none, n, es⟩ =
      .ok (some (), ⟨offset + contents.length, slots, none, n, es⟩) := by
  by_cases text : tag = tagUtf8
  · subst text
    obtain ⟨t, rfl, rfl, length⟩ := eq_utf8_of_tag encoded fits
    have counted := (reads_readU2 d).of_scan held.1
      (scanU2_eq_ok.mpr ⟨held.left, rfl⟩) slots n es
    rw [skipContents, if_pos (beq_self_eq_true _), bind_some counted, length]
    exact (skip_whole held.right.le ..).trans (by rw [List.length_append, ← Nat.add_assoc])
  · rw [skipContents, if_neg (by simpa using text), fixedSize_eq encoded fits text]
    exact skip_whole held.le ..

theorem skip_short {offset count : Nat} (inside : offset ≤ d.size)
    (short : ¬ offset + count ≤ d.size) (slots : List PoolSlot) (n : Nat) (es : List Event) :
    skip d count ⟨offset, slots, none, n, es⟩ =
      .ok (some (), ⟨offset, slots, some (truncatedAt d offset count), n, es⟩) := by
  rw [skip, bind_some (require_of_lt slots n es inside (by omega))]
  rfl

/-- A scan that only needs a number of bytes fails where they are not there. -/
theorem eq_truncated_of_error {α : Type} {count offset : Nat} {x : Except ReadError α}
    {e : ReadError} (fits : offset + count ≤ d.size → ∃ a, x = .ok a)
    (short : ¬ offset + count ≤ d.size → x = .error (truncatedAt d offset count))
    (h : x = .error e) : ¬ offset + count ≤ d.size ∧ e = truncatedAt d offset count := by
  by_cases room : offset + count ≤ d.size
  · obtain ⟨a, rfl⟩ := fits room
    cases h
  · exact ⟨room, Except.error.inj (h.symm.trans (short room))⟩

theorem eq_truncated_of_scanU2 {offset : Nat} {e : ReadError} (h : scanU2 d offset = .error e) :
    ¬ offset + 2 ≤ d.size ∧ e = truncatedAt d offset 2 :=
  eq_truncated_of_error (fun room => ⟨_, dif_pos room⟩) (fun short => dif_neg short) h

theorem eq_truncated_of_scanU4 {offset : Nat} {e : ReadError} (h : scanU4 d offset = .error e) :
    ¬ offset + 4 ≤ d.size ∧ e = truncatedAt d offset 4 :=
  eq_truncated_of_error (fun room => ⟨_, dif_pos room⟩) (fun short => dif_neg short) h

theorem eq_truncated_of_skipBytes {offset count : Nat} {e : ReadError}
    (h : skipBytes d offset count = .error e) :
    ¬ offset + count ≤ d.size ∧ e = truncatedAt d offset count :=
  eq_truncated_of_error (fun room => ⟨_, if_pos room⟩) (fun short => if_neg short) h

theorem eq_truncated_of_scanText {offset count : Nat} {e : ReadError}
    (h : scanText d offset count = .error e) :
    ¬ offset + count ≤ d.size ∧ e = truncatedAt d offset count :=
  eq_truncated_of_error (fun room => ⟨_, if_pos room⟩) (fun short => if_neg short) h

/-- What is read for a value that is made of it. -/
theorem error_of_bind_pure {α β : Type} {x : Except ReadError α} {f : α → β} {e : ReadError}
    (h : (x >>= fun a => pure (f a)) = .error e) : x = .error e := by
  rcases bind_eq_error.mp h with h | ⟨a, -, h⟩
  · exact h
  · cases h

/-- Of an entry with a fixed size, the contents are not all there. -/
theorem short_of_scanSingle {tag : UInt8} {index offset size : Nat} {e : ReadError}
    (text : ¬ (tag == tagUtf8) = true) (narrow : (tag == tagLong || tag == tagDouble) = false)
    (fixed : fixedSize tag = some size) (h : scanSingle d tag index offset = .error e) :
    ¬ offset + size ≤ d.size ∧ e = truncatedAt d offset size := by
  by_cases integer : tag = tagInteger
  · subst integer
    cases fixed
    exact eq_truncated_of_scanU4 (error_of_bind_pure h)
  by_cases float : tag = tagFloat
  · subst float
    cases fixed
    exact eq_truncated_of_scanU4 (error_of_bind_pure h)
  by_cases classRef : tag = tagClass
  · subst classRef
    cases fixed
    exact eq_truncated_of_scanU2 (error_of_bind_pure h)
  by_cases string : tag = tagString
  · subst string
    cases fixed
    exact eq_truncated_of_scanU2 (error_of_bind_pure h)
  have other : otherEntrySize tag = some size := by
    simpa [fixedSize, integer, float, classRef, string, narrow] using fixed
  have rest : scanSingle d tag index offset =
      skipBytes d offset size >>= fun stop => pure (.other tag, stop) := by
    simp [scanSingle, text, integer, float, classRef, string, other]
  rw [rest] at h
  exact eq_truncated_of_skipBytes (error_of_bind_pure h)

theorem eq_unknownEntry_of_scanSingle {tag : UInt8} {index offset : Nat} {e : ReadError}
    (text : ¬ (tag == tagUtf8) = true) (unknown : fixedSize tag = none)
    (h : scanSingle d tag index offset = .error e) : e = .unknownEntry tag index := by
  unfold fixedSize at unknown
  split at unknown
  · cases unknown
  split at unknown
  · cases unknown
  split at unknown
  · cases unknown
  next number _ reference =>
    simp only [Bool.or_eq_true, not_or] at number reference
    simpa [scanSingle, text, number, reference, unknown, eq_comm] using h

/-- Contents that are not all there end the reading, whatever the problem is. -/
theorem skipContents_of_error {tag : UInt8} {index offset : Nat} {e : ReadError}
    (narrow : (tag == tagLong || tag == tagDouble) = false) (inside : offset ≤ d.size)
    (h : scanSingle d tag index offset = .error e) (slots : List PoolSlot) (n : Nat)
    (es : List Event) :
    ∃ result p, p ≤ d.size ∧ skipContents d tag index ⟨offset, slots, none, n, es⟩ =
      .ok (result, ⟨p, slots, some e, n, es⟩) := by
  by_cases text : (tag == tagUtf8) = true
  · rw [scanSingle, if_pos text] at h
    rw [skipContents, if_pos text]
    rcases (reads_readU2 d).going slots n es inside with
      ⟨length, start, counted, le, read⟩ | ⟨e', counted, read⟩
    · rw [counted, ok_bind] at h
      obtain ⟨short, rfl⟩ := eq_truncated_of_scanText (error_of_bind_pure h)
      rw [bind_some read]
      exact ⟨_, start, le, skip_short le short slots n es⟩
    · rw [counted] at h
      cases h
      rw [bind_some read]
      exact ⟨_, offset, inside, (reads_skip d 0).failed _ rfl⟩
  · rw [skipContents, if_neg text]
    cases fixed : fixedSize tag with
    | some size =>
      obtain ⟨short, rfl⟩ := short_of_scanSingle text narrow fixed h
      exact ⟨_, offset, inside, skip_short inside short slots n es⟩
    | none =>
      rw [eq_unknownEntry_of_scanSingle text fixed h]
      exact ⟨none, offset, inside, rfl⟩

/-! ## All entries -/

/-- The slots so far and those that are still empty. -/
def partialPool (slots : List PoolSlot) (left : Nat) : List PoolSlot :=
  slots ++ .replicate left ⟨0, 0⟩

theorem keepSlot_apply {slots : List PoolSlot} {left : Nat} {slot : PoolSlot}
    (inside : slot.offset ≤ d.size) (p : Nat) (problem : Option ReadError) (n : Nat)
    (es : List Event) :
    keepSlot d slots.length slot ⟨p, partialPool slots (left + 1), problem, n, es⟩ =
      .ok (some (), ⟨p, partialPool (slots ++ [slot]) left, problem, n, es⟩) := by
  have lt : slots.length < (partialPool slots (left + 1)).length := by
    simp [partialPool]
  have set : (partialPool slots (left + 1)).set slots.length slot =
      partialPool (slots ++ [slot]) left := by
    rw [partialPool, partialPool, List.set_append_right _ _ (Nat.le_refl _), Nat.sub_self,
      List.replicate_succ, List.set_cons_zero, List.append_assoc, List.singleton_append]
  simp only [keepSlot, bind_apply, state, check_apply lt, check_apply inside, update, set]

theorem checkSlot_apply {slots : List PoolSlot} {left : Nat} {slot : PoolSlot}
    (whole : hasContents d slot = true) (p : Nat) (problem : Option ReadError) (n : Nat)
    (es : List Event) :
    checkSlot d slots.length ⟨p, partialPool (slots ++ [slot]) left, problem, n, es⟩ =
      .ok (some (), ⟨p, partialPool (slots ++ [slot]) left, problem, n, es⟩) := by
  have there : (partialPool (slots ++ [slot]) left)[slots.length]? = some slot := by
    simp [partialPool]
  simp only [checkSlot, slotAt, bind_apply, state, there, pure_apply, check_apply whole]

theorem unlessFailed_apply (p : Nat) (slots : List PoolSlot) (n : Nat) (es : List Event) :
    unlessFailed ⟨p, slots, none, n, es⟩ = .ok (some (), ⟨p, slots, none, n, es⟩) := rfl

theorem exists_item_of_scanU8 {tag : UInt8} {offset stop : Nat} {bits : UInt64}
    (wide : (tag == tagLong || tag == tagDouble) = true)
    (h : scanU8 d offset = .ok (bits, stop)) :
    ∃ (item : PoolItem) (contents : Text), item.encode = tag :: contents ∧ item.Fits ∧
      item.entry = (if tag == tagLong then TableEntry.long bits else .double bits) ∧
      HoldsAt d offset contents ∧ contents.length = 8 ∧ stop = offset + 8 := by
  obtain ⟨held, rfl⟩ := scanU8_eq_ok.mp h
  rw [Bool.or_eq_true, beq_iff_eq, beq_iff_eq] at wide
  rcases wide with rfl | rfl
  · exact ⟨.long bits, _, rfl, trivial, rfl, held, rfl, rfl⟩
  · exact ⟨.double bits, _, rfl, trivial, rfl, held, rfl, rfl⟩

theorem eq_truncated_of_scanU8 {offset : Nat} {e : ReadError} (h : scanU8 d offset = .error e) :
    ¬ offset + 8 ≤ d.size ∧ e = truncatedAt d offset 8 := by
  unfold scanU8 at h
  split at h
  · next room =>
    rcases bind_eq_error.mp h with first | ⟨⟨high, q⟩, first, h⟩
    · exact absurd (by omega) (eq_truncated_of_scanU4 first).1
    · rcases bind_eq_error.mp h with second | ⟨⟨low, q'⟩, -, h⟩
      · obtain ⟨-, rfl⟩ := scanU4_eq_ok.mp first
        exact absurd (by omega) (eq_truncated_of_scanU4 second).1
      · cases h
  · exact ⟨‹_›, (Except.error.inj h).symm⟩

/-- The first of the entries that are left, and the others. -/
theorem readEntries_succ (left index : Nat) :
    readEntries d (left + 1) index = (do
      let tag ← readU1 d
      keepSlot d index ⟨tag, (← state).pos⟩
      if tag == tagLong || tag == tagDouble then
        match left with
        | 0 => stop (.poolOverrun index)
        | left + 1 => do
          skip d 8
          unlessFailed
          checkSlot d index
          readEntries d left (index + 2)
      else do
        skipContents d tag index
        unlessFailed
        checkSlot d index
        readEntries d left (index + 1)) :=
  readEntries.eq_def d (left + 1) index

section Entry

variable {slots slots' : List PoolSlot} {tag : UInt8} {left q stop n : Nat} {es : List Event}
  {skipping : Walk Unit}

/-- Behind contents that are gone through the reading goes on. -/
theorem entry_passed
    (skipped : skipping ⟨q, partialPool (slots ++ [⟨tag, q⟩]) left, none, n, es⟩ =
      .ok (some (), ⟨stop, partialPool (slots ++ [⟨tag, q⟩]) left, none, n, es⟩))
    (whole : hasContents d ⟨tag, q⟩ = true) (rest : Walk Unit) :
    (do
      skipping
      unlessFailed
      checkSlot d slots.length
      rest : Walk Unit) ⟨q, partialPool (slots ++ [⟨tag, q⟩]) left, none, n, es⟩ =
      rest ⟨stop, partialPool (slots ++ [⟨tag, q⟩]) left, none, n, es⟩ := by
  rw [bind_some skipped, bind_some (unlessFailed_apply ..), bind_some (checkSlot_apply whole ..)]

/-- Contents with a problem end the reading. -/
theorem entry_failed {result : Option Unit} {c c' : Cursor}
    (skipped : skipping c = .ok (result, c')) (problem : c'.problem.isSome) (rest : Walk Unit) :
    (do
      skipping
      unlessFailed
      rest : Walk Unit) c = .ok (none, c') := by
  cases result with
  | none => rw [bind_none skipped]
  | some _ => rw [bind_some skipped, bind_none (halts_unlessFailed c' problem)]

end Entry

theorem partialPool_append (slots : List PoolSlot) (left : Nat) :
    partialPool (slots ++ [⟨0, 0⟩]) left = partialPool slots (left + 1) := by
  rw [partialPool, partialPool, List.append_assoc, List.singleton_append, ← List.replicate_succ]

/-- The entries are gone through as they are scanned. -/
theorem readEntries_cases (left : Nat) {p : Nat} (inside : p ≤ d.size) {slots : List PoolSlot}
    {t : ConstantTable} (held : PoolHeld d slots t) (n : Nat) (es : List Event) :
    (∃ t' slots' q, scanEntries d left p t = .ok (t', q) ∧ q ≤ d.size ∧ PoolHeld d slots' t' ∧
      readEntries d left slots.length ⟨p, partialPool slots left, none, n, es⟩ =
        .ok (some (), ⟨q, slots', none, n, es⟩)) ∨
    ∃ e slots' q, scanEntries d left p t = .error e ∧ q ≤ d.size ∧
      readEntries d left slots.length ⟨p, partialPool slots left, none, n, es⟩ =
        .ok (none, ⟨q, slots', some e, n, es⟩) := by
  induction left using Nat.strongRecOn generalizing p slots t with
  | ind left ih =>
  have size : t.size = slots.length := by rw [held.length_eq, Array.length_toList]
  cases left with
  | zero =>
    refine .inl ⟨t, slots, p, rfl, inside, held, ?_⟩
    rw [partialPool, List.replicate_zero, List.append_nil]
    rfl
  | succ left =>
  rw [scanEntries, readEntries_succ]
  rcases (reads_readU1 d).going (partialPool slots (left + 1)) n es inside with
    ⟨tag, q, scanned, le, read⟩ | ⟨e, scanned, read⟩
  · rw [scanned, bind_some read, bind_some rfl, bind_some (keepSlot_apply le ..)]
    by_cases wide : (tag == tagLong || tag == tagDouble) = true
    · simp only [wide, if_true]
      cases left with
      | zero =>
        rw [size]
        exact .inr ⟨_, _, q, rfl, le, rfl⟩
      | succ left =>
        cases number : scanU8 d q with
        | error e =>
          obtain ⟨short, rfl⟩ := eq_truncated_of_scanU8 number
          exact .inr ⟨_, partialPool (slots ++ [⟨tag, q⟩]) (left + 1), q, rfl, le,
            entry_failed (skip_short le short ..) rfl _⟩
        | ok x =>
          obtain ⟨bits, stop⟩ := x
          obtain ⟨item, contents, encoded, fits, entry, there, eight, rfl⟩ :=
            exists_item_of_scanU8 wide number
          have room : q + 8 ≤ d.size := eight ▸ there.le
          have rest := ih left (by omega) room
            ((held.append (entry ▸ item.holds encoded fits there)).append (.unusable d))
          rw [partialPool_append, List.length_append, List.length_append] at rest
          simp only
          rw [entry_passed (skip_whole room ..) (hasContents_of_held encoded fits there)]
          exact rest
    · rw [Bool.not_eq_true] at wide
      simp only [wide, Bool.false_eq_true, if_false]
      rw [size]
      cases single : scanSingle d tag slots.length q with
      | error e =>
        obtain ⟨result, stop, le, skipped⟩ := skipContents_of_error wide le single
          (partialPool (slots ++ [⟨tag, q⟩]) left) n es
        exact .inr ⟨_, _, stop, rfl, le, entry_failed skipped rfl _⟩
      | ok x =>
        obtain ⟨e, stop⟩ := x
        obtain ⟨item, contents, encoded, fits, -, rfl, there, rfl⟩ :=
          exists_item_of_scanSingle single
        have rest := ih left (by omega) there.le
          (held.append (item.holds encoded fits there))
        rw [List.length_append] at rest
        simp only
        rw [entry_passed (skipContents_of_held encoded fits there ..)
          (hasContents_of_held encoded fits there)]
        exact rest
  · rw [scanned, bind_some read, bind_some rfl, bind_some (keepSlot_apply inside ..)]
    exact .inr ⟨e, _, p, rfl, inside, rfl⟩

/-- The constant pool is read as it is scanned. -/
theorem readPool_cases {p : Nat} (inside : p ≤ d.size) (slots : List PoolSlot) (n : Nat)
    (es : List Event) :
    (∃ t slots' q, scanPool d p = .ok (t, q) ∧ q ≤ d.size ∧ PoolHeld d slots' t ∧
      readPool d ⟨p, slots, none, n, es⟩ = .ok (some (), ⟨q, slots', none, n, es⟩)) ∨
    ∃ e slots' q, scanPool d p = .error e ∧ q ≤ d.size ∧
      readPool d ⟨p, slots, none, n, es⟩ = .ok (none, ⟨q, slots', some e, n, es⟩) := by
  rw [scanPool, readPool]
  rcases (reads_readU2 d).going slots n es inside with
    ⟨count, q, scanned, le, read⟩ | ⟨e, scanned, read⟩
  · rw [scanned, ok_bind, bind_some read, bind_some (unlessFailed_apply ..)]
    by_cases zero : count = 0
    · subst zero
      exact .inr ⟨_, slots, q, rfl, le, rfl⟩
    · have counted : (count == 0) = false := beq_eq_false_iff_ne.mpr zero
      have positive : 0 < count.toNat := UInt16.pos_iff_ne_zero.mpr zero
      have first : List.replicate count.toNat (⟨0, 0⟩ : PoolSlot) =
          partialPool [⟨0, 0⟩] (count.toNat - 1) := by
        rw [partialPool, List.singleton_append, ← List.replicate_succ, Nat.sub_add_cancel positive]
      simp only [counted, Bool.false_eq_true, if_false]
      rw [bind_some rfl, first]
      exact readEntries_cases _ le (.cons (.unusable d) .nil) n es
  · rw [scanned, bind_some read]
    exact .inr ⟨e, slots, p, rfl, inside, rfl⟩

theorem halts_readPool (d : ByteArray) : Halts (readPool d) :=
  (reads_readU2 d).halts_bind (halts_unlessFailed.bind _)

end Walk

end ClassAbi
