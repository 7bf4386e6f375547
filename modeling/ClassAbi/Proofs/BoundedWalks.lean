import ClassAbi.Proofs.LocatedDirectories

/-!
# Asking for entries again and again

A reader may ask an archive for the next entry as often as it likes (`InputArchive.nextEach`).
The answers are the entries of one list and after them nothing any more, and the fault that is
known once nothing comes stays the same.

Each entry has its record and its header in the file (`Entry.StandsAt`).  The records stand one
behind the other and none is shorter than 46 bytes, so the file bounds their number.
`InputArchive.openFile_bounded` says this of whatever is opened, and of what cannot be opened that
it gives no entry.
-/

namespace ClassAbi

open Zip

/-! ## Where entries stand -/

/-- The record of the entry is at the place and the header where the record says.  Both are in the
file, the record even in front of the last byte. -/
structure Entry.StandsAt (d : ByteArray) (preamble place : Nat) (e : Entry) : Prop where
  record : DirectoryRecord.decode d place = e.record
  marked : e.record.isMarked
  inside : place + e.record.totalSize < d.size
  here : e.record.localOffset ≠ elsewhere
  headerPlace : e.headerOffset = e.record.localOffset.toNat + preamble
  header : LocalHeader.decode d e.headerOffset = e.header
  headerMarked : e.header.isMarked
  headerInside : e.headerOffset + LocalHeader.fixedSize ≤ d.size

/-- An entry is found exactly where one stands, and the next record begins where its record
ends. -/
theorem entryAt_eq_some_iff {d : ByteArray} {preamble place next : Nat} {e : Entry} :
    entryAt d preamble place = .ok (some (e, next)) ↔
      e.StandsAt d preamble place ∧ next = place + e.record.totalSize := by
  unfold entryAt
  constructor
  · intro found
    split at found
    · cases found
    next marked =>
    dsimp only at found
    split at found
    · cases found
    next inside =>
    split at found
    · cases found
    next here =>
    split at found
    · cases found
    next headerInside =>
    split at found
    · cases found
    next headerMarked =>
    cases found
    rw [bne_iff_ne, not_not] at marked headerMarked
    exact ⟨⟨rfl, beq_iff_eq.mpr marked, Nat.not_le.mp inside,
      fun same => here (beq_iff_eq.mpr same), rfl, rfl, beq_iff_eq.mpr headerMarked,
      Nat.not_lt.mp headerInside⟩, rfl⟩
  · obtain ⟨record, header, headerOffset⟩ := e
    rintro ⟨⟨decoded, marked, inside, here, headerPlace, headerDecoded, headerMarked,
      headerInside⟩, rfl⟩
    dsimp only at decoded marked inside here headerPlace headerDecoded headerMarked headerInside
    subst decoded headerPlace headerDecoded
    have marked : number32 d place = DirectoryRecord.mark := eq_of_beq marked
    have headerMarked : number32 d _ = LocalHeader.mark := eq_of_beq headerMarked
    dsimp only
    rw [if_neg (by rw [bne_iff_ne, not_not]; exact marked), if_neg (Nat.not_le.mpr inside),
      if_neg (by rw [beq_iff_eq]; exact here), if_neg (Nat.not_lt.mpr headerInside),
      if_neg (by rw [bne_iff_ne, not_not]; exact headerMarked)]

/-- Where the record of an entry begins that comes behind others, of which the first begins at
`start`. -/
def recordPlace (start : Nat) (es : List Entry) (i : Nat) : Nat :=
  start + ((es.take i).map (·.record.totalSize)).sum

theorem recordPlace_cons_succ (start : Nat) (e : Entry) (es : List Entry) (i : Nat) :
    recordPlace start (e :: es) (i + 1) = recordPlace (start + e.record.totalSize) es i := by
  rw [recordPlace, recordPlace, List.take_succ_cons, List.map_cons, List.sum_cons, Nat.add_assoc]

theorem recordPlace_succ (start : Nat) {es : List Entry} {i : Nat} (h : i < es.length) :
    recordPlace start es (i + 1) = recordPlace start es i + es[i].record.totalSize := by
  rw [recordPlace, recordPlace, List.take_add_one, List.getElem?_eq_getElem h, List.map_append,
    List.sum_append, Nat.add_assoc]
  rfl

/-- Records do not overlap. -/
theorem recordPlace_add_le (start : Nat) {es : List Entry} {i j : Nat} (less : i < j)
    (h : j < es.length) :
    recordPlace start es i + es[i].record.totalSize ≤ recordPlace start es j := by
  induction j, less using Nat.le_induction with
  | base => exact Nat.le_of_eq (recordPlace_succ start _).symm
  | succ j less ih =>
    rw [recordPlace_succ start (Nat.lt_of_succ_lt h)]
    exact Nat.le_add_right_of_le (ih (Nat.lt_of_succ_lt h))

theorem mul_fixedSize_le_recordPlace (start : Nat) {es : List Entry} {i : Nat}
    (h : i ≤ es.length) : i * DirectoryRecord.fixedSize ≤ recordPlace start es i := by
  induction i with
  | zero => rw [Nat.zero_mul]; exact Nat.zero_le _
  | succ i ih =>
    rw [recordPlace_succ start h, Nat.succ_mul]
    exact Nat.add_le_add (ih (Nat.le_of_succ_le h)) (DirectoryRecord.fixedSize_le_totalSize _)

/-! ## Messages -/

theorem ArchiveFault.message_ne_nil (f : ArchiveFault) : f.message ≠ [] := by
  intro silent
  have words := List.append_eq_nil_iff.mp (List.append_eq_nil_iff.mp silent).1
  exact absurd words.2 (by decide)

theorem FileError.message_ne_nil (e : FileError) : e.message ≠ [] := by
  intro silent
  cases e with
  | alreadyOpen path =>
    exact absurd (List.append_eq_nil_iff.mp silent).2 (by decide)
  | cannotOpen path cause =>
    have words := List.append_eq_nil_iff.mp (List.append_eq_nil_iff.mp silent).1
    exact absurd words.2 (by decide)
  | notAFile path => exact absurd (List.append_eq_nil_iff.mp silent).2 (by decide)

theorem ArchiveOpenError.message_ne_nil (e : ArchiveOpenError) : e.message ≠ [] := by
  cases e with
  | file e => exact e.message_ne_nil
  | corrupt f => exact f.message_ne_nil

namespace InputArchive

/-! ## Calls -/

/-- Asks for the next entry so many times, for the answers. -/
def nextEach (a : InputArchive) :
    (calls : Nat) → Except Fatal (List (Option Entry) × InputArchive)
  | 0 => return ([], a)
  | calls + 1 => do
    let (answer, a) ← a.next
    let (answers, a) ← a.nextEach calls
    return (answer :: answers, a)

section Calls

variable {a b : InputArchive} {answer : Option Entry}

theorem nextEach_succ {calls : Nat} {answers : List (Option Entry)} {c : InputArchive}
    (first : a.next = .ok (answer, b)) (rest : b.nextEach calls = .ok (answers, c)) :
    a.nextEach (calls + 1) = .ok (answer :: answers, c) := by
  rw [nextEach, first, ok_bind]
  dsimp only
  rw [rest]
  rfl

/-- Behind a fault, no entry comes. -/
theorem next_of_fault (opened : a.path ≠ []) (faulty : a.fault.isSome) :
    a.next = .ok (none, a) := by
  rw [next, if_neg opened, if_pos faulty]

/-- What a call can do: an entry moves the cursor behind its record, and everything else stays
until the next call that gives none, which may find a fault. -/
theorem next_eq_ok (step : a.next = .ok (answer, b)) :
    a.path ≠ [] ∧
      ((∃ e, answer = some e ∧ a.fault = none ∧
          e.StandsAt a.view.data a.preamble a.cursor ∧
          b = { a with cursor := a.cursor + e.record.totalSize }) ∨
        (answer = none ∧ b = a ∧ (a.fault.isSome ∨
          entryAt a.view.data a.preamble a.cursor = .ok none)) ∨
        ∃ cause, answer = none ∧ a.fault = none ∧
          entryAt a.view.data a.preamble a.cursor = .error cause ∧
          b = { a with fault := some ⟨a.path, cause⟩ }) := by
  unfold next at step
  split at step
  · cases step
  next opened =>
  refine ⟨opened, ?_⟩
  split at step
  · next faulty =>
    cases step
    exact .inr (.inl ⟨rfl, rfl, .inl faulty⟩)
  next sound =>
  rw [Option.not_isSome_iff_eq_none] at sound
  split at step
  · next failed =>
    cases step
    exact .inr (.inr ⟨_, rfl, sound, failed, rfl⟩)
  · next ended =>
    cases step
    exact .inr (.inl ⟨rfl, rfl, .inr ended⟩)
  · next found =>
    cases step
    obtain ⟨stands, rfl⟩ := entryAt_eq_some_iff.mp found
    exact .inl ⟨_, rfl, sound, stands, rfl⟩

/-- Once there is no entry, there is none any more, and nothing changes. -/
theorem next_of_next_none (step : a.next = .ok (none, b)) : b.next = .ok (none, b) := by
  obtain ⟨opened, ⟨e, h, -⟩ | ⟨-, rfl, -⟩ | ⟨cause, -, -, -, rfl⟩⟩ := next_eq_ok step
  · cases h
  · exact step
  · exact next_of_fault opened rfl

theorem nextEach_of_next_none (stopped : a.next = .ok (none, a)) (calls : Nat) :
    a.nextEach calls = .ok (List.replicate calls none, a) := by
  induction calls with
  | zero => rfl
  | succ calls ih => exact nextEach_succ stopped ih

end Calls

/-! ## Whole walks -/

namespace Yields

variable {a b : InputArchive} {es : List Entry}

/-- Each entry that comes stands where those before it end. -/
theorem standsAt (yields : a.Yields es b) {i : Nat} (h : i < es.length) :
    es[i].StandsAt a.view.data a.preamble (recordPlace a.cursor es i) := by
  induction es generalizing a i with
  | nil => cases h
  | cons e es ih =>
    obtain ⟨a', step, rest⟩ := yields
    obtain ⟨-, ⟨e', same, -, stands, rfl⟩ | ⟨none, -⟩ | ⟨_, none, -⟩⟩ := next_eq_ok step
    · cases same
      cases i with
      | zero => exact stands
      | succ i =>
        rw [recordPlace_cons_succ]
        exact ih rest (Nat.lt_of_succ_lt_succ h)
    · cases none
    · cases none

/-- There are not more entries than records fit into the file. -/
theorem length_le (yields : a.Yields es b) :
    es.length ≤ a.view.size / DirectoryRecord.fixedSize := by
  rw [Nat.le_div_iff_mul_le (by decide)]
  cases count : es.length with
  | zero => rw [Nat.zero_mul]; exact Nat.zero_le _
  | succ n =>
    have last : n < es.length := by omega
    have inside := (yields.standsAt last).inside
    have long := mul_fixedSize_le_recordPlace a.cursor (Nat.succ_le_of_lt last)
    rw [recordPlace_succ a.cursor last] at long
    exact Nat.le_of_lt (Nat.lt_of_le_of_lt long inside)

/-- The calls give the entries one after the other and then nothing.  There is no fault as long as
entries come, and afterwards it is always the same. -/
theorem nextEach (yields : a.Yields es b) (calls : Nat) :
    ∃ c, a.nextEach calls = .ok ((List.range calls).map (es[·]?), c) ∧
      c.fault = if calls ≤ es.length then a.fault else b.fault := by
  induction es generalizing a calls with
  | nil =>
    cases calls with
    | zero => exact ⟨a, rfl, rfl⟩
    | succ calls =>
      refine ⟨b, ?_, rfl⟩
      have none : (List.range (calls + 1)).map (([] : List Entry)[·]?) =
          List.replicate (calls + 1) none := by simp
      rw [none]
      exact nextEach_succ yields (nextEach_of_next_none (next_of_next_none yields) calls)
  | cons e es ih =>
    cases calls with
    | zero => exact ⟨a, rfl, rfl⟩
    | succ calls =>
      obtain ⟨a', step, rest⟩ := yields
      obtain ⟨c, run, fault⟩ := ih rest calls
      have kept : a'.fault = a.fault := by
        obtain ⟨-, ⟨_, -, -, -, rfl⟩ | ⟨none, -⟩ | ⟨_, none, -⟩⟩ := next_eq_ok step
        · rfl
        · cases none
        · cases none
      refine ⟨c, ?_, ?_⟩
      · rw [List.range_succ_eq_map, List.map_cons, List.map_map]
        exact nextEach_succ step run
      · rw [fault, kept, List.length_cons]
        simp only [Nat.add_le_add_iff_right]

end Yields

/-- What is known of an archive that gives entries however often it is asked. -/
structure WalksBounded (a : InputArchive) (d : ByteArray) (es : List Entry) (fault : Text) :
    Prop where
  /-- Each record stands where those before it end, and record and header are in the file. -/
  stands : ∀ i (h : i < es.length), es[i].StandsAt d a.preamble (recordPlace a.cursor es i)
  /-- Records do not overlap. -/
  apart : ∀ i j (less : i < j) (h : j < es.length),
    recordPlace a.cursor es i + es[i].record.totalSize ≤ recordPlace a.cursor es j
  long : ∀ e ∈ es, 46 ≤ e.record.totalSize
  few : es.length ≤ d.size / 46
  /-- The entries come one after the other, then none comes, and the fault stays. -/
  answers : ∀ calls, ∃ b, a.nextEach calls = .ok ((List.range calls).map (es[·]?), b) ∧
    b.faultMessage = if calls ≤ es.length then [] else fault

end InputArchive

end ClassAbi
