import ClassAbi.Proofs.ArchiveReadBack

/-!
# Going through a directory

A reader goes through a directory by the lengths that the records themselves give.
So the records that it finds stand one behind the other (`Tiles`), from the place
where the directory begins to the place where the reader stops.  It stops where no
record begins or where a record is no good, and a fault says which of the two it
was.

A directory is gone through in finitely many steps, since a record is never empty.
`InputArchive.Yields.entries_eq` says that collecting all entries and asking for one
after the other come to the same.
-/

namespace ClassAbi

open Zip

/-- The records of the entries stand one behind the other.  The first begins at `start`, and
the last ends at `stop`. -/
def Tiles (d : ByteArray) : (start : Nat) → List Entry → (stop : Nat) → Prop
  | start, [], stop => start = stop
  | start, e :: es, stop =>
    DirectoryRecord.decode d start = e.record ∧ e.record.isMarked ∧
      Tiles d (start + e.record.totalSize) es stop

/-! ## Finding the directory -/

namespace Directory

/-- A directory ends where the end record begins, and is as long as the end record says. -/
theorem locate_eq_ok {d : ByteArray} {found : Directory} (located : locate d = .ok found) :
    ∃ stop, locateEnd d = .ok stop ∧
      found.start + (EndRecord.decode d stop).directorySize.toNat = stop := by
  obtain ⟨stop, ended, located⟩ := bind_eq_ok.mp located
  refine ⟨stop, ended, ?_⟩
  unfold before at located
  dsimp only at located
  split at located
  · cases located
  split at located
  · cases located
  split at located
  · cases located
  split at located
  · cases located
  · cases located
    dsimp only
    omega

end Directory

/-! ## One record -/

section Record

variable {d : ByteArray} {preamble offset : Nat}

/-- There is no entry exactly where no record begins. -/
theorem entryAt_eq_none_iff :
    entryAt d preamble offset = .ok none ↔ number32 d offset ≠ DirectoryRecord.mark := by
  unfold entryAt
  split
  · next other => exact ⟨fun _ => bne_iff_ne.mp other, fun _ => rfl⟩
  · next marked =>
    rw [bne_iff_ne, not_not] at marked
    refine ⟨fun none => ?_, fun other => absurd marked other⟩
    dsimp only at none
    split at none
    · cases none
    split at none
    · cases none
    split at none
    · cases none
    split at none
    · cases none
    · cases none

/-- The record of an entry is the one at the offset, and the next one begins where it ends. -/
theorem entryAt_eq_some {e : Entry} {next : Nat}
    (found : entryAt d preamble offset = .ok (some (e, next))) :
    DirectoryRecord.decode d offset = e.record ∧ e.record.isMarked ∧
      next = offset + e.record.totalSize ∧ next < d.size := by
  unfold entryAt at found
  split at found
  · cases found
  · next marked =>
    dsimp only at found
    split at found
    · cases found
    · next inside =>
      split at found
      · cases found
      split at found
      · cases found
      split at found
      · cases found
      · cases found
        rw [bne_iff_ne, not_not] at marked
        exact ⟨rfl, beq_iff_eq.mpr marked, rfl, Nat.not_le.mp inside⟩

end Record

theorem Zip.DirectoryRecord.fixedSize_le_totalSize (r : DirectoryRecord) :
    fixedSize ≤ r.totalSize := by
  rw [totalSize, Nat.add_assoc, Nat.add_assoc]
  exact Nat.le_add_right ..

/-! ## All records -/

namespace InputArchive

variable {a b : InputArchive}

/-- An archive that was opened shows the file and is at its directory. -/
theorem openFile_eq_ok {reader : InputArchive} {disk : Disk} {path : Text}
    (opened : reader.openFile disk path = .ok (.ok (), a)) :
    ∃ d found, disk.lookup path = .ok (.file d) ∧ path ≠ [] ∧ Directory.locate d = .ok found ∧
      a = ⟨path, ⟨some d⟩, none, found.start, found.preamble⟩ := by
  unfold openFile at opened
  split at opened
  · cases opened
  · dsimp only at opened
    split at opened
    · cases opened
    · next view shown =>
      unfold FileView.openFile at shown
      split at shown
      · cases shown
      · obtain ⟨d, read, eq⟩ := bind_eq_ok.mp shown
        cases eq
        have found : disk.lookup path = .ok (.file d) := by
          unfold Disk.read at read
          split at read
          · next there =>
            cases read
            exact there
          · cases read
          · cases read
        have named : path ≠ [] := by
          rintro rfl
          rw [Disk.lookup_nil] at found
          cases found
        split at opened
        · cases opened
        · next directory located =>
          cases opened
          exact ⟨d, directory, found, named, located, rfl⟩

/-- What an archive is after it was opened does not depend on the reader. -/
theorem openFile_closed {reader : InputArchive} {disk : Disk} {path : Text}
    (opened : reader.openFile disk path = .ok (.ok (), a)) :
    closed.openFile disk path = .ok (.ok (), a) := by
  obtain ⟨d, found, there, -, located, rfl⟩ := openFile_eq_ok opened
  have read := openFile_close there closed
  rw [located] at read
  exact read

/-- A reader that shows nothing can be asked to open anything. -/
theorem exists_openFile_closed (disk : Disk) (path : Text) :
    ∃ result, closed.openFile disk path = .ok result := by
  unfold openFile
  rw [if_neg (show ¬closed.path ≠ [] from not_not_intro rfl)]
  dsimp only
  split
  · exact ⟨_, rfl⟩
  · split <;> exact ⟨_, rfl⟩

/-- Where there is no fault yet, the next entry is the one at the cursor. -/
theorem next_of_sound (opened : a.path ≠ []) (sound : a.fault = none) :
    a.next = .ok (match entryAt a.view.data a.preamble a.cursor with
      | .error cause => (none, { a with fault := some ⟨a.path, cause⟩ })
      | .ok none => (none, a)
      | .ok (some (e, cursor)) => (some e, { a with cursor })) := by
  rw [next, if_neg opened, sound]
  cases entryAt a.view.data a.preamble a.cursor with
  | error cause => rfl
  | ok found => cases found <;> rfl

/-- The entries that an archive gives have their records one behind the other, and then either
no record begins or there is a fault. -/
theorem Yields.tiles {es : List Entry} (yields : a.Yields es b) (opened : a.path ≠ [])
    (sound : a.fault = none) :
    b.view = a.view ∧ Tiles a.view.data a.cursor es b.cursor ∧
      (b.fault = none ↔ number32 a.view.data b.cursor ≠ DirectoryRecord.mark) := by
  induction es generalizing a with
  | nil =>
    rw [Yields, next_of_sound opened sound] at yields
    split at yields
    · next failed =>
      cases yields
      refine ⟨rfl, rfl, fun none => absurd none (Option.some_ne_none _),
        fun other => ?_⟩
      rw [entryAt_eq_none_iff.mpr other] at failed
      cases failed
    · next ended =>
      cases yields
      exact ⟨rfl, rfl, fun _ => entryAt_eq_none_iff.mp ended, fun _ => sound⟩
    · cases yields
  | cons e es ih =>
    obtain ⟨a', step, rest⟩ := yields
    rw [next_of_sound opened sound] at step
    split at step
    · cases step
    · cases step
    · next found =>
      cases step
      obtain ⟨record, marked, rfl, -⟩ := entryAt_eq_some found
      obtain ⟨view, tiles, ended⟩ := ih rest opened sound
      exact ⟨view, ⟨record, marked, tiles⟩, ended⟩

/-- There are fewer entries than records fit into the file. -/
theorem exists_entriesFrom {records : Nat} (opened : a.path ≠ []) (sound : a.fault = none)
    (positive : 0 < records)
    (enough : a.view.size < a.cursor + records * DirectoryRecord.fixedSize)
    (before : Array Entry) :
    ∃ es b, a.Yields es b ∧ a.entriesFrom records before = .ok (before ++ es.toArray, b) := by
  induction records generalizing a before with
  | zero => exact absurd positive (Nat.lt_irrefl 0)
  | succ records ih =>
    have step := next_of_sound opened sound
    rw [entriesFrom, step, ok_bind]
    cases found : entryAt a.view.data a.preamble a.cursor with
    | error cause =>
      rw [found] at step
      exact ⟨[], _, step, by rw [Array.append_empty]; rfl⟩
    | ok result =>
      cases result with
      | none =>
        rw [found] at step
        exact ⟨[], _, step, by rw [Array.append_empty]; rfl⟩
      | some result =>
        obtain ⟨e, cursor⟩ := result
        rw [found] at step
        obtain ⟨-, -, rfl, inside⟩ := entryAt_eq_some found
        have long := e.record.fixedSize_le_totalSize
        have inside : a.cursor + e.record.totalSize < a.view.size := inside
        have more : a.view.size < a.cursor + e.record.totalSize +
            records * DirectoryRecord.fixedSize := by
          rw [Nat.succ_mul] at enough
          omega
        -- The record that was found ends in the file, so the bound is not used up.
        have positive : 0 < records := by
          refine Nat.pos_of_ne_zero ?_
          rintro rfl
          omega
        obtain ⟨es, b, rest, all⟩ := ih (a := { a with cursor := a.cursor + e.record.totalSize })
          opened sound positive more (before.push e)
        have pushed : before.push e ++ es.toArray = before ++ (e :: es).toArray := by simp
        exact ⟨e :: es, b, ⟨_, step, rest⟩, pushed ▸ all⟩

/-- An archive is gone through to the end. -/
theorem exists_entries (opened : a.path ≠ []) (sound : a.fault = none) :
    ∃ es b, a.Yields es b ∧ a.entries = .ok (es.toArray, b) := by
  have enough : a.view.size < a.cursor +
      (a.view.size / DirectoryRecord.fixedSize + 1) * DirectoryRecord.fixedSize := by
    have := Nat.lt_div_mul_add (a := a.view.size) (show 0 < DirectoryRecord.fixedSize by decide)
    rw [Nat.succ_mul]
    omega
  obtain ⟨es, b, yields, all⟩ :=
    exists_entriesFrom opened sound (Nat.succ_pos _) enough #[]
  refine ⟨es, b, yields, ?_⟩
  rw [entries, all, Array.empty_append]

/-- There is one way to go through an archive. -/
theorem Yields.unique {es es' : List Entry} {b' : InputArchive} (yields : a.Yields es b)
    (yields' : a.Yields es' b') : es = es' ∧ b = b' := by
  induction es generalizing a es' with
  | nil =>
    cases es' with
    | nil =>
      rw [Yields] at yields yields'
      rw [yields] at yields'
      cases yields'
      exact ⟨rfl, rfl⟩
    | cons e es' =>
      obtain ⟨a', step, -⟩ := yields'
      rw [Yields, step] at yields
      cases yields
  | cons e es ih =>
    obtain ⟨a₁, step, rest⟩ := yields
    cases es' with
    | nil =>
      rw [Yields, step] at yields'
      cases yields'
    | cons e' es' =>
      obtain ⟨a₂, step', rest'⟩ := yields'
      rw [step] at step'
      cases step'
      obtain ⟨rfl, rfl⟩ := ih rest rest'
      exact ⟨rfl, rfl⟩

/-- Collecting all entries gives those that come one after the other. -/
theorem Yields.entries_eq {es : List Entry} (yields : a.Yields es b) (opened : a.path ≠ [])
    (sound : a.fault = none) : a.entries = .ok (es.toArray, b) := by
  obtain ⟨es', b', yields', all⟩ := exists_entries opened sound
  obtain ⟨rfl, rfl⟩ := yields.unique yields'
  exact all

end InputArchive

end ClassAbi
