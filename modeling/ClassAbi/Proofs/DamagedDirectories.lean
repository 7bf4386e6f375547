import ClassAbi.Proofs.Gathering

/-!
# Directories that are damaged

The only sign of the end of a directory is that no record begins where the last one
ends.  So a record that has lost its mark looks like the end, and it is passed over
with all records behind it and without a fault.  Whatever else is wrong with a record
is a fault, and then an archive brings nothing.

All records are found in a directory where no mark is missing (`Unbroken`).
`InputArchive.openFile_walk` says what is found in any directory.
-/

namespace ClassAbi

open Zip

/-- Wherever the records lead, a record begins or the directory ends. -/
def Unbroken (d : ByteArray) (start stop : Nat) : Prop :=
  ∀ es place, Tiles d start es place → place = stop ∨ number32 d place = DirectoryRecord.mark

/-- A fault is always said. -/
theorem InputArchive.faultMessage_eq_nil {a : InputArchive} :
    a.faultMessage = [] ↔ a.fault = none := by
  refine ⟨fun silent => ?_, fun sound => by rw [faultMessage, sound]; rfl⟩
  cases fault : a.fault with
  | none => rfl
  | some f =>
    rw [faultMessage, fault] at silent
    have words := List.append_eq_nil_iff.mp (List.append_eq_nil_iff.mp silent).1
    exact absurd words.2 (by decide)

/-- From an archive that can be opened come entries whose records stand one behind the other from
the beginning of the directory on.  They end where a record is missing, and a fault is said if a
record begins there all the same.  If no mark is missing and no fault is said, they end where the
end record begins.  The archive is added if no fault is said, and changes nothing otherwise. -/
theorem InputArchive.openFile_walk {reader a : InputArchive} {h : Host} {path : Text}
    (opened : reader.openFile h.disk path = .ok (.ok (), a)) (c : Collection) :
    ∃ d stop es b h', h.disk.lookup path = .ok (.file d) ∧ Directory.locateEnd d = .ok stop ∧
      a.cursor + (EndRecord.decode d stop).directorySize.toNat = stop ∧
      a.Yields es b ∧ Tiles d a.cursor es b.cursor ∧
      (b.faultMessage = [] ↔ number32 d b.cursor ≠ DirectoryRecord.mark) ∧
      (Unbroken d a.cursor stop → b.faultMessage = [] → b.cursor = stop) ∧
      (c.addArchive path).runOn h = (.ok (if b.faultMessage = []
        then (true, (classTasks path d es).foldl Collection.insert c) else (false, c)), h') := by
  have opened' := openFile_closed opened
  obtain ⟨d, found, there, named, located, rfl⟩ := openFile_eq_ok opened
  obtain ⟨stop, ended, length⟩ := Directory.locate_eq_ok located
  obtain ⟨es, b, yields, -⟩ := exists_entries
    (a := ⟨path, ⟨some d⟩, none, found.start, found.preamble⟩) named rfl
  obtain ⟨-, tiles, silent⟩ := yields.tiles named rfl
  obtain ⟨h', run, -⟩ := Collection.exists_runOn_addArchive opened' yields c
  rw [← faultMessage_eq_nil] at silent
  refine ⟨d, stop, es, b, h', there, ended, length, yields, tiles, silent, ?_, ?_⟩
  · intro unbroken sound
    exact (unbroken es b.cursor tiles).resolve_right (silent.mp sound)
  · rw [run]
    cases fault : b.fault with
    | none => rw [if_pos (faultMessage_eq_nil.mpr fault)]; rfl
    | some f =>
      rw [if_neg]
      rw [faultMessage_eq_nil, fault]
      exact Option.some_ne_none f

/-! ## A record that has lost its mark -/

/-- The reader of a file at a place. -/
def readerAt (d : ByteArray) (cursor : Nat) : InputArchive := ⟨[111], ⟨some d⟩, none, cursor, 0⟩

theorem next_readerAt (d : ByteArray) (cursor : Nat) :
    (readerAt d cursor).next = .ok (match entryAt d 0 cursor with
      | .error cause => (none, { readerAt d cursor with fault := some ⟨[111], cause⟩ })
      | .ok none => (none, readerAt d cursor)
      | .ok (some (e, next)) => (some e, readerAt d next)) :=
  InputArchive.next_of_sound (List.cons_ne_nil _ _) rfl

theorem tiles_of_yields_readerAt {d : ByteArray} {start stop : Nat} {es : List Entry}
    (yields : (readerAt d start).Yields es (readerAt d stop)) : Tiles d start es stop :=
  (yields.tiles (List.cons_ne_nil _ _) rfl).2.1

/-- An archive of two classes without contents. -/
def twoClasses : Text :=
  archiveBytes false [⟨Text.ascii "A.class", .empty⟩, ⟨Text.ascii "B.class", .empty⟩]

/-- The archive with another byte in the mark of its second directory record. -/
def damagedClasses : ByteArray := (twoClasses.set 128 88).toByteArray

/-- A host with the damaged archive. -/
def damagedHost : Host := ⟨OutputArchive.hostAtO.disk.update [[111]] damagedClasses, #[]⟩

theorem openFile_damagedHost :
    InputArchive.closed.openFile damagedHost.disk [111] =
      .ok (.ok (), readerAt damagedClasses 74) := by
  obtain ⟨place, d, created, rfl, wrote⟩ :=
    OutputArchive.openFile_eq_ok OutputArchive.openFile_emptyHost
  obtain ⟨s, file, rfl, -⟩ := wrote.file
  cases file
  have found := Disk.lookup_update_of_create created damagedClasses
  have located : Directory.locate damagedClasses = .ok ⟨74, 0⟩ := by decide +kernel
  have read := InputArchive.openFile_close found InputArchive.closed
  rw [located] at read
  exact read

theorem openFile_walk_damagedHost :
    InputArchive.closed.openFile damagedHost.disk [111] =
        .ok (.ok (), readerAt damagedClasses 74) ∧
      ∃ d stop es b h', damagedHost.disk.lookup [111] = .ok (.file d) ∧
        Directory.locateEnd d = .ok stop ∧ (readerAt damagedClasses 74).Yields es b ∧
        Tiles d 74 es b.cursor ∧
        (Collection.empty.addArchive [111]).runOn damagedHost = (.ok (if b.faultMessage = []
          then (true, (classTasks [111] d es).foldl Collection.insert Collection.empty)
          else (false, Collection.empty)), h') := by
  obtain ⟨d, stop, es, b, h', found, ended, -, yields, tiles, -, -, run⟩ :=
    InputArchive.openFile_walk openFile_damagedHost Collection.empty
  exact ⟨openFile_damagedHost, d, stop, es, b, h', found, ended, yields, tiles, run⟩

/-- The first entry of the damaged archive. -/
def firstDamaged : Entry := NamedData.entryAt false ⟨Text.ascii "A.class", .empty⟩ 0

/-- The damaged archive is added with its first class alone.  The records end at 127, where the
second one has lost its mark, and the directory ends at 180.  No fault is said. -/
theorem addArchive_damagedHost :
    number32 twoClasses.toByteArray 127 = DirectoryRecord.mark ∧
      Directory.locateEnd damagedClasses = .ok 180 ∧
      InputArchive.closed.openFile damagedHost.disk [111] =
        .ok (.ok (), readerAt damagedClasses 74) ∧
      (readerAt damagedClasses 74).Yields [firstDamaged] (readerAt damagedClasses 127) ∧
      (readerAt damagedClasses 127).faultMessage = [] ∧
      Tiles damagedClasses 74 [firstDamaged] 127 ∧
      ∃ c h', (Collection.empty.addArchive [111]).runOn damagedHost = (.ok (true, c), h') ∧
        c.size = 1 := by
  have marked : number32 twoClasses.toByteArray 127 = DirectoryRecord.mark := by decide +kernel
  have ended : Directory.locateEnd damagedClasses = .ok 180 := by decide +kernel
  have first : entryAt damagedClasses 0 74 = .ok (some (firstDamaged, 127)) := by decide +kernel
  have second : entryAt damagedClasses 0 127 = .ok none := by decide +kernel
  have yields :
      (readerAt damagedClasses 74).Yields [firstDamaged] (readerAt damagedClasses 127) := by
    refine ⟨readerAt damagedClasses 127, ?_, ?_⟩
    · rw [next_readerAt, first]
    · rw [InputArchive.Yields, next_readerAt, second]
  obtain ⟨h', run, -⟩ :=
    Collection.exists_runOn_addArchive openFile_damagedHost yields Collection.empty
  refine ⟨marked, ended, openFile_damagedHost, yields, rfl, tiles_of_yields_readerAt yields,
    _, h', run, ?_⟩
  have names : ∀ name, name ∈ Collection.empty.claims ↔ name ∈ ([] : List Text) := by
    simp [Collection.empty]
  rw [Collection.size, ← Array.length_toList, Collection.tasks_foldl_insert names]
  rfl

end ClassAbi
