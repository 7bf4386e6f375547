import ClassAbi.Proofs.Actions
import ClassAbi.Proofs.ArchiveLayout
import ClassAbi.Proofs.DiskPaths
import Mathlib.Data.List.Nodup

/-!
# Writing an archive, from opening to closing

A session writes entries one after the other.  As long as none is refused, what
is in the file, the directory, the names and the number of entries belong to the
same entries (`OutputArchive.Wrote`), which one write keeps and a run of writes
therefore does.  After the first refusal nothing is written any more.

`OutputArchive.session_spec` says what a whole session leaves at its path: the
archive of all entries, or nothing.
-/

namespace ClassAbi

/-! ## Entries that are refused -/

/-- The entry cannot follow the others. -/
def Refused (earlier : List NamedData) (x : NamedData) : Prop :=
  x.name = [] ∨ OutputArchive.countLimit < x.name.length ∨ x.name ∈ earlier.map NamedData.name ∨
    OutputArchive.countLimit ≤ earlier.length

/-- The entry can be written behind the others. -/
structure Fits (compress : Bool) (earlier : List NamedData) (x : NamedData) : Prop where
  accepted : ¬Refused earlier x
  data : x.data.size < OutputArchive.sizeLimit
  offset : (entriesBytes compress earlier).length < OutputArchive.sizeLimit

/-- None of the entries is refused behind those before it. -/
structure Accepted (es : List NamedData) : Prop where
  named : ∀ x ∈ es, x.name ≠ [] ∧ x.name.length ≤ OutputArchive.countLimit
  distinct : (es.map NamedData.name).Nodup
  count : es.length ≤ OutputArchive.countLimit

theorem accepted_nil : Accepted [] := ⟨List.forall_mem_nil _, List.nodup_nil, Nat.zero_le _⟩

/-- The beginning of entries that are accepted is accepted. -/
theorem Accepted.of_append {es fs : List NamedData} (h : Accepted (es ++ fs)) : Accepted es := by
  obtain ⟨named, distinct, count⟩ := h
  rw [List.map_append] at distinct
  rw [List.length_append] at count
  exact ⟨fun x mem => named x (List.mem_append_left fs mem), distinct.of_append_left, by omega⟩

theorem accepted_append_singleton {es : List NamedData} {x : NamedData} :
    Accepted (es ++ [x]) ↔ Accepted es ∧ ¬Refused es x := by
  have room : es.length + 1 ≤ OutputArchive.countLimit ↔
      ¬OutputArchive.countLimit ≤ es.length := by omega
  constructor
  · rintro ⟨named, distinct, count⟩
    rw [List.map_append, List.nodup_append] at distinct
    rw [List.length_append, List.length_singleton] at count
    obtain ⟨nonempty, short⟩ := named x (List.mem_append_right es (List.mem_singleton_self x))
    refine ⟨⟨fun y mem => named y (List.mem_append_left _ mem), distinct.1, by omega⟩, ?_⟩
    rintro (empty | long | again | full)
    · exact nonempty empty
    · exact absurd short (Nat.not_le.mpr long)
    · exact distinct.2.2 x.name again x.name (List.mem_singleton_self _) rfl
    · exact room.mp count full
  · rintro ⟨⟨named, distinct, count⟩, fits⟩
    simp only [Refused, not_or, Nat.not_lt] at fits
    obtain ⟨nonempty, short, fresh, notFull⟩ := fits
    constructor
    · exact List.forall_mem_append.mpr ⟨named, List.forall_mem_singleton.mpr ⟨nonempty, short⟩⟩
    · rw [List.map_append, List.nodup_append]
      refine ⟨distinct, List.nodup_singleton _, ?_⟩
      rintro name mem _ same rfl
      rw [List.map_singleton, List.mem_singleton] at same
      exact fresh (same ▸ mem)
    · rw [List.length_append, List.length_singleton]
      exact room.mpr notFull

/-- Of entries that are not all accepted, there is a first one that is refused. -/
theorem accepted_or_refused {earlier : List NamedData} (accepted : Accepted earlier)
    (es : List NamedData) :
    Accepted (earlier ++ es) ∨ ∃ before x after, es = before ++ x :: after ∧
      Accepted (earlier ++ before) ∧ Refused (earlier ++ before) x := by
  induction es generalizing earlier with
  | nil => exact .inl (by rwa [List.append_nil])
  | cons x es ih =>
    by_cases refused : Refused earlier x
    · exact .inr ⟨[], x, es, rfl, by rwa [List.append_nil], by rwa [List.append_nil]⟩
    · have next := ih (accepted_append_singleton.mpr ⟨accepted, refused⟩)
      rw [List.append_assoc] at next
      refine next.imp id ?_
      rintro ⟨before, y, after, rfl, accepted, refused⟩
      rw [List.append_assoc] at accepted refused
      exact ⟨x :: before, y, after, rfl, accepted, refused⟩

theorem WithinLimits.fits {compress : Bool} {es : List NamedData} {x : NamedData}
    (small : WithinLimits compress (es ++ [x])) (accepted : ¬Refused es x) : Fits compress es x where
  accepted := accepted
  data := small.data x (List.mem_append_right es (List.mem_singleton_self x))
  offset := Nat.lt_of_le_of_lt (Nat.le_add_right ..) small.of_append.total

namespace OutputArchive

/-- Writes entries, and answers for each of them whether it was written. -/
def writeEach (a : OutputArchive) : List NamedData → Action (List Bool × OutputArchive)
  | [] => return ([], a)
  | x :: es => do
    let (answer, a) ← a.write x.name x.data
    let (answers, a) ← a.writeEach es
    return (answer :: answers, a)

/-! ## Sessions without a refusal -/

/-- The session has written the entries, and nothing was refused. -/
structure Wrote (compress : Bool) (path : Text) (place : DiskPlace) (es : List NamedData)
    (a : OutputArchive) : Prop where
  mode : a.compress = compress
  path : a.path = path
  file : ∃ s, a.file = some s ∧ s.place = place ∧ s.written.data.toList = entriesBytes compress es
  healthy : a.failed = false
  entries : a.entries = es.length
  directory : a.directory.data.toList = directoryBytes compress es
  names : ∀ name, name ∈ a.names ↔ name ∈ es.map NamedData.name

/-- The session has failed. -/
structure Failed (path : Text) (a : OutputArchive) : Prop where
  path : a.path = path
  file : a.file.isSome
  failed : a.failed = true

theorem toList_written_write (s : FileStream) (bytes : ByteArray) :
    (s.write bytes).written.data.toList = s.written.data.toList ++ bytes.data.toList := by
  unfold FileStream.write
  split
  · next empty =>
    rw [ByteArray.size_eq_zero_iff.mp empty]
    exact (List.append_nil _).symm
  · unfold FileStream.hold
    split <;> simp

theorem place_write (s : FileStream) (bytes : ByteArray) : (s.write bytes).place = s.place := by
  unfold FileStream.write
  split
  · rfl
  · unfold FileStream.hold
    split <;> rfl

/-- Opening begins a session with an empty file. -/
theorem openFile_eq_ok {a a₀ : OutputArchive} {path : Text} {h h₀ : Host}
    (opened : (a.openFile path).runOn h = (.ok (true, a₀), h₀)) :
    ∃ place d, h.disk.create path = .ok (place, d) ∧ h₀.disk = d ∧
      a₀.Wrote a.compress path place [] := by
  unfold openFile at opened
  split at opened
  · cases opened
  · obtain ⟨d, h', run, opened⟩ := Action.runOn_bind_eq_ok.mp opened
    cases run
    split at opened
    · cases opened
    · next place d created =>
      cases opened
      refine ⟨place, d, created, rfl, rfl, rfl, ⟨_, rfl, rfl, rfl⟩, rfl, rfl, rfl, ?_⟩
      simp

/-- Failing tells why, and changes nothing but that the session has failed. -/
theorem fail_spec (a : OutputArchive) (e : WriteError) (h : Host) :
    ∃ h', (a.fail e).runOn h = (.ok (false, { a with failed := true }), h') ∧ h'.disk = h.disk :=
  ⟨_, rfl, rfl⟩

section Step

variable {compress : Bool} {path : Text} {place : DiskPlace} {es : List NamedData}
  {a : OutputArchive} {x : NamedData}

theorem Wrote.size_eq (wrote : a.Wrote compress path place es) {s : FileStream}
    (file : a.file = some s) : s.size = (entriesBytes compress es).length := by
  obtain ⟨s', file', -, written⟩ := wrote.file
  rw [file] at file'
  cases file'
  rw [← written]
  rfl

/-- An entry that fits is written. -/
theorem Wrote.write (wrote : a.Wrote compress path place es) (fits : Fits compress es x)
    (h : Host) :
    ∃ a' h', (a.write x.name x.data).runOn h = (.ok (true, a'), h') ∧ h'.disk = h.disk ∧
      a'.Wrote compress path place (es ++ [x]) := by
  obtain ⟨accepted, data, offset⟩ := fits
  obtain ⟨rfl, sessionPath, ⟨s, file, rfl, written⟩, healthy, entries, directory, names⟩ := wrote
  simp only [Refused, not_or, Nat.not_lt, Nat.not_le] at accepted
  obtain ⟨nonempty, short, fresh, notFull⟩ := accepted
  have size : s.size < sizeLimit := by
    rw [← written] at offset
    exact offset
  have named : ¬(x.name = [] ∨ countLimit < x.name.length) := by
    rintro (empty | long)
    · exact nonempty empty
    · exact absurd short (Nat.not_le.mpr long)
  have new : ¬a.names.contains x.name = true := by
    rw [Std.HashSet.contains_iff_mem, names]
    exact fresh
  have room : ¬(countLimit ≤ a.entries ∨ sizeLimit ≤ x.data.size ∨ sizeLimit ≤ s.size) := by
    rw [entries]
    omega
  unfold OutputArchive.write
  rw [file]
  simp only [healthy, Bool.false_eq_true, if_false, if_neg named, if_neg new, if_neg room]
  refine ⟨_, _, rfl, rfl, ?_⟩
  constructor
  case mode => rfl
  case path => exact sessionPath
  case file =>
    refine ⟨_, rfl, ?_, ?_⟩
    · rw [place_write, place_write]
    · rw [toList_written_write, toList_written_write, written, entriesBytes_append,
        entriesBytes_singleton, List.append_assoc, NamedData.bytes, List.toList_data_toByteArray]
      rfl
  case healthy => rfl
  case entries =>
    rw [List.length_append, List.length_singleton, ← entries]
    rfl
  case directory =>
    rw [directoryBytes_append_singleton, ← directory, ← written]
    exact ByteArray.toList_data_append.trans (by rw [List.toList_data_toByteArray]; rfl)
  case names =>
    intro name
    rw [List.map_append, List.mem_append, ← names, List.map_singleton, List.mem_singleton]
    refine Std.HashSet.mem_insert.trans ?_
    rw [beq_iff_eq, or_comm, @eq_comm _ x.name]

/-- An entry that does not fit lets the session fail. -/
theorem Wrote.write_of_not_fits (wrote : a.Wrote compress path place es)
    (unfit : ¬Fits compress es x) (h : Host) :
    ∃ a' h', (a.write x.name x.data).runOn h = (.ok (false, a'), h') ∧ h'.disk = h.disk ∧
      a'.Failed path := by
  obtain ⟨s, file, -, -⟩ := wrote.file
  have lasts : a.file.isSome := by
    rw [file]
    rfl
  unfold OutputArchive.write
  simp only [file, wrote.healthy, Bool.false_eq_true, if_false]
  split
  · exact ⟨_, _, rfl, rfl, wrote.path, lasts, rfl⟩
  split
  · exact ⟨_, _, rfl, rfl, wrote.path, lasts, rfl⟩
  split
  · exact ⟨_, _, rfl, rfl, wrote.path, rfl, rfl⟩
  · next named new room =>
    simp only [not_or, Nat.not_le, wrote.entries, wrote.size_eq file] at room
    obtain ⟨notFull, data, offset⟩ := room
    refine absurd ⟨?_, data, offset⟩ unfit
    rintro (empty | long | again | full)
    · exact named (.inl empty)
    · exact named (.inr long)
    · rw [Std.HashSet.contains_iff_mem, wrote.names] at new
      exact new again
    · exact absurd notFull (Nat.not_lt.mpr full)

/-- After a failure nothing is written. -/
theorem Failed.write (failed : a.Failed path) (h : Host) :
    (a.write x.name x.data).runOn h = (.ok (false, a), h) := by
  obtain ⟨s, file⟩ := Option.isSome_iff_exists.mp failed.file
  unfold OutputArchive.write
  rw [file]
  simp only [failed.failed, if_true]
  rfl

end Step

/-! ## Runs of writes -/

section Run

variable {compress : Bool} {path : Text} {place : DiskPlace} {a : OutputArchive}

theorem writeEach_append {es fs : List NamedData} {answers answers' : List Bool}
    {a' a'' : OutputArchive} {h h' h'' : Host}
    (first : (a.writeEach es).runOn h = (.ok (answers, a'), h'))
    (second : (a'.writeEach fs).runOn h' = (.ok (answers', a''), h'')) :
    (a.writeEach (es ++ fs)).runOn h = (.ok (answers ++ answers', a''), h'') := by
  induction es generalizing a h answers with
  | nil =>
    cases first
    exact second
  | cons x es ih =>
    obtain ⟨⟨answer, a₁⟩, h₁, written, first⟩ := Action.runOn_bind_eq_ok.mp first
    obtain ⟨⟨others, a₂⟩, h₂, run, eq⟩ := Action.runOn_bind_eq_ok.mp first
    cases eq
    rw [List.cons_append, writeEach]
    exact Action.runOn_bind_eq_ok.mpr
      ⟨_, _, written, Action.runOn_bind_eq_ok.mpr ⟨_, _, ih run, rfl⟩⟩

/-- Entries that are accepted are written one after the other. -/
theorem Wrote.writeEach {earlier es : List NamedData} (wrote : a.Wrote compress path place earlier)
    (accepted : Accepted (earlier ++ es)) (small : WithinLimits compress (earlier ++ es))
    (h : Host) :
    ∃ a' h', (a.writeEach es).runOn h = (.ok (es.map fun _ => true, a'), h') ∧
      h'.disk = h.disk ∧ a'.Wrote compress path place (earlier ++ es) := by
  induction es generalizing earlier a h with
  | nil =>
    refine ⟨a, h, rfl, rfl, ?_⟩
    rwa [List.append_nil]
  | cons x es ih =>
    rw [← List.singleton_append, ← List.append_assoc] at accepted small
    obtain ⟨a₁, h₁, written, disk, wrote⟩ :=
      wrote.write (small.of_append.fits (accepted_append_singleton.mp accepted.of_append).2) h
    obtain ⟨a₂, h₂, run, disk', wrote⟩ := ih wrote accepted small h₁
    refine ⟨a₂, h₂, ?_, disk'.trans disk, ?_⟩
    · exact Action.runOn_bind_eq_ok.mpr
        ⟨_, _, written, Action.runOn_bind_eq_ok.mpr ⟨_, _, run, rfl⟩⟩
    · rwa [List.append_assoc] at wrote

/-- Entries that were all written were accepted, and none of them was too large. -/
theorem Wrote.of_writeEach {earlier es : List NamedData} {a' : OutputArchive} {h h' : Host}
    (wrote : a.Wrote compress path place earlier) (accepted : Accepted earlier)
    (run : (a.writeEach es).runOn h = (.ok (es.map fun _ => true, a'), h')) :
    h'.disk = h.disk ∧ a'.Wrote compress path place (earlier ++ es) ∧ Accepted (earlier ++ es) ∧
      ∀ x ∈ es, x.data.size < sizeLimit := by
  induction es generalizing earlier a h with
  | nil =>
    cases run
    rw [List.append_nil]
    exact ⟨rfl, wrote, accepted, List.forall_mem_nil _⟩
  | cons x es ih =>
    obtain ⟨⟨answer, a₁⟩, h₁, written, run⟩ := Action.runOn_bind_eq_ok.mp run
    obtain ⟨⟨answers, a₂⟩, h₂, run, eq⟩ := Action.runOn_bind_eq_ok.mp run
    cases eq
    by_cases fits : Fits compress earlier x
    · obtain ⟨a₃, h₃, written', disk, wrote⟩ := wrote.write fits h
      rw [written'] at written
      cases written
      have accepted := accepted_append_singleton.mpr ⟨accepted, fits.accepted⟩
      obtain ⟨disk', wrote, accepted, small⟩ := ih wrote accepted run
      rw [List.append_assoc] at wrote accepted
      exact ⟨disk'.trans disk, wrote, accepted, List.forall_mem_cons.mpr ⟨fits.data, small⟩⟩
    · obtain ⟨a₃, h₃, written', -⟩ := wrote.write_of_not_fits fits h
      rw [written'] at written
      cases written

/-- After a failure every write is answered with false and changes nothing. -/
theorem Failed.writeEach (failed : a.Failed path) (es : List NamedData) (h : Host) :
    (a.writeEach es).runOn h = (.ok (es.map fun _ => false, a), h) := by
  induction es with
  | nil => rfl
  | cons x es ih =>
    exact Action.runOn_bind_eq_ok.mpr
      ⟨_, _, failed.write h, Action.runOn_bind_eq_ok.mpr ⟨_, _, ih, rfl⟩⟩

end Run

/-! ## Closing -/

theorem abandon_of_remove {a : OutputArchive} {h : Host} {d : Disk}
    (removed : h.disk.remove a.path = .ok d) :
    a.abandon.runOn h = (.ok { a with file := none }, { h with disk := d }) := by
  unfold abandon
  rw [Action.runOn_bind_of_ok (Action.runOn_disk h)]
  simp only [removed]
  rfl

section Close

variable {compress : Bool} {path : Text} {place : DiskPlace} {es : List NamedData}
  {a : OutputArchive} {d : Disk} {h : Host} (created : d.create path = .ok (place, h.disk))
include created

/-- A session without a refusal leaves the archive of what it wrote. -/
theorem Wrote.close (wrote : a.Wrote compress path place es) (small : WithinLimits compress es) :
    ∃ a' h', a.close.runOn h = (.ok (true, a'), h') ∧
      h'.disk.lookup path = .ok (.file (archiveBytes compress es).toByteArray) := by
  obtain ⟨rfl, sessionPath, ⟨s, file, rfl, written⟩, healthy, entries, directory, names⟩ := wrote
  have size : s.size = (entriesBytes a.compress es).length := by rw [← written]; rfl
  have directorySize : a.directory.size = (directoryBytes a.compress es).length := by
    rw [← directory]
    rfl
  have below : ¬sizeLimit ≤ s.size + a.directory.size := by
    rw [size, directorySize]
    exact Nat.not_le.mpr small.total
  unfold OutputArchive.close
  rw [file]
  simp only [healthy, below, decide_false, Bool.not_false, Bool.and_false, Bool.false_eq_true,
    if_false, pure_bind]
  refine ⟨_, _, rfl, ?_⟩
  have whole : ((s.write a.directory).write
      (endRecordOf a.entries a.directory.size s.size).encode.toByteArray).written =
        (archiveBytes a.compress es).toByteArray := by
    apply ByteArray.ext
    rw [← Array.toList_inj, toList_written_write, toList_written_write, List.toList_data_toByteArray,
      List.toList_data_toByteArray, written, directory, entries, directorySize, size,
      List.append_assoc]
    rfl
  have found := Disk.lookup_update_of_create created (archiveBytes a.compress es).toByteArray
  rw [← whole, ← place_write s a.directory, ← place_write (s.write a.directory)] at found
  rw [← whole]
  exact found

/-- A session that wrote too much is closed as one that failed. -/
theorem Wrote.close_of_large (wrote : a.Wrote compress path place es)
    (large : ¬(entriesBytes compress es).length + (directoryBytes compress es).length < sizeLimit) :
    ∃ a' h', a.close.runOn h = (.ok (false, a'), h') ∧ h'.disk.lookup path = .error .noEntry := by
  obtain ⟨s, file, -, -⟩ := wrote.file
  have directorySize : a.directory.size = (directoryBytes compress es).length := by
    rw [← wrote.directory]
    rfl
  have above : sizeLimit ≤ s.size + a.directory.size := by
    rw [wrote.size_eq file, directorySize]
    exact Nat.not_lt.mp large
  obtain ⟨h', failed, disk⟩ := a.fail_spec .archiveTooLarge h
  obtain ⟨d', removed, gone⟩ := Disk.exists_remove_of_create created
  rw [← disk, ← wrote.path] at removed
  unfold OutputArchive.close
  rw [file]
  simp only [wrote.healthy, above, decide_true, Bool.not_false, Bool.and_true, if_true]
  rw [Action.runOn_bind_of_ok failed]
  simp only [if_true]
  have abandoned := abandon_of_remove (a := { a with failed := true }) removed
  exact ⟨_, _, Action.runOn_bind_of_ok abandoned, gone⟩

/-- A session that has failed leaves nothing. -/
theorem Failed.close (failed : a.Failed path) :
    ∃ a' h', a.close.runOn h = (.ok (false, a'), h') ∧ h'.disk.lookup path = .error .noEntry := by
  obtain ⟨s, file⟩ := Option.isSome_iff_exists.mp failed.file
  obtain ⟨d', removed, gone⟩ := Disk.exists_remove_of_create created
  unfold OutputArchive.close
  rw [file]
  simp only [failed.failed, Bool.not_true, Bool.false_and, Bool.false_eq_true, if_false, if_true,
    pure_bind]
  rw [← failed.path] at removed
  exact ⟨_, _, Action.runOn_bind_of_ok (abandon_of_remove removed), gone⟩

end Close

/-! ## Whole sessions -/

/-- The host on whose disk there is nothing. -/
def emptyHost : Host := ⟨⟨∅, []⟩, #[]⟩

/-- The host with an empty file. -/
def hostAtO : Host := ⟨emptyHost.disk.put [[111]] (.file .empty), #[]⟩

/-- The archive that is written to the file. -/
def archiveAtO : OutputArchive :=
  { new false with path := [111], file := some (.start [[111]]) }

theorem openFile_emptyHost :
    ((new false).openFile [111]).runOn emptyHost = (.ok (true, archiveAtO), hostAtO) := by
  have nothing : emptyHost.disk.nodeAt [[111]] = none := Std.HashMap.getElem?_empty
  have created : emptyHost.disk.create [111] = .ok ([[111]], hostAtO.disk) := by
    refine bind_eq_ok.mpr ⟨[111], rfl, bind_eq_ok.mpr ⟨[], rfl, bind_eq_ok.mpr ⟨[[111]], rfl, ?_⟩⟩⟩
    rw [nothing]
    rfl
  unfold openFile
  rw [if_neg (by decide), Action.runOn_bind_of_ok (Action.runOn_disk _), created]
  rfl

/-- Two entries with one name. -/
def twins : List NamedData := [⟨[65], ⟨#[1]⟩⟩, ⟨[65], ⟨#[2]⟩⟩]

theorem withinLimits_twins : WithinLimits false twins where
  data := by decide
  total := by decide +kernel

end OutputArchive

end ClassAbi
