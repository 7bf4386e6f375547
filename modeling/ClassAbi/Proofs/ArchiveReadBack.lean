import ClassAbi.Proofs.ArchiveReading
import ClassAbi.Proofs.ArchiveSession

/-!
# Archives are read back

A session in which everything succeeded leaves an archive at its path, and a
reader finds in it what was written: the entries in their order, each with its
name, its header and its data.

There is one exception.  The last name may have the mark of a large archive at
just the place where a reader looks for it, and then the reader refuses the
archive.  It takes a name of at least 16 bytes to get there.
-/

namespace ClassAbi

open Zip

/-- Opening a file finds its directory. -/
theorem InputArchive.openFile_close {disk : Disk} {path : Text} {d : ByteArray}
    (found : disk.lookup path = .ok (.file d)) (reader : InputArchive) :
    reader.close.openFile disk path = .ok (match Directory.locate d with
      | .error cause =>
        (.error (.corrupt ⟨path, cause⟩), ⟨path, ⟨some d⟩, some ⟨path, cause⟩, 0, 0⟩)
      | .ok directory =>
        (.ok (), ⟨path, ⟨some d⟩, none, directory.start, directory.preamble⟩)) := by
  have view : FileView.closed.openFile disk path = .ok ⟨some d⟩ := by
    rw [FileView.openFile, Disk.read, found]
    rfl
  simp only [InputArchive.openFile, InputArchive.close, InputArchive.closed, ne_eq,
    not_true_eq_false, if_false, view]
  rw [show (FileView.mk (some d)).data = d from rfl]
  cases Directory.locate d with
  | error cause => rfl
  | ok directory => rfl

namespace OutputArchive

/-- Entries that can be written are written. -/
theorem exists_session {a a₀ : OutputArchive} {path : Text} {h h₀ : Host} {es : List NamedData}
    (opened : (a.openFile path).runOn h = (.ok (true, a₀), h₀)) (accepted : Accepted es)
    (small : WithinLimits a.compress es) :
    ∃ a₁ h₁ a₂ h₂, (a₀.writeEach es).runOn h₀ = (.ok (es.map fun _ => true, a₁), h₁) ∧
      a₁.close.runOn h₁ = (.ok (true, a₂), h₂) := by
  obtain ⟨place, d, created, rfl, begun⟩ := openFile_eq_ok opened
  obtain ⟨a₁, h₁, run, disk, wrote⟩ := begun.writeEach accepted small h₀
  rw [← disk] at created
  obtain ⟨a₂, h₂, closed, -⟩ := wrote.close created small
  exact ⟨a₁, h₁, a₂, h₂, run, closed⟩

/-- After a session in which everything succeeded, the file is an archive that holds what was
written. -/
theorem exists_holdsArchive {a a₀ a₁ a₂ : OutputArchive} {path : Text} {h h₀ h₁ h₂ : Host}
    {es : List NamedData} (opened : (a.openFile path).runOn h = (.ok (true, a₀), h₀))
    (written : (a₀.writeEach es).runOn h₀ = (.ok (es.map fun _ => true, a₁), h₁))
    (closed : a₁.close.runOn h₁ = (.ok (true, a₂), h₂)) :
    ∃ d, h₂.disk.lookup path = .ok (.file d) ∧ HoldsArchive a.compress es d := by
  obtain ⟨place, d, created, rfl, begun⟩ := openFile_eq_ok opened
  obtain ⟨disk, wrote, accepted, small⟩ := begun.of_writeEach accepted_nil written
  rw [List.nil_append] at wrote accepted
  rw [← disk] at created
  have total : (entriesBytes a.compress es).length + (directoryBytes a.compress es).length <
      sizeLimit := by
    by_contra large
    obtain ⟨a', h', closed', -⟩ := wrote.close_of_large created large
    rw [closed'] at closed
    cases closed
  obtain ⟨a', h', closed', found⟩ := wrote.close created ⟨small, total⟩
  rw [closed'] at closed
  cases closed
  refine ⟨_, found, ?_, fun x mem => (accepted.named x mem).2, small, total⟩
  rw [List.toList_data_toByteArray]

/-- Two entries, one of them empty. -/
def pair : List NamedData := [⟨[65], ⟨#[1]⟩⟩, ⟨[66], .empty⟩]

/-- An entry whose name has the mark of a large archive at the place where it is looked for. -/
def markedName : NamedData := ⟨[80, 75, 6, 7] ++ List.replicate 16 97, ⟨#[0]⟩⟩

end OutputArchive

end ClassAbi
