import ClassAbi.Files.Disk
import ClassAbi.Proofs.Chains
import Mathlib.Data.List.Basic

/-!
# Paths to files that come and go

A path leads through directories, so where it leads does not depend on the files
that there are (`Disk.resolve_mono`).  A file that was made at a path is found
there with what it holds later, and not any more when it was deleted.
-/

namespace ClassAbi

namespace Disk

/-- Every directory of `d` is one of `d'`, and paths begin at the same place. -/
structure KeepsDirectories (d d' : Disk) : Prop where
  directories : ∀ place, d.nodeAt place = some .directory → d'.nodeAt place = some .directory
  workingDirectory : d'.workingDirectory = d.workingDirectory

section Resolve

variable {d d' : Disk} (keeps : d.KeepsDirectories d')
include keeps

theorem follow_mono {place next : DiskPlace} {part : Text} (h : d.follow place part = .ok next) :
    d'.follow place part = .ok next := by
  unfold follow at h ⊢
  cases node : d.nodeAt place with
  | none =>
    rw [node] at h
    cases h
  | some node' =>
    rw [node] at h
    cases node' with
    | file contents => cases h
    | directory =>
      rw [keeps.directories place node]
      exact h

theorem followAll_mono {place next : DiskPlace} {parts : List Text}
    (h : d.followAll place parts = .ok next) : d'.followAll place parts = .ok next := by
  induction parts generalizing place with
  | nil => exact h
  | cons part parts ih =>
    obtain ⟨middle, first, rest⟩ := bind_eq_ok.mp h
    exact bind_eq_ok.mpr ⟨middle, follow_mono keeps first, ih rest⟩

/-- A path leads to the same place where the directories are the same. -/
theorem resolve_mono {path : Text} {place : DiskPlace} (h : d.resolve path = .ok place) :
    d'.resolve path = .ok place := by
  obtain ⟨path', checked, found⟩ := bind_eq_ok.mp h
  refine bind_eq_ok.mpr ⟨path', checked, ?_⟩
  rw [pathStart, keeps.workingDirectory]
  exact followAll_mono keeps found

end Resolve

theorem followAll_append (d : Disk) (place : DiskPlace) (parts parts' : List Text) :
    d.followAll place (parts ++ parts') = d.followAll place parts >>= (d.followAll · parts') :=
  List.foldlM_append ..

/-- The part that stays is followed from a directory to itself. -/
theorem nodeAt_of_follow_here {d : Disk} {place next : DiskPlace}
    (h : d.follow place here = .ok next) : next = place ∧ d.nodeAt place = some .directory := by
  unfold follow at h
  split at h
  · cases h
  · cases h
  · next node =>
    rw [if_pos (beq_self_eq_true here)] at h
    cases h
    exact ⟨rfl, node⟩

/-- Nothing is at the empty path. -/
theorem lookup_nil (d : Disk) : d.lookup [] = .error .noEntry := rfl

/-! ## Files that are made -/

/-- A file is made where the path leads, if that is no directory. -/
theorem create_eq_ok {d d' : Disk} {path : Text} {place : DiskPlace}
    (h : d.create path = .ok (place, d')) :
    d.resolve path = .ok place ∧ d.nodeAt place ≠ some .directory ∧
      d' = d.put place (.file .empty) := by
  obtain ⟨path', checked, h⟩ := bind_eq_ok.mp h
  obtain ⟨directory, found, h⟩ := bind_eq_ok.mp h
  obtain ⟨place', followed, h⟩ := bind_eq_ok.mp h
  split at h
  · cases h
  · next free =>
    cases h
    have notHere : ∀ last, d.follow directory last = .ok place → last ≠ here := by
      rintro last followed rfl
      obtain ⟨rfl, node⟩ := nodeAt_of_follow_here followed
      exact free node
    have noSlash : endsWithSlash path' = false := by
      refine Bool.eq_false_iff.mpr fun slash => ?_
      rw [if_pos slash] at followed
      exact notHere _ followed rfl
    rw [if_neg (by rw [noSlash]; exact Bool.false_ne_true)] at followed
    refine ⟨bind_eq_ok.mpr ⟨path', checked, ?_⟩, free, rfl⟩
    rw [pathParts, noSlash, if_neg Bool.false_ne_true]
    cases last : (namedParts path').getLast? with
    | none =>
      rw [last] at followed
      exact absurd rfl (notHere _ followed)
    | some part =>
      rw [last] at followed
      have parts := List.dropLast_append_getLast? part last
      rw [← parts, followAll_append]
      exact bind_eq_ok.mpr ⟨directory, found, bind_eq_ok.mpr ⟨place, followed, rfl⟩⟩

section Created

variable {d d' : Disk} {path : Text} {place : DiskPlace} (h : d.create path = .ok (place, d'))
include h

theorem ne_nil_of_create : place ≠ [] := by
  rintro rfl
  exact (create_eq_ok h).2.1 rfl

theorem nodeAt_eq_of_create : d'.nodes[place]? = some (.file .empty) := by
  obtain ⟨-, -, rfl⟩ := create_eq_ok h
  exact Std.HashMap.getElem?_insert_self

/-- What happens to the file at the place leaves the directories as they were. -/
theorem keepsDirectories_of_create {d'' : Disk}
    (workingDirectory : d''.workingDirectory = d'.workingDirectory)
    (others : ∀ other, other ≠ place → d''.nodes[other]? = d'.nodes[other]?) :
    d.KeepsDirectories d'' := by
  obtain ⟨-, free, rfl⟩ := create_eq_ok h
  refine ⟨fun other node => ?_, workingDirectory⟩
  have differs : other ≠ place := by
    rintro rfl
    exact free node
  cases other with
  | nil => rfl
  | cons part rest =>
    change d''.nodes[part :: rest]? = _
    rw [others _ differs]
    change (d.nodes.insert place _)[part :: rest]? = _
    rw [Std.HashMap.getElem?_insert, if_neg (by rw [beq_iff_eq]; exact differs.symm)]
    exact node

/-- The file is found with what it holds. -/
theorem lookup_update_of_create (contents : ByteArray) :
    (d'.update place contents).lookup path = .ok (.file contents) := by
  have updated : d'.update place contents = d'.put place (.file contents) := by
    rw [update, nodeAt_eq_of_create h]
  have keeps : d.KeepsDirectories (d'.put place (.file contents)) := by
    refine keepsDirectories_of_create h rfl fun other differs => ?_
    rw [put, Std.HashMap.getElem?_insert, if_neg (by rw [beq_iff_eq]; exact differs.symm)]
  have resolved := resolve_mono keeps (create_eq_ok h).1
  rw [updated]
  refine bind_eq_ok.mpr ⟨place, resolved, ?_⟩
  have node : (d'.put place (.file contents)).nodeAt place = some (.file contents) := by
    obtain ⟨part, rest, rfl⟩ := List.exists_cons_of_ne_nil (ne_nil_of_create h)
    exact Std.HashMap.getElem?_insert_self
  rw [node]

/-- The file can be deleted, and is not found any more. -/
theorem exists_remove_of_create :
    ∃ d'', d'.remove path = .ok d'' ∧ d''.lookup path = .error .noEntry := by
  have keeps : d.KeepsDirectories d' := keepsDirectories_of_create h rfl fun _ _ => rfl
  have erased : d.KeepsDirectories { d' with nodes := d'.nodes.erase place } := by
    refine keepsDirectories_of_create h rfl fun other differs => ?_
    rw [Std.HashMap.getElem?_erase, if_neg (by rw [beq_iff_eq]; exact differs.symm)]
  have resolved := (create_eq_ok h).1
  have node := nodeAt_eq_of_create h
  obtain ⟨part, rest, rfl⟩ := List.exists_cons_of_ne_nil (ne_nil_of_create h)
  refine ⟨{ d' with nodes := d'.nodes.erase (part :: rest) }, ?_, ?_⟩
  · refine bind_eq_ok.mpr ⟨_, resolve_mono keeps resolved, ?_⟩
    rw [show d'.nodeAt (part :: rest) = some (.file .empty) from node]
  · have gone : Disk.nodeAt { d' with nodes := d'.nodes.erase (part :: rest) } (part :: rest) =
        none :=
      Std.HashMap.getElem?_erase_self
    rw [lookup, resolve_mono erased resolved, ok_bind, gone]

end Created

end Disk

end ClassAbi
