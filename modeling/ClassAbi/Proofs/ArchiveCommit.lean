import ClassAbi.Proofs.ArchiveSession
import ClassAbi.Proofs.CanonicalOrder

/-!
# Committing outlines

Outlines are written one after the other, up to the first that cannot be an entry.
Either all are written, or an entry is refused, or an outline has no class file, which
ends the program.  `Writes` is a run of writing as data: which entries are in the file
in the end, and why there are no more of them.

`Wrote.commit` says what a commit leaves at the path in each of these cases.  Only the
last one leaves a file that is no archive.
-/

namespace ClassAbi

/-- The outline is written as the entry. -/
structure Outline.WrittenAs (o : Outline) (x : NamedData) : Prop where
  name : x.name = o.file
  data : o.encode = .ok x.data

theorem Outline.WrittenAs.eq {o : Outline} {x : NamedData} {bytes : ByteArray}
    (h : o.WrittenAs x) (encoded : o.encode = .ok bytes) : x = ⟨o.file, bytes⟩ := by
  obtain ⟨name, data⟩ := x
  obtain ⟨rfl, holds⟩ := h
  cases encoded.symm.trans holds
  rfl

/-! ## The order of writing -/

/-- Outlines in the order of their names. -/
def byName (os : List Outline) : List Outline := os.mergeSort fun x y => !Outline.before y x

theorem byName_perm (os : List Outline) : (byName os).Perm os := List.mergeSort_perm ..

/-- Outlines in the order of their names are sorted. -/
theorem sorted_byName (os : List Outline) :
    (byName os).Pairwise fun x y => Outline.before y x = false := by
  have sorted := List.pairwise_mergeSort (strictOrder_text.notAfter_items Outline.file)
    (strictOrder_text.notAfter_total Outline.file) os
  simp only [Bool.not_eq_true'] at sorted
  exact sorted

/-- Sorted outlines of different names ascend. -/
theorem ascending_of_sorted {os : List Outline} (distinct : (os.map Outline.file).Nodup)
    (sorted : os.Pairwise fun x y => Outline.before y x = false) :
    os.Pairwise fun x y => x.file < y.file := by
  have different : os.Pairwise fun x y => x.file ≠ y.file := List.pairwise_map.mp distinct
  refine (sorted.and different).imp fun {x y} ⟨notAfter, differs⟩ => ?_
  obtain before | same | after := strictOrder_text.total x.file y.file
  · exact of_decide_eq_true before
  · exact absurd same differs
  · cases notAfter.symm.trans after

section ByName

variable {os os' : List Outline} (distinct : (os.map Outline.file).Nodup)
include distinct

/-- Outlines of different names ascend. -/
theorem pairwise_byName : (byName os).Pairwise fun x y => x.file < y.file :=
  ascending_of_sorted ((byName_perm os).map _ |>.nodup_iff.mpr distinct) (sorted_byName os)

/-- Outlines of different names have one sorted order. -/
theorem eq_byName_of_sorted {sorted : List Outline} (perm : sorted.Perm os)
    (ascends : sorted.Pairwise fun x y => Outline.before y x = false) : sorted = byName os := by
  have distinct' : (sorted.map Outline.file).Nodup := (perm.map _).nodup_iff.mpr distinct
  refine (perm.trans (byName_perm os).symm).eq_of_pairwise ?_ (ascending_of_sorted distinct' ascends)
    (pairwise_byName distinct)
  intro x y _ _ before after
  exact absurd (Std.lt_trans before after) (Std.lt_irrefl (a := x.file))

/-- The order in which outlines of different names arrive does not show. -/
theorem byName_eq_of_perm (perm : os.Perm os') : byName os = byName os' :=
  (eq_byName_of_sorted distinct ((byName_perm os').trans perm.symm) (sorted_byName os')).symm

end ByName

/-! ## Runs of writing -/

/-- Why no more outlines are written. -/
inductive WriteEnd where
  /-- There are no more. -/
  | complete
  /-- An entry is refused. -/
  | refused
  /-- An outline has no class file. -/
  | fault (f : OutlineFault)

/-- Behind the earlier entries the outlines are written.  The file has the entries in the end. -/
inductive Writes (compress : Bool) :
    (earlier : List NamedData) → List Outline → (es : List NamedData) → WriteEnd → Prop where
  /-- All were written. -/
  | complete {es : List NamedData} : Writes compress es [] es .complete
  /-- An outline is written, and so are those behind it. -/
  | next {earlier es : List NamedData} {o : Outline} {os : List Outline} {x : NamedData}
      {stop : WriteEnd} (writtenAs : o.WrittenAs x) (fits : Fits compress earlier x)
      (rest : Writes compress (earlier ++ [x]) os es stop) :
      Writes compress earlier (o :: os) es stop
  /-- An outline is refused. -/
  | refused {es : List NamedData} {o : Outline} {os : List Outline} {x : NamedData}
      (writtenAs : o.WrittenAs x) (unfit : ¬Fits compress es x) :
      Writes compress es (o :: os) es .refused
  /-- An outline has no class file. -/
  | fault {es : List NamedData} {o : Outline} {os : List Outline} {f : OutlineFault}
      (failed : o.encode = .error f) : Writes compress es (o :: os) es (.fault f)

namespace Writes

variable {compress : Bool} {earlier es : List NamedData} {os : List Outline} {stop : WriteEnd}

theorem exists_writes (compress : Bool) (earlier : List NamedData) (os : List Outline) :
    ∃ es stop, Writes compress earlier os es stop := by
  induction os generalizing earlier with
  | nil => exact ⟨earlier, _, .complete⟩
  | cons o os ih =>
    cases encoded : o.encode with
    | error f => exact ⟨earlier, _, .fault encoded⟩
    | ok bytes =>
      have writtenAs : o.WrittenAs ⟨o.file, bytes⟩ := ⟨rfl, encoded⟩
      by_cases fits : Fits compress earlier ⟨o.file, bytes⟩
      · obtain ⟨es, stop, rest⟩ := ih (earlier ++ [⟨o.file, bytes⟩])
        exact ⟨es, stop, .next writtenAs fits rest⟩
      · exact ⟨earlier, _, .refused writtenAs fits⟩

/-- Outlines whose entries are accepted and are not too large are all written. -/
theorem of_forall₂ {new : List NamedData} (entries : List.Forall₂ Outline.WrittenAs os new)
    (accepted : Accepted (earlier ++ new)) (small : WithinLimits compress (earlier ++ new)) :
    Writes compress earlier os (earlier ++ new) .complete := by
  induction entries generalizing earlier with
  | nil =>
    rw [List.append_nil]
    exact .complete
  | @cons o x os new writtenAs _ ih =>
    rw [List.append_cons] at accepted small ⊢
    have fits := small.of_append.fits (accepted_append_singleton.mp accepted.of_append).2
    exact .next writtenAs fits (ih accepted small)

/-- If all outlines are written, every one has its entry. -/
theorem forall₂_of_complete (writes : Writes compress earlier os es .complete) :
    ∃ new, es = earlier ++ new ∧ List.Forall₂ Outline.WrittenAs os new := by
  generalize eq : WriteEnd.complete = stop at writes
  induction writes with
  | complete => exact ⟨[], (List.append_nil _).symm, .nil⟩
  | @next _ _ o _ x _ writtenAs fits rest ih =>
    obtain ⟨new, rfl, entries⟩ := ih eq
    exact ⟨x :: new, List.append_assoc .., .cons writtenAs entries⟩
  | refused => cases eq
  | fault => cases eq

/-- The entries in the file are accepted. -/
theorem accepted (writes : Writes compress earlier os es stop) (before : Accepted earlier) :
    Accepted es := by
  induction writes with
  | complete => exact before
  | next writtenAs fits rest ih => exact ih (accepted_append_singleton.mpr ⟨before, fits.accepted⟩)
  | refused => exact before
  | fault => exact before

/-- No entry in the file is too large. -/
theorem small (writes : Writes compress earlier os es stop)
    (before : ∀ x ∈ earlier, x.data.size < OutputArchive.sizeLimit) :
    ∀ x ∈ es, x.data.size < OutputArchive.sizeLimit := by
  induction writes with
  | complete => exact before
  | next writtenAs fits rest ih =>
    exact ih (List.forall_mem_append.mpr ⟨before, List.forall_mem_singleton.mpr fits.data⟩)
  | refused => exact before
  | fault => exact before

/-- Where an outline has no class file, one of them has none. -/
theorem exists_of_fault {f : OutlineFault} (writes : Writes compress earlier os es (.fault f)) :
    ∃ o ∈ os, o.encode = .error f := by
  generalize eq : WriteEnd.fault f = stop at writes
  induction writes with
  | complete => cases eq
  | next writtenAs fits rest ih =>
    obtain ⟨o, mem, failed⟩ := ih eq
    exact ⟨o, List.mem_cons_of_mem _ mem, failed⟩
  | refused => cases eq
  | fault failed =>
    cases eq
    exact ⟨_, List.mem_cons_self, failed⟩

end Writes

/-! ## Committing -/

namespace OutputArchive

variable {compress : Bool} {path : Text} {place : DiskPlace} {earlier es : List NamedData}
  {os : List Outline} {stop : WriteEnd} {a : OutputArchive} {h : Host}

/-- Ending the program brings what was written to the disk. -/
theorem Wrote.die {α : Type} (wrote : a.Wrote compress path place es) (f : Fatal) (h : Host) :
    ∃ h', (a.die f : Action α).runOn h = (.error f, h') ∧
      h'.disk = h.disk.update place (entriesBytes compress es).toByteArray := by
  obtain ⟨s, file, rfl, written⟩ := wrote.file
  have whole : s.written = (entriesBytes compress es).toByteArray := by
    apply ByteArray.ext
    rw [← Array.toList_inj, List.toList_data_toByteArray]
    exact written
  unfold OutputArchive.die
  rw [file]
  refine ⟨_, rfl, ?_⟩
  rw [← whole]
  rfl

/-- How writing outlines ends, and what it leaves of the disk `d`. -/
def Stopped (compress : Bool) (path : Text) (place : DiskPlace) (es : List NamedData) (d : Disk)
    (result : Except Fatal OutputArchive) (d' : Disk) : WriteEnd → Prop
  | .complete => d' = d ∧ ∃ a, result = .ok a ∧ a.Wrote compress path place es
  | .refused => d' = d ∧ ∃ a, result = .ok a ∧ a.Failed path
  | .fault f => d' = d.update place (entriesBytes compress es).toByteArray ∧ result = .error f.fatal

/-- Outlines are written up to the first that cannot be an entry. -/
theorem Wrote.writeAll (wrote : a.Wrote compress path place earlier)
    (writes : Writes compress earlier os es stop) (h : Host) :
    ∃ result h', (a.writeAll os).runOn h = (result, h') ∧
      Stopped compress path place es h.disk result h'.disk stop := by
  induction writes generalizing a h with
  | complete => exact ⟨_, h, rfl, rfl, a, rfl, wrote⟩
  | @next _ _ o os x stop writtenAs fits rest ih =>
    obtain ⟨a₁, h₁, written, disk, wrote⟩ := wrote.write fits h
    obtain ⟨result, h₂, run, stopped⟩ := ih wrote h₁
    have first : (a.writeOutline o).runOn h = (.ok (true, a₁), h₁) := by
      rw [writeOutline, writtenAs.data, ← writtenAs.name]
      exact written
    rw [disk] at stopped
    exact ⟨result, h₂, (Action.runOn_bind_of_ok first).trans run, stopped⟩
  | @refused _ o _ x writtenAs unfit =>
    obtain ⟨a₁, h₁, answered, disk, failed⟩ := wrote.write_of_not_fits unfit h
    have first : (a.writeOutline o).runOn h = (.ok (false, a₁), h₁) := by
      rw [writeOutline, writtenAs.data, ← writtenAs.name]
      exact answered
    exact ⟨_, h₁, Action.runOn_bind_of_ok first, disk, a₁, rfl, failed⟩
  | @fault _ o _ f failed =>
    obtain ⟨h', died, disk⟩ := wrote.die (α := Bool × OutputArchive) f.fatal h
    have first : (a.writeOutline o).runOn h = (.error f.fatal, h') := by
      rw [writeOutline, failed]
      exact died
    exact ⟨_, h', Action.runOn_bind_of_error first, disk, rfl⟩

/-- How a commit ends, and what it leaves at the path. -/
def Committed (compress : Bool) (path : Text) (es : List NamedData)
    (result : Except Fatal (Bool × OutputArchive)) (d : Disk) : WriteEnd → Prop
  | .complete =>
    (WithinLimits compress es ∧ (∃ a, result = .ok (true, a)) ∧
      d.lookup path = .ok (.file (archiveBytes compress es).toByteArray)) ∨
    (¬WithinLimits compress es ∧ (∃ a, result = .ok (false, a)) ∧ d.lookup path = .error .noEntry)
  | .refused => (∃ a, result = .ok (false, a)) ∧ d.lookup path = .error .noEntry
  | .fault f => result = .error f.fatal ∧
    d.lookup path = .ok (.file (entriesBytes compress es).toByteArray)

/-- Commits the queued outlines in an order that a sort gives them. -/
def commitSorted (a : OutputArchive) (sorted : List Outline) : Action (Bool × OutputArchive) := do
  let a ← { a with queue := #[] }.writeAll sorted
  a.close

theorem commit_eq (a : OutputArchive) : a.commit = a.commitSorted (byName a.queue.toList) := rfl

/-- A commit leaves the archive of the outlines, or nothing.  Where an outline has no class file,
it leaves the entries before it. -/
theorem Wrote.commitSorted {d : Disk} (created : d.create path = .ok (place, h.disk))
    (wrote : a.Wrote compress path place []) (writes : Writes compress [] os es stop) :
    ∃ result h', (a.commitSorted os).runOn h = (result, h') ∧
      Committed compress path es result h'.disk stop := by
  have wrote : { a with queue := #[] }.Wrote compress path place [] :=
    ⟨wrote.mode, wrote.path, wrote.file, wrote.healthy, wrote.entries, wrote.directory, wrote.names⟩
  obtain ⟨result, h₁, run, stopped⟩ := wrote.writeAll writes h
  unfold OutputArchive.commitSorted
  cases stop with
  | complete =>
    obtain ⟨disk, a₁, rfl, wrote⟩ := stopped
    rw [Action.runOn_bind_of_ok run]
    rw [← disk] at created
    by_cases small : WithinLimits compress es
    · obtain ⟨a₂, h₂, closed, found⟩ := wrote.close created small
      exact ⟨_, h₂, closed, .inl ⟨small, ⟨a₂, rfl⟩, found⟩⟩
    · have large : ¬(entriesBytes compress es).length + (directoryBytes compress es).length <
          sizeLimit := fun total =>
        small ⟨writes.small (List.forall_mem_nil _), total⟩
      obtain ⟨a₂, h₂, closed, gone⟩ := wrote.close_of_large created large
      exact ⟨_, h₂, closed, .inr ⟨small, ⟨a₂, rfl⟩, gone⟩⟩
  | refused =>
    obtain ⟨disk, a₁, rfl, failed⟩ := stopped
    rw [Action.runOn_bind_of_ok run]
    rw [← disk] at created
    obtain ⟨a₂, h₂, closed, gone⟩ := failed.close created
    exact ⟨_, h₂, closed, ⟨a₂, rfl⟩, gone⟩
  | fault f =>
    obtain ⟨disk, rfl⟩ := stopped
    rw [Action.runOn_bind_of_error run]
    refine ⟨_, h₁, rfl, rfl, ?_⟩
    rw [disk]
    exact Disk.lookup_update_of_create created _

theorem Wrote.commit {d : Disk} (created : d.create path = .ok (place, h.disk))
    (wrote : a.Wrote compress path place [])
    (writes : Writes compress [] (byName a.queue.toList) es stop) :
    ∃ result h', a.commit.runOn h = (result, h') ∧
      Committed compress path es result h'.disk stop :=
  wrote.commitSorted created writes

end OutputArchive

end ClassAbi
