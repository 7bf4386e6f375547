import ClassAbi.Proofs.ExtractionResults

/-!
# Committing a set of outlines

What a commit comes to depends on the outlines that are queued and not on the order in
which they came.  Outlines of different names have one order by name, so no sort can put
them in another one (`CommitsTo.sorted` speaks of all of them).  If two outlines have one
name, or a name is no name of an entry, an entry is refused in every order.

In either case the queue is empty afterwards, since neither writing nor closing changes a
queue that was taken.
-/

namespace ClassAbi

namespace OutputArchive

/-! ## What writing keeps -/

/-- The archive has the same queue and may compress as before. -/
structure Keeps (a a' : OutputArchive) : Prop where
  queue : a'.queue = a.queue
  mode : a'.compress = a.compress

section Keeps

variable {a a' a'' : OutputArchive} {h h' : Host} {answer : Bool}

theorem Keeps.refl (a : OutputArchive) : a.Keeps a := ⟨rfl, rfl⟩

theorem Keeps.trans (first : a.Keeps a') (second : a'.Keeps a'') : a.Keeps a'' :=
  ⟨second.queue.trans first.queue, second.mode.trans first.mode⟩

theorem keeps_of_write {name : Text} {data : ByteArray}
    (run : (a.write name data).runOn h = (.ok (answer, a'), h')) : a.Keeps a' := by
  unfold write at run
  split at run
  · cases run
  · -- Whether the entry is refused or written, only other fields change.
    split at run
    · cases run
      exact ⟨rfl, rfl⟩
    split at run
    · cases run
      exact ⟨rfl, rfl⟩
    split at run
    · cases run
      exact ⟨rfl, rfl⟩
    dsimp only at run
    split at run <;>
    · cases run
      exact ⟨rfl, rfl⟩

theorem keeps_of_writeAll {os : List Outline} (run : (a.writeAll os).runOn h = (.ok a', h')) :
    a.Keeps a' := by
  induction os generalizing a h with
  | nil =>
    cases run
    exact .refl _
  | cons o os ih =>
    obtain ⟨⟨written, a₁⟩, h₁, first, run⟩ := Action.runOn_bind_eq_ok.mp run
    have kept : a.Keeps a₁ := by
      unfold writeOutline at first
      split at first
      · unfold die at first
        split at first <;> cases first
      · exact keeps_of_write first
    cases written with
    | true => exact kept.trans (ih run)
    | false =>
      cases run
      exact kept

/-- Abandoning changes nothing but that there is no file any more. -/
theorem abandon_eq_ok (run : a.abandon.runOn h = (.ok a', h')) : a' = { a with file := none } := by
  unfold abandon at run
  rw [Action.runOn_bind_of_ok (Action.runOn_disk h)] at run
  split at run <;>
  · cases run
    rfl

/-- The archive was closed with the answer. -/
structure Closes (a : OutputArchive) (answer : Bool) (a' : OutputArchive) : Prop where
  keeps : a.Keeps a'
  file : a'.file = none
  answer : answer = !a'.failed
  failed : a.failed = true → a'.failed = true

theorem close_eq_ok (run : a.close.runOn h = (.ok (answer, a'), h')) : a.Closes answer a' := by
  have abandoned {h₁ : Host} (a₁ : OutputArchive) (kept : a.Keeps a₁) (failed : a₁.failed = true)
      (run : (a₁.abandon >>= fun a₂ => pure (false, a₂)).runOn h₁ = (.ok (answer, a'), h')) :
      a.Closes answer a' := by
    obtain ⟨a₂, h₂, first, run⟩ := Action.runOn_bind_eq_ok.mp run
    cases run
    cases abandon_eq_ok first
    exact ⟨⟨kept.queue, kept.mode⟩, rfl, by simp [failed], fun _ => failed⟩
  unfold close at run
  split at run
  · next closed =>
    cases run
    exact ⟨.refl a, closed, rfl, id⟩
  · dsimp only at run
    split at run
    · obtain ⟨⟨healthy, a₁⟩, h₁, first, run⟩ := Action.runOn_bind_eq_ok.mp run
      cases first
      simp only [if_true] at run
      exact abandoned { a with failed := true } ⟨rfl, rfl⟩ rfl run
    · rw [pure_bind] at run
      split at run
      · next failed => exact abandoned a (.refl a) failed run
      · next healthy =>
        cases run
        exact ⟨⟨rfl, rfl⟩, rfl, by simpa using healthy, id⟩

end Keeps

/-! ## Committing in any order -/

theorem queue_of_commitSorted {a a' : OutputArchive} {sorted : List Outline} {answer : Bool}
    {h h' : Host} (run : (a.commitSorted sorted).runOn h = (.ok (answer, a'), h')) :
    a'.queue = #[] := by
  obtain ⟨a₁, h₁, written, closed⟩ := Action.runOn_bind_eq_ok.mp run
  exact ((keeps_of_writeAll written).trans (close_eq_ok closed).keeps).queue

/-- The action gives the answer, the path shows what is found, and no outline is queued. -/
def Leaves (act : Action (Bool × OutputArchive)) (h : Host) (path : Text) (answer : Bool)
    (found : Except SystemError DiskNode) : Prop :=
  ∃ a' h', act.runOn h = (.ok (answer, a'), h') ∧ h'.disk.lookup path = found ∧ a'.queue = #[]

/-- In every order in which the outlines are queued, and with every sort by name, committing them
leaves the same. -/
structure CommitsTo (a : OutputArchive) (h : Host) (os : List Outline) (path : Text)
    (answer : Bool) (found : Except SystemError DiskNode) : Prop where
  commit : ∀ order : List Outline, order.Perm os →
    Leaves (a.addAll order).commit h path answer found
  sorted : ∀ order sorted : List Outline, order.Perm os → sorted.Perm order →
    (sorted.Pairwise fun x y => Outline.before y x = false) →
    Leaves ((a.addAll order).commitSorted sorted) h path answer found

theorem CommitsTo.of_sorted {a : OutputArchive} {h : Host} {os : List Outline} {path : Text}
    {answer : Bool} {found : Except SystemError DiskNode} (fresh : a.queue = #[])
    (leaves : ∀ order sorted : List Outline, order.Perm os → sorted.Perm order →
      (sorted.Pairwise fun x y => Outline.before y x = false) →
      Leaves ((a.addAll order).commitSorted sorted) h path answer found) :
    a.CommitsTo h os path answer found where
  commit order perm := by
    rw [commit_eq, toList_queue_addAll fresh]
    exact leaves order _ perm (byName_perm order) (sorted_byName order)
  sorted := leaves

/-! ## Both ways to end -/

section Fresh

variable {compress : Bool} {path : Text} {place : DiskPlace} {a : OutputArchive} {h : Host}
  {d : Disk} {os : List Outline} (created : d.create path = .ok (place, h.disk))
  (wrote : a.Wrote compress path place []) (fresh : a.queue = #[])
include created wrote fresh

/-- If the entries are accepted and not too large, the archive of them is left. -/
theorem Wrote.commitsTo_archive {es : List NamedData}
    (entries : List.Forall₂ Outline.WrittenAs (byName os) es) (accepted : Accepted es)
    (small : WithinLimits compress es) :
    a.CommitsTo h os path true (.ok (.file (archiveBytes compress es).toByteArray)) := by
  have distinct : (os.map Outline.file).Nodup := by
    rw [← ((byName_perm os).map _).nodup_iff, ← names_of_writtenAs entries]
    exact accepted.distinct
  refine .of_sorted fresh fun order sorted queued perm ascends => ?_
  obtain rfl := eq_byName_of_sorted distinct (perm.trans queued) ascends
  have writes : Writes compress [] (byName os) es .complete := .of_forall₂ entries accepted small
  obtain ⟨result, h', run, ⟨-, ⟨a', rfl⟩, found⟩ | ⟨large, -⟩⟩ :=
    (wrote.addAll order).commitSorted created writes
  · exact ⟨a', h', run, found, queue_of_commitSorted run⟩
  · exact absurd small large

/-- If not all entries can be accepted, nothing is left. -/
theorem Wrote.commitsTo_nothing (encodable : ∀ o ∈ os, ∃ bytes, o.encode = .ok bytes)
    (unfit : ∀ sorted es, sorted.Perm os → List.Forall₂ Outline.WrittenAs sorted es →
      ¬Accepted es) : a.CommitsTo h os path false (.error .noEntry) := by
  refine .of_sorted fresh fun order sorted queued perm _ => ?_
  obtain ⟨es, stop, writes⟩ := Writes.exists_writes compress [] sorted
  obtain ⟨result, h', run, committed⟩ := (wrote.addAll order).commitSorted created writes
  cases stop with
  | complete =>
    obtain ⟨_, rfl, entries⟩ := writes.forall₂_of_complete
    exact absurd (writes.accepted accepted_nil) (unfit sorted _ (perm.trans queued) entries)
  | refused =>
    obtain ⟨⟨a', rfl⟩, gone⟩ := committed
    exact ⟨a', h', run, gone, queue_of_commitSorted run⟩
  | fault f =>
    obtain ⟨o, mem, failed⟩ := writes.exists_of_fault
    obtain ⟨bytes, encoded⟩ := encodable o ((perm.trans queued).subset mem)
    cases failed.symm.trans encoded

end Fresh

/-- Two entries with the same small class. -/
theorem withinLimits_pair {A : ByteArray} (short : A.size < 100) :
    WithinLimits false [⟨[65], A⟩, ⟨[66], A⟩] where
  data := by
    have below : A.size < sizeLimit := Nat.lt_trans short (by decide)
    exact List.forall_mem_cons.mpr ⟨below, List.forall_mem_singleton.mpr below⟩
  total := by
    have size : A.data.toList.length = A.size := rfl
    have entry (name : Text) : (NamedData.bytes false ⟨name, A⟩).length =
        30 + name.length + A.size := by
      rw [NamedData.bytes, List.length_append, Zip.LocalHeader.length_encode]
      exact congrArg (_ + ·) size
    have limit : 1000000 < sizeLimit := by decide
    simp only [entriesBytes, directoryBytes, directoryRecords, List.flatMap_cons, List.flatMap_nil,
      List.length_append, List.length_nil, entry, Zip.DirectoryRecord.length_encode]
    show 30 + 1 + A.size + (30 + 1 + A.size + 0) + (46 + 1 + (46 + 1 + 0)) < sizeLimit
    omega

end OutputArchive

end ClassAbi
