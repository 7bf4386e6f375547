import ClassAbi.Proofs.ArchiveCommit
import ClassAbi.Proofs.Gathering
import ClassAbi.Proofs.Schedules
import Mathlib.Data.List.TakeWhile

/-!
# What an extraction comes to

The tasks of an extraction have different names.  So the outlines that they queue are
written in one order, whatever order they were queued in, and a task that fails is a
failure in every order.  An extraction therefore comes to the same on every schedule
(`OutputArchive.Settles`): the archive of all classes, or nothing.
-/

namespace ClassAbi

/-! ## Entries of classes -/

/-- The entry has the name of the task and holds its outline. -/
structure ClassTask.WrittenAs (d : Disk) (t : ClassTask) (x : NamedData) : Prop where
  name : x.name = t.name
  data : ∃ o, t.HasOutline d o ∧ o.encode = .ok x.data

/-- The entries are those of the classes of the tasks, in the order of their names. -/
structure Extracts (d : Disk) (tasks : List ClassTask) (es : List NamedData) : Prop where
  ascending : (es.map NamedData.name).Pairwise (· < ·)
  names : (es.map NamedData.name).Perm (tasks.map ClassTask.name)
  data : ∀ x ∈ es, ∃ t ∈ tasks, t.WrittenAs d x

/-- The outlines of tasks, in the order of their names. -/
def outlinesOf (d : Disk) (tasks : List ClassTask) : List Outline :=
  byName (tasks.filterMap (·.outline? d))

section Outlines

variable {d : Disk} {tasks order : List ClassTask}

/-- Outlines have the names of their tasks. -/
theorem file_outlines_sublist (d : Disk) (tasks : List ClassTask) :
    ((tasks.filterMap (·.outline? d)).map Outline.file).Sublist (tasks.map ClassTask.name) := by
  induction tasks with
  | nil => exact .slnil
  | cons t tasks ih =>
    rw [List.filterMap_cons]
    cases found : t.outline? d with
    | none => exact ih.cons _
    | some o =>
      rw [List.map_cons, List.map_cons, (ClassTask.outline?_eq_some.mp found).file_eq]
      exact ih.cons_cons _

/-- If every task has an outline, so has every name. -/
theorem file_outlines_eq (all : tasks.all fun t => (t.outline? d).isSome) :
    (tasks.filterMap (·.outline? d)).map Outline.file = tasks.map ClassTask.name := by
  induction tasks with
  | nil => rfl
  | cons t tasks ih =>
    rw [List.all_cons, Bool.and_eq_true] at all
    obtain ⟨o, found⟩ := Option.isSome_iff_exists.mp all.1
    rw [List.filterMap_cons, found, List.map_cons, List.map_cons, ih all.2,
      (ClassTask.outline?_eq_some.mp found).file_eq]

theorem mem_outlinesOf {o : Outline} :
    o ∈ outlinesOf d tasks ↔ ∃ t ∈ tasks, t.HasOutline d o := by
  rw [outlinesOf, (byName_perm _).mem_iff, List.mem_filterMap]
  exact exists_congr fun t => and_congr_right fun _ => ClassTask.outline?_eq_some

/-- The order of tasks with different names does not show in their outlines. -/
theorem outlinesOf_eq_of_perm (distinct : (tasks.map ClassTask.name).Nodup)
    (perm : order.Perm tasks) : outlinesOf d order = outlinesOf d tasks := by
  have distinct' : (order.map ClassTask.name).Nodup := (perm.map _).nodup_iff.mpr distinct
  exact byName_eq_of_perm (distinct'.sublist (file_outlines_sublist d order)) (perm.filterMap _)

theorem exists_writtenAs {os : List Outline} (encodable : ∀ o ∈ os, ∃ bytes, o.encode = .ok bytes) :
    ∃ es, List.Forall₂ Outline.WrittenAs os es :=
  exists_forall₂ fun o mem => (encodable o mem).imp' (⟨o.file, ·⟩) fun _ encoded => ⟨rfl, encoded⟩

theorem names_of_writtenAs {os : List Outline} {es : List NamedData}
    (entries : List.Forall₂ Outline.WrittenAs os es) :
    es.map NamedData.name = os.map Outline.file := by
  induction entries with
  | nil => rfl
  | cons writtenAs _ ih => rw [List.map_cons, List.map_cons, ih, writtenAs.name]

/-- The entries of all outlines are those of the classes. -/
theorem extracts_of_writtenAs (distinct : (tasks.map ClassTask.name).Nodup)
    (all : tasks.all fun t => (t.outline? d).isSome) {es : List NamedData}
    (entries : List.Forall₂ Outline.WrittenAs (outlinesOf d tasks) es) : Extracts d tasks es where
  ascending := by
    rw [names_of_writtenAs entries, List.pairwise_map]
    exact pairwise_byName (distinct.sublist (file_outlines_sublist d tasks))
  names := by
    rw [names_of_writtenAs entries, ← file_outlines_eq all]
    exact (byName_perm _).map _
  data x mem := by
    obtain ⟨o, here, writtenAs⟩ := exists_left_of_forall₂ entries mem
    obtain ⟨t, task, has⟩ := mem_outlinesOf.mp here
    exact ⟨t, task, writtenAs.name.trans has.file_eq, o, has, writtenAs.data⟩

end Outlines

/-! ## Concluding -/

/-- In every order in which the tasks are run, the extraction gives the answer and the path shows
what is found. -/
def OutputArchive.ComesTo (a : OutputArchive) (h : Host) (tasks : List ClassTask) (path : Text)
    (answer : Bool) (found : Except SystemError DiskNode) : Prop :=
  ∀ order : List ClassTask, order.Perm tasks →
    ∃ a' h', (a.extract order).runOn h = (.ok (answer, a'), h') ∧ h'.disk.lookup path = found

/-- No schedule for some number of jobs gets stuck or goes on for ever, and when the join has
returned, the extraction gives the answer and the path shows what is found. -/
def OutputArchive.Settles (a : OutputArchive) (h : Host) (tasks : List ClassTask) (jobs : Nat)
    (path : Text) (answer : Bool) (found : Except SystemError DiskNode) : Prop :=
  ∀ events, ∃ r h', ((Extraction.start jobs a).run? tasks events).runOn h = (.ok r, h') ∧
    ∀ s, r = some s → events.length ≤ 4 * tasks.length + max jobs 1 + 2 ∧
      (s.pool.join ≠ .returned →
        ∃ e s' h'', (s.step? tasks e).runOn h' = (.ok (some s'), h'')) ∧
      (s.pool.join = .returned →
        ∃ a' h'', (s.archive.conclude s.allDone).runOn h' = (.ok (answer, a'), h'') ∧
          h''.disk.lookup path = found)

namespace OutputArchive

variable {compress answer : Bool} {path : Text} {place : DiskPlace} {a a' : OutputArchive}
  {h h' : Host} {d : Disk} {tasks order : List ClassTask}

/-- A schedule decides nothing but the order of the tasks. -/
theorem ComesTo.settles {found : Except SystemError DiskNode}
    (comesTo : a.ComesTo h tasks path answer found) (jobs : Nat) :
    a.Settles h tasks jobs path answer found := by
  intro events
  obtain ⟨r, h', run, result⟩ := (Extraction.holds_start tasks jobs a h).run? events
  refine ⟨r, h', run, fun s eq => ?_⟩
  obtain ⟨holds, age⟩ := result s eq
  have start : (Extraction.start jobs a).age = 0 := WorkerPool.age_new jobs
  have bound := holds.age_le
  refine ⟨by omega, holds.exists_step, fun returned => ?_⟩
  obtain ⟨a', h'', extracted, shown⟩ := comesTo _ (holds.order_perm returned)
  have concluded : (a.extract (s.order tasks)).runOn h =
      (s.archive.conclude s.allDone).runOn h' :=
    Action.runOn_bind_of_ok holds.run
  exact ⟨a', h'', concluded ▸ extracted, shown⟩

/-- Giving up leaves nothing. -/
theorem Wrote.discard {es : List NamedData} (created : d.create path = .ok (place, h.disk))
    (wrote : a.Wrote compress path place es) :
    ∃ a' h', a.discard.runOn h = (.ok a', h') ∧ h'.disk.lookup path = .error .noEntry := by
  obtain ⟨s, file, -, -⟩ := wrote.file
  obtain ⟨d', removed, gone⟩ := Disk.exists_remove_of_create created
  rw [← wrote.path] at removed
  unfold OutputArchive.discard
  rw [file]
  exact ⟨_, _, abandon_of_remove (a := { a with queue := #[] }) removed, gone⟩

theorem Wrote.addAll {es : List NamedData} (wrote : a.Wrote compress path place es)
    (os : List Outline) : (a.addAll os).Wrote compress path place es := by
  rw [addAll_eq]
  exact ⟨wrote.mode, wrote.path, wrote.file, wrote.healthy, wrote.entries, wrote.directory,
    wrote.names⟩

theorem toList_queue_addAll (fresh : a.queue = #[]) (os : List Outline) :
    (a.addAll os).queue.toList = os := by
  rw [addAll_eq, fresh, Array.empty_append]

theorem queue_of_openFile {a₀ : OutputArchive} {h₀ : Host}
    (opened : (a.openFile path).runOn h = (.ok (true, a₀), h₀)) : a₀.queue = a.queue := by
  unfold openFile at opened
  split at opened
  · cases opened
  · obtain ⟨d, h', run, opened⟩ := Action.runOn_bind_eq_ok.mp opened
    split at opened
    · cases opened
    · cases opened
      rfl

section Fresh

variable (created : d.create path = .ok (place, h.disk)) (wrote : a.Wrote compress path place [])
include created wrote

/-- If a task has no outline, nothing is left. -/
theorem Wrote.comesTo_nothing (some : ¬tasks.all fun t => (t.outline? h.disk).isSome) :
    a.ComesTo h tasks path false (.error .noEntry) := by
  intro order perm
  obtain ⟨h₁, run, disk⟩ := a.exists_runOn_runTasks order h
  rw [Bool.eq_false_iff.mpr (perm.all_eq.trans_ne some)] at run
  rw [← disk] at created
  obtain ⟨a₂, h₂, discarded, gone⟩ := (wrote.addAll _).discard created
  exact ⟨a₂, h₂, (Action.runOn_bind_of_ok run).trans (Action.runOn_bind_of_ok discarded), gone⟩

variable (fresh : a.queue = #[]) (distinct : (tasks.map ClassTask.name).Nodup)
  (all : tasks.all fun t => (t.outline? h.disk).isSome)
include fresh distinct all

/-- If every task has an outline, the outlines are committed. -/
theorem Wrote.extract {es : List NamedData} {stop : WriteEnd}
    (writes : Writes compress [] (outlinesOf h.disk tasks) es stop) (perm : order.Perm tasks) :
    ∃ result h', (a.extract order).runOn h = (result, h') ∧
      Committed compress path es result h'.disk stop := by
  obtain ⟨h₁, run, disk⟩ := a.exists_runOn_runTasks order h
  rw [perm.all_eq.trans all] at run
  rw [← disk] at created
  have queued := toList_queue_addAll fresh (order.filterMap (·.outline? h.disk))
  rw [← outlinesOf_eq_of_perm distinct perm, outlinesOf, ← queued] at writes
  obtain ⟨result, h₂, committed, ended⟩ := (wrote.addAll _).commit created writes
  exact ⟨result, h₂, (Action.runOn_bind_of_ok run).trans committed, ended⟩

/-- If the entries are accepted and not too large, the archive of them is left. -/
theorem Wrote.comesTo_archive {es : List NamedData}
    (entries : List.Forall₂ Outline.WrittenAs (outlinesOf h.disk tasks) es)
    (accepted : Accepted es) (small : WithinLimits compress es) :
    a.ComesTo h tasks path true (.ok (.file (archiveBytes compress es).toByteArray)) := by
  intro order perm
  have writes : Writes compress [] (outlinesOf h.disk tasks) es .complete :=
    .of_forall₂ entries accepted small
  obtain ⟨result, h', run, ⟨-, ⟨a', rfl⟩, found⟩ | ⟨large, -⟩⟩ :=
    wrote.extract created fresh distinct all writes perm
  · exact ⟨a', h', run, found⟩
  · exact absurd small large

/-- If a name is too long, nothing is left. -/
theorem Wrote.comesTo_nothing_of_name
    (encodable : ∀ o ∈ outlinesOf h.disk tasks, ∃ bytes, o.encode = .ok bytes)
    (long : ∃ t ∈ tasks, countLimit < t.name.length) :
    a.ComesTo h tasks path false (.error .noEntry) := by
  intro order perm
  obtain ⟨es, stop, writes⟩ := Writes.exists_writes compress [] (outlinesOf h.disk tasks)
  obtain ⟨result, h', run, committed⟩ := wrote.extract created fresh distinct all writes perm
  cases stop with
  | complete =>
    obtain ⟨new, rfl, entries⟩ := writes.forall₂_of_complete
    obtain ⟨t, mem, long⟩ := long
    have names := (extracts_of_writtenAs distinct all entries).names
    obtain ⟨x, here, name⟩ := List.mem_map.mp (names.mem_iff.mpr (List.mem_map_of_mem mem))
    have short := ((writes.accepted accepted_nil).named x here).2
    rw [name] at short
    exact absurd short (Nat.not_le.mpr long)
  | refused =>
    obtain ⟨⟨a', rfl⟩, gone⟩ := committed
    exact ⟨a', h', run, gone⟩
  | fault f =>
    obtain ⟨o, mem, failed⟩ := writes.exists_of_fault
    obtain ⟨bytes, encoded⟩ := encodable o mem
    cases failed.symm.trans encoded

end Fresh

end OutputArchive

/-! ## Extractions of gathered classes -/

theorem Extracts.accepted {d : Disk} {tasks : List ClassTask} {es : List NamedData}
    (h : Extracts d tasks es) (named : ∀ t ∈ tasks, t.name ≠ [])
    (short : ∀ t ∈ tasks, t.name.length ≤ OutputArchive.countLimit)
    (few : tasks.length ≤ OutputArchive.countLimit) : Accepted es where
  named x mem := by
    obtain ⟨t, task, writtenAs⟩ := h.data x mem
    rw [writtenAs.name]
    exact ⟨named t task, short t task⟩
  distinct := h.ascending.imp fun before => by
    rintro rfl
    exact Std.lt_irrefl before
  count := by
    have length := h.names.length_eq
    rw [List.length_map, List.length_map] at length
    rw [length]
    exact few

namespace OutputArchive

/-- The name of a class file. -/
def smallName : Text := Text.ascii "a.class"

/-- The disk with a class file. -/
def diskWithClass (A : ByteArray) : Disk := emptyHost.disk.put [smallName] (.file A)

/-- The disk with a class file and an empty file for the archive. -/
def diskWithBoth (A : ByteArray) : Disk := (diskWithClass A).put [[111]] (.file .empty)

theorem openFile_diskWithClass (A : ByteArray) :
    ((new false).openFile [111]).runOn ⟨diskWithClass A, #[]⟩ =
      (.ok (true, archiveAtO), ⟨diskWithBoth A, #[]⟩) := by
  have nothing : (diskWithClass A).nodeAt [[111]] = none := by
    refine (Std.HashMap.getElem?_insert ..).trans ?_
    rw [if_neg (by decide)]
    exact Std.HashMap.getElem?_empty
  have created : (diskWithClass A).create [111] = .ok ([[111]], diskWithBoth A) := by
    refine bind_eq_ok.mpr ⟨[111], rfl, bind_eq_ok.mpr ⟨[], rfl, bind_eq_ok.mpr ⟨[[111]], rfl, ?_⟩⟩⟩
    rw [nothing]
    rfl
  unfold openFile
  rw [if_neg (by decide), Action.runOn_bind_of_ok (Action.runOn_disk _)]
  dsimp only
  rw [created]
  rfl

/-- The class file is found at every path that begins with its name and a zero byte. -/
theorem lookup_diskWithBoth (A : ByteArray) {path : Text} (seen : path.beforeNul = smallName) :
    (diskWithBoth A).lookup path = .ok (.file A) := by
  have checked : Disk.checkedPath path = .ok smallName := by
    rw [Disk.checkedPath, seen]
    rfl
  have node : (diskWithBoth A).nodeAt [smallName] = some (.file A) := by
    refine (Std.HashMap.getElem?_insert ..).trans ?_
    rw [if_neg (by decide)]
    exact Std.HashMap.getElem?_insert_self
  have resolved : (diskWithBoth A).resolve path = .ok [smallName] :=
    bind_eq_ok.mpr ⟨smallName, checked, rfl⟩
  refine bind_eq_ok.mpr ⟨_, resolved, ?_⟩
  rw [node]

/-- A small class file that is its own outline file, under every name. -/
theorem exists_smallClass : ∃ A : ByteArray, A.size < 100 ∧
    ∀ file, ∃ o, Outline.ofClassFile file A = .ok (o, .ok ()) ∧ o.encode = .ok A := by
  obtain ⟨A, toBytes, short⟩ : ∃ A, encoderOfVisible.toBytes = .ok A ∧ A.size < 100 :=
    ⟨_, rfl, by decide⟩
  have written := encodeClass_eq_ok.mpr ⟨_, ofEvents_visibleField, toBytes⟩
  have legible := legible_bothFields.canonical
  have same := ClassDeclaration.canonical_canonical (classOfFields [visibleField, privateField])
  rw [canonical_bothFields] at legible same
  refine ⟨A, short, fun file => ?_⟩
  obtain ⟨o, accepted, replay⟩ := legible.exists_outline file written
  rw [same] at replay
  exact ⟨o, accepted, (encode_eq_ok_iff replay).mpr written⟩

/-- The task of a loose class file without a class root. -/
def looseTask (path : Text) : ClassTask := ⟨path, .loose path⟩

/-- The collection of one loose class file. -/
def looseClass (path : Text) : Collection := Collection.empty.insert (looseTask path)

theorem tasks_looseClass (path : Text) : (looseClass path).tasks.toList = [looseTask path] := by
  rw [looseClass, Collection.insert_of_not_mem (by simp [Collection.empty])]
  rfl

theorem addEach_looseClass (path : Text) (suffixed : path.endsWith classSuffix)
    (plain : 47 ∉ path) (h : Host) : ∃ h',
      (Collection.empty.addEach [⟨path, []⟩]).runOn h = (.ok ([true], looseClass path), h') := by
  have base : path.baseName = path := by
    have all : path.reverse.takeWhile (· != 47) = path.reverse :=
      List.takeWhile_eq_self_iff.mpr fun c mem =>
        bne_iff_ne.mpr (ne_of_mem_of_not_mem (List.mem_reverse.mp mem) plain)
    rw [Text.baseName, all, List.reverse_reverse]
  have provides : Provides h.disk ⟨path, []⟩ [looseTask path] :=
    .loose suffixed (congrArg Except.ok base)
  obtain ⟨h', run, -⟩ := Collection.exists_runOn_addEach (.taken provides .nil) Collection.empty
  exact ⟨h', run⟩

section SmallClass

variable {A : ByteArray} {path : Text} {o : Outline} (short : A.size < 100)
  (accepted : Outline.ofClassFile path A = .ok (o, .ok ())) (encoded : o.encode = .ok A)
  (seen : path.beforeNul = smallName)

include accepted seen in
theorem hasOutline_looseTask : (looseTask path).HasOutline (diskWithBoth A) o := by
  have read : (diskWithBoth A).read path = .ok A := by
    rw [Disk.read, lookup_diskWithBoth A seen]
  rw [ClassTask.HasOutline, ClassTask.outline, looseTask, ClassTask.classFile]
  dsimp only
  rw [read]
  show ClassTask.outlineOf _ A = _
  rw [ClassTask.outlineOf, accepted]
  rfl

include short in
theorem withinLimits_smallClass (name : path.length < 100000) :
    WithinLimits false [⟨path, A⟩] where
  data := List.forall_mem_singleton.mpr (Nat.lt_trans short (by decide))
  total := by
    rw [entriesBytes_singleton, directoryBytes, directoryRecords, directoryRecords,
      List.flatMap_singleton, NamedData.bytes, List.length_append, Zip.LocalHeader.length_encode,
      Zip.DirectoryRecord.length_encode]
    show 30 + path.length + A.data.toList.length + (46 + path.length) < sizeLimit
    have size : A.data.toList.length = A.size := rfl
    have limit : 1000000 < sizeLimit := by decide
    omega

include accepted encoded seen in
theorem eq_of_extracts_looseTask {es : List NamedData}
    (extracts : Extracts (diskWithBoth A) [looseTask path] es) : es = [⟨path, A⟩] := by
  have names : es.map NamedData.name = [path] := List.perm_singleton.mp extracts.names
  obtain ⟨x, rfl, name⟩ := List.map_eq_singleton_iff.mp names
  obtain ⟨t, mem, writtenAs⟩ := extracts.data x List.mem_cons_self
  obtain rfl := List.mem_singleton.mp mem
  obtain ⟨o', has, encoded'⟩ := writtenAs.data
  cases has.symm.trans (hasOutline_looseTask accepted seen)
  cases encoded'.symm.trans encoded
  obtain ⟨name', data⟩ := x
  cases name
  rfl

end SmallClass

/-- A path that leads to the class file, and that is too long for the name of an entry. -/
def longName : Text := smallName ++ 0 :: (List.replicate 65536 120 ++ classSuffix)

theorem beforeNul_longName : longName.beforeNul = smallName := by
  have plain : ∀ c ∈ smallName, (c != 0) = true := List.all_eq_true.mp rfl
  rw [longName, Text.beforeNul, List.takeWhile_append_of_pos plain,
    List.takeWhile_cons_of_neg (by decide), List.append_nil]

theorem endsWith_longName : longName.endsWith classSuffix := by
  refine List.isSuffixOf_iff_suffix.mpr ⟨smallName ++ 0 :: List.replicate 65536 120, ?_⟩
  rw [longName, List.append_assoc, List.cons_append]

theorem plain_longName : 47 ∉ longName := by
  have filler : 47 ∉ List.replicate 65536 (120 : UInt8) := fun mem =>
    absurd (List.eq_of_mem_replicate mem) (by decide)
  refine List.not_mem_append (by decide) (List.not_mem_cons_of_ne_of_not_mem (by decide) ?_)
  exact List.not_mem_append filler (by decide)

theorem length_longName : longName.length = 65550 := by
  rw [longName, List.length_append, List.length_cons, List.length_append, List.length_replicate]
  rfl

end OutputArchive

end ClassAbi
