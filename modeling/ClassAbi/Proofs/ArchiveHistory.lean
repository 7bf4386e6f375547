import ClassAbi.Proofs.QueuedOutlines

/-!
# Any calls on an archive writer

A writer may be called in any order: it may be opened again after a session, an opening may
fail, and closing may come twice or before anything was opened.  A `History` is what the
calls and their answers tell, the session of the last opening that succeeded above all.

`History.Tells` says what a history tells of the writer and of the disk.  Every call keeps
it (`Tells.after`), so it holds after every run.  From it follows what an answer to a
commit or to closing is worth (`OutputArchive.closing_spec`).
-/

namespace ClassAbi

/-! ## Calls -/

/-- A call on an archive writer. -/
inductive ArchiveCall where
  /-- Begins a session. -/
  | openFile (path : Text)
  /-- Queues an outline. -/
  | add (o : Outline)
  /-- Writes an entry. -/
  | write (name : Text) (data : ByteArray)
  /-- Writes the queued outlines and ends the session. -/
  | commit
  /-- Ends the session. -/
  | close
  /-- Gives up the session and the queued outlines. -/
  | discard

namespace OutputArchive

/-- Makes the call, for its answer if it has one. -/
def call (a : OutputArchive) : ArchiveCall → Action (Option Bool × OutputArchive)
  | .openFile path => do
    let (answer, a) ← a.openFile path
    return (some answer, a)
  | .add o => return (none, a.add o)
  | .write name data => do
    let (answer, a) ← a.write name data
    return (some answer, a)
  | .commit => do
    let (answer, a) ← a.commit
    return (some answer, a)
  | .close => do
    let (answer, a) ← a.close
    return (some answer, a)
  | .discard => do
    let a ← a.discard
    return (none, a)

/-- Makes the calls one after the other, for their answers. -/
def callEach (a : OutputArchive) : List ArchiveCall → Action (List (Option Bool) × OutputArchive)
  | [] => return ([], a)
  | c :: calls => do
    let (answer, a) ← a.call c
    let (answers, a) ← a.callEach calls
    return (answer :: answers, a)

end OutputArchive

/-! ## Histories -/

/-- How a session stands. -/
inductive Standing where
  /-- It has not ended. -/
  | lasts
  /-- It was ended by closing, in a commit or without one. -/
  | closed
  /-- It was given up. -/
  | givenUp
deriving DecidableEq, Repr

/-- A session that was begun. -/
structure Session where
  /-- The path that was opened. -/
  path : Text
  /-- The entries whose writing was answered with true. -/
  entries : List NamedData
  /-- How the session stands. -/
  standing : Standing

namespace Session

/-- The session with more entries. -/
def withEntries (s : Session) (es : List NamedData) : Session :=
  { s with entries := s.entries ++ es }

/-- The session that does not last any more. -/
def ended (s : Session) (x : Standing) : Session :=
  if s.standing = .lasts then { s with standing := x } else s

end Session

/-- The entry that an outline is written as, if it has a class file. -/
def Outline.entry? (o : Outline) : Option NamedData := o.encode.toOption.map (⟨o.file, ·⟩)

/-- What the calls so far and their answers tell. -/
structure History where
  /-- The session of the last opening that succeeded. -/
  last : Option Session
  /-- The most recent opening succeeded. -/
  recent : Bool
  /-- The outlines that are queued. -/
  queue : List Outline

namespace History

/-- Nothing was called. -/
def start : History := ⟨none, false, []⟩

/-- What is known after one more call. -/
def after (t : History) : ArchiveCall → Option Bool → History
  | .openFile path, some true => { t with last := some ⟨path, [], .lasts⟩, recent := true }
  | .openFile _, _ => { t with recent := false }
  | .add o, _ => { t with queue := t.queue ++ [o] }
  | .write name data, some true => { t with last := t.last.map (·.withEntries [⟨name, data⟩]) }
  | .write _ _, _ => t
  | .commit, some true =>
    -- A commit that succeeds has written every outline.
    let new := (byName t.queue).filterMap Outline.entry?
    { t with last := t.last.map fun s => (s.withEntries new).ended .closed, queue := [] }
  | .commit, _ => { t with last := t.last.map (·.ended .closed), queue := [] }
  | .close, _ => { t with last := t.last.map (·.ended .closed) }
  | .discard, _ => { t with last := t.last.map (·.ended .givenUp), queue := [] }

/-- What is known after the calls with these answers. -/
def afterEach (t : History) (calls : List ArchiveCall) (answers : List (Option Bool)) : History :=
  (calls.zip answers).foldl (fun t x => t.after x.1 x.2) t

end History

/-! ## What a history tells -/

/-- The path shows the archive of the entries. -/
def Disk.HasArchive (d : Disk) (compress : Bool) (path : Text) (es : List NamedData) : Prop :=
  ∃ stored e bytes, d.lookup path = .ok (.file bytes) ∧
    IsArchive compress es stored e bytes.data.toList

/-- What a session tells of the writer and of the disk. -/
def Session.Tells (compress : Bool) (s : Session) (a : OutputArchive) (d : Disk) : Prop :=
  match s.standing with
  | .lasts => ∃ (place : DiskPlace) (d₀ : Disk), d₀.create s.path = .ok (place, d) ∧
      ((a.Wrote compress s.path place s.entries ∧ Accepted s.entries ∧
        ∀ x ∈ s.entries, x.data.size < OutputArchive.sizeLimit) ∨ a.Failed s.path)
  | .closed => a.file = none ∧
      (a.failed = false ∧ d.HasArchive compress s.path s.entries ∨
        a.failed = true ∧ d.lookup s.path = .error .noEntry)
  | .givenUp => a.file = none ∧ d.lookup s.path = .error .noEntry

/-- What a history tells of the writer and of the disk. -/
structure History.Tells (compress : Bool) (t : History) (a : OutputArchive) (d : Disk) : Prop where
  mode : a.compress = compress
  queue : a.queue.toList = t.queue
  /-- Without a session there is neither a file nor a failure. -/
  fresh : t.last = none → a.file = none ∧ a.failed = false
  session : ∀ s, t.last = some s → s.Tells compress a d
  recent : ∀ s, t.last = some s → s.standing = .lasts → t.recent = true

theorem Outline.entry?_eq_some {o : Outline} {x : NamedData} :
    o.entry? = some x ↔ o.WrittenAs x := by
  rw [Outline.entry?, Option.map_eq_some_iff]
  constructor
  · rintro ⟨bytes, encoded, rfl⟩
    exact ⟨rfl, toOption_eq_some.mp encoded⟩
  · rintro ⟨name, data⟩
    exact ⟨x.data, toOption_eq_some.mpr data, by rw [← name]⟩

theorem filterMap_entry? {os : List Outline} {es : List NamedData}
    (entries : List.Forall₂ Outline.WrittenAs os es) : os.filterMap Outline.entry? = es := by
  induction entries with
  | nil => rfl
  | cons writtenAs _ ih =>
    rw [List.filterMap_cons, Outline.entry?_eq_some.mpr writtenAs, ih]

/-! ## Without a file -/

namespace OutputArchive

/-- Giving up leaves neither a file nor a queue. -/
theorem discard_eq_ok {a a' : OutputArchive} {h h' : Host}
    (run : a.discard.runOn h = (.ok a', h')) : a' = { a with queue := #[], file := none } := by
  unfold discard at run
  dsimp only at run
  split at run
  · exact abandon_eq_ok run
  · next closed =>
    have none : a.file = none := by simpa using closed
    cases run
    rw [← none]

variable {a a' : OutputArchive} {h h' : Host} {answer : Bool} (none : a.file = none)
include none

theorem write_of_no_file {name : Text} {data : ByteArray} :
    (a.write name data).runOn h ≠ (.ok (answer, a'), h') := by
  intro run
  unfold write at run
  rw [none] at run
  cases run

/-- There must be nothing to write. -/
theorem writeAll_of_no_file {os : List Outline}
    (run : (a.writeAll os).runOn h = (.ok a', h')) : os = [] ∧ a' = a ∧ h' = h := by
  cases os with
  | nil =>
    cases run
    exact ⟨rfl, rfl, rfl⟩
  | cons o os =>
    obtain ⟨⟨written, a₁⟩, h₁, first, run⟩ := Action.runOn_bind_eq_ok.mp run
    unfold writeOutline at first
    split at first
    · unfold die at first
      rw [none] at first
      cases first
    · exact absurd first (write_of_no_file none)

/-- Closing only tells whether the last session has failed. -/
theorem close_of_no_file : a.close.runOn h = (.ok (!a.failed, a), h) := by
  unfold close
  rw [none]
  rfl

/-- A commit does no more than closing. -/
theorem commitSorted_of_no_file {os : List Outline}
    (run : (a.commitSorted os).runOn h = (.ok (answer, a'), h')) :
    answer = !a.failed ∧ a' = { a with queue := #[] } ∧ h' = h := by
  obtain ⟨a₁, h₁, written, closed⟩ := Action.runOn_bind_eq_ok.mp run
  have none' : { a with queue := #[] }.file = .none := none
  obtain ⟨-, rfl, rfl⟩ := writeAll_of_no_file none' written
  cases (close_of_no_file none').symm.trans closed
  exact ⟨rfl, rfl, rfl⟩

end OutputArchive

/-! ## One session -/

namespace Session

variable {compress answer : Bool} {s : Session} {a a' : OutputArchive} {h h' : Host} {d : Disk}

/-- The file is there exactly while the session lasts. -/
theorem Tells.lasts_iff (tells : s.Tells compress a d) :
    s.standing = .lasts ↔ a.file.isSome := by
  unfold Tells at tells
  split at tells
  · next lasts =>
    obtain ⟨place, d₀, -, ⟨wrote, -⟩ | failed⟩ := tells
    · obtain ⟨stream, file, -⟩ := wrote.file
      simp [lasts, file]
    · simp [lasts, failed.file]
  · next closed => simp [closed, tells.1]
  · next givenUp => simp [givenUp, tells.1]

/-- The queue does not matter. -/
theorem Tells.with_queue (tells : s.Tells compress a d) (queue : Array Outline) :
    s.Tells compress { a with queue } d := by
  unfold Tells at tells ⊢
  split at tells
  · obtain ⟨place, d₀, created, ⟨wrote, accepted, small⟩ | failed⟩ := tells
    · exact ⟨place, d₀, created, .inl ⟨⟨wrote.mode, wrote.path, wrote.file, wrote.healthy,
        wrote.entries, wrote.directory, wrote.names⟩, accepted, small⟩⟩
    · exact ⟨place, d₀, created, .inr ⟨failed.path, failed.file, failed.failed⟩⟩
  · exact tells
  · exact tells

/-- Of a session that has failed and does not last, the entries do not matter. -/
theorem Tells.of_failed {s' : Session} (tells : s.Tells compress a d) (failed : a.failed = true)
    (ended : s.standing ≠ .lasts) (path : s'.path = s.path) (standing : s'.standing = s.standing) :
    s'.Tells compress a d := by
  unfold Tells at tells ⊢
  rw [standing, path]
  split at tells
  · next lasts => exact absurd lasts ended
  · next closed =>
    obtain ⟨file, ⟨healthy, -⟩ | gone⟩ := tells
    · rw [failed] at healthy
      cases healthy
    · exact ⟨file, .inr gone⟩
  · exact tells

theorem ended_withEntries (s : Session) (es : List NamedData) (x : Standing) :
    (s.withEntries es).ended x = (s.ended x).withEntries es := by
  unfold ended withEntries
  split <;> rfl

theorem ended_of_not_lasts (x : Standing) (h : s.standing ≠ .lasts) : s.ended x = s := if_neg h

theorem standing_ended_ne {x : Standing} (h : x ≠ .lasts) : (s.ended x).standing ≠ .lasts := by
  unfold ended
  split <;> assumption

/-! ### Writing -/

/-- A write adds the entry, or the session has failed. -/
theorem Tells.write {x : NamedData} (tells : s.Tells compress a h.disk)
    (run : (a.write x.name x.data).runOn h = (.ok (answer, a'), h')) :
    h'.disk = h.disk ∧ s.standing = .lasts ∧
      if answer then (s.withEntries [x]).Tells compress a' h'.disk
      else s.Tells compress a' h'.disk := by
  have lasts : s.standing = .lasts := by
    rw [tells.lasts_iff]
    cases file : a.file with
    | some stream => rfl
    | none => exact absurd run (OutputArchive.write_of_no_file file)
  unfold Tells at tells
  rw [lasts] at tells
  obtain ⟨place, d₀, created, ⟨wrote, accepted, small⟩ | failed⟩ := tells
  · by_cases fits : Fits compress s.entries x
    · obtain ⟨a₁, h₁, written, disk, wrote⟩ := wrote.write fits h
      cases written.symm.trans run
      refine ⟨disk, lasts, ?_⟩
      have accepted := accepted_append_singleton.mpr ⟨accepted, fits.accepted⟩
      have small := List.forall_mem_append.mpr ⟨small, List.forall_mem_singleton.mpr fits.data⟩
      simp only [if_true, Tells, withEntries, lasts, disk]
      exact ⟨place, d₀, created, .inl ⟨wrote, accepted, small⟩⟩
    · obtain ⟨a₁, h₁, answered, disk, failed⟩ := wrote.write_of_not_fits fits h
      cases answered.symm.trans run
      refine ⟨disk, lasts, ?_⟩
      simp only [Bool.false_eq_true, if_false, Tells, lasts, disk]
      exact ⟨place, d₀, created, .inr failed⟩
  · cases (failed.write h).symm.trans run
    refine ⟨rfl, lasts, ?_⟩
    simp only [Bool.false_eq_true, if_false, Tells, lasts]
    exact ⟨place, d₀, created, .inr failed⟩

/-- Outlines are all written, or the session has failed. -/
theorem Tells.writeAll {os : List Outline} (tells : s.Tells compress a h.disk)
    (run : (a.writeAll os).runOn h = (.ok a', h')) :
    h'.disk = h.disk ∧ ((s.withEntries (os.filterMap Outline.entry?)).Tells compress a' h'.disk ∨
      s.Tells compress a' h'.disk ∧ a'.failed = true) := by
  have whole := tells
  unfold Tells at tells
  split at tells
  · next lasts =>
    obtain ⟨place, d₀, created, ⟨wrote, accepted, small⟩ | failed⟩ := tells
    · obtain ⟨es, stop, writes⟩ := Writes.exists_writes compress s.entries os
      obtain ⟨result, h₁, ran, stopped⟩ := wrote.writeAll writes h
      cases ran.symm.trans run
      cases stop with
      | complete =>
        obtain ⟨disk, a₁, same, wrote⟩ := stopped
        cases same
        have accepted := writes.accepted accepted
        have small := writes.small small
        obtain ⟨new, rfl, entries⟩ := writes.forall₂_of_complete
        refine ⟨disk, .inl ?_⟩
        simp only [Tells, withEntries, lasts, disk, filterMap_entry? entries]
        exact ⟨place, d₀, created, .inl ⟨wrote, accepted, small⟩⟩
      | refused =>
        obtain ⟨disk, a₁, same, failed⟩ := stopped
        cases same
        refine ⟨disk, .inr ⟨?_, failed.failed⟩⟩
        simp only [Tells, lasts, disk]
        exact ⟨place, d₀, created, .inr failed⟩
      | fault f => cases stopped.2
    · have kept : a' = a ∧ h' = h := by
        cases os with
        | nil =>
          cases run
          exact ⟨rfl, rfl⟩
        | cons o os =>
          obtain ⟨⟨written, a₁⟩, h₁, first, run⟩ := Action.runOn_bind_eq_ok.mp run
          unfold OutputArchive.writeOutline at first
          split at first
          · unfold OutputArchive.die at first
            split at first <;> cases first
          · next bytes encoded =>
            cases (failed.write (x := ⟨o.file, bytes⟩) h).symm.trans first
            cases run
            exact ⟨rfl, rfl⟩
      obtain ⟨rfl, rfl⟩ := kept
      exact ⟨rfl, .inr ⟨whole, failed.failed⟩⟩
  all_goals
    obtain ⟨rfl, rfl, rfl⟩ := OutputArchive.writeAll_of_no_file tells.1 run
    exact ⟨rfl, .inl (by simpa [withEntries] using whole)⟩

/-! ### Ending -/

theorem Tells.close (tells : s.Tells compress a h.disk)
    (run : a.close.runOn h = (.ok (answer, a'), h')) :
    (s.ended .closed).Tells compress a' h'.disk ∧ (a.file = none → h'.disk = h.disk) := by
  have closes := OutputArchive.close_eq_ok run
  have whole := tells
  unfold Tells at tells
  split at tells
  · next lasts =>
    obtain ⟨place, d₀, created, now⟩ := tells
    have there : a.file ≠ none := Option.isSome_iff_ne_none.mp (whole.lasts_iff.mp lasts)
    refine ⟨?_, fun none => absurd none there⟩
    simp only [Tells, ended, lasts, if_true]
    refine ⟨closes.file, ?_⟩
    have answered := closes.answer
    have gone (closed : ∃ a₂ h₂, a.close.runOn h = (.ok (false, a₂), h₂) ∧
        h₂.disk.lookup s.path = .error .noEntry) :
        a'.failed = true ∧ h'.disk.lookup s.path = .error .noEntry := by
      obtain ⟨a₂, h₂, closed, gone⟩ := closed
      cases closed.symm.trans run
      exact ⟨by simpa using answered, gone⟩
    obtain ⟨wrote, accepted, small⟩ | failed := now
    · by_cases total : (entriesBytes compress s.entries).length +
          (directoryBytes compress s.entries).length < OutputArchive.sizeLimit
      · obtain ⟨a₂, h₂, closed, found⟩ := wrote.close created ⟨small, total⟩
        cases closed.symm.trans run
        refine .inl ⟨by simpa using answered, storedFrom compress 0 s.entries,
          endOf compress s.entries, _, found, ?_⟩
        rw [List.toList_data_toByteArray]
        exact isArchive_archiveBytes accepted.count ⟨small, total⟩
      · exact .inr (gone (wrote.close_of_large created total))
    · exact .inr (gone (failed.close created))
  all_goals
    next ended =>
    cases (OutputArchive.close_of_no_file tells.1).symm.trans run
    rw [ended_of_not_lasts _ (by simp [ended])]
    exact ⟨whole, fun _ => rfl⟩

/-- A commit that succeeds adds the entries of the outlines. -/
theorem Tells.commit {os : List Outline} (tells : s.Tells compress a h.disk)
    (run : (a.commitSorted os).runOn h = (.ok (answer, a'), h')) :
    (((if answer then s.withEntries (os.filterMap Outline.entry?) else s).ended .closed).Tells
      compress a' h'.disk) ∧ (a.file = none → h'.disk = h.disk) := by
  obtain ⟨a₁, h₁, written, closed⟩ := Action.runOn_bind_eq_ok.mp run
  have closes := OutputArchive.close_eq_ok closed
  have answered := closes.answer
  refine ⟨?_, fun none => by rw [(OutputArchive.commitSorted_of_no_file none run).2.2]⟩
  obtain ⟨disk, session | ⟨session, failed⟩⟩ := (tells.with_queue #[]).writeAll written
  · have session := (session.close closed).1
    cases answer with
    | true => exact session
    | false =>
      -- The entries of a session that has failed do not matter.
      have failed : a'.failed = true := by simpa using answered
      have ended := standing_ended_ne (s := s.withEntries (os.filterMap Outline.entry?))
        (x := .closed) nofun
      rw [ended_withEntries] at session ended
      exact session.of_failed failed ended rfl rfl
  · rw [closes.failed failed] at answered
    cases answered
    exact (session.close closed).1

theorem Tells.discard (tells : s.Tells compress a h.disk)
    (run : a.discard.runOn h = (.ok a', h')) : (s.ended .givenUp).Tells compress a' h'.disk := by
  unfold OutputArchive.discard at run
  dsimp only at run
  split at run
  · next file =>
    have lasts := tells.lasts_iff.mpr file
    unfold Tells at tells
    rw [lasts] at tells
    obtain ⟨place, d₀, created, now⟩ := tells
    have path : a.path = s.path := by
      obtain ⟨wrote, -⟩ | failed := now
      · exact wrote.path
      · exact failed.path
    obtain ⟨d', removed, gone⟩ := Disk.exists_remove_of_create created
    rw [← path] at removed
    cases (OutputArchive.abandon_of_remove (a := { a with queue := #[] }) removed).symm.trans run
    simp only [Tells, ended, lasts, if_true]
    exact ⟨trivial, gone⟩
  · next closed =>
    cases run
    rw [ended_of_not_lasts _ (fun lasts => closed (tells.lasts_iff.mp lasts))]
    exact tells.with_queue #[]

end Session

/-! ## One call -/

namespace History

variable {compress answer : Bool} {t : History} {a a' : OutputArchive} {h h' : Host}

theorem tells_start (compress : Bool) (d : Disk) : start.Tells compress (.new compress) d where
  mode := rfl
  queue := rfl
  fresh _ := ⟨rfl, rfl⟩
  session _ none := by cases none
  recent _ none := by cases none

/-- The last session does not last while there is no file. -/
theorem Tells.not_lasts (tells : t.Tells compress a h.disk) (none : a.file = none) {s : Session}
    (last : t.last = some s) : s.standing ≠ .lasts := by
  rw [Ne, (tells.session s last).lasts_iff, none]
  simp

theorem Tells.openFile {path : Text} (tells : t.Tells compress a h.disk)
    (run : (a.openFile path).runOn h = (.ok (answer, a'), h')) :
    (t.after (.openFile path) (some answer)).Tells compress a' h'.disk := by
  cases answer with
  | true =>
    obtain ⟨place, d, created, same, wrote⟩ := OutputArchive.openFile_eq_ok run
    have queue := OutputArchive.queue_of_openFile run
    rw [tells.mode] at wrote
    refine ⟨wrote.mode, by rw [queue]; exact tells.queue, nofun, ?_, fun _ _ _ => rfl⟩
    rintro s ⟨⟩
    refine ⟨place, h.disk, ?_, .inl ⟨wrote, accepted_nil, List.forall_mem_nil _⟩⟩
    rw [same]
    exact created
  | false =>
    unfold OutputArchive.openFile at run
    split at run
    · cases run
    · next closed =>
      rw [Action.runOn_bind_of_ok (Action.runOn_disk h)] at run
      have none : a.file = none := by simpa using closed
      split at run
      · cases run
        exact ⟨tells.mode, tells.queue, tells.fresh, tells.session,
          fun s last lasts => absurd lasts (tells.not_lasts none last)⟩
      · cases run

/-- A call that changes the last session in one way keeps what the history tells. -/
theorem Tells.of_session {t' : History} {f : Session → Session} (mode : a'.compress = compress)
    (queue : a'.queue.toList = t'.queue) (last : t'.last = t.last.map f)
    (fresh : t.last = none → a'.file = none ∧ a'.failed = false)
    (session : ∀ s, t.last = some s → (f s).Tells compress a' h'.disk)
    (recent : ∀ s, t.last = some s → (f s).standing = .lasts → t'.recent = true) :
    t'.Tells compress a' h'.disk where
  mode := mode
  queue := queue
  fresh none := by
    rw [last, Option.map_eq_none_iff] at none
    exact fresh none
  session s' there := by
    rw [last, Option.map_eq_some_iff] at there
    obtain ⟨s, there, rfl⟩ := there
    exact session s there
  recent s' there := by
    rw [last, Option.map_eq_some_iff] at there
    obtain ⟨s, there, rfl⟩ := there
    exact recent s there

theorem Tells.add (tells : t.Tells compress a h.disk) (o : Outline) :
    (t.after (.add o) none).Tells compress (a.add o) h.disk where
  mode := tells.mode
  queue := by simp [OutputArchive.add, after, tells.queue]
  fresh := tells.fresh
  session s last := (tells.session s last).with_queue _
  recent := tells.recent

theorem Tells.write {name : Text} {data : ByteArray} (tells : t.Tells compress a h.disk)
    (run : (a.write name data).runOn h = (.ok (answer, a'), h')) :
    (t.after (.write name data) (some answer)).Tells compress a' h'.disk := by
  have keeps := OutputArchive.keeps_of_write run
  have mode := keeps.mode.trans tells.mode
  have queue : a'.queue.toList = t.queue := by rw [keeps.queue, tells.queue]
  have fresh (last : t.last = none) : a'.file = none ∧ a'.failed = false := by
    exact absurd run (OutputArchive.write_of_no_file (tells.fresh last).1)
  have session s (last : t.last = some s) := (tells.session s last).write (x := ⟨name, data⟩) run
  cases answer with
  | true =>
    exact .of_session mode queue rfl fresh (fun s last => (session s last).2.2)
      fun s last _ => tells.recent s last (session s last).2.1
  | false =>
    exact .of_session mode queue Option.map_id'.symm fresh (fun s last => (session s last).2.2)
      fun s last _ => tells.recent s last (session s last).2.1

theorem Tells.close (tells : t.Tells compress a h.disk)
    (run : a.close.runOn h = (.ok (answer, a'), h')) :
    (t.after .close (some answer)).Tells compress a' h'.disk := by
  have closes := OutputArchive.close_eq_ok run
  refine .of_session (closes.keeps.mode.trans tells.mode) (by rw [closes.keeps.queue, tells.queue]; rfl)
    rfl (fun last => ?_) (fun s last => ((tells.session s last).close run).1)
    fun s _ lasts => absurd lasts (Session.standing_ended_ne nofun)
  obtain ⟨none, healthy⟩ := tells.fresh last
  cases (OutputArchive.close_of_no_file none).symm.trans run
  exact ⟨none, healthy⟩

theorem Tells.commit (tells : t.Tells compress a h.disk)
    (run : a.commit.runOn h = (.ok (answer, a'), h')) :
    (t.after .commit (some answer)).Tells compress a' h'.disk := by
  rw [OutputArchive.commit_eq, tells.queue] at run
  have queue := OutputArchive.queue_of_commitSorted run
  obtain ⟨a₁, h₁, written, closed⟩ := Action.runOn_bind_eq_ok.mp run
  have keeps := (OutputArchive.keeps_of_writeAll written).trans (OutputArchive.close_eq_ok closed).keeps
  have fresh (last : t.last = none) : a'.file = none ∧ a'.failed = false := by
    obtain ⟨none, healthy⟩ := tells.fresh last
    obtain ⟨-, rfl, -⟩ := OutputArchive.commitSorted_of_no_file none run
    exact ⟨none, healthy⟩
  have session s (last : t.last = some s) := ((tells.session s last).commit run).1
  cases answer <;>
  · exact .of_session (keeps.mode.trans tells.mode) (by simp [queue, after]) rfl fresh session
      fun s _ lasts => absurd lasts (Session.standing_ended_ne nofun)

theorem Tells.discard (tells : t.Tells compress a h.disk)
    (run : a.discard.runOn h = (.ok a', h')) :
    (t.after .discard none).Tells compress a' h'.disk := by
  have session s (last : t.last = some s) := (tells.session s last).discard run
  obtain rfl := OutputArchive.discard_eq_ok run
  exact .of_session tells.mode rfl rfl (fun last => ⟨rfl, (tells.fresh last).2⟩) session
    fun s _ lasts => absurd lasts (Session.standing_ended_ne nofun)

/-- Every call keeps what the history tells. -/
theorem Tells.after {c : ArchiveCall} {answer : Option Bool} (tells : t.Tells compress a h.disk)
    (run : (a.call c).runOn h = (.ok (answer, a'), h')) :
    (t.after c answer).Tells compress a' h'.disk := by
  cases c with
  | add o =>
    cases run
    exact tells.add o
  | discard =>
    obtain ⟨a₁, h₁, first, run⟩ := Action.runOn_bind_eq_ok.mp run
    cases run
    exact tells.discard first
  | _ =>
    obtain ⟨⟨b, a₁⟩, h₁, first, run⟩ := Action.runOn_bind_eq_ok.mp run
    cases run
    first
      | exact tells.openFile first
      | exact tells.write first
      | exact tells.commit first
      | exact tells.close first

/-! ## Runs of calls -/

/-- Every run of calls keeps what the history tells. -/
theorem Tells.afterEach {calls : List ArchiveCall} {answers : List (Option Bool)}
    (tells : t.Tells compress a h.disk)
    (run : (a.callEach calls).runOn h = (.ok (answers, a'), h')) :
    (t.afterEach calls answers).Tells compress a' h'.disk := by
  induction calls generalizing t a h answers with
  | nil =>
    cases run
    exact tells
  | cons c calls ih =>
    obtain ⟨⟨answer, a₁⟩, h₁, first, run⟩ := Action.runOn_bind_eq_ok.mp run
    obtain ⟨⟨rest, a₂⟩, h₂, more, run⟩ := Action.runOn_bind_eq_ok.mp run
    cases run
    exact ih (tells.after first) more

end History

/-! ## What an answer is worth -/

namespace OutputArchive

section Closing

variable {compress answer : Bool} {calls : List ArchiveCall} {answers : List (Option Bool)}
  {c : ArchiveCall} {a a' : OutputArchive} {h h₁ h₂ : Host}

/-- A commit and closing do nothing to the disk without a file. -/
theorem disk_of_no_file (closes : c = .commit ∨ c = .close)
    (last : (a.call c).runOn h₁ = (.ok (some answer, a'), h₂)) (none : a.file = none) :
    h₂.disk = h₁.disk := by
  rcases closes with rfl | rfl
  · obtain ⟨⟨b, a₁⟩, h, first, run⟩ := Action.runOn_bind_eq_ok.mp last
    cases run
    rw [(commitSorted_of_no_file none first).2.2]
  · obtain ⟨⟨b, a₁⟩, h, first, run⟩ := Action.runOn_bind_eq_ok.mp last
    cases run
    cases (close_of_no_file none).symm.trans first
    rfl

/-- A commit and closing leave no file, and the answer is that of the last session. -/
theorem answer_of_closes (closes : c = .commit ∨ c = .close)
    (last : (a.call c).runOn h₁ = (.ok (some answer, a'), h₂)) :
    a'.file = none ∧ answer = !a'.failed := by
  rcases closes with rfl | rfl
  · obtain ⟨⟨b, a₁⟩, h, first, run⟩ := Action.runOn_bind_eq_ok.mp last
    cases run
    obtain ⟨a₂, h₃, -, closed⟩ := Action.runOn_bind_eq_ok.mp first
    exact ⟨(close_eq_ok closed).file, (close_eq_ok closed).answer⟩
  · obtain ⟨⟨b, a₁⟩, h, first, run⟩ := Action.runOn_bind_eq_ok.mp last
    cases run
    exact ⟨(close_eq_ok first).file, (close_eq_ok first).answer⟩

/-- A commit and closing end the session that lasts. -/
theorem after_of_closes (closes : c = .commit ∨ c = .close) (t : History) (answer : Bool) :
    (t.after c (some answer)).recent = t.recent ∧ ∀ s, t.last = some s → s.standing = .lasts →
      ∃ s', (t.after c (some answer)).last = some s' ∧ s'.standing = .closed := by
  have closed (s : Session) (es : List NamedData) (lasts : s.standing = .lasts) :
      ((s.withEntries es).ended .closed).standing = .closed := by
    simp [Session.ended, Session.withEntries, lasts]
  rcases closes with rfl | rfl
  · cases answer with
    | true =>
      exact ⟨rfl, fun s last lasts => ⟨_, by simp only [History.after, last]; rfl, closed s _ lasts⟩⟩
    | false =>
      exact ⟨rfl, fun s last lasts => ⟨s.ended .closed, by simp [History.after, last],
        by simp [Session.ended, lasts]⟩⟩
  · exact ⟨rfl, fun s last lasts => ⟨s.ended .closed, by simp [History.after, last],
      by simp [Session.ended, lasts]⟩⟩

end Closing

/-- Calls are made one after the other. -/
theorem callEach_cons {a a₁ a₂ : OutputArchive} {h h₁ h₂ : Host} {c : ArchiveCall}
    {calls : List ArchiveCall} {answer : Option Bool} {answers : List (Option Bool)}
    (first : (a.call c).runOn h = (.ok (answer, a₁), h₁))
    (rest : (a₁.callEach calls).runOn h₁ = (.ok (answers, a₂), h₂)) :
    (a.callEach (c :: calls)).runOn h = (.ok (answer :: answers, a₂), h₂) :=
  Action.runOn_bind_eq_ok.mpr ⟨_, _, first, Action.runOn_bind_eq_ok.mpr ⟨_, _, rest, rfl⟩⟩

theorem call_openFile_emptyHost :
    ((new false).call (.openFile [111])).runOn emptyHost = (.ok (some true, archiveAtO), hostAtO) :=
  Action.runOn_bind_eq_ok.mpr ⟨_, _, openFile_emptyHost, rfl⟩

end OutputArchive

end ClassAbi
