import ClassAbi.Extraction.Collection
import ClassAbi.Proofs.Actions
import ClassAbi.Proofs.DirectoryWalk

/-!
# Gathering classes from sources

A source provides tasks or fails as a whole (`Provides`).  What a collection holds
after some sources is the first task of each name among all that they provide, in
the order in which they provide them (`firstOfEach`).  A source that fails provides
nothing, so leaving it out changes nothing.

A name is taken in two steps: an archive keeps the first of its entries with the
name, and the collection the first of its sources.  Both steps together are one
(`foldl_insert_firstOfEach`).
-/

namespace ClassAbi

/-! ## The first task of each name -/

/-- The first task of each name that is not among the names that are taken. -/
def firstOfEach (taken : List Text) : List ClassTask → List ClassTask
  | [] => []
  | t :: ts =>
    if t.name ∈ taken then firstOfEach taken ts else t :: firstOfEach (t.name :: taken) ts

section FirstOfEach

variable {taken : List Text} {ts : List ClassTask}

theorem firstOfEach_cons_of_mem {t : ClassTask} (mem : t.name ∈ taken) :
    firstOfEach taken (t :: ts) = firstOfEach taken ts := by
  rw [firstOfEach, if_pos mem]

theorem firstOfEach_cons_of_not_mem {t : ClassTask} (fresh : t.name ∉ taken) :
    firstOfEach taken (t :: ts) = t :: firstOfEach (t.name :: taken) ts := by
  rw [firstOfEach, if_neg fresh]

theorem mem_names_firstOfEach {name : Text} :
    name ∈ (firstOfEach taken ts).map ClassTask.name ↔
      name ∉ taken ∧ name ∈ ts.map ClassTask.name := by
  induction ts generalizing taken with
  | nil => simp [firstOfEach]
  | cons t ts ih =>
    by_cases mem : t.name ∈ taken
    · rw [firstOfEach_cons_of_mem mem, ih, List.map_cons, List.mem_cons]
      refine and_congr_right fun free => ⟨.inr, fun here => here.resolve_left ?_⟩
      rintro rfl
      exact free mem
    · rw [firstOfEach_cons_of_not_mem mem, List.map_cons, List.mem_cons, ih, List.map_cons,
        List.mem_cons, List.mem_cons]
      by_cases here : name = t.name
      · subst here
        simp [mem]
      · simp [here]

theorem nodup_names_firstOfEach : ((firstOfEach taken ts).map ClassTask.name).Nodup := by
  induction ts generalizing taken with
  | nil => exact List.nodup_nil
  | cons t ts ih =>
    by_cases mem : t.name ∈ taken
    · rw [firstOfEach_cons_of_mem mem]
      exact ih
    · rw [firstOfEach_cons_of_not_mem mem, List.map_cons, List.nodup_cons]
      refine ⟨fun again => ?_, ih⟩
      exact (mem_names_firstOfEach.mp again).1 List.mem_cons_self

theorem firstOfEach_sublist : (firstOfEach taken ts).Sublist ts := by
  induction ts generalizing taken with
  | nil => exact .slnil
  | cons t ts ih =>
    by_cases mem : t.name ∈ taken
    · rw [firstOfEach_cons_of_mem mem]
      exact ih.cons t
    · rw [firstOfEach_cons_of_not_mem mem]
      exact ih.cons_cons t

/-- The task of a name is the first one with the name. -/
theorem find?_firstOfEach {name : Text} (free : name ∉ taken) :
    (firstOfEach taken ts).find? (·.name = name) = ts.find? (·.name = name) := by
  induction ts generalizing taken with
  | nil => rfl
  | cons t ts ih =>
    by_cases here : t.name = name
    · subst here
      rw [firstOfEach_cons_of_not_mem free, List.find?_cons_of_pos (by simp),
        List.find?_cons_of_pos (by simp)]
    · rw [List.find?_cons_of_neg (by simpa using here)]
      by_cases mem : t.name ∈ taken
      · rw [firstOfEach_cons_of_mem mem, ih free]
      · rw [firstOfEach_cons_of_not_mem mem, List.find?_cons_of_neg (by simpa using here), ih]
        rw [List.mem_cons, not_or]
        exact ⟨Ne.symm here, free⟩

end FirstOfEach

/-! ## Taking tasks -/

namespace Collection

/-- The names that are taken are those of the tasks. -/
def Owns (c : Collection) : Prop :=
  ∀ name, name ∈ c.claims ↔ name ∈ c.tasks.toList.map ClassTask.name

theorem owns_empty : empty.Owns := fun name => by simp [empty]

theorem insert_of_mem {c : Collection} {t : ClassTask} (mem : t.name ∈ c.claims) :
    c.insert t = c := by
  rw [insert, if_pos (Std.HashMap.contains_iff_mem.mpr mem)]

theorem insert_of_not_mem {c : Collection} {t : ClassTask} (fresh : t.name ∉ c.claims) :
    c.insert t = ⟨c.tasks.push t, c.claims.insert t.name t.origin.path⟩ := by
  rw [insert, if_neg (mt Std.HashMap.contains_iff_mem.mp fresh)]

theorem mem_claims_insert {c : Collection} {t : ClassTask} {name : Text} :
    name ∈ (c.insert t).claims ↔ name = t.name ∨ name ∈ c.claims := by
  by_cases mem : t.name ∈ c.claims
  · rw [insert_of_mem mem]
    refine ⟨.inr, ?_⟩
    rintro (rfl | here)
    · exact mem
    · exact here
  · rw [insert_of_not_mem mem]
    dsimp only
    rw [Std.HashMap.mem_insert, beq_iff_eq, eq_comm]

theorem Owns.insert {c : Collection} (owns : c.Owns) (t : ClassTask) : (c.insert t).Owns := by
  intro name
  rw [mem_claims_insert, owns]
  by_cases mem : t.name ∈ c.claims
  · rw [insert_of_mem mem]
    refine ⟨?_, .inr⟩
    rintro (rfl | here)
    · exact (owns _).mp mem
    · exact here
  · rw [insert_of_not_mem mem]
    simp [or_comm]

theorem Owns.foldl_insert {c : Collection} (owns : c.Owns) (ts : List ClassTask) :
    (ts.foldl Collection.insert c).Owns := by
  induction ts generalizing c with
  | nil => exact owns
  | cons t ts ih => exact ih (owns.insert t)

/-- Taking tasks adds the first of each name that was not taken. -/
theorem tasks_foldl_insert {c : Collection} {taken : List Text}
    (names : ∀ name, name ∈ c.claims ↔ name ∈ taken) (ts : List ClassTask) :
    (ts.foldl insert c).tasks.toList = c.tasks.toList ++ firstOfEach taken ts := by
  induction ts generalizing c taken with
  | nil => exact (List.append_nil _).symm
  | cons t ts ih =>
    rw [List.foldl_cons]
    by_cases mem : t.name ∈ c.claims
    · rw [insert_of_mem mem, ih names, firstOfEach_cons_of_mem ((names _).mp mem)]
    · have names' : ∀ name, name ∈ (c.insert t).claims ↔ name ∈ t.name :: taken := by
        intro name
        rw [mem_claims_insert, names, List.mem_cons]
      rw [ih names', insert_of_not_mem mem, firstOfEach_cons_of_not_mem (mt (names _).mpr mem)]
      simp

/-- Tasks whose names occurred before can be left out. -/
theorem foldl_insert_firstOfEach {c : Collection} {seen : List Text}
    (claimed : ∀ name ∈ seen, name ∈ c.claims) (ts : List ClassTask) :
    (firstOfEach seen ts).foldl insert c = ts.foldl insert c := by
  induction ts generalizing c seen with
  | nil => rfl
  | cons t ts ih =>
    by_cases mem : t.name ∈ seen
    · rw [firstOfEach_cons_of_mem mem, List.foldl_cons, insert_of_mem (claimed _ mem), ih claimed]
    · rw [firstOfEach_cons_of_not_mem mem, List.foldl_cons, List.foldl_cons]
      refine ih fun name here => mem_claims_insert.mpr ?_
      exact (List.mem_cons.mp here).imp_right (claimed name)

end Collection

/-- The tasks for the classes among entries, those with a repeated name included. -/
def classTasks (path : Text) (contents : ByteArray) (es : List Entry) : List ClassTask :=
  (es.filter fun e => isClassEntry e.record.name).map fun e =>
    ⟨e.record.name, .archived path contents e⟩

/-- An archive keeps the first task of each name. -/
theorem ArchiveTasks.tasks_foldl_insert {a : ArchiveTasks} {taken : List Text}
    (names : ∀ name, name ∈ a.names ↔ name ∈ taken) (ts : List ClassTask) :
    (ts.foldl insert a).tasks.toList = a.tasks.toList ++ firstOfEach taken ts := by
  induction ts generalizing a taken with
  | nil => exact (List.append_nil _).symm
  | cons t ts ih =>
    rw [List.foldl_cons, insert]
    by_cases mem : t.name ∈ a.names
    · rw [if_pos (Std.HashSet.contains_iff_mem.mpr mem), ih (by exact names),
        firstOfEach_cons_of_mem ((names _).mp mem)]
    · have names' : ∀ name, name ∈ a.names.insert t.name ↔ name ∈ t.name :: taken := by
        intro name
        rw [Std.HashSet.mem_insert, names, List.mem_cons, beq_iff_eq, eq_comm]
      rw [if_neg (mt Std.HashSet.contains_iff_mem.mp mem), ih (by exact names'),
        firstOfEach_cons_of_not_mem (mt (names _).mpr mem)]
      simp

theorem ArchiveTasks.tasks_ofEntries (path : Text) (contents : ByteArray) (es : List Entry) :
    (ofEntries path contents es).tasks.toList = firstOfEach [] (classTasks path contents es) := by
  have names : ∀ name, name ∈ (⟨∅, #[], #[]⟩ : ArchiveTasks).names ↔ name ∈ ([] : List Text) := by
    simp
  exact (tasks_foldl_insert names _).trans (List.nil_append _)

/-! ## Names of classes -/

theorem ne_nil_of_endsWith {name : Text} (suffixed : name.endsWith classSuffix) : name ≠ [] := by
  rintro rfl
  exact absurd suffixed (by decide)

theorem baseName_ne_nil {path : Text} (suffixed : path.endsWith classSuffix) :
    path.baseName ≠ [] := by
  obtain ⟨front, rfl⟩ := List.isSuffixOf_iff_suffix.mp suffixed
  have last : classSuffix.reverse = 115 :: classSuffix.reverse.tail := by decide
  rw [Text.baseName, List.reverse_append, last, List.cons_append,
    List.takeWhile_cons_of_pos (by decide), List.reverse_cons]
  exact List.append_ne_nil_of_right_ne_nil _ (List.cons_ne_nil _ _)

/-- A loose class file has a name. -/
theorem entryNameFor_ne_nil {path root name : Text} (suffixed : path.endsWith classSuffix)
    (named : entryNameFor path root = .ok name) : name ≠ [] := by
  unfold entryNameFor at named
  split at named
  · cases named
    exact baseName_ne_nil suffixed
  split at named
  · next below =>
    cases named
    rw [Bool.and_eq_true, decide_eq_true_eq] at below
    exact List.ne_nil_of_length_pos (by rw [List.length_drop]; omega)
  · cases named

/-! ## Sources -/

/-- Where classes come from. -/
structure ClassSource where
  /-- The path of an archive or of a loose class file. -/
  path : Text
  /-- The class root. -/
  root : Text

/-- The source does not fail, and these are the tasks of its classes in their order. -/
inductive Provides (disk : Disk) : ClassSource → List ClassTask → Prop where
  /-- A loose class file is one class, if it is below the class root. -/
  | loose {s : ClassSource} {name : Text} (suffixed : s.path.endsWith classSuffix)
      (named : entryNameFor s.path s.root = .ok name) : Provides disk s [⟨name, .loose s.path⟩]
  /-- An archive has the classes of its directory, if that has no fault anywhere. -/
  | archived {s : ClassSource} {a b : InputArchive} {es : List Entry}
      (archive : ¬s.path.endsWith classSuffix)
      (opened : InputArchive.closed.openFile disk s.path = .ok (.ok (), a))
      (yields : a.Yields es b) (sound : b.fault = none) :
      Provides disk s (classTasks s.path a.view.data es)

/-- Which of the sources do not fail, and all tasks that these provide one after the other. -/
inductive Brought (disk : Disk) : List ClassSource → List Bool → List ClassTask → Prop where
  /-- No source brings nothing. -/
  | nil : Brought disk [] [] []
  /-- A source that does not fail brings what it provides. -/
  | taken {s : ClassSource} {ss : List ClassSource} {answers : List Bool}
      {ts us : List ClassTask} (provides : Provides disk s ts) (rest : Brought disk ss answers us) :
      Brought disk (s :: ss) (true :: answers) (ts ++ us)
  /-- A source that fails brings nothing. -/
  | refused {s : ClassSource} {ss : List ClassSource} {answers : List Bool} {us : List ClassTask}
      (fails : ∀ ts, ¬Provides disk s ts) (rest : Brought disk ss answers us) :
      Brought disk (s :: ss) (false :: answers) us

namespace Brought

variable {disk : Disk} {ss : List ClassSource} {answers : List Bool} {ts : List ClassTask}

theorem exists_brought (disk : Disk) (ss : List ClassSource) :
    ∃ answers ts, Brought disk ss answers ts := by
  induction ss with
  | nil => exact ⟨[], [], .nil⟩
  | cons s ss ih =>
    obtain ⟨answers, us, rest⟩ := ih
    by_cases provides : ∃ ts, Provides disk s ts
    · obtain ⟨ts, provides⟩ := provides
      exact ⟨_, _, .taken provides rest⟩
    · exact ⟨_, _, .refused (not_exists.mp provides) rest⟩

/-- A source that fails can be left out. -/
theorem leaveOut {before after : List ClassSource} {s : ClassSource} {first second : List Bool}
    (brought : Brought disk (before ++ s :: after) (first ++ false :: second) ts)
    (length : first.length = before.length) :
    Brought disk (before ++ after) (first ++ second) ts := by
  induction before generalizing first ts with
  | nil =>
    obtain rfl := List.length_eq_zero_iff.mp length
    cases brought with
    | refused fails rest => exact rest
  | cons s' before ih =>
    cases first with
    | nil => cases length
    | cons answer first =>
      have shorter : first.length = before.length := Nat.succ_inj.mp length
      cases brought with
      | taken provides rest => exact .taken provides (ih rest shorter)
      | refused fails rest => exact .refused fails (ih rest shorter)

/-- What is brought is provided by one of the sources. -/
theorem exists_provides (brought : Brought disk ss answers ts) :
    ∀ t ∈ ts, ∃ s ∈ ss, ∃ us, Provides disk s us ∧ t ∈ us := by
  induction brought with
  | nil => exact List.forall_mem_nil _
  | taken provides rest ih =>
    refine List.forall_mem_append.mpr ⟨fun t mem => ?_, fun t mem => ?_⟩
    · exact ⟨_, List.mem_cons_self, _, provides, mem⟩
    · obtain ⟨s, there, us, found⟩ := ih t mem
      exact ⟨s, List.mem_cons_of_mem _ there, us, found⟩
  | refused fails rest ih =>
    intro t mem
    obtain ⟨s, there, us, found⟩ := ih t mem
    exact ⟨s, List.mem_cons_of_mem _ there, us, found⟩

/-- Of an archive only entries of classes are brought, each under its own name. -/
theorem isClassEntry (brought : Brought disk ss answers ts) :
    ∀ t ∈ ts, ∀ path d e, t.origin = .archived path d e →
      ClassAbi.isClassEntry t.name ∧ t.name = e.record.name := by
  intro t mem path d e origin
  obtain ⟨s, -, us, provides, there⟩ := brought.exists_provides t mem
  cases provides with
  | loose suffixed named =>
    rw [List.mem_singleton.mp there] at origin
    cases origin
  | archived archive opened yields sound =>
    obtain ⟨e', kept, rfl⟩ := List.mem_map.mp there
    cases origin
    exact ⟨(List.mem_filter.mp kept).2, rfl⟩

/-- Every task has a name. -/
theorem name_ne_nil (brought : Brought disk ss answers ts) : ∀ t ∈ ts, t.name ≠ [] := by
  intro t mem
  obtain ⟨s, -, us, provides, there⟩ := brought.exists_provides t mem
  cases provides with
  | loose suffixed named =>
    rw [List.mem_singleton.mp there]
    exact entryNameFor_ne_nil suffixed named
  | archived archive opened yields sound =>
    obtain ⟨e, kept, rfl⟩ := List.mem_map.mp there
    have entry := (List.mem_filter.mp kept).2
    rw [ClassAbi.isClassEntry, Bool.and_eq_true] at entry
    exact ne_nil_of_endsWith entry.1

end Brought

/-! ## Adding sources -/

namespace Collection

variable {c : Collection} {h : Host}

theorem exists_runOn_claim (c : Collection) (t : ClassTask) (h : Host) :
    ∃ h', (c.claim t).runOn h = (.ok (c.insert t), h') ∧ h'.disk = h.disk := by
  unfold claim
  split
  · exact ⟨_, rfl, rfl⟩
  · exact ⟨_, rfl, rfl⟩

theorem exists_runOn_claimAll (c : Collection) (ts : List ClassTask) (h : Host) :
    ∃ h', (c.claimAll ts).runOn h = (.ok (ts.foldl insert c), h') ∧ h'.disk = h.disk := by
  induction ts generalizing c h with
  | nil => exact ⟨h, rfl, rfl⟩
  | cons t ts ih =>
    obtain ⟨h₁, claimed, disk⟩ := c.exists_runOn_claim t h
    obtain ⟨h₂, rest, disk'⟩ := ih (c.insert t) h₁
    exact ⟨h₂, (Action.runOn_bind_of_ok claimed).trans rest, disk'.trans disk⟩

theorem exists_runOn_warnOfRepeats (path : Text) (names : List Text) (h : Host) :
    ∃ h', (warnOfRepeats path names).runOn h = (.ok (), h') ∧ h'.disk = h.disk := by
  induction names generalizing h with
  | nil => exact ⟨h, rfl, rfl⟩
  | cons name names ih =>
    obtain ⟨h', rest, disk⟩ := ih { h with log := h.log.push ⟨.warning, _⟩ }
    exact ⟨h', (Action.runOn_bind_of_ok rfl).trans rest, disk⟩

/-- An archive that can be opened is added if its directory has no fault, and changes nothing
otherwise. -/
theorem exists_runOn_addArchive {path : Text} {a b : InputArchive} {es : List Entry}
    (opened : InputArchive.closed.openFile h.disk path = .ok (.ok (), a)) (yields : a.Yields es b)
    (c : Collection) :
    ∃ h', (c.addArchive path).runOn h = (.ok (match b.fault with
      | some _ => (false, c)
      | none => (true, (classTasks path a.view.data es).foldl insert c)), h') ∧
      h'.disk = h.disk := by
  obtain ⟨d, found, -, named, -, rfl⟩ := InputArchive.openFile_eq_ok opened
  obtain ⟨view, -⟩ := yields.tiles named rfl
  have all := yields.entries_eq named rfl
  unfold addArchive
  rw [Action.runOn_bind_of_ok (Action.runOn_disk h), opened,
    Action.runOn_bind_of_ok (Action.runOn_ofExcept_ok ..)]
  dsimp only
  rw [all, Action.runOn_bind_of_ok (Action.runOn_ofExcept_ok ..)]
  dsimp only
  obtain ⟨h₁, warned, disk⟩ := exists_runOn_warnOfRepeats path
    (ArchiveTasks.ofEntries path b.view.data es).repeats.toList h
  rw [Action.runOn_bind_of_ok warned]
  cases b.fault with
  | some f => exact ⟨_, rfl, disk⟩
  | none =>
    obtain ⟨h₂, claimed, disk'⟩ := c.exists_runOn_claimAll
      (ArchiveTasks.ofEntries path b.view.data es).tasks.toList h₁
    have whole : (ArchiveTasks.ofEntries path b.view.data es).tasks.toList.foldl insert c =
        (classTasks path d es).foldl insert c := by
      rw [ArchiveTasks.tasks_ofEntries, foldl_insert_firstOfEach (List.forall_mem_nil _), view]
      rfl
    rw [whole] at claimed
    dsimp only
    rw [Action.runOn_bind_of_ok claimed]
    exact ⟨_, rfl, disk'.trans disk⟩

/-- A source that does not fail is added. -/
theorem exists_runOn_addSource_of_provides {s : ClassSource} {ts : List ClassTask}
    (provides : Provides h.disk s ts) (c : Collection) :
    ∃ h', (c.addSource s.path s.root).runOn h = (.ok (true, ts.foldl insert c), h') ∧
      h'.disk = h.disk := by
  unfold addSource
  cases provides with
  | loose suffixed named =>
    rw [if_pos suffixed, addClassFile, named]
    obtain ⟨h', claimed, disk⟩ := c.exists_runOn_claim ⟨_, .loose s.path⟩ h
    exact ⟨h', Action.runOn_bind_of_ok claimed, disk⟩
  | archived archive opened yields sound =>
    rw [if_neg archive]
    obtain ⟨h', run, disk⟩ := exists_runOn_addArchive opened yields c
    rw [sound] at run
    exact ⟨h', run, disk⟩

/-- A source that fails changes nothing. -/
theorem exists_runOn_addSource_of_not_provides {s : ClassSource}
    (fails : ∀ ts, ¬Provides h.disk s ts) (c : Collection) :
    ∃ h', (c.addSource s.path s.root).runOn h = (.ok (false, c), h') ∧ h'.disk = h.disk := by
  unfold addSource
  by_cases suffixed : s.path.endsWith classSuffix
  · rw [if_pos suffixed, addClassFile]
    cases named : entryNameFor s.path s.root with
    | ok name => exact absurd (.loose suffixed named) (fails _)
    | error e => exact ⟨_, rfl, rfl⟩
  · rw [if_neg suffixed]
    obtain ⟨⟨_ | ⟨⟨⟩⟩, a⟩, opened⟩ := InputArchive.exists_openFile_closed h.disk s.path
    · unfold addArchive
      rw [Action.runOn_bind_of_ok (Action.runOn_disk h), opened,
        Action.runOn_bind_of_ok (Action.runOn_ofExcept_ok ..)]
      exact ⟨_, rfl, rfl⟩
    · obtain ⟨d, found, -, named, -, rfl⟩ := InputArchive.openFile_eq_ok opened
      obtain ⟨es, b, yields, -⟩ := InputArchive.exists_entries
        (a := ⟨s.path, ⟨some d⟩, none, found.start, found.preamble⟩) named rfl
      obtain ⟨h', run, disk⟩ := exists_runOn_addArchive opened yields c
      cases fault : b.fault with
      | none => exact absurd (.archived suffixed opened yields fault) (fails _)
      | some f =>
        rw [fault] at run
        exact ⟨h', run, disk⟩

/-- Adds sources, and answers for each of them whether it was added. -/
def addEach (c : Collection) : List ClassSource → Action (List Bool × Collection)
  | [] => return ([], c)
  | s :: ss => do
    let (added, c) ← c.addSource s.path s.root
    let (answers, c) ← c.addEach ss
    return (added :: answers, c)

/-- Adding sources takes what they bring. -/
theorem exists_runOn_addEach {ss : List ClassSource} {answers : List Bool} {ts : List ClassTask}
    (brought : Brought h.disk ss answers ts) (c : Collection) :
    ∃ h', (c.addEach ss).runOn h = (.ok (answers, ts.foldl insert c), h') ∧ h'.disk = h.disk := by
  generalize same : h.disk = disk at brought
  induction brought generalizing c h with
  | nil => exact ⟨h, rfl, same⟩
  | taken provides rest ih =>
    subst same
    obtain ⟨h₁, added, disk⟩ := exists_runOn_addSource_of_provides provides c
    obtain ⟨h₂, run, disk'⟩ := ih (h := h₁) _ disk
    refine ⟨h₂, ?_, disk'⟩
    rw [List.foldl_append]
    exact (Action.runOn_bind_of_ok added).trans (Action.runOn_bind_of_ok run)
  | refused fails rest ih =>
    subst same
    obtain ⟨h₁, added, disk⟩ := exists_runOn_addSource_of_not_provides fails c
    obtain ⟨h₂, run, disk'⟩ := ih (h := h₁) c disk
    exact ⟨h₂, (Action.runOn_bind_of_ok added).trans (Action.runOn_bind_of_ok run), disk'⟩

/-- The tasks of sources that were added are the first of each name. -/
theorem addEach_eq_ok {ss : List ClassSource} {answers : List Bool} {c : Collection} {h h' : Host}
    (added : (empty.addEach ss).runOn h = (.ok (answers, c), h')) :
    h'.disk = h.disk ∧ ∃ ts, Brought h.disk ss answers ts ∧ c = ts.foldl insert empty ∧
      c.tasks.toList = firstOfEach [] ts := by
  obtain ⟨answers', ts, brought⟩ := Brought.exists_brought h.disk ss
  obtain ⟨h'', run, disk⟩ := exists_runOn_addEach brought empty
  rw [run] at added
  cases added
  have names : ∀ name, name ∈ empty.claims ↔ name ∈ ([] : List Text) := by simp [empty]
  exact ⟨disk, ts, brought, rfl, tasks_foldl_insert names ts⟩

/-- After some sources were added, the tasks are the first of each name among all that the sources
provide that did not fail, and their names are those that are taken.  A source that failed can be
left out: the other answers and the collection are the same. -/
theorem addEach_spec (ss : List ClassSource) (h : Host) :
    ∃ answers ts c h', (empty.addEach ss).runOn h = (.ok (answers, c), h') ∧ h'.disk = h.disk ∧
      Brought h.disk ss answers ts ∧
      c.tasks.toList = firstOfEach [] ts ∧
      (c.tasks.toList.map ClassTask.name).Nodup ∧
      (∀ name, name ∈ c.claims ↔ name ∈ c.tasks.toList.map ClassTask.name) ∧
      (∀ name, c.tasks.toList.find? (·.name = name) = ts.find? (·.name = name)) ∧
      (∀ t ∈ c.tasks.toList, ∀ path d e, t.origin = .archived path d e →
        isClassEntry t.name ∧ t.name = e.record.name) ∧
      ∀ before s after first second, ss = before ++ s :: after →
        answers = first ++ false :: second → first.length = before.length →
        ∃ h'', (empty.addEach (before ++ after)).runOn h = (.ok (first ++ second, c), h'') := by
  obtain ⟨answers, ts, brought⟩ := Brought.exists_brought h.disk ss
  obtain ⟨h', run, disk⟩ := exists_runOn_addEach brought empty
  have names : ∀ name, name ∈ empty.claims ↔ name ∈ ([] : List Text) := by simp [empty]
  have tasks : (ts.foldl insert empty).tasks.toList = firstOfEach [] ts :=
    tasks_foldl_insert names ts
  refine ⟨answers, ts, ts.foldl insert empty, h', run, disk, brought, tasks, ?_,
    owns_empty.foldl_insert ts, ?_, ?_, ?_⟩
  · rw [tasks]
    exact nodup_names_firstOfEach
  · intro name
    rw [tasks]
    exact find?_firstOfEach List.not_mem_nil
  · intro t mem
    rw [tasks] at mem
    exact brought.isClassEntry t (firstOfEach_sublist.subset mem)
  · rintro before s after first second rfl rfl length
    obtain ⟨h'', run', -⟩ := exists_runOn_addEach (brought.leaveOut length) empty
    exact ⟨h'', run'⟩

end Collection

end ClassAbi
