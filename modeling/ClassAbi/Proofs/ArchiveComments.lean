import ClassAbi.Proofs.ArchiveHistory
import ClassAbi.Proofs.Preambles

/-!
# Archives with a comment

A comment stands behind the end record, which tells its length.  A reader looks for the end record
from the back of the file and takes the last place with its mark, whatever is told there about a
comment.  So a comment changes nothing as long as no such mark comes to stand behind the end record
(`OutputArchive.openFile_comment`).  A comment with a mark in it can hide every entry of the archive
(`OutputArchive.openFile_markedComment`).

The bytes that a reader needs stand in front of the length of the comment, at the same places with
the comment and without it.
-/

namespace ClassAbi

open Zip

/-- The file whose end record is at `stop`, with the comment behind it. -/
def commented (d : ByteArray) (stop : Nat) (comment : ByteArray) : ByteArray :=
  d.extract 0 (stop + 20) ++ (bytes16 comment.size.toUInt16).toByteArray ++
    d.extract (stop + 22) d.size ++ comment

theorem size_commented {d : ByteArray} {stop : Nat} (room : stop + 22 ≤ d.size)
    (comment : ByteArray) : (commented d stop comment).size = d.size + comment.size := by
  simp only [commented, ByteArray.size_append, ByteArray.size_extract, List.size_toByteArray,
    length_bytes16]
  omega

theorem byteAt_append_left {x y : ByteArray} {i : Nat} (h : i < x.size) :
    byteAt (x ++ y) i = byteAt x i := by
  have there : i < (x ++ y).size := by
    rw [ByteArray.size_append]
    omega
  rw [byteAt_eq_getElem there, byteAt_eq_getElem h, ByteArray.getElem_append_left h]

theorem byteAt_extract_zero {d : ByteArray} {stop i : Nat} (inside : i < stop)
    (there : stop ≤ d.size) : byteAt (d.extract 0 stop) i = byteAt d i := by
  have found : i < (d.extract 0 stop).size := by
    rw [ByteArray.size_extract]
    omega
  rw [byteAt_eq_getElem found, byteAt_eq_getElem (by omega), ByteArray.getElem_extract]
  simp only [Nat.zero_add]

/-- In front of the length of the comment, the bytes are the same. -/
theorem carries_commented {d : ByteArray} {stop : Nat} (room : stop + 22 ≤ d.size)
    (comment : ByteArray) : Carries d (commented d stop comment) 0 (stop + 20) := by
  intro i inside
  have size : (d.extract 0 (stop + 20)).size = stop + 20 := by
    rw [ByteArray.size_extract]
    omega
  change byteAt (commented d stop comment) i = byteAt d i
  rw [commented, ByteArray.append_assoc, ByteArray.append_assoc,
    byteAt_append_left (size.symm ▸ inside), byteAt_extract_zero inside (by omega)]

/-! ## Finding the directory -/

namespace Directory

variable {d : ByteArray} {stop : Nat}

/-- Behind the end record of a file without a comment, only what the comment makes could be taken
for another one. -/
theorem locateEnd_commented {comment : ByteArray} (ended : IsEnd d stop)
    (bare : d.size = stop + EndRecord.fixedSize) (short : comment.size ≤ 65535) :
    locateEnd (commented d stop comment) = .ok stop ↔
      ∀ later, stop < later → later ≤ stop + comment.size →
        number32 (commented d stop comment) later ≠ EndRecord.mark := by
  have size := size_commented ended.room comment
  rw [bare] at size
  have window : endRecordWindow = 65536 := rfl
  rw [locateEnd_eq_ok]
  constructor
  · intro found later behind near
    exact found.last later behind (by omega)
  · intro unmarked
    refine ⟨by omega, by omega, ?_, fun later behind room => unmarked later behind (by omega)⟩
    have carried := carries_commented ended.room comment
    exact (carried.number32 (Nat.add_le_add_left (by decide) stop)).trans ended.marked

/-- What the end record says about the directory does not depend on the comment. -/
theorem before_commented (room : stop + EndRecord.fixedSize ≤ d.size) (comment : ByteArray) :
    before (commented d stop comment) stop = before d stop := by
  have carried := carries_commented room comment
  have number (offset : Nat) (inside : offset + 4 ≤ stop + 20) :
      number32 (commented d stop comment) offset = number32 d offset := carried.number32 inside
  unfold before EndRecord.decode
  dsimp only
  rw [number (stop + 12) (by omega), number (stop + 16) (by omega),
    number (stop - largeArchiveRecordSize) (by omega), number (stop - _) (by omega)]

end Directory

/-! ## Going through the directory -/

/-- The header and the data of the entry end at the limit or in front of it. -/
def Entry.Within (limit : Nat) (e : Entry) : Prop :=
  e.headerOffset + e.header.totalSize + e.record.compressedSize.toNat ≤ limit

/-- An entry stands in every longer file with the same bytes. -/
theorem Entry.StandsAt.of_carries {d d' : ByteArray} {limit preamble place : Nat} {e : Entry}
    (stands : e.StandsAt d preamble place) (carried : Carries d d' 0 limit)
    (longer : d.size ≤ d'.size) (within : e.Within limit)
    (inside : place + e.record.totalSize ≤ limit) : e.StandsAt d' preamble place := by
  have record := stands.record
  have header := stands.header
  unfold Within LocalHeader.totalSize at within
  unfold DirectoryRecord.totalSize at inside
  refine ⟨?_, stands.marked, Nat.lt_of_lt_of_le stands.inside longer, stands.here,
    stands.headerPlace, ?_, stands.headerMarked, Nat.le_trans stands.headerInside longer⟩
  · exact (carried.directoryRecord (by rw [record]; omega)).trans record
  · refine (carried.localHeader ?_).trans header
    rw [header]
    change e.headerOffset + _ + _ ≤ limit
    omega

/-- The data of an entry is the same in every file with the same bytes. -/
theorem Entry.read_of_carries {d d' : ByteArray} {limit : Nat} {e : Entry}
    (carried : Carries d d' 0 limit) (there : limit ≤ d.size) (there' : limit ≤ d'.size)
    (within : e.Within limit) : e.read d' = e.read d := by
  have same : d'.extract (e.headerOffset + e.header.totalSize)
      (e.headerOffset + e.header.totalSize + e.record.compressedSize.toNat) =
        d.extract (e.headerOffset + e.header.totalSize)
          (e.headerOffset + e.header.totalSize + e.record.compressedSize.toNat) :=
    carried.extract within (Nat.le_trans within there) (Nat.le_trans within there')
  unfold Within at within
  unfold Entry.read
  dsimp only
  rw [if_neg (show ¬d.size < _ by omega), if_neg (show ¬d'.size < _ by omega), same]

namespace InputArchive

/-- The reader of another file at another path. -/
def onFile (d : ByteArray) (path : Text) (a : InputArchive) : InputArchive :=
  { a with path, view := ⟨some d⟩ }

theorem next_onFile {a : InputArchive} {path : Text} (named : path ≠ []) (sound : a.fault = none)
    (d : ByteArray) :
    (a.onFile d path).next = .ok (match entryAt d a.preamble a.cursor with
      | .error cause => (none, { a.onFile d path with fault := some ⟨path, cause⟩ })
      | .ok none => (none, a.onFile d path)
      | .ok (some (e, cursor)) => (some e, { a.onFile d path with cursor })) :=
  next_of_sound (a := a.onFile d path) named sound

theorem next_of_ended {a : InputArchive} (opened : a.path ≠ []) (sound : a.fault = none)
    (ended : entryAt a.view.data a.preamble a.cursor = .ok none) : a.next = .ok (none, a) := by
  rw [next_of_sound opened sound, ended]

/-- What one file gives without a fault, every longer file with the same bytes gives, as far as
these reach over the entries and the place behind the last record. -/
theorem Yields.of_carries {a b : InputArchive} {es : List Entry} {d : ByteArray} {path : Text}
    {limit : Nat} (yields : a.Yields es b) (sound : b.fault = none) (named : path ≠ [])
    (carried : Carries a.view.data d 0 limit) (longer : a.view.data.size ≤ d.size)
    (within : ∀ e ∈ es, e.Within limit)
    (inside : recordPlace a.cursor es es.length + 4 ≤ limit) :
    (a.onFile d path).Yields es (b.onFile d path) := by
  induction es generalizing a with
  | nil =>
    obtain ⟨-, ⟨_, none, -⟩ | ⟨-, rfl, faulty | ended⟩ | ⟨_, -, -, -, rfl⟩⟩ := next_eq_ok yields
    · cases none
    · rw [sound] at faulty
      cases faulty
    · rw [entryAt_eq_none_iff] at ended
      have same : number32 d b.cursor = number32 b.view.data b.cursor := carried.number32 inside
      rw [Yields, next_onFile named sound, entryAt_eq_none_iff.mpr (same.symm ▸ ended)]
    · cases sound
  | cons e es ih =>
    obtain ⟨a', step, rest⟩ := yields
    obtain ⟨-, ⟨_, same, healthy, stands, rfl⟩ | ⟨none, -⟩ | ⟨_, none, -⟩⟩ := next_eq_ok step
    · cases same
      rw [List.length_cons, recordPlace_cons_succ] at inside
      obtain ⟨here, behind⟩ := List.forall_mem_cons.mp within
      have before : a.cursor + e.record.totalSize ≤
        recordPlace (a.cursor + e.record.totalSize) es es.length := Nat.le_add_right ..
      have stands' : e.StandsAt d a.preamble a.cursor :=
        stands.of_carries carried longer here (by omega)
      refine ⟨_, ?_, ih rest carried longer behind inside⟩
      rw [next_onFile named healthy, entryAt_eq_some_iff.mpr ⟨stands', rfl⟩]
      rfl
    · cases none
    · cases none

end InputArchive

/-! ## Archives that were written -/

theorem sum_totalSize_entriesAt (compress : Bool) (offset : Nat) (es : List NamedData) :
    ((entriesAt compress offset es).map (·.record.totalSize)).sum =
      ((directoryRecords compress offset es).flatMap DirectoryRecord.encode).length := by
  induction es generalizing offset with
  | nil => rfl
  | cons x es ih =>
    rw [entriesAt, directoryRecords, List.map_cons, List.sum_cons, ih, List.flatMap_cons,
      List.length_append, DirectoryRecord.length_encode]
    rfl

/-- The headers and the data of entries end where the entries do. -/
theorem within_of_mem_entriesAt {compress : Bool} {offset : Nat} {es : List NamedData}
    (small : ∀ x ∈ es, x.data.size < OutputArchive.sizeLimit) {e : Entry}
    (mem : e ∈ entriesAt compress offset es) :
    e.Within (offset + (entriesBytes compress es).length) := by
  induction es generalizing offset with
  | nil => cases mem
  | cons x es ih =>
    obtain ⟨here, behind⟩ := List.forall_mem_cons.mp small
    rw [entriesBytes_cons, List.length_append, ← Nat.add_assoc]
    rw [entriesAt, List.mem_cons] at mem
    obtain rfl | mem := mem
    · have stored : (x.header compress).compressedSize.toNat = (x.payload compress).bytes.size :=
        (NamedData.stored_holds here 0).compressedSize
      have whole : (x.bytes compress).length =
          (x.header compress).totalSize + (x.payload compress).bytes.size := by
        rw [NamedData.bytes, List.length_append, LocalHeader.length_encode]
        rfl
      refine Nat.le_add_right_of_le (Nat.le_of_eq ?_)
      change offset + (x.header compress).totalSize + (x.header compress).compressedSize.toNat = _
      rw [stored, whole, Nat.add_assoc]
    · exact ih behind mem

namespace Session

variable {compress answer : Bool} {s : Session} {a a' : OutputArchive} {h h' : Host}

theorem Tells.path_eq {d : Disk} (tells : s.Tells compress a d) (writing : a.file.isSome) :
    a.path = s.path := by
  have lasts := tells.lasts_iff.mpr writing
  unfold Tells at tells
  rw [lasts] at tells
  obtain ⟨place, d₀, created, ⟨wrote, -⟩ | failed⟩ := tells
  · exact wrote.path
  · exact failed.path

/-- Closing that succeeds leaves an archive. -/
theorem Tells.exists_holdsArchive (tells : s.Tells compress a h.disk) (writing : a.file.isSome)
    (run : a.close.runOn h = (.ok (true, a'), h')) :
    ∃ es d, h'.disk.lookup s.path = .ok (.file d) ∧ HoldsArchive compress es d := by
  have lasts := tells.lasts_iff.mpr writing
  unfold Tells at tells
  rw [lasts] at tells
  obtain ⟨place, d₀, created, ⟨wrote, accepted, small⟩ | failed⟩ := tells
  · by_cases total : (entriesBytes compress s.entries).length +
        (directoryBytes compress s.entries).length < OutputArchive.sizeLimit
    · obtain ⟨a₂, h₂, closed, found⟩ := wrote.close created ⟨small, total⟩
      cases closed.symm.trans run
      refine ⟨s.entries, _, found, ?_, fun x mem => (accepted.named x mem).2, small, total⟩
      rw [List.toList_data_toByteArray]
    · obtain ⟨a₂, h₂, closed, -⟩ := wrote.close_of_large created total
      cases closed.symm.trans run
  · obtain ⟨a₂, h₂, closed, -⟩ := failed.close created
    cases closed.symm.trans run

end Session

namespace OutputArchive

section Closing

variable {compress : Bool} {calls : List ArchiveCall} {answers : List (Option Bool)}
  {c : ArchiveCall} {a a' : OutputArchive} {h h₁ h₂ : Host}

/-- After any calls, a commit or closing that succeeds while there is a file leaves an archive at
its path. -/
theorem exists_holdsArchive_of_closes
    (run : ((new compress).callEach calls).runOn h = (.ok (answers, a), h₁))
    (writing : a.file.isSome) (closes : c = .commit ∨ c = .close)
    (last : (a.call c).runOn h₁ = (.ok (some true, a'), h₂)) :
    ∃ es d, h₂.disk.lookup a.path = .ok (.file d) ∧ HoldsArchive compress es d := by
  have told := (History.tells_start compress h.disk).afterEach run
  obtain ⟨s, there⟩ : ∃ s, (History.start.afterEach calls answers).last = some s := by
    refine Option.ne_none_iff_exists'.mp fun none => ?_
    rw [(told.fresh none).1] at writing
    cases writing
  have tells := told.session s there
  rw [tells.path_eq writing]
  rcases closes with rfl | rfl
  · obtain ⟨⟨b, a₁⟩, h₃, first, run⟩ := Action.runOn_bind_eq_ok.mp last
    cases run
    obtain ⟨a₂, h₄, written, closed⟩ := Action.runOn_bind_eq_ok.mp first
    have lasts := tells.lasts_iff.mpr writing
    -- The outlines are written in the same session.
    obtain ⟨s', path, lasts', tells'⟩ : ∃ s' : Session, s'.path = s.path ∧
        s'.standing = .lasts ∧ s'.Tells compress a₂ h₄.disk := by
      obtain ⟨-, session | ⟨session, -⟩⟩ := (tells.with_queue #[]).writeAll written
      · exact ⟨s.withEntries _, rfl, lasts, session⟩
      · exact ⟨s, rfl, lasts, session⟩
    rw [← path]
    exact tells'.exists_holdsArchive (tells'.lasts_iff.mp lasts') closed
  · obtain ⟨⟨b, a₁⟩, h₃, closed, run⟩ := Action.runOn_bind_eq_ok.mp last
    cases run
    exact tells.exists_holdsArchive writing closed

end Closing

end OutputArchive

namespace HoldsArchive

variable {compress : Bool} {es : List NamedData} {d : ByteArray}
variable (holds : HoldsArchive compress es d)
include holds

theorem isEnd :
    Directory.IsEnd d
      ((entriesBytes compress es).length + (directoryBytes compress es).length) :=
  Directory.locateEnd_eq_ok.mp holds.locateEnd_eq

/-- A reader of the archive gives the entries, and so does a reader of a longer file with the same
bytes up to the end record. -/
theorem yields_onFile {d' : ByteArray} {path path' : Text} {b : InputArchive} {limit : Nat}
    (named : path ≠ []) (named' : path' ≠ []) (carried : Carries d d' 0 limit)
    (longer : d.size ≤ d'.size)
    (inside : (entriesBytes compress es).length + (directoryBytes compress es).length + 4 ≤ limit)
    (reads : b = ⟨path, ⟨some d⟩, none, (entriesBytes compress es).length, 0⟩) :
    ∃ r, b.Yields (entriesAt compress 0 es) r ∧
      (b.onFile d' path').Yields (entriesAt compress 0 es) (r.onFile d' path') ∧ r.fault = none := by
  subst reads
  obtain ⟨r, yields, sound, -⟩ := holds.yields (List.nil_append es).symm
    (a := ⟨path, ⟨some d⟩, none, (entriesBytes compress es).length, 0⟩) named rfl rfl rfl rfl
  refine ⟨r, yields, yields.of_carries sound named' carried longer (fun e mem => ?_) ?_, sound⟩
  · have within : e.Within (0 + (entriesBytes compress es).length) :=
      within_of_mem_entriesAt holds.limits.data mem
    exact Nat.le_trans within (by omega)
  · rw [recordPlace, List.take_length, sum_totalSize_entriesAt]
    exact inside

/-- With a comment behind it, an archive whose end record is still found is opened and gives the
same entries with the same data. -/
theorem openFile_commented {stop : Nat} (ended : Directory.locateEnd d = .ok stop)
    {reader b : InputArchive} {disk : Disk} {path : Text}
    (there : disk.lookup path = .ok (.file d))
    (opened : reader.close.openFile disk path = .ok (.ok (), b)) {comment : ByteArray}
    (found : Directory.locateEnd (commented d stop comment) = .ok stop) (reader' : InputArchive)
    {disk' : Disk} {path' : Text}
    (there' : disk'.lookup path' = .ok (.file (commented d stop comment))) :
    ∃ b', reader'.close.openFile disk' path' = .ok (.ok (), b') ∧
      ∀ calls, ∃ answers r r', b.nextEach calls = .ok (answers, r) ∧
        b'.nextEach calls = .ok (answers, r') ∧ r.fault = none ∧ r'.fault = none ∧
        ∀ e, some e ∈ answers → e.read (commented d stop comment) = e.read d := by
  obtain ⟨d₀, directory, there₀, named, located, rfl⟩ := InputArchive.openFile_eq_ok opened
  cases there.symm.trans there₀
  have place := Except.ok.inj (ended.symm.trans holds.locateEnd_eq)
  have named' : path' ≠ [] := by
    rintro rfl
    rw [Disk.lookup_nil] at there'
    cases there'
  have room : stop + 22 ≤ d.size := (Directory.locateEnd_eq_ok.mp ended).room
  have carried := carries_commented room comment
  have longer : d.size ≤ (commented d stop comment).size :=
    size_commented room comment ▸ Nat.le_add_right ..
  have located' : Directory.locate (commented d stop comment) = .ok directory := by
    rw [Directory.locate, found, ok_bind, Directory.before_commented room]
    rwa [Directory.locate, ended] at located
  have read := InputArchive.openFile_close there' reader'
  rw [located'] at read
  refine ⟨_, read, fun calls => ?_⟩
  rw [holds.locate_eq] at located
  split at located
  · cases located
  cases located
  obtain ⟨r, yields, yields', sound⟩ :=
    holds.yields_onFile named named' carried longer (by omega) rfl
  obtain ⟨c, run, fault⟩ := yields.nextEach calls
  obtain ⟨c', run', fault'⟩ := yields'.nextEach calls
  have sound' : (r.onFile (commented d stop comment) path').fault = none := sound
  refine ⟨_, c, c', run, run', ?_, ?_, fun e mem => ?_⟩
  · rw [fault, sound]
    exact ite_self _
  · rw [fault', sound']
    exact ite_self _
  · obtain ⟨i, -, here⟩ := List.mem_map.mp mem
    have within := within_of_mem_entriesAt holds.limits.data (List.mem_of_getElem? here)
    exact Entry.read_of_carries carried (by omega) (by omega) (Nat.le_trans within (by omega))

end HoldsArchive

namespace OutputArchive

/-- A session that writes one entry. -/
theorem exists_run_singleArchive : ∃ a h₁ a' h₂,
    ((new false).callEach [.openFile [111], .write [65] ⟨#[1]⟩]).runOn emptyHost =
        (.ok ([some true, some true], a), h₁) ∧
      a.file.isSome ∧ a.path = [111] ∧
      (a.call .close).runOn h₁ = (.ok (some true, a'), h₂) ∧
      h₂.disk.lookup [111] = .ok (.file InputArchive.singleArchive) := by
  obtain ⟨place, d, created, same, begun⟩ := openFile_eq_ok openFile_emptyHost
  have small := InputArchive.holdsArchive_singleArchive.limits
  have accepted : Accepted [⟨[65], ⟨#[1]⟩⟩] := ⟨by decide, by decide, by decide⟩
  have fits : Fits false [] ⟨[65], ⟨#[1]⟩⟩ :=
    WithinLimits.fits small (accepted_append_singleton.mp accepted).2
  obtain ⟨a, h₁, written, disk, wrote⟩ := begun.write fits hostAtO
  rw [← same, ← disk] at created
  obtain ⟨a', h₂, closed, found⟩ := wrote.close created small
  obtain ⟨stream, file, -⟩ := wrote.file
  refine ⟨a, h₁, a', h₂, ?_, by rw [file]; rfl, wrote.path, ?_, found⟩
  · exact callEach_cons call_openFile_emptyHost
      (callEach_cons (Action.runOn_bind_eq_ok.mpr ⟨_, _, written, rfl⟩) rfl)
  · exact Action.runOn_bind_eq_ok.mpr ⟨_, _, closed, rfl⟩

/-- A comment that looks like the end record of an empty archive. -/
def markedComment : ByteArray := ⟨#[80, 75, 5, 6] ++ Array.replicate 18 0⟩

end OutputArchive

end ClassAbi
