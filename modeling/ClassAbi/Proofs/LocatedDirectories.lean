import ClassAbi.Proofs.DirectoryWalk

/-!
# Where a directory is found

The end record is the last thing in the file that has the mark of one, within a window at the
end of the file (`Directory.locateEnd_eq_ok`).  The directory stands in front of it, and what the
end record says about the directory has to agree with that (`Directory.before_eq_ok`).
-/

namespace ClassAbi

open Zip

/-- The last of the places that has the mark is found. -/
theorem findEndRecord_eq_some {d : ByteArray} {low count place : Nat} :
    findEndRecord d low count = some place ↔
      low ≤ place ∧ place ≤ low + count ∧ number32 d place = EndRecord.mark ∧
        ∀ later, place < later → later ≤ low + count → number32 d later ≠ EndRecord.mark := by
  induction count with
  | zero =>
    rw [findEndRecord]
    split
    · next marked =>
      have marked := eq_of_beq marked
      constructor
      · rintro ⟨⟩
        exact ⟨Nat.le_refl low, Nat.le_refl low, marked, fun later above below => by omega⟩
      · rintro ⟨above, below, -, -⟩
        exact congrArg some (Nat.le_antisymm above below)
    · next other =>
      constructor
      · intro found
        cases found
      · rintro ⟨above, below, marked, -⟩
        obtain rfl : low = place := Nat.le_antisymm above below
        exact absurd (beq_iff_eq.mpr marked) other
  | succ count ih =>
    rw [findEndRecord]
    split
    · next marked =>
      have marked := eq_of_beq marked
      constructor
      · rintro ⟨⟩
        exact ⟨by omega, Nat.le_refl _, marked, fun later above below => by omega⟩
      · rintro ⟨-, below, -, last⟩
        by_contra other
        have lower : place ≠ low + (count + 1) := fun same => other (congrArg some same.symm)
        exact last _ (by omega) (Nat.le_refl _) marked
    · next other =>
      rw [ih]
      refine and_congr_right fun above => ⟨?_, ?_⟩
      · rintro ⟨below, marked, last⟩
        refine ⟨by omega, marked, fun later behind bound => ?_⟩
        obtain rfl | inner : later = low + (count + 1) ∨ later ≤ low + count := by omega
        · exact fun same => other (beq_iff_eq.mpr same)
        · exact last later behind inner
      · rintro ⟨below, marked, last⟩
        have inner : place ≠ low + (count + 1) := fun same =>
          other (beq_iff_eq.mpr (same ▸ marked))
        exact ⟨by omega, marked, fun later behind bound => last later behind (by omega)⟩

namespace Directory

/-- The place is the last one with the mark of an end record and room for one, and the end of the
file is near. -/
structure IsEnd (d : ByteArray) (stop : Nat) : Prop where
  room : stop + EndRecord.fixedSize ≤ d.size
  near : d.size ≤ stop + EndRecord.fixedSize + endRecordWindow
  marked : number32 d stop = EndRecord.mark
  last : ∀ later, stop < later → later + EndRecord.fixedSize ≤ d.size →
    number32 d later ≠ EndRecord.mark

variable {d : ByteArray} {stop : Nat} {found : Directory}

theorem findEndRecord_eq_some_iff_isEnd (long : EndRecord.fixedSize ≤ d.size) :
    findEndRecord d (d.size - EndRecord.fixedSize - endRecordWindow)
      (min (d.size - EndRecord.fixedSize) endRecordWindow) = some stop ↔ IsEnd d stop := by
  have window : d.size - EndRecord.fixedSize - endRecordWindow +
      min (d.size - EndRecord.fixedSize) endRecordWindow = d.size - EndRecord.fixedSize := by
    omega
  rw [findEndRecord_eq_some, window]
  constructor
  · rintro ⟨above, below, marked, last⟩
    exact ⟨by omega, by omega, marked, fun later behind room => last later behind (by omega)⟩
  · rintro ⟨room, near, marked, last⟩
    exact ⟨by omega, by omega, marked, fun later behind bound => last later behind (by omega)⟩

theorem locateEnd_eq_ok : locateEnd d = .ok stop ↔ IsEnd d stop := by
  unfold locateEnd
  split
  · next short => exact ⟨nofun, fun ended => absurd ended.room (by omega)⟩
  · next long =>
    rw [← findEndRecord_eq_some_iff_isEnd (Nat.not_lt.mp long)]
    dsimp only
    split
    · next place located => rw [located, Except.ok.injEq, Option.some.injEq]
    · next none => exact ⟨nofun, fun located => nomatch none.symm.trans located⟩

/-- The directory ends where the end record begins.  It is found if the archive is not a large
one, if the directory does not begin in front of the file or of the place that the end record
names, and if a directory that is not empty begins with a record. -/
theorem before_eq_ok :
    before d stop = .ok found ↔
      ¬(largeArchiveRecordSize ≤ stop ∧
        number32 d (stop - largeArchiveRecordSize) = largeArchiveMark) ∧
      (EndRecord.decode d stop).directoryOffset ≠ elsewhere ∧
      (EndRecord.decode d stop).directorySize ≠ elsewhere ∧
      found.start + (EndRecord.decode d stop).directorySize.toNat = stop ∧
      found.preamble + (EndRecord.decode d stop).directoryOffset.toNat = found.start ∧
      ((EndRecord.decode d stop).directorySize ≠ 0 →
        number32 d found.start = DirectoryRecord.mark) := by
  unfold before
  dsimp only
  generalize EndRecord.decode d stop = e
  split
  · next large =>
    refine ⟨nofun, fun ⟨usual, offset, size, _⟩ => ?_⟩
    obtain marked | there | there := large
    exacts [absurd marked usual, absurd there offset, absurd there size]
  next small =>
    rw [not_or, not_or] at small
    split
    · next long => exact ⟨nofun, fun ⟨_, _, _, ends, _⟩ => by omega⟩
    next fits =>
      split
      · next misplaced => exact ⟨nofun, fun ⟨_, _, _, ends, place, _⟩ => by omega⟩
      next placed =>
        split
        · next missing =>
          refine ⟨nofun, fun ⟨_, _, _, ends, _, marked⟩ => absurd (marked missing.1) ?_⟩
          rw [show found.start = stop - e.directorySize.toNat by omega]
          exact missing.2
        next marked =>
          constructor
          · rintro ⟨⟩
            refine ⟨small.1, small.2.1, small.2.2, by dsimp only; omega, by dsimp only; omega, ?_⟩
            exact fun nonempty => by_contra fun other => marked ⟨nonempty, other⟩
          · rintro ⟨-, -, -, ends, place, -⟩
            obtain ⟨start, preamble⟩ := found
            dsimp only at ends place
            congr 2
            · omega
            · omega

end Directory

end ClassAbi
