import ClassAbi.Proofs.CarriedContents

/-!
# Files that are cut off, and files with more behind them

A class file is gone through once before anything is delivered.  So cutting bytes
off its end leaves a file of which nothing is delivered, and bytes behind its end
are never looked at (`readClass_of_cut`).

`CutAt` compares a scan of a whole file with the same scan of the part in front.
The two agree as long as the scan stays in that part, and where it would leave it
the part is found to be truncated.  The relation is kept when scans are chained,
so each scan has it because its steps do.

What stands at a noted place is read behind the scan.  When the file goes on it stands
there as before.
-/

namespace ClassAbi

/-! ## Bytes of a part -/

section Append

variable {cut rest : ByteArray} {offset : Nat} {bs : Text}

theorem toList_append (cut rest : ByteArray) :
    (cut ++ rest).data.toList = cut.data.toList ++ rest.data.toList := by
  rw [ByteArray.data_append, Array.toList_append]

theorem size_append (cut rest : ByteArray) : (cut ++ rest).size = cut.size + rest.size :=
  ByteArray.size_append

/-- What stands in a file still stands there when the file goes on. -/
theorem HoldsAt.extend (h : HoldsAt cut offset bs) (rest : ByteArray) :
    HoldsAt (cut ++ rest) offset bs := by
  obtain ⟨inside, h⟩ := h
  refine ⟨?_, ?_⟩
  · rw [size_append]
    omega
  · rw [toList_append, List.drop_append_of_le_length inside]
    exact h.trans (List.prefix_append _ _)

/-- What stands in a file stands in its part if it does not reach beyond it. -/
theorem HoldsAt.restrict (h : HoldsAt (cut ++ rest) offset bs)
    (le : offset + bs.length ≤ cut.size) : HoldsAt cut offset bs := by
  have inside : offset ≤ cut.data.toList.length := by
    rw [Array.length_toList]
    exact Nat.le_trans (Nat.le_add_right _ _) le
  refine ⟨inside, List.prefix_of_prefix_length_le h.2 ?_ ?_⟩
  · rw [toList_append, List.drop_append_of_le_length inside]
    exact List.prefix_append _ _
  · rw [List.length_drop, Array.length_toList]
    exact Nat.le_sub_of_add_le (by rwa [Nat.add_comm])

end Append

/-! ## Scans of a part -/

/-- The file ended too early. -/
def IsTruncated {α : Type} (r : Except ReadError α) : Prop :=
  ∃ needed offset available, r = .error (.truncated needed offset available)

theorem IsTruncated.bind {α β : Type} {r : Except ReadError α} (h : IsTruncated r)
    (f : α → Except ReadError β) : IsTruncated (r >>= f) := by
  obtain ⟨needed, offset, available, rfl⟩ := h
  exact ⟨needed, offset, available, rfl⟩

/-- How a scan from `offset` on of a whole file compares with the same scan of its first
`size` bytes. -/
structure CutAt {α : Type} (size offset : Nat) (whole cut : Except ReadError (α × Nat)) :
    Prop where
  forward : ∀ {a stop}, whole = .ok (a, stop) → offset ≤ stop
  kept : offset ≤ size → ∀ {a stop}, whole = .ok (a, stop) → stop ≤ size → cut = .ok (a, stop)
  truncated : offset ≤ size → ∀ {a stop}, whole = .ok (a, stop) → size < stop → IsTruncated cut
  continued : offset ≤ size → ∀ {a stop}, cut = .ok (a, stop) → whole = .ok (a, stop) ∧ stop ≤ size

namespace CutAt

variable {α β : Type} {size offset : Nat}

theorem pure (a : α) : CutAt size offset (.ok (a, offset)) (.ok (a, offset)) where
  forward := by
    intro _ _ h
    cases h
    exact Nat.le_refl _
  kept _ _ _ h _ := h
  truncated inside _ _ h beyond := by
    cases h
    omega
  continued inside _ _ h := by
    cases h
    exact ⟨rfl, inside⟩

theorem error (e : ReadError) :
    CutAt size offset (.error e : Except ReadError (α × Nat)) (.error e) where
  forward h := by cases h
  kept _ _ _ h := by cases h
  truncated _ _ _ h := by cases h
  continued _ _ _ h := by cases h

/-- Chained scans are cut where one of them is. -/
theorem bind {whole cut : Except ReadError (α × Nat)}
    {f g : α × Nat → Except ReadError (β × Nat)} (h : CutAt size offset whole cut)
    (next : ∀ a middle, CutAt size middle (f (a, middle)) (g (a, middle))) :
    CutAt size offset (whole >>= f) (cut >>= g) where
  forward := by
    intro b stop h'
    obtain ⟨⟨a, middle⟩, first, second⟩ := bind_eq_ok.mp h'
    exact Nat.le_trans (h.forward first) ((next a middle).forward second)
  kept inside b stop h' le := by
    obtain ⟨⟨a, middle⟩, first, second⟩ := bind_eq_ok.mp h'
    have middle_le := Nat.le_trans ((next a middle).forward second) le
    exact bind_eq_ok.mpr ⟨_, h.kept inside first middle_le,
      (next a middle).kept middle_le second le⟩
  truncated inside b stop h' beyond := by
    obtain ⟨⟨a, middle⟩, first, second⟩ := bind_eq_ok.mp h'
    by_cases middle_le : middle ≤ size
    · rw [h.kept inside first middle_le]
      exact (next a middle).truncated middle_le second beyond
    · exact (h.truncated inside first (Nat.lt_of_not_le middle_le)).bind g
  continued inside b stop h' := by
    obtain ⟨⟨a, middle⟩, first, second⟩ := bind_eq_ok.mp h'
    obtain ⟨first, middle_le⟩ := h.continued inside first
    obtain ⟨second, le⟩ := (next a middle).continued middle_le second
    exact ⟨bind_eq_ok.mpr ⟨_, first, second⟩, le⟩

/-- A step that looks at no byte cuts nothing. -/
theorem step (r : Except ReadError α) {f g : α → Except ReadError (β × Nat)}
    (next : ∀ a, CutAt size offset (f a) (g a)) : CutAt size offset (r >>= f) (r >>= g) := by
  cases r with
  | error e => exact error e
  | ok a => exact next a

/-- A scan that succeeds exactly where the bytes of its value stand. -/
theorem of_encode {cut rest : ByteArray} (scan : ByteArray → Except ReadError (α × Nat))
    {encode : α → Text} {count : Nat}
    (ok : ∀ {d a stop}, scan d = .ok (a, stop) ↔
      HoldsAt d offset (encode a) ∧ stop = offset + count)
    (length : ∀ a, (encode a).length = count)
    (short : ∀ d : ByteArray, d.size < offset + count → IsTruncated (scan d)) :
    CutAt cut.size offset (scan (cut ++ rest)) (scan cut) where
  forward := by
    intro a stop h
    obtain ⟨-, rfl⟩ := ok.mp h
    exact Nat.le_add_right _ _
  kept _ a stop h le := by
    obtain ⟨held, rfl⟩ := ok.mp h
    exact ok.mpr ⟨held.restrict (by rwa [length]), rfl⟩
  truncated _ a stop h beyond := by
    obtain ⟨-, rfl⟩ := ok.mp h
    exact short cut beyond
  continued _ a stop h := by
    obtain ⟨held, rfl⟩ := ok.mp h
    have le := held.le
    rw [length] at le
    exact ⟨ok.mpr ⟨held.extend rest, rfl⟩, le⟩

end CutAt

/-! ## The scans -/

section Scans

variable {cut rest : ByteArray} {offset : Nat} {t : ConstantTable}

theorem scanU1_cutAt : CutAt cut.size offset (scanU1 (cut ++ rest) offset) (scanU1 cut offset) := by
  refine CutAt.of_encode (scanU1 · offset) scanU1_eq_ok (fun _ => rfl) ?_
  intro d short
  exact ⟨_, _, _, dif_neg (by omega)⟩

theorem scanU2_cutAt : CutAt cut.size offset (scanU2 (cut ++ rest) offset) (scanU2 cut offset) := by
  refine CutAt.of_encode (scanU2 · offset) scanU2_eq_ok length_bytesU2 ?_
  intro d short
  exact ⟨_, _, _, dif_neg (by omega)⟩

theorem scanU4_cutAt : CutAt cut.size offset (scanU4 (cut ++ rest) offset) (scanU4 cut offset) := by
  refine CutAt.of_encode (scanU4 · offset) scanU4_eq_ok length_bytesU4 ?_
  intro d short
  exact ⟨_, _, _, dif_neg (by omega)⟩

theorem scanU8_cutAt : CutAt cut.size offset (scanU8 (cut ++ rest) offset) (scanU8 cut offset) := by
  refine CutAt.of_encode (scanU8 · offset) scanU8_eq_ok length_bytesU8 ?_
  intro d short
  exact ⟨_, _, _, if_neg (by omega)⟩

theorem scanText_cutAt {count : Nat} :
    CutAt cut.size offset (scanText (cut ++ rest) offset count) (scanText cut offset count) where
  forward := by
    intro value stop h
    obtain ⟨-, -, rfl⟩ := scanText_eq_ok.mp h
    exact Nat.le_add_right _ _
  kept _ value stop h le := by
    obtain ⟨held, rfl, rfl⟩ := scanText_eq_ok.mp h
    exact scanText_eq_ok.mpr ⟨held.restrict le, rfl, rfl⟩
  truncated _ value stop h beyond := by
    obtain ⟨-, -, rfl⟩ := scanText_eq_ok.mp h
    exact ⟨_, _, _, if_neg (Nat.not_le_of_lt beyond)⟩
  continued _ value stop h := by
    obtain ⟨held, rfl, rfl⟩ := scanText_eq_ok.mp h
    exact ⟨scanText_eq_ok.mpr ⟨held.extend rest, rfl, rfl⟩, held.le⟩

/-- Bytes that are left out count as read. -/
theorem skipBytes_cutAt {α : Type} {count : Nat} {f g : Nat → Except ReadError (α × Nat)}
    (next : ∀ stop, CutAt cut.size stop (f stop) (g stop)) :
    CutAt cut.size offset (skipBytes (cut ++ rest) offset count >>= f)
      (skipBytes cut offset count >>= g) := by
  have skipped : CutAt (α := Unit) cut.size offset
      ((skipBytes (cut ++ rest) offset count).map ((), ·))
      ((skipBytes cut offset count).map ((), ·)) := by
    rw [skipBytes, skipBytes, size_append]
    constructor
    · intro a stop h
      split at h
      · cases h
        exact Nat.le_add_right _ _
      · cases h
    · intro _ a stop h le
      split at h
      · cases h
        rw [if_pos le]
        rfl
      · cases h
    · intro _ a stop h beyond
      split at h
      · cases h
        rw [if_neg (Nat.not_le_of_lt beyond)]
        exact ⟨_, _, _, rfl⟩
      · cases h
    · intro _ a stop h
      split at h
      · next le =>
        cases h
        rw [if_pos (Nat.le_trans le (Nat.le_add_right _ _))]
        exact ⟨rfl, le⟩
      · cases h
  have chained := skipped.bind (f := fun p => f p.2) (g := fun p => g p.2) fun _ => next
  have as_map : ∀ (r : Except ReadError Nat) (k : Nat → Except ReadError (α × Nat)),
      (r.map ((), ·) >>= fun p => k p.2) = r >>= k := by
    intro r k
    cases r <;> rfl
  rwa [as_map, as_map] at chained

/-- Demanding bytes that a scan goes over anyway cuts it no earlier. -/
theorem CutAt.demand {α : Type} {count : Nat} {whole part : Except ReadError (α × Nat)}
    (h : CutAt cut.size offset whole part)
    (passes : ∀ {a stop}, whole = .ok (a, stop) → offset + count ≤ stop) :
    CutAt cut.size offset (skipBytes (cut ++ rest) offset count >>= fun _ => whole)
      (skipBytes cut offset count >>= fun _ => part) where
  forward := by
    intro a stop h'
    obtain ⟨_, -, scanned⟩ := bind_eq_ok.mp h'
    exact h.forward scanned
  kept inside a stop h' le := by
    obtain ⟨_, -, scanned⟩ := bind_eq_ok.mp h'
    exact bind_eq_ok.mpr ⟨_, skipBytes_eq_ok.mpr ⟨Nat.le_trans (passes scanned) le, rfl⟩,
      h.kept inside scanned le⟩
  truncated inside a stop h' beyond := by
    obtain ⟨_, -, scanned⟩ := bind_eq_ok.mp h'
    by_cases room : offset + count ≤ cut.size
    · rw [skipBytes_eq_ok.mpr ⟨room, rfl⟩]
      exact h.truncated inside scanned beyond
    · exact IsTruncated.bind ⟨_, _, _, if_neg room⟩ _
  continued inside a stop h' := by
    obtain ⟨_, skipped, scanned⟩ := bind_eq_ok.mp h'
    obtain ⟨room, rfl⟩ := skipBytes_eq_ok.mp skipped
    obtain ⟨scanned, le⟩ := h.continued inside scanned
    refine ⟨bind_eq_ok.mpr ⟨_, skipBytes_eq_ok.mpr ⟨?_, rfl⟩, scanned⟩, le⟩
    rw [size_append]
    omega

theorem scanEach_cutAt {α : Type} (item : ByteArray → Nat → Except ReadError (α × Nat))
    (each : ∀ {offset}, CutAt cut.size offset (item (cut ++ rest) offset) (item cut offset))
    {count : Nat} {items : Array α} :
    CutAt cut.size offset (scanEach (item (cut ++ rest)) count offset items)
      (scanEach (item cut) count offset items) := by
  have succ : ∀ (d : ByteArray) (count offset : Nat) (items : Array α),
      scanEach (item d) (count + 1) offset items =
        item d offset >>= fun (a, offset) => scanEach (item d) count offset (items.push a) := by
    intro d count offset items
    rw [scanEach]
    cases item d offset <;> rfl
  induction count generalizing offset items with
  | zero => exact .pure items
  | succ count ih =>
    rw [succ, succ]
    exact each.bind fun _ _ => ih

/-! ### The constant pool -/

theorem scanSingle_cutAt {tag : UInt8} {index : Nat} :
    CutAt cut.size offset (scanSingle (cut ++ rest) tag index offset)
      (scanSingle cut tag index offset) := by
  rw [scanSingle, scanSingle]
  split
  · exact scanU2_cutAt.bind fun _ _ => scanText_cutAt.bind fun _ _ => .pure _
  split
  · exact scanU4_cutAt.bind fun _ _ => .pure _
  split
  · exact scanU4_cutAt.bind fun _ _ => .pure _
  split
  · exact scanU2_cutAt.bind fun _ _ => .pure _
  split
  · exact scanU2_cutAt.bind fun _ _ => .pure _
  split
  · exact skipBytes_cutAt fun _ => .pure _
  · exact .error _

/-- One entry, and then the others. -/
theorem scanEntries_succ (d : ByteArray) (count offset : Nat) (table : ConstantTable) :
    scanEntries d (count + 1) offset table = scanU1 d offset >>= fun (tag, offset) =>
      if tag == tagLong || tag == tagDouble then
        match count with
        | 0 => .error (.poolOverrun table.size)
        | count + 1 => scanU8 d offset >>= fun (bits, offset) =>
          scanEntries d count offset
            ((table.push (if tag == tagLong then TableEntry.long bits else .double bits)).push
              .unusable)
      else scanSingle d tag table.size offset >>= fun (entry, offset) =>
        scanEntries d count offset (table.push entry) := by
  rw [scanEntries]
  cases scanU1 d offset with
  | error e => rfl
  | ok first =>
    obtain ⟨tag, offset⟩ := first
    simp only [ok_bind]
    split
    · cases count with
      | zero => rfl
      | succ count => cases scanU8 d offset <;> rfl
    · cases scanSingle d tag table.size offset <;> rfl

theorem scanEntries_cutAt {count : Nat} {table : ConstantTable} :
    CutAt cut.size offset (scanEntries (cut ++ rest) count offset table)
      (scanEntries cut count offset table) := by
  induction count using Nat.strongRecOn generalizing offset table with
  | ind count ih =>
  cases count with
  | zero => exact .pure table
  | succ count =>
    rw [scanEntries_succ, scanEntries_succ]
    refine scanU1_cutAt.bind fun tag middle => ?_
    simp only
    split
    · cases count with
      | zero => exact .error _
      | succ count => exact scanU8_cutAt.bind fun _ _ => ih count (by omega)
    · exact scanSingle_cutAt.bind fun _ _ => ih count (by omega)

theorem scanPool_cutAt :
    CutAt cut.size offset (scanPool (cut ++ rest) offset) (scanPool cut offset) := by
  refine scanU2_cutAt.bind fun count middle => ?_
  simp only
  split
  · exact .error _
  · exact scanEntries_cutAt

/-! ### References, attributes and members -/

theorem scanClassRef_cutAt :
    CutAt cut.size offset (scanClassRef (cut ++ rest) t offset) (scanClassRef cut t offset) :=
  scanU2_cutAt.bind fun _ _ => .step _ fun _ => .pure _

theorem scanClassRefs_cutAt :
    CutAt cut.size offset (scanClassRefs (cut ++ rest) t offset) (scanClassRefs cut t offset) := by
  refine scanU2_cutAt.bind fun count middle => ?_
  exact (scanEach_cutAt (scanClassRef · t) scanClassRef_cutAt).bind fun _ _ => .pure _

theorem scanEachAttribute_cutAt {count : Nat} {a : AttributeLocations} :
    CutAt cut.size offset (AttributeLocations.scanEach (cut ++ rest) t count offset a)
      (AttributeLocations.scanEach cut t count offset a) := by
  induction count generalizing offset a with
  | zero => exact .pure a
  | succ count ih =>
    rw [AttributeLocations.scanEach, AttributeLocations.scanEach]
    refine scanU2_cutAt.bind fun index middle => scanU4_cutAt.bind fun length middle => ?_
    refine .step _ fun name => skipBytes_cutAt fun stop => ?_
    split
    · exact .error _
    · exact ih

theorem scanAttributes_cutAt :
    CutAt cut.size offset (AttributeLocations.scan (cut ++ rest) t offset)
      (AttributeLocations.scan cut t offset) :=
  scanU2_cutAt.bind fun _ _ => scanEachAttribute_cutAt

theorem scanMember_cutAt :
    CutAt cut.size offset (MemberLayout.scan (cut ++ rest) t offset)
      (MemberLayout.scan cut t offset) := by
  refine CutAt.demand ?_ ?_
  · refine scanU2_cutAt.bind fun flags _ => scanU2_cutAt.bind fun name _ => ?_
    exact scanU2_cutAt.bind fun descriptor _ => scanAttributes_cutAt.bind fun _ _ => .pure _
  · -- The six bytes are the three numbers in front of the attributes.
    intro l stop h
    simp only [bind_eq_ok, pure_eq_ok, Prod.exists, scanU2_eq_ok, Prod.mk.injEq] at h
    obtain ⟨flags, _, ⟨-, rfl⟩, name, _, ⟨-, rfl⟩, descriptor, _, ⟨-, rfl⟩, a, _, scanned, -, rfl⟩ := h
    have attributes : CutAt cut.size (offset + 2 + 2 + 2)
        (AttributeLocations.scan (cut ++ rest) t (offset + 2 + 2 + 2)) _ := scanAttributes_cutAt
    exact attributes.forward scanned

theorem scanMembers_cutAt :
    CutAt cut.size offset (MemberLayout.scanAll (cut ++ rest) t offset)
      (MemberLayout.scanAll cut t offset) :=
  scanU2_cutAt.bind fun _ _ => scanEach_cutAt (MemberLayout.scan · t) scanMember_cutAt

end Scans

/-! ## Whole files -/

namespace ClassLayout

/-- Goes through a whole class file without following the signature, which is an
attribute and so stands in what has been gone through. -/
def scanUnsigned (d : ByteArray) : Except ReadError (ClassLayout × Nat) := do
  let (magic, offset) ← scanU4 d 0
  if magic != classMagic then .error (.badMagic magic)
  else
    let (minor, offset) ← scanU2 d offset
    let (major, offset) ← scanU2 d offset
    let (table, offset) ← scanPool d offset
    let (flags, offset) ← scanU2 d offset
    let (name, offset) ← scanClassRef d table offset
    let (superIndex, offset) ← scanU2 d offset
    let superName ← superNameAt table superIndex
    let (interfaces, offset) ← scanClassRefs d table offset
    let (fields, offset) ← MemberLayout.scanAll d table offset
    let (methods, offset) ← MemberLayout.scanAll d table offset
    let (attributes, stop) ← AttributeLocations.scan d table offset
    return ({
      table, fields, methods, attributes, stop
      header := {
        version := minor.toUInt32 <<< 16 ||| major.toUInt32
        access := .ofFlags flags attributes.deprecated
        name, superName
        signature := none
        interfaces := some interfaces } }, stop)

/-- The layout with its signature. -/
def withSignature (l : ClassLayout) (signature : Option Text) : ClassLayout :=
  { l with header := { l.header with signature } }

theorem scan_eq (d : ByteArray) :
    scan d = do
      let (l, _) ← scanUnsigned d
      let signature ← signatureAt d l.table l.attributes.signature
      return l.withSignature signature := by
  simp only [scan, scanUnsigned, bind_assoc]
  refine bind_congr fun (magic, offset) => ?_
  simp only
  split
  · rfl
  · simp only [bind_assoc, pure_bind]
    rfl

theorem scanUnsigned_cutAt {cut rest : ByteArray} :
    CutAt cut.size 0 (scanUnsigned (cut ++ rest)) (scanUnsigned cut) := by
  refine scanU4_cutAt.bind fun magic _ => ?_
  simp only
  split
  · exact .error _
  refine scanU2_cutAt.bind fun minor _ => scanU2_cutAt.bind fun major _ => ?_
  refine scanPool_cutAt.bind fun table _ => scanU2_cutAt.bind fun flags _ => ?_
  refine scanClassRef_cutAt.bind fun name _ => scanU2_cutAt.bind fun superIndex _ => ?_
  refine .step _ fun superName => scanClassRefs_cutAt.bind fun interfaces _ => ?_
  refine scanMembers_cutAt.bind fun fields _ => scanMembers_cutAt.bind fun methods _ => ?_
  exact scanAttributes_cutAt.bind fun attributes stop => .pure _

theorem scanUnsigned_stop {d : ByteArray} {l : ClassLayout} {stop : Nat}
    (h : scanUnsigned d = .ok (l, stop)) : l.stop = stop := by
  obtain ⟨⟨magic, _⟩, -, h⟩ := bind_eq_ok.mp h
  simp only at h
  split at h
  · cases h
  simp only [bind_eq_ok, pure_eq_ok, Prod.exists, Prod.mk.injEq] at h
  obtain ⟨_, _, -, _, _, -, _, _, -, _, _, -, _, _, -, _, _, -, _, -, _, _, -, _, _, -, _, _, -, _, _,
    -, rfl, rfl⟩ := h
  rfl

/-- A class file that is cut off before its end is found to be truncated. -/
theorem scan_truncated {cut rest : ByteArray} {l : ClassLayout}
    (h : scan (cut ++ rest) = .ok l) (short : cut.size < l.stop) : IsTruncated (scan cut) := by
  rw [scan_eq] at h
  obtain ⟨⟨whole, stop⟩, scanned, h⟩ := bind_eq_ok.mp h
  obtain ⟨signature, -, h⟩ := bind_eq_ok.mp h
  cases pure_eq_ok.mp h
  rw [scan_eq]
  have beyond : cut.size < stop := scanUnsigned_stop scanned ▸ short
  exact (scanUnsigned_cutAt.truncated (Nat.zero_le _) scanned beyond).bind _

end ClassLayout

/-! ## Files that go on -/

theorem CarriedAt.append (cut more : ByteArray) (t : ConstantTable) (k : AttributeKind)
    (place : Option Nat) : CarriedAt cut (cut ++ more) t k place place := by
  cases place with
  | none => exact .none
  | some offset => exact .some fun bs _ held => held.extend more

theorem AttributeLocations.CarriedTo.append (cut more : ByteArray) (t : ConstantTable)
    (owner : AttributeOwner) (a : AttributeLocations) : a.CarriedTo cut (cut ++ more) t owner a :=
  ⟨fun k _ => .append cut more t k (a.place k), rfl⟩

namespace ClassLayout

theorem carriedTo_append (cut more : ByteArray) (l : ClassLayout) :
    l.CarriedTo cut (cut ++ more) l where
  table := rfl
  header := rfl
  attributes := .append cut more ..
  fields := List.forall₂_same.mpr fun _ _ => ⟨rfl, rfl, rfl, .append cut more ..⟩
  methods := List.forall₂_same.mpr fun _ _ => ⟨rfl, rfl, rfl, .append cut more ..⟩

theorem scan_append {cut : ByteArray} {l : ClassLayout} (h : scan cut = .ok l)
    (more : ByteArray) : scan (cut ++ more) = .ok l := by
  rw [scan_eq] at h ⊢
  obtain ⟨⟨unsigned, stop⟩, scanned, h⟩ := bind_eq_ok.mp h
  obtain ⟨signature, signed, h⟩ := bind_eq_ok.mp h
  have whole_cut : CutAt cut.size 0 (scanUnsigned (cut ++ more)) (scanUnsigned cut) :=
    scanUnsigned_cutAt
  obtain ⟨whole, -⟩ := whole_cut.continued (Nat.zero_le _) scanned
  have signed' := signatureAt_of_carried (.append cut more ..) signed
  exact bind_eq_ok.mpr ⟨_, whole, bind_eq_ok.mpr ⟨signature, signed', h⟩⟩

end ClassLayout

/-- A file that is accepted starts with a class file.  Cut off before the end of that class
file, nothing of it is delivered and it is called truncated.  Whatever follows it, the same
is delivered. -/
theorem readClass_of_cut {b : ByteArray} {events : List Event}
    (h : readClass b = ⟨events, .ok ()⟩) :
    ∃ (l : ClassLayout) (f : ClassFile), ClassLayout.scan b = .ok l ∧ f.LaidOutAs b l ∧
      (∀ cut rest : ByteArray, b = cut ++ rest → cut.size < l.stop →
        ∃ e, readClass cut = ⟨[], .error e⟩ ∧ Text.ascii "truncated class file" <+: e.message) ∧
      ∀ more : ByteArray, readClass (b ++ more) = ⟨events, .ok ()⟩ := by
  obtain ⟨l, scanned, read⟩ := readClass_eq_ok.mp h
  obtain ⟨f, laidOut⟩ := exists_classFile_of_scan scanned
  refine ⟨l, f, scanned, laidOut, ?_, ?_⟩
  · rintro cut rest rfl short
    obtain ⟨needed, offset, available, truncated⟩ := ClassLayout.scan_truncated scanned short
    refine ⟨.truncated needed offset available, ?_, ?_⟩
    · rw [readClass, truncated]
      rfl
    · have wording : Text.ascii "truncated class file: " =
          Text.ascii "truncated class file" ++ Text.ascii ": " := by decide
      rw [ReadError.message, wording]
      simp only [List.append_assoc]
      exact List.prefix_append _ _
  · intro more
    exact readClass_eq_ok.mpr
      ⟨l, l.scan_append scanned more, (l.carriedTo_append b more).read_extends _ _ read⟩

/-- A class with one field. -/
def smallFile : ClassFile where
  minor := 0
  major := 52
  pool := [.utf8 [65], .classRef 1, .utf8 [102], .utf8 [73]]
  flags := 0x21
  thisClass := 2
  superClass := 0
  interfaces := []
  fields := [⟨1, 3, 4, []⟩]
  methods := []
  attributes := []

/-- What is delivered of the class with one field. -/
def smallEvents : List Event :=
  [.header ⟨52, .ofFlags 0x21 false, [65], none, none, some []⟩,
    .field ⟨.ofFlags 1 false, [102], [73], none, none⟩, .fieldEnd, .classEnd]

theorem readClass_of_cut_small :
    readClass ⟨smallFile.encode.toArray⟩ = ⟨smallEvents, .ok ()⟩ ∧
    ∃ (l : ClassLayout) (f : ClassFile), ClassLayout.scan ⟨smallFile.encode.toArray⟩ = .ok l ∧
      f.LaidOutAs ⟨smallFile.encode.toArray⟩ l ∧
      (∀ cut rest : ByteArray, ⟨smallFile.encode.toArray⟩ = cut ++ rest → cut.size < l.stop →
        ∃ e, readClass cut = ⟨[], .error e⟩ ∧ Text.ascii "truncated class file" <+: e.message) ∧
      ∀ more : ByteArray,
        readClass (⟨smallFile.encode.toArray⟩ ++ more) = ⟨smallEvents, .ok ()⟩ := by
  have accepted : readClass ⟨smallFile.encode.toArray⟩ = ⟨smallEvents, .ok ()⟩ := rfl
  exact ⟨accepted, readClass_of_cut accepted⟩

end ClassAbi
