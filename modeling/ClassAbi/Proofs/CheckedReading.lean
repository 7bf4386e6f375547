import ClassAbi.Proofs.CheckedDeliveries
import ClassAbi.Proofs.DecodedAttributes

/-!
# What the checked reader delivers

Each part of the checked reader delivers what the part of `readClass` does that it
belongs to, and has no breach.  For the constant pool that is `readPool_cases`.
Behind it the slots stay as they are, and every other part is compared on that
ground (`Walk.Delivers`).

Two things differ in more than the cursor.  `readClass` counts the lists around a
value down and the checked reader counts the values up, so `delivers_readValue`
keeps their sum.  And the checked reader goes through the members a second time to
read them, where `readClass` has their layouts.  The second time it comes past the
same places, as `MemberLayout.scan` says (`delivers_members`).

The main result is `walkClass_completes`.
-/

namespace ClassAbi

namespace Walk

variable {α β : Type} {d : ByteArray} {slots : List PoolSlot} {t : ConstantTable} {n p : Nat}

/-! ## Texts and classes -/

section Held

variable (held : PoolHeld d slots t)

include held

theorem delivers_readUtf8Ref (inside : p ≤ d.size) :
    Delivers d slots n (readUtf8Ref d) p (ClassAbi.readUtf8Ref d t p) Paired := by
  rw [ClassAbi.readUtf8Ref, scanUtf8Ref, Delivery.ofExcept_bind]
  exact (reads_readU2 d).delivers inside (halts_utf8At d 0) fun index q _ le =>
    (finds_utf8At held index).paired le

theorem delivers_readClassRef (inside : p ≤ d.size) :
    Delivers d slots n (readClassRef d) p (.ofExcept (scanClassRef d t p)) Paired := by
  rw [scanClassRef, Delivery.ofExcept_bind]
  exact (reads_readU2 d).delivers inside (halts_classNameAt d 0) fun index q _ le =>
    (finds_classNameAt held index).paired le

end Held

theorem halts_readClassRef (d : ByteArray) : Halts (readClassRef d) :=
  (reads_readU2 d).halts_bind (halts_classNameAt d 0)

/-! ## Annotation values -/

/-- The named values of an annotation, if each value is read as it should be. -/
theorem delivers_readNamedValues (held : PoolHeld d slots t) {part : Text → Walk Unit}
    {step : Text → Nat → Delivery Nat}
    (h : ∀ name q, q ≤ d.size → Delivers d slots n (part name) q (step name q) Stops)
    (inside : p ≤ d.size) :
    Delivers d slots n (readNamedValues d part) p (ClassAbi.readNamedValues d t step p) Stops := by
  refine (reads_readU2 d).delivers inside (halts_each rfl (halts_unlessFailed.bind _))
    fun count q _ le => ?_
  refine (delivers_each (fun _ q le => (delivers_readUtf8Ref held le).pair
    fun name q' _ le' => h name q' le') _ le).stop fun stop le => ?_
  exact delivers_unlessFailed (delivers_last le rfl)

/-- A tag that both readers look at, before the others. -/
theorem rel_ite {r : α → β → Prop} {condition : Prop} [Decidable condition] {a : α} {b : β}
    {x : Option α} {y : Option β} (here : r a b) (others : Option.Rel r x y) :
    Option.Rel r (if condition then some a else x) (if condition then some b else y) := by
  split
  · exact .some here
  · exact others

/-- Both readers know the same tags of constant values, and find the same for them. -/
theorem elementLookup_rel (held : PoolHeld d slots t) (tag : UInt8) :
    Option.Rel (fun pick find => ∀ index, Finds d slots (find index) (pick index) ∧
        Halts (find index))
      (ClassAbi.elementLookup t tag) (elementLookup d tag) := by
  have number (index : UInt16) (tag : UInt8) := halts_numberAt d index tag
  unfold ClassAbi.elementLookup elementLookup
  refine rel_ite (fun index => ?_) (rel_ite (fun index => ?_) (rel_ite (fun index => ?_)
    (rel_ite (fun index => ?_) (rel_ite (fun index => ?_) (rel_ite (fun index => ?_) .none)))))
  · exact ⟨(finds_integerAt held index).map _, ((number index tagInteger).bind _).bind _⟩
  · exact ⟨finds_longAt held index, (number index tagLong).bind _⟩
  · exact ⟨finds_floatAt held index, (number index tagFloat).bind _⟩
  · exact ⟨finds_doubleAt held index, (number index tagDouble).bind _⟩
  · exact ⟨(finds_utf8At held index).map _, (halts_utf8At d index).bind _⟩
  · exact ⟨(finds_utf8At held index).map _, (halts_utf8At d index).bind _⟩

/-- A value inside `depth` others is read as the value that may nest in the lists that are left.
The values inside it are one deeper, and the limit is not passed. -/
theorem delivers_readValue (held : PoolHeld d slots t) {levels depth : Nat}
    (all : depth + levels = nestingLimit + 1) (name : Text) (inside : p ≤ d.size) :
    Delivers d slots depth (readValue d name depth) p (ClassAbi.readValue d t levels name p)
      Stops := by
  induction levels generalizing depth name p with
  | zero =>
    have shallow : depth < insideLimit := Nat.lt_of_le_of_lt (Nat.le.intro all) (by decide)
    have deep : nestingLimit < depth := by omega
    rw [readValue, if_pos deep, ClassAbi.readValue]
    exact delivers_insideValue shallow (delivers_stop inside)
  | succ levels ih =>
    have shallow : depth < insideLimit := Nat.lt_of_le_of_lt (Nat.le.intro all) (by decide)
    have deep : ¬ nestingLimit < depth := by omega
    have deeper : depth + 1 + levels = nestingLimit + 1 := by omega
    rw [readValue, if_neg deep, ClassAbi.readValue]
    refine delivers_insideValue shallow
      ((reads_readU1 d).delivers inside (halts_unlessFailed.bind _) fun tag q scanned le => ?_)
    have lookups := elementLookup_rel held tag
    dsimp only
    generalize ClassAbi.elementLookup t tag = pick?, elementLookup d tag = find? at lookups ⊢
    cases lookups with
    | some finds =>
      simp only [scanElement, Delivery.ofExcept_bind_bind]
      refine (reads_readU2 d).delivers le ((finds 0).2.bind _) fun index q _ le => ?_
      exact (finds index).1.delivers le fun value _ => delivers_last le rfl
    | none =>
      simp only
      split
      · refine (delivers_readUtf8Ref held le).pair fun descriptor q _ le => ?_
        refine (delivers_readUtf8Ref held le).pair fun value q _ le => ?_
        exact delivers_last le rfl
      split
      · refine (delivers_readUtf8Ref held le).pair fun descriptor q _ le => ?_
        refine delivers_deliver (delivers_readNamedValues held (fun name q le => ?_) le)
        exact ih deeper name le
      split
      · refine (reads_readU2 d).delivers le (halts_unlessFailed.bind _) fun count q _ le => ?_
        refine delivers_unlessFailed (delivers_deliver ?_)
        refine (delivers_each (fun _ q le => ih deeper [] le) _ le).stop fun stop le => ?_
        exact delivers_last le rfl
      · obtain ⟨-, rfl⟩ := scanU1_eq_ok.mp scanned
        exact delivers_unlessFailed (delivers_state fun _ => delivers_stop le)

/-! ## Annotations -/

section Annotations

variable (held : PoolHeld d slots t)

include held

theorem delivers_readAnnotations (opening : Text → Event) (inside : p ≤ d.size) :
    Delivers d slots 0 (readAnnotations d opening) p (ClassAbi.readAnnotations d t opening p)
      Stops := by
  refine (reads_readU2 d).delivers inside (halts_each rfl halts_unlessFailed)
    fun count q _ le => (delivers_each (fun _ q le => ?_) _ le).unlessFailed
  refine (delivers_readUtf8Ref held le).pair fun descriptor q _ le => delivers_deliver ?_
  exact delivers_readNamedValues held
    (fun name q le => delivers_readValue held (Nat.zero_add _) name le) le

theorem delivers_readAnnotationsAt (opening : Text → Event) {place : Option Nat}
    (there : ∀ offset ∈ place, offset ≤ d.size) (inside : p ≤ d.size) :
    Delivers d slots 0 (readAnnotationsAt d opening place) p
      (ClassAbi.readAnnotationsAt d t opening place) Gives := by
  cases place with
  | none => exact delivers_pure inside rfl
  | some offset =>
    have le := there offset rfl
    exact delivers_seek le ((delivers_readAnnotations held opening le).map _ fun _ _ _ _ => rfl)

theorem delivers_readParameterAnnotationsAt (visible : Bool) {place : Option Nat}
    (there : ∀ offset ∈ place, offset ≤ d.size) (inside : p ≤ d.size) :
    Delivers d slots 0 (readParameterAnnotationsAt d visible place) p
      (ClassAbi.readParameterAnnotationsAt d t visible place) Gives := by
  cases place with
  | none => exact delivers_pure inside rfl
  | some offset =>
    have le := there offset rfl
    refine delivers_seek le (Delivers.map (R := Stops) ?_ _ fun _ _ _ _ => rfl)
    refine (reads_readU1 d).delivers le (halts_unlessFailed.bind _) fun count q _ le => ?_
    refine delivers_unlessFailed (delivers_deliver (delivers_each (fun parameter q le => ?_) _ le))
    exact delivers_state fun _ => delivers_seek le (delivers_readAnnotations held _ le)

theorem delivers_readDefaultAt {place : Option Nat} (there : ∀ offset ∈ place, offset ≤ d.size)
    (inside : p ≤ d.size) :
    Delivers d slots 0 (readDefaultAt d place) p (ClassAbi.readDefaultAt d t place) Gives := by
  cases place with
  | none => exact delivers_pure inside rfl
  | some offset =>
    have le := there offset rfl
    refine delivers_seek le (delivers_deliver ?_)
    refine (delivers_readValue held (Nat.zero_add _) [] le).stop fun q le => ?_
    exact delivers_event _ le rfl

end Annotations

/-! ## Attributes -/

/-- Behind a noted place the file has as many bytes as the attribute must have. -/
theorem place_room_of_scan {q : Nat} {a : AttributeLocations}
    (h : AttributeLocations.scan d t p = .ok (a, q)) (k : AttributeKind) :
    ∀ offset ∈ a.place k, offset + AttributeLocations.shortestLength k.name ≤ d.size := by
  obtain ⟨attributes, fits, -, -, -, noted⟩ := exists_attributes_of_scan h
  intro offset there
  have located := noted.place k
  have shortest (info : Text) (last : lastInfo t k.name attributes = some info) :=
    shortest_of_lastInfo fits last
  rw [Option.mem_def.mp there] at located
  generalize lastInfo t k.name attributes = info at located shortest
  cases located with
  | some located =>
    exact Nat.le_trans (Nat.add_le_add_left (shortest _ rfl) offset) located.1.le

theorem place_le_of_scan {q : Nat} {a : AttributeLocations}
    (h : AttributeLocations.scan d t p = .ok (a, q)) (k : AttributeKind) :
    ∀ offset ∈ a.place k, offset ≤ d.size :=
  fun offset there => Nat.le_trans (Nat.le_add_right ..) (place_room_of_scan h k offset there)

theorem delivers_note {a : AttributeLocations} {name : Text} {k : AttributeLocations → Walk α}
    {g : Delivery β} {R : β → α → Nat → Prop} (inside : p ≤ d.size)
    (next : Delivers d slots n (k (a.note name p)) p g R) :
    Delivers d slots n (note d a name >>= k) p g R := by
  rw [note, bind_assoc]
  refine delivers_state fun _ => ?_
  intro es
  rw [bind_assoc, bind_some (check_apply inside _)]
  exact next es

theorem delivers_readEachAttribute (held : PoolHeld d slots t) (count : Nat)
    (a : AttributeLocations) (inside : p ≤ d.size) :
    Delivers d slots n (readEachAttribute d count a) p
      (.ofExcept (AttributeLocations.scanEach d t count p a)) Paired := by
  induction count generalizing p a with
  | zero => exact delivers_pure inside rfl
  | succ count ih =>
    rw [readEachAttribute, AttributeLocations.scanEach]
    simp only [Delivery.ofExcept_bind]
    refine (reads_readU2 d).delivers inside
      ((reads_readU4 d).halts_bind ((halts_utf8At d 0).bind _)) fun nameIndex q _ le => ?_
    refine (reads_readU4 d).delivers le ((halts_utf8At d _).bind _) fun length q' _ le => ?_
    refine (finds_utf8At held nameIndex).delivers le fun name _ => ?_
    refine delivers_require le fun room => ?_
    split
    · exact delivers_state fun _ => delivers_stop le
    · have skipped : scanSkip d length.toNat q' = .ok ((), q' + length.toNat) := by
        simp [scanSkip, skipBytes, room]
      exact delivers_note le ((reads_skip d length.toNat).then le skipped fun le => ih _ le)

theorem halts_readAttributes (d : ByteArray) : Halts (readAttributes d) :=
  (reads_readU2 d).halts_bind (halts_unlessFailed.bind _)

theorem delivers_readAttributes (held : PoolHeld d slots t) (inside : p ≤ d.size) :
    Delivers d slots n (readAttributes d) p (.ofExcept (AttributeLocations.scan d t p)) Paired := by
  rw [AttributeLocations.scan, Delivery.ofExcept_bind]
  exact (reads_readU2 d).delivers inside (halts_unlessFailed.bind _) fun count q _ le =>
    (delivers_readEachAttribute held count.toNat {} le).ends fun _ _ _ same le =>
      delivers_unlessFailed (delivers_pure le same)

/-! ## Going through members -/

theorem scanEach_succ (item : Nat → Except ReadError (α × Nat)) (count offset : Nat)
    (items : Array α) :
    scanEach item (count + 1) offset items =
      item offset >>= fun x => scanEach item count x.2 (items.push x.1) := by
  rw [scanEach]
  cases item offset <;> rfl

/-- Items are gone through as they are scanned. -/
theorem delivers_each_scanEach {ι : Type} {part : Walk Unit}
    {item : Nat → Except ReadError (α × Nat)}
    (h : ∀ q, q ≤ d.size → Delivers d slots n part q (.ofExcept (item q)) Behind) (items : List ι)
    (before : Array α) (inside : p ≤ d.size) :
    Delivers d slots n (each (fun _ => part) items) p
      (.ofExcept (scanEach item items.length p before)) Behind := by
  induction items generalizing p before with
  | nil => exact delivers_pure inside rfl
  | cons i items ih =>
    rw [List.length_cons, scanEach_succ, Delivery.ofExcept_bind, each]
    refine (h p inside).bind fun b _ q _ behind le => ?_
    cases behind
    exact ih _ le

theorem exists_scanU2_eq_ok (room : p + 2 ≤ d.size) : ∃ v, scanU2 d p = .ok (v, p + 2) :=
  ⟨_, dif_pos room⟩

theorem delivers_skipMember (held : PoolHeld d slots t) (inside : p ≤ d.size) :
    Delivers d slots n (do
      skip d 6
      let _ ← readAttributes d) p (.ofExcept (MemberLayout.scan d t p)) Behind := by
  rw [MemberLayout.scan, Delivery.ofExcept_bind]
  refine delivers_skip inside ((halts_readAttributes d).bind _) fun room => ?_
  obtain ⟨flags, hflags⟩ := exists_scanU2_eq_ok (d := d) (p := p) (by omega)
  obtain ⟨name, hname⟩ := exists_scanU2_eq_ok (d := d) (p := p + 2) (by omega)
  obtain ⟨descriptor, hdescriptor⟩ := exists_scanU2_eq_ok (d := d) (p := p + 2 + 2) (by omega)
  simp only [hflags, hname, hdescriptor, ok_bind, Delivery.ofExcept_bind]
  exact (delivers_readAttributes held room).pair fun a q _ le => delivers_pure le rfl

theorem delivers_skipMembers (held : PoolHeld d slots t) (inside : p ≤ d.size) :
    Delivers d slots n (skipMembers d) p (.ofExcept (MemberLayout.scanAll d t p)) Behind := by
  rw [MemberLayout.scanAll, Delivery.ofExcept_bind]
  refine (reads_readU2 d).delivers inside (halts_each rfl halts_unlessFailed) fun count q _ le => ?_
  have each := delivers_each_scanEach (n := n) (fun _ le => delivers_skipMember held le)
    (List.range count.toNat) #[] le
  rw [List.length_range] at each
  exact each.unlessFailed

/-! ## Members -/

/-- The end of a member, and the cursor back behind its attributes. -/
theorem delivers_finished {e : Event} {stop : Nat} (behind : stop ≤ d.size) :
    Delivers d slots n (do
      deliver e
      seek d stop) p (Delivery.deliver e) (At stop) :=
  fun _ => ⟨(), stop, rfl, behind, seek_apply behind _⟩

section Members

variable (held : PoolHeld d slots t)

include held

theorem delivers_signatureAt {place : Option Nat} (there : ∀ offset ∈ place, offset ≤ d.size)
    (inside : p ≤ d.size) :
    Delivers d slots n (signatureAt d place) p (.ofExcept (ClassAbi.signatureAt d t place))
      Gives := by
  cases place with
  | none => exact delivers_pure inside rfl
  | some offset =>
    have le := there offset rfl
    rw [ClassAbi.signatureAt, Delivery.ofExcept_bind]
    exact delivers_seek le
      ((delivers_readUtf8Ref held le).pair fun value q _ le => delivers_pure le rfl)

theorem delivers_constantValueAt (descriptor : Text) {place : Option Nat}
    (there : ∀ offset ∈ place, offset ≤ d.size) (inside : p ≤ d.size) :
    Delivers d slots n (constantValueAt d descriptor place) p
      (.ofExcept (ClassAbi.constantValueAt d t descriptor place)) Gives := by
  cases place with
  | none => exact delivers_pure inside rfl
  | some offset =>
    have le := there offset rfl
    simp only [ClassAbi.constantValueAt, Delivery.ofExcept_bind]
    refine delivers_seek le ((reads_readU2 d).delivers le ((halts_constantAt d descriptor 0).bind _)
      fun index q _ le => ?_)
    exact (finds_constantAt held index descriptor).delivers le fun value _ => delivers_pure le rfl

theorem delivers_readEachClassRef (count : Nat) (names : Array Text) (inside : p ≤ d.size) :
    Delivers d slots n (readEachClassRef d count names) p
      (.ofExcept (scanEach (scanClassRef d t) count p names)) Paired := by
  induction count generalizing p names with
  | zero => exact delivers_pure inside rfl
  | succ count ih =>
    rw [scanEach_succ, Delivery.ofExcept_bind, readEachClassRef]
    exact (delivers_readClassRef held inside).pair fun name q _ le => ih (names.push name) le

/-- Where the number of classes is missing, none is read, and the reading goes on. -/
theorem delivers_readClassRefs (inside : p ≤ d.size) {k : List Text → Walk α}
    {f : List Text × Nat → Delivery β} {R : β → α → Nat → Prop} (halts : Halts (k []))
    (next : ∀ names q, q ≤ d.size → Delivers d slots n (k names) q (f (names, q)) R) :
    Delivers d slots n (readClassRefs d >>= k) p (.ofExcept (scanClassRefs d t p) >>= f) R := by
  rw [scanClassRefs, Delivery.ofExcept_bind_bind, readClassRefs, bind_assoc]
  refine (reads_readU2 d).delivers inside halts fun count q _ le => ?_
  simp only [Delivery.ofExcept_bind_bind, bind_assoc]
  exact (delivers_readEachClassRef held count.toNat #[] le).pair fun names q _ le => next _ q le

theorem delivers_exceptionsAt {place : Option Nat} (there : ∀ offset ∈ place, offset + 2 ≤ d.size)
    (inside : p ≤ d.size) :
    Delivers d slots n (exceptionsAt d place) p (.ofExcept (ClassAbi.exceptionsAt d t place))
      Gives := by
  cases place with
  | none => exact delivers_pure inside rfl
  | some offset =>
    have room := there offset rfl
    obtain ⟨count, scanned⟩ := exists_scanU2_eq_ok room
    simp only [ClassAbi.exceptionsAt, scanClassRefs, scanned, ok_bind, Delivery.ofExcept_bind,
      Delivery.ofExcept_pure, bind_assoc, pure_bind]
    refine delivers_seek (Nat.le_of_add_right_le room) ?_
    rw [readClassRefs, bind_assoc]
    refine (reads_readU2 d).then (Nat.le_of_add_right_le room) scanned fun le => ?_
    simp only [bind_assoc, pure_bind]
    exact (delivers_readEachClassRef held count.toNat #[] le).pair fun names q _ le =>
      delivers_pure le rfl

/-- A text that an index refers to which is known. -/
theorem delivers_utf8Ref {index : UInt16} {q : Nat} (inside : p ≤ d.size)
    (scanned : scanU2 d p = .ok (index, q)) {k : Text → Walk α} {f : Text → Delivery β}
    {R : β → α → Nat → Prop}
    (next : ∀ value, q ≤ d.size → Delivers d slots n (k value) q (f value) R) :
    Delivers d slots n (readUtf8Ref d >>= k) p (.ofExcept (t.utf8At index) >>= f) R := by
  rw [readUtf8Ref, bind_assoc]
  exact (reads_readU2 d).then inside scanned fun le =>
    (finds_utf8At held index).delivers le fun value _ => next value le

/-- The beginning of a member that has been gone through before, up to its attributes. -/
theorem delivers_memberHead {l : MemberLayout} {stop : Nat} (inside : p ≤ d.size)
    (scanned : MemberLayout.scan d t p = .ok (l, stop))
    {k : UInt16 → Text → Text → AttributeLocations → Walk α} {f : Text → Text → Delivery β}
    {R : β → α → Nat → Prop}
    (next : ∀ name descriptor, stop ≤ d.size →
      (∀ kind, ∀ offset ∈ l.attributes.place kind,
        offset + AttributeLocations.shortestLength kind.name ≤ d.size) →
      Delivers d slots n (k l.flags name descriptor l.attributes) stop (f name descriptor) R) :
    Delivers d slots n (do
      let flags ← readU2 d
      let name ← readUtf8Ref d
      let descriptor ← readUtf8Ref d
      let a ← readAttributes d
      k flags name descriptor a) p
      (.ofExcept (t.utf8At l.name) >>= fun name =>
        .ofExcept (t.utf8At l.descriptor) >>= fun descriptor => f name descriptor) R := by
  simp only [MemberLayout.scan, bind_eq_ok, pure_eq_ok, Prod.exists, Prod.mk.injEq] at scanned
  obtain ⟨_, -, flags, _, hflags, name, _, hname, descriptor, _, hdescriptor, a, _, ha, rfl, rfl⟩ :=
    scanned
  refine (reads_readU2 d).then inside hflags fun le => ?_
  refine delivers_utf8Ref held le hname fun name le => ?_
  refine delivers_utf8Ref held le hdescriptor fun descriptor le => ?_
  have attributes := delivers_readAttributes (n := n) held le
  rw [ha] at attributes
  refine attributes.then fun a' q paired le => ?_
  cases paired
  exact next name descriptor le (place_room_of_scan ha)

theorem delivers_readField {l : MemberLayout} {stop : Nat} (inside : p ≤ d.size)
    (scanned : MemberLayout.scan d t p = .ok (l, stop)) :
    Delivers d slots 0 (readField d) p (ClassAbi.readField d t l) (At stop) := by
  simp only [ClassAbi.readField, fieldHeader, Delivery.ofExcept_bind_bind,
    Delivery.ofExcept_pure, pure_bind]
  refine delivers_memberHead held inside scanned fun name descriptor behind room => ?_
  have there (kind : AttributeKind) (offset : Nat) (noted : offset ∈ l.attributes.place kind) :
      offset ≤ d.size := Nat.le_of_add_right_le (room kind offset noted)
  refine delivers_state fun _ => ?_
  refine (delivers_signatureAt held (there .signature) behind).bind
    fun signature _ q _ same le => ?_
  cases same
  refine (delivers_constantValueAt held descriptor (there .constantValue) le).bind
    fun value _ q _ same le => ?_
  cases same
  refine delivers_deliver ?_
  refine (delivers_readAnnotationsAt held _ (there (.annotations true)) le).bind
    fun _ _ q _ _ le => ?_
  refine (delivers_readAnnotationsAt held _ (there (.annotations false)) le).bind
    fun _ _ q _ _ le => ?_
  exact delivers_finished behind

theorem delivers_readMethod {l : MemberLayout} {stop : Nat} (inside : p ≤ d.size)
    (scanned : MemberLayout.scan d t p = .ok (l, stop)) :
    Delivers d slots 0 (readMethod d) p (ClassAbi.readMethod d t l) (At stop) := by
  simp only [ClassAbi.readMethod, methodHeader, Delivery.ofExcept_bind_bind,
    Delivery.ofExcept_pure, pure_bind]
  refine delivers_memberHead held inside scanned fun name descriptor behind room => ?_
  have there (kind : AttributeKind) (offset : Nat) (noted : offset ∈ l.attributes.place kind) :
      offset ≤ d.size := Nat.le_of_add_right_le (room kind offset noted)
  refine delivers_state fun _ => ?_
  refine (delivers_signatureAt held (there .signature) behind).bind
    fun signature _ q _ same le => ?_
  cases same
  refine (delivers_exceptionsAt held (room .exceptions) le).bind
    fun exceptions _ q _ same le => ?_
  cases same
  refine delivers_deliver ?_
  refine (delivers_readDefaultAt held (there .annotationDefault) le).bind
    fun _ _ q _ _ le => ?_
  refine (delivers_readAnnotationsAt held _ (there (.annotations true)) le).bind
    fun _ _ q _ _ le => ?_
  refine (delivers_readAnnotationsAt held _ (there (.annotations false)) le).bind
    fun _ _ q _ _ le => ?_
  refine (delivers_readParameterAnnotationsAt held true
    (there (.parameterAnnotations true)) le).bind fun _ _ q _ _ le => ?_
  refine (delivers_readParameterAnnotationsAt held false
    (there (.parameterAnnotations false)) le).bind fun _ _ q _ _ le => ?_
  exact delivers_finished behind

end Members

/-! ## Classes -/

/-- Members that have been gone through are read one behind the other. -/
theorem delivers_members {ι : Type} {part : Walk Unit} {read : MemberLayout → Delivery Unit}
    (h : ∀ {q l stop}, q ≤ d.size → MemberLayout.scan d t q = .ok (l, stop) →
      Delivers d slots n part q (read l) (At stop)) (items : List ι)
    {before members : Array MemberLayout} {stop : Nat} (inside : p ≤ d.size)
    (scanned : scanEach (MemberLayout.scan d t) items.length p before = .ok (members, stop)) :
    ∃ ls : List MemberLayout, members = before ++ ls.toArray ∧
      Delivers d slots n (each (fun _ => part) items) p
        (Delivery.fold (fun _ l => read l) () ls) (At stop) := by
  induction items generalizing p before with
  | nil =>
    cases scanned
    exact ⟨[], by simp, delivers_pure inside rfl⟩
  | cons i items ih =>
    rw [List.length_cons, scanEach_succ] at scanned
    obtain ⟨⟨l, q⟩, first, others⟩ := bind_eq_ok.mp scanned
    obtain ⟨m, -, stands, rfl, -⟩ := exists_member_of_scan first
    obtain ⟨ls, rfl, rest⟩ := ih stands.le others
    refine ⟨l :: ls, by simp, ?_⟩
    rw [Delivery.fold_cons, each]
    refine (h inside first).bind fun _ _ q _ behind _ => ?_
    cases behind
    exact rest

/-- All members of one kind, with their count in front. -/
theorem delivers_memberTable {part : Walk Unit} {read : MemberLayout → Delivery Unit}
    (h : ∀ {q l stop}, q ≤ d.size → MemberLayout.scan d t q = .ok (l, stop) →
      Delivers d slots n part q (read l) (At stop)) {members : Array MemberLayout} {stop : Nat}
    (inside : p ≤ d.size) (scanned : MemberLayout.scanAll d t p = .ok (members, stop))
    {k : Walk α} {g : Delivery β} {R : β → α → Nat → Prop}
    (next : stop ≤ d.size → Delivers d slots n k stop g R) :
    Delivers d slots n (do
      let count ← readU2 d
      each (fun _ => part) (List.range count.toNat)
      k) p (Delivery.fold (fun _ l => read l) () members.toList >>= fun _ => g) R := by
  obtain ⟨⟨count, first⟩, counted, each⟩ := bind_eq_ok.mp scanned
  refine (reads_readU2 d).then inside counted fun le => ?_
  have each : scanEach (MemberLayout.scan d t) (List.range count.toNat).length first #[] =
      .ok (members, stop) := by
    rw [List.length_range]
    exact each
  obtain ⟨ls, rfl, parts⟩ := delivers_members h _ le each
  simp only [List.append_toArray]
  refine parts.bind fun _ _ q _ behind le => ?_
  cases behind
  exact next le

theorem delivers_readDeclarations {c : ClassLayout} (held : PoolHeld d slots c.table)
    {members behindFields behindMethods stop : Nat} (inside : p ≤ d.size) (start : members ≤ d.size)
    (fields : MemberLayout.scanAll d c.table members = .ok (c.fields, behindFields))
    (methods : MemberLayout.scanAll d c.table behindFields = .ok (c.methods, behindMethods))
    (attributes : AttributeLocations.scan d c.table behindMethods = .ok (c.attributes, stop)) :
    Delivers d slots 0 (readDeclarations d c.header c.attributes members) p (c.read d)
      Gives := by
  have there := place_le_of_scan attributes
  refine delivers_deliver ?_
  refine (delivers_readAnnotationsAt held _ (there (.annotations true)) inside).bind
    fun _ _ q _ _ le => ?_
  refine (delivers_readAnnotationsAt held _ (there (.annotations false)) le).bind
    fun _ _ q _ _ le => ?_
  refine delivers_seek start ?_
  refine delivers_memberTable (delivers_readField held) start fields fun le => ?_
  refine delivers_memberTable (delivers_readMethod held) le methods fun le => ?_
  exact delivers_unlessFailed (delivers_event _ le rfl)

theorem finds_superNameAt (held : PoolHeld d slots t) (index : UInt16) :
    Finds d slots (superNameAt d index) (ClassAbi.superNameAt t index) := by
  by_cases zero : (index == 0) = true
  · rw [superNameAt, if_pos zero, ClassAbi.superNameAt, if_pos zero]
    exact finds_pure none
  · rw [superNameAt, if_neg zero, ClassAbi.superNameAt, if_neg zero]
    exact (finds_classNameAt held index).map _

theorem halts_readClassRefs {k : List Text → Walk α} (next : Halts (k [])) :
    Halts (readClassRefs d >>= k) := by
  rw [readClassRefs, bind_assoc]
  exact (reads_readU2 d).halts_bind next

/-- Of the interfaces none is read after a problem, but the members look at it. -/
theorem halts_skipMembers {k : Cursor → Unit → Walk α} :
    Halts (do
      let c ← state
      let u ← skipMembers d
      k c u) :=
  halts_state fun _ => ((reads_readU2 d).halts_bind (halts_each rfl halts_unlessFailed)).bind _

/-! ## Whole files -/

/-- From the state on, the part has no breach, delivers what `g` delivers and ends as `g` does. -/
def Completes (d : ByteArray) (m : Walk Unit) (c : Cursor) (g : Delivery Unit) : Prop :=
  ∃ c' : Cursor, c'.pos ≤ d.size ∧ c'.events = c.events ++ g.events ∧
    (g.result = .ok () ∧ c'.problem = none ∧ m c = .ok (some (), c') ∨
      ∃ e, g.result = .error e ∧ c'.problem = some e ∧ m c = .ok (none, c'))

section Completes

variable {m : Walk Unit} {g : Delivery Unit} {es : List Event}

theorem Delivers.completes {R : Unit → Unit → Nat → Prop} (h : Delivers d slots n m p g R) :
    Completes d m ⟨p, slots, none, n, es⟩ g := by
  have run := h es
  obtain ⟨events, e | b⟩ := g
  · obtain ⟨q, inside, run⟩ := run
    exact ⟨_, inside, rfl, .inr ⟨e, rfl, rfl, run⟩⟩
  · obtain ⟨a, q, -, inside, run⟩ := run
    exact ⟨_, inside, rfl, .inl ⟨rfl, rfl, run⟩⟩

/-- A problem of the file ends the reading. -/
theorem completes_of_error {c : Cursor} {e : ReadError} {f : α → Delivery Unit}
    (inside : c.pos ≤ d.size) (same : c.events = es) (problem : c.problem = some e)
    (run : m ⟨p, slots, none, n, es⟩ = .ok (none, c)) :
    Completes d m ⟨p, slots, none, n, es⟩ (.ofExcept (.error e) >>= f) :=
  ⟨c, inside, same.trans (List.append_nil es).symm, .inr ⟨e, rfl, problem, run⟩⟩

theorem Reads.completes {read : Walk α} {junk : α} {scan : Nat → Except ReadError (α × Nat)}
    (reads : Reads d read junk scan) {k : α → Walk Unit} {f : α × Nat → Delivery Unit}
    (inside : p ≤ d.size) (halts : Halts (k junk))
    (next : ∀ v q, q ≤ d.size → Completes d (k v) ⟨q, slots, none, n, es⟩ (f (v, q))) :
    Completes d (read >>= k) ⟨p, slots, none, n, es⟩ (.ofExcept (scan p) >>= f) := by
  rcases reads.going slots n es inside with ⟨v, q, scanned, le, run⟩ | ⟨e, scanned, run⟩
  · rw [scanned, Completes, bind_some run]
    exact next v q le
  · rw [scanned]
    exact completes_of_error (c := ⟨p, slots, some e, n, es⟩) inside rfl rfl
      (by rw [bind_some run, halts _ rfl])

theorem completes_readPool {k : Walk Unit} {f : ConstantTable × Nat → Delivery Unit}
    (inside : p ≤ d.size)
    (next : ∀ t q slots', q ≤ d.size → PoolHeld d slots' t →
      Completes d k ⟨q, slots', none, n, es⟩ (f (t, q))) :
    Completes d (readPool d >>= fun _ => k) ⟨p, slots, none, n, es⟩
      (.ofExcept (scanPool d p) >>= f) := by
  rcases readPool_cases inside slots n es with
    ⟨t, slots', q, scanned, le, held, run⟩ | ⟨e, slots', q, scanned, le, run⟩
  · rw [scanned, Completes, bind_some run]
    exact next t q slots' le held
  · rw [scanned]
    exact completes_of_error (c := ⟨q, slots', some e, n, es⟩) le rfl rfl (bind_none run)

theorem completes_unlessFailed {k : Unit → Walk Unit}
    (next : Completes d (k ()) ⟨p, slots, none, n, es⟩ g) :
    Completes d (unlessFailed >>= k) ⟨p, slots, none, n, es⟩ g := by
  rw [Completes, bind_some (unlessFailed_apply ..)]
  exact next

end Completes

theorem completes_readClass (d : ByteArray) :
    Completes d (readClass d) ⟨0, [], none, 0, []⟩ (ClassAbi.readClass d) := by
  rw [ClassAbi.readClass, ClassLayout.scan, Delivery.ofExcept_bind_bind, readClass]
  refine (reads_readU4 d).completes (Nat.zero_le _) (halts_unlessFailed.bind _)
    fun magic q le => completes_unlessFailed ?_
  by_cases wrong : (magic != classMagic) = true
  · simp only [wrong, if_true]
    exact completes_of_error (c := ⟨q, [], some (.badMagic magic), 0, []⟩) le rfl rfl rfl
  rw [Bool.not_eq_true] at wrong
  simp only [wrong, Bool.false_eq_true, if_false, Delivery.ofExcept_bind_bind]
  refine (reads_readU2 d).completes le
    ((reads_readU2 d).halts_bind ((halts_readPool d).bind _)) fun minor q le => ?_
  refine (reads_readU2 d).completes le ((halts_readPool d).bind _) fun major q le => ?_
  -- From here on the slots stay as they are, and they are those of the table.
  refine completes_readPool le fun t q slots le held => Delivers.completes (R := Gives) ?_
  refine (reads_readU2 d).delivers le ((halts_readClassRef d).bind _) fun flags q _ le => ?_
  refine (delivers_readClassRef held le).pair fun name q _ le => ?_
  refine (reads_readU2 d).delivers le (halts_readClassRefs halts_skipMembers)
    fun superIndex q _ le => ?_
  refine (finds_superNameAt held superIndex).delivers le fun superName _ => ?_
  refine delivers_readClassRefs held le halts_skipMembers fun interfaces members start => ?_
  refine delivers_state fun _ => ?_
  refine (delivers_skipMembers held start).bind fun fields _ q hfields behind le => ?_
  cases behind
  refine (delivers_skipMembers held le).bind fun methods _ q hmethods behind le => ?_
  cases behind
  refine (delivers_readAttributes held le).pair fun a q attributes le => ?_
  refine (delivers_signatureAt held (place_le_of_scan attributes .signature) le).bind
    fun signature _ q _ same le => ?_
  cases same
  exact delivers_readDeclarations held le start hfields hmethods attributes

end Walk

/-- The checked reader has no breach.  It ends with the cursor inside the file, with the events of
`readClass`, and with the problem of `readClass` if there is one. -/
theorem walkClass_completes (d : ByteArray) :
    ∃ c : Cursor, c.pos ≤ d.size ∧ c.events = (readClass d).events ∧
      ((readClass d).result = .ok () ∧ c.problem = none ∧ walkClass d = .ok (some (), c) ∨
        ∃ e, (readClass d).result = .error e ∧ c.problem = some e ∧
          walkClass d = .ok (none, c)) :=
  Walk.completes_readClass d

end ClassAbi
