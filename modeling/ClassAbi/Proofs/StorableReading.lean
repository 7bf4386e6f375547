import ClassAbi.Proofs.FoundLayouts
import ClassAbi.Proofs.OutlineFiles
import ClassAbi.Proofs.StorableDeclarations

/-!
# What is read can be stored

All that a reader delivers comes out of the constant pool of the file, and the
names of the attributes that it reads stand there too.  So a class that is read
can be stored with a supply that covers the pool (`exists_storable_of_read`).
Every count of the file is a number of one or two bytes, which is what the counts
of a file that is written have room for.
-/

namespace ClassAbi

/-- What is found in the table has its key in the supply. -/
structure ConstantTable.CoveredBy (t : ConstantTable) (U : List PoolKey) : Prop where
  text : ∀ {i s}, t.utf8At i = .ok s → .text s ∈ U
  classRef : ∀ {i name}, t.classNameAt i = .ok name → .classRef name ∈ U
  element : ∀ {i c}, t.HasElement i c → c.elementKey ∈ U
  constant : ∀ {descriptor i c}, t.constantAt descriptor i = .ok c → c.fieldKey ∈ U

section Reading

variable {d : ByteArray} {t : ConstantTable} {U : List PoolKey} (covered : t.CoveredBy U)

/-! ## Annotations -/

include covered

mutual

theorem Value.EncodedBy.storable : ∀ {v : Value} {bs : Text}, v.EncodedBy t bs → v.Storable U
  | .constant c, _, h => by
    rw [Value.EncodedBy] at h
    obtain ⟨i, found, -⟩ := h
    rw [Value.Storable]
    exact covered.element found
  | .enum descriptor value, _, h => by
    rw [Value.EncodedBy] at h
    obtain ⟨i, j, type, constant, -⟩ := h
    rw [Value.Storable]
    exact ⟨covered.text type, covered.text constant⟩
  | .nested descriptor values, _, h => by
    rw [Value.EncodedBy] at h
    obtain ⟨i, items, type, encoded, count, -⟩ := h
    rw [Value.Storable]
    exact ⟨covered.text type, count, encoded.storable⟩
  | .array elements, _, h => by
    rw [Value.EncodedBy] at h
    obtain ⟨items, encoded, count, -⟩ := h
    rw [Value.Storable]
    exact ⟨count, encoded.storable⟩

theorem Values.EncodedBy.storable :
    ∀ {vs : Values} {named : Bool} {bs : Text}, vs.EncodedBy t named bs → vs.Storable U named
  | .nil, _, _, _ => by
    rw [Values.Storable]
    trivial
  | .cons name value rest, named, _, h => by
    rw [Values.EncodedBy] at h
    obtain ⟨front, item, back, hname, hitem, hback, -⟩ := h
    rw [Values.Storable]
    refine ⟨?_, hitem.storable, hback.storable⟩
    rintro rfl
    obtain ⟨i, found, -⟩ := hname
    exact covered.text found

end

theorem Annotation.EncodedBy.storable {kind : Bool → AttributeKind} {visible : Bool}
    {a : Annotation} {bs : Text} (h : a.EncodedBy t visible bs)
    (named : .text (kind visible).name ∈ U) : a.Storable U kind := by
  obtain ⟨rfl, nesting, count, i, items, type, encoded, -⟩ := h
  exact ⟨named, covered.text type, count, encoded.storable covered, nesting⟩

/-- The annotations of one owner and one visibility can be stored. -/
theorem AnnotationsEncodedBy.storable {kind : Bool → AttributeKind} {visible : Bool}
    {as : List Annotation} {bs : Text} (h : AnnotationsEncodedBy t visible as bs)
    (named : .text (kind visible).name ∈ U) :
    as.length ≤ 0xFFFF ∧ ∀ a ∈ as, a.visible = visible ∧ a.Storable U kind := by
  refine ⟨h.1, fun a mem => ?_⟩
  obtain ⟨item, encoded⟩ := h.2.choose_spec.1.exists_of_mem mem
  exact ⟨encoded.1, encoded.storable covered named⟩

omit covered

theorem annotationsCounted_append {as bs : List Annotation}
    (has : as.length ≤ 0xFFFF ∧ ∀ a ∈ as, a.visible = true)
    (hbs : bs.length ≤ 0xFFFF ∧ ∀ a ∈ bs, a.visible = false) : AnnotationsCounted (as ++ bs) := by
  intro visible
  rw [filter_visible_append has.2 hbs.2]
  cases visible with
  | true => exact has.1
  | false => exact hbs.1

/-! ## Names of attributes -/

/-- Attributes that are noted have their names in the supply. -/
structure AttributeLocations.NamedIn (U : List PoolKey) (a : AttributeLocations) : Prop where
  place : ∀ (k : AttributeKind) offset, a.place k = some offset → .text k.name ∈ U
  deprecated : a.deprecated = true → .text (Text.ascii "Deprecated") ∈ U

include covered

theorem NotedIn.namedIn {attributes : List AttributeInfo} {a : AttributeLocations}
    (noted : NotedIn d t attributes a) : a.NamedIn U := by
  -- An attribute is found by its name, which is a text of the pool.
  have named {name info : Text} (mem : info ∈ infosNamed t name attributes) : .text name ∈ U := by
    obtain ⟨x, -, picked⟩ := List.mem_filterMap.mp mem
    split at picked
    · next found => exact covered.text found
    · cases picked
  refine ⟨fun k offset there => ?_, fun marked => ?_⟩
  · have rel := noted.place k
    rw [there] at rel
    cases last : lastInfo t k.name attributes with
    | none =>
      rw [last] at rel
      cases rel
    | some info => exact named (List.mem_of_getLast? last)
  · rw [noted.deprecated, marksDeprecated, Bool.not_eq_true', List.isEmpty_eq_false_iff] at marked
    obtain ⟨info, mem⟩ := List.exists_mem_of_ne_nil _ marked
    exact named mem

/-! ## What is noted -/

section Noted

variable {a : AttributeLocations} (named : a.NamedIn U)

include named

theorem marksStorable_of_signatureAt {flags : UInt16} {signature : Option Text}
    (h : signatureAt d t a.signature = .ok signature) :
    MarksStorable U (.ofFlags flags a.deprecated) signature where
  deprecated told := by
    rw [Access.isDeprecated_ofFlags] at told
    exact named.deprecated told
  signature := by
    rintro s rfl
    cases place : a.signature with
    | none =>
      rw [place] at h
      cases h
    | some offset =>
      rw [place] at h
      obtain ⟨⟨s', _⟩, scanned, h⟩ := bind_eq_ok.mp h
      cases h
      obtain ⟨-, i, -, found⟩ := scanUtf8Ref_eq_ok.mp scanned
      exact ⟨named.place .signature offset place, covered.text found⟩

theorem storable_of_constantValueAt {descriptor : Text} {c : Constant}
    (h : constantValueAt d t descriptor a.constantValue = .ok (some c)) :
    .text AttributeKind.constantValue.name ∈ U ∧ c.fieldKey ∈ U ∧ c.FitsField descriptor := by
  refine ⟨?_, ?_, fitsField_of_constantValueAt h⟩
  all_goals
    cases place : a.constantValue with
    | none =>
      rw [place] at h
      cases h
    | some offset =>
      rw [place] at h
      obtain ⟨⟨i, _⟩, -, h⟩ := bind_eq_ok.mp h
      obtain ⟨c', found, h⟩ := bind_eq_ok.mp h
      cases h
      first | exact covered.constant found | exact named.place .constantValue offset place

theorem storable_of_exceptionsAt {names : List Text}
    (h : exceptionsAt d t a.exceptions = .ok (some names)) :
    .text AttributeKind.exceptions.name ∈ U ∧ names.length ≤ 0xFFFF ∧
      ∀ name ∈ names, .classRef name ∈ U := by
  cases place : a.exceptions with
  | none =>
    rw [place] at h
    cases h
  | some offset =>
    rw [place] at h
    obtain ⟨⟨names', _⟩, scanned, h⟩ := bind_eq_ok.mp h
    cases h
    obtain ⟨bs, encoded, -⟩ := scanClassRefs_eq_ok.mp scanned
    refine ⟨named.place .exceptions offset place, encoded.1, fun name mem => ?_⟩
    obtain ⟨item, i, found, -⟩ := encoded.2.choose_spec.1.exists_of_mem mem
    exact covered.classRef found

omit named

/-- The annotations of one owner and one visibility, as they are read. -/
theorem exists_storable_of_readAnnotationsAt {opening : Text → Bool → Event}
    {kind : Bool → AttributeKind} {visible : Bool} {place : Option Nat} {events : List Event}
    (named : ∀ offset, place = some offset → .text (kind visible).name ∈ U)
    (h : readAnnotationsAt d t (opening · visible) place = ⟨events, .ok ()⟩) :
    ∃ as : List Annotation, as.length ≤ 0xFFFF ∧
      (∀ a ∈ as, a.visible = visible ∧ a.Storable U kind) ∧
      events = as.flatMap (·.events opening) := by
  cases place with
  | none =>
    cases h
    exact ⟨[], by simp, by simp, rfl⟩
  | some offset =>
    simp only [readAnnotationsAt, Delivery.bind_eq_ok, Delivery.pure_eq_ok,
      readAnnotations_eq_ok] at h
    obtain ⟨_, _, _, ⟨as, bs, encoded, -, -, rfl⟩, ⟨rfl, -⟩, rfl⟩ := h
    obtain ⟨count, each⟩ := encoded.storable covered (named offset rfl)
    exact ⟨as, count, each, List.append_nil _⟩

/-- Tables of parameter annotations of one visibility can be stored. -/
structure TablesStorable (U : List PoolKey) (visible : Bool) (tables : List (List Annotation)) :
    Prop where
  attributeName : .text (AttributeKind.parameterAnnotations visible).name ∈ U
  count : tables.length ≤ 0xFF
  each : ∀ as ∈ tables, as.length ≤ 0xFFFF ∧
    ∀ a ∈ as, a.visible = visible ∧ a.Storable U .parameterAnnotations

include named

theorem exists_storable_of_readParameterAnnotationsAt (visible : Bool) {events : List Event}
    (h : readParameterAnnotationsAt d t visible (a.place (.parameterAnnotations visible)) =
      ⟨events, .ok ()⟩) :
    ∃ tables, (∀ x, tables = some x → TablesStorable U visible x) ∧
      events = (parameterParts visible tables).flatMap MethodPart.events := by
  cases place : a.place (.parameterAnnotations visible) with
  | none =>
    rw [place] at h
    cases h
    exact ⟨none, by simp, rfl⟩
  | some offset =>
    have attributeName := named.place _ offset place
    rw [place] at h
    simp only [readParameterAnnotationsAt, Delivery.bind_eq_ok, Delivery.pure_eq_ok,
      readParameterAnnotations_eq_ok] at h
    obtain ⟨_, _, _, ⟨tables, bs, encoded, -, -, rfl⟩, ⟨rfl, -⟩, rfl⟩ := h
    refine ⟨some tables, ?_, ?_⟩
    · rintro x ⟨⟩
      refine ⟨attributeName, encoded.1, fun as mem => ?_⟩
      obtain ⟨item, table⟩ := encoded.2.choose_spec.1.exists_of_mem mem
      exact table.storable covered attributeName
    · rw [List.append_nil, parameterParts, List.flatMap_cons, List.flatMap_map]
      rfl

theorem exists_storable_of_readDefaultAt {events : List Event}
    (h : readDefaultAt d t a.annotationDefault = ⟨events, .ok ()⟩) :
    ∃ v : Option Value, (∀ x, v = some x → .text AttributeKind.annotationDefault.name ∈ U ∧
        x.nesting ≤ nestingLimit ∧ x.Storable U) ∧
      events = (defaultParts v).flatMap MethodPart.events := by
  cases place : a.annotationDefault with
  | none =>
    rw [place] at h
    cases h
    exact ⟨none, by simp, rfl⟩
  | some offset =>
    rw [place] at h
    simp only [readDefaultAt, Delivery.bind_eq_ok, Delivery.deliver_eq_ok,
      readOuterValue_eq_ok] at h
    obtain ⟨_, _, _, rfl, ⟨_, _, _, ⟨v, bs, encoded, -, -, rfl⟩, rfl, rfl⟩, rfl⟩ := h
    refine ⟨some v, ?_, ?_⟩
    · rintro x ⟨⟩
      exact ⟨named.place .annotationDefault offset place, encoded.2, encoded.1.storable covered⟩
    · simp [defaultParts, MethodPart.events, Values.events]

end Noted

/-! ## Members -/

omit covered

/-- The annotations with one number are a table, or there is no table and none of them. -/
theorem length_filter_numberedFrom {tables : List (List Annotation)}
    (each : ∀ as ∈ tables, as.length ≤ 0xFFFF) (i : Nat) :
    ((numberedFrom 0 tables).filter (·.1 = (i : Int))).length ≤ 0xFFFF := by
  cases table : tables[i]? with
  | some as =>
    have found : ((numberedFrom 0 tables).filter (·.1 = ((0 + i : Nat) : Int))).map Prod.snd = as :=
      filter_numberedFrom table
    rw [Nat.zero_add] at found
    rw [← List.length_map (f := Prod.snd), found]
    exact each as (List.mem_of_getElem? table)
  | none =>
    have absent := List.getElem?_eq_none_iff.mp table
    rw [List.filter_eq_nil_iff.mpr]
    · exact Nat.zero_le _
    · intro x mem
      obtain ⟨j, number, -, lt, -⟩ := exists_of_mem_numberedFrom mem
      rw [decide_eq_true_eq, number]
      omega

/-- What tables of parameter annotations add to a method can be stored. -/
theorem TablesStorable.part {visible : Bool} {tables : List (List Annotation)}
    (h : TablesStorable U visible tables) {part : MethodPart}
    (mem : part ∈ parameterParts visible (some tables)) : part.Storable U := by
  have count := h.count
  rcases List.mem_cons.mp mem with rfl | mem
  · exact ⟨h.attributeName, by omega, by omega⟩
  · obtain ⟨y, there, rfl⟩ := List.mem_map.mp mem
    obtain ⟨i, number, -, lt, table, hx, inside⟩ := exists_of_mem_numberedFrom there
    exact ⟨((h.each table hx).2 y.2 inside).2, by omega, by omega⟩

/-- What a default adds to a method can be stored. -/
theorem storable_of_mem_defaultParts {v : Option Value}
    (default : ∀ x, v = some x → .text AttributeKind.annotationDefault.name ∈ U ∧
      x.nesting ≤ nestingLimit ∧ x.Storable U)
    {part : MethodPart} (mem : part ∈ defaultParts v) : part.Storable U := by
  cases v with
  | none => cases mem
  | some x =>
    obtain ⟨named, nesting, stored⟩ := default x rfl
    cases List.mem_singleton.mp mem
    refine ⟨named, ⟨[], x, rfl, nesting⟩, ?_⟩
    rw [Values.Storable, Values.Storable]
    exact ⟨by simp, stored, trivial⟩

/-- A method as a reader finds it can be stored, if what it is made of can. -/
theorem storable_tabled {h : MethodHeader} {v : Option Value} {as : List Annotation}
    {tables : Bool → Option (List (List Annotation))} (name : .text h.name ∈ U)
    (descriptor : .text h.descriptor ∈ U) (marks : MarksStorable U h.access h.signature)
    (exceptions : ∀ names, h.exceptions = some names → .text AttributeKind.exceptions.name ∈ U ∧
      names.length ≤ 0xFFFF ∧ ∀ name ∈ names, .classRef name ∈ U)
    (default : ∀ x, v = some x → .text AttributeKind.annotationDefault.name ∈ U ∧
      x.nesting ≤ nestingLimit ∧ x.Storable U)
    (annotations : ∀ a ∈ as, a.Storable U .annotations) (counted : AnnotationsCounted as)
    (parameters : ∀ visible x, tables visible = some x → TablesStorable U visible x) :
    (Method.tabled h v as tables).Storable U where
  name := name
  descriptor := descriptor
  marks := marks
  exceptions := exceptions
  parts := by
    have ofTables {visible : Bool} {part : MethodPart}
        (mem : part ∈ parameterParts visible (tables visible)) : part.Storable U := by
      cases there : tables visible with
      | none =>
        rw [there] at mem
        cases mem
      | some x =>
        rw [there] at mem
        exact (parameters visible x there).part mem
    intro part mem
    simp only [Method.tabled, List.mem_append] at mem
    rcases mem with ((mem | mem) | mem) | mem
    · exact storable_of_mem_defaultParts default mem
    · obtain ⟨a, there, rfl⟩ := List.mem_map.mp mem
      exact annotations a there
    · exact ofTables mem
    · exact ofTables mem
  defaults := by
    rw [Method.defaults_tabled]
    cases v <;> simp
  counted := by
    have stored {visible : Bool} {table : List Annotation}
        (mem : table ∈ (tables visible).getD []) :
        table.length ≤ 0xFFFF ∧
          ∀ a ∈ table, a.visible = visible ∧ a.Storable U .parameterAnnotations := by
      cases there : tables visible with
      | none =>
        rw [there] at mem
        cases mem
      | some x =>
        rw [there] at mem
        exact (parameters visible x there).each table mem
    have shown : TablesShown tables := fun visible table mem a ha => ((stored mem).2 a ha).1
    refine ⟨by rwa [Method.annotations_tabled], fun i visible => ?_⟩
    rw [Method.filter_annotationsOf, Method.parameterAnnotationsOf_tabled h v as shown,
      List.length_map]
    exact length_filter_numberedFrom (fun table mem => (stored mem).1) i

include covered

/-- A field that is read can be stored. -/
theorem exists_storable_of_readField {l : MemberLayout} {events : List Event}
    (named : l.attributes.NamedIn U) (h : readField d t l = ⟨events, .ok ()⟩) :
    ∃ f : Field, events = f.events ∧ f.Storable U := by
  simp only [readField, Delivery.bind_eq_ok, Delivery.ofExcept_eq_ok, Delivery.deliver_eq_ok] at h
  obtain ⟨_, header, _, ⟨rfl, hheader⟩, ⟨_, _, _, rfl, ⟨_, _, _, visible, ⟨_, _, _, invisible, rfl,
    rfl⟩, rfl⟩, rfl⟩, rfl⟩ := h
  simp only [fieldHeader, bind_eq_ok, pure_eq_ok] at hheader
  obtain ⟨name, hname, descriptor, hdescriptor, signature, hsignature, value, hvalue, rfl⟩ := hheader
  obtain ⟨as, asCount, has, rfl⟩ :=
    exists_storable_of_readAnnotationsAt covered (named.place (.annotations true)) visible
  obtain ⟨bs, bsCount, hbs, rfl⟩ :=
    exists_storable_of_readAnnotationsAt covered (named.place (.annotations false)) invisible
  refine ⟨⟨⟨.ofFlags l.flags l.attributes.deprecated, name, descriptor, signature, value⟩,
    as ++ bs⟩, ?_, {
    name := covered.text hname
    descriptor := covered.text hdescriptor
    marks := marksStorable_of_signatureAt covered named hsignature
    value := by
      rintro c rfl
      exact storable_of_constantValueAt covered named hvalue
    annotations := fun a mem =>
      (List.mem_append.mp mem).elim (fun mem => (has a mem).2) fun mem => (hbs a mem).2
    counted := annotationsCounted_append ⟨asCount, fun a mem => (has a mem).1⟩
      ⟨bsCount, fun a mem => (hbs a mem).1⟩ }⟩
  simp [Field.events]

/-- A method that is read can be stored. -/
theorem exists_storable_of_readMethod {l : MemberLayout} {events : List Event}
    (named : l.attributes.NamedIn U) (h : readMethod d t l = ⟨events, .ok ()⟩) :
    ∃ m : Method, events = m.events ∧ m.Storable U ∧ m.ParametersNonneg := by
  simp only [readMethod, Delivery.bind_eq_ok, Delivery.ofExcept_eq_ok, Delivery.deliver_eq_ok] at h
  obtain ⟨_, header, _, ⟨rfl, hheader⟩, ⟨_, _, _, rfl, ⟨_, _, _, default, ⟨_, _, _, visible,
    ⟨_, _, _, invisible, ⟨_, _, _, shown, ⟨_, _, _, hidden, rfl, rfl⟩, rfl⟩, rfl⟩, rfl⟩, rfl⟩,
    rfl⟩, rfl⟩ := h
  simp only [methodHeader, bind_eq_ok, pure_eq_ok] at hheader
  obtain ⟨name, hname, descriptor, hdescriptor, signature, hsignature, exceptions, hexceptions,
    rfl⟩ := hheader
  obtain ⟨v, hv, rfl⟩ := exists_storable_of_readDefaultAt covered named default
  obtain ⟨as, asCount, has, rfl⟩ :=
    exists_storable_of_readAnnotationsAt covered (named.place (.annotations true)) visible
  obtain ⟨bs, bsCount, hbs, rfl⟩ :=
    exists_storable_of_readAnnotationsAt covered (named.place (.annotations false)) invisible
  obtain ⟨first, hfirst, rfl⟩ :=
    exists_storable_of_readParameterAnnotationsAt covered named true shown
  obtain ⟨second, hsecond, rfl⟩ :=
    exists_storable_of_readParameterAnnotationsAt covered named false hidden
  let tables := fun visible : Bool => if visible then first else second
  refine ⟨.tabled ⟨.ofFlags l.flags l.attributes.deprecated, name, descriptor, signature,
    exceptions⟩ v (as ++ bs) tables, ?_, ?_, Method.parametersNonneg_tabled _ _ _ _⟩
  · rw [Method.events_tabled, List.flatMap_append]
    simp only [List.append_assoc, List.nil_append, List.singleton_append]
    rfl
  · refine storable_tabled (covered.text hname) (covered.text hdescriptor)
      (marksStorable_of_signatureAt covered named hsignature) ?_ hv ?_ ?_ ?_
    · rintro names rfl
      exact storable_of_exceptionsAt covered named hexceptions
    · exact fun a mem =>
        (List.mem_append.mp mem).elim (fun mem => (has a mem).2) fun mem => (hbs a mem).2
    · exact annotationsCounted_append ⟨asCount, fun a mem => (has a mem).1⟩
        ⟨bsCount, fun a mem => (hbs a mem).1⟩
    · intro visible x hx
      cases visible with
      | true => exact hfirst x hx
      | false => exact hsecond x hx

omit covered

/-- Members that are read one behind the other, each with what is known of it. -/
theorem exists_of_foldMembers {α : Type} {P : α → Prop} {read : MemberLayout → Delivery Unit}
    {told : α → List Event} {ls : List MemberLayout}
    (hread : ∀ l ∈ ls, ∀ {events}, read l = ⟨events, .ok ()⟩ → ∃ x, events = told x ∧ P x)
    {events : List Event} (h : Delivery.fold (fun _ l => read l) () ls = ⟨events, .ok ()⟩) :
    ∃ xs : List α, events = xs.flatMap told ∧ xs.length = ls.length ∧ ∀ x ∈ xs, P x := by
  induction ls generalizing events with
  | nil =>
    obtain ⟨rfl, -⟩ := Delivery.fold_nil_eq_ok.mp h
    exact ⟨[], rfl, rfl, by simp⟩
  | cons l ls ih =>
    rw [Delivery.fold_cons_eq_ok] at h
    obtain ⟨_, _, _, first, rest, rfl⟩ := h
    obtain ⟨x, rfl, hx⟩ := hread l List.mem_cons_self first
    obtain ⟨xs, rfl, length, hxs⟩ := ih (fun l mem => hread l (List.mem_cons_of_mem _ mem)) rest
    exact ⟨x :: xs, rfl, congrArg (· + 1) length, List.forall_mem_cons.mpr ⟨hx, hxs⟩⟩

/-! ## Classes -/

/-- The members of a file are counted by two bytes. -/
theorem memberCounts_of_scan {l : ClassLayout} (h : ClassLayout.scan d = .ok l) :
    l.fields.size ≤ 0xFFFF ∧ l.methods.size ≤ 0xFFFF := by
  have count {t : ConstantTable} {offset stop : Nat} {ls : Array MemberLayout}
      (h : MemberLayout.scanAll d t offset = .ok (ls, stop)) : ls.size ≤ 0xFFFF := by
    obtain ⟨ms, -, few, -, -, laidOut⟩ := exists_members_of_scanAll h
    rwa [← Array.length_toList, ← laidOut.length_eq]
  obtain ⟨⟨magic, _⟩, -, h⟩ := bind_eq_ok.mp h
  simp only at h
  split at h
  · cases h
  · simp only [bind_eq_ok, pure_eq_ok, Prod.exists] at h
    obtain ⟨_, _, -, _, _, -, table, _, -, _, _, -, _, _, -, _, _, -, _, -, _, _, -, fields, _,
      hfields, methods, _, hmethods, _, _, -, _, -, rfl⟩ := h
    exact ⟨count hfields, count hmethods⟩

end Reading

/-- The attributes of members are named. -/
theorem namedIn_of_laidOut {d : ByteArray} {t : ConstantTable} {U : List PoolKey}
    (covered : t.CoveredBy U) {ms : List MemberInfo} {ls : List MemberLayout}
    (laidOut : List.Forall₂ (LaidOut d t) ms ls) : ∀ l ∈ ls, l.attributes.NamedIn U := by
  induction laidOut with
  | nil => simp
  | cons first _ ih =>
    exact List.forall_mem_cons.mpr ⟨first.attributes.namedIn covered, ih⟩

/-- A class that is read from a file can be stored with what covers the constant pool. -/
theorem exists_storable_of_read {d : ByteArray} {l : ClassLayout} {U : List PoolKey}
    {events : List Event} (scanned : ClassLayout.scan d = .ok l) (covered : l.table.CoveredBy U)
    (h : l.read d = ⟨events, .ok ()⟩) :
    ∃ c : ClassDeclaration, events = c.events ∧ (∀ m ∈ c.methods, m.ParametersNonneg) ∧
      c.stream.Storable U := by
  obtain ⟨f, laidOut⟩ := exists_classFile_of_scan scanned
  rw [laidOut.table] at covered
  have named := laidOut.attributes.namedIn covered
  obtain ⟨names, encoded, interfaces⟩ := laidOut.interfaces
  obtain ⟨fieldCount, methodCount⟩ := memberCounts_of_scan scanned
  simp only [ClassLayout.read, Delivery.bind_eq_ok, Delivery.deliver_eq_ok, laidOut.table] at h
  obtain ⟨_, _, _, rfl, ⟨_, _, _, visible, ⟨_, _, _, invisible, ⟨_, _, _, hfields, ⟨_, _, _,
    hmethods, rfl, rfl⟩, rfl⟩, rfl⟩, rfl⟩, rfl⟩ := h
  obtain ⟨as, asCount, has, rfl⟩ :=
    exists_storable_of_readAnnotationsAt covered (named.place (.annotations true)) visible
  obtain ⟨bs, bsCount, hbs, rfl⟩ :=
    exists_storable_of_readAnnotationsAt covered (named.place (.annotations false)) invisible
  obtain ⟨fields, rfl, fieldLength, eachField⟩ := exists_of_foldMembers (fun x mem _ read =>
    exists_storable_of_readField covered (namedIn_of_laidOut covered laidOut.fields x mem) read)
    hfields
  obtain ⟨methods, rfl, methodLength, eachMethod⟩ := exists_of_foldMembers (fun x mem _ read =>
    exists_storable_of_readMethod covered (namedIn_of_laidOut covered laidOut.methods x mem) read)
    hmethods
  refine ⟨⟨l.header, as ++ bs, fields, methods⟩, ?_, fun m mem => (eachMethod m mem).2, {
    name := covered.classRef laidOut.name
    superName := fun name there => ?_
    marks := ?_
    interfaces := fun name mem => ?_
    interfaceCount := ?_
    annotations := fun a mem => ?_
    counted := ?_
    fields := fun x mem => eachField x (by simpa using mem)
    fieldCount := ?_
    methods := fun x mem => (eachMethod x (by simpa using mem)).1
    methodCount := ?_ }⟩
  · rw [ClassDeclaration.events_eq, List.flatMap_append]
    simp only [List.append_assoc, List.singleton_append]
  · have found := laidOut.superName
    change l.header.superName = some name at there
    rw [there, superNameAt] at found
    split at found
    · cases found
    · obtain ⟨name', found, same⟩ := bind_eq_ok.mp found
      cases same
      exact covered.classRef found
  · change MarksStorable U l.header.access l.header.signature
    rw [laidOut.access]
    exact marksStorable_of_signatureAt covered named laidOut.signature
  · change name ∈ l.header.interfaces.getD [] at mem
    rw [interfaces] at mem
    obtain ⟨item, i, found, -⟩ := encoded.2.choose_spec.1.exists_of_mem mem
    exact covered.classRef found
  · change (l.header.interfaces.getD []).length ≤ 0xFFFF
    rw [interfaces]
    exact encoded.1
  · rw [ClassDeclaration.annotations_stream] at mem
    exact (List.mem_append.mp mem).elim (fun mem => (has a mem).2) fun mem => (hbs a mem).2
  · rw [ClassDeclaration.annotations_stream]
    exact annotationsCounted_append ⟨asCount, fun a mem => (has a mem).1⟩
      ⟨bsCount, fun a mem => (hbs a mem).1⟩
  · rw [ClassDeclaration.fields_stream]
    change fields.length ≤ 0xFFFF
    rwa [fieldLength, Array.length_toList]
  · rw [ClassDeclaration.methods_stream]
    change methods.length ≤ 0xFFFF
    rwa [methodLength, Array.length_toList]

end ClassAbi
