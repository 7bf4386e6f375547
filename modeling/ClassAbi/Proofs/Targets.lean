import ClassAbi.ClassFile.Encoder

/-!
# The buffers of an encoder

Annotation values go to one buffer of the encoder while everything else stays.
`Encoder.writing` is an encoder with the given pool, open lists and contents of
one buffer.  An event of the innermost list takes one such encoder to another
(`visitValue_writing`), so a proof about values need not look at where their
buffer is kept.
-/

namespace ClassAbi

/-! ## Changing an item of an array -/

theorem modify_modify {α : Type} (a : Array α) (i : Nat) (f g : α → α) :
    (a.modify i f).modify i g = a.modify i fun x => g (f x) := by
  apply Array.ext_getElem?
  intro j
  simp only [Array.getElem?_modify]
  split
  · rw [Option.map_map]
    rfl
  · rfl

/-- Only what is done to the item that is there matters. -/
theorem modify_congr {α : Type} {a : Array α} {i : Nat} {f g : α → α}
    (h : ∀ x, a[i]? = some x → f x = g x) : a.modify i f = a.modify i g := by
  apply Array.ext_getElem?
  intro j
  rw [Array.getElem?_modify, Array.getElem?_modify]
  split
  · next same =>
    subst same
    cases found : a[i]? with
    | none => rfl
    | some x => rw [Option.map_some, Option.map_some, h x found]
  · rfl

theorem modify_eq_self {α : Type} {a : Array α} {i : Nat} {f : α → α}
    (h : ∀ x, a[i]? = some x → f x = x) : a.modify i f = a := by
  rw [modify_congr (g := fun x => x) h]
  apply Array.ext_getElem?
  intro j
  rw [Array.getElem?_modify]
  split
  · exact Option.map_id' ..
  · rfl

theorem modify_push {α : Type} (a : Array α) (x : α) (f : α → α) :
    (a.push x).modify a.size f = a.push (f x) := by
  apply Array.ext_getElem?
  intro j
  rw [Array.getElem?_modify, Array.getElem?_push, Array.getElem?_push]
  split
  · next same => simp [same]
  · next differs =>
    have differs : j ≠ a.size := fun h => differs h.symm
    simp [differs]

/-! ## Buffers as targets -/

namespace AnnotationTables

theorem get_modify (t : AnnotationTables) (visible : Bool) (f : AnnotationTable → AnnotationTable) :
    (t.modify visible f).get visible = f (t.get visible) := by
  cases visible <;> rfl

theorem get_modify_of_ne (t : AnnotationTables) {visible other : Bool} (h : other ≠ visible)
    (f : AnnotationTable → AnnotationTable) : (t.modify visible f).get other = t.get other := by
  cases visible <;> cases other <;> first | rfl | exact absurd rfl h

theorem modify_modify (t : AnnotationTables) (visible : Bool)
    (f g : AnnotationTable → AnnotationTable) :
    (t.modify visible f).modify visible g = t.modify visible fun x => g (f x) := by
  cases visible <;> rfl

/-- Only what is done to the table that is there matters. -/
theorem modify_congr {t : AnnotationTables} {visible : Bool} {f g : AnnotationTable → AnnotationTable}
    (h : f (t.get visible) = g (t.get visible)) : t.modify visible f = t.modify visible g := by
  cases visible with
  | true => exact congrArg (fun x => { t with visible := x }) h
  | false => exact congrArg (fun x => { t with invisible := x }) h

end AnnotationTables

namespace Encoder

/-- The encoder has the buffer that the target stands for. -/
def HasTarget (e : Encoder) : ValueTarget → Prop
  | .ofClass _ => True
  | .ofField i _ => i < e.fields.size
  | .ofDefault i => i < e.methods.size
  | .ofMethod i _ => i < e.methods.size
  | .ofParameter i parameter _ => ∃ d, e.methods[i]? = some d ∧ parameter < d.parameters.size

/-- The encoder with a pool, open lists and the contents of one buffer. -/
def writing (e : Encoder) (target : ValueTarget) (p : Pool)
    (opened : List (ValueTarget × OpenList)) (b : Buffer) : Encoder :=
  { e with pool := p, opened := opened }.setBuffer b target

variable (e : Encoder) (target : ValueTarget) (p : Pool)
  (opened : List (ValueTarget × OpenList)) (b : Buffer)

@[simp] theorem pool_writing : (e.writing target p opened b).pool = p := by
  cases target <;> rfl

@[simp] theorem opened_writing : (e.writing target p opened b).opened = opened := by
  cases target <;> rfl

/-- What was in the buffer, and the pool and open lists before, are replaced. -/
theorem writing_writing (p' : Pool) (opened' : List (ValueTarget × OpenList)) (b' : Buffer) :
    (e.writing target p opened b).writing target p' opened' b' =
      e.writing target p' opened' b' := by
  cases target <;>
    simp only [writing, setBuffer, modifyTable, modify_modify, AnnotationTables.modify_modify]

variable {e target}

theorem buffer_writing (has : e.HasTarget target) :
    (e.writing target p opened b).buffer target = b := by
  cases target with
  | ofClass visible =>
    simp only [writing, setBuffer, modifyTable, buffer, table, AnnotationTables.get_modify]
  | ofField i visible =>
    have lt : i < e.fields.size := has
    simp only [writing, setBuffer, modifyTable, buffer, table, Array.getElem?_modify, if_true,
      Array.getElem?_eq_getElem lt, Option.map_some, Option.getD_some,
      AnnotationTables.get_modify]
  | ofDefault i =>
    have lt : i < e.methods.size := has
    simp only [writing, setBuffer, buffer, table, Array.getElem?_modify, if_true,
      Array.getElem?_eq_getElem lt, Option.map_some, Option.getD_some]
  | ofMethod i visible =>
    have lt : i < e.methods.size := has
    simp only [writing, setBuffer, modifyTable, buffer, table, Array.getElem?_modify, if_true,
      Array.getElem?_eq_getElem lt, Option.map_some, Option.getD_some,
      AnnotationTables.get_modify]
  | ofParameter i parameter visible =>
    obtain ⟨d, found, lt⟩ := has
    simp only [writing, setBuffer, modifyTable, buffer, table, Array.getElem?_modify, if_true, found,
      Array.getElem?_eq_getElem lt, Option.map_some, Option.bind_some, Option.getD_some,
      AnnotationTables.get_modify]

/-- An event of the innermost list. -/
theorem visitValue_writing (has : e.HasTarget target) (l : OpenList)
    (outer : List (ValueTarget × OpenList)) (event : ValueEvent) :
    (e.writing target p ((target, l) :: outer) b).visitValue event =
      (l.write p b event).map fun x =>
        e.writing target x.2.1 (x.1.map ((target, ·)) ++ outer) x.2.2 := by
  rw [visitValue, opened_writing]
  simp only [pool_writing, buffer_writing p _ b has]
  cases l.write p b event with
  | error fault => rfl
  | ok x =>
    obtain ⟨inner, p', b'⟩ := x
    have taken : ((e.writing target p ((target, l) :: outer) b).writing target ∅
        ((target, l) :: outer) ∅).writing target p' (inner.map ((target, ·)) ++ outer) b' =
          e.writing target p' (inner.map ((target, ·)) ++ outer) b' := by
      rw [writing_writing, writing_writing]
    exact congrArg Except.ok taken

/-! ## Opening a list -/

variable (e target)

theorem modifyTable_modifyTable (f g : AnnotationTable → AnnotationTable) :
    (e.modifyTable f target).modifyTable g target =
      e.modifyTable (fun t => g (f t)) target := by
  cases target <;>
    simp only [modifyTable, modify_modify, AnnotationTables.modify_modify]

variable {e target}

/-- Only what is done to the table of the target matters. -/
theorem modifyTable_congr {f g : AnnotationTable → AnnotationTable}
    (h : f (e.table target) = g (e.table target)) :
    e.modifyTable f target = e.modifyTable g target := by
  cases target with
  | ofClass visible =>
    exact congrArg (fun x => { e with annotations := x }) (AnnotationTables.modify_congr h)
  | ofField i visible =>
    refine congrArg (fun x => { e with fields := x }) (modify_congr fun d found => ?_)
    simp only [table, found, Option.map_some, Option.getD_some] at h
    rw [AnnotationTables.modify_congr h]
  | ofDefault i => rfl
  | ofMethod i visible =>
    refine congrArg (fun x => { e with methods := x }) (modify_congr fun d found => ?_)
    simp only [table, found, Option.map_some, Option.getD_some] at h
    rw [AnnotationTables.modify_congr h]
  | ofParameter i parameter visible =>
    refine congrArg (fun x => { e with methods := x }) (modify_congr fun d found => ?_)
    have inner : d.parameters.modify parameter (·.modify visible f) =
        d.parameters.modify parameter (·.modify visible g) := by
      refine modify_congr fun tables there => ?_
      simp only [table, found, there, Option.map_some, Option.bind_some, Option.getD_some] at h
      exact AnnotationTables.modify_congr h
    rw [inner]

/-- The target is a table of annotations and no default. -/
def IsTable : ValueTarget → Prop
  | .ofDefault _ => False
  | _ => True

theorem writing_eq_modifyTable (isTable : IsTable target) :
    e.writing target p opened b =
      { e with pool := p, opened := opened }.modifyTable (fun t => { t with entries := b })
        target := by
  cases target <;> first | rfl | cases isTable

/-- Writing into a table whose count has been set. -/
theorem writing_modifyTable (isTable : IsTable target) (count : UInt16) :
    (e.modifyTable (fun t => { t with count := count }) target).writing target p opened b =
      { e with pool := p, opened := opened }.modifyTable (fun _ => ⟨count, b⟩) target := by
  rw [writing_eq_modifyTable p opened b isTable]
  have swap : { e.modifyTable (fun t => { t with count := count }) target with
      pool := p, opened := opened } =
      { e with pool := p, opened := opened }.modifyTable (fun t => { t with count := count })
        target := by
    cases target <;> rfl
  rw [swap, modifyTable_modifyTable]

/-- A default that opens goes on behind what its method has of it. -/
theorem writing_default (i : Nat) :
    e.writing (.ofDefault i) p opened (e.buffer (.ofDefault i)) =
      { e with pool := p, opened := opened } := by
  have same : (e.methods.modify i fun d => { d with defaults := e.buffer (.ofDefault i) }) =
      e.methods := by
    refine modify_eq_self fun d found => ?_
    simp only [buffer, table, found, Option.map_some, Option.getD_some]
  exact congrArg (fun x => { e with pool := p, opened := opened, methods := x }) same

theorem modifyTable_id (e : Encoder) (target : ValueTarget) :
    e.modifyTable (fun t => t) target = e := by
  have same (t : AnnotationTables) (visible : Bool) : t.modify visible (fun t => t) = t := by
    cases visible <;> rfl
  cases target <;> simp [modifyTable, same, modify_eq_self]

/-- An encoder writes into its own buffer, with its own pool and open lists. -/
theorem writing_self (e : Encoder) (target : ValueTarget) :
    e.writing target e.pool e.opened (e.buffer target) = e := by
  have same (isTable : IsTable target) :
      e.writing target e.pool e.opened (e.buffer target) = e := by
    rw [writing_eq_modifyTable _ _ _ isTable]
    have entries : e.modifyTable (fun t => { t with entries := e.buffer target }) target =
        e.modifyTable (fun t => t) target := modifyTable_congr rfl
    exact entries.trans (modifyTable_id e target)
  cases target with
  | ofDefault i => exact writing_default e.pool e.opened i
  | _ => exact same trivial

/-- Setting the count of a table leaves every target in place. -/
theorem hasTarget_modifyTable (has : e.HasTarget target) (f : AnnotationTable → AnnotationTable) :
    (e.modifyTable f target).HasTarget target := by
  cases target with
  | ofClass visible => trivial
  | ofField i visible => exact Nat.lt_of_lt_of_eq has Array.size_modify.symm
  | ofDefault i => exact has
  | ofMethod i visible => exact Nat.lt_of_lt_of_eq has Array.size_modify.symm
  | ofParameter i parameter visible =>
    obtain ⟨d, found, lt⟩ := has
    refine ⟨{ d with parameters := d.parameters.modify parameter (·.modify visible f) }, ?_, ?_⟩
    · simp only [modifyTable, Array.getElem?_modify, if_true, found, Option.map_some]
    · exact Nat.lt_of_lt_of_eq lt Array.size_modify.symm

theorem hasTarget_writing (has : e.HasTarget target) :
    (e.writing target p opened b).HasTarget target := by
  have has' : ({ e with pool := p, opened := opened } : Encoder).HasTarget target := by
    cases target <;> exact has
  cases target with
  | ofDefault i => exact Nat.lt_of_lt_of_eq has Array.size_modify.symm
  | _ => exact hasTarget_modifyTable has' _

/-! ## Targets of the last member -/

section Field

variable {before : Array FieldDraft} {d : FieldDraft} (last : e.fields = before.push d)
include last

theorem hasTarget_ofField (visible : Bool) : e.HasTarget (.ofField before.size visible) := by
  simp [HasTarget, last]

theorem table_ofField (visible : Bool) :
    e.table (.ofField before.size visible) = d.annotations.get visible := by
  simp [table, last]

end Field

section Method

variable {before : Array MethodDraft} {d : MethodDraft} (last : e.methods = before.push d)
include last

theorem hasTarget_ofDefault : e.HasTarget (.ofDefault before.size) := by
  simp [HasTarget, last]

theorem hasTarget_ofMethod (visible : Bool) : e.HasTarget (.ofMethod before.size visible) := by
  simp [HasTarget, last]

theorem table_ofMethod (visible : Bool) :
    e.table (.ofMethod before.size visible) = d.annotations.get visible := by
  simp [table, last]

variable {parameter : Nat} (there : parameter < d.parameters.size)
include there

theorem hasTarget_ofParameter (visible : Bool) :
    e.HasTarget (.ofParameter before.size parameter visible) :=
  ⟨d, by simp [last], there⟩

theorem table_ofParameter (visible : Bool) :
    e.table (.ofParameter before.size parameter visible) =
      ((d.parameters[parameter]?).getD .empty).get visible := by
  rw [Array.getElem?_eq_getElem there]
  simp [table, last, there]

end Method

end Encoder

end ClassAbi
