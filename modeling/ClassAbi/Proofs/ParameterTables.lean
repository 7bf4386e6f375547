import ClassAbi.Proofs.NormalForm
import ClassAbi.Proofs.ReadBack

/-!
# Tables of parameter annotations

A file has one table of annotations for each parameter, and the number of the
parameter is the place of its table.  The annotations of a parameter can be found
again by the number.  Annotations that come parameter by parameter are in normal
form when those of each parameter are.
-/

namespace ClassAbi

/-! ## Numbers of parameters -/

theorem exists_of_mem_numberedFrom {first : Nat} {tables : List (List Annotation)}
    {x : Int × Annotation} (mem : x ∈ numberedFrom first tables) :
    ∃ i : Nat, x.1 = i ∧ first ≤ i ∧ i < first + tables.length ∧ ∃ as ∈ tables, x.2 ∈ as := by
  induction tables generalizing first with
  | nil => cases mem
  | cons as tables ih =>
    rw [numberedFrom_cons] at mem
    rcases List.mem_append.mp mem with here | later
    · obtain ⟨a, mem', rfl⟩ := List.mem_map.mp here
      exact ⟨first, rfl, Nat.le_refl _, by simp, as, List.mem_cons_self, mem'⟩
    · obtain ⟨i, number, low, high, as', mem, mem'⟩ := ih later
      refine ⟨i, number, by omega, ?_, as', List.mem_cons_of_mem _ mem, mem'⟩
      rw [List.length_cons]
      omega

/-- The annotations with a number are the table in its place. -/
theorem filter_numberedFrom {first i : Nat} {tables : List (List Annotation)}
    {as : List Annotation} (table : tables[i]? = some as) :
    ((numberedFrom first tables).filter (·.1 = ((first + i : Nat) : Int))).map (·.2) = as := by
  induction tables generalizing first i with
  | nil => cases table
  | cons as' tables ih =>
    have keeps : ∀ {n : Nat}, n = first →
        (as'.map fun a => ((first : Int), a)).filter (·.1 = (n : Int)) =
          as'.map fun a => ((first : Int), a) := by
      rintro _ rfl
      exact List.filter_eq_self.mpr (by simp)
    have drops : ∀ {n : Nat}, n ≠ first →
        (as'.map fun a => ((first : Int), a)).filter (·.1 = (n : Int)) = [] := by
      intro n differs
      rw [List.filter_eq_nil_iff]
      intro x mem
      obtain ⟨a, -, rfl⟩ := List.mem_map.mp mem
      simp only [decide_eq_true_eq]
      omega
    rw [numberedFrom_cons, List.filter_append, List.map_append]
    cases i with
    | zero =>
      cases table
      have none : (numberedFrom (first + 1) tables).filter (·.1 = ((first + 0 : Nat) : Int)) = [] := by
        rw [List.filter_eq_nil_iff]
        intro x mem
        obtain ⟨i, number, low, -, -⟩ := exists_of_mem_numberedFrom mem
        simp only [decide_eq_true_eq]
        omega
      rw [none, keeps (Nat.add_zero first), List.map_nil, List.append_nil, List.map_map]
      exact List.map_id as
    | succ i =>
      rw [drops (by omega), List.map_nil, List.nil_append,
        show first + (i + 1) = first + 1 + i by omega]
      exact ih table

/-! ## Normal form -/

/-- Annotations that come by parameter are in normal form if those of each parameter are. -/
theorem isCanonical_numberedFrom (first : Nat) (tables : List (List Annotation)) :
    IsCanonical parameterKey ParameterKey.before (numberedFrom first tables)
      (numberedFrom first (tables.map canonicalAnnotations)) := by
  induction tables generalizing first with
  | nil => exact isCanonical_self .nil
  | cons as tables ih =>
    have front : IsCanonical parameterKey ParameterKey.before (as.map ((first : Int), ·))
        ((canonicalAnnotations as).map ((first : Int), ·)) := by
      have injective : Function.Injective (ParameterKey.mk first) :=
        fun a b same => (ParameterKey.mk.inj same).2
      have mono : ∀ {a b : AnnotationKey}, a.before b →
          (ParameterKey.mk first a).before (ParameterKey.mk first b) := by
        intro a b ab
        simpa [ParameterKey.before] using ab
      exact ((isCanonical_annotations as).comp injective mono).map (f := fun a => ((first : Int), a))
        fun _ => rfl
    rw [List.map_cons, numberedFrom_cons, numberedFrom_cons]
    refine front.append (ih (first + 1)) fun x mem y mem' => ?_
    obtain ⟨a, -, rfl⟩ := List.mem_map.mp mem
    obtain ⟨i, number, low, -, -⟩ := exists_of_mem_numberedFrom mem'
    have lt : first < i := low
    have differs : first ≠ i := Nat.ne_of_lt lt
    simp [ParameterKey.before, parameterKey, number, lt, differs]

/-! ## Methods with tables -/

/-- The tables of each visibility hold annotations of the visibility. -/
def TablesShown (tables : Bool → Option (List (List Annotation))) : Prop :=
  ∀ visible, ∀ as ∈ (tables visible).getD [], ∀ a ∈ as, a.visible = visible

namespace Method

variable (h : MethodHeader) (v : Option Value) (as : List Annotation)
  {tables : Bool → Option (List (List Annotation))}

theorem defaults_tabled :
    (tabled h v as tables).defaults = v.toList.map fun x => .cons [] x .nil := by
  rw [tabled_eq_ordered, defaults_ordered]

theorem annotations_tabled : (tabled h v as tables).annotations = as := by
  rw [tabled_eq_ordered, annotations_ordered]

theorem defaultValues_tabled : (tabled h v as tables).defaultValues = v.toList := by
  rw [defaultValues, defaults_tabled]
  cases v <;> rfl

theorem parameterCounts_tabled (visible : Bool) :
    (tabled h v as tables).parameterCounts visible =
      (tables visible).toList.map fun x => (x.length : Int) := by
  rw [tabled_eq_ordered, parameterCounts_ordered]

theorem parameterAnnotationsOf_tabled (shown : TablesShown tables) (visible : Bool) :
    (tabled h v as tables).parameterAnnotationsOf visible =
      numberedFrom 0 ((tables visible).getD []) := by
  rw [tabled_eq_ordered]
  refine parameterAnnotationsOf_ordered _ _ _ _ _ (fun visible x mem => ?_) visible
  obtain ⟨_, -, -, -, table, mem', mem''⟩ := exists_of_mem_numberedFrom mem
  exact shown visible table mem' x.2 mem''

/-- The annotations are on parameters for which there is a table. -/
theorem coveredParameters_tabled (shown : TablesShown tables) (visible : Bool) :
    (tabled h v as tables).coveredParameters visible = (tables visible).map List.length := by
  have annotated : (tabled h v as tables).annotatedParameters visible =
      (numberedFrom 0 ((tables visible).getD [])).map (·.1.toNat) := by
    rw [← parameterAnnotationsOf_tabled h v as shown]
    rfl
  rw [coveredParameters, annotated, parameterCounts_tabled]
  cases tables visible with
  | none => rfl
  | some ts =>
    show ((ts.length : Int).toNat :: _).max? = some ts.length
    rw [Int.toNat_natCast, List.max?_eq_some_iff]
    refine ⟨List.mem_cons_self, fun n mem => ?_⟩
    rcases List.mem_cons.mp mem with rfl | mem
    · exact Nat.le_refl _
    · obtain ⟨_, mem', rfl⟩ := List.mem_map.mp mem
      obtain ⟨x, mem'', rfl⟩ := List.mem_map.mp mem'
      obtain ⟨i, number, -, high, -⟩ := exists_of_mem_numberedFrom mem''
      rw [Option.getD_some] at high
      omega

/-- The annotations of one parameter and one visibility, chosen in the other order. -/
theorem filter_annotationsOf (m : Method) (i : Nat) (visible : Bool) :
    (m.annotationsOf i).filter (·.visible == visible) =
      ((m.parameterAnnotationsOf visible).filter (·.1 = (i : Int))).map (·.2) := by
  rw [annotationsOf, parameterAnnotationsOf, List.filter_map, List.filter_filter,
    List.filter_filter]
  simp only [Function.comp_def, Bool.and_comm]

theorem readBackOf_annotationsOf (m : Method) (visible : Bool) (i : Nat) :
    readBackOf visible (m.annotationsOf i) =
      (((m.parameterAnnotationsOf visible).filter (·.1 = (i : Int))).map (·.2)).map
        Annotation.readBack := by
  rw [readBackOf, filter_annotationsOf]

/-- The tables are found again. -/
theorem parameterTables_tabled (shown : TablesShown tables) (visible : Bool) :
    (tabled h v as tables).parameterTables visible =
      (tables visible).map (·.map (·.map Annotation.readBack)) := by
  have found := parameterAnnotationsOf_tabled h v as shown visible
  rw [parameterTables, coveredParameters_tabled h v as shown, Option.map_map]
  cases eq : tables visible with
  | none => rfl
  | some ts =>
    rw [eq, Option.getD_some] at found
    refine congrArg some (List.ext_getElem? fun i => ?_)
    simp only [List.getElem?_map, readBackOf_annotationsOf, found]
    cases table : ts[i]? with
    | none => simp [List.getElem?_eq_none_iff.mp table]
    | some as =>
      obtain ⟨lt, -⟩ := List.getElem?_eq_some_iff.mp table
      have place : ((numberedFrom 0 ts).filter (·.1 = ((0 + i : Nat) : Int))).map (·.2) = as :=
        filter_numberedFrom table
      rw [Nat.zero_add] at place
      simp only [Function.comp, List.getElem?_map, List.getElem?_range lt, Option.map_some, place]

theorem readBack_tabled (shown : TablesShown tables) :
    (tabled h v as tables).readBack =
      tabled { h with access := h.access.stored } (v.map Value.readBack) (readBackAll as)
        fun visible => (tables visible).map (·.map (·.map Annotation.readBack)) := by
  have first : (tabled h v as tables).defaultValues.head? = v := by
    rw [defaultValues_tabled]
    cases v <;> rfl
  rw [readBack, first, annotations_tabled, funext (parameterTables_tabled h v as shown)]
  rfl

/-- The normal form has its tables in normal form. -/
theorem canonical_tabled (shown : TablesShown tables) :
    (tabled h v as tables).canonical =
      tabled h v (canonicalAnnotations as) fun visible =>
        (tables visible).map (·.map canonicalAnnotations) := by
  have default : (tabled h v as tables).defaults.getLast?.toList =
      v.toList.map fun x => .cons [] x .nil := by
    rw [defaults_tabled]
    cases v <;> rfl
  have counts : (tabled h v as tables).lastCount = fun visible =>
      ((tables visible).map (·.map canonicalAnnotations)).toList.map fun x => (x.length : Int) := by
    funext visible
    rw [lastCount, parameterCounts_tabled]
    cases tables visible <;> simp
  have parameters : (tabled h v as tables).canonicalParameters = fun visible =>
      numberedFrom 0 (((tables visible).map (·.map canonicalAnnotations)).getD []) := by
    funext visible
    rw [canonicalParameters, parameterAnnotationsOf_tabled h v as shown]
    refine ((isCanonical_numberedFrom 0 _).canonicalOrder_eq strictOrder_parameterKey).trans ?_
    cases tables visible <;> rfl
  rw [canonical, default, annotations_tabled, counts, parameters]
  exact (tabled_eq_ordered ..).symm

end Method

end ClassAbi
