import ClassAbi.Extraction.EntryName
import Mathlib.Data.List.DropRight
import Mathlib.Data.List.Infix

/-!
# Names below a class root

The entry of a loose class file is named for what stands behind the class root and one slash
in its path.  It does not matter how many slashes the class root ends with, since they are
left out first.

A class root that has nothing but slashes keeps one of them, and another one is put behind
it.  So below the root directory only paths that begin with two slashes have a name
(`entryNameFor_spec`).
-/

namespace ClassAbi

/-- A class root without the slashes at its end. -/
def withoutSlashes (root : Text) : Text := root.rdropWhile (· == 47)

theorem withoutSlashes_eq_nil_iff {root : Text} :
    withoutSlashes root = [] ↔ root.reverse.dropWhile (· == 47) = [] :=
  List.reverse_eq_nil_iff

/-- The first byte stays if it is the only one left. -/
theorem dropSlashes_eq {reversed : Text} (given : reversed ≠ []) :
    dropSlashes reversed =
      if reversed.dropWhile (· == 47) = [] then [47] else reversed.dropWhile (· == 47) := by
  fun_induction dropSlashes reversed with
  | case1 c rest ih => exact ih (List.cons_ne_nil c rest)
  | case2 reversed single =>
    cases reversed with
    | nil => exact absurd rfl given
    | cons c rest =>
      by_cases here : c = 47
      · cases rest with
        | nil =>
          rw [here]
          rfl
        | cons c' rest => exact absurd (single c' rest (by rw [here])) id
      · have kept : (c :: rest).dropWhile (· == 47) = c :: rest :=
          List.dropWhile_cons_of_neg (by rw [beq_iff_eq]; exact here)
        rw [kept, if_neg (List.cons_ne_nil c rest)]

theorem trimmedRoot_eq {root : Text} (given : root ≠ []) :
    trimmedRoot root = if withoutSlashes root = [] then [47] else withoutSlashes root := by
  rw [trimmedRoot, dropSlashes_eq (List.reverse_ne_nil_iff.mpr given)]
  by_cases slashes : root.reverse.dropWhile (· == 47) = []
  · rw [if_pos slashes, if_pos (withoutSlashes_eq_nil_iff.mpr slashes)]
    rfl
  · rw [if_neg slashes, if_neg (mt withoutSlashes_eq_nil_iff.mp slashes)]
    rfl

/-- A path has a name exactly if something stands behind the class root and a slash. -/
theorem entryNameFor_eq_ok {path root name : Text} (given : root ≠ []) :
    entryNameFor path root = .ok name ↔ name ≠ [] ∧ path = rootHead root ++ name := by
  have named : root.isEmpty = false := List.isEmpty_eq_false_iff.mpr given
  rw [entryNameFor, named, if_neg Bool.false_ne_true]
  constructor
  · intro found
    split at found
    · next below =>
      rw [Bool.and_eq_true, decide_eq_true_eq] at below
      obtain ⟨rest, rfl⟩ := List.isPrefixOf_iff_prefix.mp below.1
      rw [List.drop_left] at found
      cases found
      refine ⟨?_, rfl⟩
      rintro rfl
      exact absurd below.2 (by rw [List.append_nil]; exact Nat.lt_irrefl _)
    · cases found
  · rintro ⟨more, rfl⟩
    have below : (Text.startsWith (rootHead root ++ name) (rootHead root) &&
        decide ((rootHead root).length < (rootHead root ++ name).length)) = true := by
      rw [Bool.and_eq_true, decide_eq_true_eq, List.length_append]
      exact ⟨List.isPrefixOf_iff_prefix.mpr (List.prefix_append _ _),
        Nat.lt_add_of_pos_right (List.length_pos_iff.mpr more)⟩
    rw [if_pos below, List.drop_left]

/-- A failure tells the path and the class root. -/
theorem eq_of_entryNameFor_eq_error {path root : Text} {e : EntryNameError}
    (failed : entryNameFor path root = .error e) : e = ⟨path, root⟩ := by
  unfold entryNameFor at failed
  split at failed
  · cases failed
  split at failed
  · cases failed
  · cases failed
    rfl

theorem EntryNameError.message_ne_nil (e : EntryNameError) : e.message ≠ [] :=
  List.append_ne_nil_of_left_ne_nil (List.append_ne_nil_of_right_ne_nil _ (by decide)) _

/-- Below a class root that names a directory, a path has a name exactly if it is the class
root without its last slashes, one slash and the name.  Below a class root of slashes only, it
has a name exactly if it is two slashes and the name.  Any other path is a failure, which says
something. -/
theorem entryNameFor_spec {root : Text} (given : root ≠ []) :
    (withoutSlashes root ≠ [] → ∀ path name, entryNameFor path root = .ok name ↔
      name ≠ [] ∧ path = withoutSlashes root ++ 47 :: name) ∧
    (withoutSlashes root = [] → ∀ path name, entryNameFor path root = .ok name ↔
      name ≠ [] ∧ path = 47 :: 47 :: name) ∧
    ∀ path e, entryNameFor path root = .error e → e = ⟨path, root⟩ ∧ e.message ≠ [] := by
  refine ⟨fun directory path name => ?_, fun slashes path name => ?_, fun path e failed => ?_⟩
  · rw [entryNameFor_eq_ok given, rootHead, trimmedRoot_eq given, if_neg directory,
      List.append_assoc]
    rfl
  · rw [entryNameFor_eq_ok given, rootHead, trimmedRoot_eq given, if_pos slashes]
    rfl
  · exact ⟨eq_of_entryNameFor_eq_error failed, e.message_ne_nil⟩

theorem entryNameFor_spec_out :
    Text.ascii "out//" ≠ [] ∧ withoutSlashes (Text.ascii "out//") = Text.ascii "out" ∧
      entryNameFor (Text.ascii "out/x/Z.class") (Text.ascii "out//") =
        .ok (Text.ascii "x/Z.class") ∧
      ∀ name, entryNameFor (Text.ascii "output/Z.class") (Text.ascii "out//") ≠ .ok name := by
  have given : Text.ascii "out//" ≠ [] := by decide
  have out : withoutSlashes (Text.ascii "out//") = Text.ascii "out" := by decide
  have named := (entryNameFor_spec given).1 (by rw [out]; decide)
  refine ⟨given, out, (named _ _).mpr ⟨by decide, by rw [out]; rfl⟩, fun name found => ?_⟩
  have split := ((named _ name).mp found).2
  rw [out] at split
  have differs : some (112 : UInt8) = some 47 := congrArg (·[3]?) split
  exact absurd differs (by decide)

/-- A file in the root directory is not below it, unless its path has a second slash. -/
theorem entryNameFor_rootDirectory :
    entryNameFor (Text.ascii "/A.class") (Text.ascii "/") =
        .error ⟨Text.ascii "/A.class", Text.ascii "/"⟩ ∧
      entryNameFor (Text.ascii "//A.class") (Text.ascii "/") = .ok (Text.ascii "A.class") :=
  ⟨rfl, rfl⟩

end ClassAbi
