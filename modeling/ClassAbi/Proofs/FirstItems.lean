import ClassAbi.Outline.Class
import ClassAbi.Proofs.CanonicalOrder
import Mathlib.Data.List.Nodup

/-!
# The first item of each key

Annotations, fields and methods are listed in canonical order.  `SortsFirstItems` says what
that comes to: the order of the items is a strict weak order that tells apart what has different
keys, and the list ascends in it and has of each key the item that arrived first and no other.
So only the first items matter, and when all keys are different the order of arrival does
not matter at all.

An item can arrive twice, so which of two equal items is listed is said by its place among those
that arrived (`SortsFirstItems.places`).  Places are followed by listing the items together
with them.
-/

namespace ClassAbi

/-- The order does not tell the items apart. -/
def Alike {α : Type} (before : α → α → Bool) (a b : α) : Prop :=
  before a b = false ∧ before b a = false

/-- What the canonical order makes of items with keys. -/
structure SortsFirstItems {α κ : Type} [DecidableEq κ] (key : α → κ) (before : α → α → Bool) :
    Prop where
  /-- No item is before itself. -/
  irrefl : ∀ a, before a a = false
  /-- What is before an item is before all that the item is before. -/
  trans : ∀ {a b c}, before a b → before b c → before a c
  /-- Being alike goes on from item to item. -/
  alike_trans : ∀ {a b c}, Alike before a b → Alike before b c → Alike before a c
  /-- Items are alike just when they have the same key. -/
  alike_iff : ∀ {a b}, Alike before a b ↔ key a = key b
  /-- The listed items ascend strictly. -/
  ascending : ∀ items, (canonicalOrder before items).Pairwise fun a b => before a b
  /-- Only items that arrived are listed. -/
  arrived : ∀ items, canonicalOrder before items ⊆ items
  /-- Of each key the first item that arrived is listed, and no other. -/
  first : ∀ items k, (canonicalOrder before items).filter (key · = k) =
    (items.find? (key · = k)).toList
  /-- The places of the listed items are those with no item of the same key in front. -/
  places : ∀ items, ∃ places : List Nat,
    canonicalOrder before items = places.filterMap (items[·]?) ∧
    ∀ i, i ∈ places ↔ ∃ here : i < items.length, ∀ j (earlier : j < i),
      key items[j] ≠ key items[i]
  /-- Where all keys are different the order of arrival does not matter. -/
  perm : ∀ {items items'}, items.Perm items' → (items.map key).Nodup →
    canonicalOrder before items = canonicalOrder before items'

section Keyed

variable {α κ : Type} [DecidableEq κ] {before : κ → κ → Bool} {key : α → κ}

/-- An ascending list has no two items of one key. -/
theorem filter_of_ascending (order : StrictOrder before) {chosen : List α}
    (ascending : chosen.Pairwise fun a b => before (key a) (key b)) (k : κ) :
    chosen.filter (key · = k) = (chosen.find? (key · = k)).toList := by
  induction ascending with
  | nil => rfl
  | @cons a chosen first _ ih =>
    by_cases here : key a = k
    · subst here
      have rest : chosen.filter (key · = key a) = [] := by
        refine List.filter_eq_nil_iff.mpr fun b mem => ?_
        simpa using (order.ne (first b mem)).symm
      rw [find?_cons_self, List.filter_cons_of_pos (by simp), rest]
      rfl
    · rw [find?_cons_of_ne here, List.filter_cons_of_neg (by simpa using here), ih]

/-- Where all keys are different an item is found by its key wherever it stands. -/
theorem find?_eq_some_of_nodup {items : List α} (distinct : (items.map key).Nodup) {k : κ} {a : α} :
    items.find? (key · = k) = some a ↔ a ∈ items ∧ key a = k := by
  constructor
  · intro found
    exact ⟨List.mem_of_find?_eq_some found, by simpa using List.find?_some found⟩
  · rintro ⟨mem, rfl⟩
    have some : (items.find? (key · = key a)).isSome := by
      rw [List.find?_isSome]
      exact ⟨a, mem, by simp⟩
    obtain ⟨b, found⟩ := Option.isSome_iff_exists.mp some
    have same : key b = key a := by simpa using List.find?_some found
    rw [found, List.inj_on_of_nodup_map distinct (List.mem_of_find?_eq_some found) mem same]

theorem find?_eq_of_perm {items items' : List α} (perm : items.Perm items')
    (distinct : (items.map key).Nodup) (k : κ) :
    items.find? (key · = k) = items'.find? (key · = k) := by
  have distinct' : (items'.map key).Nodup := (perm.map key).nodup_iff.mp distinct
  refine Option.ext fun a => ?_
  rw [find?_eq_some_of_nodup distinct, find?_eq_some_of_nodup distinct', perm.mem_iff]

/-- Items and their places are found by key where the first item of the key stands. -/
theorem find?_zipIdx_eq_some {items : List α} {k : κ} {a : α} {i : Nat} :
    items.zipIdx.find? (fun x => key x.1 = k) = some (a, i) ↔
      ∃ here : i < items.length, items[i] = a ∧ key a = k ∧
        ∀ j (earlier : j < i), key items[j] ≠ k := by
  rw [List.find?_eq_some_iff_getElem]
  constructor
  · rintro ⟨same, n, inside, there, others⟩
    simp only [List.getElem_zipIdx, Nat.zero_add, Prod.mk.injEq] at there
    obtain ⟨item, rfl⟩ := there
    refine ⟨by simpa using inside, item, by simpa using same, fun j earlier => ?_⟩
    simpa using others j earlier
  · rintro ⟨here, item, same, others⟩
    refine ⟨by simpa using same, i, by simpa using here, by simp [item], fun j earlier => ?_⟩
    simpa using others j earlier

/-- The listed items, by their places. -/
theorem exists_places (order : StrictOrder before) (key : α → κ) (items : List α) :
    ∃ places : List Nat,
      canonicalOrder (fun a b => before (key a) (key b)) items = places.filterMap (items[·]?) ∧
      ∀ i, i ∈ places ↔ ∃ here : i < items.length, ∀ j (earlier : j < i),
        key items[j] ≠ key items[i] := by
  have canonical := isCanonical_canonicalOrder order (fun x : α × Nat => key x.1) items.zipIdx
  have listed := canonicalOrder_map order key (fun x : α × Nat => (rfl : key x.1 = key x.1))
    items.zipIdx
  rw [List.zipIdx_map_fst] at listed
  generalize canonicalOrder (fun x y : α × Nat => before (key x.1) (key y.1)) items.zipIdx = chosen
    at canonical listed
  refine ⟨chosen.map Prod.snd, ?_, fun i => ?_⟩
  · rw [listed, List.filterMap_map, ← List.filterMap_eq_map]
    refine List.filterMap_congr fun x mem => ?_
    have arrived := canonical.mem order mem
    exact (List.mem_zipIdx_iff_getElem?.mp arrived).symm
  · constructor
    · intro mem
      obtain ⟨⟨a, i⟩, listed, rfl⟩ := List.mem_map.mp mem
      have found := find?_of_ascending order canonical.ascending listed
      rw [canonical.first] at found
      obtain ⟨here, rfl, -, others⟩ := find?_zipIdx_eq_some.mp found
      exact ⟨here, others⟩
    · rintro ⟨here, others⟩
      have found := find?_zipIdx_eq_some.mpr ⟨here, rfl, rfl, others⟩
      rw [← canonical.first] at found
      exact List.mem_map.mpr ⟨_, List.mem_of_find?_eq_some found, rfl⟩

/-- Items with keys of a strict order are sorted, and of each key the first is kept. -/
theorem sortsFirstItems (order : StrictOrder before) (key : α → κ) :
    SortsFirstItems key fun a b => before (key a) (key b) := by
  have alike {a b : α} : Alike (fun a b => before (key a) (key b)) a b ↔ key a = key b := by
    constructor
    · exact fun both => order.eq both.1 both.2
    · intro same
      rw [Alike, same, order.irrefl]
      exact ⟨rfl, rfl⟩
  exact {
    irrefl := fun a => order.irrefl (key a)
    trans := order.trans
    alike_trans := by
      intro a b c ab bc
      rw [alike] at ab bc ⊢
      exact ab.trans bc
    alike_iff := alike
    ascending := fun items => (isCanonical_canonicalOrder order key items).ascending
    arrived := fun items => (canonicalOrder_subperm order key items).subset
    first := by
      intro items k
      have canonical := isCanonical_canonicalOrder order key items
      rw [filter_of_ascending order canonical.ascending, canonical.first]
    places := exists_places order key
    perm := by
      intro items items' perm distinct
      have canonical := isCanonical_canonicalOrder order key items
      have canonical' := isCanonical_canonicalOrder order key items'
      exact canonical.eq order canonical' (find?_eq_of_perm perm distinct) }

end Keyed

/-- Annotations are sorted by type and visibility, fields and methods by name and descriptor, and
of those with one key the first that arrived is kept. -/
theorem canonicalOrder_sortsFirstItems :
    SortsFirstItems AnnotationOutline.key AnnotationOutline.before ∧
    SortsFirstItems FieldOutline.key FieldOutline.before ∧
    SortsFirstItems MethodOutline.key MethodOutline.before :=
  ⟨sortsFirstItems strictOrder_annotationKey _, sortsFirstItems strictOrder_memberKey _,
    sortsFirstItems strictOrder_memberKey _⟩

end ClassAbi
