import ClassAbi.Outline.Order
import Mathlib.Data.List.Perm.Subperm
import Mathlib.Order.Basic

/-!
# What canonical order is

The canonical form of some items lists them strictly ascending by their keys,
and for each key the item is the first that arrived with the key (`IsCanonical`).
There is only one such list, and `canonicalOrder` is it.  So the canonical form
depends on nothing but the first item of each key.
-/

namespace ClassAbi

/-! ## Orders of keys -/

/-- A strict order in which any two keys can be compared. -/
structure StrictOrder {κ : Type} (before : κ → κ → Bool) : Prop where
  /-- No key is before itself. -/
  irrefl : ∀ a, before a a = false
  /-- What is before a key is before all that the key is before. -/
  trans : ∀ {a b c}, before a b → before b c → before a c
  /-- Keys of which neither is before the other are the same. -/
  eq : ∀ {a b}, before a b = false → before b a = false → a = b

namespace StrictOrder

variable {κ : Type} {before : κ → κ → Bool}

theorem asymm (h : StrictOrder before) {a b : κ} (ab : before a b) : before b a = false := by
  cases ba : before b a with
  | false => rfl
  | true =>
    have both := h.trans ab ba
    rw [h.irrefl] at both
    cases both

theorem ne (h : StrictOrder before) {a b : κ} (ab : before a b) : a ≠ b := by
  rintro rfl
  rw [h.irrefl a] at ab
  cases ab

/-- Of keys that are not the same one is before the other. -/
theorem total (h : StrictOrder before) (a b : κ) : before a b ∨ a = b ∨ before b a := by
  cases ab : before a b with
  | true => exact .inl rfl
  | false =>
    cases ba : before b a with
    | true => exact .inr (.inr rfl)
    | false => exact .inr (.inl (h.eq ab ba))

/-- What is not after a key is not after all that is not before the key. -/
theorem notAfter_trans (h : StrictOrder before) {a b c : κ} (ab : before b a = false)
    (bc : before c b = false) : before c a = false := by
  rcases h.total a b with first | same | after
  · cases ca : before c a with
    | false => rfl
    | true =>
      rw [h.trans ca first] at bc
      cases bc
  · rw [same]
    exact bc
  · rw [after] at ab
    cases ab

theorem notAfter_items (order : StrictOrder before) {α : Type} (key : α → κ) :
    ∀ a b c : α, !before (key b) (key a) → !before (key c) (key b) → !before (key c) (key a) := by
  intro a b c ab bc
  rw [Bool.not_eq_true'] at ab bc ⊢
  exact order.notAfter_trans ab bc

theorem notAfter_total (order : StrictOrder before) {α : Type} (key : α → κ) :
    ∀ a b : α, (!before (key b) (key a)) || !before (key a) (key b) := by
  intro a b
  cases ba : before (key b) (key a) with
  | false => rfl
  | true =>
    rw [order.asymm ba]
    rfl

end StrictOrder

theorem strictOrder_text [∀ a b : Text, Decidable (a < b)] :
    StrictOrder fun a b : Text => decide (a < b) where
  irrefl a := decide_eq_false (Std.lt_irrefl (a := a))
  trans ab bc := decide_eq_true (Std.lt_trans (of_decide_eq_true ab) (of_decide_eq_true bc))
  eq ab ba :=
    Std.le_antisymm (Std.not_lt.mp (of_decide_eq_false ba)) (Std.not_lt.mp (of_decide_eq_false ab))

theorem strictOrder_nat : StrictOrder fun a b : Nat => decide (a < b) where
  irrefl a := decide_eq_false (Nat.lt_irrefl a)
  trans ab bc := decide_eq_true (Nat.lt_trans (of_decide_eq_true ab) (of_decide_eq_true bc))
  eq ab ba :=
    Nat.le_antisymm (Nat.le_of_not_lt (of_decide_eq_false ba))
      (Nat.le_of_not_lt (of_decide_eq_false ab))

/-- Visible before invisible. -/
theorem strictOrder_visible : StrictOrder fun a b : Bool => a && !b where
  irrefl a := by cases a <;> rfl
  trans {a b c} ab bc := by revert ab bc; cases a <;> cases b <;> cases c <;> decide
  eq {a b} ab ba := by revert ab ba; cases a <;> cases b <;> decide

/-- Two orders one after the other. -/
theorem StrictOrder.lexicographic {κ κ₁ κ₂ : Type} [BEq κ₁] [LawfulBEq κ₁]
    {before₁ : κ₁ → κ₁ → Bool} {before₂ : κ₂ → κ₂ → Bool} (h₁ : StrictOrder before₁)
    (first : κ → κ₁) (second : κ → κ₂) (h₂ : StrictOrder before₂)
    (same : ∀ {a b}, first a = first b → second a = second b → a = b) :
    StrictOrder fun a b : κ =>
      if first a != first b then before₁ (first a) (first b) else before₂ (second a) (second b) where
  irrefl a := by
    rw [bne_self_eq_false, if_neg Bool.false_ne_true]
    exact h₂.irrefl (second a)
  trans {a b c} ab bc := by
    by_cases eq₁ : first a = first b <;> by_cases eq₂ : first b = first c
    · simp only [eq₁, eq₂, bne_self_eq_false, Bool.false_eq_true, if_false] at ab bc ⊢
      exact h₂.trans ab bc
    · simp only [eq₁, bne_iff_ne.mpr eq₂, if_true] at bc ⊢
      exact bc
    · simp only [← eq₂, bne_iff_ne.mpr eq₁, if_true] at ab ⊢
      exact ab
    · simp only [bne_iff_ne.mpr eq₁, bne_iff_ne.mpr eq₂, if_true] at ab bc
      have ac := h₁.trans ab bc
      rwa [if_pos (bne_iff_ne.mpr (h₁.ne ac))]
  eq {a b} ab ba := by
    by_cases eq : first a = first b
    · simp only [eq, bne_self_eq_false, Bool.false_eq_true, if_false] at ab ba
      exact same eq (h₂.eq ab ba)
    · simp only [bne_iff_ne.mpr eq, bne_iff_ne.mpr (Ne.symm eq), if_true] at ab ba
      exact absurd (h₁.eq ab ba) eq

theorem strictOrder_annotationKey : StrictOrder AnnotationKey.before :=
  strictOrder_text.lexicographic AnnotationKey.descriptor AnnotationKey.visible strictOrder_visible
    (by rintro ⟨_, _⟩ ⟨_, _⟩ rfl rfl; rfl)

theorem strictOrder_memberKey : StrictOrder MemberKey.before :=
  strictOrder_text.lexicographic MemberKey.name MemberKey.descriptor strictOrder_text
    (by rintro ⟨_, _⟩ ⟨_, _⟩ rfl rfl; rfl)

theorem strictOrder_parameterKey : StrictOrder ParameterKey.before :=
  strictOrder_nat.lexicographic ParameterKey.parameter ParameterKey.key strictOrder_annotationKey
    (by rintro ⟨_, _⟩ ⟨_, _⟩ rfl rfl; rfl)

/-! ## Canonical forms -/

/-- The canonical form of some items. -/
structure IsCanonical {α κ : Type} [DecidableEq κ] (key : α → κ) (before : κ → κ → Bool)
    (items chosen : List α) : Prop where
  /-- The keys ascend. -/
  ascending : chosen.Pairwise fun a b => before (key a) (key b)
  /-- The item with a key is the first item that arrived with it. -/
  first : ∀ k, chosen.find? (key · = k) = items.find? (key · = k)

section Canonical

variable {α κ : Type} [DecidableEq κ] {key : α → κ} {before : κ → κ → Bool}

theorem find?_cons_self (key : α → κ) (a : α) (l : List α) :
    (a :: l).find? (key · = key a) = some a :=
  List.find?_cons_of_pos (decide_eq_true rfl)

theorem find?_cons_of_ne {a : α} {k : κ} (differs : key a ≠ k) (l : List α) :
    (a :: l).find? (key · = k) = l.find? (key · = k) :=
  List.find?_cons_of_neg (by simpa using differs)

/-- An ascending list finds every item of its own. -/
theorem find?_of_ascending (order : StrictOrder before) {chosen : List α}
    (ascending : chosen.Pairwise fun a b => before (key a) (key b)) {a : α} (mem : a ∈ chosen) :
    chosen.find? (key · = key a) = some a := by
  induction ascending with
  | nil => cases mem
  | @cons b chosen first _ ih =>
    rcases List.mem_cons.mp mem with rfl | mem
    · exact find?_cons_self key a chosen
    · rw [find?_cons_of_ne (order.ne (first a mem))]
      exact ih mem

/-- Ascending lists that find the same are the same. -/
theorem eq_of_find? (order : StrictOrder before) {l l' : List α}
    (h : l.Pairwise fun a b => before (key a) (key b))
    (h' : l'.Pairwise fun a b => before (key a) (key b))
    (find : ∀ k, l.find? (key · = k) = l'.find? (key · = k)) : l = l' := by
  induction h generalizing l' with
  | nil =>
    cases h' with
    | nil => rfl
    | @cons b l' _ _ =>
      have := find (key b)
      rw [find?_cons_self] at this
      cases this
  | @cons a l first rest ih =>
    cases h' with
    | nil =>
      have := find (key a)
      rw [find?_cons_self] at this
      cases this
    | @cons b l' first' rest' =>
      have found := find (key a)
      have found' := find (key b)
      rw [find?_cons_self] at found found'
      -- Each head is in the other list, and neither can be before the other.
      have mem : a ∈ b :: l' := List.mem_of_find?_eq_some found.symm
      have mem' : b ∈ a :: l := List.mem_of_find?_eq_some found'
      have same : a = b := by
        rcases List.mem_cons.mp mem with same | later
        · exact same
        · rcases List.mem_cons.mp mem' with same | later'
          · exact same.symm
          · have both := order.trans (first b later') (first' a later)
            rw [order.irrefl] at both
            cases both
      subst same
      refine congrArg (a :: ·) (ih rest' fun k => ?_)
      by_cases here : key a = k
      · have none : ∀ {l : List α}, (∀ x ∈ l, before (key a) (key x)) →
            l.find? (key · = k) = none := by
          intro l after
          rw [List.find?_eq_none]
          intro x mem
          rw [← here]
          simpa using (order.ne (after x mem)).symm
        rw [none first, none first']
      · have whole := find k
        rwa [find?_cons_of_ne here, find?_cons_of_ne here] at whole

/-- There is one canonical form, and it depends on what is found first only. -/
theorem IsCanonical.eq (order : StrictOrder before) {items items' chosen chosen' : List α}
    (h : IsCanonical key before items chosen) (h' : IsCanonical key before items' chosen')
    (find : ∀ k, items.find? (key · = k) = items'.find? (key · = k)) : chosen = chosen' :=
  eq_of_find? order h.ascending h'.ascending fun k => by rw [h.first, h'.first, find]

/-- The canonical form of a list that ascends is the list. -/
theorem isCanonical_self {items : List α}
    (ascending : items.Pairwise fun a b => before (key a) (key b)) :
    IsCanonical key before items items :=
  ⟨ascending, fun _ => rfl⟩

end Canonical

/-! ## Leaving out repetitions -/

section Runs

variable {α : Type} (same : α → α → Bool)

theorem eraseRepsBy_loop (a : α) (l acc : List α) :
    List.eraseRepsBy.loop same a l acc = acc.reverse ++ List.eraseRepsBy same (a :: l) := by
  have all : ∀ (l : List α) (a : α) (acc : List α), List.eraseRepsBy.loop same a l acc =
      acc.reverse ++ List.eraseRepsBy.loop same a l [] := by
    intro l
    induction l with
    | nil =>
      intro a acc
      simp [List.eraseRepsBy.loop]
    | cons b l ih =>
      intro a acc
      rw [List.eraseRepsBy.loop, List.eraseRepsBy.loop]
      cases same a b with
      | true => exact ih a acc
      | false =>
        show List.eraseRepsBy.loop same b l (a :: acc) =
          acc.reverse ++ List.eraseRepsBy.loop same b l [a]
        rw [ih b (a :: acc), ih b [a]]
        simp
  exact all l a acc

theorem eraseRepsBy_cons_cons (a b : α) (l : List α) :
    (a :: b :: l).eraseRepsBy same =
      if same a b then (a :: l).eraseRepsBy same else a :: (b :: l).eraseRepsBy same := by
  rw [List.eraseRepsBy, List.eraseRepsBy.loop]
  cases same a b with
  | true => rfl
  | false => exact eraseRepsBy_loop same b l [a]

end Runs

section Order

variable {α κ : Type} [DecidableEq κ] {key : α → κ} {before : κ → κ → Bool}

/-- Of a sorted list with a head, the first items of each run are a strictly sorted list with
the same head, in which the same is found first. -/
theorem exists_eraseRepsBy (order : StrictOrder before) {a : α} {l : List α}
    (sorted : (a :: l).Pairwise fun x y => before (key y) (key x) = false) :
    ∃ rest, (a :: l).eraseRepsBy (fun x y =>
        !before (key x) (key y) && !before (key y) (key x)) = a :: rest ∧
      IsCanonical key before (a :: l) (a :: rest) ∧ (a :: rest).Sublist (a :: l) := by
  induction l generalizing a with
  | nil => exact ⟨[], rfl, isCanonical_self (List.pairwise_singleton ..), .refl _⟩
  | cons b l ih =>
    obtain ⟨after, sorted'⟩ := List.pairwise_cons.mp sorted
    rw [eraseRepsBy_cons_cons]
    by_cases eq : key a = key b
    · rw [if_pos (by rw [eq, order.irrefl]; rfl)]
      obtain ⟨rest, all, canonical, sub⟩ := ih (a := a) (sorted.sublist (by simp))
      refine ⟨rest, all, ⟨canonical.ascending, fun k => ?_⟩, sub.trans (by simp)⟩
      rw [canonical.first]
      by_cases here : key a = k
      · subst here
        rw [find?_cons_self, find?_cons_self]
      · rw [find?_cons_of_ne here, find?_cons_of_ne here, find?_cons_of_ne (eq ▸ here)]
    · have ab : before (key a) (key b) = true := by
        rcases order.total (key a) (key b) with ab | same | ba
        · exact ab
        · exact absurd same eq
        · rw [after b List.mem_cons_self] at ba
          cases ba
      rw [if_neg (by rw [ab]; exact Bool.false_ne_true)]
      obtain ⟨rest, all, canonical, sub⟩ := ih sorted'
      refine ⟨b :: rest, by rw [all], ⟨?_, fun k => ?_⟩, sub.cons_cons a⟩
      · refine List.pairwise_cons.mpr ⟨?_, canonical.ascending⟩
        intro x mem
        rcases List.mem_cons.mp mem with rfl | mem
        · exact ab
        · exact order.trans ab ((List.pairwise_cons.mp canonical.ascending).1 x mem)
      · by_cases here : key a = k
        · subst here
          rw [find?_cons_self, find?_cons_self]
        · rw [find?_cons_of_ne here, find?_cons_of_ne here]
          exact canonical.first k

/-! ## Sorting -/

/-- A stable sort leaves the items of one key in their order. -/
theorem filter_mergeSort (order : StrictOrder before) (items : List α) (k : κ) :
    (items.mergeSort fun a b => !before (key b) (key a)).filter (key · = k) =
      items.filter (key · = k) := by
  have level : (items.filter (key · = k)).Pairwise fun a b => !before (key b) (key a) := by
    refine List.pairwise_of_forall_mem_list ?_
    intro a ha b hb
    rw [of_decide_eq_true (List.mem_filter.mp ha).2, of_decide_eq_true (List.mem_filter.mp hb).2,
      order.irrefl]
    rfl
  have sub := (List.sublist_mergeSort (order.notAfter_items key) (order.notAfter_total key) level
    List.filter_sublist).filter (key · = k)
  rw [List.filter_filter] at sub
  simp only [Bool.and_self] at sub
  have perm := (List.mergeSort_perm items fun a b => !before (key b) (key a)).filter (key · = k)
  exact (sub.eq_of_length perm.length_eq.symm).symm

/-- The items in canonical order are the canonical form of the items, and nothing is listed
that did not arrive. -/
theorem canonicalOrder_spec (order : StrictOrder before) (items : List α) :
    IsCanonical key before items (canonicalOrder (fun a b => before (key a) (key b)) items) ∧
      (canonicalOrder (fun a b => before (key a) (key b)) items).Subperm items := by
  have sorted := List.pairwise_mergeSort (order.notAfter_items key) (order.notAfter_total key) items
  simp only [Bool.not_eq_true'] at sorted
  have found : ∀ k, (items.mergeSort fun a b => !before (key b) (key a)).find? (key · = k) =
      items.find? (key · = k) := by
    intro k
    rw [← List.head?_filter, filter_mergeSort order, List.head?_filter]
  have perm := List.mergeSort_perm items fun a b => !before (key b) (key a)
  unfold canonicalOrder
  cases all : items.mergeSort fun a b => !before (key b) (key a) with
  | nil =>
    rw [all] at found
    exact ⟨⟨.nil, found⟩, List.nil_subperm⟩
  | cons a l =>
    rw [all] at sorted found perm
    obtain ⟨rest, runs, canonical, sub⟩ := exists_eraseRepsBy order sorted
    rw [runs]
    exact ⟨⟨canonical.ascending, fun k => (canonical.first k).trans (found k)⟩,
      sub.subperm.trans perm.subperm⟩

theorem isCanonical_canonicalOrder (order : StrictOrder before) (key : α → κ) (items : List α) :
    IsCanonical key before items (canonicalOrder (fun a b => before (key a) (key b)) items) :=
  (canonicalOrder_spec order items).1

theorem canonicalOrder_subperm (order : StrictOrder before) (key : α → κ) (items : List α) :
    (canonicalOrder (fun a b => before (key a) (key b)) items).Subperm items :=
  (canonicalOrder_spec order items).2

/-! ## Other lists with the same canonical form -/

/-- A list is in canonical order if it is the canonical form of some items. -/
theorem IsCanonical.canonicalOrder_eq (order : StrictOrder before) {items chosen : List α}
    (h : IsCanonical key before items chosen) :
    canonicalOrder (fun a b => before (key a) (key b)) items = chosen :=
  (isCanonical_canonicalOrder order key items).eq order h fun _ => rfl

/-- Canonical forms are kept by what keeps the keys. -/
theorem IsCanonical.map {β : Type} {f : α → β} {key' : β → κ} (same : ∀ a, key' (f a) = key a)
    {items chosen : List α} (h : IsCanonical key before items chosen) :
    IsCanonical key' before (items.map f) (chosen.map f) where
  ascending := by
    rw [List.pairwise_map]
    simpa only [same] using h.ascending
  first k := by
    have comp : ((fun b => decide (key' b = k)) ∘ f) = fun a => decide (key a = k) := by
      funext a
      simp only [Function.comp, same]
    rw [List.find?_map, List.find?_map, comp, h.first]

/-- Mapping items to others with the same keys keeps their order. -/
theorem canonicalOrder_map {β : Type} (order : StrictOrder before) (key' : β → κ) {f : α → β}
    (same : ∀ a, key' (f a) = key a) (items : List α) :
    canonicalOrder (fun x y => before (key' x) (key' y)) (items.map f) =
      (canonicalOrder (fun a b => before (key a) (key b)) items).map f :=
  ((isCanonical_canonicalOrder order key items).map same).canonicalOrder_eq order

/-- What is listed has arrived. -/
theorem IsCanonical.mem (order : StrictOrder before) {items chosen : List α}
    (h : IsCanonical key before items chosen) {a : α} (mem : a ∈ chosen) : a ∈ items := by
  have found := find?_of_ascending order h.ascending mem
  rw [h.first] at found
  exact List.mem_of_find?_eq_some found

/-- Items can be changed, if their keys and whether they are left out stay, and if in the end
only forms count that stay too. -/
theorem canonicalOrder_filter_map (order : StrictOrder before) (key : α → κ) (f form : α → α)
    {p : α → Bool} (same : ∀ a, key (f a) = key a) {items : List α}
    (left : ∀ a ∈ items, p (f a) = p a)
    (forms : ∀ a ∈ items, form (f a) = form a) :
    (canonicalOrder (fun a b => before (key a) (key b)) ((items.map f).filter p)).map form =
      (canonicalOrder (fun a b => before (key a) (key b)) (items.filter p)).map form := by
  have kept : (items.map f).filter p = (items.filter p).map f := by
    rw [List.filter_map]
    exact congrArg (List.map f) (List.filter_congr left)
  rw [kept, canonicalOrder_map order key same, List.map_map]
  refine List.map_congr_left fun a mem => forms a ?_
  have there := (isCanonical_canonicalOrder order key (items.filter p)).mem order mem
  exact List.mem_of_mem_filter there

/-- What is found among the items of some keys. -/
theorem find?_filter_key (key : α → κ) (p : κ → Bool) (l : List α) (k : κ) :
    (l.filter fun a => p (key a)).find? (key · = k) =
      if p k then l.find? (key · = k) else none := by
  induction l with
  | nil => split <;> rfl
  | cons a l ih =>
    by_cases here : key a = k
    · subst here
      rw [List.filter_cons, find?_cons_self]
      split
      · rw [find?_cons_self]
      · next out => rw [ih, if_neg out]
    · rw [List.filter_cons, find?_cons_of_ne here, ← ih]
      split
      · rw [find?_cons_of_ne here]
      · rfl

/-- The keys can be made part of other keys. -/
theorem IsCanonical.comp {κ' : Type} [DecidableEq κ'] {before' : κ' → κ' → Bool} {g : κ → κ'}
    (injective : Function.Injective g) (mono : ∀ {a b}, before a b → before' (g a) (g b))
    {items chosen : List α} (h : IsCanonical key before items chosen) :
    IsCanonical (g ∘ key) before' items chosen where
  ascending := h.ascending.imp mono
  first k' := by
    by_cases made : ∃ k, g k = k'
    · obtain ⟨k, rfl⟩ := made
      simp only [Function.comp, injective.eq_iff]
      exact h.first k
    · have none : ∀ l : List α, l.find? ((g ∘ key) · = k') = none := by
        intro l
        rw [List.find?_eq_none]
        intro a _ same
        exact made ⟨key a, of_decide_eq_true same⟩
      rw [none, none]

/-- Canonical forms make one if all keys of the one are before all keys of the other. -/
theorem IsCanonical.append {items items' chosen chosen' : List α}
    (h : IsCanonical key before items chosen) (h' : IsCanonical key before items' chosen')
    (apart : ∀ a ∈ chosen, ∀ b ∈ chosen', before (key a) (key b)) :
    IsCanonical key before (items ++ items') (chosen ++ chosen') where
  ascending := List.pairwise_append.mpr ⟨h.ascending, h'.ascending, apart⟩
  first k := by rw [List.find?_append, List.find?_append, h.first, h'.first]

/-- Leaving out whole keys leaves a canonical form. -/
theorem IsCanonical.filter (p : κ → Bool) {items chosen : List α}
    (h : IsCanonical key before items chosen) :
    IsCanonical key before (items.filter fun a => p (key a))
      (chosen.filter fun a => p (key a)) where
  ascending := h.ascending.filter _
  first k := by rw [find?_filter_key, find?_filter_key, h.first]

end Order

end ClassAbi
