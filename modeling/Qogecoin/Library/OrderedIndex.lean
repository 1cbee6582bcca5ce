import Mathlib.Data.List.Sort

/-! An ordered index of a container: the elements in the order of a key. Where an element stands
among those with the same key is left to the container. -/
namespace Qogecoin.OrderedIndex

open List

variable {α κ : Type*} [LinearOrder κ] (key : α → κ)

def Sorted (l : List α) : Prop := l.Pairwise fun a b => key a ≤ key b

class Container (α : Type) where
  insert {κ : Type} [LinearOrder κ] (key : α → κ) (a : α) (l : List α) : List α
  modify {κ : Type} [LinearOrder κ] (key : α → κ) (p : α → Bool) (f : α → α) (l : List α) : List α
  insert_perm {κ : Type} [LinearOrder κ] (key : α → κ) (a : α) (l : List α) :
    (insert key a l).Perm (a :: l)
  insert_sorted {κ : Type} [LinearOrder κ] (key : α → κ) (a : α) (l : List α) :
    Sorted key l → Sorted key (insert key a l)
  modify_perm {κ : Type} [LinearOrder κ] (key : α → κ) (p : α → Bool) (f : α → α) (l : List α) :
    (modify key p f l).Perm (l.map fun x => if p x then f x else x)
  modify_sorted {κ : Type} [LinearOrder κ] (key : α → κ) (p : α → Bool) (f : α → α) (l : List α) :
    Sorted key l → Sorted key (modify key p f l)

@[reducible] def Container.sorting (α : Type) : Container α where
  insert key a l := l.orderedInsert (key · ≤ key ·) a
  modify key p f l := (l.map fun x => if p x then f x else x).insertionSort (key · ≤ key ·)
  insert_perm _ _ _ := perm_orderedInsert ..
  insert_sorted _ a l sorted := sorted.orderedInsert a l
  modify_perm _ _ _ _ := perm_insertionSort ..
  modify_sorted _ _ _ _ _ := pairwise_insertionSort ..

def next (p : α → Bool) (l : List α) : Option α := (l.dropWhile fun x => !p x).tail.head?

def prev (p : α → Bool) (l : List α) : Option α :=
  if l.any p then (l.takeWhile fun x => !p x).getLast? else none

def lowerBound (k : κ) (l : List α) : List α := l.dropWhile (key · < k)

variable {key}

structure Located (p : α → Bool) (l before : List α) (a : α) (after : List α) : Prop where
  split : l = before ++ a :: after
  here : p a = true
  earlier : ∀ x ∈ before, p x = false
  later : ∀ x ∈ after, p x = false

variable {p : α → Bool} {l before after : List α} {a : α}

theorem exists_located (member : a ∈ l) (here : p a = true)
    (distinct : l.Pairwise fun x y => ¬(p x = true ∧ p y = true)) :
    ∃ before after, Located p l before a after := by
  obtain ⟨before, after, rfl⟩ := append_of_mem member
  obtain ⟨_, right, cross⟩ := pairwise_append.mp distinct
  refine ⟨before, after, rfl, here, ?_, ?_⟩
  · intro x early
    have apart := cross x early a mem_cons_self
    simpa [here] using apart
  · intro x late
    have apart := (pairwise_cons.mp right).1 x late
    simpa [here] using apart

namespace Located

variable (located : Located p l before a after)

include located

theorem dropWhile_eq : l.dropWhile (fun x => !p x) = a :: after := by
  rw [located.split, dropWhile_append_of_pos]
  · simp [located.here]
  · intro x early
    simp [located.earlier x early]

theorem takeWhile_eq : l.takeWhile (fun x => !p x) = before := by
  rw [located.split, takeWhile_append_of_pos]
  · simp [located.here]
  · intro x early
    simp [located.earlier x early]

theorem next_eq : next p l = after.head? := by
  rw [next, located.dropWhile_eq, tail_cons]

theorem prev_eq : prev p l = before.getLast? := by
  have any : l.any p = true := by
    rw [located.split]
    simp [located.here]
  rw [prev, if_pos any, located.takeWhile_eq]

theorem map_eq (f : α → α) : (l.map fun x => if p x then f x else x) = before ++ f a :: after := by
  have same {part : List α} (outside : ∀ x ∈ part, p x = false) :
      part.map (fun x => if p x then f x else x) = part := by
    conv_rhs => rw [← map_id part]
    apply map_congr_left
    intro x member
    simp [outside x member]
  rw [located.split, map_append, map_cons, same located.earlier, same located.later,
    if_pos located.here]

end Located

theorem Sorted.filter (sorted : Sorted key l) (q : α → Bool) : Sorted key (l.filter q) :=
  List.Pairwise.filter q sorted

section Neighbours

variable (sorted : Sorted key l) (located : Located p l before a after)

include sorted located

theorem next_spec {b : α} (follows : next p l = some b) :
    b ∈ l ∧ p b = false ∧ key a ≤ key b := by
  rw [located.next_eq] at follows
  have late := mem_of_head? follows
  rw [located.split] at sorted
  refine ⟨?_, located.later b late, ?_⟩
  · rw [located.split]
    exact mem_append_right _ (mem_cons_of_mem _ late)
  · exact (pairwise_cons.mp (pairwise_append.mp sorted).2.1).1 b late

theorem prev_spec {b : α} (precedes : prev p l = some b) :
    b ∈ l ∧ p b = false ∧ key b ≤ key a := by
  rw [located.prev_eq] at precedes
  have early := mem_of_getLast? precedes
  rw [located.split] at sorted
  refine ⟨?_, located.earlier b early, ?_⟩
  · rw [located.split]
    exact mem_append_left _ early
  · exact (pairwise_append.mp sorted).2.2 b early a mem_cons_self

variable {x : α}

theorem beside (member : x ∈ l) (other : p x = false) :
    (∃ b, prev p l = some b ∧ key x ≤ key b) ∨ ∃ b, next p l = some b ∧ key b ≤ key x := by
  rw [located.prev_eq, located.next_eq]
  rw [located.split] at sorted member
  obtain ⟨left, right, _⟩ := pairwise_append.mp sorted
  rcases mem_append.mp member with early | rest
  · left
    rcases eq_nil_or_concat before with rfl | ⟨front, b, rfl⟩
    · cases early
    · refine ⟨b, by simp, ?_⟩
      rw [concat_eq_append] at early left
      rcases mem_append.mp early with inFront | same
      · exact (pairwise_append.mp left).2.2 x inFront b mem_cons_self
      · rw [mem_singleton.mp same]
  · right
    rcases mem_cons.mp rest with rfl | late
    · rw [located.here] at other
      cases other
    · cases after with
      | nil => cases late
      | cons b after =>
        refine ⟨b, rfl, ?_⟩
        rcases mem_cons.mp late with rfl | later
        · exact le_rfl
        · exact (pairwise_cons.mp (pairwise_cons.mp right).2).1 x later

omit sorted in
theorem Located.eq_of_here (member : x ∈ l) (here : p x = true) : x = a := by
  rw [located.split] at member
  rcases mem_append.mp member with early | rest
  · rw [located.earlier x early] at here
    cases here
  · rcases mem_cons.mp rest with same | late
    · exact same
    · rw [located.later x late] at here
      cases here

theorem exists_next (member : x ∈ l) (above : key a < key x) :
    ∃ b, next p l = some b ∧ key b ≤ key x := by
  have other : p x = false := by
    by_contra here
    rw [located.eq_of_here member (by simpa using here)] at above
    exact lt_irrefl _ above
  rcases beside sorted located member other with ⟨b, precedes, upper⟩ | follows
  · obtain ⟨_, _, lower⟩ := prev_spec sorted located precedes
    exact absurd (upper.trans lower) (not_le.mpr above)
  · exact follows

theorem exists_prev (member : x ∈ l) (below : key x < key a) :
    ∃ b, prev p l = some b ∧ key x ≤ key b := by
  have other : p x = false := by
    by_contra here
    rw [located.eq_of_here member (by simpa using here)] at below
    exact lt_irrefl _ below
  rcases beside sorted located member other with precedes | ⟨b, follows, lower⟩
  · exact precedes
  · obtain ⟨_, _, upper⟩ := next_spec sorted located follows
    exact absurd (upper.trans lower) (not_le.mpr below)

end Neighbours

variable {k : κ}

theorem lowerBound_eq_self (bound : ∀ x ∈ l, k ≤ key x) : lowerBound key k l = l := by
  cases l with
  | nil => rfl
  | cons a l => exact dropWhile_cons_of_neg (by simpa using bound a mem_cons_self)

theorem takeWhile_lowerBound (sorted : Sorted key l) {q : α → Bool}
    (least : ∀ x ∈ l, q x = true → k ≤ key x)
    (convex : ∀ x ∈ l, ∀ y ∈ l, k ≤ key x → key x ≤ key y → q y = true → q x = true) :
    (lowerBound key k l).takeWhile q = l.filter q := by
  induction l with
  | nil => rfl
  | cons a l ih =>
    obtain ⟨below, rest⟩ := pairwise_cons.mp sorted
    have tail := ih rest (fun x member => least x (mem_cons_of_mem a member))
      fun x inX y inY => convex x (mem_cons_of_mem a inX) y (mem_cons_of_mem a inY)
    by_cases early : key a < k
    · have outside : q a = false := by
        by_contra inside
        exact absurd (least a mem_cons_self (by simpa using inside)) (not_le.mpr early)
      rw [lowerBound, dropWhile_cons_of_pos (by simpa using early),
        filter_cons_of_neg (by simp [outside])]
      exact tail
    · have here : lowerBound key k (a :: l) = a :: l :=
        dropWhile_cons_of_neg (by simpa using early)
      have here' : lowerBound key k l = l :=
        lowerBound_eq_self fun x member => (not_lt.mp early).trans (below x member)
      rw [here'] at tail
      rw [here]
      cases inside : q a with
      | true => rw [takeWhile_cons_of_pos inside, filter_cons_of_pos inside, tail]
      | false =>
        rw [takeWhile_cons_of_neg (by simp [inside]),
          filter_cons_of_neg (by simp [inside])]
        symm
        rw [filter_eq_nil_iff]
        intro x member inside'
        have first := convex a mem_cons_self x (mem_cons_of_mem a member)
          (not_lt.mp early) (below x member) inside'
        rw [inside] at first
        cases first

theorem lowerBound_head (sorted : Sorted key l) {x : α} (member : x ∈ l) (bound : k ≤ key x) :
    ∃ b rest, lowerBound key k l = b :: rest ∧ b ∈ l ∧ k ≤ key b ∧
      key b ≤ key x := by
  induction l with
  | nil => cases member
  | cons a l ih =>
    obtain ⟨below, rest⟩ := pairwise_cons.mp sorted
    by_cases early : key a < k
    · rw [lowerBound, dropWhile_cons_of_pos (by simpa using early)]
      rcases mem_cons.mp member with rfl | later
      · exact absurd bound (not_le.mpr early)
      · obtain ⟨b, tail, found, inside, low, high⟩ := ih rest later
        exact ⟨b, tail, found, mem_cons_of_mem a inside, low, high⟩
    · refine ⟨a, l, dropWhile_cons_of_neg (by simpa using early), mem_cons_self,
        not_lt.mp early, ?_⟩
      rcases mem_cons.mp member with rfl | later
      · exact le_rfl
      · exact below x later

end Qogecoin.OrderedIndex
