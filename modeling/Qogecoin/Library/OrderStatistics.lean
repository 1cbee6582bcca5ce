import Mathlib.Data.List.GetD
import Mathlib.Data.List.Sort

/-! The element at a place of a sorted list, by how many elements are not below it. -/
namespace OrderStatistics

open List

variable {α : Type} [LinearOrder α]

theorem count_of_le_getElem {l : List α} (sorted : l.Pairwise (· ≤ ·)) {k : Nat} (inside : k < l.length)
    {m : α} (le : m ≤ l[k]) : l.length - k ≤ l.countP fun a => decide (m ≤ a) := by
  have tail : (l.drop k).countP (fun a => decide (m ≤ a)) = (l.drop k).length := by
    rw [countP_eq_length]
    intro a member
    obtain ⟨i, small, rfl⟩ := getElem_of_mem member
    rw [getElem_drop, decide_eq_true_iff]
    apply le.trans
    rcases Nat.eq_zero_or_pos i with first | later
    · simp [first]
    · exact pairwise_iff_getElem.mp sorted k (k + i) inside _ (by omega)
  have whole : l.countP (fun a => decide (m ≤ a)) =
      (l.take k).countP (fun a => decide (m ≤ a)) + (l.drop k).countP fun a => decide (m ≤ a) := by
    rw [← countP_append, take_append_drop]
  rw [whole, tail, length_drop]
  omega

theorem le_getElem_of_count {l : List α} (sorted : l.Pairwise (· ≤ ·)) {k : Nat} (inside : k < l.length)
    {m : α} (many : l.length - k ≤ l.countP fun a => decide (m ≤ a)) : m ≤ l[k] := by
  by_contra below
  rw [not_le] at below
  have head : (l.take (k + 1)).countP (fun a => decide (m ≤ a)) = 0 := by
    rw [countP_eq_zero]
    intro a member
    obtain ⟨i, small, rfl⟩ := getElem_of_mem member
    rw [length_take] at small
    rw [getElem_take, decide_eq_true_iff, not_le]
    apply lt_of_le_of_lt _ below
    rcases Nat.lt_or_ge i k with before | here
    · exact pairwise_iff_getElem.mp sorted i k _ inside before
    · have same : i = k := by omega
      simp [same]
  have whole : l.countP (fun a => decide (m ≤ a)) = (l.take (k + 1)).countP (fun a => decide (m ≤ a)) +
      (l.drop (k + 1)).countP fun a => decide (m ≤ a) := by
    rw [← countP_append, take_append_drop]
  have rest := countP_le_length (p := fun a => decide (m ≤ a)) (l := l.drop (k + 1))
  rw [length_drop] at rest
  omega

theorem le_getD_sort_iff (l : List α) {k : Nat} (inside : k < l.length) (m d : α) :
    m ≤ (l.insertionSort (· ≤ ·)).getD k d ↔
      l.length - k ≤ l.countP fun a => decide (m ≤ a) := by
  have sorted : (l.insertionSort (· ≤ ·)).Pairwise (· ≤ ·) := pairwise_insertionSort _ l
  have perm := perm_insertionSort (· ≤ ·) l
  have inside' : k < (l.insertionSort (· ≤ ·)).length := by rwa [perm.length_eq]
  rw [getD_eq_getElem _ _ inside', ← perm.countP_eq, ← perm.length_eq]
  exact ⟨count_of_le_getElem sorted inside', le_getElem_of_count sorted inside'⟩

end OrderStatistics
