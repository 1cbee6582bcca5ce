import Mathlib.Data.List.AList

/-! Counting the values of an association list. -/
namespace AssocCount

open List

variable {κ α : Type} [DecidableEq κ] {m : AList fun _ : κ => α}

def count (p : α → Bool) (m : AList fun _ : κ => α) : Nat := m.entries.countP fun entry => p entry.2

variable (p : α → Bool)

theorem countP_kerase (a : κ) (l : List (Sigma fun _ : κ => α)) :
    (l.kerase a).countP (fun entry => p entry.2) + ((l.dlookup a).any p).toNat =
      l.countP fun entry => p entry.2 := by
  induction l with
  | nil => rfl
  | cons entry l ih =>
    by_cases same : a = entry.1
    · subst same
      have first : (entry :: l).dlookup entry.1 = some entry.2 := dlookup_cons_eq l entry.1 entry.2
      rw [first]
      cases here : p entry.2 <;> simp [here]
    · simp only [kerase_cons_ne same, dlookup_cons_ne _ _ same, countP_cons]
      omega

theorem count_erase (a : κ) : count p (m.erase a) + ((m.lookup a).any p).toNat = count p m :=
  countP_kerase p a m.entries

theorem count_insert (a : κ) (b : α) :
    count p (m.insert a b) + ((m.lookup a).any p).toNat = count p m + (p b).toNat := by
  have erased := countP_kerase p a m.entries
  unfold count AList.lookup
  rw [AList.entries_insert, ← erased, countP_cons]
  cases p b <;> simp
  omega

omit [DecidableEq κ] in
theorem count_add_count_not (m : AList fun _ : κ => α) :
    count p m + count (fun b => !p b) m = m.keys.length := by
  unfold count AList.keys List.keys
  rw [length_map, length_eq_countP_add_countP fun entry => p entry.2]
  congr 2
  funext entry
  simp

end AssocCount
