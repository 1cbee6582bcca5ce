import Mathlib.Logic.Function.Basic

/-! Sequences of writes to a map. What a sequence leaves at a place is its last write there, or
what was there before if it has none; so a sequence that takes one map to another does the same to
any mixture of the two, and undoing and redoing repair such a mixture. -/
namespace Updates

open Function List

variable {α β : Type} [DecidableEq α]

def apply : List (α × β) → (α → β) → α → β
  | [], f => f
  | u :: us, f => apply us (update f u.1 u.2)

def last : List (α × β) → α → Option β
  | [], _ => none
  | u :: us, a => (last us a).or (if u.1 = a then some u.2 else none)

@[simp] theorem apply_nil (f : α → β) : apply [] f = f := rfl

@[simp] theorem apply_cons (u : α × β) (us : List (α × β)) (f : α → β) :
    apply (u :: us) f = apply us (update f u.1 u.2) := rfl

theorem apply_append (us vs : List (α × β)) (f : α → β) :
    apply (us ++ vs) f = apply vs (apply us f) := by
  induction us generalizing f with
  | nil => rfl
  | cons u us ih => exact ih _

theorem apply_eq_last (us : List (α × β)) (f : α → β) (a : α) :
    apply us f a = (last us a).getD (f a) := by
  induction us generalizing f with
  | nil => rfl
  | cons u us ih =>
    rw [apply_cons, ih, last]
    cases later : last us a with
    | some b => rfl
    | none =>
      by_cases same : u.1 = a
      · subst same
        simp
      · simp [same, update_of_ne (Ne.symm same)]

theorem apply_of_notMem {us : List (α × β)} {a : α} (untouched : ∀ u ∈ us, u.1 ≠ a) (f : α → β) :
    apply us f a = f a := by
  induction us generalizing f with
  | nil => rfl
  | cons u us ih =>
    rw [apply_cons, ih (fun v member => untouched v (by simp [member])),
      update_of_ne (Ne.symm (untouched u (by simp)))]

theorem apply_of_mem {us : List (α × β)} (distinct : (us.map Prod.fst).Nodup) {a : α} {b : β}
    (member : (a, b) ∈ us) (f : α → β) : apply us f a = b := by
  induction us generalizing f with
  | nil => cases member
  | cons u us ih =>
    rw [map_cons, nodup_cons] at distinct
    rcases mem_cons.mp member with rfl | later
    · rw [apply_cons, apply_of_notMem]
      · simp
      · intro v inside same
        exact distinct.1 (mem_map.mpr ⟨v, inside, same⟩)
    · exact ih distinct.2 later _

theorem apply_cases (us : List (α × β)) (f : α → β) (a : α) :
    apply us f a = f a ∨ (a, apply us f a) ∈ us := by
  induction us generalizing f with
  | nil => exact .inl rfl
  | cons u us ih =>
    rw [apply_cons]
    rcases ih (update f u.1 u.2) with kept | written
    · by_cases same : a = u.1
      · rw [same, update_self] at kept
        rw [same, kept]
        simp
      · rw [update_of_ne same] at kept
        exact .inl kept
    · exact .inr (mem_cons_of_mem u written)

/-- Undoing the way from `fork` to `old` and then redoing the way from `fork` to `new` leads to
`new` from any map that agrees with one of the two ends at each place. -/
theorem replay {back forth : List (α × β)} {old fork new mixed : α → β}
    (undoes : apply back old = fork) (redoes : apply forth fork = new)
    (mixture : ∀ a, mixed a = old a ∨ mixed a = new a) :
    apply forth (apply back mixed) = new := by
  funext a
  have undone := congrFun undoes a
  have redone := congrFun redoes a
  rw [apply_eq_last] at undone redone ⊢
  cases written : last forth a with
  | some b =>
    rw [written] at redone
    exact redone
  | none =>
    rw [written] at redone
    rw [apply_eq_last]
    cases restored : last back a with
    | some b =>
      rw [restored] at undone
      exact undone.trans redone
    | none =>
      -- neither way touches the place, so it is the same at both ends
      rw [restored] at undone
      rcases mixture a with old | new
      · exact old.trans (undone.trans redone)
      · exact new

end Updates
