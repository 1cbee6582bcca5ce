import Qogecoin.Library.Updates
import Mathlib.Algebra.BigOperators.Group.Finset.Piecewise
import Mathlib.Tactic.Abel

/-! A set of entries that changes by taking some out and putting others in. A change that fits the
set can be taken back from the entries it took out, and so can a sequence of them, last one
first. -/
namespace Ledger

open Updates List Function

variable {α β : Type}

structure Change (α β : Type) where
  spent : List (α × β)
  created : List (α × β)

def removals (entries : List (α × β)) : List (α × Option β) := entries.map fun e => (e.1, none)

def additions (entries : List (α × β)) : List (α × Option β) := entries.map fun e => (e.1, some e.2)

namespace Change

def forward (change : Change α β) : List (α × Option β) :=
  removals change.spent ++ additions change.created

def backward (change : Change α β) : List (α × Option β) :=
  removals change.created ++ additions change.spent.reverse

end Change

variable [DecidableEq α] {entries : List (α × β)} {f : α → Option β} {a : α}

theorem apply_map_of_notMem (g : α × β → Option β) (other : a ∉ entries.map Prod.fst) :
    apply (entries.map fun e => (e.1, g e)) f a = f a := by
  apply apply_of_notMem
  intro u inside same
  obtain ⟨e, member, rfl⟩ := mem_map.mp inside
  exact other (mem_map.mpr ⟨e, member, same⟩)

theorem apply_removals_of_notMem (other : a ∉ entries.map Prod.fst) :
    apply (removals entries) f a = f a := apply_map_of_notMem _ other

theorem apply_additions_of_notMem (other : a ∉ entries.map Prod.fst) :
    apply (additions entries) f a = f a := apply_map_of_notMem _ other

theorem apply_removals_of_mem (member : a ∈ entries.map Prod.fst) :
    apply (removals entries) f a = none := by
  induction entries generalizing f with
  | nil => cases member
  | cons e entries ih =>
    by_cases later : a ∈ entries.map Prod.fst
    · exact ih later
    · have first : a = e.1 := by simpa [later] using member
      show apply (removals entries) (update f e.1 none) a = none
      rw [apply_removals_of_notMem later, first, update_self]

theorem apply_additions_of_mem (once : (entries.map Prod.fst).Nodup) {b : β}
    (member : (a, b) ∈ entries) : apply (additions entries) f a = some b := by
  have keys : (additions entries).map Prod.fst = entries.map Prod.fst := by
    simp [additions, comp_def]
  have written : (a, some b) ∈ additions entries := mem_map.mpr ⟨(a, b), member, rfl⟩
  exact apply_of_mem (keys ▸ once) written f

theorem removals_additions (absent : ∀ e ∈ entries, f e.1 = none) :
    apply (removals entries) (apply (additions entries) f) = f := by
  funext a
  by_cases member : a ∈ entries.map Prod.fst
  · obtain ⟨e, inside, rfl⟩ := mem_map.mp member
    rw [apply_removals_of_mem member, absent e inside]
  · rw [apply_removals_of_notMem member, apply_additions_of_notMem member]

theorem additions_removals {again : List (α × β)} (same : again.Perm entries)
    (once : (entries.map Prod.fst).Nodup) (present : ∀ e ∈ entries, f e.1 = some e.2) :
    apply (additions again) (apply (removals entries) f) = f := by
  funext a
  by_cases member : a ∈ entries.map Prod.fst
  · obtain ⟨e, inside, rfl⟩ := mem_map.mp member
    rw [present e inside]
    exact apply_additions_of_mem ((same.map _).nodup_iff.mpr once) (same.mem_iff.mpr inside)
  · have missing : a ∉ again.map Prod.fst := fun inside => member ((same.map _).mem_iff.mp inside)
    rw [apply_additions_of_notMem missing, apply_removals_of_notMem member]

namespace Change

structure Fits (change : Change α β) (f : α → Option β) : Prop where
  spentOnce : (change.spent.map Prod.fst).Nodup
  present : ∀ e ∈ change.spent, f e.1 = some e.2
  createdOnce : (change.created.map Prod.fst).Nodup
  absent : ∀ e ∈ change.created, apply (removals change.spent) f e.1 = none

structure Unfits (change : Change α β) (g : α → Option β) : Prop where
  createdOnce : (change.created.map Prod.fst).Nodup
  present : ∀ e ∈ change.created, g e.1 = some e.2
  spentOnce : (change.spent.map Prod.fst).Nodup
  absent : ∀ e ∈ change.spent, apply (removals change.created) g e.1 = none

variable {change : Change α β}

theorem Fits.removals_forward (fits : change.Fits f) :
    apply (removals change.created) (apply change.forward f) =
      apply (removals change.spent) f := by
  rw [forward, apply_append]
  exact removals_additions fits.absent

theorem Fits.backward_forward (fits : change.Fits f) :
    apply change.backward (apply change.forward f) = f := by
  rw [backward, apply_append, fits.removals_forward]
  exact additions_removals (reverse_perm _) fits.spentOnce fits.present

theorem Fits.unfits (fits : change.Fits f) : change.Unfits (apply change.forward f) where
  createdOnce := fits.createdOnce
  spentOnce := fits.spentOnce
  present e member := by
    rw [forward, apply_append]
    exact apply_additions_of_mem fits.createdOnce member
  absent e member := by
    rw [fits.removals_forward]
    exact apply_removals_of_mem (mem_map_of_mem member)

theorem mem_forward {b : β} (found : apply change.forward f a = some b) :
    f a = some b ∨ (a, b) ∈ change.created := by
  rcases apply_cases change.forward f a with kept | written
  · exact .inl (kept.symm.trans found)
  · rw [found] at written
    rcases mem_append.mp written with removed | added
    · obtain ⟨e, _, same⟩ := mem_map.mp removed
      cases same
    · obtain ⟨e, member, same⟩ := mem_map.mp added
      cases same
      exact .inr member

end Change

def forwards (changes : List (Change α β)) : List (α × Option β) := changes.flatMap Change.forward

def backwards (changes : List (Change α β)) : List (α × Option β) :=
  changes.reverse.flatMap Change.backward

def FitsAll : List (Change α β) → (α → Option β) → Prop
  | [], _ => True
  | change :: changes, f => change.Fits f ∧ FitsAll changes (apply change.forward f)

def UnfitsAll : List (Change α β) → (α → Option β) → Prop
  | [], _ => True
  | change :: changes, g => change.Unfits g ∧ UnfitsAll changes (apply change.backward g)

theorem unfitsAll_append {first second : List (Change α β)} {g : α → Option β} :
    UnfitsAll (first ++ second) g ↔
      UnfitsAll first g ∧ UnfitsAll second (apply (first.flatMap Change.backward) g) := by
  induction first generalizing g with
  | nil => simp [UnfitsAll]
  | cons change first ih =>
    simp only [cons_append, UnfitsAll, ih, flatMap_cons, apply_append, and_assoc]

omit [DecidableEq α] in
theorem forwards_cons (change : Change α β) (changes : List (Change α β)) :
    forwards (change :: changes) = change.forward ++ forwards changes := rfl

omit [DecidableEq α] in
theorem backwards_cons (change : Change α β) (changes : List (Change α β)) :
    backwards (change :: changes) = backwards changes ++ change.backward := by
  simp [backwards, flatMap_append]

variable {changes : List (Change α β)}

theorem FitsAll.backwards_forwards (fits : FitsAll changes f) :
    apply (backwards changes) (apply (forwards changes) f) = f := by
  induction changes generalizing f with
  | nil => rfl
  | cons change changes ih =>
    rw [forwards_cons, backwards_cons, apply_append, apply_append, ih fits.2]
    exact fits.1.backward_forward

theorem FitsAll.unfitsAll (fits : FitsAll changes f) :
    UnfitsAll changes.reverse (apply (forwards changes) f) := by
  induction changes generalizing f with
  | nil => trivial
  | cons change changes ih =>
    rw [forwards_cons, apply_append, reverse_cons, unfitsAll_append]
    refine ⟨ih fits.2, ?_, trivial⟩
    have undone := fits.2.backwards_forwards
    rw [backwards] at undone
    rw [undone]
    exact fits.1.unfits

/-- What holds of all entries at the start and of all those put in holds of all entries at the end,
and of all those taken out on the way. -/
theorem FitsAll.invariant {valid : β → Prop} (fits : FitsAll changes f)
    (start : ∀ a b, f a = some b → valid b)
    (created : ∀ change ∈ changes, ∀ e ∈ change.created, valid e.2) :
    (∀ change ∈ changes, ∀ e ∈ change.spent, valid e.2) ∧
      ∀ a b, apply (forwards changes) f a = some b → valid b := by
  induction changes generalizing f with
  | nil => exact ⟨by simp, start⟩
  | cons change changes ih =>
    have next : ∀ a b, apply change.forward f a = some b → valid b := by
      intro a b found
      rcases Change.mem_forward found with old | new
      · exact start a b old
      · exact created change (by simp) _ new
    obtain ⟨spent, final⟩ := ih fits.2 next fun other member => created other (by simp [member])
    rw [forwards_cons, apply_append]
    refine ⟨?_, final⟩
    intro other member e taken
    rcases mem_cons.mp member with rfl | later
    · exact start _ _ (fits.1.present e taken)
    · exact spent other later e taken

section

variable [Fintype α] {G : Type} [AddCommGroup G]

def sum (quantity : α → β → G) (f : α → Option β) : G := ∑ a, (f a).elim 0 (quantity a)

def listSum (quantity : α → β → G) (entries : List (α × β)) : G :=
  (entries.map fun e => quantity e.1 e.2).sum

variable {quantity : α → β → G}

theorem sum_update (a : α) (b : Option β) (f : α → Option β) :
    sum quantity (update f a b) =
      sum quantity f - (f a).elim 0 (quantity a) + b.elim 0 (quantity a) := by
  have pointwise : (fun c => (update f a b c).elim 0 (quantity c)) =
      update (fun c => (f c).elim 0 (quantity c)) a (b.elim 0 (quantity a)) := by
    funext c
    by_cases same : c = a
    · subst same
      simp
    · simp [same]
  rw [sum, pointwise, Finset.sum_update_of_mem (Finset.mem_univ a), sum,
    ← Finset.add_sum_erase _ _ (Finset.mem_univ a), Finset.sdiff_singleton_eq_erase]
  abel

theorem sum_additions (once : (entries.map Prod.fst).Nodup)
    (absent : ∀ e ∈ entries, f e.1 = none) :
    sum quantity (apply (additions entries) f) = sum quantity f + listSum quantity entries := by
  induction entries generalizing f with
  | nil => simp [additions, listSum]
  | cons e entries ih =>
    rw [map_cons, nodup_cons] at once
    have here := absent e mem_cons_self
    have others : ∀ e' ∈ entries, update f e.1 (some e.2) e'.1 = none := by
      intro e' member
      rw [update_of_ne]
      · exact absent e' (mem_cons_of_mem e member)
      · intro same
        exact once.1 (mem_map.mpr ⟨e', member, same⟩)
    have rest := ih once.2 others
    rw [sum_update, here] at rest
    simp only [additions, map_cons, apply_cons] at rest ⊢
    rw [rest]
    simp only [listSum, map_cons, sum_cons, Option.elim_some, Option.elim_none]
    abel

theorem sum_removals (once : (entries.map Prod.fst).Nodup)
    (present : ∀ e ∈ entries, f e.1 = some e.2) :
    sum quantity (apply (removals entries) f) = sum quantity f - listSum quantity entries := by
  have absent : ∀ e ∈ entries, apply (removals entries) f e.1 = none :=
    fun e member => apply_removals_of_mem (mem_map_of_mem member)
  have restored : sum quantity _ = _ := sum_additions once absent
  rw [additions_removals (.refl _) once present] at restored
  rw [restored, add_sub_cancel_right]

theorem Change.Fits.sum_forward {change : Change α β} (fits : change.Fits f) :
    sum quantity (apply change.forward f) =
      sum quantity f - listSum quantity change.spent + listSum quantity change.created := by
  rw [Change.forward, apply_append, sum_additions fits.createdOnce fits.absent,
    sum_removals fits.spentOnce fits.present]

end

section

variable [Fintype α] {quantity : α → β → ℤ}

/-- An entry may be put in the place of another one, whose quantity is lost. -/
theorem sum_additions_le (start : ∀ a b, f a = some b → 0 ≤ quantity a b)
    (created : ∀ e ∈ entries, 0 ≤ quantity e.1 e.2) :
    sum quantity (apply (additions entries) f) ≤ sum quantity f + listSum quantity entries := by
  induction entries generalizing f with
  | nil => simp [additions, listSum]
  | cons e entries ih =>
    have next : ∀ a b, update f e.1 (some e.2) a = some b → 0 ≤ quantity a b := by
      intro a b found
      by_cases same : a = e.1
      · subst same
        rw [update_self] at found
        cases found
        exact created e mem_cons_self
      · rw [update_of_ne same] at found
        exact start a b found
    have old : 0 ≤ (f e.1).elim 0 (quantity e.1) := by
      cases here : f e.1 with
      | none => exact le_refl 0
      | some b => exact start e.1 b here
    have rest := ih next fun e' member => created e' (mem_cons_of_mem e member)
    rw [sum_update] at rest
    simp only [additions, map_cons, apply_cons] at rest ⊢
    simp only [listSum, map_cons, sum_cons, Option.elim_some] at rest ⊢
    omega

end

end Ledger
