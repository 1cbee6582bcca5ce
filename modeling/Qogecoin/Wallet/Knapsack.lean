import Mathlib.Algebra.BigOperators.Group.List.Basic
import Mathlib.Algebra.Order.Ring.Int
import Mathlib.Data.List.ReduceOption
import Mathlib.Data.List.Sort

/-! The knapsack solver of `wallet/coinselection.cpp`. Every selection it returns covers the target.
It returns none for exactly the pools whose groups are all small and together fall short, also where
leaving out the groups of negative amount would cover the target. Amounts are unbounded integers. -/
namespace Qogecoin.Wallet

open List

structure OutputGroup where
  value : Int
  effectiveValue : Int
  subtractFeeOutputs : Bool
deriving DecidableEq, Repr

def OutputGroup.getSelectionAmount (group : OutputGroup) : Int :=
  if group.subtractFeeOutputs then group.value else group.effectiveValue

namespace Knapsack

def amountOf (groups : List OutputGroup) : Int := (groups.map (·.getSelectionAmount)).sum

/-- What the generator and `std::sort` decide in one call. -/
structure Choices where
  shuffle : List OutputGroup → List OutputGroup
  shuffle_perm : ∀ groups, (shuffle groups).Perm groups
  sort : List OutputGroup → List OutputGroup
  sort_perm : ∀ groups, (sort groups).Perm groups
  descending : ∀ groups, (sort groups).Pairwise (·.getSelectionAmount ≥ ·.getSelectionAmount)
  randbool : Nat → Bool

def picked (groups : List OutputGroup) (flags : List Bool) : List OutputGroup :=
  ((groups.zip flags).filter (·.2)).map (·.1)

/-- The variables of `ApproximateBestSubset`. `drawn` counts the calls of `randbool`, and `tried`
records the totals that are compared with the target. -/
structure Search where
  vfIncluded : List Bool := []
  nTotal : Int := 0
  fReachedTarget : Bool := false
  vfBest : List Bool
  nBest : Int
  drawn : Nat
  tried : List Int := []

section Model

variable (randbool : Nat → Bool) (groups : List OutputGroup) (target change : Int)

def Search.tryGroup (group : OutputGroup) (i : Nat) (s : Search) : Search :=
  let nTotal := s.nTotal + group.getSelectionAmount
  let vfIncluded := s.vfIncluded.set i true
  let tried := nTotal :: s.tried
  -- a group that reaches the target is left out again
  if target ≤ nTotal then
    { s with
      tried
      fReachedTarget := true
      nBest := if nTotal < s.nBest then nTotal else s.nBest
      vfBest := if nTotal < s.nBest then vfIncluded else s.vfBest
      nTotal := nTotal - group.getSelectionAmount
      vfIncluded := vfIncluded.set i false }
  else { s with nTotal, vfIncluded, tried }

def Search.visit (nPass : Nat) (s : Search) (entry : OutputGroup × Nat) : Search :=
  if nPass = 0 then
    let next := { s with drawn := s.drawn + 1 }
    if randbool s.drawn then next.tryGroup target entry.1 entry.2 else next
  else if s.vfIncluded[entry.2]? = some false then s.tryGroup target entry.1 entry.2
  else s

def Search.pass (s : Search) (nPass : Nat) : Search :=
  if s.fReachedTarget then s else groups.zipIdx.foldl (visit randbool target nPass) s

def Search.repetition (s : Search) : Search :=
  if s.nBest = target then s
  else [0, 1].foldl (pass randbool groups target)
    { s with vfIncluded := replicate groups.length false, nTotal := 0, fReachedTarget := false }

def approximateBestSubset (nTotalLower : Int) (drawn : Nat) (iterations : Nat := 1000) : Search :=
  (Search.repetition randbool groups target)^[iterations]
    { vfBest := replicate groups.length true, nBest := nTotalLower, drawn }

structure Split where
  lowestLarger : Option OutputGroup := none
  applicableGroups : List OutputGroup := []
  nTotalLower : Int := 0

def Split.visit (s : Split) (group : OutputGroup) : Except OutputGroup Split :=
  if group.getSelectionAmount = target then .error group
  else if group.getSelectionAmount < target + change then
    .ok { s with
      applicableGroups := s.applicableGroups ++ [group]
      nTotalLower := s.nTotalLower + group.getSelectionAmount }
  else if s.lowestLarger.all (group.getSelectionAmount < ·.getSelectionAmount) then
    .ok { s with lowestLarger := some group }
  else .ok s

variable (choices : Choices)

def Split.search (s : Split) : Search :=
  let groups := choices.sort s.applicableGroups
  let best := approximateBestSubset choices.randbool groups target s.nTotalLower 0
  if best.nBest ≠ target ∧ target + change ≤ s.nTotalLower then
    approximateBestSubset choices.randbool groups (target + change) s.nTotalLower best.drawn
  else best

def knapsackSolver : Option (List OutputGroup) :=
  match (choices.shuffle groups).foldlM (Split.visit target change) {} with
  | .error group => some [group]
  | .ok s =>
    if s.nTotalLower = target then some s.applicableGroups
    else if s.nTotalLower < target then s.lowestLarger.map ([·])
    else
      let best := s.search target change choices
      match s.lowestLarger.filter fun group =>
          (best.nBest ≠ target ∧ best.nBest < target + change) ∨
            group.getSelectionAmount ≤ best.nBest with
      | some group => some [group]
      | none => some (picked (choices.sort s.applicableGroups) best.vfBest)

def ReachesTarget : Prop :=
  (∀ selected ∈ knapsackSolver groups target change choices, target ≤ amountOf selected) ∧
    (knapsackSolver groups target change choices = none →
      ∀ chosen : List OutputGroup, chosen.Sublist groups → amountOf chosen < target)

def Small (group : OutputGroup) : Prop :=
  group.getSelectionAmount ≠ target ∧ group.getSelectionAmount < target + change
deriving Decidable

def Starved : Prop :=
  (∀ group ∈ groups, Small target change group) ∧ amountOf groups < target ∧
    target ≤ amountOf (groups.filter (0 < ·.getSelectionAmount))
deriving Decidable

end Model

variable {randbool : Nat → Bool} {groups : List OutputGroup} {group : OutputGroup}
  {target change : Int} {flags : List Bool} {i : Nat}

@[simp] theorem amountOf_nil : amountOf [] = 0 := rfl

@[simp] theorem amountOf_cons :
    amountOf (group :: groups) = group.getSelectionAmount + amountOf groups := by
  simp [amountOf]

@[simp] theorem amountOf_concat :
    amountOf (groups ++ [group]) = amountOf groups + group.getSelectionAmount := by
  simp [amountOf]

theorem amountOf_perm {groups' : List OutputGroup} (perm : groups.Perm groups') :
    amountOf groups = amountOf groups' :=
  (perm.map _).sum_eq

@[simp] theorem picked_cons (flag : Bool) : picked (group :: groups) (flag :: flags) =
    if flag then group :: picked groups flags else picked groups flags := by
  cases flag <;> simp [picked]

@[simp] theorem picked_replicate (flag : Bool) :
    picked groups (replicate groups.length flag) = if flag then groups else [] := by
  induction groups with
  | nil => simp [picked]
  | cons group groups ih => cases flag <;> simpa [replicate_succ] using ih

theorem amountOf_picked_set (here : groups[i]? = some group) (free : flags[i]? = some false) :
    amountOf (picked groups (flags.set i true)) =
      amountOf (picked groups flags) + group.getSelectionAmount := by
  induction groups generalizing flags i with
  | nil => simp at here
  | cons first groups ih =>
    cases flags with
    | nil => simp at free
    | cons flag flags =>
      cases i with
      | zero => simp_all [add_comm]
      | succ i =>
        have later := ih (by simpa using here) (by simpa using free)
        cases flag <;> simp [later, add_assoc]

theorem amountOf_le_positive {chosen : List OutputGroup} (sub : chosen.Sublist groups) :
    amountOf chosen ≤ amountOf (groups.filter (0 < ·.getSelectionAmount)) := by
  induction sub with
  | slnil => simp
  | cons group _ ih | cons_cons group _ ih =>
    by_cases positive : 0 < group.getSelectionAmount <;> simp [positive] <;> omega

/-- The best subset so far has the recorded amount, and no total that was tried is closer to the
target. -/
structure Search.Best (groups : List OutputGroup) (target lower : Int) (s : Search) : Prop where
  amount : amountOf (picked groups s.vfBest) = s.nBest
  reaches : target ≤ s.nBest
  tried : s.nBest ∈ lower :: s.tried
  least : ∀ total ∈ lower :: s.tried, target ≤ total → s.nBest ≤ total

structure Search.Included (groups : List OutputGroup) (target lower : Int) (s : Search) : Prop
    extends Best groups target lower s where
  total : amountOf (picked groups s.vfIncluded) = s.nTotal

namespace Search

variable {s : Search} {nPass : Nat} {lower : Int}

theorem tryGroup_included (holds : s.Included groups target lower) (here : groups[i]? = some group)
    (free : s.vfIncluded[i]? = some false) :
    (s.tryGroup target group i).Included groups target lower ∧
      ∀ j ≠ i, (s.tryGroup target group i).vfIncluded[j]? = s.vfIncluded[j]? := by
  obtain ⟨⟨amount, reaches, tried, least⟩, total⟩ := holds
  have added := amountOf_picked_set here free
  have restored : s.vfIncluded.set i false = s.vfIncluded := by
    obtain ⟨inside, unset⟩ := List.getElem?_eq_some_iff.mp free
    rw [← unset, set_getElem_self]
  simp only [mem_cons, forall_eq_or_imp] at tried least
  dsimp only [tryGroup]
  split_ifs with reached better
  · refine ⟨⟨⟨by rw [added, total], reached, by simp, ?_⟩, by simp [restored, total]⟩,
      by simp [restored]⟩
    simp only [mem_cons, forall_eq_or_imp, le_refl, implies_true, true_and]
    exact ⟨fun covers => better.le.trans (least.1 covers), fun other mem covers =>
      better.le.trans (least.2 other mem covers)⟩
  · refine ⟨⟨⟨amount, reaches, by simp only [mem_cons]; tauto, ?_⟩, by simp [restored, total]⟩,
      by simp [restored]⟩
    simp only [mem_cons, forall_eq_or_imp]
    exact ⟨least.1, fun _ => not_lt.mp better, least.2⟩
  · refine ⟨⟨⟨amount, reaches, by simp only [mem_cons]; tauto, ?_⟩, by rw [added, total]⟩,
      fun j other => getElem?_set_ne other.symm⟩
    simp only [mem_cons, forall_eq_or_imp]
    exact ⟨least.1, fun covers => absurd covers reached, least.2⟩

theorem visit_included (holds : s.Included groups target lower) (here : groups[i]? = some group)
    (free : nPass = 0 → s.vfIncluded[i]? = some false) :
    (s.visit randbool target nPass (group, i)).Included groups target lower ∧
      ∀ j ≠ i, (s.visit randbool target nPass (group, i)).vfIncluded[j]? = s.vfIncluded[j]? := by
  have next : Included groups target lower { s with drawn := s.drawn + 1 } :=
    ⟨⟨holds.amount, holds.reaches, holds.tried, holds.least⟩, holds.total⟩
  unfold visit
  split_ifs with first drawn unset
  · exact tryGroup_included next here (free first)
  · exact ⟨next, fun _ _ => rfl⟩
  · exact tryGroup_included holds here unset
  · exact ⟨holds, fun _ _ => rfl⟩

theorem foldl_visit_included (rest : List OutputGroup) (remaining : rest = groups.drop i)
    (holds : s.Included groups target lower)
    (free : nPass = 0 → ∀ j, i ≤ j → j < groups.length → s.vfIncluded[j]? = some false) :
    ((rest.zipIdx i).foldl (visit randbool target nPass) s).Included groups target lower := by
  induction rest generalizing i s with
  | nil => exact holds
  | cons group rest ih =>
    have inside : i < groups.length := by
      by_contra beyond
      rw [drop_of_length_le (not_lt.mp beyond)] at remaining
      cases remaining
    rw [drop_eq_getElem_cons inside] at remaining
    obtain ⟨rfl, rfl⟩ := cons.inj remaining
    obtain ⟨kept, others⟩ := visit_included holds (getElem?_eq_getElem inside)
      fun first => free first i le_rfl inside
    refine ih rfl kept fun first j later short => ?_
    rw [others j (by omega)]
    exact free first j (by omega) short

theorem repetition_best (holds : s.Best groups target lower) :
    (s.repetition randbool groups target).Best groups target lower := by
  unfold repetition
  split_ifs
  · exact holds
  have started : Included groups target lower { s with
      vfIncluded := replicate groups.length false, nTotal := 0, fReachedTarget := false } :=
    ⟨⟨holds.amount, holds.reaches, holds.tried, holds.least⟩, by simp⟩
  have first := @foldl_visit_included randbool groups _ 0 _ 0 _ groups rfl started
    fun _ j _ short => by simp [short]
  simp only [foldl_cons, foldl_nil, pass, Bool.false_eq_true, if_false]
  split_ifs
  · exact first.toBest
  · exact (foldl_visit_included groups rfl first (by simp)).toBest

end Search

theorem approximateBestSubset_best {nTotalLower : Int} (lower : amountOf groups = nTotalLower)
    (reaches : target ≤ nTotalLower) (drawn iterations : Nat) :
    (approximateBestSubset randbool groups target nTotalLower drawn iterations).Best groups target
      nTotalLower :=
  Function.Iterate.rec (Search.Best groups target nTotalLower)
    ⟨by simpa using lower, reaches, mem_cons_self, by simp⟩
    (fun _ holds => Search.repetition_best holds) iterations

structure Split.Of (target change : Int) (visited : List OutputGroup) (s : Split) : Prop where
  inexact : ∀ group ∈ visited, group.getSelectionAmount ≠ target
  applicable : s.applicableGroups = visited.filter (·.getSelectionAmount < target + change)
  lower : s.nTotalLower = amountOf s.applicableGroups
  larger : ∀ group ∈ s.lowestLarger, group ∈ visited ∧ target + change ≤ group.getSelectionAmount
  lowest : ∀ group ∈ visited, target + change ≤ group.getSelectionAmount →
    ∃ larger ∈ s.lowestLarger, larger.getSelectionAmount ≤ group.getSelectionAmount

section Split

variable {s : Split} {visited : List OutputGroup}

theorem Split.visit_spec (holds : s.Of target change visited) :
    (s.visit target change group = .error group ∧ group.getSelectionAmount = target) ∨
      ∃ s', s.visit target change group = .ok s' ∧ s'.Of target change (visited ++ [group]) := by
  obtain ⟨inexact, applicable, lower, larger, lowest⟩ := holds
  unfold visit
  split_ifs with exact small lowers
  · exact .inl ⟨rfl, exact⟩
  all_goals
    refine .inr ⟨_, rfl, ?_⟩
    constructor <;> simp_all [or_imp, forall_and]
  · intro other mem covers
    obtain ⟨held, isLowest, below⟩ := lowest other mem covers
    simp only [isLowest, Option.all_some, decide_eq_true_eq] at lowers
    exact lowers.le.trans below
  · obtain ⟨held, isLowest, not_lower⟩ := Option.all_eq_false _ _ |>.mp lowers
    exact ⟨held, isLowest, by simpa using not_lower⟩

theorem Split.run_spec (groups : List OutputGroup) (holds : s.Of target change visited) :
    (∃ group ∈ groups, groups.foldlM (visit target change) s = .error group ∧
        group.getSelectionAmount = target) ∨
      ∃ s', groups.foldlM (visit target change) s = .ok s' ∧
        s'.Of target change (visited ++ groups) := by
  induction groups generalizing visited s with
  | nil => exact .inr ⟨s, rfl, by simpa using holds⟩
  | cons group groups ih =>
    rw [foldlM_cons]
    obtain ⟨ran, exact⟩ | ⟨s', ran, kept⟩ := @visit_spec group _ _ _ _ holds
    · exact .inl ⟨group, mem_cons_self, by rw [ran]; rfl, exact⟩
    · rw [ran]
      obtain ⟨found, member, stopped, exact⟩ | ⟨final, finished, kept⟩ := ih kept
      · exact .inl ⟨found, mem_cons_of_mem _ member, stopped, exact⟩
      · exact .inr ⟨final, finished, by simpa using kept⟩

theorem Split.search_best (choices : Choices) (holds : s.Of target change visited)
    (nonneg : 0 ≤ change) (enough : target ≤ s.nTotalLower) :
    ∃ goal, target ≤ goal ∧ goal ≤ target + change ∧
      (s.search target change choices).Best (choices.sort s.applicableGroups) goal
        s.nTotalLower := by
  have lower := (amountOf_perm (choices.sort_perm s.applicableGroups)).trans holds.lower.symm
  dsimp only [search]
  split_ifs with again
  · exact ⟨_, le_add_of_nonneg_right nonneg, le_rfl, approximateBestSubset_best lower again.2 _ _⟩
  · exact ⟨_, le_rfl, le_add_of_nonneg_right nonneg, approximateBestSubset_best lower enough _ _⟩

end Split

variable (choices : Choices)

theorem solver_loop (groups : List OutputGroup) (target change : Int) :
    (∃ group ∈ groups, (choices.shuffle groups).foldlM (Split.visit target change) {} = .error group ∧
        group.getSelectionAmount = target) ∨
      ∃ s, (choices.shuffle groups).foldlM (Split.visit target change) {} = .ok s ∧
        s.Of target change (choices.shuffle groups) := by
  have start : Split.Of target change [] {} := by constructor <;> simp
  obtain ⟨group, member, rest⟩ | finished := Split.run_spec (choices.shuffle groups) start
  · exact .inl ⟨group, (choices.shuffle_perm groups).mem_iff.mp member, rest⟩
  · exact .inr finished

theorem covers_of_knapsackSolver (nonneg : 0 ≤ change) {selected : List OutputGroup}
    (ran : knapsackSolver groups target change choices = some selected) :
    target ≤ amountOf selected := by
  unfold knapsackSolver at ran
  obtain ⟨found, -, stopped, exact⟩ | ⟨s, finished, spec⟩ := solver_loop choices groups target change
  · rw [stopped] at ran
    obtain rfl := Option.some.inj ran
    simp [exact]
  rw [finished] at ran
  have one : ∀ group ∈ s.lowestLarger, target ≤ amountOf [group] := fun group larger => by
    simpa using (le_add_of_nonneg_right nonneg).trans (spec.larger group larger).2
  dsimp only at ran
  split_ifs at ran with equal short
  · obtain rfl := Option.some.inj ran
    exact (spec.lower.symm.trans equal).ge
  · obtain ⟨group, larger, rfl⟩ := Option.map_eq_some_iff.mp ran
    exact one group larger
  · obtain ⟨goal, above, -, best⟩ := Split.search_best choices spec nonneg (not_lt.mp short)
    split at ran <;> obtain rfl := Option.some.inj ran
    case h_1 group closer => exact one group (Option.filter_eq_some_iff.mp closer).1
    case h_2 => exact above.trans (best.reaches.trans best.amount.ge)

theorem knapsackSolver_eq_none : knapsackSolver groups target change choices = none ↔
      (∀ group ∈ groups, Small target change group) ∧ amountOf groups < target := by
  have perm := choices.shuffle_perm groups
  unfold knapsackSolver
  obtain ⟨found, member, stopped, exact⟩ | ⟨s, finished, spec⟩ :=
    solver_loop choices groups target change
  · rw [stopped]
    exact iff_of_false (by simp) fun all => (all.1 found member).1 exact
  rw [finished]
  have total : (∀ group ∈ groups, Small target change group) →
      s.nTotalLower = amountOf groups := by
    intro small
    rw [spec.lower, spec.applicable, filter_eq_self.mpr, amountOf_perm perm]
    simpa [perm.mem_iff] using fun group mem => (small group mem).2
  have large : ¬ s.nTotalLower < target →
      ¬ ((∀ group ∈ groups, Small target change group) ∧ amountOf groups < target) :=
    fun enough all => enough (total all.1 ▸ all.2)
  dsimp only
  split_ifs with equal short
  · exact iff_of_false (by simp) (large equal.not_lt)
  · rw [Option.map_eq_none_iff]
    constructor
    · intro none
      have small : ∀ group ∈ groups, Small target change group := by
        intro group mem
        refine ⟨spec.inexact group (perm.mem_iff.mpr mem), not_le.mp fun reaches => ?_⟩
        simpa [none] using spec.lowest group (perm.mem_iff.mpr mem) reaches
      exact ⟨small, total small ▸ short⟩
    · rintro ⟨small, -⟩
      refine Option.eq_none_iff_forall_not_mem.mpr fun group larger => ?_
      obtain ⟨mem, reaches⟩ := spec.larger group larger
      exact (small group (perm.mem_iff.mp mem)).2.not_ge reaches
  · exact iff_of_false (by split <;> simp) (large short)

theorem knapsackSolver_reaches_iff (groups : List OutputGroup)
    (target change : Int) (nonneg : 0 ≤ change) :
    ReachesTarget groups target change choices ↔ ¬ Starved groups target change := by
  constructor
  · rintro ⟨-, none_only⟩ ⟨small, short, covered⟩
    have none_reaches := none_only ((knapsackSolver_eq_none choices).mpr ⟨small, short⟩)
    exact covered.not_gt (none_reaches _ filter_sublist)
  · intro fed
    refine ⟨fun _ ran => covers_of_knapsackSolver choices nonneg ran, fun ran chosen sub => ?_⟩
    obtain ⟨small, short⟩ := (knapsackSolver_eq_none choices).mp ran
    by_contra reached
    exact fed ⟨small, short, (not_lt.mp reached).trans (amountOf_le_positive sub)⟩

/-- What the solver, aiming at no change, chooses from: the groups that cover the target and, if
those below it do together, the totals of the last search. -/
def candidates (groups : List OutputGroup) (target : Int) : List Int :=
  let below := (choices.shuffle groups).filter (·.getSelectionAmount < target)
  (groups.map (·.getSelectionAmount)).filter (target ≤ ·) ++
    if amountOf below < target then []
    else
      let s : Split := { applicableGroups := below, nTotalLower := amountOf below }
      s.nTotalLower :: (s.search target 0 choices).tried

theorem mem_candidates {s : Split} (spec : s.Of target 0 (choices.shuffle groups)) {total : Int} :
    total ∈ candidates choices groups target ↔
      (∃ group ∈ choices.shuffle groups, target ≤ group.getSelectionAmount ∧
        group.getSelectionAmount = total) ∨
      target ≤ s.nTotalLower ∧ total ∈ s.nTotalLower :: (s.search target 0 choices).tried := by
  have below : (choices.shuffle groups).filter (·.getSelectionAmount < target) =
      s.applicableGroups := by simpa using spec.applicable.symm
  have same : Split.search target 0 choices
      { applicableGroups := s.applicableGroups, nTotalLower := s.nTotalLower } =
        s.search target 0 choices := rfl
  simp only [candidates, below, ← spec.lower, same, mem_append, mem_filter, mem_map,
    (choices.shuffle_perm groups).mem_iff, decide_eq_true_eq]
  refine or_congr ⟨?_, ?_⟩ (by split_ifs with short <;> simp [short, not_lt.mp, not_le.mpr])
  · rintro ⟨⟨group, mem, rfl⟩, covers⟩
    exact ⟨group, mem, covers, rfl⟩
  · rintro ⟨group, mem, covers, rfl⟩
    exact ⟨⟨group, mem, rfl⟩, covers⟩

theorem least_of_knapsackSolver {selected : List OutputGroup}
    (ran : knapsackSolver groups target 0 choices = some selected) :
    amountOf selected ∈ candidates choices groups target ∧
      ∀ total ∈ candidates choices groups target, target ≤ total → amountOf selected ≤ total := by
  unfold knapsackSolver at ran
  obtain ⟨found, mem, stopped, exact⟩ | ⟨s, finished, spec⟩ := solver_loop choices groups target 0
  · rw [stopped] at ran
    obtain rfl := Option.some.inj ran
    simp only [amountOf_cons, amountOf_nil, add_zero, exact, imp_self, implies_true, and_true]
    exact mem_append_left _ (mem_filter.mpr ⟨mem_map.mpr ⟨found, mem, exact⟩, by simp⟩)
  rw [finished] at ran
  simp only [mem_candidates choices spec]
  have ⟨inexact, applicable, lower, larger, lowest⟩ := spec
  simp only [add_zero] at ran larger lowest
  have lowest_le : ∀ group ∈ s.lowestLarger, ∀ other ∈ choices.shuffle groups,
      target ≤ other.getSelectionAmount → group.getSelectionAmount ≤ other.getSelectionAmount := by
    intro group held other mem covers
    obtain ⟨_, same, least⟩ := lowest other mem covers
    obtain rfl := Option.some.inj (held.symm.trans same)
    exact least
  split_ifs at ran with equal short
  · obtain rfl := Option.some.inj ran
    rw [← lower, equal]
    exact ⟨.inr ⟨le_rfl, mem_cons_self⟩, fun _ _ covers => covers⟩
  · obtain ⟨group, held, rfl⟩ := Option.map_eq_some_iff.mp ran
    simp only [amountOf_cons, amountOf_nil, add_zero]
    refine ⟨.inl ⟨group, (larger group held).1, (larger group held).2, rfl⟩, ?_⟩
    rintro _ (⟨other, mem, covers, rfl⟩ | ⟨enough, -⟩) -
    · exact lowest_le group held other mem covers
    · exact absurd enough (not_le.mpr short)
  · obtain ⟨goal, above, within, best⟩ := Split.search_best choices spec le_rfl (not_lt.mp short)
    obtain rfl : goal = target := le_antisymm (by simpa using within) above
    split at ran <;> obtain rfl := Option.some.inj ran
    case h_1 group chosen =>
      obtain ⟨held, closer⟩ := Option.filter_eq_some_iff.mp chosen
      have closer : group.getSelectionAmount ≤ (s.search goal 0 choices).nBest := by
        simpa [best.reaches.not_gt] using closer
      simp only [amountOf_cons, amountOf_nil, add_zero]
      refine ⟨.inl ⟨group, (larger group held).1, (larger group held).2, rfl⟩, ?_⟩
      rintro _ (⟨other, mem, covers, rfl⟩ | ⟨-, mem⟩) covers
      · exact lowest_le group held other mem covers
      · exact closer.trans (best.least _ mem covers)
    case h_2 none =>
      rw [best.amount]
      refine ⟨.inr ⟨not_lt.mp short, best.tried⟩, ?_⟩
      rintro _ (⟨other, mem, covers, rfl⟩ | ⟨-, mem⟩) covers
      · obtain ⟨held, isLowest, least⟩ := lowest other mem covers
        have farther := Option.filter_eq_none_iff.mp none held isLowest
        simp only [best.reaches.not_gt, and_false, false_or, decide_eq_true_eq, not_le] at farther
        exact farther.le.trans least
      · exact best.least _ mem covers

def inOrder : Choices where
  shuffle := id
  shuffle_perm _ := .refl _
  sort groups := groups.insertionSort (·.getSelectionAmount ≥ ·.getSelectionAmount)
  sort_perm _ := perm_insertionSort _ _
  descending groups := by
    have : Std.Total fun a b : OutputGroup => a.getSelectionAmount ≥ b.getSelectionAmount :=
      ⟨fun a b => le_total _ _⟩
    have : IsTrans OutputGroup (·.getSelectionAmount ≥ ·.getSelectionAmount) :=
      ⟨fun _ _ _ ab bc => bc.trans ab⟩
    exact pairwise_insertionSort _ groups
  randbool _ := false

def groupOf (amount : Int) : OutputGroup := ⟨amount + 148, amount, false⟩

theorem knapsackSolver_reaches_three :
    ReachesTarget [groupOf 5, groupOf 4, groupOf 3] 8 2 inOrder :=
  (knapsackSolver_reaches_iff inOrder _ 8 2 (by decide)).mpr (by decide)

theorem knapsackSolver_misses_pair :
    ¬ ReachesTarget [groupOf 5, groupOf 5, groupOf (-4)] 8 0 inOrder := by
  intro holds
  exact absurd (holds.2 (by decide) [groupOf 5, groupOf 5] (by decide)) (by decide)

structure CoinSelectionParams where
  minChangeTarget : Int := 0
  changeFee : Int := 0
  changeTarget : Int := 0

def changeLower : Int := 50000

def changeUpper : Int := 1000000

def generateChangeTarget (paymentValue : Int) (randrange : Int → Int) : Int :=
  if paymentValue ≤ changeLower / 2 then changeLower
  else randrange (min (paymentValue * 2) changeUpper - changeLower) + changeLower

def createTransactionParams (payments : List Int) (randrange : Int → Int) (changeFee : Int) :
    CoinSelectionParams :=
  { changeFee
    changeTarget := generateChangeTarget (payments.sum / payments.length) randrange }

inductive SelectionAlgorithm where
  | bnb
  | knapsack
  | srd
deriving DecidableEq

structure SelectionResult where
  algo : SelectionAlgorithm
  groups : List OutputGroup
  waste : Int
  inputs : Nat
deriving DecidableEq

/-- The step of `std::min_element` under `operator<`: of two as wasteful results the one with more
inputs is less. -/
instance : Min SelectionResult where
  min best result :=
    if result.waste < best.waste ∨ result.waste = best.waste ∧ result.inputs > best.inputs then result
    else best

instance : Std.MinEqOr SelectionResult where
  min_eq_or _ _ := (ite_eq_or_eq _ _ _).symm

/-- `AttemptSelection`, given what the two other algorithms find, the waste of a selection and the
number of its inputs. -/
def attemptSelection (params : CoinSelectionParams) (groups : List OutputGroup) (nTargetValue : Int)
    (choices : Choices) (bnb srd : Option (List OutputGroup)) (waste : List OutputGroup → Int)
    (inputs : List OutputGroup → Nat) : Option SelectionResult :=
  let knapsack :=
    knapsackSolver groups (nTargetValue + params.changeFee) params.minChangeTarget choices
  let measured algo groups : SelectionResult := ⟨algo, groups, waste groups, inputs groups⟩
  let results := [bnb.map (measured .bnb), knapsack.map (measured .knapsack), srd.map (measured .srd)]
  results.reduceOption.min?

def Honours (groups : List OutputGroup) (target change : Int) (selected : List OutputGroup) :
    Prop :=
  amountOf selected = target ∨ target + change ≤ amountOf selected ∨
    (∀ group ∈ groups, group.getSelectionAmount < target + change) ∧
      amountOf (groups.filter (·.getSelectionAmount < target + change)) < target + change
deriving Decidable

theorem knapsack_of_attemptSelection {params : CoinSelectionParams} {nTargetValue : Int}
    {bnb srd : Option (List OutputGroup)} {waste : List OutputGroup → Int}
    {inputs : List OutputGroup → Nat} {result : SelectionResult}
    (chosen : attemptSelection params groups nTargetValue choices bnb srd waste inputs = some result)
    (algo : result.algo = .knapsack) :
    knapsackSolver groups (nTargetValue + params.changeFee) params.minChangeTarget choices =
      some result.groups := by
  have member := reduceOption_mem_iff.mp (min?_mem chosen)
  simp only [mem_cons, not_mem_nil, or_false] at member
  rcases member with other | own | other
  · obtain ⟨_, -, rfl⟩ := Option.map_eq_some_iff.mp other.symm
    cases algo
  · obtain ⟨_, ran, rfl⟩ := Option.map_eq_some_iff.mp own.symm
    exact ran
  · obtain ⟨_, -, rfl⟩ := Option.map_eq_some_iff.mp other.symm
    cases algo

/-- One of the candidates leaves no change, or none leaves less than was aimed at, or the groups do
not allow it. -/
def Unaffected (groups : List OutputGroup) (target change : Int) : Prop :=
  target ∈ candidates choices groups target ∨
    (∀ total ∈ candidates choices groups target, target < total → target + change ≤ total) ∨
    (∀ group ∈ groups, group.getSelectionAmount < target + change) ∧
      amountOf (groups.filter (·.getSelectionAmount < target + change)) < target + change
deriving Decidable

end Knapsack
end Qogecoin.Wallet
