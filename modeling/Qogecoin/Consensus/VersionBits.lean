import Qogecoin.Library.Loops
import Qogecoin.Consensus.Params

/-! The versionbits state machine as the code runs it, with a cache that all branches share, and
that its answers are those of the machine of BIP9 run over the block's own ancestors. -/
namespace Qogecoin.Consensus

open List BIP9Deployment Chain Function Nat

structure ThresholdConditionChecker where
  condition : Chain → Bool
  beginTime : Int
  endTime : Int
  minActivationHeight : Int
  period : Nat
  threshold : Int
  positive : 0 < period

abbrev ThresholdConditionCache := Chain → Option ThresholdState

namespace ThresholdConditionChecker

variable (checker : ThresholdConditionChecker)

def count : Nat → Chain → Int
  | 0, _ => 0
  | n + 1, pindexCount =>
    (if checker.condition pindexCount then 1 else 0) + count n pindexCount.pprev

def stateNext (pindexPrev : Chain) : ThresholdState → ThresholdState
  | .defined => if pindexPrev.getMedianTimePast ≥ checker.beginTime then .started else .defined
  | .started =>
    if checker.count checker.period pindexPrev ≥ checker.threshold then .lockedIn
    else if pindexPrev.getMedianTimePast ≥ checker.endTime then .failed
    else .started
  | .lockedIn =>
    if pindexPrev.nHeight + 1 ≥ checker.minActivationHeight then .active else .lockedIn
  | .failed => .failed
  | .active => .active

def previousPeriodParent (pindexPrev : Chain) : Chain :=
  pindexPrev.getAncestor (pindexPrev.nHeight - checker.period)

theorem previousPeriodParent_eq (pindexPrev : Chain) :
    checker.previousPeriodParent pindexPrev = pindexPrev.drop checker.period := by
  rw [previousPeriodParent, getAncestor]
  split_ifs with outside
  · have short : pindexPrev.length ≤ checker.period := by
      simp only [nHeight] at outside
      omega
    exact (drop_of_length_le short).symm
  · congr 1
    omega

theorem length_previousPeriodParent {pindexPrev : Chain} (nonempty : pindexPrev ≠ []) :
    (checker.previousPeriodParent pindexPrev).length < pindexPrev.length := by
  have length := length_pos_of_ne_nil nonempty
  have positive := checker.positive
  rw [previousPeriodParent_eq, length_drop]
  omega

variable (cache : ThresholdConditionCache)

/-- The walk backwards, to a block whose state is known: the cache, that state, and `vToCompute`
with the block pushed last in front. -/
def walkBack (cache : ThresholdConditionCache) (pindexPrev : Chain) (vToCompute : List Chain) :
    ThresholdConditionCache × ThresholdState × List Chain :=
  match cache pindexPrev with
  | some state => (cache, state, vToCompute)
  | none =>
    if _nonempty : pindexPrev = [] then
      (update cache pindexPrev (some .defined), .defined, vToCompute)
    else if pindexPrev.getMedianTimePast < checker.beginTime then
      (update cache pindexPrev (some .defined), .defined, vToCompute)
    else
      walkBack cache (checker.previousPeriodParent pindexPrev) (pindexPrev :: vToCompute)
termination_by pindexPrev.length
decreasing_by exact checker.length_previousPeriodParent _nonempty

def walkForward (cache : ThresholdConditionCache) (state : ThresholdState) :
    List Chain → ThresholdState × ThresholdConditionCache
  | [] => (state, cache)
  | pindexPrev :: vToCompute =>
    let stateNext := checker.stateNext pindexPrev state
    walkForward (update cache pindexPrev (some stateNext)) stateNext vToCompute

section

variable (pindexPrev : Chain)

def periodParent : Chain :=
  pindexPrev.getAncestor (pindexPrev.nHeight - (pindexPrev.nHeight + 1) % checker.period)

def getStateFor : ThresholdState × ThresholdConditionCache :=
  if checker.beginTime = alwaysActive then (.active, cache)
  else if checker.beginTime = neverActive then (.failed, cache)
  else
    let (cache, state, vToCompute) := checker.walkBack cache (checker.periodParent pindexPrev) []
    checker.walkForward cache state vToCompute

def walkSince (initialState : ThresholdState) (cache : ThresholdConditionCache)
    (pindexPrev : Chain) : Int × ThresholdConditionCache :=
  if _earlier : checker.previousPeriodParent pindexPrev = [] then (pindexPrev.nHeight + 1, cache)
  else
    let (state, cache) := checker.getStateFor cache (checker.previousPeriodParent pindexPrev)
    if state = initialState then
      walkSince initialState cache (checker.previousPeriodParent pindexPrev)
    else (pindexPrev.nHeight + 1, cache)
termination_by pindexPrev.length
decreasing_by
  apply checker.length_previousPeriodParent
  intro none
  exact _earlier (by rw [none, previousPeriodParent_eq, drop_nil])

/-- `GetStateSinceHeightFor`; without a value it has followed a null pointer. -/
def getStateSinceHeightFor : Option Int × ThresholdConditionCache :=
  if checker.beginTime = alwaysActive
      ∨ checker.beginTime = neverActive then (some 0, cache)
  else
    let (initialState, cache) := checker.getStateFor cache pindexPrev
    if initialState = .defined then (some 0, cache)
    else
      let pindexPrev := checker.periodParent pindexPrev
      if pindexPrev = [] then (none, cache)
      else
        let (height, cache) := checker.walkSince initialState cache pindexPrev
        (some height, cache)

def upTo (pindex : Chain) (n : Nat) : Chain := pindex.drop (pindex.length - n)

/-- The state of each period, from the first one on, without cache or shortcut. -/
def periodState (pindex : Chain) : Nat → ThresholdState
  | 0 => .defined
  | k + 1 => checker.stateNext (upTo pindex ((k + 1) * checker.period)) (periodState pindex k)

def bip9State : ThresholdState :=
  if checker.beginTime = alwaysActive then .active
  else if checker.beginTime = neverActive then .failed
  else checker.periodState pindexPrev (pindexPrev.length / checker.period)

end

section

variable {n k : Nat} {pindex pindexPrev : Chain} {cache : ThresholdConditionCache}

omit checker in
theorem length_upTo (inside : n ≤ pindex.length) :
    (upTo pindex n).length = n := by
  rw [upTo, length_drop]
  omega

omit checker in
theorem upTo_length (pindex : Chain) : upTo pindex pindex.length = pindex := by
  rw [upTo, Nat.sub_self]
  rfl

omit checker in
theorem upTo_upTo (pindex : Chain) {m : Nat} (below : n ≤ m) (inside : m ≤ pindex.length) :
    upTo (upTo pindex m) n = upTo pindex n := by
  rw [upTo, length_upTo inside, upTo, upTo, drop_drop]
  congr 1
  omega

theorem periodState_upTo (pindex : Chain) (below : k * checker.period ≤ n)
    (inside : n ≤ pindex.length) :
    checker.periodState (upTo pindex n) k = checker.periodState pindex k := by
  induction k with
  | zero => rfl
  | succ k ih =>
    have smaller : k * checker.period ≤ n := by
      rw [succ_mul] at below
      omega
    rw [periodState, periodState, upTo_upTo pindex below inside, ih smaller]

theorem periodParent_eq (pindexPrev : Chain) :
    checker.periodParent pindexPrev =
      upTo pindexPrev (pindexPrev.length / checker.period * checker.period) := by
  have split := Nat.div_add_mod' pindexPrev.length checker.period
  have height : pindexPrev.nHeight + 1 = pindexPrev.length := by simp [Chain.nHeight]
  have offset : (pindexPrev.nHeight + 1) % (checker.period : Int) =
      ((pindexPrev.length % checker.period : Nat) : Int) := by
    rw [height]
    norm_cast
  rw [periodParent, offset, Chain.getAncestor, upTo]
  split_ifs with outside
  · have none : pindexPrev.length / checker.period * checker.period = 0 := by omega
    rw [none, Nat.sub_zero, drop_length]
  · congr 1
    omega

theorem upTo_drop_period (inside : (k + 1) * checker.period ≤ pindex.length) :
    (upTo pindex ((k + 1) * checker.period)).drop checker.period =
      upTo pindex (k * checker.period) := by
  rw [upTo, upTo, drop_drop]
  congr 1
  rw [succ_mul] at inside ⊢
  omega

theorem periodState_defined (timely : pindex.Timely) (inside : k * checker.period ≤ pindex.length)
    (early : (upTo pindex (k * checker.period)).getMedianTimePast < checker.beginTime) :
    checker.periodState pindex k = .defined := by
  induction k with
  | zero => rfl
  | succ k ih =>
    have shorter : k * checker.period ≤ (k + 1) * checker.period := by
      rw [succ_mul]
      omega
    have median : (upTo pindex (k * checker.period)).getMedianTimePast ≤
        (upTo pindex ((k + 1) * checker.period)).getMedianTimePast := by
      rw [← checker.upTo_drop_period inside]
      exact (timely.drop _).median_drop_le checker.period
    rw [periodState, ih (by omega) (by omega), stateNext, if_neg (by omega)]

theorem periodState_succ (length : pindexPrev.length = (k + 1) * checker.period) :
    checker.periodState pindexPrev (k + 1) =
      checker.stateNext pindexPrev (checker.periodState (pindexPrev.drop checker.period) k) := by
  have inside : k * checker.period ≤ pindexPrev.length := by
    rw [length, Nat.succ_mul]
    omega
  have before : pindexPrev.drop checker.period = upTo pindexPrev (k * checker.period) := by
    rw [upTo, length, Nat.succ_mul, Nat.add_sub_cancel_left]
  rw [periodState, before, checker.periodState_upTo pindexPrev (le_refl _) inside, ← length,
    upTo_length]

theorem periodState_early (timely : pindexPrev.Timely)
    (length : pindexPrev.length = k * checker.period)
    (early : pindexPrev.getMedianTimePast < checker.beginTime) :
    checker.periodState pindexPrev k = .defined := by
  apply checker.periodState_defined timely (le_of_eq length.symm)
  rwa [← length, upTo_length]

theorem length_drop_period (length : pindexPrev.length = (k + 1) * checker.period) :
    pindexPrev ≠ [] ∧ (pindexPrev.drop checker.period).length = k * checker.period := by
  have positive := checker.positive
  rw [succ_mul] at length
  refine ⟨ne_nil_of_length_pos (by omega), ?_⟩
  rw [length_drop]
  omega

def Faithful (cache : ThresholdConditionCache) : Prop :=
  ∀ k pindex state, cache pindex = some state → pindex.length = k * checker.period →
    state = checker.periodState pindex k

variable {checker}

theorem Faithful.update (faithful : checker.Faithful cache)
    (length : pindexPrev.length = k * checker.period) :
    checker.Faithful
      (update cache pindexPrev (some (checker.periodState pindexPrev k))) := by
  intro j pindex state found length'
  by_cases same : pindex = pindexPrev
  · subst same
    have equal : j = k := eq_of_mul_eq_mul_right checker.positive (length'.symm.trans length)
    rw [update_self] at found
    rw [equal]
    exact (Option.some.inj found).symm
  · rw [update_of_ne same] at found
    exact faithful j pindex state found length'

/-- The two walks come to the state of the machine: going forward from where the walk back has
stopped is going forward from there. -/
theorem walk_spec (k : Nat) {cache : ThresholdConditionCache} (faithful : checker.Faithful cache)
    {pindexPrev : Chain} (timely : pindexPrev.Timely)
    (length : pindexPrev.length = k * checker.period) (vToCompute : List Chain) :
    ∃ cache', checker.Faithful cache' ∧
      checker.walkForward (checker.walkBack cache pindexPrev vToCompute).1
          (checker.walkBack cache pindexPrev vToCompute).2.1
          (checker.walkBack cache pindexPrev vToCompute).2.2 =
        checker.walkForward cache' (checker.periodState pindexPrev k) vToCompute := by
  rw [walkBack]
  cases known : cache pindexPrev with
  | some state =>
    rw [← faithful k pindexPrev state known length]
    exact ⟨cache, faithful, rfl⟩
  | none =>
    have update := faithful.update length
    cases k with
    | zero =>
      have none : pindexPrev = [] := eq_nil_of_length_eq_zero (by omega)
      simp only [dif_pos none]
      exact ⟨_, update, rfl⟩
    | succ k =>
      obtain ⟨nonempty, shorter⟩ := checker.length_drop_period length
      simp only [dif_neg nonempty]
      split_ifs with early
      · rw [checker.periodState_early timely length early] at update ⊢
        exact ⟨_, update, rfl⟩
      · obtain ⟨cache', faithful', walked⟩ :=
          walk_spec k faithful (timely.drop _) shorter (pindexPrev :: vToCompute)
        rw [previousPeriodParent_eq, walked]
        refine ⟨_, faithful'.update length, ?_⟩
        rw [walkForward, checker.periodState_succ length]

theorem getStateFor_spec (faithful : checker.Faithful cache)
    (timely : pindexPrev.Timely) :
    (checker.getStateFor cache pindexPrev).1 = checker.bip9State pindexPrev ∧
      checker.Faithful (checker.getStateFor cache pindexPrev).2 := by
  rw [getStateFor, bip9State]
  split
  · exact ⟨rfl, faithful⟩
  split
  · exact ⟨rfl, faithful⟩
  · have inside : pindexPrev.length / checker.period * checker.period ≤ pindexPrev.length :=
      div_mul_le_self _ _
    have before : (upTo pindexPrev
        (pindexPrev.length / checker.period * checker.period)).Timely := timely.drop _
    obtain ⟨cache', faithful', walked⟩ := walk_spec (pindexPrev.length / checker.period) faithful
      before (length_upTo inside) []
    rw [← periodParent_eq] at walked
    have state : checker.periodState (checker.periodParent pindexPrev)
        (pindexPrev.length / checker.period) =
          checker.periodState pindexPrev (pindexPrev.length / checker.period) := by
      rw [periodParent_eq, checker.periodState_upTo pindexPrev (le_refl _) inside]
    show (checker.walkForward _ _ _).1 = _ ∧ checker.Faithful (checker.walkForward _ _ _).2
    rw [walked, walkForward]
    exact ⟨state, faithful'⟩

theorem bip9State_fixed (fixed : checker.beginTime = alwaysActive ∨
      checker.beginTime = neverActive) (pindex pindex' : Chain) :
    checker.bip9State pindex = checker.bip9State pindex' := by
  rcases fixed with always | never
  · rw [bip9State, bip9State, if_pos always, if_pos always]
  · rw [bip9State, bip9State, if_pos never, if_pos never]

structure Since (checker : ThresholdConditionChecker) (pindex : Chain) (last first : Nat) :
    Prop where
  positive : 0 < first
  below : first ≤ last
  same : ∀ k, first ≤ k → k ≤ last →
    checker.periodState pindex k = checker.periodState pindex last
  different : checker.periodState pindex (first - 1) ≠ checker.periodState pindex last

theorem periodState_defined_below (defined : checker.periodState pindex k = .defined) :
    ∀ j ≤ k, checker.periodState pindex j = .defined := by
  induction k with
  | zero =>
    intro j low
    rw [le_zero.mp low]
    exact defined
  | succ k ih =>
    have before : checker.periodState pindex k = .defined := by
      rw [periodState] at defined
      cases state : checker.periodState pindex k with
      | defined => rfl
      | started | lockedIn | active | failed =>
        rw [state, stateNext] at defined
        grind
    intro j low
    rcases lt_or_ge j (k + 1) with small | last
    · exact ih before j (by omega)
    · rw [le_antisymm low last]
      exact defined

/-- The smallest height from which on all blocks up to the one after `pindexPrev` have the state of
that one. -/
def SinceHeight (checker : ThresholdConditionChecker) (pindexPrev : Chain) (height : Nat) : Prop :=
  IsLeast {h : Nat | ∀ n, h ≤ n → n ≤ pindexPrev.length →
    checker.bip9State (upTo pindexPrev n) = checker.bip9State pindexPrev} height

theorem sinceHeight_zero
    (all : ∀ n, n ≤ pindexPrev.length →
      checker.bip9State (upTo pindexPrev n) = checker.bip9State pindexPrev) :
    SinceHeight checker pindexPrev 0 :=
  ⟨fun n _ inside => all n inside, fun _ _ => zero_le _⟩

section

variable (plain : ¬checker.beginTime = alwaysActive ∧ ¬checker.beginTime = neverActive)

include plain

theorem bip9State_plain (pindex : Chain) :
    checker.bip9State pindex = checker.periodState pindex (pindex.length / checker.period) := by
  rw [bip9State, if_neg plain.1, if_neg plain.2]

theorem bip9State_upTo (pindex : Chain) {n : Nat} (inside : n ≤ pindex.length) :
    checker.bip9State (upTo pindex n) = checker.periodState pindex (n / checker.period) := by
  rw [bip9State_plain plain, length_upTo inside,
    checker.periodState_upTo pindex (div_mul_le_self _ _) inside]

theorem walkSince_spec (m : Nat) {cache : ThresholdConditionCache}
    (faithful : checker.Faithful cache) {pindex : Chain} (timely : pindex.Timely)
    (inside : (m + 1) * checker.period ≤ pindex.length)
    (started : checker.periodState pindex (m + 1) ≠ .defined) :
    ∃ first height cache',
      checker.walkSince (checker.periodState pindex (m + 1)) cache
        (upTo pindex ((m + 1) * checker.period)) = (height, cache') ∧
      height = ((first * checker.period : Nat) : Int) ∧ Since checker pindex (m + 1) first ∧
      checker.Faithful cache' := by
  have positive := checker.positive
  have lower : m * checker.period ≤ pindex.length := by
    rw [Nat.succ_mul] at inside
    omega
  have parent : checker.previousPeriodParent (upTo pindex ((m + 1) * checker.period)) =
      upTo pindex (m * checker.period) := by
    rw [previousPeriodParent_eq, checker.upTo_drop_period inside]
  have height : (upTo pindex ((m + 1) * checker.period)).nHeight + 1 =
      (((m + 1) * checker.period : Nat) : Int) := by
    rw [Chain.nHeight, length_upTo inside]
    omega
  have stop : checker.periodState pindex m ≠ checker.periodState pindex (m + 1) →
      Since checker pindex (m + 1) (m + 1) := by
    intro different
    refine ⟨Nat.succ_pos m, le_refl _, ?_, different⟩
    intro k low high
    rw [le_antisymm high low]
  rw [walkSince, parent]
  cases m with
  | zero =>
    have none : upTo pindex (0 * checker.period) = [] := by
      rw [Nat.zero_mul, upTo, Nat.sub_zero, drop_length]
    simp only [dif_pos none]
    exact ⟨1, _, cache, rfl, height, stop fun same => started same.symm, faithful⟩
  | succ m =>
    have nonempty := (checker.length_drop_period (length_upTo lower)).1
    have before : (upTo pindex ((m + 1) * checker.period)).Timely := timely.drop _
    obtain ⟨state, faithful'⟩ := getStateFor_spec faithful before
    rw [bip9State_upTo plain pindex lower, Nat.mul_div_cancel _ positive] at state
    simp only [dif_neg nonempty]
    by_cases same : checker.periodState pindex (m + 1) = checker.periodState pindex (m + 1 + 1)
    · rw [state, if_pos same, ← same]
      obtain ⟨first, height', cache', walked, value, since, faithful''⟩ :=
        walkSince_spec m faithful' timely lower (same ▸ started)
      refine ⟨first, height', cache', walked, value, ?_, faithful''⟩
      refine ⟨since.positive, since.below.trans (Nat.le_succ _), ?_, same ▸ since.different⟩
      intro k low high
      rcases Nat.lt_or_ge k (m + 1 + 1) with small | last
      · rw [since.same k low (by omega), same]
      · rw [le_antisymm high last]
    · rw [state, if_neg same]
      exact ⟨m + 1 + 1, _, _, rfl, height, stop same, faithful'⟩

theorem sinceHeight_of_since {first : Nat}
    (since : Since checker pindexPrev (pindexPrev.length / checker.period) first) :
    SinceHeight checker pindexPrev (first * checker.period) := by
  have whole := bip9State_plain plain pindexPrev
  constructor
  · intro n low inside
    rw [bip9State_upTo plain pindexPrev inside, whole]
    exact since.same _ ((Nat.le_div_iff_mul_le checker.positive).mpr low)
      (Nat.div_le_div_right inside)
  · intro h all
    by_contra lower
    have positive := checker.positive
    have below := since.below
    have last : (first * checker.period - 1) / checker.period = first - 1 := by
      obtain ⟨f, rfl⟩ := Nat.exists_eq_succ_of_ne_zero since.positive.ne'
      rw [Nat.succ_sub_one]
      apply Nat.div_eq_of_lt_le
      · rw [Nat.succ_mul]
        omega
      · rw [Nat.succ_mul]
        omega
    have inside : first * checker.period - 1 ≤ pindexPrev.length := by
      have fits := (Nat.le_div_iff_mul_le positive).mp below
      omega
    have same := all (first * checker.period - 1) (by omega) inside
    rw [bip9State_upTo plain pindexPrev inside, whole, last] at same
    exact since.different same

end

theorem getStateSinceHeightFor_spec (faithful : checker.Faithful cache)
    (timely : pindexPrev.Timely) :
    (∃ height : Nat, (checker.getStateSinceHeightFor cache pindexPrev).1 = some (height : Int) ∧
        SinceHeight checker pindexPrev height) ∧
      checker.Faithful (checker.getStateSinceHeightFor cache pindexPrev).2 := by
  rw [getStateSinceHeightFor]
  split
  next fixed =>
    exact ⟨⟨0, rfl, sinceHeight_zero fun n _ => bip9State_fixed fixed _ _⟩, faithful⟩
  rename_i plain
  rw [not_or] at plain
  obtain ⟨state, faithful'⟩ := getStateFor_spec faithful timely
  have whole := bip9State_plain plain pindexPrev
  rw [whole] at state
  simp only [state]
  split
  next defined =>
    refine ⟨⟨0, rfl, sinceHeight_zero ?_⟩, faithful'⟩
    intro n inside
    rw [bip9State_upTo plain pindexPrev inside, whole, defined]
    exact periodState_defined_below defined _ (Nat.div_le_div_right inside)
  next started =>
    obtain ⟨m, periods⟩ : ∃ m, pindexPrev.length / checker.period = m + 1 := by
      cases count : pindexPrev.length / checker.period with
      | zero =>
        rw [count] at started
        exact absurd rfl started
      | succ m => exact ⟨m, rfl⟩
    have inside : (m + 1) * checker.period ≤ pindexPrev.length := by
      rw [← periods]
      exact Nat.div_mul_le_self _ _
    have nonempty := (checker.length_drop_period (length_upTo inside)).1
    rw [periods] at started
    obtain ⟨first, height, cache', walked, value, since, faithful''⟩ :=
      walkSince_spec plain m faithful' timely inside started
    rw [periodParent_eq, periods, if_neg nonempty, walked, value]
    exact ⟨⟨first * checker.period, rfl, sinceHeight_of_since plain (periods ▸ since)⟩,
      faithful''⟩

theorem periodState_terminal
    (terminal : checker.periodState pindex k = .active ∨ checker.periodState pindex k = .failed)
    {j : Nat} (later : k ≤ j) :
    checker.periodState pindex j = checker.periodState pindex k := by
  induction later with
  | refl => rfl
  | step _ ih =>
    rw [periodState, ih]
    rcases terminal with active | failed
    · rw [active]
      rfl
    · rw [failed]
      rfl

theorem bip9State_terminal (inside : n ≤ pindex.length)
    (terminal : checker.bip9State (upTo pindex n) = .active ∨
      checker.bip9State (upTo pindex n) = .failed) :
    checker.bip9State pindex = checker.bip9State (upTo pindex n) := by
  by_cases fixed : checker.beginTime = alwaysActive ∨ checker.beginTime = neverActive
  · exact bip9State_fixed fixed _ _
  · have plain := not_or.mp fixed
    rw [bip9State_upTo plain pindex inside] at terminal ⊢
    rw [bip9State_plain plain]
    exact periodState_terminal terminal (Nat.div_le_div_right inside)

theorem bip9State_period {m : Nat} (insideM : m ≤ pindex.length) (insideN : n ≤ pindex.length)
    (same : m / checker.period = n / checker.period) :
    checker.bip9State (upTo pindex m) = checker.bip9State (upTo pindex n) := by
  by_cases fixed : checker.beginTime = alwaysActive ∨ checker.beginTime = neverActive
  · exact bip9State_fixed fixed _ _
  · have plain := not_or.mp fixed
    rw [bip9State_upTo plain pindex insideM, bip9State_upTo plain pindex insideN, same]

end

inductive Query where
  | state (pindexPrev : Chain)
  | sinceHeight (pindexPrev : Chain)

inductive Answer where
  | state (state : ThresholdState)
  | sinceHeight (height : Option Int)
deriving DecidableEq

def Query.pindexPrev : Query → Chain
  | .state pindexPrev => pindexPrev
  | .sinceHeight pindexPrev => pindexPrev

variable (checker : ThresholdConditionChecker) (cache : ThresholdConditionCache)

def ask : Query → Answer × ThresholdConditionCache
  | .state pindexPrev =>
    let (state, cache) := checker.getStateFor cache pindexPrev
    (.state state, cache)
  | .sinceHeight pindexPrev =>
    let (height, cache) := checker.getStateSinceHeightFor cache pindexPrev
    (.sinceHeight height, cache)

def Right : Query → Answer → Prop
  | .state pindexPrev, .state state => state = checker.bip9State pindexPrev
  | .sinceHeight pindexPrev, .sinceHeight height =>
    ∃ n : Nat, height = some (n : Int) ∧ SinceHeight checker pindexPrev n
  | _, _ => False

theorem ask_spec
    (query : Query) (faithful : checker.Faithful cache) (timely : query.pindexPrev.Timely) :
    checker.Faithful (checker.ask cache query).2 ∧
      Right checker query (checker.ask cache query).1 := by
  cases query with
  | state pindexPrev =>
    obtain ⟨state, faithful'⟩ := getStateFor_spec faithful timely
    exact ⟨faithful', state⟩
  | sinceHeight pindexPrev =>
    obtain ⟨height, faithful'⟩ := getStateSinceHeightFor_spec faithful timely
    exact ⟨faithful', height⟩

/-- Whatever was asked before, and of whichever branch, every answer is that of the machine of BIP9
on the block's own ancestors, in which `ACTIVE` and `FAILED` are terminal and states change only
from one period to the next. -/
theorem cached_states_follow_bip9 (queries : List Query)
    (timely : ∀ query ∈ queries, query.pindexPrev.Timely) :
    List.Forall₂ (Right checker) queries
        (Queries.answers checker.ask (fun _ => none) queries) ∧
      (∀ (pindex : Chain) (n : Nat), n ≤ pindex.length →
        checker.bip9State (upTo pindex n) = .active ∨
          checker.bip9State (upTo pindex n) = .failed →
        checker.bip9State pindex = checker.bip9State (upTo pindex n)) ∧
      ∀ (pindex : Chain) (m n : Nat), m ≤ pindex.length → n ≤ pindex.length →
        m / checker.period = n / checker.period →
        checker.bip9State (upTo pindex m) = checker.bip9State (upTo pindex n) := by
  refine ⟨?_, fun _ _ => bip9State_terminal, fun _ _ _ => bip9State_period⟩
  have empty : checker.Faithful fun _ => none := by
    intro k pindex state found
    cases found
  exact Queries.answers_right checker.ask_spec queries empty timely

def eager : ThresholdConditionChecker where
  condition _ := true
  beginTime := 2
  endTime := 100
  minActivationHeight := 0
  period := 2
  threshold := 2
  positive := by decide

def seconds : Nat → Chain
  | 0 => []
  | n + 1 => ⟨.uint256S n, 1, UInt32.ofNat n, 0x207fffff⟩ :: seconds n

theorem cached_states_follow_bip9_on_seconds :
    (seconds 9).Timely ∧ eager.bip9State (seconds 9) = .active ∧
      List.Forall₂ (Right eager) [.state (seconds 3), .sinceHeight (seconds 9), .state (seconds 9)]
        (Queries.answers eager.ask (fun _ => none)
          [.state (seconds 3), .sinceHeight (seconds 9), .state (seconds 9)]) := by
  have timely : (seconds 9).Timely := by
    simp only [seconds, Timely]
    decide
  have early : (seconds 3).Timely := timely.drop 6
  refine ⟨timely, by decide, (cached_states_follow_bip9 eager _ ?_).1⟩
  intro query member
  simp only [mem_cons, not_mem_nil, or_false] at member
  rcases member with rfl | rfl | rfl
  · exact early
  · exact timely
  · exact timely

end ThresholdConditionChecker

def versionBitsConditionChecker (params : Params) (deployment : BIP9Deployment)
    (positive : 0 < params.nMinerConfirmationWindow) : ThresholdConditionChecker where
  condition
    | [] => false
    | pindex :: _ => condition deployment pindex
  beginTime := deployment.nStartTime
  endTime := deployment.nTimeout
  minActivationHeight := deployment.minActivationHeight
  period := params.nMinerConfirmationWindow
  threshold := params.nRuleChangeActivationThreshold
  positive

section

variable {params : Params} (deployment : BIP9Deployment)
  (positive : 0 < params.nMinerConfirmationWindow)

theorem count_eq (n : Nat) (pindex : Chain) :
    (versionBitsConditionChecker params deployment positive).count n pindex =
      ((pindex.take n).countP (condition deployment) : Nat) := by
  induction n generalizing pindex with
  | zero => rfl
  | succ n ih =>
    rw [ThresholdConditionChecker.count, ih]
    cases pindex with
    | nil => simp [versionBitsConditionChecker, Chain.pprev]
    | cons index pprev =>
      rw [take_succ_cons, countP_cons, Chain.pprev, tail_cons]
      cases signals : condition deployment index with
      | true => simp [versionBitsConditionChecker, signals, Int.add_comm]
      | false => simp [versionBitsConditionChecker, signals]

theorem nextState_eq (pindexPrev : Chain) (state : ThresholdState) :
    nextState params deployment pindexPrev state =
      (versionBitsConditionChecker params deployment positive).stateNext pindexPrev state := by
  cases state with
  | started =>
    rw [nextState, ThresholdConditionChecker.stateNext, count_eq]
    simp [versionBitsConditionChecker]
  | defined | lockedIn | active | failed => rfl

theorem stateAtPeriod_eq (k : Nat) {pindexPrev : Chain} (timely : pindexPrev.Timely)
    (length : pindexPrev.length = k * params.nMinerConfirmationWindow) :
    stateAtPeriod params deployment pindexPrev =
      (versionBitsConditionChecker params deployment positive).periodState pindexPrev k := by
  let checker := versionBitsConditionChecker params deployment positive
  rw [stateAtPeriod]
  cases k with
  | zero =>
    have none : pindexPrev = [] := eq_nil_of_length_eq_zero (by omega)
    rw [dif_pos (.inl none)]
    rfl
  | succ k =>
    obtain ⟨nonempty, shorter⟩ := checker.length_drop_period length
    rw [dif_neg (not_or.mpr ⟨nonempty, positive.ne'⟩)]
    split_ifs with early
    · exact (checker.periodState_early timely length early).symm
    · rw [checker.periodState_succ length, nextState_eq deployment positive]
      exact congrArg _ (stateAtPeriod_eq k (timely.drop _) shorter)

theorem getStateFor_eq_bip9State {pindexPrev : Chain} (timely : pindexPrev.Timely) :
    getStateFor params deployment pindexPrev =
      (versionBitsConditionChecker params deployment positive).bip9State pindexPrev := by
  let checker := versionBitsConditionChecker params deployment positive
  have inside : pindexPrev.length / checker.period * checker.period ≤ pindexPrev.length :=
    div_mul_le_self _ _
  have walked : stateAtPeriod params deployment (checker.periodParent pindexPrev) =
      checker.periodState pindexPrev (pindexPrev.length / checker.period) := by
    rw [checker.periodParent_eq, ← checker.periodState_upTo pindexPrev (le_refl _) inside]
    exact stateAtPeriod_eq deployment positive _ (timely.drop _)
      (ThresholdConditionChecker.length_upTo inside)
  show (if deployment.nStartTime = _ then _ else if deployment.nStartTime = _ then _ else
    stateAtPeriod params deployment (checker.periodParent pindexPrev)) = _
  rw [walked]
  rfl

end

end Qogecoin.Consensus
