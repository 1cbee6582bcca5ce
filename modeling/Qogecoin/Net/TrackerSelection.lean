import Qogecoin.Library.Loops
import Qogecoin.Net.TrackerViews

/-! Which announcement of a transaction is selected: the private functions of `TxRequestTracker`
decide it from the neighbours of one announcement in the index by transaction hash. -/
namespace Qogecoin.TxRequest

open Coins OrderedIndex Tracker Loops List Announcement Function

variable {computer : PriorityComputer} {sequence : UInt64} {t : Tracker}
  {order order' view : List Announcement} {a b c x y : Announcement}

theorem byTxHashView_le (below : byTxHashView computer x ≤ byTxHashView computer y)
    (same : x.txhash = y.txhash) : x.state ≤ y.state ∧
      (x.state = .candidateReady → y.state = .candidateReady → computer.of x ≤ computer.of y) := by
  simp only [byTxHashView, txHashView, Prod.Lex.le_iff, ofLex_toLex, same, lt_self_iff_false,
    false_or, true_and] at below
  rcases below with lower | ⟨equal, prio⟩
  · exact ⟨lower.le, fun first second => by simp [first, second] at lower⟩
  · refine ⟨equal.le, ?_⟩
    intro first second
    rw [if_pos first, if_pos second] at prio
    exact UInt64.le_iff_toNat_le.mpr prio

theorem byTxHashView_lt_of_state (same : x.txhash = y.txhash) (below : x.state < y.state) :
    byTxHashView computer x < byTxHashView computer y := by
  simp [byTxHashView, txHashView, Prod.Lex.lt_iff, same, below]

variable {state : State}

theorem byTxHashView_between {txhash : Uint256} {prio : UInt64}
    (lower : txHashView txhash state prio ≤ byTxHashView computer b)
    (upper : byTxHashView computer b ≤ byTxHashView computer y) (same : y.txhash = txhash) :
    b.txhash = txhash := by
  have low : txhash ≤ b.txhash := Prod.Lex.monotone_fst _ _ lower
  have high : b.txhash ≤ y.txhash := Prod.Lex.monotone_fst _ _ upper
  exact le_antisymm (same ▸ high) low

theorem State.eq_completed (above : .completed ≤ state) : state = .completed := by
  cases state <;> first | rfl | exact absurd above (by decide)

/-- The announcements of a transaction: at most one is selected; one that is ready waits for a
selected one, which is no worse if it is a candidate; and not all are completed. -/
structure Settled (computer : PriorityComputer) (group : Set Announcement) : Prop where
  single : ∀ x ∈ group, ∀ y ∈ group, x.isSelected = true → y.isSelected = true → x = y
  ready : ∀ x ∈ group, x.state = .candidateReady → ∃ y ∈ group, y.isSelected = true ∧
    (y.state = .candidateBest → computer.of x ≤ computer.of y)
  alive : ∀ x ∈ group, ∃ y ∈ group, y.state ≠ .completed

def group (order : List Announcement) (txhash : Uint256) : Set Announcement :=
  fun x => x ∈ order ∧ x.txhash = txhash

def Selection (computer : PriorityComputer) (order : List Announcement) : Prop :=
  ∀ txhash, Settled computer (group order txhash)

structure Resettled (computer : PriorityComputer) (order : List Announcement) (txhash : Uint256)
    (order' : List Announcement) : Prop where
  selection : Selection computer order'
  outside : ∀ y, y.txhash ≠ txhash → (y ∈ order' ↔ y ∈ order)

theorem Selection.local (selection : Selection computer order) (txhash : Uint256)
    (outside : ∀ y, y.txhash ≠ txhash → (y ∈ order' ↔ y ∈ order))
    (inside : Settled computer (group order' txhash)) :
    Resettled computer order txhash order' := by
  refine ⟨?_, outside⟩
  intro other
  by_cases same : other = txhash
  · rw [same]
    exact inside
  have unchanged : group order' other = group order other := by
    ext y
    constructor
    · intro member
      exact ⟨(outside y (by rw [member.2]; exact same)).mp member.1, member.2⟩
    · intro member
      exact ⟨(outside y (by rw [member.2]; exact same)).mpr member.1, member.2⟩
  rw [unchanged]
  exact selection other

@[simp] theorem setState_id (state : State) (ann : Announcement) :
    (ann.setState state).id = ann.id := rfl

@[simp] theorem setState_state (state : State) (ann : Announcement) :
    (ann.setState state).state = state := rfl

@[simp] theorem setState_setState (s s' : State) (ann : Announcement) :
    (ann.setState s).setState s' = ann.setState s' := rfl

theorem isSelected_iff : x.isSelected = true ↔ x.state = .candidateBest ∨ x.state = .requested := by
  simp [isSelected]

theorem isSelected_iff_between :
    x.isSelected = true ↔ .candidateReady < x.state ∧ x.state < .completed := by
  rw [isSelected_iff]
  cases x.state <;> decide

namespace Settled

variable {G G' : Set Announcement}

theorem of_selected (here : a ∈ G) (chosen : a.isSelected = true)
    (only : ∀ y ∈ G, y.isSelected = true → y = a)
    (greatest : a.state = .candidateBest → ∀ x ∈ G, x.state = .candidateReady →
      computer.of x ≤ computer.of a) : Settled computer G := by
  constructor
  · intro x inX y inY selX selY
    rw [only x inX selX, only y inY selY]
  · exact fun x inX ready => ⟨a, here, chosen, fun best => greatest best x inX ready⟩
  · exact fun _ _ => ⟨a, here, (isSelected_iff_between.mp chosen).2.ne⟩

variable (settled : Settled computer G)

include settled

theorem of_fewer (fewer : ∀ y ∈ G', y.isSelected = true → y ∈ G)
    (ready : ∀ x ∈ G', x.state = .candidateReady →
      (x ∈ G ∧ ∀ y ∈ G, y.isSelected = true → y ∈ G') ∨ ∃ y ∈ G', y.isSelected = true ∧
        (y.state = .candidateBest → computer.of x ≤ computer.of y))
    (alive : ∀ x ∈ G', ∃ y ∈ G', y.state ≠ .completed) : Settled computer G' := by
  refine ⟨?_, ?_, alive⟩
  · intro x inX y inY selX selY
    exact settled.single x (fewer x inX selX) y (fewer y inY selY) selX selY
  · intro x inX waits
    rcases ready x inX waits with ⟨old, kept⟩ | new
    · obtain ⟨y, inY, selected, bound⟩ := settled.ready x old waits
      exact ⟨y, kept y inY selected, selected, bound⟩
    · exact new

theorem promote_best (mem : ∀ y, y ∈ G' ↔ y = a.setState .candidateBest ∨ y ∈ G ∧ y ≠ a)
    (none : ∀ y ∈ G, y.isSelected = false) : Settled computer G' := by
  apply of_selected ((mem _).mpr (.inl rfl)) rfl
  · intro y inside selected
    rcases (mem y).mp inside with same | ⟨old, _⟩
    · exact same
    · rw [none y old] at selected
      cases selected
  · intro _ x inX ready
    rcases (mem x).mp inX with rfl | ⟨old, _⟩
    · cases ready
    · obtain ⟨y, inY, selected, _⟩ := settled.ready x old ready
      rw [none y inY] at selected
      cases selected

theorem promote_over (member : b ∈ G) (best : b.state = .candidateBest)
    (better : computer.of b ≤ computer.of a)
    (mem : ∀ y, y ∈ G' ↔ y = a.setState .candidateBest ∨ y = b.setState .candidateReady ∨
      y ∈ G ∧ y ≠ a ∧ y ≠ b) : Settled computer G' := by
  have chosen : b.isSelected = true := isSelected_iff.mpr (.inl best)
  apply of_selected ((mem _).mpr (.inl rfl)) rfl
  · intro y inside selected
    rcases (mem y).mp inside with same | rfl | ⟨old, _, other⟩
    · exact same
    · cases selected
    · exact absurd (settled.single y old b member selected chosen) other
  · intro _ x inX ready
    rcases (mem x).mp inX with rfl | rfl | ⟨old, _, _⟩
    · cases ready
    · exact better
    · obtain ⟨y, inY, selected, bound⟩ := settled.ready x old ready
      have same := settled.single y inY b member selected chosen
      subst same
      exact UInt64.le_trans (bound best) better

theorem promote_ready (member : b ∈ G) (chosen : b.isSelected = true)
    (delayed : a.state = .candidateDelayed)
    (worse : b.state = .candidateBest → computer.of a ≤ computer.of b)
    (mem : ∀ y, y ∈ G' ↔ y = a.setState .candidateReady ∨ y ∈ G ∧ y ≠ a) :
    Settled computer G' := by
  have kept (y : Announcement) (old : y ∈ G) (selected : y.isSelected = true) : y ∈ G' := by
    refine (mem y).mpr (.inr ⟨old, ?_⟩)
    rintro rfl
    simp [isSelected_iff, delayed] at selected
  apply settled.of_fewer
  · intro y inY selected
    rcases (mem y).mp inY with rfl | ⟨old, _⟩
    · cases selected
    · exact old
  · intro x inX _
    rcases (mem x).mp inX with rfl | ⟨old, _⟩
    · exact .inr ⟨b, kept b member chosen, chosen, worse⟩
    · exact .inl ⟨old, kept⟩
  · exact fun _ _ => ⟨_, (mem _).mpr (.inl rfl), by simp⟩

theorem reselect {state : State} (member : a ∈ G) (chosen : a.isSelected = true)
    (leaves : state = .completed ∨ state = .candidateDelayed)
    (greatest : ∀ y ∈ G, y.state = .candidateReady → computer.of y ≤ computer.of b)
    (mem : ∀ y, y ∈ G' ↔ y = a.setState state ∨ y = b.setState .candidateBest ∨
      y ∈ G ∧ y ≠ a ∧ y ≠ b) : Settled computer G' := by
  apply of_selected ((mem _).mpr (.inr (.inl rfl))) rfl
  · intro y inside selected
    rcases (mem y).mp inside with rfl | same | ⟨old, other, _⟩
    · rcases leaves with rfl | rfl <;> cases selected
    · exact same
    · exact absurd (settled.single y old a member selected chosen) other
  · intro _ x inX ready
    rcases (mem x).mp inX with rfl | rfl | ⟨old, _, _⟩
    · rcases leaves with rfl | rfl <;> cases ready
    · cases ready
    · exact greatest x old ready

theorem leave {state : State} (member : a ∈ G)
    (leaves : state = .completed ∨ state = .candidateDelayed)
    (rest : a.isSelected = true → ∀ y ∈ G, y.state ≠ .candidateReady)
    (others : state = .completed → ∃ y ∈ G, y ≠ a ∧ y.state ≠ .completed)
    (mem : ∀ y, y ∈ G' ↔ y = a.setState state ∨ y ∈ G ∧ y ≠ a) : Settled computer G' := by
  apply settled.of_fewer
  · intro y inY selected
    rcases (mem y).mp inY with rfl | ⟨old, _⟩
    · rcases leaves with rfl | rfl <;> cases selected
    · exact old
  · intro x inX ready
    rcases (mem x).mp inX with rfl | ⟨old, _⟩
    · rcases leaves with rfl | rfl <;> cases ready
    · refine .inl ⟨old, fun y inY selected => (mem y).mpr (.inr ⟨inY, ?_⟩)⟩
      rintro rfl
      exact rest selected x old ready
  · intro x inX
    by_cases completed : state = .completed
    · obtain ⟨y, inY, other, alive⟩ := others completed
      exact ⟨y, (mem y).mpr (.inr ⟨inY, other⟩), alive⟩
    · exact ⟨_, (mem _).mpr (.inl rfl), completed⟩

end Settled

def coarse (ann : Announcement) : Announcement :=
  if ann.state = .candidateBest then ann.setState .candidateReady else ann

theorem setState_self (same : b.state = state) : b.setState state = b := by
  subst same
  rfl

theorem coarse_of_selectable (selectable : b.isSelectable = true) :
    coarse b = b.setState .candidateReady := by
  rw [coarse]
  split_ifs with other
  · rfl
  · have ready : b.state = .candidateReady := by
      simpa [isSelectable, other] using selectable
    exact (setState_self ready).symm

/-- The announcements once `it` is in state `state`. -/
def mark (it : NodeId × Uint256) (state : State) (order : List Announcement) : List Announcement :=
  order.map (update it (·.setState state))

theorem Holds.mark [Container Announcement] (holds : Holds computer sequence t order) (member : a ∈ order) (state : State) :
    ∃ t', t.modify computer a.id (·.setState state) = .ok t' ∧
      Holds computer sequence t' (mark a.id state order) :=
  holds.modify member (·.setState state) fun _ => rfl

theorem unique_mark {it : NodeId × Uint256} (unique : UniqueIds order) :
    UniqueIds (mark it state order) := unique_map_update unique fun _ => rfl

theorem map_mark {β : Type} {f g : Announcement → β} {it : NodeId × Uint256}
    (own : ∀ x ∈ order, x.id = it → f (x.setState state) = g x)
    (others : ∀ x ∈ order, x.id ≠ it → f x = g x) : (mark it state order).map f = order.map g := by
  rw [mark, map_map]
  apply map_congr_left
  intro x inX
  rw [comp_apply, update]
  split_ifs with same
  · exact own x inX same
  · exact others x inX same

theorem map_coarse_mark (unique : UniqueIds order) (member : b ∈ order)
    (selectable : b.isSelectable = true) (after : (b.setState state).isSelectable = true) :
    (mark b.id state order).map coarse = order.map coarse := by
  refine map_mark ?_ fun _ _ _ => rfl
  intro x inX same
  rw [eq_of_id unique inX member same, coarse_of_selectable selectable, coarse_of_selectable after]
  rfl

theorem mark_mark (it : NodeId × Uint256) (s s' : State) (order : List Announcement) :
    mark it s' (mark it s order) = mark it s' order := by
  refine map_mark ?_ fun _ _ _ => rfl
  intro x _ same
  rw [update, update, setState_id, if_pos same, if_pos same, setState_setState]

theorem mark_comm {i j : NodeId × Uint256} (apart : i ≠ j) (s s' : State)
    (order : List Announcement) : mark j s' (mark i s order) = mark i s (mark j s' order) := by
  rw [mark, mark, mark, mark, map_map, map_map]
  apply map_congr_left
  intro x _
  rw [comp_apply, comp_apply]
  by_cases first : x.id = i
  · simp [update, first, apart]
  · by_cases second : x.id = j
    · simp [update, second, apart.symm]
    · simp [update, first, second]

section

variable (unique : UniqueIds order) (member : a ∈ order) (s : State)
include unique member

theorem mem_mark (y : Announcement) :
    y ∈ mark a.id s order ↔ y = a.setState s ∨ y ∈ order ∧ y ≠ a :=
  mem_update_iff unique member (·.setState s) y

theorem group_mark : (∀ y, y ∈ group (mark a.id s order) a.txhash ↔
      y = a.setState s ∨ y ∈ group order a.txhash ∧ y ≠ a) ∧
    ∀ y, y.txhash ≠ a.txhash → (y ∈ mark a.id s order ↔ y ∈ order) := by
  have mem := mem_mark unique member s
  constructor
  · intro y
    constructor
    · rintro ⟨inY, hash⟩
      rcases (mem y).mp inY with rfl | ⟨old, other⟩
      · exact .inl rfl
      · exact .inr ⟨⟨old, hash⟩, other⟩
    · rintro (rfl | ⟨⟨old, hash⟩, other⟩)
      · exact ⟨(mem _).mpr (.inl rfl), rfl⟩
      · exact ⟨(mem y).mpr (.inr ⟨old, other⟩), hash⟩
  · intro y elsewhere
    rw [mem]
    constructor
    · rintro (rfl | ⟨old, _⟩)
      · exact absurd rfl elsewhere
      · exact old
    · intro old
      refine .inr ⟨old, ?_⟩
      rintro rfl
      exact elsewhere rfl

theorem group_mark2 (member' : b ∈ order) (apart : a.id ≠ b.id) (same : b.txhash = a.txhash)
    (s' : State) :
    (∀ y, y ∈ group (mark b.id s' (mark a.id s order)) a.txhash ↔ y = a.setState s ∨
      y = b.setState s' ∨ y ∈ group order a.txhash ∧ y ≠ a ∧ y ≠ b) ∧
    ∀ y, y.txhash ≠ a.txhash → (y ∈ mark b.id s' (mark a.id s order) ↔ y ∈ order) := by
  have inB := (mem_mark unique member s b).mpr
    (.inr ⟨member', fun equal => apart (by rw [equal])⟩)
  obtain ⟨mem1, outside1⟩ := group_mark unique member s
  obtain ⟨mem2, outside2⟩ := group_mark (unique_mark unique) inB s'
  rw [same] at mem2 outside2
  refine ⟨?_, fun y elsewhere => (outside2 y elsewhere).trans (outside1 y elsewhere)⟩
  intro y
  rw [mem2, mem1]
  constructor
  · rintro (rfl | ⟨rfl | ⟨inG, notA⟩, notB⟩)
    · exact .inr (.inl rfl)
    · exact .inl rfl
    · exact .inr (.inr ⟨inG, notA, notB⟩)
  · rintro (rfl | rfl | ⟨inG, notA, notB⟩)
    · exact .inr ⟨.inl rfl, fun equal => apart (by rw [← setState_id s a, equal])⟩
    · exact .inl rfl
    · exact .inr ⟨.inr ⟨inG, notA⟩, notB⟩

end

variable (holds : Holds computer sequence t order) (selection : Selection computer order)

def Reselects (computer : PriorityComputer) (sequence : UInt64) (order : List Announcement)
    (txhash : Uint256) (changed : List Announcement) (result : Except Crash Tracker) : Prop :=
  ∃ t' order', result = .ok t' ∧ Holds computer sequence t' order' ∧
    Resettled computer order txhash order' ∧ order'.map coarse = changed.map coarse

include holds selection

theorem promoteCandidateReady_spec [Container Announcement] (member : a ∈ order) (delayed : a.state = .candidateDelayed) :
    Reselects computer sequence order a.txhash (mark a.id .candidateReady order)
      (t.promoteCandidateReady computer a.id) := by
  obtain ⟨t1, first, holds1⟩ := holds.mark member .candidateReady
  have mem1 := mem_mark holds.unique member .candidateReady
  have here : a.setState .candidateReady ∈ mark a.id .candidateReady order :=
    (mem1 _).mpr (.inl rfl)
  have others {y : Announcement} (inY : y ∈ group order a.txhash) (selected : y.isSelected = true) :
      y ∈ mark a.id .candidateReady order := by
    refine (mem1 y).mpr (.inr ⟨inY.1, ?_⟩)
    rintro rfl
    simp [isSelected_iff, delayed] at selected
  obtain ⟨before, after, located⟩ := holds1.located holds1.byTxHash here
  -- whatever is selected comes after the neighbour, which therefore is of the same transaction
  have neighbour {y : Announcement} (inY : y ∈ group order a.txhash)
      (selected : y.isSelected = true) : ∃ b, next (·.id = a.id) t1.index.byTxHash = some b ∧
        b.txhash = a.txhash ∧ b.state ≤ y.state := by
    have above : byTxHashView computer (a.setState .candidateReady) < byTxHashView computer y :=
      byTxHashView_lt_of_state inY.2.symm (isSelected_iff_between.mp selected).1
    obtain ⟨b, found, below⟩ := exists_next holds1.sortedTxHash located
      (holds1.byTxHash.mem_iff.mpr (others inY selected)) above
    obtain ⟨_, _, lower⟩ := next_spec holds1.sortedTxHash located found
    have same : b.txhash = a.txhash := byTxHashView_between lower below inY.2
    exact ⟨b, found, same, (byTxHashView_le below (same.trans inY.2.symm)).1⟩
  have becomesBest (none : ∀ y ∈ group order a.txhash, y.isSelected = false) :
      Reselects computer sequence order a.txhash (mark a.id .candidateReady order)
        (t1.modify computer a.id (·.setState .candidateBest)) := by
    obtain ⟨t2, second, holds2⟩ := holds1.mark here .candidateBest
    refine ⟨t2, _, second, holds2, ?_, map_coarse_mark holds1.unique here rfl rfl⟩
    rw [setState_id, mark_mark]
    obtain ⟨mem, outside⟩ := group_mark holds.unique member .candidateBest
    exact selection.local a.txhash outside ((selection a.txhash).promote_best mem none)
  have staysReady {b : Announcement} (inB : b ∈ group order a.txhash) (chosen : b.isSelected = true)
      (worse : b.state = .candidateBest → computer.of a ≤ computer.of b) :
      Reselects computer sequence order a.txhash (mark a.id .candidateReady order) (.ok t1) := by
    obtain ⟨mem, outside⟩ := group_mark holds.unique member .candidateReady
    exact ⟨t1, _, rfl, holds1, selection.local a.txhash outside
      ((selection a.txhash).promote_ready inB chosen delayed worse mem), rfl⟩
  rw [promoteCandidateReady, holds.deref_eq member]
  dsimp only
  rw [if_neg (by simp [delayed]), first, ok_bind]
  cases found : next (·.id = a.id) t1.index.byTxHash with
  | none =>
    apply becomesBest
    intro y inY
    by_contra selected
    obtain ⟨b, found', _⟩ := neighbour inY (by simpa using selected)
    cases found.symm.trans found'
  | some b =>
    obtain ⟨inB, apart, lower⟩ := next_spec holds1.sortedTxHash located found
    have old : b ∈ order ∧ b ≠ a := by
      rcases (mem1 b).mp (holds1.byTxHash.mem_iff.mp inB) with rfl | old
      · simp at apart
      · exact old
    dsimp only
    split
    next last =>
      apply becomesBest
      intro y inY
      by_contra selected
      obtain ⟨b', found', same, below⟩ := neighbour inY (by simpa using selected)
      cases found.symm.trans found'
      rcases last with other | completed
      · exact other same
      · rw [completed] at below
        exact below.not_gt (isSelected_iff_between.mp (by simpa using selected)).2
    next inner =>
      obtain ⟨same, open_⟩ := not_or.mp inner
      have same : b.txhash = a.txhash := not_not.mp same
      have inG : b ∈ group order a.txhash := ⟨old.1, same⟩
      split
      next best =>
        have chosen : b.isSelected = true := isSelected_iff.mpr (.inl best)
        split
        next better =>
          have apart : a.id ≠ b.id := fun equal => old.2 (eq_of_id holds.unique old.1 member equal.symm)
          have inB1 := (mem1 b).mpr (.inr old)
          obtain ⟨t2, second, holds2⟩ := holds1.mark inB1 .candidateReady
          have here2 := (mem_mark holds1.unique inB1 .candidateReady
            (a.setState .candidateReady)).mpr (.inr ⟨here, fun equal => apart (by rw [← equal]; rfl)⟩)
          obtain ⟨t3, third, holds3⟩ := holds2.mark here2 .candidateBest
          rw [second]
          refine ⟨t3, _, third, holds3, ?_, ?_⟩
          · rw [setState_id, mark_comm apart.symm, mark_mark]
            obtain ⟨mem, outside⟩ :=
              group_mark2 holds.unique member .candidateBest old.1 apart same .candidateReady
            exact selection.local a.txhash outside
              ((selection a.txhash).promote_over inG best (UInt64.le_of_lt better) mem)
          · rw [map_coarse_mark holds2.unique here2 rfl rfl,
              map_coarse_mark holds1.unique inB1 (by simp [isSelectable, best]) rfl]
        next worse =>
          exact staysReady inG chosen fun _ => UInt64.not_lt.mp worse
      next notBest =>
        obtain ⟨state, prio⟩ := byTxHashView_le lower same.symm
        cases kind : b.state with
        | candidateDelayed =>
          rw [kind] at state
          exact absurd (show State.candidateReady ≤ .candidateDelayed from state) (by decide)
        | candidateReady =>
          obtain ⟨y, inY, chosen, bound⟩ := (selection a.txhash).ready b inG kind
          exact staysReady inY chosen fun best => UInt64.le_trans (prio rfl kind) (bound best)
        | candidateBest => exact absurd kind notBest
        | requested =>
          exact staysReady inG (isSelected_iff.mpr (.inr kind)) fun best => absurd best notBest
        | completed => exact absurd kind open_

theorem changeAndReselect_spec [Container Announcement] (member : a ∈ order)
    (leaves : state = .completed ∨ state = .candidateDelayed)
    (others : state = .completed → ∃ y ∈ group order a.txhash, y ≠ a ∧ y.state ≠ .completed) :
    Reselects computer sequence order a.txhash (mark a.id state order)
      (t.changeAndReselect computer a.id state) := by
  have inG : a ∈ group order a.txhash := ⟨member, rfl⟩
  have goes (rest : a.isSelected = true → ∀ y ∈ group order a.txhash, y.state ≠ .candidateReady) :
      Reselects computer sequence order a.txhash (mark a.id state order)
        (t.modify computer a.id (·.setState state)) := by
    obtain ⟨t1, changed, holds1⟩ := holds.mark member state
    obtain ⟨mem, outside⟩ := group_mark holds.unique member state
    exact ⟨t1, _, changed, holds1, selection.local a.txhash outside
      ((selection a.txhash).leave inG leaves rest others mem), rfl⟩
  have permitted : ¬(state ≠ .completed ∧ state ≠ .candidateDelayed) := by
    rcases leaves with rfl | rfl <;> simp
  obtain ⟨before, after, located⟩ := holds.located holds.byTxHash member
  rw [changeAndReselect, if_neg permitted, holds.deref_eq member]
  dsimp only
  by_cases chosen : a.isSelected = true
  · rw [if_pos chosen]
    -- a candidate that is ready comes before, so that the neighbour is one as well
    have neighbour {y : Announcement} (inY : y ∈ group order a.txhash)
        (ready : y.state = .candidateReady) : ∃ b, prev (·.id = a.id) t.index.byTxHash = some b ∧
          b.txhash = a.txhash ∧ b.state = .candidateReady ∧ computer.of y ≤ computer.of b := by
      have below : byTxHashView computer y < byTxHashView computer a :=
        byTxHashView_lt_of_state inY.2 (ready.trans_lt (isSelected_iff_between.mp chosen).1)
      obtain ⟨b, found, above⟩ := exists_prev holds.sortedTxHash located
        (holds.byTxHash.mem_iff.mpr inY.1) below
      obtain ⟨inB, apart, upper⟩ := prev_spec holds.sortedTxHash located found
      have same : b.txhash = y.txhash := byTxHashView_between above upper inY.2.symm
      have inB : b ∈ group order a.txhash := ⟨holds.byTxHash.mem_iff.mp inB, same.trans inY.2⟩
      obtain ⟨low, prio⟩ := byTxHashView_le above same.symm
      obtain ⟨high, _⟩ := byTxHashView_le upper inB.2
      have kind : b.state = .candidateReady := by
        by_contra other
        rw [ready] at low
        have selected : b.isSelected = true := isSelected_iff_between.mpr
          ⟨low.lt_of_ne' other, high.trans_lt (isSelected_iff_between.mp chosen).2⟩
        have equal := (selection a.txhash).single b inB a inG selected chosen
        rw [equal] at apart
        simp at apart
      exact ⟨b, found, inB.2, kind, prio ready kind⟩
    cases found : prev (·.id = a.id) t.index.byTxHash with
    | none =>
      apply goes
      intro _ y inY ready
      obtain ⟨b, found', _⟩ := neighbour inY ready
      cases found.symm.trans found'
    | some b =>
      obtain ⟨inB, apart, _⟩ := prev_spec holds.sortedTxHash located found
      have inB := holds.byTxHash.mem_iff.mp inB
      dsimp only
      split
      next best =>
        obtain ⟨same, ready⟩ := best
        have apart : b.id ≠ a.id := by simpa using apart
        obtain ⟨t1, first, holds1⟩ := holds.mark inB .candidateBest
        have inA := (mem_mark holds.unique inB .candidateBest a).mpr
          (.inr ⟨member, fun equal => apart (by rw [equal])⟩)
        obtain ⟨t2, second, holds2⟩ := holds1.mark inA state
        rw [first]
        refine ⟨t2, _, second, holds2, ?_, ?_⟩
        · rw [mark_comm apart]
          obtain ⟨mem, outside⟩ :=
            group_mark2 holds.unique member state inB apart.symm same .candidateBest
          refine selection.local a.txhash outside
            ((selection a.txhash).reselect inG chosen leaves ?_ mem)
          intro y inY ready'
          obtain ⟨b', found', _, _, bound⟩ := neighbour inY ready'
          cases found.symm.trans found'
          exact bound
        · rw [mark_comm apart]
          have inB' := (mem_mark holds.unique member state b).mpr
            (.inr ⟨inB, fun equal => apart (by rw [equal])⟩)
          have selectable : b.isSelectable = true := by simp [isSelectable, ready]
          exact map_coarse_mark (unique_mark holds.unique) inB' selectable rfl
      next other =>
        apply goes
        intro _ y inY ready
        obtain ⟨b', found', same, kind, _⟩ := neighbour inY ready
        cases found.symm.trans found'
        exact other ⟨same, kind⟩
  · rw [if_neg chosen]
    exact goes fun selected => absurd selected chosen

omit selection in
theorem isOnlyNonCompleted_spec (member : a ∈ order) (pending : a.state ≠ .completed) :
    ∃ only, t.isOnlyNonCompleted a.id = .ok only ∧
      (only = true ↔ ∀ y ∈ group order a.txhash, y ≠ a → y.state = .completed) := by
  obtain ⟨before, after, located⟩ := holds.located holds.byTxHash member
  have different {y : Announcement} (apart : decide (y.id = a.id) = false) : y ≠ a := by
    rintro rfl
    simp at apart
  have open_ {y : Announcement} (below : y.state ≤ a.state) : y.state ≠ .completed := by
    intro completed
    rw [completed] at below
    exact pending (State.eq_completed below)
  rw [isOnlyNonCompleted, holds.deref_eq member]
  dsimp only
  rw [if_neg pending]
  split
  next precedes =>
    obtain ⟨b, found, same⟩ := (Option.any_eq_true _ _).mp precedes
    obtain ⟨inB, apart, upper⟩ := prev_spec holds.sortedTxHash located found
    have same : b.txhash = a.txhash := by simpa using same
    refine ⟨false, rfl, by simp, ?_⟩
    intro all
    have completed := all b ⟨holds.byTxHash.mem_iff.mp inB, same⟩ (different apart)
    exact absurd completed (open_ (byTxHashView_le upper same).1)
  next noneBefore =>
    split
    next follows =>
      obtain ⟨b, found, both⟩ := (Option.any_eq_true _ _).mp follows
      obtain ⟨inB, apart, _⟩ := next_spec holds.sortedTxHash located found
      obtain ⟨same, unfinished⟩ : b.txhash = a.txhash ∧ b.state ≠ .completed := by
        simpa using both
      refine ⟨false, rfl, by simp, ?_⟩
      intro all
      exact absurd (all b ⟨holds.byTxHash.mem_iff.mp inB, same⟩ (different apart)) unfinished
    next noneAfter =>
      refine ⟨true, rfl, fun _ => ?_, fun _ => rfl⟩
      intro y inY other
      by_contra unfinished
      have apart : decide (y.id = a.id) = false := by
        simpa using fun equal => other (eq_of_id holds.unique inY.1 member equal)
      rcases beside holds.sortedTxHash located (holds.byTxHash.mem_iff.mpr inY.1) apart with
        ⟨b, found, above⟩ | ⟨b, found, below⟩
      · obtain ⟨_, _, upper⟩ := prev_spec holds.sortedTxHash located found
        have same : b.txhash = y.txhash := byTxHashView_between above upper inY.2.symm
        rw [found] at noneBefore
        simp [same.trans inY.2] at noneBefore
      · obtain ⟨_, _, lower⟩ := next_spec holds.sortedTxHash located found
        have same : b.txhash = a.txhash := byTxHashView_between lower below inY.2
        have kind : b.state = .completed := by
          rw [found] at noneAfter
          simpa [same] using noneAfter
        have bound := (byTxHashView_le below (same.trans inY.2.symm)).1
        rw [kind] at bound
        exact unfinished (State.eq_completed bound)

omit selection in
theorem eraseWhile_spec (txhash : Uint256) (list : List Announcement)
    (members : ∀ x ∈ list.takeWhile (·.txhash = txhash), x ∈ order)
    (distinct : UniqueIds list) :
    ∃ t', t.eraseWhile txhash list = .ok t' ∧ Holds computer sequence t'
      (order.filter fun x => x ∉ list.takeWhile (·.txhash = txhash)) := by
  induction list generalizing t order with
  | nil => exact ⟨t, rfl, by simpa using holds⟩
  | cons b list ih =>
    obtain ⟨apart, distinct⟩ := pairwise_cons.mp distinct
    rw [eraseWhile]
    by_cases same : b.txhash = txhash
    · rw [takeWhile_cons_of_pos (by simpa using same)] at members ⊢
      have inB := members b mem_cons_self
      obtain ⟨t1, erased, holds1⟩ := holds.erase inB
      have members1 : ∀ x ∈ list.takeWhile (·.txhash = txhash),
          x ∈ order.filter (·.id ≠ b.id) := by
        intro x inX
        refine mem_filter.mpr ⟨members x (mem_cons_of_mem b inX), ?_⟩
        simpa using (apart x (takeWhile_subset _ inX)).symm
      obtain ⟨t2, rest, holds2⟩ := ih holds1 members1 distinct
      rw [if_pos same, erased]
      refine ⟨t2, rest, ?_⟩
      rw [filter_filter] at holds2
      have agree : order.filter (fun x => decide (x ∉ b :: list.takeWhile (·.txhash = txhash))) =
          order.filter (fun x => decide (x ∉ list.takeWhile (·.txhash = txhash)) &&
            decide (x.id ≠ b.id)) := by
        apply filter_congr
        intro x inX
        have identity : x = b ↔ x.id = b.id :=
          ⟨fun equal => by rw [equal], eq_of_id holds.unique inX inB⟩
        simp [mem_cons, identity, Bool.and_comm]
      rw [agree]
      exact holds2
    · rw [if_neg same, takeWhile_cons_of_neg (by simpa using same)]
      exact ⟨t, rfl, by simpa using holds⟩

omit holds in
theorem Selection.forget (txhash : Uint256) :
    Resettled computer order txhash (order.filter (·.txhash ≠ txhash)) := by
  apply selection.local txhash
  · intro y other
    simp [other]
  · have empty (x : Announcement) : x ∉ group (order.filter (·.txhash ≠ txhash)) txhash := by
      rintro ⟨inX, same⟩
      simp [same] at inX
    exact ⟨fun x inX => absurd inX (empty x), fun x inX => absurd inX (empty x),
      fun x inX => absurd inX (empty x)⟩

omit selection in
theorem erase_group (member : a ∈ order) (pending : a.state ≠ .completed)
    (only : ∀ y ∈ group order a.txhash, y ≠ a → y.state = .completed) :
    ∃ t1 t2, t.erase a.id = .ok t1 ∧
      t1.eraseWhile a.txhash (t.index.byTxHash.dropWhile (·.id ≠ a.id)).tail = .ok t2 ∧
      Holds computer sequence t2 (order.filter (·.txhash ≠ a.txhash)) := by
  obtain ⟨before, after, located⟩ := holds.located holds.byTxHash member
  have drop : t.index.byTxHash.dropWhile (·.id ≠ a.id) = a :: after := by
    simpa using located.dropWhile_eq
  have sorted := holds.sortedTxHash
  rw [located.split] at sorted
  obtain ⟨_, right, cross⟩ := pairwise_append.mp sorted
  obtain ⟨above, right⟩ := pairwise_cons.mp right
  have unique := unique_of_perm holds.byTxHash holds.unique
  rw [located.split] at unique
  have distinct := (pairwise_cons.mp (pairwise_append.mp unique).2.1).2
  have inside {x : Announcement} : x ∈ order ↔ x ∈ before ∨ x = a ∨ x ∈ after := by
    rw [← holds.byTxHash.mem_iff, located.split, mem_append, mem_cons]
  -- nothing of the transaction comes before, since it would be completed
  have first {x : Announcement} (early : x ∈ before) : x.txhash ≠ a.txhash := by
    intro same
    have other : x ≠ a := by
      rintro rfl
      have apart := located.earlier x early
      simp at apart
    have completed := only x ⟨inside.mpr (.inl early), same⟩ other
    have bound := (byTxHashView_le (cross x early a mem_cons_self) same).1
    rw [completed] at bound
    exact pending (State.eq_completed bound)
  have run : after.takeWhile (·.txhash = a.txhash) = after.filter (·.txhash = a.txhash) := by
    rw [← takeWhile_lowerBound (k := byTxHashView computer a) right,
      lowerBound_eq_self fun x late => above x late]
    · intro x late _
      exact above x late
    · intro x inX y _ lower upper same
      simpa using byTxHashView_between lower upper (by simpa using same)
  obtain ⟨t1, erased, holds1⟩ := holds.erase member
  have members : ∀ x ∈ after.takeWhile (·.txhash = a.txhash), x ∈ order.filter (·.id ≠ a.id) := by
    intro x inX
    have late := takeWhile_subset _ inX
    refine mem_filter.mpr ⟨inside.mpr (.inr (.inr late)), ?_⟩
    simpa using located.later x late
  obtain ⟨t2, rest, holds2⟩ := eraseWhile_spec holds1 a.txhash after members distinct
  refine ⟨t1, t2, erased, by rw [drop]; exact rest, ?_⟩
  rw [filter_filter] at holds2
  have agree : order.filter (fun x => decide (x.txhash ≠ a.txhash)) = order.filter (fun x =>
      decide (x ∉ after.takeWhile (·.txhash = a.txhash)) && decide (x.id ≠ a.id)) := by
    apply filter_congr
    intro x inX
    rw [run]
    rcases inside.mp inX with early | rfl | late
    · have apart := located.earlier x early
      have notLate : x ∉ after := fun late =>
        (pairwise_append.mp unique).2.2 x early x (mem_cons_of_mem a late) rfl
      simp [first early, apart, notLate]
    · simp
    · have apart := located.later x late
      simp [apart, late]
  rw [agree]
  exact holds2

def cleanupOf (txhash : Uint256) (order : List Announcement) : List Announcement :=
  if order.any fun x => x.txhash = txhash && x.state ≠ .completed then order
  else order.filter (·.txhash ≠ txhash)

omit holds selection in
theorem cleanupOf_alive {txhash : Uint256} (inY : y ∈ order) (same : y.txhash = txhash)
    (alive : y.state ≠ .completed) : cleanupOf txhash order = order := by
  apply if_pos
  rw [any_eq_true]
  exact ⟨y, inY, by simp [same, alive]⟩

omit holds selection in
theorem coarse_id (ann : Announcement) : (coarse ann).id = ann.id := by
  rw [coarse]
  split <;> rfl

omit holds selection in
theorem exists_of_map_coarse (agree : order'.map coarse = order.map coarse) (inX : x ∈ order) :
    ∃ y ∈ order', coarse y = coarse x ∧ y.id = x.id := by
  have member : coarse x ∈ order'.map coarse := by
    rw [agree]
    exact mem_map_of_mem inX
  obtain ⟨y, inY, same⟩ := mem_map.mp member
  exact ⟨y, inY, same, by rw [← coarse_id, same, coarse_id]⟩

theorem makeCompleted_spec [Container Announcement] (member : a ∈ order) :
    ∃ exist t' order', t.makeCompleted computer a.id = .ok (exist, t') ∧
      Holds computer sequence t' order' ∧ Resettled computer order a.txhash order' ∧
      order'.map coarse = (cleanupOf a.txhash (mark a.id .completed order)).map coarse ∧
      (exist = true ↔ ∃ y ∈ order', y.id = a.id) := by
  have inG : a ∈ group order a.txhash := ⟨member, rfl⟩
  have mem := mem_mark holds.unique member .completed
  rw [makeCompleted, holds.deref_eq member]
  dsimp only
  by_cases completed : a.state = .completed
  · rw [if_pos completed]
    refine ⟨true, t, order, rfl, holds, ⟨selection, fun _ _ => .rfl⟩, ?_,
      by simpa using ⟨a, member, rfl⟩⟩
    have unchanged : mark a.id .completed order = order := by
      conv_rhs => rw [← map_id order]
      apply map_congr_left
      intro x inX
      rw [update]
      split_ifs with same
      · rw [eq_of_id holds.unique inX member same]
        exact setState_self completed
      · rfl
    obtain ⟨y, inY, alive⟩ := (selection a.txhash).alive a inG
    rw [unchanged, cleanupOf_alive inY.1 inY.2 alive]
  · rw [if_neg completed]
    obtain ⟨only, decided, iff⟩ := isOnlyNonCompleted_spec holds member completed
    rw [decided]
    cases only with
    | true =>
      have last := iff.mp rfl
      obtain ⟨t1, t2, erased, rest, holds2⟩ := erase_group holds member completed last
      have gone : cleanupOf a.txhash (mark a.id .completed order) =
          order.filter (·.txhash ≠ a.txhash) := by
        rw [cleanupOf, if_neg]
        · rw [mark, filter_map]
          have same : (fun x : Announcement => decide (x.txhash ≠ a.txhash)) ∘
              update a.id (·.setState .completed) = fun x => decide (x.txhash ≠ a.txhash) := by
            funext x
            rw [comp_apply, update]
            split <;> rfl
          rw [same]
          conv_rhs => rw [← map_id (order.filter _)]
          apply map_congr_left
          intro x inX
          have other : x.txhash ≠ a.txhash := by simpa using (mem_filter.mp inX).2
          exact if_neg fun equal => other (congrArg Prod.snd equal)
        · rw [any_eq_true]
          rintro ⟨x, inX, both⟩
          obtain ⟨same, alive⟩ : x.txhash = a.txhash ∧ x.state ≠ .completed := by simpa using both
          rcases (mem x).mp inX with rfl | ⟨old, other⟩
          · exact alive rfl
          · exact alive (last x ⟨old, same⟩ other)
      refine ⟨false, t2, _, ?_, holds2, selection.forget a.txhash, by rw [gone], by simp, ?_⟩
      · rw [ok_bind, if_pos rfl, erased, ok_bind, rest, ok_bind]
      · rintro ⟨y, inY, same⟩
        have other := (mem_filter.mp inY).2
        simp [show y.txhash = a.txhash from congrArg Prod.snd same] at other
    | false =>
      obtain ⟨y, inY, other, alive⟩ :
          ∃ y ∈ group order a.txhash, y ≠ a ∧ y.state ≠ .completed := by
        by_contra none
        push Not at none
        cases iff.mpr none
      obtain ⟨t1, order1, changed, holds1, selection1, agree⟩ :=
        changeAndReselect_spec holds selection member (.inl rfl) fun _ => ⟨y, inY, other, alive⟩
      have kept : cleanupOf a.txhash (mark a.id .completed order) = mark a.id .completed order :=
        cleanupOf_alive ((mem y).mpr (.inr ⟨inY.1, other⟩)) inY.2 alive
      obtain ⟨x, inX, _, same⟩ := exists_of_map_coarse agree ((mem _).mpr (.inl rfl))
      refine ⟨true, t1, order1, ?_, holds1, selection1, by rw [kept, agree],
        fun _ => ⟨x, inX, same⟩, fun _ => rfl⟩
      rw [ok_bind, if_neg (by simp), changed, ok_bind]

end Qogecoin.TxRequest
