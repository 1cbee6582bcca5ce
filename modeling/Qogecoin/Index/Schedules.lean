import Qogecoin.Index.BaseIndex

/-! Schedules of `BaseIndex`: what every step of the two threads does to the index and its database,
in whatever order they and the changes of the active chain come. -/
namespace Qogecoin.Index

open Chain List Function

variable {tip pindex : Chain}

theorem getAncestor_suffix (pindex : Chain) (height : Int) : pindex.getAncestor height <:+ pindex := by
  rw [getAncestor]
  split
  · exact nil_suffix
  · exact drop_suffix _ _

theorem contains_iff (nonempty : pindex ≠ []) : contains tip pindex ↔ pindex <:+ tip := by
  constructor
  · intro found
    rw [← show tip.getAncestor pindex.nHeight = pindex from found]
    exact getAncestor_suffix _ _
  · exact getAncestor_of_suffix nonempty

theorem next_tip : next tip tip = [] := by
  rw [next]
  split
  · rw [getAncestor, if_pos (.inl (by omega))]
  · rfl

theorem next_below (nonempty : pindex ≠ []) (below : pindex <:+ tip) (proper : pindex ≠ tip) :
    ∃ index, next tip pindex = index :: pindex ∧ index :: pindex <:+ tip := by
  obtain ⟨above, rfl⟩ := below
  rcases eq_nil_or_concat above with rfl | ⟨higher, index, rfl⟩
  · exact absurd rfl proper
  · have child : index :: pindex <:+ higher.concat index ++ pindex := ⟨higher, by simp⟩
    refine ⟨index, ?_, child⟩
    have step := getAncestor_of_suffix (cons_ne_nil index pindex) child
    rw [nHeight_cons] at step
    rw [next, if_pos ((contains_iff nonempty).mpr ⟨_, rfl⟩), step]

theorem walkBack_suffix (tip pindex : Chain) :
    walkBack tip pindex <:+ pindex ∧ walkBack tip pindex <:+ tip := by
  induction pindex with
  | nil => exact ⟨nil_suffix, nil_suffix⟩
  | cons index pprev ih =>
    rw [walkBack]
    split_ifs with inside
    · exact ⟨suffix_refl _, (contains_iff (cons_ne_nil _ _)).mp inside⟩
    · exact ⟨ih.1.trans (suffix_cons _ _), ih.2⟩

theorem walkBack_nonempty {common : Chain} (nonempty : common ≠ []) (inTip : common <:+ tip)
    (below : common <:+ pindex) : walkBack tip pindex ≠ [] := by
  induction pindex with
  | nil => exact absurd (suffix_nil.mp below) nonempty
  | cons index pprev ih =>
    rw [walkBack]
    split_ifs with outside
    · exact cons_ne_nil _ _
    · rcases suffix_cons_iff.mp below with whole | lower
      · rw [whole] at inTip
        exact absurd ((contains_iff (cons_ne_nil _ _)).mpr inTip) outside
      · exact ih lower

theorem findFork_suffix (tip pindex : Chain) :
    findFork tip pindex <:+ pindex ∧ findFork tip pindex <:+ tip := by
  rw [findFork]
  split
  · obtain ⟨lower, inTip⟩ := walkBack_suffix tip (pindex.getAncestor tip.nHeight)
    exact ⟨lower.trans (getAncestor_suffix _ _), inTip⟩
  · exact walkBack_suffix tip pindex

theorem findFork_nonempty {common : Chain} (nonempty : common ≠ []) (inTip : common <:+ tip)
    (below : common <:+ pindex) : findFork tip pindex ≠ [] := by
  rw [findFork]
  split_ifs with higher
  · have lower : common <:+ pindex.getAncestor tip.nHeight := by
      have suffix := getAncestor_suffix pindex tip.nHeight
      apply suffix_of_suffix_length_le below suffix
      have length := inTip.length_le
      have low : 0 ≤ tip.nHeight := nHeight_nonneg (inTip.ne_nil nonempty)
      rw [getAncestor, if_neg (by omega), length_drop]
      simp only [nHeight] at higher low ⊢
      omega
    exact walkBack_nonempty nonempty inTip lower
  · exact walkBack_nonempty nonempty inTip below

/-- The blocks of a tree, which all come from the genesis block, and the work of a chain, which
every block adds to. -/
structure BlockTree where
  genesis : CBlockIndex
  member : Chain → Prop
  closed : ∀ index pprev, member (index :: pprev) → pprev ≠ [] → member pprev
  work : Chain → Nat
  grows : ∀ index pprev, work pprev < work (index :: pprev)

namespace BlockTree

variable (tree : BlockTree)

def Has (pindex : Chain) : Prop := pindex.getLast? = some tree.genesis ∧ tree.member pindex

variable {tree}

theorem Has.nonempty (has : tree.Has pindex) : pindex ≠ [] := by
  intro none
  rw [none] at has
  cases has.1

theorem Has.genesis (has : tree.Has pindex) : [tree.genesis] <:+ pindex := by
  obtain ⟨above, rfl⟩ := List.getLast?_eq_some_iff.mp has.1
  exact suffix_append _ _

theorem Has.ancestor {ancestor : Chain} (has : tree.Has pindex) (suffix : ancestor <:+ pindex)
    (nonempty : ancestor ≠ []) : tree.Has ancestor := by
  refine of_ancestor ?_ has suffix nonempty
  intro index pprev has some
  refine ⟨?_, tree.closed index pprev has.2 some⟩
  rw [← has.1]
  exact (List.getLast?_append_of_ne_nil [index] some).symm

variable (tree) in
theorem work_le {ancestor : Chain} (suffix : ancestor <:+ pindex) :
    tree.work ancestor ≤ tree.work pindex := by
  induction pindex with
  | nil => rw [suffix_nil.mp suffix]
  | cons index pprev ih =>
    rcases suffix_cons_iff.mp suffix with whole | below
    · rw [whole]
    · exact (ih below).trans (le_of_lt (tree.grows index pprev))

theorem eq_of_work_le {ancestor : Chain} (suffix : ancestor <:+ pindex)
    (enough : tree.work pindex ≤ tree.work ancestor) : ancestor = pindex := by
  cases pindex with
  | nil => exact suffix_nil.mp suffix
  | cons index pprev =>
    rcases suffix_cons_iff.mp suffix with whole | below
    · exact whole
    · have less := (tree.work_le below).trans_lt (tree.grows index pprev)
      omega

end BlockTree

variable {tree : BlockTree}

/-- The notifications that are not delivered lead from one tip to another: each block that was
connected is a child of an ancestor of the tip before. -/
def Leads (tree : BlockTree) : Chain → List Notification → Chain → Prop
  | tip, [], last => tip = last
  | tip, .blockConnected pindex :: queue, last =>
    tree.Has pindex ∧ pindex.pprev <:+ tip ∧ (pindex.pprev = [] → tip = []) ∧
      Leads tree pindex queue last
  | tip, .chainStateFlushed _ :: queue, last => tip ≠ [] ∧ Leads tree tip queue last

theorem Leads.append {middle last : Chain} {queue more : List Notification}
    (first : Leads tree tip queue middle) (second : Leads tree middle more last) :
    Leads tree tip (queue ++ more) last := by
  induction queue generalizing tip with
  | nil =>
    rw [show tip = middle from first]
    exact second
  | cons notification queue ih =>
    cases notification with
    | blockConnected pindex =>
      obtain ⟨has, child, genesis, rest⟩ := first
      exact ⟨has, child, genesis, ih rest⟩
    | chainStateFlushed _ => exact ⟨first.1, ih first.2⟩

variable {queue : List Notification}

theorem Leads.announced {last : Chain} (leads : Leads tree tip queue last) :
    tip = last ∨ .blockConnected last ∈ queue := by
  induction queue generalizing tip with
  | nil => exact .inl leads
  | cons notification queue ih =>
    cases notification with
    | blockConnected pindex =>
      rcases ih leads.2.2.2 with same | later
      · rw [same]
        exact .inr mem_cons_self
      · exact .inr (mem_cons_of_mem _ later)
    | chainStateFlushed _ =>
      rcases ih leads.2 with same | later
      · exact .inl same
      · exact .inr (mem_cons_of_mem _ later)

theorem connectedBlocks_self (fork : Chain) : connectedBlocks fork fork = [] := by
  cases fork with
  | nil => rfl
  | cons index pprev => exact if_pos rfl

variable {newTip chain : Chain}

theorem leads_connectedBlocks {fork : Chain} (has : tree.Has newTip) (inTip : fork <:+ tip)
    (none : fork = [] → tip = []) (inNew : fork <:+ newTip) (proper : fork ≠ newTip) :
    Leads tree tip ((connectedBlocks fork newTip).map .blockConnected) newTip := by
  induction newTip with
  | nil => exact absurd (suffix_nil.mp inNew) proper
  | cons index pprev ih =>
    have below : fork <:+ pprev := by
      rcases suffix_cons_iff.mp inNew with whole | below
      · exact absurd whole proper
      · exact below
    rw [connectedBlocks, if_neg (Ne.symm proper), map_append]
    by_cases last : fork = pprev
    · subst last
      rw [connectedBlocks_self]
      exact ⟨has, inTip, none, rfl⟩
    · have some : pprev ≠ [] := by
        intro empty
        rw [empty] at below last
        exact last (suffix_nil.mp below)
      apply (ih (has.ancestor (suffix_cons _ _) some) below last).append
      exact ⟨has, suffix_refl _, fun empty => empty, rfl⟩

theorem leads_activate (active : chain = [] ∨ tree.Has chain) (has : tree.Has newTip)
    (other : newTip ≠ chain) (work : tree.work chain ≤ tree.work newTip) :
    Leads tree chain ((connectedBlocks (findFork chain newTip) newTip).map .blockConnected)
      newTip := by
  obtain ⟨inNew, inChain⟩ := findFork_suffix chain newTip
  apply leads_connectedBlocks has inChain _ inNew
  · intro whole
    rw [whole] at inChain
    exact other (BlockTree.eq_of_work_le inChain work)
  · intro none
    rcases active with empty | has'
    · exact empty
    · exact absurd none (findFork_nonempty (cons_ne_nil _ _) has'.genesis has.genesis)

structure Commit where
  reason : Reason
  best : Chain
  /-- The last block written and not rewound when the running state was taken. -/
  running : Chain

structure Journal where
  /-- The last block written at each height, which replaces the one before. -/
  records : Int → Option Chain
  /-- The last block written and not rewound. -/
  position : Chain
  latched : Chain
  committed : Option Commit

namespace Journal

def record (j : Journal) : Op → Journal
  | .writeBlock pindex =>
    { j with
      records := update j.records pindex.nHeight (some pindex)
      position := pindex }
  | .rewind _ newTip => { j with position := newTip }
  | .latch => { j with latched := j.position }
  | .commit reason best =>
    let running := if reason = .caughtUp then j.latched else j.position
    { j with committed := some ⟨reason, best, running⟩ }

def recordAll (j : Journal) (ops : List Op) : Journal := ops.foldl record j

def Current (j : Journal) (pindex : Chain) : Prop :=
  ∀ ancestor : Chain, ancestor ≠ [] → ancestor <:+ pindex →
    j.records ancestor.nHeight = some ancestor

/-- What an operation may be: a block is written after its parent and does not replace a block of
the chain that was committed; a rewind goes to a proper ancestor; the block of a commit is the last
one written, or the one that is written next if the commit is periodic. -/
def Fits (tree : BlockTree) (j : Journal) : Op → Prop
  | .writeBlock pindex =>
    tree.Has pindex ∧ pindex.pprev = j.position ∧
      ∀ commit, j.committed = some commit → commit.best <:+ pindex
  | .rewind currentTip newTip =>
    currentTip = j.position ∧ newTip ≠ [] ∧ newTip <:+ currentTip ∧ newTip ≠ currentTip
  | .latch => True
  | .commit reason best =>
    tree.Has best ∧
      match reason with
      | .periodic => best.pprev = j.position
      | .caughtUp => j.Current best
      | .interrupt | .rewind | .flushed => best = j.position

def FitsAll (tree : BlockTree) : Journal → List Op → Prop
  | _, [] => True
  | j, op :: ops => j.Fits tree op ∧ FitsAll tree (j.record op) ops

/-- The chain up to the last block written is recorded, and the chain that was committed as well,
but for its tip where the commit was periodic. -/
structure Sound (tree : BlockTree) (j : Journal) : Prop where
  position : j.Current j.position
  committed : ∀ commit, j.committed = some commit → tree.Has commit.best ∧
    if commit.reason = .periodic then j.Current commit.best.pprev else j.Current commit.best

variable {j : Journal} {ops ops' : List Op}

theorem recordAll_append (j : Journal) (ops ops' : List Op) :
    j.recordAll (ops ++ ops') = (j.recordAll ops).recordAll ops' := foldl_append ..

theorem FitsAll.append (first : FitsAll tree j ops) (second : FitsAll tree (j.recordAll ops) ops') :
    FitsAll tree j (ops ++ ops') := by
  induction ops generalizing j with
  | nil => exact second
  | cons op ops ih => exact ⟨first.1, ih first.2 second⟩

theorem FitsAll.take (fits : FitsAll tree j ops) (n : Nat) : FitsAll tree j (ops.take n) := by
  induction ops generalizing j n with
  | nil => simpa using fits
  | cons op ops ih =>
    cases n with
    | zero => trivial
    | succ n => exact ⟨fits.1, ih fits.2 n⟩

theorem Current.write (current : j.Current tip) (below : tip <:+ pindex) :
    (j.record (.writeBlock pindex)).Current tip := by
  intro ancestor nonempty suffix
  by_cases same : ancestor.nHeight = pindex.nHeight
  · have whole := eq_of_nHeight (suffix.trans below) (suffix_refl pindex) same
    subst whole
    exact update_self ..
  · exact (update_of_ne same ..).trans (current ancestor nonempty suffix)

theorem Current.child (current : j.Current pindex.pprev)
    (here : j.records pindex.nHeight = some pindex) : j.Current pindex := by
  intro ancestor nonempty suffix
  cases pindex with
  | nil => exact absurd (suffix_nil.mp suffix) nonempty
  | cons index pprev =>
    rcases suffix_cons_iff.mp suffix with whole | below
    · rw [whole]
      exact here
    · exact current ancestor nonempty below

theorem Current.ancestor (current : j.Current tip) (below : pindex <:+ tip) :
    j.Current pindex :=
  fun ancestor nonempty suffix => current ancestor nonempty (suffix.trans below)

theorem Sound.record (sound : j.Sound tree) {op : Op} (fits : j.Fits tree op) :
    (j.record op).Sound tree := by
  cases op with
  | writeBlock pindex =>
    obtain ⟨has, parent, behind⟩ := fits
    constructor
    · have before : j.Current pindex.pprev := by
        rw [parent]
        exact sound.position
      exact (before.write (tail_suffix _)).child (update_self ..)
    · intro commit made
      obtain ⟨has', current⟩ := sound.committed commit made
      refine ⟨has', ?_⟩
      split at current
      next periodic =>
        rw [if_pos periodic]
        exact current.write ((tail_suffix _).trans (behind commit made))
      next other =>
        rw [if_neg other]
        exact current.write (behind commit made)
  | rewind currentTip newTip =>
    obtain ⟨rfl, _, below, _⟩ := fits
    exact ⟨sound.position.ancestor below, sound.committed⟩
  | latch => exact ⟨sound.position, sound.committed⟩
  | commit reason best =>
    refine ⟨sound.position, ?_⟩
    intro commit made
    cases made
    obtain ⟨has, place⟩ := fits
    refine ⟨has, ?_⟩
    cases reason with
    | periodic =>
      rw [if_pos rfl, show best.pprev = j.position from place]
      exact sound.position
    | caughtUp => exact place
    | interrupt | rewind | flushed =>
      rw [if_neg (by simp), show best = j.position from place]
      exact sound.position

theorem Sound.recordAll (sound : j.Sound tree) (fits : FitsAll tree j ops) :
    (j.recordAll ops).Sound tree := by
  induction ops generalizing j with
  | nil => exact sound
  | cons op ops ih => exact ih (sound.record fits.1) fits.2

end Journal

/-- What may change the active chain: a tip with no less work, and flushes once there is one. -/
def Allowed (tree : BlockTree) (action : Action) (s : BaseState) : Prop :=
  match action with
  | .activate newTip => tree.Has newTip ∧ newTip ≠ s.chain ∧ tree.work s.chain ≤ tree.work newTip
  | .flush => s.chain ≠ []
  | .sync _ _ => True
  | .deliver => True

/-- When `ThreadSync` meets a reorganisation, its position is the best block of the index. -/
def publishedAtReorg (action : Action) (s : BaseState) : Bool :=
  match action, s.sync with
  | .sync _ _, .advance pindex =>
    match nextSyncBlock pindex s.chain with
    | .ok (_ :: pprev) => pprev = pindex || s.best = pindex
    | _ => true
  | _, _ => true

def Along (condition : Action → BaseState → Prop) : List Action → BaseState → Prop
  | [], _ => True
  | action :: schedule, s =>
    condition action s ∧
      match (step action s).2 with
      | .ok s' => Along condition schedule s'
      | .error _ => True

def Journal.Behind (j : Journal) (pindex : Chain) : Prop :=
  ∀ commit, j.committed = some commit → commit.best <:+ pindex

def Position (tree : BlockTree) (s : BaseState) (j : Journal) : Prop :=
  match s.sync with
  | .check pindex | .advance pindex =>
    j.position = pindex ∧ (pindex = [] ∨ tree.Has pindex) ∧
      tree.work pindex ≤ tree.work s.chain ∧ j.Behind pindex
  | .publish pindex | .write pindex =>
    pindex.pprev = j.position ∧ tree.Has pindex ∧ tree.work pindex ≤ tree.work s.chain ∧
      j.Behind pindex
  | .interrupted => s.best = j.position ∧ (s.best = [] ∨ tree.Has s.best)
  | .ended => True
  | .caughtUp | .committing => False

/-- The notifications lead to the active tip, and the index will be among the blocks they
announce. -/
def WillFollow (tree : BlockTree) (s : BaseState) (position : Chain) : Prop :=
  match s.callback with
  | .idle =>
    position = s.best ∧ ∃ announced, Leads tree announced s.queue s.chain ∧
      (announced = [] ↔ s.best = []) ∧
      (announced = s.best ∨ ∃ pindex, .blockConnected pindex ∈ s.queue ∧ pindex.pprev <:+ s.best)
  | .rewinding currentTip pindex =>
    currentTip = s.best ∧ tree.Has pindex ∧ pindex.pprev <:+ s.best ∧ pindex.pprev ≠ [] ∧
      position = pindex.pprev ∧ Leads tree pindex s.queue s.chain
  | .connecting pindex =>
    tree.Has pindex ∧ s.best = pindex.pprev ∧ position = pindex.pprev ∧
      Leads tree pindex s.queue s.chain
  | .written pindex =>
    tree.Has pindex ∧ s.best = pindex.pprev ∧ position = pindex ∧
      Leads tree pindex s.queue s.chain

inductive Safe (tree : BlockTree) (s : BaseState) (j : Journal) : Prop
  | syncing (synced : s.synced = false) (callback : s.callback = .idle) (active : tree.Has s.chain)
      (announced : ∃ announced, announced ≠ [] ∧ Leads tree announced s.queue s.chain)
      (position : Position tree s j)
  | following (synced : s.synced = true)
      (sync : s.sync = .caughtUp ∨ s.sync = .committing ∨ s.sync = .ended)
      (active : s.chain = [] ∨ tree.Has s.chain) (follow : WillFollow tree s j.position)
      (best : s.best = [] ∨ tree.Has s.best) (current : j.Current s.best) (behind : j.Behind s.best)

variable {s : BaseState} {j : Journal}

theorem Journal.behind_commit (reason : Reason) {best : Chain} (behind : j.Behind pindex)
    (below : best <:+ pindex) : (j.recordAll (commit reason best)).Behind pindex := by
  rw [commit]
  split
  · exact behind
  · intro made same
    cases same
    exact below

theorem Journal.position_commit (reason : Reason) (best : Chain) :
    (j.recordAll (commit reason best)).position = j.position := by
  rw [commit]
  split <;> rfl

theorem Journal.current_commit (reason : Reason) {best : Chain} :
    (j.recordAll (commit reason best)).Current pindex ↔ j.Current pindex := by
  rw [commit]
  split <;> exact .rfl

theorem Journal.fitsAll_commit {reason : Reason} {best : Chain}
    (fits : best ≠ [] → j.Fits tree (.commit reason best)) :
    j.FitsAll tree (commit reason best) := by
  rw [commit]
  split_ifs with nonempty
  · trivial
  · exact ⟨fits nonempty, trivial⟩

theorem WillFollow.extend {position : Chain} {more : List Notification}
    (follow : WillFollow tree s position) (leads : Leads tree s.chain more chain) :
    WillFollow tree { s with chain, queue := s.queue ++ more } position := by
  unfold WillFollow at follow ⊢
  cases callback : s.callback with
  | idle =>
    rw [callback] at follow
    obtain ⟨position, announced, before, none, found⟩ := follow
    refine ⟨position, announced, before.append leads, none, ?_⟩
    rcases found with same | ⟨pindex, member, child⟩
    · exact .inl same
    · exact .inr ⟨pindex, mem_append_left _ member, child⟩
  | rewinding currentTip pindex =>
    rw [callback] at follow
    obtain ⟨current, has, below, some, position, before⟩ := follow
    exact ⟨current, has, below, some, position, before.append leads⟩
  | connecting pindex | written pindex =>
    rw [callback] at follow
    obtain ⟨has, best, position, before⟩ := follow
    exact ⟨has, best, position, before.append leads⟩

theorem Position.extend (position : Position tree s j) (work : tree.work s.chain ≤ tree.work chain) :
    Position tree { s with chain, queue } j := by
  unfold Position at position ⊢
  cases sync : s.sync with
  | check pindex | advance pindex | publish pindex | write pindex =>
    rw [sync] at position
    obtain ⟨place, has, before, behind⟩ := position
    exact ⟨place, has, before.trans work, behind⟩
  | interrupted | caughtUp | committing =>
    rw [sync] at position
    exact position
  | ended => trivial

theorem Safe.activate (safe : Safe tree s j) (has : tree.Has newTip) (other : newTip ≠ s.chain)
    (work : tree.work s.chain ≤ tree.work newTip) :
    Safe tree (activate newTip s) j := by
  cases safe with
  | syncing synced callback active announced position =>
    obtain ⟨before, nonempty, leads⟩ := announced
    exact .syncing synced callback has
      ⟨before, nonempty, leads.append (leads_activate (.inr active) has other work)⟩
      (position.extend work)
  | following synced sync active follow best current behind =>
    exact .following synced sync (.inr has)
      (follow.extend (leads_activate active has other work)) best current behind

theorem Safe.flush (safe : Safe tree s j) (nonempty : s.chain ≠ []) :
    Safe tree { s with queue := s.queue ++ [.chainStateFlushed s.chain] } j := by
  have leads : Leads tree s.chain [.chainStateFlushed s.chain] s.chain := ⟨nonempty, rfl⟩
  cases safe with
  | syncing synced callback active announced position =>
    obtain ⟨before, some, earlier⟩ := announced
    exact .syncing synced callback active ⟨before, some, earlier.append leads⟩
      (position.extend le_rfl)
  | following synced sync active follow best current behind =>
    exact .following synced sync active (follow.extend leads) best current behind

/-- What `ThreadSync` finds under `cs_main`: that it has caught up, a child of its position, or,
after a reorganisation, a child of an ancestor of it. -/
theorem nextSyncBlock_cases (active : tree.Has chain) (position : pindex = [] ∨ tree.Has pindex)
    (work : tree.work pindex ≤ tree.work chain) :
    (nextSyncBlock pindex chain = .ok [] ∧ pindex = chain) ∨
      ∃ index fork, nextSyncBlock pindex chain = .ok (index :: fork) ∧ index :: fork <:+ chain ∧
        (fork = pindex ∨ fork ≠ [] ∧ fork <:+ pindex ∧ fork ≠ pindex) := by
  by_cases none : pindex = []
  · have genesis : genesisOf chain = [tree.genesis] :=
      getAncestor_of_suffix (cons_ne_nil _ _) active.genesis
    refine .inr ⟨tree.genesis, [], ?_, active.genesis, .inl none.symm⟩
    rw [nextSyncBlock, if_pos none, genesis]
  have has := position.resolve_left none
  have fork := findFork_nonempty (cons_ne_nil _ _) active.genesis has.genesis
  obtain ⟨inPindex, inChain⟩ := findFork_suffix chain pindex
  by_cases below : pindex <:+ chain ∧ pindex ≠ chain
  · obtain ⟨index, found, inside⟩ := next_below none below.1 below.2
    refine .inr ⟨index, pindex, ?_, inside, .inl rfl⟩
    rw [nextSyncBlock, if_neg none, found, if_pos (cons_ne_nil _ _)]
  have nothing : next chain pindex = [] := by
    by_cases same : pindex = chain
    · rw [same]
      exact next_tip
    · rw [next, if_neg]
      intro inside
      exact below ⟨(contains_iff none).mp inside, same⟩
  have result : nextSyncBlock pindex chain = .ok (next chain (findFork chain pindex)) := by
    rw [nextSyncBlock, if_neg none, nothing, if_neg (by simp), if_neg fork]
  by_cases caughtUp : findFork chain pindex = chain
  · rw [caughtUp] at inPindex result
    rw [next_tip] at result
    exact .inl ⟨result, (BlockTree.eq_of_work_le inPindex work).symm⟩
  · obtain ⟨index, found, inside⟩ := next_below fork inChain caughtUp
    rw [found] at result
    refine .inr ⟨index, _, result, inside, .inr ⟨fork, inPindex, ?_⟩⟩
    intro same
    rw [same] at inChain caughtUp
    exact below ⟨inChain, caughtUp⟩

theorem baseRewind_eq (nonempty : newTip ≠ []) (suffix : newTip <:+ s.best) :
    baseRewind s.best newTip s = (commit .rewind newTip, .ok { s with best := newTip }) := by
  rw [baseRewind, if_neg (by simp), if_neg nonempty, getAncestor_of_suffix nonempty suffix,
    if_neg (by simp)]

def Proceeds (tree : BlockTree) (j : Journal) (outcome : Outcome) : Prop :=
  ∃ ops s', outcome = (ops, .ok s') ∧ j.FitsAll tree ops ∧ Safe tree s' (j.recordAll ops)

def Fails (tree : BlockTree) (j : Journal) (outcome : Outcome) : Prop :=
  ∃ ops, outcome = (ops, .error .assertion) ∧ j.FitsAll tree ops

theorem Safe.advance (safe : Safe tree s j) (sound : j.Sound tree) (sync : s.sync = .advance pindex) :
    Proceeds tree j (Index.advance pindex s) ∨
      (∃ index pprev, nextSyncBlock pindex s.chain = .ok (index :: pprev) ∧ pprev ≠ pindex ∧
        s.best ≠ pindex) ∧ Fails tree j (Index.advance pindex s) := by
  rcases safe with ⟨synced, callback, active, announced, position⟩ | ⟨_, ended⟩
  swap
  · simp [sync] at ended
  rw [Position, sync] at position
  obtain ⟨place, rooted, work, behind⟩ := position
  rcases nextSyncBlock_cases active rooted work with ⟨found, caughtUp⟩ | ⟨index, fork, found,
    inside, child⟩
  · -- the position is the active tip
    obtain ⟨before, nonempty, leads⟩ := announced
    have some := active.nonempty
    refine .inl ⟨[], { s with best := pindex, synced := true, sync := .caughtUp }, ?_, trivial, ?_⟩
    · rw [Index.advance, found]
    · refine .following rfl (.inl rfl) (.inr active) ?_ rooted ?_ behind
      · rw [WillFollow, callback]
        refine ⟨place, before, leads, ?_, ?_⟩
        · rw [caughtUp]
          simp [nonempty, some]
        · rw [caughtUp]
          rcases leads.announced with same | member
          · exact .inl same
          · exact .inr ⟨_, member, tail_suffix _⟩
      · rw [← place]
        exact sound.position
  · have has : tree.Has (index :: fork) := active.ancestor inside (cons_ne_nil _ _)
    have less := tree.work_le inside
    rcases child with same | ⟨nonempty, below, proper⟩
    · subst same
      refine .inl ⟨[], { s with sync := .publish (index :: fork) }, ?_, trivial, ?_⟩
      · rw [Index.advance, found]
        exact if_pos rfl
      · refine .syncing synced callback active announced ⟨place.symm, has, less, ?_⟩
        intro commit made
        exact (behind commit made).trans (suffix_cons _ _)
    · have rewinds : j.Fits tree (.rewind pindex fork) := ⟨place.symm, nonempty, below, proper⟩
      by_cases published : s.best = pindex
      · subst published
        refine .inl ⟨.rewind s.best fork :: commit .rewind fork,
          { s with best := fork, sync := .publish (index :: fork) }, ?_, ⟨rewinds, ?_⟩, ?_⟩
        · rw [Index.advance, found]
          dsimp only
          rw [if_neg proper, baseRewind_eq nonempty below]
          rfl
        · exact Journal.fitsAll_commit fun some => ⟨has.ancestor (suffix_cons _ _) some, rfl⟩
        · refine .syncing synced callback active announced ⟨?_, has, less, ?_⟩
          · show fork =
              ((j.record (.rewind s.best fork)).recordAll (commit .rewind fork)).position
            rw [Journal.position_commit]
            rfl
          · intro commit made
            rw [Journal.recordAll, foldl_cons, Index.commit, if_neg nonempty] at made
            cases made
            exact suffix_cons _ _
      · refine .inr ⟨⟨index, fork, found, proper, published⟩, [.rewind pindex fork], ?_, rewinds,
          trivial⟩
        rw [Index.advance, found]
        dsimp only
        rw [if_neg proper, baseRewind, if_pos (Ne.symm published)]
        rfl

theorem Safe.sync (safe : Safe tree s j) (sound : j.Sound tree) (interrupt due : Bool) :
    Proceeds tree j (syncStep interrupt due s) ∨
      publishedAtReorg (.sync interrupt due) s = false ∧ Fails tree j (syncStep interrupt due s) := by
  by_cases advancing : ∃ pindex, s.sync = .advance pindex
  · obtain ⟨pindex, sync⟩ := advancing
    have outcome : syncStep interrupt due s = Index.advance pindex s := by rw [syncStep, sync]
    rw [outcome]
    rcases safe.advance sound sync with proceeds | ⟨⟨index, pprev, found, other, unpublished⟩, fails⟩
    · exact .inl proceeds
    · refine .inr ⟨?_, fails⟩
      simp [publishedAtReorg, sync, found, other, unpublished]
  left
  obtain ⟨thread, sync⟩ : ∃ thread, s.sync = thread := ⟨_, rfl⟩
  rw [syncStep, sync]
  cases safe with
  | syncing synced callback active announced position =>
    rw [Position, sync] at position
    cases thread with
    | advance pindex => exact absurd ⟨pindex, sync⟩ advancing
    | check pindex =>
      cases interrupt with
      | true =>
        exact ⟨[], _, rfl, trivial, .syncing synced callback active announced
          ⟨position.1.symm, position.2.1⟩⟩
      | false => exact ⟨[], _, rfl, trivial, .syncing synced callback active announced position⟩
    | publish pindex =>
      obtain ⟨parent, has, work, behind⟩ := position
      cases due with
      | true =>
        refine ⟨_, _, rfl, Journal.fitsAll_commit fun _ => ⟨has, parent⟩,
          .syncing synced callback active announced ⟨?_, has, work, ?_⟩⟩
        · rw [Journal.position_commit]
          exact parent
        · exact Journal.behind_commit .periodic behind (suffix_refl _)
      | false =>
        exact ⟨[], _, rfl, trivial,
          .syncing synced callback active announced ⟨parent, has, work, behind⟩⟩
    | write pindex =>
      obtain ⟨parent, has, work, behind⟩ := position
      exact ⟨_, _, rfl, ⟨⟨has, parent, behind⟩, trivial⟩,
        .syncing synced callback active announced ⟨rfl, .inr has, work, behind⟩⟩
    | interrupted =>
      exact ⟨_, _, rfl, Journal.fitsAll_commit fun nonempty =>
        ⟨position.2.resolve_left nonempty, position.1⟩,
        .syncing synced callback active announced trivial⟩
    | caughtUp | committing => exact position.elim
    | ended =>
      refine ⟨[], s, rfl, trivial, .syncing synced callback active announced ?_⟩
      rw [Position, sync]
      trivial
  | following synced past active follow best current behind =>
    cases thread with
    | caughtUp =>
      exact ⟨_, _, rfl, ⟨trivial, trivial⟩,
        .following synced (.inr (.inl rfl)) active follow best current behind⟩
    | committing =>
      refine ⟨_, _, rfl, Journal.fitsAll_commit fun nonempty =>
        ⟨best.resolve_left nonempty, current⟩,
        .following synced (.inr (.inr rfl)) active ?_ best ?_ ?_⟩
      · rw [Journal.position_commit]
        exact follow
      · exact (Journal.current_commit .caughtUp).mpr current
      · exact Journal.behind_commit .caughtUp behind (suffix_refl _)
    | ended =>
      exact ⟨[], s, rfl, trivial, .following synced past active follow best current behind⟩
    | advance | check | publish | write | interrupted => simp [sync] at past

theorem deliverStep_blockConnected (callback : s.callback = .idle)
    (head : s.queue = .blockConnected pindex :: queue) :
    deliverStep s = blockConnected pindex { s with queue } := by
  cases s
  subst callback head
  rfl

theorem deliverStep_chainStateFlushed {locatorTip : Chain} (callback : s.callback = .idle)
    (head : s.queue = .chainStateFlushed locatorTip :: queue) :
    deliverStep s = chainStateFlushed locatorTip { s with queue } := by
  cases s
  subst callback head
  rfl

theorem deliverStep_nothing (callback : s.callback = .idle) (head : s.queue = []) :
    deliverStep s = ([], .ok s) := by
  cases s
  subst callback head
  rfl

section

variable (synced : s.synced = true)
  (sync : s.sync = .caughtUp ∨ s.sync = .committing ∨ s.sync = .ended)
  (active : s.chain = [] ∨ tree.Has s.chain) (best : s.best = [] ∨ tree.Has s.best)
  (current : j.Current s.best) (behind : j.Behind s.best) (callback : s.callback = .idle)
  (follow : WillFollow tree s j.position)

include synced sync active best current behind callback follow

theorem blockConnected_follow (head : s.queue = .blockConnected pindex :: queue) :
    Proceeds tree j (blockConnected pindex { s with queue }) := by
  rw [WillFollow, callback] at follow
  obtain ⟨place, announced, leads, none, found⟩ := follow
  rw [head] at leads found
  obtain ⟨has, child, genesis, rest⟩ := leads
  obtain ⟨index, pprev, rfl⟩ := exists_cons_of_ne_nil has.nonempty
  have height : nHeight (index :: pprev) - 1 = nHeight pprev := by
    rw [nHeight_cons]
    omega
  have parent : Chain.pprev (index :: pprev) = pprev := rfl
  rw [blockConnected, if_neg (by simp [synced]), height, parent]
  by_cases first : s.best = []
  · -- the first block of all
    have start : pprev = [] := by
      rw [none.mpr first] at child
      exact suffix_nil.mp child
    subst start
    rw [if_pos first, if_neg (by simp [nHeight])]
    exact ⟨[], _, rfl, trivial, .following synced sync active
      ⟨has, first, place.trans first, rest⟩ best current behind⟩
  · have some : pprev ≠ [] := fun empty => first (none.mp (genesis empty))
    rw [if_neg first]
    by_cases below : pprev <:+ s.best
    · rw [getAncestor_of_suffix some below, if_neg (by simp)]
      by_cases here : s.best = pprev
      · rw [if_pos here]
        exact ⟨[], _, rfl, trivial, .following synced sync active
          ⟨has, here, place.trans here, rest⟩ best current behind⟩
      · rw [if_neg here]
        exact ⟨_, _, rfl, ⟨⟨place.symm, some, below, Ne.symm here⟩, trivial⟩,
          .following synced sync active ⟨rfl, has, below, some, rfl, rest⟩ best current behind⟩
    · have skipped : ¬s.best.getAncestor (nHeight pprev) = pprev := fun inside =>
        below (by rw [← inside]; exact getAncestor_suffix _ _)
      rw [if_pos skipped]
      refine ⟨[], _, rfl, trivial, .following synced sync active ?_ best current behind⟩
      rw [WillFollow]
      rw [callback]
      refine ⟨place, index :: pprev, rest, by simp [first], ?_⟩
      rcases found with same | ⟨later, member, inside⟩
      · rw [same] at child
        exact absurd child below
      · rcases mem_cons.mp member with same | further
        · cases same
          exact absurd inside below
        · exact .inr ⟨later, further, inside⟩

theorem chainStateFlushed_follow {locatorTip : Chain}
    (head : s.queue = .chainStateFlushed locatorTip :: queue) :
    Proceeds tree j (chainStateFlushed locatorTip { s with queue }) := by
  rw [WillFollow, callback] at follow
  obtain ⟨place, announced, leads, none, found⟩ := follow
  rw [head] at leads found
  have some : s.best ≠ [] := fun empty => leads.1 (none.mpr empty)
  have follow' : WillFollow tree { s with queue } j.position := by
    rw [WillFollow]
    rw [callback]
    refine ⟨place, announced, leads.2, none, ?_⟩
    rcases found with same | ⟨pindex, member, child⟩
    · exact .inl same
    · rcases mem_cons.mp member with other | further
      · cases other
      · exact .inr ⟨pindex, further, child⟩
  rw [chainStateFlushed, if_neg (by simp [synced]), if_neg some]
  split
  · exact ⟨_, _, rfl, trivial, .following synced sync active follow' best current behind⟩
  · refine ⟨_, _, rfl, Journal.fitsAll_commit fun nonempty =>
      ⟨best.resolve_left nonempty, place.symm⟩, .following synced sync active ?_ best ?_ ?_⟩
    · rw [Journal.position_commit]
      exact follow'
    · exact (Journal.current_commit .flushed).mpr current
    · exact Journal.behind_commit .flushed behind (suffix_refl _)

end

theorem Safe.deliver (safe : Safe tree s j) (sound : j.Sound tree) :
    Proceeds tree j (deliverStep s) := by
  cases safe with
  | syncing synced callback active announced position =>
    cases head : s.queue with
    | nil =>
      exact ⟨[], s, deliverStep_nothing callback head, trivial,
        .syncing synced callback active announced position⟩
    | cons notification queue =>
      obtain ⟨before, nonempty, leads⟩ := announced
      rw [head] at leads
      cases notification with
      | blockConnected pindex =>
        refine ⟨[], { s with queue }, ?_, trivial, .syncing synced callback active
          ⟨pindex, leads.1.nonempty, leads.2.2.2⟩ (position.extend le_rfl)⟩
        rw [deliverStep_blockConnected callback head, blockConnected, if_pos (by simp [synced])]
      | chainStateFlushed locatorTip =>
        refine ⟨[], { s with queue }, ?_, trivial, .syncing synced callback active
          ⟨before, nonempty, leads.2⟩ (position.extend le_rfl)⟩
        rw [deliverStep_chainStateFlushed callback head, chainStateFlushed,
          if_pos (by simp [synced])]
  | following synced sync active follow best current behind =>
    cases callback : s.callback with
    | idle =>
      cases head : s.queue with
      | nil =>
        exact ⟨[], s, deliverStep_nothing callback head, trivial,
          .following synced sync active follow best current behind⟩
      | cons notification queue =>
        cases notification with
        | blockConnected pindex =>
          rw [deliverStep_blockConnected callback head]
          exact blockConnected_follow synced sync active best current behind callback follow head
        | chainStateFlushed locatorTip =>
          rw [deliverStep_chainStateFlushed callback head]
          exact chainStateFlushed_follow synced sync active best current behind callback follow head
    | rewinding currentTip pindex =>
      rw [WillFollow, callback] at follow
      obtain ⟨rfl, has, below, some, place, leads⟩ := follow
      have parent : tree.Has pindex.pprev := has.ancestor (tail_suffix _) some
      rw [deliverStep, callback]
      dsimp only
      rw [baseRewind_eq some below]
      refine ⟨commit .rewind pindex.pprev, _, rfl,
        Journal.fitsAll_commit fun _ => ⟨parent, place.symm⟩,
        .following synced sync active ⟨has, rfl, ?_, leads⟩ (.inr parent) ?_ ?_⟩
      · rw [Journal.position_commit]
        exact place
      · exact (Journal.current_commit .rewind).mpr (current.ancestor below)
      · intro made same
        rw [Index.commit, if_neg some] at same
        cases same
        exact suffix_refl _
    | connecting pindex =>
      rw [WillFollow, callback] at follow
      obtain ⟨has, parent, place, leads⟩ := follow
      have below : s.best <:+ pindex := parent ▸ tail_suffix _
      rw [deliverStep, callback]
      exact ⟨[.writeBlock pindex], _, rfl,
        ⟨⟨has, place.symm, fun commit made => (behind commit made).trans below⟩, trivial⟩,
        .following synced sync active ⟨has, parent, rfl, leads⟩ best (current.write below) behind⟩
    | written pindex =>
      rw [WillFollow, callback] at follow
      obtain ⟨has, parent, place, leads⟩ := follow
      have below : s.best <:+ pindex := parent ▸ tail_suffix _
      rw [deliverStep, callback]
      refine ⟨[], _, rfl, trivial, .following synced sync active
        ⟨place, pindex, leads, .rfl, .inl rfl⟩ (.inr has) ?_
        fun commit made => (behind commit made).trans below⟩
      have current' := sound.position
      rw [place] at current'
      exact current'

/-- A step proceeds, unless the thread meets a reorganisation with its position unpublished. -/
theorem Safe.step (safe : Safe tree s j) (sound : j.Sound tree) {action : Action}
    (allowed : Allowed tree action s) :
    Proceeds tree j (Index.step action s) ∨
      publishedAtReorg action s = false ∧ Fails tree j (Index.step action s) := by
  cases action with
  | activate newTip =>
    exact .inl ⟨[], _, rfl, trivial, safe.activate allowed.1 allowed.2.1 allowed.2.2⟩
  | flush => exact .inl ⟨[], _, rfl, trivial, safe.flush allowed⟩
  | sync interrupt due => exact safe.sync sound interrupt due
  | deliver => exact .inl (safe.deliver sound)

theorem runSchedule_proceeds {action : Action} {schedule : List Action} {ops : List Op}
    {s' : BaseState} (taken : Index.step action s = (ops, .ok s')) :
    runSchedule (action :: schedule) s =
      (ops ++ (runSchedule schedule s').1, (runSchedule schedule s').2) := by
  rw [runSchedule, taken]

section

variable (safe : Safe tree s j) (sound : j.Sound tree) (schedule : List Action)
  (allowed : Along (Allowed tree) schedule s)
include safe sound allowed

/-- What reaches the index along a schedule fits, whether it fails or not. -/
theorem Safe.run_fits : j.FitsAll tree (runSchedule schedule s).1 := by
  induction schedule generalizing s j with
  | nil => trivial
  | cons action schedule ih =>
    rcases safe.step sound allowed.1 with ⟨ops, s', taken, fits, safe'⟩ | ⟨_, ops, taken, fits⟩
    · have later := allowed.2
      rw [taken] at later
      rw [runSchedule_proceeds taken]
      exact fits.append (ih safe' (sound.recordAll fits) later)
    · rw [runSchedule, taken]
      exact fits

theorem Safe.run_proceeds
    (published : Along (fun action s => publishedAtReorg action s = true) schedule s) :
    Proceeds tree j (runSchedule schedule s) := by
  induction schedule generalizing s j with
  | nil => exact ⟨[], s, rfl, trivial, safe⟩
  | cons action schedule ih =>
    rcases safe.step sound allowed.1 with ⟨ops, s', taken, fits, safe'⟩ | ⟨unpublished, _⟩
    · have later := allowed.2
      have later' := published.2
      rw [taken] at later later'
      obtain ⟨ops', s'', ran, fits', safe''⟩ := ih safe' (sound.recordAll fits) later later'
      refine ⟨ops ++ ops', s'', ?_, fits.append fits', ?_⟩
      · rw [runSchedule_proceeds taken, ran]
      · rw [Journal.recordAll_append]
        exact safe''
    · rw [published.1] at unpublished
      cases unpublished

end

theorem safe_started (active : chain = [] ∨ tree.Has chain) (inside : j.position <:+ chain)
    (sound : j.Sound tree) (behind : j.Behind j.position) :
    Safe tree (started chain j.position) j := by
  have rooted : chain ≠ [] → j.position = [] ∨ tree.Has j.position := by
    intro nonempty
    by_cases none : j.position = []
    · exact .inl none
    · exact .inr ((active.resolve_left nonempty).ancestor inside none)
  by_cases caughtUp : j.position = chain
  · refine .following (by simp [started, caughtUp]) (.inr (.inr (by simp [started, caughtUp])))
      active ?_ ?_ sound.position behind
    · exact ⟨rfl, j.position, caughtUp, .rfl, .inl rfl⟩
    · show j.position = [] ∨ tree.Has j.position
      rw [caughtUp]
      exact active
  · have has : tree.Has chain := by
      rcases active with empty | has
      · rw [empty] at inside caughtUp
        exact absurd (suffix_nil.mp inside) caughtUp
      · exact has
    refine .syncing (by simp [started, caughtUp]) rfl has ⟨chain, has.nonempty, rfl⟩ ?_
    have start : (started chain j.position).sync = .check j.position := by
      simp [started, caughtUp]
    rw [Position, start]
    exact ⟨rfl, rooted has.nonempty, tree.work_le inside, behind⟩

end Qogecoin.Index
