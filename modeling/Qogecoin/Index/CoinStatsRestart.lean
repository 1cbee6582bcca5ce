import Qogecoin.Index.CoinStatsExact
import Qogecoin.Index.Restart

/-! `CoinStatsIndex` after a process stop: it resumes with the totals of its best block. As long as
the thread that catches up has published its position whenever it meets a reorganisation, an index
writes blocks one after the other and ends at the active tip. -/
namespace Qogecoin.Index

open Chain Function Journal List Totals

variable {tree : BlockTree}

inductive InOrder : Chain → List Op → Chain → Prop
  | nil {last : Chain} : InOrder last [] last
  | writeBlock {last last' : Chain} {ops : List Op} (index : CBlockIndex)
      (rest : InOrder (index :: last) ops last') :
      InOrder last (.writeBlock (index :: last) :: ops) last'
  | rewind {last newTip last' : Chain} {ops : List Op} (nonempty : newTip ≠ [])
      (suffix : newTip <:+ last) (proper : newTip ≠ last) (rest : InOrder newTip ops last') :
      InOrder last (.rewind last newTip :: ops) last'
  | latch {last last' : Chain} {ops : List Op} (rest : InOrder last ops last') :
      InOrder last (.latch :: ops) last'
  | commit {last last' : Chain} {ops : List Op} {reason : Reason} {best : Chain}
      (rest : InOrder last ops last') : InOrder last (.commit reason best :: ops) last'

theorem Journal.FitsAll.inOrder {j : Journal} {ops : List Op} (fits : j.FitsAll tree ops) :
    InOrder j.position ops (j.recordAll ops).position := by
  induction ops generalizing j with
  | nil => exact .nil
  | cons op ops ih =>
    obtain ⟨here, rest⟩ := fits
    have later := ih rest
    cases op with
    | writeBlock pindex =>
      obtain ⟨has, parent, _⟩ := here
      obtain ⟨index, pprev, rfl⟩ := exists_cons_of_ne_nil has.nonempty
      rw [← show pprev = j.position from parent]
      exact .writeBlock index later
    | rewind currentTip newTip =>
      obtain ⟨rfl, nonempty, suffix, proper⟩ := here
      exact .rewind nonempty suffix proper later
    | latch => exact .latch later
    | commit reason best => exact .commit later

def Journal.upTo (best : Chain) : Journal where
  records height := some (best.getAncestor height)
  position := best
  latched := []
  committed := none

theorem Journal.sound_upTo (best : Chain) : (upTo best).Sound tree where
  position _ nonempty suffix := congrArg some (getAncestor_of_suffix nonempty suffix)
  committed _ made := by cases made

/-- From an index whose best block is on the active chain, along every schedule on which
`ThreadSync` has published its position whenever it meets a reorganisation: nothing fails, blocks
are written in order, and once the index has caught up and all notifications are processed, its best
block is the active tip. -/
theorem index_follows_published_reorgs (tree : BlockTree) {chain best : Chain}
    (active : chain = [] ∨ tree.Has chain) (inside : best <:+ chain) (schedule : List Action)
    (allowed : Along (Allowed tree) schedule (started chain best))
    (published : Along (fun action s => publishedAtReorg action s = true) schedule
      (started chain best)) :
    ∃ ops s last, runSchedule schedule (started chain best) = (ops, .ok s) ∧
      InOrder best ops last ∧
      (s.synced = true → s.queue = [] → s.callback = .idle → s.best = s.chain) := by
  have sound : (upTo best).Sound tree := sound_upTo best
  have start : Safe tree (started chain best) (upTo best) :=
    safe_started active inside sound fun _ made => by cases made
  obtain ⟨ops, s, ran, fits, safe⟩ := start.run_proceeds sound schedule allowed published
  refine ⟨ops, s, _, ran, fits.inOrder, ?_⟩
  intro synced processed idle
  cases safe with
  | syncing unsynced _ _ _ _ =>
    rw [unsynced] at synced
    cases synced
  | following _ _ _ follow _ _ _ =>
    rw [WillFollow, idle] at follow
    obtain ⟨_, announced, leads, _, found⟩ := follow
    rw [processed] at leads found
    rcases found with same | ⟨_, member, _⟩
    · exact same.symm.trans leads
    · cases member

instance (tree : BlockTree) [DecidablePred tree.member] (pindex : Chain) :
    Decidable (tree.Has pindex) :=
  inferInstanceAs (Decidable (_ ∧ _))

instance (tree : BlockTree) [DecidablePred tree.member] (action : Action) (s : BaseState) :
    Decidable (Allowed tree action s) :=
  match action with
  | .activate _ => inferInstanceAs (Decidable (_ ∧ _ ∧ _))
  | .flush => inferInstanceAs (Decidable (_ ≠ _))
  | .sync _ _ => .isTrue trivial
  | .deliver => .isTrue trivial

instance decidableAlong (condition : Action → BaseState → Prop)
    [∀ action s, Decidable (condition action s)] :
    (schedule : List Action) → (s : BaseState) → Decidable (Along condition schedule s)
  | [], _ => .isTrue trivial
  | action :: schedule, s =>
    have : Decidable (match (step action s).2 with
      | .ok s' => Along condition schedule s'
      | .error _ => True) :=
      match (step action s).2 with
      | .ok s' => decidableAlong condition schedule s'
      | .error _ => .isTrue trivial
    inferInstanceAs (Decidable (_ ∧ _))

def sampleIndex (hash : Nat) : CBlockIndex := ⟨.uint256S hash, 1, 0, 0⟩

def sampleTree : BlockTree where
  genesis := sampleIndex 1
  member _ := True
  closed _ _ _ _ := trivial
  work := length
  grows _ _ := Nat.lt_succ_self _

instance : DecidablePred sampleTree.member := fun _ => .isTrue trivial

def staleTip : Chain := [sampleIndex 2, sampleIndex 1]

def betterTip : Chain := [sampleIndex 4, sampleIndex 3, sampleIndex 1]

def turn (due : Bool) : List Action :=
  [.sync false false, .sync false false, .sync false due, .sync false false]

/-- The thread publishes the genesis block, then writes the next block within the interval, and
then the chain is reorganised. -/
def unpublishedReorg : List Action :=
  turn true ++ turn false ++ [.activate betterTip, .sync false false, .sync false false]

theorem unpublished_reorg_fails_assertion :
    Along (Allowed sampleTree) unpublishedReorg (started staleTip []) ∧
      (runSchedule unpublishedReorg (started staleTip [])).2 = .error .assertion := by
  decide +kernel

def publishedReorg : List Action :=
  turn true ++ turn true ++ [.activate betterTip] ++ turn false ++ turn false ++
    [.sync false false, .sync false false, .sync false false, .sync false false] ++
    replicate 8 .deliver

theorem index_follows_published_reorgs_sample :
    (Along (Allowed sampleTree) publishedReorg (started staleTip []) ∧
      Along (fun action s => publishedAtReorg action s = true) publishedReorg (started staleTip [])) ∧
    ∃ ops s last, runSchedule publishedReorg (started staleTip []) = (ops, .ok s) ∧
      InOrder [] ops last ∧
      (s.synced = true → s.queue = [] → s.callback = .idle → s.best = s.chain) := by
  have allowed : Along (Allowed sampleTree) publishedReorg (started staleTip []) := by
    decide +kernel
  have published : Along (fun action s => publishedAtReorg action s = true) publishedReorg (started staleTip []) := by
    decide +kernel
  exact ⟨⟨allowed, published⟩, index_follows_published_reorgs sampleTree (.inr (by decide +kernel))
    nil_suffix publishedReorg allowed published⟩

open Coins Validation MuHash

section

variable {M : Type} [MuHash M]

structure CoinStatsDisk (M : Type) where
  db : CoinStatsDB
  committed : Option (List Uint256 × M)

structure CoinStatsProcess (M : Type) where
  index : CoinStatsIndex M
  latched : M
  committed : Option (List Uint256 × M)

def CoinStatsProcess.disk (process : CoinStatsProcess M) : CoinStatsDisk M :=
  ⟨process.index.db, process.committed⟩

def coinStatsInit (restart : Restart) (disk : CoinStatsDisk M) : Option (CoinStatsIndex M) :=
  let muhash := (disk.committed.map Prod.snd).getD 0
  let (done, best) := baseInit restart (disk.committed.map Prod.fst)
  if !done then none
  else if best = [] then some ⟨.start muhash, disk.db⟩
  else
    match lookUpOne disk.db best with
    | none => none
    | some entry =>
      if entry.muhash ≠ MuHash.finalize muhash then none
      else some ⟨{ entry with muhash }, disk.db⟩

variable [Crypto]

def CoinStatsProcess.apply (node : ChainAccess) (stored : Stored) (process : CoinStatsProcess M) :
    Op → Except Crash (Bool × CoinStatsProcess M)
  | .writeBlock pindex => do
    let (done, index) ← process.index.writeBlock node (stored pindex).1 pindex
    .ok (done, { process with index })
  | .rewind currentTip newTip => do
    let (done, index) ← process.index.rewind node currentTip newTip
    .ok (done, { process with index })
  | .latch => .ok (true, { process with latched := process.index.totals.muhash })
  | .commit reason best =>
    let muhash := if reason = .caughtUp then process.latched else process.index.totals.muhash
    .ok (true, { process with committed := some (getLocator best, muhash) })

def CoinStatsProcess.applyAll (node : ChainAccess) (stored : Stored) :
    List Op → CoinStatsProcess M → Except Crash (Bool × CoinStatsProcess M)
  | [], process => .ok (true, process)
  | op :: ops, process => do
    let (done, process) ← process.apply node stored op
    if done then applyAll node stored ops process else .ok (false, process)

variable {tree : BlockTree} {node : ChainAccess} {stored : Stored} {j : Journal}
  {process : CoinStatsProcess M}

structure Mirrors (node : ChainAccess) (stored : Stored) (j : Journal)
    (process : CoinStatsProcess M) : Prop where
  indexed : ∃ written, Indexed node stored process.index j.position written
  heights : ∀ height, process.index.db.heights height =
    (j.records height).map (record M node stored)
  exact : ∀ height, ∀ pindex ∈ j.records height, Representable M node.params stored pindex
  latched : process.latched = (totalsAt node.params stored j.latched : Totals M).muhash
  committed : process.committed = j.committed.map fun commit =>
    (getLocator commit.best, (totalsAt node.params stored commit.running : Totals M).muhash)

section

variable (valid : ValidTree node stored) (members : ∀ pindex, tree.member pindex → node.Has pindex)
  (mirrors : Mirrors node stored j process)
include valid members mirrors

theorem Mirrors.apply {op : Op} (fits : j.Fits tree op) :
    (∃ process', process.apply node stored op = .ok (true, process') ∧
      Mirrors node stored (j.record op) process') ∨
    process.apply node stored op = .error .signedOverflow := by
  obtain ⟨written, indexed⟩ := mirrors.indexed
  cases op with
  | writeBlock pindex =>
    obtain ⟨has, parent, _⟩ := fits
    obtain ⟨index, pprev, rfl⟩ := exists_cons_of_ne_nil has.nonempty
    rw [← show pprev = j.position from parent] at indexed
    rw [CoinStatsProcess.apply]
    rcases indexed.writeBlock valid (members _ has.2) with
      ⟨index', wrote, heights, indexed'⟩ | failed
    · refine .inl ⟨{ process with index := index' }, by rw [wrote]; rfl, ⟨_, indexed'⟩, ?_, ?_,
        mirrors.latched, mirrors.committed⟩
      · intro height
        show index'.db.heights height = (update j.records _ _ height).map _
        rw [heights]
        by_cases same : height = nHeight (index :: pprev)
        · rw [same, update_self, update_self]
          rfl
        · rw [update_of_ne same, update_of_ne same]
          exact mirrors.heights height
      · intro height pindex (written : update j.records _ _ height = some pindex)
        by_cases same : height = nHeight (index :: pprev)
        · rw [same, update_self] at written
          cases written
          exact indexed'.exact _ mem_cons_self
        · rw [update_of_ne same] at written
          exact mirrors.exact height pindex written
    · exact .inr (by rw [failed]; rfl)
  | rewind currentTip newTip =>
    obtain ⟨rfl, nonempty, suffix, proper⟩ := fits
    rw [CoinStatsProcess.apply]
    rcases indexed.rewind valid nonempty suffix proper with
      ⟨index', rewound, heights, indexed'⟩ | failed
    · refine .inl ⟨{ process with index := index' }, by rw [rewound]; rfl, ⟨_, indexed'⟩, ?_,
        mirrors.exact, mirrors.latched, mirrors.committed⟩
      intro height
      rw [heights]
      exact mirrors.heights height
    · exact .inr (by rw [failed]; rfl)
  | latch =>
    exact .inl ⟨_, rfl, mirrors.indexed, mirrors.heights, mirrors.exact,
      congrArg muhash (eq_of indexed.totals), mirrors.committed⟩
  | commit reason best =>
    refine .inl ⟨_, rfl, mirrors.indexed, mirrors.heights, mirrors.exact, mirrors.latched, ?_⟩
    show some _ = some _
    congr 2
    by_cases caughtUp : reason = .caughtUp
    · simp only [caughtUp, if_true]
      exact mirrors.latched
    · simp only [caughtUp, if_false]
      exact congrArg muhash (eq_of indexed.totals)

theorem Mirrors.applyAll {ops : List Op} {done : Bool} {process' : CoinStatsProcess M}
    (fits : j.FitsAll tree ops) (ran : process.applyAll node stored ops = .ok (done, process')) :
    Mirrors node stored (j.recordAll ops) process' := by
  induction ops generalizing j process with
  | nil =>
    cases ran
    exact mirrors
  | cons op ops ih =>
    rw [CoinStatsProcess.applyAll] at ran
    rcases mirrors.apply valid members fits.1 with ⟨next, applied, mirrors'⟩ | failed
    · rw [applied] at ran
      exact ih mirrors' fits.2 ran
    · rw [failed] at ran
      cases ran

end

structure Persists (node : ChainAccess) (stored : Stored) (j : Journal) (disk : CoinStatsDisk M) :
    Prop where
  heights : ∀ height, disk.db.heights height = (j.records height).map (record M node stored)
  exact : ∀ height, ∀ pindex ∈ j.records height, Representable M node.params stored pindex
  copied : ∀ hash value, disk.db.hashes hash = some value →
    ∃ other, node.Has other ∧ (hash, value) = record M node stored other
  committed : disk.committed = j.committed.map fun commit =>
    (getLocator commit.best, (totalsAt node.params stored commit.running : Totals M).muhash)

theorem Mirrors.persists (mirrors : Mirrors node stored j process) :
    Persists node stored j process.disk := by
  obtain ⟨written, indexed⟩ := mirrors.indexed
  exact ⟨mirrors.heights, mirrors.exact, indexed.copied, mirrors.committed⟩

variable {disk : CoinStatsDisk M} {restart : Restart}

section

variable (persists : Persists node stored j disk)
include persists

theorem Persists.locator :
    disk.committed.map Prod.fst = j.locator := by
  rw [persists.committed, Journal.locator, Option.map_map]
  rfl

theorem Persists.muhash (aligned : j.Aligned) (settled : j.Settled) (sound : j.Sound tree)
    (continues : restart.Continues j) :
    (disk.committed.map Prod.snd).getD 0 =
      (totalsAt node.params stored (initBest restart j.locator) : Totals M).muhash := by
  rw [persists.committed, Journal.locator]
  cases made : j.committed with
  | none => rfl
  | some commit =>
    obtain ⟨inside, known⟩ := continues commit made
    have best := initBest_eq (sound.committed commit made).1.nonempty known inside
    rw [show (some commit).map (fun commit => getLocator commit.best) =
      some (getLocator commit.best) from rfl, best,
      ← aligned commit made (settled commit made)]
    rfl

variable (members : ∀ pindex, tree.member pindex → node.Has pindex)
include members

/-- The tables are those of an index that has written the chain of a block and nothing else. -/
theorem Persists.indexed {best : Chain} (has : best = [] ∨ tree.Has best)
    (current : j.Current best) :
    Indexed node stored (⟨totalsAt node.params stored best, disk.db⟩ : CoinStatsIndex M) best
      (best.tails.filter (· ≠ [])) := by
  have mem (pindex : Chain) :
      pindex ∈ best.tails.filter (· ≠ []) ↔ pindex <:+ best ∧ pindex ≠ [] := by simp
  have known (pindex : Chain) (nonempty : pindex ≠ []) (suffix : pindex <:+ best) :
      node.Has pindex := by
    rcases has with empty | has
    · rw [empty] at suffix
      exact absurd (suffix_nil.mp suffix) nonempty
    · exact members _ (has.ancestor suffix nonempty).2
  have stands (pindex : Chain) (nonempty : pindex ≠ []) (suffix : pindex <:+ best) :
      disk.db.heights pindex.nHeight = some (record M node stored pindex) := by
    rw [persists.heights, current pindex nonempty suffix]
    rfl
  have exact (pindex : Chain) (nonempty : pindex ≠ []) (suffix : pindex <:+ best) :
      Representable M node.params stored pindex :=
    persists.exact _ pindex (current pindex nonempty suffix)
  constructor
  · by_cases empty : best = []
    · rw [empty]
      rfl
    · exact exact best empty (suffix_refl best)
  · intro pindex member
    obtain ⟨suffix, nonempty⟩ := (mem pindex).mp member
    exact known pindex nonempty suffix
  · intro pindex member
    obtain ⟨suffix, nonempty⟩ := (mem pindex).mp member
    exact exact pindex nonempty suffix
  · exact fun pindex nonempty suffix => (mem pindex).mpr ⟨suffix, nonempty⟩
  · exact stands
  · intro pindex member
    obtain ⟨suffix, nonempty⟩ := (mem pindex).mp member
    exact ⟨pindex, known pindex nonempty suffix, stands pindex nonempty suffix⟩
  · exact persists.copied
  · exact fun pindex member => .inl ((mem pindex).mp member).1

def resumed (node : ChainAccess) (stored : Stored) (restart : Restart) (j : Journal)
    (disk : CoinStatsDisk M) : CoinStatsIndex M :=
  ⟨totalsAt node.params stored (initBest restart j.locator), disk.db⟩

variable (sound : j.Sound tree) (settled : j.Settled) (valid : restart.Valid tree j)
include sound settled valid

theorem Persists.indexed_resumed :
    Indexed node stored (resumed node stored restart j disk) (initBest restart j.locator)
      ((initBest restart j.locator).tails.filter (· ≠ [])) := by
  apply persists.indexed members _ (sound.current_initBest settled.writtenCommit valid)
  have inside := sound.initBest_active valid
  by_cases none : initBest restart j.locator = []
  · exact .inl none
  · rcases valid.active with empty | active
    · rw [empty] at inside
      exact .inl (suffix_nil.mp inside)
    · exact .inr (active.ancestor inside none)

theorem Persists.coinStatsInit_eq (aligned : j.Aligned) (continues : restart.Continues j) :
    coinStatsInit restart disk =
      if (baseInit restart j.locator).1 then some (resumed node stored restart j disk)
      else none := by
  have indexed := persists.indexed_resumed members sound settled valid
  rw [coinStatsInit, persists.muhash aligned settled sound continues, persists.locator]
  cases done : (baseInit restart j.locator).1 with
  | false => simp [done]
  | true =>
    rw [show baseInit restart j.locator = (true, initBest restart j.locator) from
      Prod.ext done rfl]
    dsimp only
    rw [if_neg (by simp), if_pos rfl, resumed]
    by_cases none : initBest restart j.locator = []
    · rw [if_pos none, none]
      rfl
    · have member : initBest restart j.locator ∈
          (initBest restart j.locator).tails.filter (· ≠ []) := by simpa using none
      rw [if_neg none, show lookUpOne disk.db (initBest restart j.locator) = _ from
        indexed.lookUpOne_eq member]
      exact if_neg fun other => other rfl

theorem Persists.mirrors_resumed :
    Mirrors node stored (j.resume restart)
      ⟨resumed node stored restart j disk, 0, disk.committed⟩ :=
  ⟨⟨_, persists.indexed_resumed members sound settled valid⟩, persists.heights,
    persists.exact, rfl, persists.committed⟩

end

variable (tree node stored) in
/-- Sessions one after the other. Each is stopped after a commit that was not periodic, the next one
continues on a chain with the block of that commit, and the last commit of `ThreadSync` is not
disturbed. -/
inductive CoinStatsLife : Journal → CoinStatsDisk M → Prop
  | fresh : CoinStatsLife .fresh ⟨(.empty : CoinStatsIndex M).db, none⟩
  | session {j : Journal} {disk : CoinStatsDisk M} {index : CoinStatsIndex M}
      {done : Bool} {process : CoinStatsProcess M} (restart : Restart)
      (schedule : List Action) (stop : Nat) (before : CoinStatsLife j disk)
      (settled : j.Settled) (valid : restart.Valid tree j) (continues : restart.Continues j)
      (opened : coinStatsInit restart disk = some index)
      (allowed : Along (Allowed tree) schedule
        (started restart.chain (j.resume restart).position))
      (quiet : Along (fun action s => quietCommit action s = true) schedule
        (started restart.chain (j.resume restart).position))
      (ran : CoinStatsProcess.applyAll node stored (sessionOps restart j schedule stop)
        ⟨index, 0, disk.committed⟩ = .ok (done, process)) :
      CoinStatsLife ((j.resume restart).recordAll (sessionOps restart j schedule stop))
        process.disk

theorem CoinStatsLife.life (life : CoinStatsLife tree node stored j disk) : Life tree j := by
  induction life with
  | fresh => exact .fresh
  | session restart schedule stop _ settled valid continues _ allowed _ _ ih =>
    exact .session restart schedule stop ih settled.writtenCommit valid continues allowed

theorem CoinStatsLife.persists (readable : ValidTree node stored)
    (members : ∀ pindex, tree.member pindex → node.Has pindex)
    (life : CoinStatsLife tree node stored j disk) :
    Persists node stored j disk ∧ j.Aligned := by
  induction life with
  | fresh =>
    refine ⟨⟨fun _ => rfl, ?_, ?_, rfl⟩, ?_⟩
    · intro height pindex written
      cases written
    · intro hash value found
      cases found
    · intro commit made
      cases made
  | session restart schedule stop before settled valid continues opened allowed quiet ran ih =>
    obtain ⟨persists, aligned⟩ := ih
    have sound := before.life.sound
    rw [persists.coinStatsInit_eq members sound settled valid aligned continues] at opened
    split at opened
    · cases opened
      have sound' := sound.resume settled.writtenCommit valid
      have safe := sound.safe_resume settled.writtenCommit valid continues
      have fits := (safe.run_fits sound' schedule allowed).take stop
      have latched := ((alone_started _ _ _).run safe sound' schedule allowed quiet).take stop
      have mirrors := (persists.mirrors_resumed members sound settled valid).applyAll
        readable members fits ran
      exact ⟨mirrors.persists, Aligned.recordAll aligned fits latched⟩
    · cases opened

/-- After every stop the best block that `Init` finds is the last of a chain that has been written
entirely, if the block of the last commit has been written; the totals are those of that block, if
that commit was not periodic and the chain has its block. -/
theorem indexes_resume_after_a_stop (readable : ValidTree node stored)
    (members : ∀ pindex, tree.member pindex → node.Has pindex) :
    (∀ j, Life tree j → j.Current j.position ∧
      ∀ restart : Restart, j.WrittenCommit → restart.Valid tree j →
        j.Current (baseInit restart j.locator).2) ∧
    ∀ (j : Journal) (disk : CoinStatsDisk M), CoinStatsLife tree node stored j disk →
      ∀ restart : Restart, j.Settled → restart.Valid tree j → restart.Continues j →
        restart.HasData →
        ∃ index, coinStatsInit restart disk = some index ∧
          index.totals = totalsAt node.params stored
            (baseInit restart (disk.committed.map Prod.fst)).2 := by
  constructor
  · intro j life
    exact ⟨life.sound.position, fun restart written valid =>
      life.sound.current_initBest written valid⟩
  · intro j disk life restart settled valid continues data
    obtain ⟨persists, aligned⟩ := life.persists readable members
    have sound := life.life.sound
    have done := baseInit_done data (sound.initBest_active valid)
    have opened := persists.coinStatsInit_eq members sound settled valid aligned continues
    rw [if_pos done] at opened
    refine ⟨_, opened, ?_⟩
    rw [persists.locator]
    rfl

end

def indexedTree : BlockTree where
  genesis := minedIndex minedGenesis
  member := indexedNode.Has
  closed _ _ := indexedNode_parent
  work := length
  grows _ _ := Nat.lt_succ_self _

def sampleRestart : Restart where
  chain := childOfGenesis newBlock
  lookupBlockIndex := indexedNode.lookupBlockIndex
  haveData _ := true

instance : DecidablePred indexedTree.member :=
  fun pindex => inferInstanceAs (Decidable (pindex ≠ [] ∧ _ = _))

theorem sampleRestart_valid {j : Journal} (sound : j.Sound indexedTree) :
    sampleRestart.Valid indexedTree j :=
  Restart.valid_of_known sound (by decide +kernel) fun _ has => has.2.2

theorem sampleRestart_continues {j : Journal} (sound : j.Sound indexedTree)
    (inside : ∀ commit ∈ j.committed, commit.best <:+ sampleRestart.chain) :
    sampleRestart.Continues j :=
  fun commit made => ⟨inside commit made, (sound.committed commit made).1.2.2⟩

variable (schedule : List Action)

def sampleJournal (stop : Nat) : Journal :=
  (Journal.fresh.resume sampleRestart).recordAll (sessionOps sampleRestart .fresh schedule stop)

theorem sampleJournal_life (stop : Nat)
    (allowed : Along (Allowed indexedTree) schedule (started sampleRestart.chain [])) :
    Life indexedTree (sampleJournal schedule stop) := by
  have sound := (show Life indexedTree .fresh from .fresh).sound
  exact .session sampleRestart schedule stop .fresh (fun _ made => by cases made)
    (sampleRestart_valid sound) (fun _ made => by cases made) allowed

def sampleSession (stop : Nat) : Except Crash (Bool × CoinStatsProcess ℤ) :=
  let _ := Crypto.firstBytes
  let _ := sumHash
  CoinStatsProcess.applyAll indexedNode storedBlocks (sessionOps sampleRestart .fresh schedule stop)
    ⟨.empty, 0, none⟩

theorem sampleSession_life {schedule : List Action} {stop : Nat} {done : Bool}
    {process : CoinStatsProcess ℤ}
    (allowed : Along (Allowed indexedTree) schedule (started sampleRestart.chain []))
    (quiet : Along (fun action s => quietCommit action s = true) schedule
      (started sampleRestart.chain []))
    (ran : sampleSession schedule stop = .ok (done, process)) :
    let _ := Crypto.firstBytes
    let _ := sumHash
    CoinStatsLife indexedTree indexedNode storedBlocks (sampleJournal schedule stop)
      process.disk := by
  intro crypto hash
  have sound := (show Life indexedTree .fresh from .fresh).sound
  exact .session sampleRestart schedule stop .fresh (fun _ made => by cases made)
    (sampleRestart_valid sound) (fun _ made => by cases made) rfl allowed quiet ran

/-- The genesis block and its child are written, and a commit is made when each of them comes. -/
def periodicCommits : List Action := turn true ++ turn true

def caughtUpCommit : List Action := periodicCommits ++ replicate 4 (.sync false false)

/-- A process that stops after the first commit and before the genesis block is written resumes
above that block; one that stops after both blocks have been written cannot be opened again. -/
theorem restart_after_a_periodic_commit_fails :
    let _ := Crypto.firstBytes
    let _ := sumHash
    (Life indexedTree (sampleJournal periodicCommits 1) ∧
      sampleRestart.Valid indexedTree (sampleJournal periodicCommits 1) ∧
      (baseInit sampleRestart (sampleJournal periodicCommits 1).locator).2 =
        [minedIndex minedGenesis] ∧
      ((sampleJournal periodicCommits 1).records 0).isNone = true) ∧
    ∃ disk : CoinStatsDisk ℤ,
      CoinStatsLife indexedTree indexedNode storedBlocks (sampleJournal periodicCommits 4) disk ∧
      sampleRestart.Valid indexedTree (sampleJournal periodicCommits 4) ∧
      (baseInit sampleRestart (sampleJournal periodicCommits 4).locator).2 =
        childOfGenesis newBlock ∧
      (sampleJournal periodicCommits 4).records 1 = some (childOfGenesis newBlock) ∧
      (coinStatsInit sampleRestart disk).isNone = true := by
  intro crypto hash
  have allowed : Along (Allowed indexedTree) periodicCommits (started sampleRestart.chain []) := by
    decide +kernel
  constructor
  · have life := sampleJournal_life periodicCommits 1 allowed
    exact ⟨life, sampleRestart_valid life.sound, by decide +kernel, by decide +kernel⟩
  · have stuck : (sampleSession periodicCommits 4).toOption.map (fun ran =>
        (coinStatsInit sampleRestart ran.2.disk).isNone) = some true := by
      decide +kernel
    cases ran : sampleSession periodicCommits 4 with
    | error crash =>
      rw [ran] at stuck
      cases stuck
    | ok result =>
      rw [ran] at stuck
      have life := sampleSession_life allowed (by decide +kernel) ran
      exact ⟨_, life, sampleRestart_valid life.life.sound, by decide +kernel, by decide +kernel,
        Option.some.inj stuck⟩

theorem indexes_resume_after_the_last_commit :
    let _ := Crypto.firstBytes
    let _ := sumHash
    (sampleJournal caughtUpCommit 6).Current (childOfGenesis newBlock) ∧
    ∃ (disk : CoinStatsDisk ℤ) (index : CoinStatsIndex ℤ),
      CoinStatsLife indexedTree indexedNode storedBlocks (sampleJournal caughtUpCommit 6) disk ∧
      coinStatsInit sampleRestart disk = some index ∧
      index.totals = totalsAt minedParams storedBlocks (childOfGenesis newBlock) := by
  intro crypto hash
  have allowed : Along (Allowed indexedTree) caughtUpCommit (started sampleRestart.chain []) := by
    decide +kernel
  have life := sampleJournal_life caughtUpCommit 6 allowed
  have valid := sampleRestart_valid life.sound
  have last : (sampleJournal caughtUpCommit 6).committed =
      some ⟨.caughtUp, childOfGenesis newBlock, childOfGenesis newBlock⟩ := by rfl
  have settled : (sampleJournal caughtUpCommit 6).Settled := by
    intro commit made
    cases last.symm.trans made
    simp
  have continues : sampleRestart.Continues (sampleJournal caughtUpCommit 6) := by
    apply sampleRestart_continues life.sound
    intro commit made
    cases last.symm.trans made
    exact suffix_refl _
  have best : (baseInit sampleRestart (sampleJournal caughtUpCommit 6).locator).2 =
      childOfGenesis newBlock := by
    decide +kernel
  have members (pindex : Chain) (member : indexedTree.member pindex) : indexedNode.Has pindex :=
    member
  obtain ⟨blocks, stats⟩ := indexes_resume_after_a_stop (M := ℤ) indexedNode_tree members
  constructor
  · rw [← best]
    exact (blocks _ life).2 sampleRestart settled.writtenCommit valid
  · have succeeds : (sampleSession caughtUpCommit 6).isOk = true := by decide +kernel
    cases ran : sampleSession caughtUpCommit 6 with
    | error crash =>
      rw [ran] at succeeds
      cases succeeds
    | ok result =>
      have life' := sampleSession_life allowed (by decide +kernel) ran
      obtain ⟨index, opened, totals⟩ := stats _ _ life' sampleRestart settled valid continues
        fun _ _ _ => rfl
      refine ⟨_, index, life', opened, ?_⟩
      rw [totals, (life'.persists indexedNode_tree members).1.locator, best]
      rfl

end Qogecoin.Index
