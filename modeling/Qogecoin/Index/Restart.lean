import Qogecoin.Index.Schedules

/-! Indexes after a process stop. What `Init` finds in the database after any number of sessions,
each of which was stopped between two writes. -/
namespace Qogecoin.Index

open Chain List

def locatorFrom : (fuel : Nat) → (nStep : Int) → (size : Nat) → Chain → List Uint256
  | 0, _, _, _ => []
  | _ + 1, _, _, [] => []
  | fuel + 1, nStep, size, index :: pprev =>
    index.phashBlock ::
      if nHeight (index :: pprev) = 0 then []
      else
        locatorFrom fuel (if size + 1 > 10 then nStep * 2 else nStep) (size + 1)
          (getAncestor (index :: pprev) (max (nHeight (index :: pprev) - nStep) 0))

/-- Every turn of the loop goes down by at least one block. -/
def getLocator (pindex : Chain) : List Uint256 := locatorFrom pindex.length 1 0 pindex

structure Restart where
  chain : Chain
  lookupBlockIndex : Uint256 → Option Chain
  /-- `BLOCK_HAVE_DATA`. -/
  haveData : Chain → Bool

variable (restart : Restart)

def findForkInGlobalIndex (restart : Restart) : List Uint256 → Chain
  | [] => genesisOf restart.chain
  | hash :: vHave =>
    match restart.lookupBlockIndex hash with
    | none => findForkInGlobalIndex restart vHave
    | some pindex =>
      if contains restart.chain pindex then pindex
      else if pindex.getAncestor restart.chain.nHeight = restart.chain then restart.chain
      else findForkInGlobalIndex restart vHave

/-- The best block that `BaseIndex::Init` sets; a locator that cannot be read is null. -/
def initBest (locator : Option (List Uint256)) : Chain :=
  match locator with
  | none => []
  | some vHave => if vHave = [] then [] else findForkInGlobalIndex restart vHave

def getFirstStoredBlock (haveData : Chain → Bool) : Chain → Chain
  | [] => []
  | index :: pprev =>
    if pprev ≠ [] ∧ haveData pprev then getFirstStoredBlock haveData pprev else index :: pprev

/-- The walk from the tip to the block to test, as long as there is data. The block is on the chain,
so that the walk does not leave it. -/
def dataDownTo (haveData : Chain → Bool) (blockToTest : Chain) : Chain → Bool
  | [] => false
  | index :: pprev =>
    haveData (index :: pprev) &&
      (blockToTest = index :: pprev || dataDownTo haveData blockToTest pprev)

def pruneViolation (best : Chain) : Bool :=
  if best = [] then
    getFirstStoredBlock restart.haveData restart.chain ≠ genesisOf restart.chain
  else
    let blockToTest :=
      if contains restart.chain best then best else findFork restart.chain best
    !(blockToTest ≠ [] && dataDownTo restart.haveData blockToTest restart.chain)

def baseInit (locator : Option (List Uint256)) : Bool × Chain :=
  let best := initBest restart locator
  (best = restart.chain || !pruneViolation restart best, best)

variable {tree : BlockTree} {restart : Restart}

variable {pindex : Chain} {ops : List Op}

theorem mem_locatorFrom {fuel size : Nat} {nStep : Int} {hash : Uint256}
    (member : hash ∈ locatorFrom fuel nStep size pindex) :
    ∃ ancestor : Chain, ancestor ≠ [] ∧ ancestor <:+ pindex ∧ hash = ancestor.getBlockHash := by
  induction fuel generalizing nStep size pindex with
  | zero => cases member
  | succ fuel ih =>
    cases pindex with
    | nil => cases member
    | cons index pprev =>
      rw [locatorFrom] at member
      rcases mem_cons.mp member with rfl | later
      · exact ⟨index :: pprev, cons_ne_nil _ _, suffix_refl _, rfl⟩
      · split at later
        · cases later
        · obtain ⟨ancestor, some, suffix, same⟩ := ih later
          exact ⟨ancestor, some, suffix.trans (getAncestor_suffix _ _), same⟩

theorem getLocator_cons (index : CBlockIndex) (pprev : Chain) :
    ∃ rest, getLocator (index :: pprev) = index.phashBlock :: rest := by
  rw [getLocator, length_cons, locatorFrom]
  exact ⟨_, rfl⟩

def Restart.Faithful (restart : Restart) (pindex : Chain) : Prop :=
  ∀ ancestor : Chain, ancestor ≠ [] → ancestor <:+ pindex →
    restart.lookupBlockIndex ancestor.getBlockHash = none ∨
      restart.lookupBlockIndex ancestor.getBlockHash = some ancestor

section

variable (faithful : restart.Faithful pindex) (active : restart.chain = [] ∨ tree.Has restart.chain)
  (has : tree.Has pindex)
include faithful active has

/-- An index resumes from an ancestor of the block that was committed, on the active chain. -/
theorem findForkInGlobalIndex_suffix (vHave : List Uint256)
    (ancestors : ∀ hash ∈ vHave, ∃ ancestor : Chain,
      ancestor ≠ [] ∧ ancestor <:+ pindex ∧ hash = ancestor.getBlockHash) :
    findForkInGlobalIndex restart vHave <:+ pindex ∧
      findForkInGlobalIndex restart vHave <:+ restart.chain := by
  induction vHave with
  | nil =>
    rw [findForkInGlobalIndex]
    refine ⟨?_, getAncestor_suffix _ _⟩
    rcases active with empty | has'
    · rw [empty]
      exact nil_suffix
    · rw [show genesisOf restart.chain = [tree.genesis] from
        getAncestor_of_suffix (cons_ne_nil _ _) has'.genesis]
      exact has.genesis
  | cons hash vHave ih =>
    obtain ⟨⟨ancestor, nonempty, suffix, same⟩, later⟩ := forall_mem_cons.mp ancestors
    have rest := ih later
    rw [findForkInGlobalIndex, same]
    rcases faithful ancestor nonempty suffix with unknown | known
    · rw [unknown]
      exact rest
    rw [known]
    dsimp only
    split
    next inside =>
      exact ⟨suffix, (contains_iff nonempty).mp inside⟩
    · split_ifs with below
      · have lower : restart.chain <:+ ancestor := by
          rw [← below]
          exact getAncestor_suffix _ _
        exact ⟨lower.trans suffix, suffix_refl _⟩
      · exact rest

theorem initBest_suffix :
    initBest restart (some (getLocator pindex)) <:+ pindex ∧
      initBest restart (some (getLocator pindex)) <:+ restart.chain := by
  rw [initBest]
  split
  · exact ⟨nil_suffix, nil_suffix⟩
  · exact findForkInGlobalIndex_suffix faithful active has _ fun _ member => mem_locatorFrom member

end

theorem initBest_eq (nonempty : pindex ≠ [])
    (known : restart.lookupBlockIndex pindex.getBlockHash = some pindex)
    (inside : pindex <:+ restart.chain) :
    initBest restart (some (getLocator pindex)) = pindex := by
  obtain ⟨index, pprev, rfl⟩ := exists_cons_of_ne_nil nonempty
  obtain ⟨rest, locator⟩ := getLocator_cons index pprev
  rw [initBest, locator, if_neg (cons_ne_nil _ _), findForkInGlobalIndex,
    show restart.lookupBlockIndex index.phashBlock = some (index :: pprev) from known]
  exact if_pos ((contains_iff nonempty).mpr inside)

def Restart.HasData (restart : Restart) : Prop :=
  ∀ ancestor : Chain, ancestor ≠ [] → ancestor <:+ restart.chain → restart.haveData ancestor = true

theorem getFirstStoredBlock_eq {haveData : Chain → Bool}
    (data : ∀ ancestor : Chain, ancestor ≠ [] → ancestor <:+ pindex → haveData ancestor = true) :
    getFirstStoredBlock haveData pindex = genesisOf pindex := by
  induction pindex with
  | nil => rfl
  | cons index pprev ih =>
    have lower := ih fun ancestor nonempty suffix =>
      data ancestor nonempty (suffix.trans (suffix_cons _ _))
    rw [getFirstStoredBlock]
    by_cases first : pprev = []
    · rw [if_neg (by simp [first]), first]
      rfl
    rw [if_pos ⟨first, data pprev first (suffix_cons _ _)⟩, lower]
    have genesis : genesisOf pprev <:+ pprev := getAncestor_suffix _ _
    have low := nHeight_nonneg first
    have height : nHeight (genesisOf pprev) = 0 := by
      rw [genesisOf, getAncestor, if_neg (by omega)]
      simp only [nHeight, length_drop] at low ⊢
      omega
    have nonempty : genesisOf pprev ≠ [] := by
      intro none
      rw [none] at height
      cases height
    rw [← getAncestor_of_suffix nonempty (genesis.trans (suffix_cons index pprev)), height]
    rfl

theorem dataDownTo_eq {haveData : Chain → Bool} {best : Chain} (nonempty : best ≠ [])
    (data : ∀ ancestor : Chain, ancestor ≠ [] → ancestor <:+ pindex → haveData ancestor = true)
    (inside : best <:+ pindex) : dataDownTo haveData best pindex = true := by
  induction pindex with
  | nil => exact absurd (suffix_nil.mp inside) nonempty
  | cons index pprev ih =>
    rw [dataDownTo, data _ (cons_ne_nil _ _) (suffix_refl _)]
    rcases suffix_cons_iff.mp inside with whole | below
    · simp [whole]
    · simp [ih (fun ancestor some suffix => data ancestor some
        (suffix.trans (suffix_cons _ _))) below]

theorem baseInit_done {locator : Option (List Uint256)} (data : restart.HasData)
    (inside : initBest restart locator <:+ restart.chain) :
    (baseInit restart locator).1 = true := by
  rw [baseInit]
  by_cases none : initBest restart locator = []
  · simp [pruneViolation, none, getFirstStoredBlock_eq data]
  · simp [pruneViolation, none, (contains_iff none).mpr inside, dataDownTo_eq none data inside]

namespace Journal

def fresh : Journal := ⟨fun _ => none, [], [], none⟩

variable (j : Journal)

def locator : Option (List Uint256) :=
  j.committed.map fun commit => getLocator commit.best

def WrittenCommit : Prop :=
  ∀ commit, j.committed = some commit → commit.reason = .periodic →
    j.records commit.best.nHeight = some commit.best

def Settled : Prop :=
  ∀ commit, j.committed = some commit → commit.reason ≠ .periodic

theorem Settled.writtenCommit {j : Journal} (settled : j.Settled) : j.WrittenCommit :=
  fun commit made periodic => absurd periodic (settled commit made)

def resume (restart : Restart) : Journal :=
  { j with position := initBest restart j.locator, latched := [] }

end Journal

structure Restart.Valid (tree : BlockTree) (restart : Restart) (j : Journal) : Prop where
  active : restart.chain = [] ∨ tree.Has restart.chain
  faithful : ∀ commit, j.committed = some commit → restart.Faithful commit.best

def Restart.Continues (restart : Restart) (j : Journal) : Prop :=
  ∀ commit, j.committed = some commit → commit.best <:+ restart.chain ∧
    restart.lookupBlockIndex commit.best.getBlockHash = some commit.best

theorem Restart.valid_of_known {j : Journal} (sound : j.Sound tree) (active : tree.Has restart.chain)
    (known : ∀ pindex, tree.Has pindex →
      restart.lookupBlockIndex pindex.getBlockHash = some pindex) : restart.Valid tree j := by
  refine ⟨.inr active, ?_⟩
  intro commit made ancestor nonempty suffix
  exact .inr (known ancestor ((sound.committed commit made).1.ancestor suffix nonempty))

def sessionOps (restart : Restart) (j : Journal) (schedule : List Action) (stop : Nat) : List Op :=
  (runSchedule schedule (started restart.chain (j.resume restart).position)).1.take stop

/-- Sessions one after the other. Each is stopped when the block of the last commit is written, and
the next one continues on a chain with that block. -/
inductive Life (tree : BlockTree) : Journal → Prop
  | fresh : Life tree .fresh
  | session {j : Journal} (restart : Restart) (schedule : List Action) (stop : Nat)
      (before : Life tree j) (written : j.WrittenCommit) (valid : restart.Valid tree j)
      (continues : restart.Continues j)
      (allowed : Along (Allowed tree) schedule
        (started restart.chain (j.resume restart).position)) :
      Life tree ((j.resume restart).recordAll (sessionOps restart j schedule stop))

variable {j : Journal}

theorem Journal.Sound.current_best (sound : j.Sound tree) (written : j.WrittenCommit)
    {commit : Commit} (made : j.committed = some commit) : j.Current commit.best := by
  obtain ⟨_, current⟩ := sound.committed commit made
  split at current
  next periodic =>
    exact current.child (written commit made periodic)
  · exact current

theorem Journal.Sound.current_initBest (sound : j.Sound tree) (written : j.WrittenCommit)
    (valid : restart.Valid tree j) : j.Current (initBest restart j.locator) := by
  rw [Journal.locator]
  cases made : j.committed with
  | none =>
    intro ancestor nonempty suffix
    exact absurd (suffix_nil.mp suffix) nonempty
  | some commit =>
    have has := (sound.committed commit made).1
    exact (sound.current_best written made).ancestor
      (initBest_suffix (valid.faithful commit made) valid.active has).1

theorem Journal.Sound.initBest_active (sound : j.Sound tree) (valid : restart.Valid tree j) :
    initBest restart j.locator <:+ restart.chain := by
  rw [Journal.locator]
  cases made : j.committed with
  | none => exact nil_suffix
  | some commit =>
    exact (initBest_suffix (valid.faithful commit made) valid.active
      (sound.committed commit made).1).2

theorem Journal.Sound.resume (sound : j.Sound tree) (written : j.WrittenCommit)
    (valid : restart.Valid tree j) : (j.resume restart).Sound tree :=
  ⟨sound.current_initBest written valid, sound.committed⟩

theorem Journal.Sound.safe_resume (sound : j.Sound tree) (written : j.WrittenCommit)
    (valid : restart.Valid tree j) (continues : restart.Continues j) :
    Safe tree (started restart.chain (j.resume restart).position) (j.resume restart) := by
  apply safe_started valid.active _ (sound.resume written valid)
  · intro commit made
    have has := (sound.committed commit made).1
    obtain ⟨inside, known⟩ := continues commit made
    have best : initBest restart j.locator = commit.best := by
      rw [Journal.locator, show j.committed = some commit from made]
      exact initBest_eq has.nonempty known inside
    rw [show (j.resume restart).position = commit.best from best]
  · exact sound.initBest_active valid

theorem Life.sound (life : Life tree j) : j.Sound tree := by
  induction life with
  | fresh =>
    refine ⟨?_, fun _ made => by cases made⟩
    intro ancestor nonempty suffix
    exact absurd (suffix_nil.mp suffix) nonempty
  | session restart schedule stop _ written valid continues allowed ih =>
    have sound := ih.resume written valid
    have fits := (ih.safe_resume written valid continues).run_fits sound schedule allowed
    exact sound.recordAll (fits.take stop)

def quietCommit (action : Action) (s : BaseState) : Bool :=
  action ≠ .deliver || s.sync ≠ .caughtUp && s.sync ≠ .committing

def Journal.LatchedAll : Journal → List Op → Prop
  | _, [] => True
  | j, op :: ops =>
    (∀ best, op = .commit .caughtUp best → j.latched = best) ∧ LatchedAll (j.record op) ops

theorem Journal.LatchedAll.append {ops' : List Op} (first : j.LatchedAll ops)
    (second : (j.recordAll ops).LatchedAll ops') : j.LatchedAll (ops ++ ops') := by
  induction ops generalizing j with
  | nil => exact second
  | cons op ops ih => exact ⟨first.1, ih first.2 second⟩

theorem Journal.LatchedAll.take (latched : j.LatchedAll ops) (n : Nat) :
    j.LatchedAll (ops.take n) := by
  induction ops generalizing j n with
  | nil => simpa using latched
  | cons op ops ih =>
    cases n with
    | zero => trivial
    | succ n => exact ⟨latched.1, ih latched.2 n⟩

def Journal.Aligned (j : Journal) : Prop :=
  ∀ commit, j.committed = some commit → commit.reason ≠ .periodic → commit.running = commit.best

theorem Journal.Aligned.recordAll (aligned : j.Aligned) (fits : j.FitsAll tree ops)
    (latched : j.LatchedAll ops) : (j.recordAll ops).Aligned := by
  induction ops generalizing j with
  | nil => exact aligned
  | cons op ops ih =>
    apply ih _ fits.2 latched.2
    cases op with
    | writeBlock pindex | rewind currentTip newTip | latch => exact aligned
    | commit reason best =>
      intro commit made other
      cases made
      have place := fits.1.2
      cases reason with
      | periodic => exact absurd rfl other
      | caughtUp => exact latched.1 best rfl
      | interrupt | rewind | flushed => exact Eq.symm place

def Alone (s : BaseState) (j : Journal) : Prop :=
  (s.sync = .caughtUp ∨ s.sync = .committing → s.callback = .idle) ∧
    (s.sync = .committing → j.latched = s.best)

variable {s : BaseState}

theorem alone_started (chain best : Chain) (j : Journal) : Alone (started chain best) j := by
  rw [started, Alone]
  by_cases whole : best = chain
  · simp [whole]
  · simp [whole]

theorem latchedAll_commit {reason : Reason} (best : Chain)
    (taken : reason = .caughtUp → j.latched = best) : j.LatchedAll (commit reason best) := by
  rw [commit]
  split
  · trivial
  · refine ⟨?_, trivial⟩
    intro other same
    cases same
    exact taken rfl

/-- All commits of an outcome are latched, and `after` holds where it goes on. -/
structure Journal.Latches (j : Journal) (outcome : Outcome) (after : BaseState → Prop) : Prop where
  latched : j.LatchedAll outcome.1
  goesOn : ∀ s', outcome.2 = .ok s' → after s'

namespace Journal.Latches

variable {after : BaseState → Prop}

protected theorem ok (latched : j.LatchedAll ops) (holds : after s) :
    j.Latches (ops, .ok s) after := by
  refine ⟨latched, ?_⟩
  rintro s' ⟨⟩
  exact holds

protected theorem error {failure : Failure} : j.Latches ([], .error failure) after :=
  ⟨trivial, nofun⟩

protected theorem map {outcome : Outcome} (latches : j.Latches outcome after)
    {after' : BaseState → Prop} {f : BaseState → BaseState} (holds : ∀ s, after s → after' (f s)) :
    j.Latches (outcome.1, outcome.2.map f) after' := by
  obtain ⟨ops, _ | s'⟩ := outcome
  · exact ⟨latches.latched, nofun⟩
  · exact .ok latches.latched (holds s' (latches.goesOn s' rfl))

end Journal.Latches

theorem baseRewind_latches (j : Journal) (currentTip newTip : Chain) (s : BaseState) :
    j.Latches (baseRewind currentTip newTip s) fun s' =>
      s'.sync = s.sync ∧ s'.callback = s.callback := by
  rw [baseRewind]
  split
  · exact .error
  · split
    · exact .error
    · split
      · exact .error
      · exact .ok (latchedAll_commit newTip (by simp)) ⟨rfl, rfl⟩

theorem blockConnected_latches (pindex : Chain) (s : BaseState) :
    j.Latches (blockConnected pindex s) fun s' => s'.sync = s.sync := by
  rw [blockConnected]
  split
  · exact .ok trivial rfl
  split
  · split
    · exact .error
    · exact .ok trivial rfl
  · split
    · exact .ok trivial rfl
    · split
      · exact .ok trivial rfl
      · exact .ok ⟨by simp, trivial⟩ rfl

theorem chainStateFlushed_latches (locatorTip : Chain) (s : BaseState) :
    j.Latches (chainStateFlushed locatorTip s) fun s' => s'.sync = s.sync := by
  rw [chainStateFlushed]
  split
  · exact .ok trivial rfl
  · split
    · exact .error
    · split
      · exact .ok trivial rfl
      · exact .ok (latchedAll_commit s.best (by simp)) rfl

theorem deliverStep_latches (j : Journal) (s : BaseState) :
    j.Latches (deliverStep s) fun s' => s'.sync = s.sync := by
  cases callback : s.callback with
  | idle =>
    cases head : s.queue with
    | nil =>
      rw [deliverStep_nothing callback head]
      exact .ok trivial rfl
    | cons notification queue =>
      cases notification with
      | blockConnected pindex =>
        rw [deliverStep_blockConnected callback head]
        exact blockConnected_latches pindex { s with queue }
      | chainStateFlushed locatorTip =>
        rw [deliverStep_chainStateFlushed callback head]
        exact chainStateFlushed_latches locatorTip { s with queue }
  | rewinding currentTip pindex =>
    rw [deliverStep, callback]
    exact (baseRewind_latches j currentTip pindex.pprev s).map fun _ same => same.1
  | connecting pindex =>
    rw [deliverStep, callback]
    exact .ok ⟨by simp, trivial⟩ rfl
  | written pindex =>
    rw [deliverStep, callback]
    exact .ok trivial rfl

theorem advance_latches (j : Journal) (pindex : Chain) (s : BaseState) (idle : s.callback = .idle) :
    j.Latches (advance pindex s) fun s' => s'.sync ≠ .committing ∧ s'.callback = .idle := by
  rw [advance]
  split
  · exact .error
  · exact .ok trivial ⟨by simp, idle⟩
  · split
    · exact .ok trivial ⟨by simp, idle⟩
    next index pprev _ _ =>
      have rewound := baseRewind_latches (j.record (.rewind pindex pprev)) pindex pprev s
      refine ⟨⟨by simp, rewound.latched⟩, (rewound.map ?_).goesOn⟩
      exact fun _ same => ⟨by simp, same.2.trans idle⟩

theorem Alone.sync (alone : Alone s j) (safe : Safe tree s j) (interrupt due : Bool) :
    j.Latches (syncStep interrupt due s) fun s' =>
      Alone s' (j.recordAll (syncStep interrupt due s).1) := by
  obtain ⟨thread, sync⟩ : ∃ thread, s.sync = thread := ⟨_, rfl⟩
  rw [syncStep, sync]
  cases thread with
  | check pindex =>
    cases interrupt with
    | true | false => exact .ok trivial ⟨by simp, by simp⟩
  | advance pindex =>
    have idle : s.callback = .idle := by
      cases safe with
      | syncing _ callback _ _ _ => exact callback
      | following _ ended _ _ _ _ _ =>
        rcases ended with other | other | other <;> rw [sync] at other <;> cases other
    obtain ⟨latched, after⟩ := advance_latches j pindex s idle
    refine ⟨latched, fun s' same => ?_⟩
    obtain ⟨other, idle'⟩ := after s' same
    exact ⟨fun _ => idle', fun committing => absurd committing other⟩
  | publish pindex =>
    cases due with
    | true => exact .ok (latchedAll_commit pindex (by simp)) ⟨by simp, by simp⟩
    | false => exact .ok trivial ⟨by simp, by simp⟩
  | write pindex => exact .ok ⟨by simp, trivial⟩ ⟨by simp, by simp⟩
  | interrupted => exact .ok (latchedAll_commit s.best (by simp)) ⟨by simp, by simp⟩
  | caughtUp =>
    have idle := alone.1 (.inl sync)
    have place : j.position = s.best := by
      cases safe with
      | syncing _ _ _ _ position =>
        rw [Position, sync] at position
        exact position.elim
      | following _ _ _ follow _ _ _ =>
        rw [WillFollow, idle] at follow
        exact follow.1
    exact .ok ⟨by simp, trivial⟩ ⟨fun _ => idle, fun _ => place⟩
  | committing => exact .ok (latchedAll_commit s.best fun _ => alone.2 sync) ⟨by simp, by simp⟩
  | ended => exact .ok trivial alone

theorem Alone.step (alone : Alone s j) (safe : Safe tree s j) {action : Action}
    (quiet : quietCommit action s = true) :
    j.Latches (Index.step action s) fun s' =>
      Alone s' (j.recordAll (Index.step action s).1) := by
  cases action with
  | activate newTip | flush => exact .ok trivial alone
  | sync interrupt due => exact alone.sync safe interrupt due
  | deliver =>
    have elsewhere : s.sync ≠ .caughtUp ∧ s.sync ≠ .committing := by
      simpa [quietCommit] using quiet
    obtain ⟨latched, unchanged⟩ := deliverStep_latches j s
    refine ⟨latched, ?_⟩
    intro s' same
    rw [Alone, unchanged s' same]
    exact ⟨fun inside => (inside.elim elsewhere.1 elsewhere.2).elim,
      fun inside => absurd inside elsewhere.2⟩

theorem Alone.run (alone : Alone s j) (safe : Safe tree s j) (sound : j.Sound tree)
    (schedule : List Action) (allowed : Along (Allowed tree) schedule s)
    (quiet : Along (fun action s => quietCommit action s = true) schedule s) :
    j.LatchedAll (runSchedule schedule s).1 := by
  induction schedule generalizing s j with
  | nil => trivial
  | cons action schedule ih =>
    obtain ⟨latched, after⟩ := alone.step safe quiet.1
    rcases safe.step sound allowed.1 with ⟨ops, s', taken, fits, safe'⟩ | ⟨_, ops, taken, fits⟩
    · have later := allowed.2
      have later' := quiet.2
      rw [taken] at later later' latched after
      rw [runSchedule_proceeds taken]
      exact latched.append (ih (after s' rfl) safe' (sound.recordAll fits) later later')
    · rw [taken] at latched
      rw [runSchedule, taken]
      exact latched

end Qogecoin.Index
