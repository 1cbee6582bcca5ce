import Qogecoin.Script.LockRecords
import Qogecoin.Validation.CachedConnect

/-! Lock times on the chain. An opcode is checked against the lock time or the sequence number of
its transaction, and these against the block by two other checks, one of `ContextualCheckBlock` and
one of `ConnectBlock`; together they hold the block to the operand of the opcode. -/
namespace Qogecoin.Validation

open Codec Commands Coins Consensus Script List Program Result View CTxIn Nat

/-- What a lock time that was executed says about the block and the height of the coin. -/
def LockHolds (tx : CTransaction) (pindex : Chain) (nCoinHeight : Int) : LockRecord → Prop
  | .lockTime n =>
    (n < lockTimeThreshold → n < pindex.nHeight) ∧
      (lockTimeThreshold ≤ n → n < pindex.pprev.getMedianTimePast)
  | .sequence n =>
    let value := n % 2 ^ 16
    tx.nVersion.toUInt32 ≥ 2 ∧
      -- the flag for a lock by time
      if n / 2 ^ 22 % 2 = 1 then
        (pindex.getAncestor (max (nCoinHeight - 1) 0)).getMedianTimePast + 512 * value ≤
          pindex.pprev.getMedianTimePast
      else nCoinHeight + value ≤ pindex.nHeight

variable {tx : CTransaction} {pindex : Chain} {nCoinHeight : Int} {txin : CTxIn}

theorem lockTime_holds {n : Int} (parent : pindex.pprev ≠ [])
    (final : isFinalTx tx pindex.nHeight pindex.pprev.getMedianTimePast = true)
    (input : txin ∈ tx.vin) (unfinished : txin.nSequence ≠ sequenceFinal)
    (sameKind : (tx.nLockTime.toNat < lockTimeThreshold ∧ n < lockTimeThreshold) ∨
      (tx.nLockTime.toNat ≥ lockTimeThreshold ∧ n ≥ lockTimeThreshold))
    (reached : n ≤ tx.nLockTime.toNat) : LockHolds tx pindex nCoinHeight (.lockTime n) := by
  have height := Chain.nHeight_pos parent
  have positive : 0 < lockTimeThreshold := by decide
  simp only [isFinalTx] at final
  simp only [LockHolds]
  generalize lockTimeThreshold = limit at positive final sameKind ⊢
  split at final
  next zero =>
    rw [zero] at sameKind reached
    simp only [UInt32.toNat_zero] at sameKind reached
    omega
  · by_cases early : (tx.nLockTime.toNat : Int) <
        if (tx.nLockTime.toNat : Int) < limit then pindex.nHeight
        else pindex.pprev.getMedianTimePast
    · split at early <;> omega
    · rw [if_neg early, all_eq_true] at final
      exact absurd (by simpa using final txin input) unfinished

theorem masked_eq (m : Nat) :
    m &&& (CTxIn.sequenceLockTimeTypeFlag ||| CTxIn.sequenceLockTimeMask).toNat =
      2 ^ 22 * (m / 2 ^ 22 % 2) + m % 2 ^ 16 := by
  have mask : (CTxIn.sequenceLockTimeTypeFlag ||| CTxIn.sequenceLockTimeMask).toNat =
      2 ^ 22 ||| (2 ^ 16 - 1) := by decide
  have bit : (m.testBit 22).toNat = m / 2 ^ 22 % 2 := Nat.toNat_testBit m 22
  have small : m % 2 ^ 16 < 2 ^ 22 := by omega
  rw [mask, Nat.and_or_distrib_left, Nat.and_two_pow, Nat.and_two_pow_sub_one_eq_mod, bit,
    Nat.two_pow_add_eq_or_of_lt small, Nat.mul_comm]

theorem sequence_mask (nSequence : UInt32) :
    ((nSequence &&& sequenceLockTimeMask).toNat : Int) = nSequence.toNat % 2 ^ 16 := by
  have mask : sequenceLockTimeMask.toNat = 2 ^ 16 - 1 := by decide
  rw [UInt32.toNat_and, mask, and_two_pow_sub_one_eq_mod]
  rfl

theorem sequence_type (nSequence : UInt32) :
    nSequence &&& sequenceLockTimeTypeFlag ≠ 0 ↔ nSequence.toNat / 2 ^ 22 % 2 = 1 := by
  have flag : sequenceLockTimeTypeFlag.toNat = 2 ^ 22 := by decide
  have bit : (nSequence.toNat.testBit 22).toNat = nSequence.toNat / 2 ^ 22 % 2 :=
    toNat_testBit _ 22
  rw [ne_eq, ← UInt32.toNat_inj, UInt32.toNat_and, flag, and_two_pow, bit, UInt32.toNat_zero]
  omega

def LockedBy (block : Chain) (lock : LockPair) (txin : CTxIn) (nCoinHeight : Int) : Prop :=
  let value : Int := (txin.nSequence &&& sequenceLockTimeMask).toNat
  if txin.nSequence &&& sequenceLockTimeTypeFlag ≠ 0 then
    (block.getAncestor (max (nCoinHeight - 1) 0)).getMedianTimePast + value * 2 ^ 9 - 1 ≤
      lock.nMinTime
  else nCoinHeight + value - 1 ≤ lock.nMinHeight

def RaisedTo (lock later : LockPair) : Prop :=
  lock.nMinHeight ≤ later.nMinHeight ∧ lock.nMinTime ≤ later.nMinTime

variable {block : Chain} {lock : LockPair}

theorem LockedBy.mono {later : LockPair} (locked : LockedBy block lock txin nCoinHeight)
    (grown : RaisedTo lock later) :
    LockedBy block later txin nCoinHeight := by
  unfold LockedBy at locked ⊢
  obtain ⟨heights, times⟩ := grown
  split at locked
  next byTime =>
    rw [if_pos byTime]
    omega
  next byHeight =>
    rw [if_neg byHeight]
    omega

/-- The loop only raises the locks, and takes every input into account that has one. -/
theorem sequenceLockLoop_locks {ε : Type} {vin : List CTxIn} {later : LockPair}
    {prevHeights prevHeights' : List Int}
    (ran : (sequenceLockLoop block lock vin prevHeights : Result Crash ε _) =
      .returned (later, prevHeights')) :
    RaisedTo lock later ∧ ∀ (j : Nat) txin nCoinHeight, vin[j]? = some txin →
      prevHeights[j]? = some nCoinHeight →
      txin.nSequence &&& sequenceLockTimeDisableFlag = 0 →
      LockedBy block later txin nCoinHeight := by
  induction vin generalizing lock prevHeights prevHeights' with
  | nil =>
    cases ran
    exact ⟨⟨le_refl _, le_refl _⟩, fun _ _ _ missing => by simp at missing⟩
  | cons first vin ih =>
    cases prevHeights with
    | nil =>
      cases ran
      exact ⟨⟨le_refl _, le_refl _⟩, fun _ _ _ _ missing => by simp at missing⟩
    | cons height prevHeights =>
      -- the locks after the first input, from which the rest of the loop starts
      have step : ∃ next heights, (sequenceLockLoop block next vin prevHeights :
          Result Crash ε _) = .returned (later, heights) ∧ RaisedTo lock next ∧
          (first.nSequence &&& sequenceLockTimeDisableFlag = 0 →
            LockedBy block next first height) := by
        simp only [sequenceLockLoop] at ran
        split at ran
        next disabled =>
          obtain ⟨⟨next, heights⟩, rest, last⟩ := bind_eq_returned.mp ran
          cases last
          exact ⟨lock, heights, rest, ⟨le_refl _, le_refl _⟩, fun enabled => absurd enabled disabled⟩
        split at ran
        next byTime =>
          cases found : block.getAncestor (max (height - 1) 0) with
          | nil =>
            rw [found] at ran
            cases ran
          | cons ancestor below =>
            rw [found] at ran
            obtain ⟨next, raised, more⟩ := bind_eq_returned.mp ran
            obtain ⟨⟨_, heights⟩, rest, last⟩ := bind_eq_returned.mp more
            cases raised
            cases last
            refine ⟨_, heights, rest, ⟨le_refl _, le_max_left _ _⟩, fun _ => ?_⟩
            simp only [LockedBy, if_pos byTime, found]
            exact le_max_right _ _
        next byHeight =>
          obtain ⟨next, raised, more⟩ := bind_eq_returned.mp ran
          obtain ⟨⟨_, heights⟩, rest, last⟩ := bind_eq_returned.mp more
          cases raised
          cases last
          refine ⟨_, heights, rest, ⟨le_max_left _ _, le_refl _⟩, fun _ => ?_⟩
          simp only [LockedBy, if_neg byHeight]
          exact le_max_right _ _
      obtain ⟨next, heights, rest, grown, own⟩ := step
      obtain ⟨more, others⟩ := ih rest
      refine ⟨⟨grown.1.trans more.1, grown.2.trans more.2⟩, ?_⟩
      intro j txin nCoinHeight input coin enabled
      cases j with
      | zero =>
        cases input
        cases coin
        exact (own enabled).mono more
      | succ j => exact others j txin nCoinHeight input coin enabled

theorem sequenceLocks_locked {ε : Type} {prevHeights : List Int}
    (ran : (sequenceLocks tx true prevHeights block : Result Crash ε Bool) = .returned true)
    (version : tx.nVersion.toUInt32 ≥ 2) {j : Nat} (input : tx.vin[j]? = some txin)
    (coin : prevHeights[j]? = some nCoinHeight)
    (enabled : txin.nSequence &&& sequenceLockTimeDisableFlag = 0) :
    ∃ lock, LockedBy block lock txin nCoinHeight ∧ lock.nMinHeight < block.nHeight ∧
      lock.nMinTime < block.pprev.getMedianTimePast := by
  obtain ⟨⟨lock, heights⟩, calculated, evaluated⟩ := bind_eq_returned.mp ran
  obtain ⟨_, _, looped⟩ := bind_eq_returned.mp calculated
  obtain ⟨_, _, passed⟩ := bind_eq_returned.mp evaluated
  rw [if_pos ⟨version, rfl⟩] at looped
  have open' : (!(decide (lock.nMinHeight ≥ block.nHeight) ||
      decide (lock.nMinTime ≥ block.pprev.getMedianTimePast))) = true := returned.inj passed
  simp only [Bool.not_eq_true', Bool.or_eq_false_iff, decide_eq_false_iff_not] at open'
  exact ⟨lock, (sequenceLockLoop_locks looped).2 j txin nCoinHeight input coin enabled,
    by omega, by omega⟩

/-- The operand of the opcode against the sequence number, and that against the block. -/
theorem sequence_holds {n : Int} (version : tx.nVersion.toUInt32 ≥ 2)
    (locked : LockedBy pindex lock txin nCoinHeight) (height : lock.nMinHeight < pindex.nHeight)
    (time : lock.nMinTime < pindex.pprev.getMedianTimePast)
    (sameKind : txin.nSequence.toNat / 2 ^ 22 % 2 = n / 2 ^ 22 % 2)
    (reached : n % 2 ^ 16 ≤ txin.nSequence.toNat % 2 ^ 16) :
    LockHolds tx pindex nCoinHeight (.sequence n) := by
  unfold LockedBy at locked
  simp only [sequence_mask] at locked
  refine ⟨version, ?_⟩
  by_cases byTime : n / 2 ^ 22 % 2 = 1
  · rw [if_pos byTime]
    rw [if_pos ((sequence_type _).mpr (by omega))] at locked
    omega
  · rw [if_neg byTime]
    rw [if_neg (fun flagged => byTime (by have := (sequence_type _).mp flagged; omega))] at locked
    omega

section

variable {ε : Type} {start view view' : View}

theorem accessCoin_run {o : COutPoint} {coin : Coin} (same : start.SameReads view)
    (ran : (accessCoin o : CoinsM ε Coin).run handle view = .returned (coin, view')) :
    coin = (start.accessCoin o).1 ∧ start.SameReads view' := by
  cases ran
  exact ⟨same o, same.fetch o⟩

variable {heights : List Int} {acc final : Connecting} {before after : List CTransaction}
  {check : CScriptCheck Unit}

theorem prevHeights_run {vin : List CTxIn} (same : start.SameReads view)
    (ran : (prevHeights vin).run handle view = .returned (heights, view')) :
    heights = vin.map fun txin => ((start.accessCoin txin.prevout).1.nHeight.toNat : Int) := by
  induction vin generalizing view heights with
  | nil =>
    cases ran
    rfl
  | cons txin vin ih =>
    obtain ⟨coin, next, read, more⟩ := run_bind_eq_returned.mp ran
    obtain ⟨rest, last, others, final⟩ := run_bind_eq_returned.mp more
    obtain ⟨rfl, left⟩ := accessCoin_run same read
    cases final
    rw [map_cons, ih left others]

theorem connectInputs_locks {params : Params} {nFees nFees' : Int64}
    (spending : tx.isCoinBase = false)
    (ran : (connectInputs params pindex nFees tx).run handle view = .returned (nFees', view')) :
    sequenceLocks tx (params.buriedActiveAt pindex .csv)
        (tx.vin.map fun txin => ((view.accessCoin txin.prevout).1.nHeight.toNat : Int)) pindex =
      (.returned true : Result Crash BlockInvalid Bool) := by
  unfold connectInputs at ran
  rw [if_neg (by simp [spending])] at ran
  obtain ⟨txfee, v1, checked, ran1⟩ := run_bind_eq_returned.mp ran
  obtain ⟨_, added, ran2⟩ := run_lift_bind_eq_returned.mp ran1
  obtain ⟨_, inRange, ran3⟩ := run_lift_bind_eq_returned.mp ran2
  obtain ⟨heights, v4, read, ran4⟩ := run_bind_eq_returned.mp ran3
  obtain ⟨final, lockPair, ran5⟩ := run_lift_bind_eq_returned.mp ran4
  obtain ⟨_, met, _⟩ := run_lift_bind_eq_returned.mp ran5
  rw [rejectIf_eq_returned, Bool.not_eq_false] at met
  have same : view.SameReads v1 := by
    have start : view.SameReads view := fun _ => rfl
    exact start.run (checkTxInputs_reads tx _).adapt checked
  rw [← prevHeights_run same read, lockPair, met]

theorem lockHolds_of_meets {j : Nat} (parent : pindex.pprev ≠ [])
    (final : isFinalTx tx pindex.nHeight pindex.pprev.getMedianTimePast = true)
    (locks : (sequenceLocks tx true heights pindex : Result Crash BlockInvalid Bool) = .returned
      true)
    (spends : check.txTo = tx) (index : check.nIn.toNat = j) (input : tx.vin[j]? = some txin)
    (coin : heights[j]? = some nCoinHeight) {entry : LockRecord} (met : check.meets entry = true) :
    LockHolds tx pindex nCoinHeight entry := by
  cases entry with
  | lockTime n =>
    simp only [CScriptCheck.meets, LockRecord.met, GenericTransactionSignatureChecker.checkLockTime,
      CScriptCheck.generic, spends, index, input, Bool.if_false_left, Bool.and_eq_true,
      Bool.not_eq_true', decide_eq_false_iff_not, not_not, not_lt] at met
    obtain ⟨sameKind, reached, unfinished⟩ := met
    exact lockTime_holds parent final (mem_of_getElem? input) (by simpa using unfinished) sameKind
      reached
  | sequence n =>
    simp only [CScriptCheck.meets, LockRecord.met, GenericTransactionSignatureChecker.checkSequence,
      CScriptCheck.generic, spends, index, input, masked_eq, Bool.if_false_left, Bool.and_eq_true,
      Bool.not_eq_true', decide_eq_false_iff_not, not_not, UInt32.not_lt] at met
    obtain ⟨version, enabled, sameKind, reached⟩ := met
    have flag : CTxIn.sequenceLockTimeTypeFlag.toNat = 2 ^ 22 := by decide
    rw [flag] at sameKind
    obtain ⟨lock, locked, height, time⟩ := sequenceLocks_locked locks version input coin enabled
    exact sequence_holds version locked height time (by omega) (by omega)

variable [Crypto]

/-- The scripts of the inputs are run on this data: the coins' outputs as the view has them. -/
def CoinsData (view : View) (tx : CTransaction) (txdata : PrecomputedTransactionData) : Prop :=
  PrecomputedTransactionData.empty.init tx
    (tx.vin.map fun txin => (view.accessCoin txin.prevout).1.out) false = some txdata

def coinCheck (caches : ScriptCaches) (flags : Flags) (view : View) (tx : CTransaction) (j : Nat)
    (txin : CTxIn) (txdata : PrecomputedTransactionData) : CScriptCheck Unit :=
  scriptCheck caches (view.accessCoin txin.prevout).1.out tx j flags txdata

def ScriptsRun (env : Environment) (flags : Flags) (tx : CTransaction) : Prop :=
  env.fScriptChecks = true ∧ env.caches.execution tx.getWitnessHash flags = false

theorem precompute_coinsData {data : PrecomputedTransactionData} (same : start.SameReads view)
    (ran : (precompute tx .empty : CoinsM ε PrecomputedTransactionData).run handle view =
      .returned (data, view')) : CoinsData start tx data := by
  obtain ⟨outs, next, collected, init⟩ := precompute_empty ran
  rwa [(collectSpentOutputs_run same collected).1] at init

variable {env : Environment}

variable {flags : Flags}

theorem connectScripts_checks {vChecks : List (CScriptCheck Unit)}
    (spending : tx.isCoinBase = false) (same : start.SameReads view)
    (runs : ScriptsRun env flags tx)
    (ran : (connectScripts env flags tx).run handle view = .returned (vChecks, view')) :
    ∃ txdata, CoinsData start tx txdata ∧ ∀ (j : Nat) txin, tx.vin[j]? = some txin →
      coinCheck env.caches flags start tx j txin txdata ∈ vChecks ∨
        runCheck (coinCheck env.caches flags start tx j txin txdata) = .returned () := by
  unfold connectScripts at ran
  rw [if_neg (by simp [spending, runs.1])] at ran
  obtain ⟨⟨data, checks⟩, v1, checked, last⟩ := run_bind_eq_returned.mp ran
  rw [run_adapt, adapt_eq_returned] at checked
  cases last
  unfold checkInputScripts at checked
  rw [if_neg (by simp [spending, runs.2])] at checked
  obtain ⟨txdata, v2, filled, ran1⟩ := run_bind_eq_returned.mp checked
  obtain ⟨_, v3, asserted, ran2⟩ := run_bind_eq_returned.mp ran1
  have coinsData := precompute_coinsData same filled
  have outputs := PrecomputedTransactionData.init_spentOutputs coinsData
  have member : ∀ (j : Nat) txin, tx.vin[j]? = some txin →
      coinCheck env.caches flags start tx j txin txdata ∈ txdata.spentOutputs.mapIdx
        fun i txOut => scriptCheck env.caches txOut tx i flags txdata := by
    intro j txin input
    rw [outputs, mem_mapIdx]
    obtain ⟨inside, value⟩ := List.getElem?_eq_some_iff.mp input
    refine ⟨j, by simpa using inside, ?_⟩
    simp [coinCheck, value]
  refine ⟨txdata, coinsData, ?_⟩
  intro j txin input
  split at ran2
  · cases ran2
    exact .inl (member j txin input)
  · obtain ⟨_, all, _⟩ := run_lift_bind_eq_returned.mp ran2
    exact .inr (runChecks_returned all _ (member j txin input))

theorem connectTransactions_split {i : Nat}
    (ran : (connectTransactions env pindex flags i acc (before ++ tx :: after)).run handle view =
      .returned (final, view')) :
    ∃ acc1 mid acc2 next,
      (connectTransactions env pindex flags i acc before).run handle view =
        .returned (acc1, mid) ∧
      (connectTransaction env pindex flags (i + before.length) acc1 tx).run handle mid =
        .returned (acc2, next) ∧
      (connectTransactions env pindex flags (i + before.length + 1) acc2 after).run handle
        next = .returned (final, view') := by
  induction before generalizing i acc view with
  | nil =>
    obtain ⟨acc2, next, first, rest⟩ := run_bind_eq_returned.mp ran
    exact ⟨acc, view, acc2, next, rfl, first, rest⟩
  | cons head before ih =>
    obtain ⟨acc', next', first, rest⟩ := run_bind_eq_returned.mp ran
    obtain ⟨acc1, mid, acc2, next, reached, here, later⟩ := ih rest
    refine ⟨acc1, mid, acc2, next, ?_, ?_, ?_⟩
    · exact run_bind_eq_returned.mpr ⟨acc', next', first, reached⟩
    · rw [length_cons, show i + (before.length + 1) = i + 1 + before.length by omega]
      exact here
    · rw [length_cons, show i + (before.length + 1) + 1 = i + 1 + before.length + 1 by omega]
      exact later

theorem connectTransactions_control {i : Nat} {vtx : List CTransaction}
    (ran : (connectTransactions env pindex flags i acc vtx).run handle view = .returned (final,
      view')) :
    acc.control ⊆ final.control := by
  induction vtx generalizing i acc view with
  | nil =>
    cases ran
    exact Subset.refl _
  | cons tx vtx ih =>
    obtain ⟨acc', next, first, rest⟩ := run_bind_eq_returned.mp ran
    obtain ⟨nFees, v1, _, ran1⟩ := run_bind_eq_returned.mp first
    obtain ⟨cost, v2, _, ran2⟩ := run_bind_eq_returned.mp ran1
    obtain ⟨_, v3, _, ran3⟩ := run_bind_eq_returned.mp ran2
    obtain ⟨vChecks, v4, _, ran4⟩ := run_bind_eq_returned.mp ran3
    obtain ⟨txundo, v5, _, last⟩ := run_bind_eq_returned.mp ran4
    cases last
    exact Subset.trans (subset_append_left _ _) (ih rest)

theorem waitChecks_returned {checks : List (CScriptCheck Unit)}
    (passed : waitChecks checks = .returned ()) :
    ∀ check ∈ checks, runCheck check = .returned () := by
  induction checks with
  | nil => simp
  | cons check checks ih =>
    obtain ⟨_, first, rest⟩ := bind_eq_returned.mp passed
    rw [adapt_eq_returned] at first
    exact forall_mem_cons.mpr ⟨first, ih rest⟩

def connectUpTo (env : Environment) (block : CBlock) (pindex : Chain)
    (before : List CTransaction) : CoinsM BlockInvalid Connecting := do
  let _ ← getBestBlock
  checkBIP30 env.params pindex block
  connectTransactions env pindex (getBlockScriptFlags env.params pindex.getBlockHash pindex) 0 .start
    before

/-- What `ConnectBlock` has made sure of when it has connected a block: it has come to every
transaction with a view whose coins meet the sequence locks and, where scripts are run, pass the
scripts. -/
theorem connectBlock_checks {block : CBlock} {fJustCheck : Bool} {undo : Option CBlockUndo}
    (later : block.getHash ≠ env.params.hashGenesisBlock)
    (connects : (connectBlock env block pindex fJustCheck).run handle view = .returned (undo,
      view'))
    (place : block.vtx = before ++ tx :: after) (spending : tx.isCoinBase = false) :
    BlockWellFormed block ∧ ∃ acc mid,
      (connectUpTo env block pindex before).run handle view = .returned (acc, mid) ∧
      sequenceLocks tx (env.params.buriedActiveAt pindex .csv)
          (tx.vin.map fun txin => ((mid.accessCoin txin.prevout).1.nHeight.toNat : Int)) pindex =
        (.returned true : Result Crash BlockInvalid Bool) ∧
      let flags := getBlockScriptFlags env.params pindex.getBlockHash pindex
      (ScriptsRun env flags tx → ∀ (j : Nat) txin txdata, tx.vin[j]? = some txin →
        CoinsData mid tx txdata →
          runCheck (coinCheck env.caches flags mid tx j txin txdata) = .returned ()) := by
  obtain ⟨_, pointed, ran1⟩ := run_lift_bind_eq_returned.mp connects
  obtain ⟨_, named, ran2⟩ := run_lift_bind_eq_returned.mp ran1
  obtain ⟨_, again, ran3⟩ := run_lift_bind_eq_returned.mp ran2
  obtain ⟨best, v4, read, ran4⟩ := run_bind_eq_returned.mp ran3
  obtain ⟨_, asserted, ran5⟩ := run_lift_bind_eq_returned.mp ran4
  have formed : BlockWellFormed block := by
    rw [checkAgain, adapt_eq_returned] at again
    have sat := checkBlock_sat block env.params env.signetSolution (!fJustCheck) (!fJustCheck)
    rw [again] at sat
    exact sat
  rw [if_neg later] at ran5
  obtain ⟨_, grounded, next1⟩ := run_lift_bind_eq_returned.mp ran5
  obtain ⟨_, w2, unspent, next2⟩ := run_bind_eq_returned.mp next1
  obtain ⟨final, w3, looped, next3⟩ := run_bind_eq_returned.mp next2
  obtain ⟨_, w4, _, next4⟩ := run_bind_eq_returned.mp next3
  obtain ⟨_, awaited, _⟩ := run_lift_bind_eq_returned.mp next4
  rw [place] at looped
  obtain ⟨acc, mid, acc', next, reached, here, rest⟩ := connectTransactions_split looped
  obtain ⟨nFees, u1, inputs, step1⟩ := run_bind_eq_returned.mp here
  obtain ⟨cost, u2, counted, step2⟩ := run_bind_eq_returned.mp step1
  obtain ⟨_, fewEnough, step3⟩ := run_lift_bind_eq_returned.mp step2
  obtain ⟨vChecks, u4, scripts, step4⟩ := run_bind_eq_returned.mp step3
  obtain ⟨txundo, u5, _, last⟩ := run_bind_eq_returned.mp step4
  cases last
  have same : mid.SameReads u2 := by
    have start : mid.SameReads mid := fun _ => rfl
    exact (start.run (connectInputs_reads _ _ _ _) inputs).run (getTransactionSigOpCost_within _ _).calls
      counted
  refine ⟨formed, acc, mid, ?_, connectInputs_locks spending inputs, ?_⟩
  · exact run_bind_eq_returned.mpr ⟨best, v4, read,
      run_bind_eq_returned.mpr ⟨_, w2, unspent, reached⟩⟩
  · intro flags runs j txin txdata input data
    obtain ⟨made, data', each⟩ := connectScripts_checks spending same runs scripts
    have equal : made = txdata := Option.some.inj (data'.symm.trans data)
    subst equal
    rcases each j txin input with queued | passed
    · have member : coinCheck env.caches flags mid tx j txin made ∈ final.control :=
        connectTransactions_control rest (mem_append_right _ queued)
      exact waitChecks_returned awaited _ member
    · exact passed

/-- The scripts of an input were verified: with the block, or before with the same result. -/
def InputVerified (env : Environment) (flags : Flags) (tx : CTransaction)
    (check : CScriptCheck Unit) : Prop :=
  ScriptsRun env flags tx ∨ runCheck check = .returned ()

theorem run_of_runCheck (passed : runCheck check = .returned ()) :
    check.run .assertFail () = .ok () () := by
  unfold runCheck at passed
  cases outcome : check.run .assertFail () with
  | ok u t => rfl
  | error stop t =>
    rw [outcome] at passed
    cases stop <;> cases passed

/-- Where BIP68 and BIP113 are in force, a block that passes `ContextualCheckBlock` and
`ConnectBlock` keeps every lock time that the scripts of its inputs execute. The height of a coin is
the one in the view with which `ConnectBlock` comes to the transaction. -/
theorem executed_locks_hold {env : Environment} {block : CBlock} {pindex : Chain}
    {fJustCheck : Bool} {undo : Option CBlockUndo}
    (csv : env.params.buriedActiveAt pindex .csv = true)
    (later : block.getHash ≠ env.params.hashGenesisBlock)
    (contextual : contextualCheckBlock block env.params pindex.pprev = .returned ())
    (connects : (connectBlock env block pindex fJustCheck).run handle view =
      .returned (undo, view'))
    {before after : List CTransaction} {tx : CTransaction}
    (place : block.vtx = before ++ tx :: after) (spending : tx.isCoinBase = false) :
    ∃ acc mid, (connectUpTo env block pindex before).run handle view = .returned (acc, mid) ∧
      ∀ (j : Nat) txin txdata, tx.vin[j]? = some txin → CoinsData mid tx txdata →
        let flags := getBlockScriptFlags env.params pindex.getBlockHash pindex
        let check := coinCheck env.caches flags mid tx j txin txdata
        InputVerified env flags tx check → ∀ entry ∈ check.executedLocks .assertFail (),
          LockHolds tx pindex (mid.accessCoin txin.prevout).1.nHeight.toNat entry := by
  obtain ⟨formed, acc, mid, reached, locks, scripts⟩ :=
    connectBlock_checks later connects place spending
  have nonempty : pindex ≠ [] := by
    rintro rfl
    obtain ⟨_, _, pointed, _⟩ := run_bind_eq_returned.mp connects
    cases pointed
  have heights : pindex.pprev.nHeight + 1 = pindex.nHeight := by
    have length := length_pos_of_ne_nil nonempty
    simp only [Chain.nHeight, Chain.pprev, length_tail]
    omega
  have after' : env.params.buriedActiveAfter pindex.pprev .csv = true := by
    rw [Params.buriedActiveAfter, heights]
    exact csv
  obtain ⟨parent, finals⟩ := final_of_contextualCheckBlock after' contextual
  rw [csv] at locks
  rw [heights] at finals
  refine ⟨acc, mid, reached, ?_⟩
  intro j txin txdata input data flags check verified entry member
  have passed : runCheck check = .returned () := by
    rcases verified with runs | passed
    · exact scripts runs j txin txdata input data
    · exact passed
  have met := CScriptCheck.executedLocks_met (run_of_runCheck passed) entry member
  have inside : tx ∈ block.vtx := by simp [place]
  have few : j < 2 ^ 32 := by
    have count := (formed.transactions tx inside).count_le
    have bound := (List.getElem?_eq_some_iff.mp input).1
    omega
  have index : check.nIn.toNat = j := by
    simp only [check, coinCheck, scriptCheck, UInt32.toNat_ofNat']
    omega
  exact lockHolds_of_meets parent (finals tx inside) locks rfl index input (by simp [input]) met

end

def lockedOutPoint : COutPoint := ⟨.uint256S 7, 0⟩

def firstIndex : CBlockIndex := ⟨.uint256S 9, 4, 0, 0x207fffff⟩

/-- A coin of block 1 that is locked until after that block, by its height and by its depth. -/
def lockedBase : BaseView where
  coins o := if o = lockedOutPoint then some ⟨⟨50, [0x51, 0xb1, 0x51, 0xb2]⟩, false, 1⟩ else none
  unspent := by
    intro o coin found
    split at found
    · cases found
      decide
    · cases found
  hashBlock := firstIndex.phashBlock

def unlockingCoinbase : CTransaction where
  nVersion := 1
  vin := [⟨⟨.null, COutPoint.nullIndex⟩, [0x52, 0x51], sequenceFinal, []⟩]
  vout := [⟨10, [0x6a]⟩]
  nLockTime := 0

def unlockingSpend : CTransaction where
  nVersion := 2
  vin := [⟨lockedOutPoint, [], 1, []⟩]
  vout := [⟨30, [0x51]⟩]
  nLockTime := 1

def unlockingBlock : CBlock where
  nVersion := 4
  hashPrevBlock := firstIndex.phashBlock
  hashMerkleRoot := @CTransaction.getHash Crypto.firstBytes unlockingCoinbase
  nTime := 0
  nBits := 0x207fffff
  nNonce := 0
  vtx := [unlockingCoinbase, unlockingSpend]

def unlockingChain : Chain :=
  [⟨@CBlockHeader.getHash Crypto.firstBytes unlockingBlock.toCBlockHeader, 4, 0, 0x207fffff⟩,
    firstIndex, ⟨regTestParams.hashGenesisBlock, 1, 0, 0x207fffff⟩]

def unlockingEnvironment : Environment :=
  ⟨regTestParams, fun _ => true, ScriptCaches.empty, true, false⟩

def unlockingFlags : Flags :=
  getBlockScriptFlags regTestParams unlockingChain.getBlockHash unlockingChain

def unlockingCheck (mid : View) (txdata : PrecomputedTransactionData) : CScriptCheck Unit :=
  let _ := Crypto.firstBytes
  coinCheck unlockingEnvironment.caches unlockingFlags mid unlockingSpend 0
    ⟨lockedOutPoint, [], 1, []⟩ txdata

def unlockingLocks (mid : View) : Option (List LockRecord × Nat) :=
  let _ := Crypto.firstBytes
  (PrecomputedTransactionData.empty.init unlockingSpend
    (unlockingSpend.vin.map fun txin => (mid.accessCoin txin.prevout).1.out) false).map fun txdata =>
      ((unlockingCheck mid txdata).executedLocks .assertFail (),
        (mid.accessCoin lockedOutPoint).1.nHeight.toNat)

def executedAtSecondBlock : Option (List LockRecord × Nat) :=
  let _ := Crypto.firstBytes
  match (connectUpTo unlockingEnvironment unlockingBlock unlockingChain [unlockingCoinbase]).run
      handle (fresh lockedBase) with
  | .returned (_, mid) => unlockingLocks mid
  | _ => none

theorem executed_locks_hold_at_second_block :
    let _ := Crypto.firstBytes
    contextualCheckBlock unlockingBlock regTestParams unlockingChain.pprev = .returned () ∧
      ∃ mid, unlockingLocks mid = some ([.lockTime 1, .sequence 1], 1) ∧
        ∀ entry ∈ [LockRecord.lockTime 1, .sequence 1],
          LockHolds unlockingSpend unlockingChain 1 entry := by
  intro crypto
  have contextual : contextualCheckBlock unlockingBlock regTestParams unlockingChain.pprev =
      .returned () := by decide +kernel
  have succeeds : ((connectBlock unlockingEnvironment unlockingBlock unlockingChain false).run
      handle (fresh lockedBase)).any (fun _ => true) = true := by decide +kernel
  have executes : executedAtSecondBlock = some ([.lockTime 1, .sequence 1], 1) := by
    decide +kernel
  have csv : unlockingEnvironment.params.buriedActiveAt unlockingChain .csv = true := by
    decide +kernel
  have later : unlockingBlock.getHash ≠ regTestParams.hashGenesisBlock := by decide +kernel
  have place : unlockingBlock.vtx = [unlockingCoinbase] ++ unlockingSpend :: [] := rfl
  have runs : ScriptsRun unlockingEnvironment unlockingFlags unlockingSpend := ⟨rfl, rfl⟩
  constructor
  · exact contextual
  · obtain ⟨result, connects, _⟩ := Result.exists_of_any succeeds
    obtain ⟨acc, mid, reached, holds⟩ := executed_locks_hold csv later contextual connects
      place (by decide)
    rw [executedAtSecondBlock, reached] at executes
    have locked : unlockingLocks mid = some ([.lockTime 1, .sequence 1], 1) := executes
    refine ⟨mid, locked, ?_⟩
    intro entry member
    unfold unlockingLocks at locked
    obtain ⟨txdata, made, locks⟩ := Option.map_eq_some_iff.mp locked
    obtain ⟨executed, height⟩ := Prod.mk.inj locks
    have inside : entry ∈ (unlockingCheck mid txdata).executedLocks .assertFail () := by
      rw [executed]
      exact member
    have lock := holds 0 _ txdata rfl made (.inl runs) entry inside
    rwa [show ((mid.accessCoin lockedOutPoint).1.nHeight.toNat : Int) = 1 by omega] at lock

end Qogecoin.Validation
