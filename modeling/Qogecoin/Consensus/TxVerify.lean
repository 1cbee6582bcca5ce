import Qogecoin.Consensus.Chain
import Qogecoin.Consensus.TxCheck
import Qogecoin.Script.Interpreter

/-! The checks of a transaction against the chain it is mined in and the coins it spends. -/
namespace Qogecoin.Consensus

open Codec Commands Coins Script Program CTxIn List Result

def isFinalTx (tx : CTransaction) (nBlockHeight nBlockTime : Int) : Bool :=
  let nLockTime : Int := tx.nLockTime.toNat
  if tx.nLockTime = 0 then true
  else if nLockTime < (if nLockTime < lockTimeThreshold then nBlockHeight else nBlockTime) then true
  else tx.vin.all fun txin => txin.nSequence == sequenceFinal

/-- The last height and the last time at which a transaction is not yet final. -/
structure LockPair where
  nMinHeight : Int
  nMinTime : Int
deriving DecidableEq, Repr

/-- The loop over the inputs and the heights of the coins they spend. It returns the heights
too: that of an input without a relative lock is set to zero. -/
def sequenceLockLoop {ε : Type} (block : Chain) :
    LockPair → List CTxIn → List Int → Result Crash ε (LockPair × List Int)
  | lock, txin :: vin, nCoinHeight :: prevHeights => do
    if txin.nSequence &&& sequenceLockTimeDisableFlag ≠ 0 then
      let (lock, prevHeights) ← sequenceLockLoop block lock vin prevHeights
      pure (lock, 0 :: prevHeights)
    else
      let value : Int := (txin.nSequence &&& sequenceLockTimeMask).toNat
      let lock : LockPair ←
        if txin.nSequence &&& sequenceLockTimeTypeFlag ≠ 0 then
          match block.getAncestor (max (nCoinHeight - 1) 0) with
          | [] => .crashed .nullPointer
          | ancestor =>
            let nCoinTime := ancestor.getMedianTimePast
            pure { lock with nMinTime := max lock.nMinTime (nCoinTime + value * 2 ^ 9 - 1) }
        else pure { lock with nMinHeight := max lock.nMinHeight (nCoinHeight + value - 1) }
      let (lock, prevHeights) ← sequenceLockLoop block lock vin prevHeights
      pure (lock, nCoinHeight :: prevHeights)
  | lock, _, prevHeights => pure (lock, prevHeights)

def calculateSequenceLocks {ε : Type} (tx : CTransaction) (verifySequence : Bool)
    (prevHeights : List Int) (block : Chain) : Result Crash ε (LockPair × List Int) := do
  .assertThat (prevHeights.length = tx.vin.length) .assertion
  if tx.nVersion.toUInt32 ≥ 2 ∧ verifySequence then
    sequenceLockLoop block ⟨-1, -1⟩ tx.vin prevHeights
  else pure (⟨-1, -1⟩, prevHeights)

def evaluateSequenceLocks {ε : Type} (block : Chain) (lockPair : LockPair) :
    Result Crash ε Bool := do
  .assertThat (block.pprev ≠ []) .assertion
  pure !(lockPair.nMinHeight ≥ block.nHeight || lockPair.nMinTime ≥ block.pprev.getMedianTimePast)

def sequenceLocks {ε : Type} (tx : CTransaction) (verifySequence : Bool) (prevHeights : List Int)
    (block : Chain) : Result Crash ε Bool := do
  let (lockPair, _) ← calculateSequenceLocks tx verifySequence prevHeights block
  evaluateSequenceLocks block lockPair

def getLegacySigOpCount (tx : CTransaction) : Nat :=
  (tx.vin.map fun txin => getSigOpCount txin.scriptSig false).sum
    + (tx.vout.map fun txout => getSigOpCount txout.scriptPubKey false).sum

section

variable {ε : Type}

def accessUnspent (txin : CTxIn) : CoinsM ε Coin := do
  let coin ← accessCoin txin.prevout
  assertThat (coin.isSpent = false) .assertion
  pure coin

def p2shSigOpLoop : List CTxIn → CoinsM ε Nat
  | [] => pure 0
  | txin :: vin => do
    let coin ← accessUnspent txin
    let rest ← p2shSigOpLoop vin
    if isPayToScriptHash coin.out.scriptPubKey then
      pure (getSigOpCountP2SH coin.out.scriptPubKey txin.scriptSig + rest)
    else pure rest

variable (tx : CTransaction)

def getP2SHSigOpCount : CoinsM ε Nat :=
  if tx.isCoinBase then pure 0 else p2shSigOpLoop tx.vin

def witnessSigOpLoop (flags : Flags) : List CTxIn → CoinsM ε Nat
  | [] => pure 0
  | txin :: vin => do
    let coin ← accessUnspent txin
    match countWitnessSigOps txin.scriptSig coin.out.scriptPubKey txin.scriptWitness flags with
    | none => crash .assertion
    | some count => do
      let rest ← witnessSigOpLoop flags vin
      pure (count + rest)

def getTransactionSigOpCost (flags : Flags) : CoinsM ε Nat := do
  let legacy := getLegacySigOpCount tx * witnessScaleFactor
  if tx.isCoinBase then pure legacy
  else do
    let p2sh ← if .p2sh ∈ flags then getP2SHSigOpCount tx else pure 0
    let witness ← witnessSigOpLoop flags tx.vin
    pure (legacy + p2sh * witnessScaleFactor + witness)

def haveAll : List CTxIn → CoinsM ε Bool
  | [] => pure true
  | txin :: vin => do
    if ← haveCoin txin.prevout then haveAll vin else pure false

def haveInputs : CoinsM ε Bool :=
  if tx.isCoinBase then pure true else haveAll tx.vin

end

def coinbaseMaturity : Int := 100

def sumInputs (nSpendHeight : Int) : (nValueIn : Int64) → List CTxIn → CoinsM TxInvalid Int64
  | nValueIn, [] => pure nValueIn
  | nValueIn, txin :: vin => do
    let coin ← accessUnspent txin
    rejectIf (coin.fCoinBase ∧ nSpendHeight - coin.nHeight.toNat < coinbaseMaturity)
      ⟨.prematureSpend, "bad-txns-premature-spend-of-coinbase"⟩
    let nValueIn ← lift (addAmount nValueIn coin.out.nValue)
    rejectIf (¬MoneyRange coin.out.nValue ∨ ¬MoneyRange nValueIn)
      (.consensus "bad-txns-inputvalues-outofrange")
    sumInputs nSpendHeight nValueIn vin

def checkTxInputs (tx : CTransaction) (nSpendHeight : Int) : CoinsM TxInvalid Int64 := do
  let available ← haveInputs tx
  rejectIf (available = false) ⟨.missingInputs, "bad-txns-inputs-missingorspent"⟩
  let nValueIn ← sumInputs nSpendHeight 0 tx.vin
  let nValueOut ← lift (getValueOut tx)
  rejectIf (nValueIn < nValueOut) (.consensus "bad-txns-in-belowout")
  let txfee := nValueIn - nValueOut
  rejectIf (¬MoneyRange txfee) (.consensus "bad-txns-fee-outofrange")
  pure txfee

section

variable {ε : Type}

theorem accessUnspent_within (txin : CTxIn) :
    (accessUnspent txin : CoinsM ε Coin).Within View.Reads noOverflow := by
  refine .bind (.perform trivial) fun coin => ?_
  exact .bind (.assertThat _ nofun) fun _ => .pure _

theorem getTransactionSigOpCost_within (tx : CTransaction) (flags : Flags) :
    (getTransactionSigOpCost tx flags : CoinsM ε Nat).Within View.Reads noOverflow := by
  have p2sh : ∀ vin, (p2shSigOpLoop vin : CoinsM ε Nat).Within View.Reads noOverflow := by
    intro vin
    induction vin with
    | nil => exact .pure _
    | cons txin vin ih =>
      refine .bind (accessUnspent_within txin) fun coin => .bind ih fun rest => ?_
      split
      · exact .pure _
      · exact .pure _
  have witness : ∀ vin,
      (witnessSigOpLoop flags vin : CoinsM ε Nat).Within View.Reads noOverflow := by
    intro vin
    induction vin with
    | nil => exact .pure _
    | cons txin vin ih =>
      refine .bind (accessUnspent_within txin) fun coin => ?_
      split
      · exact .lift nofun
      · exact .bind ih fun _ => .pure _
  unfold getTransactionSigOpCost
  split
  · exact .pure _
  · split
    · refine .bind ?_ fun _ => .bind (witness _) fun _ => .pure _
      unfold getP2SHSigOpCount
      split
      · exact .pure _
      · exact p2sh _
    · exact .bind (.pure _) fun _ => .bind (witness _) fun _ => .pure _

theorem sequenceLockLoop_sat (block : Chain) (lock : LockPair) (vin : List CTxIn)
    (prevHeights : List Int) :
    (sequenceLockLoop (ε := ε) block lock vin prevHeights).Sat (fun _ => True) noOverflow := by
  induction vin generalizing lock prevHeights with
  | nil => simp [sequenceLockLoop]
  | cons txin vin ih =>
    cases prevHeights with
    | nil => simp [sequenceLockLoop]
    | cons nCoinHeight prevHeights =>
      have rest : ∀ lock height, (sequenceLockLoop (ε := ε) block lock vin prevHeights >>=
          fun out => pure (out.1, height :: out.2)).Sat (fun _ => True) noOverflow := by
        intro lock height
        rw [sat_bind]
        exact (ih lock prevHeights).imp fun _ _ => trivial
      simp only [sequenceLockLoop]
      split
      · exact rest lock 0
      · split
        · split
          · simp
          · exact rest _ nCoinHeight
        · exact rest _ nCoinHeight

theorem sequenceLocks_sat (tx : CTransaction) (verifySequence : Bool) (prevHeights : List Int)
    (block : Chain) :
    (sequenceLocks (ε := ε) tx verifySequence prevHeights block).Sat (fun _ => True)
      noOverflow := by
  have locks : (calculateSequenceLocks (ε := ε) tx verifySequence prevHeights block).Sat
      (fun _ => True) noOverflow := by
    simp only [calculateSequenceLocks, sat_bind, sat_assertThat]
    refine ⟨fun _ => by simp, fun _ => ?_⟩
    split
    · exact sequenceLockLoop_sat block _ tx.vin prevHeights
    · trivial
  simp only [sequenceLocks, evaluateSequenceLocks, sat_bind, sat_assertThat]
  refine locks.imp ?_
  exact fun _ _ => ⟨fun _ => by simp, fun _ => trivial⟩

end

def Spends (coins : FlatMap) (vin : List CTxIn) (spent : List Coin) : Prop :=
  Forall₂ (fun txin coin => coins txin.prevout = some coin) vin spent

theorem Spends.congr {coins coins' : FlatMap} {vin : List CTxIn} {spent : List Coin}
    (spends : Spends coins vin spent)
    (same : ∀ txin ∈ vin, coins' txin.prevout = coins txin.prevout) : Spends coins' vin spent := by
  induction spends with
  | nil => exact .nil
  | cons found _ ih =>
    constructor
    · rw [same _ (by simp)]
      exact found
    · exact ih fun txin member => same txin (by simp [member])

theorem Spends.present {coins : FlatMap} {vin : List CTxIn} {spent : List Coin}
    (spends : Spends coins vin spent) :
    ∀ e ∈ (vin.map prevout).zip spent, coins e.1 = some e.2 := by
  induction spends with
  | nil => simp
  | cons found _ ih =>
    intro e member
    rcases mem_cons.mp member with rfl | later
    · exact found
    · exact ih e later

def coinsValue (spent : List Coin) : Int := (spent.map fun coin => coin.out.nValue.toInt).sum

variable {known : Set COutPoint} {s : CoinsState}

theorem haveAll_wp {ε : Type} (vin : List CTxIn) (post : Bool → CoinsState → Prop)
    (ends : Ends Crash ε) (absent : post false s)
    (present : (∀ txin ∈ vin, (s.coins txin.prevout).isSome) → post true s) :
    (haveAll vin).wp (CoinsState.spec known) post ends s := by
  induction vin with
  | nil => exact present (by simp)
  | cons txin vin ih =>
    simp only [haveAll, wp_bind, wp_haveCoin]
    cases here : s.coins txin.prevout with
    | none => exact absent
    | some coin =>
      apply ih
      intro others
      apply present
      intro other member
      rcases mem_cons.mp member with rfl | later
      · simp [here]
      · exact others other later

def CoinsState.InRange (s : CoinsState) : Prop :=
  ∀ o coin, s.coins o = some coin → MoneyRange coin.out.nValue

theorem sumInputs_wp (nSpendHeight : Int) (nValueIn : Int64) (vin : List CTxIn)
    (inRange : CoinsState.InRange s) (range : MoneyRange nValueIn)
    (present : ∀ txin ∈ vin, (s.coins txin.prevout).isSome) :
    (sumInputs nSpendHeight nValueIn vin).wp (CoinsState.spec known)
      (fun total t => t = s ∧ MoneyRange total ∧ ∃ spent, Spends s.coins vin spent ∧
        total.toInt = nValueIn.toInt + coinsValue spent) noOverflow s := by
  induction vin generalizing nValueIn with
  | nil => exact ⟨rfl, range, [], .nil, by simp [coinsValue]⟩
  | cons txin vin ih =>
    obtain ⟨coin, found⟩ := Option.isSome_iff_exists.mp (present txin (by simp))
    have value := inRange _ _ found
    have bounds := (moneyRange_iff _).mp value
    simp only [sumInputs, accessUnspent, wp_bind, wp_accessCoin, found, Option.getD_some,
      wp_assertThat, wp_pure, wp_rejectIf, wp_lift]
    refine ⟨fun _ => by simp, fun _ => ⟨fun _ => trivial, fun _ => ?_⟩⟩
    refine (addAmount_sat range bounds.1 (by omega)).imp ?_
    intro sum added
    refine ⟨fun _ => trivial, fun passed => ?_⟩
    rw [not_or, not_not, not_not] at passed
    have rest := ih sum passed.2 (fun other member => present other (by simp [member]))
    refine wp_consequence rest ?_
    intro total t result
    obtain ⟨same, final, spent, spends, sumRest⟩ := result
    refine ⟨same, final, coin :: spent, .cons found spends, ?_⟩
    rw [sumRest, added.2]
    simp only [coinsValue, List.map_cons, List.sum_cons]
    omega

/-- A transaction that passes spends coins that are there, and its fee is what they hold beyond
its outputs. -/
theorem checkTxInputs_wp (tx : CTransaction) (nSpendHeight : Int) (inRange : CoinsState.InRange s)
    (spending : tx.isCoinBase = false) :
    (checkTxInputs tx nSpendHeight).wp (CoinsState.spec known)
      (fun txfee t => t = s ∧ MoneyRange txfee ∧ ∃ spent, Spends s.coins tx.vin spent ∧
        txfee.toInt = coinsValue spent - valueOut tx.vout) noOverflow s := by
  simp only [checkTxInputs, haveInputs, spending, Bool.false_eq_true, if_false, wp_bind,
    wp_rejectIf, wp_lift, wp_pure]
  refine haveAll_wp tx.vin _ _ ⟨fun _ => trivial, fun missing => absurd rfl missing⟩ ?_
  intro present
  refine ⟨fun _ => trivial, fun _ => ?_⟩
  refine wp_consequence (sumInputs_wp nSpendHeight 0 tx.vin inRange (by decide) present) ?_
  intro nValueIn t result
  obtain ⟨same, range, spent, spends, total⟩ := result
  refine (getValueOut_sat tx (by simp)).imp ?_
  intro nValueOut out
  refine ⟨fun _ => trivial, fun enough => ⟨fun _ => trivial, fun feeRange => ?_⟩⟩
  refine ⟨same, not_not.mp feeRange, spent, spends, ?_⟩
  have high := (moneyRange_iff _).mp range
  have low := (moneyRange_iff _).mp out.2
  have difference : (nValueIn - nValueOut).toInt = nValueIn.toInt - nValueOut.toInt := by
    rw [Int64.toInt_sub]
    exact Int.bmod_eq_of_le (by omega) (by omega)
  rw [difference, total, out.1]
  simp

/-- A transaction stays final: neither the height nor the median time falls along a chain. -/
theorem isFinalTx_of_ancestor {pindex ancestor : Chain} (timely : pindex.Timely)
    (suffix : ancestor <:+ pindex) {tx : CTransaction}
    (final : isFinalTx tx (ancestor.nHeight + 1) ancestor.getMedianTimePast = true) :
    isFinalTx tx (pindex.nHeight + 1) pindex.getMedianTimePast = true := by
  have height := Chain.nHeight_le suffix
  obtain ⟨above, rfl⟩ := suffix
  have median := timely.median_drop_le above.length
  rw [drop_left] at median
  simp only [isFinalTx] at final ⊢
  split_ifs at final ⊢ <;> first | rfl | exact final | omega

theorem isFinalTx_of_genesis : isFinalTx ⟨2, [⟨⟨.null, 0⟩, [], 0, []⟩], [], 500000000⟩ 2 700000000 :=
  have timely : Chain.Timely [⟨.null, 1, 700000000, 0⟩, ⟨.null, 1, 600000000, 0⟩] :=
    ⟨fun _ => by decide, fun none => absurd rfl none, trivial⟩
  isFinalTx_of_ancestor timely (suffix_cons _ _) (by decide)

end Qogecoin.Consensus
