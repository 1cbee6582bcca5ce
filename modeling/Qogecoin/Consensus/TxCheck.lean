import Qogecoin.Coins.Program
import Qogecoin.Primitives.Block

/-! Amounts, validation states and the context-free checks of a transaction. -/
namespace Qogecoin.Consensus

open Codec Commands Coins List Result

def COIN : Int64 := 100000000

def maxMoney : Int64 := 100000000 * COIN

def MoneyRange (nValue : Int64) : Prop := 0 ≤ nValue ∧ nValue ≤ maxMoney

instance (nValue : Int64) : Decidable (MoneyRange nValue) := by
  unfold MoneyRange
  infer_instance

variable {ε : Type}

/-- Signed addition, with the overflow that is undefined behaviour. -/
def addAmount (a b : Int64) : Result Crash ε Int64 :=
  if -2 ^ 63 ≤ a.toInt + b.toInt ∧ a.toInt + b.toInt < 2 ^ 63 then .returned (a + b)
  else .crashed .signedOverflow

theorem moneyRange_iff (nValue : Int64) :
    MoneyRange nValue ↔ 0 ≤ nValue.toInt ∧ nValue.toInt ≤ 10 ^ 16 := by
  rw [MoneyRange, Int64.le_iff_toInt_le, Int64.le_iff_toInt_le]
  have upper : maxMoney.toInt = 10 ^ 16 := by decide
  rw [upper]
  rfl

theorem isSpent_of_moneyRange {coin : Coin} (range : MoneyRange coin.out.nValue) :
    coin.isSpent = false := by
  have nonneg := ((moneyRange_iff _).mp range).1
  rw [Coin.isSpent, CTxOut.isNull, beq_eq_false_iff_ne]
  intro null
  rw [null] at nonneg
  revert nonneg
  decide

theorem toInt_add_of_fits {a b : Int64} (low : -2 ^ 63 ≤ a.toInt + b.toInt)
    (high : a.toInt + b.toInt < 2 ^ 63) : (a + b).toInt = a.toInt + b.toInt := by
  rw [Int64.toInt_add]
  exact Int.bmod_eq_of_le (by omega) (by omega)

theorem addAmount_sat {a b : Int64} {ends : Ends Crash ε} (first : MoneyRange a)
    (second : 0 ≤ b.toInt) (small : b.toInt ≤ 10 ^ 18) :
    (addAmount a b).Sat (fun sum => sum = a + b ∧ sum.toInt = a.toInt + b.toInt) ends := by
  have range := (moneyRange_iff a).mp first
  have low : -2 ^ 63 ≤ a.toInt + b.toInt := by omega
  have high : a.toInt + b.toInt < 2 ^ 63 := by omega
  rw [addAmount, if_pos ⟨low, high⟩]
  exact ⟨rfl, toInt_add_of_fits low high⟩

inductive TxValidationResult where
  | consensus
  | recentConsensusChange
  | inputsNotStandard
  | notStandard
  | missingInputs
  | prematureSpend
  | witnessMutated
  | witnessStripped
  | conflict
  | mempoolPolicy
  | noMempool
deriving DecidableEq, Repr

structure TxInvalid where
  result : TxValidationResult
  rejectReason : String
deriving DecidableEq, Repr

def TxInvalid.consensus (rejectReason : String) : TxInvalid := ⟨.consensus, rejectReason⟩

def checkOutputs : (nValueOut : Int64) → List CTxOut → Result Crash TxInvalid Int64
  | nValueOut, [] => pure nValueOut
  | nValueOut, txout :: rest => do
    .rejectIf (txout.nValue < 0) (.consensus "bad-txns-vout-negative")
    .rejectIf (txout.nValue > maxMoney) (.consensus "bad-txns-vout-toolarge")
    let nValueOut ← addAmount nValueOut txout.nValue
    .rejectIf (¬MoneyRange nValueOut) (.consensus "bad-txns-txouttotal-toolarge")
    checkOutputs nValueOut rest

variable (tx : CTransaction)

def checkTransaction : Result Crash TxInvalid Unit := do
  .rejectIf (tx.vin = []) (.consensus "bad-txns-vin-empty")
  .rejectIf (tx.vout = []) (.consensus "bad-txns-vout-empty")
  .rejectIf ((tx.serialize false).length * witnessScaleFactor > maxBlockWeight)
    (.consensus "bad-txns-oversize")
  let _ ← checkOutputs 0 tx.vout
  -- an insertion into the set of outpoints seen so far fails somewhere
  .rejectIf (¬(tx.vin.map CTxIn.prevout).Nodup) (.consensus "bad-txns-inputs-duplicate")
  if tx.isCoinBase then
    .rejectIf (∃ txin ∈ tx.vin, txin.scriptSig.length < 2 ∨ txin.scriptSig.length > 100)
      (.consensus "bad-cb-length")
  else
    .rejectIf (∃ txin ∈ tx.vin, txin.prevout.isNull = true) (.consensus "bad-txns-prevout-null")

def valueOut (vout : List CTxOut) : Int := (vout.map fun out => out.nValue.toInt).sum

structure TxWellFormed (tx : CTransaction) : Prop where
  size : (tx.serialize false).length ≤ 1000000
  outputs : ∀ out ∈ tx.vout, MoneyRange out.nValue
  total : valueOut tx.vout ≤ 10 ^ 16
  distinct : (tx.vin.map CTxIn.prevout).Nodup
  prevouts : tx.isCoinBase = false → ∀ txin ∈ tx.vin, txin.prevout.isNull = false

theorem TxWellFormed.count_le {tx : CTransaction} (formed : TxWellFormed tx) :
    tx.vin.length + tx.vout.length ≤ 1000000 :=
  tx.count_le_size.trans formed.size

theorem checkOutputs_sat (nValueOut : Int64) (vout : List CTxOut) (range : MoneyRange nValueOut) :
    (checkOutputs nValueOut vout).Sat
      (fun total => total.toInt = nValueOut.toInt + valueOut vout ∧ MoneyRange total ∧
        ∀ out ∈ vout, MoneyRange out.nValue) (Ends.onlyCrashes fun _ => False) := by
  induction vout generalizing nValueOut with
  | nil => simpa [checkOutputs, valueOut] using range
  | cons txout rest ih =>
    simp only [checkOutputs, sat_bind, sat_rejectIf]
    refine ⟨fun _ => trivial, fun nonneg => ⟨fun _ => trivial, fun small => ?_⟩⟩
    have here : MoneyRange txout.nValue := ⟨Int64.not_lt.mp nonneg, Int64.not_lt.mp small⟩
    have bounds := (moneyRange_iff txout.nValue).mp here
    refine (addAmount_sat range bounds.1 (by omega)).imp ?_
    rintro sum ⟨_, value⟩
    refine ⟨fun _ => trivial, fun inRange => ?_⟩
    refine (ih sum (not_not.mp inRange)).imp ?_
    rintro total ⟨sumRest, final, outputs⟩
    refine ⟨?_, final, ?_⟩
    · rw [sumRest, value]
      simp only [valueOut, map_cons, sum_cons]
      omega
    · intro out member
      rcases mem_cons.mp member with rfl | later
      · exact here
      · exact outputs out later

theorem checkTransaction_sat :
    (checkTransaction tx).Sat (fun _ => TxWellFormed tx) (Ends.onlyCrashes fun _ => False) := by
  simp only [checkTransaction, sat_bind, sat_rejectIf]
  refine ⟨fun _ => trivial, fun _ => ⟨fun _ => trivial, fun _ => ⟨fun _ => trivial, ?_⟩⟩⟩
  intro size
  refine (checkOutputs_sat 0 tx.vout (by decide)).imp ?_
  rintro total ⟨sum, range, outputs⟩
  refine ⟨fun _ => trivial, fun distinct => ?_⟩
  have bound := ((moneyRange_iff total).mp range).2
  have formed : (tx.isCoinBase = false → ∀ txin ∈ tx.vin, txin.prevout.isNull = false) →
      TxWellFormed tx := by
    intro prevouts
    refine ⟨?_, outputs, ?_, not_not.mp distinct, prevouts⟩
    · simp only [witnessScaleFactor, maxBlockWeight] at size
      omega
    · rw [sum] at bound
      simpa using bound
  split_ifs with coinbase
  · simp only [sat_rejectIf]
    refine ⟨fun _ => trivial, fun _ => formed ?_⟩
    rw [coinbase]
    simp
  · simp only [sat_rejectIf]
    refine ⟨fun _ => trivial, fun nonnull => formed ?_⟩
    intro _ txin member
    rw [← Bool.not_eq_true]
    exact fun null => nonnull ⟨txin, member, null⟩

def sumOutputs {ε : Type} : (nValueOut : Int64) → List CTxOut → Result Crash ε Int64
  | nValueOut, [] => pure nValueOut
  | nValueOut, txOut :: rest => do
    .assertThat (MoneyRange txOut.nValue) .runtimeError
    let sum ← addAmount nValueOut txOut.nValue
    .assertThat (MoneyRange sum) .runtimeError
    sumOutputs sum rest

def getValueOut : Result Crash ε Int64 := do
  let nValueOut ← sumOutputs 0 tx.vout
  .assertThat (MoneyRange nValueOut) .assertion
  pure nValueOut

theorem sumOutputs_sat {ends : Ends Crash ε} (nValueOut : Int64) (vout : List CTxOut)
    (range : MoneyRange nValueOut) (throws : ends.crashes .runtimeError) :
    (sumOutputs nValueOut vout).Sat
      (fun total => total.toInt = nValueOut.toInt + valueOut vout ∧ MoneyRange total) ends := by
  induction vout generalizing nValueOut with
  | nil => simpa [sumOutputs, valueOut] using range
  | cons txOut rest ih =>
    simp only [sumOutputs, sat_bind, sat_assertThat]
    refine ⟨fun _ => throws, fun here => ?_⟩
    have bounds := (moneyRange_iff txOut.nValue).mp here
    refine (addAmount_sat range bounds.1 (by omega)).imp ?_
    rintro sum ⟨_, value⟩
    refine ⟨fun _ => throws, fun inRange => ?_⟩
    refine (ih sum inRange).imp ?_
    rintro total ⟨sumRest, final⟩
    refine ⟨?_, final⟩
    rw [sumRest, value]
    simp only [valueOut, map_cons, sum_cons]
    omega

theorem getValueOut_sat {ends : Ends Crash ε} (tx : CTransaction)
    (throws : ends.crashes .runtimeError) :
    (getValueOut tx).Sat (fun total => total.toInt = valueOut tx.vout ∧ MoneyRange total) ends := by
  simp only [getValueOut, sat_bind, sat_assertThat]
  refine (sumOutputs_sat 0 tx.vout (by decide) throws).imp ?_
  rintro total ⟨sum, range⟩
  exact ⟨fun out => absurd range out, fun _ => ⟨by simpa using sum, range⟩⟩

end Qogecoin.Consensus
