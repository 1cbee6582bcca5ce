import Qogecoin.Consensus.CheckBlock
import Qogecoin.Validation.InputScripts
import Qogecoin.Validation.UpdateCoins

/-! `ConnectBlock`: the checks of a block against the coins, and its effect on them. -/
namespace Qogecoin.Validation

open Codec Commands Coins Consensus Script Ledger Program

def getBlockSubsidy (nHeight : Int) (params : Params) : Int64 :=
  let halvings := nHeight.tdiv params.nSubsidyHalvingInterval
  if halvings ≥ 64 then 0 else (100 * COIN) >>> .ofInt halvings

variable (params : Params)

/-- The subsidy is halved, rounding down, until nothing is left; there is no other way for it to
end than the one the shift takes anyway. -/
theorem getBlockSubsidy_toInt (nHeight : Nat) : (getBlockSubsidy nHeight params).toInt =
      (10 ^ 10 / 2 ^ (nHeight / params.nSubsidyHalvingInterval) : Nat) := by
  have shifts : ∀ k : Fin 64,
      ((100 * COIN) >>> .ofInt (k.val : Int)).toInt = (10 ^ 10 / 2 ^ k.val : Nat) := by
    decide +kernel
  have quotient : (nHeight : Int).tdiv params.nSubsidyHalvingInterval =
      (nHeight / params.nSubsidyHalvingInterval : Nat) := rfl
  rw [getBlockSubsidy, quotient]
  generalize nHeight / params.nSubsidyHalvingInterval = halvings
  split
  next many =>
    have large : 10 ^ 10 < 2 ^ halvings := by
      calc 10 ^ 10 < 2 ^ 64 := by norm_num
        _ ≤ 2 ^ halvings := Nat.pow_le_pow_right (by omega) (by omega)
    rw [Nat.div_eq_of_lt large]
    rfl
  next few =>
    exact shifts ⟨halvings, by omega⟩

variable (pindex : Chain)

theorem getBlockSubsidy_range (nonempty : pindex ≠ []) :
    0 ≤ (getBlockSubsidy pindex.nHeight params).toInt ∧
      (getBlockSubsidy pindex.nHeight params).toInt ≤ 10 ^ 10 := by
  have length := List.length_pos_of_ne_nil nonempty
  have height : pindex.nHeight = (pindex.length - 1 : Nat) := by
    simp only [Chain.nHeight]
    omega
  rw [height, getBlockSubsidy_toInt]
  have bound := Nat.div_le_self (10 ^ 10) (2 ^ ((pindex.length - 1) / params.nSubsidyHalvingInterval))
  constructor
  · exact Int.natCast_nonneg _
  · exact_mod_cast bound

def bip34ImpliesBIP30Limit : Int := 1983702

def exemptFromBIP30 : Bool :=
  pindex.nHeight == 91842 && pindex.getBlockHash ==
      .uint256S 0x00000000000a4d0a398161ffc163c503763b1f4360639393e0e4c8e300e0caec
    || pindex.nHeight == 91880 && pindex.getBlockHash ==
      .uint256S 0x00000000000743f190a18c5577a3c2d2a1f610ae9601ac046a38084ccb7cd721

def enforceBIP30 : Bool :=
  let pindexBIP34height := pindex.pprev.getAncestor params.bip34Height
  !exemptFromBIP30 pindex
      && (pindexBIP34height.isEmpty || pindexBIP34height.getBlockHash != params.bip34Hash)
    || pindex.nHeight ≥ bip34ImpliesBIP30Limit

def refuseOverwrite : List COutPoint → CoinsM BlockInvalid Unit
  | [] => pure ()
  | outpoint :: rest => do
    let found ← haveCoin outpoint
    rejectIf (found = true) (.consensus "bad-txns-BIP30")
    refuseOverwrite rest

section

variable [Crypto]

def outPoints (tx : CTransaction) : List COutPoint :=
  (List.range tx.vout.length).map fun o => ⟨tx.getHash, UInt32.ofNat o⟩

def checkBIP30 (params : Params) (pindex : Chain) (block : CBlock) : CoinsM BlockInvalid Unit :=
  if enforceBIP30 params pindex then refuseOverwrite (block.vtx.flatMap outPoints) else pure ()

/-- What `ConnectBlock` reads besides its arguments: the chain parameters, the answer of
`CheckSignetBlockSolution`, the caches of scripts, whether scripts are run at all, which depends
on `hashAssumeValid` and the block index, and whether they are handed to the check queue. -/
structure Environment where
  params : Params
  signetSolution : CBlock → Bool
  caches : ScriptCaches
  fScriptChecks : Bool
  parallelScriptChecks : Bool

structure Connecting where
  nFees : Int64
  nSigOpsCost : Nat
  blockundo : CBlockUndo
  control : List (CScriptCheck Unit)

def Connecting.start : Connecting := ⟨0, 0, ⟨[]⟩, []⟩

def prevHeights : List CTxIn → CoinsM BlockInvalid (List Int)
  | [] => pure []
  | txin :: vin => do
    let coin ← accessCoin txin.prevout
    let rest ← prevHeights vin
    pure (coin.nHeight.toNat :: rest)

omit [Crypto] in
theorem prevHeights_within (vin : List CTxIn) : (prevHeights vin).Within View.Reads noOverflow := by
  induction vin with
  | nil => exact .pure _
  | cons txin vin ih => exact .bind (.perform trivial) fun _ => .bind ih fun _ => .pure _

def connectInputs (params : Params) (pindex : Chain) (nFees : Int64) (tx : CTransaction) :
    CoinsM BlockInvalid Int64 :=
  if tx.isCoinBase then pure nFees
  else do
    let txfee ← (checkTxInputs tx pindex.nHeight).adapt .ofTx
    let nFees ← lift (addAmount nFees txfee)
    rejectIf (¬MoneyRange nFees) (.consensus "bad-txns-accumulated-fee-outofrange")
    let prevheights ← prevHeights tx.vin
    let final ← lift
      (sequenceLocks tx (params.buriedActiveAt pindex .csv) prevheights pindex)
    rejectIf (final = false) (.consensus "bad-txns-nonfinal")
    pure nFees

variable (env : Environment)

def connectScripts (flags : Flags) (tx : CTransaction) :
    CoinsM BlockInvalid (List (CScriptCheck Unit)) :=
  if tx.isCoinBase || !env.fScriptChecks then pure []
  else do
    let (_, vChecks) ← (checkInputScripts env.caches tx flags .empty env.parallelScriptChecks).adapt
      .ofTx
    pure vChecks

def connectTransaction (pindex : Chain) (flags : Flags) (i : Nat)
    (acc : Connecting) (tx : CTransaction) : CoinsM BlockInvalid Connecting := do
  let nFees ← connectInputs env.params pindex acc.nFees tx
  let cost ← getTransactionSigOpCost tx flags
  let nSigOpsCost := acc.nSigOpsCost + cost
  rejectIf (nSigOpsCost > maxBlockSigOpsCost) (.consensus "bad-blk-sigops")
  let vChecks ← connectScripts env flags tx
  let txundo ← updateCoins tx pindex.nHeight
  let vtxundo := if i > 0 then acc.blockundo.vtxundo ++ [txundo] else acc.blockundo.vtxundo
  pure ⟨nFees, nSigOpsCost, ⟨vtxundo⟩, acc.control ++ vChecks⟩

def connectTransactions (env : Environment) (pindex : Chain) (flags : Flags) :
    (i : Nat) → Connecting → List CTransaction → CoinsM BlockInvalid Connecting
  | _, acc, [] => pure acc
  | i, acc, tx :: vtx => do
    let acc ← connectTransaction env pindex flags i acc tx
    connectTransactions env pindex flags (i + 1) acc vtx

/-- `CheckBlock` once more. A block that was mutated since it was stored stops the node. -/
def checkAgain (block : CBlock) (fJustCheck : Bool) : Result Crash BlockInvalid Unit :=
  (checkBlock block env.params env.signetSolution (!fJustCheck) (!fJustCheck)).adapt fun state =>
    if state.result = .mutated then state.toError else state

def checkReward (params : Params) (pindex : Chain) (block : CBlock) (nFees : Int64) :
    Result Crash BlockInvalid Unit := do
  let blockReward ← addAmount nFees (getBlockSubsidy pindex.nHeight params)
  match block.vtx with
  | [] => .crashed .nullPointer
  | coinbase :: _ => do
    let nValueOut ← getValueOut coinbase
    .rejectIf (nValueOut > blockReward) (.consensus "bad-cb-amount")

def waitChecks : List (CScriptCheck Unit) → Result Crash BlockInvalid Unit
  | [] => pure ()
  | check :: checks => do
    (runCheck check).adapt fun _ => .consensus "block-validation-failed"
    waitChecks checks

/-- The part of `ConnectBlock` that the genesis block skips. It returns the undo data given to
`WriteUndoDataForBlock`. -/
def connectChecked (block : CBlock) (pindex : Chain) (fJustCheck : Bool) :
    CoinsM BlockInvalid (Option CBlockUndo) := do
  assertThat (pindex.pprev ≠ []) .assertion
  checkBIP30 env.params pindex block
  let flags := getBlockScriptFlags env.params pindex.getBlockHash pindex
  let acc ← connectTransactions env pindex flags 0 .start block.vtx
  lift (checkReward env.params pindex block acc.nFees)
  lift (waitChecks acc.control)
  if fJustCheck then pure none
  else do
    setBestBlock pindex.getBlockHash
    pure (some acc.blockundo)

def connectGenesis (pindex : Chain) (fJustCheck : Bool) :
    CoinsM BlockInvalid (Option CBlockUndo) :=
  if fJustCheck then pure none
  else do
    setBestBlock pindex.getBlockHash
    pure none

def connectBlock (block : CBlock) (pindex : Chain) (fJustCheck : Bool) :
    CoinsM BlockInvalid (Option CBlockUndo) := do
  assertThat (pindex ≠ []) .assertion
  assertThat (pindex.getBlockHash = block.getHash) .assertion
  lift (checkAgain env block fJustCheck)
  let best ← getBestBlock
  assertThat (pindex.pprev.getBlockHash = best) .assertion
  if block.getHash = env.params.hashGenesisBlock then connectGenesis pindex fJustCheck
  else connectChecked env block pindex fJustCheck

end

end Qogecoin.Validation
