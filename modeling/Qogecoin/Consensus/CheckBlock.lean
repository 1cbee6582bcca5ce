import Qogecoin.Consensus.TxVerify
import Qogecoin.Pow.DarkGravityWave

/-! The checks of a block, without context and against the headers before it. The genesis block has
no block before it, and not every step asks whether there is one. -/
namespace Qogecoin.Consensus

open Codec Commands Coins DarkGravityWave Result

inductive BlockValidationResult where
  | unset
  | consensus
  | recentConsensusChange
  | cachedInvalid
  | invalidHeader
  | mutated
  | missingPrev
  | invalidPrev
  | timeFuture
  | checkpoint
deriving DecidableEq, Repr

inductive ModeState where
  | invalid
  | error
deriving DecidableEq, Repr

structure BlockInvalid where
  mode : ModeState
  result : BlockValidationResult
  rejectReason : String
deriving DecidableEq, Repr

def BlockInvalid.consensus (rejectReason : String) : BlockInvalid :=
  ⟨.invalid, .consensus, rejectReason⟩

/-- `state.Error`, which keeps the reason of an earlier `Invalid`. -/
def BlockInvalid.toError (state : BlockInvalid) : BlockInvalid := { state with mode := .error }

def BlockInvalid.ofTx (txState : TxInvalid) : BlockInvalid := .consensus txState.rejectReason

def checkProofOfWork (hash : Uint256) (nBits : UInt32) (params : Params) : Bool :=
  let ⟨bnTarget, fNegative, fOverflow⟩ := Arith.setCompact nBits
  !(fNegative || (bnTarget.compareTo Arith.BaseUint.zero).isEq || fOverflow
      || (bnTarget.compareTo (uintToArith256 params.powLimit)).isGT)
    && !((uintToArith256 hash).compareTo bnTarget).isGT

def maxBlockSigOpsCost : Nat := 80000

def checkTransactions : List CTransaction → Result Crash BlockInvalid Unit
  | [] => pure ()
  | tx :: vtx => do
    (checkTransaction tx).adapt .ofTx
    checkTransactions vtx

theorem checkTransactions_sat (vtx : List CTransaction) :
    (checkTransactions vtx).Sat (fun _ => ∀ tx ∈ vtx, TxWellFormed tx)
      (Ends.onlyCrashes fun _ => False) := by
  induction vtx with
  | nil => simp [checkTransactions]
  | cons tx vtx ih =>
    simp only [checkTransactions, sat_bind, sat_adapt]
    refine (checkTransaction_sat tx).mono ?_ (fun _ _ => trivial) (fun _ h => h)
    intro _ formed
    refine ih.imp ?_
    intro _ others other member
    rcases List.mem_cons.mp member with rfl | later
    · exact formed
    · exact others other later

section

variable [Crypto]

def checkBlockHeader (header : CBlockHeader) (params : Params) (fCheckPOW : Bool) :
    Result Crash BlockInvalid Unit :=
  .rejectIf (fCheckPOW ∧ checkProofOfWork header.getPoWHash header.nBits params = false)
    ⟨.invalid, .invalidHeader, "high-hash"⟩

/-- `CheckBlock` on a block that has not been checked before; `signetSolution` is the answer of
`CheckSignetBlockSolution`. -/
def checkBlock (block : CBlock) (params : Params) (signetSolution : CBlock → Bool)
    (fCheckPOW fCheckMerkleRoot : Bool) : Result Crash BlockInvalid Unit := do
  checkBlockHeader block.toCBlockHeader params fCheckPOW
  .rejectIf (params.signetBlocks ∧ fCheckPOW ∧ signetSolution block = false)
    (.consensus "bad-signet-blksig")
  let (hashMerkleRoot2, mutated) := blockMerkleRoot block
  .rejectIf (fCheckMerkleRoot ∧ block.hashMerkleRoot ≠ hashMerkleRoot2)
    ⟨.invalid, .mutated, "bad-txnmrklroot"⟩
  .rejectIf (fCheckMerkleRoot ∧ mutated) ⟨.invalid, .mutated, "bad-txns-duplicate"⟩
  .rejectIf (block.vtx = [] ∨ block.vtx.length * witnessScaleFactor > maxBlockWeight ∨
      (block.serialize false).length * witnessScaleFactor > maxBlockWeight)
    (.consensus "bad-blk-length")
  .rejectIf (¬∃ tx ∈ block.vtx.head?, tx.isCoinBase = true) (.consensus "bad-cb-missing")
  .rejectIf (∃ tx ∈ block.vtx.tail, tx.isCoinBase = true) (.consensus "bad-cb-multiple")
  checkTransactions block.vtx
  .rejectIf ((block.vtx.map getLegacySigOpCount).sum * witnessScaleFactor > maxBlockSigOpsCost)
    (.consensus "bad-blk-sigops")

end

structure BlockWellFormed (block : CBlock) : Prop where
  count : block.vtx.length ≤ 1000000
  coinbase : ∃ first rest, block.vtx = first :: rest ∧ first.isCoinBase = true ∧
    ∀ tx ∈ rest, tx.isCoinBase = false
  transactions : ∀ tx ∈ block.vtx, TxWellFormed tx

theorem checkBlock_sat [Crypto] (block : CBlock) (params : Params)
    (signetSolution : CBlock → Bool) (fCheckPOW fCheckMerkleRoot : Bool) :
    (checkBlock block params signetSolution fCheckPOW fCheckMerkleRoot).Sat
      (fun _ => BlockWellFormed block) (Ends.onlyCrashes fun _ => False) := by
  simp only [checkBlock, checkBlockHeader, sat_bind, sat_rejectIf]
  refine ⟨fun _ => trivial, fun _ => ⟨fun _ => trivial, fun _ => ⟨fun _ => trivial, fun _ =>
    ⟨fun _ => trivial, fun _ => ⟨fun _ => trivial, fun size => ⟨fun _ => trivial, fun first =>
    ⟨fun _ => trivial, fun single => ?_⟩⟩⟩⟩⟩⟩⟩
  refine (checkTransactions_sat block.vtx).imp ?_
  intro _ formed
  refine ⟨fun _ => trivial, fun _ => ?_⟩
  rw [not_or, not_or] at size
  simp only [witnessScaleFactor, maxBlockWeight] at size
  refine ⟨by omega, ?_, formed⟩
  obtain ⟨coinbase, head, isCoinBase⟩ := not_not.mp first
  cases vtx : block.vtx with
  | nil => exact absurd vtx size.1
  | cons tx rest =>
    rw [vtx] at head single
    cases head
    refine ⟨coinbase, rest, rfl, isCoinBase, ?_⟩
    intro other member
    rw [← Bool.not_eq_true]
    exact fun second => single ⟨other, member, second⟩

open Script

def pushInt64 (n : Int) : Bytes :=
  if n = -1 ∨ 1 ≤ n ∧ n ≤ 16 then [UInt8.ofNat (n + 0x50).toNat]
  else if n = 0 then [0x00]
  else pushBytes (ScriptNum.serialize n)

variable (block : CBlock) (params : Params)

/-- The time up to which the transactions have to be final: with BIP113 the median time of the
blocks before, which is read off the block before without asking whether there is one. -/
def lockTimeCutoff (pindexPrev : Chain) : Result Crash BlockInvalid Int :=
  if params.buriedActiveAfter pindexPrev .csv then
    match pindexPrev with
    | [] => .crashed .nullPointer
    | tip :: pprev => pure (Chain.getMedianTimePast (tip :: pprev))
  else pure block.nTime.toNat

def checkCoinbaseHeight (pindexPrev : Chain) (nHeight : Int) : Result Crash BlockInvalid Unit :=
  if params.buriedActiveAfter pindexPrev .heightInCb then
    match block.vtx with
    | ⟨_, txin :: _, _, _⟩ :: _ =>
      .rejectIf (¬(pushInt64 nHeight).isPrefixOf txin.scriptSig) (.consensus "bad-cb-height")
    | _ => .crashed .nullPointer
  else pure ()

def minimumWitnessCommitment : Nat := 38

def isWitnessCommitment (vout : CTxOut) : Bool :=
  vout.scriptPubKey.length ≥ minimumWitnessCommitment
    && [0x6a, 0x24, 0xaa, 0x21, 0xa9, 0xed].isPrefixOf vout.scriptPubKey

/-- The output of the coinbase that `GetWitnessCommitmentIndex` finds: the last of those with the
form of a commitment. -/
def getWitnessCommitment : Option CTxOut :=
  match block.vtx with
  | [] => none
  | coinbase :: _ => (coinbase.vout.filter isWitnessCommitment).getLast?

section

variable [Crypto] (block : CBlock)

def checkWitnessCommitment (vout : CTxOut) : Result Crash BlockInvalid Unit :=
  match block.vtx with
  | ⟨_, txin :: _, _, _⟩ :: _ => do
    let nonce := txin.scriptWitness.headD []
    .rejectIf (txin.scriptWitness.length ≠ 1 ∨ nonce.length ≠ 32)
      ⟨.invalid, .mutated, "bad-witness-nonce-size"⟩
    let hashWitness := Crypto.hash256 ((blockWitnessMerkleRoot block).1.bytes ++ nonce)
    .rejectIf (hashWitness.bytes ≠ (vout.scriptPubKey.drop 6).take 32)
      ⟨.invalid, .mutated, "bad-witness-merkle-match"⟩
  | _ => .crashed .nullPointer

/-- `fHaveWitness`: whether the block has a commitment to its witnesses, which then is right. -/
def haveWitness (params : Params) (pindexPrev : Chain) : Result Crash BlockInvalid Bool :=
  if params.buriedActiveAfter pindexPrev .segwit then
    match getWitnessCommitment block with
    | none => pure false
    | some vout => do
      checkWitnessCommitment block vout
      pure true
  else pure false

def contextualCheckBlock (params : Params) (pindexPrev : Chain) :
    Result Crash BlockInvalid Unit := do
  let nHeight := if pindexPrev = [] then 0 else pindexPrev.nHeight + 1
  let nLockTimeCutoff ← lockTimeCutoff block params pindexPrev
  .rejectIf (∃ tx ∈ block.vtx, isFinalTx tx nHeight nLockTimeCutoff = false)
    (.consensus "bad-txns-nonfinal")
  checkCoinbaseHeight block params pindexPrev nHeight
  let fHaveWitness ← haveWitness block params pindexPrev
  .rejectIf (fHaveWitness = false ∧ ∃ tx ∈ block.vtx, tx.hasWitness = true)
    ⟨.invalid, .mutated, "unexpected-witness"⟩
  .rejectIf (getBlockWeight block > maxBlockWeight) (.consensus "bad-blk-weight")

/-- With BIP113 in force, a block that passes has a block before it, and its transactions are final
at its height and at the median time of the blocks before it. -/
theorem final_of_contextualCheckBlock {block : CBlock} {params : Params} {pindexPrev : Chain}
    (csv : params.buriedActiveAfter pindexPrev .csv = true)
    (passed : contextualCheckBlock block params pindexPrev = .returned ()) :
    pindexPrev ≠ [] ∧ ∀ tx ∈ block.vtx,
      isFinalTx tx (pindexPrev.nHeight + 1) pindexPrev.getMedianTimePast = true := by
  obtain ⟨cutoff, median, rest⟩ := bind_eq_returned.mp passed
  obtain ⟨_, final, _⟩ := bind_eq_returned.mp rest
  unfold lockTimeCutoff at median
  rw [if_pos csv] at median
  cases pindexPrev with
  | nil => cases median
  | cons tip below =>
    cases median
    rw [rejectIf_eq_returned] at final
    constructor
    · simp
    · intro tx member
      rw [← Bool.not_eq_false]
      intro early
      exact final ⟨tx, member, early⟩

end

end Qogecoin.Consensus
