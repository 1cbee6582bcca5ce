import Qogecoin.Node.CoinStats
import Qogecoin.Validation.CrashRecovery
import Mathlib.Data.Fintype.Pi

/-! `CoinStatsIndex`: running totals over the blocks of a chain, stored with every block that was
written to the index, and taken back block by block when the chain is reorganised. -/
namespace Qogecoin.Index

open Codec Coins Consensus Node Validation Function

/-- `MuHash3072` as an exact hash of multisets: `Insert` adds an element, `Remove` subtracts it. -/
class MuHash (M : Type) extends AddCommGroup M where
  element : Bytes → M
  finalize : M → Uint256

open MuHash

inductive Amount where
  | total
  | subsidy
  | unspendable
  | prevoutSpent
  | newOutputsExCoinbase
  | coinbase
  | unspendablesGenesisBlock
  | unspendablesBip30
  | unspendablesScripts
  | unspendablesUnclaimedRewards
deriving DecidableEq

instance instFintypeAmount : Fintype Amount where
  elems := {.total, .subsidy, .unspendable, .prevoutSpent, .newOutputsExCoinbase, .coinbase,
    .unspendablesGenesisBlock, .unspendablesBip30, .unspendablesScripts,
    .unspendablesUnclaimedRewards}
  complete member := by cases member <;> decide

/-- The members of the index in memory, where `H` is the running hash, and `DBVal`, where it is the
final one. -/
@[ext]
structure Totals (H : Type) where
  muhash : H
  transactionOutputCount : UInt64
  bogoSize : UInt64
  amount : Amount → Int64
deriving DecidableEq

def Totals.start {H : Type} (muhash : H) : Totals H := ⟨muhash, 0, 0, fun _ => 0⟩

abbrev DBVal := Totals Uint256

structure CoinStatsDB where
  heights : Int → Option (Uint256 × DBVal)
  hashes : Uint256 → Option DBVal

/-- Reading a value of the hash table as a pair fails: it is a `DBVal`, which is 32 bytes short. -/
def CoinStatsDB.readHashAsPair (_ : CoinStatsDB) (_ : Uint256) : Option (Uint256 × DBVal) := none

structure CoinStatsIndex (M : Type) where
  totals : Totals M
  db : CoinStatsDB

structure ChainAccess where
  params : Params
  files : BlockFiles
  lookupBlockIndex : Uint256 → Option Chain

section

variable {M : Type} [MuHash M]

def CoinStatsIndex.empty : CoinStatsIndex M := ⟨.start 0, fun _ => none, fun _ => none⟩

def txOutSer (outpoint : COutPoint) (coin : Coin) : Bytes :=
  outpoint.serialize ++ serializeUInt32 (.ofNat (coinCode coin)) ++ coin.out.serialize

def toAmount (n : ℤ) : Except Crash Int64 :=
  if -2 ^ 63 ≤ n ∧ n < 2 ^ 63 then .ok (.ofInt n) else .error .signedOverflow

def signed {α : Type} [Neg α] (back : Bool) (x : α) : α := if back then -x else x

namespace Totals

def tally (back : Bool) (member : Amount) (nValue : Int64) (t : Totals M) :
    Except Crash (Totals M) := do
  let sum ← toAmount ((t.amount member).toInt + signed back nValue.toInt)
  .ok { t with amount := update t.amount member sum }

def insert (back : Bool) (outpoint : COutPoint) (coin : Coin) (t : Totals M) :
    Except Crash (Totals M) :=
  tally back .total coin.out.nValue
    { t with
      muhash := t.muhash + signed back (element (txOutSer outpoint coin))
      transactionOutputCount := t.transactionOutputCount + signed back 1
      bogoSize := t.bogoSize + signed back (getBogoSize coin.out.scriptPubKey) }

def output (back : Bool) (txid : Uint256) (nHeight : Int) (coinbase : Bool) (j : Nat)
    (out : CTxOut) (t : Totals M) : Except Crash (Totals M) := do
  if isUnspendable out.scriptPubKey then
    let t ← t.tally back .unspendable out.nValue
    t.tally back .unspendablesScripts out.nValue
  else
    let t ← t.tally back (if coinbase then .coinbase else .newOutputsExCoinbase) out.nValue
    t.insert back ⟨txid, .ofNat j⟩ (newCoin out nHeight coinbase)

def outputs (back : Bool) (txid : Uint256) (nHeight : Int) (coinbase : Bool) :
    (j : Nat) → List CTxOut → Totals M → Except Crash (Totals M)
  | _, [], t => .ok t
  | j, out :: vout, t => do
    let t ← t.output back txid nHeight coinbase j out
    outputs back txid nHeight coinbase (j + 1) vout t

def prevout (back : Bool) (outpoint : COutPoint) (coin : Coin) (t : Totals M) :
    Except Crash (Totals M) := do
  let t ← t.tally back .prevoutSpent coin.out.nValue
  t.insert (!back) outpoint coin

def prevouts (back : Bool) : List CTxIn → List Coin → Totals M → Except Crash (Totals M)
  | _, [], t => .ok t
  | [], _ :: _, _ => .error .nullPointer
  | txin :: vin, coin :: vprevout, t => do
    let t ← t.prevout back txin.prevout coin
    prevouts back vin vprevout t

def rewards (back : Bool) (t : Totals M) : Except Crash (Totals M) := do
  let inflow ← toAmount ((t.amount .prevoutSpent).toInt + (t.amount .subsidy).toInt)
  let outputs ← toAmount ((t.amount .newOutputsExCoinbase).toInt + (t.amount .coinbase).toInt)
  let outflow ← toAmount (outputs.toInt + (t.amount .unspendable).toInt)
  let unclaimedRewards ← toAmount (signed back (inflow.toInt - outflow.toInt))
  let t ← t.tally back .unspendable unclaimedRewards
  t.tally back .unspendablesUnclaimedRewards unclaimedRewards

end Totals

def undoAt (blockUndo : CBlockUndo) : Nat → Except Crash CTxUndo
  | 0 => .error .logicError
  | i + 1 =>
    match blockUndo.vtxundo[i]? with
    | none => .error .logicError
    | some txUndo => .ok txUndo

def isBip30Block (pindex : Chain) : Bool :=
  pindex.nHeight == 91722 && pindex.getBlockHash ==
      .uint256S 0x00000000000271a2dc26e7667f8419f2e15416dc6955e5a6c6cdf3f2574dd08e
    || pindex.nHeight == 91812 && pindex.getBlockHash ==
      .uint256S 0x00000000000af0aed4792b1acee3d966af36cf5def14935db8de83d6f9306f2f

def Totals.value (t : Totals M) : DBVal := { t with muhash := MuHash.finalize t.muhash }

def readPrevious (db : CoinStatsDB) (pindex : Chain) : Option (Uint256 × DBVal) :=
  match db.heights (pindex.nHeight - 1) with
  | none => none
  | some readOut =>
    if readOut.1 ≠ pindex.pprev.getBlockHash then db.readHashAsPair pindex.pprev.getBlockHash
    else some readOut

/-- `CopyHeightIndexToHashIndex` for `count` heights; the iterator shows the table as it was. -/
def copyHeightIndexToHashIndex (heights : Int → Option (Uint256 × DBVal)) (height : Int) :
    (count : Nat) → (Uint256 → Option DBVal) → Option (Uint256 → Option DBVal)
  | 0, hashes => some hashes
  | count + 1, hashes =>
    match heights height with
    | none => none
    | some value =>
      copyHeightIndexToHashIndex heights (height + 1) count
        (update hashes value.1 (some value.2))

variable [Crypto]

def Totals.transaction (back : Bool) (nHeight : Int) (isBip30Block : Bool) (blockSubsidy : Int64)
    (blockUndo : CBlockUndo) (i : Nat) (tx : CTransaction) (t : Totals M) :
    Except Crash (Totals M) := do
  if isBip30Block && tx.isCoinBase then
    let t ← t.tally back .unspendable blockSubsidy
    t.tally back .unspendablesBip30 blockSubsidy
  else
    let t ← t.outputs back tx.getHash nHeight tx.isCoinBase 0 tx.vout
    -- the coinbase has no undo data
    if tx.isCoinBase then .ok t
    else
      let txUndo ← undoAt blockUndo i
      t.prevouts back tx.vin txUndo.vprevout

def Totals.transactions (back : Bool) (nHeight : Int) (isBip30Block : Bool) (blockSubsidy : Int64)
    (blockUndo : CBlockUndo) : (i : Nat) → List CTransaction → Totals M → Except Crash (Totals M)
  | _, [], t => .ok t
  | i, tx :: vtx, t => do
    let t ← t.transaction back nHeight isBip30Block blockSubsidy blockUndo i tx
    t.transactions back nHeight isBip30Block blockSubsidy blockUndo (i + 1) vtx

def undoRead (files : BlockFiles) (pindex : Chain) : Option CBlockUndo :=
  match files.undoFile pindex with
  | none => none
  | some file => undoReadFromDisk file pindex.pprev.getBlockHash

variable (node : ChainAccess) (db : CoinStatsDB)

def countBlock (block : CBlock) (pindex : Chain) (t : Totals M) :
    Except Crash (Bool × Totals M) := do
  let blockSubsidy := getBlockSubsidy pindex.nHeight node.params
  let t ← t.tally false .subsidy blockSubsidy
  if pindex.nHeight > 0 then
    match undoRead node.files pindex with
    | none => .ok (false, t)
    | some blockUndo =>
      match readPrevious db pindex with
      | none => .ok (false, t)
      | some _ =>
        let t ← t.transactions false pindex.nHeight (isBip30Block pindex) blockSubsidy blockUndo 0
          block.vtx
        let t ← t.rewards false
        .ok (true, t)
  else
    -- the genesis block
    let t ← t.tally false .unspendable blockSubsidy
    let t ← t.tally false .unspendablesGenesisBlock blockSubsidy
    let t ← t.rewards false
    .ok (true, t)

def CoinStatsDB.writeHeight (height : Int) (value : Uint256 × DBVal) : CoinStatsDB :=
  { db with heights := update db.heights height (some value) }

def CoinStatsIndex.writeBlock (block : CBlock) (pindex : Chain)
    (index : CoinStatsIndex M) : Except Crash (Bool × CoinStatsIndex M) := do
  let (done, t) ← countBlock node index.db block pindex index.totals
  if done then
    .ok (true, ⟨t, index.db.writeHeight pindex.nHeight (pindex.getBlockHash, t.value)⟩)
  else .ok (false, ⟨t, index.db⟩)

/-- The undo data is empty and nothing is read for the genesis block. The members are compared one
by one with the record of the block before. -/
def reverseBlock (block : CBlock) (pindex : Chain) (t : Totals M) :
    Except Crash (Bool × Totals M) := do
  let blockSubsidy := getBlockSubsidy pindex.nHeight node.params
  let t ← t.tally true .subsidy blockSubsidy
  let reverse (blockUndo : CBlockUndo) (readOut : DBVal) : Except Crash (Bool × Totals M) := do
    let t ← t.transactions true pindex.nHeight false blockSubsidy blockUndo 0 block.vtx
    let t ← t.rewards true
    if t.value = readOut then .ok (true, t) else .error .assertion
  if pindex.nHeight > 0 then
    match undoRead node.files pindex with
    | none => .ok (false, t)
    | some blockUndo =>
      match readPrevious db pindex with
      | none => .ok (false, t)
      | some readOut => reverse blockUndo readOut.2
  else reverse ⟨[]⟩ (.start .null)

/-- The loop that takes the blocks back. What `ReverseBlock` returns is ignored. Below the genesis
block the iterator is null. -/
def reverseBlocks (node : ChainAccess) (db : CoinStatsDB) (newTip : Chain) :
    (iterTip : Chain) → Totals M → Except Crash (Bool × Totals M)
  | [], _ => .error .nullPointer
  | index :: pprev, t =>
    match node.files.readBlockFromDisk (index :: pprev) with
    | none => .ok (false, t)
    | some block => do
      let (_, t) ← reverseBlock node db block (index :: pprev) t
      if pprev = newTip then .ok (true, t) else reverseBlocks node db newTip pprev t

def CoinStatsIndex.rewind (currentTip newTip : Chain) (index : CoinStatsIndex M) :
    Except Crash (Bool × CoinStatsIndex M) :=
  if currentTip.getAncestor newTip.nHeight ≠ newTip then .error .assertion
  else
    match copyHeightIndexToHashIndex index.db.heights newTip.nHeight
        (currentTip.nHeight - newTip.nHeight + 1).toNat index.db.hashes with
    | none => .ok (false, index)
    | some hashes => do
      let db := { index.db with hashes }
      match node.lookupBlockIndex currentTip.getBlockHash with
      | none => .error .nullPointer
      | some iterTip => do
        let (done, t) ← reverseBlocks node db newTip iterTip index.totals
        .ok (done, ⟨t, db⟩)

omit [Crypto] in
def lookUpOne (blockIndex : Chain) : Option DBVal :=
  match db.heights blockIndex.nHeight with
  | none => none
  | some readOut =>
    if readOut.1 = blockIndex.getBlockHash then some readOut.2
    else db.hashes blockIndex.getBlockHash

omit [Crypto] in
def lookUpStats (blockIndex : Chain) : Option DBVal := lookUpOne db blockIndex

end

end Qogecoin.Index
