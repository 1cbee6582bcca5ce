import Qogecoin.Primitives.Hash
import Qogecoin.Primitives.Serialize

/-! Whole transactions and blocks: their serialisations, hashes, weights and Merkle roots. A level
of odd length repeats its last hash. -/
namespace Qogecoin

open Codec Crypto List

def serializeVector {α : Type} (write : α → Bytes) (v : List α) : Bytes :=
  writeCompactSize v.length ++ v.flatMap write

def CTxIn.serialize (txin : CTxIn) : Bytes :=
  txin.prevout.serialize ++ serializeBytes txin.scriptSig ++ serializeUInt32 txin.nSequence

namespace CTransaction

/-- `SerializeTransaction`. Without `fAllowWitness` it is the format the txid is computed from. -/
def serialize (tx : CTransaction) (fAllowWitness : Bool) : Bytes :=
  let extended := fAllowWitness && tx.hasWitness
  serializeInt32 tx.nVersion
    ++ (if extended then serializeVector CTxIn.serialize [] ++ [1] else [])
    ++ serializeVector CTxIn.serialize tx.vin
    ++ serializeVector CTxOut.serialize tx.vout
    ++ (if extended then tx.vin.flatMap fun txin => serializeStack txin.scriptWitness else [])
    ++ serializeUInt32 tx.nLockTime

variable [Crypto]

def getHash (tx : CTransaction) : Uint256 := hash256 (tx.serialize false)

def getWitnessHash (tx : CTransaction) : Uint256 :=
  if tx.hasWitness then hash256 (tx.serialize true) else tx.getHash

end CTransaction

structure CBlockHeader where
  nVersion : Int32
  hashPrevBlock : Uint256
  hashMerkleRoot : Uint256
  nTime : UInt32
  nBits : UInt32
  nNonce : UInt32
deriving DecidableEq, Repr

namespace CBlockHeader

def serialize (header : CBlockHeader) : Bytes :=
  serializeInt32 header.nVersion ++ header.hashPrevBlock.bytes ++ header.hashMerkleRoot.bytes
    ++ serializeUInt32 header.nTime ++ serializeUInt32 header.nBits ++ serializeUInt32 header.nNonce

variable [Crypto] (header : CBlockHeader)

def getHash : Uint256 := hash256 header.serialize

def getPoWHash : Uint256 := yescrypt header.serialize

end CBlockHeader

structure CBlock extends CBlockHeader where
  vtx : List CTransaction
deriving DecidableEq, Repr

def CBlock.serialize (block : CBlock) (fAllowWitness : Bool) : Bytes :=
  block.toCBlockHeader.serialize ++ serializeVector (·.serialize fAllowWitness) block.vtx

def witnessScaleFactor : Nat := 4
def maxBlockWeight : Nat := 4000000

def getBlockWeight (block : CBlock) : Nat :=
  (block.serialize false).length * (witnessScaleFactor - 1) + (block.serialize true).length

theorem length_le_flatMap {α : Type} (write : α → Bytes) (nonempty : ∀ a, 0 < (write a).length)
    (v : List α) : v.length ≤ (v.flatMap write).length := by
  induction v with
  | nil => simp
  | cons a v ih =>
    have first := nonempty a
    simp only [length_cons, flatMap_cons, length_append]
    omega

theorem CTransaction.count_le_size (tx : CTransaction) :
    tx.vin.length + tx.vout.length ≤ (tx.serialize false).length := by
  have inputs := length_le_flatMap CTxIn.serialize (by
    intro txin
    simp [CTxIn.serialize, COutPoint.serialize, txin.prevout.hash.size]) tx.vin
  have outputs := length_le_flatMap CTxOut.serialize (by
    intro out
    simp [CTxOut.serialize, serializeInt64]) tx.vout
  simp only [serialize, serializeVector, List.length_append]
  omega

end Qogecoin

namespace Qogecoin.Consensus

open Codec Crypto

def levelMutated : List Uint256 → Bool
  | left :: right :: rest => left == right || levelMutated rest
  | _ => false

section

variable [Crypto]

def nextLevel : List Uint256 → List Uint256
  | left :: right :: rest => hash256 (left.bytes ++ right.bytes) :: nextLevel rest
  | [last] => [hash256 (last.bytes ++ last.bytes)]
  | [] => []

theorem nextLevel_length (hashes : List Uint256) :
    (nextLevel hashes).length = (hashes.length + 1) / 2 := by
  induction hashes using nextLevel.induct with
  | case1 left right rest ih =>
    simp only [nextLevel, List.length_cons, ih]
    omega
  | case2 last => simp [nextLevel]
  | case3 => simp [nextLevel]

/-- The root, and whether `mutation` was set or a mutation was met on the way. -/
def computeMerkleRoot (hashes : List Uint256) (mutation : Bool) : Uint256 × Bool :=
  match hashes with
  | [] => (.null, mutation)
  | [root] => (root, mutation)
  | left :: right :: rest =>
    computeMerkleRoot (nextLevel (left :: right :: rest))
      (mutation || levelMutated (left :: right :: rest))
termination_by hashes.length
decreasing_by
  rw [nextLevel_length]
  simp only [List.length_cons]
  omega

@[simp] theorem computeMerkleRoot_single (root : Uint256) (mutation : Bool) :
    computeMerkleRoot [root] mutation = (root, mutation) := by
  rw [computeMerkleRoot]

theorem computeMerkleRoot_step {hashes : List Uint256} (long : 1 < hashes.length) (mutation : Bool) :
    computeMerkleRoot hashes mutation =
      computeMerkleRoot (nextLevel hashes) (mutation || levelMutated hashes) := by
  match hashes with
  | [] => simp at long
  | [_] => simp at long
  | left :: right :: rest => rw [computeMerkleRoot]

def blockMerkleRoot (block : CBlock) : Uint256 × Bool :=
  computeMerkleRoot (block.vtx.map CTransaction.getHash) false

def blockWitnessMerkleRoot (block : CBlock) : Uint256 × Bool :=
  computeMerkleRoot (.null :: block.vtx.tail.map CTransaction.getWitnessHash) false

end

end Qogecoin.Consensus
