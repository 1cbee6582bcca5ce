import Qogecoin.Coins.Compressor
import Qogecoin.Consensus.TxCheck
import Qogecoin.Primitives.Unserialize

/-! Coins on disk: those of the unspent output set, and undo data, the coins a block has spent, as
they are kept to take the block back. -/
namespace Qogecoin.Coins

open Codec Script Option Crypto List

structure CTxUndo where
  vprevout : List Coin
deriving DecidableEq, Repr

structure CBlockUndo where
  vtxundo : List CTxUndo
deriving DecidableEq, Repr

section

theorem compressible_of_spendable {out : CTxOut} (money : Consensus.MoneyRange out.nValue)
    (spendable : isUnspendable out.scriptPubKey = false) : Compressible out := by
  obtain ⟨low, high⟩ := (Consensus.moneyRange_iff _).mp money
  simp only [isUnspendable, Bool.or_eq_false_iff, decide_eq_false_iff_not, not_lt] at spendable
  exact ⟨low, high, spendable.2⟩

variable [Crypto] (coin : Coin)

def coinCode : Nat := coin.nHeight.toNat * 2 + coin.fCoinBase.toNat

/-- `Coin::Serialize`; `none` is its assertion that the coin is not spent. -/
def writeCoin : Option Bytes :=
  if coin.isSpent then none else some (writeVarInt (coinCode coin) ++ writeTxOut coin.out)

def readCoin : Reader Coin := fun bs => do
  let (code, bs) ← readVarInt (2 ^ 32 - 1) bs
  let (out, bs) ← readTxOut bs
  some (⟨out, code % 2 == 1, .ofNat 31 (code / 2)⟩, bs)

def writeTxInUndo : Bytes :=
  writeVarInt (coin.nHeight.toNat * 2 + coin.fCoinBase.toNat)
    ++ (if coin.nHeight.toNat > 0 then [0] else [])
    ++ writeTxOut coin.out

/-- Records with a height hold a version number of old transactions. -/
def readVersionDummy (nHeight : Nat) : Reader Nat := fun bs =>
  if nHeight > 0 then readVarInt (2 ^ 32 - 1) bs else some (0, bs)

def readTxInUndo : Reader Coin := fun bs => do
  let (nCode, bs) ← readVarInt (2 ^ 32 - 1) bs
  let nHeight := nCode / 2
  let (_, bs) ← readVersionDummy nHeight bs
  let (out, bs) ← readTxOut bs
  some (⟨out, nCode % 2 == 1, .ofNat 31 nHeight⟩, bs)

def CTxUndo.serialize (txundo : CTxUndo) : Bytes := serializeVector writeTxInUndo txundo.vprevout

def readTxUndo : Reader CTxUndo := fun bs => do
  let (vprevout, bs) ← readVector readTxInUndo bs
  some (⟨vprevout⟩, bs)

def CBlockUndo.serialize (blockundo : CBlockUndo) : Bytes :=
  serializeVector CTxUndo.serialize blockundo.vtxundo

def readBlockUndo : Reader CBlockUndo := fun bs => do
  let (vtxundo, bs) ← readVector readTxUndo bs
  some (⟨vtxundo⟩, bs)

/-- What `UndoWriteToDisk` puts at the position it records; `hashBlock` is the previous block. -/
def undoWriteToDisk (blockundo : CBlockUndo) (hashBlock : Uint256) : Bytes :=
  let data := blockundo.serialize
  data ++ (hash256 (hashBlock.bytes ++ data)).bytes

/-- `UndoReadFromDisk` at that position. The verifier hashes the bytes that were read. -/
def undoReadFromDisk (file : Bytes) (hashPrev : Uint256) : Option CBlockUndo := do
  let (blockundo, rest) ← readBlockUndo file
  let data := file.take (file.length - rest.length)
  let (hashChecksum, _) ← readBytes 32 rest
  if hashChecksum ≠ (hash256 (hashPrev.bytes ++ data)).bytes then none else some blockundo

omit [Crypto] in
theorem coinCode_le : coinCode coin ≤ 2 ^ 32 - 1 := by
  have flag := Bool.toNat_le coin.fCoinBase
  unfold coinCode
  omega

omit [Crypto] in
theorem coinCode_height : coinCode coin / 2 = coin.nHeight.toNat := by
  have flag := Bool.toNat_le coin.fCoinBase
  unfold coinCode
  omega

omit [Crypto] in
theorem coinCode_flag : (coinCode coin % 2 == 1) = coin.fCoinBase := by
  unfold coinCode
  cases coin.fCoinBase with
  | false => simp
  | true => simp [Nat.add_mod]

theorem readCoin_writeCoin (law : DecompressesKeys) {coin : Coin} (unspent : coin.isSpent = false)
    (valid : Compressible coin.out) (rest : Bytes) :
    ∃ bytes, writeCoin coin = some bytes ∧ readCoin (bytes ++ rest) = some (coin, rest) := by
  have code := reads_varInt (2 ^ 32 - 1) (coinCode coin) (writeTxOut coin.out ++ rest)
    (coinCode_le coin)
  have output := reads_txOut law coin.out rest valid
  refine ⟨writeVarInt (coinCode coin) ++ writeTxOut coin.out, ?_, ?_⟩
  · rw [writeCoin, if_neg (by simp [unspent])]
  · simp only [readCoin, append_assoc, code, bind_eq_bind, bind_some, output,
      coinCode_height, coinCode_flag, BitVec.ofNat_toNat, BitVec.setWidth_eq]

theorem reads_txInUndo (law : DecompressesKeys) :
    Reads (fun coin => Compressible coin.out) writeTxInUndo readTxInUndo := by
  intro coin rest valid
  have code := reads_varInt (2 ^ 32 - 1) (coinCode coin)
    ((if coin.nHeight.toNat > 0 then [0] else []) ++ (writeTxOut coin.out ++ rest))
    (coinCode_le coin)
  have dummy : readVersionDummy coin.nHeight.toNat
      ((if coin.nHeight.toNat > 0 then [0] else []) ++ (writeTxOut coin.out ++ rest)) =
      some (0, writeTxOut coin.out ++ rest) := by
    unfold readVersionDummy
    split
    · exact reads_varInt (2 ^ 32 - 1) 0 (writeTxOut coin.out ++ rest) (by omega)
    · rfl
  have output := reads_txOut law coin.out rest valid
  have written : writeTxInUndo coin = writeVarInt (coinCode coin) ++
      (if coin.nHeight.toNat > 0 then [0] else []) ++ writeTxOut coin.out := rfl
  simp only [written, readTxInUndo, append_assoc, code, bind_eq_bind, bind_some,
    coinCode_height, dummy, output, coinCode_flag, BitVec.ofNat_toNat, BitVec.setWidth_eq]

/-- A coin that can be spent is read back as it was written, from the unspent output set and from
undo data, whatever follows it. -/
theorem coin_survives_storage (law : DecompressesKeys) (coin : Coin)
    (money : Consensus.MoneyRange coin.out.nValue)
    (spendable : isUnspendable coin.out.scriptPubKey = false) (rest : Bytes) :
    (∃ bytes, writeCoin coin = some bytes ∧ readCoin (bytes ++ rest) = some (coin, rest)) ∧
      readTxInUndo (writeTxInUndo coin ++ rest) = some (coin, rest) := by
  have valid := compressible_of_spendable money spendable
  constructor
  · exact readCoin_writeCoin law (Consensus.isSpent_of_moneyRange money) valid rest
  · exact reads_txInUndo law coin rest valid

omit [Crypto] in
/-- Keys whose `y` is zero are the valid ones. -/
theorem coin_survives_storage_of_uncompressed_key :
    let _ : Crypto := { Crypto.blank with
      isFullyValid := fun pubkey => pubkey.drop 33 == replicate 32 0
      decompress := fun pubkey => some (0x04 :: pubkey.drop 1 ++ replicate 32 0) }
    let key := 0x04 :: replicate 32 7 ++ replicate 32 0
    let coin : Coin := ⟨⟨5000000000, 65 :: key ++ [Op.checkSig]⟩, true, 2147483647⟩
    (∃ bytes, writeCoin coin = some bytes ∧ readCoin (bytes ++ [1, 2]) = some (coin, [1, 2])) ∧
      readTxInUndo (writeTxInUndo coin ++ [1, 2]) = some (coin, [1, 2]) := by
  intro crypto key coin
  have law : DecompressesKeys := by
    intro x y sizeX sizeY valid
    have last : (x ++ y).drop 32 = replicate 32 0 := eq_of_beq valid
    rw [drop_left' sizeX] at last
    subst last
    rfl
  exact coin_survives_storage law coin (by decide) (by decide) [1, 2]

structure CBlockUndo.Storable (blockundo : CBlockUndo) : Prop where
  count : blockundo.vtxundo.length ≤ maxSize
  inputs : ∀ txundo ∈ blockundo.vtxundo, txundo.vprevout.length ≤ maxSize
  coins : ∀ txundo ∈ blockundo.vtxundo, ∀ coin ∈ txundo.vprevout, Compressible coin.out

theorem reads_blockUndo (law : DecompressesKeys) :
    Reads CBlockUndo.Storable CBlockUndo.serialize readBlockUndo := by
  have tx : Reads (fun txundo : CTxUndo => txundo.vprevout.length ≤ maxSize ∧
      ∀ coin ∈ txundo.vprevout, Compressible coin.out) CTxUndo.serialize readTxUndo := by
    intro txundo rest valid
    have coins := reads_vector (reads_txInUndo law) txundo.vprevout rest valid
    simp only [CTxUndo.serialize, readTxUndo, coins, bind_eq_bind, bind_some]
  intro blockundo rest storable
  have all := reads_vector tx blockundo.vtxundo rest
    ⟨storable.count, fun txundo member =>
      ⟨storable.inputs txundo member, storable.coins txundo member⟩⟩
  simp only [CBlockUndo.serialize, readBlockUndo, all, bind_eq_bind, bind_some]

/-- The checksum is over exactly the bytes written. -/
theorem undoReadFromDisk_undoWriteToDisk (law : DecompressesKeys) (blockundo : CBlockUndo)
    (storable : blockundo.Storable) (hashBlock : Uint256) :
    undoReadFromDisk (undoWriteToDisk blockundo hashBlock) hashBlock = some blockundo := by
  have data := reads_blockUndo law blockundo
    (hash256 (hashBlock.bytes ++ blockundo.serialize)).bytes storable
  have size := (hash256 (hashBlock.bytes ++ blockundo.serialize)).size
  have checksum := readBytes_append size []
  rw [append_nil] at checksum
  simp only [undoReadFromDisk, undoWriteToDisk, data, bind_eq_bind, bind_some,
    checksum, length_append, Nat.add_sub_cancel, take_left, ne_eq, not_true_eq_false,
    if_false]

end

end Qogecoin.Coins
