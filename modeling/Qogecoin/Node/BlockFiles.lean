import Qogecoin.Consensus.CheckBlock
import Qogecoin.Node.Pruning

/-! Which file `FindBlockPos` takes for a new block. A consensus rule limits the size of a block
without its witnesses, and an option the size of a file. File numbers are unbounded. -/
namespace Qogecoin.Pruning

open Codec Coins Consensus Script List

def maxBlockfileSize : UInt32 := 0x8000000

def blockfileLimit (fastprune : Bool) : UInt32 := if fastprune then 0x10000 else maxBlockfileSize

/-- The height of the tip is read without asking whether there is one. -/
def undoKeepsUp : (tip : Option Int) → (info : CBlockFileInfo) → Except Crash Bool
  | none, _ => .error .nullPointer
  | some nHeight, info => .ok (info.nHeightLast.toNat == toUnsigned nHeight)

/-- The loop, with the number of turns it may take: the file it ends at, and `finalize_undo`. It adds
the files that the table lacks. -/
def searchFile (info : Nat → CBlockFileInfo) (tip : Option Int) (nAddSize limit : UInt32) :
    Nat → Nat → Bool → Option (Except Crash (Nat × Bool))
  | 0, _, _ => none
  | turns + 1, nFile, finalizeUndo =>
    if (info nFile).nSize + nAddSize ≥ limit then
      match undoKeepsUp tip (info nFile) with
      | .error crash => some (.error crash)
      | .ok finalizeUndo => searchFile info tip nAddSize limit turns (nFile + 1) finalizeUndo
    else some (.ok (nFile, finalizeUndo))

/-- The search as `SaveBlockToDisk` starts it. -/
def findBlockFile (m : BlockManager) (tip : Option Int) (fastprune : Bool) (block : CBlock)
    (turns : Nat) : Option (Except Crash (Nat × Bool)) :=
  let nBlockSize := UInt32.ofNat (block.serialize true).length
  searchFile m.info tip (nBlockSize + 8) (blockfileLimit fastprune) turns m.m_last_blockfile false

def HasRoom (m : BlockManager) (fastprune : Bool) (block : CBlock) (nFile : Nat) : Prop :=
  (m.info nFile).nSize.toNat + (block.serialize true).length + 8 < (blockfileLimit fastprune).toNat

variable {m : BlockManager} {limit : UInt32}

theorem searchFile_eq_some {info : Nat → CBlockFileInfo} {tip : Option Int} {nAddSize : UInt32}
    {first nFile : Nat} {finalizeUndo : Bool} :
    (∃ turns finalized, searchFile info tip nAddSize limit turns first finalizeUndo =
        some (.ok (nFile, finalized))) ↔
      first ≤ nFile ∧ (tip = none → nFile = first) ∧ (info nFile).nSize + nAddSize < limit ∧
        ∀ k, first ≤ k → k < nFile → limit ≤ (info k).nSize + nAddSize := by
  constructor
  · rintro ⟨turns, finalized, found⟩
    induction turns generalizing first finalizeUndo with
    | zero => cases found
    | succ turns ih =>
      rw [searchFile] at found
      split at found
      next full =>
        cases tip with
        | none => cases found
        | some nHeight =>
        obtain ⟨later, _, room, others⟩ := ih found
        refine ⟨by omega, nofun, room, ?_⟩
        intro k low high
        rcases low.eq_or_lt with rfl | low
        · exact full
        · exact others k low high
      next room =>
        cases found
        exact ⟨le_rfl, fun _ => rfl, UInt32.not_le.mp room, by omega⟩
  · rintro ⟨later, alone, room, others⟩
    obtain ⟨distance, same⟩ := Nat.exists_eq_add_of_le later
    refine ⟨distance + 1, ?_⟩
    induction distance generalizing first finalizeUndo with
    | zero =>
      obtain rfl : nFile = first := same
      exact ⟨_, if_neg (UInt32.not_le.mpr room)⟩
    | succ distance ih =>
      rw [searchFile, if_pos (others first le_rfl (by omega))]
      cases tip with
      | none => exact absurd (alone rfl) (by omega)
      | some _ => exact ih (by omega) nofun (fun k low => others k (by omega)) (by omega)

theorem searchFile_eq_none {info : Nat → CBlockFileInfo} {nHeight : Int} {nAddSize : UInt32}
    (full : ∀ nFile, limit ≤ (info nFile).nSize + nAddSize) (first : Nat) (finalizeUndo : Bool)
    (turns : Nat) :
    searchFile info (some nHeight) nAddSize limit turns first finalizeUndo = none := by
  induction turns generalizing first finalizeUndo with
  | zero => rfl
  | succ turns ih =>
    rw [searchFile, if_pos (full first)]
    exact ih _ _

theorem add_lt_limit_iff {nSize : UInt32} {size : Nat} (small : size + 8 < limit.toNat) :
    nSize + (UInt32.ofNat size + 8) < limit ↔
      nSize.toNat + size + 8 < limit.toNat ∨ 2 ^ 32 ≤ nSize.toNat + size + 8 := by
  have := nSize.toNat_lt
  have := limit.toNat_lt
  rw [UInt32.lt_iff_toNat_lt, UInt32.toNat_add, UInt32.toNat_add, UInt32.toNat_ofNat']
  show (_ + (_ + 8) % _) % _ < _ ↔ _
  omega

theorem exists_hasRoom {fastprune : Bool} {block : CBlock} (first : Nat)
    (small : (block.serialize true).length + 8 < (blockfileLimit fastprune).toNat) :
    ∃ nFile, first ≤ nFile ∧ HasRoom m fastprune block nFile := by
  refine ⟨max first m.m_blockfile_info.length, le_max_left _ _, ?_⟩
  rw [HasRoom, BlockManager.info, getD_eq_default _ _ (le_max_right _ _)]
  simpa [CBlockFileInfo.null] using small

open Classical in
/-- The search ends with a file that can hold the block exactly where an empty file can, no sum of
the sizes wraps around before the first file with room, and there is a tip if the search goes beyond
the last file. -/
theorem search_finds_room_iff (m : BlockManager) (tip : Option Int) (fastprune : Bool)
    (block : CBlock) :
    (∃ turns nFile finalizeUndo,
      findBlockFile m tip fastprune block turns = some (.ok (nFile, finalizeUndo)) ∧
      HasRoom m fastprune block nFile) ↔
    (block.serialize true).length + 8 < (blockfileLimit fastprune).toNat ∧
      (∀ nFile, m.m_last_blockfile ≤ nFile →
        (∀ k, m.m_last_blockfile ≤ k → k < nFile → ¬HasRoom m fastprune block k) →
        (m.info nFile).nSize.toNat + (block.serialize true).length + 8 < 2 ^ 32) ∧
      (tip = none → HasRoom m fastprune block m.m_last_blockfile) := by
  constructor
  · rintro ⟨turns, nFile, finalizeUndo, found, room⟩
    obtain ⟨after, alone, _, others⟩ := searchFile_eq_some.mp ⟨turns, finalizeUndo, found⟩
    have here := room
    have limited := (blockfileLimit fastprune).toNat_lt
    rw [HasRoom] at room
    have small : (block.serialize true).length + 8 < (blockfileLimit fastprune).toNat := by omega
    refine ⟨small, ?_, fun none => alone none ▸ here⟩
    intro k later none
    by_contra wraps
    rcases lt_trichotomy k nFile with before | rfl | past
    · have full := others k later before
      exact UInt32.not_lt.mpr full ((add_lt_limit_iff small).mpr (.inr (not_lt.mp wraps)))
    · omega
    · exact none nFile after past room
  · rintro ⟨small, wrapless, alone⟩
    have ends := exists_hasRoom (m := m) m.m_last_blockfile small
    obtain ⟨later, room⟩ := Nat.find_spec ends
    have none : ∀ k, m.m_last_blockfile ≤ k → k < Nat.find ends → ¬HasRoom m fastprune block k :=
      fun k low high fits => Nat.find_min ends high ⟨low, fits⟩
    have first : tip = .none → Nat.find ends = m.m_last_blockfile := fun noTip =>
      le_antisymm (Nat.find_le ⟨le_rfl, alone noTip⟩) later
    obtain ⟨turns, finalizeUndo, found⟩ : ∃ turns finalizeUndo,
        findBlockFile m tip fastprune block turns = some (.ok (Nat.find ends, finalizeUndo)) :=
      searchFile_eq_some.mpr ⟨later, first, (add_lt_limit_iff small).mpr (.inl room),
        fun k low high => by
          rw [← UInt32.not_lt, add_lt_limit_iff small, not_or]
          refine ⟨none k low high, not_le.mpr (wrapless k low ?_)⟩
          exact fun j low' less => none j low' (less.trans high)⟩
    exact ⟨turns, _, finalizeUndo, found, room⟩

/-- It starts with a push of more bytes than there are. -/
def largeScript : Bytes := 0x4e :: replicate 65535 0xff

def coinbaseTo (scriptPubKey : Bytes) : CTransaction where
  nVersion := 1
  vin := [⟨⟨.null, COutPoint.nullIndex⟩, [0x51, 0x51], CTxIn.sequenceFinal, []⟩]
  vout := [⟨0, scriptPubKey⟩]
  nLockTime := 0

def largeCoinbase : CTransaction := coinbaseTo largeScript

def largeBlock [Crypto] : CBlock where
  nVersion := 4
  hashPrevBlock := regTestParams.hashGenesisBlock
  hashMerkleRoot := largeCoinbase.getHash
  nTime := 1630500003
  nBits := 0x207fffff
  nNonce := 0
  vtx := [largeCoinbase]

def genesisChain : Chain := [⟨regTestParams.hashGenesisBlock, 1, 1630500002, 0x207fffff⟩]

def genesisStored : BlockManager where
  m_block_index := [⟨regTestParams.hashGenesisBlock, none, 0, 0, 8, 0, blockHaveData⟩]
  m_dirty_blockindex := []
  m_blocks_unlinked := []
  m_blockfile_info := [⟨1, 312, 0, 0, 0⟩]
  m_last_blockfile := 0
  m_dirty_fileinfo := []

theorem length_largeScript : largeScript.length = 65536 := by
  rw [largeScript, length_cons, length_replicate]

theorem size_coinbaseTo {script : Bytes} (long : script.length = 65536) (witness : Bool) :
    ((coinbaseTo script).serialize witness).length = 65602 := by
  simp [coinbaseTo, long, serializeVector, CTransaction.serialize, CTransaction.hasWitness,
    CTxIn.serialize, CTxOut.serialize, COutPoint.serialize, serializeBytes, writeCompactSize,
    serializeInt32, serializeUInt32, serializeInt64, Uint256.size]

theorem size_largeCoinbase (witness : Bool) : (largeCoinbase.serialize witness).length = 65602 :=
  size_coinbaseTo length_largeScript witness

theorem size_largeBlock [Crypto] (witness : Bool) :
    (largeBlock.serialize witness).length = 65683 := by
  simp [largeBlock, CBlock.serialize, CBlockHeader.serialize, serializeVector, size_largeCoinbase,
    writeCompactSize, serializeInt32, serializeUInt32, Uint256.size]

theorem getSigOpCount_largeScript : getSigOpCount largeScript false = 0 := by
  have size : pushSize Op.pushData4 (replicate 65535 0xff) = 2 ^ 32 - 1 := by
    have width : lengthWidth Op.pushData4 = 4 := by decide
    rw [pushSize, if_neg (by decide), width, take_replicate]
    decide
  have short : ∃ stop, getScriptOp largeScript = .error stop := by
    rw [largeScript, getScriptOp, if_pos (by decide), length_replicate, if_neg (by decide)]
    refine ⟨_, if_pos ?_⟩
    rw [show (0x4e : UInt8) = Op.pushData4 from rfl, size, length_drop, length_replicate]
    omega
  obtain ⟨stop, short⟩ := short
  have nonempty : largeScript ≠ [] := cons_ne_nil _ _
  rw [getSigOpCount, readOps, if_neg nonempty]
  split
  · rfl
  next read =>
    rw [short] at read
    cases read

theorem getLegacySigOpCount_coinbaseTo {script : Bytes} (none : getSigOpCount script false = 0) :
    getLegacySigOpCount (coinbaseTo script) = 0 := by
  have first : getScriptOp [0x51, 0x51] = .ok ⟨0x51, [], [0x51]⟩ := rfl
  have second : getScriptOp [0x51] = .ok ⟨0x51, [], []⟩ := rfl
  have scriptSig : getSigOpCount [0x51, 0x51] false = 0 := by
    rw [getSigOpCount, readOps_op first, readOps_op second, readOps_nil]
    rfl
  simp [getLegacySigOpCount, coinbaseTo, scriptSig, none]

theorem checkBlock_largeBlock : let _ := Crypto.firstBytes
    checkBlock largeBlock regTestParams (fun _ => true) true true = .returned () := by
  intro crypto
  have checked : checkTransactions largeBlock.vtx = .returned () := by
    show checkTransactions [largeCoinbase] = _
    rw [checkTransactions, checkTransaction, size_largeCoinbase]
    decide +kernel
  have sigOps : (largeBlock.vtx.map getLegacySigOpCount).sum = 0 := by
    have coinbase : getLegacySigOpCount largeCoinbase = 0 :=
      getLegacySigOpCount_coinbaseTo getSigOpCount_largeScript
    simp [largeBlock, coinbase]
  rw [checkBlock, size_largeBlock, checked, sigOps]
  decide +kernel

theorem contextualCheckBlock_largeBlock : let _ := Crypto.firstBytes
    contextualCheckBlock largeBlock regTestParams genesisChain = .returned () := by
  intro crypto
  have other : isWitnessCommitment ⟨0, largeScript⟩ = false := by
    rw [isWitnessCommitment, length_largeScript]
    decide +kernel
  have none : getWitnessCommitment largeBlock = none := by
    simp [getWitnessCommitment, largeBlock, largeCoinbase, coinbaseTo, other]
  rw [contextualCheckBlock, haveWitness, none, getBlockWeight, size_largeBlock, size_largeBlock]
  decide +kernel

/-- With `-fastprune` no file can hold the block, and none is found after the genesis block. -/
theorem large_block_finds_no_file :
    let _ := Crypto.firstBytes
    checkBlock largeBlock regTestParams (fun _ => true) true true = .returned () ∧
      contextualCheckBlock largeBlock regTestParams genesisChain = .returned () ∧
      ∀ turns, findBlockFile genesisStored (some 0) true largeBlock turns = none := by
  intro crypto
  refine ⟨checkBlock_largeBlock, contextualCheckBlock_largeBlock, searchFile_eq_none ?_ _ _⟩
  intro nFile
  rw [size_largeBlock]
  cases nFile with
  | zero => decide
  | succ nFile =>
    show blockfileLimit true ≤ CBlockFileInfo.null.nSize + _
    decide

end Qogecoin.Pruning
