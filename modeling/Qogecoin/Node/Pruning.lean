import Qogecoin.Primitives.Transaction

/-! Pruning of block files. Which files may go is decided by the height of the highest block in each
of them, against a height that is computed with signed and unsigned numbers. -/
namespace Qogecoin.Pruning

open List

structure CBlockFileInfo where
  nBlocks : UInt32
  nSize : UInt32
  nUndoSize : UInt32
  nHeightFirst : UInt32
  nHeightLast : UInt32
deriving DecidableEq, Repr

def CBlockFileInfo.null : CBlockFileInfo := ⟨0, 0, 0, 0, 0⟩

def blockHaveData : UInt32 := 8
def blockHaveUndo : UInt32 := 16

structure CBlockIndex where
  hash : Uint256
  pprev : Option Uint256
  nHeight : Nat
  nFile : Nat
  nDataPos : UInt32
  nUndoPos : UInt32
  nStatus : UInt32
deriving DecidableEq, Repr

def CBlockIndex.pruned (pindex : CBlockIndex) : CBlockIndex := { pindex with
  nStatus := pindex.nStatus &&& ~~~blockHaveData &&& ~~~blockHaveUndo
  nFile := 0
  nDataPos := 0
  nUndoPos := 0 }

/-- `m_blocks_unlinked` is a multimap from parents to blocks. The dirty sets are lists. -/
structure BlockManager where
  m_block_index : List CBlockIndex
  m_dirty_blockindex : List Uint256
  m_blocks_unlinked : List (Option Uint256 × Uint256)
  m_blockfile_info : List CBlockFileInfo
  m_last_blockfile : Nat
  m_dirty_fileinfo : List Nat
deriving DecidableEq, Repr

variable (m : BlockManager)

def BlockManager.info (fileNumber : Nat) : CBlockFileInfo :=
  m.m_blockfile_info.getD fileNumber .null

def unlink (unlinked : List (Option Uint256 × Uint256)) (pindex : CBlockIndex) :
    List (Option Uint256 × Uint256) :=
  unlinked.filter (· ≠ (pindex.pprev, pindex.hash))

def pruneOneBlockFile (fileNumber : Nat) : BlockManager :=
  let inFile := m.m_block_index.filter (·.nFile = fileNumber)
  { m with
    m_block_index := m.m_block_index.map fun pindex =>
      if pindex.nFile = fileNumber then pindex.pruned else pindex
    m_dirty_blockindex := inFile.map (·.hash) ++ m.m_dirty_blockindex
    m_blocks_unlinked := inFile.foldl unlink m.m_blocks_unlinked
    m_blockfile_info := m.m_blockfile_info.set fileNumber .null
    m_dirty_fileinfo := fileNumber :: m.m_dirty_fileinfo }

def minBlocksToKeep : Nat := 288

def toUnsigned (n : Int) : Nat := (n % 2 ^ 32).toNat

def pruneFiles (enough : UInt64 → Bool) (nLastBlockWeCanPrune : Nat) :
    List Nat → UInt64 → BlockManager → BlockManager × List Nat
  | [], _, m => (m, [])
  | fileNumber :: rest, nCurrentUsage, m =>
    let info := m.info fileNumber
    if info.nSize = 0 then pruneFiles enough nLastBlockWeCanPrune rest nCurrentUsage m
    else if enough nCurrentUsage then (m, [])
    else if info.nHeightLast.toNat > nLastBlockWeCanPrune then
      pruneFiles enough nLastBlockWeCanPrune rest nCurrentUsage m
    else
      let nBytesToPrune := (info.nSize + info.nUndoSize).toUInt64
      let (m, setFilesToPrune) := pruneFiles enough nLastBlockWeCanPrune rest
        (nCurrentUsage - nBytesToPrune) (pruneOneBlockFile m fileNumber)
      (m, fileNumber :: setFilesToPrune)

/-- `none` is its assertion. What is subtracted from the height of the tip is unsigned. -/
def findFilesToPruneManual (nManualPruneHeight chainTipHeight : Int) :
    Option (BlockManager × List Nat) :=
  if nManualPruneHeight ≤ 0 then none
  else if chainTipHeight < 0 then some (m, [])
  else
    let nLastBlockWeCanPrune :=
      min (toUnsigned nManualPruneHeight) (toUnsigned (chainTipHeight - minBlocksToKeep))
    some (pruneFiles (fun _ => false) nLastBlockWeCanPrune (range m.m_last_blockfile) 0 m)

def calculateCurrentUsage : UInt64 :=
  m.m_blockfile_info.foldl (fun retval file => retval + (file.nSize + file.nUndoSize).toUInt64) 0

def blockfileChunkSize : UInt64 := 0x1000000
def undofileChunkSize : UInt64 := 0x100000

/-- While blocks are downloaded it is larger, so that pruning is not due again too soon. -/
def pruneBuffer (nPruneTarget : UInt64) (isIbd : Bool) : UInt64 :=
  let nBuffer := blockfileChunkSize + undofileChunkSize
  if isIbd then nBuffer + nPruneTarget / 10 else nBuffer

def findFilesToPrune (nPruneTarget : UInt64) (nPruneAfterHeight : Nat)
    (chainTipHeight pruneHeight : Int) (isIbd : Bool) : BlockManager × List Nat :=
  if chainTipHeight < 0 ∨ nPruneTarget = 0 then (m, [])
  else if chainTipHeight ≤ nPruneAfterHeight then (m, [])
  else
    let nLastBlockWeCanPrune := toUnsigned (min pruneHeight (chainTipHeight - minBlocksToKeep))
    let nCurrentUsage := calculateCurrentUsage m
    if nCurrentUsage + pruneBuffer nPruneTarget false ≥ nPruneTarget then
      pruneFiles (· + pruneBuffer nPruneTarget isIbd < nPruneTarget) nLastBlockWeCanPrune
        (range m.m_last_blockfile) nCurrentUsage m
    else (m, [])

def pruneLockBuffer : Int := 10

/-- `last_prune` of `FlushStateToDisk`, for the heights of the prune locks. -/
def lastPrune (height : Int) (locks : List Int) : Int :=
  locks.foldl (fun last heightFirst =>
    if heightFirst = 2 ^ 31 - 1 then last
    else max 1 (min last (heightFirst - pruneLockBuffer - 1))) height

inductive Network where
  | main
  | test
  | signet
  | regtest (fastprune : Bool)
deriving DecidableEq, Repr

def Network.pruneAfterHeight : Network → Nat
  | .main => 100000
  | .test | .signet => 1000
  | .regtest fastprune => if fastprune then 100 else 1000

/-- The height `pruneblockchain` goes on with. All of its numbers are unsigned. -/
def pruneBlockchain (network : Network) (height chainHeight : Nat) : Option Nat :=
  if chainHeight < network.pruneAfterHeight then none
  else if height > chainHeight then none
  else some (min height (toUnsigned (chainHeight - minBlocksToKeep)))

section

variable {m : BlockManager}

theorem info_pruneOneBlockFile_of_ne {fileNumber other : Nat} (different : other ≠ fileNumber) :
    (pruneOneBlockFile m fileNumber).info other = m.info other := by
  unfold BlockManager.info pruneOneBlockFile
  rw [getD_eq_getElem?_getD, getElem?_set_ne different.symm,
    ← getD_eq_getElem?_getD]

abbrev Prunable (m : BlockManager) (last fileNumber : Nat) : Prop :=
  (m.info fileNumber).nSize ≠ 0 ∧ (m.info fileNumber).nHeightLast.toNat ≤ last

/-- The usage after all files below this one that may go are gone. -/
def usageAt (m : BlockManager) (last : Nat) (usage : UInt64) : Nat → UInt64
  | 0 => usage
  | fileNumber + 1 =>
    let info := m.info fileNumber
    if Prunable m last fileNumber then
      usageAt m last usage fileNumber - (info.nSize + info.nUndoSize).toUInt64
    else usageAt m last usage fileNumber

variable {files : List Nat} {height tip : Int}

/-- A file goes if it may, and if the usage was not yet small enough at any file up to it. -/
theorem mem_pruneFiles_iff {enough : UInt64 → Bool} {last : Nat} {usage : UInt64}
    {fileNumber : Nat} (first count : Nat) {m' : BlockManager}
    (same : ∀ file, first ≤ file → m'.info file = m.info file) :
    fileNumber ∈ (pruneFiles enough last (range' first count) (usageAt m last usage first) m').2 ↔
      first ≤ fileNumber ∧ fileNumber < first + count ∧ Prunable m last fileNumber ∧
        ∀ file, first ≤ file → file ≤ fileNumber → (m.info file).nSize ≠ 0 →
          enough (usageAt m last usage file) = false := by
  induction count generalizing first m' with
  | zero =>
    constructor
    · nofun
    · omega
  | succ count ih =>
    have above : ∀ file, first + 1 ≤ file → m'.info file = m.info file :=
      fun file later => same file (by omega)
    rw [range'_succ, pruneFiles, same first le_rfl]
    split
    next empty =>
      have next : usageAt m last usage (first + 1) = usageAt m last usage first :=
        if_neg fun prunable => prunable.1 empty
      rw [← next, ih (first + 1) above]
      grind
    next full =>
    split
    · grind
    next more =>
    split
    next high =>
      have next : usageAt m last usage (first + 1) = usageAt m last usage first :=
        if_neg fun prunable => by omega
      rw [← next, ih (first + 1) above]
      grind
    next low =>
      have prunable : Prunable m last first := ⟨full, not_lt.mp low⟩
      have next : usageAt m last usage (first + 1) = usageAt m last usage first -
          ((m.info first).nSize + (m.info first).nUndoSize).toUInt64 := if_pos prunable
      have pruned : ∀ file, first + 1 ≤ file →
          (pruneOneBlockFile m' first).info file = m.info file := fun file later =>
        (info_pruneOneBlockFile_of_ne (by omega)).trans (above file later)
      dsimp only
      rw [← next, mem_cons, ih (first + 1) pruned]
      grind

theorem toUnsigned_of_nonneg {n : Int} (nonnegative : 0 ≤ n) (int : n < 2 ^ 31) :
    (toUnsigned n : Int) = n := by
  unfold toUnsigned
  omega

theorem lastPrune_nonneg (locks : List Int) (nonnegative : 0 ≤ height) :
    0 ≤ lastPrune height locks := by
  unfold lastPrune
  induction locks generalizing height with
  | nil => exact nonnegative
  | cons heightFirst locks ih =>
    rw [foldl_cons]
    apply ih
    split
    · exact nonnegative
    · omega

def CBlockIndex.StoredIn (pindex : CBlockIndex) (fileNumber : Nat) : Prop :=
  pindex.nStatus &&& blockHaveData ≠ 0 ∧ pindex.nFile = fileNumber

structure Layout (m : BlockManager) : Prop where
  highest : ∀ pindex ∈ m.m_block_index, ∀ fileNumber, pindex.StoredIn fileNumber →
    pindex.nHeight ≤ (m.info fileNumber).nHeightLast.toNat
  parents : ∀ entry ∈ m.m_blocks_unlinked, ∀ pindex ∈ m.m_block_index,
    pindex.hash = entry.2 → entry.1 = pindex.pprev

/-- None of the files has a block that is among the last `MIN_BLOCKS_TO_KEEP` below the tip, or
above it. -/
def KeepsRecent (m : BlockManager) (chainTipHeight : Int) (setFilesToPrune : List Nat) : Prop :=
  ∀ fileNumber ∈ setFilesToPrune, ∀ pindex ∈ m.m_block_index, pindex.StoredIn fileNumber →
    pindex.nHeight ≤ chainTipHeight - minBlocksToKeep

def Blockless (m : BlockManager) (fileNumber : Nat) : Prop :=
  ∀ pindex ∈ m.m_block_index, ¬pindex.StoredIn fileNumber

/-- Pruning in order does not get the usage below the target before it comes to this file. -/
def OverTarget (m : BlockManager) (nPruneTarget : UInt64) (isIbd : Bool) (last fileNumber : Nat) :
    Prop :=
  nPruneTarget ≠ 0 ∧ calculateCurrentUsage m + pruneBuffer nPruneTarget false ≥ nPruneTarget ∧
    ∀ file ≤ fileNumber, (m.info file).nSize ≠ 0 →
      usageAt m last (calculateCurrentUsage m) file + pruneBuffer nPruneTarget isIbd ≥ nPruneTarget

def Cleared (m m' : BlockManager) (fileNumber : Nat) : Prop :=
  ∀ (i : Nat) (pindex : CBlockIndex), m.m_block_index[i]? = some pindex →
    pindex.nFile = fileNumber →
    ∃ pindex', m'.m_block_index[i]? = some pindex' ∧ pindex'.hash = pindex.hash ∧
      pindex'.nStatus &&& (blockHaveData ||| blockHaveUndo) = 0 ∧
      ∀ entry ∈ m'.m_blocks_unlinked, entry.2 ≠ pindex.hash

theorem mem_foldl_unlink {entry : Option Uint256 × Uint256} {inFile : List CBlockIndex}
    {unlinked : List (Option Uint256 × Uint256)} :
    entry ∈ inFile.foldl unlink unlinked ↔
      entry ∈ unlinked ∧ ∀ pindex ∈ inFile, entry ≠ (pindex.pprev, pindex.hash) := by
  induction inFile generalizing unlinked with
  | nil => simp
  | cons pindex rest ih =>
    rw [foldl_cons, ih, unlink, mem_filter, forall_mem_cons, and_assoc]
    simp

variable (layout : Layout m)

include layout

theorem cleared_pruneOneBlockFile (fileNumber : Nat) :
    Cleared m (pruneOneBlockFile m fileNumber) fileNumber := by
  intro i pindex found inFile
  have member := mem_of_getElem? found
  refine ⟨pindex.pruned, ?_, rfl, ?_, ?_⟩
  · simp [pruneOneBlockFile, found, inFile]
  · simp only [CBlockIndex.pruned, UInt32.and_assoc]
    exact UInt32.and_zero
  · intro entry left same
    obtain ⟨before, others⟩ := mem_foldl_unlink.mp left
    refine others pindex (mem_filter.mpr ⟨member, by simpa using inFile⟩) ?_
    exact Prod.ext (layout.parents entry before pindex member same.symm) same

theorem keepsRecent_of_le {last : Nat} (deep : (last : Int) ≤ tip - minBlocksToKeep)
    (selected : ∀ fileNumber ∈ files, Prunable m last fileNumber) : KeepsRecent m tip files := by
  intro fileNumber member pindex known stored
  have low := (selected fileNumber member).2
  have high := layout.highest pindex known fileNumber stored
  omega

omit layout in
theorem keepsRecent_iff_blockless (short : tip < minBlocksToKeep) :
    KeepsRecent m tip files ↔ ∀ fileNumber ∈ files, Blockless m fileNumber := by
  constructor
  · intro keeps fileNumber member pindex known stored
    have low := keeps fileNumber member pindex known stored
    omega
  · exact fun blockless fileNumber member pindex known stored =>
      absurd stored (blockless fileNumber member pindex known)

omit layout in
theorem toUnsigned_of_neg {n : Int} (negative : n < 0) (int : -2 ^ 31 ≤ n) :
    (toUnsigned n : Int) = n + 2 ^ 32 := by
  unfold toUnsigned
  omega

omit layout in
theorem mem_findFilesToPruneManual {m' : BlockManager}
    (found : findFilesToPruneManual m height tip = some (m', files)) (nonnegative : 0 ≤ tip)
    (fileNumber : Nat) : fileNumber ∈ files ↔ fileNumber < m.m_last_blockfile ∧
      Prunable m (min (toUnsigned height) (toUnsigned (tip - minBlocksToKeep))) fileNumber := by
  unfold findFilesToPruneManual at found
  rw [if_neg (not_lt.mpr nonnegative)] at found
  split at found
  · cases found
  · obtain rfl : _ = files := congrArg Prod.snd (Option.some.inj found)
    rw [range_eq_range']
    refine (mem_pruneFiles_iff 0 _ fun _ _ => rfl).trans ?_
    simp

omit layout in
theorem mem_findFilesToPrune (target : UInt64) {after : Nat} (isIbd : Bool) (height : Int)
    (high : (after : Int) < tip) (fileNumber : Nat) :
    fileNumber ∈ (findFilesToPrune m target after tip height isIbd).2 ↔
      fileNumber < m.m_last_blockfile ∧
        Prunable m (toUnsigned (min height (tip - minBlocksToKeep))) fileNumber ∧
        OverTarget m target isIbd (toUnsigned (min height (tip - minBlocksToKeep))) fileNumber := by
  unfold findFilesToPrune OverTarget
  by_cases unset : target = 0
  · simp [unset]
  have due : ¬(tip < 0 ∨ target = 0) := by
    rintro (low | none)
    · omega
    · exact unset none
  rw [if_neg due, if_neg (not_le.mpr high)]
  dsimp only
  generalize calculateCurrentUsage m = usage
  split
  next full =>
    rw [range_eq_range']
    refine (mem_pruneFiles_iff 0 _ fun _ _ => rfl).trans ?_
    simp [unset, full]
  next room => simp [room]

theorem manual_keepsRecent_iff (int : tip < 2 ^ 31) {m' : BlockManager} (small : height < 2 ^ 31)
    (found : findFilesToPruneManual m height tip = some (m', files)) :
    KeepsRecent m tip files ↔ tip < 0 ∨ minBlocksToKeep ≤ tip ∨
      ∀ fileNumber < m.m_last_blockfile, Prunable m height.toNat fileNumber →
        Blockless m fileNumber := by
  by_cases negative : tip < 0
  · have none : files = [] := by
      unfold findFilesToPruneManual at found
      rw [if_pos negative] at found
      split at found <;> cases found
      rfl
    simp [negative, none, KeepsRecent]
  have selected := mem_findFilesToPruneManual found (not_lt.mp negative)
  by_cases deep : minBlocksToKeep ≤ tip
  · have converted := toUnsigned_of_nonneg (n := tip - minBlocksToKeep) (by omega) (by omega)
    have keeps : KeepsRecent m tip files := keepsRecent_of_le layout (by omega)
      fun file member => ((selected file).mp member).2
    simp [deep, keeps]
  · have positive : 0 < height := by
      by_contra low
      rw [findFilesToPruneManual, if_pos (by omega)] at found
      cases found
    have limit := toUnsigned_of_neg (n := tip - minBlocksToKeep) (by omega)
      (by simp only [minBlocksToKeep]; omega)
    have asked := toUnsigned_of_nonneg (n := height) (by omega) small
    have wrapped : min (toUnsigned height) (toUnsigned (tip - minBlocksToKeep)) =
        height.toNat := by
      simp only [minBlocksToKeep] at limit ⊢
      omega
    rw [keepsRecent_iff_blockless (not_le.mp deep)]
    simp [negative, deep, selected, wrapped]

theorem automatic_keepsRecent_iff (int : tip < 2 ^ 31) (target : UInt64) (after : Nat)
    (locks : List Int) (isIbd : Bool) :
    KeepsRecent m tip (findFilesToPrune m target after tip (lastPrune tip locks) isIbd).2 ↔
      tip ≤ after ∨ minBlocksToKeep ≤ tip ∨
        ∀ fileNumber < m.m_last_blockfile, Prunable m (2 ^ 32 - 288 + tip).toNat fileNumber →
          OverTarget m target isIbd (2 ^ 32 - 288 + tip).toNat fileNumber →
          Blockless m fileNumber := by
  by_cases early : tip ≤ after
  · have none : (findFilesToPrune m target after tip (lastPrune tip locks) isIbd).2 = [] := by
      unfold findFilesToPrune
      rw [if_pos early]
      split <;> rfl
    simp [early, none, KeepsRecent]
  have selected := @mem_findFilesToPrune m tip target after isIbd (lastPrune tip locks) (not_le.mp early)
  have low := lastPrune_nonneg locks (show 0 ≤ tip by omega)
  by_cases deep : minBlocksToKeep ≤ tip
  · have converted := toUnsigned_of_nonneg (n := min (lastPrune tip locks)
      (tip - minBlocksToKeep)) (by omega) (by omega)
    have keeps : KeepsRecent m tip
        (findFilesToPrune m target after tip (lastPrune tip locks) isIbd).2 :=
      keepsRecent_of_le layout (by omega) fun file member => ((selected file).mp member).2.1
    simp [deep, keeps]
  · have limit := toUnsigned_of_neg (n := tip - minBlocksToKeep) (by omega)
      (by simp only [minBlocksToKeep]; omega)
    have wrapped : toUnsigned (min (lastPrune tip locks) (tip - minBlocksToKeep)) =
        (2 ^ 32 - 288 + tip).toNat := by
      rw [min_eq_right (by omega)]
      simp only [minBlocksToKeep] at limit ⊢
      omega
    rw [wrapped] at selected
    rw [keepsRecent_iff_blockless (not_le.mp deep)]
    simp only [selected, early, deep, false_or, and_imp]

/-- Recent blocks are kept exactly where the tip is high enough, or a shorter chain is not pruned
or loses no block: the limit that depends on the tip has wrapped around there, and no more than the
height that was asked for, or the target, keeps a file. -/
theorem prune_keeps_recent_iff {tip : Int} (int : tip < 2 ^ 31) :
    (∀ height m' files, height < 2 ^ 31 → findFilesToPruneManual m height tip = some (m', files) →
      (KeepsRecent m tip files ↔ tip < 0 ∨ minBlocksToKeep ≤ tip ∨
        ∀ fileNumber < m.m_last_blockfile, Prunable m height.toNat fileNumber →
          Blockless m fileNumber)) ∧
    (∀ target (after : Nat) locks isIbd,
      KeepsRecent m tip (findFilesToPrune m target after tip (lastPrune tip locks) isIbd).2 ↔
        tip ≤ after ∨ minBlocksToKeep ≤ tip ∨
          ∀ fileNumber < m.m_last_blockfile, Prunable m (2 ^ 32 - 288 + tip).toNat fileNumber →
            OverTarget m target isIbd (2 ^ 32 - 288 + tip).toNat fileNumber →
            Blockless m fileNumber) ∧
    ∀ fileNumber, Cleared m (pruneOneBlockFile m fileNumber) fileNumber := by
  exact ⟨fun _ _ _ small found => manual_keepsRecent_iff layout int small found,
    automatic_keepsRecent_iff layout int, cleared_pruneOneBlockFile layout⟩

end

def twoFiles : BlockManager where
  m_block_index := [⟨.uint256S 1, none, 100, 0, 8, 8, blockHaveData ||| blockHaveUndo⟩]
  m_dirty_blockindex := []
  m_blocks_unlinked := []
  m_blockfile_info := [⟨1, 65000, 1000, 100, 100⟩, ⟨0, 0, 0, 0, 0⟩]
  m_last_blockfile := 1
  m_dirty_fileinfo := []

theorem layout_twoFiles : Layout twoFiles where
  highest pindex member fileNumber stored := by
    cases mem_singleton.mp member
    cases stored.2
    decide
  parents := nofun

theorem prune_keeps_recent_at_400 :
    (findFilesToPrune twoFiles 1 100 400 (lastPrune 400 []) false).2 = [0] ∧
      KeepsRecent twoFiles 400 (findFilesToPrune twoFiles 1 100 400 (lastPrune 400 []) false).2 :=
  ⟨by decide, ((prune_keeps_recent_iff layout_twoFiles (by decide)).2.1 1 100 [] false).mpr
    (.inr (.inl (by decide)))⟩

/-- With `-fastprune` the chain may be shorter than `MIN_BLOCKS_TO_KEEP` when it is pruned. -/
theorem recent_block_pruned_on_regtest :
    Layout twoFiles ∧ pruneBlockchain (.regtest true) 120 150 = some 120 ∧
      (findFilesToPruneManual twoFiles (min (lastPrune 150 []) 120) 150).map Prod.snd = some [0] ∧
      ¬KeepsRecent twoFiles 150 [0] := by
  refine ⟨layout_twoFiles, by decide, by decide, ?_⟩
  intro keeps
  have low := keeps 0 mem_cons_self _ mem_cons_self ⟨by decide, rfl⟩
  exact absurd low (by decide)

end Qogecoin.Pruning
