import Qogecoin.Coins.Program
import Qogecoin.Primitives.Unserialize
import Mathlib.Data.List.GetD

/-! `CPartialMerkleTree`: a part of the Merkle tree of a block that proves which transactions are in
it. The levels of the tree it goes through are those of `ComputeMerkleRoot`. -/
namespace Qogecoin

open Codec Crypto Coins Consensus Nat

structure CPartialMerkleTree where
  nTransactions : UInt32
  /-- Whether a node is the parent of a matched transaction, in depth-first order. -/
  vBits : List Bool
  vHash : List Uint256
  fBad : Bool
deriving DecidableEq, Repr

def bitsToBytes (bits : List Bool) : Bytes :=
  (List.range ((bits.length + 7) / 8)).map fun i =>
    (List.range 8).foldl (fun byte j =>
      byte ||| (bits.getD (8 * i + j) false).toUInt8 <<< .ofNat j) 0

def bytesToBits (bytes : Bytes) : List Bool :=
  (List.range (bytes.length * 8)).map fun p =>
    decide (bytes.getD (p / 8) 0 &&& (1 : UInt8) <<< .ofNat (p % 8) ≠ 0)

namespace CPartialMerkleTree

def serialize (tree : CPartialMerkleTree) : Bytes :=
  serializeUInt32 tree.nTransactions ++ serializeVector Uint256.bytes tree.vHash ++
    serializeBytes (bitsToBytes tree.vBits)

def unserialize : Reader CPartialMerkleTree := fun bs => do
  let (nTransactions, bs) ← readUInt32 bs
  let (vHash, bs) ← readVector readUint256 bs
  let (bytes, bs) ← unserializeBytes bs
  some (⟨nTransactions, bytesToBits bytes, vHash, false⟩, bs)

def calcTreeWidth (nTransactions : UInt32) (height : Nat) : Nat :=
  ((nTransactions.toNat + 2 ^ height - 1) % 2 ^ 32) >>> height

def heightFrom (nTransactions : UInt32) : Nat → Nat → Nat
  | 0, nHeight => nHeight
  | fuel + 1, nHeight =>
    if calcTreeWidth nTransactions nHeight > 1 then heightFrom nTransactions fuel (nHeight + 1)
    else nHeight

def treeHeight (nTransactions : UInt32) : Nat := heightFrom nTransactions 32 0

variable [Crypto]

def calcHash (nTransactions : UInt32) (vTxid : List Uint256) : Nat → Nat → Uint256
  | 0, pos => vTxid.getD pos .null
  | height + 1, pos =>
    let left := calcHash nTransactions vTxid height (pos * 2)
    let right := if pos * 2 + 1 < calcTreeWidth nTransactions height then
      calcHash nTransactions vTxid height (pos * 2 + 1) else left
    hash256 (left.bytes ++ right.bytes)

def parentOfMatch (nTransactions : UInt32) (vMatch : List Bool) (height pos : Nat) : Bool :=
  (List.range' (pos <<< height) (1 <<< height)).any fun p =>
    p < nTransactions.toNat && vMatch.getD p false

def traverseAndBuild (nTransactions : UInt32) (vTxid : List Uint256) (vMatch : List Bool) :
    Nat → Nat → List Bool × List Uint256
  | 0, pos =>
    ([parentOfMatch nTransactions vMatch 0 pos], [calcHash nTransactions vTxid 0 pos])
  | height + 1, pos =>
    if parentOfMatch nTransactions vMatch (height + 1) pos then
      let left := traverseAndBuild nTransactions vTxid vMatch height (pos * 2)
      let right := if pos * 2 + 1 < calcTreeWidth nTransactions height then
        traverseAndBuild nTransactions vTxid vMatch height (pos * 2 + 1) else ([], [])
      (true :: (left.1 ++ right.1), left.2 ++ right.2)
    else ([false], [calcHash nTransactions vTxid (height + 1) pos])

def ofTxids (vTxid : List Uint256) (vMatch : List Bool) : Except Crash CPartialMerkleTree :=
  if vTxid = [] then .error .assertion
  else
    let nTransactions := UInt32.ofNat vTxid.length
    let stored := traverseAndBuild nTransactions vTxid vMatch (treeHeight nTransactions) 0
    .ok ⟨nTransactions, stored.1, stored.2, false⟩

structure Extraction where
  fBad : Bool
  nBitsUsed : Nat
  nHashUsed : Nat
  vMatch : List Uint256
  vnIndex : List Nat
deriving DecidableEq, Repr

variable (tree : CPartialMerkleTree)

def useHash (s : Extraction) : Uint256 × Extraction :=
  match tree.vHash[s.nHashUsed]? with
  | none => (.null, { s with fBad := true })
  | some hash => (hash, { s with nHashUsed := s.nHashUsed + 1 })

def traverseAndExtract (tree : CPartialMerkleTree) : Nat → Nat → Extraction → Uint256 × Extraction
  | 0, pos, s =>
    match tree.vBits[s.nBitsUsed]? with
    | none => (.null, { s with fBad := true })
    | some fParentOfMatch =>
      let s := { s with nBitsUsed := s.nBitsUsed + 1 }
      match tree.vHash[s.nHashUsed]? with
      | none => (.null, { s with fBad := true })
      | some hash =>
        let s := { s with nHashUsed := s.nHashUsed + 1 }
        if fParentOfMatch then
          (hash, { s with vMatch := s.vMatch ++ [hash], vnIndex := s.vnIndex ++ [pos] })
        else (hash, s)
  | height + 1, pos, s =>
    match tree.vBits[s.nBitsUsed]? with
    | none => (.null, { s with fBad := true })
    | some fParentOfMatch =>
      let s := { s with nBitsUsed := s.nBitsUsed + 1 }
      if fParentOfMatch then
        let (left, s) := traverseAndExtract tree height (pos * 2) s
        if pos * 2 + 1 < calcTreeWidth tree.nTransactions height then
          let (right, s) := traverseAndExtract tree height (pos * 2 + 1) s
          (hash256 (left.bytes ++ right.bytes), { s with fBad := s.fBad || right = left })
        else (hash256 (left.bytes ++ left.bytes), s)
      else useHash tree s

def maxTransactions : Nat := maxBlockWeight / (witnessScaleFactor * 60)

/-- `ExtractMatches`: the root, or null in case of failure, with the matched transactions and their
positions, which are put behind `vnIndex`. -/
def extractMatches (vnIndex : List Nat) : Uint256 × List Uint256 × List Nat :=
  if tree.nTransactions = 0 then (.null, [], vnIndex)
  else if tree.nTransactions.toNat > maxTransactions then (.null, [], vnIndex)
  else if tree.vHash.length > tree.nTransactions.toNat then (.null, [], vnIndex)
  else if tree.vBits.length < tree.vHash.length then (.null, [], vnIndex)
  else
    let (hashMerkleRoot, s) := traverseAndExtract tree (treeHeight tree.nTransactions) 0
      ⟨tree.fBad, 0, 0, [], vnIndex⟩
    let result := if s.fBad then .null
      else if (s.nBitsUsed + 7) / 8 ≠ (tree.vBits.length + 7) / 8 then .null
      else if s.nHashUsed ≠ tree.vHash.length then .null
      else hashMerkleRoot
    (result, s.vMatch, s.vnIndex)

end CPartialMerkleTree

end Qogecoin

namespace Qogecoin.CPartialMerkleTree

open Codec Crypto Consensus List

theorem byte_bits (f : Nat → Bool) {j : Nat} (small : j < 8) :
    decide ((range 8).foldl (fun byte j => byte ||| (f j).toUInt8 <<< .ofNat j) 0 &&&
      (1 : UInt8) <<< .ofNat j ≠ 0) = f j := by
  have closed : ∀ g : Fin 8 → Bool, ∀ j : Fin 8, decide ((finRange 8).foldl (fun byte j =>
      byte ||| (g j).toUInt8 <<< .ofNat j) 0 &&& (1 : UInt8) <<< .ofNat j ≠ 0) = g j := by
    decide +kernel
  exact closed (fun j => f j) ⟨j, small⟩

theorem bytesToBits_bitsToBytes (bits : List Bool) :
    bytesToBits (bitsToBytes bits) =
      bits ++ List.replicate ((bits.length + 7) / 8 * 8 - bits.length) false := by
  have size : (bitsToBytes bits).length = (bits.length + 7) / 8 := by
    rw [bitsToBytes, length_map, length_range]
  rw [bytesToBits, size]
  apply ext_getElem
  · rw [length_map, length_range, length_append, length_replicate]
    omega
  · intro p inside _
    rw [length_map, length_range] at inside
    have byte : (bitsToBytes bits).getD (p / 8) 0 = (List.range 8).foldl (fun byte j =>
        byte ||| (bits.getD (8 * (p / 8) + j) false).toUInt8 <<< .ofNat j) 0 := by
      rw [bitsToBytes, getD_eq_getElem _ _ (by
        rw [length_map, length_range]
        omega), getElem_map, getElem_range]
    rw [getElem_map, getElem_range, byte,
      byte_bits (fun j => bits.getD (8 * (p / 8) + j) false) (Nat.mod_lt p (by decide)),
      Nat.div_add_mod]
    by_cases stored : p < bits.length
    · rw [getD_eq_getElem _ _ stored, getElem_append_left stored]
    · rw [getD_eq_default _ _ (Nat.le_of_not_lt stored),
        getElem_append_right (Nat.le_of_not_lt stored), getElem_replicate]

def width (n height : Nat) : Nat := (n + 2 ^ height - 1) / 2 ^ height

theorem width_zero (n : Nat) : width n 0 = n := by
  rw [width, pow_zero, Nat.add_sub_cancel, Nat.div_one]

theorem width_succ (n height : Nat) : width n (height + 1) = (width n height + 1) / 2 := by
  have positive := Nat.two_pow_pos height
  have up : (n + 2 ^ height - 1) / 2 ^ height + 1 = (n + 2 ^ height - 1 + 2 ^ height) / 2 ^ height :=
    (Nat.add_div_right _ positive).symm
  rw [width, width, up, Nat.div_div_eq_div_mul, pow_succ]
  congr 1
  omega

theorem calcTreeWidth_eq {nTransactions : UInt32} {height : Nat}
    (few : nTransactions.toNat ≤ maxTransactions) (low : height ≤ 16) :
    calcTreeWidth nTransactions height = width nTransactions.toNat height := by
  have bound : 2 ^ height ≤ 2 ^ 16 := Nat.pow_le_pow_right (by decide) low
  rw [maxTransactions, maxBlockWeight, witnessScaleFactor] at few
  rw [calcTreeWidth, width, Nat.shiftRight_eq_div_pow, Nat.mod_eq_of_lt (by omega)]

theorem levelMutated_iff (hashes : List Uint256) : levelMutated hashes = true ↔
    ∃ i, 2 * i + 1 < hashes.length ∧ hashes.getD (2 * i) .null = hashes.getD (2 * i + 1) .null := by
  induction hashes using levelMutated.induct with
  | case1 left right rest ih =>
    rw [levelMutated, Bool.or_eq_true, beq_iff_eq, ih]
    constructor
    · rintro (same | ⟨i, inside, same⟩)
      · exact ⟨0, by simp, by simpa using same⟩
      · refine ⟨i + 1, by simp only [length_cons]; omega, ?_⟩
        simpa [mul_add] using same
    · rintro ⟨i, inside, same⟩
      cases i with
      | zero => exact .inl (by simpa using same)
      | succ i =>
        refine .inr ⟨i, by simp only [length_cons] at inside; omega, ?_⟩
        simpa [mul_add] using same
  | case2 hashes short =>
    match hashes, short with
    | [], _ => simp [levelMutated]
    | [_], _ => simp [levelMutated]
    | left :: right :: rest, short => exact absurd rfl (short left right rest)

section Levels

variable [Crypto]

theorem nextLevel_eq (hashes : List Uint256) : nextLevel hashes =
    (range ((hashes.length + 1) / 2)).map fun i =>
      hash256 ((hashes.getD (2 * i) .null).bytes ++ (if 2 * i + 1 < hashes.length then
        hashes.getD (2 * i + 1) .null else hashes.getD (2 * i) .null).bytes) := by
  induction hashes using nextLevel.induct with
  | case1 left right rest ih =>
    have size : ((left :: right :: rest).length + 1) / 2 = (rest.length + 1) / 2 + 1 := by
      simp only [length_cons]
      omega
    rw [nextLevel, ih, size, range_succ_eq_map, map_cons, map_map]
    congr 1
    apply map_congr_left
    intro i _
    simp [mul_add]
    rfl
  | case2 last => simp [nextLevel]
  | case3 => simp [nextLevel]

variable {n : UInt32} {vTxid : List Uint256}

def level (n : UInt32) (vTxid : List Uint256) (height : Nat) : List Uint256 :=
  (range (width n.toNat height)).map (calcHash n vTxid height)

theorem level_length (height : Nat) : (level n vTxid height).length = width n.toNat height := by
  rw [level, length_map, length_range]

theorem level_getD {height pos : Nat} (inside : pos < width n.toNat height) :
    (level n vTxid height).getD pos .null = calcHash n vTxid height pos := by
  rw [level, getD_eq_getElem _ _ (by rwa [length_map, length_range]),
    getElem_map, getElem_range]

theorem level_zero (size : n.toNat = vTxid.length) : level n vTxid 0 = vTxid := by
  apply ext_getElem
  · rw [level_length, width_zero, size]
  · intro i inside bound
    rw [← getD_eq_getElem _ .null inside, level_getD (by rwa [level_length] at inside),
      calcHash, getD_eq_getElem _ _ bound]

theorem level_succ (few : n.toNat ≤ maxTransactions) {height : Nat} (low : height ≤ 16) :
    nextLevel (level n vTxid height) = level n vTxid (height + 1) := by
  rw [nextLevel_eq, level_length, ← width_succ]
  conv_rhs => rw [level]
  apply map_congr_left
  intro i inside
  have bound := mem_range.mp inside
  rw [width_succ] at bound
  rw [level_getD (by omega), calcHash, calcTreeWidth_eq few low, mul_comm i 2]
  split_ifs with right
  · rw [level_getD right]
  · rfl

structure IsHeight (n : UInt32) (nHeight : Nat) : Prop where
  single : width n.toNat nHeight = 1
  more : ∀ height < nHeight, 1 < width n.toNat height
  low : nHeight ≤ 15

omit [Crypto] in
theorem heightFrom_spec (few : n.toNat ≤ maxTransactions) (some_ : 0 < n.toNat) (fuel : Nat)
    {start : Nat} (low : start ≤ 15) (enough : 15 - start < fuel)
    (more : ∀ height < start, 1 < width n.toNat height) : IsHeight n (heightFrom n fuel start) := by
  induction fuel generalizing start with
  | zero => omega
  | succ fuel ih =>
    rw [heightFrom, calcTreeWidth_eq few (by omega)]
    split
    next wide =>
      have below : start < 15 := by
        by_contra top
        rw [show start = 15 by omega, width] at wide
        rw [maxTransactions, maxBlockWeight, witnessScaleFactor] at few
        omega
      apply ih (by omega) (by omega)
      intro height bound
      rcases Nat.lt_succ_iff_lt_or_eq.mp bound with earlier | here
      · exact more height earlier
      · rw [here]
        exact wide
    next narrow =>
      refine ⟨?_, more, low⟩
      have positive : 0 < width n.toNat start := by
        rw [width]
        apply Nat.div_pos _ (Nat.two_pow_pos start)
        omega
      omega

omit [Crypto] in
theorem isHeight_treeHeight (few : n.toNat ≤ maxTransactions) (some_ : 0 < n.toNat) :
    IsHeight n (treeHeight n) :=
  heightFrom_spec few some_ 32 (Nat.zero_le 15) (by decide) nofun

theorem root_of_level (few : n.toNat ≤ maxTransactions) {nHeight : Nat} (top : IsHeight n nHeight)
    (above : Nat) {height : Nat} (sum : height + above = nHeight) (mutation : Bool) :
    (computeMerkleRoot (level n vTxid height) mutation).1 = calcHash n vTxid nHeight 0 ∧
      ((computeMerkleRoot (level n vTxid height) mutation).2 = false → mutation = false ∧
        ∀ h, height ≤ h → h < nHeight → levelMutated (level n vTxid h) = false) := by
  induction above generalizing height mutation with
  | zero =>
    rw [add_zero] at sum
    have single : level n vTxid height = [calcHash n vTxid nHeight 0] := by
      rw [level, sum, top.single]
      rfl
    rw [single, computeMerkleRoot_single]
    refine ⟨rfl, fun unmutated => ⟨unmutated, ?_⟩⟩
    intro h lower upper
    omega
  | succ above ih =>
    have wide : 1 < (level n vTxid height).length := by
      rw [level_length]
      exact top.more height (by omega)
    have low := top.low
    rw [computeMerkleRoot_step wide, level_succ few (by omega)]
    obtain ⟨root, clean⟩ := ih (show height + 1 + above = nHeight by omega)
      (mutation || levelMutated (level n vTxid height))
    refine ⟨root, ?_⟩
    intro unmutated
    obtain ⟨both, others⟩ := clean unmutated
    rw [Bool.or_eq_false_iff] at both
    refine ⟨both.1, ?_⟩
    intro h lower upper
    rcases eq_or_lt_of_le lower with here | later
    · rw [← here]
      exact both.2
    · exact others h later upper

theorem merkleRoot_eq (few : n.toNat ≤ maxTransactions) (some_ : 0 < n.toNat)
    (size : n.toNat = vTxid.length) :
    (computeMerkleRoot vTxid false).1 = calcHash n vTxid (treeHeight n) 0 := by
  have root := (@root_of_level _ n vTxid few _ (isHeight_treeHeight few some_) (treeHeight n)
    0 (zero_add _) false).1
  rwa [level_zero size] at root

theorem siblings_ne (few : n.toNat ≤ maxTransactions) (some_ : 0 < n.toNat)
    (size : n.toNat = vTxid.length) (unmutated : (computeMerkleRoot vTxid false).2 = false)
    {height pos : Nat} (low : height < treeHeight n) (inside : pos * 2 + 1 < width n.toNat height) :
    calcHash n vTxid height (pos * 2 + 1) ≠ calcHash n vTxid height (pos * 2) := by
  have levels := (@root_of_level _ n vTxid few _ (isHeight_treeHeight few some_) (treeHeight n)
    0 (Nat.zero_add _) false).2
  rw [level_zero size] at levels
  have clean := (levels unmutated).2 height (Nat.zero_le _) low
  intro same
  have mutated : levelMutated (level n vTxid height) = true := by
    rw [levelMutated_iff]
    refine ⟨pos, ?_, ?_⟩
    · rw [level_length]
      omega
    · rw [level_getD (by omega), level_getD (by omega), Nat.mul_comm]
      exact same.symm
  rw [clean] at mutated
  cases mutated

end Levels

end Qogecoin.CPartialMerkleTree
