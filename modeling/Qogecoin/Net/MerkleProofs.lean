import Qogecoin.Net.MerkleLevels

/-! Partial Merkle trees prove what they were built from, and nothing else. -/
namespace Qogecoin.CPartialMerkleTree

open Codec Crypto Coins Consensus List Nat Set

variable {n : UInt32} {vTxid : List Uint256} {vMatch : List Bool}

def matchedBelow (n : UInt32) (vMatch : List Bool) (height pos : Nat) : List Nat :=
  (range' (pos <<< height) (1 <<< height)).filter fun p =>
    p < n.toNat && vMatch.getD p false

variable {height pos : Nat} {s : Extraction} {tree : CPartialMerkleTree}

theorem parentOfMatch_iff :
    parentOfMatch n vMatch height pos = true ↔ matchedBelow n vMatch height pos ≠ [] := by
  rw [parentOfMatch, matchedBelow, any_eq_true, Ne, filter_eq_nil_iff]
  push Not
  rfl

theorem matchedBelow_succ (height pos : Nat) : matchedBelow n vMatch (height + 1) pos =
    matchedBelow n vMatch height (pos * 2) ++ matchedBelow n vMatch height (pos * 2 + 1) := by
  have first : pos <<< (height + 1) = (pos * 2) <<< height := by
    rw [shiftLeft_eq, shiftLeft_eq, pow_succ]
    ring
  have second : (pos * 2) <<< height + 1 <<< height = (pos * 2 + 1) <<< height := by
    rw [shiftLeft_eq, shiftLeft_eq, shiftLeft_eq]
    ring
  have total : 1 <<< (height + 1) = 1 <<< height + 1 <<< height := by
    rw [shiftLeft_eq, shiftLeft_eq, pow_succ]
    ring
  rw [matchedBelow, matchedBelow, matchedBelow, ← filter_append, first, total, ← second,
    range'_append_1]

theorem matchedBelow_outside (outside : width n.toNat height ≤ pos) :
    matchedBelow n vMatch height pos = [] := by
  rw [matchedBelow, filter_eq_nil_iff]
  intro p inside
  have low := (mem_range'_1.mp inside).1
  rw [Nat.shiftLeft_eq] at low
  have positive := Nat.two_pow_pos height
  have bound : n.toNat + 2 ^ height - 1 < (pos + 1) * 2 ^ height := by
    rw [← Nat.div_lt_iff_lt_mul positive]
    exact Nat.lt_succ_of_le outside
  rw [Nat.add_mul] at bound
  simp only [Bool.and_eq_true, decide_eq_true_eq, not_and]
  omega

theorem drop_cons {α : Type} {l rest : List α} {a : α} {k : Nat} (left : l.drop k = a :: rest) :
    l[k]? = some a ∧ l.drop (k + 1) = rest := by
  constructor
  · rw [← head?_drop, left, head?_cons]
  · rw [← drop_drop, left, drop_one, tail_cons]

theorem drop_append {α : Type} {l front rest : List α} {k : Nat} (left : l.drop k = front ++ rest) :
    l.drop (k + front.length) = rest := by
  rw [← drop_drop, left, drop_left]

def leaves (n height pos : Nat) : Nat := min (2 ^ height) (n - pos * 2 ^ height)

theorem leaves_succ (n height pos : Nat) :
    leaves n (height + 1) pos = leaves n height (pos * 2) + leaves n height (pos * 2 + 1) := by
  have power : 2 ^ (height + 1) = 2 ^ height + 2 ^ height := by
    rw [pow_succ]
    omega
  have first : pos * 2 ^ (height + 1) = pos * 2 * 2 ^ height := by
    rw [pow_succ]
    ring
  have second : (pos * 2 + 1) * 2 ^ height = pos * 2 * 2 ^ height + 2 ^ height := by ring
  rw [leaves, leaves, leaves, first, second, power]
  omega

theorem leaves_pos {n : Nat} (inside : pos < width n height) : 0 < leaves n height pos := by
  have positive := Nat.two_pow_pos height
  have bound : (pos + 1) * 2 ^ height ≤ n + 2 ^ height - 1 := by
    rw [← Nat.le_div_iff_mul_le positive]
    exact inside
  rw [Nat.add_mul] at bound
  rw [leaves]
  omega

theorem serialize_reads (hashes : tree.vHash.length ≤ maxSize)
    (bits : (tree.vBits.length + 7) / 8 ≤ maxSize) :
    unserialize tree.serialize = some (⟨tree.nTransactions,
      tree.vBits ++ replicate ((tree.vBits.length + 7) / 8 * 8 - tree.vBits.length) false,
      tree.vHash, false⟩, []) := by
  have size : (bitsToBytes tree.vBits).length ≤ maxSize := by
    rw [bitsToBytes, length_map, length_range]
    exact bits
  have last := reads_bytes (bitsToBytes tree.vBits) [] size
  rw [append_nil] at last
  rw [unserialize, serialize, append_assoc, reads_uint32 _ _ trivial]
  simp only [Option.bind_eq_bind, Option.bind_some]
  rw [reads_vector reads_uint256 _ _ ⟨hashes, fun _ _ => trivial⟩]
  simp only [Option.bind_some]
  rw [last]
  simp only [Option.bind_some, bytesToBits_bitsToBytes]

def positions (vTxid : List Uint256) (vMatch : List Bool) : List Nat :=
  (range vTxid.length).filter (vMatch.getD · false)

theorem matchedBelow_top (size : n.toNat = vTxid.length) (top : width n.toNat height = 1) :
    matchedBelow n vMatch height 0 = positions vTxid vMatch := by
  have positive := Nat.two_pow_pos height
  have covers : n.toNat ≤ 2 ^ height := by
    rw [width, Nat.div_eq_iff positive] at top
    omega
  have range : List.range' (0 <<< height) (1 <<< height) =
      List.range n.toNat ++ List.range' n.toNat (2 ^ height - n.toNat) := by
    rw [Nat.zero_shiftLeft, Nat.shiftLeft_eq, Nat.one_mul, range_eq_range']
    have joined := List.range'_append_1 (s := 0) (m := n.toNat) (n := 2 ^ height - n.toNat)
    rw [Nat.zero_add, Nat.add_sub_cancel' covers] at joined
    exact joined.symm
  have beyond : (List.range' n.toNat (2 ^ height - n.toNat)).filter
      (fun p => decide (p < n.toNat) && vMatch.getD p false) = [] := by
    rw [filter_eq_nil_iff]
    intro p inside
    have low := (mem_range'_1.mp inside).1
    simp only [Bool.and_eq_true, decide_eq_true_eq, not_and]
    omega
  rw [matchedBelow, range, filter_append, beyond, append_nil, positions, ← size]
  apply filter_congr
  intro p inside
  rw [decide_eq_true (mem_range.mp inside), Bool.true_and]

theorem length_sampleTxid (k : UInt8) : (k :: replicate 31 0).length = 32 := rfl

variable [Crypto]

structure Extracts (n : UInt32) (vTxid : List Uint256) (vMatch : List Bool) (height pos : Nat)
    (s s' : Extraction) : Prop where
  bad : s'.fBad = s.fBad
  bits : s'.nBitsUsed = s.nBitsUsed + (traverseAndBuild n vTxid vMatch height pos).1.length
  hashes : s'.nHashUsed = s.nHashUsed + (traverseAndBuild n vTxid vMatch height pos).2.length
  found : s'.vMatch = s.vMatch ++ (matchedBelow n vMatch height pos).map (vTxid.getD · .null)
  positions : s'.vnIndex = s.vnIndex ++ matchedBelow n vMatch height pos

theorem extract_leaf (pos : Nat) {bits : List Bool} {hashes : List Uint256}
    (bitsLeft : tree.vBits.drop s.nBitsUsed = (traverseAndBuild n vTxid vMatch 0 pos).1 ++ bits)
    (hashesLeft : tree.vHash.drop s.nHashUsed = (traverseAndBuild n vTxid vMatch 0 pos).2 ++ hashes) :
    ∃ s', traverseAndExtract tree 0 pos s = (calcHash n vTxid 0 pos, s') ∧
      Extracts n vTxid vMatch 0 pos s s' := by
  have bit := (drop_cons bitsLeft).1
  have hash := (drop_cons hashesLeft).1
  have here : matchedBelow n vMatch 0 pos =
      if parentOfMatch n vMatch 0 pos then [pos] else [] := by
    have one : List.range' (pos <<< 0) (1 <<< 0) = [pos] := rfl
    rw [matchedBelow, parentOfMatch, one, filter_cons, filter_nil, any_cons,
      any_nil, Bool.or_false]
  rw [traverseAndExtract, bit]
  dsimp only
  rw [hash]
  cases matched : parentOfMatch n vMatch 0 pos with
  | true =>
    rw [matched, if_pos rfl] at here
    exact ⟨_, rfl, rfl, rfl, rfl, by rw [here]; rfl, by rw [here]⟩
  | false =>
    rw [matched, if_neg (by decide)] at here
    exact ⟨_, rfl, rfl, rfl, rfl, by rw [here]; simp, by rw [here]; simp⟩

theorem extract_build (few : n.toNat ≤ maxTransactions) (same : tree.nTransactions = n) {top : Nat}
    (low : top ≤ 16) (distinct : ∀ height < top, ∀ pos, pos * 2 + 1 < width n.toNat height →
      calcHash n vTxid height (pos * 2 + 1) ≠ calcHash n vTxid height (pos * 2))
    (below : height ≤ top) (pos : Nat) {bits : List Bool} {hashes : List Uint256}
    (bitsLeft : tree.vBits.drop s.nBitsUsed =
      (traverseAndBuild n vTxid vMatch height pos).1 ++ bits)
    (hashesLeft : tree.vHash.drop s.nHashUsed =
      (traverseAndBuild n vTxid vMatch height pos).2 ++ hashes) :
    ∃ s', traverseAndExtract tree height pos s = (calcHash n vTxid height pos, s') ∧
      Extracts n vTxid vMatch height pos s s' := by
  induction height generalizing pos s bits hashes with
  | zero => exact extract_leaf pos bitsLeft hashesLeft
  | succ height ih =>
    have widths : calcTreeWidth n height = width n.toNat height := calcTreeWidth_eq few (by omega)
    cases parent : parentOfMatch n vMatch (height + 1) pos with
    | false =>
      have build : traverseAndBuild n vTxid vMatch (height + 1) pos =
          ([false], [calcHash n vTxid (height + 1) pos]) := by
        rw [traverseAndBuild, if_neg (by rw [parent]; decide)]
      have nothing : matchedBelow n vMatch (height + 1) pos = [] := by
        by_contra some_
        rw [parentOfMatch_iff.mpr some_] at parent
        cases parent
      rw [build] at bitsLeft hashesLeft
      rw [traverseAndExtract, (drop_cons bitsLeft).1]
      dsimp only
      rw [if_neg (by decide), useHash, (drop_cons hashesLeft).1]
      refine ⟨_, rfl, rfl, ?_, ?_, ?_, ?_⟩
      · rw [build]
        rfl
      · rw [build]
        rfl
      · rw [nothing, map_nil, append_nil]
      · rw [nothing, append_nil]
    | true =>
      have build := traverseAndBuild.eq_2 n vTxid vMatch pos height
      rw [if_pos parent, widths] at build
      rw [build] at bitsLeft hashesLeft
      dsimp only at bitsLeft hashesLeft
      rw [cons_append] at bitsLeft
      obtain ⟨bit, bitsLeft⟩ := drop_cons bitsLeft
      rw [append_assoc] at bitsLeft hashesLeft
      obtain ⟨s1, left, first⟩ := @ih { s with nBitsUsed := s.nBitsUsed + 1 } (by omega) (pos * 2)
        _ _ bitsLeft hashesLeft
      have bitsLeft1 := drop_append bitsLeft
      have hashesLeft1 := drop_append hashesLeft
      rw [← first.bits] at bitsLeft1
      rw [← first.hashes] at hashesLeft1
      rw [traverseAndExtract, bit]
      dsimp only
      rw [if_pos rfl, left]
      rw [same, widths, calcHash, widths]
      by_cases more : pos * 2 + 1 < width n.toNat height
      · rw [if_pos more] at build bitsLeft1 hashesLeft1
        obtain ⟨s2, right, second⟩ := ih (by omega) (pos * 2 + 1) bitsLeft1 hashesLeft1
        rw [if_pos more, if_pos more, right]
        refine ⟨_, rfl, ?_, ?_, ?_, ?_, ?_⟩
        · rw [decide_eq_false (distinct height (by omega) pos more), Bool.or_false, second.bad,
            first.bad]
        · rw [second.bits, first.bits, build, length_cons, length_append]
          dsimp only
          omega
        · rw [second.hashes, first.hashes, build, length_append]
          dsimp only
          omega
        · rw [second.found, first.found, matchedBelow_succ, map_append, append_assoc]
        · rw [second.positions, first.positions, matchedBelow_succ, append_assoc]
      · rw [if_neg more] at build
        dsimp only at build
        rw [append_nil, append_nil] at build
        rw [if_neg more, if_neg more]
        have nothing : matchedBelow n vMatch height (pos * 2 + 1) = [] :=
          matchedBelow_outside (Nat.le_of_not_lt more)
        refine ⟨_, rfl, first.bad, ?_, ?_, ?_, ?_⟩
        · rw [first.bits, build, length_cons]
          dsimp only
          omega
        · rw [first.hashes, build]
        · rw [first.found, matchedBelow_succ, nothing, append_nil]
        · rw [first.positions, matchedBelow_succ, nothing, append_nil]

theorem build_size (few : n.toNat ≤ maxTransactions) (low : height ≤ 16)
    (inside : pos < width n.toNat height) :
    (traverseAndBuild n vTxid vMatch height pos).2.length ≤ leaves n.toNat height pos ∧
      (traverseAndBuild n vTxid vMatch height pos).2.length ≤
        (traverseAndBuild n vTxid vMatch height pos).1.length ∧
      (traverseAndBuild n vTxid vMatch height pos).1.length < 2 ^ (height + 1) := by
  induction height generalizing pos with
  | zero => exact ⟨leaves_pos inside, Nat.le_refl 1, Nat.lt_succ_self 1⟩
  | succ height ih =>
    have widths : calcTreeWidth n height = width n.toNat height := calcTreeWidth_eq few (by omega)
    have half : pos * 2 < width n.toNat height := by
      rw [width_succ] at inside
      omega
    obtain ⟨left1, left2, left3⟩ := ih (by omega) half
    rw [traverseAndBuild, widths]
    split
    · dsimp only
      rw [leaves_succ, length_cons, length_append, length_append]
      by_cases more : pos * 2 + 1 < width n.toNat height
      · obtain ⟨right1, right2, right3⟩ := ih (by omega) more
        rw [if_pos more]
        refine ⟨by omega, by omega, ?_⟩
        rw [pow_succ]
        omega
      · rw [if_neg more]
        dsimp only [length_nil]
        refine ⟨by omega, by omega, ?_⟩
        rw [pow_succ 2 (height + 1)]
        omega
    · refine ⟨leaves_pos inside, Nat.le_refl 1, ?_⟩
      rw [length_singleton]
      exact Nat.one_lt_two_pow (by omega)

theorem ofTxids_extracts (nonempty : vTxid ≠ []) (few : vTxid.length ≤ maxTransactions)
    (unmutated : (computeMerkleRoot vTxid false).2 = false) (vMatch : List Bool) :
    ∃ tree tree', ofTxids vTxid vMatch = .ok tree ∧ unserialize tree.serialize = some (tree', []) ∧
      tree'.extractMatches [] = ((computeMerkleRoot vTxid false).1,
        (positions vTxid vMatch).map (vTxid.getD · .null), positions vTxid vMatch) := by
  have size : (UInt32.ofNat vTxid.length).toNat = vTxid.length := by
    rw [maxTransactions, maxBlockWeight, witnessScaleFactor] at few
    rw [UInt32.toNat_ofNat']
    omega
  have some_ : 0 < (UInt32.ofNat vTxid.length).toNat := by
    rw [size]
    exact length_pos_of_ne_nil nonempty
  have few' : (UInt32.ofNat vTxid.length).toNat ≤ maxTransactions := by rwa [size]
  rw [ofTxids, if_neg nonempty]
  dsimp only
  generalize UInt32.ofNat vTxid.length = n at size some_ few'
  have nonzero : n ≠ 0 := by
    intro zero
    rw [zero] at some_
    cases some_
  have top := isHeight_treeHeight few' some_
  have low := top.low
  obtain ⟨hashes, enough, narrow⟩ := @build_size n vTxid vMatch (treeHeight n) 0 _ few' (by omega)
    (by rw [top.single]; exact Nat.zero_lt_one)
  have extraction := fun bits hashes => @extract_build n vTxid vMatch (treeHeight n)
    ⟨false, 0, 0, [], []⟩ ⟨n, bits, hashes, false⟩ _ few' rfl (treeHeight n) (by omega)
    (fun height below pos inside => siblings_ne few' some_ size unmutated below inside)
    (Nat.le_refl _) 0
  generalize same : traverseAndBuild n vTxid vMatch (treeHeight n) 0 = built at *
  have hashes' : built.2.length ≤ n.toNat :=
    hashes.trans ((Nat.min_le_right _ _).trans (Nat.sub_le _ _))
  have bits : built.1.length < 2 ^ 16 :=
    narrow.trans_le (Nat.pow_le_pow_right (by decide) (by omega))
  refine ⟨_, _, rfl, serialize_reads ?_ ?_, ?_⟩
  · rw [maxTransactions, maxBlockWeight, witnessScaleFactor] at few'
    rw [maxSize]
    exact hashes'.trans (by omega)
  · rw [maxSize]
    dsimp only
    omega
  · obtain ⟨s, done, extracts⟩ := @extraction (built.1 ++ _) built.2 _ [] drop_zero
      (drop_zero.trans (append_nil _).symm)
    have bitsUsed := extracts.bits
    have hashUsed := extracts.hashes
    have found := extracts.found
    have indexes := extracts.positions
    dsimp only at bitsUsed hashUsed found indexes
    rw [Nat.zero_add, same] at bitsUsed hashUsed
    rw [nil_append, matchedBelow_top size top.single] at found indexes
    rw [extractMatches, if_neg, if_neg, if_neg, if_neg, done]
    · dsimp only
      rw [extracts.bad, if_neg (by decide), if_neg, if_neg (not_not.mpr hashUsed), found, indexes,
        merkleRoot_eq few' some_ size]
      rw [bitsUsed, length_append, length_replicate, not_not]
      omega
    · dsimp only
      rw [length_append]
      omega
    · exact not_lt.mpr hashes'
    · exact not_lt.mpr few'
    · exact nonzero

def nodeData (n : UInt32) (vTxid : List Uint256) (height pos : Nat) : Bytes :=
  let left := calcHash n vTxid height (pos * 2)
  let right := if pos * 2 + 1 < calcTreeWidth n height then
    calcHash n vTxid height (pos * 2 + 1) else left
  left.bytes ++ right.bytes

theorem calcHash_succ (height pos : Nat) :
    calcHash n vTxid (height + 1) pos = hash256 (nodeData n vTxid height pos) := rfl

def hashedNodes (n : UInt32) (vTxid : List Uint256) : Set Bytes :=
  { data | ∃ height < treeHeight n, ∃ pos < width n.toNat (height + 1),
    data = nodeData n vTxid height pos }

def hashedOnWay (tree : CPartialMerkleTree) : Nat → Nat → Extraction → List Bytes
  | 0, _, _ => []
  | height + 1, pos, s =>
    if tree.vBits[s.nBitsUsed]? = some true then
      let s := { s with nBitsUsed := s.nBitsUsed + 1 }
      let (left, s1) := traverseAndExtract tree height (pos * 2) s
      if pos * 2 + 1 < calcTreeWidth tree.nTransactions height then
        let (right, _) := traverseAndExtract tree height (pos * 2 + 1) s1
        (left.bytes ++ right.bytes) :: (hashedOnWay tree height (pos * 2) s ++
          hashedOnWay tree height (pos * 2 + 1) s1)
      else (left.bytes ++ left.bytes) :: hashedOnWay tree height (pos * 2) s
    else []

structure Sound (tree : CPartialMerkleTree) (vTxid : List Uint256) (height pos : Nat)
    (s s' : Extraction) (hash : Uint256) : Prop where
  bad : s'.fBad = false → s.fBad = false
  found : ∃ pairs : List (Uint256 × Nat), s'.vMatch = s.vMatch ++ pairs.map (·.1) ∧
    s'.vnIndex = s.vnIndex ++ pairs.map (·.2) ∧
    (InjOn hash256 (hashedNodes tree.nTransactions vTxid ∪
        { data | data ∈ hashedOnWay tree height pos s }) →
      s'.fBad = false → hash = calcHash tree.nTransactions vTxid height pos →
      ∀ pair ∈ pairs, vTxid[pair.2]? = some pair.1)

theorem Sound.nothing {s' : Extraction} {hash : Uint256} (bad : s'.fBad = false → s.fBad = false)
    (same : s'.vMatch = s.vMatch) (same' : s'.vnIndex = s.vnIndex) :
    Sound tree vTxid height pos s s' hash :=
  ⟨bad, [], by simp [same], by simp [same'], nofun⟩

theorem useHash_sound {s0 : Extraction} (same : s.fBad = s0.fBad) (found : s.vMatch = s0.vMatch)
    (indexes : s.vnIndex = s0.vnIndex) :
    Sound tree vTxid height pos s0 (useHash tree s).2 (useHash tree s).1 := by
  rw [useHash]
  split
  · exact .nothing (by simp) found indexes
  · exact .nothing (fun fine => same ▸ fine) found indexes

theorem leaf_sound (inside : pos < vTxid.length) (s : Extraction) :
    Sound tree vTxid 0 pos s (traverseAndExtract tree 0 pos s).2
      (traverseAndExtract tree 0 pos s).1 := by
  rw [traverseAndExtract]
  split
  · exact .nothing nofun rfl rfl
  dsimp only
  split
  · exact .nothing nofun rfl rfl
  · split
    · refine ⟨id, [(_, pos)], rfl, rfl, ?_⟩
      intro _ _ same pair member
      rw [mem_singleton.mp member]
      dsimp only at same ⊢
      rw [same, calcHash, getD_eq_getElem _ _ inside, getElem?_eq_getElem inside]
    · exact .nothing id rfl rfl

theorem extract_sound (few : tree.nTransactions.toNat ≤ maxTransactions)
    (size : tree.nTransactions.toNat = vTxid.length) (low : height ≤ treeHeight tree.nTransactions)
    (lowest : height ≤ 16) (inside : pos < width tree.nTransactions.toNat height) (s : Extraction) :
    Sound tree vTxid height pos s (traverseAndExtract tree height pos s).2
      (traverseAndExtract tree height pos s).1 := by
  induction height generalizing pos s with
  | zero =>
    rw [width_zero, size] at inside
    exact leaf_sound inside s
  | succ height ih =>
    have widths : calcTreeWidth tree.nTransactions height = width tree.nTransactions.toNat height :=
      calcTreeWidth_eq few (by omega)
    have half : pos * 2 < width tree.nTransactions.toNat height := by
      rw [width_succ] at inside
      omega
    have node : nodeData tree.nTransactions vTxid height pos ∈
        hashedNodes tree.nTransactions vTxid := ⟨height, by omega, pos, inside, rfl⟩
    rw [traverseAndExtract]
    cases bit : tree.vBits[s.nBitsUsed]? with
    | none => exact .nothing nofun rfl rfl
    | some parent =>
      cases parent with
      | false => exact useHash_sound rfl rfl rfl
      | true =>
        dsimp only
        rw [if_pos rfl]
        have first := ih (by omega) (by omega) half { s with nBitsUsed := s.nBitsUsed + 1 }
        generalize left : traverseAndExtract tree height (pos * 2)
          { s with nBitsUsed := s.nBitsUsed + 1 } = result at first
        obtain ⟨hash, s1⟩ := result
        obtain ⟨bad1, pairs1, found1, indexes1, sound1⟩ := first
        by_cases more : pos * 2 + 1 < width tree.nTransactions.toNat height
        · have second := ih (by omega) (by omega) more s1
          generalize right : traverseAndExtract tree height (pos * 2 + 1) s1 = result at second
          obtain ⟨hash', s2⟩ := result
          obtain ⟨bad2, pairs2, found2, indexes2, sound2⟩ := second
          have way : hashedOnWay tree (height + 1) pos s = (hash.bytes ++ hash'.bytes) ::
              (hashedOnWay tree height (pos * 2) { s with nBitsUsed := s.nBitsUsed + 1 } ++
                hashedOnWay tree height (pos * 2 + 1) s1) := by
            rw [hashedOnWay, if_pos bit, widths]
            dsimp only
            rw [left]
            rw [if_pos more, right]
          rw [widths, if_pos more]
          dsimp only at found2 indexes2 bad2 sound2 found1 indexes1 bad1 sound1 ⊢
          refine ⟨?_, pairs1 ++ pairs2, ?_, ?_, ?_⟩
          · intro fine
            exact bad1 (bad2 (Bool.or_eq_false_iff.mp fine).1)
          · rw [found2, found1, map_append, append_assoc]
          · rw [indexes2, indexes1, map_append, append_assoc]
          · intro free fine same
            rw [way] at free
            have data := free (.inr mem_cons_self) (.inl node) (same.trans (calcHash_succ _ _))
            rw [nodeData, widths, if_pos more] at data
            obtain ⟨sameLeft, sameRight⟩ := Uint256.append_bytes_injective data
            have fine2 := (Bool.or_eq_false_iff.mp fine).1
            intro pair member
            rcases mem_append.mp member with inLeft | inRight
            · refine sound1 (free.mono ?_) (bad2 fine2) sameLeft pair inLeft
              exact union_subset_union_right _ fun data inData =>
                mem_cons_of_mem _ (mem_append_left _ inData)
            · refine sound2 (free.mono ?_) fine2 sameRight pair inRight
              exact union_subset_union_right _ fun data inData =>
                mem_cons_of_mem _ (mem_append_right _ inData)
        · have way : hashedOnWay tree (height + 1) pos s = (hash.bytes ++ hash.bytes) ::
              hashedOnWay tree height (pos * 2) { s with nBitsUsed := s.nBitsUsed + 1 } := by
            rw [hashedOnWay, if_pos bit, widths]
            dsimp only
            rw [left]
            rw [if_neg more]
          rw [widths, if_neg more]
          dsimp only at found1 indexes1 bad1 sound1 ⊢
          refine ⟨bad1, pairs1, found1, indexes1, ?_⟩
          intro free fine same
          rw [way] at free
          have data := free (.inr mem_cons_self) (.inl node) (same.trans (calcHash_succ _ _))
          rw [nodeData, widths, if_neg more] at data
          refine sound1 (free.mono ?_) fine (Uint256.append_bytes_injective data).1
          exact union_subset_union_right _ fun data inData => mem_cons_of_mem _ inData

theorem extractMatches_fine (notNull : (tree.extractMatches []).1 ≠ .null) :
    ∃ hash s, traverseAndExtract tree (treeHeight tree.nTransactions) 0
        ⟨tree.fBad, 0, 0, [], []⟩ = (hash, s) ∧ s.fBad = false ∧
      tree.extractMatches [] = (hash, s.vMatch, s.vnIndex) ∧
      0 < tree.nTransactions.toNat ∧ tree.nTransactions.toNat ≤ maxTransactions := by
  generalize run : traverseAndExtract tree (treeHeight tree.nTransactions) 0
    ⟨tree.fBad, 0, 0, [], []⟩ = result
  obtain ⟨hash, s⟩ := result
  rw [extractMatches, run] at notNull ⊢
  dsimp only at notNull ⊢
  -- every failure returns the null hash
  split_ifs at notNull ⊢ with zero many hashes bits bad bitsUsed hashUsed
  any_goals exact absurd rfl notNull
  refine ⟨hash, s, rfl, by simpa using bad, rfl, ?_, Nat.le_of_not_lt many⟩
  apply Nat.pos_of_ne_zero
  intro none_
  exact zero (UInt32.toNat_inj.mp none_)

/-- Whatever the tree, what is extracted with the root of a list of transactions is in the list,
unless the root is the null hash, which stands for a failure. -/
theorem extractMatches_sound (size : tree.nTransactions.toNat = vTxid.length)
    (collisionFree : InjOn hash256 (hashedNodes tree.nTransactions vTxid ∪
      { data | data ∈ hashedOnWay tree (treeHeight tree.nTransactions) 0 ⟨tree.fBad, 0, 0, [], []⟩ }))
    (notNull : (computeMerkleRoot vTxid false).1 ≠ .null)
    (root : (tree.extractMatches []).1 = (computeMerkleRoot vTxid false).1) :
    ∀ pair ∈ (tree.extractMatches []).2.1.zip (tree.extractMatches []).2.2,
      vTxid[pair.2]? = some pair.1 := by
  obtain ⟨hash, s, run, fine, result, some_, few⟩ := extractMatches_fine (root ▸ notNull)
  have top := isHeight_treeHeight few some_
  have low := top.low
  obtain ⟨_, pairs, found, indexes, sound⟩ := extract_sound few size (le_refl _)
    (by omega : treeHeight tree.nTransactions ≤ 16) (by rw [top.single]; exact zero_lt_one)
    ⟨tree.fBad, 0, 0, [], []⟩
  rw [run] at found indexes sound
  rw [result] at root ⊢
  dsimp only at found indexes sound root ⊢
  rw [nil_append] at found indexes
  have zipped : s.vMatch.zip s.vnIndex = pairs := by
    simp [found, indexes, zip_map']
  rw [zipped]
  exact sound collisionFree fine (root.trans (merkleRoot_eq few some_ size))

/-- Partial Merkle trees are complete, and sound for lists of transactions whose root is not the null
hash. -/
theorem partial_merkle_trees_complete_and_sound (vTxid : List Uint256) (nonempty : vTxid ≠ [])
    (few : vTxid.length ≤ maxTransactions) :
    (∀ vMatch : List Bool, vMatch.length = vTxid.length →
      (computeMerkleRoot vTxid false).2 = false →
      ∃ tree tree', ofTxids vTxid vMatch = .ok tree ∧
        unserialize tree.serialize = some (tree', []) ∧
        tree'.extractMatches [] = ((computeMerkleRoot vTxid false).1,
          (positions vTxid vMatch).map (vTxid.getD · .null), positions vTxid vMatch)) ∧
    ∀ tree : CPartialMerkleTree, tree.nTransactions.toNat = vTxid.length →
      InjOn hash256 (hashedNodes tree.nTransactions vTxid ∪ { data | data ∈ hashedOnWay tree
        (treeHeight tree.nTransactions) 0 ⟨tree.fBad, 0, 0, [], []⟩ }) →
      (computeMerkleRoot vTxid false).1 ≠ .null →
      (tree.extractMatches []).1 = (computeMerkleRoot vTxid false).1 →
      ∀ pair ∈ (tree.extractMatches []).2.1.zip (tree.extractMatches []).2.2,
        vTxid[pair.2]? = some pair.1 := by
  constructor
  · intro vMatch _ unmutated
    exact ofTxids_extracts nonempty few unmutated vMatch
  · intro tree size collisionFree notNull root
    exact extractMatches_sound size collisionFree notNull root

def sampleTxid (k : UInt8) : Uint256 := ⟨k :: replicate 31 0, length_sampleTxid k⟩

def sampleTree : CPartialMerkleTree := ⟨2, [true, true, false], [sampleTxid 1, sampleTxid 2], false⟩

omit [Crypto] in
theorem two_transactions_proved :
    let _ := Crypto.firstBytes
    (∃ tree tree', ofTxids [sampleTxid 1, sampleTxid 2] [true, false] = .ok tree ∧
      unserialize tree.serialize = some (tree', []) ∧
      tree'.extractMatches [] = ((computeMerkleRoot [sampleTxid 1, sampleTxid 2] false).1,
        [sampleTxid 1], [0])) ∧
    ∀ pair ∈ (sampleTree.extractMatches []).2.1.zip (sampleTree.extractMatches []).2.2,
      [sampleTxid 1, sampleTxid 2][pair.2]? = some pair.1 := by
  intro _
  have both := partial_merkle_trees_complete_and_sound [sampleTxid 1, sampleTxid 2] (by decide)
    (by decide)
  have only : ∀ data ∈ hashedNodes sampleTree.nTransactions [sampleTxid 1, sampleTxid 2] ∪
      { data | data ∈ hashedOnWay sampleTree (treeHeight sampleTree.nTransactions) 0
        ⟨sampleTree.fBad, 0, 0, [], []⟩ }, data = (sampleTxid 1).bytes ++ (sampleTxid 2).bytes := by
    have way : hashedOnWay sampleTree (treeHeight sampleTree.nTransactions) 0
        ⟨sampleTree.fBad, 0, 0, [], []⟩ = [(sampleTxid 1).bytes ++ (sampleTxid 2).bytes] := by
      decide +kernel
    have top : treeHeight sampleTree.nTransactions = 1 := by decide +kernel
    rintro data (⟨height, low, pos, inside, rfl⟩ | onWay)
    · rw [top, lt_one_iff] at low
      rw [low] at inside ⊢
      have first : pos = 0 := lt_one_iff.mp inside
      rw [first]
      decide +kernel
    · rw [way] at onWay
      exact mem_singleton.mp onWay
  have collisionFree := fun a inA b inB (_ : hash256 a = hash256 b) =>
    (only a inA).trans (only b inB).symm
  exact ⟨both.1 [true, false] rfl (by decide +kernel),
    both.2 sampleTree rfl collisionFree (by decide +kernel) (by decide +kernel)⟩

omit [Crypto] in
/-- A transaction with the null hash is its own root, which is also what a failure returns: a proof
with too many bits is taken for one of another transaction. -/
theorem null_root_is_unsound :
    let _ := Crypto.firstBytes
    let tree : CPartialMerkleTree := ⟨1, true :: replicate 8 false, [sampleTxid 1], false⟩
    InjOn hash256 (hashedNodes tree.nTransactions [.null] ∪ { data | data ∈ hashedOnWay tree
        (treeHeight tree.nTransactions) 0 ⟨tree.fBad, 0, 0, [], []⟩ }) ∧
      tree.nTransactions.toNat = [Uint256.null].length ∧
      (tree.extractMatches []).1 = (computeMerkleRoot [.null] false).1 ∧
      ∃ pair ∈ (tree.extractMatches []).2.1.zip (tree.extractMatches []).2.2,
        [.null][pair.2]? ≠ some pair.1 := by
  intro _ tree
  have top : treeHeight tree.nTransactions = 0 := by decide +kernel
  refine ⟨?_, rfl, by decide +kernel, (sampleTxid 1, 0), by decide +kernel, by decide +kernel⟩
  rintro data (⟨height, low, _⟩ | onWay)
  · rw [top] at low
    cases low
  · rw [top] at onWay
    cases onWay

end Qogecoin.CPartialMerkleTree
