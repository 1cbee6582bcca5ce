import Qogecoin.Consensus.CheckBlock
import Qogecoin.Primitives.Unserialize

/-! A list of leaf hashes that is not reported as mutated is the only such list with its root. -/
namespace Qogecoin.Consensus

open Codec Crypto List Set Uint256

section

variable [Crypto] {hashes hashes' : List Uint256}

def levelNodes : List Uint256 → List Bytes
  | left :: right :: rest => (left.bytes ++ right.bytes) :: levelNodes rest
  | [last] => [last.bytes ++ last.bytes]
  | [] => []

def merkleNodes (hashes : List Uint256) : List Bytes :=
  match hashes with
  | [] => []
  | [_] => []
  | left :: right :: rest =>
    levelNodes (left :: right :: rest) ++ merkleNodes (nextLevel (left :: right :: rest))
termination_by hashes.length
decreasing_by
  rw [nextLevel_length]
  simp only [length_cons]
  omega

theorem mutated_of_mutation (hashes : List Uint256) : (computeMerkleRoot hashes true).2 = true := by
  generalize given : true = mutation
  induction hashes, mutation using computeMerkleRoot.induct with
  | case1 mutation | case2 mutation root => rw [computeMerkleRoot, ← given]
  | case3 mutation left right rest ih =>
    subst given
    rw [computeMerkleRoot]
    exact ih rfl

theorem unmutated_step (long : 1 < hashes.length) (fine : (computeMerkleRoot hashes false).2 = false) :
    levelMutated hashes = false ∧ (computeMerkleRoot (nextLevel hashes) false).2 = false := by
  rw [computeMerkleRoot_step long, Bool.false_or] at fine
  cases mutated : levelMutated hashes with
  | true =>
    rw [mutated, mutated_of_mutation] at fine
    cases fine
  | false =>
    rw [mutated] at fine
    exact ⟨rfl, fine⟩

theorem root_mutation (hashes : List Uint256) (mutation mutation' : Bool) :
    (computeMerkleRoot hashes mutation).1 = (computeMerkleRoot hashes mutation').1 := by
  induction hashes, mutation using computeMerkleRoot.induct generalizing mutation' with
  | case1 mutation | case2 mutation root => rw [computeMerkleRoot, computeMerkleRoot]
  | case3 mutation left right rest ih =>
    rw [computeMerkleRoot, computeMerkleRoot]
    exact ih _

theorem root_step (long : 1 < hashes.length) :
    (computeMerkleRoot hashes false).1 = (computeMerkleRoot (nextLevel hashes) false).1 := by
  rw [computeMerkleRoot_step long]
  exact root_mutation _ _ _

theorem merkleNodes_step (long : 1 < hashes.length) :
    merkleNodes hashes = levelNodes hashes ++ merkleNodes (nextLevel hashes) := by
  match hashes with
  | [] => simp at long
  | [_] => simp at long
  | left :: right :: rest => rw [merkleNodes]

theorem nextLevel_eq_map (hashes : List Uint256) : nextLevel hashes = (levelNodes hashes).map hash256 := by
  induction hashes using nextLevel.induct with
  | case1 left right rest ih => rw [nextLevel, levelNodes, map_cons, ih]
  | case2 | case3 => rw [nextLevel, levelNodes]; rfl

theorem eq_of_map_hash256 {nodes nodes' : List Bytes}
    (collisionFree : InjOn hash256 { data | data ∈ nodes ∨ data ∈ nodes' })
    (same : nodes.map hash256 = nodes'.map hash256) : nodes = nodes' := by
  induction nodes generalizing nodes' with
  | nil => exact (map_eq_nil_iff.mp same.symm).symm
  | cons node nodes ih =>
    match nodes', same with
    | node' :: nodes', same =>
      obtain ⟨first, later⟩ := List.cons.inj same
      have rest := collisionFree.mono fun _ => .imp (mem_cons_of_mem node) (mem_cons_of_mem node')
      rw [collisionFree (.inl mem_cons_self) (.inr mem_cons_self) first, ih rest later]

omit [Crypto] in
theorem eq_of_levelNodes (fine : levelMutated hashes = false) (fine' : levelMutated hashes' = false)
    (same : levelNodes hashes = levelNodes hashes') : hashes = hashes' := by
  induction hashes using levelNodes.induct generalizing hashes' with
  | case1 left right rest ih =>
    match hashes', same with
    | [last], same =>
      obtain ⟨rfl, rfl⟩ := append_bytes_injective (List.cons.inj same).1
      simp [levelMutated] at fine
    | left' :: right' :: rest', same =>
      obtain ⟨node, tails⟩ := List.cons.inj same
      obtain ⟨rfl, rfl⟩ := append_bytes_injective node
      rw [levelMutated, Bool.or_eq_false_iff] at fine fine'
      rw [ih fine.2 fine'.2 tails]
  | case2 last =>
    match hashes', same with
    | [last'], same => rw [(append_bytes_injective (List.cons.inj same).1).1]
    | left' :: right' :: rest', same =>
      obtain ⟨rfl, rfl⟩ := append_bytes_injective (List.cons.inj same).1
      simp [levelMutated] at fine'
  | case3 =>
    match hashes', same with
    | [], _ => rfl
    | [_], same => cases same
    | _ :: _ :: _, same => cases same

inductive LevelOf (level : List Uint256) : List Uint256 → Prop where
  | leaves : LevelOf level level
  | above {hashes : List Uint256} : 1 < hashes.length → LevelOf level (nextLevel hashes) →
      LevelOf level hashes

theorem levelOf_root {mutation : Bool} (nonempty : hashes ≠ []) :
    LevelOf [(computeMerkleRoot hashes mutation).1] hashes := by
  induction hashes, mutation using computeMerkleRoot.induct with
  | case1 mutation => exact absurd rfl nonempty
  | case2 mutation root =>
    rw [computeMerkleRoot]
    exact .leaves
  | case3 mutation left right rest ih =>
    have long : 1 < (left :: right :: rest).length := by simp
    rw [computeMerkleRoot]
    apply LevelOf.above long
    apply ih
    rw [nextLevel]
    exact cons_ne_nil _ _

theorem levelOf_single {single : List Uint256} (nonempty : hashes ≠ []) (short : single.length = 1)
    (same : (computeMerkleRoot single false).1 = (computeMerkleRoot hashes false).1) :
    LevelOf single hashes := by
  obtain ⟨root, rfl⟩ := length_eq_one_iff.mp short
  simp only [computeMerkleRoot_single] at same
  rw [same]
  exact levelOf_root nonempty

theorem LevelOf.eq_or_hashed {level : List Uint256} (inside : LevelOf level hashes) :
    level = hashes ∨ ∀ hash ∈ level, ∃ data ∈ merkleNodes hashes, hash = hash256 data := by
  induction inside with
  | leaves => exact .inl rfl
  | @above hashes long _ ih =>
    right
    intro hash member
    rw [merkleNodes_step long]
    rcases ih with same | hashed
    · rw [same, nextLevel_eq_map] at member
      obtain ⟨data, node, value⟩ := mem_map.mp member
      exact ⟨data, mem_append_left _ node, value.symm⟩
    · obtain ⟨data, node, value⟩ := hashed hash member
      exact ⟨data, mem_append_right _ node, value⟩

def CollisionFree (hashes hashes' : List Uint256) : Prop :=
  InjOn hash256 { data | data ∈ merkleNodes hashes ∨ data ∈ merkleNodes hashes' }

theorem CollisionFree.symm (free : CollisionFree hashes hashes') :
    CollisionFree hashes' hashes := by
  intro a inA b inB
  exact free inA.symm inB.symm

theorem CollisionFree.right (long : 1 < hashes'.length) (free : CollisionFree hashes hashes') :
    CollisionFree hashes (nextLevel hashes') := by
  intro a inA b inB
  apply free
  · rw [mem_ofPred_eq, merkleNodes_step long]
    exact inA.imp_right (mem_append_right _)
  · rw [mem_ofPred_eq, merkleNodes_step long]
    exact inB.imp_right (mem_append_right _)

theorem CollisionFree.left (long : 1 < hashes.length) (free : CollisionFree hashes hashes') :
    CollisionFree (nextLevel hashes) hashes' :=
  (free.symm.right long).symm

theorem CollisionFree.levels (long : 1 < hashes.length) (long' : 1 < hashes'.length)
    (free : CollisionFree hashes hashes') :
    InjOn hash256 { data | data ∈ levelNodes hashes ∨ data ∈ levelNodes hashes' } := by
  intro a inA b inB
  apply free
  · rw [mem_ofPred_eq, merkleNodes_step long, merkleNodes_step long']
    exact inA.imp (mem_append_left _) (mem_append_left _)
  · rw [mem_ofPred_eq, merkleNodes_step long, merkleNodes_step long']
    exact inB.imp (mem_append_left _) (mem_append_left _)

/-- No leaf of the first list is the hash of a node of the tree over the second. -/
def LeavesApart (hashes hashes' : List Uint256) : Prop :=
  ∀ leaf ∈ hashes, ∀ data ∈ merkleNodes hashes', leaf ≠ hash256 data

theorem LevelOf.eq_of_apart (inside : LevelOf hashes hashes') (nonempty : hashes ≠ [])
    (apart : LeavesApart hashes hashes') : hashes = hashes' := by
  rcases inside.eq_or_hashed with same | hashed
  · exact same
  · obtain ⟨leaf, member⟩ := exists_mem_of_ne_nil hashes nonempty
    obtain ⟨data, node, value⟩ := hashed leaf member
    exact absurd value (apart leaf member data node)

section

variable (fine : (computeMerkleRoot hashes false).2 = false)
  (fine' : (computeMerkleRoot hashes' false).2 = false) (free : CollisionFree hashes hashes')
include fine fine' free

theorem LevelOf.lower {level : List Uint256} (inside : LevelOf (nextLevel hashes) level)
    (above : level = nextLevel hashes') (long : 1 < hashes.length) (long' : 1 < hashes'.length) :
    LevelOf hashes hashes' := by
  induction inside generalizing hashes' with
  | leaves =>
    rw [nextLevel_eq_map, nextLevel_eq_map] at above
    have same := eq_of_levelNodes (unmutated_step long fine).1 (unmutated_step long' fine').1
      (eq_of_map_hash256 (free.levels long long') above)
    rw [same]
    exact .leaves
  | above longer _ ih =>
    subst above
    apply LevelOf.above long'
    exact ih (unmutated_step long' fine').2 (free.right long') rfl longer

variable (nonempty : hashes ≠ []) (nonempty' : hashes' ≠ [])
  (same : (computeMerkleRoot hashes false).1 = (computeMerkleRoot hashes' false).1)
include nonempty nonempty' same

theorem levelOf_total : LevelOf hashes hashes' ∨ LevelOf hashes' hashes := by
  induction size : hashes.length using Nat.strong_induction_on generalizing hashes hashes' with
  | _ n ih =>
    by_cases long : 1 < hashes.length
    · by_cases long' : 1 < hashes'.length
      · have up := unmutated_step long fine
        have up' := unmutated_step long' fine'
        rw [root_step long, root_step long'] at same
        have shorter : (nextLevel hashes).length < n := by
          rw [nextLevel_length]
          omega
        have nonemptyUp : nextLevel hashes ≠ [] := by
          apply ne_nil_of_length_pos
          rw [nextLevel_length]
          omega
        have nonemptyUp' : nextLevel hashes' ≠ [] := by
          apply ne_nil_of_length_pos
          rw [nextLevel_length]
          omega
        have levels := ih _ shorter up.2 up'.2 ((free.left long).right long') nonemptyUp nonemptyUp'
          same rfl
        rcases levels with inside | inside
        · exact .inl (inside.lower fine fine' free rfl long long')
        · exact .inr (inside.lower fine' fine free.symm rfl long' long)
      · right
        have := length_pos_of_ne_nil nonempty'
        exact levelOf_single nonempty (by omega) same.symm
    · left
      have := length_pos_of_ne_nil nonempty
      exact levelOf_single nonempty' (by omega) same

theorem eq_of_root (apart : LeavesApart hashes hashes') (apart' : LeavesApart hashes' hashes) :
    hashes = hashes' := by
  rcases levelOf_total fine fine' free nonempty nonempty' same with inside | inside
  · exact inside.eq_of_apart nonempty apart
  · exact (inside.eq_of_apart nonempty' apart').symm

end

/-- A merkle root stands for one list of leaves, as long as nothing is reported as mutated; a list
longer than an unmutated one with the same root is reported. -/
theorem merkle_root_unique (hashes hashes' : List Uint256)
    (nonempty : hashes ≠ []) (nonempty' : hashes' ≠ [])
    (free : CollisionFree hashes hashes')
    (apart : LeavesApart hashes hashes') (apart' : LeavesApart hashes' hashes)
    (same : (computeMerkleRoot hashes false).1 = (computeMerkleRoot hashes' false).1) :
    ((computeMerkleRoot hashes false).2 = false → (computeMerkleRoot hashes' false).2 = false →
      hashes = hashes') ∧
    ((computeMerkleRoot hashes false).2 = false → hashes.length < hashes'.length →
      (computeMerkleRoot hashes' false).2 = true) := by
  constructor
  · intro fine fine'
    exact eq_of_root fine fine' free nonempty nonempty' same apart apart'
  · intro fine longer
    by_contra unreported
    have fine' : (computeMerkleRoot hashes' false).2 = false := by simpa using unreported
    have equal := eq_of_root fine fine' free nonempty nonempty' same apart apart'
    rw [equal] at longer
    exact absurd longer (lt_irrefl _)

end

def sampleNodes : List Bytes :=
  let _ := Crypto.residues
  let one := uint256S 1
  let two := uint256S 2
  let three := uint256S 3
  [one.bytes ++ two.bytes, three.bytes ++ three.bytes,
    (hash256 (one.bytes ++ two.bytes)).bytes ++ (hash256 (three.bytes ++ three.bytes)).bytes]

theorem sample_repeated_leaf :
    let _ := Crypto.residues
    let leaves : List Uint256 := [.uint256S 1, .uint256S 2, .uint256S 3]
    (computeMerkleRoot leaves false).2 = false ∧
    (computeMerkleRoot (leaves ++ [.uint256S 3]) false).2 = true := by
  let _ := Crypto.residues
  intro _ leaves
  have nodes : merkleNodes leaves = sampleNodes := by
    simp [leaves, sampleNodes, merkleNodes, nextLevel, levelNodes]
  have nodes' : merkleNodes (leaves ++ [.uint256S 3]) = sampleNodes := by
    simp [leaves, sampleNodes, merkleNodes, nextLevel, levelNodes]
  have distinct : ∀ a ∈ sampleNodes, ∀ b ∈ sampleNodes, hash256 a = hash256 b → a = b := by
    decide +kernel
  have apart : ∀ leaf ∈ leaves, ∀ data ∈ sampleNodes, leaf ≠ hash256 data := by decide +kernel
  have fine : (computeMerkleRoot leaves false).2 = false := by
    decide +kernel
  have same : (computeMerkleRoot leaves false).1 =
      (computeMerkleRoot (leaves ++ [.uint256S 3]) false).1 := by
    simp [leaves, computeMerkleRoot, nextLevel]
  have unique := merkle_root_unique leaves (leaves ++ [.uint256S 3]) (by decide) (by decide)
    (by
      intro a inA b inB
      simp only [mem_ofPred_eq, nodes, nodes', or_self] at inA inB
      exact distinct a inA b inB)
    (by rw [LeavesApart, nodes']; exact apart)
    (by
      rw [LeavesApart, nodes]
      intro leaf member
      apply apart
      simpa [leaves] using member)
    same
  exact ⟨fine, unique.2 fine (by simp)⟩

/-- No list and the list of one null hash have the same root, and neither is reported. -/
theorem empty_root_shared :
    ∃ hashes hashes' : List Uint256, let _ := Crypto.residues
      CollisionFree hashes hashes' ∧ LeavesApart hashes hashes' ∧ LeavesApart hashes' hashes ∧
      (computeMerkleRoot hashes false).1 = (computeMerkleRoot hashes' false).1 ∧
      (computeMerkleRoot hashes false).2 = false ∧ hashes.length < hashes'.length ∧
      (computeMerkleRoot hashes' false).2 = false := by
  refine ⟨[], [.null], ?_⟩
  let _ := Crypto.residues
  have nodes : merkleNodes [] = [] := by rw [merkleNodes]
  have nodes' : merkleNodes [Uint256.null] = [] := by rw [merkleNodes]
  have root : computeMerkleRoot [] false = (.null, false) := by rw [computeMerkleRoot]
  simp [CollisionFree, LeavesApart, nodes, nodes', root]

end Qogecoin.Consensus
