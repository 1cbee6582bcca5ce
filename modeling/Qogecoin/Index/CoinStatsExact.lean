import Qogecoin.Index.CoinStatsIndex
import Mathlib.Algebra.Group.Equiv.TypeTags
import Mathlib.Data.UInt

/-! The totals of `CoinStatsIndex` as exact sums over the blocks of a chain, whatever blocks were
written and taken back, unless an amount overflows. -/
namespace Qogecoin.Index

open Codec Chain Coins Consensus Ledger Qogecoin.Node Validation MuHash Function Nat Totals
open List hiding sum

variable {pindex : Chain}

section

variable {M : Type} [MuHash M]

/-- Totals whose amounts have no bounds. -/
abbrev Sums (M : Type) := (Amount → ℤ) × M × UInt64 × UInt64

def Totals.sums (t : Totals M) : Sums M :=
  (fun member => (t.amount member).toInt, t.muhash, t.transactionOutputCount, t.bogoSize)

def Totals.of (s : Sums M) : Totals M :=
  ⟨s.2.1, s.2.2.1, s.2.2.2, fun member => .ofInt (s.1 member)⟩

variable (back : Bool) {op op' : Totals M → Except Crash (Totals M)} {s s' δ δ' : Sums M}
  {t : Totals M}

omit [MuHash M] in
theorem Totals.eq_of (same : t.sums = s) : t = .of s := by
  subst same
  ext <;> simp [Totals.of, sums]

theorem signed_add {G : Type} [AddCommGroup G] (x y : G) :
    signed back (x + y) = signed back x + signed back y := by
  cases back
  · rfl
  · exact neg_add x y

theorem signed_not {G : Type} [AddCommGroup G] (x : G) : signed (!back) x = signed back (-x) := by
  cases back
  · rfl
  · exact (neg_neg x).symm

def Reaches (result : Except Crash (Totals M)) (s : Sums M) : Prop :=
  (∃ t, result = .ok t ∧ t.sums = s) ∨ result = .error .signedOverflow

omit [MuHash M] in
theorem Reaches.bind {result : Except Crash (Totals M)} (first : Reaches result s)
    (second : ∀ t, t.sums = s → Reaches (op t) s') : Reaches (result >>= op) s' := by
  rcases first with ⟨t, rfl, sums⟩ | rfl
  · exact second t sums
  · exact .inr rfl

omit [MuHash M] in
theorem Reaches.of_toAmount {n : ℤ} {f : Int64 → Except Crash (Totals M)}
    (next : ∀ amount : Int64, amount.toInt = n → Reaches (f amount) s) :
    Reaches (toAmount n >>= f) s := by
  by_cases range : -2 ^ 63 ≤ n ∧ n < 2 ^ 63
  · rw [toAmount, if_pos range]
    exact next (.ofInt n) (Int64.toInt_ofInt_of_le (by exact range.1) (by exact range.2))
  · rw [toAmount, if_neg range]
    exact .inr rfl

/-- The operation adds an element of the sums, or takes it back. -/
def Counts (back : Bool) (op : Totals M → Except Crash (Totals M)) (δ : Sums M) : Prop :=
  ∀ t, Reaches (op t) (t.sums + signed back δ)

theorem counts_pure : Counts (M := M) back .ok 0 := by
  intro t
  refine .inl ⟨t, rfl, ?_⟩
  cases back <;> simp [signed]

variable {back} in
theorem Counts.bind (first : Counts back op δ) (second : Counts back op' δ') :
    Counts back (fun t => op t >>= op') (δ + δ') := by
  intro t
  rw [signed_add, ← add_assoc]
  exact (first t).bind fun t' sums => sums ▸ second t'

def moved (member : Amount) (n : ℤ) : Sums M := (Pi.single member n, 0)

def inserted (o : COutPoint) (coin : Coin) : Sums M :=
  (Pi.single .total coin.out.nValue.toInt, element (txOutSer o coin), 1,
    getBogoSize coin.out.scriptPubKey)

theorem counts_tally (member : Amount) (nValue : Int64) :
    Counts (M := M) back (tally back member nValue) (moved member nValue.toInt) := by
  intro t
  refine .of_toAmount fun sum exact => .inl ⟨_, rfl, ?_⟩
  refine Prod.ext ?_ (by cases back <;> simp [sums, moved, signed])
  funext other
  by_cases same : other = member
  · subst same
    cases back <;> simp_all [sums, moved, signed]
  · cases back <;> simp [sums, moved, signed, same]

theorem counts_insert (outpoint : COutPoint) (coin : Coin) :
    Counts (M := M) back (Totals.insert back outpoint coin) (inserted outpoint coin) := by
  intro t
  have split : t.sums + signed back (inserted outpoint coin) =
      { t with
        muhash := t.muhash + signed back (element (txOutSer outpoint coin))
        transactionOutputCount := t.transactionOutputCount + signed back 1
        bogoSize := t.bogoSize + signed back (getBogoSize coin.out.scriptPubKey) : Totals M }.sums +
      signed back (moved .total coin.out.nValue.toInt) := by
    cases back <;> simp [sums, moved, inserted, signed]
  rw [split]
  exact counts_tally back .total coin.out.nValue _

/-- Amounts that can never be spent are counted twice, the second time by their kind. -/
def burnt (kind : Amount) (n : ℤ) : Sums M := moved .unspendable n + moved kind n

def outputSums (txid : Uint256) (nHeight : Int) (coinbase : Bool) (j : Nat) (out : CTxOut) :
    Sums M :=
  if isUnspendable out.scriptPubKey then
    burnt .unspendablesScripts out.nValue.toInt
  else
    moved (if coinbase then .coinbase else .newOutputsExCoinbase) out.nValue.toInt +
      inserted ⟨txid, UInt32.ofNat j⟩ (newCoin out nHeight coinbase)

def prevoutSums (outpoint : COutPoint) (coin : Coin) : Sums M :=
  moved .prevoutSpent coin.out.nValue.toInt - inserted outpoint coin

def outputsSums (txid : Uint256) (nHeight : Int) (coinbase : Bool) : Nat → List CTxOut → Sums M
  | _, [] => 0
  | j, out :: vout =>
    outputSums txid nHeight coinbase j out + outputsSums txid nHeight coinbase (j + 1) vout

theorem counts_output (txid : Uint256) (nHeight : Int) (coinbase : Bool) (j : Nat) (out : CTxOut) :
    Counts (M := M) back (output back txid nHeight coinbase j out)
      (outputSums txid nHeight coinbase j out) := by
  unfold output outputSums
  split
  · exact (counts_tally back .unspendable _).bind (counts_tally back .unspendablesScripts _)
  · exact (counts_tally back _ _).bind (counts_insert back _ _)

theorem counts_outputs (txid : Uint256) (nHeight : Int) (coinbase : Bool) (j : Nat)
    (vout : List CTxOut) :
    Counts (M := M) back (outputs back txid nHeight coinbase j vout)
      (outputsSums txid nHeight coinbase j vout) := by
  induction vout generalizing j with
  | nil => exact counts_pure back
  | cons out vout ih => exact (counts_output back txid nHeight coinbase j out).bind (ih (j + 1))

theorem counts_prevout (outpoint : COutPoint) (coin : Coin) :
    Counts (M := M) back (prevout back outpoint coin) (prevoutSums outpoint coin) := by
  have removed : Counts (M := M) back (Totals.insert (!back) outpoint coin)
      (-inserted outpoint coin) := by
    intro t
    rw [← signed_not]
    exact counts_insert (!back) outpoint coin t
  rw [prevoutSums, sub_eq_add_neg]
  exact (counts_tally back .prevoutSpent coin.out.nValue).bind removed

theorem counts_prevouts {vin : List CTxIn} {vprevout : List Coin}
    (lengths : vprevout.length = vin.length) :
    Counts (M := M) back (prevouts back vin vprevout)
      (listSum prevoutSums ((vin.map CTxIn.prevout).zip vprevout)) := by
  induction vprevout generalizing vin with
  | nil =>
    cases vin with
    | nil => exact counts_pure back
    | cons => cases lengths
  | cons coin vprevout ih =>
    cases vin with
    | nil => cases lengths
    | cons txin vin =>
      rw [map_cons, zip_cons_cons, listSum, map_cons, sum_cons]
      exact (counts_prevout back txin.prevout coin).bind (ih (succ.inj lengths))

def inflow : Sums M →+ ℤ where
  toFun s := s.1 .prevoutSpent + s.1 .subsidy
  map_zero' := rfl
  map_add' _ _ := add_add_add_comm ..

def outflow : Sums M →+ ℤ where
  toFun s := s.1 .newOutputsExCoinbase + s.1 .coinbase + s.1 .unspendable
  map_zero' := rfl
  map_add' s u := by
    simp only [Prod.fst_add, Pi.add_apply]
    omega

/-- What a block changes, with the rewards that it leaves unclaimed. -/
def balanced (δ : Sums M) : Sums M :=
  δ + burnt .unspendablesUnclaimedRewards (inflow δ - outflow δ)

theorem inflow_unclaimed (n : ℤ) :
    inflow (burnt (M := M) .unspendablesUnclaimedRewards n) = 0 := by
  simp [inflow, burnt, moved]

theorem outflow_unclaimed (n : ℤ) :
    outflow (burnt (M := M) .unspendablesUnclaimedRewards n) = n := by
  simp [outflow, burnt, moved]

theorem rewards_reaches {reward : ℤ} (exact : signed back (inflow t.sums - outflow t.sums) = reward) :
    Reaches (t.rewards back)
      (t.sums + signed back (burnt .unspendablesUnclaimedRewards reward)) := by
  refine .of_toAmount fun into low => .of_toAmount fun outputs new => .of_toAmount fun out high =>
    .of_toAmount fun rewards amount => ?_
  rw [high, new, low] at amount
  obtain rfl : rewards.toInt = reward := amount.trans exact
  exact (counts_tally back .unspendable rewards).bind
    (counts_tally back .unspendablesUnclaimedRewards rewards) t

def onward (back : Bool) (s δ : Sums M) : Sums M := if back then s else s + δ

/-- A block is counted, or taken back, between sums that are even. -/
theorem Counts.settle (counts : Counts back op δ) (even : inflow s = outflow s)
    (same : t.sums = onward (!back) s (balanced δ)) :
    Reaches (op t >>= Totals.rewards back) (onward back s (balanced δ)) := by
  refine (counts t).bind fun t' sums => ?_
  rw [same] at sums
  cases back with
  | false =>
    have reached := rewards_reaches false (t := t') rfl
    rw [sums] at reached
    simp only [onward, signed, Bool.not_false, if_true, if_false, Bool.false_eq_true, map_add, even,
      add_sub_add_left_eq_sub, add_assoc] at reached ⊢
    exact reached
  | true =>
    have reached := rewards_reaches true (t := t') rfl
    have before : t'.sums = s + burnt .unspendablesUnclaimedRewards (inflow δ - outflow δ) := by
      rw [sums]
      simp only [onward, signed, balanced, Bool.not_true, if_true, if_false, Bool.false_eq_true]
      abel
    rw [before] at reached
    simp only [signed, if_true, map_add, even, inflow_unclaimed, outflow_unclaimed, add_zero,
      sub_add_cancel_left, neg_neg, add_neg_cancel_right] at reached
    exact reached

variable [Crypto]

def txSums (nHeight : Int) (tx : CTransaction) (txUndo : CTxUndo) : Sums M :=
  outputsSums tx.getHash nHeight tx.isCoinBase 0 tx.vout +
    listSum prevoutSums (txChange nHeight tx txUndo).spent

def txsSums (nHeight : Int) (vtx : List CTransaction) (vtxundo : List CTxUndo) : Sums M :=
  ((vtx.zip vtxundo).map fun p => txSums nHeight p.1 p.2).sum

theorem counts_rest (nHeight : Int) (blockSubsidy : Int64) (blockUndo : CBlockUndo)
    (i : Nat) {vtx : List CTransaction} (others : ∀ tx ∈ vtx, tx.isCoinBase = false)
    (undoes : Undoes vtx (blockUndo.vtxundo.drop i)) :
    Counts (M := M) back
      (Totals.transactions back nHeight false blockSubsidy blockUndo (i + 1) vtx)
      (txsSums nHeight vtx (blockUndo.vtxundo.drop i)) := by
  induction vtx generalizing i with
  | nil => exact counts_pure back
  | cons tx vtx ih =>
    cases here : blockUndo.vtxundo.drop i with
    | nil =>
      rw [here] at undoes
      cases undoes
    | cons txUndo rest =>
      rw [here] at undoes
      cases undoes with
      | cons length remaining =>
        have later : blockUndo.vtxundo.drop (i + 1) = rest := by
          rw [← drop_drop, here]
          rfl
        have found : blockUndo.vtxundo[i]? = some txUndo := by
          rw [← head?_drop, here]
          rfl
        have first : Counts (M := M) back
            (Totals.transaction back nHeight false blockSubsidy blockUndo (i + 1) tx)
            (txSums nHeight tx txUndo) := by
          have moves := (counts_outputs (M := M) back tx.getHash nHeight tx.isCoinBase 0
            tx.vout).bind (counts_prevouts back length)
          unfold Totals.transaction
          simp only [txSums, others tx mem_cons_self, Bool.and_false, Bool.false_eq_true, if_false,
            undoAt, found] at moves ⊢
          exact moves
        have rests := ih (i + 1) (fun tx' member => others tx' (mem_cons_of_mem tx member))
          (later ▸ remaining)
        rw [later] at rests
        exact first.bind rests

def blockSums (params : Params) (stored : Stored) (pindex : Chain) : Sums M :=
  let blockSubsidy := (getBlockSubsidy pindex.nHeight params).toInt
  moved .subsidy blockSubsidy +
    if pindex.nHeight > 0 then
      txsSums pindex.nHeight (stored pindex).1.vtx (⟨[]⟩ :: (stored pindex).2.vtxundo)
    else burnt .unspendablesGenesisBlock blockSubsidy

variable {params : Params} {stored : Stored}

theorem counts_block (applied : Applied stored pindex) :
    let blockSubsidy := getBlockSubsidy pindex.nHeight params
    Counts (M := M) back (fun t => t.tally back .subsidy blockSubsidy >>=
      transactions back pindex.nHeight false blockSubsidy (stored pindex).2 0
        (stored pindex).1.vtx) (blockSums params stored pindex) := by
  intro blockSubsidy
  obtain ⟨coinbase, rest, whole, isCoinBase, others⟩ := applied.formed.coinbase
  have undoes := applied.undoes
  rw [blockSums, if_pos (nHeight_pos applied.parent), whole]
  rw [whole] at undoes
  have first : Counts (M := M) back
      (transaction back pindex.nHeight false blockSubsidy (stored pindex).2 0 coinbase)
      (txSums pindex.nHeight coinbase ⟨[]⟩) := by
    have moves := (counts_outputs (M := M) back coinbase.getHash pindex.nHeight true 0
      coinbase.vout).bind (counts_pure back)
    unfold transaction
    simpa [isCoinBase, txSums, txChange, listSum] using moves
  exact (counts_tally back .subsidy _).bind
    (first.bind (counts_rest back pindex.nHeight blockSubsidy _ 0 others undoes))

theorem counts_genesis (index : CBlockIndex) :
    let blockSubsidy := getBlockSubsidy (nHeight [index]) params
    Counts (M := M) back (fun t => t.tally back .subsidy blockSubsidy >>= fun t =>
      t.tally back .unspendable blockSubsidy >>=
        tally back .unspendablesGenesisBlock blockSubsidy)
      (blockSums params stored [index]) := by
  rw [blockSums, if_neg (by simp [nHeight])]
  exact (counts_tally back .subsidy _).bind
    ((counts_tally back .unspendable _).bind (counts_tally back .unspendablesGenesisBlock _))

def sumsAt (params : Params) (stored : Stored) : Chain → Sums M
  | [] => 0
  | index :: pprev => sumsAt params stored pprev + balanced (blockSums params stored (index :: pprev))

theorem sumsAt_even (pindex : Chain) :
    inflow (sumsAt (M := M) params stored pindex) =
      outflow (sumsAt (M := M) params stored pindex) := by
  induction pindex with
  | nil => rfl
  | cons index pprev ih =>
    simp only [sumsAt, balanced, map_add, ih, inflow_unclaimed, outflow_unclaimed]
    omega

def totalsAt (params : Params) (stored : Stored) (pindex : Chain) : Totals M :=
  .of (sumsAt params stored pindex)

variable (M) in
/-- No amount of the chain has overflowed. -/
def Representable (params : Params) (stored : Stored) (pindex : Chain) : Prop :=
  (totalsAt params stored pindex : Totals M).sums = sumsAt params stored pindex

def ChainAccess.Has (node : ChainAccess) (pindex : Chain) : Prop :=
  pindex ≠ [] ∧ node.lookupBlockIndex pindex.getBlockHash = some pindex

/-- The blocks of the node form a tree, are valid and can be read, and none is an exception to
BIP30. -/
structure ValidTree (node : ChainAccess) (stored : Stored) : Prop where
  parent : ∀ index pprev, node.Has (index :: pprev) → pprev ≠ [] → node.Has pprev
  valid : ∀ pindex, node.Has pindex → ∃ coins, UtxoSet node.params stored pindex coins
  readable : ∀ pindex, node.Has pindex → pindex.pprev ≠ [] → Readable node.files stored pindex
  ordinary : ∀ pindex, node.Has pindex → isBip30Block pindex = false

variable {node : ChainAccess}

theorem undoRead_eq (readable : Readable node.files stored pindex) :
    undoRead node.files pindex = some (stored pindex).2 := by
  obtain ⟨file, found, read⟩ := readable.undo
  rw [Index.undoRead, found]
  exact read

def record (M : Type) [MuHash M] (node : ChainAccess) (stored : Stored) (pindex : Chain) :
    Uint256 × DBVal :=
  (pindex.getBlockHash, (totalsAt node.params stored pindex : Totals M).value)

section

variable (tree : ValidTree node stored) {index : CBlockIndex} {pprev : Chain}
  {db : CoinStatsDB}

include tree

theorem ValidTree.applied {parent : CBlockIndex} {rest : Chain}
    (has : node.Has (index :: parent :: rest)) : Applied stored (index :: parent :: rest) := by
  obtain ⟨coins, set⟩ := tree.valid _ has
  obtain ⟨_, _, applied, _, _⟩ := set.step
  exact applied

theorem ValidTree.ancestor {pindex ancestor : Chain} (has : node.Has pindex)
    (suffix : ancestor <:+ pindex) (nonempty : ancestor ≠ []) : node.Has ancestor :=
  of_ancestor tree.parent has suffix nonempty

omit [Crypto] tree in
theorem readPrevious_eq {readOut : Uint256 × DBVal}
    (previous : db.heights pprev.nHeight = some readOut) (same : readOut.1 = pprev.getBlockHash) :
    readPrevious db (index :: pprev) = some readOut := by
  have height : nHeight (index :: pprev) - 1 = pprev.nHeight := by
    rw [nHeight_cons]
    omega
  rw [readPrevious, height, previous]
  exact if_neg fun other => other same

theorem ValidTree.countBlock_cases (has : node.Has (index :: pprev))
    (previous : pprev ≠ [] → db.heights pprev.nHeight = some (record M node stored pprev))
    {t : Totals M} (same : t.sums = sumsAt node.params stored pprev) :
    (∃ t', countBlock node db (stored (index :: pprev)).1 (index :: pprev) t = .ok (true, t') ∧
      t'.sums = sumsAt node.params stored (index :: pprev)) ∨
    countBlock node db (stored (index :: pprev)).1 (index :: pprev) t = .error .signedOverflow := by
  have block : ∃ op : Totals M → Except Crash (Totals M),
      Counts false op (blockSums node.params stored (index :: pprev)) ∧
      countBlock node db (stored (index :: pprev)).1 (index :: pprev) t =
        (op t >>= Totals.rewards false) >>= fun t => .ok (true, t) := by
    cases pprev with
    | nil =>
      refine ⟨_, counts_genesis false index, ?_⟩
      rw [countBlock]
      simp only [if_neg (show ¬nHeight [index] > 0 by simp [nHeight]), bind_assoc]
    | cons parent rest =>
      have above : nHeight (index :: parent :: rest) > 0 := by simp [nHeight]
      refine ⟨_, counts_block false (tree.applied has), ?_⟩
      rw [countBlock]
      simp only [if_pos above, undoRead_eq (tree.readable _ has (by simp)),
        readPrevious_eq (previous (by simp)) rfl, tree.ordinary _ has, bind_assoc]
  obtain ⟨op, counts, computed⟩ := block
  rw [computed]
  rcases counts.settle false (sumsAt_even pprev) same with ⟨t', done, sums⟩ | failed
  · rw [done]
    exact .inl ⟨t', rfl, sums⟩
  · rw [failed]
    exact .inr rfl

theorem ValidTree.reverseBlock_cases (has : node.Has (index :: pprev)) (above : pprev ≠ [])
    (previous : db.heights pprev.nHeight = some (record M node stored pprev))
    {t : Totals M} (same : t.sums = sumsAt node.params stored (index :: pprev)) :
    (∃ t', reverseBlock node db (stored (index :: pprev)).1 (index :: pprev) t = .ok (true, t') ∧
      t'.sums = sumsAt node.params stored pprev) ∨
    reverseBlock node db (stored (index :: pprev)).1 (index :: pprev) t =
      .error .signedOverflow := by
  obtain ⟨parent, rest, rfl⟩ := exists_cons_of_ne_nil above
  have positive : nHeight (index :: parent :: rest) > 0 := nHeight_pos above
  rw [reverseBlock]
  simp only [if_pos positive, undoRead_eq (tree.readable _ has above),
    readPrevious_eq previous rfl]
  rw [← bind_assoc, ← bind_assoc]
  rcases (counts_block true (tree.applied has)).settle true (sumsAt_even _) same with
    ⟨t', done, sums⟩ | failed
  · rw [done, Totals.eq_of sums]
    exact .inl ⟨_, if_pos rfl, Totals.eq_of sums ▸ sums⟩
  · rw [failed]
    exact .inr rfl

theorem ValidTree.reverseBlocks_cases {newTip iterTip : Chain} (has : node.Has iterTip)
    (nonempty : newTip ≠ []) (suffix : newTip <:+ iterTip) (proper : newTip ≠ iterTip)
    (current : ∀ ancestor : Chain, ancestor ≠ [] → ancestor <:+ iterTip →
      db.heights ancestor.nHeight = some (record M node stored ancestor))
    {t : Totals M} (same : t.sums = sumsAt node.params stored iterTip) :
    (∃ t', reverseBlocks node db newTip iterTip t = .ok (true, t') ∧
      t'.sums = sumsAt node.params stored newTip) ∨
    reverseBlocks node db newTip iterTip t = .error .signedOverflow := by
  induction iterTip generalizing t with
  | nil => exact absurd rfl has.1
  | cons index pprev ih =>
    have below : newTip <:+ pprev := by
      rcases suffix_cons_iff.mp suffix with whole | below
      · exact absurd whole proper
      · exact below
    have some := below.ne_nil nonempty
    have parent := tree.parent index pprev has some
    rw [reverseBlocks, (tree.readable _ has some).block]
    dsimp only
    rcases tree.reverseBlock_cases has some (current pprev some (suffix_cons _ _)) same with
      ⟨t', reversed, sums⟩ | failed
    · rw [reversed]
      show (∃ t'', (if pprev = newTip then _ else _) = _ ∧ _) ∨ (if pprev = newTip then _ else _) = _
      by_cases last : pprev = newTip
      · rw [if_pos last, ← last]
        exact .inl ⟨t', rfl, sums⟩
      · rw [if_neg last]
        exact ih parent below (fun same => last same.symm) (fun ancestor inner lower =>
          current ancestor inner (lower.trans (suffix_cons _ _))) sums
    · rw [failed]
      exact .inr rfl

end

structure Indexed (node : ChainAccess) (stored : Stored) (index : CoinStatsIndex M) (tip : Chain)
    (written : List Chain) : Prop where
  totals : index.totals.sums = sumsAt node.params stored tip
  known : ∀ pindex ∈ written, node.Has pindex
  exact : ∀ pindex ∈ written, Representable M node.params stored pindex
  ancestors : ∀ pindex : Chain, pindex ≠ [] → pindex <:+ tip → pindex ∈ written
  current : ∀ pindex : Chain, pindex ≠ [] → pindex <:+ tip →
    index.db.heights pindex.nHeight = some (record M node stored pindex)
  covered : ∀ pindex ∈ written, ∃ other, node.Has other ∧
    index.db.heights pindex.nHeight = some (record M node stored other)
  copied : ∀ hash value, index.db.hashes hash = some value →
    ∃ other, node.Has other ∧ (hash, value) = record M node stored other
  /-- A block that is not on the chain any more has been copied. -/
  kept : ∀ pindex ∈ written, pindex <:+ tip ∨
    index.db.hashes pindex.getBlockHash = some (record M node stored pindex).2

omit [Crypto] [MuHash M] in
theorem ChainAccess.Has.unique {pindex other : Chain} (has : node.Has pindex)
    (has' : node.Has other) (same : pindex.getBlockHash = other.getBlockHash) : pindex = other := by
  have found := has.2
  rw [same, has'.2] at found
  exact (Option.some.inj found).symm

variable {index : CoinStatsIndex M} {tip : Chain} {written : List Chain}

theorem Indexed.lookUpOne_eq (indexed : Indexed node stored index tip written)
    (member : pindex ∈ written) :
    lookUpOne index.db pindex = some (record M node stored pindex).2 := by
  have has := indexed.known pindex member
  obtain ⟨other, has', found⟩ := indexed.covered pindex member
  rw [lookUpOne, found]
  by_cases same : other.getBlockHash = pindex.getBlockHash
  · rw [has'.unique has same]
    exact if_pos rfl
  · refine (if_neg same).trans ?_
    rcases indexed.kept pindex member with suffix | copied
    · rw [indexed.current pindex has.1 suffix] at found
      have hashes := congrArg Prod.fst (Option.some.inj found)
      exact absurd hashes.symm same
    · exact copied

theorem Indexed.writeBlock (tree : ValidTree node stored)
    (indexed : Indexed node stored index tip written) {child : CBlockIndex}
    (has : node.Has (child :: tip)) :
    (∃ index' : CoinStatsIndex M,
      index.writeBlock node (stored (child :: tip)).1 (child :: tip) = .ok (true, index') ∧
      index'.db.heights = Function.update index.db.heights (nHeight (child :: tip))
        (some (record M node stored (child :: tip))) ∧
      Indexed node stored index' (child :: tip) ((child :: tip) :: written)) ∨
    index.writeBlock node (stored (child :: tip)).1 (child :: tip) = .error .signedOverflow := by
  rw [CoinStatsIndex.writeBlock]
  rcases tree.countBlock_cases (M := M) has (fun nonempty =>
    indexed.current tip nonempty (suffix_refl tip)) indexed.totals with ⟨t, counted, sums⟩ | failed
  · refine .inl ⟨⟨t, index.db.writeHeight (nHeight (child :: tip))
      (record M node stored (child :: tip))⟩, ?_, rfl, ?_⟩
    · rw [counted, Totals.eq_of sums]
      rfl
    have height := nHeight_cons child tip
    refine ⟨sums, ?_, ?_, ?_, ?_, ?_, indexed.copied, ?_⟩
    · exact forall_mem_cons.mpr ⟨has, indexed.known⟩
    · exact forall_mem_cons.mpr ⟨(congrArg Totals.sums (Totals.eq_of sums).symm).trans sums,
        indexed.exact⟩
    · intro pindex nonempty suffix
      rcases suffix_cons_iff.mp suffix with rfl | below
      · exact mem_cons_self
      · exact mem_cons_of_mem _ (indexed.ancestors pindex nonempty below)
    · intro pindex nonempty suffix
      rcases suffix_cons_iff.mp suffix with rfl | below
      · exact update_self ..
      · have lower := nHeight_le below
        exact (update_of_ne (by omega) ..).trans (indexed.current pindex nonempty below)
    · intro pindex member
      by_cases same : pindex.nHeight = nHeight (child :: tip)
      · exact ⟨_, has, by rw [same]; exact update_self ..⟩
      · rcases mem_cons.mp member with rfl | before
        · exact absurd rfl same
        · obtain ⟨other, has', found⟩ := indexed.covered pindex before
          exact ⟨other, has', (update_of_ne same ..).trans found⟩
    · intro pindex member
      rcases mem_cons.mp member with rfl | before
      · exact .inl (suffix_refl _)
      · exact (indexed.kept pindex before).imp_left fun suffix =>
          suffix.trans (suffix_cons _ _)
  · rw [failed]
    exact .inr rfl

omit [Crypto] [MuHash M] in
theorem copyHeightIndexToHashIndex_spec (consistent : Uint256 → DBVal → Prop)
    (unique : ∀ hash value value', consistent hash value → consistent hash value' → value = value')
    (heights : Int → Option (Uint256 × DBVal)) (height : Int) (count : Nat)
    (hashes : Uint256 → Option DBVal)
    (present : ∀ k < count, ∃ readOut : Uint256 × DBVal,
      heights (height + (k : Nat)) = some readOut ∧ consistent readOut.1 readOut.2)
    (old : ∀ hash value, hashes hash = some value → consistent hash value) :
    ∃ hashes', copyHeightIndexToHashIndex heights height count hashes = some hashes' ∧
      (∀ hash value, hashes' hash = some value → consistent hash value) ∧
      (∀ hash value, hashes hash = some value → hashes' hash = some value) ∧
      ∀ k < count, ∀ readOut : Uint256 × DBVal, heights (height + (k : Nat)) = some readOut →
        hashes' readOut.1 = some readOut.2 := by
  induction count generalizing height hashes with
  | zero => exact ⟨hashes, rfl, old, fun _ _ found => found, fun k below => absurd below (by omega)⟩
  | succ count ih =>
    obtain ⟨first, found, sound⟩ := present 0 (by omega)
    rw [cast_zero, add_zero] at found
    have shift : ∀ k : Nat, height + 1 + (k : Int) = height + ((k + 1 : Nat) : Int) := by
      intro k
      rw [cast_succ]
      omega
    have next : ∀ hash value, update hashes first.1 (some first.2) hash = some value →
        consistent hash value := by
      intro hash value written
      by_cases same : hash = first.1
      · subst same
        rw [update_self] at written
        cases written
        exact sound
      · rw [update_of_ne same] at written
        exact old hash value written
    obtain ⟨hashes', copied, sound', kept, all⟩ := ih (height + 1)
      (update hashes first.1 (some first.2))
      (fun k below => by rw [shift]; exact present (k + 1) (by omega)) next
    refine ⟨hashes', ?_, sound', ?_, ?_⟩
    · rw [copyHeightIndexToHashIndex, found]
      exact copied
    · intro hash value before
      apply kept
      by_cases same : hash = first.1
      · subst same
        rw [update_self, unique _ _ _ sound (old _ _ before)]
      · rw [update_of_ne same]
        exact before
    · intro k below readOut here
      cases k with
      | zero =>
        rw [cast_zero, add_zero, found] at here
        cases here
        exact kept _ _ (update_self ..)
      | succ k =>
        rw [← shift] at here
        exact all k (by omega) readOut here

theorem Indexed.rewind (tree : ValidTree node stored)
    (indexed : Indexed node stored index tip written) {newTip : Chain} (nonempty : newTip ≠ [])
    (suffix : newTip <:+ tip) (proper : newTip ≠ tip) :
    (∃ index' : CoinStatsIndex M, index.rewind node tip newTip = .ok (true, index') ∧
      index'.db.heights = index.db.heights ∧ Indexed node stored index' newTip written) ∨
    index.rewind node tip newTip = .error .signedOverflow := by
  have longer := nHeight_le suffix
  have low := nHeight_nonneg nonempty
  have has :=
    indexed.known tip (indexed.ancestors tip (suffix.ne_nil nonempty) (suffix_refl tip))
  -- the blocks from the new tip up to the old one, by height
  have between : ∀ k < (tip.nHeight - newTip.nHeight + 1).toNat, ∃ pindex : Chain,
      pindex ≠ [] ∧ pindex <:+ tip ∧ newTip.nHeight + (k : Nat) = pindex.nHeight := by
    intro k below
    have inside : (tip.nHeight - newTip.nHeight - k).toNat < tip.length := by
      simp only [nHeight] at below low longer ⊢
      omega
    refine ⟨tip.drop (tip.nHeight - newTip.nHeight - k).toNat, ?_, drop_suffix _ _, ?_⟩
    · intro none
      have length := congrArg length none
      rw [length_drop, length_nil] at length
      omega
    · simp only [nHeight, length_drop] at below low longer inside ⊢
      omega
  obtain ⟨hashes, copies, copied, kept, all⟩ :=
    copyHeightIndexToHashIndex_spec
      (fun hash value => ∃ other, node.Has other ∧ (hash, value) = record M node stored other)
      (by
        rintro hash value value' ⟨other, has', first⟩ ⟨other', has'', second⟩
        have same := has'.unique has''
          ((congrArg Prod.fst first).symm.trans (congrArg Prod.fst second))
        rw [same] at first
        exact (congrArg Prod.snd first).trans (congrArg Prod.snd second).symm)
      index.db.heights newTip.nHeight (tip.nHeight - newTip.nHeight + 1).toNat index.db.hashes
      (fun k below => by
        obtain ⟨pindex, some, inside, height⟩ := between k below
        rw [height, indexed.current pindex some inside]
        exact ⟨_, rfl, pindex, tree.ancestor has inside some, rfl⟩)
      indexed.copied
  rw [CoinStatsIndex.rewind, getAncestor_of_suffix nonempty suffix, if_neg (by simp), copies]
  rw [has.2]
  dsimp only
  rcases tree.reverseBlocks_cases has nonempty suffix proper
    (show ∀ ancestor : Chain, _ → _ → ({ index.db with hashes } : CoinStatsDB).heights _ = _ from
      indexed.current) indexed.totals with ⟨t, reversed, sums⟩ | failed
  · rw [reversed]
    refine .inl ⟨_, rfl, rfl, sums, indexed.known, indexed.exact, ?_, ?_,
      indexed.covered, copied, ?_⟩
    · exact fun pindex some below => indexed.ancestors pindex some (below.trans suffix)
    · exact fun pindex some below => indexed.current pindex some (below.trans suffix)
    · intro pindex member
      have some := (indexed.known pindex member).1
      rcases indexed.kept pindex member with inside | before
      · by_cases under : pindex.nHeight ≤ newTip.nHeight
        · have length : pindex.length ≤ newTip.length := by
            simp only [nHeight] at under
            omega
          exact .inl (suffix_of_suffix_length_le inside suffix length)
        · have high := nHeight_le inside
          have step := all (pindex.nHeight - newTip.nHeight).toNat (by omega)
            (record M node stored pindex)
          rw [show newTip.nHeight + ((pindex.nHeight - newTip.nHeight).toNat : Int) =
            pindex.nHeight by omega] at step
          exact .inr (step (indexed.current pindex some inside))
      · exact .inr (kept _ _ before)
  · rw [failed]
    exact .inr rfl

end

@[reducible] def sumHash : MuHash ℤ where
  element bytes := leNat bytes
  finalize sum := .uint256S sum.natAbs

def indexedNode : ChainAccess where
  params := minedParams
  files := storedFiles
  lookupBlockIndex hash :=
    if hash = minedHash minedGenesis then some [minedIndex minedGenesis] else storedIndex hash

theorem indexedNode_has_iff : indexedNode.Has pindex ↔ pindex = [minedIndex minedGenesis] ∨
    pindex = childOfGenesis oldBlock ∨ pindex = childOfGenesis newBlock := by
  constructor
  · intro has
    have found := has.2
    simp only [indexedNode, storedIndex] at found
    split at found
    · exact .inl (Option.some.inj found).symm
    · split at found
      · exact .inr (.inl (Option.some.inj found).symm)
      · split at found
        · exact .inr (.inr (Option.some.inj found).symm)
        · cases found
  · rintro (rfl | rfl | rfl) <;> exact ⟨by simp [childOfGenesis], by decide +kernel⟩

theorem indexedNode_parent {index : CBlockIndex} {pprev : Chain}
    (has : indexedNode.Has (index :: pprev)) (nonempty : pprev ≠ []) : indexedNode.Has pprev := by
  rcases indexedNode_has_iff.mp has with same | same | same <;> cases same
  · exact absurd rfl nonempty
  · exact indexedNode_has_iff.mpr (.inl rfl)
  · exact indexedNode_has_iff.mpr (.inl rfl)

theorem indexedNode_tree :
    let _ := Crypto.firstBytes
    ValidTree indexedNode storedBlocks := by
  intro crypto
  refine ⟨fun _ _ => indexedNode_parent, ?_, ?_, ?_⟩
  · intro pindex has
    rcases indexedNode_has_iff.mp has with rfl | rfl | rfl
    · exact ⟨_, .genesis _⟩
    · exact ⟨_, oldBlock_set⟩
    · exact ⟨_, newBlock_set⟩
  · intro pindex has above
    rcases indexedNode_has_iff.mp has with rfl | rfl | rfl
    · exact absurd rfl above
    · exact readable_child oldBlock
    · exact readable_child newBlock
  · intro pindex has
    rcases indexedNode_has_iff.mp has with rfl | rfl | rfl <;> decide +kernel

end Qogecoin.Index
