import Qogecoin.Consensus.Chain
import Qogecoin.Consensus.TxCheck

/-! `GetUTXOStats`: the hash over the whole set of unspent coins, and what it says about them. -/
namespace Qogecoin.Node

open Codec Consensus List Crypto

/-- A `std::map`, in the order of the indices. -/
abbrev Outputs := List (UInt32 × Coin)

def setOutput (n : UInt32) (coin : Coin) : Outputs → Outputs
  | [] => [(n, coin)]
  | (m, other) :: rest =>
    if n < m then (n, coin) :: (m, other) :: rest
    else if n = m then (n, coin) :: rest
    else (m, other) :: setOutput n coin rest

structure CCoinsStats where
  nHeight : Int
  hashBlock : Uint256
  nTransactions : UInt64 := 0
  nTransactionOutputs : UInt64 := 0
  nBogoSize : UInt64 := 0
  hashSerialized : Uint256 := .null
  /-- Missing once the addition has overflowed. -/
  totalAmount : Option Int64 := some 0
  coinsCount : UInt64 := 0

def checkedAdd (i j : Int64) : Option Int64 :=
  if (i > 0 ∧ j > .maxValue - i) ∨ (i < 0 ∧ j < .minValue - i) then none else some (i + j)

def getBogoSize (scriptPubKey : Bytes) : UInt64 :=
  32 + 4 + 4 + 8 + 2 + UInt64.ofNat scriptPubKey.length

def countOutput (stats : CCoinsStats) (coin : Coin) : CCoinsStats :=
  { stats with
    nTransactionOutputs := stats.nTransactionOutputs + 1
    totalAmount := stats.totalAmount.bind fun amount => checkedAdd amount coin.out.nValue
    nBogoSize := stats.nBogoSize + getBogoSize coin.out.scriptPubKey }

def applyStats (stats : CCoinsStats) (outputs : Outputs) : CCoinsStats :=
  outputs.foldl (fun stats output => countOutput stats output.2)
    { stats with nTransactions := stats.nTransactions + 1 }

/-- `WriteVarInt` of a signed amount that should not be negative. -/
def writeAmount (n : Int64) : Bytes :=
  if n < 0 then [UInt8.ofNat (n.toUInt64.toNat % 128)] else writeVarInt n.toUInt64.toNat

/-- The argument of the first `VARINT`. `+` binds tighter than `?:`, so that the height and the
coinbase flag are only a condition. They are `int`s there. -/
def heightWord (coin : Coin) : UInt32 :=
  if Int32.ofNat coin.nHeight.toNat * 2 + (if coin.fCoinBase then 1 else 0) ≠ 0 then 1 else 0

/-- A coin of the genesis block that is no coinbase. -/
def Fresh (coin : Coin) : Prop := coin.nHeight = 0 ∧ coin.fCoinBase = false
deriving Decidable

theorem heightWord_eq (coin : Coin) : heightWord coin = if Fresh coin then 0 else 1 := by
  have zero : ∀ n < 2 ^ 32, Int32.ofNat n = 0 ↔ n = 0 := by
    intro n small
    rw [← Int32.toBitVec_inj, Int32.toBitVec_ofNat', ← BitVec.toNat_inj, BitVec.toNat_ofNat,
      Nat.mod_eq_of_lt small]
    rfl
  have double : Int32.ofNat coin.nHeight.toNat * 2 = Int32.ofNat (coin.nHeight.toNat * 2) := by
    rw [Int32.ofNat_mul]
    rfl
  have word : Int32.ofNat coin.nHeight.toNat * 2 + (if coin.fCoinBase then 1 else 0) = 0 ↔
      Fresh coin := by
    rw [Fresh, ← BitVec.toNat_inj, double]
    cases coin.fCoinBase with
    | false =>
      rw [if_neg Bool.false_ne_true, Int32.add_zero, zero _ (by omega)]
      simp
    | true =>
      rw [if_pos rfl, show (1 : Int32) = Int32.ofNat 1 from rfl, ← Int32.ofNat_add,
        zero _ (by omega)]
      simp
  simp only [heightWord, ne_eq, word, ite_not]

def writeOutput (n : UInt32) (out : CTxOut) : Bytes :=
  writeVarInt (n + 1).toNat ++ serializeBytes out.scriptPubKey ++ writeAmount out.nValue

def applyHash (ss : Bytes) (hash : Uint256) : Outputs → Bytes
  | [] => ss
  | (n, first) :: rest =>
    ss ++ hash.bytes ++ writeVarInt (heightWord first).toNat
      ++ ((n, first) :: rest).flatMap (fun output => writeOutput output.1 output.2.out)
      ++ writeVarInt 0

/-- The three functions that are overloaded for a kind of hash. -/
structure HashObject (T : Type) where
  prepareHash : T → CCoinsStats → T
  applyHash : T → Uint256 → Outputs → T
  finalizeHash : T → CCoinsStats → CCoinsStats

def hashWriter [Crypto] : HashObject Bytes where
  prepareHash ss stats := ss ++ stats.hashBlock.bytes
  applyHash
  finalizeHash ss stats := { stats with hashSerialized := hash256 ss }

section

variable {T : Type}

structure Walk (T : Type) where
  stats : CCoinsStats
  hashObj : T
  prevkey : Uint256
  outputs : Outputs

variable (obj : HashObject T)

def closeTx (w : Walk T) : Walk T :=
  if w.outputs.isEmpty then w
  else
    { w with
      stats := applyStats w.stats w.outputs
      hashObj := obj.applyHash w.hashObj w.prevkey w.outputs
      outputs := [] }

def visit (w : Walk T) (key : COutPoint) (coin : Coin) : Walk T :=
  let w := if key.hash ≠ w.prevkey then closeTx obj w else w
  { w with
    prevkey := key.hash
    outputs := setOutput key.n coin w.outputs
    stats := { w.stats with coinsCount := w.stats.coinsCount + 1 } }

def visitAll (obj : HashObject T) : Walk T → List (Option (COutPoint × Coin)) → Option (Walk T)
  | w, [] => some w
  | _, none :: _ => none
  | w, some (key, coin) :: rest => visitAll obj (visit obj w key coin) rest

def getUTXOStats (hashObj : T) (pindex : Chain)
    (cursor : List (Option (COutPoint × Coin))) : Option CCoinsStats := do
  let stats : CCoinsStats := { nHeight := pindex.nHeight, hashBlock := pindex.getBlockHash }
  let w ← visitAll obj ⟨stats, obj.prepareHash hashObj stats, .null, []⟩ cursor
  let w := closeTx obj w
  some (obj.finalizeHash w.hashObj w.stats)

end

theorem setOutput_perm (n : UInt32) (coin : Coin) {outputs : Outputs}
    (absent : n ∉ outputs.map Prod.fst) :
    (setOutput n coin outputs).Perm ((n, coin) :: outputs) := by
  induction outputs with
  | nil => exact .refl _
  | cons first rest ih =>
    simp only [map_cons, mem_cons, not_or] at absent
    rw [setOutput, if_neg absent.1]
    split
    · exact .refl _
    · exact ((ih absent.2).cons first).trans (.swap _ _ _)

abbrev Ascending (outputs : Outputs) : Prop := (outputs.map Prod.fst).Pairwise (· < ·)

theorem setOutput_ascending (n : UInt32) (coin : Coin) {outputs : Outputs}
    (ascending : Ascending outputs) :
    Ascending (setOutput n coin outputs) ∧
      ∀ m ∈ (setOutput n coin outputs).map Prod.fst, m = n ∨ m ∈ outputs.map Prod.fst := by
  induction outputs with
  | nil => exact ⟨pairwise_singleton _ _, by simp [setOutput]⟩
  | cons first rest ih =>
    obtain ⟨m, other⟩ := first
    obtain ⟨below, sorted⟩ := pairwise_cons.mp ascending
    obtain ⟨kept, origin⟩ := ih sorted
    unfold setOutput
    split_ifs with less same
    · refine ⟨pairwise_cons.mpr ⟨?_, pairwise_cons.mpr ⟨below, sorted⟩⟩, by simp⟩
      simp only [map_cons, mem_cons, forall_eq_or_imp]
      exact ⟨less, fun k mem => Std.lt_trans less (below k mem)⟩
    · exact ⟨pairwise_cons.mpr ⟨same ▸ below, sorted⟩, by simp +contextual⟩
    · refine ⟨pairwise_cons.mpr ⟨fun k mem => ?_, kept⟩, ?_⟩
      · obtain rfl | mem := origin k mem
        · exact Std.lt_of_le_of_ne (Std.not_lt.mp less) (Ne.symm same)
        · exact below k mem
      · simp only [map_cons, mem_cons]
        rintro k (rfl | mem)
        · exact .inr (.inl rfl)
        · exact (origin k mem).imp_right .inr

def setOutputs (read outputs : Outputs) : Outputs :=
  read.foldl (fun outputs output => setOutput output.1 output.2 outputs) outputs

theorem setOutputs_perm {read outputs : Outputs} (ascending : Ascending outputs)
    (distinct : ((read ++ outputs).map Prod.fst).Nodup) :
    (setOutputs read outputs).Perm (read ++ outputs) ∧ Ascending (setOutputs read outputs) := by
  induction read generalizing outputs with
  | nil => exact ⟨.refl _, ascending⟩
  | cons output read ih =>
    have moved : (read ++ setOutput output.1 output.2 outputs).Perm (output :: read ++ outputs) := by
      have absent : output.1 ∉ outputs.map Prod.fst := by
        intro member
        rw [cons_append, map_cons, nodup_cons, map_append, mem_append] at distinct
        exact distinct.1 (.inr member)
      exact ((setOutput_perm output.1 output.2 absent).append_left read).trans perm_middle
    obtain ⟨perm, sorted⟩ := ih (setOutput_ascending output.1 output.2 ascending).1
      ((moved.map Prod.fst).nodup_iff.mpr distinct)
    exact ⟨perm.trans moved, sorted⟩

/-- The order in which the outputs are read does not matter. -/
theorem setOutputs_eq {read outputs : Outputs} (ascending : Ascending outputs)
    (same : read.Perm outputs) : setOutputs read [] = outputs := by
  have distinct : ((read ++ []).map Prod.fst).Nodup := by
    rw [append_nil, (same.map Prod.fst).nodup_iff]
    exact ascending.imp Std.ne_of_lt
  obtain ⟨perm, sorted⟩ := setOutputs_perm .nil distinct
  rw [append_nil] at perm
  refine Perm.eq_of_pairwise ?_ (pairwise_map.mp sorted) (pairwise_map.mp ascending)
    (perm.trans same)
  exact fun a b _ _ less greater => absurd greater (Std.not_lt.mpr (Std.le_of_lt less))

structure WrittenTx where
  txid : Uint256
  word : UInt32
  outputs : List (UInt32 × CTxOut)

def WrittenTx.bytes (t : WrittenTx) : Bytes :=
  t.txid.bytes ++ (writeVarInt t.word.toNat ++
    (t.outputs.flatMap (fun output => writeOutput output.1 output.2) ++ writeVarInt 0))

def firstWord (outputs : Outputs) : UInt32 :=
  match outputs with
  | [] => 0
  | (_, first) :: _ => heightWord first

def written (g : Uint256 × Outputs) : WrittenTx :=
  ⟨g.1, firstWord g.2, g.2.map (Prod.map id Coin.out)⟩

theorem applyHash_eq (ss : Bytes) (g : Uint256 × Outputs) (nonempty : g.2 ≠ []) :
    applyHash ss g.1 g.2 = ss ++ (written g).bytes := by
  obtain ⟨txid, outputs⟩ := g
  cases outputs with
  | nil => exact absurd rfl nonempty
  | cons first rest => simp [applyHash, written, WrittenTx.bytes, firstWord, flatMap_map]

/-- An output that can be read back. An index of `2 ^ 32 - 1` is written as 0, which marks the end
of a transaction. -/
structure Legible (output : UInt32 × CTxOut) : Prop where
  index : output.1 ≠ COutPoint.nullIndex
  script : output.2.scriptPubKey.length < 2 ^ 64
  value : 0 ≤ output.2.nValue.toInt

theorem prefixFree_varInt : PrefixFree (· ≤ 2 ^ 64 - 1) writeVarInt :=
  (reads_varInt (2 ^ 64 - 1)).prefixFree

theorem prefixFree_uint32VarInt : PrefixFree (fun _ => True) fun n : UInt32 => writeVarInt n.toNat := by
  intro m n s t _ _ same
  have boundM := m.toNat_lt
  have boundN := n.toNat_lt
  obtain ⟨values, rest⟩ := prefixFree_varInt _ _ _ _ (by omega) (by omega) same
  exact ⟨UInt32.toNat_inj.mp values, rest⟩

theorem prefixFree_amount : PrefixFree (fun n : Int64 => 0 ≤ n.toInt) writeAmount := by
  intro m n s t nonnegM nonnegN same
  have plain : ∀ k : Int64, 0 ≤ k.toInt → writeAmount k = writeVarInt k.toUInt64.toNat := by
    intro k nonneg
    rw [writeAmount, if_neg]
    rw [Int64.lt_iff_toInt_lt]
    simpa using nonneg
  have boundM := m.toUInt64.toNat_lt
  have boundN := n.toUInt64.toNat_lt
  rw [plain m nonnegM, plain n nonnegN] at same
  obtain ⟨values, rest⟩ := prefixFree_varInt _ _ _ _ (by omega) (by omega) same
  refine ⟨?_, rest⟩
  rw [← m.toInt64_toUInt64, ← n.toInt64_toUInt64, UInt64.toNat_inj.mp values]

theorem prefixFree_output :
    PrefixFree Legible fun output : UInt32 × CTxOut => writeOutput output.1 output.2 := by
  intro a b s t legibleA legibleB same
  simp only [writeOutput, append_assoc] at same
  obtain ⟨index, same⟩ := prefixFree_uint32VarInt _ _ _ _ trivial trivial same
  obtain ⟨script, same⟩ := prefixFree_bytes _ _ _ _ legibleA.script legibleB.script same
  obtain ⟨value, rest⟩ := prefixFree_amount _ _ _ _ legibleA.value legibleB.value same
  obtain ⟨n, out⟩ := a
  obtain ⟨m, out'⟩ := b
  cases out
  cases out'
  simp only [UInt32.add_left_inj] at index script value
  subst index script value
  exact ⟨rfl, rest⟩

theorem writeOutput_ne_end (output : UInt32 × CTxOut) (s t : Bytes) (legible : Legible output) :
    writeOutput output.1 output.2 ++ s ≠ writeVarInt 0 ++ t := by
  intro same
  simp only [writeOutput, append_assoc] at same
  obtain ⟨index, _⟩ := prefixFree_uint32VarInt (output.1 + 1) 0 _ _ trivial trivial same
  have wraps : output.1 + 1 = COutPoint.nullIndex + 1 := index
  exact legible.index ((UInt32.add_left_inj 1).mp wraps)

theorem prefixFree_writtenTx :
    PrefixFree (fun t : WrittenTx => ∀ output ∈ t.outputs, Legible output) WrittenTx.bytes := by
  intro a b s t legibleA legibleB same
  simp only [WrittenTx.bytes, append_assoc] at same
  obtain ⟨txid, same⟩ := append_inj same (by rw [a.txid.size, b.txid.size])
  obtain ⟨word, same⟩ := prefixFree_uint32VarInt _ _ _ _ trivial trivial same
  obtain ⟨outputs, rest⟩ := (prefixFree_output.terminated writeOutput_ne_end) a.outputs b.outputs
    s t legibleA legibleB (by simpa only [append_assoc] using same)
  obtain ⟨txidA, wordA, outputsA⟩ := a
  obtain ⟨txidB, wordB, outputsB⟩ := b
  simp only at txid word outputs
  rw [Uint256.bytes_injective txid, word, outputs]
  exact ⟨rfl, rest⟩

def coinKey (o : COutPoint) : Bytes := 0x43 :: o.hash.bytes ++ writeVarInt o.n.toNat

/-- A set of unspent coins, by transaction and index. The index `2 ^ 32 - 1` is that of the null
outpoint: no transaction has so many outputs. -/
structure CoinSet where
  txs : List (Uint256 × Outputs)
  ordered : txs.Pairwise fun a b => a.1.bytes < b.1.bytes
  unspent : ∀ tx ∈ txs, tx.2 ≠ []
  ascending : ∀ tx ∈ txs, Ascending tx.2
  indexed : ∀ tx ∈ txs, ∀ output ∈ tx.2, output.1 ≠ COutPoint.nullIndex
  ranged : ∀ tx ∈ txs, ∀ output ∈ tx.2, MoneyRange output.2.out.nValue
  sized : ∀ tx ∈ txs, ∀ output ∈ tx.2, output.2.out.scriptPubKey.length < 2 ^ 32

/-- The outputs of a transaction in the order of their keys. -/
def readOutputs (tx : Uint256 × Outputs) : Outputs :=
  tx.2.mergeSort fun a b => coinKey ⟨tx.1, a.1⟩ ≤ coinKey ⟨tx.1, b.1⟩

def entriesOf (tx : Uint256 × Outputs) : List (COutPoint × Coin) :=
  (readOutputs tx).map fun output => (⟨tx.1, output.1⟩, output.2)

section

variable [Crypto] (w : Walk Bytes)

abbrev visitEntry (w : Walk Bytes) (entry : COutPoint × Coin) : Walk Bytes :=
  visit hashWriter w entry.1 entry.2

theorem visitAll_eq (entries : List (COutPoint × Coin)) :
    visitAll hashWriter w (entries.map some) = some (entries.foldl visitEntry w) := by
  induction entries generalizing w with
  | nil => rfl
  | cons entry entries ih => exact ih _

theorem visit_sameTx (read : Outputs) (txid : Uint256) (same : w.prevkey = txid) :
    let last := (read.map fun output => ((⟨txid, output.1⟩ : COutPoint), output.2)).foldl
      visitEntry w
    last.hashObj = w.hashObj ∧ last.prevkey = txid ∧
      last.outputs = setOutputs read w.outputs := by
  induction read generalizing w with
  | nil => exact ⟨rfl, same, rfl⟩
  | cons output read ih =>
    have next := ih (visitEntry w (⟨txid, output.1⟩, output.2)) rfl
    simpa [visitEntry, visit, setOutputs, same] using next

/-- The bytes hashed once the current transaction is closed. -/
def Walk.closed : Bytes := (closeTx hashWriter w).hashObj

theorem visit_tx {tx : Uint256 × Outputs} (unspent : tx.2 ≠ []) (ascending : Ascending tx.2)
    (other : w.outputs.isEmpty = true ∨ tx.1 ≠ w.prevkey) :
    let last := (entriesOf tx).foldl visitEntry w
    last.closed = w.closed ++ (written tx).bytes ∧ last.prevkey = tx.1 := by
  have perm : (readOutputs tx).Perm tx.2 := mergeSort_perm _ _
  have sorted := setOutputs_eq ascending perm
  unfold entriesOf
  cases read : readOutputs tx with
  | nil =>
    rw [read] at perm
    exact absurd (nil_perm.mp perm) unspent
  | cons output rest =>
    rw [read] at sorted
    obtain ⟨hashed, key, outputs⟩ :=
      visit_sameTx (visitEntry w (⟨tx.1, output.1⟩, output.2)) rest tx.1 rfl
    have opened : (visitEntry w (⟨tx.1, output.1⟩, output.2)).hashObj = w.closed ∧
        (visitEntry w (⟨tx.1, output.1⟩, output.2)).outputs = setOutput output.1 output.2 [] := by
      cases empty : w.outputs.isEmpty with
      | true => simp [Walk.closed, visitEntry, visit, closeTx, isEmpty_iff.mp empty]
      | false =>
        have apart := other.resolve_left (by simp [empty])
        simp [Walk.closed, visitEntry, visit, closeTx, empty, apart]
    rw [opened.1] at hashed
    rw [opened.2, show setOutputs rest _ = tx.2 from sorted] at outputs
    refine ⟨?_, key⟩
    rw [map_cons, foldl_cons, Walk.closed, closeTx, if_neg (by simpa [outputs] using unspent)]
    rw [hashed, key, outputs]
    exact applyHash_eq _ tx unspent

theorem visit_txs {txs : List (Uint256 × Outputs)} (unspent : ∀ tx ∈ txs, tx.2 ≠ [])
    (ascending : ∀ tx ∈ txs, Ascending tx.2) (distinct : txs.Pairwise fun a b => a.1 ≠ b.1)
    (other : w.outputs.isEmpty = true ∨ ∀ tx ∈ txs, tx.1 ≠ w.prevkey) :
    ((txs.flatMap entriesOf).foldl visitEntry w).closed =
      w.closed ++ (txs.map written).flatMap WrittenTx.bytes := by
  induction txs generalizing w with
  | nil => simp
  | cons tx txs ih =>
    obtain ⟨apart, distinct⟩ := pairwise_cons.mp distinct
    obtain ⟨closed, key⟩ := visit_tx w (unspent tx mem_cons_self) (ascending tx mem_cons_self)
      (other.imp_right fun others => others tx mem_cons_self)
    rw [flatMap_cons, foldl_append, ih _ (fun tx' member => unspent tx' (mem_cons_of_mem tx member))
      (fun tx' member => ascending tx' (mem_cons_of_mem tx member)) distinct, closed]
    · simp
    · exact .inr fun tx' member => key ▸ (apart tx' member).symm

end

namespace CoinSet

variable (A : CoinSet)

def outputs : List (Uint256 × List (UInt32 × CTxOut)) :=
  A.txs.map fun tx => (tx.1, tx.2.map (Prod.map id Coin.out))

def cursor : List (COutPoint × Coin) := A.txs.flatMap entriesOf

def bytes : Bytes := (A.txs.map written).flatMap WrittenTx.bytes

def hashSerialized [Crypto] (A : CoinSet) (pindex : Chain) : Option Uint256 :=
  (getUTXOStats hashWriter [] pindex (A.cursor.map some)).map CCoinsStats.hashSerialized

theorem distinct : (A.txs.map Prod.fst).Nodup := by
  rw [Nodup, pairwise_map]
  exact A.ordered.imp fun less same => Std.ne_of_lt less (congrArg Uint256.bytes same)

theorem hashSerialized_eq [Crypto] (pindex : Chain) :
    A.hashSerialized pindex = some (hash256 (pindex.getBlockHash.bytes ++ A.bytes)) := by
  let stats : CCoinsStats := { nHeight := pindex.nHeight, hashBlock := pindex.getBlockHash }
  have hashed := visit_txs ⟨stats, hashWriter.prepareHash [] stats, .null, []⟩ A.unspent
    A.ascending (pairwise_map.mp A.distinct) (.inl rfl)
  simp only [hashSerialized, getUTXOStats, visitAll_eq]
  show some (hash256 (Walk.closed _)) = _
  rw [cursor, hashed]
  rfl

theorem legible : ∀ t ∈ A.txs.map written, ∀ output ∈ t.outputs, Legible output := by
  intro t member output inside
  obtain ⟨tx, inTxs, rfl⟩ := mem_map.mp member
  obtain ⟨⟨n, coin⟩, inTx, rfl⟩ := mem_map.mp inside
  have small : coin.out.scriptPubKey.length < 2 ^ 32 := A.sized tx inTxs _ inTx
  exact {
    index := A.indexed tx inTxs _ inTx
    script := by
      show coin.out.scriptPubKey.length < 2 ^ 64
      omega
    value := ((moneyRange_iff _).mp (A.ranged tx inTxs _ inTx)).1 }

/-- The two sets have the same outputs, and in each transaction the first that is unspent is at
height 0 and no coinbase in both or in neither. -/
structure Alike (A B : CoinSet) : Prop where
  outputs : A.outputs = B.outputs
  lowest : ∀ txid a restA b restB, (txid, a :: restA) ∈ A.txs → (txid, b :: restB) ∈ B.txs →
    (Fresh a.2 ↔ Fresh b.2)

theorem map_eq_of_map_eq {α β γ : Type} {p : α → β} {q : α → γ} {gs hs : List α}
    (same : gs.map p = hs.map p) (told : ∀ g ∈ gs, ∀ h ∈ hs, p g = p h → q g = q h) :
    gs.map q = hs.map q := by
  induction gs generalizing hs with
  | nil =>
    obtain rfl := map_eq_nil_iff.mp same.symm
    rfl
  | cons g gs ih =>
    obtain ⟨h, hs, rfl, first, rest⟩ := map_eq_cons_iff.mp same.symm
    rw [map_cons, map_cons, told g mem_cons_self h mem_cons_self first.symm,
      ih rest.symm fun g inA h inB => told g (mem_cons_of_mem _ inA) h (mem_cons_of_mem _ inB)]

theorem written_eq_iff (A B : CoinSet) :
    A.txs.map written = B.txs.map written ↔ Alike A B := by
  constructor
  · intro same
    constructor
    · have outputs := congrArg (map fun t : WrittenTx => (t.txid, t.outputs)) same
      rw [map_map, map_map] at outputs
      exact outputs
    · intro txid a restA b restB inA inB
      obtain ⟨tx, inTxs, equal⟩ := mem_map.mp (same ▸ mem_map_of_mem inA)
      obtain rfl := inj_on_of_nodup_map B.distinct inTxs inB (congrArg WrittenTx.txid equal)
      have word : heightWord b.2 = heightWord a.2 := congrArg WrittenTx.word equal
      rw [heightWord_eq, heightWord_eq] at word
      split_ifs at word with freshB freshA freshA <;> simp_all
  · rintro ⟨outputs, lowest⟩
    refine map_eq_of_map_eq outputs ?_
    rintro ⟨txid, outputsA⟩ inA ⟨txidB, outputsB⟩ inB same
    obtain ⟨rfl, outs⟩ := Prod.mk.inj same
    have word : firstWord outputsA = firstWord outputsB := by
      cases outputsA with
      | nil => exact absurd rfl (A.unspent _ inA)
      | cons a restA =>
        cases outputsB with
        | nil => exact absurd rfl (B.unspent _ inB)
        | cons b restB =>
          simp only [firstWord, heightWord_eq, lowest txid a restA b restB inA inB]
    simp only [written, word]
    exact congrArg _ outs

theorem bytes_eq_iff (A B : CoinSet) : A.bytes = B.bytes ↔ Alike A B := by
  rw [← written_eq_iff, bytes, bytes]
  constructor
  · apply prefixFree_writtenTx.flatMap_injective _ A.legible B.legible
    intro t none
    have short := congrArg length none
    simp [WrittenTx.bytes, t.txid.size] at short
  · intro same
    rw [same]

/-- The hash tells two sets apart exactly if they are not alike. -/
theorem hashSerialized_commits_iff [Crypto] (A B : CoinSet) (pindex : Chain)
    (collisionFree : Set.InjOn hash256
      {pindex.getBlockHash.bytes ++ A.bytes, pindex.getBlockHash.bytes ++ B.bytes}) :
    (A.hashSerialized pindex = B.hashSerialized pindex → A = B) ↔ (Alike A B → A = B) := by
  rw [hashSerialized_eq, hashSerialized_eq, Option.some.injEq, ← bytes_eq_iff]
  constructor
  · intro commits same
    exact commits (by rw [same])
  · intro told hashes
    exact told (append_cancel_left (collisionFree (by simp) (by simp) hashes))

def lone (coin : Coin) (ranged : MoneyRange coin.out.nValue)
    (sized : coin.out.scriptPubKey.length < 2 ^ 32) : CoinSet where
  txs := [(.null, [(0, coin)])]
  ordered := pairwise_singleton _ _
  unspent := by simp
  ascending := by simp [Ascending]
  indexed := by simp [COutPoint.nullIndex]
  ranged := by simpa using ranged
  sized := by simpa using sized

def paid (nValue : Int64) (nHeight : BitVec 31) : Coin := ⟨⟨nValue, [0x51]⟩, false, nHeight⟩

def soloChain : Chain := [⟨.uint256S 7, 1, 0, 0x207fffff⟩]

/-- Whatever the hash function is. -/
theorem heights_share_hash :
    let A := lone (paid 50 1) (by decide) (by decide)
    let B := lone (paid 50 2) (by decide) (by decide)
    A ≠ B ∧ A.bytes = B.bytes ∧
      ∀ [Crypto], A.hashSerialized soloChain = B.hashSerialized soloChain := by
  intro A B
  have sameBytes : A.bytes = B.bytes := by decide +kernel
  refine ⟨fun same => ?_, sameBytes, fun {_} => ?_⟩
  · have heights := congrArg (fun A : CoinSet => A.txs.map fun tx => tx.2.map (·.2.nHeight)) same
    revert heights
    decide
  · rw [hashSerialized_eq, hashSerialized_eq, sameBytes]

@[reducible] def lastBytes : Crypto :=
  { Crypto.blank with
    sha256 := fun data => ⟨(data.reverse ++ replicate 32 0).take 32, by simp⟩ }

theorem values_do_not_share_hash :
    let _ := lastBytes
    (lone (paid 50 1) (by decide) (by decide)).hashSerialized soloChain ≠
      (lone (paid 60 1) (by decide) (by decide)).hashSerialized soloChain := by
  intro crypto same
  have differ : (lone (paid 50 1) (by decide) (by decide)).outputs ≠
      (lone (paid 60 1) (by decide) (by decide)).outputs := by decide
  have hashes : hash256 (soloChain.getBlockHash.bytes ++
        (lone (paid 50 1) (by decide) (by decide)).bytes) ≠
      hash256 (soloChain.getBlockHash.bytes ++
        (lone (paid 60 1) (by decide) (by decide)).bytes) := by decide +kernel
  have collisionFree : Set.InjOn hash256
      {soloChain.getBlockHash.bytes ++ (lone (paid 50 1) (by decide) (by decide)).bytes,
        soloChain.getBlockHash.bytes ++ (lone (paid 60 1) (by decide) (by decide)).bytes} := by
    intro x first y second equal
    rcases first with rfl | rfl <;> rcases second with rfl | rfl
    · rfl
    · exact absurd equal hashes
    · exact absurd equal.symm hashes
    · rfl
  have equal := (hashSerialized_commits_iff _ _ soloChain collisionFree).mpr
    (fun alike => absurd alike.outputs differ) same
  exact differ (congrArg outputs equal)

end CoinSet

end Qogecoin.Node
