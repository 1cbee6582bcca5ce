import Qogecoin.Coins.Program

/-! `CCoinsViewDB`: the coins on disk. A flush is written in batches, each of which is written as a
whole or not at all, and the first one records which way the flush is going. -/
namespace Qogecoin.Coins

open List Function

structure CCoinsViewDB where
  coins : FlatMap
  unspent : ∀ o coin, coins o = some coin → coin.isSpent = false
  /-- `DB_BEST_BLOCK`. -/
  bestBlock : Option Uint256
  /-- `DB_HEAD_BLOCKS`; a missing record is read as an empty vector. -/
  headBlocks : List Uint256

/-- One entry of a batch: a dirty cache entry, or one of the two records, written or erased. -/
inductive DBWrite where
  | coin (o : COutPoint) (entry : CCoinsCacheEntry)
  | bestBlock (hashBlock : Option Uint256)
  | headBlocks (hashBlocks : List Uint256)

abbrev CDBBatch := List DBWrite

namespace CCoinsViewDB

variable (db : CCoinsViewDB)

def getBestBlock : Uint256 := db.bestBlock.getD .null

def base : BaseView := ⟨db.coins, db.unspent, db.getBestBlock⟩

def write : DBWrite → CCoinsViewDB
  | .coin o entry =>
    { db with
      coins := update db.coins o entry.unspent
      unspent := by
        intro p coin found
        by_cases same : p = o
        · subst same
          rw [update_self, unspent_eq_some] at found
          exact found.2 ▸ found.1
        · rw [update_of_ne same] at found
          exact db.unspent p coin found }
  | .bestBlock hashBlock => { db with bestBlock := hashBlock }
  | .headBlocks hashBlocks => { db with headBlocks := hashBlocks }

def writeAll (writes : CDBBatch) : CCoinsViewDB := writes.foldl write db

def entryWrites (e : Sigma fun _ : COutPoint => CCoinsCacheEntry) : CDBBatch :=
  if e.2.dirty then [.coin e.1 e.2] else []

/-- The loop of `BatchWrite`: batches that got full, and the one that is left. Which batches are
full depends on their size. -/
def batchLoop (full : CDBBatch → Bool) : CDBBatch → Entries → List CDBBatch × CDBBatch
  | batch, [] => ([], batch)
  | batch, e :: rest =>
    let batch := batch ++ entryWrites e
    if full batch then
      let (written, last) := batchLoop full [] rest
      (batch :: written, last)
    else batchLoop full batch rest

def oldTip (hashBlock : Uint256) : Except Crash Uint256 :=
  if db.getBestBlock.isNull then
    match db.headBlocks with
    | [newHead, oldHead] => if newHead = hashBlock then .ok oldHead else .error .assertion
    | _ => .ok db.getBestBlock
  else .ok db.getBestBlock

def batchWrite (full : CDBBatch → Bool) (entries : Entries)
    (hashBlock : Uint256) : Except Crash (List CDBBatch) :=
  if hashBlock.isNull then .error .assertion
  else do
    let oldTip ← db.oldTip hashBlock
    let (written, last) :=
      batchLoop full [.bestBlock none, .headBlocks [hashBlock, oldTip]] entries
    .ok (written ++ [last ++ [.headBlocks [], .bestBlock (some hashBlock)]])

def coinWrites (entries : Entries) : CDBBatch := entries.flatMap entryWrites

theorem coinWrites_cons (e : Sigma fun _ : COutPoint => CCoinsCacheEntry) (entries : Entries) :
    coinWrites (e :: entries) = entryWrites e ++ coinWrites entries := rfl

/-- All batches together hold all writes in order, and any number of full ones a first part of
them. -/
theorem batchLoop_spec (full : CDBBatch → Bool) (batch : CDBBatch) (entries : Entries) :
    (batchLoop full batch entries).1.flatten ++ (batchLoop full batch entries).2 =
        batch ++ coinWrites entries ∧
      ∀ k, 0 < k → k ≤ (batchLoop full batch entries).1.length → ∃ first rest,
        entries = first ++ rest ∧
        ((batchLoop full batch entries).1.take k).flatten = batch ++ coinWrites first := by
  induction entries generalizing batch with
  | nil =>
    constructor
    · simp [batchLoop, coinWrites]
    · intro k positive small
      simp only [batchLoop, length_nil] at small
      omega
  | cons e entries ih =>
    cases isFull : full (batch ++ entryWrites e) with
    | true =>
      obtain ⟨all, parts⟩ := ih []
      simp only [batchLoop, isFull, if_true]
      constructor
      · rw [flatten_cons, append_assoc, all, coinWrites_cons, nil_append,
          append_assoc]
      · intro k positive small
        obtain ⟨k, rfl⟩ := Nat.exists_eq_add_of_lt positive
        simp only [Nat.zero_add] at small ⊢
        rw [take_succ_cons, flatten_cons]
        rcases Nat.eq_zero_or_pos k with none | more
        · refine ⟨[e], entries, rfl, ?_⟩
          simp [none, coinWrites]
        · obtain ⟨first, rest, split, flat⟩ := parts k more (by simpa using small)
          refine ⟨e :: first, rest, by rw [split, cons_append], ?_⟩
          rw [flat, coinWrites_cons, nil_append, append_assoc]
    | false =>
      obtain ⟨all, parts⟩ := ih (batch ++ entryWrites e)
      simp only [batchLoop, isFull, Bool.false_eq_true, if_false]
      constructor
      · rw [all, coinWrites_cons, append_assoc]
      · intro k positive small
        obtain ⟨first, rest, split, flat⟩ := parts k positive small
        refine ⟨e :: first, rest, by rw [split, cons_append], ?_⟩
        rw [flat, coinWrites_cons, append_assoc]

variable (db : CCoinsViewDB)

theorem writeAll_append (us vs : CDBBatch) :
    db.writeAll (us ++ vs) = (db.writeAll us).writeAll vs := foldl_append

theorem writeAll_entryWrites {o : COutPoint} {entry : CCoinsCacheEntry}
    (child : Sound (db.coins o) entry) :
    (db.writeAll (entryWrites ⟨o, entry⟩)).bestBlock = db.bestBlock ∧
      (db.writeAll (entryWrites ⟨o, entry⟩)).headBlocks = db.headBlocks ∧
      (db.writeAll (entryWrites ⟨o, entry⟩)).coins =
        update db.coins o entry.unspent := by
  cases dirty : entry.dirty with
  | true =>
    have one : entryWrites ⟨o, entry⟩ = [.coin o entry] := if_pos dirty
    rw [one]
    exact ⟨rfl, rfl, rfl⟩
  | false =>
    have nothing : entryWrites ⟨o, entry⟩ = [] := if_neg (by simp [dirty])
    rw [nothing, child.clean dirty, update_eq_self]
    exact ⟨rfl, rfl, rfl⟩

theorem writeAll_coinWrites {entries : Entries} (nodup : entries.NodupKeys)
    (children : ∀ o entry, ⟨o, entry⟩ ∈ entries → Sound (db.coins o) entry) :
    (db.writeAll (coinWrites entries)).bestBlock = db.bestBlock ∧
      (db.writeAll (coinWrites entries)).headBlocks = db.headBlocks ∧
      (db.writeAll (coinWrites entries)).coins = merged db.coins entries := by
  induction entries generalizing db with
  | nil => exact ⟨rfl, rfl, rfl⟩
  | cons head rest ih =>
    obtain ⟨o, entry⟩ := head
    rw [nodupKeys_cons] at nodup
    rw [coinWrites_cons, writeAll_append]
    obtain ⟨best, heads, here⟩ := writeAll_entryWrites db (children o entry mem_cons_self)
    obtain ⟨bestRest, headsRest, coins⟩ := ih (db.writeAll (entryWrites ⟨o, entry⟩)) nodup.2 (by
      intro p e member
      rw [here, update_of_ne (ne_of_mem_tail nodup.1 member)]
      exact children p e (mem_cons_of_mem _ member))
    refine ⟨bestRest.trans best, headsRest.trans heads, ?_⟩
    rw [coins, here, merged_cons nodup.1]

/-- The database was left in the middle of a flush from the coins `old` at one tip to the coins
`new` at another. -/
structure Interrupted (db : CCoinsViewDB) (newTip oldTip : Uint256) (old new : FlatMap) : Prop where
  bestBlock : db.bestBlock = none
  headBlocks : db.headBlocks = [newTip, oldTip]
  coins : ∀ o, db.coins o = old o ∨ db.coins o = new o

structure AtTip (db : CCoinsViewDB) (tip : Uint256) (coins : FlatMap) : Prop where
  bestBlock : db.bestBlock = some tip
  headBlocks : db.headBlocks = []
  coins : db.coins = coins

/-- Flushing a cache that stands on the database: all batches bring it to what the cache shows, and
some of them leave it in between. -/
theorem batchWrite_spec {db : CCoinsViewDB} {view : View} (sound : view.Sound)
    (alone : view.below = []) (standing : view.base = db.base) (full : CDBBatch → Bool)
    {entries : Entries} (walk : entries.Perm view.top.cacheCoins.entries)
    {hashBlock oldTip : Uint256} (real : hashBlock.isNull = false)
    (tip : db.oldTip hashBlock = .ok oldTip) :
    ∃ batches, db.batchWrite full entries hashBlock = .ok batches ∧
      (db.writeAll batches.flatten).AtTip hashBlock view.shown ∧
      ∀ k, 0 < k → k < batches.length →
        (db.writeAll (batches.take k).flatten).Interrupted hashBlock oldTip db.coins
          view.shown := by
  obtain ⟨top, below, base⟩ := view
  subst alone
  subst standing
  have nodup : entries.NodupKeys := (perm_nodupKeys walk).mpr top.cacheCoins.nodupKeys
  have stored : ∀ o entry, ⟨o, entry⟩ ∈ entries → top.cacheCoins.lookup o = some entry :=
    fun o entry member => AList.mem_lookup_iff.mpr (walk.mem_iff.mp member)
  have children := fun o entry member => sound.1 o entry (stored o entry member)
  obtain ⟨all, parts⟩ :=
    batchLoop_spec full [.bestBlock none, .headBlocks [hashBlock, oldTip]] entries
  refine ⟨_, by rw [batchWrite, if_neg (by simp [real]), tip]; rfl, ?_, ?_⟩
  · obtain ⟨_, _, written⟩ := writeAll_coinWrites
      (db.writeAll [.bestBlock none, .headBlocks [hashBlock, oldTip]]) nodup children
    rw [flatten_append, flatten_singleton, ← append_assoc, all, writeAll_append,
      writeAll_append]
    exact ⟨rfl, rfl, written.trans (merged_eq_cell _ top.cacheCoins entries walk nodup)⟩
  · intro k positive small
    rw [length_append, length_singleton] at small
    obtain ⟨first, rest, split, flat⟩ := parts k positive (by omega)
    rw [take_append_of_le_length (by omega), flat, writeAll_append]
    have part : first <+ entries := split ▸ sublist_append_left first rest
    obtain ⟨best, heads, coins⟩ := writeAll_coinWrites
      (db.writeAll [.bestBlock none, .headBlocks [hashBlock, oldTip]]) (nodup.sublist part)
      fun o entry member => children o entry (part.subset member)
    refine ⟨best, heads, fun o => ?_⟩
    rw [coins, merged]
    split
    next entry found =>
      have shown := stored o entry (part.subset (of_mem_dlookup found))
      exact .inr (by simp only [View.shown, View.layers, viewAt, shown, cell])
    · exact .inl rfl

end CCoinsViewDB

end Qogecoin.Coins
