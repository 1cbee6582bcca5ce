import Qogecoin.Wallet.Marking

/-! Runs of a wallet that follows the active chain. -/
namespace Qogecoin.Wallet

open Coins List CWallet

inductive Notification where
  | blockConnected (block : CBlock)
  | blockDisconnected
  | transactionAddedToMempool (tx : CTransaction)
  | transactionRemovedFromMempool (tx : CTransaction) (reason : MemPoolRemovalReason)
  | commitTransaction (tx : CTransaction)

structure Event where
  around : Surroundings
  notification : Notification

structure World where
  chain : List CBlock
  wallet : CWallet
deriving DecidableEq

def confirmedIn (chain : List CBlock) : List CTransaction := chain.flatMap CBlock.vtx

def World.start (chain : List CBlock) : World := ⟨chain, [], [], chain.length - 1⟩

section Runs

theorem confirmedIn_append (chain : List CBlock) (block : CBlock) :
    confirmedIn (chain ++ [block]) = confirmedIn chain ++ block.vtx := by
  simp [confirmedIn]

variable [Crypto] (world : World)

def World.step (event : Event) : Except Crash World :=
  match event.notification with
  | .blockConnected block => do
    let wallet ← world.wallet.blockConnected event.around block world.chain.length
    .ok ⟨world.chain ++ [block], wallet⟩
  | .blockDisconnected =>
    match world.chain.getLast? with
    | none => .ok world
    | some block => do
      let wallet ← world.wallet.blockDisconnected event.around block (world.chain.length - 1)
      .ok ⟨world.chain.dropLast, wallet⟩
  | .transactionAddedToMempool tx => do
    let wallet ← world.wallet.transactionAddedToMempool event.around tx
    .ok { world with wallet }
  | .transactionRemovedFromMempool tx reason => do
    let wallet ← world.wallet.transactionRemovedFromMempool event.around tx reason
    .ok { world with wallet }
  | .commitTransaction tx => do
    let wallet ← world.wallet.commitTransaction tx
    .ok { world with wallet }

def World.run (events : List Event) : Except Crash World :=
  events.foldlM World.step world

def World.Contested (world : World) (tx : CTransaction) : Prop :=
  Wallet.Contested world.wallet.transaction (confirmedIn world.chain) tx

/-- The notifications a valid active chain and a mempool that is consistent with it give. -/
def World.Allows (known : CTransaction → Prop) (world : World) : Notification → Prop
  | .blockConnected block =>
    (∀ tx ∈ block.vtx, known tx) ∧ ValidChain (confirmedIn (world.chain ++ [block]))
  | .blockDisconnected => world.chain ≠ [] ∧ ValidChain (confirmedIn world.chain.dropLast)
  | .transactionAddedToMempool tx => known tx ∧ ¬ world.Contested tx
  | .transactionRemovedFromMempool tx _ => known tx ∧ ¬ world.Contested tx
  | .commitTransaction tx => known tx

/-- No block is disconnected that spends what a different wallet transaction spends, and nothing is
added to the wallet that conflicts with the chain already. -/
def World.Undisturbed : Notification → Prop
  | .blockDisconnected => ∀ block ∈ world.chain.getLast?, ∀ tx ∈ block.vtx,
    ∀ id stored, world.wallet.transaction id = some stored → tx.getHash ≠ id →
      ∀ outpoint ∈ spends stored, outpoint ∉ spends tx
  | .commitTransaction tx => ¬ world.Contested tx
  | _ => True

def World.Always (condition : World → Notification → Prop) : World → List Event → Prop
  | _, [] => True
  | world, event :: events => condition world event.notification ∧
    ∀ world', world.step event = .ok world' → World.Always condition world' events

/-- Negative depth means a conflict with the active chain. -/
def World.ConflictsFollowChain : Prop :=
  ∀ id wtx, world.wallet.find id = some wtx →
    (world.wallet.getTxDepthInMainChain wtx < 0 ↔
      IsConflicted world.wallet.transaction (confirmedIn world.chain) id)

variable {known : CTransaction → Prop} {wallet : CWallet} {blocks : List CBlock}
  {tx : CTransaction} {vtx part : List CTransaction}

section

variable (blocks : List CBlock)

def below (n : Nat) : List CTransaction := confirmedIn (blocks.take n)

def PlacedIn (part : List CTransaction) (id : Uint256) (height : Int) : Prop :=
  (∃ n : Nat, height = n ∧ ∃ block, blocks[n]? = some block ∧ ∃ tx ∈ block.vtx, tx.getHash = id) ∨
    height = blocks.length ∧ ∃ tx ∈ part, tx.getHash = id

omit [Crypto] in
theorem below_subset (n : Nat) : ∀ tx ∈ below blocks n, tx ∈ confirmedIn blocks := by
  intro tx inside
  obtain ⟨block, old, own⟩ := mem_flatMap.mp inside
  exact mem_flatMap.mpr ⟨block, mem_of_mem_take old, own⟩

end

variable {height : Int} {id : Uint256}

theorem PlacedIn.height_le (placed : PlacedIn blocks part id height) :
    height ≤ blocks.length := by
  rcases placed with ⟨n, rfl, block, at_n, _⟩ | ⟨rfl, _⟩
  · have bound := (List.getElem?_eq_some_iff.mp at_n).1
    omega
  · exact le_refl _

theorem PlacedIn.height_lt (placed : PlacedIn blocks [] id height) :
    height ≤ (blocks.length : Int) - 1 := by
  rcases placed with ⟨n, rfl, block, at_n, _⟩ | ⟨_, tx, none, _⟩
  · have bound := (List.getElem?_eq_some_iff.mp at_n).1
    omega
  · exact absurd none not_mem_nil

theorem PlacedIn.confirmed (placed : PlacedIn blocks part id height) :
    ∃ tx ∈ confirmedIn blocks ++ part, tx.getHash = id := by
  rcases placed with ⟨n, _, block, at_n, tx, inside, own⟩ | ⟨_, tx, inside, own⟩
  · have mined := mem_flatMap.mpr ⟨block, mem_of_getElem? at_n, inside⟩
    exact ⟨tx, mem_append_left _ mined, own⟩
  · exact ⟨tx, mem_append_right _ inside, own⟩

theorem placedIn_append (block : CBlock) (id : Uint256) (height : Int) :
    PlacedIn (blocks ++ [block]) [] id height ↔ PlacedIn blocks block.vtx id height := by
  constructor
  · rintro (⟨n, rfl, other, at_n, own⟩ | ⟨_, tx, none, _⟩)
    · by_cases old : n < blocks.length
      · rw [List.getElem?_append_left old] at at_n
        exact .inl ⟨n, rfl, other, at_n, own⟩
      · have bound := (List.getElem?_eq_some_iff.mp at_n).1
        rw [length_append, length_singleton] at bound
        have last : n = blocks.length := by omega
        rw [last, List.getElem?_concat_length, Option.some.injEq] at at_n
        subst at_n
        exact .inr ⟨congrArg Nat.cast last, own⟩
    · exact absurd none not_mem_nil
  · rintro (⟨n, rfl, other, at_n, own⟩ | ⟨rfl, own⟩)
    · have old := (List.getElem?_eq_some_iff.mp at_n).1
      exact .inl ⟨n, rfl, other, (List.getElem?_append_left old).trans at_n, own⟩
    · exact .inl ⟨blocks.length, rfl, block, List.getElem?_concat_length, own⟩

def Syncing (known : CTransaction → Prop) (blocks : List CBlock) (chain part : List CTransaction)
    (wallet : CWallet) : Prop :=
  Tracks known (below blocks) (IsConflicted wallet.transaction chain) (PlacedIn blocks part) wallet

theorem Syncing.clear {chain whole : List CTransaction} (proper : Proper known)
    (syncing : Syncing known blocks chain part wallet) (valid : ValidChain whole)
    (all_known : ∀ tx ∈ whole, known tx) (inside : tx ∈ whole)
    {shorter : List CTransaction} (sub : ∀ tx ∈ shorter, tx ∈ whole) :
    ¬ Contested wallet.transaction shorter tx := fun contested =>
  not_contested_of_confirmed proper valid all_known syncing.owned inside (contested.mono sub)

variable (around : Surroundings)

theorem connectTransaction_syncs (hashBlock : Uint256) (index : Nat)
    (proper : Proper known) (valid : ValidChain (confirmedIn blocks ++ part ++ tx :: vtx))
    (all_known : ∀ other ∈ confirmedIn blocks ++ part ++ tx :: vtx, known other)
    (syncing : Syncing known blocks (confirmedIn blocks ++ part) part wallet)
    (top : wallet.lastBlockProcessedHeight = blocks.length) :
    ∃ wallet', wallet.syncTransaction around tx (.confirmed hashBlock blocks.length index) =
        .ok wallet' ∧
      Syncing known blocks (confirmedIn blocks ++ (part ++ [tx])) (part ++ [tx]) wallet' ∧
      wallet'.lastBlockProcessedHeight = blocks.length := by
  have here : tx ∈ confirmedIn blocks ++ part ++ tx :: vtx :=
    mem_append_right _ mem_cons_self
  have sub : ∀ other ∈ confirmedIn blocks ++ part ++ [tx],
      other ∈ confirmedIn blocks ++ part ++ tx :: vtx := by
    intro other inside
    rcases mem_append.mp inside with old | new
    · exact mem_append_left _ old
    · rw [mem_singleton.mp new]
      exact here
  have first : ∀ height, ¬ PlacedIn blocks part tx.getHash height := by
    intro height placed
    obtain ⟨other, old, same⟩ := placed.confirmed
    have distinct := valid.distinct
    rw [map_append, nodup_append] at distinct
    exact distinct.2.2 _ (mem_map_of_mem old) _ (mem_map_of_mem mem_cons_self) same
  obtain ⟨wallet1, marked, tracks1, same_txs, same_last⟩ :=
    markSpentBy_tracks hashBlock proper syncing (fun id height placed => top ▸ placed.height_le)
      top (fun other inside => mem_append_left _ (below_subset blocks _ other inside))
  have syncing1 : Syncing known blocks (confirmedIn blocks ++ part ++ [tx]) part wallet1 := tracks1
  obtain ⟨wallet2, stored, tracks2, last2, _⟩ :=
    storeIfInvolving (PlacedIn blocks (part ++ [tx])) proper tracks1 (all_known tx here)
      (fun n other inside => mem_append_left _
        (mem_append_left _ (below_subset blocks n other inside)))
      (syncing1.clear proper valid all_known here sub)
      (.confirmed hashBlock blocks.length index)
      (by
        intro blockHash height index' same
        cases same
        exact ⟨.inr ⟨rfl, tx, mem_append_right _ mem_cons_self, rfl⟩, first⟩)
      (by
        rintro id height _ (old | ⟨at_top, other, inside, own⟩)
        · exact .inl old
        · exact .inr ⟨at_top, other, mem_append_left _ inside, own⟩) around
  refine ⟨wallet2, ?_, ?_, last2.trans (same_last.trans top)⟩
  · unfold syncTransaction
    dsimp only
    rw [marked]
    exact stored
  · rw [← append_assoc]
    exact tracks2

theorem connectTransactions_syncs (hashBlock : Uint256) (index : Nat)
    (vtx : List CTransaction) (proper : Proper known)
    (valid : ValidChain (confirmedIn blocks ++ part ++ vtx))
    (all_known : ∀ tx ∈ confirmedIn blocks ++ part ++ vtx, known tx)
    (syncing : Syncing known blocks (confirmedIn blocks ++ part) part wallet)
    (top : wallet.lastBlockProcessedHeight = blocks.length) :
    ∃ wallet', connectTransactions around hashBlock blocks.length index vtx wallet =
        .ok wallet' ∧
      Syncing known blocks (confirmedIn blocks ++ (part ++ vtx)) (part ++ vtx) wallet' ∧
      wallet'.lastBlockProcessedHeight = blocks.length := by
  induction vtx generalizing part wallet index with
  | nil =>
    rw [append_nil]
    exact ⟨wallet, rfl, syncing, top⟩
  | cons tx vtx ih =>
    have split_here : part ++ tx :: vtx = part ++ [tx] ++ vtx := by simp
    obtain ⟨wallet1, ran1, syncing1, top1⟩ :=
      connectTransaction_syncs around hashBlock index proper valid all_known syncing top
    have here : tx ∈ confirmedIn blocks ++ part ++ tx :: vtx :=
      mem_append_right _ mem_cons_self
    rw [append_assoc, split_here, ← append_assoc] at valid all_known here
    have clear : ¬ IsConflicted wallet1.transaction (confirmedIn blocks ++ (part ++ [tx]))
        tx.getHash := fun conflict =>
      not_isConflicted_of_confirmed proper valid all_known syncing1.owned here
        (conflict.mono fun other inside => mem_append_left _ inside)
    have refreshed := refresh_tracks around proper syncing1
      (fun n other inside => mem_append_left _ (below_subset blocks n other inside)) clear
    obtain ⟨wallet2, ran2, syncing2, top2⟩ :=
      ih (index + 1) valid all_known refreshed top1
    refine ⟨wallet2, ?_, split_here ▸ syncing2, top2⟩
    rw [connectTransactions, ran1]
    exact ran2

theorem disconnectTransactions_syncs (proper : Proper known) {whole : List CTransaction}
    (valid : ValidChain whole) (all_known : ∀ tx ∈ whole, known tx)
    (sub : ∀ tx ∈ confirmedIn blocks, tx ∈ whole) (inside : ∀ tx ∈ vtx, tx ∈ whole)
    (syncing : Syncing known blocks (confirmedIn blocks) vtx wallet) :
    ∃ wallet', vtx.foldlM (fun (wallet : CWallet) tx =>
        wallet.syncTransaction around tx (.inactive false)) wallet = .ok wallet' ∧
      Syncing known blocks (confirmedIn blocks) [] wallet' ∧
      wallet'.lastBlockProcessedHeight = wallet.lastBlockProcessedHeight := by
  induction vtx generalizing wallet with
  | nil => exact ⟨wallet, rfl, syncing, rfl⟩
  | cons tx vtx ih =>
    have here := inside tx mem_cons_self
    obtain ⟨wallet1, ran1, tracks1, last1, _⟩ :=
      storeIfInvolving (PlacedIn blocks vtx) proper syncing (all_known tx here)
        (below_subset blocks) (syncing.clear proper valid all_known here sub) .inactive
        (by
          intro blockHash height index same
          cases same)
        (by
          rintro id height other (old | ⟨at_top, next, remaining, own⟩)
          · exact .inl old
          · rcases mem_cons.mp remaining with rfl | remaining
            · exact absurd own.symm other
            · exact .inr ⟨at_top, next, remaining, own⟩) around
    obtain ⟨wallet2, ran2, syncing2, last2⟩ :=
      ih (fun tx later => inside tx (mem_cons_of_mem _ later)) tracks1
    refine ⟨wallet2, ?_, syncing2, last2.trans last1⟩
    rw [foldlM_cons]
    have synced : wallet.syncTransaction around tx (.inactive false) = .ok wallet1 := ran1
    rw [synced]
    exact ran2

structure Following (known : CTransaction → Prop) (world : World) : Prop where
  valid : ValidChain (confirmedIn world.chain)
  all_known : ∀ tx ∈ confirmedIn world.chain, known tx
  last : world.wallet.lastBlockProcessedHeight = world.chain.length - 1
  syncing : Syncing known world.chain (confirmedIn world.chain) [] world.wallet

variable {world : World}

theorem Following.conflictsFollowChain (following : Following known world) :
    world.ConflictsFollowChain := by
  intro id wtx found
  have recent : ∀ id height, PlacedIn world.chain [] id height →
      height ≤ world.wallet.lastBlockProcessedHeight := by
    intro id height placed
    rw [following.last]
    exact placed.height_lt
  rw [← not_iff_not, ← unmarked_iff following.syncing recent found]
  omega

theorem Following.start (chain : List CBlock) (valid : ValidChain (confirmedIn chain))
    (all_known : ∀ tx ∈ confirmedIn chain, known tx) : Following known (World.start chain) where
  valid := valid
  all_known := all_known
  last := rfl
  syncing := by
    constructor
    · intro outpoint id
      simp [World.start, transaction, find]
    · intro id tx own
      simp [World.start, transaction, find] at own
    · intro id wtx found
      simp [World.start, find] at found

theorem Tracks.shift {below below' : Nat → List CTransaction} {conflicts conflicts' : Uint256 → Prop}
    {placed placed' : Uint256 → Int → Prop} (last : Int)
    (tracks : Tracks known below conflicts placed wallet)
    (still : ∀ id (n : Nat), conflicts id → n ≤ wallet.lastBlockProcessedHeight →
      ¬ IsConflicted wallet.transaction (below n) id →
      n ≤ last ∧ ¬ IsConflicted wallet.transaction (below' n) id)
    (same : ∀ id, conflicts id ↔ conflicts' id)
    (moves : ∀ id height, placed id height → placed' id height) :
    Tracks known below' conflicts' placed' { wallet with lastBlockProcessedHeight := last } := by
  refine ⟨tracks.spenders, tracks.owned, ?_⟩
  intro id wtx found
  have fits := tracks.fits id wtx found
  constructor
  · rw [fits.conflicted, same]
  · intro blockHash height marked
    obtain ⟨n, at_height, bound, first⟩ := fits.since blockHash height marked
    have conflict := fits.conflicted.mp ⟨blockHash, height, marked⟩
    obtain ⟨bound', first'⟩ := still id n conflict (at_height ▸ bound) first
    exact ⟨n, at_height, at_height ▸ bound', first'⟩
  · exact fun blockHash height index confirmed =>
      moves id height (fits.confirmed blockHash height index confirmed)
  · exact fits.notAbandoned

omit [Crypto] in
theorem below_append {n : Nat} (block : CBlock) (old : n ≤ blocks.length) :
    below (blocks ++ [block]) n = below blocks n := by
  unfold below
  rw [take_append_of_le_length old]

section

variable (around : Surroundings) (proper : Proper known) (following : Following known world)
include proper following

theorem Following.blockConnected {block : CBlock} (block_known : ∀ tx ∈ block.vtx, known tx)
    (valid : ValidChain (confirmedIn (world.chain ++ [block]))) :
    ∃ wallet', world.wallet.blockConnected around block world.chain.length = .ok wallet' ∧
      Following known ⟨world.chain ++ [block], wallet'⟩ := by
  have all_known : ∀ tx ∈ confirmedIn world.chain ++ block.vtx, known tx := by
    intro tx inside
    rcases mem_append.mp inside with old | new
    · exact following.all_known tx old
    · exact block_known tx new
  have syncing : Syncing known world.chain (confirmedIn world.chain ++ []) []
      { world.wallet with lastBlockProcessedHeight := world.chain.length } := by
    rw [append_nil]
    apply following.syncing.shift
    · intro id n _ bound first
      rw [following.last] at bound
      exact ⟨by omega, first⟩
    · exact fun _ => Iff.rfl
    · exact fun _ _ placed => placed
  have valid' := valid
  rw [confirmedIn_append] at valid'
  obtain ⟨wallet', ran, syncing', top⟩ :=
    connectTransactions_syncs around block.getHash 0 block.vtx proper (by rwa [append_nil])
      (by rwa [append_nil]) syncing rfl
  refine ⟨wallet', ran, valid, ?_, ?_, ?_⟩
  · rw [confirmedIn_append]
    exact all_known
  · rw [top, length_append, length_singleton]
    omega
  · rw [nil_append] at syncing'
    apply syncing'.shift
    · intro id n _ bound first
      rw [top] at bound
      rw [below_append block (by omega)]
      exact ⟨top ▸ bound, first⟩
    · intro id
      rw [confirmedIn_append]
    · exact fun id height placed => (placedIn_append block id height).mpr placed

theorem Following.blockDisconnected {init : List CBlock} {block : CBlock}
    (tip : world.chain = init ++ [block]) (valid : ValidChain (confirmedIn init))
    (undisturbed : ∀ tx ∈ block.vtx, ∀ id stored, world.wallet.transaction id = some stored → tx.getHash ≠ id → ∀ outpoint ∈ spends stored, outpoint ∉ spends tx) :
    ∃ wallet', world.wallet.blockDisconnected around block (world.chain.length - 1) =
        .ok wallet' ∧ Following known ⟨init, wallet'⟩ := by
  obtain ⟨whole_valid, whole_known, last, syncing⟩ := following
  rw [tip] at whole_valid whole_known syncing
  rw [tip, length_append, length_singleton] at last
  rw [confirmedIn_append] at whole_valid whole_known syncing
  have unaffected : ∀ id, IsConflicted world.wallet.transaction (confirmedIn init ++ block.vtx) id ↔
      IsConflicted world.wallet.transaction (confirmedIn init) id := by
    intro id
    constructor
    · apply IsConflicted.least closed_isConflicted
      intro id stored own other confirmed different outpoint input taken
      rcases mem_append.mp confirmed with old | gone
      · exact .spent own old different input taken
      · exact absurd taken (undisturbed other gone id stored own different outpoint input)
    · exact fun conflict => conflict.mono fun other inside => mem_append_left _ inside
  have syncing' : Syncing known init (confirmedIn init) block.vtx
      { world.wallet with lastBlockProcessedHeight := (world.chain.length : Int) - 1 - 1 } := by
    apply syncing.shift
    · intro id n conflict bound first
      rw [tip, length_append, length_singleton]
      rw [last] at bound
      by_cases marked_last : n = init.length
      · subst marked_last
        rw [below_append block le_rfl, below, take_length] at first
        exact absurd ((unaffected id).mp conflict) first
      · rw [below_append block (by omega)] at first
        exact ⟨by omega, first⟩
    · exact unaffected
    · exact fun id height placed => (placedIn_append block id height).mp placed
  obtain ⟨wallet', ran, syncing'', last'⟩ :=
    disconnectTransactions_syncs around proper whole_valid whole_known
      (fun tx inside => mem_append_left _ inside)
      (fun tx inside => mem_append_right _ inside) syncing'
  refine ⟨wallet', ran, valid, fun tx inside => whole_known tx (mem_append_left _ inside), ?_,
    syncing''⟩
  rw [last', tip, length_append, length_singleton]
  push_cast
  omega

theorem Following.syncTransaction {state : TxState} (tx_known : known tx)
    (clear : ¬ world.Contested tx) (unconfirmed : state = .inMempool ∨ state = .inactive false) :
    ∃ wallet', world.wallet.syncTransaction around tx state = .ok wallet' ∧
      Following known { world with wallet := wallet' } ∧
      ¬ IsConflicted wallet'.transaction (confirmedIn world.chain) tx.getHash := by
  have synced : Synced state := by
    rcases unconfirmed with rfl | rfl
    · exact .inMempool
    · exact .inactive
  obtain ⟨wallet', ran, tracks, last, clear'⟩ :=
    storeIfInvolving (PlacedIn world.chain []) proper following.syncing tx_known
      (below_subset world.chain) clear synced
      (by
        intro blockHash height index confirmed
        rcases unconfirmed with rfl | rfl
        · cases confirmed
        · cases confirmed)
      (fun _ _ _ placed => placed) around
  refine ⟨wallet', ?_, ⟨following.valid, following.all_known, last.trans following.last, tracks⟩,
    clear'⟩
  rcases unconfirmed with rfl | rfl
  · exact ran
  · exact ran

theorem Following.refresh {hash : Uint256}
    (clear : ¬ IsConflicted world.wallet.transaction (confirmedIn world.chain) hash) :
    Following known { world with wallet := world.wallet.refreshMempoolStatus around hash } where
  valid := following.valid
  all_known := following.all_known
  last := following.last
  syncing := refresh_tracks around proper following.syncing (below_subset world.chain) clear

end

theorem Following.step {event : Event} (proper : Proper known) (following : Following known world)
    (allowed : world.Allows known event.notification)
    (undisturbed : world.Undisturbed event.notification) :
    ∃ world', world.step event = .ok world' ∧ Following known world' := by
  obtain ⟨around, notification⟩ := event
  cases notification with
  | blockConnected block =>
    obtain ⟨wallet', ran, following'⟩ :=
      following.blockConnected around proper allowed.1 allowed.2
    refine ⟨_, ?_, following'⟩
    simp only [World.step, ran]
    rfl
  | blockDisconnected =>
    obtain ⟨init, block, tip⟩ : ∃ init block, world.chain = init ++ [block] :=
      ⟨_, _, (dropLast_append_getLast allowed.1).symm⟩
    have valid := allowed.2
    rw [tip, dropLast_concat] at valid
    obtain ⟨wallet', ran, following'⟩ :=
      following.blockDisconnected around proper tip valid
        (undisturbed block (by simp [tip]))
    refine ⟨_, ?_, following'⟩
    simp only [World.step, tip, List.getLast?_concat, dropLast_concat]
    rw [← tip, ran]
    rfl
  | transactionAddedToMempool tx =>
    obtain ⟨wallet', ran, following', clear⟩ :=
      following.syncTransaction around proper allowed.1 allowed.2 (.inl rfl)
    refine ⟨_, ?_, following'.refresh around proper clear⟩
    simp only [World.step, transactionAddedToMempool, ran]
    rfl
  | transactionRemovedFromMempool tx reason =>
    have unmarked : ¬ IsConflicted world.wallet.transaction (confirmedIn world.chain) tx.getHash := by
      intro conflict
      obtain ⟨stored, own⟩ := conflict.own
      obtain ⟨stored_known, same⟩ := following.syncing.owned _ _ own
      exact allowed.2 (conflict.contested own (proper.inputs _ _ stored_known allowed.1 same))
    have refreshed := following.refresh around proper unmarked
    by_cases conflict : reason = .conflict
    · have clear : ¬ World.Contested
          { world with wallet := world.wallet.refreshMempoolStatus around tx.getHash } tx := by
        unfold World.Contested
        rw [refresh_transaction]
        exact allowed.2
      obtain ⟨wallet', ran, following', _⟩ :=
        refreshed.syncTransaction around proper allowed.1 clear (.inr rfl)
      refine ⟨_, ?_, following'⟩
      simp only [World.step, transactionRemovedFromMempool, if_pos conflict, ran]
      rfl
    · refine ⟨_, ?_, refreshed⟩
      simp only [World.step, transactionRemovedFromMempool, if_neg conflict]
      rfl
  | commitTransaction tx =>
    obtain ⟨wallet', ran, tracks, last, _⟩ :=
      addToWallet_tracks proper following.syncing allowed (below_subset world.chain) undisturbed
        .inactive (fun _ _ _ confirmed => nomatch confirmed) (fun _ _ _ placed => placed)
    refine ⟨{ world with wallet := wallet' }, ?_, following.valid, following.all_known,
      last.trans following.last, tracks⟩
    simp only [World.step, commitTransaction, ran]
    rfl

theorem Following.run (proper : Proper known) (following : Following known world)
    (events : List Event) (allowed : World.Always (World.Allows known) world events)
    (undisturbed : World.Always World.Undisturbed world events) :
    ∃ world', world.run events = .ok world' ∧ Following known world' := by
  induction events generalizing world with
  | nil => exact ⟨world, rfl, following⟩
  | cons event events ih =>
    obtain ⟨world1, ran1, following1⟩ := following.step proper allowed.1 undisturbed.1
    obtain ⟨world2, ran2, following2⟩ :=
      ih following1 (allowed.2 world1 ran1) (undisturbed.2 world1 ran1)
    refine ⟨world2, ?_, following2⟩
    rw [World.run, foldlM_cons, ran1]
    exact ran2

theorem World.always_cons {condition : World → Notification → Prop} (world' : World) {event : Event}
    {events : List Event} (meets : condition world event.notification)
    (ran : world.step event = .ok world') (rest : World.Always condition world' events) :
    World.Always condition world (event :: events) := by
  refine ⟨meets, ?_⟩
  intro other ran_other
  rw [ran] at ran_other
  cases ran_other
  exact rest

end Runs

def sampleCoinbase (nVersion : Int32) : CTransaction :=
  ⟨nVersion, [⟨⟨Uint256.null, COutPoint.nullIndex⟩, [], 0, []⟩], [⟨50, []⟩], 0⟩

def sampleSpend [Crypto] (nVersion : Int32) : CTransaction :=
  ⟨nVersion, [⟨⟨(sampleCoinbase 1).getHash, 0⟩, [], 0, []⟩], [⟨50, []⟩], 0⟩

def sampleBlock (vtx : List CTransaction) : CBlock :=
  { nVersion := 1, hashPrevBlock := Uint256.null, hashMerkleRoot := Uint256.null, nTime := 0,
    nBits := 0, nNonce := 0, vtx }

def sampleTransactions [Crypto] : List CTransaction :=
  [sampleCoinbase 1, sampleCoinbase 2, sampleCoinbase 4, sampleSpend 3, sampleSpend 5]

def sampleEvent (notification : Notification) : Event :=
  ⟨⟨fun _ => false, fun _ _ => false⟩, notification⟩

def conflictEvents [Crypto] : List Event :=
  [sampleEvent (.blockConnected (sampleBlock [sampleCoinbase 1])),
    sampleEvent (.commitTransaction (sampleSpend 5)),
    sampleEvent (.blockConnected (sampleBlock [sampleCoinbase 2, sampleSpend 3]))]

def sampleWorld [Crypto] (chain : List CBlock) (height : Int) (wallet : List TxState) : World :=
  ⟨chain, wallet.map fun state => ⟨sampleSpend 5, state⟩,
    wallet.map fun _ => (⟨(sampleCoinbase 1).getHash, 0⟩, (sampleSpend 5).getHash), height⟩

def conflictWorld [Crypto] : World :=
  sampleWorld [sampleBlock [sampleCoinbase 1], sampleBlock [sampleCoinbase 2, sampleSpend 3]] 1
    [.conflicted (sampleBlock [sampleCoinbase 2, sampleSpend 3]).getHash 1]

theorem sampleTransactions_proper :
    let _ := Crypto.firstBytes
    Proper (· ∈ sampleTransactions) := by
  intro crypto
  constructor
  · have all : ∀ tx ∈ sampleTransactions, ∀ other ∈ sampleTransactions,
        tx.getHash = other.getHash → spends tx = spends other := by decide +kernel
    exact fun tx other inside inside' => all tx inside other inside'
  · have all : (sampleTransactions.all fun tx => (spends tx).all fun outpoint =>
        !outpoint.isNull) = true := by decide +kernel
    simpa only [all_eq_true, Bool.not_eq_true'] using all

theorem conflictEvents_allowed {events : List Event} :
    let _ := Crypto.firstBytes
    World.Always (World.Allows (· ∈ sampleTransactions)) conflictWorld events →
      World.Always (World.Allows (· ∈ sampleTransactions)) (World.start [])
        (conflictEvents ++ events) := by
  intro crypto rest
  refine World.always_cons (sampleWorld [sampleBlock [sampleCoinbase 1]] 0 [])
    ⟨by decide +kernel, by decide +kernel⟩ (by decide +kernel) ?_
  refine World.always_cons
    (sampleWorld [sampleBlock [sampleCoinbase 1]] 0 [.inactive false])
    (by decide +kernel : sampleSpend 5 ∈ sampleTransactions) (by decide +kernel) ?_
  exact World.always_cons conflictWorld
    ⟨by decide +kernel, by decide +kernel⟩ (by decide +kernel)
    rest

theorem conflictEvents_undisturbed {events : List Event} :
    let _ := Crypto.firstBytes
    World.Always World.Undisturbed conflictWorld events →
      World.Always World.Undisturbed (World.start []) (conflictEvents ++ events) := by
  intro crypto rest
  refine World.always_cons (sampleWorld [sampleBlock [sampleCoinbase 1]] 0 []) trivial
    (by decide +kernel) ?_
  refine World.always_cons
    (sampleWorld [sampleBlock [sampleCoinbase 1]] 0 [.inactive false]) ?_
    (by decide +kernel) (World.always_cons conflictWorld trivial (by decide +kernel) rest)
  rintro ⟨outpoint, input, ⟨other, confirmed, _, taken⟩ | ancestor⟩
  · have unspent : ∀ other ∈ confirmedIn [sampleBlock [sampleCoinbase 1]], spends other = [] := by
      decide +kernel
    rw [unspent other confirmed] at taken
    cases taken
  · obtain ⟨stored, own⟩ := ancestor.own
    cases own

end Qogecoin.Wallet
