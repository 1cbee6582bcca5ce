import Qogecoin.Wallet.Conflicts

/-! What the wallet keeps true about the states of its transactions, and that each of its
operations keeps it. -/
namespace Qogecoin.Wallet

open Coins List

theorem mem_spends_iff (outpoint : COutPoint) (notNull : outpoint.isNull = false) :
    outpoint ∈ spends tx ↔ ∃ txin ∈ tx.vin, txin.prevout = outpoint := by
  unfold spends
  split
  next coinbase =>
    simp only [not_mem_nil, false_iff]
    rintro ⟨txin, inside, rfl⟩
    unfold CTransaction.isCoinBase at coinbase
    split at coinbase
    next only vin =>
      rw [vin, mem_singleton] at inside
      rw [inside, coinbase] at notNull
      cases notNull
    · cases coinbase
  · exact mem_map

variable [Crypto]

/-- The state of a wallet transaction: conflicted exactly when `conflicts` says so, and then not
yet in conflict with the blocks below the one it was marked with. -/
structure Fits (transactions : Uint256 → Option CTransaction) (last : Int)
    (below : Nat → List CTransaction) (conflicts : Uint256 → Prop) (placed : Uint256 → Int → Prop)
    (id : Uint256) (state : TxState) : Prop where
  conflicted : (∃ blockHash height, state = .conflicted blockHash height) ↔ conflicts id
  since : ∀ blockHash height, state = .conflicted blockHash height →
    ∃ n : Nat, height = n ∧ height ≤ last ∧ ¬ IsConflicted transactions (below n) id
  confirmed : ∀ blockHash height index, state = .confirmed blockHash height index → placed id height
  notAbandoned : state ≠ .inactive true

structure Tracks (known : CTransaction → Prop) (below : Nat → List CTransaction)
    (conflicts : Uint256 → Prop) (placed : Uint256 → Int → Prop) (wallet : CWallet) : Prop where
  spenders : ∀ outpoint id, (outpoint, id) ∈ wallet.mapTxSpends ↔
    ∃ tx, wallet.transaction id = some tx ∧ outpoint ∈ spends tx
  owned : ∀ id tx, wallet.transaction id = some tx → known tx ∧ tx.getHash = id
  fits : ∀ id wtx, wallet.find id = some wtx →
    Fits wallet.transaction wallet.lastBlockProcessedHeight below conflicts placed id wtx.state

variable {known : CTransaction → Prop} {below : Nat → List CTransaction}
  {conflicts conflicts' : Uint256 → Prop} {placed placed' : Uint256 → Int → Prop}
  {wallet wallet' wallet'' : CWallet} {chain : List CTransaction} {tx : CTransaction}

variable {id : Uint256}

variable {wtx : CWalletTx} {current : CWallet} {done : List Uint256} {height : Nat}

theorem transaction_of_find (found : wallet.find id = some wtx) :
    wallet.transaction id = some wtx.tx := by
  rw [CWallet.transaction, found]
  rfl

theorem find_of_transaction (own : wallet.transaction id = some tx) :
    ∃ wtx, wallet.find id = some wtx ∧ wtx.tx = tx := by
  rw [CWallet.transaction] at own
  exact Option.map_eq_some_iff.mp own

structure Marks (wallet : CWallet) (conflicts : Uint256 → Prop) (ids : List Uint256)
    (wallet' : CWallet) (conflicts' : Uint256 → Prop) : Prop where
  transactions : wallet'.transaction = wallet.transaction
  last : wallet'.lastBlockProcessedHeight = wallet.lastBlockProcessedHeight
  keeps : ∀ id, conflicts id → conflicts' id
  marks : ∀ id ∈ ids, conflicts' id
  closed : Closed wallet.transaction conflicts'
  least : ∀ S, Closed wallet.transaction S → (∀ id, conflicts id → S id) → (∀ id ∈ ids, S id) →
    ∀ id, conflicts' id → S id

/-- The wallet in the middle of the loop of `MarkConflicted`: marked are the transactions done that
were not marked before. -/
structure Midway (wallet : CWallet) (conflicts : Uint256 → Prop) (mark : TxState)
    (done : List Uint256) (current : CWallet) : Prop where
  spends : current.mapTxSpends = wallet.mapTxSpends
  last : current.lastBlockProcessedHeight = wallet.lastBlockProcessedHeight
  marked : ∀ id, id ∈ done → ¬ conflicts id →
    current.find id = (wallet.find id).map fun wtx => { wtx with state := mark }
  others : ∀ id, ¬ (id ∈ done ∧ ¬ conflicts id) → current.find id = wallet.find id

theorem Midway.transaction {mark : TxState} (midway : Midway wallet conflicts mark done current) :
    current.transaction = wallet.transaction := by
  funext id
  unfold CWallet.transaction
  by_cases marked : id ∈ done ∧ ¬ conflicts id
  · rw [midway.marked id marked.1 marked.2, Option.map_map]
    rfl
  · rw [midway.others id marked]

theorem Marks.nothing (closed : Closed wallet.transaction conflicts) :
    Marks wallet conflicts [] wallet conflicts where
  transactions := rfl
  last := rfl
  keeps := fun _ marked => marked
  marks := fun _ none => absurd none not_mem_nil
  closed := closed
  least := fun _ _ keeps _ => keeps

theorem Marks.cons {conflicts'' : Uint256 → Prop} {ids : List Uint256}
    (first : Marks wallet conflicts [id] wallet' conflicts')
    (rest : Marks wallet' conflicts' ids wallet'' conflicts'') :
    Marks wallet conflicts (id :: ids) wallet'' conflicts'' := by
  have later := rest.closed
  have minimal := rest.least
  rw [first.transactions] at later minimal
  constructor
  · exact rest.transactions.trans first.transactions
  · exact rest.last.trans first.last
  · exact fun other marked => rest.keeps other (first.keeps other marked)
  · intro other inside
    rcases mem_cons.mp inside with rfl | inside
    · exact rest.keeps other (first.marks other mem_cons_self)
    · exact rest.marks other inside
  · exact later
  · intro S closed keeps marks
    apply minimal S closed
    · apply first.least S closed keeps
      intro other inside
      rw [mem_singleton.mp inside]
      exact marks id mem_cons_self
    · exact fun other inside => marks other (mem_cons_of_mem _ inside)

section

variable (tracks : Tracks known below conflicts placed wallet)
  (recent : ∀ id height, placed id height → height ≤ wallet.lastBlockProcessedHeight)
include tracks recent

theorem unmarked_iff (found : wallet.find id = some wtx) :
    -1 < wallet.getTxDepthInMainChain wtx ↔ ¬ conflicts id := by
  have fits := tracks.fits id wtx found
  rw [← fits.conflicted, CWallet.getTxDepthInMainChain]
  cases state : wtx.state with
  | confirmed blockHash height index =>
    have bound := recent id height (fits.confirmed blockHash height index state)
    simp only [reduceCtorEq, exists_false, not_false_eq_true, iff_true]
    omega
  | conflicted blockHash height =>
    obtain ⟨n, _, bound, _⟩ := fits.since blockHash height state
    constructor
    · intro deeper
      have deeper : -1 < -1 * (wallet.lastBlockProcessedHeight - height + 1) := deeper
      omega
    · exact fun unmarked => absurd ⟨blockHash, height, rfl⟩ unmarked
  | inMempool => simp
  | inactive abandoned => simp
  | unrecognized blockHash index => simp

omit recent in
theorem mem_spenders (now id : Uint256) :
    id ∈ wallet.spenders now ↔
      ∃ tx, wallet.transaction id = some tx ∧ ∃ outpoint ∈ spends tx, outpoint.hash = now := by
  unfold CWallet.spenders
  simp only [mem_map, mem_filter, beq_iff_eq, Prod.exists, exists_eq_right]
  constructor
  · rintro ⟨outpoint, inside, same⟩
    obtain ⟨tx, own, input⟩ := (tracks.spenders outpoint id).mp inside
    exact ⟨tx, own, outpoint, input, same⟩
  · rintro ⟨tx, own, outpoint, input, same⟩
    exact ⟨outpoint, (tracks.spenders outpoint id).mpr ⟨tx, own, input⟩, same⟩

theorem Midway.step {hashBlock now : Uint256} {height : Int}
    (inside : ∃ wtx, wallet.find now = some wtx) (new : now ∉ done)
    (midway : Midway wallet conflicts (.conflicted hashBlock height) done current) :
    ∃ next current', current.markOne hashBlock height (-1) now = .ok (current', next) ∧
      (conflicts now → next = []) ∧ (¬ conflicts now → next = wallet.spenders now) ∧
      Midway wallet conflicts (.conflicted hashBlock height) (now :: done) current' := by
  obtain ⟨wtx, found⟩ := inside
  have found' : current.find now = some wtx := by
    rw [midway.others now (fun both => new both.1), found]
  have deeper_iff : -1 < current.getTxDepthInMainChain wtx ↔ ¬ conflicts now := by
    rw [← unmarked_iff tracks recent found, CWallet.getTxDepthInMainChain, midway.last]
    rfl
  unfold CWallet.markOne
  rw [found']
  dsimp only
  by_cases old : conflicts now
  · rw [if_neg fun deeper => deeper_iff.mp deeper old]
    refine ⟨[], current, rfl, fun _ => rfl, fun fresh => absurd old fresh, midway.spends,
      midway.last, ?_, ?_⟩
    · intro id visited fresh
      rcases mem_cons.mp visited with rfl | visited
      · exact absurd old fresh
      · exact midway.marked id visited fresh
    · intro id untouched
      exact midway.others id fun both => untouched ⟨mem_cons_of_mem _ both.1, both.2⟩
  · rw [if_pos (deeper_iff.mpr old)]
    refine ⟨_, _, rfl, fun marked => absurd marked old, ?_, midway.spends, midway.last, ?_, ?_⟩
    · intro _
      unfold CWallet.spenders
      rw [midway.spends]
    · intro id visited fresh
      rw [CWallet.find_setState]
      by_cases current_one : id = now
      · rw [if_pos current_one, current_one, found', found]
      · rw [if_neg current_one]
        exact midway.marked id ((mem_cons.mp visited).resolve_left current_one) fresh
    · intro id untouched
      have other : id ≠ now := by
        rintro rfl
        exact untouched ⟨mem_cons_self, old⟩
      rw [CWallet.find_setState, if_neg other]
      exact midway.others id fun both => untouched ⟨mem_cons_of_mem _ both.1, both.2⟩

variable (top : wallet.lastBlockProcessedHeight = height)
  (covers : ∀ id, IsConflicted wallet.transaction (below height) id → conflicts id)
include top covers

omit recent in
theorem Midway.tracked {hashBlock : Uint256}
    (midway : Midway wallet conflicts (.conflicted hashBlock height) done current) :
    Tracks known below (fun id => conflicts id ∨ id ∈ done) placed current := by
  constructor
  · rw [midway.transaction, midway.spends]
    exact tracks.spenders
  · rw [midway.transaction]
    exact tracks.owned
  · intro id wtx found
    rw [midway.transaction, midway.last]
    by_cases marked : id ∈ done ∧ ¬ conflicts id
    · rw [midway.marked id marked.1 marked.2] at found
      obtain ⟨wtx', found', rfl⟩ := Option.map_eq_some_iff.mp found
      constructor
      · exact ⟨fun _ => .inr marked.1, fun _ => ⟨hashBlock, height, rfl⟩⟩
      · intro blockHash height' same
        cases same
        exact ⟨height, rfl, le_of_eq top.symm, fun conflict => marked.2 (covers id conflict)⟩
      · intro blockHash height' index same
        exact absurd same (by simp)
      · simp
    · rw [midway.others id marked] at found
      have fits := tracks.fits id wtx found
      refine ⟨?_, fits.since, fits.confirmed, fits.notAbandoned⟩
      rw [fits.conflicted]
      constructor
      · exact .inl
      · rintro (old | visited)
        · exact old
        · exact not_not.mp fun fresh => marked ⟨visited, fresh⟩

open Classical in
theorem markConflicted_marks (hashBlock : Uint256) {hashTx : Uint256}
    (closed : Closed wallet.transaction conflicts) (own : ∃ tx, wallet.transaction hashTx = some tx) :
    ∃ wallet' conflicts', wallet.markConflicted hashBlock height hashTx = .ok wallet' ∧
      Tracks known below conflicts' placed wallet' ∧
      Marks wallet conflicts [hashTx] wallet' conflicts' := by
  let next := fun now => if conflicts now then [] else wallet.spenders now
  let nodes := wallet.mapWallet.map fun wtx => wtx.tx.getHash
  have spending : ∀ now id, id ∈ next now → ¬ conflicts now ∧
      ∃ tx, wallet.transaction id = some tx ∧ ∃ outpoint ∈ spends tx, outpoint.hash = now := by
    intro now id following
    by_cases old : conflicts now
    · simp [next, old] at following
    · simp only [next, old, if_false] at following
      exact ⟨old, (mem_spenders tracks now id).mp following⟩
  have inner : ∀ a ∈ nodes, ∀ b ∈ next a, b ∈ nodes := by
    intro a _ b following
    obtain ⟨_, tx, own, _⟩ := spending a b following
    obtain ⟨wtx, found, _⟩ := find_of_transaction own
    exact CWallet.mem_hashes.mpr ⟨wtx, found⟩
  have steps : ∀ current done, ∀ now ∈ nodes, now ∉ done →
      Midway wallet conflicts (.conflicted hashBlock height) done current →
      ∃ current', current.markOne hashBlock height (-1) now = .ok (current', next now) ∧
        Midway wallet conflicts (.conflicted hashBlock height) (now :: done) current' := by
    intro current done now inside new midway
    obtain ⟨found, current', ran, none_found, all_found, midway'⟩ :=
      midway.step tracks recent (CWallet.mem_hashes.mp inside) new
    refine ⟨current', ?_, midway'⟩
    rw [ran]
    by_cases old : conflicts now
    · simp [next, old, none_found old]
    · simp [next, old, all_found old]
  have start : ∀ a ∈ [hashTx] ++ [], a ∈ nodes := by
    intro a first
    obtain ⟨tx, own⟩ := own
    obtain ⟨wtx, found, _⟩ := find_of_transaction own
    rw [mem_singleton.mp first]
    exact CWallet.mem_hashes.mpr ⟨wtx, found⟩
  have unstarted : Midway wallet conflicts (.conflicted hashBlock height) [] wallet :=
    ⟨rfl, rfl, fun _ visited => absurd visited not_mem_nil, fun _ _ => rfl⟩
  obtain ⟨wallet', reached, ran, midway, walk⟩ :=
    Worklist.loop_reached inner steps wallet.mapWallet.length (nodup_singleton hashTx) start
      (by simp [nodes]) unstarted
  refine ⟨wallet', _, ?_, midway.tracked tracks top covers, midway.transaction, midway.last,
    fun _ => .inl, fun id first => .inr (walk.starts id first), ?_, ?_⟩
  · have confirms : (wallet.lastBlockProcessedHeight - height + 1) * -1 = -1 := by
      rw [top]
      omega
    unfold CWallet.markConflicted
    rw [confirms]
    exact ran
  · intro id tx own outpoint input ancestor
    by_cases old : conflicts outpoint.hash
    · exact .inl (closed id tx own outpoint input old)
    · refine .inr (walk.closed outpoint.hash (ancestor.resolve_left old) not_mem_nil id ?_)
      simp only [next, old, if_false]
      exact (mem_spenders tracks _ id).mpr ⟨tx, own, outpoint, input, rfl⟩
  · intro S closed_S keeps marks id marked
    rcases marked with old | visited
    · exact keeps id old
    · refine (walk.least S marks ?_ id visited).resolve_left not_mem_nil
      intro now held spender following
      obtain ⟨_, tx, own, outpoint, input, rfl⟩ := spending now spender following
      exact closed_S spender tx own outpoint input held

theorem foldlM_markConflicted (hashBlock : Uint256) (ids : List Uint256)
    (closed : Closed wallet.transaction conflicts)
    (own : ∀ id ∈ ids, ∃ tx, wallet.transaction id = some tx) :
    ∃ wallet' conflicts', ids.foldlM (fun (wallet : CWallet) hashTx =>
        wallet.markConflicted hashBlock height hashTx) wallet = .ok wallet' ∧
      Tracks known below conflicts' placed wallet' ∧
      Marks wallet conflicts ids wallet' conflicts' := by
  induction ids generalizing wallet conflicts with
  | nil => exact ⟨wallet, conflicts, rfl, tracks, Marks.nothing closed⟩
  | cons id ids ih =>
    obtain ⟨wallet1, conflicts1, ran, tracks1, marks⟩ :=
      markConflicted_marks tracks recent top covers hashBlock closed (own id mem_cons_self)
    have recent1 : ∀ id height, placed id height → height ≤ wallet1.lastBlockProcessedHeight := by
      rw [marks.last]
      exact recent
    have covers1 : ∀ id, IsConflicted wallet1.transaction (below height) id → conflicts1 id := by
      rw [marks.transactions]
      exact fun id conflict => marks.keeps id (covers id conflict)
    have closed1 : Closed wallet1.transaction conflicts1 := by
      rw [marks.transactions]
      exact marks.closed
    have own1 : ∀ id ∈ ids, ∃ tx, wallet1.transaction id = some tx := by
      rw [marks.transactions]
      exact fun id inside => own id (mem_cons_of_mem _ inside)
    obtain ⟨wallet2, conflicts2, ran2, tracks2, marks2⟩ :=
      ih tracks1 recent1 (marks.last.trans top) covers1 closed1 own1
    refine ⟨wallet2, conflicts2, ?_, tracks2, marks.cons marks2⟩
    rw [foldlM_cons, ran]
    exact ran2

end

theorem markSpentBy_tracks (hashBlock : Uint256) (proper : Proper known)
    (tracks : Tracks known below (IsConflicted wallet.transaction chain) placed wallet)
    (recent : ∀ id height, placed id height → height ≤ wallet.lastBlockProcessedHeight)
    (top : wallet.lastBlockProcessedHeight = height) (inside : ∀ tx ∈ below height, tx ∈ chain) :
    ∃ wallet', wallet.markSpentBy tx hashBlock height = .ok wallet' ∧
      Tracks known below (IsConflicted wallet'.transaction (chain ++ [tx])) placed wallet' ∧
      wallet'.transaction = wallet.transaction ∧
      wallet'.lastBlockProcessedHeight = wallet.lastBlockProcessedHeight := by
  obtain ⟨ids, called⟩ : ∃ ids, ids = tx.vin.flatMap fun txin =>
      ((wallet.mapTxSpends.filter fun entry => entry.1 == txin.prevout).map Prod.snd).filter
        (· ≠ tx.getHash) := ⟨_, rfl⟩
  have mem_ids : ∀ id, id ∈ ids ↔ id ≠ tx.getHash ∧ ∃ stored, wallet.transaction id = some stored ∧
      ∃ outpoint ∈ spends stored, outpoint ∈ spends tx := by
    intro id
    simp only [called, mem_flatMap, mem_filter, mem_map, beq_iff_eq, Prod.exists,
      exists_eq_right, decide_eq_true_eq]
    constructor
    · rintro ⟨txin, input, entry, different⟩
      obtain ⟨stored, own, taken⟩ := (tracks.spenders _ _).mp entry
      have notNull := proper.notNull stored (tracks.owned _ _ own).1 _ taken
      exact ⟨different, stored, own, _, taken, (mem_spends_iff _ notNull).mpr ⟨txin, input, rfl⟩⟩
    · rintro ⟨different, stored, own, outpoint, taken, input⟩
      have notNull := proper.notNull stored (tracks.owned _ _ own).1 _ taken
      obtain ⟨txin, inside_vin, rfl⟩ := (mem_spends_iff _ notNull).mp input
      exact ⟨txin, inside_vin, (tracks.spenders _ _).mpr ⟨stored, own, taken⟩, different⟩
  have own : ∀ id ∈ ids, ∃ tx, wallet.transaction id = some tx := by
    intro id marked
    obtain ⟨_, stored, own, _⟩ := (mem_ids id).mp marked
    exact ⟨stored, own⟩
  obtain ⟨wallet', conflicts', ran, tracks', marks⟩ :=
    foldlM_markConflicted tracks recent top (fun _ conflict => conflict.mono inside) hashBlock ids
      closed_isConflicted own
  have exact_marks : conflicts' = IsConflicted wallet'.transaction (chain ++ [tx]) := by
    rw [marks.transactions]
    funext id
    apply propext
    constructor
    · apply marks.least _ closed_isConflicted
      · exact fun id conflict => conflict.mono fun other old => mem_append_left _ old
      · intro id marked
        obtain ⟨different, stored, own, outpoint, taken, input⟩ := (mem_ids id).mp marked
        exact .spent own (mem_append_right _ mem_cons_self) different.symm taken input
    · apply IsConflicted.least marks.closed
      intro id stored own other confirmed different outpoint taken input
      rcases mem_append.mp confirmed with old | new
      · exact marks.keeps id (.spent own old different taken input)
      · rw [mem_singleton.mp new] at different input
        exact marks.marks id ((mem_ids id).mpr ⟨different.symm, stored, own, outpoint, taken, input⟩)
  refine ⟨wallet', ?_, exact_marks ▸ tracks', marks.transactions, marks.last⟩
  unfold CWallet.markSpentBy
  rw [← called]
  exact ran

variable {state : TxState}

theorem Tracks.not_conflicted (tracks : Tracks known below conflicts placed wallet)
    (found : wallet.find id = some wtx)
    (unmarked : ∀ blockHash height, wtx.state ≠ .conflicted blockHash height) :
    ¬ conflicts id := by
  intro conflict
  obtain ⟨blockHash, height, marked⟩ := (tracks.fits id wtx found).conflicted.mpr conflict
  exact unmarked blockHash height marked

inductive Synced : TxState → Prop
  | confirmed (blockHash : Uint256) (height index : Int) : Synced (.confirmed blockHash height index)
  | inMempool : Synced .inMempool
  | inactive : Synced (.inactive false)

omit [Crypto] in
theorem Synced.unmarked (synced : Synced state) (blockHash : Uint256) (height : Int) :
    state ≠ .conflicted blockHash height := by
  cases synced <;> simp

omit [Crypto] in
theorem Synced.notAbandoned (synced : Synced state) : state ≠ .inactive true := by
  cases synced <;> simp

theorem sync_hash (wtx : CWalletTx) (own : wtx.tx.getHash = tx.getHash) :
    (wtx.sync tx state).tx.getHash = tx.getHash := by
  unfold CWalletTx.sync
  split
  · rfl
  · exact own

theorem Tracks.moved (tracks : Tracks known below conflicts placed wallet)
    (moves : ∀ id height, (∃ wtx, wallet.find id = some wtx) → placed id height →
      placed' id height) : Tracks known below conflicts placed' wallet := by
  refine ⟨tracks.spenders, tracks.owned, ?_⟩
  intro id wtx found
  have fits := tracks.fits id wtx found
  exact ⟨fits.conflicted, fits.since, fun blockHash height index confirmed =>
    moves id height ⟨wtx, found⟩ (fits.confirmed blockHash height index confirmed),
    fits.notAbandoned⟩

section

variable (proper : Proper known)
  (tracks : Tracks known below (IsConflicted wallet.transaction chain) placed wallet)
  (tx_known : known tx) (inside : ∀ n, ∀ tx ∈ below n, tx ∈ chain)
  (clear : ¬ Contested wallet.transaction chain tx)
include proper tracks tx_known inside clear

theorem Tracks.replace {stored : CTransaction}
    (others : ∀ id, id ≠ tx.getHash → wallet'.find id = wallet.find id)
    (own : wallet'.find tx.getHash = some ⟨stored, state⟩) (stored_known : known stored)
    (stored_hash : stored.getHash = tx.getHash)
    (entries : ∀ outpoint id, (outpoint, id) ∈ wallet'.mapTxSpends ↔
      (outpoint, id) ∈ wallet.mapTxSpends ∨ id = tx.getHash ∧ outpoint ∈ spends tx)
    (last : wallet'.lastBlockProcessedHeight = wallet.lastBlockProcessedHeight)
    (unmarked : ∀ blockHash height, state ≠ .conflicted blockHash height)
    (notAbandoned : state ≠ .inactive true)
    (confirmed : ∀ blockHash height index, state = .confirmed blockHash height index →
      placed' tx.getHash height)
    (moves : ∀ id height, id ≠ tx.getHash → placed id height → placed' id height) :
    Tracks known below (IsConflicted wallet'.transaction chain) placed' wallet' := by
  have same : spends stored = spends tx := proper.inputs _ _ stored_known tx_known stored_hash
  have own_tx : wallet'.transaction tx.getHash = some stored := transaction_of_find own
  have other_txs : ∀ id, id ≠ tx.getHash → wallet'.transaction id = wallet.transaction id := by
    intro id other
    unfold CWallet.transaction
    rw [others id other]
  have before : ∀ old, wallet.transaction tx.getHash = some old → spends old = spends tx := by
    intro old own_old
    obtain ⟨old_known, old_hash⟩ := tracks.owned _ _ own_old
    exact proper.inputs _ _ old_known tx_known old_hash
  have unchanged : ∀ part, (∀ tx ∈ part, tx ∈ chain) → ∀ id,
      (IsConflicted wallet'.transaction part id ↔ IsConflicted wallet.transaction part id) :=
    fun part sub => isConflicted_store other_txs own_tx same before
      fun contested => clear (contested.mono sub)
  constructor
  · intro outpoint id
    rw [entries, tracks.spenders]
    by_cases current : id = tx.getHash
    · subst current
      simp only [own_tx, Option.some.injEq, exists_eq_left', same, true_and]
      apply or_iff_right_of_imp
      rintro ⟨old, own_old, input⟩
      rwa [before old own_old] at input
    · rw [other_txs id current]
      simp [current]
  · intro id found own_found
    by_cases current : id = tx.getHash
    · subst current
      rw [own_tx] at own_found
      cases own_found
      exact ⟨stored_known, stored_hash⟩
    · rw [other_txs id current] at own_found
      exact tracks.owned id found own_found
  · intro id wtx found
    rw [last]
    by_cases current : id = tx.getHash
    · subst current
      rw [own] at found
      cases found
      constructor
      · constructor
        · rintro ⟨blockHash, height, marked⟩
          exact absurd marked (unmarked blockHash height)
        · intro conflict
          have conflict := (unchanged chain (fun _ old => old) _).mp conflict
          cases known_before : wallet.transaction tx.getHash with
          | none => cases conflict <;> simp_all
          | some old => exact absurd (conflict.contested known_before (before old known_before)) clear
      · exact fun blockHash height marked => absurd marked (unmarked blockHash height)
      · exact confirmed
      · exact notAbandoned
    · rw [others id current] at found
      have fits := tracks.fits id wtx found
      constructor
      · rw [fits.conflicted, unchanged chain fun _ old => old]
      · intro blockHash height marked
        obtain ⟨n, at_height, bound, first⟩ := fits.since blockHash height marked
        exact ⟨n, at_height, bound, fun conflict => first ((unchanged _ (inside n) id).mp conflict)⟩
      · exact fun blockHash height index confirmed_at =>
          moves id height current (fits.confirmed blockHash height index confirmed_at)
      · exact fits.notAbandoned

variable (synced : Synced state)
  (confirmed : ∀ blockHash height index, state = .confirmed blockHash height index →
    placed' tx.getHash height ∧ ∀ height, ¬ placed tx.getHash height)
  (moves : ∀ id height, id ≠ tx.getHash → placed id height → placed' id height)
include synced confirmed moves

theorem addToWallet_tracks :
    ∃ wallet', wallet.addToWallet tx state = .ok wallet' ∧
      Tracks known below (IsConflicted wallet'.transaction chain) placed' wallet' ∧
      wallet'.lastBlockProcessedHeight = wallet.lastBlockProcessedHeight ∧
      ¬ IsConflicted wallet'.transaction chain tx.getHash := by
  have placed_now : ∀ blockHash height index, state = .confirmed blockHash height index →
      placed' tx.getHash height :=
    fun blockHash height index now => (confirmed blockHash height index now).1
  unfold CWallet.addToWallet
  cases found : wallet.find tx.getHash with
  | none =>
    have absent : wallet.mapWallet.find? (fun wtx => wtx.tx.getHash == tx.getHash) = none := found
    have own : (CWallet.addToSpends { wallet with mapWallet := wallet.mapWallet ++ [⟨tx, state⟩] }
        tx).find tx.getHash = some ⟨tx, state⟩ := by
      simp [CWallet.find, CWallet.addToSpends, List.find?_append, absent]
    have tracks' := tracks.replace proper tx_known inside clear
      (by
        intro id other
        simp [CWallet.find, CWallet.addToSpends, List.find?_append, other.symm])
      own tx_known rfl
      (by
        intro outpoint id
        simp only [CWallet.addToSpends, mem_append, mem_map, Prod.mk.injEq]
        grind)
      rfl synced.unmarked synced.notAbandoned placed_now moves
    exact ⟨_, rfl, tracks', rfl, tracks'.not_conflicted own synced.unmarked⟩
  | some wtx =>
    have fits := tracks.fits _ _ found
    have settled : state.index = wtx.state.index → wtx.state = state := by
      intro same
      cases synced with
      | confirmed blockHash height index =>
        cases old : wtx.state <;> simp [old, TxState.index] at same
        exact absurd (fits.confirmed _ _ _ old) ((confirmed _ _ _ rfl).2 _)
      | inMempool => cases old : wtx.state <;> simp [old, TxState.index] at same ⊢
      | inactive =>
        cases old : wtx.state <;> simp [old, TxState.index] at same ⊢
        have notAbandoned := fits.notAbandoned
        simpa [old] using notAbandoned
    have passes : ¬ (state.index = wtx.state.index ∧
        ¬ (wtx.state.serializedIndex = state.serializedIndex ∧
          wtx.state.serializedBlockHash = state.serializedBlockHash)) := by
      rintro ⟨same, differs⟩
      rw [settled same] at differs
      exact differs ⟨rfl, rfl⟩
    have stored_known : known (wtx.sync tx state).tx := by
      unfold CWalletTx.sync
      split
      · exact tx_known
      · exact (tracks.owned _ _ (transaction_of_find found)).1
    have new_state : (wtx.sync tx state).state = state := by
      unfold CWalletTx.sync
      dsimp only
      split
      · rfl
      next same => exact settled (not_not.mp same)
    have own : (wallet.update tx.getHash fun wtx => wtx.sync tx state).find tx.getHash =
        some ⟨(wtx.sync tx state).tx, state⟩ := by
      rw [CWallet.find_update _ _ sync_hash, if_pos rfl, found, Option.map_some]
      exact congrArg (fun state => some (CWalletTx.mk _ state)) new_state
    have tracks' := tracks.replace proper tx_known inside clear
      (by
        intro id other
        rw [CWallet.find_update _ _ sync_hash, if_neg other])
      own stored_known (sync_hash wtx (CWallet.find_hash found))
      (by
        intro outpoint id
        refine (or_iff_left_of_imp ?_).symm
        rintro ⟨rfl, input⟩
        have own := transaction_of_find found
        obtain ⟨old_known, old_hash⟩ := tracks.owned _ _ own
        rw [← proper.inputs _ _ old_known tx_known old_hash] at input
        exact (tracks.spenders _ _).mpr ⟨_, own, input⟩)
      rfl synced.unmarked synced.notAbandoned placed_now moves
    dsimp only
    rw [if_neg passes]
    exact ⟨_, rfl, tracks', rfl, tracks'.not_conflicted own synced.unmarked⟩

variable (placed') in
theorem storeIfInvolving (around : Surroundings) :
    ∃ wallet', (if (wallet.find tx.getHash).isSome || around.involvesMe wallet tx then
        wallet.addToWallet tx state else .ok wallet) = .ok wallet' ∧
      Tracks known below (IsConflicted wallet'.transaction chain) placed' wallet' ∧
      wallet'.lastBlockProcessedHeight = wallet.lastBlockProcessedHeight ∧
      ¬ IsConflicted wallet'.transaction chain tx.getHash := by
  split
  · exact addToWallet_tracks proper tracks tx_known inside clear synced confirmed moves
  case isFalse foreign =>
  have absent : wallet.find tx.getHash = none := by
    cases found : wallet.find tx.getHash with
    | none => rfl
    | some wtx => simp [found] at foreign
  refine ⟨wallet, rfl, tracks.moved ?_, rfl, ?_⟩
  · intro id height own placed_at
    apply moves id height ?_ placed_at
    intro same
    obtain ⟨wtx, found⟩ := own
    rw [same, absent] at found
    cases found
  · intro conflict
    obtain ⟨stored, own⟩ := conflict.own
    rw [CWallet.transaction, absent] at own
    cases own

end

variable (around : Surroundings) (hash : Uint256)

def refreshed (wtx : CWalletTx) : CWalletTx :=
  if around.isInMempool hash then { wtx with state := .inMempool }
  else if wtx.state = .inMempool then { wtx with state := .inactive false }
  else wtx

omit [Crypto] in
theorem refreshed_tx (wtx : CWalletTx) : (refreshed around hash wtx).tx = wtx.tx := by
  unfold refreshed
  split
  · rfl
  · split <;> rfl

omit [Crypto] in
theorem refreshed_state (wtx : CWalletTx) : (refreshed around hash wtx).state = wtx.state ∨
    Synced (refreshed around hash wtx).state ∧ ∀ blockHash height index,
      (refreshed around hash wtx).state ≠ .confirmed blockHash height index := by
  unfold refreshed
  split
  · exact .inr ⟨.inMempool, by simp⟩
  · split
    · exact .inr ⟨.inactive, by simp⟩
    · exact .inl rfl

theorem find_refresh (id : Uint256) : (wallet.refreshMempoolStatus around hash).find id =
    if id = hash then (wallet.find id).map (refreshed around hash) else wallet.find id := by
  refine CWallet.find_update hash (refreshed around hash) ?_ id
  intro wtx own
  rw [refreshed_tx]
  exact own

theorem refresh_tracks {hash : Uint256} (proper : Proper known)
    (tracks : Tracks known below (IsConflicted wallet.transaction chain) placed wallet)
    (inside : ∀ n, ∀ tx ∈ below n, tx ∈ chain)
    (clear : ¬ IsConflicted wallet.transaction chain hash) :
    Tracks known below (IsConflicted (wallet.refreshMempoolStatus around hash).transaction chain)
      placed (wallet.refreshMempoolStatus around hash) := by
  cases found : wallet.find hash with
  | none =>
    rw [CWallet.refreshMempoolStatus, CWallet.update_absent found]
    exact tracks
  | some wtx =>
    have own := transaction_of_find found
    obtain ⟨tx_known, rfl⟩ := tracks.owned _ _ own
    have fits := tracks.fits _ _ found
    have found' : (wallet.refreshMempoolStatus around wtx.tx.getHash).find wtx.tx.getHash =
        some ⟨wtx.tx, (refreshed around wtx.tx.getHash wtx).state⟩ := by
      rw [find_refresh, if_pos rfl, found, Option.map_some]
      exact congrArg (fun tx => some (CWalletTx.mk tx _)) (refreshed_tx around _ wtx)
    refine tracks.replace proper tx_known inside (fun contested => clear (contested.isConflicted own))
      ?_ found' tx_known rfl ?_ rfl ?_ ?_ ?_ (fun _ _ _ placed_at => placed_at)
    · intro id other
      rw [find_refresh, if_neg other]
    · intro outpoint id
      refine (or_iff_left_of_imp ?_).symm
      rintro ⟨rfl, input⟩
      exact (tracks.spenders _ _).mpr ⟨_, own, input⟩
    all_goals rcases refreshed_state around wtx.tx.getHash wtx with same | ⟨synced, unconfirmed⟩
    · rw [same]
      exact fun blockHash height marked => clear (fits.conflicted.mp ⟨blockHash, height, marked⟩)
    · exact synced.unmarked
    · rw [same]
      exact fits.notAbandoned
    · exact synced.notAbandoned
    · rw [same]
      exact fits.confirmed
    · exact fun blockHash height index now => absurd now (unconfirmed blockHash height index)

theorem refresh_transaction :
    (wallet.refreshMempoolStatus around hash).transaction = wallet.transaction := by
  funext id
  unfold CWallet.transaction
  rw [find_refresh]
  split
  · rw [Option.map_map]
    exact congrArg (Option.map · _) (funext (refreshed_tx around hash))
  · rfl

end Qogecoin.Wallet
