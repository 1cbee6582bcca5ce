import Qogecoin.Validation.ConnectBlock

/-! What `ConnectBlock` has done to the coins when it succeeds: one change for each transaction,
described by the undo data it returns. -/
namespace Qogecoin.Validation

open Codec Commands Coins Consensus Script Ledger List Program CoinsState Result

theorem connectInputs_wp (params : Params) (pindex : Chain) (nFees : Int64) (tx : CTransaction)
    (s : CoinsState) (inRange : InRange s) (fees : MoneyRange nFees)
    (spending : tx.isCoinBase = false) :
    (connectInputs params pindex nFees tx).wp (spec known)
      (fun nFees' t => t = s ∧ MoneyRange nFees' ∧ ∃ spent, Spends s.coins tx.vin spent ∧
        nFees'.toInt = nFees.toInt + (coinsValue spent - valueOut tx.vout)) noOverflow s := by
  rw [connectInputs, if_neg (by simp [spending]), wp_bind, wp_adapt]
  apply wp_consequence (checkTxInputs_wp tx pindex.nHeight inRange spending)
  intro txfee t result
  obtain ⟨rfl, feeRange, spent, spends, fee⟩ := result
  have bounds := (moneyRange_iff txfee).mp feeRange
  rw [wp_bind, wp_lift]
  apply (addAmount_sat fees bounds.1 (by omega)).imp ?_
  intro sum added
  rw [wp_bind, wp_rejectIf]
  refine ⟨fun _ => trivial, fun passed => ?_⟩
  refine (readOnly_of_within (prevHeights_within tx.vin)).wp_bind fun heights => ?_
  rw [wp_bind, wp_lift]
  apply (sequenceLocks_sat tx _ heights pindex).imp ?_
  intro final _
  rw [wp_bind, wp_rejectIf]
  refine ⟨fun _ => trivial, fun _ => ?_⟩
  exact ⟨rfl, not_not.mp passed, spent, spends, by rw [added.2, fee]⟩

theorem refuseOverwrite_wp (outpoints : List COutPoint) (s : CoinsState) :
    (refuseOverwrite outpoints).wp (spec known)
      (fun _ t => t = s ∧ ∀ o ∈ outpoints, s.coins o = none) noOverflow s := by
  induction outpoints with
  | nil => exact ⟨rfl, by simp⟩
  | cons outpoint rest ih =>
    rw [refuseOverwrite, wp_bind, wp_haveCoin, wp_bind, wp_rejectIf]
    refine ⟨fun _ => trivial, fun missing => ?_⟩
    apply wp_consequence ih
    intro _ t result
    obtain ⟨same, absent⟩ := result
    refine ⟨same, ?_⟩
    intro o member
    rcases mem_cons.mp member with rfl | later
    · simpa using missing
    · exact absent o later

theorem checkReward_sat (params : Params) (pindex : Chain) (block : CBlock) (nFees : Int64)
    (nonempty : pindex ≠ []) (fees : MoneyRange nFees) :
    (checkReward params pindex block nFees).Sat
      (fun _ => ∀ coinbase rest, block.vtx = coinbase :: rest → valueOut coinbase.vout ≤
        nFees.toInt + (getBlockSubsidy pindex.nHeight params).toInt) noOverflow := by
  have subsidy := getBlockSubsidy_range params pindex nonempty
  rw [checkReward, sat_bind]
  apply (addAmount_sat fees subsidy.1 (by omega)).imp ?_
  intro blockReward reward
  split
  · simp
  rename_i coinbase rest whole
  rw [sat_bind]
  apply (getValueOut_sat coinbase (by simp)).imp ?_
  intro nValueOut value
  rw [sat_rejectIf]
  constructor
  · exact fun _ => trivial
  · intro enough coinbase' rest' same
    rw [whole] at same
    cases same
    have order := Int64.not_lt.mp enough
    rw [Int64.le_iff_toInt_le, value.1, reward.2] at order
    exact order

theorem height_newCoin {nHeight : Int} (positive : 0 ≤ nHeight) (fits : nHeight < 2 ^ 31)
    (out : CTxOut) (fCoinbase : Bool) : ((newCoin out nHeight fCoinbase).nHeight.toNat : Int) = nHeight := by
  rw [newCoin, BitVec.toNat_ofInt]
  omega

variable [Crypto]

def totalFees (vtx : List CTransaction) (vtxundo : List CTxUndo) : Int :=
  ((vtx.zip vtxundo).map fun p => coinsValue p.2.vprevout - valueOut p.1.vout).sum

def changes (nHeight : Int) (vtx : List CTransaction) (vtxundo : List CTxUndo) :
    List (Change COutPoint Coin) :=
  (vtx.zip vtxundo).map fun p => txChange nHeight p.1 p.2

def blockChanges (nHeight : Int) (block : CBlock) (blockundo : CBlockUndo) :
    List (Change COutPoint Coin) :=
  changes nHeight block.vtx (⟨[]⟩ :: blockundo.vtxundo)

theorem blockChanges_eq (nHeight : Int) {block : CBlock} (blockundo : CBlockUndo)
    {coinbase : CTransaction} {rest : List CTransaction} (whole : block.vtx = coinbase :: rest) :
    blockChanges nHeight block blockundo =
      txChange nHeight coinbase ⟨[]⟩ :: changes nHeight rest blockundo.vtxundo := by
  rw [blockChanges, whole]
  rfl

def Undoes (vtx : List CTransaction) (vtxundo : List CTxUndo) : Prop :=
  Forall₂ (fun tx txundo => txundo.vprevout.length = tx.vin.length) vtx vtxundo

variable {known : Set COutPoint}

variable (env : Environment) {tx : CTransaction}

theorem readOnly_connectScripts (flags : Flags) (tx : CTransaction) :
    ReadOnly (connectScripts env flags tx) := by
  apply readOnly_of_within
  unfold connectScripts
  split
  · exact .pure _
  · have scripts := checkInputScripts_within env.caches tx flags .empty env.parallelScriptChecks
    exact .bind (scripts.adapt (fun _ _ => trivial) fun _ h => h) fun _ => .pure _

theorem connectTransaction_coinbase (pindex : Chain) (flags : Flags) (acc : Connecting)
    (tx : CTransaction) (s : CoinsState) (formed : TxWellFormed tx)
    (coinbase : tx.isCoinBase = true) :
    (connectTransaction env pindex flags 0 acc tx).wp (spec known)
      (fun acc' t => acc'.nFees = acc.nFees ∧ acc'.blockundo = acc.blockundo ∧
        t = s.after (txChange pindex.nHeight tx ⟨[]⟩).forward) noOverflow s := by
  rw [connectTransaction, wp_bind, connectInputs, if_pos coinbase, wp_pure]
  refine (readOnly_of_within (getTransactionSigOpCost_within tx flags)).wp_bind fun cost => ?_
  rw [wp_bind, wp_rejectIf]
  refine ⟨fun _ => trivial, fun _ => ?_⟩
  refine (readOnly_connectScripts env flags tx).wp_bind fun vChecks => ?_
  rw [wp_bind]
  apply wp_consequence (updateCoins_coinbase tx pindex.nHeight s formed coinbase)
  intro txundo v result
  exact ⟨rfl, rfl, result.2⟩

theorem connectTransaction_spending (pindex : Chain) (flags : Flags) (i : Nat) (acc : Connecting)
    (tx : CTransaction) (s : CoinsState) (later : 0 < i) (formed : TxWellFormed tx)
    (spending : tx.isCoinBase = false) (inRange : InRange s)
    (fees : MoneyRange acc.nFees) (inKnown : ∀ o ∈ outPoints tx, o ∈ known) :
    (connectTransaction env pindex flags i acc tx).wp (spec known)
      (fun acc' t => MoneyRange acc'.nFees ∧ ∃ txundo : CTxUndo,
        acc'.blockundo.vtxundo = acc.blockundo.vtxundo ++ [txundo] ∧
        txundo.vprevout.length = tx.vin.length ∧
        acc'.nFees.toInt =
          acc.nFees.toInt + (coinsValue txundo.vprevout - valueOut tx.vout) ∧
        t = s.after (txChange pindex.nHeight tx txundo).forward ∧
        (txChange pindex.nHeight tx txundo).Fits s.coins) noOverflow s := by
  rw [connectTransaction, wp_bind]
  apply wp_consequence
    (connectInputs_wp env.params pindex acc.nFees tx s inRange fees spending)
  intro nFees t result
  obtain ⟨rfl, feesRange, spent, spends, sum⟩ := result
  refine (readOnly_of_within (getTransactionSigOpCost_within tx flags)).wp_bind fun cost => ?_
  rw [wp_bind, wp_rejectIf]
  refine ⟨fun _ => trivial, fun _ => ?_⟩
  refine (readOnly_connectScripts env flags tx).wp_bind fun vChecks => ?_
  rw [wp_bind]
  apply wp_consequence (updateCoins_spending tx pindex.nHeight t spent formed spending
    spends (by simp) (by
      intro j small
      exact inKnown _ (mem_map.mpr ⟨j, mem_range.mpr small, rfl⟩)))
  intro txundo w result
  obtain ⟨rfl, effect, fits⟩ := result
  have lengths := Forall₂.length_eq spends
  exact ⟨feesRange, ⟨spent⟩, by simp [later], lengths.symm, sum, effect, fits⟩

theorem inRange_after {s : CoinsState} (inRange : InRange s) (formed : TxWellFormed tx)
    (nHeight : Int) (txundo : CTxUndo) :
    InRange (s.after (txChange nHeight tx txundo).forward) := by
  intro o coin found
  rcases Change.mem_forward found with old | new
  · exact inRange o coin old
  · obtain ⟨_, out, member, _, made⟩ := mem_created new
    simp only at made
    rw [made]
    exact formed.outputs out member

theorem connectTransactions_wp (pindex : Chain) (flags : Flags) (i : Nat) (acc : Connecting)
    (vtx : List CTransaction) (s : CoinsState) (later : 0 < i)
    (formed : ∀ tx ∈ vtx, TxWellFormed tx) (spending : ∀ tx ∈ vtx, tx.isCoinBase = false)
    (inRange : InRange s) (fees : MoneyRange acc.nFees)
    (inKnown : ∀ o ∈ vtx.flatMap outPoints, o ∈ known) :
    (connectTransactions env pindex flags i acc vtx).wp (spec known)
      (fun acc' t => MoneyRange acc'.nFees ∧ ∃ vtxundo,
        acc'.blockundo.vtxundo = acc.blockundo.vtxundo ++ vtxundo ∧ Undoes vtx vtxundo ∧
        acc'.nFees.toInt = acc.nFees.toInt + totalFees vtx vtxundo ∧
        t = s.after (forwards (changes pindex.nHeight vtx vtxundo)) ∧
        FitsAll (changes pindex.nHeight vtx vtxundo) s.coins) noOverflow s := by
  induction vtx generalizing i acc s with
  | nil => exact ⟨fees, [], by simp, .nil, by simp [totalFees], rfl, trivial⟩
  | cons tx vtx ih =>
    rw [connectTransactions, wp_bind]
    apply wp_consequence (connectTransaction_spending env pindex flags i acc tx s later
      (formed tx (by simp)) (spending tx (by simp)) inRange fees
      (fun o member => inKnown o (by simp [member])))
    intro acc' t result
    obtain ⟨range, txundo, undo, length, sum, rfl, fits⟩ := result
    apply wp_consequence (ih (i + 1) acc' _ (by omega)
      (fun tx' member => formed tx' (by simp [member]))
      (fun tx' member => spending tx' (by simp [member]))
      (inRange_after inRange (formed tx (by simp)) pindex.nHeight txundo) range
      (fun o member => inKnown o (by rw [flatMap_cons]; simp [member])))
    intro final u result
    obtain ⟨range', vtxundo, undo', lengths, sum', effect, fitsRest⟩ := result
    refine ⟨range', txundo :: vtxundo, ?_, .cons length lengths, ?_, ?_, fits, fitsRest⟩
    · rw [undo', undo, append_assoc, singleton_append]
    · rw [sum', sum]
      simp only [totalFees, zip_cons_cons, map_cons, sum_cons]
      omega
    · rw [effect, ← after_append]
      rfl

theorem checkBIP30_wp (params : Params) (pindex : Chain) (block : CBlock) (s : CoinsState) :
    (checkBIP30 params pindex block).wp (spec known)
      (fun _ t => t = s ∧ (enforceBIP30 params pindex = true →
        ∀ o ∈ block.vtx.flatMap outPoints, s.coins o = none)) noOverflow s := by
  rw [checkBIP30]
  split_ifs with unchecked
  · apply wp_consequence (refuseOverwrite_wp _ s)
    intro _ t result
    exact ⟨result.1, fun _ => result.2⟩
  · exact ⟨rfl, fun enforced => absurd enforced unchecked⟩

theorem waitChecks_sat (checks : List (CScriptCheck Unit)) :
    (waitChecks checks).Sat (fun _ => True) noOverflow := by
  induction checks with
  | nil => trivial
  | cons check checks ih =>
    rw [waitChecks, sat_bind, sat_adapt]
    exact (runCheck_sat check).mono (fun _ _ => ih) (fun _ _ => trivial) (fun _ h => h)

structure Connected (params : Params) (block : CBlock) (pindex : Chain) (blockundo : CBlockUndo)
    (s t : CoinsState) : Prop where
  formed : BlockWellFormed block
  parent : pindex.pprev ≠ []
  best : pindex.pprev.getBlockHash = s.bestBlock
  undoes : Undoes block.vtx.tail blockundo.vtxundo
  effect : t = (s.after (forwards (blockChanges pindex.nHeight block blockundo))).setBestBlock
    pindex.getBlockHash
  fits : enforceBIP30 params pindex = true →
    FitsAll (blockChanges pindex.nHeight block blockundo) s.coins
  /-- Only the coinbase may replace coins, if nothing enforces BIP30. -/
  fitsRest : ∀ coinbase rest, block.vtx = coinbase :: rest →
    FitsAll (changes pindex.nHeight rest blockundo.vtxundo)
      (s.after (txChange pindex.nHeight coinbase ⟨[]⟩).forward).coins
  reward : ∀ coinbase rest, block.vtx = coinbase :: rest → valueOut coinbase.vout ≤
    totalFees rest blockundo.vtxundo + (getBlockSubsidy pindex.nHeight params).toInt

/-- The outpoints at which a block may add coins are known: all are, or BIP30 is enforced and those
without a coin are. -/
def Guarded (known : Set COutPoint) (params : Params) (pindex : Chain) (s : CoinsState) : Prop :=
  (∀ o, o ∈ known) ∨ enforceBIP30 params pindex = true ∧ ∀ o, s.coins o = none → o ∈ known

theorem fits_coinbase {coins : FlatMap} (formed : TxWellFormed tx) (nHeight : Int)
    (absent : ∀ o ∈ outPoints tx, coins o = none) :
    (txChange nHeight tx ⟨[]⟩).Fits coins where
  spentOnce := by simp [txChange]
  present := by simp [txChange]
  createdOnce := by
    have count := formed.count_le
    exact created_nodup _ _ _ _ _ (by omega)
  absent := by
    intro e member
    obtain ⟨⟨j, _, high, key⟩, _⟩ := mem_created member
    simp only [txChange, zip_nil_right, removals, map_nil, Updates.apply_nil]
    apply absent
    rw [key]
    exact mem_map.mpr ⟨j, mem_range.mpr (by omega), rfl⟩

theorem connectChecked_wp (block : CBlock) (pindex : Chain) (s : CoinsState)
    (formed : BlockWellFormed block) (nonempty : pindex ≠ [])
    (best : pindex.pprev.getBlockHash = s.bestBlock) (inRange : InRange s)
    (guarded : Guarded known env.params pindex s) :
    (connectChecked env block pindex false).wp (spec known)
      (fun undo t => ∃ blockundo, undo = some blockundo ∧
        Connected env.params block pindex blockundo s t) noOverflow s := by
  obtain ⟨coinbase, rest, whole, isCoinBase, spending⟩ := formed.coinbase
  have first : TxWellFormed coinbase := formed.transactions coinbase (by simp [whole])
  have others : ∀ tx ∈ rest, TxWellFormed tx := by
    intro tx member
    exact formed.transactions tx (by simp [whole, member])
  rw [connectChecked, wp_bind, wp_assertThat]
  refine ⟨fun _ => by simp, fun parent => ?_⟩
  rw [wp_bind]
  apply wp_consequence (checkBIP30_wp env.params pindex block s)
  intro _ t result
  obtain ⟨rfl, unspent⟩ := result
  have inKnown : ∀ o ∈ block.vtx.flatMap outPoints, o ∈ known := by
    intro o member
    rcases guarded with all | ⟨enforced, absent⟩
    · exact all o
    · exact absent o (unspent enforced o member)
  rw [whole, flatMap_cons] at inKnown
  simp only [wp_bind, whole, connectTransactions]
  apply wp_consequence
    (connectTransaction_coinbase env pindex _ .start coinbase t first isCoinBase)
  intro acc u result
  obtain ⟨noFees, noUndo, rfl⟩ := result
  have zero : MoneyRange acc.nFees := by
    rw [noFees]
    decide
  apply wp_consequence (connectTransactions_wp env pindex _ 1 acc rest _ (by omega) others
    spending (inRange_after inRange first pindex.nHeight ⟨[]⟩) zero
    (fun o member => inKnown o (mem_append_right _ member)))
  intro final v result
  obtain ⟨range, vtxundo, undo, lengths, sum, effect, fitsRest⟩ := result
  rw [noUndo] at undo
  rw [noFees] at sum
  rw [wp_lift]
  apply (checkReward_sat env.params pindex block final.nFees nonempty range).mono ?_
    (fun _ h => h) (fun _ h => h)
  intro _ reward
  rw [wp_lift]
  apply (waitChecks_sat final.control).imp ?_
  intro _ _
  have data : final.blockundo.vtxundo = vtxundo := undo
  have split := blockChanges_eq pindex.nHeight final.blockundo whole
  rw [data] at split
  refine ⟨final.blockundo, rfl, ?_⟩
  exact {
    formed
    parent
    best
    undoes := by
      rw [whole, data]
      exact lengths
    effect := by
      rw [split, effect, ← after_append]
      rfl
    fits := by
      intro enforced
      rw [split]
      refine ⟨fits_coinbase first pindex.nHeight ?_, fitsRest⟩
      intro o member
      exact unspent enforced o (by rw [whole, flatMap_cons]; simp [member])
    fitsRest := by
      intro coinbase' rest' same
      rw [whole] at same
      cases same
      rw [data]
      exact fitsRest
    reward := by
      intro coinbase' rest' same
      have paid := reward coinbase' rest' same
      rw [whole] at same
      cases same
      have start : Connecting.start.nFees.toInt = 0 := rfl
      rw [sum, start, zero_add, ← data] at paid
      exact paid }

/-- `ConnectBlock` either is at the genesis block, of which it only takes the hash, or makes the
changes of the block. Its amounts never overflow. -/
theorem connectBlock_wp (block : CBlock) (pindex : Chain) (s : CoinsState)
    (inRange : InRange s) (guarded : Guarded known env.params pindex s) :
    (connectBlock env block pindex false).wp (spec known)
      (fun undo t =>
        (undo = none ∧ block.getHash = env.params.hashGenesisBlock ∧
          t = s.setBestBlock pindex.getBlockHash) ∨
        ∃ blockundo, undo = some blockundo ∧
          Connected env.params block pindex blockundo s t) noOverflow s := by
  rw [connectBlock, wp_bind, wp_assertThat]
  refine ⟨fun _ => by simp, fun nonempty => ?_⟩
  rw [wp_bind, wp_assertThat]
  refine ⟨fun _ => by simp, fun _ => ?_⟩
  rw [wp_bind, wp_lift, checkAgain, sat_adapt]
  apply (checkBlock_sat block env.params env.signetSolution true true).mono ?_
    (fun _ _ => trivial) (fun _ impossible => impossible.elim)
  intro _ formed
  rw [wp_bind, wp_getBestBlock, wp_bind, wp_assertThat]
  refine ⟨fun _ => by simp, fun best => ?_⟩
  rw [wp_ite]
  constructor
  · intro genesis
    exact .inl ⟨rfl, genesis, rfl⟩
  · intro _
    apply wp_consequence
      (connectChecked_wp env block pindex s formed nonempty best inRange guarded)
    exact fun undo t connected => .inr connected

structure ValidCoin (coin : Coin) : Prop where
  range : MoneyRange coin.out.nValue
  spendable : isUnspendable coin.out.scriptPubKey = false
  height : coin.nHeight ≠ 0

def ValidCoins (coins : FlatMap) : Prop := ∀ o coin, coins o = some coin → ValidCoin coin

theorem validCoin_created {nHeight : Int} (positive : 0 < nHeight) (fits : nHeight < 2 ^ 31)
    (formed : TxWellFormed tx) (txundo : CTxUndo) :
    ∀ e ∈ (txChange nHeight tx txundo).created, ValidCoin e.2 := by
  intro e member
  obtain ⟨_, out, inside, spendable, made⟩ := mem_created member
  rw [made]
  refine ⟨formed.outputs out inside, spendable, ?_⟩
  intro zero
  have height := height_newCoin (le_of_lt positive) fits out tx.isCoinBase
  rw [zero] at height
  simp at height
  omega

omit [Crypto] in
theorem Undoes.spent {vtx : List CTransaction} {vtxundo : List CTxUndo}
    (undoes : Undoes vtx vtxundo) {txundo : CTxUndo} (member : txundo ∈ vtxundo) {coin : Coin}
    (inside : coin ∈ txundo.vprevout) :
    ∃ tx, (tx, txundo) ∈ vtx.zip vtxundo ∧
      ∃ o, (o, coin) ∈ (tx.vin.map CTxIn.prevout).zip txundo.vprevout := by
  obtain ⟨lengths, each⟩ := forall₂_iff_zip.mp undoes
  have all : (vtx.zip vtxundo).map Prod.snd = vtxundo := map_snd_zip (by omega)
  rw [← all] at member
  obtain ⟨⟨tx, txundo⟩, pair, rfl⟩ := mem_map.mp member
  have inputs := each pair
  have coins : ((tx.vin.map CTxIn.prevout).zip txundo.vprevout).map Prod.snd = txundo.vprevout :=
    map_snd_zip (by simp [inputs])
  rw [← coins] at inside
  obtain ⟨⟨o, _⟩, entry, rfl⟩ := mem_map.mp inside
  exact ⟨tx, pair, o, entry⟩

variable {params : Params} {block : CBlock} {pindex : Chain} {blockundo : CBlockUndo}
  {s t : CoinsState}

theorem Connected.valid (connected : Connected params block pindex blockundo s t)
    (enforced : enforceBIP30 params pindex = true) (height : pindex.nHeight < 2 ^ 31)
    (valid : ValidCoins s.coins) :
    (∀ txundo ∈ blockundo.vtxundo, ∀ coin ∈ txundo.vprevout, ValidCoin coin) ∧
      ValidCoins t.coins := by
  have made : ∀ change ∈ blockChanges pindex.nHeight block blockundo,
      ∀ e ∈ change.created, ValidCoin e.2 := by
    intro change member
    obtain ⟨⟨tx, txundo⟩, pair, rfl⟩ := mem_map.mp member
    have formed := connected.formed.transactions tx (of_mem_zip pair).1
    exact validCoin_created (Chain.nHeight_pos connected.parent) height formed txundo
  obtain ⟨spent, final⟩ := (connected.fits enforced).invariant valid made
  constructor
  · intro txundo member coin inside
    obtain ⟨coinbase, rest, whole, _⟩ := connected.formed.coinbase
    have undoes := connected.undoes
    rw [whole] at undoes
    obtain ⟨tx, pair, o, entry⟩ := undoes.spent member inside
    rw [blockChanges_eq pindex.nHeight blockundo whole] at spent
    apply spent (txChange pindex.nHeight tx txundo) _ (o, coin) entry
    exact mem_cons_of_mem _ (mem_map.mpr ⟨(tx, txundo), pair, rfl⟩)
  · rw [connected.effect]
    exact final

/-- A block that `ConnectBlock` has connected to a view of valid coins, with BIP30 enforced. An
outpoint without a coin is known: its coin will be in the top cache if it gets one. -/
theorem connected_of_run {view view' : View} (block : CBlock) (sound : view.Sound)
    (valid : ValidCoins view.shown) (enforced : enforceBIP30 env.params pindex = true)
    (connects : (connectBlock env block pindex false).run View.handle view = .returned (some
      blockundo, view')) :
    ∃ t, view'.Shows (∅ ∪ {o | view.shown o = none}) t ∧
      Connected env.params block pindex blockundo view.state t := by
  have shows : view.Shows (∅ ∪ {o | view.shown o = none}) view.state :=
    (View.shows_state view sound).extend fun _ absent => absent
  have inRange : InRange view.state := fun o coin found => (valid o coin found).range
  have guarded : Guarded (∅ ∪ {o | view.shown o = none}) env.params pindex view.state :=
    .inr ⟨enforced, fun _ absent => .inr absent⟩
  obtain ⟨t, shows', made⟩ := post_of_run (View.handle_refines _) shows
    (connectBlock_wp env block pindex view.state inRange guarded) connects
  rcases made with ⟨absent, _⟩ | ⟨undo, same, connected⟩
  · cases absent
  · cases same
    exact ⟨t, shows', connected⟩

end Qogecoin.Validation
