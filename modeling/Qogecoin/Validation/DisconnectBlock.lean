import Qogecoin.Validation.Connected

/-! `DisconnectBlock`: taking a block back with its undo data. On the coins it left this restores
the coins it found; on any other coins it still makes the changes in the other direction. -/
namespace Qogecoin.Validation

open Codec Commands Coins Consensus Ledger List Program CTxIn CoinsState View

/-- Where `DISCONNECT_FAILED` is returned; the view is then of no use. -/
inductive DisconnectFailure where
  | undoUnreadable
  | blockInconsistent
  | transactionInconsistent
  | metadataUnknown
deriving DecidableEq, Repr

inductive DisconnectResult where
  | ok
  | unclean
deriving DecidableEq, Repr

def maxOutputsPerBlock : Nat :=
  maxBlockWeight / (witnessScaleFactor * CTxOut.null.serialize.length)

def accessFrom {ε : Type} (txid : Uint256) : (left n : Nat) → CoinsM ε Coin
  | 0, _ => pure Coin.empty
  | left + 1, n => do
    let alternate ← accessCoin ⟨txid, .ofNat n⟩
    if alternate.isSpent = false then pure alternate else accessFrom txid left (n + 1)

def accessByTxid {ε : Type} (txid : Uint256) : CoinsM ε Coin := accessFrom txid maxOutputsPerBlock 0

/-- Old undo data lacks the height and the coinbase flag of some coins; another output of the same
transaction has them. -/
def completeUndo (undo : Coin) (out : COutPoint) : CoinsM DisconnectFailure Coin :=
  if undo.nHeight = 0 then do
    let alternate ← accessByTxid out.hash
    rejectIf (alternate.isSpent = true) .metadataUnknown
    pure { undo with nHeight := alternate.nHeight, fCoinBase := alternate.fCoinBase }
  else pure undo

def applyTxInUndo (undo : Coin) (out : COutPoint) : CoinsM DisconnectFailure Bool := do
  let taken ← haveCoin out
  let undo ← completeUndo undo out
  addCoin out undo taken
  pure !taken

/-- Take back the outputs from `o` on, and see whether they are as the block has them. -/
def removeOutputs (hash : Uint256) (nHeight : Int) (isCoinbase : Bool) :
    (o : Nat) → List CTxOut → CoinsM DisconnectFailure Bool
  | _, [] => pure true
  | o, out :: vout =>
    if isUnspendable out.scriptPubKey then removeOutputs hash nHeight isCoinbase (o + 1) vout
    else do
      let (isSpent, coin) ← spendCoin ⟨hash, .ofNat o⟩
      let rest ← removeOutputs hash nHeight isCoinbase (o + 1) vout
      pure (isSpent && out == coin.out && nHeight == coin.nHeight.toNat
        && isCoinbase == coin.fCoinBase && rest)

def restoreInputs : List (CTxIn × Coin) → CoinsM DisconnectFailure Bool
  | [] => pure true
  | (txin, undo) :: inputs => do
    let clean ← applyTxInUndo undo txin.prevout
    let rest ← restoreInputs inputs
    pure (clean && rest)

def restoreTransaction (tx : CTransaction) : Option CTxUndo → CoinsM DisconnectFailure Bool
  | none => pure true
  | some txundo => do
    rejectIf (txundo.vprevout.length ≠ tx.vin.length) .transactionInconsistent
    restoreInputs (tx.vin.zip txundo.vprevout).reverse

def withUndo (block : CBlock) (blockUndo : CBlockUndo) : List (CTransaction × Option CTxUndo) :=
  block.vtx.zip (none :: blockUndo.vtxundo.map some)

section

variable [Crypto]

def disconnectTransactions (nHeight : Int) :
    List (CTransaction × Option CTxUndo) → CoinsM DisconnectFailure Bool
  | [] => pure true
  | (tx, txundo) :: vtx => do
    let outputs ← removeOutputs tx.getHash nHeight tx.isCoinBase 0 tx.vout
    let inputs ← restoreTransaction tx txundo
    let rest ← disconnectTransactions nHeight vtx
    pure (outputs && inputs && rest)

/-- `DisconnectBlock` with the bytes at the undo position of the block, if it has one. -/
def disconnectBlock (undoFile : Option Bytes) (block : CBlock) (pindex : Chain) :
    CoinsM DisconnectFailure DisconnectResult :=
  match undoFile.bind fun file => undoReadFromDisk file pindex.pprev.getBlockHash with
  | none => lift (.rejected .undoUnreadable)
  | some blockUndo => do
    rejectIf (blockUndo.vtxundo.length + 1 ≠ block.vtx.length) .blockInconsistent
    let fClean ← disconnectTransactions pindex.nHeight
      (withUndo block blockUndo).reverse
    assertThat (pindex.pprev ≠ []) .nullPointer
    setBestBlock pindex.pprev.getBlockHash
    pure (if fClean then .ok else .unclean)

end

section

variable {known : Set COutPoint}

variable (nHeight : Int)

theorem removeOutputs_wp (hash : Uint256) (nHeight : Int) (isCoinbase : Bool) (o : Nat)
    (vout : List CTxOut) (s : CoinsState) (positive : 0 ≤ nHeight) (height : nHeight < 2 ^ 31) :
    (removeOutputs hash nHeight isCoinbase o vout).wp (spec known)
      (fun clean t => t = s.after (removals (created hash nHeight isCoinbase o vout)) ∧
        (((created hash nHeight isCoinbase o vout).map Prod.fst).Nodup →
          (∀ e ∈ created hash nHeight isCoinbase o vout, s.coins e.1 = some e.2) →
          clean = true)) .never s := by
  induction vout generalizing o s with
  | nil => exact ⟨rfl, fun _ _ => rfl⟩
  | cons out vout ih =>
    rw [removeOutputs]
    split
    next unspendable =>
      have skipped : created hash nHeight isCoinbase o (out :: vout) =
          created hash nHeight isCoinbase (o + 1) vout := if_pos unspendable
      rw [skipped]
      exact ih (o + 1) s
    next spendable =>
      have kept : created hash nHeight isCoinbase o (out :: vout) =
          (⟨hash, .ofNat o⟩, newCoin out nHeight isCoinbase)
            :: created hash nHeight isCoinbase (o + 1) vout := if_neg spendable
      rw [kept, wp_bind, wp_spendCoin]
      intro noticed sure
      simp only [wp_bind]
      apply wp_consequence (ih (o + 1) _)
      intro rest t result
      obtain ⟨effect, clean⟩ := result
      refine ⟨effect, ?_⟩
      intro once present
      rw [map_cons, nodup_cons] at once
      have here := present _ mem_cons_self
      have others := clean once.2 (by
        intro e member
        have found := present e (mem_cons_of_mem _ member)
        rwa [coins_write, Function.update_of_ne]
        intro same
        exact once.1 (mem_map.mpr ⟨e, member, same⟩))
      rw [here] at sure
      rw [here, sure rfl, others, Option.getD_some, height_newCoin positive height]
      simp [newCoin]

theorem applyTxInUndo_wp (undo : Coin) (out : COutPoint) (s : CoinsState) (valid : ValidCoin undo) :
    (applyTxInUndo undo out).wp (spec known)
      (fun clean t => t = s.write out (some undo) ∧ (s.coins out = none → clean = true))
      .never s := by
  rw [applyTxInUndo, wp_bind, wp_haveCoin, completeUndo, if_neg valid.height]
  apply addCoin_wp (isSpent_of_moneyRange valid.range)
  · intro untaken present
    rw [present] at untaken
    cases untaken
  · intro unspendable
    rw [valid.spendable] at unspendable
    cases unspendable
  · intro _ _
    exact ⟨rfl, by simp⟩

def undoEntries (inputs : List (CTxIn × Coin)) : List (COutPoint × Coin) :=
  inputs.map fun input => (input.1.prevout, input.2)

theorem restoreInputs_wp (inputs : List (CTxIn × Coin)) (s : CoinsState)
    (valid : ∀ input ∈ inputs, ValidCoin input.2) :
    (restoreInputs inputs).wp (spec known)
      (fun clean t => t = s.after (additions (undoEntries inputs)) ∧
        (((undoEntries inputs).map Prod.fst).Nodup →
          (∀ e ∈ undoEntries inputs, s.coins e.1 = none) → clean = true)) .never s := by
  induction inputs generalizing s with
  | nil => exact ⟨rfl, fun _ _ => rfl⟩
  | cons input inputs ih =>
    obtain ⟨txin, undo⟩ := input
    rw [restoreInputs, wp_bind]
    apply wp_consequence
      (applyTxInUndo_wp undo txin.prevout s (valid (txin, undo) (by simp)))
    intro clean t result
    obtain ⟨rfl, first⟩ := result
    rw [wp_bind]
    apply wp_consequence (ih _ fun input member => valid input (by simp [member]))
    intro rest t result
    obtain ⟨effect, others⟩ := result
    refine ⟨effect, ?_⟩
    intro once absent
    have split : undoEntries ((txin, undo) :: inputs) =
        (txin.prevout, undo) :: undoEntries inputs := rfl
    rw [split] at once absent
    rw [map_cons, nodup_cons] at once
    have later := others once.2 (by
      intro e member
      rw [coins_write, Function.update_of_ne]
      · exact absent e (mem_cons_of_mem _ member)
      · intro same
        exact once.1 (mem_map.mpr ⟨e, member, same⟩))
    rw [first (absent (txin.prevout, undo) mem_cons_self), later]
    rfl

variable [Crypto]

def undoChange (nHeight : Int) (p : CTransaction × Option CTxUndo) : Change COutPoint Coin :=
  txChange nHeight p.1 (p.2.getD ⟨[]⟩)

theorem restoreTransaction_wp (tx : CTransaction) (txundo : Option CTxUndo) (s : CoinsState)
    (sizes : ∀ undo ∈ txundo, undo.vprevout.length = tx.vin.length ∧ ∀ coin ∈ undo.vprevout,
      ValidCoin coin) :
    (restoreTransaction tx txundo).wp (spec known)
      (fun clean t => t = s.after (additions (undoChange nHeight (tx, txundo)).spent.reverse) ∧
        (((undoChange nHeight (tx, txundo)).spent.map Prod.fst).Nodup →
          (∀ e ∈ (undoChange nHeight (tx, txundo)).spent, s.coins e.1 = none) → clean = true))
      .never s := by
  cases txundo with
  | none =>
    have nothing : (undoChange nHeight (tx, none)).spent = [] := by simp [undoChange, txChange]
    rw [nothing]
    exact ⟨rfl, fun _ _ => rfl⟩
  | some txundo =>
    obtain ⟨length, valid⟩ := sizes txundo rfl
    rw [restoreTransaction, wp_bind, wp_rejectIf]
    have entries : undoEntries (tx.vin.zip txundo.vprevout).reverse =
        (undoChange nHeight (tx, some txundo)).spent.reverse := by
      rw [undoEntries, map_reverse, undoChange, txChange, zip_map_left]
      rfl
    constructor
    · exact fun mismatch => absurd length mismatch
    · intro _
      apply wp_consequence (restoreInputs_wp (tx.vin.zip txundo.vprevout).reverse s (by
        intro input member
        exact valid _ (of_mem_zip (mem_reverse.mp member)).2))
      intro clean t result
      rw [entries] at result
      refine ⟨result.1, ?_⟩
      intro once absent
      apply result.2
      · rw [map_reverse]
        exact nodup_reverse.mpr once
      · intro e member
        exact absent e (mem_reverse.mp member)

theorem disconnectTransactions_wp (vtx : List (CTransaction × Option CTxUndo)) (s : CoinsState)
    (positive : 0 ≤ nHeight) (height : nHeight < 2 ^ 31)
    (sizes : ∀ p ∈ vtx, ∀ undo ∈ p.2, undo.vprevout.length = p.1.vin.length ∧ ∀ coin ∈
      undo.vprevout, ValidCoin coin) :
    (disconnectTransactions nHeight vtx).wp (spec known)
      (fun clean t => t = s.after ((vtx.map (undoChange nHeight)).flatMap Change.backward) ∧
        (UnfitsAll (vtx.map (undoChange nHeight)) s.coins → clean = true)) .never s := by
  induction vtx generalizing s with
  | nil => exact ⟨rfl, fun _ => rfl⟩
  | cons p vtx ih =>
    obtain ⟨tx, txundo⟩ := p
    rw [disconnectTransactions, wp_bind]
    apply wp_consequence
      (removeOutputs_wp tx.getHash nHeight tx.isCoinBase 0 tx.vout s positive height)
    intro outputs t result
    obtain ⟨rfl, outputsClean⟩ := result
    rw [wp_bind]
    apply wp_consequence
      (restoreTransaction_wp nHeight tx txundo _ (sizes (tx, txundo) (by simp)))
    intro inputs t result
    obtain ⟨rfl, inputsClean⟩ := result
    rw [wp_bind]
    apply wp_consequence (ih _ fun p member => sizes p (by simp [member]))
    intro rest t result
    obtain ⟨effect, restClean⟩ := result
    rw [← after_append] at effect restClean
    constructor
    · rw [effect, map_cons, flatMap_cons, ← after_append, Change.backward,
        append_assoc]
      rfl
    · intro unfits
      obtain ⟨here, others⟩ := unfits
      rw [outputsClean here.createdOnce here.present, inputsClean here.spentOnce here.absent,
        restClean others]
      rfl

theorem map_withUndo {block : CBlock} (blockUndo : CBlockUndo) (formed : BlockWellFormed block) :
    (withUndo block blockUndo).map (undoChange nHeight) =
      blockChanges nHeight block blockUndo := by
  obtain ⟨coinbase, rest, whole, _⟩ := formed.coinbase
  rw [blockChanges_eq nHeight blockUndo whole, withUndo, whole, zip_cons_cons, map_cons,
    zip_map_right, map_map]
  rfl

/-- With undo data that fits the block, `DisconnectBlock` makes all its changes in the other
direction, in any state. -/
theorem disconnectBlock_wp (file : Bytes) (block : CBlock) (pindex : Chain)
    (blockundo : CBlockUndo) (s : CoinsState) (height : pindex.nHeight < 2 ^ 31)
    (parent : pindex.pprev ≠ []) (formed : BlockWellFormed block)
    (readable : undoReadFromDisk file pindex.pprev.getBlockHash = some blockundo)
    (undoes : Undoes block.vtx.tail blockundo.vtxundo)
    (valid : ∀ txundo ∈ blockundo.vtxundo, ∀ coin ∈ txundo.vprevout, ValidCoin coin) :
    (disconnectBlock (some file) block pindex).wp (spec known)
      (fun result t =>
        t = (s.after (backwards (blockChanges pindex.nHeight block blockundo))).setBestBlock
          pindex.pprev.getBlockHash ∧
        (UnfitsAll (blockChanges pindex.nHeight block blockundo).reverse s.coins →
          result = .ok)) .never s := by
  obtain ⟨coinbase, rest, whole, _⟩ := formed.coinbase
  rw [whole] at undoes
  have lengths := Forall₂.length_eq undoes
  have sizes : ∀ p ∈ (withUndo block blockundo).reverse, ∀ undo ∈ p.2,
      undo.vprevout.length = p.1.vin.length ∧ ∀ coin ∈ undo.vprevout, ValidCoin coin := by
    intro p member undo given
    rw [mem_reverse, withUndo, whole, zip_cons_cons] at member
    rcases mem_cons.mp member with rfl | later
    · cases given
    · rw [zip_map_right] at later
      obtain ⟨⟨tx, txundo⟩, pair, rfl⟩ := mem_map.mp later
      cases given
      exact ⟨(forall₂_iff_zip.mp undoes).2 pair, valid undo (of_mem_zip pair).2⟩
  have positive := (Chain.nHeight_pos parent).le
  simp only [disconnectBlock, Option.bind_some, readable, wp_bind, wp_rejectIf]
  constructor
  · intro mismatch
    rw [whole, length_cons, ← lengths] at mismatch
    exact mismatch rfl
  · intro _
    apply wp_consequence (disconnectTransactions_wp pindex.nHeight
      (withUndo block blockundo).reverse s positive height sizes)
    intro fClean t result
    rw [map_reverse, map_withUndo pindex.nHeight blockundo formed] at result
    rw [wp_assertThat]
    constructor
    · exact fun orphan => orphan parent
    · intro _
      rw [wp_setBestBlock, wp_pure]
      constructor
      · rw [result.1]
        rfl
      · intro unfits
        rw [result.2 unfits]
        rfl

theorem Connected.storable {params : Params} {block : CBlock} {pindex : Chain}
    {blockundo : CBlockUndo} {s t : CoinsState}
    (connected : Connected params block pindex blockundo s t)
    (valid : ∀ txundo ∈ blockundo.vtxundo, ∀ coin ∈ txundo.vprevout, ValidCoin coin) :
    blockundo.Storable := by
  obtain ⟨coinbase, rest, whole, _⟩ := connected.formed.coinbase
  have undoes := connected.undoes
  have count := connected.formed.count
  rw [whole] at undoes count
  obtain ⟨lengths, each⟩ := forall₂_iff_zip.mp undoes
  have all : (rest.zip blockundo.vtxundo).map Prod.snd = blockundo.vtxundo :=
    map_snd_zip (le_of_eq lengths.symm)
  constructor
  · rw [length_cons] at count
    rw [tail_cons] at lengths
    rw [maxSize]
    omega
  · intro txundo member
    rw [← all] at member
    obtain ⟨⟨tx, _⟩, pair, rfl⟩ := mem_map.mp member
    have inside : tx ∈ block.vtx := by simp [whole, (of_mem_zip pair).1]
    have inputs := (connected.formed.transactions tx inside).count_le
    have length := each pair
    rw [maxSize]
    simp only at length ⊢
    omega
  · intro txundo member coin inside
    have facts := valid txundo member coin inside
    have bounds := (moneyRange_iff _).mp facts.range
    refine ⟨bounds.1, bounds.2, ?_⟩
    have spendable := facts.spendable
    simp only [isUnspendable, Bool.or_eq_false_iff, decide_eq_false_iff_not, not_lt] at spendable
    exact spendable.2

/-- A block connected to a view of valid coins leaves one, and is taken back cleanly with the undo
data that was written for it: the view then shows the coins and the best block it showed before. -/
theorem disconnectBlock_connectBlock (law : DecompressesKeys) (env : Environment) (block : CBlock)
    (pindex : Chain) (view view' : View) (blockundo : CBlockUndo) (sound : view.Sound)
    (valid : ValidCoins view.shown) (height : pindex.nHeight < 2 ^ 31)
    (enforced : enforceBIP30 env.params pindex = true)
    (connects : (connectBlock env block pindex false).run View.handle view =
      .returned (some blockundo, view')) :
    (view'.Sound ∧ ValidCoins view'.shown) ∧
    ∃ view'', (disconnectBlock (some (undoWriteToDisk blockundo pindex.pprev.getBlockHash)) block
        pindex).run View.handle view' = .returned (.ok, view'') ∧
      view''.Sound ∧ view''.shown = view.shown ∧
      view''.getBestBlock.1 = view.getBestBlock.1 := by
  obtain ⟨t, shows', connected⟩ := connected_of_run env block sound valid enforced connects
  have fits := connected.fits enforced
  obtain ⟨undoValid, stillValid⟩ := connected.valid enforced height valid
  have readable := undoReadFromDisk_undoWriteToDisk law blockundo
    (connected.storable undoValid) pindex.pprev.getBlockHash
  obtain ⟨result, view'', u, run, shows'', effect, clean⟩ :=
    run_returns (View.handle_refines _) shows' (disconnectBlock_wp _ block pindex
      blockundo t height connected.parent connected.formed readable connected.undoes undoValid)
  have restored : u = view.state := by
    rw [effect, connected.effect]
    simp only [CoinsState.after, CoinsState.setBestBlock, fits.backwards_forwards]
    exact view.state_setBestBlock connected.best.symm
  have ok : result = .ok := by
    apply clean
    rw [connected.effect]
    exact fits.unfitsAll
  refine ⟨⟨shows'.sound, ?_⟩, view'', ?_, shows''.sound, ?_, ?_⟩
  · rw [shows'.coins]
    exact stillValid
  · rw [run, ok]
  · exact shows''.coins.trans (congrArg CoinsState.coins restored)
  · exact shows''.bestBlock.trans (congrArg CoinsState.bestBlock restored)

end

def fundedOutPoint : COutPoint := ⟨.uint256S 7, 3⟩

def fundedBase : BaseView where
  coins o := if o = fundedOutPoint then some ⟨⟨50, [0x51]⟩, false, 1⟩ else none
  unspent := by
    intro o coin found
    split at found
    · cases found
      decide
    · cases found
  hashBlock := regTestParams.hashGenesisBlock

def sampleCoinbase : CTransaction where
  nVersion := 1
  vin := [⟨⟨.null, COutPoint.nullIndex⟩, [0x51, 0x51], sequenceFinal, []⟩]
  vout := [⟨10, [0x6a]⟩, ⟨100, [0x51]⟩]
  nLockTime := 0

def sampleSpend : CTransaction where
  nVersion := 2
  vin := [⟨fundedOutPoint, [], sequenceFinal, []⟩]
  vout := [⟨30, [0x51]⟩, ⟨20, [0x51]⟩]
  nLockTime := 0

def sampleChild : CTransaction where
  nVersion := 3
  vin := [⟨⟨@CTransaction.getHash Crypto.firstBytes sampleSpend, 0⟩, [], sequenceFinal, []⟩]
  vout := [⟨0, [0x51]⟩, ⟨30, [0x6a]⟩]
  nLockTime := 0

def sampleBlock : CBlock where
  nVersion := 4
  hashPrevBlock := regTestParams.hashGenesisBlock
  hashMerkleRoot := @CTransaction.getHash Crypto.firstBytes sampleCoinbase
  nTime := 0
  nBits := 0x207fffff
  nNonce := 0
  vtx := [sampleCoinbase, sampleSpend, sampleChild]

def sampleChain : Chain :=
  [⟨@CBlockHeader.getHash Crypto.firstBytes sampleBlock.toCBlockHeader, 4, 0, 0x207fffff⟩,
    ⟨regTestParams.hashGenesisBlock, 1, 0, 0x207fffff⟩]

def sampleEnvironment : Environment :=
  ⟨regTestParams, fun _ => true, ScriptCaches.empty, true, false⟩

def sampleConnects : Bool :=
  let _ := Crypto.firstBytes
  match (connectBlock sampleEnvironment sampleBlock sampleChain false).run handle
      (View.fresh fundedBase) with
  | .returned (some _, _) => true
  | _ => false

theorem disconnectBlock_connectBlock_sample :
    let _ := Crypto.firstBytes
    let view := View.fresh fundedBase
    ∃ blockundo view' view'',
      (connectBlock sampleEnvironment sampleBlock sampleChain false).run handle view =
        .returned (some blockundo, view') ∧
      (disconnectBlock (some (undoWriteToDisk blockundo regTestParams.hashGenesisBlock)) sampleBlock
        sampleChain).run handle view' = .returned (.ok, view'') ∧
      view''.shown = view.shown ∧ view''.getBestBlock.1 = view.getBestBlock.1 := by
  intro crypto view
  have law : DecompressesKeys := by
    intro x y _ _ valid
    cases valid
  have valid : ValidCoins view.shown := by
    intro o coin found
    have stored : fundedBase.coins o = some coin := found
    simp only [fundedBase] at stored
    split at stored
    · cases stored
      exact ⟨by decide, by decide, by decide⟩
    · cases stored
  have succeeds : sampleConnects = true := by decide +kernel
  simp only [sampleConnects] at succeeds
  split at succeeds
  next blockundo view' connects =>
    obtain ⟨_, view'', disconnects, _, coins, best⟩ := disconnectBlock_connectBlock law
      sampleEnvironment sampleBlock sampleChain view view' blockundo (fresh_sound fundedBase)
      valid (by decide) (by decide +kernel) connects
    exact ⟨blockundo, view', view'', connects, disconnects, coins, best⟩
  · cases succeeds

end Qogecoin.Validation
