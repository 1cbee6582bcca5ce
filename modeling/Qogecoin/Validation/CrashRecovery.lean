import Qogecoin.Coins.Database
import Qogecoin.Validation.DisconnectBlock
import Qogecoin.Validation.NoInflation

/-! `ReplayBlocks`, and the recovery of the coin database: from any mixture of the coins of two tips,
as an interrupted flush leaves it, it gets to the coins of the new tip. -/
namespace Qogecoin.Validation

open Codec Commands Coins Consensus Ledger Chain CoinsState Function Result Updates View

structure BlockFiles where
  readBlockFromDisk : Chain → Option CBlock
  undoFile : Chain → Option Bytes

inductive ReplayError where
  | unknownInconsistentState
  | toUnknownBlock
  | fromUnknownBlock
  | readBlockFailed
  | disconnectFailed
deriving DecidableEq, Repr

section

variable [Crypto]

def spendAnyway : List CTxIn → CoinsM ReplayError Unit
  | [] => pure ()
  | txin :: vin => do
    let _ ← spendCoin txin.prevout
    spendAnyway vin

def rollforwardTransactions (nHeight : Int) : List CTransaction → CoinsM ReplayError Unit
  | [] => pure ()
  | tx :: vtx => do
    spendAnyway (if tx.isCoinBase then [] else tx.vin)
    -- every addition may be an overwrite
    addCoins tx nHeight true
    rollforwardTransactions nHeight vtx

variable (files : BlockFiles)

def rollforwardBlock (pindex : Chain) : CoinsM ReplayError Unit :=
  match files.readBlockFromDisk pindex with
  | none => Program.lift (.rejected .readBlockFailed)
  | some block => rollforwardTransactions pindex.nHeight block.vtx

def rollforward (files : BlockFiles) (pindexNew : Chain) : List Int → CoinsM ReplayError Unit
  | [] => pure ()
  | nHeight :: heights => do
    rollforwardBlock files (pindexNew.getAncestor nHeight)
    rollforward files pindexNew heights

def rollbackBlock (pindexOld : Chain) : CoinsM ReplayError Unit :=
  -- never disconnect the genesis block
  if pindexOld.nHeight > 0 then
    match files.readBlockFromDisk pindexOld with
    | none => Program.lift (.rejected .readBlockFailed)
    | some block => do
      let _ ← (disconnectBlock (files.undoFile pindexOld) block pindexOld).adapt
        fun _ => .disconnectFailed
      pure ()
  else pure ()

def rollback (files : BlockFiles) (pindexFork : Chain) : Chain → CoinsM ReplayError Unit
  | [] => Program.assertThat (pindexFork = []) .nullPointer
  | pindexOld :: pprev =>
    if pindexOld :: pprev = pindexFork then pure ()
    else do
      rollbackBlock files (pindexOld :: pprev)
      rollback files pindexFork pprev

def heightsAbove (nForkHeight nHeightNew : Int) : List Int :=
  (List.range (nHeightNew - nForkHeight).toNat).map fun n : Nat => nForkHeight + 1 + (n : Int)

def replay (pindexOld pindexFork pindexNew : Chain) : CoinsM ReplayError Unit := do
  rollback files pindexFork pindexOld
  let nForkHeight : Int := if pindexFork = [] then 0 else pindexFork.nHeight
  rollforward files pindexNew (heightsAbove nForkHeight pindexNew.nHeight)
  setBestBlock pindexNew.getBlockHash

/-- The old tip and the fork, which are null if the interrupted flush was the first one. -/
def oldBranch (blockIndex : Uint256 → Option Chain) (pindexNew : Chain) (hashOld : Uint256) :
    Result Crash ReplayError (Chain × Chain) :=
  if hashOld.isNull then pure ([], [])
  else
    match blockIndex hashOld with
    | none => .rejected .fromUnknownBlock
    | some pindexOld => do
      let pindexFork := pindexOld.lastCommonAncestor pindexNew
      .assertThat (pindexFork ≠ []) .assertion
      pure (pindexOld, pindexFork)

def flushTo (db : CCoinsViewDB) (full : CDBBatch → Bool) (walk : CCoinsMap → Entries) (cache : View) :
    Result Crash ReplayError (List CDBBatch) :=
  match db.batchWrite full (walk cache.top.cacheCoins) cache.top.hashBlock with
  | .ok batches => .returned batches
  | .error f => .crashed f

/-- `ReplayBlocks`; it returns the batches that its flush writes. -/
def replayBlocks (blockIndex : Uint256 → Option Chain)
    (full : CDBBatch → Bool) (walk : CCoinsMap → Entries) (db : CCoinsViewDB) :
    Result Crash ReplayError (List CDBBatch) :=
  match db.headBlocks with
  | [] => pure []
  | [hashNew, hashOld] =>
    match blockIndex hashNew with
    | none => .rejected .toUnknownBlock
    | some pindexNew => do
      let (pindexOld, pindexFork) ← oldBranch blockIndex pindexNew hashOld
      let (_, cache) ←
        (replay files pindexOld pindexFork pindexNew).run handle (View.fresh db.base)
      flushTo db full walk cache
  | _ => .rejected .unknownInconsistentState

end

open List Program

variable {pindex : Chain}

structure Fork (pa pb fork : Chain) : Prop where
  nonempty : fork ≠ []
  left : fork <:+ pa
  right : fork <:+ pb
  longest : ∀ common, common <:+ pa → common <:+ pb → common <:+ fork

theorem meet_spec (pa pb : Chain) (lengths : pa.length = pb.length) :
    pa.meet pb <:+ pa ∧ pa.meet pb <:+ pb ∧
      ∀ common, common <:+ pa → common <:+ pb → common <:+ pa.meet pb := by
  induction pa generalizing pb with
  | nil => exact ⟨nil_suffix, nil_suffix, fun _ inA _ => inA⟩
  | cons a as ih =>
    cases pb with
    | nil => cases lengths
    | cons b bs =>
      rw [meet]
      by_cases same : a :: as = b :: bs
      · rw [if_pos same]
        exact ⟨suffix_refl _, same ▸ suffix_refl _, fun _ inA _ => inA⟩
      rw [if_neg same]
      obtain ⟨left, right, longest⟩ := ih bs (Nat.succ.inj lengths)
      refine ⟨left.trans (suffix_cons _ _), right.trans (suffix_cons _ _), ?_⟩
      intro common inA inB
      rcases suffix_cons_iff.mp inA with whole | belowA
      · exact absurd (whole.symm.trans (inB.eq_of_length (by rw [whole, lengths]))) same
      · rcases suffix_cons_iff.mp inB with whole | belowB
        · have longer := belowA.length_le
          rw [whole, ← lengths, length_cons] at longer
          omega
        · exact longest common belowA belowB

theorem getAncestor_spec (pa pb : Chain) (nonempty : pb ≠ []) (longer : pb.length ≤ pa.length) :
    (pa.getAncestor pb.nHeight).length = pb.length ∧ pa.getAncestor pb.nHeight <:+ pa := by
  have length := length_pos_of_ne_nil nonempty
  have steps : (pa.nHeight - pb.nHeight).toNat = pa.length - pb.length := by
    simp only [nHeight]
    omega
  rw [getAncestor, if_neg (by simp only [nHeight]; omega), steps, length_drop]
  exact ⟨by omega, drop_suffix _ _⟩

/-- The chains may be cut to the length of the shorter one before they are compared. -/
theorem fork_meet {pa pb pa' pb' : Chain} (left : pa' <:+ pa) (right : pb' <:+ pb)
    (lengthA : pa'.length = min pa.length pb.length) (lengthB : pb'.length = pa'.length)
    (nonempty : pa ≠ []) (genesis : pa.getLast? = pb.getLast?) : Fork pa pb (pa'.meet pb') := by
  obtain ⟨inA, inB, longest⟩ := meet_spec pa' pb' lengthB.symm
  have longest : ∀ common, common <:+ pa → common <:+ pb → common <:+ pa'.meet pb' := by
    intro common inA inB
    have shorter := inA.length_le
    have shorter' := inB.length_le
    exact longest common (suffix_of_suffix_length_le inA left (by omega))
      (suffix_of_suffix_length_le inB right (by omega))
  refine ⟨?_, inA.trans left, inB.trans right, longest⟩
  have last := getLast?_eq_some_getLast nonempty
  obtain ⟨above, rooted⟩ := getLast?_eq_some_iff.mp last
  obtain ⟨above', rooted'⟩ := getLast?_eq_some_iff.mp (genesis ▸ last)
  exact (longest _ ⟨above, rooted.symm⟩ ⟨above', rooted'.symm⟩).ne_nil (cons_ne_nil _ _)

theorem lastCommonAncestor_spec (pa pb : Chain) (left : pa ≠ []) (right : pb ≠ [])
    (genesis : pa.getLast? = pb.getLast?) : Fork pa pb (pa.lastCommonAncestor pb) := by
  have heightA : pa.nHeight = pa.length - 1 := rfl
  have heightB : pb.nHeight = pb.length - 1 := rfl
  rw [lastCommonAncestor]
  split
  next higher =>
    obtain ⟨length, suffix⟩ := getAncestor_spec pa pb right (by omega)
    exact fork_meet suffix (suffix_refl _) (by omega) length.symm left genesis
  · split
    next higher =>
      obtain ⟨length, suffix⟩ := getAncestor_spec pb pa left (by omega)
      exact fork_meet (suffix_refl _) suffix (by omega) length left genesis
    · exact fork_meet (suffix_refl _) (suffix_refl _) (by omega) (by omega) left genesis

section

theorem spendAnyway_wp (vin : List CTxIn) (s : CoinsState) :
    (spendAnyway vin).wp (spec known)
      (fun _ t => t = s.after (vin.map fun txin => (txin.prevout, none))) .never s := by
  induction vin generalizing s with
  | nil => rfl
  | cons txin vin ih =>
    rw [spendAnyway, wp_bind, wp_spendCoin]
    intro noticed _
    exact ih (s.write txin.prevout none)

theorem removals_zip (outpoints : List COutPoint) (spent : List Coin)
    (lengths : outpoints.length = spent.length) :
    removals (outpoints.zip spent) = outpoints.map fun o => (o, none) := by
  have keys : (outpoints.zip spent).map Prod.fst = outpoints := map_fst_zip (le_of_eq lengths)
  conv_rhs => rw [← keys]
  rw [map_map]
  rfl

variable [Crypto] {known : Set COutPoint} {params : Params} {files : BlockFiles}

def Covers (tx : CTransaction) (txundo : CTxUndo) : Prop :=
  (if tx.isCoinBase then [] else tx.vin).length = txundo.vprevout.length ∧
    (tx.isCoinBase = true → txundo.vprevout = [])

theorem forward_txChange {tx : CTransaction} {txundo : CTxUndo} (covers : Covers tx txundo)
    (nHeight : Int) : (txChange nHeight tx txundo).forward =
      ((if tx.isCoinBase then [] else tx.vin).map fun txin => (txin.prevout, none)) ++
        additions (created tx.getHash nHeight tx.isCoinBase 0 tx.vout) := by
  rw [Change.forward, txChange]
  congr 1
  cases coinbase : tx.isCoinBase with
  | true =>
    have nothing := covers.2 coinbase
    simp [nothing, removals]
  | false =>
    have lengths := covers.1
    rw [coinbase] at lengths
    rw [removals_zip _ _ (by simpa using lengths), map_map]
    rfl

theorem rollforwardTransactions_wp (nHeight : Int) (vtx : List CTransaction)
    (vtxundo : List CTxUndo) (s : CoinsState) (formed : ∀ tx ∈ vtx, TxWellFormed tx)
    (covers : Forall₂ Covers vtx vtxundo) :
    (rollforwardTransactions nHeight vtx).wp (spec known)
      (fun _ t => t = s.after (forwards (changes nHeight vtx vtxundo))) .never s := by
  induction covers generalizing s with
  | nil => rfl
  | @cons tx txundo vtx vtxundo here _ ih =>
    have well := formed tx mem_cons_self
    have count := well.count_le
    rw [rollforwardTransactions, wp_bind]
    apply wp_consequence (spendAnyway_wp _ s)
    intro _ t spent
    subst spent
    rw [wp_bind]
    apply wp_consequence (addOutputs_wp tx.getHash nHeight tx.isCoinBase true 0 tx.vout _
      well.outputs (by omega) (fun strict => by cases strict))
    intro _ t result
    obtain ⟨added, _⟩ := result
    subst added
    apply wp_consequence
      (ih _ fun tx' member => formed tx' (mem_cons_of_mem tx member))
    intro _ t effect
    have split : forwards (changes nHeight (tx :: vtx) (txundo :: vtxundo)) =
        (txChange nHeight tx txundo).forward ++ forwards (changes nHeight vtx vtxundo) := rfl
    rw [effect, split, forward_txChange here, after_append, after_append]

omit [Crypto] in
theorem covers_block {block : CBlock} {blockundo : CBlockUndo} (formed : BlockWellFormed block)
    (undoes : Undoes block.vtx.tail blockundo.vtxundo) :
    Forall₂ Covers block.vtx (⟨[]⟩ :: blockundo.vtxundo) := by
  obtain ⟨coinbase, rest, whole, isCoinBase, spending⟩ := formed.coinbase
  rw [whole] at undoes ⊢
  constructor
  · exact ⟨by simp [isCoinBase], fun _ => rfl⟩
  · obtain ⟨lengths, each⟩ := forall₂_iff_zip.mp undoes
    apply forall₂_iff_zip.mpr
    refine ⟨lengths, ?_⟩
    intro tx txundo pair
    have other := spending tx (of_mem_zip pair).1
    refine ⟨?_, fun coinbase => by rw [other] at coinbase; cases coinbase⟩
    rw [other]
    exact (each pair).symm

/-- The block of every index of a tree, and the undo data that was written when it was connected. -/
abbrev Stored := Chain → CBlock × CBlockUndo

/-- The coins of a chain whose blocks were connected one after the other. The genesis block adds
none, and without a tip there are none. Where BIP30 is not enforced a block may overwrite a coin,
which its undo data does not bring back. -/
inductive UtxoSet (params : Params) (stored : Stored) : Chain → FlatMap → Prop
  | nothing : UtxoSet params stored [] fun _ => none
  | genesis (index : CBlockIndex) : UtxoSet params stored [index] fun _ => none
  | block {index : CBlockIndex} {pprev : Chain} {view view' : View} (env : Environment)
      (before : UtxoSet params stored pprev view.shown) (same : env.params = params)
      (sound : view.Sound) (height : nHeight (index :: pprev) < 2 ^ 31)
      (enforced : enforceBIP30 params (index :: pprev) = true)
      (connects : (connectBlock env (stored (index :: pprev)).1 (index :: pprev) false).run
        handle view = .returned (some (stored (index :: pprev)).2, view')) :
      UtxoSet params stored (index :: pprev) view'.shown

structure Readable (files : BlockFiles) (stored : Stored) (pindex : Chain) : Prop where
  block : files.readBlockFromDisk pindex = some (stored pindex).1
  undo : ∃ file, files.undoFile pindex = some file ∧
    undoReadFromDisk file pindex.pprev.getBlockHash = some (stored pindex).2

structure Applied (stored : Stored) (pindex : Chain) : Prop where
  formed : BlockWellFormed (stored pindex).1
  parent : pindex.pprev ≠ []
  height : pindex.nHeight < 2 ^ 31
  undoes : Undoes (stored pindex).1.vtx.tail (stored pindex).2.vtxundo
  valid : ∀ txundo ∈ (stored pindex).2.vtxundo, ∀ coin ∈ txundo.vprevout, ValidCoin coin

def forth (stored : Stored) (pindex : Chain) : List (COutPoint × Option Coin) :=
  forwards (blockChanges pindex.nHeight (stored pindex).1 (stored pindex).2)

def back (stored : Stored) (pindex : Chain) : List (COutPoint × Option Coin) :=
  backwards (blockChanges pindex.nHeight (stored pindex).1 (stored pindex).2)

variable {stored : Stored}

variable {coins : FlatMap}

theorem UtxoSet.valid (set : UtxoSet params stored pindex coins) :
    ValidCoins coins := by
  induction set with
  | nothing | genesis index => exact fun _ _ found => by cases found
  | block env _ same sound height enforced connects ih =>
    subst same
    obtain ⟨t, shows, connected⟩ := connected_of_run env _ sound ih enforced connects
    rw [shows.coins]
    exact (connected.valid enforced height ih).2

theorem UtxoSet.cases {index : CBlockIndex} {pprev : Chain}
    (set : UtxoSet params stored (index :: pprev) coins) :
    (pprev = [] ∧ coins = fun _ => none) ∨ ∃ s t : CoinsState,
      UtxoSet params stored pprev s.coins ∧ t.coins = coins ∧ Applied stored (index :: pprev) ∧
      Connected params (stored (index :: pprev)).1 (index :: pprev) (stored (index :: pprev)).2 s t ∧
      enforceBIP30 params (index :: pprev) = true := by
  cases set with
  | genesis => exact .inl ⟨rfl, rfl⟩
  | @block _ _ view view' env before same sound height enforced connects =>
    subst same
    obtain ⟨t, shows, connected⟩ := connected_of_run env _ sound before.valid enforced connects
    refine .inr ⟨view.state, t, before, shows.coins.symm, ?_, connected, enforced⟩
    exact {
      formed := connected.formed
      parent := connected.parent
      height
      undoes := connected.undoes
      valid := (connected.valid enforced height before.valid).1 }

theorem UtxoSet.step {index parent : CBlockIndex} {rest : Chain}
    (set : UtxoSet params stored (index :: parent :: rest) coins) :
    ∃ prev, UtxoSet params stored (parent :: rest) prev ∧
      Applied stored (index :: parent :: rest) ∧
      apply (forth stored (index :: parent :: rest)) prev = coins ∧
      apply (back stored (index :: parent :: rest)) coins = prev := by
  rcases set.cases with ⟨none, _⟩ | ⟨s, t, before, rfl, applied, connected, enforced⟩
  · cases none
  · have effect : t.coins = apply (forth stored (index :: parent :: rest)) s.coins := by
      rw [connected.effect]
      rfl
    refine ⟨s.coins, before, applied, effect.symm, ?_⟩
    rw [effect]
    exact (connected.fits enforced).backwards_forwards

theorem UtxoSet.of_genesis {index : CBlockIndex} (set : UtxoSet params stored [index] coins) :
    coins = fun _ => none := by
  rcases set.cases with ⟨_, empty⟩ | ⟨_, _, _, _, applied, _, _⟩
  · exact empty
  · exact absurd rfl applied.parent

theorem UtxoSet.unique {coins' : FlatMap} (set : UtxoSet params stored pindex coins)
    (set' : UtxoSet params stored pindex coins') :
    coins = coins' := by
  induction pindex generalizing coins coins' with
  | nil =>
    cases set
    cases set'
    rfl
  | cons index pprev ih =>
    cases pprev with
    | nil => rw [set.of_genesis, set'.of_genesis]
    | cons parent rest =>
      obtain ⟨prev, before, _, effect, _⟩ := set.step
      obtain ⟨prev', before', _, effect', _⟩ := set'.step
      rw [← effect, ← effect', ih before before']

/-- The blocks above a fork can be read; all their changes in the two directions. -/
inductive Branch (files : BlockFiles) (stored : Stored) (fork : Chain) :
    Chain → (forths backs : List (COutPoint × Option Coin)) → Prop
  | here : Branch files stored fork fork [] []
  | step {index : CBlockIndex} {pprev : Chain} {forths backs : List (COutPoint × Option Coin)}
      (before : Branch files stored fork pprev forths backs)
      (applied : Applied stored (index :: pprev)) (readable : Readable files stored (index :: pprev)) :
      Branch files stored fork (index :: pprev) (forths ++ forth stored (index :: pprev))
        (back stored (index :: pprev) ++ backs)

theorem UtxoSet.branch {fork : Chain} (set : UtxoSet params stored pindex coins)
    (nonempty : fork ≠ []) (suffix : fork <:+ pindex)
    (readable : ∀ above, above <:+ pindex → ¬above <:+ fork → Readable files stored above) :
    ∃ forkCoins forths backs, UtxoSet params stored fork forkCoins ∧
      Branch files stored fork pindex forths backs ∧
      apply forths forkCoins = coins ∧ apply backs coins = forkCoins := by
  induction pindex generalizing coins with
  | nil => exact absurd (suffix_nil.mp suffix) nonempty
  | cons index pprev ih =>
    rcases suffix_cons_iff.mp suffix with whole | below
    · subst whole
      exact ⟨coins, [], [], set, .here, rfl, rfl⟩
    cases pprev with
    | nil => exact absurd (suffix_nil.mp below) nonempty
    | cons parent rest =>
      have here : Readable files stored (index :: parent :: rest) := by
        apply readable _ (suffix_refl _)
        intro longer
        have lengths := longer.length_le.trans below.length_le
        simp at lengths
      obtain ⟨prev, before, applied, effect, undone⟩ := set.step
      obtain ⟨forkCoins, forths, backs, atFork, branch, effects, undo⟩ := ih before below
        fun above lower => readable above (lower.trans (suffix_cons _ _))
      refine ⟨forkCoins, _, _, atFork, .step branch applied here, ?_, ?_⟩
      · rw [apply_append, effects, effect]
      · rw [apply_append, undone, undo]

variable {forths backs : List (COutPoint × Option Coin)}

theorem Branch.suffix {fork : Chain} (branch : Branch files stored fork pindex forths backs) :
    fork <:+ pindex := by
  induction branch with
  | here => exact suffix_refl _
  | step _ _ _ ih => exact ih.trans (suffix_cons _ _)

theorem rollforwardBlock_wp (applied : Applied stored pindex)
    (readable : Readable files stored pindex) (s : CoinsState) :
    (rollforwardBlock files pindex).wp (spec known)
      (fun _ t => t.coins = apply (forth stored pindex) s.coins) .never s := by
  rw [rollforwardBlock, readable.block]
  apply wp_consequence (rollforwardTransactions_wp pindex.nHeight (stored pindex).1.vtx _ s
    applied.formed.transactions (covers_block applied.formed applied.undoes))
  intro _ t effect
  rw [effect]
  rfl

theorem rollbackBlock_wp (applied : Applied stored pindex) (readable : Readable files stored pindex)
    (s : CoinsState) :
    (rollbackBlock files pindex).wp (spec known)
      (fun _ t => t.coins = apply (back stored pindex) s.coins) .never s := by
  obtain ⟨file, hasUndo, undo⟩ := readable.undo
  rw [rollbackBlock, if_pos (nHeight_pos applied.parent), readable.block]
  simp only [wp_bind, wp_adapt, hasUndo]
  apply wp_mono (disconnectBlock_wp file _ pindex _ s applied.height applied.parent
    applied.formed undo applied.undoes applied.valid) ?_ (fun _ h => h) (fun _ h => h)
  intro _ t result
  rw [wp_pure, result.1]
  rfl

theorem rollback_wp {fork : Chain} (branch : Branch files stored fork pindex forths backs)
    (s : CoinsState) :
    (rollback files fork pindex).wp (spec known)
      (fun _ t => t.coins = apply backs s.coins) .never s := by
  induction branch generalizing s with
  | here =>
    cases fork with
    | nil =>
      rw [rollback, wp_assertThat]
      exact ⟨fun other => other rfl, fun _ => rfl⟩
    | cons index pprev =>
      rw [rollback, if_pos rfl]
      rfl
  | @step index pprev forths backs before applied readable ih =>
    have above : index :: pprev ≠ fork := by
      intro same
      have longer := before.suffix.length_le
      rw [← same, length_cons] at longer
      omega
    rw [rollback, if_neg above, wp_bind]
    apply wp_consequence (rollbackBlock_wp applied readable s)
    intro _ t effect
    apply wp_consequence (ih t)
    intro _ u rest
    rw [rest, effect, apply_append]

theorem rollforward_append (pindexNew : Chain) (first second : List Int) (s : CoinsState)
    (post : Unit → CoinsState → Prop) (ends : Ends Crash ReplayError) :
    (rollforward files pindexNew (first ++ second)).wp (spec known) post ends s ↔
      (rollforward files pindexNew first).wp (spec known)
        (fun _ t => (rollforward files pindexNew second).wp (spec known) post ends t)
        ends s := by
  induction first generalizing s with
  | nil => rfl
  | cons nHeight first ih =>
    simp only [cons_append, rollforward, wp_bind, ih]

theorem rollforward_wp {fork new : Chain} (branch : Branch files stored fork pindex forths backs)
    (below : pindex <:+ new) (s : CoinsState) :
    (rollforward files new (heightsAbove fork.nHeight pindex.nHeight)).wp (CoinsState.spec known)
      (fun _ t => t.coins = Updates.apply forths s.coins) .never s := by
  induction branch generalizing s with
  | here =>
    have none : heightsAbove fork.nHeight fork.nHeight = [] := by simp [heightsAbove]
    rw [none]
    rfl
  | @step index pprev forths backs before applied readable ih =>
    have higher := Chain.nHeight_le before.suffix
    have heights : heightsAbove fork.nHeight (Chain.nHeight (index :: pprev)) =
        heightsAbove fork.nHeight pprev.nHeight ++ [Chain.nHeight (index :: pprev)] := by
      have count : (pprev.nHeight + 1 - fork.nHeight).toNat =
          (pprev.nHeight - fork.nHeight).toNat + 1 := by omega
      rw [heightsAbove, heightsAbove, Chain.nHeight_cons, count, range_succ, map_append]
      simp only [map_cons, map_nil]
      congr 2
      omega
    rw [heights, rollforward_append]
    apply wp_consequence (ih ((suffix_cons _ _).trans below) s)
    intro _ t effect
    rw [rollforward, Chain.getAncestor_of_suffix (cons_ne_nil _ _) below, wp_bind]
    apply wp_consequence (rollforwardBlock_wp applied readable t)
    intro _ u effect'
    rw [rollforward, wp_pure, effect', effect, Updates.apply_append]

/-- The two tips of an interrupted flush in one block tree, whose blocks can be read where the two
chains differ. The old one may be missing. -/
structure TwoTips (params : Params) (files : BlockFiles) (stored : Stored)
    (blockIndex : Uint256 → Option Chain) (old new : Chain) (oldCoins newCoins : FlatMap) :
    Prop where
  oldSet : UtxoSet params stored old oldCoins
  newSet : UtxoSet params stored new newCoins
  nonempty : new ≠ []
  newReal : new.getBlockHash.isNull = false
  newIndexed : blockIndex new.getBlockHash = some new
  oldReal : old ≠ [] → old.getBlockHash.isNull = false
  oldIndexed : old ≠ [] → blockIndex old.getBlockHash = some old
  oneTree : old ≠ [] → old.getLast? = new.getLast?
  oldReadable : ∀ pindex : Chain, pindex <:+ old → ¬pindex <:+ new → Readable files stored pindex
  newReadable : ∀ pindex : Chain, pindex <:+ new → ¬pindex <:+ old → pindex.pprev ≠ [] →
    Readable files stored pindex

variable {blockIndex : Uint256 → Option Chain} {old new : Chain} {oldCoins newCoins : FlatMap}

theorem replay_wp {fork base : Chain} {others : List (COutPoint × Option Coin)}
    (undo : ∀ s, (rollback files fork old).wp (CoinsState.spec known)
      (fun _ t => t.coins = Updates.apply backs s.coins) .never s)
    (branch : Branch files stored base new forths others)
    (height : (if fork = [] then 0 else fork.nHeight) = base.nHeight)
    (real : new.getBlockHash.isNull = false) (s : CoinsState) :
    (replay files old fork new).wp (CoinsState.spec known)
      (fun _ t => t.coins = Updates.apply forths (Updates.apply backs s.coins) ∧
        t.bestBlock = new.getBlockHash) .never s := by
  rw [replay, wp_bind]
  apply wp_consequence (undo s)
  intro _ t undone
  simp only [height]
  rw [wp_bind]
  apply wp_consequence (rollforward_wp branch (suffix_refl _) t)
  intro _ u redone
  rw [wp_setBestBlock, CoinsState.setBestBlock, real]
  exact ⟨by rw [redone, undone], rfl⟩

omit [Crypto] in
theorem pprev_ne_nil {fork above : Chain} (nonempty : fork ≠ []) (right : fork <:+ new)
    (inNew : above <:+ new) (higher : ¬above <:+ fork) : above.pprev ≠ [] := by
  intro none
  have short := congrArg length none
  have positive := length_pos_of_ne_nil nonempty
  rw [pprev, length_tail, length_nil] at short
  exact higher (suffix_of_suffix_length_le inNew right (by omega))

theorem TwoTips.fork (tips : TwoTips params files stored blockIndex old new oldCoins newCoins) :
    ∃ pindexFork, oldBranch blockIndex new old.getBlockHash = .returned (old, pindexFork) ∧
      ∃ forkCoins forths backs, Updates.apply backs oldCoins = forkCoins ∧
        Updates.apply forths forkCoins = newCoins ∧
        ∀ s, (replay files old pindexFork new).wp (CoinsState.spec known)
          (fun _ t => t.coins = Updates.apply forths (Updates.apply backs s.coins) ∧
            t.bestBlock = new.getBlockHash) .never s := by
  by_cases first : old = []
  · -- the first flush: nothing to roll back, and everything above the genesis block to roll forward
    subst first
    have suffix : [new.getLast tips.nonempty] <:+ new :=
      ⟨new.dropLast, dropLast_append_getLast tips.nonempty⟩
    have readable : ∀ above, above <:+ new → ¬above <:+ [new.getLast tips.nonempty] →
        Readable files stored above := by
      intro above inNew higher
      apply tips.newReadable above inNew _ (pprev_ne_nil (cons_ne_nil _ _) suffix inNew higher)
      exact fun none => higher (none.trans nil_suffix)
    obtain ⟨forkCoins, forths, _, atFork, branch, effect, _⟩ :=
      tips.newSet.branch (cons_ne_nil _ _) suffix readable
    have same : forkCoins = oldCoins := by
      have empty := tips.oldSet
      cases empty
      exact atFork.of_genesis
    have noBlocks : Branch files stored [] [] [] [] := .here
    refine ⟨[], rfl, oldCoins, forths, [], rfl, same ▸ effect, ?_⟩
    apply replay_wp _ branch rfl tips.newReal
    exact rollback_wp noBlocks
  · have meets := lastCommonAncestor_spec old new first tips.nonempty (tips.oneTree first)
    obtain ⟨forkCoins, _, backs, atFork, undone, _, undo⟩ :=
      tips.oldSet.branch meets.nonempty meets.left fun above inOld higher =>
        tips.oldReadable above inOld fun inNew => higher (meets.longest above inOld inNew)
    have readable : ∀ above, above <:+ new → ¬above <:+ old.lastCommonAncestor new →
        Readable files stored above := by
      intro above inNew higher
      apply tips.newReadable above inNew fun inOld => higher (meets.longest above inOld inNew)
      exact pprev_ne_nil meets.nonempty meets.right inNew higher
    obtain ⟨forkCoins', forths, _, atFork', redone, redo, _⟩ :=
      tips.newSet.branch meets.nonempty meets.right readable
    have branches : oldBranch blockIndex new old.getBlockHash =
        .returned (old, old.lastCommonAncestor new) := by
      rw [oldBranch, tips.oldReal first, tips.oldIndexed first]
      simp only [Bool.false_eq_true, if_false, Result.assertThat, if_pos meets.nonempty]
      rfl
    refine ⟨old.lastCommonAncestor new, branches, forkCoins, forths, backs, undo, ?_, ?_⟩
    · rw [atFork.unique atFork', redo]
    · exact replay_wp (rollback_wp undone) redone (if_neg meets.nonempty) tips.newReal

section

variable {db db' : CCoinsViewDB}
  (tips : TwoTips params files stored blockIndex old new oldCoins newCoins)
include tips

theorem replayBlocks_spec
    (interrupted : db.Interrupted new.getBlockHash old.getBlockHash oldCoins newCoins)
    (full : CDBBatch → Bool) (walk : CCoinsMap → Entries)
    (walks : ∀ m, (walk m).Perm m.entries) :
    ∃ batches, replayBlocks files blockIndex full walk db = .returned batches ∧
      (db.writeAll batches.flatten).AtTip new.getBlockHash newCoins ∧
      ∀ k, k < batches.length → (db.writeAll (batches.take k).flatten).Interrupted
        new.getBlockHash old.getBlockHash oldCoins newCoins := by
  obtain ⟨fork, branches, forkCoins, forths, backs, undo, redo, replays⟩ := tips.fork
  have shows := View.shows_state (View.fresh db.base) (View.fresh_sound db.base)
  obtain ⟨_, cache, t, run, shown, coins, best⟩ := run_returns (View.handle_refines ∅) shows
    (replays _)
  have noBest : db.getBestBlock = .null := by
    rw [CCoinsViewDB.getBestBlock, interrupted.bestBlock]
    rfl
  -- the mixture does not matter: what both tips touch is written, and the rest is the same
  have reached : cache.shown = newCoins := by
    rw [shown.coins, coins]
    exact Updates.replay undo redo interrupted.coins
  obtain ⟨standing, alone⟩ : cache.Alone db.base := run_keeps View.handle_alone ⟨rfl, rfl⟩ run
  have tip : cache.top.hashBlock = new.getBlockHash := by
    have whole := cache.getBestBlock_eq
    rw [shown.bestBlock, best, standing, alone] at whole
    by_cases own : cache.top.hashBlock.isNull = true
    · rw [if_pos own] at whole
      have null : new.getBlockHash = .null := whole.trans noBest
      have real := tips.newReal
      rw [null] at real
      cases real
    · rw [if_neg own] at whole
      exact whole.symm
  have oldTip : db.oldTip new.getBlockHash = .ok old.getBlockHash := by
    rw [CCoinsViewDB.oldTip, noBest, interrupted.headBlocks]
    exact (if_pos rfl).trans (if_pos rfl)
  obtain ⟨batches, flushed, all, parts⟩ := CCoinsViewDB.batchWrite_spec shown.sound alone standing full
    (walks cache.top.cacheCoins) tips.newReal oldTip
  rw [reached] at all parts
  refine ⟨batches, ?_, all, ?_⟩
  · rw [replayBlocks, interrupted.headBlocks]
    simp only [tips.newIndexed, branches, Result.bind_eq_returned]
    refine ⟨_, rfl, _, run, ?_⟩
    rw [flushTo, tip, flushed]
  · intro k small
    rcases Nat.eq_zero_or_pos k with none | positive
    · subst none
      exact interrupted
    · obtain ⟨noBest', heads, mixed⟩ := parts k positive small
      refine ⟨noBest', heads, ?_⟩
      intro o
      rcases mixed o with kept | written
      · rw [kept]
        exact interrupted.coins o
      · exact .inr written

def StoppedReplay (files : BlockFiles) (blockIndex : Uint256 → Option Chain)
    (db db' : CCoinsViewDB) : Prop :=
  ∃ full walk batches k, (∀ m, (walk m).Perm m.entries) ∧
    replayBlocks files blockIndex full walk db = .returned batches ∧ k < batches.length ∧
    db' = db.writeAll (batches.take k).flatten

theorem StoppedReplay.interrupted (stopped : StoppedReplay files blockIndex db db')
    (before : db.Interrupted new.getBlockHash old.getBlockHash oldCoins newCoins) :
    db'.Interrupted new.getBlockHash old.getBlockHash oldCoins newCoins := by
  obtain ⟨full, walk, batches, k, walks, returned, small, rfl⟩ := stopped
  obtain ⟨batches', returned', _, parts⟩ := replayBlocks_spec tips before full walk walks
  cases returned.symm.trans returned'
  exact parts k small

end

/-- After an interrupted flush, and after any number of replays that were interrupted as well,
`ReplayBlocks` brings the database to the coins of the new tip. -/
theorem replayBlocks_recovers {db db' : CCoinsViewDB}
    (tips : TwoTips params files stored blockIndex old new oldCoins newCoins)
    (interrupted : db.Interrupted new.getBlockHash old.getBlockHash oldCoins newCoins)
    (reruns : Relation.ReflTransGen (StoppedReplay files blockIndex) db db')
    (full : CDBBatch → Bool) (walk : CCoinsMap → Entries) (walks : ∀ m, (walk m).Perm m.entries) :
    ∃ batches, replayBlocks files blockIndex full walk db' = .returned batches ∧
      (db'.writeAll batches.flatten).AtTip new.getBlockHash newCoins := by
  have still : db'.Interrupted new.getBlockHash old.getBlockHash oldCoins newCoins := by
    induction reruns with
    | refl => exact interrupted
    | tail _ stopped ih => exact stopped.interrupted tips ih
  obtain ⟨batches, returned, all, _⟩ := replayBlocks_spec tips still full walk walks
  exact ⟨batches, returned, all⟩

theorem vprevout_eq {nHeight : Int} {tx : CTransaction} {txundo : CTxUndo}
    (length : txundo.vprevout.length = tx.vin.length)
    (fits : (txChange nHeight tx txundo).Fits coins) :
    txundo.vprevout.map some = (tx.vin.map CTxIn.prevout).map coins := by
  have inputs : (tx.vin.map CTxIn.prevout).length = txundo.vprevout.length := by simp [length]
  rw [← map_fst_zip (le_of_eq inputs)]
  conv_lhs => rw [← map_snd_zip (le_of_eq inputs.symm)]
  rw [map_map, map_map]
  exact map_congr_left fun e member => (fits.present e member).symm

theorem undo_unique {nHeight : Int} {vtx : List CTransaction} {vtxundo vtxundo' : List CTxUndo}
    (undoes : Undoes vtx vtxundo) (undoes' : Undoes vtx vtxundo')
    (fits : FitsAll (changes nHeight vtx vtxundo) coins)
    (fits' : FitsAll (changes nHeight vtx vtxundo') coins) : vtxundo = vtxundo' := by
  induction undoes generalizing vtxundo' coins with
  | nil =>
    cases undoes'
    rfl
  | @cons _ txundo _ _ length _ ih =>
    cases undoes' with
    | @cons _ txundo' _ _ length' rest' =>
      have prevouts := (vprevout_eq length fits.1).trans (vprevout_eq length' fits'.1).symm
      obtain rfl : txundo = txundo' :=
        congrArg CTxUndo.mk (map_injective_iff.mpr (Option.some_injective _) prevouts)
      rw [ih rest' fits.2 fits'.2]

/-- Connecting a block again finds the coins to spend that it found when its undo data was
written. -/
theorem UtxoSet.undo_again {view view' : View} {env : Environment} {blockundo : CBlockUndo}
    (set : UtxoSet params stored pindex coins) (before : UtxoSet params stored pindex.pprev view.shown)
    (same : env.params = params) (sound : view.Sound) (enforced : enforceBIP30 params pindex = true)
    (connects : (connectBlock env (stored pindex).1 pindex false).run View.handle view =
      .returned (some blockundo, view')) : blockundo = (stored pindex).2 := by
  subst same
  obtain ⟨_, _, connected⟩ := connected_of_run env _ sound before.valid enforced connects
  cases set with
  | nothing | genesis => exact absurd rfl connected.parent
  | @block _ _ view₀ _ env' before' same' sound' _ enforced' connects' =>
    obtain ⟨_, _, connected'⟩ := connected_of_run env' _ sound' before'.valid (same' ▸ enforced')
      connects'
    have coins : view₀.state.coins = view.state.coins := before'.unique before
    obtain ⟨coinbase, rest, whole, _⟩ := connected.formed.coinbase
    have undoes := connected.undoes
    have undoes' := connected'.undoes
    have fits' := connected'.fitsRest coinbase rest whole
    rw [whole] at undoes undoes'
    rw [CoinsState.after, coins] at fits'
    exact congrArg CBlockUndo.mk
      (undo_unique undoes undoes' (connected.fitsRest coinbase rest whole) fits')

variable (params files stored) in
/-- The coins after `ConnectTip` and `DisconnectTip` in any order, each on caches of its own. The
undo data that is stored is that of the first time a block was connected. -/
inductive Reorganised : Chain → FlatMap → Prop
  | start {pindex : Chain} {coins : FlatMap} (set : UtxoSet params stored pindex coins) :
      Reorganised pindex coins
  | connect {pindex : Chain} {view view' : View} {blockundo : CBlockUndo} (env : Environment)
      (before : Reorganised pindex.pprev view.shown) (same : env.params = params)
      (sound : view.Sound) (height : pindex.nHeight < 2 ^ 31)
      (enforced : enforceBIP30 params pindex = true)
      (connects : (connectBlock env (stored pindex).1 pindex false).run handle view =
        .returned (some blockundo, view'))
      (written : blockundo = (stored pindex).2 ∨ ∃ coins, UtxoSet params stored pindex coins) :
      Reorganised pindex view'.shown
  | disconnect {pindex : Chain} {view view' : View} (before : Reorganised pindex view.shown)
      (sound : view.Sound) (parent : pindex.pprev ≠ []) (readable : Readable files stored pindex)
      (disconnects : (disconnectBlock (files.undoFile pindex) (stored pindex).1 pindex).run
        handle view = .returned (.ok, view')) : Reorganised pindex.pprev view'.shown

theorem Reorganised.utxoSet (reached : Reorganised params files stored pindex coins) :
    UtxoSet params stored pindex coins := by
  induction reached with
  | start set => exact set
  | @connect pindex _ _ _ env _ same sound height enforced connects written ih =>
    cases pindex with
    | nil => cases connects
    | cons index pprev =>
      rcases written with rfl | ⟨_, set⟩
      · exact .block env ih same sound height enforced connects
      · rw [set.undo_again ih same sound enforced connects] at connects
        exact .block env ih same sound height enforced connects
  | @disconnect pindex view _ _ sound parent readable disconnects ih =>
    rcases pindex with _ | ⟨index, _ | ⟨tip, rest⟩⟩
    · exact absurd rfl parent
    · exact absurd rfl parent
    obtain ⟨_, before, applied, _, rfl⟩ := ih.step
    obtain ⟨file, hasUndo, undo⟩ := readable.undo
    rw [hasUndo] at disconnects
    obtain ⟨t, shows, rfl, _⟩ := post_of_run (handle_refines ∅) (view.shows_state sound)
      (disconnectBlock_wp file _ _ _ _ applied.height parent applied.formed undo applied.undoes
        applied.valid) disconnects
    rw [shows.coins]
    exact before

/-- The coins are those of connecting the blocks of the chain in a row, whatever the history. -/
theorem coins_of_reorganised_chain (reached : Reorganised params files stored pindex coins) :
    UtxoSet params stored pindex coins ∧
      ∀ coins', Reorganised params files stored pindex coins' → coins' = coins :=
  ⟨reached.utxoSet, fun _ other => other.utxoSet.unique reached.utxoSet⟩

end

def oldBlock : CBlock := minedBlock 2 (minedHash minedGenesis)

def newCoinbase : CTransaction := { minedCoinbase with nVersion := 2 }

def newBlock : CBlock :=
  { minedBlock 3 (minedHash minedGenesis) with
    hashMerkleRoot := @CTransaction.getHash Crypto.firstBytes newCoinbase
    vtx := [newCoinbase] }

variable (block : CBlock)

def childOfGenesis : Chain := [minedIndex block, minedIndex minedGenesis]

def storedBlocks : Stored := fun pindex =>
  (if pindex = childOfGenesis oldBlock then oldBlock else newBlock, ⟨[]⟩)

def storedFiles : BlockFiles where
  readBlockFromDisk pindex := some (storedBlocks pindex).1
  undoFile _ := some (@undoWriteToDisk Crypto.firstBytes ⟨[]⟩ (minedHash minedGenesis))

def storedIndex (hash : Uint256) : Option Chain :=
  if hash = minedHash oldBlock then some (childOfGenesis oldBlock)
  else if hash = minedHash newBlock then some (childOfGenesis newBlock) else none

def atGenesis : View := View.fresh { emptyBase with hashBlock := minedHash minedGenesis }

def connectChild : Result Crash BlockInvalid (Option CBlockUndo × View) :=
  let _ := Crypto.firstBytes
  (connectBlock minedEnvironment block (childOfGenesis block) false).run handle atGenesis

def childView : View :=
  match connectChild block with
  | .returned (_, view) => view
  | _ => atGenesis

theorem utxoSet_child (here : storedBlocks (childOfGenesis block) = (block, ⟨[]⟩))
    (enforced : enforceBIP30 minedParams (childOfGenesis block) = true)
    (succeeds : (connectChild block).any (fun out => out.1 = some ⟨[]⟩) = true) :
    let _ := Crypto.firstBytes
    UtxoSet minedParams storedBlocks (childOfGenesis block) (childView block).shown := by
  intro crypto
  obtain ⟨⟨undo, view⟩, connects, same⟩ := exists_of_any succeeds
  cases of_decide_eq_true same
  have empty : UtxoSet minedParams storedBlocks [minedIndex minedGenesis] atGenesis.shown :=
    .genesis _
  have connects' : (connectBlock minedEnvironment (storedBlocks (childOfGenesis block)).1
      (childOfGenesis block) false).run handle atGenesis =
        .returned (some (storedBlocks (childOfGenesis block)).2, view) := by
    rw [here]
    exact connects
  rw [childView, connects]
  exact .block minedEnvironment empty rfl (fresh_sound _) (by simp [nHeight]) enforced
    connects'

theorem oldBlock_set : let _ := Crypto.firstBytes
    UtxoSet minedParams storedBlocks (childOfGenesis oldBlock) (childView oldBlock).shown :=
  utxoSet_child oldBlock (by decide +kernel) (by decide +kernel) (by decide +kernel)

theorem newBlock_set : let _ := Crypto.firstBytes
    UtxoSet minedParams storedBlocks (childOfGenesis newBlock) (childView newBlock).shown :=
  utxoSet_child newBlock (by decide +kernel) (by decide +kernel) (by decide +kernel)

theorem readable_child : let _ := Crypto.firstBytes
    Readable storedFiles storedBlocks (childOfGenesis block) := by
  intro crypto
  have undo : undoReadFromDisk (undoWriteToDisk ⟨[]⟩ (minedHash minedGenesis))
      (minedHash minedGenesis) = some ⟨[]⟩ := by decide +kernel
  exact ⟨rfl, _, rfl, undo⟩

theorem readable_where_different {block other : CBlock} (inside : pindex <:+ childOfGenesis block)
    (outside : ¬pindex <:+ childOfGenesis other) :
    let _ := Crypto.firstBytes
    Readable storedFiles storedBlocks pindex := by
  intro crypto
  rcases suffix_cons_iff.mp inside with whole | below
  · rw [whole]
    exact readable_child block
  · exact absurd (below.trans (suffix_cons _ _)) outside

def createdPoint : COutPoint := ⟨@CTransaction.getHash Crypto.firstBytes newCoinbase, 0⟩

/-- The coin of the new tip has been written, and that of the old one not yet erased. -/
def halfWritten : CCoinsViewDB where
  coins := update (childView oldBlock).shown createdPoint
    ((childView newBlock).shown createdPoint)
  unspent o coin found := by
    by_cases same : o = createdPoint
    · subst same
      rw [update_self] at found
      exact viewAt_unspent _ _ _ _ found
    · rw [update_of_ne same] at found
      exact viewAt_unspent _ _ _ _ found
  bestBlock := none
  headBlocks := [minedHash newBlock, minedHash oldBlock]

theorem replayBlocks_recovers_sample :
    let _ := Crypto.firstBytes
    ∃ (db : CCoinsViewDB) (batches : List CDBBatch),
      StoppedReplay storedFiles storedIndex halfWritten db ∧
      replayBlocks storedFiles storedIndex (fun _ => false) (fun m => m.entries) db =
        .returned batches ∧
      (db.writeAll batches.flatten).AtTip (minedHash newBlock) (childView newBlock).shown := by
  intro crypto
  have tips : TwoTips minedParams storedFiles storedBlocks storedIndex (childOfGenesis oldBlock)
      (childOfGenesis newBlock) (childView oldBlock).shown (childView newBlock).shown := by
    refine {
      oldSet := oldBlock_set
      newSet := newBlock_set
      nonempty := cons_ne_nil _ _
      newReal := by decide +kernel
      newIndexed := by decide +kernel
      oldReal := fun _ => by decide +kernel
      oldIndexed := fun _ => by decide +kernel
      oneTree := fun _ => rfl
      oldReadable := ?_
      newReadable := ?_ }
    · exact fun _ inOld outside => readable_where_different inOld outside
    · exact fun _ inNew outside _ => readable_where_different inNew outside
  have interrupted : halfWritten.Interrupted (minedHash newBlock) (minedHash oldBlock)
      (childView oldBlock).shown (childView newBlock).shown := by
    refine ⟨rfl, rfl, fun o => ?_⟩
    by_cases same : o = createdPoint
    · subst same
      exact .inr (by simp [halfWritten])
    · exact .inl (Function.update_of_ne same ..)
  -- the first replay stops after the first of its batches
  have stops : (replayBlocks storedFiles storedIndex (fun _ => true) (fun m => m.entries)
      halfWritten).any (fun batches => 1 < batches.length) = true := by decide +kernel
  obtain ⟨batches, returned, more⟩ := Result.exists_of_any stops
  have stopped : StoppedReplay storedFiles storedIndex halfWritten
      (halfWritten.writeAll (batches.take 1).flatten) :=
    ⟨_, _, batches, 1, fun _ => .refl _, returned, of_decide_eq_true more, rfl⟩
  obtain ⟨batches', returned', recovered⟩ := replayBlocks_recovers tips interrupted
    (.single stopped) (fun _ => false) (fun m => m.entries) (fun _ => List.Perm.refl _)
  exact ⟨_, batches', stopped, returned', recovered⟩

def atOldTip : View :=
  View.fresh ⟨(childView oldBlock).shown, viewAt_unspent _ _, minedHash oldBlock⟩

theorem coins_of_reorganised_sample : let _ := Crypto.firstBytes
    ∃ view view' : View, view.shown = atGenesis.shown ∧
      (disconnectBlock (storedFiles.undoFile (childOfGenesis oldBlock)) oldBlock
        (childOfGenesis oldBlock)).run handle atOldTip = .returned (.ok, view) ∧
      connectChild newBlock = .returned (some ⟨[]⟩, view') ∧
      UtxoSet minedParams storedBlocks (childOfGenesis newBlock) view'.shown := by
  intro crypto
  have disconnecting : ((disconnectBlock (storedFiles.undoFile (childOfGenesis oldBlock)) oldBlock
      (childOfGenesis oldBlock)).run handle atOldTip).any (fun out => out.1 = .ok) = true := by
    decide +kernel
  have connecting : (connectChild newBlock).any (fun out => out.1 = some ⟨[]⟩) = true := by
    decide +kernel
  obtain ⟨⟨_, view⟩, disconnects, ok⟩ := exists_of_any disconnecting
  obtain ⟨⟨_, view'⟩, connects, same⟩ := exists_of_any connecting
  cases of_decide_eq_true ok
  cases of_decide_eq_true same
  have start : Reorganised minedParams storedFiles storedBlocks (childOfGenesis oldBlock)
      atOldTip.shown := .start oldBlock_set
  have back : Reorganised minedParams storedFiles storedBlocks [minedIndex minedGenesis]
      view.shown := .disconnect start (fresh_sound _) (cons_ne_nil _ _)
        (readable_child oldBlock) disconnects
  have empty : view.shown = atGenesis.shown := back.utxoSet.of_genesis
  rw [empty] at back
  have again : Reorganised minedParams storedFiles storedBlocks (childOfGenesis newBlock)
      view'.shown := .connect minedEnvironment back rfl (fresh_sound _)
        (by simp [childOfGenesis, nHeight]) (by decide +kernel) connects (.inl rfl)
  exact ⟨view, view', empty, disconnects, connects, (coins_of_reorganised_chain again).1⟩

end Qogecoin.Validation
