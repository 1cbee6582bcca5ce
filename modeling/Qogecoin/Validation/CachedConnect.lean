import Qogecoin.Validation.ConnectBlock
import Qogecoin.Validation.ScriptCache

/-! `ConnectBlock` with caches that change while it runs. -/
namespace Qogecoin.Validation

open Codec Commands Coins Consensus Script CuckooCache List Program CSignatureCache Nat View

section

variable {κ : Type} [DecidableEq κ] [Crypto] (setup : CacheSetup κ)

structure CachedConnecting where
  nFees : Int64
  nSigOpsCost : Nat
  blockundo : CBlockUndo
  control : List setup.Check
  caches : NodeCaches setup

variable (env : Environment)

/-- The scripts of a transaction; results are stored only by a call that just checks the block. -/
def CacheSetup.connectScripts (flags : Flags) (fJustCheck : Bool)
    (tx : CTransaction) (caches : NodeCaches setup) :
    CoinsM BlockInvalid (List setup.Check × NodeCaches setup) :=
  if tx.isCoinBase || !env.fScriptChecks then pure ([], caches)
  else do
    let (outcome, caches) ← (setup.checkInputScripts tx flags fJustCheck fJustCheck .empty
      env.parallelScriptChecks caches).adapt .ofTx
    match outcome with
    | .hit => pure ([], caches)
    | .accepted _ vChecks => pure (vChecks, caches)
    | .rejected state _ => lift (.rejected (.ofTx state))

def CacheSetup.connectTransaction (pindex : Chain) (flags : Flags)
    (fJustCheck : Bool) (i : Nat) (acc : CachedConnecting setup) (tx : CTransaction) :
    CoinsM BlockInvalid (CachedConnecting setup) := do
  let nFees ← connectInputs env.params pindex acc.nFees tx
  let cost ← getTransactionSigOpCost tx flags
  let nSigOpsCost := acc.nSigOpsCost + cost
  rejectIf (nSigOpsCost > maxBlockSigOpsCost) (.consensus "bad-blk-sigops")
  let (vChecks, caches) ← setup.connectScripts env flags fJustCheck tx acc.caches
  let txundo ← updateCoins tx pindex.nHeight
  let vtxundo := if i > 0 then acc.blockundo.vtxundo ++ [txundo] else acc.blockundo.vtxundo
  pure ⟨nFees, nSigOpsCost, ⟨vtxundo⟩, acc.control ++ vChecks, caches⟩

def CacheSetup.connectTransactions (env : Environment) (pindex : Chain) (flags : Flags)
    (fJustCheck : Bool) :
    (i : Nat) → CachedConnecting setup → List CTransaction →
      CoinsM BlockInvalid (CachedConnecting setup)
  | _, acc, [] => pure acc
  | i, acc, tx :: vtx => do
    let acc ← setup.connectTransaction env pindex flags fJustCheck i acc tx
    CacheSetup.connectTransactions env pindex flags fJustCheck (i + 1) acc vtx

def waitChecksIn {σ : Type} : List (CScriptCheck σ) → EStateM Crash σ Bool
  | [] => pure true
  | check :: checks => do
    let failed ← runCheckIn check
    if failed.isSome then pure false else waitChecksIn checks

def awaited {σ : Type} : EStateM.Result Crash σ Bool → Result Crash BlockInvalid Unit
  | .ok fAllOk _ => .rejectIf (fAllOk = false) (.consensus "block-validation-failed")
  | .error f _ => .crashed f

def CacheSetup.connectChecked (block : CBlock) (pindex : Chain)
    (fJustCheck : Bool) (caches : NodeCaches setup) :
    CoinsM BlockInvalid (Option CBlockUndo) := do
  assertThat (pindex.pprev ≠ []) .assertion
  checkBIP30 env.params pindex block
  let flags := getBlockScriptFlags env.params pindex.getBlockHash pindex
  let acc ← setup.connectTransactions env pindex flags fJustCheck 0 ⟨0, 0, ⟨[]⟩, [], caches⟩
    block.vtx
  lift (checkReward env.params pindex block acc.nFees)
  lift (awaited (waitChecksIn acc.control acc.caches.signatures))
  if fJustCheck then pure none
  else do
    setBestBlock pindex.getBlockHash
    pure (some acc.blockundo)

def CacheSetup.connectBlock (block : CBlock) (pindex : Chain)
    (fJustCheck : Bool) (caches : NodeCaches setup) :
    CoinsM BlockInvalid (Option CBlockUndo) := do
  assertThat (pindex ≠ []) .assertion
  assertThat (pindex.getBlockHash = block.getHash) .assertion
  lift (checkAgain env block fJustCheck)
  let best ← getBestBlock
  assertThat (pindex.pprev.getBlockHash = best) .assertion
  if block.getHash = env.params.hashGenesisBlock then connectGenesis pindex fJustCheck
  else setup.connectChecked env block pindex fJustCheck caches

end

variable {tx : CTransaction}

section

variable {ε : Type}

variable (vin : List CTxIn)

theorem haveAll_reads : (haveAll vin : CoinsM ε Bool).Calls View.Reads := by
  induction vin with
  | nil => exact .pure _
  | cons txin vin ih =>
    refine .bind (.perform trivial) fun found => ?_
    split
    · exact ih
    · exact .pure _

theorem sumInputs_reads (nSpendHeight : Int) (nValueIn : Int64) (vin : List CTxIn) :
    (sumInputs nSpendHeight nValueIn vin).Calls View.Reads := by
  induction vin generalizing nValueIn with
  | nil => exact .pure _
  | cons txin vin ih =>
    exact .bind (accessUnspent_within txin).calls fun _ => .bind (.lift _) fun _ =>
      .bind (.lift _) fun _ => .bind (.lift _) fun _ => ih _

def CreatesAt [Crypto] (utxo : COutPoint → CTxOut) (tx : CTransaction) : Prop :=
  ∀ i out, tx.vout[i]? = some out → utxo ⟨tx.getHash, .ofNat i⟩ = out

theorem updateCoins_adds [Crypto] {utxo : COutPoint → CTxOut} (creates : CreatesAt utxo tx)
    (nHeight : Int) :
    (updateCoins tx nHeight : CoinsM ε CTxUndo).Calls (Adds utxo) := by
  have outputs : ∀ vout i, (∀ j out, vout[j]? = some out →
        utxo ⟨tx.getHash, .ofNat (i + j)⟩ = out) →
      (addOutputs tx.getHash nHeight tx.isCoinBase false i vout : CoinsM ε Unit).Calls
        (Adds utxo) := by
    intro vout
    induction vout with
    | nil => exact fun _ _ => .pure _
    | cons out vout ih =>
      intro i right
      refine .bind (.bind (.pure _) fun overwrite => .perform ?_) fun _ => ih (i + 1) ?_
      · exact (right 0 out rfl).symm
      · intro j next found
        rw [add_assoc, add_comm 1 j]
        exact right (j + 1) next found
  have spends : ∀ vin, (spendInputs vin : CoinsM ε (List Coin)).Calls (Adds utxo) := by
    intro vin
    induction vin with
    | nil => exact .pure _
    | cons txin vin ih =>
      exact .bind (.perform trivial) fun _ => .bind (.lift _) fun _ => .bind ih fun _ => .pure _
  have added := outputs tx.vout 0 (fun j out found => by rw [zero_add]; exact creates j out found)
  unfold updateCoins
  split
  · exact .bind added fun _ => .pure _
  · exact .bind (spends tx.vin) fun _ => .bind added fun _ => .pure _

end

section

variable {ε : Type} {utxo : COutPoint → CTxOut} {view view' : View}

theorem haveAll_has {vin : List CTxIn} (determined : view.Determined utxo)
    (ran : (haveAll vin : CoinsM ε Bool).run View.handle view = .returned (true, view')) :
    ∀ txin ∈ vin, view'.Has utxo txin.prevout := by
  induction vin generalizing view with
  | nil => simp
  | cons txin vin ih =>
    obtain ⟨found, next, asked, rest⟩ := run_bind_eq_returned.mp ran
    have answer : view.haveCoin txin.prevout = (found, next) := Result.returned.inj asked
    cases found with
    | false => cases rest
    | true =>
      have has : next.Has utxo txin.prevout := by
        have here := View.has_of_haveCoin determined (o := txin.prevout) (by rw [answer])
        rw [answer] at here
        exact here
      have still : next.Determined utxo := by
        have left := determined.fetch txin.prevout
        rw [show (view.fetch txin.prevout).2 = next from congrArg Prod.snd answer] at left
        exact left
      have kept := has.run (haveAll_reads vin) rest
      intro other member
      rcases mem_cons.mp member with rfl | later
      · exact kept
      · exact ih still rest other later

theorem checkTxInputs_reads (tx : CTransaction) (nSpendHeight : Int) :
    (checkTxInputs tx nSpendHeight).Calls View.Reads := by
  have inputs : (haveInputs tx : CoinsM TxInvalid Bool).Calls View.Reads := by
    unfold haveInputs
    split
    · exact .pure _
    · exact haveAll_reads tx.vin
  exact .bind inputs fun _ => .bind (.lift _) fun _ => .bind (sumInputs_reads _ _ _) fun _ =>
    .bind (.lift _) fun _ => .bind (.lift _) fun _ => .bind (.lift _) fun _ => .pure _

theorem connectInputs_reads (params : Params) (pindex : Chain) (nFees : Int64)
    (tx : CTransaction) : (connectInputs params pindex nFees tx).Calls View.Reads := by
  unfold connectInputs
  split
  · exact .pure _
  · exact .bind (checkTxInputs_reads tx _).adapt fun _ => .bind (.lift _) fun _ =>
      .bind (.lift _) fun _ => .bind (prevHeights_within _).calls fun _ => .bind (.lift _) fun _ =>
      .bind (.lift _) fun _ => .pure _

theorem checkTxInputs_has {nHeight : Int} {txfee : Int64} (spending : tx.isCoinBase = false)
    (determined : view.Determined utxo)
    (ran : (checkTxInputs tx nHeight).run View.handle view = .returned (txfee, view')) :
    ∀ txin ∈ tx.vin, view'.Has utxo txin.prevout := by
  obtain ⟨available, next, had, rest⟩ := run_bind_eq_returned.mp ran
  unfold haveInputs at had
  rw [if_neg (by simp [spending])] at had
  cases available with
  | false => cases rest
  | true =>
    intro txin member
    have has := haveAll_has determined had txin member
    refine has.run ?_ rest
    exact .bind (.lift _) fun _ => .bind (sumInputs_reads _ _ _) fun _ =>
      .bind (.lift _) fun _ => .bind (.lift _) fun _ => .bind (.lift _) fun _ => .pure _

theorem connectInputs_has {params : Params} {pindex : Chain} {nFees nFees' : Int64}
    (spending : tx.isCoinBase = false) (determined : view.Determined utxo)
    (ran : (connectInputs params pindex nFees tx).run handle view =
      .returned (nFees', view')) : ∀ txin ∈ tx.vin, view'.Has utxo txin.prevout := by
  unfold connectInputs at ran
  rw [if_neg (by simp [spending])] at ran
  obtain ⟨txfee, next, checked, rest⟩ := run_bind_eq_returned.mp ran
  rw [run_adapt, Result.adapt_eq_returned] at checked
  intro txin member
  have has := checkTxInputs_has spending determined checked txin member
  refine has.run ?_ rest
  exact .bind (.lift _) fun _ => .bind (.lift _) fun _ =>
    .bind (prevHeights_within _).calls fun _ => .bind (.lift _) fun _ => .bind (.lift _) fun _ => .pure _

theorem collectSpentOutputs_has {vin : List CTxIn}
    (all : ∀ txin ∈ vin, view.Has utxo txin.prevout) :
    (collectSpentOutputs vin : CoinsM ε (List CTxOut)).run handle view =
      .returned (vin.map fun txin => utxo txin.prevout, view) := by
  induction vin with
  | nil => rfl
  | cons txin vin ih =>
    obtain ⟨coin, access, live, out⟩ := (all txin mem_cons_self).accessCoin
    have read : (accessUnspent txin : CoinsM ε Coin).run handle view =
        .returned (coin, view) := by
      refine run_bind_eq_returned.mpr ⟨coin, view, congrArg Result.returned access, ?_⟩
      simp only [live]
      rfl
    refine run_bind_eq_returned.mpr ⟨coin, view, read, ?_⟩
    refine run_bind_eq_returned.mpr
      ⟨_, view, ih fun other member => all other (mem_cons_of_mem txin member), ?_⟩
    rw [map_cons, out]
    rfl

variable [Crypto]

theorem runChecks_pass {checks : List (CScriptCheck Unit)}
    (pass : ∀ check ∈ checks, runCheck check = .returned ()) : runChecks checks = .returned () := by
  induction checks with
  | nil => rfl
  | cons check checks ih =>
    obtain ⟨first, rest⟩ := forall_mem_cons.mp pass
    unfold runChecks
    rw [first]
    exact ih rest

theorem checkInputScripts_pass {flags : Flags} (spending : tx.isCoinBase = false)
    (all : ∀ txin ∈ tx.vin, view.Has utxo txin.prevout) (pass : ScriptsPass utxo tx flags)
    {given : PrecomputedTransactionData} (known : FreshOrFilled utxo tx given) (queue : Bool) :
    ∃ txdata checks, (checkInputScripts .empty tx flags given queue).run View.handle view =
        .returned ((txdata, checks), view) ∧
      ∀ check ∈ checks, runCheck check = .returned () := by
  obtain ⟨txdata, init, checked⟩ := pass
  have filled : (precompute tx given : CoinsM TxInvalid _).run View.handle view =
      .returned (txdata, view) := by
    unfold precompute
    rcases known with rfl | ⟨ready, before⟩
    · rw [if_neg (by simp [PrecomputedTransactionData.empty])]
      refine run_bind_eq_returned.mpr ⟨_, view, collectSpentOutputs_has all, ?_⟩
      unfold spentBy at init
      rw [init]
      rfl
    · rw [if_pos ready]
      cases before.symm.trans init
      rfl
  have size : txdata.spentOutputs.length = tx.vin.length := by
    rw [PrecomputedTransactionData.init_spentOutputs init, spentBy, length_map]
  refine ⟨txdata, if queue then inputChecks tx flags txdata else [], ?_, ?_⟩
  · rw [checkInputScripts_spending spending]
    refine run_bind_eq_returned.mpr ⟨txdata, view, filled, ?_⟩
    refine run_bind_eq_returned.mpr ⟨(), view, ?_, ?_⟩
    · simp only [Program.assertThat, Result.assertThat, if_pos size]
      rfl
    · cases queue with
      | true => rfl
      | false =>
        refine run_bind_eq_returned.mpr ⟨(), view, ?_, rfl⟩
        rw [runChecks_pass checked]
        rfl
  · cases queue with
    | true => exact checked
    | false => simp

end

section

variable {κ : Type} [Inhabited κ] [Crypto] {setup : CacheSetup κ}

/-- The checks in the queue with caches are those in the queue without, but for checks that are
known to pass. -/
inductive Queued : List setup.Check → List (CScriptCheck Unit) → Prop where
  | nil : Queued [] []
  | both {check : setup.Check} {checks : List setup.Check} {other : CScriptCheck Unit}
      {others : List (CScriptCheck Unit)}
      (same : SameInput setup.signatureCache.transparent check other)
      (rest : Queued checks others) : Queued (check :: checks) (other :: others)
  | passed {checks : List setup.Check} {other : CScriptCheck Unit}
      {others : List (CScriptCheck Unit)} (pass : runCheck other = .returned ())
      (rest : Queued checks others) : Queued checks (other :: others)

variable {checks : List setup.Check}

theorem Queued.append {checks' : List setup.Check} {others others' : List (CScriptCheck Unit)}
    (first : Queued checks others)
    (second : Queued checks' others') : Queued (checks ++ checks') (others ++ others') := by
  induction first with
  | nil => exact second
  | both same _ ih => exact .both same ih
  | passed pass _ ih => exact .passed pass ih

variable {others : List (CScriptCheck Unit)}

theorem queued_of_forall₂
    (same : Forall₂ (SameInput setup.signatureCache.transparent) checks others) :
    Queued checks others := by
  induction same with
  | nil => exact .nil
  | cons first _ ih => exact .both first ih

theorem queued_of_pass (pass : ∀ check ∈ others, runCheck check = .returned ()) :
    Queued ([] : List setup.Check) others := by
  induction others with
  | nil => exact .nil
  | cons other others ih =>
    obtain ⟨first, rest⟩ := forall_mem_cons.mp pass
    exact .passed first (ih rest)

theorem Queued.awaited (queued : Queued checks others)
    {signatures : Cache setup.signatureCache.setValid}
    (sound : setup.signatureCache.Sound signatures) :
    Validation.awaited (waitChecksIn checks signatures) = waitChecks others := by
  induction queued generalizing signatures with
  | nil => rfl
  | passed pass _ ih =>
    rw [waitChecks, pass]
    exact ih sound
  | @both check checks other others same _ ih =>
    have ends := runCheckIn_simulates (fun _ _ stopped => stopped) same signatures () sound
    rw [runCheckIn_unit] at ends
    unfold waitChecksIn waitChecks
    generalize ran : runCheckIn check signatures = first at ends
    cases result : runCheck other with
    | returned u =>
      rw [result] at ends
      cases ends with
      | ok _ left _ still =>
        rw [EStateM.bind_of_ok ran]
        exact ih still
    | rejected serror =>
      rw [result] at ends
      cases ends with
      | ok _ left _ still =>
        rw [EStateM.bind_of_ok ran]
        rfl
    | crashed f =>
      rw [result] at ends
      cases ends with
      | error _ left _ still =>
        rw [EStateM.bind_of_error ran]
        rfl

variable {utxo : COutPoint → CTxOut} {txs : Set CTransaction} (env : Environment)

structure Together (utxo : COutPoint → CTxOut) (txs : Set CTransaction)
    (acc : CachedConnecting setup) (plain : Connecting) (view : View) : Prop where
  nFees : acc.nFees = plain.nFees
  nSigOpsCost : acc.nSigOpsCost = plain.nSigOpsCost
  blockundo : acc.blockundo = plain.blockundo
  control : Queued acc.control plain.control
  caches : acc.caches.Sound setup utxo txs
  determined : view.Determined utxo

variable [DecidableEq κ] (free : CollisionFree setup.signatureCache.finalize)
  (distinct : Set.InjOn CTransaction.getWitnessHash txs)
include free distinct

variable {caches : NodeCaches setup}

variable {view : View} {acc : CachedConnecting setup} {plain : Connecting}

theorem connectScripts_matches (member : tx ∈ txs) (flags : Flags) (fJustCheck : Bool)
    (sound : caches.Sound setup utxo txs) (determined : view.Determined utxo)
    (all : tx.isCoinBase = false → ∀ txin ∈ tx.vin, view.Has utxo txin.prevout) :
    Program.Matches View.handle
      (fun (vChecks, caches) others view =>
        Queued vChecks others ∧ caches.Sound setup utxo txs ∧ view.Determined utxo)
      (setup.connectScripts env flags fJustCheck tx caches)
      (connectScripts { env with caches := .empty } flags tx) view := by
  unfold CacheSetup.connectScripts connectScripts
  by_cases skipped : (tx.isCoinBase || !env.fScriptChecks) = true
  · rw [if_pos skipped, if_pos skipped]
    exact .pure ⟨.nil, sound, determined⟩
  rw [if_neg skipped, if_neg skipped]
  have spending : tx.isCoinBase = false := by
    cases coinbase : tx.isCoinBase with
    | false => rfl
    | true => simp [coinbase] at skipped
  have called := checkInputScripts_called free distinct sound member flags fJustCheck fJustCheck
    (.inl rfl) env.parallelScriptChecks determined
  have reads : (checkInputScripts .empty tx flags .empty env.parallelScriptChecks).Calls
      View.Reads := by
    rw [checkInputScripts_spending spending]
    refine .bind (precompute_within _ _).calls fun _ => .bind (.lift _) fun _ => ?_
    split
    · exact .pure _
    · exact .bind (.lift _) fun _ => .pure _
  unfold Program.Matches
  rw [run_bind, run_bind, run_adapt, run_adapt]
  generalize (setup.checkInputScripts tx flags fJustCheck fJustCheck .empty
    env.parallelScriptChecks caches).run View.handle view = cached at called ⊢
  generalize ran : (checkInputScripts .empty tx flags .empty env.parallelScriptChecks).run
    View.handle view = plain at called ⊢
  cases called with
  | hit caches' sound' pass =>
    obtain ⟨txdata, checks, returned, passing⟩ :=
      checkInputScripts_pass spending (all spending) pass (.inl rfl) env.parallelScriptChecks
    cases ran.symm.trans returned
    exact .returned _ _ _ ⟨queued_of_pass passing, sound', determined⟩
  | accepted caches' sound' txdata vChecks same filled view' =>
    exact .returned _ _ _ ⟨queued_of_forall₂ same, sound', determined.run_reads reads ran⟩
  | rejected caches' sound' state txdata filled view' => exact .rejected _
  | refused e => exact .rejected _
  | crashed f => exact .crashed f

theorem connectTransaction_matches (pindex : Chain) (flags : Flags) (fJustCheck : Bool) (i : Nat)
    (member : tx ∈ txs) (creates : CreatesAt utxo tx)
    (together : Together utxo txs acc plain view) :
    Program.Matches View.handle (Together utxo txs)
      (setup.connectTransaction env pindex flags fJustCheck i acc tx)
      (connectTransaction { env with caches := .empty } pindex flags i plain tx) view := by
  obtain ⟨nFees, nSigOpsCost, blockundo, control, caches, determined⟩ := together
  unfold CacheSetup.connectTransaction connectTransaction
  rw [nFees, nSigOpsCost, blockundo]
  -- the coins of the inputs stay in the top cache up to the scripts
  refine .bind_same fun fees view1 checked => ?_
  have determined1 := determined.run_reads (connectInputs_reads _ _ _ _) checked
  refine .bind_same fun cost view2 counted => ?_
  have reads := (getTransactionSigOpCost_within (ε := BlockInvalid) tx flags).calls
  refine .bind_same fun _ _ fewEnough => ?_
  obtain ⟨_, rfl⟩ := run_lift_eq_returned.mp fewEnough
  refine .bind (connectScripts_matches env free distinct member flags fJustCheck caches
    (determined1.run_reads reads counted) ?_) ?_
  · intro spending txin member
    exact (connectInputs_has spending determined checked txin member).run reads counted
  rintro ⟨vChecks, caches'⟩ others view ⟨queued, sound, determined⟩
  refine .bind_same fun txundo view' updated => ?_
  exact .pure ⟨rfl, rfl, rfl, control.append queued, sound,
    determined.run (updateCoins_adds creates _) updated⟩

theorem connectTransactions_matches (pindex : Chain) (flags : Flags) (fJustCheck : Bool) (i : Nat)
    {vtx : List CTransaction} (member : ∀ tx ∈ vtx, tx ∈ txs)
    (creates : ∀ tx ∈ vtx, CreatesAt utxo tx) (together : Together utxo txs acc plain view) :
    Matches handle (Together utxo txs)
      (setup.connectTransactions env pindex flags fJustCheck i acc vtx)
      (connectTransactions { env with caches := .empty } pindex flags i plain vtx) view := by
  induction vtx generalizing i acc plain view with
  | nil => exact .pure together
  | cons tx vtx ih =>
    obtain ⟨first, rest⟩ := forall_mem_cons.mp member
    obtain ⟨firstCreates, restCreates⟩ := forall_mem_cons.mp creates
    refine .bind (connectTransaction_matches env free distinct pindex flags fJustCheck i first
      firstCreates together) ?_
    intro acc plain view together
    exact ih (i + 1) rest restCreates together

section

variable (block : CBlock) (pindex : Chain) (fJustCheck : Bool) (member : ∀ tx ∈ block.vtx, tx ∈ txs)
  (creates : ∀ tx ∈ block.vtx, CreatesAt utxo tx) (sound : caches.Sound setup utxo txs)
  (determined : view.Determined utxo)
include member creates sound determined

theorem connectChecked_matches :
    Program.Matches View.handle (fun a b _ => a = b)
      (setup.connectChecked env block pindex fJustCheck caches)
      (connectChecked { env with caches := .empty } block pindex fJustCheck) view := by
  have overwrites : ∀ outpoints, (refuseOverwrite outpoints).Calls View.Reads := by
    intro outpoints
    induction outpoints with
    | nil => exact .pure _
    | cons outpoint rest ih =>
      exact .bind (.perform trivial) fun _ => .bind (.lift _) fun _ => ih
  have bip30 : (checkBIP30 env.params pindex block).Calls View.Reads := by
    unfold checkBIP30
    split
    · exact overwrites _
    · exact .pure _
  refine .bind_same fun _ view1 asserted => ?_
  have determined1 := determined.run_reads (.lift _) asserted
  refine .bind_same fun _ view2 unspent => ?_
  refine .bind (connectTransactions_matches env free distinct pindex _ fJustCheck 0 member creates
    ⟨rfl, rfl, rfl, .nil, sound, determined1.run_reads bip30 unspent⟩) ?_
  intro acc plain view together
  rw [together.nFees, together.blockundo, together.control.awaited together.caches.signatures]
  exact .same fun _ _ _ => rfl

theorem connectBlock_alike :
    (setup.connectBlock env block pindex fJustCheck caches).run handle view =
      (connectBlock { env with caches := .empty } block pindex fJustCheck).run handle view := by
  apply Matches.run_eq
  refine .bind_same fun _ _ pointed => ?_
  obtain ⟨_, rfl⟩ := run_lift_eq_returned.mp pointed
  refine .bind_same fun _ _ named => ?_
  obtain ⟨_, rfl⟩ := run_lift_eq_returned.mp named
  refine .bind_same fun _ _ again => ?_
  obtain ⟨_, rfl⟩ := run_lift_eq_returned.mp again
  refine .bind_same fun best view1 read => ?_
  have asks : (getBestBlock : CoinsM BlockInvalid Uint256).Calls (Adds utxo) :=
    .perform trivial
  refine .bind_same fun _ _ asserted => ?_
  obtain ⟨_, rfl⟩ := run_lift_eq_returned.mp asserted
  split
  · exact .same fun _ _ _ => rfl
  · exact connectChecked_matches env free distinct block pindex fJustCheck member creates sound
      (determined.run asks read)

end

end

/-- Over every run that begins with empty caches: what is answered with them is what is answered
without, a hit in the script execution cache is one of a transaction whose scripts all pass with
these flags, and whatever was validated before, a block is connected as without caches. -/
theorem caches_are_transparent {κ : Type} [Inhabited κ] [DecidableEq κ] [Crypto]
    (setup : CacheSetup κ) (utxo : COutPoint → CTxOut) (txs : Set CTransaction)
    (free : CollisionFree setup.signatureCache.finalize)
    (distinct : Set.InjOn CTransaction.getWitnessHash txs) (events : List Event)
    (valid : ∀ event ∈ events, event.Valid utxo txs) :
    Forall₂ (Event.Right setup utxo) events
        (Queries.answers setup.ask (.fresh setup) events) ∧
      ∀ env block pindex fJustCheck view,
        (∀ tx ∈ block.vtx, tx ∈ txs ∧ CreatesAt utxo tx) → Determined utxo view →
        (setup.connectBlock env block pindex fJustCheck
            (Queries.leaves setup.ask (.fresh setup) events)).run handle view =
          (connectBlock { env with caches := .empty } block pindex fJustCheck).run handle
            view := by
  have step : ∀ (caches : NodeCaches setup) (event : Event), caches.Sound setup utxo txs →
      event.Valid utxo txs → (setup.ask caches event).2.Sound setup utxo txs ∧
        event.Right setup utxo (setup.ask caches event).1 := ask_right free distinct
  constructor
  · exact Queries.answers_right step events sound_fresh valid
  · intro env block pindex fJustCheck view known determined
    have sound := Queries.leaves_keeps (fun caches event sound valid =>
      (step caches event sound valid).1) events sound_fresh valid
    exact connectBlock_alike env free distinct block pindex fJustCheck
      (fun tx member => (known tx member).1) (fun tx member => (known tx member).2) sound determined

def sampleTx : CTransaction := ⟨2, [⟨⟨.null, 0⟩, [], 0, []⟩], [], 0⟩

def constantBase (out : CTxOut) (live : (Coin.mk out false 0).isSpent = false) : BaseView where
  coins _ := some ⟨out, false, 0⟩
  unspent := by
    intro o c found
    cases found
    exact live
  hashBlock := .null

theorem constantBase_determined (out : CTxOut) (live : (Coin.mk out false 0).isSpent = false) :
    Determined (fun _ => out) ⟨⟨.null, ∅⟩, [], constantBase out live⟩ := by
  constructor
  · intro o coin found
    cases found
    rfl
  · intro cache member
    cases mem_singleton.mp member
    intro o entry found
    cases found

def sampleSetup {κ : Type} (finalize : Bytes → κ) : CacheSetup κ where
  signatureCache := ⟨.null, finalize, ⟨2, 1, fun _ _ => 0, Nat.two_pos⟩⟩
  executionNonce := .null
  scriptExecutionCache := ⟨2, 1, fun _ _ => 0, Nat.two_pos⟩

/-- A hash that is free of collisions, but gives the element the tables are filled with for the
entry of the sample: its script, which is `OP_RETURN`, counts as evaluated in empty caches. -/
theorem default_entry_is_a_hit :
    let _ := Crypto.blank
    let missed := (sampleSetup id).executionEntry sampleTx.getWitnessHash ∅
    let finalize : Bytes → Bytes := fun data => if data = missed then [] else 0 :: data
    let setup := sampleSetup finalize
    let utxo : COutPoint → CTxOut := fun _ => ⟨0, [0x6a]⟩
    let view : View := ⟨⟨.null, ∅⟩, [], constantBase ⟨0, [0x6a]⟩ (by decide)⟩
    Function.Injective setup.signatureCache.finalize ∧ View.Determined utxo view ∧
      (setup.ask (.fresh setup) (.call view sampleTx ∅ true true .empty false)).1 =
        .called (.returned .hit) ∧ ¬ScriptsPass utxo sampleTx ∅ := by
  intro crypto missed finalize setup utxo view
  refine ⟨?_, constantBase_determined _ _, ?_, ?_⟩
  · intro data data' same
    simp only [setup, sampleSetup, finalize] at same
    grind
  · have entry : setup.executionEntry sampleTx.getWitnessHash ∅ = default := by
      rfl
    have found : ((Cache.setup setup.scriptExecutionCache).contains default false).1 = true :=
      Cache.setup_contains false
    rw [← entry] at found
    have hit : setup.checkInputScripts sampleTx ∅ true true .empty false (.fresh setup) =
        pure (.hit, { NodeCaches.fresh setup with executions :=
          ((NodeCaches.fresh setup).executions.contains
            (setup.executionEntry sampleTx.getWitnessHash ∅) false).2 }) := by
      unfold CacheSetup.checkInputScripts
      rw [if_neg (by decide)]
      exact if_pos found
    rfl
  · rintro ⟨txdata, init, all⟩
    have spent : txdata.spentOutputs = [⟨0, [0x6a]⟩] :=
      PrecomputedTransactionData.init_spentOutputs init
    have first := all (scriptCheck .empty ⟨0, [0x6a]⟩ sampleTx 0 ∅ txdata)
      (by simp [inputChecks, spent])
    have reading : readOps [0x6a] = .op ⟨0x6a, [], []⟩ .done := by
      have read : getScriptOp [0x6a] = .ok ⟨0x6a, [], []⟩ := rfl
      rw [readOps_op read, readOps_nil]
    have fails : runCheck (scriptCheck .empty ⟨0, [0x6a]⟩ sampleTx 0 ∅ txdata) =
        .rejected .opReturn := by
      have input : sampleTx.vin[(UInt32.ofNat 0).toNat]? = some ⟨⟨.null, 0⟩, [], 0, []⟩ := rfl
      unfold runCheck CScriptCheck.run scriptCheck
      simp only [input, verifyScript, evalScript, reading, readOps_nil]
      rfl
    cases fails.symm.trans first

theorem caches_are_transparent_for_sample :
    let _ := Crypto.blank
    let setup := sampleSetup (some : Bytes → Option Bytes)
    let view : View := ⟨⟨.null, ∅⟩, [], constantBase ⟨0, [0x51]⟩ (by decide)⟩
    let events : List Event :=
      [.call view sampleTx ∅ true true .empty false, .ecdsa true [] (2 :: List.replicate 32 1) .null,
        .call view sampleTx ∅ true false .empty true]
    List.Forall₂ (Event.Right setup fun _ => ⟨0, [0x51]⟩) events
      (Queries.answers setup.ask (.fresh setup) events) := by
  intro crypto setup view events
  have free : CSignatureCache.CollisionFree setup.signatureCache.finalize :=
    ⟨Option.some_injective _, fun _ => Option.some_ne_none _⟩
  have valid : ∀ event ∈ events, event.Valid (fun _ => ⟨0, [0x51]⟩) { sampleTx } := by
    have determined := constantBase_determined ⟨0, [0x51]⟩ (by decide)
    simp only [events, forall_mem_cons, Event.Valid]
    exact ⟨⟨rfl, determined, .inl rfl⟩, by decide, ⟨rfl, determined, .inl rfl⟩, by simp⟩
  exact (caches_are_transparent setup _ { sampleTx } free (Set.injOn_singleton _ _) events valid).1

end Qogecoin.Validation
