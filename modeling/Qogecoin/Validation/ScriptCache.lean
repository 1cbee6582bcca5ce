import Qogecoin.Coins.Reads
import Qogecoin.Library.Loops
import Qogecoin.Script.SigCache
import Qogecoin.Validation.InputScripts
import Mathlib.Combinatorics.Colex

/-! The signature cache and the script execution cache over a run of the node: `CheckInputScripts`
with what it looks up, marks for erasure and stores. -/
namespace Qogecoin.Script

open Finset Function

def Flag.bit : Flag → Nat
  | .p2sh => 0
  | .strictEnc => 1
  | .derSig => 2
  | .lowS => 3
  | .nullDummy => 4
  | .sigPushOnly => 5
  | .minimalData => 6
  | .discourageUpgradableNops => 7
  | .cleanStack => 8
  | .checkLockTimeVerify => 9
  | .checkSequenceVerify => 10
  | .witness => 11
  | .discourageUpgradableWitnessProgram => 12
  | .minimalIf => 13
  | .nullFail => 14
  | .witnessPubKeyType => 15
  | .constScriptCode => 16
  | .taproot => 17
  | .discourageUpgradableTaprootVersion => 18
  | .discourageOpSuccess => 19
  | .discourageUpgradablePubKeyType => 20
  | .p2qpk => 21

def flagWord (flags : Flags) : UInt32 := UInt32.ofNat (∑ flag ∈ flags, 2 ^ flag.bit)

theorem Flag.bit_injective : Injective Flag.bit := by
  intro f g same
  cases f <;> cases g <;> first | rfl | cases same

theorem flagWord_injective : Injective flagWord := by
  have sums : ∀ flags : Flags, ∑ flag ∈ flags, 2 ^ flag.bit =
      ∑ i ∈ flags.map ⟨Flag.bit, Flag.bit_injective⟩, 2 ^ i := by
    intro flags
    rw [sum_map]
    rfl
  have small : ∀ flags : Flags, ∑ flag ∈ flags, 2 ^ flag.bit < 2 ^ 32 := by
    intro flags
    rw [sums]
    apply Nat.geomSum_lt (le_refl 2)
    intro i member
    obtain ⟨flag, _, rfl⟩ := mem_map.mp member
    cases flag <;> decide
  intro flags flags' same
  have words := congrArg UInt32.toNat same
  simp only [flagWord, UInt32.toNat_ofNat', Nat.mod_eq_of_lt (small _)] at words
  rw [sums, sums] at words
  exact map_injective _ (geomSum_injective (le_refl 2) words)

end Qogecoin.Script

namespace Qogecoin.Validation

open Codec Commands Coins Consensus Script CuckooCache PrecomputedTransactionData List

section

variable {σ : Type} [Crypto]

def runCheckIn (check : CScriptCheck σ) : EStateM Crash σ (Option ScriptError) := fun s =>
  match check.run .assertFail s with
  | .ok _ s => .ok none s
  | .error (.fail serror) s => .ok (some serror) s
  | .error (.exception _) s => .error .runtimeError s
  | .error (.abort _) s => .error .assertion s

def reportFailureIn (check : CScriptCheck σ) (serror : ScriptError) : EStateM Crash σ TxInvalid :=
  let mandatory : TxInvalid :=
    .consensus ("mandatory-script-verify-flag-failed (" ++ scriptErrorString serror ++ ")")
  if check.nFlags ∩ standardNotMandatoryVerifyFlags ≠ ∅ then do
    let check2 ← runCheckIn
      { check with nFlags := check.nFlags \ standardNotMandatoryVerifyFlags }
    pure (if check2.isSome then mandatory
      else ⟨.notStandard, "non-mandatory-script-verify-flag (" ++ scriptErrorString serror ++ ")"⟩)
  else pure mandatory

def runChecksIn : List (CScriptCheck σ) → EStateM Crash σ (Option TxInvalid)
  | [] => pure none
  | check :: checks => do
    let failed ← runCheckIn check
    match failed with
    | none => runChecksIn checks
    | some serror => do
      let invalid ← reportFailureIn check serror
      pure (some invalid)

end

/-- What is fixed when the caches are set up: the signature cache, and the nonce and the table of
the script execution cache. Both finish their entries with the same hash. -/
structure CacheSetup (κ : Type) where
  signatureCache : CSignatureCache κ
  executionNonce : Uint256
  scriptExecutionCache : Shape κ

abbrev CacheSetup.Check {κ : Type} (setup : CacheSetup κ) :=
  CScriptCheck (Cache setup.signatureCache.setValid)

structure NodeCaches {κ : Type} (setup : CacheSetup κ) where
  signatures : Cache setup.signatureCache.setValid
  executions : Cache setup.scriptExecutionCache

section

variable {κ : Type} [Crypto] (setup : CacheSetup κ)

def NodeCaches.fresh [Inhabited κ] : NodeCaches setup := ⟨.setup _, .setup _⟩

def CacheSetup.executionEntry (witnessHash : Uint256) (flags : Flags) : κ :=
  setup.signatureCache.finalize
    (setup.executionNonce.bytes ++ setup.executionNonce.bytes ++ witnessHash.bytes
      ++ serializeUInt32 (flagWord flags))

variable [DecidableEq κ]

def CacheSetup.check (store : Bool) (txOut : CTxOut) (tx : CTransaction) (nIn : Nat)
    (flags : Flags) (txdata : PrecomputedTransactionData) : setup.Check where
  txOut
  txTo := tx
  nIn := UInt32.ofNat nIn
  nFlags := flags
  txdata
  verifyECDSASignature := setup.signatureCache.verifyECDSASignature store
  verifySchnorrSignature := setup.signatureCache.verifySchnorrSignature store

/-- How a call of `CheckInputScripts` ends: with `true` because of the script execution cache, with
`true` and the checks left to the check queue, or with `false`; and what it leaves in `txdata`. -/
inductive Outcome {κ : Type} (setup : CacheSetup κ) where
  | hit
  | accepted (txdata : PrecomputedTransactionData) (vChecks : List setup.Check)
  | rejected (state : TxInvalid) (txdata : PrecomputedTransactionData)

variable (tx : CTransaction) (flags : Flags)

def CacheSetup.performChecks (cacheFullScriptStore : Bool) (txdata : PrecomputedTransactionData)
    (checks : List setup.Check) (caches : NodeCaches setup) :
    CoinsM TxInvalid (Outcome setup × NodeCaches setup) :=
  match runChecksIn checks caches.signatures with
  | .error f _ => Program.crash f
  | .ok (some state) signatures => pure (.rejected state txdata, { caches with signatures })
  | .ok none signatures =>
    let entry := setup.executionEntry tx.getWitnessHash flags
    let executions :=
      if cacheFullScriptStore then caches.executions.insert entry else caches.executions
    pure (.accepted txdata [], ⟨signatures, executions⟩)

/-- What is left of `CheckInputScripts` when the script execution cache is of no help. -/
def CacheSetup.evaluateInputs
    (cacheSigStore cacheFullScriptStore : Bool) (txdata : PrecomputedTransactionData)
    (queueChecks : Bool) (caches : NodeCaches setup) :
    CoinsM TxInvalid (Outcome setup × NodeCaches setup) := do
  let txdata ← precompute tx txdata
  .assertThat (txdata.spentOutputs.length = tx.vin.length) .assertion
  let checks := txdata.spentOutputs.mapIdx fun i txOut =>
    setup.check cacheSigStore txOut tx i flags txdata
  if queueChecks then pure (.accepted txdata checks, caches)
  else setup.performChecks tx flags cacheFullScriptStore txdata checks caches

/-- `CheckInputScripts` with its caches; `queueChecks` stands for a `pvChecks` that is not null. -/
def CacheSetup.checkInputScripts
    (cacheSigStore cacheFullScriptStore : Bool) (txdata : PrecomputedTransactionData)
    (queueChecks : Bool) (caches : NodeCaches setup) :
    CoinsM TxInvalid (Outcome setup × NodeCaches setup) :=
  if tx.isCoinBase then pure (.accepted txdata [], caches)
  else
    let entry := setup.executionEntry tx.getWitnessHash flags
    let found := caches.executions.contains entry (!cacheFullScriptStore)
    let caches := { caches with executions := found.2 }
    if found.1 then pure (.hit, caches)
    else
      setup.evaluateInputs tx flags cacheSigStore cacheFullScriptStore txdata queueChecks caches

end

section

variable {σ τ : Type} [Crypto] {R : Correspondence σ τ}
  (resume : ∀ s t, R.stopped s t → R.related s t)
include resume

theorem runCheckIn_simulates {check : CScriptCheck σ} {other : CScriptCheck τ}
    (same : SameInput R check other) : Simulates R (runCheckIn check) (runCheckIn other) := by
  intro s t related
  have ends := same.run .assertFail s t related
  unfold runCheckIn
  generalize check.run .assertFail s = left at ends ⊢
  generalize other.run .assertFail t = right at ends ⊢
  cases ends with
  | ok a s' t' still => exact .ok none s' t' still
  | error e s' t' still =>
    cases e with
    | fail serror => exact .ok _ s' t' (resume s' t' still)
    | exception e | abort a => exact .error _ s' t' still

theorem runChecksIn_simulates {checks : List (CScriptCheck σ)} {others : List (CScriptCheck τ)}
    (same : Forall₂ (SameInput R) checks others) :
    Simulates R (runChecksIn checks) (runChecksIn others) := by
  induction same with
  | nil => exact .pure none
  | @cons check other checks others first rest ih =>
    have again := runCheckIn_simulates resume
      (show SameInput R
          { check with nFlags := check.nFlags \ standardNotMandatoryVerifyFlags }
          { other with nFlags := other.nFlags \ standardNotMandatoryVerifyFlags } from
        { first with nFlags := by rw [first.nFlags] })
    refine .bind (runCheckIn_simulates resume first) fun failed => ?_
    cases failed with
    | none => exact ih
    | some serror =>
      refine .bind ?_ fun _ => .pure _
      unfold reportFailureIn
      rw [first.nFlags]
      rw [first.nFlags] at again
      exact .ite (fun _ => .bind again fun _ => .pure _) fun _ => .pure _

end

section

variable [Crypto]

def uncached {σ : Type} (check : CScriptCheck σ) : CScriptCheck Unit where
  txOut := check.txOut
  txTo := check.txTo
  nIn := check.nIn
  nFlags := check.nFlags
  txdata := check.txdata
  verifyECDSASignature vchSig pubkey sighash := pure (Crypto.verifyECDSA pubkey sighash vchSig)
  verifySchnorrSignature sig pubkey sighash := pure (Crypto.verifySchnorr pubkey sighash sig)

def inputChecks (tx : CTransaction) (flags : Flags) (txdata : PrecomputedTransactionData) :
    List (CScriptCheck Unit) :=
  txdata.spentOutputs.mapIdx fun i txOut => scriptCheck .empty txOut tx i flags txdata

def withFailure {ε : Type} : Result Crash ε Unit → EStateM.Result Crash Unit (Option ε)
  | .returned _ => .ok none ()
  | .rejected e => .ok (some e) ()
  | .crashed f => .error f ()

theorem runCheckIn_unit (check : CScriptCheck Unit) :
    runCheckIn check () = withFailure (runCheck check) := by
  unfold runCheckIn runCheck
  cases check.run .assertFail () with
  | ok a s => rfl
  | error stop s =>
    cases stop with
    | fail serror => rfl
    | exception e => rfl
    | abort a => rfl

theorem runChecksIn_unit (checks : List (CScriptCheck Unit)) :
    runChecksIn checks () = withFailure (runChecks checks) := by
  induction checks with
  | nil => rfl
  | cons check checks ih =>
    have first := runCheckIn_unit check
    have second := runCheckIn_unit
      { check with nFlags := check.nFlags \ standardNotMandatoryVerifyFlags }
    unfold runChecksIn runChecks
    cases ran : runCheck check with
    | returned u =>
      rw [ran] at first
      rw [EStateM.bind_of_ok first]
      exact ih
    | crashed f =>
      rw [ran] at first
      rw [EStateM.bind_of_error first]
      rfl
    | rejected serror =>
      rw [ran] at first
      rw [EStateM.bind_of_ok first]
      simp only [reportFailureIn, reportFailure]
      split
      · cases again : runCheck
            { check with nFlags := check.nFlags \ standardNotMandatoryVerifyFlags } with
        | returned _ | rejected _ =>
          rw [again] at second
          simp only [bind_assoc, EStateM.bind_of_ok second]
          rfl
        | crashed f =>
          rw [again] at second
          simp only [bind_assoc, EStateM.bind_of_error second]
          rfl
      · rfl

end

section

variable {κ : Type} [DecidableEq κ] [Crypto] {setup : CacheSetup κ}

theorem uncached_check (store : Bool) (txOut : CTxOut) (tx : CTransaction) (nIn : Nat)
    (flags : Flags) (txdata : PrecomputedTransactionData) :
    uncached (setup.check store txOut tx nIn flags txdata) =
      scriptCheck .empty txOut tx nIn flags txdata := by
  simp [uncached, CacheSetup.check, scriptCheck, ScriptCaches.empty]

theorem checks_uncached (setup : CacheSetup κ) (tx : CTransaction) (flags : Flags) (sigStore : Bool)
    (txdata : PrecomputedTransactionData) :
    (txdata.spentOutputs.mapIdx fun i txOut =>
      setup.check sigStore txOut tx i flags txdata).map uncached = inputChecks tx flags txdata := by
  apply ext_getElem?
  intro i
  simp [inputChecks, uncached_check, Option.map_map, Function.comp_def]

theorem check_sameInput [Inhabited κ]
    (free : CSignatureCache.CollisionFree setup.signatureCache.finalize)
    (store : Bool) (txOut : CTxOut) (tx : CTransaction) (nIn : Nat) (flags : Flags)
    (txdata : PrecomputedTransactionData) :
    SameInput setup.signatureCache.transparent (setup.check store txOut tx nIn flags txdata)
      (uncached (setup.check store txOut tx nIn flags txdata)) where
  txOut := rfl
  txTo := rfl
  nIn := rfl
  nFlags := rfl
  txdata := rfl
  ecdsa vchSig _ sighash key :=
    CSignatureCache.verifyECDSASignature_simulates free store vchSig sighash key
  schnorr sig _ sighash key :=
    CSignatureCache.verifySchnorrSignature_simulates free store sig sighash key

end

section

variable [Crypto] (utxo : COutPoint → CTxOut) (tx : CTransaction)

def spentBy : List CTxOut :=
  tx.vin.map fun txin => utxo txin.prevout

/-- Evaluating all input scripts of the transaction with these flags, without any cache, gives
`true`. -/
def ScriptsPass (flags : Flags) : Prop :=
  ∃ txdata, empty.init tx (spentBy utxo tx) false = some txdata ∧
    ∀ check ∈ inputChecks tx flags txdata, runCheck check = .returned ()

def FreshOrFilled (txdata : PrecomputedTransactionData) : Prop :=
  txdata = .empty ∨ txdata.spentOutputsReady = true ∧
    empty.init tx (spentBy utxo tx) false = some txdata

theorem runChecks_returned {checks : List (CScriptCheck Unit)}
    (passed : runChecks checks = .returned ()) : ∀ check ∈ checks, runCheck check = .returned () := by
  induction checks with
  | nil => simp
  | cons check checks ih =>
    unfold runChecks at passed
    cases first : runCheck check with
    | returned u =>
      rw [first] at passed
      exact forall_mem_cons.mpr ⟨first, ih passed⟩
    | rejected serror =>
      rw [first] at passed
      simp only [reportFailure] at passed
      split at passed
      · split at passed <;> cases passed
      · cases passed
    | crashed f =>
      rw [first] at passed
      cases passed

end

variable {tx : CTransaction}

section

variable {ε : Type} {utxo : COutPoint → CTxOut} {view view' : View}

theorem accessUnspent_run {txin : CTxIn} {coin : Coin}
    (ran : (accessUnspent txin : CoinsM ε Coin).run View.handle view = .returned (coin, view')) :
    view.accessCoin txin.prevout = (coin, view') ∧ coin.isSpent = false := by
  obtain ⟨found, next, read, rest⟩ := Program.run_bind_eq_returned.mp ran
  obtain ⟨_, live, final⟩ := Program.run_lift_bind_eq_returned.mp rest
  cases final
  exact ⟨Result.returned.inj read, Result.assertThat_eq_returned.mp live⟩

theorem collectSpentOutputs_run {start : View} {vin : List CTxIn} {outs : List CTxOut}
    (same : start.SameReads view)
    (ran : (collectSpentOutputs vin : CoinsM ε (List CTxOut)).run View.handle view =
      .returned (outs, view')) :
    outs = (vin.map fun txin => (start.accessCoin txin.prevout).1.out) ∧
      ∀ txin ∈ vin, (start.accessCoin txin.prevout).1.isSpent = false := by
  induction vin generalizing view outs with
  | nil =>
    cases ran
    exact ⟨rfl, nofun⟩
  | cons txin vin ih =>
    obtain ⟨coin, next, read, more⟩ := Program.run_bind_eq_returned.mp ran
    obtain ⟨rest, last, collected, final⟩ := Program.run_bind_eq_returned.mp more
    obtain ⟨access, live⟩ := accessUnspent_run read
    have moved : (view.fetch txin.prevout).2 = next := congrArg Prod.snd access
    have here : (start.accessCoin txin.prevout).1 = coin := by rw [← same txin.prevout, access]
    cases final
    obtain ⟨rfl, unspent⟩ := ih (moved ▸ same.fetch txin.prevout) collected
    rw [map_cons, forall_mem_cons, here]
    exact ⟨rfl, live, unspent⟩

theorem precompute_empty [Crypto] {data : PrecomputedTransactionData}
    (ran : (precompute tx .empty : CoinsM ε PrecomputedTransactionData).run View.handle view =
      .returned (data, view')) :
    ∃ outs next, (collectSpentOutputs tx.vin : CoinsM ε _).run View.handle view =
        .returned (outs, next) ∧
      empty.init tx outs false = some data := by
  unfold precompute at ran
  rw [if_neg (by simp [empty])] at ran
  obtain ⟨outs, next, collected, rest⟩ := Program.run_bind_eq_returned.mp ran
  refine ⟨outs, next, collected, ?_⟩
  cases init : empty.init tx outs false with
  | none =>
    rw [init] at rest
    cases rest
  | some made =>
    rw [init] at rest
    cases rest
    rfl

theorem precompute_run [Crypto] {txdata data : PrecomputedTransactionData}
    (determined : view.Determined utxo) (given : FreshOrFilled utxo tx txdata)
    (ran : (precompute tx txdata : CoinsM ε PrecomputedTransactionData).run View.handle view =
      .returned (data, view')) :
    empty.init tx (spentBy utxo tx) false = some data := by
  rcases given with rfl | ⟨ready, filled⟩
  · obtain ⟨outs, next, collected, init⟩ := precompute_empty ran
    obtain ⟨rfl, unspent⟩ := collectSpentOutputs_run (fun _ => rfl) collected
    rwa [map_congr_left fun txin member => determined.accessCoin (unspent txin member)] at init
  · unfold precompute at ran
    rw [if_pos ready] at ran
    cases ran
    exact filled

end

section

variable {κ : Type} (setup : CacheSetup κ)

/-- One use of the caches: a call of `CheckInputScripts` on the coins of a view, a check run by the
check queue, or a verification of a signature alone. -/
inductive Event where
  | call (view : View) (tx : CTransaction) (flags : Flags)
      (cacheSigStore cacheFullScriptStore : Bool) (txdata : PrecomputedTransactionData)
      (queueChecks : Bool)
  | check (cacheStore : Bool) (txOut : CTxOut) (tx : CTransaction) (nIn : Nat) (flags : Flags)
      (txdata : PrecomputedTransactionData)
  | ecdsa (store : Bool) (vchSig pubkey : Bytes) (sighash : Uint256)
  | schnorr (store : Bool) (sig pubkey : Bytes) (sighash : Uint256)

inductive Answer where
  | called (result : Result Crash TxInvalid (Outcome setup))
  | checked (result : Except Crash (Option ScriptError))
  | verified (result : Except Stop Bool)

variable [DecidableEq κ] [Crypto]

def valueOf {ε σ α : Type} : EStateM.Result ε σ α → Except ε α
  | .ok a _ => .ok a
  | .error e _ => .error e

def stateOf {ε σ α : Type} : EStateM.Result ε σ α → σ
  | .ok _ s => s
  | .error _ s => s

abbrev CachedRun := Result Crash TxInvalid ((Outcome setup × NodeCaches setup) × View)

abbrev PlainRun :=
  Result Crash TxInvalid ((PrecomputedTransactionData × List (CScriptCheck Unit)) × View)

def settleCall (caches : NodeCaches setup) :
    CachedRun setup → Result Crash TxInvalid (Outcome setup) × NodeCaches setup
  | .returned ((outcome, left), _) => (.returned outcome, left)
  | .rejected state => (.rejected state, caches)
  | .crashed f => (.crashed f, caches)

def CacheSetup.ask (caches : NodeCaches setup) : Event → Answer setup × NodeCaches setup
  | .call view tx flags cacheSigStore cacheFullScriptStore txdata queueChecks =>
    let settled := settleCall setup caches ((setup.checkInputScripts tx flags cacheSigStore
      cacheFullScriptStore txdata queueChecks caches).run View.handle view)
    (.called settled.1, settled.2)
  | .check cacheStore txOut tx nIn flags txdata =>
    let ran := runCheckIn (setup.check cacheStore txOut tx nIn flags txdata) caches.signatures
    (.checked (valueOf ran), { caches with signatures := stateOf ran })
  | .ecdsa store vchSig pubkey sighash =>
    let ran := setup.signatureCache.verifyECDSASignature store vchSig pubkey sighash
      caches.signatures
    (.verified (valueOf ran), { caches with signatures := stateOf ran })
  | .schnorr store sig pubkey sighash =>
    let ran := setup.signatureCache.verifySchnorrSignature store sig pubkey sighash
      caches.signatures
    (.verified (valueOf ran), { caches with signatures := stateOf ran })

variable (utxo : COutPoint → CTxOut)

/-- The transactions of the run are in `txs`; the coins a call reads are the outputs at their
outpoints, and its data are those of its transaction; verifications are of keys the callers let
through. -/
def Event.Valid (txs : Set CTransaction) : Event → Prop
  | .call view tx _ _ _ txdata _ =>
    tx ∈ txs ∧ view.Determined utxo ∧ FreshOrFilled utxo tx txdata
  | .check _ _ _ _ _ _ => True
  | .ecdsa _ _ pubkey _ => isValidPubKey pubkey = true
  | .schnorr _ _ pubkey _ => pubkey.length = 32

/-- A hit in the script execution cache is one of a transaction whose scripts all pass; any other
result is that of the call without caches. -/
def CallRight (tx : CTransaction) (flags : Flags) :
    Result Crash TxInvalid (Outcome setup) → PlainRun → Prop
  | .returned .hit, _ => ScriptsPass utxo tx flags
  | .returned (.accepted txdata vChecks), .returned ((txdata', vChecks'), _) =>
    txdata = txdata' ∧ vChecks.map uncached = vChecks'
  | .returned (.rejected state _), .rejected state' => state = state'
  | .rejected state, .rejected state' => state = state'
  | .crashed f, .crashed f' => f = f'
  | _, _ => False

def Event.Right : Event → Answer setup → Prop
  | .call view tx flags _ _ txdata queueChecks, .called result =>
    CallRight setup utxo tx flags result
      ((checkInputScripts .empty tx flags txdata queueChecks).run View.handle view)
  | .check _ txOut tx nIn flags txdata, .checked result =>
    result = valueOf (withFailure (runCheck (scriptCheck .empty txOut tx nIn flags txdata)))
  | .ecdsa _ vchSig pubkey sighash, .verified result =>
    result = .ok (Crypto.verifyECDSA pubkey sighash vchSig)
  | .schnorr _ sig pubkey sighash, .verified result =>
    result = .ok (Crypto.verifySchnorr pubkey sighash sig)
  | _, _ => False

/-- An element the table of executions may hold: the one it is filled with, or the entry of a
transaction whose scripts all pass. -/
inductive Executed [Inhabited κ] (utxo : COutPoint → CTxOut) (txs : Set CTransaction) :
    κ → Prop where
  | unused : Executed utxo txs default
  | passed (tx : CTransaction) (member : tx ∈ txs) (flags : Flags)
      (pass : ScriptsPass utxo tx flags) :
      Executed utxo txs (setup.executionEntry tx.getWitnessHash flags)

structure NodeCaches.Sound [Inhabited κ] (utxo : COutPoint → CTxOut) (txs : Set CTransaction)
    (caches : NodeCaches setup) : Prop where
  signatures : setup.signatureCache.Sound caches.signatures
  executions : ∀ loc, Executed setup utxo txs (caches.executions.table loc)

end

section

variable {κ : Type} [Inhabited κ] [Crypto] {setup : CacheSetup κ}
  {utxo : COutPoint → CTxOut} {txs : Set CTransaction} {caches : NodeCaches setup}

theorem sound_fresh : (NodeCaches.fresh setup).Sound setup utxo txs :=
  ⟨setup.signatureCache.sound_setup, fun _ => .unused⟩

theorem Executed.scriptsPass (free : CSignatureCache.CollisionFree setup.signatureCache.finalize)
    (distinct : Set.InjOn CTransaction.getWitnessHash txs) {flags : Flags} (member : tx ∈ txs)
    (held : Executed setup utxo txs (setup.executionEntry tx.getWitnessHash flags)) :
    ScriptsPass utxo tx flags := by
  generalize computed : setup.executionEntry tx.getWitnessHash flags = entry at held
  cases held with
  | unused => exact absurd computed (free.fresh _)
  | passed tx' member' flags' pass =>
    have strings := free.injective computed
    simp only [append_assoc, append_cancel_left_eq] at strings
    have parts := append_inj strings (by rw [Uint256.size, Uint256.size])
    have sameTx := distinct member member' (Uint256.bytes_injective parts.1)
    have sameWord := prefixFree_uint32.injective trivial trivial parts.2
    rw [sameTx, flagWord_injective sameWord]
    exact pass

theorem value_of_simulates {ε α : Type} {x : EStateM ε (Cache setup.signatureCache.setValid) α}
    {y : EStateM ε Unit α} (same : Simulates setup.signatureCache.transparent x y)
    {signatures : Cache setup.signatureCache.setValid}
    (sound : setup.signatureCache.Sound signatures) :
    valueOf (x signatures) = valueOf (y ()) ∧
      setup.signatureCache.Sound (stateOf (x signatures)) := by
  have ends := same signatures () sound
  generalize x signatures = left at ends ⊢
  generalize y () = right at ends ⊢
  cases ends with
  | ok a left _ still | error e left _ still => exact ⟨rfl, still⟩

variable [DecidableEq κ]

inductive Called (utxo : COutPoint → CTxOut) (txs : Set CTransaction) (tx : CTransaction)
    (flags : Flags) (view : View) : CachedRun setup → PlainRun → Prop where
  | hit (caches : NodeCaches setup) (sound : caches.Sound setup utxo txs)
      (pass : ScriptsPass utxo tx flags) (plain : PlainRun) :
      Called utxo txs tx flags view (.returned ((.hit, caches), view)) plain
  | accepted (caches : NodeCaches setup) (sound : caches.Sound setup utxo txs)
      (txdata : PrecomputedTransactionData) (vChecks : List setup.Check)
      (same : Forall₂ (SameInput setup.signatureCache.transparent) vChecks
        (vChecks.map uncached)) (filled : tx.vin ≠ [] → FreshOrFilled utxo tx txdata)
      (view' : View) :
      Called utxo txs tx flags view (.returned ((.accepted txdata vChecks, caches), view'))
        (.returned ((txdata, vChecks.map uncached), view'))
  | rejected (caches : NodeCaches setup) (sound : caches.Sound setup utxo txs)
      (state : TxInvalid) (txdata : PrecomputedTransactionData)
      (filled : tx.vin ≠ [] → FreshOrFilled utxo tx txdata) (view' : View) :
      Called utxo txs tx flags view (.returned ((.rejected state txdata, caches), view'))
        (.rejected state)
  | refused (e : TxInvalid) : Called utxo txs tx flags view (.rejected e) (.rejected e)
  | crashed (f : Crash) : Called utxo txs tx flags view (.crashed f) (.crashed f)

theorem checkInputScripts_spending (spending : tx.isCoinBase = false) (flags : Flags)
    (txdata : PrecomputedTransactionData) (queue : Bool) :
    checkInputScripts .empty tx flags txdata queue = (do
      let txdata ← precompute tx txdata
      .assertThat (txdata.spentOutputs.length = tx.vin.length) .assertion
      if queue then pure (txdata, inputChecks tx flags txdata)
      else do
        .lift (runChecks (inputChecks tx flags txdata))
        pure (txdata, [])) := by
  unfold checkInputScripts
  rw [if_neg (by simp [spending, ScriptCaches.empty])]
  rfl

variable {txdata : PrecomputedTransactionData} {view : View}

theorem performChecks_called {flags : Flags} {checks : List setup.Check}
    (same : Forall₂ (SameInput setup.signatureCache.transparent) checks
      (inputChecks tx flags txdata))
    (sound : caches.Sound setup utxo txs) (member : tx ∈ txs)
    (init : empty.init tx (spentBy utxo tx) false = some txdata)
    (filled : tx.vin ≠ [] → FreshOrFilled utxo tx txdata) (store : Bool) (view' : View) :
    Called utxo txs tx flags view
      ((setup.performChecks tx flags store txdata checks caches).run View.handle view')
      (Program.run View.handle (do
        .lift (runChecks (inputChecks tx flags txdata))
        pure (txdata, [])) view') := by
  have ends := runChecksIn_simulates (fun _ _ stopped => stopped) same caches.signatures ()
    sound.signatures
  rw [runChecksIn_unit] at ends
  unfold CacheSetup.performChecks
  generalize runChecksIn checks caches.signatures = ran at ends ⊢
  cases result : runChecks (inputChecks tx flags txdata) with
  | returned u =>
    rw [result] at ends
    cases ends with
    | ok _ signatures _ still =>
      have pass : ScriptsPass utxo tx flags := ⟨txdata, init, runChecks_returned result⟩
      refine .accepted ⟨signatures, _⟩ ⟨still, ?_⟩ txdata [] .nil filled view'
      split
      · exact Cache.insert_keeps sound.executions (.passed tx member flags pass)
      · exact sound.executions
  | rejected state =>
    rw [result] at ends
    cases ends with
    | ok _ signatures _ still =>
      exact .rejected ⟨signatures, _⟩ ⟨still, sound.executions⟩ state txdata filled view'
  | crashed f =>
    rw [result] at ends
    cases ends
    exact .crashed f

theorem evaluateInputs_called (free : CSignatureCache.CollisionFree setup.signatureCache.finalize)
    (sound : caches.Sound setup utxo txs) (spending : tx.isCoinBase = false) (member : tx ∈ txs)
    (flags : Flags) (sigStore fullStore : Bool) (given : FreshOrFilled utxo tx txdata)
    (queue : Bool) (determined : view.Determined utxo) :
    Called utxo txs tx flags view
      ((setup.evaluateInputs tx flags sigStore fullStore txdata queue caches).run View.handle view)
      ((checkInputScripts .empty tx flags txdata queue).run View.handle view) := by
  rw [checkInputScripts_spending spending]
  unfold CacheSetup.evaluateInputs
  rw [Program.run_bind, Program.run_bind]
  cases filled : (precompute tx txdata : CoinsM TxInvalid _).run View.handle view with
  | rejected e => exact .refused e
  | crashed f => exact .crashed f
  | returned out =>
    obtain ⟨data, view'⟩ := out
    have init := precompute_run determined given filled
    have left : tx.vin ≠ [] → FreshOrFilled utxo tx data := by
      intro inputs
      exact .inr ⟨init_ready init (by simpa [spentBy] using inputs), init⟩
    have same : List.Forall₂ (SameInput setup.signatureCache.transparent)
        (data.spentOutputs.mapIdx fun i txOut => setup.check sigStore txOut tx i flags data)
        (inputChecks tx flags data) := by
      rw [← checks_uncached setup tx flags sigStore data, forall₂_map_right_iff, forall₂_same]
      intro check member
      obtain ⟨i, _, rfl⟩ := mem_mapIdx.mp member
      exact check_sameInput free _ _ _ _ _ _
    dsimp only
    rw [Program.run_bind, Program.run_bind]
    by_cases size : data.spentOutputs.length = tx.vin.length
    · simp only [Program.assertThat, Result.assertThat, if_pos size, Program.lift, Program.run]
      cases queue with
      | true =>
        rw [← checks_uncached setup tx flags sigStore data] at same ⊢
        exact .accepted caches sound data _ same left view'
      | false => exact performChecks_called same sound member init left fullStore view'
    · simp only [Program.assertThat, Result.assertThat, if_neg size, Program.lift, Program.run]
      exact .crashed .assertion

theorem checkInputScripts_called
    (free : CSignatureCache.CollisionFree setup.signatureCache.finalize)
    (distinct : Set.InjOn CTransaction.getWitnessHash txs) (sound : caches.Sound setup utxo txs)
    (member : tx ∈ txs) (flags : Flags) (sigStore fullStore : Bool)
    (given : FreshOrFilled utxo tx txdata) (queue : Bool) (determined : view.Determined utxo) :
    Called utxo txs tx flags view
      ((setup.checkInputScripts tx flags sigStore fullStore txdata queue caches).run View.handle
        view)
      ((checkInputScripts .empty tx flags txdata queue).run View.handle view) := by
  have left : NodeCaches.Sound setup utxo txs { caches with executions :=
      (caches.executions.contains (setup.executionEntry tx.getWitnessHash flags)
        (!fullStore)).2 } := by
    refine ⟨sound.signatures, ?_⟩
    rw [Cache.contains_table]
    exact sound.executions
  unfold CacheSetup.checkInputScripts
  cases coinbase : tx.isCoinBase with
  | true =>
    simp only [checkInputScripts, coinbase, Bool.true_or, if_true]
    exact .accepted caches sound txdata [] .nil (fun _ => given) view
  | false =>
    simp only [Bool.false_eq_true, if_false]
    split_ifs with found
    · have held := Cache.contains_holds sound.executions found
      exact .hit _ left (held.scriptsPass free distinct member) _
    · exact evaluateInputs_called free left coinbase member flags sigStore
        fullStore given queue determined

omit [DecidableEq κ] in
theorem Called.right {flags : Flags} {cached : CachedRun setup} {plain : PlainRun}
    (called : Called utxo txs tx flags view cached plain) (sound : caches.Sound setup utxo txs) :
    (settleCall setup caches cached).2.Sound setup utxo txs ∧
      CallRight setup utxo tx flags (settleCall setup caches cached).1 plain := by
  cases called with
  | hit caches' sound' pass => exact ⟨sound', pass⟩
  | accepted caches' sound' txdata' vChecks same filled view' => exact ⟨sound', rfl, rfl⟩
  | rejected caches' sound' state txdata' filled view' => exact ⟨sound', rfl⟩
  | refused e | crashed f => exact ⟨sound, rfl⟩

theorem ask_right (free : CSignatureCache.CollisionFree setup.signatureCache.finalize)
    (distinct : Set.InjOn CTransaction.getWitnessHash txs) (caches : NodeCaches setup)
    (event : Event) (sound : caches.Sound setup utxo txs) (valid : event.Valid utxo txs) :
    (setup.ask caches event).2.Sound setup utxo txs ∧
      event.Right setup utxo (setup.ask caches event).1 := by
  cases event with
  | call view tx flags sigStore fullStore txdata queue =>
    obtain ⟨member, determined, given⟩ := valid
    exact (checkInputScripts_called free distinct sound member flags sigStore fullStore given queue
      determined).right sound
  | check store txOut tx nIn flags txdata =>
    obtain ⟨value, still⟩ := value_of_simulates
      (runCheckIn_simulates (fun _ _ stopped => stopped)
        (check_sameInput free store txOut tx nIn flags txdata)) sound.signatures
    rw [uncached_check, runCheckIn_unit] at value
    exact ⟨⟨still, sound.executions⟩, value⟩
  | ecdsa store vchSig pubkey sighash =>
    obtain ⟨value, still⟩ := value_of_simulates
      (CSignatureCache.verifyECDSASignature_simulates free store vchSig sighash valid)
      sound.signatures
    exact ⟨⟨still, sound.executions⟩, value⟩
  | schnorr store sig pubkey sighash =>
    obtain ⟨value, still⟩ := value_of_simulates
      (CSignatureCache.verifySchnorrSignature_simulates free store sig sighash valid)
      sound.signatures
    exact ⟨⟨still, sound.executions⟩, value⟩

end

end Qogecoin.Validation
