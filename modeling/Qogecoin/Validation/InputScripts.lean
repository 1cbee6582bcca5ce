import Qogecoin.Consensus.TxVerify
import Qogecoin.Script.ScriptCheck

/-! `CheckInputScripts`: all scripts of a transaction, run at once or handed to the check queue.
The two caches are read only here: what they hold is part of the surroundings of a call. -/
namespace Qogecoin.Validation

open Codec Commands Coins Consensus Script

def scriptErrorString : ScriptError → String
  | .ok => "No error"
  | .evalFalse =>
    "Script evaluated without error but finished with a false/empty top stack element"
  | .verify => "Script failed an OP_VERIFY operation"
  | .equalVerify => "Script failed an OP_EQUALVERIFY operation"
  | .checkMultiSigVerify => "Script failed an OP_CHECKMULTISIGVERIFY operation"
  | .checkSigVerify => "Script failed an OP_CHECKSIGVERIFY operation"
  | .numEqualVerify => "Script failed an OP_NUMEQUALVERIFY operation"
  | .scriptSize => "Script is too big"
  | .pushSize => "Push value size limit exceeded"
  | .opCount => "Operation limit exceeded"
  | .stackSize => "Stack size limit exceeded"
  | .sigCount => "Signature count negative or greater than pubkey count"
  | .pubKeyCount => "Pubkey count negative or limit exceeded"
  | .badOpcode => "Opcode missing or not understood"
  | .disabledOpcode => "Attempted to use a disabled opcode"
  | .invalidStackOperation => "Operation not valid with the current stack size"
  | .invalidAltStackOperation => "Operation not valid with the current altstack size"
  | .opReturn => "OP_RETURN was encountered"
  | .unbalancedConditional => "Invalid OP_IF construction"
  | .negativeLockTime => "Negative locktime"
  | .unsatisfiedLockTime => "Locktime requirement not satisfied"
  | .sigHashType => "Signature hash type missing or not understood"
  | .sigDER => "Non-canonical DER signature"
  | .minimalData => "Data push larger than necessary"
  | .sigPushOnly => "Only push operators allowed in signatures"
  | .sigHighS => "Non-canonical signature: S value is unnecessarily high"
  | .sigNullDummy => "Dummy CHECKMULTISIG argument must be zero"
  | .minimalIf => "OP_IF/NOTIF argument must be minimal"
  | .sigNullFail => "Signature must be zero for failed CHECK(MULTI)SIG operation"
  | .discourageUpgradableNops => "NOPx reserved for soft-fork upgrades"
  | .discourageUpgradableWitnessProgram => "Witness version reserved for soft-fork upgrades"
  | .discourageUpgradableTaprootVersion => "Taproot version reserved for soft-fork upgrades"
  | .discourageOpSuccess => "OP_SUCCESSx reserved for soft-fork upgrades"
  | .discourageUpgradablePubKeyType => "Public key version reserved for soft-fork upgrades"
  | .pubKeyType => "Public key is neither compressed or uncompressed"
  | .cleanStack => "Stack size must be exactly one after execution"
  | .witnessProgramWrongLength => "Witness program has incorrect length"
  | .witnessProgramWitnessEmpty => "Witness program was passed an empty witness"
  | .witnessProgramMismatch => "Witness program hash mismatch"
  | .witnessMalleated => "Witness requires empty scriptSig"
  | .witnessMalleatedP2SH => "Witness requires only-redeemscript scriptSig"
  | .witnessUnexpected => "Witness provided for non-witness script"
  | .witnessPubKeyType => "Using non-compressed keys in segwit"
  | .schnorrSigSize => "Invalid Schnorr signature size"
  | .schnorrSigHashType => "Invalid Schnorr signature hash type"
  | .schnorrSig => "Invalid Schnorr signature"
  | .taprootWrongControlSize => "Invalid Taproot control block size"
  | .tapscriptValidationWeight => "Too much signature validation relative to witness weight"
  | .tapscriptCheckMultiSig => "OP_CHECKMULTISIG(VERIFY) is not available in tapscript"
  | .tapscriptMinimalIf => "OP_IF/NOTIF argument must be minimal in tapscript"
  | .opCodeSeparator => "Using OP_CODESEPARATOR in non-witness script"
  | .sigFindAndDelete => "Signature is found in scriptCode"
  | .unknownError => "unknown error"

def mandatoryScriptVerifyFlags : Flags := { .p2sh }

def standardScriptVerifyFlags : Flags :=
  mandatoryScriptVerifyFlags ∪
    { .derSig, .strictEnc, .minimalData, .nullDummy, .discourageUpgradableNops, .cleanStack,
      .minimalIf, .nullFail, .checkLockTimeVerify, .checkSequenceVerify, .lowS, .witness,
      .discourageUpgradableWitnessProgram, .witnessPubKeyType, .constScriptCode, .taproot,
      .discourageUpgradableTaprootVersion, .discourageOpSuccess, .discourageUpgradablePubKeyType }

def standardNotMandatoryVerifyFlags : Flags :=
  standardScriptVerifyFlags \ mandatoryScriptVerifyFlags

structure ScriptCaches where
  ecdsa : (vchSig pubkey : Bytes) → (sighash : Uint256) → Bool
  schnorr : (sig pubkey : Bytes) → (sighash : Uint256) → Bool
  execution : (witnessHash : Uint256) → (flags : Flags) → Bool

def ScriptCaches.empty : ScriptCaches := ⟨fun _ _ _ => false, fun _ _ _ => false, fun _ _ => false⟩

section

variable [Crypto]

def scriptCheck (caches : ScriptCaches) (txOut : CTxOut) (tx : CTransaction) (nIn : Nat)
    (flags : Flags) (txdata : PrecomputedTransactionData) : CScriptCheck Unit where
  txOut
  txTo := tx
  nIn := UInt32.ofNat nIn
  nFlags := flags
  txdata
  verifyECDSASignature vchSig pubkey sighash :=
    pure (caches.ecdsa vchSig pubkey sighash || Crypto.verifyECDSA pubkey sighash vchSig)
  verifySchnorrSignature sig pubkey sighash :=
    pure (caches.schnorr sig pubkey sighash || Crypto.verifySchnorr pubkey sighash sig)

variable (check : CScriptCheck Unit)

def runCheck : Result Crash ScriptError Unit :=
  match check.run .assertFail () with
  | .ok _ _ => .returned ()
  | .error (.fail serror) _ => .rejected serror
  | .error (.exception _) _ => .crashed .runtimeError
  | .error (.abort _) _ => .crashed .assertion

/-- What a failed check is reported as: whether it is only a policy failure is found out by a
second check without the flags that are not mandatory. -/
def reportFailure (serror : ScriptError) : Result Crash TxInvalid Unit :=
  let mandatory : TxInvalid :=
    .consensus ("mandatory-script-verify-flag-failed (" ++ scriptErrorString serror ++ ")")
  if check.nFlags ∩ standardNotMandatoryVerifyFlags ≠ ∅ then
    match runCheck { check with nFlags := check.nFlags \ standardNotMandatoryVerifyFlags } with
    | .returned _ => .rejected
      ⟨.notStandard, "non-mandatory-script-verify-flag (" ++ scriptErrorString serror ++ ")"⟩
    | .rejected _ => .rejected mandatory
    | .crashed f => .crashed f
  else .rejected mandatory

def runChecks : List (CScriptCheck Unit) → Result Crash TxInvalid Unit
  | [] => pure ()
  | check :: checks =>
    match runCheck check with
    | .returned _ => runChecks checks
    | .rejected serror => reportFailure check serror
    | .crashed f => .crashed f

def collectSpentOutputs {ε : Type} : List CTxIn → CoinsM ε (List CTxOut)
  | [] => pure []
  | txin :: vin => do
    let coin ← accessUnspent txin
    let rest ← collectSpentOutputs vin
    pure (coin.out :: rest)

def precompute {ε : Type} (tx : CTransaction) (txdata : PrecomputedTransactionData) :
    CoinsM ε PrecomputedTransactionData :=
  if txdata.spentOutputsReady then pure txdata
  else do
    let spentOutputs ← collectSpentOutputs tx.vin
    match txdata.init tx spentOutputs false with
    | some txdata => pure txdata
    | none => Program.crash .assertion

/-- `CheckInputScripts`. With `queueChecks`, which stands for a `pvChecks` that is not null, the
checks are returned and not run. -/
def checkInputScripts (caches : ScriptCaches) (tx : CTransaction) (flags : Flags)
    (txdata : PrecomputedTransactionData) (queueChecks : Bool) :
    CoinsM TxInvalid (PrecomputedTransactionData × List (CScriptCheck Unit)) :=
  if tx.isCoinBase || caches.execution tx.getWitnessHash flags then pure (txdata, [])
  else do
    let txdata ← precompute tx txdata
    .assertThat (txdata.spentOutputs.length = tx.vin.length) .assertion
    let checks := txdata.spentOutputs.mapIdx fun i txOut =>
      scriptCheck caches txOut tx i flags txdata
    if queueChecks then pure (txdata, checks)
    else do
      .lift (runChecks checks)
      pure (txdata, [])

theorem runCheck_sat : (runCheck check).Sat (fun _ => True) noOverflow := by
  unfold runCheck
  split <;> simp

theorem runChecks_sat (checks : List (CScriptCheck Unit)) :
    (runChecks checks).Sat (fun _ => True) noOverflow := by
  induction checks with
  | nil => simp [runChecks]
  | cons check checks ih =>
    have first := runCheck_sat check
    unfold runChecks
    split
    · exact ih
    · unfold reportFailure
      split
      · split
        · simp
        · simp
        next f again =>
          have second := runCheck_sat
            { check with nFlags := check.nFlags \ standardNotMandatoryVerifyFlags }
          rw [again] at second
          exact second
      · simp
    next f crashed =>
      rw [crashed] at first
      exact first

theorem precompute_within {ε : Type} (tx : CTransaction) (txdata : PrecomputedTransactionData) :
    (precompute tx txdata : CoinsM ε PrecomputedTransactionData).Within View.Reads noOverflow := by
  have collect : ∀ vin, (collectSpentOutputs vin : CoinsM ε (List CTxOut)).Within View.Reads
      noOverflow := by
    intro vin
    induction vin with
    | nil => exact .pure _
    | cons txin vin ih =>
      exact .bind (accessUnspent_within txin) fun _ => .bind ih fun _ => .pure _
  unfold precompute
  split
  · exact .pure _
  · refine .bind (collect tx.vin) fun spentOutputs => ?_
    split
    · exact .pure _
    · exact .lift nofun

theorem checkInputScripts_within (caches : ScriptCaches) (tx : CTransaction) (flags : Flags)
    (txdata : PrecomputedTransactionData) (queueChecks : Bool) :
    (checkInputScripts caches tx flags txdata queueChecks).Within View.Reads noOverflow := by
  unfold checkInputScripts
  split
  · exact .pure _
  · refine .bind (precompute_within tx txdata) fun data => .bind (.assertThat _ (by simp)) fun _ => ?_
    split
    · exact .pure _
    · exact .bind (.lift (runChecks_sat _)) fun _ => .pure _

end

end Qogecoin.Validation
