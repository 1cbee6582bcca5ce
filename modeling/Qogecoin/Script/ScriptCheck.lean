import Qogecoin.Script.Comparison

/-! `CScriptCheck`: the consensus run of `VerifyScript` with data precomputed once a transaction.
`Init` goes by the raw bytes of the spent outputs; every input for which `VerifyScript` can come to
a Schnorr or SLH-DSA check is one for which `Init` has filled what the check needs. -/
namespace Qogecoin.Script

open Codec GenericTransactionSignatureChecker PrecomputedTransactionData Nat

namespace PrecomputedTransactionData

section

variable [Crypto]

def TaprootReady (data : PrecomputedTransactionData) (txTo : CTransaction)
    (spentOutputs : List CTxOut) : Prop :=
  data.bip341TaprootReady = true ∧ data.spentOutputsReady = true ∧
    data.prevoutsSingleHash = getPrevoutsSHA256 txTo ∧
    data.sequencesSingleHash = getSequencesSHA256 txTo ∧
    data.outputsSingleHash = getOutputsSHA256 txTo ∧
    data.spentAmountsSingleHash = getSpentAmountsSHA256 spentOutputs ∧
    data.spentScriptsSingleHash = getSpentScriptsSHA256 spentOutputs

instance (data : PrecomputedTransactionData) (txTo : CTransaction) (spentOutputs : List CTxOut) :
    Decidable (data.TaprootReady txTo spentOutputs) := by
  unfold TaprootReady
  infer_instance

def SegwitHashes (data : PrecomputedTransactionData) (txTo : CTransaction) : Prop :=
  data.hashPrevouts = sha256Uint256 (getPrevoutsSHA256 txTo) ∧
    data.hashSequence = sha256Uint256 (getSequencesSHA256 txTo) ∧
    data.hashOutputs = sha256Uint256 (getOutputsSHA256 txTo)

end

variable (spent : Nat → Option CTxOut)

theorem scanInputs_keeps (inpos : Nat) (vin : List CTxIn) (segwit : Bool) :
    (scanInputs spent inpos vin (segwit, true)).2 = true := by
  induction vin generalizing inpos segwit with
  | nil => rfl
  | cons txin vin ih =>
    unfold scanInputs
    split
    · rfl
    · split
      · exact ih (inpos + 1) segwit
      · split
        · exact ih (inpos + 1) segwit
        · exact ih (inpos + 1) true

theorem scanInputs_finds {vin : List CTxIn} {i : Nat} {txin : CTxIn}
    (witness : txin.scriptWitness ≠ []) (inpos : Nat) (uses : Bool × Bool)
    (input : vin[i]? = some txin) (taproot : (spent (inpos + i)).any looksLikeTaproot = true) :
    (scanInputs spent inpos vin uses).2 = true := by
  obtain ⟨segwit, found⟩ := uses
  cases found with
  | true => exact scanInputs_keeps spent inpos vin segwit
  | false =>
    induction vin generalizing inpos i segwit with
    | nil => cases input
    | cons head vin ih =>
      unfold scanInputs
      rw [if_neg (by simp)]
      cases i with
      | zero =>
        cases input
        rw [if_neg (by simpa using witness)]
        rw [add_zero] at taproot
        rw [if_pos taproot]
        exact scanInputs_keeps spent (inpos + 1) vin segwit
      | succ i =>
        have later : (spent (inpos + 1 + i)).any looksLikeTaproot = true := by
          rw [add_assoc, add_comm 1 i]
          exact taproot
        split
        · exact ih (inpos + 1) input later segwit
        · split
          · exact scanInputs_keeps spent (inpos + 1) vin segwit
          · exact ih (inpos + 1) input later true

section

variable [Crypto]

variable {spentOutputs : List CTxOut} {txTo : CTransaction}

variable {force : Bool}

theorem init_empty {data : PrecomputedTransactionData}
    (filled : empty.init txTo spentOutputs force = some data) :
    data.spentOutputsReady = !spentOutputs.isEmpty ∧
      (data.bip143SegwitReady = true → data.SegwitHashes txTo) ∧
      (data.bip341TaprootReady = true → data.spentOutputsReady = true →
        data.TaprootReady txTo spentOutputs) ∧
      (spentOutputs ≠ [] →
        (scanInputs (fun inpos => spentOutputs[inpos]?) 0 txTo.vin (force, force)).2 = true →
        data.bip341TaprootReady = true) := by
  unfold init at filled
  rw [if_neg (by simp [empty])] at filled
  split at filled
  · cases filled
  cases nonempty : spentOutputs.isEmpty with
  | false =>
    simp only [nonempty, Bool.not_false, if_true] at filled
    generalize scanInputs _ 0 txTo.vin (force, force) = uses at filled ⊢
    obtain ⟨segwit, taproot⟩ := uses
    cases segwit <;> cases taproot <;> cases filled <;>
      simp [SegwitHashes, TaprootReady, empty]
  | true =>
    simp only [nonempty, Bool.not_true] at filled
    have none : spentOutputs = [] := List.isEmpty_iff.mp nonempty
    generalize scanInputs _ 0 txTo.vin (force, force) = uses at filled
    obtain ⟨segwit, taproot⟩ := uses
    cases segwit <;> cases taproot <;> cases filled <;>
      simp [SegwitHashes, TaprootReady, empty, none]

variable {data filled : PrecomputedTransactionData}

section

variable (ran : data.init txTo spentOutputs force = some filled)
include ran

theorem init_outputs :
    filled.spentOutputs = spentOutputs ∧ filled.spentOutputsReady = !spentOutputs.isEmpty := by
  unfold init at ran
  split at ran
  · cases ran
  · split at ran
    · cases ran
    · simp only [Option.some.injEq] at ran
      generalize scanInputs _ 0 txTo.vin (force, force) = uses at ran
      obtain ⟨segwit, taproot⟩ := uses
      cases segwit <;> cases taproot <;> exact ran ▸ ⟨rfl, rfl⟩

theorem init_spentOutputs : filled.spentOutputs = spentOutputs := (init_outputs ran).1

theorem init_ready (nonempty : spentOutputs ≠ []) : filled.spentOutputsReady = true := by
  rw [(init_outputs ran).2]
  simpa using nonempty

end

theorem init_isSome (sameLength : spentOutputs.length = txTo.vin.length) (force : Bool) :
    ∃ data, empty.init txTo spentOutputs force = some data := by
  unfold init
  rw [if_neg (by simp [empty]), if_neg (by simp [sameLength])]
  exact ⟨_, rfl⟩

omit [Crypto] in
theorem init_finds {i : Nat} {txin : CTxIn} {spent : CTxOut} (input : txTo.vin[i]? = some txin)
    (output : spentOutputs[i]? = some spent) (witness : txin.scriptWitness ≠ [])
    (taproot : looksLikeTaproot spent = true) :
    (scanInputs (fun inpos => spentOutputs[inpos]?) 0 txTo.vin (false, false)).2 = true := by
  apply scanInputs_finds _ witness 0 (false, false) input
  rw [zero_add, output]
  exact taproot

end

end PrecomputedTransactionData

section

variable {σ : Type}

structure SameChecks (c d : BaseSignatureChecker σ) : Prop where
  ecdsa : c.checkECDSASignature = d.checkECDSASignature
  lockTime : c.checkLockTime = d.checkLockTime
  sequence : c.checkSequence = d.checkSequence

def sameness (σ : Type) : Comparison σ σ where
  rel := Eq
  stop _ := rfl
  catchAll := congrArg catchAll
  bind := by
    rintro α β x _ f g rfl rest
    rw [funext rest]
  pure _ := rfl

variable {c d : BaseSignatureChecker σ} (same : SameChecks c d) (flags : Flags)
include same

theorem SameChecks.calls {sigversion : SigVersion} (notTapscript : sigversion ≠ .tapscript) :
    (sameness σ).Calls c d sigversion where
  ecdsa _ _ _ := same.ecdsa ▸ rfl
  schnorr tapscript := absurd tapscript notTapscript
  lockTime _ := same.lockTime ▸ rfl
  sequence _ := same.sequence ▸ rfl

variable [Crypto]

theorem evalScript_congr {sigversion : SigVersion} (notTapscript : sigversion ≠ .tapscript)
    (stack : List Bytes) (script : Bytes) (execdata : ScriptExecutionData) :
    evalScript stack script flags c sigversion execdata =
      evalScript stack script flags d sigversion execdata :=
  Comparison.Relaxes.evalScript (.inl rfl) (same.calls notTapscript) stack script execdata

theorem verifyWitnessV0_congr (witness : List Bytes) (program : Bytes) :
    verifyWitnessV0 witness program flags c = verifyWitnessV0 witness program flags d :=
  Comparison.Relaxes.verifyWitnessV0 (.inl rfl) (same.calls (by simp)) witness program

variable {witness : List Bytes}

/-- Neither check is made without a witness, and neither for a program inside P2SH. -/
theorem verifyWitnessProgram_congr {witversion : Nat} {program : Bytes} {isP2SH : Bool}
    (unchecked : isP2SH = true ∨ witness = [] ∨ program.length ≠ 32 ∨
      (witversion ≠ 1 ∧ witversion ≠ 2)) :
    verifyWitnessProgram witness witversion program flags c isP2SH =
      verifyWitnessProgram witness witversion program flags d isP2SH := by
  have taproot : witness = [] →
      verifyTaproot witness program flags c = verifyTaproot witness program flags d := by
    rintro rfl
    unfold verifyTaproot
    rw [failIf_pos rfl]
    rfl
  have p2qpk : witness = [] →
      verifyP2QPK witness program flags c = verifyP2QPK witness program flags d := by
    rintro rfl
    rfl
  unfold verifyWitnessProgram
  rw [verifyWitnessV0_congr same]
  rcases unchecked with nested | empty | size | version
  · simp [nested]
  · rw [taproot empty, p2qpk empty]
  · simp [size, slhDsaPkLen]
  · simp [version.1, version.2]

theorem verifyWitness_congr {script : Bytes} {isP2SH : Bool}
    (unchecked : isP2SH = true ∨ ∀ witversion program,
      isWitnessProgram script = some (witversion, program) →
        witness = [] ∨ program.length ≠ 32 ∨ (witversion ≠ 1 ∧ witversion ≠ 2))
    (scriptSig expected : Bytes) (malleated : ScriptError) (hadWitness : Bool) (stack : List Bytes) :
    verifyWitness script scriptSig expected malleated witness flags c isP2SH hadWitness stack =
      verifyWitness script scriptSig expected malleated witness flags d isP2SH hadWitness
        stack := by
  unfold verifyWitness
  cases isProgram : isWitnessProgram script with
  | none => rfl
  | some found =>
    have dispatched : verifyWitnessProgram witness found.1 found.2 flags c isP2SH =
        verifyWitnessProgram witness found.1 found.2 flags d isP2SH :=
      verifyWitnessProgram_congr same flags (unchecked.imp_right fun rest => rest _ _ isProgram)
    simp only [dispatched]

/-- Where the scriptPubKey is no Taproot or P2QPK program, or the witness is empty, neither check
is made. -/
theorem verifyScript_congr {scriptPubKey : Bytes} (unchecked : ∀ witversion program,
      isWitnessProgram scriptPubKey = some (witversion, program) →
        witness = [] ∨ program.length ≠ 32 ∨ (witversion ≠ 1 ∧ witversion ≠ 2)) (scriptSig : Bytes) :
    verifyScript scriptSig scriptPubKey witness flags c =
      verifyScript scriptSig scriptPubKey witness flags d := by
  have evaluated := evalScript_congr same flags (by simp : SigVersion.base ≠ .tapscript)
  have nested : ∀ script expected malleated hadWitness stack,
      verifyWitness script scriptSig expected malleated witness flags c true hadWitness stack =
        verifyWitness script scriptSig expected malleated witness flags d true hadWitness stack :=
    fun script expected malleated hadWitness stack =>
      verifyWitness_congr same flags (.inl rfl) scriptSig expected malleated hadWitness stack
  unfold verifyScript verifyP2SH
  simp only [evaluated, verifyWitness_congr same flags (.inr unchecked), nested]

end

/-- The programs `VerifyScript` may check by Schnorr or SLH-DSA are the ones `Init` looks for. -/
theorem looksLikeTaproot_of_program {spent : CTxOut} {witversion : Nat} {program : Bytes}
    (isProgram : isWitnessProgram spent.scriptPubKey = some (witversion, program))
    (long : program.length = 32) (version : witversion = 1 ∨ witversion = 2) :
    looksLikeTaproot spent = true := by
  have script := script_of_program isProgram long version
  unfold looksLikeTaproot
  rw [script]
  rcases version with rfl | rfl
  · simp [long]
  · simp [long]

section

variable {σ : Type} [Crypto]

def BaseSignatureChecker.asserting (checker : BaseSignatureChecker σ) (c : Prop) [Decidable c] :
    BaseSignatureChecker σ :=
  { checker with
    checkSchnorrSignature := fun sig pubkey sigversion execdata => do
      assertThat c .missingData
      checker.checkSchnorrSignature sig pubkey sigversion execdata
    checkSLHDSASignature := fun sig pubkey => do
      assertThat c .missingData
      checker.checkSLHDSASignature sig pubkey }

/-- With the two methods of `CachingTransactionSignatureChecker`, and with the behaviour on missing
data, which is `ASSERT_FAIL` there, as a parameter. -/
structure CScriptCheck (σ : Type) where
  txOut : CTxOut
  txTo : CTransaction
  nIn : UInt32
  nFlags : Flags
  txdata : PrecomputedTransactionData
  verifyECDSASignature : (vchSig pubkey : Bytes) → (sighash : Uint256) → Eval σ Bool
  verifySchnorrSignature : (sig pubkey : Bytes) → (sighash : Uint256) → Eval σ Bool

variable (check : CScriptCheck σ)

def CScriptCheck.checker (mdb : MissingDataBehavior) : BaseSignatureChecker σ :=
  toBase
    { txTo := check.txTo
      mdb
      nIn := check.nIn
      amount := check.txOut.nValue
      txdata := some check.txdata
      verifyECDSASignature := check.verifyECDSASignature
      verifySchnorrSignature := check.verifySchnorrSignature }

def CScriptCheck.run (mdb : MissingDataBehavior) : Eval σ Unit :=
  match check.txTo.vin[check.nIn.toNat]? with
  | none => abort .inputIndex
  | some txin =>
    verifyScript txin.scriptSig check.txOut.scriptPubKey txin.scriptWitness check.nFlags
      (check.checker mdb)

theorem checker_sameChecks (funded : ¬check.txOut.nValue < 0)
    (m n : MissingDataBehavior) : SameChecks (check.checker m) (check.checker n) := by
  constructor
  · funext vchSig vchPubKey scriptCode sigversion
    simp [CScriptCheck.checker, toBase,
      checkECDSASignature, funded]
  · rfl
  · rfl

theorem checker_ready (funded : ¬check.txOut.nValue < 0)
    (taproot : check.txdata.bip341TaprootReady = true)
    (spent : check.txdata.spentOutputsReady = true) (m n : MissingDataBehavior) :
    check.checker m = check.checker n := by
  have others := checker_sameChecks check funded m n
  have hashP2QPK : ∀ mdb, signatureHashP2QPK check.txTo check.nIn check.txdata mdb =
      signatureHashP2QPK check.txTo check.nIn check.txdata n := by
    intro mdb
    simp [signatureHashP2QPK, taproot, spent]
  have hashSchnorr : ∀ mdb execdata hashtype sigversion,
      signatureHashSchnorr execdata check.txTo check.nIn hashtype sigversion check.txdata mdb =
        signatureHashSchnorr execdata check.txTo check.nIn hashtype sigversion check.txdata n := by
    intro mdb execdata hashtype sigversion
    simp [signatureHashSchnorr, schnorrMessage, taproot, spent]
  have schnorr : (check.checker m).checkSchnorrSignature =
      (check.checker n).checkSchnorrSignature := by
    funext sig pubkey sigversion execdata
    simp only [CScriptCheck.checker, toBase,
      checkSchnorrSignature, hashSchnorr m]
  have slhDsa : (check.checker m).checkSLHDSASignature =
      (check.checker n).checkSLHDSASignature := by
    funext sig pubkey
    simp only [CScriptCheck.checker, toBase,
      checkSLHDSASignature, hashP2QPK m]
  cases left : check.checker m
  cases right : check.checker n
  rw [left, right] at others schnorr slhDsa
  cases others.ecdsa
  cases others.lockTime
  cases others.sequence
  cases schnorr
  cases slhDsa
  rfl

omit [Crypto] in
theorem asserting_of_holds (checker : BaseSignatureChecker σ) {c : Prop} [Decidable c] (holds : c) :
    checker.asserting c = checker := by
  unfold BaseSignatureChecker.asserting
  simp only [assertThat_pos holds, pure_bind]

/-- Asserting, at the entry of both checks, that their data is there and right changes no run of any
checker; and for the checker of `CScriptCheck` it makes no difference what it does about missing
data. -/
theorem precomputed_data_is_ready (txTo : CTransaction) (spentOutputs : List CTxOut)
    (sameLength : spentOutputs.length = txTo.vin.length) :
    ∃ data, empty.init txTo spentOutputs false = some data ∧
      (data.bip143SegwitReady = true → data.SegwitHashes txTo) ∧
      ∀ (check : CScriptCheck σ) (txin : CTxIn), check.txTo = txTo → check.txdata = data →
        txTo.vin[check.nIn.toNat]? = some txin →
        spentOutputs[check.nIn.toNat]? = some check.txOut →
        (∀ checker : BaseSignatureChecker σ,
          verifyScript txin.scriptSig check.txOut.scriptPubKey txin.scriptWitness check.nFlags
              (checker.asserting (data.TaprootReady txTo spentOutputs)) =
            verifyScript txin.scriptSig check.txOut.scriptPubKey txin.scriptWitness check.nFlags
              checker) ∧
        (¬check.txOut.nValue < 0 → check.run .assertFail = check.run .fail) := by
  obtain ⟨data, filled⟩ := init_isSome sameLength false
  obtain ⟨known, segwit, hashes, taproot⟩ := init_empty filled
  refine ⟨data, filled, segwit, ?_⟩
  rintro check txin rfl rfl input output
  have nonempty : spentOutputs ≠ [] := by
    rintro rfl
    cases output
  by_cases checked : ∃ witversion program,
      isWitnessProgram check.txOut.scriptPubKey = some (witversion, program) ∧
        txin.scriptWitness ≠ [] ∧ program.length = 32 ∧ (witversion = 1 ∨ witversion = 2)
  · obtain ⟨witversion, program, isProgram, witness, long, version⟩ := checked
    have found := taproot nonempty (init_finds input output witness
      (looksLikeTaproot_of_program isProgram long version))
    have ready := hashes found (by simpa [known] using nonempty)
    constructor
    · intro checker
      rw [asserting_of_holds checker ready]
    · intro funded
      unfold CScriptCheck.run
      rw [checker_ready check funded ready.1 ready.2.1 .assertFail .fail]
  · have unchecked : ∀ witversion program,
        isWitnessProgram check.txOut.scriptPubKey = some (witversion, program) →
          txin.scriptWitness = [] ∨ program.length ≠ 32 ∨ (witversion ≠ 1 ∧ witversion ≠ 2) := by
      intro witversion program isProgram
      by_contra reached
      push Not at reached
      apply checked
      refine ⟨witversion, program, isProgram, reached.1, reached.2.1, ?_⟩
      by_cases one : witversion = 1
      · exact .inl one
      · exact .inr (reached.2.2 one)
    constructor
    · intro checker
      have same : SameChecks
          (checker.asserting (check.txdata.TaprootReady check.txTo spentOutputs)) checker :=
        ⟨rfl, rfl, rfl⟩
      exact verifyScript_congr same check.nFlags unchecked txin.scriptSig
    · intro funded
      unfold CScriptCheck.run
      rw [input]
      exact verifyScript_congr (checker_sameChecks check funded .assertFail .fail) check.nFlags
        unchecked txin.scriptSig

end

theorem precomputed_data_is_ready_for_taproot :
    let _ := Crypto.blank
    let txTo : CTransaction := ⟨2, [⟨⟨.null, 0⟩, [], 0, [[1]]⟩], [], 0⟩
    let spent : CTxOut := ⟨0, Op.op1 :: 0x20 :: List.replicate 32 1⟩
    ∃ data, empty.init txTo [spent] false = some data ∧
      ∀ checker : BaseSignatureChecker Unit,
        verifyScript [] spent.scriptPubKey [[1]] { .p2sh, .witness, .taproot }
            (checker.asserting (data.TaprootReady txTo [spent])) =
          verifyScript [] spent.scriptPubKey [[1]] { .p2sh, .witness, .taproot } checker := by
  intro crypto txTo spent
  obtain ⟨data, filled, _, reached⟩ :=
    precomputed_data_is_ready (σ := Unit) txTo [spent] rfl
  let check : CScriptCheck Unit :=
    ⟨spent, txTo, 0, { .p2sh, .witness, .taproot }, data, fun _ _ _ => pure false,
      fun _ _ _ => pure false⟩
  exact ⟨data, filled, (reached check _ rfl rfl rfl rfl).1⟩

end Qogecoin.Script
