import Qogecoin.Script.Comparison
import Qogecoin.Script.P2QPK

/-! `VerifyScript` leaves an error behind whenever it rejects, except where a signature checker
without transaction data is asked for a signature outside of a script. -/
namespace Qogecoin.Script

open Codec Crypto EStateM List

def Stop.Settled (stop : Stop) : Prop := stop ≠ .fail .ok

/-- A run that returns `false` does not leave `SCRIPT_ERR_OK` behind. -/
abbrev Settles {σ α : Type} (x : Eval σ α) : Prop := Raises Stop.Settled x

section

variable {σ : Type}

variable {α : Type}

theorem catchAll_settles {x : Eval σ α} (set : Settles x) : Settles (catchAll x) := by
  intro s e s' stopped
  unfold catchAll at stopped
  split at stopped
  · cases stopped
    intro same
    cases same
  · exact set s e s' stopped

def settling (σ : Type) : Comparison σ σ where
  rel x _ := Settles x
  stop set := .throw set
  catchAll := catchAll_settles
  bind := .bind
  pure a := .pure a

@[grind ←] theorem fail_settles {serror : ScriptError} (set : serror ≠ .ok) :
    Settles (fail serror : Eval σ α) := (settling σ).fail set

@[grind ←] theorem abort_settles (a : Assertion) : Settles (abort a : Eval σ α) :=
  (settling σ).abort a

@[grind ←] theorem failIf_settles {c : Prop} [Decidable c] {serror : ScriptError}
    (set : serror ≠ .ok) : Settles (failIf c serror : Eval σ Unit) := (settling σ).failIf set

theorem assertThat_settles (c : Prop) [Decidable c] (a : Assertion) :
    Settles (assertThat c a : Eval σ Unit) := (settling σ).assertThat c a

@[grind ←] theorem ofAssertion_settles (x : Except Assertion α) :
    Settles (ofAssertion x : Eval σ α) := by
  cases x <;> grind [ofAssertion]

@[grind ←] theorem requireTrue_settles (stack : List Bytes) :
    Settles (requireTrue stack : Eval σ Unit) := (settling σ).requireTrue stack

/-- No method sets `SCRIPT_ERR_OK` when it rejects; it may set nothing. -/
structure SetsErrors (checker : BaseSignatureChecker σ) : Prop where
  ecdsa : ∀ scriptSig vchPubKey scriptCode sigversion,
    Settles (checker.checkECDSASignature scriptSig vchPubKey scriptCode sigversion)
  schnorr : ∀ sig pubkey sigversion execdata,
    Settles (checker.checkSchnorrSignature sig pubkey sigversion execdata)
  schnorrAnswer : ∀ sig pubkey sigversion execdata s s',
    checker.checkSchnorrSignature sig pubkey sigversion execdata s ≠ .ok (.error (some .ok)) s'
  slhDSA : ∀ sig pubkey, Settles (checker.checkSLHDSASignature sig pubkey)
  slhDSAAnswer : ∀ sig pubkey s s',
    checker.checkSLHDSASignature sig pubkey s ≠ .ok (.error (some .ok)) s'
  lockTime : ∀ nLockTime, Settles (checker.checkLockTime nLockTime)
  sequence : ∀ nSequence, Settles (checker.checkSequence nSequence)

theorem require_settles {current : ScriptError} {checked : Checked α}
    (fallback : checked = .error none → current ≠ .ok) (set : checked ≠ .error (some .ok)) :
    Settles (require current checked : Eval σ α) := by
  match checked with
  | .ok a => exact .pure a
  | .error none => exact fail_settles (fallback rfl)
  | .error (some serror) =>
    apply fail_settles
    intro same
    subst same
    exact set rfl

variable {checker : BaseSignatureChecker σ} (sets : SetsErrors checker) (flags : Flags)
include sets

theorem SetsErrors.calls (sigversion : SigVersion) :
    (settling σ).Calls checker checker sigversion where
  ecdsa _ _ _ := sets.ecdsa _ _ _ _
  schnorr _ _ _ _ := by
    refine Raises.bind_of_ok (sets.schnorr _ _ _ _) fun s answer t returned => ?_
    apply require_settles fun _ => by decide
    intro same
    rw [same] at returned
    exact sets.schnorrAnswer _ _ _ _ _ _ returned
  lockTime _ := .bind (sets.lockTime _) fun _ => failIf_settles (by decide)
  sequence _ := .bind (sets.sequence _) fun _ => failIf_settles (by decide)

variable [Crypto]

theorem evalScript_settles (sigversion : SigVersion) (stack : List Bytes) (script : Bytes)
    (execdata : ScriptExecutionData) :
    Settles (evalScript stack script flags checker sigversion execdata) :=
  Comparison.Relaxes.evalScript (.inl rfl) (sets.calls sigversion) stack script execdata

end

open GenericTransactionSignatureChecker

section

variable {σ α β : Type} {s s' : σ}

theorem unset_of_settles {x : Eval σ α} {f : α → Eval σ β} (settles : Settles x)
    (stopped : (x >>= f) s = .error (.fail .ok) s') :
    ∃ a t, x s = .ok a t ∧ f a t = .error (.fail .ok) s' :=
  (Raises.bind_eq_error.mp stopped).resolve_left fun first => settles _ _ _ first rfl

theorem unset_of_failIf {c : Prop} [Decidable c] {serror : ScriptError} {f : Unit → Eval σ β}
    (set : serror ≠ .ok) (stopped : (failIf c serror >>= f) s = .error (.fail .ok) s') :
    ¬c ∧ f () s = .error (.fail .ok) s' := by
  obtain ⟨_, t, passed, stopped⟩ := unset_of_settles (failIf_settles set) stopped
  obtain ⟨fails, rfl⟩ := failIf_eq_ok.mp passed
  exact ⟨fails, stopped⟩

theorem unset_of_require {x : Eval σ (Checked α)} {f : α → β} (settles : Settles x)
    (sets : ∀ s s', x s ≠ .ok (.error (some .ok)) s')
    (stopped : (x >>= fun checked => f <$> require .ok checked) s = .error (.fail .ok) s') :
    x s = .ok (.error none) s' := by
  obtain ⟨checked, t, answered, stopped⟩ := unset_of_settles settles stopped
  match checked, answered, stopped with
  | .ok _, _, stopped => cases stopped
  | .error none, answered, stopped =>
    cases stopped
    exact answered
  | .error (some serror), answered, stopped =>
    cases stopped
    exact absurd answered (sets _ _)

end

section

variable {σ : Type} [Crypto] {checker : BaseSignatureChecker σ} (sets : SetsErrors checker)
  (flags : Flags)
include sets

variable {program : Bytes} {witness : List Bytes}

omit sets in
variable (checker) in
theorem evalScript_of_program {script : Bytes} {witversion : Nat}
    (found : isWitnessProgram script = some (witversion, program)) (long : program.length = 32)
    (version : witversion = 1 ∨ witversion = 2) :
    ∃ n, evalScript [] script flags checker .base .initial = pure [program, n] := by
  rw [script_of_program found long version]
  rcases version with rfl | rfl
  · exact ⟨_, evalScript_program checker flags (by decide) (by decide) (n := 1) rfl long⟩
  · exact ⟨_, evalScript_program checker flags (by decide) (by decide) (n := 2) rfl long⟩

variable {s s' : σ}

/-- A taproot output leaves `SCRIPT_ERR_OK` behind only when the checker sets nothing for the
signature of a key path. -/
theorem verifyTaproot_unset
    (stopped : verifyTaproot witness program flags checker s = .error (.fail .ok) s') :
    .taproot ∈ flags ∧ ∃ sig execdata, (dropAnnex witness.reverse).2 = [sig] ∧
      checker.checkSchnorrSignature sig program .taproot execdata s = .ok (.error none) s' := by
  by_cases active : .taproot ∈ flags
  · refine ⟨active, ?_⟩
    rw [verifyTaproot, if_neg (not_not_intro active)] at stopped
    obtain ⟨_, stopped⟩ := unset_of_failIf (by decide) stopped
    generalize dropAnnex witness.reverse = dropped at stopped ⊢
    rcases dropped with ⟨annex, _ | ⟨control, _ | ⟨scriptBytes, stack⟩⟩⟩
    · exact absurd rfl (abort_settles _ _ _ _ stopped)
    · simp only at stopped
      exact ⟨control, { ScriptExecutionData.initial with annex := some annex }, rfl,
        unset_of_require (sets.schnorr _ _ _ _) (sets.schnorrAnswer _ _ _ _) stopped⟩
    · have relaxes : (settling σ).Relaxes flags flags := .inl rfl
      exact absurd rfl (relaxes.verifyScriptPath sets.calls _ _ _ _ _ _ _ _ _ stopped)
  · rw [verifyTaproot, if_pos active] at stopped
    cases stopped

theorem verifyP2QPK_unset
    (stopped : verifyP2QPK witness program flags checker s = .error (.fail .ok) s') :
    .p2qpk ∈ flags ∧ ∃ sig pubkey, witness = [sig, pubkey] ∧ sig.length = slhDsaSigLen ∧
      pubkey.length = slhDsaPkLen ∧ (hash256 pubkey).bytes = program ∧
      checker.checkSLHDSASignature sig pubkey s = .ok (.error none) s' := by
  by_cases active : .p2qpk ∈ flags
  · refine ⟨active, ?_⟩
    unfold verifyP2QPK at stopped
    rw [if_neg (not_not_intro active)] at stopped
    split at stopped
    next sig pubkey =>
      obtain ⟨pkLen, stopped⟩ := unset_of_failIf (by decide) stopped
      obtain ⟨sigLen, stopped⟩ := unset_of_failIf (by decide) stopped
      obtain ⟨commitment, stopped⟩ := unset_of_failIf (by decide) stopped
      exact ⟨sig, pubkey, rfl, not_not.mp sigLen, not_not.mp pkLen, not_not.mp commitment,
        unset_of_require (f := id) (sets.slhDSA _ _) (sets.slhDSAAnswer _ _)
          (by simpa only [id_map] using stopped)⟩
    · exact absurd rfl (fail_settles (by decide) _ _ _ stopped)
  · rw [verifyP2QPK_inactive checker flags active] at stopped
    cases stopped

theorem verifyWitnessProgram_unset {witversion : Nat} {isP2SH : Bool}
    (stopped : verifyWitnessProgram witness witversion program flags checker isP2SH s = .error
      (.fail .ok) s') :
    isP2SH = false ∧ program.length = 32 ∧
      ((witversion = 1 ∧ verifyTaproot witness program flags checker s = .error (.fail .ok) s') ∨
        (witversion = 2 ∧ verifyP2QPK witness program flags checker s = .error (.fail .ok) s')) := by
  have relaxes : (settling σ).Relaxes flags flags := .inl rfl
  have v0 := relaxes.verifyWitnessV0 (sets.calls _) witness program
  unfold verifyWitnessProgram at stopped
  split at stopped
  · exact absurd rfl (v0 _ _ _ stopped)
  · split at stopped
    next taproot =>
      exact ⟨taproot.2.2, taproot.2.1, .inl ⟨taproot.1, stopped⟩⟩
    · split at stopped
      next p2qpk =>
        exact ⟨p2qpk.2.2, p2qpk.2.1, .inr ⟨p2qpk.1, stopped⟩⟩
      · exact absurd rfl (failIf_settles (by decide) _ _ _ stopped)

omit sets in
theorem verifyWitness_unset {script scriptSig expected : Bytes} {malleated : ScriptError}
    {isP2SH hadWitness : Bool} {stack : List Bytes} (set : malleated ≠ .ok)
    (stopped : verifyWitness script scriptSig expected malleated witness flags checker isP2SH
      hadWitness stack s = .error (.fail .ok) s') :
    .witness ∈ flags ∧ scriptSig = expected ∧ ∃ witversion program,
      isWitnessProgram script = some (witversion, program) ∧
      verifyWitnessProgram witness witversion program flags checker isP2SH s =
        .error (.fail .ok) s' := by
  unfold verifyWitness at stopped
  by_cases segwit : .witness ∈ flags
  · rw [if_pos segwit] at stopped
    cases found : isWitnessProgram script with
    | none =>
      rw [found] at stopped
      cases stopped
    | some result =>
      obtain ⟨witversion, program⟩ := result
      rw [found] at stopped
      obtain ⟨unaltered, stopped⟩ := unset_of_failIf set stopped
      refine ⟨segwit, not_not.mp unaltered, witversion, program, rfl, ?_⟩
      rcases Raises.bind_eq_error.mp stopped with here | ⟨_, t, _, stopped⟩
      · exact here
      · cases stopped
  · rw [if_neg segwit] at stopped
    cases stopped

theorem verifyP2SH_settles (scriptSig scriptPubKey : Bytes) (witness : List Bytes)
    (stackCopy : List Bytes) (hadWitness : Bool) (stack : List Bytes) :
    Settles (verifyP2SH scriptSig scriptPubKey witness flags checker stackCopy hadWitness stack) := by
  have evaluated := evalScript_settles sets flags .base
  have nested : ∀ script expected stack, Settles (verifyWitness script scriptSig expected
      .witnessMalleatedP2SH witness flags checker true hadWitness stack) := by
    intro script expected stack s e s' stopped same
    rw [same] at stopped
    obtain ⟨_, _, _, _, _, stopped⟩ := verifyWitness_unset flags (by decide) stopped
    cases (verifyWitnessProgram_unset sets flags stopped).1
  unfold verifyP2SH
  grind

theorem verifyScript_unset {scriptSig scriptPubKey : Bytes}
    (stopped : verifyScript scriptSig scriptPubKey witness flags checker s = .error (.fail .ok) s') :
    .witness ∈ flags ∧ scriptSig = [] ∧ ∃ witversion program t,
      isWitnessProgram scriptPubKey = some (witversion, program) ∧ program.length = 32 ∧
      castToBool program = true ∧
      ((witversion = 1 ∧ verifyTaproot witness program flags checker t = .error (.fail .ok) s') ∨
        (witversion = 2 ∧ verifyP2QPK witness program flags checker t = .error (.fail .ok) s')) := by
  have evaluated := evalScript_settles sets flags .base
  obtain ⟨_, stopped⟩ := unset_of_failIf (by decide) stopped
  obtain ⟨stackCopy, t2, copied, stopped⟩ := unset_of_settles (evaluated _ _ _) stopped
  obtain ⟨stack, t3, ran, stopped⟩ := unset_of_settles (evaluated _ _ _) stopped
  obtain ⟨_, t4, truth, stopped⟩ := unset_of_settles (requireTrue_settles _) stopped
  rcases Raises.bind_eq_error.mp stopped with here | ⟨result, t5, _, stopped⟩
  · obtain ⟨segwit, rfl, witversion, program, found, stopped⟩ :=
      verifyWitness_unset flags (by decide) here
    obtain ⟨_, long, which⟩ := verifyWitnessProgram_unset sets flags stopped
    refine ⟨segwit, rfl, witversion, program, t4, found, long, ?_, which⟩
    -- the program is on top of the stack that has passed
    rw [evalScript_nil] at copied
    cases copied
    obtain ⟨n, pushed⟩ :=
      evalScript_of_program checker flags found long (which.imp And.left And.left)
    rw [pushed] at ran
    cases ran
    rw [requireTrue] at truth
    simpa using (failIf_eq_ok.mp truth).1
  · obtain ⟨hadWitness, stack⟩ := result
    rcases Raises.bind_eq_error.mp stopped with first | ⟨ended, t6, _, stopped⟩
    · exact absurd rfl (verifyP2SH_settles sets flags _ _ _ _ _ _ _ _ _ first)
    · exact absurd rfl ((settling σ).verifyEnd _ _ _ _ _ _ _ stopped)

end

section

theorem settles_of_returns {α : Type} {x : Eval σ α} (returns : ∀ s, ∃ a s', x s = .ok a s') :
    Settles x := by
  intro s e s' stopped
  obtain ⟨a, t, returned⟩ := returns s
  rw [returned] at stopped
  cases stopped

variable {σ : Type} [Crypto]

structure GenericTransactionSignatureChecker.Answers
    (txChecker : GenericTransactionSignatureChecker σ) : Prop where
  ecdsa : ∀ vchSig pubkey sighash s, ∃ valid s',
    txChecker.verifyECDSASignature vchSig pubkey sighash s = .ok valid s'
  schnorr : ∀ sig pubkey sighash s, ∃ valid s',
    txChecker.verifySchnorrSignature sig pubkey sighash s = .ok valid s'

variable {txChecker : GenericTransactionSignatureChecker σ}

variable {serror : Option ScriptError} {sig scriptPubKey : Bytes} {witness : List Bytes}

omit [Crypto] in
theorem splitSchnorr_set (rejected : splitSchnorr sig = .error serror) :
    serror ≠ some .ok ∧ serror ≠ none := by
  unfold splitSchnorr at rejected
  grind

variable {s s' : σ} {flags : Flags}

theorem checkSchnorrSignature_error {pubkey : Bytes} {sigversion : SigVersion}
    {execdata : ScriptExecutionData}
    (answered : txChecker.checkSchnorrSignature sig pubkey sigversion execdata s = .ok (.error
      serror) s') :
    serror ≠ some .ok ∧ (serror = none →
      txChecker.txdata = none ∧ ∃ split, splitSchnorr sig = .ok split) := by
  obtain ⟨_, _, _, answered⟩ := bind_eq_ok.mp answered
  obtain ⟨_, _, _, answered⟩ := bind_eq_ok.mp answered
  cases split : splitSchnorr sig with
  | error unsplit =>
    rw [split] at answered
    cases answered
    exact (splitSchnorr_set split).imp_right fun named none => absurd none named
  | ok parts =>
    rw [split] at answered
    cases data : txChecker.txdata with
    | none =>
      simp only [data] at answered
      obtain ⟨missing, _, _, answered⟩ := bind_eq_ok.mp answered
      cases missing with
      | none =>
        cases answered
        exact ⟨nofun, fun _ => ⟨rfl, parts, rfl⟩⟩
      | some _ => cases answered
    | some txdata =>
      simp only [data] at answered
      obtain ⟨hashed, _, _, answered⟩ := bind_eq_ok.mp answered
      cases hashed with
      | none =>
        cases answered
        exact ⟨nofun, nofun⟩
      | some result =>
        obtain ⟨valid, _, _, answered⟩ := bind_eq_ok.mp answered
        cases valid with
        | true => cases answered
        | false =>
          cases answered
          exact ⟨nofun, nofun⟩

theorem checkSLHDSASignature_error {pubkey : Bytes}
    (answered : txChecker.checkSLHDSASignature sig pubkey s = .ok (.error serror) s') :
    serror ≠ some .ok ∧ (serror = none → txChecker.txdata = none) := by
  unfold checkSLHDSASignature at answered
  cases data : txChecker.txdata with
  | none =>
    simp only [data] at answered
    obtain ⟨missing, _, _, answered⟩ := bind_eq_ok.mp answered
    cases missing with
    | none =>
      cases answered
      exact ⟨by simp, fun _ => rfl⟩
    | some _ => cases answered
  | some txdata =>
    simp only [data] at answered
    obtain ⟨hashed, _, _, answered⟩ := bind_eq_ok.mp answered
    cases hashed with
    | none =>
      cases answered
      exact ⟨by simp, by simp⟩
    | some sighash =>
      cases valid : verifySLHDSA sighash.bytes sig pubkey with
      | true =>
        simp only [valid] at answered
        cases answered
      | false =>
        simp only [valid] at answered
        cases answered
        exact ⟨by simp, by simp⟩

theorem setsErrors_toBase (answers : txChecker.Answers) : SetsErrors txChecker.toBase where
  ecdsa scriptSig vchPubKey scriptCode sigversion := by
    have verified : ∀ vchSig pubkey sighash,
        Settles (txChecker.verifyECDSASignature vchSig pubkey sighash) :=
      fun vchSig pubkey sighash => settles_of_returns (answers.ecdsa vchSig pubkey sighash)
    show Settles (txChecker.checkECDSASignature scriptSig vchPubKey scriptCode sigversion)
    unfold checkECDSASignature
    grind
  schnorr sig pubkey sigversion execdata := by
    have verified : ∀ sig pubkey sighash,
        Settles (txChecker.verifySchnorrSignature sig pubkey sighash) :=
      fun sig pubkey sighash => settles_of_returns (answers.schnorr sig pubkey sighash)
    show Settles (txChecker.checkSchnorrSignature sig pubkey sigversion execdata)
    refine .bind (assertThat_settles _ _) fun _ => .bind (assertThat_settles _ _) fun _ => ?_
    split
    · exact .pure _
    · split
      · exact .bind (ofAssertion_settles _) fun _ => .pure _
      · refine .bind (ofAssertion_settles _) fun hashed => ?_
        split
        · exact .pure _
        · exact .bind (verified _ _ _) fun _ => .pure _
  schnorrAnswer _ _ _ _ _ _ answered := (checkSchnorrSignature_error answered).1 rfl
  slhDSA sig pubkey := by
    show Settles (txChecker.checkSLHDSASignature sig pubkey)
    unfold checkSLHDSASignature
    grind
  slhDSAAnswer _ _ _ _ answered := (checkSLHDSASignature_error answered).1 rfl
  lockTime nLockTime := .pure _
  sequence nSequence := .pure _

/-- What `VerifyScript` returns and what it leaves in `*serror`, if it returns. -/
def verdict : Result Stop σ Unit → Option (Bool × ScriptError)
  | .ok _ _ => some (true, .ok)
  | .error (.fail serror) _ => some (false, serror)
  | .error (.exception _) _ | .error (.abort _) _ => none

def FailureCarriesError (result : Result Stop σ Unit) : Prop :=
  ∀ returned serror, verdict result = some (returned, serror) → (returned = true ↔ serror = .ok)

omit [Crypto] in
theorem failureCarriesError_iff {result : Result Stop σ Unit} :
    FailureCarriesError result ↔ ∀ s', result ≠ .error (.fail .ok) s' := by
  constructor
  · intro carries s' same
    subst same
    have wrong := (carries false .ok rfl).mpr rfl
    cases wrong
  · intro set returned serror left
    match result, set, left with
    | .ok _ _, _, left =>
      cases left
      simp
    | .error (.fail e) s', set, left =>
      cases left
      constructor
      · intro wrong
        cases wrong
      · intro same
        subst same
        exact absurd rfl (set s')
    | .error (.exception _) _, _, left => cases left
    | .error (.abort _) _, _, left => cases left

/-- The spend is one whose signature is checked outside of a script: a well-formed signature for the
key path of a taproot output, or a pair of a signature and the committed key for a P2QPK output. -/
def ChecksBareSignature (scriptSig scriptPubKey : Bytes) (witness : List Bytes) (flags : Flags) :
    Prop :=
  .witness ∈ flags ∧ scriptSig = [] ∧ ∃ program : Bytes, program.length = 32 ∧
    castToBool program = true ∧
    ((isWitnessProgram scriptPubKey = some (1, program) ∧ .taproot ∈ flags ∧
        ∃ sig split, (dropAnnex witness.reverse).2 = [sig] ∧
          splitSchnorr sig = .ok split) ∨
      (isWitnessProgram scriptPubKey = some (2, program) ∧ .p2qpk ∈ flags ∧
        ∃ sig pubkey, witness = [sig, pubkey] ∧ sig.length = slhDsaSigLen ∧
          pubkey.length = slhDsaPkLen ∧ (hash256 pubkey).bytes = program))

theorem checksBareSignature_of_unset (answers : txChecker.Answers) {scriptSig : Bytes}
    (stopped : verifyScript scriptSig scriptPubKey witness flags txChecker.toBase s =
      .error (.fail .ok) s') :
    txChecker.txdata = none ∧ ChecksBareSignature scriptSig scriptPubKey witness flags := by
  have sets := setsErrors_toBase answers
  obtain ⟨segwit, empty, witversion, program, t, found, long, truth, which⟩ :=
    verifyScript_unset sets flags stopped
  rcases which with ⟨rfl, stopped⟩ | ⟨rfl, stopped⟩
  · obtain ⟨active, sig, execdata, single, answered⟩ := verifyTaproot_unset sets flags stopped
    obtain ⟨missing, split, fine⟩ := (checkSchnorrSignature_error answered).2 rfl
    exact ⟨missing, segwit, empty, program, long, truth,
      .inl ⟨found, active, sig, split, single, fine⟩⟩
  · obtain ⟨active, sig, pubkey, pair, sigLen, pkLen, commitment, answered⟩ :=
      verifyP2QPK_unset sets flags stopped
    exact ⟨(checkSLHDSASignature_error answered).2 rfl, segwit, empty, program, long, truth,
      .inr ⟨found, active, sig, pubkey, pair, sigLen, pkLen, commitment⟩⟩

theorem verifyScript_program {checker : BaseSignatureChecker σ} {program : Bytes}
    {witversion : Nat} (segwit : .witness ∈ flags) (long : program.length = 32)
    (truth : castToBool program = true)
    (found : isWitnessProgram scriptPubKey = some (witversion, program))
    (version : witversion = 1 ∨ witversion = 2) {stop : Stop}
    (stopped : verifyWitnessProgram witness witversion program flags checker false s = .error stop
      s') :
    verifyScript [] scriptPubKey witness flags checker s = .error stop s' := by
  have pushOnly : isPushOnly [] = true := by simp [isPushOnly, Ops.pushOnly]
  obtain ⟨n, pushed⟩ := evalScript_of_program checker flags found long version
  unfold verifyScript
  rw [failIf_neg (by simp [pushOnly]), pure_bind, evalScript_nil, pure_bind, pushed, pure_bind,
    requireTrue, failIf_neg (by simp [truth]), pure_bind,
    verifyWitness_program checker flags segwit found, failIf_neg (not_not_intro rfl), pure_bind]
  apply bind_of_error
  exact bind_of_error stopped

theorem unset_of_checksBareSignature (mdb : txChecker.mdb = .fail)
    (missing : txChecker.txdata = none) {scriptSig : Bytes}
    (checks : ChecksBareSignature scriptSig scriptPubKey witness flags) (s : σ) :
    verifyScript scriptSig scriptPubKey witness flags txChecker.toBase s =
      .error (.fail .ok) s := by
  obtain ⟨segwit, rfl, program, long, truth, which⟩ := checks
  rcases which with ⟨found, active, sig, split, single, fine⟩ |
    ⟨found, active, sig, pubkey, rfl, sigLen, pkLen, commitment⟩
  · apply verifyScript_program segwit long truth found (.inl rfl)
    have nonempty : witness ≠ [] := by
      intro empty
      rw [empty] at single
      cases single
    have answered : ∀ execdata, txChecker.toBase.checkSchnorrSignature sig program .taproot execdata =
        pure (.error none) := by
      intro execdata
      show txChecker.checkSchnorrSignature sig program .taproot execdata = _
      unfold checkSchnorrSignature
      rw [assertThat_pos (.inl rfl), pure_bind, assertThat_pos long, pure_bind, fine, missing, mdb]
      rfl
    rw [verifyWitnessProgram, if_neg (by decide), if_pos ⟨rfl, long, rfl⟩, verifyTaproot,
      if_neg (not_not_intro active), failIf_neg nonempty, pure_bind]
    generalize dropAnnex witness.reverse = dropped at single
    obtain ⟨annex, stack⟩ := dropped
    cases single
    simp only [answered, pure_bind]
    rfl
  · apply verifyScript_program segwit long truth found (.inr rfl)
    have answered : txChecker.toBase.checkSLHDSASignature sig pubkey = pure (.error none) := by
      show txChecker.checkSLHDSASignature sig pubkey = _
      unfold checkSLHDSASignature
      rw [missing, mdb]
      rfl
    rw [verifyWitnessProgram, if_neg (by decide), if_neg (by simp), if_pos ⟨rfl, long, rfl⟩,
      verifyP2QPK, if_neg (not_not_intro active), failIf_neg (not_not_intro pkLen), pure_bind,
      failIf_neg (not_not_intro sigLen), pure_bind, failIf_neg (not_not_intro commitment),
      pure_bind, answered, pure_bind]
    rfl

/-- `VerifyScript` returns `true` exactly with `SCRIPT_ERR_OK`, except where a signature outside of
a script is checked without transaction data. -/
theorem failure_carries_error_iff (txChecker : GenericTransactionSignatureChecker σ)
    (mdb : txChecker.mdb = .fail) (answers : txChecker.Answers) (scriptSig scriptPubKey : Bytes)
    (witness : List Bytes) (flags : Flags) (s : σ) :
    FailureCarriesError (verifyScript scriptSig scriptPubKey witness flags txChecker.toBase s) ↔
      ¬(txChecker.txdata = none ∧ ChecksBareSignature scriptSig scriptPubKey witness flags) := by
  rw [failureCarriesError_iff]
  constructor
  · rintro set ⟨missing, checks⟩
    exact set s (unset_of_checksBareSignature mdb missing checks s)
  · intro outside s' stopped
    exact outside (checksBareSignature_of_unset answers stopped)

end

def bareChecker : GenericTransactionSignatureChecker Unit where
  txTo := ⟨2, [⟨⟨.null, 0⟩, [], 0, []⟩], [], 0⟩
  mdb := .fail
  nIn := 0
  amount := 0
  txdata := none
  verifyECDSASignature _ _ _ := pure false
  verifySchnorrSignature _ _ _ := pure false

theorem key_path_without_data :
    let _ := Crypto.blank
    verdict (verifyScript [] (Op.op1 :: 0x20 :: replicate 32 1) [replicate 64 0]
      {.p2sh, .witness, .taproot} bareChecker.toBase ()) = some (false, .ok) := by
  intro _
  have checks : ChecksBareSignature [] (Op.op1 :: 0x20 :: replicate 32 1)
      [replicate 64 0] {.p2sh, .witness, .taproot} :=
    ⟨by decide, rfl, replicate 32 1, rfl, by decide,
      .inl ⟨by decide, by decide, replicate 64 0, _, rfl, rfl⟩⟩
  rw [unset_of_checksBareSignature rfl rfl checks]
  rfl

theorem false_script_carries_error :
    let _ := Crypto.blank
    FailureCarriesError (verifyScript [] [] [] {.p2sh, .witness} bareChecker.toBase ()) := by
  intro _
  apply (failure_carries_error_iff bareChecker rfl ⟨fun _ _ _ s => ⟨false, s, rfl⟩,
    fun _ _ _ s => ⟨false, s, rfl⟩⟩ [] [] [] {.p2sh, .witness} ()).mpr
  rintro ⟨_, _, _, program, _, _, ⟨found, _⟩ | ⟨found, _⟩⟩
  · cases found
  · cases found

end Qogecoin.Script
