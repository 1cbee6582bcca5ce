import Qogecoin.Primitives.Hash
import Qogecoin.Script.Script

/-! What running a script can end in, and the interface of the signature checkers. A checker may
keep a state of its own (a signature cache, a record of the calls made), which every result
carries on. -/
namespace Qogecoin.Script

open Codec

inductive ScriptError where
  | ok | unknownError | evalFalse | opReturn
  | scriptSize | pushSize | opCount | stackSize | sigCount | pubKeyCount
  | verify | equalVerify | checkMultiSigVerify | checkSigVerify | numEqualVerify
  | badOpcode | disabledOpcode | invalidStackOperation | invalidAltStackOperation
  | unbalancedConditional
  | negativeLockTime | unsatisfiedLockTime
  | sigHashType | sigDER | minimalData | sigPushOnly | sigHighS | sigNullDummy | pubKeyType
  | cleanStack | minimalIf | sigNullFail
  | discourageUpgradableNops | discourageUpgradableWitnessProgram
  | discourageUpgradableTaprootVersion | discourageOpSuccess | discourageUpgradablePubKeyType
  | witnessProgramWrongLength | witnessProgramWitnessEmpty | witnessProgramMismatch
  | witnessMalleated | witnessMalleatedP2SH | witnessUnexpected | witnessPubKeyType
  | schnorrSigSize | schnorrSigHashType | schnorrSig
  | taprootWrongControlSize | tapscriptValidationWeight | tapscriptCheckMultiSig
  | tapscriptMinimalIf
  | opCodeSeparator | sigFindAndDelete
deriving DecidableEq, Repr

inductive Exception where
  | scriptNum
  | popStack
  | outOfRange
deriving DecidableEq, Repr

inductive Assertion where
  | missingData
  | sigVersion
  | executionData
  | inputIndex
  | pubKeySize
  | flagCombination
  | stackNotEmpty
deriving DecidableEq, Repr

/-- A run that does not return `true`: it returns `false` leaving `serror` behind, it throws, or
it ends the process. -/
inductive Stop where
  | fail (serror : ScriptError)
  | exception (e : Exception)
  | abort (a : Assertion)
deriving DecidableEq, Repr

abbrev Eval (σ α : Type) := EStateM Stop σ α

section Outcomes

variable {σ α : Type}

def fail (serror : ScriptError) : Eval σ α := throw (.fail serror)

def failIf (c : Prop) [Decidable c] (serror : ScriptError) : Eval σ Unit :=
  if c then fail serror else pure ()

def onlyIf (c : Prop) [Decidable c] (x : Eval σ Unit) : Eval σ Unit := if c then x else pure ()

def raise (e : Exception) : Eval σ α := throw (.exception e)

def abort (a : Assertion) : Eval σ α := throw (.abort a)

def assertThat (c : Prop) [Decidable c] (a : Assertion) : Eval σ Unit :=
  if c then pure () else abort a

def catchAll (x : Eval σ α) : Eval σ α := fun s =>
  match x s with
  | .error (.exception _) s' => .error (.fail .unknownError) s'
  | r => r

variable {c : Prop}

theorem failIf_neg [Decidable c] (h : ¬c) (serror : ScriptError) :
    failIf (σ := σ) c serror = pure () := if_neg h

theorem failIf_pos [Decidable c] (h : c) (serror : ScriptError) :
    failIf (σ := σ) c serror = fail serror := if_pos h

theorem failIf_eq_ok [Decidable c] {serror : ScriptError} {s s' : σ} {u : Unit} :
    failIf c serror s = .ok u s' ↔ ¬c ∧ s = s' := by
  by_cases h : c
  · rw [failIf_pos h]
    constructor
    · intro failed
      cases failed
    · rintro ⟨passed, _⟩
      exact absurd h passed
  · rw [failIf_neg h]
    constructor
    · intro passed
      cases passed
      exact ⟨h, rfl⟩
    · rintro ⟨_, rfl⟩
      rfl

theorem assertThat_pos [Decidable c] (h : c) (a : Assertion) :
    assertThat (σ := σ) c a = pure () := if_pos h

def scriptNum (vch : Bytes) (fRequireMinimal : Bool) (nMaxNumSize : Nat) : Eval σ Int :=
  match ScriptNum.ofBytes vch fRequireMinimal nMaxNumSize with
  | some n => pure n
  | none => raise .scriptNum

end Outcomes

inductive SigVersion where
  | base
  | witnessV0
  | taproot
  | tapscript
  | witnessV2SLHDSA
deriving DecidableEq, Repr

/-- `none` stands for a member that is not initialised yet. -/
structure ScriptExecutionData where
  tapleafHash : Option Uint256
  codeSeparatorPos : Option UInt32
  /-- Whether an annex is present, and its hash. -/
  annex : Option (Option Uint256)
  validationWeightLeft : Option Int
  outputHash : Option Uint256
deriving DecidableEq, Repr

def ScriptExecutionData.initial : ScriptExecutionData := ⟨none, none, none, none, none⟩

/-- What a checker that takes `serror` says: `true`, or `false` with the error it has set, if it
has set one. -/
abbrev Checked (α : Type) := Except (Option ScriptError) α

structure BaseSignatureChecker (σ : Type) where
  checkECDSASignature :
    (scriptSig vchPubKey scriptCode : Bytes) → SigVersion → Eval σ Bool
  checkSchnorrSignature :
    (sig pubkey : Bytes) → SigVersion → ScriptExecutionData →
      Eval σ (Checked ScriptExecutionData)
  checkSLHDSASignature : (sig pubkey : Bytes) → Eval σ (Checked Unit)
  checkLockTime : (nLockTime : Int) → Eval σ Bool
  checkSequence : (nSequence : Int) → Eval σ Bool

def BaseSignatureChecker.rejecting {σ : Type} : BaseSignatureChecker σ where
  checkECDSASignature _ _ _ _ := pure false
  checkSchnorrSignature _ _ _ _ := pure (.error none)
  checkSLHDSASignature _ _ := pure (.error none)
  checkLockTime _ := pure false
  checkSequence _ := pure false

/-- `return false; // serror is set`, where `serror` still holds `current` if it was not. -/
def require {σ α : Type} (current : ScriptError) : Checked α → Eval σ α
  | .ok a => pure a
  | .error serror => fail (serror.getD current)

end Qogecoin.Script
