import Qogecoin.Library.Outcomes
import Qogecoin.Script.ScriptCheck

/-! The interpreter looks at the state of its checker only through the methods of the checker: two
checkers that do the same on related states make `VerifyScript` do the same on them. -/
namespace Qogecoin.Script

open Codec GenericTransactionSignatureChecker

/-- The two checkers do the same on related states. A lock time that is not met ends the script, so
such a check is taken together with the failure. -/
structure SameCalls {σ τ : Type} (R : Correspondence σ τ) (c : BaseSignatureChecker σ)
    (d : BaseSignatureChecker τ) : Prop where
  ecdsa : ∀ scriptSig vchPubKey scriptCode sigversion,
    Simulates R (c.checkECDSASignature scriptSig vchPubKey scriptCode sigversion)
      (d.checkECDSASignature scriptSig vchPubKey scriptCode sigversion)
  schnorr : ∀ sig pubkey sigversion execdata,
    Simulates R (c.checkSchnorrSignature sig pubkey sigversion execdata)
      (d.checkSchnorrSignature sig pubkey sigversion execdata)
  slhDSA : ∀ sig pubkey,
    Simulates R (c.checkSLHDSASignature sig pubkey) (d.checkSLHDSASignature sig pubkey)
  lockTime : ∀ nLockTime,
    Simulates R
      (do
        let satisfied ← c.checkLockTime nLockTime
        failIf (satisfied = false) .unsatisfiedLockTime)
      (do
        let satisfied ← d.checkLockTime nLockTime
        failIf (satisfied = false) .unsatisfiedLockTime)
  sequence : ∀ nSequence,
    Simulates R
      (do
        let satisfied ← c.checkSequence nSequence
        failIf (satisfied = false) .unsatisfiedLockTime)
      (do
        let satisfied ← d.checkSequence nSequence
        failIf (satisfied = false) .unsatisfiedLockTime)

section

variable {σ τ : Type} {R : Correspondence σ τ}

variable {α : Type}

@[grind ←] theorem fail_simulates (serror : ScriptError) :
    Simulates R (fail serror : Eval σ α) (fail serror) := .throw _

@[grind ←] theorem abort_simulates (a : Assertion) :
    Simulates R (abort a : Eval σ α) (abort a) := .throw _

@[grind ←] theorem failIf_simulates (c : Prop) [Decidable c] (serror : ScriptError) :
    Simulates R (failIf c serror) (failIf c serror) :=
  .ite (fun _ => .throw _) fun _ => .pure ()

theorem asserted_simulates {c : Prop} [Decidable c] {a : Assertion} {x : Eval σ α} {y : Eval τ α}
    (same : c → Simulates R x y) :
    Simulates R (do assertThat c a; x) (do assertThat c a; y) := by
  by_cases holds : c
  · simp only [assertThat_pos holds, pure_bind]
    exact same holds
  · simp only [assertThat, if_neg holds]
    exact fun s t related => .error (Stop.abort a) s t (R.stop s t related)

@[grind ←] theorem require_simulates (current : ScriptError) (checked : Checked α) :
    Simulates R (require current checked) (require current checked) := by
  cases checked <;> grind [require]

@[grind ←] theorem ofAssertion_simulates (x : Except Assertion α) :
    Simulates R (ofAssertion x) (ofAssertion x) := by
  cases x <;> grind [ofAssertion]

theorem catchAll_simulates {x : Eval σ α} {y : Eval τ α} (same : Simulates R x y) :
    Simulates R (catchAll x) (catchAll y) := by
  intro s t related
  have ends := same s t related
  unfold catchAll
  generalize x s = left at ends ⊢
  generalize y t = right at ends ⊢
  cases ends with
  | ok a s' t' still => exact .ok a s' t' still
  | error e s' t' still =>
    cases e with
    | exception e | fail serror | abort a => exact .error _ s' t' still

def simulation (R : Correspondence σ τ) : Comparison σ τ where
  rel := Simulates R
  stop _ := .throw _
  catchAll := catchAll_simulates
  bind := .bind
  pure := .pure

variable [Crypto] {c : BaseSignatureChecker σ} {d : BaseSignatureChecker τ}
  (same : SameCalls R c d) (flags : Flags)
include same

omit [Crypto] in
theorem SameCalls.calls (sigversion : SigVersion) : (simulation R).Calls c d sigversion where
  ecdsa _ _ _ := same.ecdsa _ _ _ _
  schnorr _ _ _ _ := .bind (same.schnorr _ _ _ _) fun _ => require_simulates _ _
  lockTime := same.lockTime
  sequence := same.sequence

omit [Crypto] in
theorem SameCalls.bareCalls : (simulation R).BareCalls c d where
  schnorr _ _ _ := .bind (same.schnorr _ _ _ _) fun _ =>
    .bind (require_simulates _ _) fun _ => .pure ()
  slhDSA _ _ := .bind (same.slhDSA _ _) fun _ => require_simulates _ _

theorem verifyScript_simulates (scriptSig scriptPubKey : Bytes) (witness : List Bytes) :
    Simulates R (verifyScript scriptSig scriptPubKey witness flags c)
      (verifyScript scriptSig scriptPubKey witness flags d) := by
  apply Comparison.Relaxes.verifyScript (.inl rfl) same.calls same.bareCalls .rfl .rfl
  exact (simulation R).verifyEnd flags witness

end

/-- Checks of the same input under the same flags, whose verifications of signatures do the same
for the keys they can be asked about. -/
structure SameInput {σ τ : Type} (R : Correspondence σ τ) (check : CScriptCheck σ)
    (other : CScriptCheck τ) : Prop where
  txOut : check.txOut = other.txOut
  txTo : check.txTo = other.txTo
  nIn : check.nIn = other.nIn
  nFlags : check.nFlags = other.nFlags
  txdata : check.txdata = other.txdata
  ecdsa : ∀ vchSig pubkey sighash, isValidPubKey pubkey = true →
    Simulates R (check.verifyECDSASignature vchSig pubkey sighash)
      (other.verifyECDSASignature vchSig pubkey sighash)
  schnorr : ∀ sig pubkey sighash, pubkey.length = 32 →
    Simulates R (check.verifySchnorrSignature sig pubkey sighash)
      (other.verifySchnorrSignature sig pubkey sighash)

section

variable {σ τ : Type} {R : Correspondence σ τ} [Crypto] {check : CScriptCheck σ}
  {other : CScriptCheck τ}

theorem SameInput.calls (same : SameInput R check other) (mdb : MissingDataBehavior) :
    SameCalls R (check.checker mdb) (other.checker mdb) := by
  obtain ⟨txOut, txTo, nIn, nFlags, txdata, ecdsa, schnorr⟩ := same
  unfold CScriptCheck.checker toBase
  rw [txOut, txTo, nIn, txdata]
  constructor
  · intro scriptSig vchPubKey scriptCode sigversion
    simp only [checkECDSASignature]
    grind
  · intro sig pubkey sigversion execdata
    refine asserted_simulates fun _ => asserted_simulates fun size => ?_
    cases splitSchnorr sig with
    | error serror => exact .pure _
    | ok split =>
      refine .bind (ofAssertion_simulates _) fun hashed => ?_
      cases hashed with
      | none => exact .pure _
      | some message => exact .bind (schnorr _ _ _ size) fun _ => .pure _
  · intro sig pubkey
    simp only [checkSLHDSASignature]
    grind
  · intro nLockTime
    exact .bind (.pure _) fun _ => failIf_simulates _ _
  · intro nSequence
    exact .bind (.pure _) fun _ => failIf_simulates _ _

theorem SameInput.run (same : SameInput R check other) (mdb : MissingDataBehavior) :
    Simulates R (check.run mdb) (other.run mdb) := by
  have calls := same.calls mdb
  unfold CScriptCheck.run
  rw [same.txTo, same.nIn, same.txOut, same.nFlags]
  split
  · exact abort_simulates _
  · exact verifyScript_simulates calls _ _ _ _

end

end Qogecoin.Script
