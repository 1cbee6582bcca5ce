import Qogecoin.Script.Simulation

/-! Which lock times a verification has executed. The checker of an input is put inside one that
writes down every operand `OP_CHECKLOCKTIMEVERIFY` and `OP_CHECKSEQUENCEVERIFY` ask it about; what
the verification does is not changed by that, and if it succeeds, all that was written down is
met. -/
namespace Qogecoin.Script

open Codec

/-- An operand the checker was asked about. That of `OP_CHECKSEQUENCEVERIFY` has no disable bit:
with it the opcode does nothing. -/
inductive LockRecord where
  | lockTime (nLockTime : Int)
  | sequence (nSequence : Int)
deriving DecidableEq, Repr

section

variable {σ α : Type}

def unrecorded (x : Eval σ α) : Eval (σ × List LockRecord) α := fun s =>
  match x s.1 with
  | .ok a t => .ok a (t, s.2)
  | .error e t => .error e (t, s.2)

def record (entry : LockRecord) : Eval (σ × List LockRecord) Unit := fun s =>
  .ok () (s.1, s.2 ++ [entry])

def BaseSignatureChecker.recording (checker : BaseSignatureChecker σ) :
    BaseSignatureChecker (σ × List LockRecord) where
  checkECDSASignature scriptSig vchPubKey scriptCode sigversion :=
    unrecorded (checker.checkECDSASignature scriptSig vchPubKey scriptCode sigversion)
  checkSchnorrSignature sig pubkey sigversion execdata :=
    unrecorded (checker.checkSchnorrSignature sig pubkey sigversion execdata)
  checkSLHDSASignature sig pubkey := unrecorded (checker.checkSLHDSASignature sig pubkey)
  checkLockTime nLockTime := do
    record (.lockTime nLockTime)
    unrecorded (checker.checkLockTime nLockTime)
  checkSequence nSequence := do
    record (.sequence nSequence)
    unrecorded (checker.checkSequence nSequence)

end

def LockRecord.met (lockTime sequence : Int → Bool) : LockRecord → Bool
  | .lockTime nLockTime => lockTime nLockTime
  | .sequence nSequence => sequence nSequence

section

variable {σ : Type} {checker : BaseSignatureChecker σ} {lockTime sequence : Int → Bool}

def metRecords (σ : Type) (lockTime sequence : Int → Bool) :
    Correspondence (σ × List LockRecord) σ where
  related s t := s.1 = t ∧ ∀ entry ∈ s.2, entry.met lockTime sequence = true
  stopped _ _ := True
  stop _ _ _ := trivial

theorem unrecorded_simulates {α : Type} (x : Eval σ α) :
    Simulates (metRecords σ lockTime sequence) (unrecorded x) x := by
  intro s t related
  obtain ⟨rfl, met⟩ := related
  unfold unrecorded
  cases x s.1 with
  | ok a u => exact .ok a (u, s.2) u ⟨rfl, met⟩
  | error e u => exact .error e (u, s.2) u trivial

theorem record_simulates (entry : LockRecord) (answer : Eval σ Bool)
    (answers : answer = pure (entry.met lockTime sequence)) :
    Simulates (metRecords σ lockTime sequence)
      (do
        let satisfied ← do
          record entry
          unrecorded answer
        failIf (satisfied = false) .unsatisfiedLockTime)
      (do
        let satisfied ← answer
        failIf (satisfied = false) .unsatisfiedLockTime) := by
  subst answers
  intro s t related
  obtain ⟨rfl, met⟩ := related
  cases holds : entry.met lockTime sequence with
  | false => exact .error _ _ _ trivial
  | true =>
    refine .ok () (s.1, s.2 ++ [entry]) s.1 ⟨rfl, ?_⟩
    intro other member
    rcases List.mem_append.mp member with before | last
    · exact met other before
    · rw [List.mem_singleton.mp last]
      exact holds

theorem recording_sameCalls
    (lockTimes : ∀ nLockTime, checker.checkLockTime nLockTime = pure (lockTime nLockTime))
    (sequences : ∀ nSequence, checker.checkSequence nSequence = pure (sequence nSequence)) :
    SameCalls (metRecords σ lockTime sequence) checker.recording checker where
  ecdsa _ _ _ _ := unrecorded_simulates _
  schnorr _ _ _ _ := unrecorded_simulates _
  slhDSA _ _ := unrecorded_simulates _
  lockTime nLockTime := record_simulates (.lockTime nLockTime) _ (lockTimes nLockTime)
  sequence nSequence := record_simulates (.sequence nSequence) _ (sequences nSequence)

end

section

variable {σ : Type} [Crypto] (check : CScriptCheck σ)

def CScriptCheck.recorded (mdb : MissingDataBehavior) : Eval (σ × List LockRecord) Unit :=
  match check.txTo.vin[check.nIn.toNat]? with
  | none => abort .inputIndex
  | some txin =>
    verifyScript txin.scriptSig check.txOut.scriptPubKey txin.scriptWitness check.nFlags
      (check.checker mdb).recording

def CScriptCheck.executedLocks (mdb : MissingDataBehavior) (s : σ) : List LockRecord :=
  match check.recorded mdb (s, []) with
  | .ok _ t => t.2
  | .error _ t => t.2

def CScriptCheck.generic : GenericTransactionSignatureChecker σ where
  txTo := check.txTo
  mdb := .assertFail
  nIn := check.nIn
  amount := check.txOut.nValue
  txdata := some check.txdata
  verifyECDSASignature := check.verifyECDSASignature
  verifySchnorrSignature := check.verifySchnorrSignature

def CScriptCheck.meets (entry : LockRecord) : Bool :=
  entry.met check.generic.checkLockTime check.generic.checkSequence

theorem CScriptCheck.executedLocks_met {check : CScriptCheck σ} {mdb : MissingDataBehavior} {s t : σ}
    (passed : check.run mdb s = .ok () t) :
    ∀ entry ∈ check.executedLocks mdb s, check.meets entry = true := by
  have calls : SameCalls
      (metRecords σ check.generic.checkLockTime check.generic.checkSequence)
      (check.checker mdb).recording (check.checker mdb) :=
    recording_sameCalls (fun _ => rfl) (fun _ => rfl)
  unfold executedLocks recorded
  unfold run at passed
  cases input : check.txTo.vin[check.nIn.toNat]? with
  | none =>
    rw [input] at passed
    cases passed
  | some txin =>
    rw [input] at passed
    have ends := verifyScript_simulates calls check.nFlags txin.scriptSig check.txOut.scriptPubKey
      txin.scriptWitness (s, []) s ⟨rfl, by simp⟩
    simp only at passed ⊢
    rw [passed] at ends
    cases outcome : verifyScript txin.scriptSig check.txOut.scriptPubKey txin.scriptWitness
        check.nFlags (check.checker mdb).recording (s, []) with
    | ok u r =>
      rw [outcome] at ends
      cases ends with
      | ok _ _ _ related => exact related.2
    | error e r =>
      rw [outcome] at ends
      cases ends

end

end Qogecoin.Script
