import Qogecoin.Script.Verify

/-! The interpreter is put together from a few kinds of steps. Whatever relates these steps on two
sides relates two runs: under other flags, with another checker, over another state. -/
namespace Qogecoin.Script

open Codec

/-- A relation between programs that goes through their steps. What the interpreter stops with is
never `SCRIPT_ERR_OK`. -/
structure Comparison (σ τ : Type) where
  rel : {α : Type} → Eval σ α → Eval τ α → Prop
  stop : ∀ {α : Type} {stop : Stop}, stop ≠ .fail .ok → rel (throw stop : Eval σ α) (throw stop)
  catchAll : ∀ {α : Type} {x : Eval σ α} {y : Eval τ α}, rel x y → rel (catchAll x) (catchAll y)
  bind : ∀ {α β : Type} {x : Eval σ α} {y : Eval τ α} {f : α → Eval σ β} {g : α → Eval τ β},
    rel x y → (∀ a, rel (f a) (g a)) → rel (x >>= f) (y >>= g)
  pure : ∀ {α : Type} (a : α), rel (pure a) (pure a)

namespace Comparison

variable {σ τ : Type} (R : Comparison σ τ)

def Relaxes (G F : Flags) : Prop :=
  G = F ∨ F ⊆ G ∧ (∀ {α : Type} (stop : Stop) (y : Eval τ α), R.rel (throw stop) y) ∧
    ∀ x : Eval σ Unit, R.rel x (Pure.pure ())

/-- The two checkers are asked the same in scripts of this version. What a check of a Schnorr
signature or of a lock time says is taken together with the failure it leads to. -/
structure Calls (c : BaseSignatureChecker σ) (d : BaseSignatureChecker τ)
    (sigversion : SigVersion) : Prop where
  ecdsa : ∀ scriptSig vchPubKey scriptCode,
    R.rel (c.checkECDSASignature scriptSig vchPubKey scriptCode sigversion)
      (d.checkECDSASignature scriptSig vchPubKey scriptCode sigversion)
  schnorr : sigversion = .tapscript → ∀ sig pubkey execdata,
    R.rel
      (do
        let checked ← c.checkSchnorrSignature sig pubkey .tapscript execdata
        require .unknownError checked)
      (do
        let checked ← d.checkSchnorrSignature sig pubkey .tapscript execdata
        require .unknownError checked)
  lockTime : ∀ nLockTime,
    R.rel
      (do
        let satisfied ← c.checkLockTime nLockTime
        failIf (satisfied = false) .unsatisfiedLockTime)
      (do
        let satisfied ← d.checkLockTime nLockTime
        failIf (satisfied = false) .unsatisfiedLockTime)
  sequence : ∀ nSequence,
    R.rel
      (do
        let satisfied ← c.checkSequence nSequence
        failIf (satisfied = false) .unsatisfiedLockTime)
      (do
        let satisfied ← d.checkSequence nSequence
        failIf (satisfied = false) .unsatisfiedLockTime)

/-- The two checkers are asked the same outside of scripts, where a check that fails need not set an
error. -/
structure BareCalls (c : BaseSignatureChecker σ) (d : BaseSignatureChecker τ) : Prop where
  schnorr : ∀ sig pubkey execdata,
    R.rel
      (do
        let checked ← c.checkSchnorrSignature sig pubkey .taproot execdata
        let _ ← require .ok checked
        Pure.pure ())
      (do
        let checked ← d.checkSchnorrSignature sig pubkey .taproot execdata
        let _ ← require .ok checked
        Pure.pure ())
  slhDSA : ∀ sig pubkey,
    R.rel (do require .ok (← c.checkSLHDSASignature sig pubkey))
      (do require .ok (← d.checkSLHDSASignature sig pubkey))

attribute [grind ←] Comparison.pure Comparison.bind

variable {α : Type} {serror : ScriptError} (stack : List Bytes)

theorem ite {c : Prop} [Decidable c] {x x' : Eval σ α} {y y' : Eval τ α} (yes : c → R.rel x y)
    (no : ¬c → R.rel x' y') : R.rel (if c then x else x') (if c then y else y') := by
  by_cases h : c
  · rw [if_pos h, if_pos h]
    exact yes h
  · rw [if_neg h, if_neg h]
    exact no h

@[grind ←] protected theorem fail (set : serror ≠ .ok) :
    R.rel (fail serror : Eval σ α) (fail serror) :=
  R.stop (by simpa using set)

@[grind ←] protected theorem raise (e : Exception) :
    R.rel (raise e : Eval σ α) (raise e) := R.stop (by simp)

@[grind ←] protected theorem abort (a : Assertion) :
    R.rel (abort a : Eval σ α) (abort a) := R.stop (by simp)

@[grind ←] protected theorem failIf {c : Prop} [Decidable c] (set : serror ≠ .ok) :
    R.rel (failIf c serror) (failIf c serror) :=
  R.ite (fun _ => R.fail set) fun _ => R.pure ()

@[grind ←] protected theorem assertThat (c : Prop) [Decidable c] (a : Assertion) :
    R.rel (assertThat c a) (assertThat c a) :=
  R.ite (fun _ => R.pure ()) fun _ => R.abort a

@[grind ←] protected theorem stacktop (i : Nat) : R.rel (stacktop stack i) (stacktop stack i) := by
  grind [stacktop]

@[grind ←] protected theorem popstack : R.rel (popstack stack) (popstack stack) := by
  cases stack <;> grind [popstack]

@[grind ←] protected theorem needs (n : Nat) :
    R.rel (needs stack n) (needs stack n) := R.failIf (by decide)

@[grind ←] protected theorem swaptop (i j : Nat) :
    R.rel (swaptop stack i j) (swaptop stack i j) := by
  grind [swaptop]

@[grind ←] protected theorem pushResult (f : Bool) {onVerify : Option ScriptError}
    (stack : List Bytes) (set : onVerify ≠ some .ok) :
    R.rel (pushResult f onVerify stack) (pushResult f onVerify stack) := by
  cases onVerify <;> grind [pushResult]

@[grind ←] protected theorem evalEqual (verify : Bool) (stack : List Bytes) :
    R.rel (evalEqual verify stack) (evalEqual verify stack) := by
  grind [evalEqual]

@[grind ←] protected theorem evalVerify : R.rel (evalVerify stack) (evalVerify stack) := by
  grind [evalVerify]

@[grind ←] protected theorem countOp (sigversion : SigVersion) (opcode : UInt8) (nOpCount : Nat) :
    R.rel (countOp sigversion opcode nOpCount) (countOp sigversion opcode nOpCount) := by
  grind [countOp]

@[grind ←] protected theorem spendValidationWeight (sig : Bytes) (execdata : ScriptExecutionData) :
    R.rel (spendValidationWeight sig execdata) (spendValidationWeight sig execdata) := by
  grind [spendValidationWeight]

@[grind ←] protected theorem requireTrue : R.rel (requireTrue stack) (requireTrue stack) := by
  cases stack <;> grind [requireTrue]

@[grind ←] protected theorem evalHash [Crypto] (op : HashOp) (stack : List Bytes) :
    R.rel (evalHash op stack) (evalHash op stack) := by
  grind [evalHash]

@[grind ←] protected theorem isLowDERSignature [Crypto] (vchSig : Bytes) :
    R.rel (isLowDERSignature vchSig) (isLowDERSignature vchSig) := by
  grind [isLowDERSignature]

namespace Relaxes

variable {R} {G F : Flags} (relaxes : R.Relaxes G F)
include relaxes

variable {serror : ScriptError}

protected theorem failIf {c d : Prop} [Decidable c] [Decidable d] (same : G = F → (c ↔ d))
    (set : serror ≠ .ok) (weaker : F ⊆ G → d → c) :
    R.rel (failIf c serror) (failIf d serror) := by
  by_cases strict : c
  · rw [failIf_pos strict]
    rcases relaxes with equal | ⟨_, lenient, _⟩
    · rw [failIf_pos ((same equal).mp strict)]
      exact R.fail set
    · exact lenient _ _
  · have sub : F ⊆ G := by
      rcases relaxes with rfl | ⟨sub, _⟩
      · exact Finset.Subset.refl _
      · exact sub
    rw [failIf_neg strict, failIf_neg fun lax => strict (weaker sub lax)]
    exact R.pure ()

theorem failIf_flag {flag : Flag} {c : Prop} [Decidable c] (set : serror ≠ .ok) :
    R.rel (failIf (flag ∈ G ∧ c) serror) (failIf (flag ∈ F ∧ c) serror) :=
  relaxes.failIf (· ▸ .rfl) set fun sub rule => ⟨sub rule.1, rule.2⟩

protected theorem onlyIf {flag : Flag} {x : Eval σ Unit} {y : Eval τ Unit} (body : R.rel x y) :
    R.rel (onlyIf (flag ∈ G) x) (onlyIf (flag ∈ F) y) := by
  unfold onlyIf
  rcases relaxes with rfl | ⟨sub, _, done⟩
  · exact R.ite (fun _ => body) fun _ => R.pure ()
  · by_cases rule : flag ∈ F
    · rw [if_pos rule, if_pos (sub rule)]
      exact body
    · rw [if_neg rule]
      exact done _

protected theorem active {flag : Flag} {x : Eval σ Unit} {y : Eval τ Unit} (body : R.rel x y) :
    R.rel (if flag ∉ G then Pure.pure () else x) (if flag ∉ F then Pure.pure () else y) := by
  rw [ite_not, ite_not]
  exact relaxes.onlyIf body

protected theorem scriptNum (vch : Bytes) (nMaxNumSize : Nat) :
    R.rel (scriptNum vch (.minimalData ∈ G) nMaxNumSize)
      (scriptNum vch (.minimalData ∈ F) nMaxNumSize) := by
  unfold scriptNum
  rcases relaxes with rfl | ⟨sub, lenient, _⟩
  · grind
  · cases strict : ScriptNum.ofBytes vch (.minimalData ∈ G) nMaxNumSize with
    | none => exact lenient _ _
    | some n =>
      rw [ScriptNum.ofBytes_relax (by simpa using fun inF => sub inF) strict]
      exact R.pure n

protected theorem evalStackOp (op : StackOp) (stack : List Bytes) :
    R.rel (evalStackOp op (.minimalData ∈ G) stack)
      (evalStackOp op (.minimalData ∈ F) stack) := by
  have numbers := relaxes.scriptNum
  have indexed : ∀ op, R.rel (indexedOp op (.minimalData ∈ G) stack)
      (indexedOp op (.minimalData ∈ F) stack) := by
    grind [indexedOp]
  cases op <;> grind [evalStackOp]

protected theorem evalUnary (op : UnaryOp) (stack : List Bytes) :
    R.rel (evalUnary op (.minimalData ∈ G) stack)
      (evalUnary op (.minimalData ∈ F) stack) := by
  have numbers := relaxes.scriptNum
  grind [evalUnary]

protected theorem evalBinary (op : BinaryOp) (stack : List Bytes) :
    R.rel (evalBinary op (.minimalData ∈ G) stack)
      (evalBinary op (.minimalData ∈ F) stack) := by
  have numbers := relaxes.scriptNum
  repeat refine R.bind (by grind) fun _ => ?_
  grind

protected theorem evalWithin (stack : List Bytes) :
    R.rel (evalWithin (.minimalData ∈ G) stack) (evalWithin (.minimalData ∈ F) stack) := by
  have numbers := relaxes.scriptNum
  repeat refine R.bind (by grind) fun _ => ?_
  grind

protected theorem evalIf (sigversion : SigVersion) (negated : Bool) (st : EvalState) :
    R.rel (evalIf G sigversion negated st) (evalIf F sigversion negated st) := by
  refine R.ite (fun _ => ?_) fun _ => R.pure _
  refine R.bind (by grind) fun _ => R.bind (by grind) fun vch => R.bind (by grind) fun _ => ?_
  refine R.bind (relaxes.failIf (· ▸ .rfl) (by decide) fun sub rule => ?_) fun _ => by grind
  exact ⟨rule.1, sub rule.2.1, rule.2.2⟩

protected theorem checkPubKeyEncoding (vchPubKey : Bytes) (sigversion : SigVersion) :
    R.rel (checkPubKeyEncoding vchPubKey G sigversion)
      (checkPubKeyEncoding vchPubKey F sigversion) :=
  R.bind (relaxes.failIf_flag (by decide)) fun _ => relaxes.failIf_flag (by decide)

protected theorem dropSignature (sigversion : SigVersion) (vchSig scriptCode : Bytes) :
    R.rel (dropSignature G sigversion vchSig scriptCode)
      (dropSignature F sigversion vchSig scriptCode) := by
  refine R.ite (fun _ => ?_) fun _ => R.pure _
  refine R.bind (relaxes.failIf (· ▸ .rfl) (by decide) fun sub rule => ?_) fun _ => R.pure _
  exact ⟨rule.1, sub rule.2⟩

protected theorem dropSignatures (sigversion : SigVersion) (stack : List Bytes) (n isig : Nat)
    (scriptCode : Bytes) :
    R.rel (dropSignatures G sigversion stack n isig scriptCode)
      (dropSignatures F sigversion stack n isig scriptCode) := by
  induction n generalizing isig scriptCode with
  | zero => exact R.pure scriptCode
  | succ n ih =>
    refine R.bind (R.stacktop stack isig) fun vchSig => ?_
    exact R.bind (relaxes.dropSignature sigversion vchSig scriptCode) fun scriptCode => ih _ _

protected theorem popArguments (fSuccess : Bool) (n ikey2 : Nat) (stack : List Bytes) :
    R.rel (popArguments G fSuccess n ikey2 stack) (popArguments F fSuccess n ikey2 stack) := by
  induction n generalizing ikey2 stack with
  | zero => exact R.pure stack
  | succ n ih =>
    refine R.bind (R.stacktop stack 1) fun top => ?_
    refine R.bind (relaxes.failIf (· ▸ .rfl) (by decide) fun sub rule => ?_) fun _ => ?_
    · exact ⟨rule.1, sub rule.2.1, rule.2.2⟩
    · exact R.bind (R.popstack stack) fun stack => ih _ stack

protected theorem findOpSuccess (ops : Ops) :
    R.rel (findOpSuccess G ops) (findOpSuccess F ops) := by
  induction ops with
  | done => exact R.pure false
  | bad pc => exact R.fail (by decide)
  | op read rest ih =>
    refine R.ite (fun _ => ?_) fun _ => ih
    exact R.bind (relaxes.failIf (· ▸ .rfl) (by decide) fun sub rule => sub rule) fun _ =>
      R.pure true

variable [Crypto]

protected theorem checkSignatureEncoding (vchSig : Bytes) :
    R.rel (checkSignatureEncoding vchSig G) (checkSignatureEncoding vchSig F) := by
  refine R.ite (fun _ => R.pure ()) fun _ => ?_
  refine R.bind (relaxes.failIf (· ▸ .rfl) (by decide) fun sub rule => ?_) fun _ => ?_
  · exact ⟨rule.1.imp (fun inF => sub inF) (Or.imp (fun inF => sub inF) fun inF => sub inF), rule.2⟩
  · exact R.bind (relaxes.onlyIf (R.isLowDERSignature vchSig)) fun _ =>
      relaxes.failIf_flag (by decide)

variable {c : BaseSignatureChecker σ} {d : BaseSignatureChecker τ} {sigversion : SigVersion}
  (calls : R.Calls c d sigversion)
include calls

protected theorem evalChecksig (sig pubkey pbegincodehash : Bytes)
    (execdata : ScriptExecutionData) :
    R.rel (evalChecksig sig pubkey pbegincodehash execdata G c sigversion)
      (evalChecksig sig pubkey pbegincodehash execdata F d sigversion) := by
  have pre : R.rel (evalChecksigPreTapscript sig pubkey pbegincodehash G c sigversion)
      (evalChecksigPreTapscript sig pubkey pbegincodehash F d sigversion) := by
    refine R.bind (relaxes.dropSignature sigversion sig pbegincodehash) fun scriptCode => ?_
    refine R.bind (relaxes.checkSignatureEncoding sig) fun _ => ?_
    refine R.bind (relaxes.checkPubKeyEncoding pubkey sigversion) fun _ => ?_
    refine R.bind (calls.ecdsa sig pubkey scriptCode) fun fSuccess => ?_
    refine R.bind (relaxes.failIf (· ▸ .rfl) (by decide) fun sub rule => ?_) fun _ => R.pure _
    exact ⟨rule.1, sub rule.2.1, rule.2.2⟩
  cases sigversion with
  | base | witnessV0 => exact R.bind pre fun _ => R.pure _
  | tapscript =>
    refine R.bind (R.spendValidationWeight sig execdata) fun execdata => ?_
    refine R.ite (fun _ => R.fail (by decide)) fun _ => R.ite (fun _ => ?_) fun _ => ?_
    · refine R.ite (fun _ => ?_) fun _ => R.pure _
      have checked := R.bind (calls.schnorr rfl sig pubkey execdata) fun execdata =>
        R.pure (!sig.isEmpty, execdata)
      rwa [bind_assoc, bind_assoc] at checked
    · exact R.bind (relaxes.failIf (· ▸ .rfl) (by decide) fun sub rule => sub rule) fun _ =>
        R.pure _
  | taproot | witnessV2SLHDSA => exact R.abort _

protected theorem matchSignatures (scriptCode : Bytes) (stack : List Bytes)
    (nKeysCount nSigsCount ikey isig : Nat) :
    R.rel (matchSignatures G c sigversion scriptCode stack nKeysCount nSigsCount ikey isig)
      (matchSignatures F d sigversion scriptCode stack nKeysCount nSigsCount ikey isig) := by
  induction nKeysCount generalizing nSigsCount ikey isig with
  | zero => cases nSigsCount <;> exact R.pure _
  | succ nKeysCount ih =>
    cases nSigsCount with
    | zero => exact R.pure true
    | succ nSigsCount =>
      refine R.bind (R.stacktop stack isig) fun vchSig => ?_
      refine R.bind (R.stacktop stack ikey) fun vchPubKey => ?_
      refine R.bind (relaxes.checkSignatureEncoding vchSig) fun _ => ?_
      refine R.bind (relaxes.checkPubKeyEncoding vchPubKey sigversion) fun _ => ?_
      refine R.bind (calls.ecdsa vchSig vchPubKey scriptCode) fun fOk => ?_
      exact R.ite (fun _ => R.pure false) fun _ => ih _ _ _

protected theorem evalCheckMultiSig (verify : Bool) (pbegincodehash : Bytes) (nOpCount : Nat)
    (stack : List Bytes) :
    R.rel (evalCheckMultiSig G c sigversion verify pbegincodehash nOpCount stack)
      (evalCheckMultiSig F d sigversion verify pbegincodehash nOpCount stack) := by
  have numbers := relaxes.scriptNum
  have dropped := relaxes.dropSignatures sigversion stack
  have matched := relaxes.matchSignatures calls
  have popped := relaxes.popArguments
  repeat refine R.bind (by grind) fun _ => ?_
  refine R.bind (relaxes.failIf_flag (by decide)) fun _ => ?_
  repeat refine R.bind (by grind) fun _ => ?_
  exact R.pure _

protected theorem evalCase (pc : Bytes) (st : EvalState) (opcode : Opcode) :
    R.rel (evalCase G c sigversion pc st opcode) (evalCase F d sigversion pc st opcode) := by
  have numbers := relaxes.scriptNum
  have checksig := relaxes.evalChecksig calls
  cases opcode with
  | checkLockTimeVerify =>
    refine R.bind (relaxes.onlyIf ?_) fun _ => R.pure st
    grind [calls.lockTime]
  | checkSequenceVerify =>
    refine R.bind (relaxes.onlyIf ?_) fun _ => R.pure st
    refine R.bind (by grind) fun _ => R.bind (by grind) fun _ => R.bind (by grind) fun n => ?_
    exact R.bind (by grind) fun _ => R.ite (fun _ => calls.sequence n) fun _ => R.pure ()
  | upgradableNop =>
    exact R.bind (relaxes.failIf (· ▸ .rfl) (by decide) fun sub rule => sub rule) fun _ => R.pure st
  | opIf negated => exact relaxes.evalIf sigversion negated st
  | stack op => exact R.bind (relaxes.evalStackOp op st.stack) fun _ => R.pure _
  | unary op => exact R.bind (relaxes.evalUnary op st.stack) fun _ => R.pure _
  | binary op => exact R.bind (relaxes.evalBinary op st.stack) fun _ => R.pure _
  | within => exact R.bind (relaxes.evalWithin st.stack) fun _ => R.pure _
  | checkSig verify =>
    repeat refine R.bind (by grind) fun _ => ?_
    exact R.pure _
  | checkSigAdd =>
    repeat refine R.bind (by grind) fun _ => ?_
    exact R.pure _
  | checkMultiSig verify =>
    exact R.bind (relaxes.evalCheckMultiSig calls verify _ _ _) fun _ => R.pure _
  | _ => grind [evalCase]

protected theorem evalOp (read : OpRead) (st : EvalState) :
    R.rel (evalOp G c sigversion read st) (evalOp F d sigversion read st) := by
  refine R.bind (by grind) fun _ => R.bind (by grind) fun nOpCount => R.bind (by grind) fun _ => ?_
  refine R.bind (relaxes.failIf (· ▸ .rfl) (by decide) fun sub rule => ?_) fun _ => ?_
  · exact ⟨rule.1, rule.2.1, sub rule.2.2⟩
  · refine R.bind ?_ fun st => R.bind (by grind) fun _ => R.pure _
    refine R.ite (fun _ => ?_) fun _ => R.ite (fun _ => ?_) fun _ => R.pure _
    · exact R.bind (relaxes.failIf_flag (by decide)) fun _ => R.pure _
    · exact relaxes.evalCase calls _ _ _

protected theorem evalOps (ops : Ops) (st : EvalState) :
    R.rel (evalOps G c sigversion ops st) (evalOps F d sigversion ops st) := by
  induction ops generalizing st with
  | done => exact R.pure st
  | bad pc => exact R.fail (by decide)
  | op read rest ih => exact R.bind (relaxes.evalOp calls read st) ih

protected theorem evalScript (stack : List Bytes) (script : Bytes)
    (execdata : ScriptExecutionData) :
    R.rel (evalScript stack script G c sigversion execdata)
      (evalScript stack script F d sigversion execdata) := by
  have rounds := fun st => R.catchAll (relaxes.evalOps calls (readOps script) st)
  unfold evalScript
  grind

protected theorem executeWitnessScript (stack : List Bytes) (execScript : Bytes)
    (execdata : ScriptExecutionData) :
    R.rel (executeWitnessScript stack execScript G sigversion c execdata)
      (executeWitnessScript stack execScript F sigversion d execdata) := by
  have successes := relaxes.findOpSuccess (readOps execScript)
  have evaluated := relaxes.evalScript calls
  unfold executeWitnessScript runWitnessScript
  grind

omit calls

protected theorem verifyWitnessV0 (calls : R.Calls c d .witnessV0) (witness : List Bytes)
    (program : Bytes) :
    R.rel (verifyWitnessV0 witness program G c) (verifyWitnessV0 witness program F d) := by
  have executed := relaxes.executeWitnessScript calls
  unfold verifyWitnessV0
  grind

variable (asked : ∀ sigversion, R.Calls c d sigversion)
include asked

protected theorem verifyScriptPath (witness : List Bytes) (control scriptBytes : Bytes)
    (stack : List Bytes) (program : Bytes) (execdata : ScriptExecutionData) :
    R.rel (verifyScriptPath witness control scriptBytes stack program G c execdata)
      (verifyScriptPath witness control scriptBytes stack program F d execdata) := by
  refine R.bind (R.failIf (by decide)) fun _ => R.bind (R.failIf (by decide)) fun _ => ?_
  refine R.ite (fun _ => ?_) fun _ => relaxes.failIf (· ▸ .rfl) (by decide) fun sub rule => sub rule
  exact relaxes.executeWitnessScript (asked .tapscript) _ _ _

variable (bare : R.BareCalls c d)
include bare

protected theorem verifyWitnessProgram (witness : List Bytes) (witversion : Nat) (program : Bytes)
    (isP2SH : Bool) :
    R.rel (verifyWitnessProgram witness witversion program G c isP2SH)
      (verifyWitnessProgram witness witversion program F d isP2SH) := by
  refine R.ite (fun _ => relaxes.verifyWitnessV0 (asked _) witness program) fun _ => ?_
  refine R.ite (fun _ => relaxes.active (R.bind (R.failIf (by decide)) fun _ => ?_)) fun _ => ?_
  · generalize dropAnnex witness.reverse = dropped
    rcases dropped with ⟨annex, _ | ⟨control, _ | ⟨scriptBytes, stack⟩⟩⟩
    · exact R.abort _
    · exact bare.schnorr _ _ _
    · exact relaxes.verifyScriptPath asked _ _ _ _ _ _
  · refine R.ite (fun _ => relaxes.active ?_) fun _ => ?_
    · split
      · refine R.bind (R.failIf (by decide)) fun _ => R.bind (R.failIf (by decide)) fun _ => ?_
        exact R.bind (R.failIf (by decide)) fun _ => bare.slhDSA _ _
      · exact R.fail (by decide)
    · exact relaxes.failIf (· ▸ .rfl) (by decide) fun sub rule => sub rule

protected theorem verifyWitness (segwit : .witness ∈ G ↔ .witness ∈ F)
    (script scriptSig expected : Bytes) {malleated : ScriptError} (set : malleated ≠ .ok)
    (witness : List Bytes) (isP2SH hadWitness : Bool) (stack : List Bytes) :
    R.rel (verifyWitness script scriptSig expected malleated witness G c isP2SH hadWitness stack)
      (verifyWitness script scriptSig expected malleated witness F d isP2SH hadWitness stack) := by
  have programs := relaxes.verifyWitnessProgram asked bare
  unfold verifyWitness
  grind

protected theorem verifyScript (segwit : .witness ∈ G ↔ .witness ∈ F)
    (p2sh : .p2sh ∈ G ↔ .p2sh ∈ F) (scriptSig scriptPubKey : Bytes) (witness : List Bytes)
    (ends : ∀ hadWitness stack,
      R.rel (verifyEnd witness G hadWitness stack) (verifyEnd witness F hadWitness stack)) :
    R.rel (verifyScript scriptSig scriptPubKey witness G c)
      (verifyScript scriptSig scriptPubKey witness F d) := by
  have evaluated := relaxes.evalScript (asked .base)
  have witnessed := relaxes.verifyWitness asked bare segwit
  refine R.bind (relaxes.failIf_flag (by decide)) fun _ => ?_
  refine R.bind (evaluated _ _ _) fun stackCopy => ?_
  refine R.bind (evaluated _ _ _) fun stack => R.bind (R.requireTrue stack) fun _ => ?_
  refine R.bind (witnessed _ _ _ (by decide) _ _ _ _) fun _ => R.bind ?_ fun _ => ends _ _
  unfold verifyP2SH
  grind

end Relaxes

protected theorem verifyEnd (flags : Flags) (witness : List Bytes) (hadWitness : Bool)
    (stack : List Bytes) :
    R.rel (verifyEnd witness flags hadWitness stack)
      (verifyEnd witness flags hadWitness stack) := by
  have same : R.Relaxes flags flags := .inl rfl
  refine R.bind (same.onlyIf ?_) fun _ => same.onlyIf ?_
  · grind
  · grind

end Comparison

end Qogecoin.Script
