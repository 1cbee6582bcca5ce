import Qogecoin.Script.Interpreter
import Qogecoin.Script.SigHash

/-! `VerifyScript` and the witness programs. A run that returns is a spend that is accepted. -/
namespace Qogecoin.Script

open Codec Crypto

def annexTag : UInt8 := 0x50

def validationWeightOffset : Int := 50

def taprootLeafMask : UInt8 := 0xfe

def taprootLeafTapscript : UInt8 := 0xc0

def taprootControlBaseSize : Nat := 33

def taprootControlNodeSize : Nat := 32

def taprootControlMaxSize : Nat := taprootControlBaseSize + taprootControlNodeSize * 128

def slhDsaPkLen : Nat := 32

def slhDsaSigLen : Nat := 17088

section

variable {σ : Type} [Crypto]

/-- Looks for an `OP_SUCCESSx`, which makes a Tapscript succeed before it is run. -/
def findOpSuccess (flags : Flags) : Ops → Eval σ Bool
  | .done => pure false
  | .bad _ => fail .badOpcode
  | .op read rest =>
    if isOpSuccess read.opcode then do
      failIf (.discourageOpSuccess ∈ flags) .discourageOpSuccess
      pure true
    else findOpSuccess flags rest

def runWitnessScript (stack : List Bytes) (execScript : Bytes) (flags : Flags)
    (sigversion : SigVersion) (checker : BaseSignatureChecker σ)
    (execdata : ScriptExecutionData) : Eval σ Unit := do
  failIf (∃ elem ∈ stack, elem.length > maxScriptElementSize) .pushSize
  let stack ← evalScript stack execScript flags checker sigversion execdata
  failIf (stack.length ≠ 1) .cleanStack
  failIf (castToBool (stack.headD []) = false) .evalFalse

def executeWitnessScript (stack : List Bytes) (execScript : Bytes) (flags : Flags)
    (sigversion : SigVersion) (checker : BaseSignatureChecker σ)
    (execdata : ScriptExecutionData) : Eval σ Unit :=
  if sigversion = .tapscript then do
    let succeeds ← findOpSuccess flags (readOps execScript)
    if succeeds then pure ()
    else do
      failIf (stack.length > maxStackSize) .stackSize
      runWitnessScript stack execScript flags sigversion checker execdata
  else runWitnessScript stack execScript flags sigversion checker execdata

def computeTapleafHash (leafVersion : UInt8) (script : Bytes) : Uint256 :=
  sha256 (taggedHash "TapLeaf" ++ [leafVersion] ++ serializeBytes script)

def tapBranch (k : Uint256) (node : Bytes) : Uint256 :=
  sha256 (taggedHash "TapBranch"
    ++ if k.bytes < node then k.bytes ++ node else node ++ k.bytes)

def computeTaprootMerkleRoot (control : Bytes) (tapleafHash : Uint256) : Uint256 :=
  let pathLen := (control.length - taprootControlBaseSize) / taprootControlNodeSize
  (List.range pathLen).foldl (fun k i =>
    tapBranch k ((control.drop (taprootControlBaseSize + taprootControlNodeSize * i)).take
      taprootControlNodeSize)) tapleafHash

def verifyTaprootCommitment (control program : Bytes) (tapleafHash : Uint256) : Bool :=
  checkTapTweak program ((control.drop 1).take (taprootControlBaseSize - 1))
    (computeTaprootMerkleRoot control tapleafHash) (control.headD 0 &&& 1 != 0)

def dropAnnex : List Bytes → Option Uint256 × List Bytes
  | annex :: below :: stack =>
    if annex.head? = some annexTag then
      (some (sha256 (serializeBytes annex)), below :: stack)
    else (none, annex :: below :: stack)
  | stack => (none, stack)

variable (witness : List Bytes)

def verifyScriptPath (control scriptBytes : Bytes) (stack : List Bytes)
    (program : Bytes) (flags : Flags) (checker : BaseSignatureChecker σ)
    (execdata : ScriptExecutionData) : Eval σ Unit := do
  failIf (control.length < taprootControlBaseSize ∨ control.length > taprootControlMaxSize ∨
    (control.length - taprootControlBaseSize) % taprootControlNodeSize ≠ 0)
    .taprootWrongControlSize
  let leafVersion := control.headD 0 &&& taprootLeafMask
  let tapleafHash := computeTapleafHash leafVersion scriptBytes
  failIf (verifyTaprootCommitment control program tapleafHash = false) .witnessProgramMismatch
  let execdata := { execdata with tapleafHash := some tapleafHash }
  if leafVersion = taprootLeafTapscript then
    executeWitnessScript stack scriptBytes flags .tapscript checker
      { execdata with
        validationWeightLeft := some ((serializeStack witness).length + validationWeightOffset) }
  else
    failIf (.discourageUpgradableTaprootVersion ∈ flags) .discourageUpgradableTaprootVersion

def verifyTaproot (program : Bytes) (flags : Flags)
    (checker : BaseSignatureChecker σ) : Eval σ Unit :=
  if .taproot ∉ flags then pure ()
  else do
    failIf (witness = []) .witnessProgramWitnessEmpty
    let (annex, stack) := dropAnnex witness.reverse
    let execdata := { ScriptExecutionData.initial with annex := some annex }
    match stack with
    | [] => abort .stackNotEmpty
    | [sig] => do
      let checked ← checker.checkSchnorrSignature sig program .taproot execdata
      let _ ← require .ok checked
      pure ()
    | control :: scriptBytes :: stack =>
      verifyScriptPath witness control scriptBytes stack program flags checker execdata

def verifyP2QPK (program : Bytes) (flags : Flags)
    (checker : BaseSignatureChecker σ) : Eval σ Unit :=
  if .p2qpk ∉ flags then pure ()
  else
    match witness with
    | [sig, pubkey] => do
      failIf (pubkey.length ≠ slhDsaPkLen) .witnessProgramMismatch
      failIf (sig.length ≠ slhDsaSigLen) .witnessProgramMismatch
      failIf ((hash256 pubkey).bytes ≠ program) .witnessProgramMismatch
      let checked ← checker.checkSLHDSASignature sig pubkey
      require .ok checked
    | _ => fail .witnessProgramMismatch

def verifyWitnessV0 (program : Bytes) (flags : Flags)
    (checker : BaseSignatureChecker σ) : Eval σ Unit :=
  if program.length = 32 then
    match witness.reverse with
    | [] => fail .witnessProgramWitnessEmpty
    | scriptBytes :: stack => do
      failIf ((sha256 scriptBytes).bytes ≠ program) .witnessProgramMismatch
      executeWitnessScript stack scriptBytes flags .witnessV0 checker .initial
  else if program.length = 20 then do
    failIf (witness.length ≠ 2) .witnessProgramMismatch
    executeWitnessScript witness.reverse
      ([Op.dup, Op.hash160] ++ pushBytes program ++ [Op.equalVerify, Op.checkSig])
      flags .witnessV0 checker .initial
  else fail .witnessProgramWrongLength

def verifyWitnessProgram (witversion : Nat) (program : Bytes)
    (flags : Flags) (checker : BaseSignatureChecker σ) (isP2SH : Bool) : Eval σ Unit :=
  if witversion = 0 then verifyWitnessV0 witness program flags checker
  else if witversion = 1 ∧ program.length = 32 ∧ isP2SH = false then
    verifyTaproot witness program flags checker
  else if witversion = 2 ∧ program.length = slhDsaPkLen ∧ isP2SH = false then
    verifyP2QPK witness program flags checker
  else failIf (.discourageUpgradableWitnessProgram ∈ flags) .discourageUpgradableWitnessProgram

def requireTrue : List Bytes → Eval σ Unit
  | [] => fail .evalFalse
  | top :: _ => failIf (castToBool top = false) .evalFalse

def resizeOne (stack : List Bytes) : List Bytes := stack.drop (stack.length - 1)

/-- A witness program in `script`, if the flags know of witnesses: the scriptSig must be exactly
`expected`. Returns `hadWitness` and the stack. -/
def verifyWitness (script scriptSig expected : Bytes) (malleated : ScriptError)
    (witness : List Bytes) (flags : Flags) (checker : BaseSignatureChecker σ) (isP2SH : Bool)
    (hadWitness : Bool) (stack : List Bytes) : Eval σ (Bool × List Bytes) :=
  if .witness ∈ flags then
    match isWitnessProgram script with
    | none => pure (hadWitness, stack)
    | some (witnessversion, witnessprogram) => do
      failIf (scriptSig ≠ expected) malleated
      verifyWitnessProgram witness witnessversion witnessprogram flags checker isP2SH
      pure (true, resizeOne stack)
  else pure (hadWitness, stack)

def verifyP2SH (scriptSig scriptPubKey : Bytes) (witness : List Bytes) (flags : Flags)
    (checker : BaseSignatureChecker σ) (stackCopy : List Bytes) (hadWitness : Bool)
    (stack : List Bytes) : Eval σ (Bool × List Bytes) :=
  if .p2sh ∈ flags ∧ isPayToScriptHash scriptPubKey then do
    failIf (isPushOnly scriptSig = false) .sigPushOnly
    match stackCopy with
    | [] => abort .stackNotEmpty
    | pubKey2 :: below => do
      let stack ← evalScript below pubKey2 flags checker .base .initial
      requireTrue stack
      verifyWitness pubKey2 scriptSig (pushBytes pubKey2) .witnessMalleatedP2SH witness flags
        checker true hadWitness stack
  else pure (hadWitness, stack)

def verifyEnd (flags : Flags) (hadWitness : Bool) (stack : List Bytes) : Eval σ Unit := do
  onlyIf (.cleanStack ∈ flags) do
    assertThat (.p2sh ∈ flags) .flagCombination
    assertThat (.witness ∈ flags) .flagCombination
    failIf (stack.length ≠ 1) .cleanStack
  onlyIf (.witness ∈ flags) do
    assertThat (.p2sh ∈ flags) .flagCombination
    failIf (hadWitness = false ∧ witness ≠ []) .witnessUnexpected

def verifyScript (scriptSig scriptPubKey : Bytes) (witness : List Bytes) (flags : Flags)
    (checker : BaseSignatureChecker σ) : Eval σ Unit := do
  failIf (.sigPushOnly ∈ flags ∧ isPushOnly scriptSig = false) .sigPushOnly
  let stackCopy ← evalScript [] scriptSig flags checker .base .initial
  let stack ← evalScript stackCopy scriptPubKey flags checker .base .initial
  requireTrue stack
  let (hadWitness, stack) ←
    verifyWitness scriptPubKey scriptSig [] .witnessMalleated witness flags checker false false
      stack
  let (hadWitness, stack) ←
    verifyP2SH scriptSig scriptPubKey witness flags checker stackCopy hadWitness stack
  verifyEnd witness flags hadWitness stack

variable (checker : BaseSignatureChecker σ) (flags : Flags)

theorem verifyWitness_program {script : Bytes} {witversion : Nat} {program : Bytes}
    (segwit : .witness ∈ flags) (isProgram : isWitnessProgram script = some (witversion, program))
    (scriptSig expected : Bytes) (malleated : ScriptError) (witness : List Bytes)
    (isP2SH hadWitness : Bool) (stack : List Bytes) :
    verifyWitness script scriptSig expected malleated witness flags checker isP2SH hadWitness
      stack = (do
        failIf (scriptSig ≠ expected) malleated
        verifyWitnessProgram witness witversion program flags checker isP2SH
        pure (true, resizeOne stack)) := by
  unfold verifyWitness
  rw [if_pos segwit, isProgram]

theorem verifyP2SH_other {scriptPubKey : Bytes} (notHashed : isPayToScriptHash scriptPubKey = false)
    (scriptSig : Bytes) (witness stackCopy : List Bytes) (hadWitness : Bool) (stack : List Bytes) :
    verifyP2SH scriptSig scriptPubKey witness flags checker stackCopy hadWitness stack =
      pure (hadWitness, stack) := by
  unfold verifyP2SH
  rw [if_neg (by simp [notHashed])]

omit [Crypto] in
theorem verifyEnd_clean (p2sh : .p2sh ∈ flags) (segwit : .witness ∈ flags) (witness : List Bytes)
    {stack : List Bytes} (single : stack.length = 1) :
    verifyEnd (σ := σ) witness flags true stack = pure () := by
  unfold verifyEnd
  rw [assertThat_pos p2sh, assertThat_pos segwit, failIf_neg (by simp [single]),
    failIf_neg (by simp)]
  simp [onlyIf]

end

end Qogecoin.Script
