import Qogecoin.Script.Eval
import Qogecoin.Script.Opcode

/-! `EvalScript` and the counting of signature operations. The stack is a list with its top first,
so `stacktop(-i)` is the element at `i - 1`; every access keeps the bound check of `vector::at`.
Counts are unbounded: scripts of a block are far too short for a 32-bit count to wrap. -/
namespace Qogecoin.Script

open Codec ScriptNum

def maxScriptElementSize : Nat := 520

def maxOpsPerScript : Nat := 201

def maxPubKeysPerMultiSig : Nat := 20

def maxStackSize : Nat := 1000

def validationWeightPerSigOpPassed : Int := 50

/-- `ConditionStack`: the size of the implied stack and the position of its first false value. -/
structure ConditionStack where
  size : Nat
  firstFalsePos : Option Nat
deriving DecidableEq, Repr

namespace ConditionStack

def initial : ConditionStack := ⟨0, none⟩

variable (c : ConditionStack)

def empty : Bool := c.size == 0

def allTrue : Bool := c.firstFalsePos.isNone

def pushBack (f : Bool) : ConditionStack :=
  { size := c.size + 1
    firstFalsePos :=
      if c.firstFalsePos = none ∧ f = false then some c.size else c.firstFalsePos }

def popBack : ConditionStack :=
  { size := c.size - 1
    firstFalsePos := if c.firstFalsePos = some (c.size - 1) then none else c.firstFalsePos }

def toggleTop : ConditionStack :=
  { c with
    firstFalsePos :=
      if c.firstFalsePos = none then some (c.size - 1)
      else if c.firstFalsePos = some (c.size - 1) then none
      else c.firstFalsePos }

end ConditionStack

def isCompressedOrUncompressedPubKey (vchPubKey : Bytes) : Bool :=
  if vchPubKey.length < 33 then false
  else if vchPubKey.getD 0 0 = 0x04 then vchPubKey.length == 65
  else if vchPubKey.getD 0 0 = 0x02 ∨ vchPubKey.getD 0 0 = 0x03 then vchPubKey.length == 33
  else false

def isCompressedPubKey (vchPubKey : Bytes) : Bool :=
  vchPubKey.length == 33 && (vchPubKey.getD 0 0 == 0x02 || vchPubKey.getD 0 0 == 0x03)

/-- `0x30 [total-length] 0x02 [R-length] [R] 0x02 [S-length] [S] [sighash]` -/
def isValidSignatureEncoding (sig : Bytes) : Bool :=
  let byte i := (sig.getD i 0).toNat
  if sig.length < 9 then false
  else if sig.length > 73 then false
  else if byte 0 ≠ 0x30 then false
  else if byte 1 ≠ sig.length - 3 then false
  else
    let lenR := byte 3
    if 5 + lenR ≥ sig.length then false
    else
      let lenS := byte (5 + lenR)
      if lenR + lenS + 7 ≠ sig.length then false
      else if byte 2 ≠ 0x02 then false
      else if lenR = 0 then false
      else if byte 4 ≥ 0x80 then false
      else if lenR > 1 ∧ byte 4 = 0 ∧ ¬byte 5 ≥ 0x80 then false
      else if byte (lenR + 4) ≠ 0x02 then false
      else if lenS = 0 then false
      else if byte (lenR + 6) ≥ 0x80 then false
      else if lenS > 1 ∧ byte (lenR + 6) = 0 ∧ ¬byte (lenR + 7) ≥ 0x80 then false
      else true

def isDefinedHashtypeSignature (vchSig : Bytes) : Bool :=
  match vchSig.getLast? with
  | none => false
  | some last =>
    let nHashType := last &&& 0x7f
    1 ≤ nHashType && nHashType ≤ 3

section

variable {σ : Type} [Crypto]

def isLowDERSignature (vchSig : Bytes) : Eval σ Unit := do
  failIf (isValidSignatureEncoding vchSig = false) .sigDER
  failIf (Crypto.checkLowS vchSig.dropLast = false) .sigHighS

def checkSignatureEncoding (vchSig : Bytes) (flags : Flags) : Eval σ Unit :=
  if vchSig = [] then pure ()
  else do
    failIf ((.derSig ∈ flags ∨ .lowS ∈ flags ∨ .strictEnc ∈ flags) ∧
      isValidSignatureEncoding vchSig = false) .sigDER
    onlyIf (.lowS ∈ flags) (isLowDERSignature vchSig)
    failIf (.strictEnc ∈ flags ∧ isDefinedHashtypeSignature vchSig = false) .sigHashType

def checkPubKeyEncoding (vchPubKey : Bytes) (flags : Flags) (sigversion : SigVersion) :
    Eval σ Unit := do
  failIf (.strictEnc ∈ flags ∧ isCompressedOrUncompressedPubKey vchPubKey = false) .pubKeyType
  failIf (.witnessPubKeyType ∈ flags ∧ sigversion = .witnessV0 ∧
    isCompressedPubKey vchPubKey = false) .witnessPubKeyType

variable (flags : Flags)

def dropSignature (sigversion : SigVersion) (vchSig scriptCode : Bytes) : Eval σ Bytes :=
  if sigversion = .base then do
    let deleted := findAndDelete scriptCode (pushBytes vchSig)
    failIf (deleted.1 > 0 ∧ .constScriptCode ∈ flags) .sigFindAndDelete
    pure deleted.2
  else pure scriptCode

def evalChecksigPreTapscript (vchSig vchPubKey pbegincodehash : Bytes) (flags : Flags)
    (checker : BaseSignatureChecker σ) (sigversion : SigVersion) : Eval σ Bool := do
  let scriptCode ← dropSignature flags sigversion vchSig pbegincodehash
  checkSignatureEncoding vchSig flags
  checkPubKeyEncoding vchPubKey flags sigversion
  let fSuccess ← checker.checkECDSASignature vchSig vchPubKey scriptCode sigversion
  failIf (fSuccess = false ∧ .nullFail ∈ flags ∧ vchSig ≠ []) .sigNullFail
  pure fSuccess

def spendValidationWeight (sig : Bytes) (execdata : ScriptExecutionData) :
    Eval σ ScriptExecutionData :=
  if sig = [] then pure execdata
  else
    match execdata.validationWeightLeft with
    | none => abort .executionData
    | some left => do
      failIf (left - validationWeightPerSigOpPassed < 0) .tapscriptValidationWeight
      pure { execdata with validationWeightLeft := some (left - validationWeightPerSigOpPassed) }

def evalChecksigTapscript (sig pubkey : Bytes) (execdata : ScriptExecutionData) (flags : Flags)
    (checker : BaseSignatureChecker σ) (sigversion : SigVersion) :
    Eval σ (Bool × ScriptExecutionData) := do
  let success := !sig.isEmpty
  let execdata ← spendValidationWeight sig execdata
  if pubkey.length = 0 then fail .pubKeyType
  else if pubkey.length = 32 then
    if success then do
      let checked ← checker.checkSchnorrSignature sig pubkey sigversion execdata
      let execdata ← require .unknownError checked
      pure (success, execdata)
    else pure (success, execdata)
  else do
    failIf (.discourageUpgradablePubKeyType ∈ flags) .discourageUpgradablePubKeyType
    pure (success, execdata)

def evalChecksig (sig pubkey pbegincodehash : Bytes) (execdata : ScriptExecutionData)
    (flags : Flags) (checker : BaseSignatureChecker σ) (sigversion : SigVersion) :
    Eval σ (Bool × ScriptExecutionData) :=
  match sigversion with
  | .base | .witnessV0 => do
    let fSuccess ← evalChecksigPreTapscript sig pubkey pbegincodehash flags checker sigversion
    pure (fSuccess, execdata)
  | .tapscript => evalChecksigTapscript sig pubkey execdata flags checker sigversion
  | .taproot | .witnessV2SLHDSA => abort .sigVersion

def vchFalse : Bytes := []

def vchTrue : Bytes := [1]

def vchBool (f : Bool) : Bytes := if f then vchTrue else vchFalse

variable (stack : List Bytes)

def stacktop (i : Nat) : Eval σ Bytes :=
  match stack[i - 1]? with
  | some vch => pure vch
  | none => raise .outOfRange

def popstack : List Bytes → Eval σ (List Bytes)
  | [] => raise .popStack
  | _ :: stack => pure stack

def swaptop (i j : Nat) : Eval σ (List Bytes) := do
  let vchI ← stacktop stack i
  let vchJ ← stacktop stack j
  pure ((stack.set (i - 1) vchJ).set (j - 1) vchI)

def needs (n : Nat) : Eval σ Unit :=
  failIf (stack.length < n) .invalidStackOperation

def pushResult (f : Bool) (onVerify : Option ScriptError) (stack : List Bytes) :
    Eval σ (List Bytes) :=
  match onVerify with
  | none => pure (vchBool f :: stack)
  | some serror => if f then popstack (vchBool f :: stack) else fail serror

def indexedOp (op : StackOp) (fRequireMinimal : Bool) (stack : List Bytes) :
    Eval σ (List Bytes) := do
  needs stack 2
  let vchN ← stacktop stack 1
  let n ← scriptNum vchN fRequireMinimal nDefaultMaxNumSize
  let n := getInt n
  let stack ← popstack stack
  failIf (n < 0 ∨ n ≥ stack.length) .invalidStackOperation
  let vch ← stacktop stack (n.toNat + 1)
  pure (vch :: if op = .roll then stack.eraseIdx n.toNat else stack)

def evalStackOp (op : StackOp) (fRequireMinimal : Bool) (stack : List Bytes) :
    Eval σ (List Bytes) :=
  match op with
  | .twoDrop => do
    needs stack 2
    let stack ← popstack stack
    popstack stack
  | .twoDup => do
    needs stack 2
    let vch1 ← stacktop stack 2
    let vch2 ← stacktop stack 1
    pure (vch2 :: vch1 :: stack)
  | .threeDup => do
    needs stack 3
    let vch1 ← stacktop stack 3
    let vch2 ← stacktop stack 2
    let vch3 ← stacktop stack 1
    pure (vch3 :: vch2 :: vch1 :: stack)
  | .twoOver => do
    needs stack 4
    let vch1 ← stacktop stack 4
    let vch2 ← stacktop stack 3
    pure (vch2 :: vch1 :: stack)
  | .twoRot => do
    needs stack 6
    let vch1 ← stacktop stack 6
    let vch2 ← stacktop stack 5
    pure (vch2 :: vch1 :: (stack.take 4 ++ stack.drop 6))
  | .twoSwap => do
    needs stack 4
    let stack ← swaptop stack 4 2
    swaptop stack 3 1
  | .ifDup => do
    needs stack 1
    let vch ← stacktop stack 1
    pure (if castToBool vch then vch :: stack else stack)
  | .depth => pure (serialize stack.length :: stack)
  | .drop => do
    needs stack 1
    popstack stack
  | .dup => do
    needs stack 1
    let vch ← stacktop stack 1
    pure (vch :: stack)
  | .nip => do
    needs stack 2
    pure (stack.eraseIdx 1)
  | .over => do
    needs stack 2
    let vch ← stacktop stack 2
    pure (vch :: stack)
  | .pick | .roll => indexedOp op fRequireMinimal stack
  | .rot => do
    needs stack 3
    let stack ← swaptop stack 3 2
    swaptop stack 2 1
  | .swap => do
    needs stack 2
    swaptop stack 2 1
  | .tuck => do
    needs stack 2
    let vch ← stacktop stack 1
    pure (stack.take 2 ++ vch :: stack.drop 2)
  | .size => do
    needs stack 1
    let vch ← stacktop stack 1
    pure (serialize vch.length :: stack)

def evalEqual (verify : Bool) (stack : List Bytes) : Eval σ (List Bytes) := do
  needs stack 2
  let vch1 ← stacktop stack 2
  let vch2 ← stacktop stack 1
  let stack ← popstack stack
  let stack ← popstack stack
  pushResult (vch1 == vch2) (if verify then some .equalVerify else none) stack

def UnaryOp.apply : UnaryOp → Int → Int
  | .oneAdd, bn => bn + 1
  | .oneSub, bn => bn - 1
  | .negate, bn => -bn
  | .abs, bn => if bn < 0 then -bn else bn
  | .not, bn => if bn = 0 then 1 else 0
  | .zeroNotEqual, bn => if bn ≠ 0 then 1 else 0

def BinaryOp.apply : BinaryOp → Int → Int → Int
  | .add, bn1, bn2 => bn1 + bn2
  | .sub, bn1, bn2 => bn1 - bn2
  | .boolAnd, bn1, bn2 => if bn1 ≠ 0 ∧ bn2 ≠ 0 then 1 else 0
  | .boolOr, bn1, bn2 => if bn1 ≠ 0 ∨ bn2 ≠ 0 then 1 else 0
  | .numEqual, bn1, bn2 => if bn1 = bn2 then 1 else 0
  | .numEqualVerify, bn1, bn2 => if bn1 = bn2 then 1 else 0
  | .numNotEqual, bn1, bn2 => if bn1 ≠ bn2 then 1 else 0
  | .lessThan, bn1, bn2 => if bn1 < bn2 then 1 else 0
  | .greaterThan, bn1, bn2 => if bn1 > bn2 then 1 else 0
  | .lessThanOrEqual, bn1, bn2 => if bn1 ≤ bn2 then 1 else 0
  | .greaterThanOrEqual, bn1, bn2 => if bn1 ≥ bn2 then 1 else 0
  | .min, bn1, bn2 => if bn1 < bn2 then bn1 else bn2
  | .max, bn1, bn2 => if bn1 > bn2 then bn1 else bn2

def evalUnary (op : UnaryOp) (fRequireMinimal : Bool) (stack : List Bytes) :
    Eval σ (List Bytes) := do
  needs stack 1
  let vch ← stacktop stack 1
  let bn ← scriptNum vch fRequireMinimal nDefaultMaxNumSize
  let stack ← popstack stack
  pure (serialize (op.apply bn) :: stack)

def evalBinary (op : BinaryOp) (fRequireMinimal : Bool) (stack : List Bytes) :
    Eval σ (List Bytes) := do
  needs stack 2
  let vch1 ← stacktop stack 2
  let bn1 ← scriptNum vch1 fRequireMinimal nDefaultMaxNumSize
  let vch2 ← stacktop stack 1
  let bn2 ← scriptNum vch2 fRequireMinimal nDefaultMaxNumSize
  let stack ← popstack stack
  let stack ← popstack stack
  let vch := serialize (op.apply bn1 bn2)
  if op = .numEqualVerify then
    if castToBool vch then popstack (vch :: stack) else fail .numEqualVerify
  else pure (vch :: stack)

def evalWithin (fRequireMinimal : Bool) (stack : List Bytes) : Eval σ (List Bytes) := do
  needs stack 3
  let vch1 ← stacktop stack 3
  let bn1 ← scriptNum vch1 fRequireMinimal nDefaultMaxNumSize
  let vch2 ← stacktop stack 2
  let bn2 ← scriptNum vch2 fRequireMinimal nDefaultMaxNumSize
  let vch3 ← stacktop stack 1
  let bn3 ← scriptNum vch3 fRequireMinimal nDefaultMaxNumSize
  let stack ← popstack stack
  let stack ← popstack stack
  let stack ← popstack stack
  pure (vchBool (bn2 ≤ bn1 && bn1 < bn3) :: stack)

def HashOp.apply : HashOp → Bytes → Bytes
  | .ripemd160, vch => (Crypto.ripemd160 vch).bytes
  | .sha1, vch => (Crypto.sha1 vch).bytes
  | .sha256, vch => (Crypto.sha256 vch).bytes
  | .hash160, vch => (Crypto.hash160 vch).bytes
  | .hash256, vch => (Crypto.hash256 vch).bytes

def evalHash (op : HashOp) (stack : List Bytes) : Eval σ (List Bytes) := do
  needs stack 1
  let vch ← stacktop stack 1
  let stack ← popstack stack
  pure (op.apply vch :: stack)

variable (checker : BaseSignatureChecker σ)

def evalCheckLockTimeVerify (fRequireMinimal : Bool) (stack : List Bytes) : Eval σ Unit :=
  onlyIf (.checkLockTimeVerify ∈ flags) do
    needs stack 1
    let vch ← stacktop stack 1
    let nLockTime ← scriptNum vch fRequireMinimal 5
    failIf (nLockTime < 0) .negativeLockTime
    let satisfied ← checker.checkLockTime nLockTime
    failIf (satisfied = false) .unsatisfiedLockTime

def evalCheckSequenceVerify (fRequireMinimal : Bool) (stack : List Bytes) : Eval σ Unit :=
  onlyIf (.checkSequenceVerify ∈ flags) do
    needs stack 1
    let vch ← stacktop stack 1
    let nSequence ← scriptNum vch fRequireMinimal 5
    failIf (nSequence < 0) .negativeLockTime
    onlyIf (¬nSequence.toNat.testBit 31) do
      let satisfied ← checker.checkSequence nSequence
      failIf (satisfied = false) .unsatisfiedLockTime

def dropSignatures (flags : Flags) (sigversion : SigVersion) (stack : List Bytes) :
    (n isig : Nat) → Bytes → Eval σ Bytes
  | 0, _, scriptCode => pure scriptCode
  | n + 1, isig, scriptCode => do
    let vchSig ← stacktop stack isig
    let scriptCode ← dropSignature flags sigversion vchSig scriptCode
    dropSignatures flags sigversion stack n (isig + 1) scriptCode

/-- The loop over keys. It is left with `false` as soon as there are more signatures than keys,
so it never comes to more keys than there are. -/
def matchSignatures (flags : Flags) (checker : BaseSignatureChecker σ) (sigversion : SigVersion)
    (scriptCode : Bytes) (stack : List Bytes) :
    (nKeysCount nSigsCount ikey isig : Nat) → Eval σ Bool
  | _, 0, _, _ => pure true
  | 0, _ + 1, _, _ => pure false
  | nKeysCount + 1, nSigsCount + 1, ikey, isig => do
    let vchSig ← stacktop stack isig
    let vchPubKey ← stacktop stack ikey
    checkSignatureEncoding vchSig flags
    checkPubKeyEncoding vchPubKey flags sigversion
    let fOk ← checker.checkECDSASignature vchSig vchPubKey scriptCode sigversion
    let sigsLeft := if fOk then nSigsCount else nSigsCount + 1
    if sigsLeft > nKeysCount then pure false
    else
      matchSignatures flags checker sigversion scriptCode stack nKeysCount sigsLeft (ikey + 1)
        (if fOk then isig + 1 else isig)

def popArguments (flags : Flags) (fSuccess : Bool) :
    (n ikey2 : Nat) → List Bytes → Eval σ (List Bytes)
  | 0, _, stack => pure stack
  | n + 1, ikey2, stack => do
    let top ← stacktop stack 1
    failIf (fSuccess = false ∧ .nullFail ∈ flags ∧ ikey2 = 0 ∧ top ≠ []) .sigNullFail
    let stack ← popstack stack
    popArguments flags fSuccess n (ikey2 - 1) stack

variable (sigversion : SigVersion)

def evalCheckMultiSig
    (verify : Bool) (pbegincodehash : Bytes) (nOpCount : Nat) (stack : List Bytes) :
    Eval σ (List Bytes × Nat) := do
  let fRequireMinimal := decide (.minimalData ∈ flags)
  failIf (sigversion = .tapscript) .tapscriptCheckMultiSig
  needs stack 1
  let vchKeys ← stacktop stack 1
  let keys ← scriptNum vchKeys fRequireMinimal nDefaultMaxNumSize
  failIf (getInt keys < 0 ∨ getInt keys > maxPubKeysPerMultiSig) .pubKeyCount
  let nKeysCount := (getInt keys).toNat
  failIf (nOpCount + nKeysCount > maxOpsPerScript) .opCount
  let i := 2 + nKeysCount
  needs stack i
  let vchSigs ← stacktop stack i
  let sigs ← scriptNum vchSigs fRequireMinimal nDefaultMaxNumSize
  failIf (getInt sigs < 0 ∨ getInt sigs > nKeysCount) .sigCount
  let nSigsCount := (getInt sigs).toNat
  let isig := i + 1
  let i := isig + nSigsCount
  needs stack i
  let scriptCode ← dropSignatures flags sigversion stack nSigsCount isig pbegincodehash
  let fSuccess ←
    matchSignatures flags checker sigversion scriptCode stack nKeysCount nSigsCount 2 isig
  let stack ← popArguments flags fSuccess (i - 1) (nKeysCount + 2) stack
  needs stack 1
  let dummy ← stacktop stack 1
  failIf (.nullDummy ∈ flags ∧ dummy ≠ []) .sigNullDummy
  let stack ← popstack stack
  let stack ← pushResult fSuccess (if verify then some .checkMultiSigVerify else none) stack
  pure (stack, nOpCount + nKeysCount)

structure EvalState where
  stack : List Bytes
  altstack : List Bytes
  vfExec : ConditionStack
  pbegincodehash : Bytes
  nOpCount : Nat
  opcodePos : UInt32
  execdata : ScriptExecutionData
deriving DecidableEq, Repr

def evalIf (negated : Bool) (st : EvalState) : Eval σ EvalState :=
  if st.vfExec.allTrue then do
    failIf (st.stack.length < 1) .unbalancedConditional
    let vch ← stacktop st.stack 1
    let minimal := vch = [] ∨ vch = [1]
    failIf (sigversion = .tapscript ∧ ¬minimal) .tapscriptMinimalIf
    failIf (sigversion = .witnessV0 ∧ .minimalIf ∈ flags ∧ ¬minimal) .minimalIf
    let stack ← popstack st.stack
    pure { st with stack, vfExec := st.vfExec.pushBack (castToBool vch != negated) }
  else pure { st with vfExec := st.vfExec.pushBack false }

def evalVerify : Eval σ (List Bytes) := do
  needs stack 1
  let vch ← stacktop stack 1
  if castToBool vch then popstack stack else fail .verify

def evalCheckSigOp (verify : Bool) (st : EvalState) : Eval σ EvalState := do
  needs st.stack 2
  let vchSig ← stacktop st.stack 2
  let vchPubKey ← stacktop st.stack 1
  let (fSuccess, execdata) ←
    evalChecksig vchSig vchPubKey st.pbegincodehash st.execdata flags checker sigversion
  let stack ← popstack st.stack
  let stack ← popstack stack
  let stack ← pushResult fSuccess (if verify then some .checkSigVerify else none) stack
  pure { st with stack, execdata }

def evalCheckSigAdd (st : EvalState) : Eval σ EvalState := do
  failIf (sigversion = .base ∨ sigversion = .witnessV0) .badOpcode
  needs st.stack 3
  let sig ← stacktop st.stack 3
  let vchNum ← stacktop st.stack 2
  let num ← scriptNum vchNum (.minimalData ∈ flags) nDefaultMaxNumSize
  let pubkey ← stacktop st.stack 1
  let (success, execdata) ←
    evalChecksig sig pubkey st.pbegincodehash st.execdata flags checker sigversion
  let stack ← popstack st.stack
  let stack ← popstack stack
  let stack ← popstack stack
  pure { st with stack := serialize (num + if success then 1 else 0) :: stack, execdata }

def evalCase (pc : Bytes) (st : EvalState) (opcode : Opcode) : Eval σ EvalState :=
  let fRequireMinimal := decide (.minimalData ∈ flags)
  let onStack (x : Eval σ (List Bytes)) : Eval σ EvalState := do
    let stack ← x
    pure { st with stack }
  match opcode with
  | .number n => pure { st with stack := serialize n :: st.stack }
  | .nop => pure st
  | .checkLockTimeVerify => do
    evalCheckLockTimeVerify flags checker fRequireMinimal st.stack
    pure st
  | .checkSequenceVerify => do
    evalCheckSequenceVerify flags checker fRequireMinimal st.stack
    pure st
  | .upgradableNop => do
    failIf (.discourageUpgradableNops ∈ flags) .discourageUpgradableNops
    pure st
  | .opIf negated => evalIf flags sigversion negated st
  | .opElse => do
    failIf (st.vfExec.empty = true) .unbalancedConditional
    pure { st with vfExec := st.vfExec.toggleTop }
  | .opEndIf => do
    failIf (st.vfExec.empty = true) .unbalancedConditional
    pure { st with vfExec := st.vfExec.popBack }
  | .verify => onStack (evalVerify st.stack)
  | .opReturn => fail .opReturn
  | .toAltStack => do
    needs st.stack 1
    let vch ← stacktop st.stack 1
    let stack ← popstack st.stack
    pure { st with stack, altstack := vch :: st.altstack }
  | .fromAltStack => do
    failIf (st.altstack.length < 1) .invalidAltStackOperation
    let vch ← stacktop st.altstack 1
    let altstack ← popstack st.altstack
    pure { st with stack := vch :: st.stack, altstack }
  | .stack op => onStack (evalStackOp op fRequireMinimal st.stack)
  | .equal verify => onStack (evalEqual verify st.stack)
  | .unary op => onStack (evalUnary op fRequireMinimal st.stack)
  | .binary op => onStack (evalBinary op fRequireMinimal st.stack)
  | .within => onStack (evalWithin fRequireMinimal st.stack)
  | .hash op => onStack (evalHash op st.stack)
  | .codeSeparator =>
    pure { st with
      pbegincodehash := pc
      execdata := { st.execdata with codeSeparatorPos := some st.opcodePos } }
  | .checkSig verify => evalCheckSigOp flags checker sigversion verify st
  | .checkSigAdd => evalCheckSigAdd flags checker sigversion st
  | .checkMultiSig verify => do
    let (stack, nOpCount) ←
      evalCheckMultiSig flags checker sigversion verify st.pbegincodehash st.nOpCount st.stack
    pure { st with stack, nOpCount }
  | .other => fail .badOpcode

def countOp (opcode : UInt8) (nOpCount : Nat) : Eval σ Nat :=
  if (sigversion = .base ∨ sigversion = .witnessV0) ∧ opcode > Op.op16 then do
    failIf (nOpCount + 1 > maxOpsPerScript) .opCount
    pure (nOpCount + 1)
  else pure nOpCount

def execute (read : OpRead) (st : EvalState) : Eval σ EvalState :=
  let fExec := st.vfExec.allTrue
  if fExec ∧ read.opcode ≤ Op.pushData4 then do
    failIf (.minimalData ∈ flags ∧ checkMinimalPush read.data read.opcode = false) .minimalData
    pure { st with stack := read.data :: st.stack }
  else if fExec ∨ (Op.opIf ≤ read.opcode ∧ read.opcode ≤ Op.opEndIf) then
    evalCase flags checker sigversion read.pc st (decode read.opcode)
  else pure st

def evalOp (read : OpRead) (st : EvalState) : Eval σ EvalState := do
  failIf (read.data.length > maxScriptElementSize) .pushSize
  let nOpCount ← countOp sigversion read.opcode st.nOpCount
  failIf (read.opcode ∈ disabledOpcodes) .disabledOpcode
  failIf (read.opcode = Op.codeSeparator ∧ sigversion = .base ∧ .constScriptCode ∈ flags)
    .opCodeSeparator
  let st ← execute flags checker sigversion read { st with nOpCount }
  failIf (st.stack.length + st.altstack.length > maxStackSize) .stackSize
  pure { st with opcodePos := st.opcodePos + 1 }

def evalOps (flags : Flags) (checker : BaseSignatureChecker σ) (sigversion : SigVersion) :
    Ops → EvalState → Eval σ EvalState
  | .done, st => pure st
  | .bad _, _ => fail .badOpcode
  | .op read rest, st => do
    let st ← evalOp flags checker sigversion read st
    evalOps flags checker sigversion rest st

def evalScript (script : Bytes) (flags : Flags)
    (checker : BaseSignatureChecker σ) (sigversion : SigVersion)
    (execdata : ScriptExecutionData) : Eval σ (List Bytes) := do
  assertThat (sigversion = .base ∨ sigversion = .witnessV0 ∨ sigversion = .tapscript) .sigVersion
  failIf ((sigversion = .base ∨ sigversion = .witnessV0) ∧ script.length > maxScriptSize)
    .scriptSize
  let st ← catchAll (evalOps flags checker sigversion (readOps script)
    { stack
      altstack := []
      vfExec := .initial
      pbegincodehash := script
      nOpCount := 0
      opcodePos := 0
      execdata := { execdata with codeSeparatorPos := some 0xffffffff } })
  failIf (st.vfExec.empty = false) .unbalancedConditional
  pure st.stack

variable (checker : BaseSignatureChecker σ) (flags : Flags)

variable (sigversion : SigVersion) {opcode : UInt8} (pc : Bytes) (st : EvalState)

theorem evalOp_small {data : Bytes} (small : opcode ≤ Op.op16)
    (short : data.length ≤ maxScriptElementSize) :
    evalOp flags checker sigversion ⟨opcode, data, pc⟩ st = (do
      let st ← execute flags checker sigversion ⟨opcode, data, pc⟩ st
      failIf (st.stack.length + st.altstack.length > maxStackSize) .stackSize
      pure { st with opcodePos := st.opcodePos + 1 }) := by
  have counted : countOp (σ := σ) sigversion opcode st.nOpCount = pure st.nOpCount := by
    unfold countOp
    rw [if_neg]
    rintro ⟨_, large⟩
    exact absurd large (UInt8.not_lt.mpr small)
  have enabled : opcode ∉ disabledOpcodes := by
    have large : ∀ opcode ∈ disabledOpcodes, ¬opcode ≤ Op.op16 := by decide +kernel
    intro disabled
    exact large _ disabled small
  have separator : opcode ≠ Op.codeSeparator := by
    rintro rfl
    exact absurd small (by decide)
  unfold evalOp
  rw [failIf_neg (by simp only; omega), pure_bind, counted, pure_bind, failIf_neg enabled,
    pure_bind, failIf_neg (fun rule => separator rule.1), pure_bind]

theorem evalOp_push {data : Bytes} (push : opcode ≤ Op.pushData4)
    (short : data.length ≤ maxScriptElementSize) (minimal : checkMinimalPush data opcode = true)
    (running : st.vfExec.allTrue = true)
    (room : st.stack.length + st.altstack.length < maxStackSize) :
    evalOp flags checker sigversion ⟨opcode, data, pc⟩ st =
      pure { st with stack := data :: st.stack, opcodePos := st.opcodePos + 1 } := by
  have small : opcode ≤ Op.op16 := UInt8.le_trans push (by decide)
  rw [evalOp_small checker flags sigversion pc st small short]
  unfold execute
  rw [if_pos ⟨running, push⟩, failIf_neg (by simp [minimal]), pure_bind, pure_bind]
  rw [failIf_neg (by simp only [List.length_cons]; omega), pure_bind]

theorem evalOp_number {n : Int} (small : opcode ≤ Op.op16) (large : ¬opcode ≤ Op.pushData4)
    (number : decode opcode = .number n) (running : st.vfExec.allTrue = true)
    (room : st.stack.length + st.altstack.length < maxStackSize) :
    evalOp flags checker sigversion ⟨opcode, [], pc⟩ st =
      pure { st with stack := serialize n :: st.stack, opcodePos := st.opcodePos + 1 } := by
  rw [evalOp_small checker flags sigversion pc st small (Nat.zero_le _)]
  unfold execute
  rw [if_neg (fun both => large both.2), if_pos (.inl running), number]
  unfold evalCase
  rw [pure_bind, failIf_neg (by simp only [List.length_cons]; omega), pure_bind]

theorem evalScript_nil (stack : List Bytes) :
    evalScript stack [] flags checker .base .initial = pure stack := by
  unfold evalScript
  rw [assertThat_pos (.inl rfl), pure_bind, failIf_neg (by simp), pure_bind, readOps_nil]
  rfl

end

end Qogecoin.Script

namespace Qogecoin.Script

open Codec

def Ops.sigOpCount (fAccurate : Bool) : (lastOpcode : UInt8) → Ops → Nat
  | _, .done => 0
  | _, .bad _ => 0
  | lastOpcode, .op read rest =>
    let counted :=
      if read.opcode = Op.checkSig ∨ read.opcode = Op.checkSigVerify then 1
      else if read.opcode = Op.checkMultiSig ∨ read.opcode = Op.checkMultiSigVerify then
        if fAccurate ∧ Op.op1 ≤ lastOpcode ∧ lastOpcode ≤ Op.op16 then lastOpcode.toNat - 0x50
        else maxPubKeysPerMultiSig
      else 0
    counted + rest.sigOpCount fAccurate read.opcode

def getSigOpCount (script : Bytes) (fAccurate : Bool) : Nat :=
  (readOps script).sigOpCount fAccurate 0xff

def Ops.lastPush : (vData : Bytes) → Ops → Option Bytes
  | vData, .done => some vData
  | _, .bad _ => none
  | _, .op read rest => if read.opcode > Op.op16 then none else rest.lastPush read.data

def getSigOpCountP2SH (scriptPubKey scriptSig : Bytes) : Nat :=
  if isPayToScriptHash scriptPubKey then
    match (readOps scriptSig).lastPush [] with
    | none => 0
    | some subscript => getSigOpCount subscript true
  else getSigOpCount scriptPubKey true

def witnessSigOps (witversion : Nat) (witprogram : Bytes) (witness : List Bytes) : Nat :=
  if witversion = 0 then
    if witprogram.length = 20 then 1
    else if witprogram.length = 32 then
      match witness.getLast? with
      | some subscript => getSigOpCount subscript true
      | none => 0
    else 0
  else 0

/-- `CountWitnessSigOps`; `none` is the failed assertion on the P2SH flag. -/
def countWitnessSigOps (scriptSig scriptPubKey : Bytes) (witness : List Bytes) (flags : Flags) :
    Option Nat :=
  if .witness ∉ flags then some 0
  else if .p2sh ∉ flags then none
  else
    match isWitnessProgram scriptPubKey with
    | some (witversion, witprogram) => some (witnessSigOps witversion witprogram witness)
    | none =>
      if isPayToScriptHash scriptPubKey && isPushOnly scriptSig then
        match isWitnessProgram (((readOps scriptSig).lastPush []).getD []) with
        | some (witversion, witprogram) => some (witnessSigOps witversion witprogram witness)
        | none => some 0
      else some 0

end Qogecoin.Script
