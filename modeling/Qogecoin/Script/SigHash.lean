import Qogecoin.Primitives.Serialize
import Qogecoin.Script.Eval

/-! Signature hashes and the data precomputed for them once a transaction. -/
namespace Qogecoin.Script

open Codec CTxIn Crypto Uint256

namespace SigHashType

def default : UInt8 := 0
def all : UInt8 := 1
def none : UInt8 := 2
def single : UInt8 := 3
def anyoneCanPay : UInt8 := 0x80
def outputMask : UInt8 := 3
def inputMask : UInt8 := 0x80

end SigHashType

section

variable [Crypto] (txTo : CTransaction)

def getPrevoutsSHA256 : Uint256 :=
  sha256 (txTo.vin.flatMap fun txin => txin.prevout.serialize)

def getSequencesSHA256 : Uint256 :=
  sha256 (txTo.vin.flatMap fun txin => serializeUInt32 txin.nSequence)

def getOutputsSHA256 : Uint256 :=
  sha256 (txTo.vout.flatMap CTxOut.serialize)

def getSpentAmountsSHA256 (outputsSpent : List CTxOut) : Uint256 :=
  sha256 (outputsSpent.flatMap fun txout => serializeInt64 txout.nValue)

def getSpentScriptsSHA256 (outputsSpent : List CTxOut) : Uint256 :=
  sha256 (outputsSpent.flatMap fun txout => serializeBytes txout.scriptPubKey)

def sha256Uint256 (input : Uint256) : Uint256 := sha256 input.bytes

end

structure PrecomputedTransactionData where
  prevoutsSingleHash : Uint256
  sequencesSingleHash : Uint256
  outputsSingleHash : Uint256
  spentAmountsSingleHash : Uint256
  spentScriptsSingleHash : Uint256
  bip341TaprootReady : Bool
  hashPrevouts : Uint256
  hashSequence : Uint256
  hashOutputs : Uint256
  bip143SegwitReady : Bool
  spentOutputs : List CTxOut
  spentOutputsReady : Bool
deriving DecidableEq, Repr

namespace PrecomputedTransactionData

def empty : PrecomputedTransactionData where
  prevoutsSingleHash := .null
  sequencesSingleHash := .null
  outputsSingleHash := .null
  spentAmountsSingleHash := .null
  spentScriptsSingleHash := .null
  bip341TaprootReady := false
  hashPrevouts := .null
  hashSequence := .null
  hashOutputs := .null
  bip143SegwitReady := false
  spentOutputs := []
  spentOutputsReady := false

def looksLikeTaproot (spent : CTxOut) : Bool :=
  spent.scriptPubKey.length == 34
    && (spent.scriptPubKey.head? == some Op.op1 || spent.scriptPubKey.head? == some Op.op2)

/-- Which features the transaction uses, as far as `Init` can tell from the inputs; `spent` is the
output an input spends, where it is known. -/
def scanInputs (spent : Nat → Option CTxOut) : (inpos : Nat) → List CTxIn → Bool × Bool → Bool × Bool
  | _, [], uses => uses
  | inpos, txin :: vin, (segwit, taproot) =>
    if segwit && taproot then (segwit, taproot)
    else if txin.scriptWitness.isEmpty then scanInputs spent (inpos + 1) vin (segwit, taproot)
    else if (spent inpos).any looksLikeTaproot then
      scanInputs spent (inpos + 1) vin (segwit, true)
    else scanInputs spent (inpos + 1) vin (true, taproot)

variable [Crypto]

/-- `Init`; `none` is a failed assertion. -/
def init (data : PrecomputedTransactionData) (txTo : CTransaction) (spentOutputs : List CTxOut)
    (force : Bool) : Option PrecomputedTransactionData :=
  if data.spentOutputsReady then none
  else if spentOutputs ≠ [] ∧ spentOutputs.length ≠ txTo.vin.length then none
  else
    let ready := !spentOutputs.isEmpty
    let spent inpos := if ready then spentOutputs[inpos]? else none
    let uses := scanInputs spent 0 txTo.vin (force, force)
    let data := { data with spentOutputs, spentOutputsReady := ready }
    let data :=
      if uses.1 || uses.2 then
        { data with
          prevoutsSingleHash := getPrevoutsSHA256 txTo
          sequencesSingleHash := getSequencesSHA256 txTo
          outputsSingleHash := getOutputsSHA256 txTo }
      else data
    let data :=
      if uses.1 then
        { data with
          hashPrevouts := sha256Uint256 data.prevoutsSingleHash
          hashSequence := sha256Uint256 data.sequencesSingleHash
          hashOutputs := sha256Uint256 data.outputsSingleHash
          bip143SegwitReady := true }
      else data
    some
      (if uses.2 then
        { data with
          spentAmountsSingleHash := getSpentAmountsSHA256 data.spentOutputs
          spentScriptsSingleHash := getSpentScriptsSHA256 data.spentOutputs
          bip341TaprootReady := true }
      else data)

end PrecomputedTransactionData

inductive MissingDataBehavior where
  | assertFail
  | fail
deriving DecidableEq, Repr

/-- `HandleMissingData`: `return false`, or no return at all. -/
def handleMissingData {α : Type} : MissingDataBehavior → Except Assertion (Option α)
  | .assertFail => .error .missingData
  | .fail => .ok none

section

variable [Crypto]

def tapSighashTag : Bytes := taggedHash "TapSighash"

def p2qpkSighashTag : Bytes := taggedHash "P2QPKSighash"

def epoch : UInt8 := 0

def keyVersion : UInt8 := 0

variable (txTo : CTransaction)

def schnorrPreimage (inPos : UInt32) (txin : CTxIn) (hashType : UInt8)
    (cache : PrecomputedTransactionData) (annex : Option Uint256) (outputHash : Option Uint256)
    (extension : Option (Uint256 × UInt32)) : Bytes :=
  let outputType :=
    if hashType = SigHashType.default then SigHashType.all else hashType &&& SigHashType.outputMask
  let anyoneCanPay := hashType &&& SigHashType.inputMask = SigHashType.anyoneCanPay
  let spendType : UInt8 := (if extension.isSome then 2 else 0) + (if annex.isSome then 1 else 0)
  tapSighashTag ++ [epoch] ++ [hashType] ++ serializeInt32 txTo.nVersion ++ serializeUInt32 txTo.nLockTime
    ++ (if anyoneCanPay then []
      else cache.prevoutsSingleHash.bytes ++ cache.spentAmountsSingleHash.bytes
        ++ cache.spentScriptsSingleHash.bytes ++ cache.sequencesSingleHash.bytes)
    ++ (if outputType = SigHashType.all then cache.outputsSingleHash.bytes else [])
    ++ [spendType]
    ++ (if anyoneCanPay then
        txin.prevout.serialize ++ (cache.spentOutputs.getD inPos.toNat .null).serialize
          ++ serializeUInt32 txin.nSequence
      else serializeUInt32 inPos)
    ++ (annex.elim [] bytes)
    ++ (outputHash.elim [] bytes)
    ++ (extension.elim [] fun (tapleafHash, codeSeparatorPos) =>
        tapleafHash.bytes ++ [keyVersion] ++ serializeUInt32 codeSeparatorPos)

/-- What is written for a Schnorr signature hash, and the execution data with the output hash kept
for later calls. -/
def schnorrMessage (execdata : ScriptExecutionData) (txTo : CTransaction) (inPos : UInt32)
    (hashType : UInt8) (sigversion : SigVersion) (cache : PrecomputedTransactionData)
    (mdb : MissingDataBehavior) : Except Assertion (Option (Bytes × ScriptExecutionData)) :=
  if sigversion ≠ .taproot ∧ sigversion ≠ .tapscript then .error .sigVersion
  else
    match txTo.vin[inPos.toNat]? with
    | none => .error .inputIndex
    | some txin =>
      if ¬(cache.bip341TaprootReady ∧ cache.spentOutputsReady) then handleMissingData mdb
      else if ¬(hashType ≤ 0x03 ∨ (0x81 ≤ hashType ∧ hashType ≤ 0x83)) then .ok none
      else
        match execdata.annex with
        | none => .error .executionData
        | some annex =>
          let single := hashType &&& SigHashType.outputMask = SigHashType.single
          if single ∧ inPos.toNat ≥ txTo.vout.length then .ok none
          else
            let outputHash :=
              if single then
                some (execdata.outputHash.getD
                  (sha256 (txTo.vout.getD inPos.toNat .null).serialize))
              else none
            let execdata := { execdata with outputHash := outputHash.or execdata.outputHash }
            let message := schnorrPreimage txTo inPos txin hashType cache annex outputHash
            if sigversion = .tapscript then
              match execdata.tapleafHash, execdata.codeSeparatorPos with
              | some tapleafHash, some codeSeparatorPos =>
                .ok (some (message (some (tapleafHash, codeSeparatorPos)), execdata))
              | _, _ => .error .executionData
            else .ok (some (message none, execdata))

def signatureHashSchnorr (execdata : ScriptExecutionData) (txTo : CTransaction) (inPos : UInt32)
    (hashType : UInt8) (sigversion : SigVersion) (cache : PrecomputedTransactionData)
    (mdb : MissingDataBehavior) : Except Assertion (Option (Uint256 × ScriptExecutionData)) :=
  (schnorrMessage execdata txTo inPos hashType sigversion cache mdb).map
    (Option.map fun (message, execdata) => (sha256 message, execdata))

def p2qpkPreimage (inPos : UInt32) (cache : PrecomputedTransactionData) : Bytes :=
  p2qpkSighashTag ++ [epoch] ++ [SigHashType.all] ++ serializeInt32 txTo.nVersion
    ++ serializeUInt32 txTo.nLockTime
    ++ cache.prevoutsSingleHash.bytes ++ cache.spentAmountsSingleHash.bytes
    ++ cache.spentScriptsSingleHash.bytes ++ cache.sequencesSingleHash.bytes
    ++ cache.outputsSingleHash.bytes ++ serializeUInt32 inPos

def signatureHashP2QPK (inPos : UInt32) (cache : PrecomputedTransactionData)
    (mdb : MissingDataBehavior) : Except Assertion (Option Uint256) :=
  if ¬inPos.toNat < txTo.vin.length then .error .inputIndex
  else if ¬(cache.bip341TaprootReady ∧ cache.spentOutputsReady) then handleMissingData mdb
  else .ok (some (sha256 (p2qpkPreimage txTo inPos cache)))

variable (nHashType : UInt32)

def baseType : UInt32 := nHashType &&& 0x1f

def signsAnyoneCanPay : Bool := nHashType &&& 0x80 != 0

def signsSingle : Bool := baseType nHashType == 3

def signsNone : Bool := baseType nHashType == 2

def withoutCodeSeparators (itBegin : Bytes) : Ops → Bytes
  | .done => itBegin
  | .bad stop => itBegin.take (itBegin.length - stop.length)
  | .op read rest =>
    if read.opcode = Op.codeSeparator then
      itBegin.take (itBegin.length - read.pc.length - 1) ++ withoutCodeSeparators read.pc rest
    else withoutCodeSeparators itBegin rest

def countCodeSeparators : Ops → Nat
  | .done | .bad _ => 0
  | .op read rest => (if read.opcode = Op.codeSeparator then 1 else 0) + countCodeSeparators rest

variable (scriptCode : Bytes)

def serializeScriptCode : Bytes :=
  writeCompactSize (scriptCode.length - countCodeSeparators (readOps scriptCode))
    ++ withoutCodeSeparators scriptCode (readOps scriptCode)

def serializeInput (nIn : Nat) (nHashType : UInt32) (nInput : Nat) (txin : CTxIn) : Bytes :=
  txin.prevout.serialize
    ++ (if nInput ≠ nIn then serializeBytes [] else serializeScriptCode scriptCode)
    ++ serializeUInt32
        (if nInput ≠ nIn ∧ (signsSingle nHashType ∨ signsNone nHashType) then 0 else txin.nSequence)

def serializeOutput (nIn : Nat) (nHashType : UInt32) (nOutput : Nat) (txout : CTxOut) : Bytes :=
  if signsSingle nHashType ∧ nOutput ≠ nIn then CTxOut.null.serialize else txout.serialize

def serializeForSignature (nIn : Nat) (txin : CTxIn) (nHashType : UInt32) : Bytes :=
  let inputs := if signsAnyoneCanPay nHashType then [(txin, nIn)] else txTo.vin.zipIdx
  let outputs :=
    if signsNone nHashType then []
    else if signsSingle nHashType then txTo.vout.zipIdx.take (nIn + 1)
    else txTo.vout.zipIdx
  serializeInt32 txTo.nVersion
    ++ writeCompactSize inputs.length
    ++ inputs.flatMap (fun (txin, i) => serializeInput scriptCode nIn nHashType i txin)
    ++ writeCompactSize outputs.length
    ++ outputs.flatMap (fun (txout, i) => serializeOutput nIn nHashType i txout)
    ++ serializeUInt32 txTo.nLockTime

def segwitPreimage (txTo : CTransaction) (nIn : Nat) (txin : CTxIn)
    (nHashType : UInt32) (amount : Int64) (cache : Option PrecomputedTransactionData) : Bytes :=
  let ready := cache.filter (·.bip143SegwitReady)
  let hashPrevouts :=
    if signsAnyoneCanPay nHashType then .null
    else (ready.map (·.hashPrevouts)).getD (sha256Uint256 (getPrevoutsSHA256 txTo))
  let hashSequence :=
    if signsAnyoneCanPay nHashType ∨ signsSingle nHashType ∨ signsNone nHashType then .null
    else (ready.map (·.hashSequence)).getD (sha256Uint256 (getSequencesSHA256 txTo))
  let hashOutputs :=
    if ¬signsSingle nHashType ∧ ¬signsNone nHashType then
      (ready.map (·.hashOutputs)).getD (sha256Uint256 (getOutputsSHA256 txTo))
    else if signsSingle nHashType then
      (txTo.vout[nIn]?.map fun txout => hash256 txout.serialize).getD .null
    else .null
  serializeInt32 txTo.nVersion ++ hashPrevouts.bytes ++ hashSequence.bytes
    ++ txin.prevout.serialize ++ serializeBytes scriptCode ++ serializeInt64 amount
    ++ serializeUInt32 txin.nSequence ++ hashOutputs.bytes ++ serializeUInt32 txTo.nLockTime
    ++ serializeUInt32 nHashType

def signatureHash (txTo : CTransaction) (nIn : UInt32) (nHashType : UInt32)
    (amount : Int64) (sigversion : SigVersion) (cache : Option PrecomputedTransactionData) :
    Except Assertion Uint256 :=
  match txTo.vin[nIn.toNat]? with
  | none => .error .inputIndex
  | some txin =>
    if sigversion = .witnessV0 then
      .ok (hash256
        (segwitPreimage scriptCode txTo nIn.toNat txin nHashType amount cache))
    else if signsSingle nHashType ∧ nIn.toNat ≥ txTo.vout.length then .ok (uint256S 1)
    else
      .ok (hash256
        (serializeForSignature txTo scriptCode nIn.toNat txin nHashType
          ++ serializeUInt32 nHashType))

end

def isValidPubKey (vch : Bytes) : Bool :=
  match vch with
  | [] => false
  | header :: _ =>
    if header = 2 ∨ header = 3 then vch.length == 33
    else if header = 4 ∨ header = 6 ∨ header = 7 then vch.length == 65
    else false

/-- The members, and the two virtual methods that `CachingTransactionSignatureChecker` overrides. -/
structure GenericTransactionSignatureChecker (σ : Type) where
  txTo : CTransaction
  mdb : MissingDataBehavior
  nIn : UInt32
  amount : Int64
  txdata : Option PrecomputedTransactionData
  verifyECDSASignature : (vchSig pubkey : Bytes) → (sighash : Uint256) → Eval σ Bool
  verifySchnorrSignature : (sig pubkey : Bytes) → (sighash : Uint256) → Eval σ Bool

def ofAssertion {σ α : Type} : Except Assertion α → Eval σ α
  | .ok a => pure a
  | .error a => abort a

namespace GenericTransactionSignatureChecker

variable {σ : Type} [Crypto]

variable (self : GenericTransactionSignatureChecker σ)

def checkECDSASignature
    (vchSigIn vchPubKey scriptCode : Bytes) (sigversion : SigVersion) : Eval σ Bool :=
  if isValidPubKey vchPubKey = false then pure false
  else
    match vchSigIn.getLast? with
    | none => pure false
    | some nHashType =>
      if sigversion = .witnessV0 ∧ self.amount < 0 then do
        let missing ← ofAssertion (handleMissingData self.mdb)
        pure (missing.getD false)
      else do
        let sighash ← ofAssertion
          (signatureHash scriptCode self.txTo self.nIn nHashType.toUInt32 self.amount sigversion
            self.txdata)
        self.verifyECDSASignature vchSigIn.dropLast vchPubKey sighash

/-- The signature proper and its hash type: a signature of 65 bytes carries one, which must not be
the default. -/
def splitSchnorr (sig : Bytes) : Checked (Bytes × UInt8) :=
  if sig.length = 64 then .ok (sig, SigHashType.default)
  else if sig.length = 65 then
    let hashtype := sig.getLastD 0
    if hashtype = SigHashType.default then .error (some .schnorrSigHashType)
    else .ok (sig.dropLast, hashtype)
  else .error (some .schnorrSigSize)

def checkSchnorrSignature (sig pubkey : Bytes)
    (sigversion : SigVersion) (execdata : ScriptExecutionData) :
    Eval σ (Checked ScriptExecutionData) := do
  assertThat (sigversion = .taproot ∨ sigversion = .tapscript) .sigVersion
  assertThat (pubkey.length = 32) .pubKeySize
  match splitSchnorr sig with
  | .error serror => pure (.error serror)
  | .ok (sig, hashtype) =>
    match self.txdata with
    | none => do
      let missing ← ofAssertion (handleMissingData self.mdb)
      pure (missing.elim (.error none) .ok)
    | some txdata => do
      let hashed ← ofAssertion
        (signatureHashSchnorr execdata self.txTo self.nIn hashtype sigversion txdata self.mdb)
      match hashed with
      | none => pure (.error (some .schnorrSigHashType))
      | some (sighash, execdata) => do
        let valid ← self.verifySchnorrSignature sig pubkey sighash
        pure (if valid then .ok execdata else .error (some .schnorrSig))

def checkSLHDSASignature (sig pubkey : Bytes) : Eval σ (Checked Unit) :=
  match self.txdata with
  | none => do
    let missing ← ofAssertion (handleMissingData self.mdb)
    pure (missing.elim (.error none) .ok)
  | some txdata => do
    let hashed ← ofAssertion (signatureHashP2QPK self.txTo self.nIn txdata self.mdb)
    match hashed with
    | none => pure (.error (some .witnessProgramMismatch))
    | some sighash =>
      pure (if verifySLHDSA sighash.bytes sig pubkey then .ok ()
        else .error (some .witnessProgramMismatch))

def checkLockTime (nLockTime : Int) : Bool :=
  let txLockTime := self.txTo.nLockTime.toNat
  if ¬((txLockTime < lockTimeThreshold ∧ nLockTime < lockTimeThreshold) ∨
      (txLockTime ≥ lockTimeThreshold ∧ nLockTime ≥ lockTimeThreshold)) then false
  else if nLockTime > txLockTime then false
  else (self.txTo.vin[self.nIn.toNat]?.map (·.nSequence)) != some sequenceFinal

def checkSequence (nSequence : Int) : Bool :=
  match self.txTo.vin[self.nIn.toNat]? with
  | none => false
  | some txin =>
    let nLockTimeMask := (sequenceLockTimeTypeFlag ||| sequenceLockTimeMask).toNat
    let typeFlag := sequenceLockTimeTypeFlag.toNat
    if self.txTo.nVersion.toUInt32 < 2 then false
    else if txin.nSequence &&& sequenceLockTimeDisableFlag ≠ 0 then false
    else
      let txToSequenceMasked := txin.nSequence.toNat &&& nLockTimeMask
      let nSequenceMasked := (nSequence % 2 ^ 32).toNat &&& nLockTimeMask
      if ¬((txToSequenceMasked < typeFlag ∧ nSequenceMasked < typeFlag) ∨
          (txToSequenceMasked ≥ typeFlag ∧ nSequenceMasked ≥ typeFlag)) then false
      else if nSequenceMasked > txToSequenceMasked then false
      else true

def toBase : BaseSignatureChecker σ where
  checkECDSASignature := self.checkECDSASignature
  checkSchnorrSignature := self.checkSchnorrSignature
  checkSLHDSASignature := self.checkSLHDSASignature
  checkLockTime nLockTime := pure (self.checkLockTime nLockTime)
  checkSequence nSequence := pure (self.checkSequence nSequence)

end GenericTransactionSignatureChecker

end Qogecoin.Script
