import Qogecoin.Script.ScriptCheck

/-! A P2QPK signature hash determines what is signed. SHA256 is only assumed not to collide on the
strings that are hashed on the way; every one of them can be taken apart again. -/
namespace Qogecoin.Script

open Codec List Crypto PrecomputedTransactionData Uint256 Set

section

variable [Crypto] (txTo : CTransaction)

def prevoutBytes : Bytes :=
  txTo.vin.flatMap fun txin => txin.prevout.serialize

def sequenceBytes : Bytes :=
  txTo.vin.flatMap fun txin => serializeUInt32 txin.nSequence

def outputBytes : Bytes := txTo.vout.flatMap CTxOut.serialize

variable (spentOutputs : List CTxOut)

def amountBytes : Bytes :=
  spentOutputs.flatMap fun txout => serializeInt64 txout.nValue

def scriptBytes : Bytes :=
  spentOutputs.flatMap fun txout => serializeBytes txout.scriptPubKey

def hashedFor (inPos : UInt32) (cache : PrecomputedTransactionData) : Set Bytes :=
  { prevoutBytes txTo, sequenceBytes txTo, outputBytes txTo, amountBytes spentOutputs,
    scriptBytes spentOutputs, p2qpkPreimage txTo inPos cache }

/-- Scripts are vectors: their sizes are machine words. -/
def ScriptSizesFit (outputs : List CTxOut) : Prop :=
  ∀ out ∈ outputs, out.scriptPubKey.length < 2 ^ 64

variable {tx₁ tx₂ : CTransaction} {spent₁ spent₂ : List CTxOut}

section

omit [Crypto]

theorem prevouts_of_bytes (same : prevoutBytes tx₁ = prevoutBytes tx₂) :
    tx₁.vin.map (·.prevout) = tx₂.vin.map (·.prevout) := by
  apply prefixFree_outPoint.field_injective _ _ (fun _ _ => trivial) (fun _ _ => trivial) same
  intro o empty
  have size := congrArg List.length empty
  simp [COutPoint.serialize, o.hash.size] at size

theorem sequences_of_bytes (same : sequenceBytes tx₁ = sequenceBytes tx₂) :
    tx₁.vin.map (·.nSequence) = tx₂.vin.map (·.nSequence) := by
  apply prefixFree_uint32.field_injective _ _ (fun _ _ => trivial) (fun _ _ => trivial) same
  intro n empty
  cases empty

theorem outputs_of_bytes (fit₁ : ScriptSizesFit tx₁.vout) (fit₂ : ScriptSizesFit tx₂.vout)
    (same : outputBytes tx₁ = outputBytes tx₂) :
    tx₁.vout = tx₂.vout := by
  apply prefixFree_txOut.flatMap_injective _ fit₁ fit₂ same
  intro out empty
  cases empty

theorem amounts_of_bytes (same : amountBytes spent₁ = amountBytes spent₂) :
    spent₁.map (·.nValue) = spent₂.map (·.nValue) := by
  apply prefixFree_int64.field_injective _ _ (fun _ _ => trivial) (fun _ _ => trivial) same
  intro n empty
  cases empty

theorem scripts_of_bytes (fit₁ : ScriptSizesFit spent₁) (fit₂ : ScriptSizesFit spent₂)
    (same : scriptBytes spent₁ = scriptBytes spent₂) :
    spent₁.map (·.scriptPubKey) = spent₂.map (·.scriptPubKey) := by
  apply prefixFree_bytes.field_injective _ _ fit₁ fit₂ same
  intro script empty
  unfold serializeBytes writeCompactSize at empty
  split at empty
  · cases empty
  · split at empty
    · cases empty
    · split at empty <;> cases empty

end

theorem p2qpkPreimage_length (txTo : CTransaction) (inPos : UInt32)
    (cache : PrecomputedTransactionData) : (p2qpkPreimage txTo inPos cache).length = 238 := by
  simp [p2qpkPreimage, p2qpkSighashTag, taggedHash, size, serializeInt32,
    serializeUInt32]

variable {in₁ in₂ : UInt32} {txTo : CTransaction} {cache : PrecomputedTransactionData}
  {execdata execdata' : ScriptExecutionData} {sigversion : SigVersion}

theorem p2qpkPreimage_injective {cache1 cache2 : PrecomputedTransactionData}
    (same : p2qpkPreimage tx₁ in₁ cache1 = p2qpkPreimage tx₂ in₂ cache2) :
    tx₁.nVersion = tx₂.nVersion ∧ tx₁.nLockTime = tx₂.nLockTime ∧
      cache1.prevoutsSingleHash = cache2.prevoutsSingleHash ∧
      cache1.spentAmountsSingleHash = cache2.spentAmountsSingleHash ∧
      cache1.spentScriptsSingleHash = cache2.spentScriptsSingleHash ∧
      cache1.sequencesSingleHash = cache2.sequencesSingleHash ∧
      cache1.outputsSingleHash = cache2.outputsSingleHash ∧ in₁ = in₂ := by
  obtain ⟨same, index⟩ := append_inj' same rfl
  obtain ⟨same, outputs⟩ := append_inj' same (by simp only [size])
  obtain ⟨same, sequences⟩ := append_inj' same (by simp only [size])
  obtain ⟨same, scripts⟩ := append_inj' same (by simp only [size])
  obtain ⟨same, amounts⟩ := append_inj' same (by simp only [size])
  obtain ⟨same, prevouts⟩ := append_inj' same (by simp only [size])
  obtain ⟨same, lockTime⟩ := append_inj' same rfl
  obtain ⟨_, version⟩ := append_inj' same rfl
  exact ⟨serializeInt32_injective version, prefixFree_uint32.injective trivial trivial lockTime,
    bytes_injective prevouts, bytes_injective amounts,
    bytes_injective scripts, bytes_injective sequences,
    bytes_injective outputs, prefixFree_uint32.injective trivial trivial index⟩

variable {mdb : MissingDataBehavior}

theorem signatureHashP2QPK_eq_ok {inPos : UInt32} {digest : Uint256}
    (returned : signatureHashP2QPK txTo inPos cache mdb = .ok (some digest)) :
    cache.bip341TaprootReady = true ∧ cache.spentOutputsReady = true ∧
      digest = sha256 (p2qpkPreimage txTo inPos cache) := by
  unfold signatureHashP2QPK at returned
  split at returned
  · cases returned
  · split at returned
    · cases mdb <;> cases returned
    next ready =>
      cases returned
      exact ⟨(not_not.mp ready).1, (not_not.mp ready).2, rfl⟩

theorem schnorrMessage_tagged {inPos : UInt32} {hashType : UInt8} {message : Bytes}
    (written : schnorrMessage execdata txTo inPos hashType sigversion cache mdb = .ok (some
      (message, execdata'))) :
    ∃ rest, message = tapSighashTag ++ rest := by
  have tagged : ∀ txin annex outputHash extension, ∃ rest,
      schnorrPreimage txTo inPos txin hashType cache annex outputHash extension =
        tapSighashTag ++ rest := by
    intro txin annex outputHash extension
    unfold schnorrPreimage
    simp only [append_assoc]
    exact ⟨_, rfl⟩
  unfold schnorrMessage at written
  split at written
  · cases written
  split at written
  · cases written
  split at written
  · cases mdb <;> cases written
  split at written
  · cases written
  split at written
  · cases written
  dsimp only at written
  split at written
  · cases written
  split at written
  · split at written
    · cases written
      exact tagged _ _ _ _
    · cases written
  · cases written
    exact tagged _ _ _ _

/-- The two transactions agree in everything a P2QPK signature is meant to cover. -/
structure SameSigned (tx₁ tx₂ : CTransaction) (spent₁ spent₂ : List CTxOut) (in₁ in₂ : UInt32) :
    Prop where
  version : tx₁.nVersion = tx₂.nVersion
  lockTime : tx₁.nLockTime = tx₂.nLockTime
  prevouts : tx₁.vin.map (·.prevout) = tx₂.vin.map (·.prevout)
  sequences : tx₁.vin.map (·.nSequence) = tx₂.vin.map (·.nSequence)
  outputs : tx₁.vout = tx₂.vout
  amounts : spent₁.map (·.nValue) = spent₂.map (·.nValue)
  scripts : spent₁.map (·.scriptPubKey) = spent₂.map (·.scriptPubKey)
  index : in₁ = in₂

theorem sameSigned_of_preimages {data₁ data₂ : PrecomputedTransactionData}
    (fit₁ : ScriptSizesFit tx₁.vout ∧ ScriptSizesFit spent₁)
    (fit₂ : ScriptSizesFit tx₂.vout ∧ ScriptSizesFit spent₂)
    (collisionFree : InjOn sha256 (hashedFor tx₁ spent₁ in₁ data₁ ∪ hashedFor tx₂ spent₂ in₂
      data₂))
    (ready₁ : data₁.TaprootReady tx₁ spent₁) (ready₂ : data₂.TaprootReady tx₂ spent₂)
    (same : p2qpkPreimage tx₁ in₁ data₁ = p2qpkPreimage tx₂ in₂ data₂) :
    SameSigned tx₁ tx₂ spent₁ spent₂ in₁ in₂ := by
  obtain ⟨version, lockTime, prevouts, amounts, scripts, sequences, outputs, index⟩ :=
    p2qpkPreimage_injective same
  obtain ⟨_, _, prevouts1, sequences1, outputs1, amounts1, scripts1⟩ := ready₁
  obtain ⟨_, _, prevouts2, sequences2, outputs2, amounts2, scripts2⟩ := ready₂
  -- Each hash field is the hash of one of the listed strings, on both sides.
  have apart : ∀ {x y : Bytes}, sha256 x = sha256 y →
      x ∈ hashedFor tx₁ spent₁ in₁ data₁ → y ∈ hashedFor tx₂ spent₂ in₂ data₂ → x = y := by
    intro x y collide inFirst inSecond
    exact collisionFree (.inl inFirst) (.inr inSecond) collide
  rw [prevouts1, prevouts2] at prevouts
  rw [sequences1, sequences2] at sequences
  rw [outputs1, outputs2] at outputs
  rw [amounts1, amounts2] at amounts
  rw [scripts1, scripts2] at scripts
  constructor
  · exact version
  · exact lockTime
  · exact prevouts_of_bytes (apart prevouts (by simp [hashedFor]) (by simp [hashedFor]))
  · exact sequences_of_bytes (apart sequences (by simp [hashedFor]) (by simp [hashedFor]))
  · exact outputs_of_bytes fit₁.1 fit₂.1
      (apart outputs (by simp [hashedFor]) (by simp [hashedFor]))
  · exact amounts_of_bytes (apart amounts (by simp [hashedFor]) (by simp [hashedFor]))
  · exact scripts_of_bytes fit₁.2 fit₂.2
      (apart scripts (by simp [hashedFor]) (by simp [hashedFor]))
  · exact index

theorem message_ne_preimage {tx₂ : CTransaction} {in₂ : UInt32} {hashType : UInt8}
    {data₂ : PrecomputedTransactionData} {message : Bytes} (tx₁ : CTransaction) (in₁ : UInt32)
    (data₁ : PrecomputedTransactionData)
    (written : schnorrMessage execdata tx₂ in₂ hashType sigversion data₂ mdb = .ok (some (message,
      execdata')))
    (collisionFree : InjOn sha256 { tagBytes "P2QPKSighash", tagBytes "TapSighash" }) :
    message ≠ p2qpkPreimage tx₁ in₁ data₁ := by
  intro same
  obtain ⟨rest, tagged⟩ := schnorrMessage_tagged written
  unfold p2qpkPreimage at same
  rw [tagged] at same
  simp only [append_assoc] at same
  unfold tapSighashTag p2qpkSighashTag taggedHash at same
  have halves := (append_inj same (by simp [size])).1
  have tags := bytes_injective (append_inj halves (by simp only [size])).1
  have text := collisionFree (by simp) (by simp) tags
  exact absurd text (by decide)

theorem p2qpk_sighash_binds :
    (∀ (tx₁ tx₂ : CTransaction) (spent₁ spent₂ : List CTxOut) (in₁ in₂ : UInt32)
        (force₁ force₂ : Bool) (data₁ data₂ : PrecomputedTransactionData)
        (mdb₁ mdb₂ : MissingDataBehavior) (digest : Uint256),
      empty.init tx₁ spent₁ force₁ = some data₁ →
      empty.init tx₂ spent₂ force₂ = some data₂ →
      ScriptSizesFit tx₁.vout ∧ ScriptSizesFit spent₁ →
      ScriptSizesFit tx₂.vout ∧ ScriptSizesFit spent₂ →
      InjOn sha256
        (hashedFor tx₁ spent₁ in₁ data₁ ∪ hashedFor tx₂ spent₂ in₂ data₂) →
      signatureHashP2QPK tx₁ in₁ data₁ mdb₁ = .ok (some digest) →
      signatureHashP2QPK tx₂ in₂ data₂ mdb₂ = .ok (some digest) →
      SameSigned tx₁ tx₂ spent₁ spent₂ in₁ in₂) ∧
    (∀ (tx₁ tx₂ : CTransaction) (in₁ in₂ : UInt32) (data₁ data₂ : PrecomputedTransactionData)
        (mdb₁ mdb₂ : MissingDataBehavior) (execdata execdata' : ScriptExecutionData)
        (hashType : UInt8) (sigversion : SigVersion) (message : Bytes) (digest₁ digest₂ : Uint256),
      schnorrMessage execdata tx₂ in₂ hashType sigversion data₂ mdb₂ =
        .ok (some (message, execdata')) →
      InjOn sha256
        { p2qpkPreimage tx₁ in₁ data₁, message, tagBytes "P2QPKSighash",
          tagBytes "TapSighash" } →
      signatureHashP2QPK tx₁ in₁ data₁ mdb₁ = .ok (some digest₁) →
      signatureHashSchnorr execdata tx₂ in₂ hashType sigversion data₂ mdb₂ =
        .ok (some (digest₂, execdata')) →
      digest₁ ≠ digest₂) := by
  constructor
  · intro tx₁ tx₂ spent₁ spent₂ in₁ in₂ force₁ force₂ data₁ data₂ mdb₁ mdb₂ digest filled₁ filled₂
      fit₁ fit₂ collisionFree hashed₁ hashed₂
    obtain ⟨taproot₁, known₁, digest₁⟩ := signatureHashP2QPK_eq_ok hashed₁
    obtain ⟨taproot₂, known₂, digest₂⟩ := signatureHashP2QPK_eq_ok hashed₂
    have ready₁ := (init_empty filled₁).2.2.1 taproot₁ known₁
    have ready₂ := (init_empty filled₂).2.2.1 taproot₂ known₂
    have same := collisionFree (.inl (by simp [hashedFor])) (.inr (by simp [hashedFor]))
      (digest₁.symm.trans digest₂)
    exact sameSigned_of_preimages fit₁ fit₂ collisionFree ready₁ ready₂ same
  · intro tx₁ tx₂ in₁ in₂ data₁ data₂ mdb₁ mdb₂ execdata execdata' hashType sigversion message
      digest₁ digest₂ written collisionFree hashed₁ hashed₂ collide
    obtain ⟨_, _, first⟩ := signatureHashP2QPK_eq_ok hashed₁
    have second : sha256 message = digest₂ := by
      unfold signatureHashSchnorr at hashed₂
      rw [written] at hashed₂
      cases hashed₂
      rfl
    have same : message = p2qpkPreimage tx₁ in₁ data₁ := by
      apply collisionFree (by simp) (by simp)
      rw [second, ← collide, first]
    exact absurd same (message_ne_preimage tx₁ in₁ data₁ written
      (collisionFree.mono (by intro x member; simp_all)))

end

@[reducible] def lengthCrypto : Crypto :=
  { blank with sha256 := fun x => uint256S x.length }

def sampleTx : CTransaction := ⟨2, [⟨⟨.null, 0⟩, [], 0, [[1]]⟩], [⟨0, []⟩], 0⟩

def sampleSpent : List CTxOut := [⟨0, Op.op2 :: 0x20 :: List.replicate 32 1⟩]

theorem p2qpk_sighash_binds_sample :
    let _ := lengthCrypto
    let execdata := { ScriptExecutionData.initial with annex := some none }
    ∃ data digest tapDigest,
      empty.init sampleTx sampleSpent false = some data ∧
      signatureHashP2QPK sampleTx 0 data .assertFail = .ok (some digest) ∧
      signatureHashSchnorr execdata sampleTx 0 0 .taproot data .assertFail =
        .ok (some (tapDigest, execdata)) ∧
      SameSigned sampleTx sampleTx sampleSpent sampleSpent 0 0 ∧ digest ≠ tapDigest := by
  intro crypto execdata
  obtain ⟨data, filled⟩ : ∃ data,
      empty.init sampleTx sampleSpent false = some data := ⟨_, rfl⟩
  have ready : data.bip341TaprootReady = true ∧ data.spentOutputsReady = true := by
    cases filled
    exact ⟨rfl, rfl⟩
  have hashed : signatureHashP2QPK sampleTx 0 data .assertFail =
      .ok (some (sha256 (p2qpkPreimage sampleTx 0 data))) := by
    simp [signatureHashP2QPK, ready, sampleTx]
  have long : sha256 (p2qpkPreimage sampleTx 0 data) = uint256S 238 :=
    congrArg uint256S (p2qpkPreimage_length sampleTx 0 data)
  have lengths : ([prevoutBytes sampleTx, sequenceBytes sampleTx, outputBytes sampleTx,
      amountBytes sampleSpent, scriptBytes sampleSpent, p2qpkPreimage sampleTx 0 data].map
        sha256).Nodup := by
    simp only [map_cons, map_nil, long]
    decide
  have collisionFree : InjOn sha256 (hashedFor sampleTx sampleSpent 0 data) := by
    intro x first y second same
    apply inj_on_of_nodup_map lengths _ _ same
    · simpa [hashedFor] using first
    · simpa [hashedFor] using second
  have fit : ScriptSizesFit sampleTx.vout ∧ ScriptSizesFit sampleSpent := by
    constructor <;> simp [ScriptSizesFit, sampleTx, sampleSpent]
  let message := schnorrPreimage sampleTx 0 ⟨⟨.null, 0⟩, [], 0, [[1]]⟩ 0 data none none none
  have written : schnorrMessage execdata sampleTx 0 0 .taproot data .assertFail =
      .ok (some (message, execdata)) := by
    simp [schnorrMessage, ready, sampleTx, execdata, message, ScriptExecutionData.initial,
      SigHashType.single]
  have longer : sha256 message = uint256S 239 := by
    apply congrArg uint256S
    simp [message, schnorrPreimage, tapSighashTag, taggedHash, size, serializeInt32,
      serializeUInt32, SigHashType.default, SigHashType.anyoneCanPay, SigHashType.inputMask]
  have tagged : InjOn sha256 { p2qpkPreimage sampleTx 0 data, message,
      tagBytes "P2QPKSighash", tagBytes "TapSighash" } := by
    have distinct : ([p2qpkPreimage sampleTx 0 data, message, tagBytes "P2QPKSighash",
        tagBytes "TapSighash"].map sha256).Nodup := by
      simp only [map_cons, map_nil, long, longer]
      decide
    intro x first y second same
    apply inj_on_of_nodup_map distinct _ _ same
    · simpa using first
    · simpa using second
  have tapHashed : signatureHashSchnorr execdata sampleTx 0 0 .taproot data .assertFail =
      .ok (some (sha256 message, execdata)) := by
    unfold signatureHashSchnorr
    rw [written]
    rfl
  exact ⟨data, _, _, filled, hashed, tapHashed,
    p2qpk_sighash_binds.1 _ _ _ _ _ _ _ _ _ _ _ _ _ filled filled fit fit
      (by rw [union_self]; exact collisionFree) hashed hashed,
    p2qpk_sighash_binds.2 _ _ _ _ _ _ _ _ _ _ _ _ _ _ _ written tagged hashed tapHashed⟩

end Qogecoin.Script
