import Qogecoin.Library.Outcomes
import Qogecoin.Script.Verify

/-! When a P2QPK output can be spent: the program is pushed by the bare evaluation and must be true
there, and the witness must hold a signature and the key the program commits to. -/
namespace Qogecoin.Script

open Codec Crypto EStateM List ScriptNum

def p2qpkScript (program : Bytes) : Bytes := Op.op2 :: 0x20 :: program

variable {program : Bytes}

theorem readOps_program {opcode : UInt8} (large : ¬opcode ≤ Op.pushData4)
    (long : program.length = 32) :
    readOps (opcode :: 0x20 :: program) =
      .op ⟨opcode, [], 0x20 :: program⟩ (.op ⟨0x20, program, []⟩ .done) := by
  have first : getScriptOp (opcode :: 0x20 :: program) = .ok ⟨opcode, [], 0x20 :: program⟩ := by
    simp [getScriptOp, large]
  have second : getScriptOp (0x20 :: program) = .ok ⟨0x20, program, []⟩ := by
    simp [getScriptOp, lengthWidth, pushSize, Op.pushData1, Op.pushData4, long]
  rw [readOps_op first, readOps_op second, readOps_nil]

theorem checkMinimalPush_program (long : program.length = 32) :
    checkMinimalPush program 0x20 = true := by
  match program, long with
  | a :: b :: rest, long => simp [checkMinimalPush, long]

theorem isWitnessProgram_p2qpkScript (long : program.length = 32) :
    isWitnessProgram (p2qpkScript program) = some (2, program) := by
  simp [isWitnessProgram, p2qpkScript, long]
  decide

section

variable {σ : Type} [Crypto] (checker : BaseSignatureChecker σ) (flags : Flags)

theorem evalScript_program {opcode : UInt8} {n : Int} (large : ¬opcode ≤ Op.pushData4)
    (small : opcode ≤ Op.op16) (number : decode opcode = .number n) (long : program.length = 32) :
    evalScript [] (opcode :: 0x20 :: program) flags checker .base .initial =
      pure [program, serialize n] := by
  have size : ¬(opcode :: 0x20 :: program).length > maxScriptSize := by
    simp [long, maxScriptSize]
  unfold evalScript
  rw [assertThat_pos (.inl rfl), pure_bind, failIf_neg (fun both => size both.2), pure_bind,
    readOps_program large long]
  unfold evalOps
  rw [evalOp_number checker flags .base _ _ small large number rfl (by simp [maxStackSize]),
    pure_bind]
  unfold evalOps
  rw [evalOp_push checker flags .base _ _ (by decide) (by simp [long, maxScriptElementSize])
    (checkMinimalPush_program long) rfl (by simp [maxStackSize]), pure_bind]
  rfl

theorem evalScript_p2qpkScript (long : program.length = 32) :
    evalScript [] (p2qpkScript program) flags checker .base .initial = pure [program, [2]] := by
  have two : serialize 2 = [2] := by
    simp [serialize, absBytes]
    decide
  rw [p2qpkScript, evalScript_program checker flags (by decide) (by decide) (n := 2) rfl long, two]

theorem verifyScript_p2qpkScript (long : program.length = 32) (p2sh : .p2sh ∈ flags)
    (segwit : .witness ∈ flags) (witness : List Bytes) :
    verifyScript [] (p2qpkScript program) witness flags checker = (do
      failIf (castToBool program = false) .evalFalse
      verifyP2QPK witness program flags checker) := by
  have pushOnly : isPushOnly [] = true := by simp [isPushOnly, Ops.pushOnly]
  have isProgram := isWitnessProgram_p2qpkScript long
  have notHashed : isPayToScriptHash (p2qpkScript program) = false := by
    simp [isPayToScriptHash, p2qpkScript, long]
  have dispatch : verifyWitnessProgram witness 2 program flags checker false =
      verifyP2QPK witness program flags checker := by
    simp [verifyWitnessProgram, long, slhDsaPkLen]
  have resized : resizeOne [program, [2]] = [[2]] := rfl
  have clean : verifyEnd (σ := σ) witness flags true [[2]] = pure () :=
    verifyEnd_clean flags p2sh segwit witness rfl
  unfold verifyScript
  rw [failIf_neg (by simp [pushOnly]), pure_bind, evalScript_nil, pure_bind,
    evalScript_p2qpkScript checker flags long, pure_bind]
  simp only [verifyWitness_program checker flags segwit isProgram, failIf_neg (not_not_intro rfl),
    verifyP2SH_other checker flags notHashed, resized, clean, bind_assoc, pure_bind, dispatch,
    bind_pure_unit]
  rfl

theorem verifyScript_p2qpkScript_sig {scriptSig program : Bytes} (long : program.length = 32)
    (segwit : .witness ∈ flags) (witness : List Bytes) (s s' : σ)
    (accepted : verifyScript scriptSig (p2qpkScript program) witness flags checker s = .ok () s') :
    scriptSig = [] := by
  have isProgram := isWitnessProgram_p2qpkScript long
  unfold verifyScript at accepted
  simp only [verifyWitness_program checker flags segwit isProgram] at accepted
  obtain ⟨_, _, _, accepted⟩ := bind_eq_ok.mp accepted
  obtain ⟨stackCopy, _, _, accepted⟩ := bind_eq_ok.mp accepted
  obtain ⟨stack, _, _, accepted⟩ := bind_eq_ok.mp accepted
  obtain ⟨_, _, _, accepted⟩ := bind_eq_ok.mp accepted
  obtain ⟨_, _, checked, _⟩ := bind_eq_ok.mp accepted
  obtain ⟨_, _, unaltered, _⟩ := bind_eq_ok.mp checked
  by_contra different
  rw [failIf_pos different] at unaltered
  cases unaltered

theorem spends_iff (long : program.length = 32) (p2sh : .p2sh ∈ flags) (segwit : .witness ∈ flags)
    (scriptSig : Bytes) (witness : List Bytes) (s s' : σ) :
    verifyScript scriptSig (p2qpkScript program) witness flags checker s = .ok () s' ↔
      scriptSig = [] ∧ castToBool program = true ∧
        verifyP2QPK witness program flags checker s = .ok () s' := by
  constructor
  · intro accepted
    have empty := verifyScript_p2qpkScript_sig checker flags long segwit witness s s' accepted
    subst empty
    rw [verifyScript_p2qpkScript checker flags long p2sh segwit] at accepted
    cases truthy : castToBool program with
    | false =>
      rw [failIf_pos truthy] at accepted
      cases accepted
    | true =>
      rw [failIf_neg (by simp [truthy]), pure_bind] at accepted
      exact ⟨rfl, rfl, accepted⟩
  · rintro ⟨rfl, truthy, accepted⟩
    rw [verifyScript_p2qpkScript checker flags long p2sh segwit, failIf_neg (by simp [truthy]),
      pure_bind]
    exact accepted

theorem verifyP2QPK_inactive (inactive : .p2qpk ∉ flags) (witness : List Bytes) (program : Bytes) :
    verifyP2QPK witness program flags checker = pure () := by
  unfold verifyP2QPK
  rw [if_pos inactive]

theorem verifyP2QPK_active (active : .p2qpk ∈ flags) (witness : List Bytes) (program : Bytes)
    (s s' : σ) :
    verifyP2QPK witness program flags checker s = .ok () s' ↔
      ∃ sig pubkey, witness = [sig, pubkey] ∧ sig.length = slhDsaSigLen ∧
        pubkey.length = slhDsaPkLen ∧ (hash256 pubkey).bytes = program ∧
        checker.checkSLHDSASignature sig pubkey s = .ok (.ok ()) s' := by
  unfold verifyP2QPK
  rw [if_neg (not_not_intro active)]
  constructor
  · intro accepted
    split at accepted
    next sig pubkey =>
      obtain ⟨_, _, first, accepted⟩ := bind_eq_ok.mp accepted
      obtain ⟨pkLen, rfl⟩ := failIf_eq_ok.mp first
      obtain ⟨_, _, second, accepted⟩ := bind_eq_ok.mp accepted
      obtain ⟨sigLen, rfl⟩ := failIf_eq_ok.mp second
      obtain ⟨_, _, third, accepted⟩ := bind_eq_ok.mp accepted
      obtain ⟨commitment, rfl⟩ := failIf_eq_ok.mp third
      obtain ⟨checked, t, answer, accepted⟩ := bind_eq_ok.mp accepted
      cases checked with
      | error serror => cases accepted
      | ok _ =>
        cases accepted
        exact ⟨sig, pubkey, rfl, not_not.mp sigLen, not_not.mp pkLen, not_not.mp commitment, answer⟩
    · cases accepted
  · rintro ⟨sig, pubkey, rfl, sigLen, pkLen, commitment, answer⟩
    simp only
    rw [failIf_neg (not_not_intro pkLen), pure_bind, failIf_neg (not_not_intro sigLen), pure_bind,
      failIf_neg (not_not_intro commitment), pure_bind, bind_of_ok answer]
    rfl

end

section

variable {σ : Type} [Crypto]

structure Initialised (txChecker : GenericTransactionSignatureChecker σ)
    (data : PrecomputedTransactionData) : Prop where
  held : txChecker.txdata = some data
  taproot : data.bip341TaprootReady = true
  spentOutputs : data.spentOutputsReady = true
  inRange : txChecker.nIn.toNat < txChecker.txTo.vin.length

def SignedBy (txChecker : GenericTransactionSignatureChecker σ) (data : PrecomputedTransactionData)
    (sig pubkey : Bytes) : Prop :=
  ∃ sighash, signatureHashP2QPK txChecker.txTo txChecker.nIn data txChecker.mdb = .ok (some sighash) ∧
    verifySLHDSA sighash.bytes sig pubkey = true

theorem checkSLHDSASignature_iff {txChecker : GenericTransactionSignatureChecker σ}
    {data : PrecomputedTransactionData} (ready : Initialised txChecker data) (sig pubkey : Bytes)
    (s s' : σ) :
    txChecker.toBase.checkSLHDSASignature sig pubkey s = .ok (.ok ()) s' ↔
      SignedBy txChecker data sig pubkey ∧ s = s' := by
  have hashed : signatureHashP2QPK txChecker.txTo txChecker.nIn data txChecker.mdb =
      .ok (some (sha256 (p2qpkPreimage txChecker.txTo txChecker.nIn data))) := by
    unfold signatureHashP2QPK
    rw [if_neg (not_not_intro ready.inRange),
      if_neg (not_not_intro ⟨ready.taproot, ready.spentOutputs⟩)]
  have run : txChecker.toBase.checkSLHDSASignature sig pubkey s =
      .ok (if verifySLHDSA (sha256 (p2qpkPreimage txChecker.txTo txChecker.nIn data)).bytes sig
        pubkey then .ok () else .error (some .witnessProgramMismatch)) s := by
    simp only [GenericTransactionSignatureChecker.toBase,
      GenericTransactionSignatureChecker.checkSLHDSASignature, ready.held, hashed]
    rfl
  unfold SignedBy
  rw [run, hashed]
  constructor
  · intro answer
    split at answer
    next valid =>
      cases answer
      exact ⟨⟨_, rfl, valid⟩, rfl⟩
    · cases answer
  · rintro ⟨⟨sighash, same, valid⟩, rfl⟩
    cases same
    rw [if_pos valid]

def Spends (scriptSig program : Bytes) (witness : List Bytes) (flags : Flags)
    (checker : BaseSignatureChecker σ) (s : σ) : Prop :=
  ∃ s', verifyScript scriptSig (p2qpkScript program) witness flags checker s = .ok () s'

theorem p2qpk_spend_condition {txChecker : GenericTransactionSignatureChecker σ}
    {data : PrecomputedTransactionData} (ready : Initialised txChecker data) {program : Bytes}
    (long : program.length = 32) (scriptSig : Bytes) (witness : List Bytes) (s : σ) :
    (∀ flags, .p2sh ∈ flags → .witness ∈ flags → .p2qpk ∈ flags →
      (Spends scriptSig program witness flags txChecker.toBase s ↔
        scriptSig = [] ∧ castToBool program = true ∧
          ∃ sig pubkey, witness = [sig, pubkey] ∧ sig.length = 17088 ∧ pubkey.length = 32 ∧
            (hash256 pubkey).bytes = program ∧ SignedBy txChecker data sig pubkey)) ∧
    (∀ flags, .p2sh ∈ flags → .witness ∈ flags → .p2qpk ∉ flags →
      (Spends scriptSig program witness flags txChecker.toBase s ↔
        scriptSig = [] ∧ castToBool program = true)) ∧
    (∀ F G, .p2sh ∈ F → .witness ∈ F → .p2sh ∈ G → .witness ∈ G → (.p2qpk ∈ F ↔ .p2qpk ∈ G) →
      (Spends scriptSig program witness F txChecker.toBase s ↔
        Spends scriptSig program witness G txChecker.toBase s)) := by
  refine ⟨?_, ?_, ?_⟩
  · intro flags p2sh segwit p2qpk
    simp only [Spends, spends_iff txChecker.toBase flags long p2sh segwit,
      verifyP2QPK_active txChecker.toBase flags p2qpk, checkSLHDSASignature_iff ready]
    constructor
    · rintro ⟨s', empty, truthy, sig, pubkey, pair, sigLen, pkLen, commitment, signed, _⟩
      exact ⟨empty, truthy, sig, pubkey, pair, sigLen, pkLen, commitment, signed⟩
    · rintro ⟨empty, truthy, sig, pubkey, pair, sigLen, pkLen, commitment, signed⟩
      exact ⟨s, empty, truthy, sig, pubkey, pair, sigLen, pkLen, commitment, signed, rfl⟩
  · intro flags p2sh segwit p2qpk
    simp only [Spends, spends_iff txChecker.toBase flags long p2sh segwit,
      verifyP2QPK_inactive txChecker.toBase flags p2qpk]
    constructor
    · rintro ⟨s', empty, truthy, _⟩
      exact ⟨empty, truthy⟩
    · rintro ⟨empty, truthy⟩
      exact ⟨s, empty, truthy, rfl⟩
  · intro F G p2shF segwitF p2shG segwitG same
    simp only [Spends, spends_iff txChecker.toBase F long p2shF segwitF,
      spends_iff txChecker.toBase G long p2shG segwitG, verifyP2QPK, same]

end

def sampleChecker : GenericTransactionSignatureChecker Unit where
  txTo := ⟨2, [⟨⟨.null, 0⟩, [], 0, []⟩], [], 0⟩
  mdb := .assertFail
  nIn := 0
  amount := 0
  txdata := some { PrecomputedTransactionData.empty with
    bip341TaprootReady := true, spentOutputsReady := true }
  verifyECDSASignature _ _ _ := pure false
  verifySchnorrSignature _ _ _ := pure false

theorem p2qpk_spend_of_ones :
    let _ : Crypto := { Crypto.blank with
      sha256 := fun _ => ⟨replicate 32 1, rfl⟩
      verifySLHDSA := fun _ _ _ => true }
    Spends [] (replicate 32 1) [replicate 17088 0, replicate 32 0]
      { .p2sh, .witness, .p2qpk } sampleChecker.toBase () := by
  intro crypto
  have ready : Initialised sampleChecker _ := ⟨rfl, rfl, rfl, by decide⟩
  apply ((p2qpk_spend_condition ready length_replicate [] _ ()).1 _ (by decide) (by decide)
    (by decide)).mpr
  exact ⟨rfl, by decide, _, _, rfl, length_replicate, length_replicate, rfl, _, rfl, rfl⟩

end Qogecoin.Script
