import Qogecoin.Consensus.VersionBits
import Qogecoin.Script.SoftFork
import Qogecoin.Validation.MemPoolAccept

/-! The flags of policy and those of the tip. -/
namespace Qogecoin.Validation

open Codec Commands Coins Consensus Script Finset

def shippedExceptions : List (List (Uint256 × Flags)) :=
  [mainParams.scriptFlagExceptions, testNetParams.scriptFlagExceptions,
    (sigNetParams .null).scriptFlagExceptions, regTestParams.scriptFlagExceptions]

def StaysActive (params : Params) (tip : Chain) : Prop :=
  params.activeAt tip .p2qpk = true → params.activeAfter tip .p2qpk = true

variable {params : Params}

theorem staysActive_of_timely (positive : 0 < params.nMinerConfirmationWindow) {tip : Chain}
    (timely : tip.Timely) : StaysActive params tip := by
  let checker := versionBitsConditionChecker params (params.vDeployments .p2qpk) positive
  intro before
  cases tip with
  | nil => exact before
  | cons index pprev =>
    have state := beq_iff_eq.mp before
    have ancestors : ThresholdConditionChecker.upTo (index :: pprev) pprev.length = pprev := by
      simp [ThresholdConditionChecker.upTo]
    have active : checker.bip9State
        (ThresholdConditionChecker.upTo (index :: pprev) pprev.length) = .active := by
      rw [ancestors]
      exact (getStateFor_eq_bip9State _ positive timely.2).symm.trans state
    have after := checker.bip9State_terminal (Nat.le_succ pprev.length) (.inl active)
    apply beq_iff_eq.mpr
    exact (getStateFor_eq_bip9State _ positive timely).trans (after.trans active)

section

variable (shipped : params.scriptFlagExceptions ∈ shippedExceptions)
include shipped

theorem exceptions_loosen (hash : Uint256) :
    (params.scriptFlagExceptions.lookup hash).getD { .p2sh, .witness, .taproot } =
        { .p2sh, .witness, .taproot } ∨
      (params.scriptFlagExceptions.lookup hash).getD { .p2sh, .witness, .taproot } = ∅ := by
  have single : ∀ key : Uint256,
      (List.lookup hash [(key, (∅ : Flags))]).getD { .p2sh, .witness, .taproot } =
          { .p2sh, .witness, .taproot } ∨
        (List.lookup hash [(key, (∅ : Flags))]).getD { .p2sh, .witness, .taproot } = ∅ := by
    intro key
    by_cases same : hash = key
    · right
      simp [same]
    · left
      have other : (hash == key) = false := by simpa using same
      simp [List.lookup_cons, other]
  simp only [shippedExceptions, List.mem_cons, List.not_mem_nil, or_false] at shipped
  rcases shipped with main | test | sig | reg
  · rw [main]
    exact single _
  · rw [test]
    exact single _
  · rw [sig]
    exact .inl rfl
  · rw [reg]
    exact .inl rfl

theorem blockFlags_subset {tip : Chain} (stays : StaysActive params tip) :
    getBlockScriptFlags params tip.getBlockHash tip ⊆ policyFlags params tip := by
  have standard : ∀ (active : Bool) (flag : Flag), flag ∈ standardScriptVerifyFlags →
      flagIf active flag ⊆ policyFlags params tip := by
    intro active flag member
    cases active with
    | false => exact empty_subset _
    | true => exact singleton_subset_iff.mpr (mem_union_left _ member)
  have quantum : flagIf (params.activeAt tip .p2qpk) .p2qpk ⊆ policyFlags params tip := by
    cases active : params.activeAt tip .p2qpk with
    | false => exact empty_subset _
    | true =>
      unfold policyFlags
      rw [stays active]
      exact subset_union_right
  have always : (params.scriptFlagExceptions.lookup tip.getBlockHash).getD
      { .p2sh, .witness, .taproot } ⊆ policyFlags params tip := by
    rcases exceptions_loosen shipped tip.getBlockHash with usual | none
    · rw [usual]
      exact Subset.trans (by decide) subset_union_left
    · rw [none]
      exact empty_subset _
  simp only [getBlockScriptFlags, union_subset_iff]
  exact ⟨⟨⟨⟨⟨always, standard _ _ (by decide)⟩, standard _ _ (by decide)⟩, standard _ _ (by decide)⟩,
    standard _ _ (by decide)⟩, quantum⟩

theorem blockFlags_coherent (tip : Chain) :
    Coherent (getBlockScriptFlags params tip.getBlockHash tip) := by
  have others : ∀ (active : Bool) (flag other : Flag), flag ≠ other → flag ∉ flagIf active other := by
    intro active flag other differ
    cases active <;> simp [flagIf, differ]
  have flags : ∀ flag, flag ≠ .derSig → flag ≠ .checkLockTimeVerify → flag ≠ .checkSequenceVerify →
      flag ≠ .nullDummy → flag ≠ .p2qpk →
      (flag ∈ getBlockScriptFlags params tip.getBlockHash tip ↔
        flag ∈ (params.scriptFlagExceptions.lookup tip.getBlockHash).getD
          { .p2sh, .witness, .taproot }) := by
    intro flag derSig cltv csv nullDummy p2qpk
    simp only [getBlockScriptFlags, mem_union, others _ _ _ derSig, others _ _ _ cltv,
      others _ _ _ csv, others _ _ _ nullDummy, others _ _ _ p2qpk, or_false]
  constructor
  · rw [flags .witness (by decide) (by decide) (by decide) (by decide) (by decide),
      flags .p2sh (by decide) (by decide) (by decide) (by decide) (by decide)]
    rcases exceptions_loosen shipped tip.getBlockHash with usual | none
    · simp [usual]
    · simp [none]
  · rw [flags .cleanStack (by decide) (by decide) (by decide) (by decide) (by decide)]
    rcases exceptions_loosen shipped tip.getBlockHash with usual | none
    · simp [usual]
    · simp [none]

end

section

variable [Crypto]

theorem runCheck_returned_iff (check : CScriptCheck Unit) :
    runCheck check = .returned () ↔ check.run .assertFail () = .ok () () := by
  unfold runCheck
  cases check.run .assertFail () with
  | ok a s => exact ⟨fun _ => rfl, fun _ => rfl⟩
  | error stop s =>
    constructor
    · intro returned
      cases stop <;> cases returned
    · intro returned
      cases returned

theorem ScriptsPass.mono {utxo : COutPoint → CTxOut} {tx : CTransaction} {F G : Flags}
    (pass : ScriptsPass utxo tx G) (sub : F ⊆ G) (coherent : Coherent F) :
    ScriptsPass utxo tx F := by
  obtain ⟨txdata, init, all⟩ := pass
  refine ⟨txdata, init, ?_⟩
  intro check member
  obtain ⟨i, inside, rfl⟩ := List.mem_mapIdx.mp member
  have strict := all _ (List.mem_mapIdx.mpr ⟨i, inside, rfl⟩)
  rw [runCheck_returned_iff] at strict ⊢
  unfold CScriptCheck.run at strict ⊢
  dsimp only [scriptCheck] at strict ⊢
  cases input : tx.vin[(UInt32.ofNat i).toNat]? with
  | none =>
    rw [input] at strict
    cases strict
  | some txin =>
    rw [input] at strict
    exact verifyScript_tightens _ sub coherent _ _ _ () () () strict

end

end Qogecoin.Validation
