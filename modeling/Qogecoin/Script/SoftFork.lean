import Qogecoin.Library.Outcomes
import Qogecoin.Script.Comparison

/-! Every flag is a soft fork: with more flags set, the interpreter stops for more reasons and
otherwise does the same. `VerifyScript` is compared with itself under fewer flags. -/
namespace Qogecoin.Script

open Codec

section

variable {σ : Type} {F G : Flags}

theorem assertThat_tightens {c d : Prop} [Decidable c] [Decidable d] {a b : Assertion}
    (weaker : c → d) : Tightens (assertThat (σ := σ) c a) (assertThat d b) := by
  unfold assertThat
  by_cases holds : c
  · rw [if_pos holds, if_pos (weaker holds)]
    exact .refl _
  · rw [if_neg holds]
    exact .throw _ _

theorem catchAll_tightens {α : Type} {x y : Eval σ α} (body : Tightens x y) :
    Tightens (catchAll x) (catchAll y) := by
  intro s a s' run
  cases ran : x s with
  | ok b t =>
    simp only [catchAll, ran] at run
    cases run
    simp only [catchAll, body s a s' ran]
  | error e t =>
    simp only [catchAll, ran] at run
    cases e <;> cases run

def tightening (σ : Type) : Comparison σ σ where
  rel := Tightens
  stop _ := .refl _
  catchAll := catchAll_tightens
  bind := .bind
  pure _ := .refl _

variable (checker : BaseSignatureChecker σ)

theorem tightening_calls (sigversion : SigVersion) :
    (tightening σ).Calls checker checker sigversion where
  ecdsa _ _ _ := .refl _
  schnorr _ _ _ _ := .refl _
  lockTime _ := .refl _
  sequence _ := .refl _

theorem tightening_bareCalls : (tightening σ).BareCalls checker checker where
  schnorr _ _ _ := .refl _
  slhDSA _ _ := .refl _

variable [Subsingleton σ]

theorem onlyIf_tightens {c d : Prop} [Decidable c] [Decidable d] {x y : Eval σ Unit}
    (weaker : d → c) (body : d → Tightens x y) : Tightens (onlyIf c x) (onlyIf d y) := by
  unfold onlyIf
  by_cases lenient : d
  · rw [if_pos (weaker lenient), if_pos lenient]
    exact body lenient
  · rw [if_neg lenient]
    exact .done _

structure Coherent (flags : Flags) : Prop where
  witness : .witness ∈ flags → .p2sh ∈ flags
  cleanStack : .cleanStack ∈ flags → .p2sh ∈ flags ∧ .witness ∈ flags

theorem verifyEnd_tightens (sub : F ⊆ G) (coherent : Coherent F) (witness : List Bytes)
    (hadWitness : Bool) (stack : List Bytes) :
    Tightens (verifyEnd (σ := σ) witness G hadWitness stack)
      (verifyEnd witness F hadWitness stack) := by
  apply (onlyIf_tightens (fun inF => sub inF) _).bind
  · intro _
    apply onlyIf_tightens fun inF => sub inF
    intro inF
    apply (assertThat_tightens fun _ => coherent.witness inF).bind
    intro _
    exact .refl _
  · intro inF
    apply (assertThat_tightens fun _ => (coherent.cleanStack inF).1).bind
    intro _
    apply (assertThat_tightens fun _ => (coherent.cleanStack inF).2).bind
    intro _
    exact .refl _

theorem tightening_relaxes (sub : F ⊆ G) : (tightening σ).Relaxes G F :=
  .inr ⟨sub, fun stop y => .throw stop y, fun x => .done x⟩

variable [Crypto]

theorem evalScript_tightens (sub : F ⊆ G) (stack : List Bytes) (script : Bytes)
    (sigversion : SigVersion) (execdata : ScriptExecutionData) :
    Tightens (evalScript stack script G checker sigversion execdata)
      (evalScript stack script F checker sigversion execdata) :=
  (tightening_relaxes sub).evalScript (tightening_calls checker sigversion) stack script execdata

/-- Without the witness flag, all that is left of the redeem script's verification is its
evaluation. -/
theorem verifyP2SH_withoutWitness (sub : F ⊆ G) (notInF : .witness ∉ F)
    (scriptSig scriptPubKey : Bytes) (witness stackCopy : List Bytes) (hadG hadF : Bool)
    (stackG stackF : List Bytes) (last : Bool × List Bytes → Eval σ Unit) :
    Tightens
      (verifyP2SH scriptSig scriptPubKey witness G checker stackCopy hadG stackG >>= last)
      (verifyP2SH scriptSig scriptPubKey witness F checker stackCopy hadF stackF >>=
        fun _ => pure ()) := by
  unfold verifyP2SH
  by_cases active : .p2sh ∈ F ∧ isPayToScriptHash scriptPubKey
  · rw [if_pos ⟨sub active.1, active.2⟩, if_pos active]
    simp only [bind_assoc]
    apply Tightens.step
    intro _
    cases stackCopy with
    | nil => exact .throw _ _
    | cons pubKey2 below =>
      simp only [bind_assoc, verifyWitness, if_neg notInF, pure_bind]
      apply (evalScript_tightens checker sub below pubKey2 .base .initial).bind
      intro stack
      apply Tightens.step
      intro _
      exact .done _
  · rw [if_neg active, pure_bind]
    exact .done _

theorem verifyScript_tightens (sub : F ⊆ G) (coherent : Coherent F) (scriptSig scriptPubKey : Bytes)
    (witness : List Bytes) :
    Tightens (verifyScript scriptSig scriptPubKey witness G checker)
      (verifyScript scriptSig scriptPubKey witness F checker) := by
  have relaxes := tightening_relaxes (σ := σ) sub
  by_cases inF : .witness ∈ F
  · have p2sh := coherent.witness inF
    exact relaxes.verifyScript (tightening_calls checker) (tightening_bareCalls checker)
      (iff_of_true (sub inF) inF) (iff_of_true (sub p2sh) p2sh) scriptSig scriptPubKey witness
      fun hadWitness stack => verifyEnd_tightens sub coherent witness hadWitness stack
  have noCleanStack : .cleanStack ∉ F := fun clean => inF (coherent.cleanStack clean).2
  have noEnd : ∀ hadWitness stack, verifyEnd (σ := σ) witness F hadWitness stack = pure () := by
    intro hadWitness stack
    simp only [verifyEnd, onlyIf, if_neg inF, if_neg noCleanStack, pure_bind]
  apply (relaxes.failIf_flag (by decide)).bind
  intro _
  apply (evalScript_tightens checker sub [] scriptSig .base .initial).bind
  intro stackCopy
  apply (evalScript_tightens checker sub stackCopy scriptPubKey .base .initial).bind
  intro stack
  apply Tightens.step
  intro _
  apply Tightens.extra
  rintro ⟨hadWitness, stackG⟩
  simp only [verifyWitness, if_neg inF, pure_bind, noEnd]
  exact verifyP2SH_withoutWitness checker sub inF _ _ _ _ _ _ _ _ _

/-- A checker without a state of its own answers by its arguments alone. -/
def Accepts (scriptSig scriptPubKey : Bytes) (witness : List Bytes) (flags : Flags)
    (checker : BaseSignatureChecker Unit) : Prop :=
  verifyScript scriptSig scriptPubKey witness flags checker () = .ok () ()

end

theorem accepted_under_fewer_flags [Crypto] (checker : BaseSignatureChecker Unit)
    (scriptSig scriptPubKey : Bytes) (witness : List Bytes) :
    (∀ F G, F ⊆ G → Coherent F → Coherent G →
      Accepts scriptSig scriptPubKey witness G checker →
      Accepts scriptSig scriptPubKey witness F checker) ∧
    (∀ F, Coherent F →
      Accepts scriptSig scriptPubKey witness (insert .p2qpk F) checker →
      Accepts scriptSig scriptPubKey witness F checker) := by
  constructor
  · intro F G sub coherentF _ accepted
    exact verifyScript_tightens checker sub coherentF scriptSig scriptPubKey witness () () ()
      accepted
  · intro F coherentF accepted
    exact verifyScript_tightens checker (Finset.subset_insert _ _) coherentF scriptSig scriptPubKey
      witness () () () accepted

theorem push_accepted_under_fewer_flags :
    let _ := Crypto.blank
    Accepts [] [1, 1] [] { .p2sh, .witness, .p2qpk } .rejecting ∧
      Accepts [] [1, 1] [] { .p2sh } .rejecting := by
  intro
  have reading : readOps [1, 1] = .op ⟨1, [1], []⟩ .done := by
    have read : getScriptOp [1, 1] = .ok ⟨1, [1], []⟩ := rfl
    rw [readOps_op read, readOps_nil]
  have strict : Accepts [] [1, 1] [] { .p2sh, .witness, .p2qpk } .rejecting := by
    unfold Accepts verifyScript evalScript
    rw [reading, readOps_nil]
    rfl
  have coherentF : Coherent { .p2sh } := ⟨by decide, by decide⟩
  have coherentG : Coherent { .p2sh, .witness, .p2qpk } := ⟨by decide, by decide⟩
  exact ⟨strict, (accepted_under_fewer_flags .rejecting [] [1, 1] []).1 _ _ (by decide) coherentF
    coherentG strict⟩

end Qogecoin.Script
