import Mathlib.Order.Defs.Unbundled

/-! Contracts of programs with errors and a state. All programs of a development keep one invariant
and change the state along one relation, also when they stop with an error; each contract says what
it needs besides, and what it gives. -/
universe u

namespace EStateM

/-- What every program keeps, and how states follow one another. -/
structure Discipline (σ : Type u) where
  invariant : σ → Prop
  follows : σ → σ → Prop
  refl : ∀ s, follows s s
  trans : ∀ {r s t}, follows r s → follows s t → follows r t

variable {ε σ α β : Type u} (D : Discipline σ)

/-- From a state with `pre` the program returns with `post`, or stops with `stop`. -/
def Contract (pre : σ → Prop) (x : EStateM ε σ α) (post : α → σ → Prop) (stop : ε → Prop) : Prop :=
  ∀ s, D.invariant s → pre s →
    (∀ a s', x s = .ok a s' → D.invariant s' ∧ D.follows s s' ∧ post a s') ∧
      ∀ e s', x s = .error e s' → D.invariant s' ∧ D.follows s s' ∧ stop e

/-- How a run from `s` can end. -/
def Ends (s : σ) (post : α → σ → Prop) (stop : ε → Prop) : Result ε σ α → Prop
  | .ok a t => D.invariant t ∧ D.follows s t ∧ post a t
  | .error e t => D.invariant t ∧ D.follows s t ∧ stop e

variable {D} {pre : σ → Prop} {x : EStateM ε σ α} {post : α → σ → Prop} {stop : ε → Prop}

theorem contract_iff :
    Contract D pre x post stop ↔ ∀ s, D.invariant s → pre s → Ends D s post stop (x s) := by
  refine forall_congr' fun s => forall_congr' fun _ => forall_congr' fun _ => ?_
  cases x s <;> simp [Ends]

namespace Contract

protected theorem pure {a : α} (here : ∀ s, D.invariant s → pre s → post a s) :
    Contract D pre (Pure.pure a : EStateM ε σ α) post stop :=
  contract_iff.mpr fun s holds before => ⟨holds, D.refl s, here s holds before⟩

protected theorem throw {e : ε} (here : stop e) :
    Contract D pre (EStateM.throw e : EStateM ε σ α) post stop :=
  contract_iff.mpr fun s holds _ => ⟨holds, D.refl s, here⟩

protected theorem bind {mid : α → σ → Prop} {f : α → EStateM ε σ β} {last : β → σ → Prop}
    (head : Contract D pre x mid stop) (rest : ∀ a, Contract D (mid a) (f a) last stop) :
    Contract D pre (x >>= f) last stop := by
  rw [contract_iff] at head ⊢
  intro s holds before
  have first := head s holds before
  simp only [Bind.bind, EStateM.bind]
  generalize x s = result at first ⊢
  cases result with
  | ok a t =>
    obtain ⟨kept, moved, given⟩ := first
    have second := contract_iff.mp (rest a) t kept given
    dsimp only
    generalize f a t = result at second ⊢
    cases result with
    | ok | error => exact ⟨second.1, D.trans moved second.2.1, second.2.2⟩
  | error e t => exact first

theorem before {pre' : σ → Prop} (contract : Contract D pre x post stop)
    (given : ∀ s, D.invariant s → pre' s → pre s) : Contract D pre' x post stop :=
  fun s holds here => contract s holds (given s holds here)

theorem after {post' : α → σ → Prop} (contract : Contract D pre x post stop)
    (result : ∀ a s, D.invariant s → post a s → post' a s) : Contract D pre x post' stop := by
  intro s holds given
  obtain ⟨returns, stops⟩ := contract s holds given
  refine ⟨fun a s' run => ?_, stops⟩
  obtain ⟨kept, moved, here⟩ := returns a s' run
  exact ⟨kept, moved, result a s' kept here⟩

theorem stopping {stop' : ε → Prop} (contract : Contract D pre x post stop)
    (stopped : ∀ e, stop e → stop' e) : Contract D pre x post stop' := by
  intro s holds given
  obtain ⟨returns, stops⟩ := contract s holds given
  refine ⟨returns, fun e s' run => ?_⟩
  obtain ⟨kept, moved, here⟩ := stops e s' run
  exact ⟨kept, moved, stopped e here⟩

/-- What no step of the relation takes away can be added on both sides. -/
theorem frame {fact : σ → Prop} (stays : ∀ s t, D.follows s t → fact s → fact t)
    (contract : Contract D pre x post stop) :
    Contract D (fun s => pre s ∧ fact s) x (fun a s => post a s ∧ fact s) stop := by
  intro s holds given
  obtain ⟨returns, stops⟩ := contract s holds given.1
  constructor
  · intro a s' run
    obtain ⟨kept, moved, result⟩ := returns a s' run
    exact ⟨kept, moved, result, stays s s' moved given.2⟩
  · exact stops

protected theorem ite {c : Prop} [Decidable c] {y : EStateM ε σ α}
    (yes : c → Contract D pre x post stop) (no : ¬c → Contract D pre y post stop) :
    Contract D pre (if c then x else y) post stop := by
  by_cases holds : c
  · rw [if_pos holds]
    exact yes holds
  · rw [if_neg holds]
    exact no holds

theorem assume {p : Prop} (contract : p → Contract D pre x post stop) :
    Contract D (fun s => p ∧ pre s) x post stop :=
  fun s holds given => contract given.1 s holds given.2

protected theorem get :
    Contract D pre (MonadStateOf.get : EStateM ε σ σ)
      (fun t s => D.invariant t ∧ s = t ∧ pre s) stop :=
  contract_iff.mpr fun s holds before => ⟨holds, D.refl s, holds, rfl, before⟩

protected theorem modifyGet {f : σ → α × σ}
    (step : ∀ s, D.invariant s → pre s →
      D.invariant (f s).2 ∧ D.follows s (f s).2 ∧ post (f s).1 (f s).2) :
    Contract D pre (MonadStateOf.modifyGet f : EStateM ε σ α) post stop :=
  contract_iff.mpr step

end Contract

end EStateM
