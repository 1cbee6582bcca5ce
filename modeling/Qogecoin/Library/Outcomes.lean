import Mathlib.Order.Basic

/-! Programs with errors and a state. `Raises` bounds the errors a program can stop with.
`Simulates` compares programs over two kinds of states step by step: whatever one of them does from
a state, the other does from a related one. `Tightens x y` says that `y` returns whatever `x`
returns. A rule that is only ever an additional reason to stop makes a program tighter, and so do
its steps taken one by one. -/
universe u

variable {ε σ τ α β : Type u}

def Raises (allowed : ε → Prop) (x : EStateM ε σ α) : Prop :=
  ∀ s e s', x s = .error e s' → allowed e

namespace Raises

variable {allowed : ε → Prop} {x y : EStateM ε σ α}

@[grind ←] theorem pure (a : α) : Raises allowed (pure a : EStateM ε σ α) := by
  intro s e s' stopped
  cases stopped

theorem throw {e : ε} (fine : allowed e) : Raises allowed (throw e : EStateM ε σ α) := by
  intro s e' s' stopped
  cases stopped
  exact fine

variable {f : α → EStateM ε σ β}

/-- A program stops in its first step, or in the rest after a first step that returned. -/
theorem bind_eq_error {s s' : σ} {e : ε} :
    (x >>= f) s = .error e s' ↔
      x s = .error e s' ∨ ∃ a t, x s = .ok a t ∧ f a t = .error e s' := by
  simp only [Bind.bind, EStateM.bind]
  cases x s with
  | ok a t =>
    constructor
    · exact fun later => Or.inr ⟨a, t, rfl, later⟩
    · rintro (stopped | ⟨a, t, same, later⟩)
      · cases stopped
      · cases same
        exact later
  | error e t => simp

theorem bind_of_ok (head : Raises allowed x)
    (rest : ∀ s a t, x s = .ok a t → Raises allowed (f a)) : Raises allowed (x >>= f) := by
  intro s e s' stopped
  rcases bind_eq_error.mp stopped with first | ⟨a, t, returned, later⟩
  · exact head s e s' first
  · exact rest s a t returned t e s' later

@[grind ←] theorem bind (head : Raises allowed x) (rest : ∀ a, Raises allowed (f a)) :
    Raises allowed (x >>= f) :=
  head.bind_of_ok fun _ a _ _ => rest a

end Raises

/-- How the states of two programs go together, while they run and when both have stopped with an
error. -/
structure Correspondence (σ τ : Type u) where
  related : σ → τ → Prop
  stopped : σ → τ → Prop
  stop : ∀ s t, related s t → stopped s t

inductive Correspondence.Same (R : Correspondence σ τ) :
    EStateM.Result ε σ α → EStateM.Result ε τ α → Prop where
  | ok (a : α) (s : σ) (t : τ) (related : R.related s t) : Same R (.ok a s) (.ok a t)
  | error (e : ε) (s : σ) (t : τ) (stopped : R.stopped s t) : Same R (.error e s) (.error e t)

def Simulates (R : Correspondence σ τ) (x : EStateM ε σ α) (y : EStateM ε τ α) : Prop :=
  ∀ s t, R.related s t → R.Same (x s) (y t)

namespace Simulates

variable {R : Correspondence σ τ} {x x' : EStateM ε σ α} {y y' : EStateM ε τ α}

@[grind ←] theorem pure (a : α) : Simulates R (pure a : EStateM ε σ α) (pure a) :=
  fun s t related => .ok a s t related

@[grind ←] theorem throw (e : ε) : Simulates R (throw e : EStateM ε σ α) (throw e) :=
  fun s t related => .error e s t (R.stop s t related)

@[grind ←] theorem bind {f : α → EStateM ε σ β} {g : α → EStateM ε τ β} (head : Simulates R x y)
    (rest : ∀ a, Simulates R (f a) (g a)) : Simulates R (x >>= f) (y >>= g) := by
  intro s t related
  have first := head s t related
  simp only [Bind.bind, EStateM.bind]
  generalize x s = left at first ⊢
  generalize y t = right at first ⊢
  cases first with
  | ok a s' t' still => exact rest a s' t' still
  | error e s' t' stopped => exact .error e s' t' stopped

theorem ite {c : Prop} [Decidable c] (yes : c → Simulates R x y) (no : ¬c → Simulates R x' y') :
    Simulates R (if c then x else x') (if c then y else y') := by
  by_cases h : c
  · rw [if_pos h, if_pos h]
    exact yes h
  · rw [if_neg h, if_neg h]
    exact no h

end Simulates

def Tightens (x y : EStateM ε σ α) : Prop :=
  ∀ s a s', x s = .ok a s' → y s = .ok a s'

namespace EStateM

variable {x : EStateM ε σ α} {f : α → EStateM ε σ β}

theorem bind_eq_ok {s s' : σ} {b : β} :
    (x >>= f) s = .ok b s' ↔ ∃ a t, x s = .ok a t ∧ f a t = .ok b s' := by
  constructor
  · intro run
    cases first : x s with
    | ok a t =>
      refine ⟨a, t, rfl, ?_⟩
      simpa only [bind, EStateM.bind, first] using run
    | error e t =>
      simp only [bind, EStateM.bind, first] at run
      cases run
  · rintro ⟨a, t, first, second⟩
    simp only [bind, EStateM.bind, first, second]

theorem bind_of_ok {s t : σ} {a : α} (first : x s = .ok a t) : (x >>= f) s = f a t := by
  simp only [bind, EStateM.bind, first]

theorem bind_of_error {s t : σ} {e : ε} (first : x s = .error e t) : (x >>= f) s = .error e t := by
  simp only [bind, EStateM.bind, first]

end EStateM

namespace Tightens

variable {x y z : EStateM ε σ α}

theorem refl (x : EStateM ε σ α) : Tightens x x := fun _ _ _ run => run

theorem bind {f g : α → EStateM ε σ β} (head : Tightens x y) (rest : ∀ a, Tightens (f a) (g a)) :
    Tightens (x >>= f) (y >>= g) := by
  intro s b s' run
  obtain ⟨a, t, first, second⟩ := EStateM.bind_eq_ok.mp run
  exact EStateM.bind_eq_ok.mpr ⟨a, t, head s a t first, rest a t b s' second⟩

theorem step {f g : α → EStateM ε σ β} (rest : ∀ a, Tightens (f a) (g a)) :
    Tightens (x >>= f) (x >>= g) := (refl x).bind rest

theorem extra [Subsingleton σ] {f : α → EStateM ε σ β} {z : EStateM ε σ β}
    (rest : ∀ a, Tightens (f a) z) : Tightens (x >>= f) z := by
  intro s b s' run
  obtain ⟨a, t, _, second⟩ := EStateM.bind_eq_ok.mp run
  rw [Subsingleton.elim s t]
  exact rest a t b s' second

theorem done [Subsingleton σ] (x : EStateM ε σ PUnit) : Tightens x (pure ⟨⟩) := by
  intro s a s' _
  rw [Subsingleton.elim s' s]
  rfl

theorem throw (e : ε) (y : EStateM ε σ α) : Tightens (throw e) y := by
  intro s a s' run
  cases run

end Tightens
