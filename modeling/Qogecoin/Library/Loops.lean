import Mathlib.Data.List.Forall2

/-! Loops over lists that may fail, and sequences of queries to a component that keeps a state, such
as a cache, from one query to the next. -/
namespace Loops

variable {α σ ε : Type}

theorem ok_bind {β : Type} (a : α) (f : α → Except ε β) : (Except.ok a >>= f) = f a := rfl

/-- A loop does not fail and keeps an invariant about the state and the elements still to come. -/
theorem foldlM_ok {body : σ → α → Except ε σ} (inv : List α → σ → Prop)
    (step : ∀ a rest state, inv (a :: rest) state →
      ∃ state', body state a = .ok state' ∧ inv rest state')
    {l : List α} {state : σ} (start : inv l state) :
    ∃ state', l.foldlM body state = .ok state' ∧ inv [] state' := by
  induction l generalizing state with
  | nil => exact ⟨state, rfl, start⟩
  | cons a rest ih =>
    obtain ⟨next, ran, kept⟩ := step a rest state start
    obtain ⟨final, rest_ran, holds⟩ := ih kept
    refine ⟨final, ?_, holds⟩
    rw [List.foldlM_cons, ran]
    exact rest_ran

end Loops

namespace Queries

variable {Q A C : Type}

def answers (ask : C → Q → A × C) : C → List Q → List A
  | _, [] => []
  | c, q :: rest => (ask c q).1 :: answers ask (ask c q).2 rest

def leaves (ask : C → Q → A × C) (c : C) (queries : List Q) : C :=
  queries.foldl (fun c q => (ask c q).2) c

theorem answers_right {ask : C → Q → A × C} {invariant : C → Prop} {valid : Q → Prop}
    {right : Q → A → Prop}
    (step : ∀ c q, invariant c → valid q → invariant (ask c q).2 ∧ right q (ask c q).1)
    (queries : List Q) {c : C} (start : invariant c) (all : ∀ q ∈ queries, valid q) :
    List.Forall₂ right queries (answers ask c queries) := by
  induction queries generalizing c with
  | nil => exact .nil
  | cons q rest ih =>
    obtain ⟨still, here⟩ := step c q start (all q List.mem_cons_self)
    exact .cons here (ih still fun q' member => all q' (List.mem_cons_of_mem q member))

theorem leaves_keeps {ask : C → Q → A × C} {invariant : C → Prop} {valid : Q → Prop}
    (step : ∀ c q, invariant c → valid q → invariant (ask c q).2) (queries : List Q) {c : C}
    (start : invariant c) (all : ∀ q ∈ queries, valid q) : invariant (leaves ask c queries) := by
  induction queries generalizing c with
  | nil => exact start
  | cons q rest ih =>
    exact ih (step c q start (all q List.mem_cons_self))
      fun q' member => all q' (List.mem_cons_of_mem q member)

end Queries
