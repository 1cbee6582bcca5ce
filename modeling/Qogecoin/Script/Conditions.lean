import Qogecoin.Script.Interpreter

/-! The conditions of nested `OP_IF`s. The code keeps two 32-bit words, the second at its largest
value while no condition is false; the interpreter's model keeps unbounded numbers. Both answer as a
vector of booleans does. -/
namespace Qogecoin.Script

open List

inductive ConditionOp where
  | pushBack (f : Bool)
  | popBack
  | toggleTop
deriving DecidableEq

/-- The vector has its last element first; an empty one has no top to pop or toggle. -/
def performVector : List Bool → ConditionOp → Option (List Bool)
  | v, .pushBack f => some (f :: v)
  | _ :: v, .popBack => some v
  | f :: v, .toggleTop => some ((!f) :: v)
  | [], _ => none

def noFalse : Nat := 2 ^ 32 - 1

/-- The two words of `ConditionStack`, both below `2 ^ 32`. -/
structure ConditionWords where
  stackSize : Nat := 0
  firstFalsePos : Nat := noFalse

namespace ConditionWords

variable (c : ConditionWords)

def empty : Bool := c.stackSize == 0

def allTrue : Bool := c.firstFalsePos == noFalse

def pushBack (f : Bool) : ConditionWords :=
  { stackSize := (c.stackSize + 1) % 2 ^ 32
    firstFalsePos :=
      if c.firstFalsePos = noFalse ∧ f = false then c.stackSize else c.firstFalsePos }

/-- A failed assertion is `none`. -/
def popBack : Option ConditionWords :=
  if c.stackSize > 0 then
    let stackSize := c.stackSize - 1
    some ⟨stackSize, if c.firstFalsePos = stackSize then noFalse else c.firstFalsePos⟩
  else none

def toggleTop : Option ConditionWords :=
  if c.stackSize > 0 then
    some
      { c with
        firstFalsePos :=
          if c.firstFalsePos = noFalse then c.stackSize - 1
          else if c.firstFalsePos = c.stackSize - 1 then noFalse
          else c.firstFalsePos }
  else none

def perform : ConditionOp → Option ConditionWords
  | .pushBack f => some (c.pushBack f)
  | .popBack => c.popBack
  | .toggleTop => c.toggleTop

end ConditionWords

/-- The interpreter only pops and toggles what is not empty. -/
def ConditionStack.perform (c : ConditionStack) : ConditionOp → ConditionStack
  | .pushBack f => c.pushBack f
  | .popBack => c.popBack
  | .toggleTop => c.toggleTop

/-- The position of the first false value, counted from the end of the list. -/
def firstFalse : List Bool → Option Nat
  | [] => none
  | f :: v =>
    match firstFalse v with
    | some p => some p
    | none => if f then none else some v.length

theorem firstFalse_lt {v : List Bool} {p : Nat} (found : firstFalse v = some p) : p < v.length := by
  induction v with
  | nil => cases found
  | cons f v ih => grind [firstFalse]

theorem isNone_firstFalse (v : List Bool) : (firstFalse v).isNone = v.all id := by
  induction v with
  | nil => rfl
  | cons f v ih => grind [firstFalse]

def ConditionWords.of (v : List Bool) : ConditionWords := ⟨v.length, (firstFalse v).getD noFalse⟩

def ConditionStack.of (v : List Bool) : ConditionStack := ⟨v.length, firstFalse v⟩

section

variable {v v' : List Bool} {op : ConditionOp} (performed : performVector v op = some v')
include performed

theorem ConditionStack.perform_of : (of v).perform op = of v' := by
  have off : ∀ v, firstFalse v ≠ some v.length := fun v found => (firstFalse_lt found).false
  cases op <;> cases v <;> cases performed <;>
    grind [of, perform, pushBack, popBack, toggleTop, firstFalse]

theorem ConditionWords.perform_of (few : v.length < noFalse) :
    (of v).perform op = some (of v') := by
  have below : ∀ p, firstFalse v = some p → p < v.length := fun p => firstFalse_lt
  have off : ∀ v, firstFalse v ≠ some v.length := fun v found => (firstFalse_lt found).false
  cases op <;> cases v <;> cases performed <;>
    grind [of, perform, pushBack, popBack, toggleTop, firstFalse, noFalse]

end

theorem run_of {ops : List ConditionOp} {v : List Bool}
    (ran : ops.foldlM performVector [] = some v)
    (few : ∀ past ∈ ops.inits, ∀ u ∈ past.foldlM performVector [], u.length < noFalse) :
    ops.foldlM ConditionWords.perform {} = some (.of v) ∧
      ops.foldl ConditionStack.perform .initial = .of v := by
  induction ops using reverseRecOn generalizing v with
  | nil =>
    cases ran
    exact ⟨rfl, rfl⟩
  | append_singleton ops op ih =>
    rw [foldlM_append] at ran
    obtain ⟨u, before, performed⟩ := Option.bind_eq_some_iff.mp ran
    simp only [foldlM_cons, foldlM_nil, bind_pure] at performed
    obtain ⟨words, stack⟩ := ih before fun past member =>
      few past (by simp at member ⊢; exact .inl member)
    rw [foldlM_append, words, foldl_append, stack]
    have performed' := ConditionWords.perform_of performed (few ops (by simp) u before)
    exact ⟨by simp [performed'], ConditionStack.perform_of performed⟩

/-- A run on the words fails no assertion, and they answer as the vector and as the interpreter's
stack do. -/
theorem condition_stack_refines_vector (ops : List ConditionOp) (v : List Bool)
    (ran : ops.foldlM performVector [] = some v)
    (few : ∀ past ∈ ops.inits, ∀ u ∈ past.foldlM performVector [], u.length < 2 ^ 32 - 1) :
    (∃ c, ops.foldlM ConditionWords.perform {} = some c ∧ c.empty = v.isEmpty ∧
      c.allTrue = v.all id) ∧ (ops.foldl ConditionStack.perform .initial).empty = v.isEmpty ∧
      (ops.foldl ConditionStack.perform .initial).allTrue = v.all id := by
  obtain ⟨words, stack⟩ := run_of ran few
  have small := few ops (by simp) v ran
  rw [stack, ← isNone_firstFalse]
  refine ⟨⟨.of v, words, ?_, ?_⟩, ?_, rfl⟩
  · cases v <;> rfl
  · rw [ConditionWords.allTrue, ConditionWords.of]
    cases found : firstFalse v with
    | none => rfl
    | some p =>
      have below := firstFalse_lt found
      simp [noFalse]
      omega
  · cases v <;> rfl

theorem toggled_condition_refines :
    ∃ c, [ConditionOp.pushBack false, .toggleTop].foldlM ConditionWords.perform {} = some c ∧
      c.empty = false ∧ c.allTrue = true :=
  (condition_stack_refines_vector [.pushBack false, .toggleTop] [true] rfl (by decide)).1

end Qogecoin.Script
