import Mathlib.Data.List.Sort
import Mathlib.Data.List.Perm.Subperm

/-! Walking a graph with a set of nodes to do, taken from its least element, and a set of nodes
done. -/
namespace Worklist

open List

variable {α : Type} [LinearOrder α]

def insert (a : α) (todo : List α) : List α :=
  if a ∈ todo then todo else todo.orderedInsert (· ≤ ·) a

def extend (done : List α) (todo found : List α) : List α :=
  found.foldl (fun todo a => if a ∈ done then todo else insert a todo) todo

/-- A loop that takes one node at a time until nothing is left to do. A step changes the state
and says which nodes it found. -/
def loop {σ ε : Type} (step : σ → α → Except ε (σ × List α)) :
    Nat → List α → List α → σ → Except ε σ
  | 0, _, _, state => .ok state
  | _ + 1, [], _, state => .ok state
  | fuel + 1, now :: todo, done, state => do
    let (state, found) ← step state now
    loop step fuel (extend (now :: done) todo found) (now :: done) state

theorem mem_insert (a b : α) (todo : List α) : b ∈ insert a todo ↔ b = a ∨ b ∈ todo := by
  unfold insert
  split
  next inside =>
    constructor
    · exact .inr
    · rintro (rfl | old)
      · exact inside
      · exact old
  · exact mem_orderedInsert _

variable {todo done : List α} {now : α}

theorem nodup_insert (a : α) (distinct : todo.Nodup) : (insert a todo).Nodup := by
  unfold insert
  split
  · exact distinct
  next outside =>
    exact (perm_orderedInsert _ a todo).nodup_iff.mpr (nodup_cons.mpr ⟨outside, distinct⟩)

theorem mem_extend (done : List α) (todo found : List α) (b : α) :
    b ∈ extend done todo found ↔ b ∈ todo ∨ b ∈ found ∧ b ∉ done := by
  unfold extend
  induction found generalizing todo with
  | nil => simp
  | cons a found ih =>
    rw [foldl_cons, ih]
    split
    next old =>
      constructor
      · rintro (inside | ⟨inside, new⟩)
        · exact .inl inside
        · exact .inr ⟨mem_cons_of_mem _ inside, new⟩
      · rintro (inside | ⟨inside, new⟩)
        · exact .inl inside
        · rcases mem_cons.mp inside with rfl | inside
          · exact absurd old new
          · exact .inr ⟨inside, new⟩
    next new =>
      rw [mem_insert, mem_cons]
      grind

theorem length_le_extend (done todo found : List α) :
    todo.length ≤ (extend done todo found).length := by
  induction found generalizing todo with
  | nil => rfl
  | cons a found ih =>
    refine le_trans ?_ (ih _)
    dsimp only [insert]
    split
    · rfl
    · split
      · rfl
      · simp [orderedInsert_length]

theorem nodup_extend (done : List α) (found : List α) (distinct : todo.Nodup) :
    (extend done todo found).Nodup := by
  unfold extend
  induction found generalizing todo with
  | nil => exact distinct
  | cons a found ih =>
    rw [foldl_cons]
    apply ih
    split
    · exact distinct
    · exact nodup_insert a distinct

theorem nodup_round (found : List α) (distinct : (now :: todo ++ done).Nodup) :
    (extend (now :: done) todo found ++ (now :: done)).Nodup := by
  obtain ⟨fresh, distinct⟩ := nodup_cons.mp distinct
  obtain ⟨distinct_todo, distinct_done, apart⟩ := nodup_append.mp distinct
  have new : now ∉ done := fun old => fresh (mem_append_right _ old)
  rw [nodup_append]
  refine ⟨nodup_extend _ _ distinct_todo, nodup_cons.mpr ⟨new, distinct_done⟩, ?_⟩
  intro a found b visited same
  subst same
  rcases (mem_extend _ _ _ _).mp found with old | ⟨_, unseen⟩
  · rcases mem_cons.mp visited with rfl | visited
    · exact fresh (mem_append_left _ old)
    · exact apart a old a visited rfl
  · exact unseen visited

theorem mem_round {a : α} {found : List α}
    (member : a ∈ extend (now :: done) todo found ++ (now :: done)) :
    a ∈ now :: todo ++ done ∨ a ∈ found := by
  rcases mem_append.mp member with member | visited
  · rcases (mem_extend _ _ _ _).mp member with old | ⟨following, _⟩
    · exact .inl (mem_cons_of_mem _ (mem_append_left _ old))
    · exact .inr following
  · rcases mem_cons.mp visited with rfl | visited
    · exact .inl mem_cons_self
    · exact .inl (mem_cons_of_mem _ (mem_append_right _ visited))

/-- What a walk has reached, when every node it meets is in `nodes`. -/
structure Reached (next : α → List α) (todo done reached : List α) : Prop where
  keeps : ∀ a ∈ done, a ∈ reached
  starts : ∀ a ∈ todo, a ∈ reached
  closed : ∀ a ∈ reached, a ∉ done → ∀ b ∈ next a, b ∈ reached
  least : ∀ S : α → Prop, (∀ a ∈ todo, S a) → (∀ a, S a → ∀ b ∈ next a, S b) →
    ∀ a ∈ reached, a ∈ done ∨ S a

omit [LinearOrder α] in
theorem Reached.finished (next : α → List α) (done : List α) : Reached next [] done done where
  keeps := fun _ inside => inside
  starts := fun _ inside => absurd inside not_mem_nil
  closed := fun _ inside outside => absurd inside outside
  least := fun _ _ _ _ inside => .inl inside

theorem Reached.cons {next : α → List α} {reached : List α}
    (later : Reached next (extend (now :: done) todo (next now)) (now :: done) reached) :
    Reached next (now :: todo) done reached := by
  have first : now ∈ reached := later.keeps now mem_cons_self
  constructor
  · exact fun a inside => later.keeps a (mem_cons_of_mem _ inside)
  · intro a inside
    rcases mem_cons.mp inside with rfl | inside
    · exact first
    · exact later.starts a ((mem_extend _ _ _ _).mpr (.inl inside))
  · intro a inside outside b following
    by_cases current : a = now
    · subst current
      by_cases visited : b ∈ a :: done
      · exact later.keeps b visited
      · exact later.starts b ((mem_extend _ _ _ _).mpr (.inr ⟨following, visited⟩))
    · exact later.closed a inside (by simp [current, outside]) b following
  · intro S starts closed a inside
    have now_in : S now := starts now mem_cons_self
    have rest : ∀ b ∈ extend (now :: done) todo (next now), S b := by
      intro b found
      rcases (mem_extend _ _ _ _).mp found with old | ⟨new, _⟩
      · exact starts b (mem_cons_of_mem _ old)
      · exact closed now now_in b new
    rcases later.least S rest closed a inside with visited | held
    · rcases mem_cons.mp visited with rfl | visited
      · exact .inr now_in
      · exact .inl visited
    · exact .inr held

section Loop

variable {σ ε : Type} {step : σ → α → Except ε (σ × List α)} {next : α → List α} {nodes : List α}
  {invariant : List α → σ → Prop}

/-- As much fuel as there are nodes is enough: every round takes a node not done before. -/
theorem loop_reached (inner : ∀ a ∈ nodes, ∀ b ∈ next a, b ∈ nodes)
    (steps : ∀ state done, ∀ now ∈ nodes, now ∉ done → invariant done state →
      ∃ state', step state now = .ok (state', next now) ∧ invariant (now :: done) state')
    (fuel : Nat) {todo done : List α} {state : σ} (distinct : (todo ++ done).Nodup)
    (inside : ∀ a ∈ todo ++ done, a ∈ nodes) (enough : nodes.length ≤ fuel + done.length)
    (holds : invariant done state) :
    ∃ state' reached, loop step fuel todo done state = .ok state' ∧
      invariant reached state' ∧ Reached next todo done reached := by
  induction fuel generalizing todo done state with
  | zero =>
    have bound := (distinct.subperm inside).length_le
    rw [length_append] at bound
    have empty : todo = [] := eq_nil_of_length_eq_zero (by omega)
    subst empty
    exact ⟨state, done, rfl, holds, Reached.finished next done⟩
  | succ fuel ih =>
    cases todo with
    | nil => exact ⟨state, done, rfl, holds, Reached.finished next done⟩
    | cons now todo =>
      have new : now ∉ done := fun old =>
        (nodup_cons.mp distinct).1 (mem_append_right _ old)
      have current : now ∈ nodes := inside now mem_cons_self
      obtain ⟨state1, ran, holds⟩ := steps state done now current new holds
      have inside' : ∀ a ∈ extend (now :: done) todo (next now) ++ (now :: done), a ∈ nodes :=
        fun a member => (mem_round member).elim (inside a) (inner now current a)
      have enough' : nodes.length ≤ fuel + (now :: done).length := by
        rw [length_cons]
        omega
      obtain ⟨state2, reached, finished, kept, walk⟩ := ih (nodup_round _ distinct) inside' enough' holds
      refine ⟨state2, reached, ?_, kept, walk.cons⟩
      rw [loop, ran]
      exact finished

end Loop

end Worklist
