import Mathlib.Algebra.Ring.Nat
import Mathlib.Data.Fintype.Basic

/-! `CuckooCache::cache`: a table in which every element has eight places. Inserting an element may
move others and may drop one; erasing only marks a slot as one that may be overwritten. -/
namespace Qogecoin.CuckooCache

open Function List

def fastRange32 (x : UInt32) (n : Nat) : Nat := x.toNat * n / 2 ^ 32

theorem fastRange32_lt (x : UInt32) {n : Nat} (pos : 0 < n) : fastRange32 x n < n := by
  have small := x.toNat_lt
  unfold fastRange32
  rw [Nat.div_lt_iff_lt_mul (by decide), Nat.mul_comm n]
  exact (Nat.mul_lt_mul_right pos).mpr small

/-- What `setup` fixes: the number of slots, the depth limit, which is the logarithm of it in single
precision, and the eight hash functions. -/
structure Shape (α : Type) where
  size : Nat
  depthLimit : Nat
  hashFunction : α → Fin 8 → UInt32
  pos : 0 < size

variable {α : Type} (shape : Shape α)

def Shape.computeHashes (e : α) (i : Fin 8) : Fin shape.size :=
  ⟨fastRange32 (shape.hashFunction e i) shape.size, fastRange32_lt _ shape.pos⟩

structure Cache where
  table : Fin shape.size → α
  collectionFlags : Fin shape.size → Bool
  epochFlags : Fin shape.size → Bool
  epochHeuristicCounter : Nat
  epochSize : Nat

namespace Cache

/-- After `setup`: all slots hold the default element and may be overwritten. The multiplication is
one of `uint32_t`. -/
def setup [Inhabited α] : Cache shape :=
  let epochSize := max 1 (45 * shape.size % 2 ^ 32 / 100)
  { table := fun _ => default
    collectionFlags := fun _ => true
    epochFlags := fun _ => false
    epochHeuristicCounter := epochSize
    epochSize }

variable {shape} (cache : Cache shape)

def allowErase (n : Fin shape.size) : Cache shape :=
  { cache with collectionFlags := update cache.collectionFlags n true }

def pleaseKeep (n : Fin shape.size) : Cache shape :=
  { cache with collectionFlags := update cache.collectionFlags n false }

def epochCheck : Cache shape :=
  if cache.epochHeuristicCounter ≠ 0 then
    { cache with epochHeuristicCounter := cache.epochHeuristicCounter - 1 }
  else
    let epochUnusedCount := (finRange shape.size).countP fun i =>
      cache.epochFlags i && !cache.collectionFlags i
    if epochUnusedCount ≥ cache.epochSize then
      { cache with
        epochFlags := fun _ => false
        collectionFlags := fun i => !cache.epochFlags i || cache.collectionFlags i
        epochHeuristicCounter := cache.epochSize }
    else
      { cache with
        epochHeuristicCounter :=
          max 1 (max (cache.epochSize / 16) (cache.epochSize - epochUnusedCount)) }

def settle (loc : Fin shape.size) (epoch : Bool) : Cache shape :=
  { cache.pleaseKeep loc with epochFlags := update cache.epochFlags loc epoch }

/-- The place after the last one looked at, among the eight; at the beginning it is the second. -/
def nextLoc (locs : Fin 8 → Fin shape.size) (lastLoc : Option (Fin shape.size)) :
    Fin shape.size :=
  let found := ((finRange 8).findIdx fun i => some (locs i) == lastLoc)
  locs ⟨(1 + found) % 8, Nat.mod_lt _ (by decide)⟩

/-- The loop of `insert` over the depth: into a slot that may be overwritten, or else in exchange
for an element that is moved on in the next round. -/
def insertLoop : (rounds : Nat) → (lastLoc : Option (Fin shape.size)) → (lastEpoch : Bool) →
    (e : α) → Cache shape → Cache shape
  | 0, _, _, _, cache => cache
  | rounds + 1, lastLoc, lastEpoch, e, cache =>
    let locs := shape.computeHashes e
    match (finRange 8).find? fun i => cache.collectionFlags (locs i) with
    | some i =>
      ({ cache with table := update cache.table (locs i) e }).settle (locs i) lastEpoch
    | none =>
      let loc := nextLoc locs lastLoc
      insertLoop rounds (some loc) (cache.epochFlags loc) (cache.table loc)
        { cache with
          table := update cache.table loc e
          epochFlags := update cache.epochFlags loc lastEpoch }

variable [DecidableEq α] (cache : Cache shape)

def findLoc (e : α) : Option (Fin shape.size) :=
  ((finRange 8).find? fun i => cache.table (shape.computeHashes e i) = e).map
    (shape.computeHashes e)

def insert (e : α) : Cache shape :=
  let cache := cache.epochCheck
  match cache.findLoc e with
  | some loc => cache.settle loc true
  | none => insertLoop shape.depthLimit none true e cache

def contains (e : α) (erase : Bool) : Bool × Cache shape :=
  match cache.findLoc e with
  | some loc => (true, if erase then cache.allowErase loc else cache)
  | none => (false, cache)

variable {cache : Cache shape} {e : α}

omit [DecidableEq α] in
@[simp] theorem epochCheck_table (cache : Cache shape) : cache.epochCheck.table = cache.table := by
  unfold epochCheck
  split
  · rfl
  · dsimp only
    split <;> rfl

theorem findLoc_holds {loc : Fin shape.size} (found : cache.findLoc e = some loc) :
    cache.table loc = e := by
  obtain ⟨i, first, rfl⟩ := Option.map_eq_some_iff.mp found
  simpa using find?_some first

@[simp] theorem contains_table (cache : Cache shape) (e : α) (erase : Bool) :
    (cache.contains e erase).2.table = cache.table := by
  unfold contains
  split
  · dsimp only
    split <;> rfl
  · rfl

theorem contains_holds {P : α → Prop} (all : ∀ loc, P (cache.table loc)) {erase : Bool}
    (found : (cache.contains e erase).1 = true) : P e := by
  unfold contains at found
  split at found
  next loc place =>
    rw [← findLoc_holds place]
    exact all loc
  · cases found

theorem setup_contains [Inhabited α] (erase : Bool) :
    ((setup shape).contains default erase).1 = true := by
  have first : (setup shape).findLoc default = some (shape.computeHashes default 0) := by
    simp [findLoc, setup, finRange_succ]
  unfold contains
  rw [first]

omit [DecidableEq α] in
/-- Every element is put into one of its own places, and what is moved on was in one before. -/
theorem insertLoop_places {P : Fin shape.size → α → Prop} {R : α → Prop}
    (places : ∀ e i, R e → P (shape.computeHashes e i) e) (stored : ∀ loc e, P loc e → R e)
    (rounds : Nat) (lastLoc : Option (Fin shape.size)) (lastEpoch : Bool) (e : α)
    (cache : Cache shape) (all : ∀ loc, P loc (cache.table loc)) (new : R e) :
    ∀ loc, P loc ((insertLoop rounds lastLoc lastEpoch e cache).table loc) := by
  have update : ∀ (cache : Cache shape) (e : α) (i : Fin 8), (∀ loc, P loc (cache.table loc)) →
      R e → ∀ loc, P loc (update cache.table (shape.computeHashes e i) e loc) := by
    intro cache e i all new loc
    by_cases same : loc = shape.computeHashes e i
    · rw [same, update_self]
      exact places e i new
    · rw [update_of_ne same]
      exact all loc
  induction rounds generalizing lastLoc lastEpoch e cache with
  | zero => exact all
  | succ rounds ih =>
    unfold insertLoop
    dsimp only
    split
    · exact update cache e _ all new
    · exact ih _ _ _ _ (update cache e _ all new) (stored _ _ (all _))

theorem insert_places {P : Fin shape.size → α → Prop} {R : α → Prop}
    (places : ∀ e i, R e → P (shape.computeHashes e i) e) (stored : ∀ loc e, P loc e → R e)
    (all : ∀ loc, P loc (cache.table loc)) (new : R e) :
    ∀ loc, P loc ((cache.insert e).table loc) := by
  have checked : ∀ loc, P loc (cache.epochCheck.table loc) := by
    rw [epochCheck_table]
    exact all
  unfold insert
  dsimp only
  split
  · exact checked
  · exact insertLoop_places places stored _ _ _ _ _ checked new

theorem insert_keeps {P : α → Prop} (all : ∀ loc, P (cache.table loc)) (new : P e) :
    ∀ loc, P ((cache.insert e).table loc) :=
  insert_places (P := fun _ => P) (fun _ _ held => held) (fun _ _ held => held) all new

def content (table : Fin shape.size → α) : Multiset α := Finset.univ.val.map table

omit [DecidableEq α] in
theorem content_update (table : Fin shape.size → α) (loc : Fin shape.size) (e : α) :
    e ::ₘ content table = table loc ::ₘ content (update table loc e) := by
  have whole : loc ::ₘ (Finset.univ.val.erase loc) = Finset.univ.val :=
    Multiset.cons_erase (Finset.mem_univ loc)
  have others : (Finset.univ.val.erase loc).map (update table loc e) =
      (Finset.univ.val.erase loc).map table := by
    apply Multiset.map_congr rfl
    intro other member
    exact update_of_ne (Finset.univ.nodup.mem_erase_iff.mp member).1 _ _
  rw [content, content, ← whole, Multiset.map_cons, Multiset.map_cons, others,
    update_self, Multiset.cons_swap]

omit [DecidableEq α] in
theorem insertLoop_content (rounds : Nat) (lastLoc : Option (Fin shape.size)) (lastEpoch : Bool)
    (e : α) (cache : Cache shape) :
    ∃ lost, e ::ₘ content cache.table =
      lost ::ₘ content (insertLoop rounds lastLoc lastEpoch e cache).table := by
  induction rounds generalizing lastLoc lastEpoch e cache with
  | zero => exact ⟨e, rfl⟩
  | succ rounds ih =>
    unfold insertLoop
    dsimp only
    split
    · exact ⟨_, content_update cache.table _ e⟩
    · rw [content_update cache.table (nextLoc (shape.computeHashes e) lastLoc) e]
      exact ih _ _ _ { cache with
        table := update cache.table (nextLoc (shape.computeHashes e) lastLoc) e
        epochFlags := update cache.epochFlags _ lastEpoch }

theorem insert_content (cache : Cache shape) (e : α) :
    ∃ lost, content cache.table ≤ lost ::ₘ content (cache.insert e).table := by
  rw [← epochCheck_table cache]
  unfold insert
  dsimp only
  split
  · exact ⟨e, Multiset.le_cons_self _ _⟩
  · obtain ⟨lost, same⟩ := insertLoop_content shape.depthLimit none true e cache.epochCheck
    exact ⟨lost, same ▸ Multiset.le_cons_self _ _⟩

inductive Call (α : Type) where
  | insert (e : α)
  | contains (e : α) (erase : Bool)

def call (cache : Cache shape) : Call α → Cache shape
  | .insert e => cache.insert e
  | .contains e erase => (cache.contains e erase).2

theorem contains_congr {cache' : Cache shape} (same : cache.table = cache'.table) (e : α)
    (erase erase' : Bool) : (cache.contains e erase).1 = (cache'.contains e erase').1 := by
  have places : cache.findLoc e = cache'.findLoc e := by
    unfold findLoc
    rw [same]
  unfold contains
  rw [places]
  cases cache'.findLoc e <;> rfl

theorem calls_table {calls : List (Call α)}
    (asks : ∀ c ∈ calls, ∃ e erase, c = .contains e erase) (cache : Cache shape) :
    (calls.foldl call cache).table = cache.table := by
  induction calls generalizing cache with
  | nil => rfl
  | cons c calls ih =>
    obtain ⟨⟨e, erase, rfl⟩, others⟩ := forall_mem_cons.mp asks
    rw [foldl_cons, ih others]
    exact contains_table cache e erase

/-- An element that is stored was inserted and is in one of its places; apart from that there is
only the default element. -/
theorem calls_stored [Inhabited α] (calls : List (Call α)) (loc : Fin shape.size) :
    let e := (calls.foldl call (setup shape)).table loc
    e = default ∨ .insert e ∈ calls ∧ ∃ i, shape.computeHashes e i = loc := by
  induction calls using reverseRecOn generalizing loc with
  | nil => exact .inl rfl
  | append_singleton calls last ih =>
    rw [foldl_append]
    cases last with
    | contains e erase =>
      simp only [foldl_cons, foldl_nil, call, contains_table]
      exact (ih loc).imp_right fun held => ⟨mem_append_left _ held.1, held.2⟩
    | insert e =>
      refine insert_places (P := fun loc x => x = default ∨
        .insert x ∈ calls ++ [.insert e] ∧ ∃ i, shape.computeHashes x i = loc)
        (R := fun x => x = default ∨ .insert x ∈ calls ++ [.insert e]) ?_ ?_ ?_ ?_ loc
      · exact fun x i known => known.imp_right fun inserted => ⟨inserted, i, rfl⟩
      · exact fun loc x held => held.imp_right fun held => held.1
      · exact fun loc => (ih loc).imp_right fun held => ⟨mem_append_left _ held.1, held.2⟩
      · exact .inr (mem_append_right _ mem_cons_self)

theorem cache_membership [Inhabited α] (calls : List (Call α)) :
    let cache := calls.foldl call (setup shape)
    (∀ e erase, (cache.contains e erase).1 = true → e = default ∨ .insert e ∈ calls) ∧
    (∀ loc, cache.table loc = default ∨ ∃ i, shape.computeHashes (cache.table loc) i = loc) ∧
    (∀ e, ∃ lost, content cache.table ≤ lost ::ₘ content (cache.insert e).table) ∧
    ∀ e (between : List (Call α)), (∀ c ∈ between, ∃ e erase, c = .contains e erase) →
      ((between.foldl call (cache.contains e true).2).contains e false).1 =
        (cache.contains e true).1 := by
  intro cache
  refine ⟨?_, fun loc => (calls_stored calls loc).imp_right fun held => held.2,
    insert_content cache, ?_⟩
  · intro e erase found
    exact contains_holds (P := fun e => e = default ∨ .insert e ∈ calls)
      (fun loc => (calls_stored calls loc).imp_right fun held => held.1) found
  · intro e between asks
    apply contains_congr
    rw [calls_table asks, contains_table]

end Cache

end Qogecoin.CuckooCache
