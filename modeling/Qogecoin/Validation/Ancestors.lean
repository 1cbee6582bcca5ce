import Qogecoin.Library.Worklist
import Qogecoin.Primitives.Transaction
import Mathlib.Algebra.Order.BigOperators.Group.Finset

/-! The ancestors of a transaction in the mempool. The walk checks the limits on them before it
knows all of them. -/
namespace Qogecoin.Mempool

open List

open Worklist (extend mem_extend length_le_extend nodup_round mem_round)

/-- A transaction is no larger than a message. -/
structure CTxMemPoolEntry where
  hash : Uint256
  vin : List CTxIn
  nTxSize : UInt64
  parents : List Uint256
  nCountWithDescendants : UInt64
  nSizeWithDescendants : UInt64
  nTxSize_lt : nTxSize.toNat < 2 ^ 32
deriving DecidableEq, Repr

/-- `mapTx`, as the hashes it holds and their entries, of which memory holds less than this. -/
structure CTxMemPool where
  txids : List Uint256
  entry : Uint256 → CTxMemPoolEntry
  length_lt : txids.length < 2 ^ 31

structure Limits where
  ancestorCount : UInt64
  ancestorSize : UInt64
  descendantCount : UInt64
  descendantSize : UInt64
deriving DecidableEq, Repr

/-- What `errString` says. -/
inductive Exceeded where
  | descendantSize (hash : Uint256)
  | descendantCount (hash : Uint256)
  | ancestorSize
  | unconfirmedAncestors
  | unconfirmedParents
deriving DecidableEq, Repr

/-- A loop that stages parents, and looks at the count after each of them. -/
def stageParents (limits : Limits) (exceeded : Exceeded) (entryCount : Nat)
    (setAncestors : List Uint256) : List Uint256 → List Uint256 → Except Exceeded (List Uint256)
  | [], staged => .ok staged
  | parent :: parents, staged =>
    let staged := if parent ∈ setAncestors then staged else Worklist.insert parent staged
    if staged.length + setAncestors.length + entryCount > limits.ancestorCount.toNat then
      .error exceeded
    else stageParents limits exceeded entryCount setAncestors parents staged

/-- What is staged is never in `setAncestors` already. -/
def calculateAncestorsAndCheckLimits (pool : CTxMemPool) (limits : Limits)
    (entrySize : UInt64) (entryCount : Nat) : Nat → List Uint256 → List Uint256 → UInt64 →
    Except Exceeded (List Uint256)
  | 0, setAncestors, _, _ => .ok setAncestors
  | _ + 1, setAncestors, [], _ => .ok setAncestors
  | fuel + 1, setAncestors, stage :: staged, totalSizeWithAncestors => do
    let stageit := pool.entry stage
    let setAncestors := stage :: setAncestors
    let totalSizeWithAncestors := totalSizeWithAncestors + stageit.nTxSize
    if stageit.nSizeWithDescendants + entrySize > limits.descendantSize then
      .error (.descendantSize stage)
    else if stageit.nCountWithDescendants + .ofNat entryCount > limits.descendantCount then
      .error (.descendantCount stage)
    else if totalSizeWithAncestors > limits.ancestorSize then .error .ancestorSize
    else
      let staged ← stageParents limits .unconfirmedAncestors entryCount setAncestors stageit.parents
        staged
      calculateAncestorsAndCheckLimits pool limits entrySize entryCount fuel setAncestors staged
        totalSizeWithAncestors

def calculateMemPoolAncestors (pool : CTxMemPool) (entry : CTxMemPoolEntry) (limits : Limits)
    (fSearchForParents : Bool) : Except Exceeded (List Uint256) := do
  let staged ← if fSearchForParents then
      stageParents limits .unconfirmedParents 1 []
        ((entry.vin.map (·.prevout.hash)).filter (· ∈ pool.txids)) []
    else .ok (pool.entry entry.hash).parents
  calculateAncestorsAndCheckLimits pool limits entry.nTxSize 1 pool.txids.length [] staged
    entry.nTxSize

inductive IsAncestor (pool : CTxMemPool) (vin : List CTxIn) : Uint256 → Prop
  | parent {txin : CTxIn} (spends : txin ∈ vin) (inside : txin.prevout.hash ∈ pool.txids) :
      IsAncestor pool vin txin.prevout.hash
  | further {a parent : Uint256} (known : IsAncestor pool vin a)
      (next : parent ∈ (pool.entry a).parents) : IsAncestor pool vin parent

namespace CTxMemPool

variable (pool : CTxMemPool)

open Classical in
noncomputable def ancestors (vin : List CTxIn) : Finset Uint256 :=
  pool.txids.toFinset.filter (IsAncestor pool vin)

open Classical in
noncomputable def descendants (a : Uint256) : Finset Uint256 :=
  pool.txids.toFinset.filter fun d => d = a ∨ IsAncestor pool (pool.entry d).vin a

def size (txids : Finset Uint256) : Nat := ∑ a ∈ txids, (pool.entry a).nTxSize.toNat

/-- The links and the totals of the entries are those of the transactions. -/
structure Consistent (pool : CTxMemPool) : Prop where
  parents : ∀ a ∈ pool.txids, ∀ parent, parent ∈ (pool.entry a).parents ↔
    parent ∈ pool.txids ∧ ∃ txin ∈ (pool.entry a).vin, txin.prevout.hash = parent
  count : ∀ a ∈ pool.txids, (pool.entry a).nCountWithDescendants.toNat = (pool.descendants a).card
  size : ∀ a ∈ pool.txids,
    (pool.entry a).nSizeWithDescendants.toNat = pool.size (pool.descendants a)

variable (tx : CTxMemPoolEntry)

def HasParent : Prop :=
  ∃ txin ∈ tx.vin, txin.prevout.hash ∈ pool.txids

def added (txids : Finset Uint256) (n : Nat) : Nat :=
  if tx.hash ∈ txids then 0 else n

structure AncestorsWithin (pool : CTxMemPool) (tx : CTxMemPoolEntry) (limits : Limits) : Prop where
  count : (pool.ancestors tx.vin).card + 1 ≤ limits.ancestorCount.toNat
  size : tx.nTxSize.toNat + pool.size (pool.ancestors tx.vin) ≤ limits.ancestorSize.toNat

def Allows (limits : Limits) (a : Uint256) (count size : Nat) : Prop :=
  (pool.descendants a).card + count ≤ limits.descendantCount.toNat ∧
    pool.size (pool.descendants a) + size ≤ limits.descendantSize.toNat

/-- The transaction is within the limits with all its ancestors, and so are the descendants of each
of them when the transaction is one of them. -/
def Within (limits : Limits) : Prop :=
  pool.AncestorsWithin tx limits ∧ ∀ a ∈ pool.ancestors tx.vin, pool.Allows limits a
    (added tx (pool.descendants a) 1) (added tx (pool.descendants a) tx.nTxSize.toNat)

def WithinOnTop (limits : Limits) : Prop :=
  pool.AncestorsWithin tx limits ∧
    ∀ a ∈ pool.ancestors tx.vin, pool.Allows limits a 1 tx.nTxSize.toNat

variable {pool}

theorem mem_descendants {a d : Uint256} : d ∈ pool.descendants a ↔
    d ∈ pool.txids ∧ (d = a ∨ IsAncestor pool (pool.entry d).vin a) := by
  classical
  rw [descendants, Finset.mem_filter, mem_toFinset]

theorem card_lt {txids : Finset Uint256} (inside : txids ⊆ pool.txids.toFinset) :
    txids.card < 2 ^ 31 :=
  ((Finset.card_le_card inside).trans (toFinset_card_le _)).trans_lt pool.length_lt

/-- No sum of sizes leaves a word, with the size of one more transaction. -/
theorem size_lt {txids : Finset Uint256} (inside : txids ⊆ pool.txids.toFinset) :
    pool.size txids < 2 ^ 63 := by
  have each : pool.size txids ≤ txids.card * 2 ^ 32 :=
    Finset.sum_le_card_nsmul _ _ _ fun a _ => le_of_lt (pool.entry a).nTxSize_lt
  have few := card_lt inside
  omega

theorem Consistent.with_another (consistent : pool.Consistent) {a : Uint256}
    (inside : a ∈ pool.txids) :
    ((pool.entry a).nCountWithDescendants + .ofNat 1).toNat =
        (pool.descendants a).card + 1 ∧
      ((pool.entry a).nSizeWithDescendants + tx.nTxSize).toNat =
        pool.size (pool.descendants a) + tx.nTxSize.toNat := by
  have known : pool.descendants a ⊆ pool.txids.toFinset :=
    fun d member => mem_toFinset.mpr (mem_descendants.mp member).1
  have few := card_lt known
  have small := size_lt known
  have txSize := tx.nTxSize_lt
  have one : (UInt64.ofNat 1).toNat = 1 := rfl
  rw [UInt64.toNat_add, UInt64.toNat_add, consistent.count a inside, consistent.size a inside, one]
  constructor <;> omega

end CTxMemPool

open CTxMemPool

theorem stageParents_eq {limits : Limits} {exceeded : Exceeded} {entryCount : Nat}
    {done : List Uint256} (parents staged : List Uint256) :
    stageParents limits exceeded entryCount done parents staged =
      if parents = [] ∨
          (extend done staged parents).length + done.length + entryCount ≤
            limits.ancestorCount.toNat then
        .ok (extend done staged parents)
      else .error exceeded := by
  induction parents generalizing staged with
  | nil => rfl
  | cons parent parents ih =>
    have unfolded : extend done staged (parent :: parents) = extend done
        (if parent ∈ done then staged else Worklist.insert parent staged) parents := by
      by_cases inside : parent ∈ done <;> simp [extend, inside]
    rw [stageParents, ih, unfolded]
    generalize (if parent ∈ done then staged else Worklist.insert parent staged) = next
    have grows := length_le_extend done next parents
    rcases parents with _ | ⟨_, parents⟩
    · have same : extend done next [] = next := rfl
      grind
    · grind

section

variable {pool : CTxMemPool} (consistent : pool.Consistent) {vin : List CTxIn}

include consistent

theorem IsAncestor.mem_txids {a : Uint256} (ancestor : IsAncestor pool vin a) : a ∈ pool.txids := by
  induction ancestor with
  | parent spends inside => exact inside
  | further _ next ih => exact ((consistent.parents _ ih _).mp next).1

theorem mem_ancestors {a : Uint256} : a ∈ pool.ancestors vin ↔ IsAncestor pool vin a := by
  classical
  rw [ancestors, Finset.mem_filter, mem_toFinset]
  exact ⟨And.right, fun ancestor => ⟨ancestor.mem_txids consistent, ancestor⟩⟩

omit consistent in
structure Progress (pool : CTxMemPool) (vin : List CTxIn) (staged done : List Uint256) : Prop where
  distinct : (staged ++ done).Nodup
  sound : ∀ a ∈ staged ++ done, IsAncestor pool vin a
  starts : ∀ txin ∈ vin, txin.prevout.hash ∈ pool.txids → txin.prevout.hash ∈ staged ++ done
  closed : ∀ a ∈ done, ∀ parent ∈ (pool.entry a).parents, parent ∈ staged ++ done

namespace Progress

variable {staged done : List Uint256}

omit consistent in
theorem round {stage : Uint256} (progress : Progress pool vin (stage :: staged) done) :
    Progress pool vin (extend (stage :: done) staged (pool.entry stage).parents) (stage :: done) := by
  have kept : ∀ a ∈ stage :: staged ++ done,
      a ∈ extend (stage :: done) staged (pool.entry stage).parents ++ stage :: done := by
    intro a member
    grind [mem_extend]
  refine ⟨nodup_round _ progress.distinct, ?_, ?_, ?_⟩
  · intro a member
    rcases mem_round member with old | next
    · exact progress.sound a old
    · exact .further (progress.sound stage mem_cons_self) next
  · exact fun txin spends inside => kept _ (progress.starts txin spends inside)
  · intro a member parent next
    rcases mem_cons.mp member with rfl | old
    · grind [mem_extend]
    · exact kept _ (progress.closed a old parent next)

theorem length_le (progress : Progress pool vin staged done) :
    staged.length + done.length ≤ (pool.ancestors vin).card := by
  rw [← length_append, ← toFinset_card_of_nodup progress.distinct]
  refine Finset.card_le_card fun a member => ?_
  exact (mem_ancestors consistent).mpr (progress.sound a (mem_toFinset.mp member))

theorem size_le (progress : Progress pool vin staged done) :
    pool.size done.toFinset ≤ pool.size (pool.ancestors vin) := by
  refine Finset.sum_le_sum_of_subset fun a member => (mem_ancestors consistent).mpr ?_
  exact progress.sound a (mem_append_right _ (mem_toFinset.mp member))

theorem finished (progress : Progress pool vin [] done) : done.toFinset = pool.ancestors vin := by
  ext a
  rw [mem_toFinset, mem_ancestors consistent]
  constructor
  · exact progress.sound a
  · intro ancestor
    induction ancestor with
    | parent spends inside => exact progress.starts _ spends inside
    | further _ next ih => exact progress.closed _ ih _ next

end Progress

variable {tx : CTxMemPoolEntry} {limits : Limits}

theorem within_of_finished {done : List Uint256} (progress : Progress pool tx.vin [] done)
    (counted : done.length + 1 ≤ limits.ancestorCount.toNat)
    (sized : tx.nTxSize.toNat + pool.size done.toFinset ≤ limits.ancestorSize.toNat)
    (checked : ∀ a ∈ done, pool.Allows limits a 1 tx.nTxSize.toNat) :
    done.toFinset = pool.ancestors tx.vin ∧ pool.WithinOnTop tx limits := by
  have all := progress.finished consistent
  have few := toFinset_card_of_nodup progress.distinct
  rw [nil_append, all] at few
  refine ⟨all, ⟨few ▸ counted, all ▸ sized⟩, ?_⟩
  exact fun a member => checked a (mem_toFinset.mp (all ▸ member))

/-- A walk that comes to its end has found all ancestors within the limits. A walk that stops
earlier has met a limit that all ancestors together exceed, too. -/
theorem calculateAncestorsAndCheckLimits_spec (fuel : Nat) {staged done : List Uint256}
    {total : UInt64}
    (progress : Progress pool tx.vin staged done) (enough : pool.txids.length ≤ fuel + done.length)
    (sum : total.toNat = tx.nTxSize.toNat + pool.size done.toFinset)
    (counted : staged.length + done.length + 1 ≤ limits.ancestorCount.toNat)
    (sized : staged = [] → total.toNat ≤ limits.ancestorSize.toNat)
    (checked : ∀ a ∈ done, pool.Allows limits a 1 tx.nTxSize.toNat) :
    (∃ r, calculateAncestorsAndCheckLimits pool limits tx.nTxSize 1 fuel done staged total = .ok r ∧
      r.toFinset = pool.ancestors tx.vin ∧ pool.WithinOnTop tx limits) ∨
    ∃ e, calculateAncestorsAndCheckLimits pool limits tx.nTxSize 1 fuel done staged total = .error e ∧
      ¬pool.WithinOnTop tx limits := by
  induction fuel generalizing staged done total with
  | zero =>
    have inside := fun a member => (progress.sound a member).mem_txids consistent
    have bound := (progress.distinct.subperm inside).length_le
    rw [length_append] at bound
    obtain rfl : staged = [] := eq_nil_of_length_eq_zero (by omega)
    exact .inl ⟨done, rfl, within_of_finished consistent progress (by simpa using counted)
      (sum ▸ sized rfl) checked⟩
  | succ fuel ih =>
    cases staged with
    | nil =>
      exact .inl ⟨done, rfl, within_of_finished consistent progress (by simpa using counted)
        (sum ▸ sized rfl) checked⟩
    | cons stage staged =>
      have ancestor := progress.sound stage mem_cons_self
      have member := (mem_ancestors consistent).mpr ancestor
      have inside := ancestor.mem_txids consistent
      have new : stage ∉ done := fun old =>
        (nodup_cons.mp progress.distinct).1 (mem_append_right _ old)
      have later := progress.round
      have txSize := tx.nTxSize_lt
      have known : (stage :: done).toFinset ⊆ pool.txids.toFinset := by
        intro a member
        have found := later.sound a (mem_append_right _ (mem_toFinset.mp member))
        exact mem_toFinset.mpr (found.mem_txids consistent)
      have allSize := size_lt known
      have sum' : (total + (pool.entry stage).nTxSize).toNat =
          tx.nTxSize.toNat + pool.size (stage :: done).toFinset := by
        rw [toFinset_cons, CTxMemPool.size, Finset.sum_insert (by simpa using new)] at allSize ⊢
        rw [CTxMemPool.size] at sum
        rw [UInt64.toNat_add, sum]
        omega
      obtain ⟨count', size'⟩ := consistent.with_another tx inside
      rw [calculateAncestorsAndCheckLimits, stageParents_eq]
      simp only [gt_iff_lt, UInt64.lt_iff_toNat_lt, size', count', sum']
      split
      next large =>
        exact .inr ⟨_, rfl, fun within => absurd (within.2 stage member).2 (by omega)⟩
      split
      next many =>
        exact .inr ⟨_, rfl, fun within => absurd (within.2 stage member).1 (by omega)⟩
      split
      next large =>
        have bound := later.size_le consistent
        exact .inr ⟨_, rfl, fun within => absurd within.1.size (by omega)⟩
      split
      next few =>
        refine ih later (by rw [length_cons]; omega) sum' ?_ (fun _ => by omega) ?_
        · rcases few with orphan | few
          · rw [orphan, extend, foldl_nil, length_cons]
            rw [length_cons] at counted
            omega
          · exact few
        · exact forall_mem_cons.mpr ⟨⟨by omega, by omega⟩, checked⟩
      next many =>
        have bound := later.length_le consistent
        exact .inr ⟨_, rfl, fun within => absurd within.1.count (by omega)⟩

omit consistent in
theorem progress_start (vin : List CTxIn) :
    Progress pool vin (extend [] [] ((vin.map (·.prevout.hash)).filter (· ∈ pool.txids))) [] := by
  have staged (a : Uint256) :
      a ∈ extend [] [] ((vin.map (·.prevout.hash)).filter (· ∈ pool.txids)) ++ [] ↔
        ∃ txin ∈ vin, txin.prevout.hash ∈ pool.txids ∧ txin.prevout.hash = a := by
    simp only [append_nil, mem_extend, not_mem_nil, mem_filter, mem_map,
      decide_eq_true_eq]
    grind
  refine ⟨?_, ?_, ?_, nofun⟩
  · rw [append_nil]
    exact Worklist.nodup_extend _ _ nodup_nil
  · intro a member
    obtain ⟨txin, spends, inside, rfl⟩ := (staged a).mp member
    exact .parent spends inside
  · exact fun txin spends inside => (staged _).mpr ⟨txin, spends, inside, rfl⟩

variable (limits) in
theorem calculateMemPoolAncestors_orphan (orphan : ¬pool.HasParent tx) :
    calculateMemPoolAncestors pool tx limits true = .ok [] ∧ pool.ancestors tx.vin = ∅ := by
  have none : (tx.vin.map (·.prevout.hash)).filter (· ∈ pool.txids) = [] := by
    simpa [HasParent] using orphan
  constructor
  · rw [calculateMemPoolAncestors, if_pos rfl, none]
    cases pool.txids.length <;> rfl
  · refine Finset.eq_empty_of_forall_notMem fun a member => ?_
    induction (mem_ancestors consistent).mp member with
    | parent spends inside => exact orphan ⟨_, spends, inside⟩
    | further known _ ih => exact ih ((mem_ancestors consistent).mpr known)

variable (tx limits) in
theorem calculateMemPoolAncestors_spec :
    (∃ r, calculateMemPoolAncestors pool tx limits true = .ok r ∧
      r.toFinset = pool.ancestors tx.vin ∧ (pool.HasParent tx → pool.WithinOnTop tx limits)) ∨
    ∃ e, calculateMemPoolAncestors pool tx limits true = .error e ∧ pool.HasParent tx ∧
      ¬pool.WithinOnTop tx limits := by
  by_cases parent : pool.HasParent tx
  swap
  · obtain ⟨found, none⟩ := calculateMemPoolAncestors_orphan consistent limits parent
    exact .inl ⟨[], found, none.symm, fun present => absurd present parent⟩
  simp only [parent, true_and, forall_const]
  have progress : Progress pool tx.vin _ _ := progress_start tx.vin
  obtain ⟨txin, spends, inside⟩ := parent
  have first := progress.starts txin spends inside
  rw [append_nil] at first
  rw [calculateMemPoolAncestors, if_pos rfl, stageParents_eq]
  split
  next few =>
    refine calculateAncestorsAndCheckLimits_spec consistent _ progress (by simp) rfl ?_ ?_ nofun
    · refine few.resolve_left fun empty => ?_
      rw [empty] at first
      cases first
    · intro empty
      rw [empty] at first
      cases first
  next many =>
    have bound := progress.length_le consistent
    exact .inr ⟨_, rfl, fun within => absurd within.1.count (by omega)⟩

theorem accepted_iff : (∃ r, calculateMemPoolAncestors pool tx limits true = .ok r) ↔
    (pool.HasParent tx → pool.WithinOnTop tx limits) := by
  rcases calculateMemPoolAncestors_spec consistent tx limits with
    ⟨r, found, _, within⟩ | ⟨e, refused, parent, not⟩
  · exact ⟨fun _ => within, fun _ => ⟨r, found⟩⟩
  · simp [refused, parent, not]

theorem mem_iff_of_accepted {r : List Uint256}
    (accepted : calculateMemPoolAncestors pool tx limits true = .ok r) (a : Uint256) :
    a ∈ r ↔ IsAncestor pool tx.vin a := by
  rcases calculateMemPoolAncestors_spec consistent tx limits with
    ⟨_, found, all, _⟩ | ⟨_, refused, _⟩
  · cases accepted.symm.trans found
    rw [← mem_ancestors consistent, ← all, mem_toFinset]
  · cases accepted.symm.trans refused

omit consistent in
theorem within_of_onTop (onTop : pool.WithinOnTop tx limits) : pool.Within tx limits := by
  refine onTop.imp_right fun allows a member => ?_
  obtain ⟨few, small⟩ := allows a member
  unfold Allows added
  split <;> omega

omit consistent in
theorem onTop_of_new (new : tx.hash ∉ pool.txids) (within : pool.Within tx limits) :
    pool.WithinOnTop tx limits := by
  refine within.imp_right fun allows a member => ?_
  have apart : tx.hash ∉ pool.descendants a := fun inside => new (mem_descendants.mp inside).1
  have allowed := allows a member
  rwa [added, added, if_neg apart, if_neg apart] at allowed

/-- The limits decide exactly where the transaction has a parent in the mempool or is within them by
itself, and where a transaction of the mempool is not refused for being counted twice among the
descendants of an ancestor. -/
theorem ancestors_exact_iff :
    (((∃ r, calculateMemPoolAncestors pool tx limits true = .ok r) ↔ pool.Within tx limits) ∧
      ∀ r, calculateMemPoolAncestors pool tx limits true = .ok r →
        ∀ a, a ∈ r ↔ IsAncestor pool tx.vin a) ↔
    (pool.HasParent tx ∨ 1 ≤ limits.ancestorCount ∧ tx.nTxSize ≤ limits.ancestorSize) ∧
      (tx.hash ∈ pool.txids → pool.Within tx limits → pool.WithinOnTop tx limits) := by
  rw [accepted_iff consistent]
  by_cases parent : pool.HasParent tx
  · constructor
    · rintro ⟨same, _⟩
      exact ⟨.inl parent, fun _ within => same.mpr within parent⟩
    · rintro ⟨_, known⟩
      refine ⟨⟨fun onTop => within_of_onTop (onTop parent), fun within _ => ?_⟩,
        fun r => mem_iff_of_accepted consistent⟩
      by_cases inside : tx.hash ∈ pool.txids
      · exact known inside within
      · exact onTop_of_new inside within
  · -- there are no ancestors, whose descendants could be too many
    obtain ⟨_, none⟩ := calculateMemPoolAncestors_orphan consistent limits parent
    have alone : pool.AncestorsWithin tx limits ↔
        1 ≤ limits.ancestorCount ∧ tx.nTxSize ≤ limits.ancestorSize := by
      rw [UInt64.le_iff_toNat_le, UInt64.le_iff_toNat_le, UInt64.toNat_one]
      constructor
      · rintro ⟨few, small⟩
        simpa [none, CTxMemPool.size] using And.intro few small
      · rintro ⟨few, small⟩
        exact ⟨by simpa [none] using few, by simpa [none, CTxMemPool.size] using small⟩
    constructor
    · rintro ⟨same, _⟩
      have within := same.mp fun present => absurd present parent
      exact ⟨.inr (alone.mp within.1), fun _ within => ⟨within.1, by simp [none]⟩⟩
    · rintro ⟨fits, _⟩
      refine ⟨⟨fun _ => ⟨?_, by simp [none]⟩, fun _ present => absurd present parent⟩,
        fun r => mem_iff_of_accepted consistent⟩
      exact alone.mpr (fits.resolve_left parent)

end

def spend (hash : Uint256) (n : UInt32) : CTxIn := ⟨⟨hash, n⟩, [], 0, []⟩

def parent : CTxMemPoolEntry := ⟨.uint256S 1, [], 200, [], 2, 500, by decide⟩

def child : CTxMemPoolEntry :=
  ⟨.uint256S 2, [spend parent.hash 0], 300, [parent.hash], 1, 300, by decide⟩

def twoInChain : CTxMemPool where
  txids := [parent.hash, child.hash]
  entry hash := if hash = child.hash then child else parent
  length_lt := by decide

theorem isAncestor_child {a : Uint256} :
    IsAncestor twoInChain child.vin a ↔ a = parent.hash := by
  constructor
  · intro ancestor
    induction ancestor with
    | parent spends _ => rw [mem_singleton.mp spends, spend]
    | further _ next ih =>
      subst ih
      cases next
  · rintro rfl
    exact .parent (mem_singleton_self (spend parent.hash 0)) (by decide)

theorem not_isAncestor_parent {a : Uint256} : ¬IsAncestor twoInChain parent.vin a := by
  intro ancestor
  induction ancestor with
  | parent spends => cases spends
  | further _ _ ih => exact ih

theorem descendants_twoInChain : twoInChain.descendants parent.hash = {parent.hash, child.hash} ∧
    twoInChain.descendants child.hash = {child.hash} := by
  have apart : child.hash ≠ parent.hash := by decide
  constructor <;> ext d <;> rw [mem_descendants]
  · constructor
    · rintro ⟨inside, _⟩
      simpa [twoInChain] using inside
    · intro member
      refine ⟨by simpa [twoInChain] using member, ?_⟩
      rcases Finset.mem_insert.mp member with here | below
      · exact .inl here
      · rw [Finset.mem_singleton.mp below]
        exact .inr (isAncestor_child.mpr rfl)
  · constructor
    · rintro ⟨inside, here | below⟩
      · exact Finset.mem_singleton.mpr here
      rcases mem_cons.mp inside with rfl | last
      · exact absurd below not_isAncestor_parent
      · rw [mem_singleton.mp last] at below
        exact absurd (isAncestor_child.mp below) apart
    · intro member
      rw [Finset.mem_singleton.mp member]
      exact ⟨mem_cons_of_mem _ mem_cons_self, .inl rfl⟩

theorem consistent_twoInChain : twoInChain.Consistent := by
  obtain ⟨both, last⟩ := descendants_twoInChain
  have each {P : Uint256 → Prop} (first : P parent.hash) (second : P child.hash) :
      ∀ a ∈ twoInChain.txids, P a := by
    simpa [twoInChain] using And.intro first second
  refine ⟨each ?_ ?_, each ?_ ?_, each ?_ ?_⟩
  · intro a
    constructor
    · nofun
    · rintro ⟨_, _, spends, _⟩
      cases spends
  · intro a
    constructor
    · intro member
      rw [mem_singleton.mp member]
      exact ⟨mem_cons_self, _, mem_singleton_self _, rfl⟩
    · rintro ⟨_, _, spends, rfl⟩
      rw [mem_singleton.mp spends]
      exact mem_singleton_self _
  · rw [both]
    decide
  · rw [last]
    decide
  · rw [both]
    decide
  · rw [last]
    decide

/-- It spends both transactions of the mempool, one of which spends the other. -/
def grandchild : CTxMemPoolEntry :=
  ⟨.uint256S 3, [spend parent.hash 1, spend child.hash 0], 150, [], 1, 150, by decide⟩

theorem ancestors_exact_of_grandchild :
    twoInChain.Consistent ∧ twoInChain.HasParent grandchild ∧
      ((∃ r, calculateMemPoolAncestors twoInChain grandchild ⟨25, 101000, 25, 101000⟩ true = .ok r) ↔
        twoInChain.Within grandchild ⟨25, 101000, 25, 101000⟩) ∧
      ∀ r, calculateMemPoolAncestors twoInChain grandchild ⟨25, 101000, 25, 101000⟩ true = .ok r →
        ∀ a, a ∈ r ↔ IsAncestor twoInChain grandchild.vin a := by
  have spends : twoInChain.HasParent grandchild :=
    ⟨spend parent.hash 1, mem_cons_self, mem_cons_self⟩
  exact ⟨consistent_twoInChain, spends, (ancestors_exact_iff consistent_twoInChain).mpr
    ⟨.inl spends, fun inside => absurd inside (by decide)⟩⟩

def emptyPool : CTxMemPool := ⟨[], fun hash => ⟨hash, [], 0, [], 0, 0, by decide⟩, by decide⟩

theorem consistent_emptyPool : emptyPool.Consistent := ⟨nofun, nofun, nofun⟩

def orphan : CTxMemPoolEntry := ⟨.uint256S 1, [], 200, [], 1, 200, by decide⟩

theorem orphan_exceeds_ancestorSize :
    emptyPool.Consistent ∧
      calculateMemPoolAncestors emptyPool orphan ⟨25, 100, 25, 101000⟩ true = .ok [] ∧
      ¬emptyPool.Within orphan ⟨25, 100, 25, 101000⟩ := by
  refine ⟨consistent_emptyPool, rfl, fun within => ?_⟩
  have small := within.1.size
  exact absurd (le_trans (Nat.le_add_right _ _) small) (by decide)

end Qogecoin.Mempool
