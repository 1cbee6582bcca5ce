import Qogecoin.Library.OrderStatistics
import Qogecoin.Primitives.Transaction

/-! Block index entries. An entry is handled together with its ancestors, so that `pprev` is the
tail of a list and `nullptr` the empty list. The median time past does not fall along a chain. -/
namespace Qogecoin

structure CBlockIndex where
  phashBlock : Uint256
  nVersion : Int32
  nTime : UInt32
  nBits : UInt32
deriving DecidableEq, Repr

/-- A block and its ancestors, tip first. -/
abbrev Chain := List CBlockIndex

namespace Chain

variable (pindex : Chain)

def nHeight : Int := pindex.length - 1

abbrev pprev : Chain := pindex.tail

def getBlockHash : Chain → Uint256
  | [] => .null
  | pindex :: _ => pindex.phashBlock

def getBlockTime (pindex : CBlockIndex) : Int := pindex.nTime.toNat

def getAncestor (height : Int) : Chain :=
  if height > pindex.nHeight ∨ height < 0 then []
  else pindex.drop (pindex.nHeight - height).toNat

def meet : Chain → Chain → Chain
  | pa :: as, pb :: bs => if pa :: as = pb :: bs then pa :: as else meet as bs
  | _, _ => []

/-- `LastCommonAncestor`; it is empty if the blocks have none. -/
def lastCommonAncestor (pa pb : Chain) : Chain :=
  if pa.nHeight > pb.nHeight then meet (pa.getAncestor pb.nHeight) pb
  else if pb.nHeight > pa.nHeight then meet pa (pb.getAncestor pa.nHeight)
  else meet pa pb

def nMedianTimeSpan : Nat := 11

def getMedianTimePast : Int :=
  let times := (pindex.take nMedianTimeSpan).map getBlockTime
  (times.insertionSort (· ≤ ·)).getD (times.length / 2) 0

variable {pindex ancestor : Chain}

theorem nHeight_cons (index : CBlockIndex) (pprev : Chain) :
    nHeight (index :: pprev) = pprev.nHeight + 1 := by
  simp [nHeight]

theorem nHeight_nonneg (nonempty : pindex ≠ []) : 0 ≤ pindex.nHeight := by
  have length := List.length_pos_of_ne_nil nonempty
  rw [nHeight]
  omega

theorem nHeight_pos (parent : pindex.pprev ≠ []) : 0 < pindex.nHeight := by
  have length := List.length_pos_of_ne_nil parent
  rw [pprev, List.length_tail] at length
  rw [nHeight]
  omega

theorem of_ancestor {P : Chain → Prop}
    (parent : ∀ index pprev, P (index :: pprev) → pprev ≠ [] → P pprev) (holds : P pindex)
    (suffix : ancestor <:+ pindex) (nonempty : ancestor ≠ []) : P ancestor := by
  induction pindex with
  | nil => exact absurd (List.suffix_nil.mp suffix) nonempty
  | cons index pprev ih =>
    rcases List.suffix_cons_iff.mp suffix with whole | below
    · rw [whole]
      exact holds
    · exact ih (parent index pprev holds (below.ne_nil nonempty)) below

theorem nHeight_le (suffix : ancestor <:+ pindex) : ancestor.nHeight ≤ pindex.nHeight := by
  have length := suffix.length_le
  rw [nHeight, nHeight]
  omega

theorem eq_of_nHeight {other : Chain} (suffix : ancestor <:+ pindex) (suffix' : other <:+ pindex)
    (same : ancestor.nHeight = other.nHeight) : ancestor = other := by
  have length : ancestor.length = other.length := by
    rw [nHeight, nHeight] at same
    omega
  exact (List.suffix_of_suffix_length_le suffix suffix' (le_of_eq length)).eq_of_length length

theorem getAncestor_of_suffix (nonempty : ancestor ≠ []) (suffix : ancestor <:+ pindex) :
    pindex.getAncestor ancestor.nHeight = ancestor := by
  have low := nHeight_nonneg nonempty
  have high := nHeight_le suffix
  rw [getAncestor, if_neg (by omega)]
  have steps : (pindex.nHeight - ancestor.nHeight).toNat = pindex.length - ancestor.length := by
    rw [nHeight, nHeight]
    omega
  rw [steps]
  exact (List.suffix_iff_eq_drop.mp suffix).symm

open List

/-- Every block is later than the median of the times of its ancestors, as
`ContextualCheckBlockHeader` demands. -/
def Timely : Chain → Prop
  | [] => True
  | index :: pprev => (pprev ≠ [] → getMedianTimePast pprev < getBlockTime index) ∧ Timely pprev

theorem Timely.drop {pindex : Chain} (timely : pindex.Timely) (n : Nat) :
    Timely (pindex.drop n) := by
  induction n generalizing pindex with
  | zero => exact timely
  | succ n ih =>
    cases pindex with
    | nil => exact timely
    | cons index pprev => exact ih timely.2

theorem le_getMedianTimePast_iff (index : CBlockIndex) (pprev : Chain) (m : Int) :
    m ≤ getMedianTimePast (index :: pprev) ↔
      (((index :: pprev).take nMedianTimeSpan).map getBlockTime).length -
          (((index :: pprev).take nMedianTimeSpan).map getBlockTime).length / 2 ≤
        (((index :: pprev).take nMedianTimeSpan).map getBlockTime).countP
          fun time => decide (m ≤ time) := by
  apply OrderStatistics.le_getD_sort_iff
  apply Nat.div_lt_self _ (by omega)
  simp [nMedianTimeSpan]

/-- The median does not fall from a block to the next: the new time is above it, and at most one
time drops out. -/
theorem getMedianTimePast_le {index : CBlockIndex} {pprev : Chain}
    (timely : Timely (index :: pprev)) :
    getMedianTimePast pprev ≤ getMedianTimePast (index :: pprev) := by
  rw [le_getMedianTimePast_iff]
  cases pprev with
  | nil =>
    have positive : (0 : Int) ≤ getBlockTime index := Int.natCast_nonneg _
    simp [nMedianTimeSpan, getMedianTimePast, positive]
  | cons parent rest =>
    have later : getMedianTimePast (parent :: rest) ≤ getBlockTime index :=
      le_of_lt (timely.1 (cons_ne_nil _ _))
    have many := (le_getMedianTimePast_iff parent rest _).mp (le_refl _)
    generalize getMedianTimePast (parent :: rest) = m at later many
    have window : (index :: parent :: rest).take nMedianTimeSpan =
        index :: ((parent :: rest).take nMedianTimeSpan).take 10 := by
      simp [nMedianTimeSpan, take_take]
    rw [window]
    have bound : ((parent :: rest).take nMedianTimeSpan).length ≤ 11 := by
      rw [length_take]
      exact min_le_left _ _
    generalize (parent :: rest).take nMedianTimeSpan = old at many bound
    have parts : (old.map getBlockTime).countP (fun time => decide (m ≤ time)) ≤
        ((old.take 10).map getBlockTime).countP (fun time => decide (m ≤ time)) +
          (old.length - 10) := by
      have rest := countP_le_length (p := fun time => decide (m ≤ time))
        (l := (old.drop 10).map getBlockTime)
      rw [length_map, length_drop] at rest
      have whole : (old.map getBlockTime).countP (fun time => decide (m ≤ time)) =
          ((old.take 10).map getBlockTime).countP (fun time => decide (m ≤ time)) +
            ((old.drop 10).map getBlockTime).countP (fun time => decide (m ≤ time)) := by
        rw [← countP_append, ← map_append, take_append_drop]
      omega
    rw [length_map] at many
    rw [map_cons, countP_cons_of_pos (by simpa using later), length_cons,
      length_map, length_take]
    omega

theorem Timely.median_drop_le {pindex : Chain} (timely : pindex.Timely) (n : Nat) :
    getMedianTimePast (pindex.drop n) ≤ pindex.getMedianTimePast := by
  induction n generalizing pindex with
  | zero => exact le_refl _
  | succ n ih =>
    cases pindex with
    | nil => exact le_refl _
    | cons index pprev => exact (ih timely.2).trans (getMedianTimePast_le timely)

end Chain

end Qogecoin
