import Mathlib.Data.Nat.Digits.Lemmas
import Mathlib.Data.Nat.Bitwise
import Mathlib.Data.Nat.Size

/-! Little-endian lists of 32-bit words and the natural number they denote. The loops are
those of schoolbook arithmetic on a fixed number of words: one carry propagation for sums and
products, word and bit shifts, comparison from the top word down. -/
namespace Limbs

open List Nat

def value (xs : List UInt32) : Nat := ofDigits (2 ^ 32) (xs.map UInt32.toNat)

variable (x : UInt32) (xs : List UInt32) (k : Nat) (p : UInt32) (acc ys : List UInt32) (s : UInt32)

@[simp] theorem value_nil : value [] = 0 := rfl

@[simp] theorem value_cons : value (x :: xs) = x.toNat + 2 ^ 32 * value xs := by
  simp [value, ofDigits_cons]

theorem value_append (xs ys : List UInt32) :
    value (xs ++ ys) = value xs + 2 ^ (32 * xs.length) * value ys := by
  simp [value, ofDigits_append, pow_mul]

@[simp] theorem value_zeros : value (replicate k 0) = 0 := by
  induction k with
  | zero => rfl
  | succ k ih => simp [replicate_succ, ih]

theorem value_lt : value xs < 2 ^ (32 * xs.length) := by
  rw [pow_mul]
  have h := ofDigits_lt_base_pow_length (b := 2 ^ 32) (l := xs.map UInt32.toNat)
    (by norm_num) (by
      intro d member
      obtain ⟨x, _, rfl⟩ := mem_map.mp member
      exact x.toNat_lt)
  simpa [value] using h

theorem mod_word {low : Nat} (small : low < 2 ^ 32) (high n : Nat) :
    (low + 2 ^ 32 * high) % 2 ^ (32 * (n + 1)) = low + 2 ^ 32 * (high % 2 ^ (32 * n)) := by
  rw [mul_succ, add_comm (32 * n), pow_add, mod_mul]
  generalize 2 ^ (32 * n) = m
  rw [show (low + 2 ^ 32 * high) % 2 ^ 32 = low by omega,
    show (low + 2 ^ 32 * high) / 2 ^ 32 = high by omega]

theorem value_drop : value (xs.drop k) = value xs / 2 ^ (32 * k) := by
  induction k generalizing xs with
  | zero => simp
  | succ k ih =>
    cases xs with
    | nil => simp
    | cons x xs =>
      have hx := x.toNat_lt
      rw [drop_succ_cons, ih, value_cons, Nat.mul_succ, Nat.add_comm (32 * k), pow_add,
        ← Nat.div_div_eq_div_mul]
      congr 1
      omega

theorem value_take : value (xs.take k) = value xs % 2 ^ (32 * k) := by
  induction k generalizing xs with
  | zero => simp [mod_one]
  | succ k ih =>
    cases xs with
    | nil => simp
    | cons x xs => rw [take_succ_cons, value_cons, value_cons, ih, mod_word x.toNat_lt]

variable (xs ys : List UInt32)

theorem value_injective (size : xs.length = ys.length) (same : value xs = value ys) : xs = ys := by
  induction xs generalizing ys with
  | nil => simpa using size.symm
  | cons x xs ih =>
    cases ys with
    | nil => simp at size
    | cons y ys =>
      simp only [value_cons] at same
      have hx := x.toNat_lt
      have hy := y.toNat_lt
      have head : x.toNat = y.toNat := by omega
      rw [UInt32.toNat_inj.mp head, ih ys (by simpa using size) (by omega)]

def carryLoop : UInt64 → List UInt64 → List UInt32
  | _, [] => []
  | carry, column :: columns =>
    let n := carry + column
    n.toUInt32 :: carryLoop (n >>> 32) columns

@[simp] theorem carryLoop_length (carry : UInt64) (columns : List UInt64) :
    (carryLoop carry columns).length = columns.length := by
  induction columns generalizing carry with
  | nil => rfl
  | cons column columns ih => simp [carryLoop, ih]

def Room (column : UInt64) : Prop := column.toNat + 2 ^ 32 ≤ 2 ^ 64

theorem carryLoop_value (carry : UInt64) (columns : List UInt64)
    (small : carry.toNat < 2 ^ 32) (room : ∀ n ∈ columns, Room n) :
    value (carryLoop carry columns) =
      (carry.toNat + ofDigits (2 ^ 32) (columns.map UInt64.toNat)) %
        2 ^ (32 * columns.length) := by
  induction columns generalizing carry with
  | nil => simp [carryLoop, mod_one]
  | cons column columns ih =>
    have fits := room column (by simp)
    unfold Room at fits
    have total : (carry + column).toNat = carry.toNat + column.toNat := by
      rw [UInt64.toNat_add, mod_eq_of_lt (by omega)]
    have high : ((carry + column) >>> 32).toNat = (carry.toNat + column.toNat) / 2 ^ 32 := by
      simp [UInt64.toNat_shiftRight, total, shiftRight_eq_div_pow]
    have low : (carry + column).toUInt32.toNat = (carry.toNat + column.toNat) % 2 ^ 32 := by
      simp
    rw [carryLoop, value_cons, ih _ (by omega) (fun n hn => room n (by simp [hn])), low, high,
      length_cons, map_cons, ofDigits_cons, ← mod_word (mod_lt _ (by norm_num))]
    congr 1
    omega

def add : List UInt32 :=
  carryLoop 0 (zipWith (fun x y => x.toUInt64 + y.toUInt64) xs ys)

def mulRow (p : UInt32) (acc ys : List UInt32) : List UInt32 :=
  carryLoop 0 (zipWith (fun a y => a.toUInt64 + p.toUInt64 * y.toUInt64) acc ys)

theorem mul_column (p a y : UInt32) :
    (a.toUInt64 + p.toUInt64 * y.toUInt64).toNat = a.toNat + p.toNat * y.toNat ∧
      a.toNat + p.toNat * y.toNat + 2 ^ 32 ≤ 2 ^ 64 := by
  have ha := a.toNat_lt
  have hp : p.toNat ≤ 2 ^ 32 - 1 := by have := p.toNat_lt; omega
  have hy : y.toNat ≤ 2 ^ 32 - 1 := by have := y.toNat_lt; omega
  have product : p.toNat * y.toNat ≤ (2 ^ 32 - 1) * (2 ^ 32 - 1) := Nat.mul_le_mul hp hy
  have wide : a.toNat + p.toNat * y.toNat + 2 ^ 32 ≤ 2 ^ 64 := by omega
  refine ⟨?_, wide⟩
  simp only [UInt64.toNat_add, UInt64.toNat_mul, UInt32.toNat_toUInt64]
  rw [Nat.mod_eq_of_lt (a := p.toNat * y.toNat) (by omega), Nat.mod_eq_of_lt (by omega)]

theorem mulRow_columns (size : acc.length ≤ ys.length) :
    ofDigits (2 ^ 32)
      ((zipWith (fun a y => a.toUInt64 + p.toUInt64 * y.toUInt64) acc ys).map
        UInt64.toNat) = value acc + p.toNat * value (ys.take acc.length) := by
  induction acc generalizing ys with
  | nil => simp
  | cons a acc ih =>
    cases ys with
    | nil => simp at size
    | cons y ys =>
      rw [zipWith_cons_cons, map_cons, ofDigits_cons, ih ys (by simpa using size),
        (mul_column p a y).1, length_cons, take_succ_cons, value_cons, value_cons]
      ring

theorem mulRow_value (size : acc.length ≤ ys.length) :
    value (mulRow p acc ys) = (value acc + p.toNat * value ys) % 2 ^ (32 * acc.length) := by
  rw [mulRow, carryLoop_value 0 _ (by simp), mulRow_columns p acc ys size, value_take]
  · simp [size, add_mod, mul_mod]
  · intro n member
    rw [← map_uncurry_zip_eq_zipWith, mem_map] at member
    obtain ⟨⟨a, y⟩, _, rfl⟩ := member
    rw [Room, Function.uncurry_apply_pair, (mul_column p a y).1]
    exact (mul_column p a y).2

@[simp] theorem mulRow_length : (mulRow p acc ys).length = min acc.length ys.length := by
  simp [mulRow]

theorem add_eq_mulRow : add xs ys = mulRow 1 xs ys := by
  simp [add, mulRow]

theorem add_value (size : xs.length = ys.length) :
    value (add xs ys) = (value xs + value ys) % 2 ^ (32 * xs.length) := by
  rw [add_eq_mulRow, mulRow_value 1 xs ys size.le, UInt32.toNat_one, one_mul]

@[simp] theorem add_length : (add xs ys).length = min xs.length ys.length := by
  simp [add]

/-- Rows are added from the least significant word of the multiplier on; a row never touches
the words below its own position again, so the recursion runs on the remaining suffix. -/
def mulRows : List UInt32 → List UInt32 → List UInt32 → List UInt32
  | [], acc, _ => acc
  | p :: ps, acc, ys =>
    match mulRow p acc ys with
    | [] => []
    | a :: acc => a :: mulRows ps acc ys

theorem mulRows_length (ps acc ys : List UInt32) (size : acc.length ≤ ys.length) :
    (mulRows ps acc ys).length = acc.length := by
  induction ps generalizing acc with
  | nil => rfl
  | cons p ps ih =>
    have row := mulRow_length p acc ys
    rw [min_eq_left size] at row
    rw [mulRows]
    split
    · simp_all
    next a rest same =>
      rw [same, length_cons] at row
      rw [length_cons, ih rest (by omega), row]

theorem mulRows_value (ps acc ys : List UInt32) (size : acc.length ≤ ys.length) :
    value (mulRows ps acc ys) = (value acc + value ps * value ys) % 2 ^ (32 * acc.length) := by
  induction ps generalizing acc with
  | nil => simp [mulRows, mod_eq_of_lt (value_lt acc)]
  | cons p ps ih =>
    have length := mulRow_length p acc ys
    have row := mulRow_value p acc ys size
    rw [min_eq_left size] at length
    rw [mulRows]
    split
    next same =>
      have empty : acc = [] := by simpa [same] using length.symm
      simp [empty, mod_one]
    rename_i a rest same
    rw [same, length_cons] at length
    rw [same, value_cons] at row
    have regroup : a.toNat + 2 ^ 32 * (value rest + value ps * value ys) =
        a.toNat + 2 ^ 32 * value rest + 2 ^ 32 * (value ps * value ys) := by ring
    rw [value_cons, ih rest (by omega), ← mod_word a.toNat_lt, length, regroup, row,
      mod_add_mod, value_cons]
    congr 1
    ring

def shlBits (s : UInt32) : UInt32 → List UInt32 → List UInt32
  | _, [] => []
  | below, x :: xs =>
    ((if s ≠ 0 then below >>> (32 - s) else 0) ||| (x <<< s)) :: shlBits s x xs

def shrBits (s : UInt32) : List UInt32 → List UInt32
  | [] => []
  | x :: xs => ((if s ≠ 0 then xs.headD 0 <<< (32 - s) else 0) ||| (x >>> s)) :: shrBits s xs

def shl (k : Nat) (s : UInt32) (xs : List UInt32) : List UInt32 :=
  (replicate k 0 ++ shlBits s 0 xs).take xs.length

def shr (k : Nat) (s : UInt32) (xs : List UInt32) : List UInt32 :=
  (shrBits s (xs.drop k) ++ replicate k 0).take xs.length

@[simp] theorem shlBits_length (s below : UInt32) (xs : List UInt32) :
    (shlBits s below xs).length = xs.length := by
  induction xs generalizing below with
  | nil => rfl
  | cons x xs ih => simp [shlBits, ih]

section

variable (xs : List UInt32)

@[simp] theorem shrBits_length : (shrBits s xs).length = xs.length := by
  induction xs with
  | nil => rfl
  | cons x xs ih => simp [shrBits, ih]

theorem toNat_shl (x s : UInt32) (small : s.toNat < 32) :
    (x <<< s).toNat = 2 ^ s.toNat * (x.toNat % 2 ^ (32 - s.toNat)) := by
  rw [UInt32.toNat_shiftLeft, Nat.mod_eq_of_lt small, Nat.shiftLeft_eq, Nat.mul_comm,
    ← Nat.mul_mod_mul_left, ← pow_add, Nat.add_sub_cancel' small.le]

theorem toNat_shr (x s : UInt32) (small : s.toNat < 32) :
    (x >>> s).toNat = x.toNat / 2 ^ s.toNat := by
  rw [UInt32.toNat_shiftRight, mod_eq_of_lt small, shiftRight_eq_div_pow]

theorem toNat_complement_shift (small : s.toNat < 32) (positive : s ≠ 0) :
    (32 - s).toNat = 32 - s.toNat ∧ 32 - s.toNat < 32 := by
  have nonzero : s.toNat ≠ 0 := fun h => positive (UInt32.toNat_inj.mp (by simpa using h))
  constructor
  · rw [UInt32.toNat_sub_of_le _ _ (by rw [UInt32.le_iff_toNat_le]; simpa using small.le)]
    rfl
  · omega

theorem div_pow_lt {a b : Nat} (whole : a + b = 32) : x.toNat / 2 ^ a < 2 ^ b := by
  rw [div_lt_iff_lt_mul (by positivity), ← pow_add, add_comm b, whole]
  exact x.toNat_lt

theorem shlWord_toNat (s below x : UInt32) (small : s.toNat < 32) :
    ((if s ≠ 0 then below >>> (32 - s) else 0) ||| (x <<< s)).toNat =
      below.toNat / 2 ^ (32 - s.toNat) + 2 ^ s.toNat * (x.toNat % 2 ^ (32 - s.toNat)) := by
  have part : (if s ≠ 0 then below >>> (32 - s) else 0).toNat =
      below.toNat / 2 ^ (32 - s.toNat) := by
    by_cases zero : s = 0
    · subst zero
      simp [Nat.div_eq_of_lt below.toNat_lt]
    · obtain ⟨same, less⟩ := toNat_complement_shift s small zero
      rw [if_pos zero, toNat_shr _ _ (by omega), same]
  have bound : below.toNat / 2 ^ (32 - s.toNat) < 2 ^ s.toNat := div_pow_lt below (by omega)
  rw [UInt32.toNat_or, part, toNat_shl x s small, Nat.or_comm,
    ← Nat.two_pow_add_eq_or_of_lt bound, Nat.add_comm]

theorem shlBits_value (s below : UInt32) (xs : List UInt32) (small : s.toNat < 32) :
    value (shlBits s below xs) =
      (below.toNat / 2 ^ (32 - s.toNat) + 2 ^ s.toNat * value xs) % 2 ^ (32 * xs.length) := by
  induction xs generalizing below with
  | nil => simp [shlBits, Nat.mod_one]
  | cons x xs ih =>
    have whole : 2 ^ (32 - s.toNat) * 2 ^ s.toNat = 2 ^ 32 := by
      rw [← pow_add, Nat.sub_add_cancel small.le]
    have bound : below.toNat / 2 ^ (32 - s.toNat) < 2 ^ s.toNat := div_pow_lt below (by omega)
    have rest := Nat.mod_lt x.toNat (show 0 < 2 ^ (32 - s.toNat) by positivity)
    have lowBound : below.toNat / 2 ^ (32 - s.toNat) +
        2 ^ s.toNat * (x.toNat % 2 ^ (32 - s.toNat)) < 2 ^ 32 :=
      calc _ < 2 ^ s.toNat + 2 ^ s.toNat * (x.toNat % 2 ^ (32 - s.toNat)) := by omega
        _ = 2 ^ s.toNat * (x.toNat % 2 ^ (32 - s.toNat) + 1) := by ring
        _ ≤ 2 ^ s.toNat * 2 ^ (32 - s.toNat) := Nat.mul_le_mul_left _ rest
        _ = 2 ^ 32 := by rw [Nat.mul_comm, whole]
    rw [shlBits, value_cons, ih x, shlWord_toNat s below x small, length_cons,
      ← mod_word lowBound, value_cons, ← whole]
    congr 1
    nth_rewrite 3 [← Nat.mod_add_div x.toNat (2 ^ (32 - s.toNat))]
    ring

theorem shl_value (small : s.toNat < 32) :
    value (shl k s xs) = (value xs * 2 ^ (32 * k + s.toNat)) % 2 ^ (32 * xs.length) := by
  rw [shl, value_take, value_append, value_zeros, shlBits_value s 0 xs small,
    length_replicate, pow_add]
  simp only [UInt32.toNat_zero, Nat.zero_div, Nat.zero_add]
  rw [Nat.mul_mod, Nat.mod_mod, ← Nat.mul_mod]
  congr 1
  ring

@[simp] theorem shl_length : (shl k s xs).length = xs.length := by
  simp [shl]

theorem shrWord_toNat (s above x : UInt32) (small : s.toNat < 32) :
    ((if s ≠ 0 then above <<< (32 - s) else 0) ||| (x >>> s)).toNat =
      2 ^ (32 - s.toNat) * (above.toNat % 2 ^ s.toNat) + x.toNat / 2 ^ s.toNat := by
  have bound : x.toNat / 2 ^ s.toNat < 2 ^ (32 - s.toNat) := div_pow_lt x (by omega)
  rw [UInt32.toNat_or, toNat_shr x s small]
  by_cases zero : s = 0
  · subst zero
    simp [Nat.mod_one]
  · obtain ⟨same, less⟩ := toNat_complement_shift s small zero
    rw [if_pos zero, toNat_shl _ _ (by omega), same, Nat.sub_sub_self small.le,
      ← Nat.two_pow_add_eq_or_of_lt bound]

theorem headD_toNat (s : Nat) (small : s < 32) : (xs.headD 0).toNat % 2 ^ s = value xs % 2 ^ s := by
  cases xs with
  | nil => simp
  | cons x xs =>
    have whole : 2 ^ 32 = 2 ^ s * 2 ^ (32 - s) := by rw [← pow_add, Nat.add_sub_cancel' small.le]
    rw [headD_cons, value_cons, whole, Nat.mul_assoc, Nat.add_mul_mod_self_left]

theorem shrBits_value (small : s.toNat < 32) : value (shrBits s xs) = value xs / 2 ^ s.toNat := by
  induction xs with
  | nil => simp [shrBits]
  | cons x xs ih =>
    rw [shrBits, value_cons, ih, shrWord_toNat s _ x small, headD_toNat xs _ small, value_cons]
    have whole : 2 ^ 32 = 2 ^ s.toNat * 2 ^ (32 - s.toNat) := by
      rw [← pow_add, Nat.add_sub_cancel' small.le]
    have parts := Nat.mod_add_div (value xs) (2 ^ s.toNat)
    generalize value xs % 2 ^ s.toNat = r at *
    generalize value xs / 2 ^ s.toNat = q at *
    rw [← parts]
    have regroup : x.toNat + 2 ^ 32 * (r + 2 ^ s.toNat * q) =
        x.toNat + 2 ^ s.toNat * (2 ^ (32 - s.toNat) * r + 2 ^ 32 * q) := by
      rw [whole]
      ring
    rw [regroup, Nat.add_mul_div_left _ _ (by positivity)]
    ring

theorem shr_value (small : s.toNat < 32) :
    value (shr k s xs) = value xs / 2 ^ (32 * k + s.toNat) := by
  rw [shr, value_take, value_append, value_zeros, shrBits_value s _ small, value_drop,
    Nat.mul_zero, Nat.add_zero, Nat.div_div_eq_div_mul, ← pow_add]
  exact Nat.mod_eq_of_lt (lt_of_le_of_lt (Nat.div_le_self _ _) (value_lt xs))

@[simp] theorem shr_length : (shr k s xs).length = xs.length := by
  simp [shr]
  omega

def incr : List UInt32 → List UInt32
  | [] => []
  | x :: xs => if x + 1 = 0 then (x + 1) :: incr xs else (x + 1) :: xs

@[simp] theorem incr_length : (incr xs).length = xs.length := by
  induction xs with
  | nil => rfl
  | cons x xs ih => rw [incr]; split <;> simp [ih]

theorem incr_value : value (incr xs) = (value xs + 1) % 2 ^ (32 * xs.length) := by
  induction xs with
  | nil => simp [incr]
  | cons x xs ih =>
    have hx := x.toNat_lt
    have next : (x + 1).toNat = (x.toNat + 1) % 2 ^ 32 := by simp [UInt32.toNat_add]
    rw [incr, length_cons, value_cons]
    split
    next wraps =>
      have full : x.toNat + 1 = 2 ^ 32 := by
        rw [wraps] at next
        simp at next
        omega
      rw [value_cons, ih, wraps, ← mod_word (UInt32.toNat_lt 0), UInt32.toNat_zero]
      congr 1
      omega
    next stays =>
      have less : x.toNat + 1 < 2 ^ 32 := by
        by_contra full
        exact stays (UInt32.toNat_inj.mp (by rw [next, UInt32.toNat_zero]; omega))
      rw [value_cons, next, mod_eq_of_lt less, add_right_comm _ (2 ^ 32 * _), mod_word less,
        mod_eq_of_lt (value_lt xs)]

theorem complement_value : value (xs.map (~~~ ·)) + value xs + 1 = 2 ^ (32 * xs.length) := by
  induction xs with
  | nil => simp
  | cons x xs ih =>
    have hx := x.toNat_lt
    have flip : (~~~x).toNat = 2 ^ 32 - 1 - x.toNat := by
      rw [UInt32.toNat_not]
      rfl
    rw [map_cons, value_cons, value_cons, flip, length_cons, mul_succ,
      add_comm (32 * xs.length), pow_add, ← ih]
    omega

def neg : List UInt32 := incr (xs.map (~~~ ·))

end

@[simp] theorem neg_length : (neg xs).length = xs.length := by
  simp [neg]

theorem sub_value (size : xs.length = ys.length) :
    (value (add xs (neg ys)) : Int) = ((value xs : Int) - value ys) % 2 ^ (32 * xs.length) := by
  have flip := complement_value ys
  rw [add_value xs _ (by simp [size]), neg, incr_value, length_map, size,
    show value (ys.map (~~~ ·)) + 1 = 2 ^ (32 * ys.length) - value ys by omega, add_mod_mod]
  push_cast [show value ys ≤ 2 ^ (32 * ys.length) by omega]
  rw [← Int.add_emod_right ((value xs : Int) - value ys)]
  congr 1
  ring

def compareTo : List UInt32 → List UInt32 → Ordering
  | x :: xs, y :: ys => (compareTo xs ys).then (compare x y)
  | _, _ => .eq

theorem compareTo_value (size : xs.length = ys.length) :
    compareTo xs ys = compare (value xs) (value ys) := by
  induction xs generalizing ys with
  | nil => cases ys <;> simp_all [compareTo]
  | cons x xs ih =>
    cases ys with
    | nil => simp at size
    | cons y ys =>
      have hx := x.toNat_lt
      have hy := y.toNat_lt
      have words : compare x y = compare x.toNat y.toNat := by
        simp only [compare, compareOfLessAndEq, UInt32.lt_iff_toNat_lt, UInt32.toNat_inj.symm]
      rw [compareTo, ih ys (by simpa using size), words, value_cons, value_cons]
      simp only [compare_eq_ite_lt]
      split_ifs <;> first | rfl | omega

/-- Position plus one of the highest set bit of a nonzero word, scanning down from bit `n`. -/
def wordBits : Nat → UInt32 → Nat
  | 0, _ => 1
  | n + 1, x => if x &&& (1 <<< UInt32.ofNat (n + 1)) ≠ 0 then n + 2 else wordBits n x

def bits : List UInt32 → Nat
  | [] => 0
  | x :: xs =>
    match bits xs with
    | 0 => if x ≠ 0 then wordBits 31 x else 0
    | n + 1 => 32 + (n + 1)

theorem toNat_one_shl (m : Nat) (small : m < 32) : (1 <<< UInt32.ofNat m : UInt32).toNat = 2 ^ m := by
  have index : (UInt32.ofNat m).toNat = m := by simp; omega
  have fits : 2 ^ m < 2 ^ 32 := Nat.pow_lt_pow_right (by norm_num) small
  rw [UInt32.toNat_shiftLeft, index, Nat.mod_eq_of_lt small, Nat.shiftLeft_eq]
  simpa using fits

theorem testBit_word (m : Nat) (small : m < 32) :
    x &&& (1 <<< UInt32.ofNat m) ≠ 0 ↔ x.toNat.testBit m = true := by
  rw [Ne, ← UInt32.toNat_inj, UInt32.toNat_and, toNat_one_shl m small, and_two_pow]
  cases x.toNat.testBit m <;> simp

theorem wordBits_size (n : Nat) (x : UInt32) (small : n < 32) (nonzero : x ≠ 0)
    (bound : x.toNat < 2 ^ (n + 1)) : wordBits n x = Nat.size x.toNat := by
  have positive : x.toNat ≠ 0 := fun h => nonzero (UInt32.toNat_inj.mp (by simpa using h))
  induction n with
  | zero =>
    have one : x.toNat = 1 := by omega
    rw [one]
    rfl
  | succ n ih =>
    rw [wordBits]
    split
    next set =>
      have above := ge_two_pow_of_testBit ((testBit_word x (n + 1) small).mp set)
      exact le_antisymm (lt_size.mpr above) (size_le.mpr bound)
    next clear =>
      refine ih (by omega) (not_le.mp fun above => clear ?_)
      exact (testBit_word x (n + 1) small).mpr
        (testBit_of_two_pow_le_and_two_pow_add_one_gt above bound)

theorem size_word_add (v : Nat) (positive : v ≠ 0) :
    Nat.size (x.toNat + 2 ^ 32 * v) = 32 + Nat.size v := by
  have hx := x.toNat_lt
  have above : v < 2 ^ Nat.size v := size_le.mp le_rfl
  have size : 0 < Nat.size v := size_pos.mpr (pos_of_ne_zero positive)
  have below : 2 ^ (Nat.size v - 1) ≤ v := lt_size.mp (by omega)
  apply le_antisymm
  · rw [size_le, pow_add]
    generalize 2 ^ Nat.size v = m at *
    omega
  · have : 32 + Nat.size v - 1 < Nat.size (x.toNat + 2 ^ 32 * v) := by
      rw [lt_size, show 32 + Nat.size v - 1 = 32 + (Nat.size v - 1) by omega, pow_add]
      generalize 2 ^ (Nat.size v - 1) = m at *
      omega
    omega

theorem bits_size : bits xs = Nat.size (value xs) := by
  induction xs with
  | nil => simp [bits]
  | cons x xs ih =>
    rw [bits, value_cons]
    split
    next zero =>
      have none : value xs = 0 := by
        rw [ih] at zero
        exact size_eq_zero.mp zero
      rw [none, mul_zero, add_zero]
      split
      next nonzero =>
        exact wordBits_size 31 x (by norm_num) nonzero x.toNat_lt
      next empty =>
        rw [not_not.mp empty]
        rfl
    next n some =>
      rw [some] at ih
      have positive : value xs ≠ 0 := fun h => by simp [h] at ih
      rw [size_word_add x _ positive, ← ih]

def setBit (xs : List UInt32) (i : Nat) : List UInt32 :=
  xs.modify (i / 32) (· ||| (1 <<< UInt32.ofNat (i % 32)))

@[simp] theorem setBit_length (i : Nat) : (setBit xs i).length = xs.length := by
  simp [setBit]

theorem setBit_value (i : Nat) (inside : i < 32 * xs.length) (clear : value xs % 2 ^ (i + 1) = 0) :
    value (setBit xs i) = value xs + 2 ^ i := by
  induction xs generalizing i with
  | nil => simp at inside
  | cons x xs ih =>
    have hx := x.toNat_lt
    rw [value_cons] at clear
    by_cases low : i < 32
    · have index : i / 32 = 0 := by omega
      have whole : 2 ^ 32 = 2 ^ (i + 1) * 2 ^ (31 - i) := by
        rw [← pow_add]
        congr 1
        omega
      rw [whole, Nat.mul_assoc, Nat.add_mul_mod_self_left] at clear
      obtain ⟨m, word⟩ := Nat.dvd_of_mod_eq_zero clear
      have less : 2 ^ i < 2 ^ (i + 1) := Nat.pow_lt_pow_right (by norm_num) (by omega)
      rw [setBit, index, modify_zero_cons, value_cons, value_cons, UInt32.toNat_or,
        Nat.mod_eq_of_lt low, toNat_one_shl i low, word, ← Nat.two_pow_add_eq_or_of_lt less]
      ring
    · have index : i / 32 = (i - 32) / 32 + 1 := by omega
      have offset : i % 32 = (i - 32) % 32 := by omega
      rw [show i + 1 = 32 + (i - 32 + 1) by omega, pow_add, Nat.mod_mul] at clear
      have word : x.toNat = 0 := by omega
      have rest : value xs % 2 ^ (i - 32 + 1) = 0 := by
        rw [word, Nat.zero_add, Nat.mul_div_cancel_left _ (by norm_num)] at clear
        omega
      have tail := ih (i - 32) (by simp at inside; omega) rest
      rw [setBit] at tail
      rw [setBit, index, offset, modify_succ_cons, value_cons, value_cons, tail,
        Nat.mul_add, ← pow_add, show 32 + (i - 32) = i by omega]
      ring

end Limbs
