import Mathlib.Data.Nat.Bitwise
import Mathlib.Tactic.Ring

/-! Numbers as strings of bits, the most significant bit first. -/
namespace BitString

open List Nat

def bits : Nat → Nat → List Bool
  | 0, _ => []
  | n + 1, x => x.testBit n :: bits n x

@[simp] theorem bits_length (n x : Nat) : (bits n x).length = n := by
  induction n with
  | zero => rfl
  | succ n ih => rw [bits, length_cons, ih]

theorem bits_append (m n x : Nat) {y : Nat} (small : y < 2 ^ n) :
    bits (m + n) (2 ^ n * x + y) = bits m x ++ bits n y := by
  have low {k : Nat} (bound : k ≤ n) : bits k (2 ^ n * x + y) = bits k y := by
    induction k with
    | zero => rfl
    | succ k ih =>
      rw [bits, bits, ih (by omega), Nat.testBit_two_pow_mul_add x small, if_pos (by omega)]
  induction m with
  | zero =>
    rw [Nat.zero_add]
    exact low (Nat.le_refl n)
  | succ m ih =>
    have top : (2 ^ n * x + y).testBit (m + n) = x.testBit m := by
      rw [Nat.testBit_two_pow_mul_add x small, if_neg (by omega), Nat.add_sub_cancel]
    rw [Nat.succ_add, bits, bits, top, ih, List.cons_append]

theorem bits_mod (n x : Nat) : bits n (x % 2 ^ n) = bits n x := by
  have whole := bits_append 0 n (x / 2 ^ n) (Nat.mod_lt x (Nat.two_pow_pos n))
  rw [Nat.div_add_mod, Nat.zero_add] at whole
  exact whole.symm

theorem bits_split {k n : Nat} (bound : k ≤ n) (x : Nat) :
    bits n x = bits k (x / 2 ^ (n - k)) ++ bits (n - k) x := by
  have whole := bits_append k (n - k) (x / 2 ^ (n - k))
    (Nat.mod_lt x (Nat.two_pow_pos (n - k)))
  rw [Nat.div_add_mod, bits_mod, Nat.add_sub_cancel' bound] at whole
  exact whole

theorem mod_eq_of_bits {n x y : Nat} (same : bits n x = bits n y) : x % 2 ^ n = y % 2 ^ n := by
  induction n with
  | zero => rw [pow_zero, mod_one, mod_one]
  | succ n ih =>
    rw [bits, bits, List.cons.injEq, testBit_eq_decide_div_mod_eq,
      testBit_eq_decide_div_mod_eq, decide_eq_decide] at same
    have top : x / 2 ^ n % 2 = y / 2 ^ n % 2 := by omega
    rw [pow_succ, mod_mul, mod_mul, ih same.2, top]

theorem bits_ones {k n : Nat} (bound : k ≤ n) : bits k (2 ^ n - 1) = replicate k true := by
  induction k with
  | zero => rfl
  | succ k ih =>
    have set : (2 ^ n - 1).testBit k = true := by
      rw [testBit_two_pow_sub_one, decide_eq_true_eq]
      omega
    rw [bits, set, ih (by omega), replicate_succ]

def packed (bytes : List UInt8) : List Bool := bytes.flatMap fun byte => bits 8 byte.toNat

theorem packed_cons (byte : UInt8) (bytes : List UInt8) :
    packed (byte :: bytes) = bits 8 byte.toNat ++ packed bytes := flatMap_cons

@[simp] theorem packed_length (bytes : List UInt8) : (packed bytes).length = 8 * bytes.length := by
  induction bytes with
  | nil => rfl
  | cons byte bytes ih =>
    rw [packed_cons, length_append, bits_length, ih, length_cons]
    omega

theorem packed_append (bytes rest : List UInt8) :
    packed (bytes ++ rest) = packed bytes ++ packed rest := flatMap_append

end BitString
