import Qogecoin.Library.Limbs

/-! `base_uint` and `arith_uint256`: fixed-width unsigned integers on 32-bit words, and the
compact encoding of difficulty targets. A thrown `uint_error` and a failed `assert` are `none`. -/
namespace Qogecoin.Arith

open Limbs List Nat

structure BaseUint (width : Nat) where
  pn : List UInt32
  size : pn.length = width
deriving DecidableEq, Repr

namespace BaseUint

variable {width : Nat}

variable (a : BaseUint width)

def toNat : Nat := Limbs.value a.pn

theorem toNat_lt : a.toNat < 2 ^ (32 * width) := by
  have bound := value_lt a.pn
  rwa [a.size] at bound

variable (a b : BaseUint width)

theorem toNat_injective (same : a.toNat = b.toNat) : a = b := by
  cases a with
  | mk xs hx =>
    cases b with
    | mk ys hy =>
      congr
      exact value_injective xs ys (by rw [hx, hy]) same

def zero : BaseUint width := ⟨replicate width 0, by simp⟩

def ofUInt64 (b : UInt64) : BaseUint (width + 2) :=
  ⟨b.toUInt32 :: (b >>> 32).toUInt32 :: replicate width 0, by simp⟩

def shl (shift : Nat) : BaseUint width :=
  ⟨Limbs.shl (shift / 32) (.ofNat (shift % 32)) a.pn, by simp [a.size]⟩

def shr (shift : Nat) : BaseUint width :=
  ⟨Limbs.shr (shift / 32) (.ofNat (shift % 32)) a.pn, by simp [a.size]⟩

variable (a b : BaseUint width)

def add (a b : BaseUint width) : BaseUint width :=
  ⟨Limbs.add a.pn b.pn, by simp [a.size, b.size]⟩

def sub : BaseUint width :=
  ⟨Limbs.add a.pn (Limbs.neg b.pn), by simp [a.size, b.size]⟩

def mulUInt32 (b32 : UInt32) : BaseUint width :=
  ⟨mulRow b32 (replicate width 0) a.pn, by simp [a.size]⟩

def mul : BaseUint width :=
  ⟨mulRows a.pn (replicate width 0) b.pn, by
    rw [mulRows_length _ _ _ (by simp [b.size]), length_replicate]⟩

def compareTo (a b : BaseUint width) : Ordering := Limbs.compareTo a.pn b.pn

def bits : Nat := Limbs.bits a.pn

def setBit (i : Nat) : BaseUint width :=
  ⟨Limbs.setBit a.pn i, by simp [a.size]⟩

/-- The shift-and-subtract loop of `operator/=`, entered with `n` more bits to decide. -/
def divLoop : Nat → BaseUint width → BaseUint width → BaseUint width → BaseUint width
  | 0, _, _, quotient => quotient
  | n + 1, num, div, quotient =>
    if (num.compareTo div).isGE then
      divLoop n (num.sub div) (div.shr 1) (quotient.setBit n)
    else
      divLoop n num (div.shr 1) quotient

def div : Option (BaseUint width) :=
  if b.bits = 0 then none
  else if b.bits > a.bits then some zero
  else
    let shift := a.bits - b.bits
    some (divLoop (shift + 1) a (b.shl shift) zero)

def getLow64 : UInt64 :=
  (a.pn.getD 0 0).toUInt64 ||| (a.pn.getD 1 0).toUInt64 <<< 32

@[simp] theorem zero_toNat : (zero : BaseUint width).toNat = 0 := by
  simp [toNat, zero]

@[simp] theorem ofUInt64_toNat (b : UInt64) : (ofUInt64 b : BaseUint (width + 2)).toNat = b.toNat := by
  have hb := b.toNat_lt
  have high : (b >>> 32).toUInt32.toNat = b.toNat / 2 ^ 32 := by
    simp [UInt64.toNat_shiftRight, shiftRight_eq_div_pow]
    omega
  rw [toNat, ofUInt64, value_cons, value_cons, value_zeros, high,
    UInt64.toNat_toUInt32]
  omega

theorem shift_word (shift : Nat) : (UInt32.ofNat (shift % 32)).toNat = shift % 32 := by
  simp
  omega

theorem shl_toNat (shift : Nat) : (a.shl shift).toNat = a.toNat * 2 ^ shift % 2 ^ (32 * width) := by
  rw [toNat, shl, Limbs.shl_value _ _ _ (by rw [shift_word]; omega), shift_word, Nat.div_add_mod,
    a.size, toNat]

theorem shr_toNat (shift : Nat) : (a.shr shift).toNat = a.toNat / 2 ^ shift := by
  rw [toNat, shr, Limbs.shr_value _ _ _ (by rw [shift_word]; omega), shift_word, Nat.div_add_mod,
    toNat]

theorem add_toNat : (a.add b).toNat = (a.toNat + b.toNat) % 2 ^ (32 * width) := by
  rw [toNat, add, add_value _ _ (by rw [a.size, b.size]), a.size, toNat, toNat]

theorem sub_toInt : ((a.sub b).toNat : Int) = ((a.toNat : Int) - b.toNat) % 2 ^ (32 * width) := by
  rw [toNat, sub, Limbs.sub_value _ _ (by rw [a.size, b.size]), a.size, toNat, toNat]

theorem sub_toNat (ordered : b.toNat ≤ a.toNat) : (a.sub b).toNat = a.toNat - b.toNat := by
  have exact_value := sub_toInt a b
  have bound : (a.toNat : Int) < 2 ^ (32 * width) := mod_cast a.toNat_lt
  rw [Int.emod_eq_of_lt (by omega) (by omega)] at exact_value
  omega

theorem mulUInt32_toNat (b32 : UInt32) :
    (a.mulUInt32 b32).toNat = a.toNat * b32.toNat % 2 ^ (32 * width) := by
  rw [toNat, mulUInt32, mulRow_value _ _ _ (by simp [a.size]), value_zeros,
    length_replicate, zero_add, mul_comm, toNat]

theorem mul_toNat : (a.mul b).toNat = a.toNat * b.toNat % 2 ^ (32 * width) := by
  rw [toNat, mul, mulRows_value _ _ _ (by simp [b.size]), value_zeros,
    length_replicate, zero_add, toNat, toNat]

theorem compareTo_toNat : a.compareTo b = compare a.toNat b.toNat :=
  Limbs.compareTo_value a.pn b.pn (by rw [a.size, b.size])

theorem compareTo_isGE : (a.compareTo b).isGE = true ↔ b.toNat ≤ a.toNat := by
  rw [compareTo_toNat, Ordering.isGE_iff_ne_lt, compare_lt_iff_lt, not_lt]

theorem compareTo_isGT : (a.compareTo b).isGT = true ↔ b.toNat < a.toNat := by
  rw [compareTo_toNat, Ordering.isGT_iff_eq_gt, compare_gt_iff_gt]

theorem bits_toNat : a.bits = Nat.size a.toNat := Limbs.bits_size a.pn

theorem lt_bits : a.toNat < 2 ^ a.bits :=
  Nat.size_le.mp (bits_toNat a).ge

theorem bits_le : a.bits ≤ 32 * width := by
  rw [bits_toNat, Nat.size_le]
  exact a.toNat_lt

theorem setBit_toNat (i : Nat) (inside : i < 32 * width)
    (clear : a.toNat % 2 ^ (i + 1) = 0) : (a.setBit i).toNat = a.toNat + 2 ^ i :=
  Limbs.setBit_value a.pn i (by rwa [a.size]) clear

/-- The loop invariant of long division: `div` is the divisor shifted to bit `n - 1`, `num` is
below the divisor shifted to bit `n`, and the low `n` bits of the quotient are still clear. -/
theorem divLoop_toNat (n d : Nat) (num div quotient : BaseUint width) (positive : 0 < d)
    (inside : n ≤ 32 * width) (aligned : div.toNat = d * 2 ^ n / 2) (bound : num.toNat < d * 2 ^ n)
    (clear : quotient.toNat % 2 ^ n = 0) :
    (divLoop n num div quotient).toNat = quotient.toNat + num.toNat / d := by
  induction n generalizing num div quotient with
  | zero =>
    rw [divLoop, Nat.div_eq_of_lt (by simpa using bound), Nat.add_zero]
  | succ n ih =>
    rw [pow_succ, ← Nat.mul_assoc, Nat.mul_div_cancel _ (by norm_num)] at aligned
    rw [pow_succ, ← Nat.mul_assoc] at bound
    have halved : (div.shr 1).toNat = d * 2 ^ n / 2 := by rw [shr_toNat, aligned, pow_one]
    have lowClear : quotient.toNat % 2 ^ n = 0 :=
      Nat.mod_eq_zero_of_dvd
        (dvd_trans (pow_dvd_pow 2 (Nat.le_succ n)) (Nat.dvd_of_mod_eq_zero clear))
    rw [divLoop]
    split
    next large =>
      rw [compareTo_isGE, aligned] at large
      have rest : (num.sub div).toNat = num.toNat - d * 2 ^ n := by
        rw [sub_toNat _ _ (by omega), aligned]
      have marked := setBit_toNat quotient n (by omega) clear
      rw [ih _ _ _ (by omega) halved (by omega) (by rw [marked, Nat.add_mod_right, lowClear]),
        marked, rest, Nat.add_assoc]
      congr 1
      rw [Nat.sub_mul_div]
      have whole : 2 ^ n ≤ num.toNat / d := by
        rw [Nat.le_div_iff_mul_le positive, Nat.mul_comm]
        exact large
      omega
    next small =>
      rw [compareTo_isGE, aligned, not_le] at small
      exact ih _ _ _ (by omega) halved small lowClear

theorem div_toNat (nonzero : 0 < b.toNat) :
    ∃ q, a.div b = some q ∧ q.toNat = a.toNat / b.toNat := by
  have positive : 0 < b.bits := by
    rw [bits_toNat]
    exact Nat.size_pos.mpr nonzero
  have lower : 2 ^ (b.bits - 1) ≤ b.toNat :=
    Nat.lt_size.mp (by rw [← bits_toNat]; omega)
  have inside := bits_le a
  rw [div, if_neg (by omega)]
  split
  next small =>
    refine ⟨zero, rfl, ?_⟩
    have less : a.toNat < b.toNat :=
      calc a.toNat < 2 ^ a.bits := a.lt_bits
        _ ≤ 2 ^ (b.bits - 1) := Nat.pow_le_pow_right (by norm_num) (by omega)
        _ ≤ b.toNat := lower
    rw [zero_toNat, Nat.div_eq_of_lt less]
  next large =>
    refine ⟨_, rfl, ?_⟩
    have fits : b.toNat * 2 ^ (a.bits - b.bits) < 2 ^ (32 * width) :=
      calc b.toNat * 2 ^ (a.bits - b.bits) < 2 ^ b.bits * 2 ^ (a.bits - b.bits) :=
            Nat.mul_lt_mul_of_pos_right b.lt_bits (by positivity)
        _ = 2 ^ a.bits := by rw [← pow_add, Nat.add_sub_cancel' (not_lt.mp large)]
        _ ≤ 2 ^ (32 * width) := Nat.pow_le_pow_right (by norm_num) inside
    have bound : a.toNat < b.toNat * 2 ^ (a.bits - b.bits + 1) :=
      calc a.toNat < 2 ^ a.bits := a.lt_bits
        _ = 2 ^ (b.bits - 1) * 2 ^ (a.bits - b.bits + 1) := by
          rw [← pow_add]
          congr 1
          omega
        _ ≤ b.toNat * 2 ^ (a.bits - b.bits + 1) := Nat.mul_le_mul_right _ lower
    rw [divLoop_toNat _ b.toNat _ _ _ nonzero (by omega) _ bound (by simp), zero_toNat,
      Nat.zero_add]
    rw [shl_toNat, Nat.mod_eq_of_lt fits, pow_succ, ← Nat.mul_assoc,
      Nat.mul_div_cancel _ (by norm_num)]

end BaseUint

open BaseUint

abbrev ArithUint256 := BaseUint 8

structure Compact where
  bn : ArithUint256
  fNegative : Bool
  fOverflow : Bool
deriving DecidableEq, Repr

def setCompact (nCompact : UInt32) : Compact :=
  let nSize := (nCompact >>> 24).toNat
  let nWord := nCompact &&& 0x007fffff
  let nWord := if nSize ≤ 3 then nWord >>> .ofNat (8 * (3 - nSize)) else nWord
  let bn : ArithUint256 := ofUInt64 nWord.toUInt64
  { bn := if nSize ≤ 3 then bn else bn.shl (8 * (nSize - 3))
    fNegative := nWord ≠ 0 && (nCompact &&& 0x00800000) ≠ 0
    fOverflow := nWord ≠ 0 && (nSize > 34 || (nWord > 0xff && nSize > 33) ||
      (nWord > 0xffff && nSize > 32)) }

def getCompact (a : ArithUint256) (fNegative : Bool) : Option UInt32 :=
  let nSize := (a.bits + 7) / 8
  let nCompact :=
    if nSize ≤ 3 then (a.getLow64 <<< .ofNat (8 * (3 - nSize))).toUInt32
    else (a.shr (8 * (nSize - 3))).getLow64.toUInt32
  -- the sign bit must stay clear, so a mantissa that reaches it is divided by 256
  let carries := nCompact &&& 0x00800000 ≠ 0
  let nSize := if carries then nSize + 1 else nSize
  let nCompact := if carries then nCompact >>> 8 else nCompact
  if nCompact &&& ~~~0x007fffff ≠ 0 then none
  else if ¬ nSize < 256 then none
  else
    let nCompact := nCompact ||| (UInt32.ofNat nSize <<< 24)
    some (nCompact ||| if fNegative ∧ nCompact &&& 0x007fffff ≠ 0 then 0x00800000 else 0)

variable (a : ArithUint256) (c : UInt32)

theorem getLow64_toNat : a.getLow64.toNat = a.toNat % 2 ^ 64 := by
  obtain ⟨pn, size⟩ := a
  match pn, size with
  | x :: y :: rest, _ =>
    have hx := x.toNat_lt
    have hy := y.toNat_lt
    have high : (y.toUInt64 <<< 32).toNat = 2 ^ 32 * y.toNat := by
      simp [UInt64.toNat_shiftLeft, Nat.shiftLeft_eq]
      omega
    simp only [getLow64, BaseUint.toNat, List.getD_cons_zero, List.getD_cons_succ, UInt64.toNat_or, high,
      UInt32.toNat_toUInt64, Limbs.value_cons]
    rw [Nat.or_comm, ← Nat.two_pow_add_eq_or_of_lt hx]
    omega

theorem two_pow_bytes (k : Nat) : 2 ^ (8 * k) = 256 ^ k := by
  rw [pow_mul]
  norm_num

theorem lt_bytes {nSize : Nat} (size : nSize = (a.bits + 7) / 8) : a.toNat < 256 ^ nSize :=
  calc a.toNat < 2 ^ a.bits := a.lt_bits
    _ ≤ 2 ^ (8 * nSize) := Nat.pow_le_pow_right (by norm_num) (by omega)
    _ = 256 ^ nSize := two_pow_bytes nSize

def encodeNat (s v : Nat) : Nat := if s ≤ 3 then v * 256 ^ (3 - s) else v / 256 ^ (s - 3)

def decodeNat (s m : Nat) : Nat := if s ≤ 3 then m / 256 ^ (3 - s) else m * 256 ^ (s - 3)

theorem word_size : (c >>> 24).toNat = c.toNat / 2 ^ 24 := by
  simp [UInt32.toNat_shiftRight, shiftRight_eq_div_pow]

theorem word_mantissa : (c &&& 0x007fffff).toNat = c.toNat % 2 ^ 23 := by
  rw [UInt32.toNat_and]
  exact and_two_pow_sub_one_eq_mod c.toNat 23

theorem setCompact_toNat :
    (setCompact c).bn.toNat = decodeNat (c.toNat / 2 ^ 24) (c.toNat % 2 ^ 23) % 2 ^ 256 := by
  simp only [setCompact, decodeNat, word_size]
  split_ifs with small
  · have shift : (UInt32.ofNat (8 * (3 - c.toNat / 2 ^ 24))).toNat = 8 * (3 - c.toNat / 2 ^ 24) := by
      simp
      omega
    rw [ofUInt64_toNat, UInt32.toNat_toUInt64, toNat_shr _ _ (by omega), shift, word_mantissa,
      two_pow_bytes]
    refine (mod_eq_of_lt (lt_of_le_of_lt (div_le_self _ _) ?_)).symm
    omega
  · rw [shl_toNat, ofUInt64_toNat, UInt32.toNat_toUInt64, word_mantissa, two_pow_bytes]

theorem getCompact_mantissa (nSize : Nat) (size : nSize = (a.bits + 7) / 8) :
    (if nSize ≤ 3 then (a.getLow64 <<< .ofNat (8 * (3 - nSize))).toUInt32
      else (a.shr (8 * (nSize - 3))).getLow64.toUInt32).toNat = encodeNat nSize a.toNat ∧
      encodeNat nSize a.toNat < 2 ^ 24 := by
  have upper := lt_bytes a size
  rw [encodeNat]
  split
  next small =>
    have whole : 256 ^ nSize * 256 ^ (3 - nSize) = 2 ^ 24 := by
      rw [← pow_add, Nat.add_sub_cancel' small]
      norm_num
    have bound : a.toNat * 256 ^ (3 - nSize) < 2 ^ 24 := by
      rw [← whole]
      exact Nat.mul_lt_mul_of_pos_right upper (by positivity)
    have low : a.toNat < 2 ^ 64 :=
      lt_of_lt_of_le upper (le_trans (Nat.pow_le_pow_right (by norm_num) small) (by norm_num))
    have shift : (UInt64.ofNat (8 * (3 - nSize))).toNat = 8 * (3 - nSize) := by
      simp
      omega
    refine ⟨?_, bound⟩
    rw [UInt64.toNat_toUInt32, UInt64.toNat_shiftLeft, shift, getLow64_toNat,
      Nat.mod_eq_of_lt low, Nat.mod_eq_of_lt (a := 8 * (3 - nSize)) (by omega), Nat.shiftLeft_eq,
      two_pow_bytes]
    omega
  next large =>
    have bound : a.toNat / 256 ^ (nSize - 3) < 2 ^ 24 := by
      rw [Nat.div_lt_iff_lt_mul (by positivity), show (2 : Nat) ^ 24 = 256 ^ 3 by norm_num,
        ← pow_add, Nat.add_sub_cancel' (by omega)]
      exact upper
    refine ⟨?_, bound⟩
    rw [UInt64.toNat_toUInt32, getLow64_toNat, shr_toNat, two_pow_bytes]
    generalize a.toNat / 256 ^ (nSize - 3) = m at bound ⊢
    omega

theorem sign_bit (n : UInt32) (small : n.toNat < 2 ^ 24) :
    n &&& 0x00800000 ≠ 0 ↔ 2 ^ 23 ≤ n.toNat := by
  have word := testBit_word n 23 (by norm_num)
  rw [show (1 <<< UInt32.ofNat 23 : UInt32) = 0x00800000 by decide] at word
  rw [word]
  exact ⟨ge_two_pow_of_testBit,
    fun above => testBit_of_two_pow_le_and_two_pow_add_one_gt above small⟩

theorem high_bits_clear (n : UInt32) (small : n.toNat < 2 ^ 23) : n &&& ~~~0x007fffff = 0 := by
  rw [← UInt32.toNat_inj, UInt32.toNat_and, show (~~~0x007fffff : UInt32).toNat = 2 ^ 23 * 511 by
    decide]
  apply Nat.eq_of_testBit_eq
  intro i
  rw [Nat.testBit_and, Nat.testBit_two_pow_mul]
  by_cases low : i < 23
  · simp [not_le.mpr low]
  · have above : n.toNat < 2 ^ i :=
      lt_of_lt_of_le small (Nat.pow_le_pow_right (by norm_num) (by omega))
    simp [Nat.testBit_eq_false_of_lt above]

/-- `GetCompact` never fails its assertions; the word it returns splits into the exponent and
the mantissa, which is divided by 256 once more when it reaches the sign bit. -/
theorem getCompact_word (nSize m : Nat) (size : nSize = (a.bits + 7) / 8)
    (mantissa : m = encodeNat nSize a.toNat) :
    ∃ c, getCompact a false = some c ∧
      c.toNat = if 2 ^ 23 ≤ m then 2 ^ 24 * (nSize + 1) + m / 256 else 2 ^ 24 * nSize + m := by
  obtain ⟨word, small⟩ := getCompact_mantissa a nSize size
  have bits := bits_le a
  rw [← mantissa] at word small
  simp only [getCompact, ← size]
  generalize (if nSize ≤ 3 then (a.getLow64 <<< .ofNat (8 * (3 - nSize))).toUInt32
      else (a.shr (8 * (nSize - 3))).getLow64.toUInt32) = n at word
  have sign := sign_bit n (by omega)
  rw [word] at sign
  have compose : ∀ (n : UInt32) (e : Nat), n.toNat < 2 ^ 23 → e < 256 →
      (n ||| (UInt32.ofNat e <<< 24) ||| 0).toNat = 2 ^ 24 * e + n.toNat := by
    intro n e hn he
    have shifted : (UInt32.ofNat e <<< 24).toNat = 2 ^ 24 * e := by
      simp [UInt32.toNat_shiftLeft, Nat.shiftLeft_eq]
      omega
    rw [UInt32.or_zero, UInt32.toNat_or, shifted, Nat.or_comm,
      ← Nat.two_pow_add_eq_or_of_lt (by omega)]
  by_cases carries : 2 ^ 23 ≤ m
  · have shifted : (n >>> 8).toNat = m / 256 := by
      rw [Limbs.toNat_shr _ _ (by decide), word]
      rfl
    simp only [sign, carries, if_true, high_bits_clear _ (show (n >>> 8).toNat < 2 ^ 23 by omega),
      ne_eq, not_true_eq_false, if_false, show nSize + 1 < 256 by omega, Bool.false_eq_true,
      false_and]
    exact ⟨_, rfl, by rw [compose _ _ (by omega) (by omega), shifted]⟩
  · simp only [sign, carries, if_false, high_bits_clear n (by omega), ne_eq, not_true_eq_false,
      show nSize < 256 by omega, Bool.false_eq_true, false_and]
    exact ⟨_, rfl, by rw [compose _ _ (by omega) (by omega), word]⟩

/-- Decoding an encoded target clears its low `e` bytes, where `e` is the least number of bytes
whose removal leaves a 23-bit mantissa. -/
structure Rounds (v e r : Nat) : Prop where
  value : r = v / 256 ^ e * 256 ^ e
  fits : v < 2 ^ 23 * 256 ^ e
  least : e = 0 ∨ 2 ^ 15 * 256 ^ e ≤ v

theorem Rounds.le {v e r : Nat} (rounds : Rounds v e r) : r ≤ v := by
  rw [rounds.value]
  exact div_mul_le_self v (256 ^ e)

theorem Rounds.mono {v w e f r t : Nat} (first : Rounds v e r) (second : Rounds w f t)
    (ordered : v ≤ w) : r ≤ t := by
  rcases lt_trichotomy e f with less | same | more
  · have reach := second.least.resolve_left (by omega)
    have kept : 2 ^ 15 * 256 ^ f ≤ t := by
      rw [second.value]
      exact Nat.mul_le_mul_right _ ((Nat.le_div_iff_mul_le (by positivity)).mpr reach)
    have step : 256 ^ (e + 1) ≤ 256 ^ f := Nat.pow_le_pow_right (by norm_num) less
    have low := first.le
    have fits := first.fits
    rw [pow_succ] at step
    omega
  · subst same
    rw [first.value, second.value]
    exact Nat.mul_le_mul_right _ (Nat.div_le_div_right ordered)
  · have reach := first.least.resolve_left (by omega)
    have step : 256 ^ (f + 1) ≤ 256 ^ e := Nat.pow_le_pow_right (by norm_num) more
    have fits := second.fits
    rw [pow_succ] at step
    omega

theorem decodeNat_round (v nSize m : Nat) (upper : v < 256 ^ nSize)
    (lower : nSize = 0 ∨ 256 ^ (nSize - 1) ≤ v)
    (mantissa : m = encodeNat nSize v) :
    ∃ e, Rounds v e (if 2 ^ 23 ≤ m then decodeNat (nSize + 1) (m / 256) else decodeNat nSize m) := by
  rw [encodeNat] at mantissa
  by_cases small : nSize ≤ 3
  · rw [if_pos small] at mantissa
    interval_cases nSize
    · exact ⟨0, by norm_num at upper; subst upper; simp [mantissa, decodeNat], by simp_all, .inl rfl⟩
    · refine ⟨0, ?_, by norm_num at upper ⊢; omega, .inl rfl⟩
      norm_num [decodeNat] at mantissa ⊢
      split <;> omega
    · refine ⟨0, ?_, by norm_num at upper ⊢; omega, .inl rfl⟩
      norm_num [decodeNat] at mantissa ⊢
      omega
    · norm_num [decodeNat] at mantissa upper ⊢
      subst mantissa
      split
      next carries =>
        exact ⟨1, by norm_num, by norm_num; omega, .inr (by norm_num; omega)⟩
      next stays =>
        exact ⟨0, by norm_num, by norm_num; omega, .inl rfl⟩
  · rw [if_neg small] at mantissa
    have whole : 256 ^ nSize = 2 ^ 24 * 256 ^ (nSize - 3) := by
      rw [show (2 : Nat) ^ 24 = 256 ^ 3 by norm_num, ← pow_add]
      congr 1
      omega
    have second : 256 ^ (nSize - 2) = 256 * 256 ^ (nSize - 3) := by
      rw [show nSize - 2 = nSize - 3 + 1 by omega, pow_succ, Nat.mul_comm]
    have third : 256 ^ (nSize - 1) = 2 ^ 16 * 256 ^ (nSize - 3) := by
      rw [show (2 : Nat) ^ 16 = 256 ^ 2 by norm_num, ← pow_add]
      congr 1
      omega
    have positive : 0 < 256 ^ (nSize - 3) := by positivity
    have parts := Nat.div_add_mod v (256 ^ (nSize - 3))
    rw [← mantissa] at parts
    split
    next carries =>
      refine ⟨nSize - 2, ?_, ?_, .inr ?_⟩
      · rw [decodeNat, if_neg (by omega), mantissa, Nat.div_div_eq_div_mul,
          Nat.mul_comm (256 ^ (nSize - 3)), ← second, show nSize + 1 - 3 = nSize - 2 by omega]
      · rw [second]
        omega
      · rw [second]
        have grown := Nat.mul_le_mul_left (256 ^ (nSize - 3)) carries
        omega
    next stays =>
      refine ⟨nSize - 3, ?_, ?_, .inr ?_⟩
      · rw [decodeNat, if_neg small, mantissa]
      · have grown := Nat.mul_le_mul_left (256 ^ (nSize - 3)) (show m + 1 ≤ 2 ^ 23 by omega)
        rw [Nat.mul_add] at grown
        omega
      · omega

theorem getCompact_round :
    ∃ c e, getCompact a false = some c ∧ Rounds a.toNat e (setCompact c).bn.toNat := by
  obtain ⟨nSize, size⟩ : ∃ n, n = (a.bits + 7) / 8 := ⟨_, rfl⟩
  obtain ⟨m, mantissa⟩ : ∃ m, m = encodeNat nSize a.toNat := ⟨_, rfl⟩
  obtain ⟨c, encoded, word⟩ := getCompact_word a nSize m size mantissa
  obtain ⟨_, small⟩ := getCompact_mantissa a nSize size
  rw [← mantissa] at small
  have lower : nSize = 0 ∨ 256 ^ (nSize - 1) ≤ a.toNat := by
    by_cases zero : a.bits = 0
    · omega
    · refine .inr ?_
      calc 256 ^ (nSize - 1) = 2 ^ (8 * (nSize - 1)) := (two_pow_bytes _).symm
        _ ≤ 2 ^ (a.bits - 1) := Nat.pow_le_pow_right (by norm_num) (by omega)
        _ ≤ a.toNat := Nat.lt_size.mp (by rw [← bits_toNat]; omega)
  obtain ⟨e, rounds⟩ := decodeNat_round a.toNat nSize m (lt_bytes a size) lower mantissa
  have decoded : (setCompact c).bn.toNat =
      if 2 ^ 23 ≤ m then decodeNat (nSize + 1) (m / 256) else decodeNat nSize m := by
    rw [setCompact_toNat, word]
    refine Eq.trans ?_ (Nat.mod_eq_of_lt (lt_of_le_of_lt rounds.le a.toNat_lt))
    congr 1
    split <;> congr 1 <;> omega
  exact ⟨c, e, encoded, decoded ▸ rounds⟩

end Qogecoin.Arith
