import Qogecoin.Pow.ArithUint256

/-! The laws of the compact encoding of targets, and the work of a block and of a branch. -/
namespace Qogecoin.Arith

open BaseUint Nat

def mantissa (nCompact : UInt32) : Nat := nCompact.toNat % 2 ^ 23

def exponent (nCompact : UInt32) : Nat := nCompact.toNat / 2 ^ 24

variable (c : UInt32)

theorem mantissa_lt : mantissa c < 2 ^ 23 := mod_lt _ (by norm_num)

theorem shifted_mantissa :
    (if (c >>> 24).toNat ≤ 3 then
        (c &&& 0x007fffff) >>> UInt32.ofNat (8 * (3 - (c >>> 24).toNat))
      else c &&& 0x007fffff).toNat = mantissa c / 256 ^ (3 - exponent c) := by
  rw [word_size, ← exponent]
  split
  · have shift : (UInt32.ofNat (8 * (3 - exponent c))).toNat = 8 * (3 - exponent c) := by
      simp
      omega
    rw [Limbs.toNat_shr _ _ (by omega), shift, word_mantissa, two_pow_bytes, mantissa]
  · rw [show 3 - exponent c = 0 by omega, pow_zero, Nat.div_one, word_mantissa, mantissa]

theorem fNegative_iff : (setCompact c).fNegative = true ↔
    c.toNat.testBit 23 = true ∧ mantissa c / 256 ^ (3 - exponent c) ≠ 0 := by
  have sign := Limbs.testBit_word c 23 (by norm_num)
  rw [show (1 <<< UInt32.ofNat 23 : UInt32) = 0x00800000 by decide] at sign
  rw [← sign, ← shifted_mantissa, and_comm]
  simp only [setCompact, Bool.and_eq_true, decide_eq_true_eq, ne_eq, ← UInt32.toNat_inj,
    UInt32.toNat_zero]

/-- The overflow test is `mantissa * 256 ^ (size - 3) ≥ 2 ^ 256`, with both sides times `256 ^ 3`. -/
theorem fOverflow_iff : (setCompact c).fOverflow = true ↔
    2 ^ 256 * 256 ^ 3 ≤ mantissa c * 256 ^ exponent c := by
  have word := shifted_mantissa c
  have small := mantissa_lt c
  simp only [setCompact, Bool.and_eq_true, Bool.or_eq_true, decide_eq_true_eq, ne_eq,
    ← UInt32.toNat_inj, gt_iff_lt, UInt32.lt_iff_toNat_lt, UInt32.reduceToNat, word]
  rw [word_size, ← exponent]
  generalize mantissa c = m at small
  by_cases short : exponent c ≤ 32
  · have bound : m * 256 ^ exponent c < 2 ^ 256 * 256 ^ 3 :=
      calc m * 256 ^ exponent c < 2 ^ 23 * 256 ^ exponent c :=
            Nat.mul_lt_mul_of_pos_right small (by positivity)
        _ ≤ 2 ^ 23 * 256 ^ 32 := Nat.mul_le_mul_left _ (Nat.pow_le_pow_right (by norm_num) short)
        _ ≤ 2 ^ 256 * 256 ^ 3 := by norm_num
    constructor
    · intro beyond
      omega
    · intro large
      omega
  · obtain ⟨k, size⟩ : ∃ k, exponent c = 33 + k := ⟨exponent c - 33, by omega⟩
    rw [size, show 3 - (33 + k) = 0 by omega, pow_zero, Nat.div_one]
    rcases k with _ | _ | k
    · norm_num
      omega
    · norm_num
      omega
    · constructor
      · rintro ⟨nonzero, _⟩
        calc 2 ^ 256 * 256 ^ 3 = 1 * 256 ^ 35 := by norm_num
          _ ≤ m * 256 ^ (33 + (k + 1 + 1)) := Nat.mul_le_mul (Nat.pos_of_ne_zero nonzero)
            (Nat.pow_le_pow_right (by norm_num) (by omega))
      · intro large
        refine ⟨?_, .inl (.inl (by omega))⟩
        rintro rfl
        rw [Nat.zero_mul] at large
        omega

theorem setCompact_exact {c : UInt32} (fits : (setCompact c).fOverflow = false) :
    (setCompact c).bn.toNat = decodeNat (exponent c) (mantissa c) := by
  have small := mantissa_lt c
  rw [setCompact_toNat]
  apply mod_eq_of_lt
  show decodeNat (exponent c) (mantissa c) < _
  by_contra large
  refine absurd ((fOverflow_iff c).mpr ?_) (by simp [fits])
  rw [decodeNat] at large
  split at large
  · exact absurd (div_le_self (mantissa c) (256 ^ (3 - exponent c))) (by omega)
  next long =>
    rw [show exponent c = exponent c - 3 + 3 by omega, pow_add, ← mul_assoc]
    exact mul_le_mul_right _ (not_lt.mp large)

theorem decodeNat_form {s m : Nat} (small : m < 2 ^ 23) :
    ∃ k f, decodeNat s m = k * 256 ^ f ∧ k < 2 ^ 23 := by
  rw [decodeNat]
  split
  · exact ⟨m / 256 ^ (3 - s), 0, by simp, lt_of_le_of_lt (div_le_self _ _) small⟩
  · exact ⟨m, s - 3, rfl, small⟩

theorem Rounds.greatest {v e r s m : Nat} (rounds : Rounds v e r) (small : m < 2 ^ 23)
    (below : decodeNat s m ≤ v) : decodeNat s m ≤ r := by
  obtain ⟨k, f, form, short⟩ := decodeNat_form (s := s) small
  rw [form] at below ⊢
  rw [rounds.value]
  by_cases coarse : e ≤ f
  · obtain ⟨d, rfl⟩ := Nat.exists_eq_add_of_le coarse
    rw [pow_add, Nat.mul_comm (256 ^ e), ← Nat.mul_assoc] at below ⊢
    exact Nat.mul_le_mul_right _ ((Nat.le_div_iff_mul_le (by positivity)).mpr below)
  · have reach := rounds.least.resolve_left (by omega)
    calc k * 256 ^ f ≤ 2 ^ 23 * 256 ^ f := Nat.mul_le_mul_right _ short.le
      _ = 2 ^ 15 * 256 ^ (f + 1) := by rw [pow_succ]; ring
      _ ≤ 2 ^ 15 * 256 ^ e :=
        Nat.mul_le_mul_left _ (Nat.pow_le_pow_right (by norm_num) (by omega))
      _ ≤ v / 256 ^ e * 256 ^ e :=
        Nat.mul_le_mul_right _ ((Nat.le_div_iff_mul_le (by positivity)).mpr reach)

/-- The sign bit is set and the mantissa is not zero, but the number has a single byte, and that is
zero. -/
theorem sign_without_negative : (setCompact 0x01800001).fNegative = false ∧
    (0x01800001 : UInt32).toNat.testBit 23 = true ∧ mantissa 0x01800001 ≠ 0 := by
  decide

theorem compact_laws :
    (∀ v : ArithUint256, ∃ c, getCompact v false = some c ∧ (setCompact c).bn.toNat ≤ v.toNat ∧
      ∀ c', (setCompact c').fOverflow = false → (setCompact c').bn.toNat ≤ v.toNat →
        (setCompact c').bn.toNat ≤ (setCompact c).bn.toNat) ∧
    (∀ c, (setCompact c).fNegative = false → (setCompact c).fOverflow = false →
      ∃ d, getCompact (setCompact c).bn false = some d ∧
        getCompact (setCompact d).bn false = some d) ∧
    (∀ v w c d, v.toNat ≤ w.toNat → getCompact v false = some c → getCompact w false = some d →
      (setCompact c).bn.toNat ≤ (setCompact d).bn.toNat) ∧
    ∀ c, ((setCompact c).fOverflow = true ↔
        2 ^ 256 * 256 ^ 3 ≤ mantissa c * 256 ^ exponent c) ∧
      ((setCompact c).fNegative = true ↔
        c.toNat.testBit 23 = true ∧ mantissa c / 256 ^ (3 - exponent c) ≠ 0) := by
  have greatest {v e r : Nat} (rounds : Rounds v e r) (c : UInt32)
      (fits : (setCompact c).fOverflow = false) (below : (setCompact c).bn.toNat ≤ v) :
      (setCompact c).bn.toNat ≤ r := by
    rw [setCompact_exact fits] at below ⊢
    exact rounds.greatest (mantissa_lt c) below
  refine ⟨?_, ?_, ?_, fun c => ⟨fOverflow_iff c, fNegative_iff c⟩⟩
  · intro v
    obtain ⟨c, e, encoded, rounds⟩ := getCompact_round v
    exact ⟨c, encoded, rounds.le, greatest rounds⟩
  · intro c _ fits
    obtain ⟨d, e, encoded, rounds⟩ := getCompact_round (setCompact c).bn
    have same : (setCompact d).bn = (setCompact c).bn :=
      toNat_injective _ _ (le_antisymm rounds.le (greatest rounds c fits le_rfl))
    refine ⟨d, encoded, ?_⟩
    rw [same, encoded]
  · intro v w c d ordered first second
    obtain ⟨c', e, encoded, rounds⟩ := getCompact_round v
    obtain ⟨d', f, encoded', rounds'⟩ := getCompact_round w
    cases first.symm.trans encoded
    cases second.symm.trans encoded'
    exact rounds.mono rounds' ordered

def BaseUint.complement {width : Nat} (a : BaseUint width) : BaseUint width :=
  ⟨a.pn.map (~~~ ·), by simp [a.size]⟩

variable (nBits : UInt32)

def getBlockProof : Option ArithUint256 :=
  let target := setCompact nBits
  if target.fNegative ∨ target.fOverflow ∨ target.bn = ofUInt64 0 then some (ofUInt64 0)
  else (target.bn.complement.div (target.bn.add (ofUInt64 1))).map (·.add (ofUInt64 1))

def nChainWork : List UInt32 → Option ArithUint256
  | [] => some (ofUInt64 0)
  | nBits :: branch => do
    let work ← nChainWork branch
    let proof ← getBlockProof nBits
    some (work.add proof)

structure ValidBits (nBits : UInt32) : Prop where
  positive : (setCompact nBits).fNegative = false
  fits : (setCompact nBits).fOverflow = false
  nonzero : (setCompact nBits).bn.toNat ≠ 0

def blockWork : Nat := 2 ^ 256 / ((setCompact nBits).bn.toNat + 1)

def totalWork (branch : List UInt32) : Nat := (branch.map blockWork).sum

theorem totalWork_cons (branch : List UInt32) :
    totalWork (nBits :: branch) = blockWork nBits + totalWork branch := rfl

/-- A target is below `2 ^ 256 - 1`: it is short, or its lowest byte is zero. -/
theorem target_lt : (setCompact c).bn.toNat + 1 < 2 ^ 256 := by
  have small := mantissa_lt c
  rw [setCompact_toNat]
  show decodeNat (exponent c) (mantissa c) % 2 ^ 256 + 1 < _
  rw [decodeNat]
  split
  · have low := div_le_self (mantissa c) (256 ^ (3 - exponent c))
    generalize mantissa c / 256 ^ (3 - exponent c) = word at low
    omega
  · have even : mantissa c * 256 ^ (exponent c - 3) % 2 ^ 256 % 256 = 0 := by
      rw [mod_mod_of_dvd _ (by norm_num)]
      exact mod_eq_zero_of_dvd (Dvd.dvd.mul_left (dvd_pow_self 256 (by omega)) _)
    omega

theorem getBlockProof_exact {nBits : UInt32} (valid : ValidBits nBits) :
    ∃ proof, getBlockProof nBits = some proof ∧ proof.toNat = blockWork nBits := by
  have bound := target_lt nBits
  have nonzero := valid.nonzero
  have continues : ¬((setCompact nBits).fNegative ∨ (setCompact nBits).fOverflow ∨
      (setCompact nBits).bn = ofUInt64 0) := by
    rintro (negative | overflow | zero)
    · simp [valid.positive] at negative
    · simp [valid.fits] at overflow
    · simp [zero] at nonzero
  rw [getBlockProof, if_neg continues, blockWork]
  generalize (setCompact nBits).bn = target at bound nonzero
  have next : (target.add (ofUInt64 1)).toNat = target.toNat + 1 := by
    rw [add_toNat, ofUInt64_toNat]
    exact mod_eq_of_lt bound
  have flip : target.complement.toNat + target.toNat + 1 = 2 ^ 256 := by
    have flipped := Limbs.complement_value target.pn
    rwa [target.size] at flipped
  obtain ⟨q, divided, quotient⟩ :=
    div_toNat target.complement (target.add (ofUInt64 1)) (by omega)
  rw [next] at quotient
  have identity : 2 ^ 256 / (target.toNat + 1) = q.toNat + 1 := by
    rw [quotient, ← flip, add_assoc, add_div_right _ (succ_pos _)]
  have small : 2 ^ 256 / (target.toNat + 1) < 2 ^ 256 :=
    div_lt_self (by norm_num) (by omega)
  refine ⟨q.add (ofUInt64 1), by rw [divided, Option.map_some], ?_⟩
  rw [add_toNat, ofUInt64_toNat, identity]
  exact mod_eq_of_lt (identity ▸ small)

theorem blockWork_pos : 0 < blockWork nBits :=
  div_pos (target_lt nBits).le (succ_pos _)

theorem nChainWork_exact {branch : List UInt32} (valid : ∀ nBits ∈ branch, ValidBits nBits) :
    ∃ work, nChainWork branch = some work ∧ work.toNat = totalWork branch % 2 ^ 256 := by
  induction branch with
  | nil => exact ⟨ofUInt64 0, rfl, by simp [totalWork]⟩
  | cons nBits branch ih =>
    obtain ⟨validBits, validBranch⟩ := List.forall_mem_cons.mp valid
    obtain ⟨work, before, value⟩ := ih validBranch
    obtain ⟨proof, here, added⟩ := getBlockProof_exact validBits
    refine ⟨work.add proof, by rw [nChainWork, before, here]; rfl, ?_⟩
    rw [add_toNat, value, added, totalWork_cons, add_comm, add_mod_mod]

theorem arith_exact :
    (∀ a b : ArithUint256, (a.mul b).toNat = a.toNat * b.toNat % 2 ^ 256 ∧
      (a.add b).toNat = (a.toNat + b.toNat) % 2 ^ 256 ∧
      ((a.sub b).toNat : Int) = ((a.toNat : Int) - b.toNat) % 2 ^ 256 ∧
      a.compareTo b = compare a.toNat b.toNat ∧ (b.toNat = 0 → a.div b = none) ∧
      (b.toNat ≠ 0 → ∃ q, a.div b = some q ∧ q.toNat = a.toNat / b.toNat)) ∧
    (∀ (a : ArithUint256) (b32 : UInt32),
      (a.mulUInt32 b32).toNat = a.toNat * b32.toNat % 2 ^ 256) ∧
    (∀ (a : ArithUint256) (shift : Nat), (a.shl shift).toNat = a.toNat * 2 ^ shift % 2 ^ 256 ∧
      (a.shr shift).toNat = a.toNat / 2 ^ shift) ∧
    (∀ nBits, ValidBits nBits → ∃ proof, getBlockProof nBits = some proof ∧
      proof.toNat = 2 ^ 256 / ((setCompact nBits).bn.toNat + 1)) ∧
    ∀ nBits branch, (∀ b ∈ nBits :: branch, ValidBits b) → ∃ work work',
      nChainWork branch = some work ∧ nChainWork (nBits :: branch) = some work' ∧
      (totalWork (nBits :: branch) < 2 ^ 256 → work.toNat < work'.toNat) := by
  refine ⟨?_, mulUInt32_toNat, fun a shift => ⟨shl_toNat a shift, shr_toNat a shift⟩,
    fun nBits valid => getBlockProof_exact valid, ?_⟩
  · intro a b
    refine ⟨mul_toNat a b, add_toNat a b, sub_toInt a b, compareTo_toNat a b, ?_,
      fun nonzero => div_toNat a b (pos_of_ne_zero nonzero)⟩
    intro zero
    rw [div, if_pos (by rw [bits_toNat, zero]; rfl)]
  · intro nBits branch valid
    obtain ⟨work, before, value⟩ := nChainWork_exact (List.forall_mem_cons.mp valid).2
    obtain ⟨work', after, value'⟩ := nChainWork_exact valid
    refine ⟨work, work', before, after, ?_⟩
    intro room
    have positive := blockWork_pos nBits
    rw [totalWork_cons] at room value'
    rw [value, value', mod_eq_of_lt room, mod_eq_of_lt (by omega)]
    omega

end Qogecoin.Arith
