import Qogecoin.Script.Interpreter

/-! Strict DER signatures: what `IsValidSignatureEncoding` accepts, and which bytes it reads. -/
namespace Qogecoin.Script

open Codec List Nat Option

variable (bytes : Bytes)

def beNat : Nat := leNat bytes.reverse

def twosComplement : Int :=
  if 2 * beNat bytes < 256 ^ bytes.length then beNat bytes
  else beNat bytes - 256 ^ bytes.length

/-- The shortest two's complement encoding of a number that is not negative. -/
structure Encodes (bytes : Bytes) (n : Nat) : Prop where
  nonempty : bytes ≠ []
  value : twosComplement bytes = n
  shortest : ∀ other, other ≠ [] → twosComplement other = n → bytes.length ≤ other.length

@[simp] theorem beNat_cons (b : UInt8) (bytes : Bytes) :
    beNat (b :: bytes) = beNat bytes + 256 ^ bytes.length * b.toNat := by
  simp [beNat, leNat, ofDigits_append]

theorem beNat_lt : beNat bytes < 256 ^ bytes.length := by
  simpa [beNat] using leNat_lt bytes.reverse

variable {bytes sig : Bytes} {n : Nat}

theorem beNat_injective {other : Bytes} (length : bytes.length = other.length)
    (same : beNat bytes = beNat other) : bytes = other := by
  have here := leBytes_leNat bytes.reverse
  have there := leBytes_leNat other.reverse
  rw [length_reverse] at here there
  rw [length, show leNat bytes.reverse = leNat other.reverse from same, there] at here
  exact (reverse_injective here).symm

theorem beNat_cons_lt_iff (b : UInt8) (bytes : Bytes) :
    2 * beNat (b :: bytes) < 256 ^ (b :: bytes).length ↔ b.toNat < 0x80 := by
  have below := beNat_lt bytes
  rw [beNat_cons, length_cons, pow_succ]
  constructor
  · intro positive
    by_contra high
    have large : 256 ^ bytes.length * 0x80 ≤ 256 ^ bytes.length * b.toNat :=
      mul_le_mul_left _ (not_lt.mp high)
    omega
  · intro low
    have small : 256 ^ bytes.length * b.toNat ≤ 256 ^ bytes.length * 0x7f :=
      mul_le_mul_left _ (le_of_lt_succ low)
    omega

theorem twosComplement_eq_natCast :
    twosComplement bytes = n ↔ beNat bytes = n ∧ 2 * n < 256 ^ bytes.length := by
  have below : (beNat bytes : Int) < 256 ^ bytes.length := by exact_mod_cast beNat_lt bytes
  unfold twosComplement
  split
  next positive =>
    constructor
    · intro same
      have same : beNat bytes = n := by exact_mod_cast same
      exact ⟨same, same ▸ positive⟩
    · rintro ⟨rfl, _⟩
      rfl
  next negative =>
    constructor
    · intro same
      omega
    · rintro ⟨rfl, positive⟩
      exact absurd positive negative

theorem Encodes.unique {other : Bytes} (encodes : Encodes bytes n) (again : Encodes other n) :
    bytes = other := by
  apply beNat_injective
  · exact le_antisymm (encodes.shortest other again.nonempty again.value)
      (again.shortest bytes encodes.nonempty encodes.value)
  · rw [(twosComplement_eq_natCast.mp encodes.value).1,
      (twosComplement_eq_natCast.mp again.value).1]

/-- What the code looks at: the first byte is below `0x80`, and it is not null in front of another
such byte. -/
def WellPadded (bytes : Bytes) : Prop :=
  bytes.length ≠ 0 ∧ (bytes.getD 0 0).toNat < 0x80 ∧
    ¬(bytes.length > 1 ∧ (bytes.getD 0 0).toNat = 0 ∧ ¬(bytes.getD 1 0).toNat ≥ 0x80)

theorem WellPadded.encodes (padded : WellPadded bytes) :
    Encodes bytes (beNat bytes) := by
  obtain ⟨nonempty, low, tight⟩ := padded
  cases bytes with
  | nil => exact absurd rfl nonempty
  | cons b rest =>
    refine ⟨cons_ne_nil _ _, ?_, ?_⟩
    · exact twosComplement_eq_natCast.mpr ⟨rfl, (beNat_cons_lt_iff b rest).mpr low⟩
    · intro other some same
      by_contra shorter
      have bound := (twosComplement_eq_natCast.mp same).2
      have shorter : other.length ≤ rest.length := by simpa using shorter
      have fits : 256 ^ other.length ≤ 256 ^ rest.length :=
        Nat.pow_le_pow_right (by decide) shorter
      have first : b.toNat = 0 := by
        by_contra more
        have large : 256 ^ rest.length * 1 ≤ 256 ^ rest.length * b.toNat :=
          Nat.mul_le_mul_left _ (Nat.pos_of_ne_zero more)
        rw [beNat_cons] at bound
        omega
      rw [beNat_cons, first] at bound
      cases rest with
      | nil => exact some (length_eq_zero_iff.mp (Nat.le_zero.mp shorter))
      | cons c rest =>
        have second : c.toNat < 0x80 := (beNat_cons_lt_iff c rest).mp (by omega)
        exact tight ⟨by simp, first, not_le.mpr second⟩

theorem Encodes.wellPadded (encodes : Encodes bytes n) :
    WellPadded bytes := by
  obtain ⟨value, positive⟩ := twosComplement_eq_natCast.mp encodes.value
  rw [← value] at positive
  cases bytes with
  | nil => exact absurd rfl encodes.nonempty
  | cons b bytes =>
    refine ⟨by simp, (beNat_cons_lt_iff b bytes).mp positive, ?_⟩
    rintro ⟨more, first, second⟩
    cases bytes with
    | nil => simp at more
    | cons c rest =>
      have shorter : twosComplement (c :: rest) = n := by
        apply twosComplement_eq_natCast.mpr
        rw [← value, beNat_cons b, show b.toNat = 0 from first, mul_zero, add_zero]
        exact ⟨rfl, (beNat_cons_lt_iff c rest).mpr (not_le.mp second)⟩
      have least := encodes.shortest _ (cons_ne_nil _ _) shorter
      simp at least

def derSignature (R S : Bytes) (hashType : UInt8) : Bytes :=
  0x30 :: .ofNat (R.length + S.length + 4) :: 0x02 :: .ofNat R.length ::
    (R ++ 0x02 :: .ofNat S.length :: (S ++ [hashType]))

/-- The strict DER encoding of two numbers, with a hash type behind it. -/
structure IsDER (sig : Bytes) (r s : Nat) (hashType : UInt8) : Prop where
  least : 9 ≤ sig.length
  most : sig.length ≤ 73
  form : ∃ R S, Encodes R r ∧ Encodes S s ∧ sig = derSignature R S hashType

/-- A byte of the signature, where one outside of it cannot be read. -/
def readByte? (sig : Bytes) (i : Nat) : Option Nat := sig[i]?.map UInt8.toNat

def readPadded (sig : Bytes) (i len : Nat) : Option Bool := do
  if len > 1 then
    if (← readByte? sig i) = 0 then return !decide ((← readByte? sig (i + 1)) ≥ 0x80)
    else return false
  else return false

def readSignatureEncoding (sig : Bytes) : Option Bool := do
  if sig.length < 9 then return false
  if sig.length > 73 then return false
  if (← readByte? sig 0) ≠ 0x30 then return false
  if (← readByte? sig 1) ≠ sig.length - 3 then return false
  let lenR ← readByte? sig 3
  if 5 + lenR ≥ sig.length then return false
  let lenS ← readByte? sig (5 + lenR)
  if lenR + lenS + 7 ≠ sig.length then return false
  if (← readByte? sig 2) ≠ 0x02 then return false
  if lenR = 0 then return false
  if (← readByte? sig 4) ≥ 0x80 then return false
  if ← readPadded sig 4 lenR then return false
  if (← readByte? sig (lenR + 4)) ≠ 0x02 then return false
  if lenS = 0 then return false
  if (← readByte? sig (lenR + 6)) ≥ 0x80 then return false
  if ← readPadded sig (lenR + 6) lenS then return false
  return true

theorem readByte?_eq {i : Nat} (inside : i < sig.length) :
    readByte? sig i = some (sig.getD i 0).toNat := by
  simp [readByte?, inside]

theorem readPadded_eq {i len : Nat} (inside : i + len < sig.length) :
    readPadded sig i len = some (decide (len > 1 ∧ (sig.getD i 0).toNat = 0 ∧
      ¬(sig.getD (i + 1) 0).toNat ≥ 0x80)) := by
  unfold readPadded
  by_cases more : len > 1
  · by_cases null : (sig.getD i 0).toNat = 0
    · simp only [more, null, readByte?_eq (show i < sig.length by omega),
        readByte?_eq (show i + 1 < sig.length by omega), Option.bind_eq_bind, Option.bind_some,
        if_true, true_and, decide_not, pure]
    · simp only [more, null, readByte?_eq (show i < sig.length by omega), Option.bind_eq_bind,
        Option.bind_some]
      simp
  · simp [more]

theorem readSignatureEncoding_eq (sig : Bytes) :
    readSignatureEncoding sig = some (isValidSignatureEncoding sig) := by
  unfold readSignatureEncoding isValidSignatureEncoding
  by_cases short : sig.length < 9
  · simp [short]
  by_cases long : sig.length > 73
  · simp [short, long]
  obtain ⟨lenR, lenR_eq⟩ : ∃ lenR, lenR = (sig.getD 3 0).toNat := ⟨_, rfl⟩
  simp only [short, long, readByte?_eq (show 0 < sig.length by omega),
    readByte?_eq (show 1 < sig.length by omega), readByte?_eq (show 2 < sig.length by omega),
    readByte?_eq (show 3 < sig.length by omega), readByte?_eq (show 4 < sig.length by omega),
    ← lenR_eq, if_false, bind_eq_bind, bind_some, pure]
  by_cases outside : 5 + lenR ≥ sig.length
  · simp [outside]
  obtain ⟨lenS, lenS_eq⟩ : ∃ lenS, lenS = (sig.getD (5 + lenR) 0).toNat := ⟨_, rfl⟩
  simp only [outside, readByte?_eq (show 5 + lenR < sig.length by omega), ← lenS_eq, if_false,
    bind_some]
  by_cases total : lenR + lenS + 7 ≠ sig.length
  · simp [total]
  simp only [total, readByte?_eq (show lenR + 4 < sig.length by omega),
    readByte?_eq (show lenR + 6 < sig.length by omega),
    readPadded_eq (show 4 + lenR < sig.length by omega),
    readPadded_eq (show lenR + 6 + lenS < sig.length by omega), if_false, bind_some,
    decide_eq_true_eq, apply_ite some]

section

variable {b0 b1 b2 b3 b4 b5 hashType : UInt8} {R S : Bytes}

theorem isValidSignatureEncoding_iff {sig : Bytes}
    (form : sig = b0 :: b1 :: b2 :: b3 :: (R ++ b4 :: b5 :: (S ++ [hashType])))
    (lenR : b3.toNat = R.length) (lenS : b5.toNat = S.length) :
    isValidSignatureEncoding sig = true ↔ 9 ≤ sig.length ∧ sig.length ≤ 73 ∧ b0.toNat = 0x30 ∧
      b1.toNat = R.length + S.length + 4 ∧ b2.toNat = 0x02 ∧ b4.toNat = 0x02 ∧
      WellPadded R ∧ WellPadded S := by
  have size : sig.length = R.length + S.length + 7 := by
    rw [form]
    simp
    omega
  have inR : ∀ i < R.length, sig.getD (i + 4) 0 = R.getD i 0 := by
    intro i inside
    rw [form]
    simp [getElem?_append_left inside]
  have behind : ∀ i, sig.getD (R.length + i + 4) 0 = (b4 :: b5 :: (S ++ [hashType])).getD i 0 := by
    intro i
    rw [form]
    simp [getElem?_append_right]
  have inS : ∀ i < S.length, sig.getD (R.length + (i + 2) + 4) 0 = S.getD i 0 := by
    intro i inside
    rw [behind]
    simp [getElem?_append_left inside]
  have byte0 : sig.getD 0 0 = b0 := by rw [form]; rfl
  have byte1 : sig.getD 1 0 = b1 := by rw [form]; rfl
  have byte2 : sig.getD 2 0 = b2 := by rw [form]; rfl
  have byte3 : sig.getD 3 0 = b3 := by rw [form]; rfl
  have byteS : sig.getD (5 + R.length) 0 = b5 := by
    rw [show 5 + R.length = R.length + 1 + 4 by omega, behind]
    rfl
  unfold isValidSignatureEncoding
  simp only [byte0, byte1, byte2, byte3, lenR, byteS, lenS, size]
  have tagS : sig.getD (R.length + 4) 0 = b4 := behind 0
  rw [tagS]
  by_cases emptyR : R.length = 0
  · simp [WellPadded, emptyR]
  by_cases emptyS : S.length = 0
  · simp [WellPadded, emptyS]
  have firstR := inR 0 (by omega)
  have firstS := inS 0 (by omega)
  have padR : (R.length > 1 ∧ (R.getD 0 0).toNat = 0 ∧ ¬(sig.getD 5 0).toNat ≥ 0x80) ↔
      R.length > 1 ∧ (R.getD 0 0).toNat = 0 ∧ ¬(R.getD 1 0).toNat ≥ 0x80 :=
    and_congr_right fun more => by rw [inR 1 more]
  have padS : (S.length > 1 ∧ (S.getD 0 0).toNat = 0 ∧
        ¬(sig.getD (R.length + 7) 0).toNat ≥ 0x80) ↔
      S.length > 1 ∧ (S.getD 0 0).toNat = 0 ∧ ¬(S.getD 1 0).toNat ≥ 0x80 :=
    and_congr_right fun more => by rw [inS 1 more]
  simp only [firstR, show R.length + 6 = R.length + (0 + 2) + 4 by omega, firstS, padR, padS]
  simp only [WellPadded, Bool.if_false_left, Bool.and_eq_true, Bool.not_eq_true',
    decide_eq_false_iff_not]
  constructor
  · rintro ⟨least, most, compound, total, _, _, tagR, _, lowR, tightR, tagS, _, lowS, tightS, _⟩
    exact ⟨by omega, by omega, by omega, by omega, by omega, by omega,
      ⟨emptyR, not_le.mp lowR, tightR⟩, emptyS, not_le.mp lowS, tightS⟩
  · rintro ⟨least, most, compound, total, tagR, tagS, ⟨_, lowR, tightR⟩, _, lowS, tightS⟩
    exact ⟨by omega, by omega, by omega, by omega, by omega, by omega, by omega, emptyR,
      not_le.mpr lowR, tightR, by omega, emptyS, not_le.mpr lowS, tightS, trivial⟩

end

theorem exists_division {lenR lenS : Nat} (size : sig.length = lenR + lenS + 7) :
    ∃ b0 b1 b2 b3 R b4 b5 S hashType, R.length = lenR ∧ S.length = lenS ∧
      sig = b0 :: b1 :: b2 :: b3 :: (R ++ b4 :: b5 :: (S ++ [hashType])) := by
  obtain ⟨head, rest, rfl, four⟩ : ∃ head rest, sig = head ++ rest ∧ head.length = 4 :=
    ⟨sig.take 4, sig.drop 4, by simp, by simp; omega⟩
  obtain ⟨R, rest, rfl, lengthR⟩ : ∃ R rest', rest = R ++ rest' ∧ R.length = lenR :=
    ⟨rest.take lenR, rest.drop lenR, by simp, by simp at size ⊢; omega⟩
  obtain ⟨middle, rest, rfl, two⟩ : ∃ middle rest', rest = middle ++ rest' ∧ middle.length = 2 :=
    ⟨rest.take 2, rest.drop 2, by simp, by simp at size ⊢; omega⟩
  obtain ⟨S, rest, rfl, lengthS⟩ : ∃ S rest', rest = S ++ rest' ∧ S.length = lenS :=
    ⟨rest.take lenS, rest.drop lenS, by simp, by simp at size ⊢; omega⟩
  simp only [length_append, four, two, lengthR, lengthS] at size
  obtain ⟨b0, b1, b2, b3, rfl⟩ : ∃ b0 b1 b2 b3, head = [b0, b1, b2, b3] := by
    match head, four with
    | [b0, b1, b2, b3], _ => exact ⟨b0, b1, b2, b3, rfl⟩
  obtain ⟨b4, b5, rfl⟩ := length_eq_two.mp two
  obtain ⟨hashType, rfl⟩ := length_eq_one_iff.mp (show rest.length = 1 by omega)
  exact ⟨b0, b1, b2, b3, R, b4, b5, S, hashType, lengthR, lengthS, rfl⟩

theorem length_of_isValidSignatureEncoding (valid : isValidSignatureEncoding sig = true) :
    sig.length = (sig.getD 3 0).toNat + (sig.getD (5 + (sig.getD 3 0).toNat) 0).toNat + 7 := by
  unfold isValidSignatureEncoding at valid
  simp only [Bool.if_false_left, Bool.and_eq_true, Bool.not_eq_true', decide_eq_false_iff_not,
    not_not] at valid
  omega

theorem isValidSignatureEncoding_iff_isDER (sig : Bytes) :
    isValidSignatureEncoding sig = true ↔ ∃ r s hashType, IsDER sig r s hashType := by
  constructor
  · intro valid
    obtain ⟨b0, b1, b2, b3, R, b4, b5, S, hashType, lengthR, lengthS, form⟩ :=
      exists_division (length_of_isValidSignatureEncoding valid)
    have lenR : b3.toNat = R.length := by
      rw [lengthR, form]
      rfl
    have lenS : b5.toNat = S.length := by
      rw [lengthS, ← lengthR, form]
      simp [add_comm 5]
    obtain ⟨least, most, compound, total, tagR, tagS, padR, padS⟩ :=
      (isValidSignatureEncoding_iff form lenR lenS).mp valid
    refine ⟨_, _, hashType, least, most, R, S, padR.encodes, padS.encodes, ?_⟩
    obtain rfl : b0 = 0x30 := UInt8.toNat_inj.mp compound
    obtain rfl : b2 = 0x02 := UInt8.toNat_inj.mp tagR
    obtain rfl : b4 = 0x02 := UInt8.toNat_inj.mp tagS
    rw [form, derSignature, ← total, ← lenR, ← lenS, UInt8.ofNat_toNat, UInt8.ofNat_toNat,
      UInt8.ofNat_toNat]
  · rintro ⟨r, s, hashType, least, most, R, S, encodesR, encodesS, form⟩
    have size : sig.length = R.length + S.length + 7 := by
      rw [form]
      simp [derSignature]
      omega
    have byte : ∀ n ≤ R.length + S.length + 4, (UInt8.ofNat n).toNat = n := by
      intro n small
      rw [UInt8.toNat_ofNat']
      omega
    apply (isValidSignatureEncoding_iff form (byte _ (by omega)) (byte _ (by omega))).mpr
    exact ⟨least, most, rfl, byte _ le_rfl, rfl, rfl, encodesR.wellPadded, encodesS.wellPadded⟩

/-- The strict DER check is exact: it accepts the strings of the grammar and no others, reads only
bytes of the string, and for two numbers and a hash type accepts one string. -/
theorem isValidSignatureEncoding_exact (sig : Bytes) :
    (isValidSignatureEncoding sig = true ↔ ∃ r s hashType, IsDER sig r s hashType) ∧
      readSignatureEncoding sig = some (isValidSignatureEncoding sig) ∧
      ∀ other r s hashType, IsDER sig r s hashType → IsDER other r s hashType → sig = other := by
  refine ⟨isValidSignatureEncoding_iff_isDER sig, readSignatureEncoding_eq sig, ?_⟩
  rintro other r s hashType ⟨_, _, R, S, encodesR, encodesS, rfl⟩
    ⟨_, _, R', S', encodesR', encodesS', rfl⟩
  rw [encodesR.unique encodesR', encodesS.unique encodesS']

end Qogecoin.Script
