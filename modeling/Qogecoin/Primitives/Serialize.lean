import Qogecoin.Primitives.Transaction

/-! The serialisation of `serialize.h` and of the parts of a transaction. -/
namespace Qogecoin

open Codec List Nat

def writeCompactSize (nSize : Nat) : Bytes :=
  if nSize < 253 then [.ofNat nSize]
  else if nSize ≤ 0xffff then 253 :: leBytes 2 nSize
  else if nSize ≤ 0xffffffff then 254 :: leBytes 4 nSize
  else 255 :: leBytes 8 nSize

def maxSize : Nat := 0x02000000

variable (rangeCheck : Bool)

/-- `ReadCompactSize`; `none` is an `ios_base::failure`. -/
def readCompactSize : Reader Nat
  | [] => none
  | chSize :: bs => do
    let (nSizeRet, bs) ←
      if chSize < 253 then some (chSize.toNat, bs)
      else if chSize = 253 then do
        let (n, bs) ← readLe 2 bs
        if n < 253 then none else some (n, bs)
      else if chSize = 254 then do
        let (n, bs) ← readLe 4 bs
        if n < 0x10000 then none else some (n, bs)
      else do
        let (n, bs) ← readLe 8 bs
        if n < 0x100000000 then none else some (n, bs)
    if rangeCheck ∧ nSizeRet > maxSize then none else some (nSizeRet, bs)

theorem readCompactSize_exact {n : Nat} (small : n < 2 ^ 64) (rest : Bytes) :
    readCompactSize rangeCheck (writeCompactSize n ++ rest) =
      if rangeCheck = true ∧ n > maxSize then none else some (n, rest) := by
  unfold writeCompactSize
  split
  next one =>
    have byte : (UInt8.ofNat n).toNat = n := by
      rw [UInt8.toNat_ofNat']
      omega
    have below : UInt8.ofNat n < 253 := by
      rw [UInt8.lt_iff_toNat_lt, byte]
      exact one
    simp [readCompactSize, below, byte]
  · split
    · have value := reads_leBytes 2 n rest (by omega)
      have canonical : ¬n < 253 := by omega
      simp [readCompactSize, value, canonical]
    · split
      · have value := reads_leBytes 4 n rest (by omega)
        have canonical : ¬n < 0x10000 := by omega
        simp [readCompactSize, value, canonical]
      · have value := reads_leBytes 8 n rest (by omega)
        have canonical : ¬n < 0x100000000 := by omega
        simp [readCompactSize, value, canonical]

theorem reads_compactSize :
    Reads (fun n => n < 2 ^ 64 ∧ (rangeCheck → n ≤ maxSize)) writeCompactSize
      (readCompactSize rangeCheck) := by
  rintro n rest ⟨small, ranged⟩
  rw [readCompactSize_exact rangeCheck small, if_neg]
  rintro ⟨checked, large⟩
  exact absurd (ranged checked) (by omega)

theorem prefixFree_compactSize : PrefixFree (· < 2 ^ 64) writeCompactSize := by
  intro m n s t hm hn same
  exact (reads_compactSize false).prefixFree m n s t ⟨hm, by simp⟩ ⟨hn, by simp⟩ same

def serializeBytes (b : Bytes) : Bytes := writeCompactSize b.length ++ b

def serializeStack (stack : List Bytes) : Bytes :=
  writeCompactSize stack.length ++ stack.flatMap serializeBytes

def serializeUInt32 (n : UInt32) : Bytes := leBytes 4 n.toNat

def serializeInt32 (n : Int32) : Bytes := serializeUInt32 n.toUInt32

def serializeInt64 (n : Int64) : Bytes := leBytes 8 n.toUInt64.toNat

def COutPoint.serialize (o : COutPoint) : Bytes := o.hash.bytes ++ serializeUInt32 o.n

def CTxOut.serialize (out : CTxOut) : Bytes :=
  serializeInt64 out.nValue ++ serializeBytes out.scriptPubKey

theorem prefixFree_uint32 : PrefixFree (fun _ => True) serializeUInt32 := by
  apply prefixFree_of_width 4
  · intro n
    exact leBytes_length 4 n.toNat
  · intro m n _ _ same
    exact UInt32.toNat_inj.mp (leBytes_injective m.toNat_lt n.toNat_lt same)

theorem prefixFree_int64 : PrefixFree (fun _ => True) serializeInt64 := by
  apply prefixFree_of_width 8
  · intro n
    exact leBytes_length 8 n.toUInt64.toNat
  · intro m n _ _ same
    have bits := leBytes_injective m.toUInt64.toNat_lt n.toUInt64.toNat_lt same
    rw [← m.toInt64_toUInt64, ← n.toInt64_toUInt64, UInt64.toNat_inj.mp bits]

theorem serializeInt32_injective {m n : Int32} (same : serializeInt32 m = serializeInt32 n) :
    m = n := by
  have bits := prefixFree_uint32.injective trivial trivial same
  rw [← m.toInt32_toUInt32, ← n.toInt32_toUInt32, bits]

theorem Uint256.bytes_injective {g h : Uint256} (same : g.bytes = h.bytes) : g = h := by
  cases g
  cases h
  cases same
  rfl

theorem Uint256.append_bytes_injective {a b c d : Uint256}
    (same : a.bytes ++ b.bytes = c.bytes ++ d.bytes) : a = c ∧ b = d := by
  obtain ⟨first, second⟩ := append_inj same (by rw [a.size, c.size])
  exact ⟨bytes_injective first, bytes_injective second⟩

theorem prefixFree_outPoint : PrefixFree (fun _ => True) COutPoint.serialize := by
  apply prefixFree_of_width 36
  · intro o
    simp [COutPoint.serialize, o.hash.size, serializeUInt32]
  · intro o p _ _ same
    have parts := append_inj same (by rw [o.hash.size, p.hash.size])
    have hash := Uint256.bytes_injective parts.1
    have n := prefixFree_uint32.injective trivial trivial parts.2
    cases o
    cases p
    cases hash
    cases n
    rfl

theorem prefixFree_bytes : PrefixFree (fun b : Bytes => b.length < 2 ^ 64) serializeBytes :=
  prefixFree_compactSize.sized

theorem prefixFree_txOut :
    PrefixFree (fun out : CTxOut => out.scriptPubKey.length < 2 ^ 64) CTxOut.serialize := by
  intro a b s t smallA smallB same
  obtain ⟨fields, rest⟩ := (prefixFree_int64.pair prefixFree_bytes) (a.nValue, a.scriptPubKey)
    (b.nValue, b.scriptPubKey) s t ⟨trivial, smallA⟩ ⟨trivial, smallB⟩ same
  cases a
  cases b
  cases fields
  exact ⟨rfl, rest⟩

def varIntHigh (n : Nat) : Bytes :=
  let last := UInt8.ofNat (n % 128 + 128)
  if n ≤ 0x7f then [last] else varIntHigh (n / 128 - 1) ++ [last]
termination_by n

def writeVarInt (n : Nat) : Bytes :=
  if n ≤ 0x7f then [.ofNat n] else varIntHigh (n / 128 - 1) ++ [.ofNat (n % 128)]

/-- The loop of `ReadVarInt` for a type with the largest value `max`; `none` is an
`ios_base::failure`. -/
def readVarIntFrom (max n : Nat) : Reader Nat
  | [] => none
  | chData :: bs =>
    if n > max / 128 then none
    else
      let n := n * 128 + chData.toNat % 128
      if chData.toNat ≥ 128 then if n = max then none else readVarIntFrom max (n + 1) bs
      else some (n, bs)

def readVarInt (max : Nat) : Reader Nat := readVarIntFrom max 0

theorem varIntByte (n : Nat) : (UInt8.ofNat (n % 128 + 128)).toNat = n % 128 + 128 := by
  rw [UInt8.toNat_ofNat']
  omega

theorem readVarIntFrom_high (max n : Nat) (rest : Bytes) (small : n + 1 ≤ max / 128) :
    readVarIntFrom max 0 (varIntHigh n ++ rest) = readVarIntFrom max (n + 1) rest := by
  induction n using Nat.strongRecOn generalizing rest with
  | ind n ih =>
    have last (high : Nat) (value : high * 128 + (n % 128 + 128) % 128 = n) :
        readVarIntFrom max high ([.ofNat (n % 128 + 128)] ++ rest) =
          readVarIntFrom max (n + 1) rest := by
      rw [singleton_append, readVarIntFrom, if_neg (by omega)]
      simp only [varIntByte, value]
      rw [if_pos (by omega), if_neg (by omega)]
    unfold varIntHigh
    split
    · exact last 0 (by omega)
    · have next : n / 128 - 1 + 1 = n / 128 := by omega
      rw [append_assoc, ih (n / 128 - 1) (by omega) _ (by omega), next]
      exact last (n / 128) (by omega)

theorem reads_varInt (max : Nat) : Reads (· ≤ max) writeVarInt (readVarInt max) := by
  intro n rest bounded
  unfold writeVarInt readVarInt
  split
  · have byte : (UInt8.ofNat n).toNat = n := by
      rw [UInt8.toNat_ofNat']
      omega
    rw [singleton_append, readVarIntFrom, if_neg (by omega)]
    simp only [byte]
    rw [if_neg (by omega), zero_mul, zero_add, mod_eq_of_lt (by omega)]
  · have byte : (UInt8.ofNat (n % 128)).toNat = n % 128 := by
      rw [UInt8.toNat_ofNat']
      omega
    have next : n / 128 - 1 + 1 = n / 128 := by omega
    rw [append_assoc, readVarIntFrom_high max (n / 128 - 1) _ (by omega), next,
      singleton_append, readVarIntFrom, if_neg (by omega)]
    rw [if_neg (by omega)]
    congr 2
    omega

end Qogecoin
