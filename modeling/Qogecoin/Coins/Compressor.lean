import Qogecoin.Primitives.Hash
import Qogecoin.Primitives.Serialize
import Qogecoin.Script.Script

/-! The compact formats of `compressor.h`: amounts lose their trailing zeros and the usual scripts
their fixed bytes. -/
namespace Qogecoin.Coins

open Codec Script List Crypto Nat Option

/-- At most `left` factors of ten taken out of `n`, and how many. -/
def stripZeros : (left n : Nat) → Nat × Nat
  | 0, n => (n, 0)
  | left + 1, n =>
    if n % 10 = 0 then ((stripZeros left (n / 10)).1, (stripZeros left (n / 10)).2 + 1) else (n, 0)

def compressAmount (n : Nat) : Nat :=
  if n = 0 then 0
  else
    let (n, e) := stripZeros 9 n
    if e < 9 then (1 + (n / 10 * 9 + n % 10 - 1) * 10 + e) % 2 ^ 64
    else (1 + (n - 1) * 10 + 9) % 2 ^ 64

def decompressAmount (x : Nat) : Nat :=
  if x = 0 then 0
  else
    let x := x - 1
    let e := x % 10
    let x := x / 10
    let n := if e < 9 then x / 9 * 10 + (x % 9 + 1) else x + 1
    n * 10 ^ e % 2 ^ 64

theorem stripZeros_spec (left n : Nat) (positive : 0 < n) :
    n = (stripZeros left n).1 * 10 ^ (stripZeros left n).2 ∧ (stripZeros left n).2 ≤ left ∧
      0 < (stripZeros left n).1 ∧
      ((stripZeros left n).2 < left → (stripZeros left n).1 % 10 ≠ 0) := by
  induction left generalizing n with
  | zero => simpa [stripZeros] using positive
  | succ left ih =>
    unfold stripZeros
    split
    next divides =>
      obtain ⟨value, count, nonzero, last⟩ := ih (n / 10) (by omega)
      refine ⟨?_, by omega, nonzero, fun more => last (by simpa using more)⟩
      calc n = n / 10 * 10 := by omega
        _ = (stripZeros left (n / 10)).1 * 10 ^ (stripZeros left (n / 10)).2 * 10 := by rw [← value]
        _ = _ := by rw [pow_succ, mul_assoc]
    next last =>
      exact ⟨by simp, by omega, positive, fun _ => last⟩

theorem decompressAmount_compressAmount (n : Nat) (money : n ≤ 10 ^ 16) :
    decompressAmount (compressAmount n) = n ∧ compressAmount n < 2 ^ 64 := by
  by_cases zero : n = 0
  · subst zero
    decide
  obtain ⟨value, count, nonzero, last⟩ := stripZeros_spec 9 n (by omega)
  rw [compressAmount, if_neg zero]
  generalize stripZeros 9 n = stripped at value count nonzero last
  obtain ⟨m, e⟩ := stripped
  simp only at value count nonzero last ⊢
  have small : m ≤ 10 ^ 16 := by
    have grows : m * 1 ≤ m * 10 ^ e := mul_le_mul_left m (one_le_pow _ _ (by omega))
    omega
  split
  next few =>
    rw [mod_eq_of_lt (by omega)]
    refine ⟨?_, by omega⟩
    rw [decompressAmount, if_neg (by omega)]
    have exponent : (1 + (m / 10 * 9 + m % 10 - 1) * 10 + e - 1) % 10 = e := by omega
    have number : (1 + (m / 10 * 9 + m % 10 - 1) * 10 + e - 1) / 10 =
        m / 10 * 9 + m % 10 - 1 := by omega
    have back : (m / 10 * 9 + m % 10 - 1) / 9 * 10 + ((m / 10 * 9 + m % 10 - 1) % 9 + 1) = m := by
      omega
    simp only [exponent, number, if_pos few, back]
    rw [← value, mod_eq_of_lt (by omega)]
  next all =>
    have nine : e = 9 := by omega
    subst nine
    rw [mod_eq_of_lt (by omega)]
    refine ⟨?_, by omega⟩
    rw [decompressAmount, if_neg (by omega)]
    have exponent : (1 + (m - 1) * 10 + 9 - 1) % 10 = 9 := by omega
    have number : (1 + (m - 1) * 10 + 9 - 1) / 10 + 1 = m := by omega
    simp only [exponent, number, lt_irrefl, if_false]
    rw [← value, mod_eq_of_lt (by omega)]

def isToKeyID (script : Bytes) : Bool :=
  script.length == 25 && script.take 3 == [Op.dup, Op.hash160, 20]
    && script.drop 23 == [Op.equalVerify, Op.checkSig]

def isToScriptID (script : Bytes) : Bool :=
  script.length == 23 && script.take 2 == [Op.hash160, 20] && script.drop 22 == [Op.equal]

section

theorem eq_cons_append_of_ends {l : Bytes} {a b : UInt8} (first : l.head? = some a)
    (last : l.getLast? = some b) (long : 2 ≤ l.length) : l = a :: (l.drop 1).dropLast ++ [b] := by
  cases l with
  | nil => cases first
  | cons c l =>
    cases first
    have rest : l.getLast? = some b := by
      cases l with
      | nil => simp at long
      | cons d l => simpa using last
    rw [drop_one, tail_cons, cons_append, List.cons.injEq]
    exact ⟨rfl, (dropLast_append_getLast? b rest).symm⟩

theorem take_append_take_append_drop (l : Bytes) (i j : Nat) :
    l.take i ++ (l.drop i).take j ++ l.drop (i + j) = l := by
  rw [append_assoc, ← drop_drop, take_append_drop, take_append_drop]

theorem eq_cons_of_head {l : Bytes} {a : UInt8} (first : l.head? = some a) :
    l = a :: l.drop 1 := by
  cases l with
  | nil => cases first
  | cons b l =>
    cases first
    rfl

theorem parity_cases (b : UInt8) : b &&& 0x01 = 0 ∨ b &&& 0x01 = 1 := by
  have bit : (b &&& 0x01).toNat = b.toNat % 2 := by
    rw [UInt8.toNat_and]
    exact and_one_is_mod b.toNat
  rcases mod_two_eq_zero_or_one b.toNat with even | odd
  · exact .inl (UInt8.toNat_inj.mp (bit.trans even))
  · exact .inr (UInt8.toNat_inj.mp (bit.trans odd))

variable [Crypto] (script : Bytes)

/-- The public key of a pay-to-pubkey script. An uncompressed one must be valid. -/
def isToPubKey : Option Bytes :=
  let pubkey := (script.drop 1).dropLast
  if script.length = 35 ∧ script.head? = some 33 ∧ script.getLast? = some Op.checkSig ∧
      (pubkey.head? = some 0x02 ∨ pubkey.head? = some 0x03) then some pubkey
  else if script.length = 67 ∧ script.head? = some 65 ∧ script.getLast? = some Op.checkSig ∧
      pubkey.head? = some 0x04 ∧ isFullyValid pubkey then some pubkey
  else none

/-- `CompressScript`; `none` is `false`. -/
def compressScript : Option Bytes :=
  if isToKeyID script then some (0x00 :: (script.drop 3).take 20)
  else if isToScriptID script then some (0x01 :: (script.drop 2).take 20)
  else
    match isToPubKey script with
    | none => none
    | some pubkey =>
      let x := (pubkey.drop 1).take 32
      match pubkey.head? with
      | some 0x02 => some (0x02 :: x)
      | some 0x03 => some (0x03 :: x)
      | some 0x04 => some ((0x04 ||| (pubkey.getD 64 0 &&& 0x01)) :: x)
      | _ => none

def getSpecialScriptSize (nSize : Nat) : Nat :=
  if nSize = 0 ∨ nSize = 1 then 20
  else if nSize = 2 ∨ nSize = 3 ∨ nSize = 4 ∨ nSize = 5 then 32
  else 0

/-- `DecompressScript`; on failure the script stays empty. -/
def decompressScript (nSize : Nat) (compressed : Bytes) : Bytes :=
  match nSize with
  | 0 => [Op.dup, Op.hash160, 20] ++ compressed ++ [Op.equalVerify, Op.checkSig]
  | 1 => [Op.hash160, 20] ++ compressed ++ [Op.equal]
  | 2 => [33, 0x02] ++ compressed ++ [Op.checkSig]
  | 3 => [33, 0x03] ++ compressed ++ [Op.checkSig]
  | 4 => (decompress (0x02 :: compressed)).elim [] fun pubkey =>
      65 :: pubkey ++ [Op.checkSig]
  | 5 => (decompress (0x03 :: compressed)).elim [] fun pubkey =>
      65 :: pubkey ++ [Op.checkSig]
  | _ => []

def nSpecialScripts : Nat := 6

def writeScript : Bytes :=
  match compressScript script with
  | some compressed => compressed
  | none => writeVarInt (script.length + nSpecialScripts) ++ script

def readScript : Reader Bytes := fun bs => do
  let (nSize, bs) ← readVarInt (2 ^ 32 - 1) bs
  if nSize < nSpecialScripts then do
    let (compressed, bs) ← readBytes (getSpecialScriptSize nSize) bs
    some (decompressScript nSize compressed, bs)
  else if nSize - nSpecialScripts > maxScriptSize then do
    let (_, bs) ← readBytes (nSize - nSpecialScripts) bs
    some ([0x6a], bs)
  else readBytes (nSize - nSpecialScripts) bs

/-- What is relied on of the curve: a key that is valid is got back from its `x` and the parity
of its `y`. -/
def DecompressesKeys : Prop :=
  ∀ x y : Bytes, x.length = 32 → y.length = 32 → isFullyValid (0x04 :: x ++ y) = true →
    decompress ((0x02 ||| (y.getLastD 0 &&& 0x01)) :: x) = some (0x04 :: x ++ y)

/-- The compressed form of a script: a tag below the special sizes, then the bytes from which the
script is rebuilt. -/
structure Compressed (script compressed : Bytes) (tag : UInt8) (x : Bytes) : Prop where
  bytes : compressed = tag :: x
  special : tag.toNat < nSpecialScripts
  size : x.length = getSpecialScriptSize tag.toNat
  rebuilt : decompressScript tag.toNat x = script

theorem isToPubKey_spec {script pubkey : Bytes} (found : isToPubKey script = some pubkey) :
    (script = 33 :: pubkey ++ [Op.checkSig] ∧ pubkey.length = 33 ∧
        (pubkey.head? = some 0x02 ∨ pubkey.head? = some 0x03)) ∨
      (script = 65 :: pubkey ++ [Op.checkSig] ∧ pubkey.length = 65 ∧
        pubkey.head? = some 0x04 ∧ isFullyValid pubkey = true) := by
  unfold isToPubKey at found
  simp only at found
  split at found
  next short =>
    obtain ⟨size, first, last, key⟩ := short
    cases found
    refine .inl ⟨eq_cons_append_of_ends first last (by omega), ?_, key⟩
    rw [length_dropLast, length_drop, size]
  · split at found
    next long =>
      obtain ⟨size, first, last, key, valid⟩ := long
      cases found
      refine .inr ⟨eq_cons_append_of_ends first last (by omega), ?_, key, valid⟩
      rw [length_dropLast, length_drop, size]
    · cases found

theorem compressed_of_uncompressed (law : DecompressesKeys) {pubkey : Bytes}
    (size : pubkey.length = 65) (first : pubkey.head? = some 0x04)
    (valid : isFullyValid pubkey = true) :
    Compressed (65 :: pubkey ++ [Op.checkSig])
      ((0x04 ||| (pubkey.getD 64 0 &&& 0x01)) :: (pubkey.drop 1).take 32)
      (0x04 ||| (pubkey.getD 64 0 &&& 0x01)) ((pubkey.drop 1).take 32) := by
  have whole : 0x04 :: (pubkey.drop 1).take 32 ++ pubkey.drop 33 = pubkey := by
    have rest := take_append_take_append_drop pubkey 1 32
    rwa [show pubkey.take 1 = [0x04] by rw [eq_cons_of_head first]; rfl] at rest
  have last : (pubkey.drop 33).getLastD 0 = pubkey.getD 64 0 := by
    rw [getLastD_eq_getLast?, List.getLast?_drop, List.getLast?_eq_getElem?, size]
    simp [size]
  have sizeX : ((pubkey.drop 1).take 32).length = 32 := by simp [size]
  have sizeY : (pubkey.drop 33).length = 32 := by simp [size]
  have rebuilt := law _ _ sizeX sizeY (by rwa [whole])
  rw [whole, last] at rebuilt
  rcases parity_cases (pubkey.getD 64 0) with even | odd
  · rw [even] at rebuilt ⊢
    refine ⟨rfl, by decide, sizeX, ?_⟩
    show (decompress (0x02 :: _)).elim [] _ = _
    rw [show (0x02 : UInt8) = 0x02 ||| 0 from rfl, rebuilt]
    rfl
  · rw [odd] at rebuilt ⊢
    refine ⟨rfl, by decide, sizeX, ?_⟩
    show (decompress (0x03 :: _)).elim [] _ = _
    rw [show (0x03 : UInt8) = 0x02 ||| 1 from rfl, rebuilt]
    rfl

theorem compressed_of_key {pubkey : Bytes} {tag : UInt8} (size : pubkey.length = 33)
    (first : pubkey.head? = some tag) (known : tag = 0x02 ∨ tag = 0x03) :
    Compressed (33 :: pubkey ++ [Op.checkSig]) (tag :: (pubkey.drop 1).take 32) tag
      ((pubkey.drop 1).take 32) := by
  have whole : (pubkey.drop 1).take 32 = pubkey.drop 1 := by
    apply take_of_length_le
    simp [size]
  have key : 33 :: pubkey ++ [Op.checkSig] = [33, tag] ++ pubkey.drop 1 ++ [Op.checkSig] :=
    congrArg (33 :: · ++ [Op.checkSig]) (eq_cons_of_head first)
  rw [whole, key]
  rcases known with rfl | rfl
  · exact ⟨rfl, by decide, by simp [getSpecialScriptSize, size], rfl⟩
  · exact ⟨rfl, by decide, by simp [getSpecialScriptSize, size], rfl⟩

theorem compressScript_spec (law : DecompressesKeys) {script compressed : Bytes}
    (found : compressScript script = some compressed) :
    ∃ tag x, Compressed script compressed tag x := by
  unfold compressScript at found
  split at found
  next keyID =>
    simp only [isToKeyID, Bool.and_eq_true, beq_iff_eq] at keyID
    obtain ⟨⟨size, front⟩, back⟩ := keyID
    cases found
    refine ⟨_, _, rfl, by decide, ?_, ?_⟩
    · simp [getSpecialScriptSize, size]
    · have whole := take_append_take_append_drop script 3 20
      rwa [front, back] at whole
  · split at found
    next scriptID =>
      simp only [isToScriptID, Bool.and_eq_true, beq_iff_eq] at scriptID
      obtain ⟨⟨size, front⟩, back⟩ := scriptID
      cases found
      refine ⟨_, _, rfl, by decide, ?_, ?_⟩
      · simp [getSpecialScriptSize, size]
      · have whole := take_append_take_append_drop script 2 20
        rwa [front, back] at whole
    · split at found
      · cases found
      next pubkey isKey =>
        rcases isToPubKey_spec isKey with ⟨rfl, size, first⟩ | ⟨rfl, size, first, valid⟩
        · rcases first with first | first
          · rw [first] at found
            cases found
            exact ⟨_, _, compressed_of_key size first (.inl rfl)⟩
          · rw [first] at found
            cases found
            exact ⟨_, _, compressed_of_key size first (.inr rfl)⟩
        · rw [first] at found
          cases found
          exact ⟨_, _, compressed_of_uncompressed law size first valid⟩

theorem reads_script (law : DecompressesKeys) :
    Reads (fun script => script.length ≤ maxScriptSize) writeScript readScript := by
  intro script rest short
  unfold writeScript readScript
  cases found : compressScript script with
  | some compressed =>
    obtain ⟨tag, x, bytes, special, size, rebuilt⟩ := compressScript_spec law found
    have one : writeVarInt tag.toNat = [tag] := by
      rw [writeVarInt, if_pos (by simp only [nSpecialScripts] at special; omega),
        UInt8.ofNat_toNat]
    have read := reads_varInt (2 ^ 32 - 1) tag.toNat (x ++ rest)
      (by simp only [nSpecialScripts] at special; omega)
    rw [one, singleton_append] at read
    simp only [bytes, cons_append, read, bind_eq_bind, bind_some, if_pos special,
      readBytes_append size, rebuilt]
  | none =>
    have room : script.length + nSpecialScripts ≤ 2 ^ 32 - 1 := by
      simp only [maxScriptSize, nSpecialScripts] at short ⊢
      omega
    have read := reads_varInt (2 ^ 32 - 1) _ (script ++ rest) room
    have plain : ¬script.length + nSpecialScripts < nSpecialScripts := by omega
    have size : script.length + nSpecialScripts - nSpecialScripts = script.length := by omega
    simp only [append_assoc, read, bind_eq_bind, bind_some, if_neg plain, size]
    rw [if_neg (by omega), readBytes_append rfl]

end

section

theorem toNat_toUInt64 {a : Int64} (nonneg : 0 ≤ a.toInt) : (a.toUInt64.toNat : Int) = a.toInt := by
  have value : a.toInt = a.toUInt64.toBitVec.toInt := rfl
  have same : a.toUInt64.toBitVec.toNat = a.toUInt64.toNat := rfl
  rw [value, BitVec.toInt_eq_toNat_cond, same] at nonneg ⊢
  split at nonneg
  next small =>
    rw [if_pos small]
  · omega

variable [Crypto]

def writeTxOut (out : CTxOut) : Bytes :=
  writeVarInt (compressAmount out.nValue.toUInt64.toNat) ++ writeScript out.scriptPubKey

def readTxOut : Reader CTxOut := fun bs => do
  let (v, bs) ← readVarInt (2 ^ 64 - 1) bs
  let (scriptPubKey, bs) ← readScript bs
  some (⟨(UInt64.ofNat (decompressAmount v)).toInt64, scriptPubKey⟩, bs)

def Compressible (out : CTxOut) : Prop :=
  0 ≤ out.nValue.toInt ∧ out.nValue.toInt ≤ 10 ^ 16 ∧ out.scriptPubKey.length ≤ maxScriptSize

theorem reads_txOut (law : DecompressesKeys) : Reads Compressible writeTxOut readTxOut := by
  intro out rest valid
  obtain ⟨low, high, short⟩ := valid
  have bits := toNat_toUInt64 low
  obtain ⟨back, small⟩ := decompressAmount_compressAmount out.nValue.toUInt64.toNat (by omega)
  have amount := reads_varInt (2 ^ 64 - 1) (compressAmount out.nValue.toUInt64.toNat)
    (writeScript out.scriptPubKey ++ rest) (by omega)
  have script := reads_script law out.scriptPubKey rest short
  simp only [writeTxOut, readTxOut, append_assoc, amount, bind_eq_bind,
    bind_some, script, back, UInt64.ofNat_toNat, Int64.toInt64_toUInt64]

end

end Qogecoin.Coins
