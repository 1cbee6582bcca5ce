import Qogecoin.Library.Codec

/-! Hashes, transactions and coins. A `uint256` is an opaque blob of 32 bytes, in the byte order in
which it is hashed and stored. Scripts and witness items are byte strings; amounts keep their
64-bit type. A spent coin of the unspent output set is one whose output is null. -/
namespace Qogecoin

open Codec

structure Uint256 where
  bytes : Bytes
  size : bytes.length = 32
deriving DecidableEq, Repr

namespace Uint256

/-- `uint256S`: the hex text of a blob is the numeral of its little-endian value. -/
def uint256S (n : Nat) : Uint256 := ⟨leBytes 32 n, by simp⟩

variable (h : Uint256)

def toNat : Nat := leNat h.bytes

def null : Uint256 := uint256S 0

def isNull : Bool := h.bytes.all (· == 0)

theorem toNat_lt : h.toNat < 2 ^ 256 := by
  have bound := leNat_lt h.bytes
  rw [h.size] at bound
  calc h.toNat < 256 ^ 32 := bound
    _ = 2 ^ 256 := by norm_num

theorem uint256S_toNat (n : Nat) (fits : n < 2 ^ 256) : (uint256S n).toNat = n := by
  rw [toNat, uint256S, leNat_leBytes]
  exact Nat.mod_eq_of_lt (lt_of_lt_of_eq fits (by norm_num))

theorem toNat_injective (g h : Uint256) (same : g.toNat = h.toNat) : g = h := by
  obtain ⟨gs, hg⟩ := g
  obtain ⟨hs, hh⟩ := h
  have left := leBytes_leNat gs
  have right := leBytes_leNat hs
  rw [hg] at left
  rw [hh] at right
  congr
  rw [← left, ← right]
  exact congrArg (leBytes 32) same

def bigEndian : Nat := leNat h.bytes.reverse

theorem bigEndian_injective (g h : Uint256) (same : g.bigEndian = h.bigEndian) : g = h := by
  obtain ⟨gs, hg⟩ := g
  obtain ⟨hs, hh⟩ := h
  have left := leBytes_leNat gs.reverse
  have right := leBytes_leNat hs.reverse
  rw [List.length_reverse, hg] at left
  rw [List.length_reverse, hh] at right
  congr
  apply List.reverse_injective
  rw [← left, ← right]
  exact congrArg (leBytes 32) same

instance : LinearOrder Uint256 := LinearOrder.lift' bigEndian bigEndian_injective

theorem null_le : null ≤ h := by
  show null.bigEndian ≤ h.bigEndian
  rw [show null.bigEndian = 0 by decide]
  exact Nat.zero_le _

end Uint256

structure COutPoint where
  hash : Uint256
  n : UInt32
deriving DecidableEq, Repr

def COutPoint.nullIndex : UInt32 := 0xffffffff

def COutPoint.isNull (o : COutPoint) : Bool := o.hash.isNull && o.n == COutPoint.nullIndex

structure CTxIn where
  prevout : COutPoint
  scriptSig : Bytes
  nSequence : UInt32
  scriptWitness : List Bytes
deriving DecidableEq, Repr

namespace CTxIn

def sequenceFinal : UInt32 := 0xffffffff

def sequenceLockTimeDisableFlag : UInt32 := 0x80000000

def sequenceLockTimeTypeFlag : UInt32 := 0x00400000

def sequenceLockTimeMask : UInt32 := 0x0000ffff

end CTxIn

structure CTxOut where
  nValue : Int64
  scriptPubKey : Bytes
deriving DecidableEq, Repr

def CTxOut.null : CTxOut := ⟨-1, []⟩

def CTxOut.isNull (out : CTxOut) : Bool := out.nValue == -1

structure CTransaction where
  nVersion : Int32
  vin : List CTxIn
  vout : List CTxOut
  nLockTime : UInt32
deriving DecidableEq, Repr

def CTransaction.isCoinBase (tx : CTransaction) : Bool :=
  match tx.vin with
  | [txin] => txin.prevout.isNull
  | _ => false

def CTransaction.hasWitness (tx : CTransaction) : Bool :=
  tx.vin.any fun txin => !txin.scriptWitness.isEmpty

structure Coin where
  out : CTxOut
  fCoinBase : Bool
  nHeight : BitVec 31
deriving DecidableEq, Repr

namespace Coin

def empty : Coin := ⟨CTxOut.null, false, 0⟩

def isSpent (coin : Coin) : Bool := coin.out.isNull

@[simp] theorem empty_isSpent : empty.isSpent = true := by decide

end Coin

def maxScriptSize : Nat := 10000

/-- `CScript::IsUnspendable`: starts with `OP_RETURN` or is too long to run. -/
def isUnspendable (script : Bytes) : Bool :=
  script.head? == some 0x6a || script.length > maxScriptSize

end Qogecoin
