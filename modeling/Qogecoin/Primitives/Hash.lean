import Qogecoin.Primitives.Transaction

/-! The cryptographic primitives, as functions nothing is assumed about, and the ways the code
composes them. -/
namespace Qogecoin

open Codec

structure Uint160 where
  bytes : Bytes
  size : bytes.length = 20
deriving DecidableEq, Repr

/-- Hash functions, and the answers of `libsecp256k1` and `liboqs` under the names of the members
that ask for them. -/
class Crypto where
  sha256 : Bytes → Uint256
  ripemd160 : Bytes → Uint160
  sha1 : Bytes → Uint160
  verifyECDSA : (pubkey : Bytes) → (hash : Uint256) → (sig : Bytes) → Bool
  checkLowS : (sig : Bytes) → Bool
  verifySchnorr : (pubkey : Bytes) → (hash : Uint256) → (sig : Bytes) → Bool
  checkTapTweak : (output internal : Bytes) → (merkleRoot : Uint256) → (parity : Bool) → Bool
  verifySLHDSA : (message sig pubkey : Bytes) → Bool
  yescrypt : Bytes → Uint256
  isFullyValid : (pubkey : Bytes) → Bool
  decompress : (pubkey : Bytes) → Option Bytes

namespace Crypto

variable [Crypto]

def hash256 (data : Bytes) : Uint256 := sha256 (sha256 data).bytes

def hash160 (data : Bytes) : Uint160 := ripemd160 (sha256 data).bytes

def tagBytes (tag : String) : Bytes := tag.toList.map fun c => UInt8.ofNat c.toNat

def taggedHash (tag : String) : Bytes :=
  let taghash := (sha256 (tagBytes tag)).bytes
  taghash ++ taghash

@[reducible] def blank : Crypto where
  sha256 _ := .null
  ripemd160 _ := ⟨List.replicate 20 0, rfl⟩
  sha1 _ := ⟨List.replicate 20 0, rfl⟩
  verifyECDSA _ _ _ := false
  checkLowS _ := false
  verifySchnorr _ _ _ := false
  checkTapTweak _ _ _ _ := false
  verifySLHDSA _ _ _ := false
  yescrypt _ := .null
  isFullyValid _ := false
  decompress _ := none

@[reducible] def firstBytes : Crypto :=
  { blank with sha256 := fun data => ⟨(data ++ List.replicate 32 0).take 32, by simp⟩ }

@[reducible] def residues : Crypto :=
  { blank with sha256 := fun data => .uint256S (leNat data % (2 ^ 256 - 189)) }

end Crypto

end Qogecoin
