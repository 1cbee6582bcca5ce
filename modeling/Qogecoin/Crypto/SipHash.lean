import Qogecoin.Library.Codec

/-! SipHash-2-4. -/
namespace Qogecoin

open Codec

structure CSipHasher where
  v0 : UInt64
  v1 : UInt64
  v2 : UInt64
  v3 : UInt64
  tmp : UInt64
  /-- Only the low 8 bits of the input size matter. -/
  count : UInt8
deriving DecidableEq, Repr

def rotl (x b : UInt64) : UInt64 := x <<< b ||| x >>> (64 - b)

namespace CSipHasher

variable (h : CSipHasher)

def sipRound : CSipHasher :=
  let v0 := h.v0 + h.v1
  let v1 := rotl h.v1 13 ^^^ v0
  let v0 := rotl v0 32
  let v2 := h.v2 + h.v3
  let v3 := rotl h.v3 16 ^^^ v2
  let v0 := v0 + v3
  let v3 := rotl v3 21 ^^^ v0
  let v2 := v2 + v1
  let v1 := rotl v1 17 ^^^ v2
  let v2 := rotl v2 32
  { h with v0, v1, v2, v3 }

def init (k0 k1 : UInt64) : CSipHasher where
  v0 := 0x736f6d6570736575 ^^^ k0
  v1 := 0x646f72616e646f6d ^^^ k1
  v2 := 0x6c7967656e657261 ^^^ k0
  v3 := 0x7465646279746573 ^^^ k1
  tmp := 0
  count := 0

def compress (word : UInt64) : CSipHasher :=
  let h := ({ h with v3 := h.v3 ^^^ word } : CSipHasher).sipRound.sipRound
  { h with v0 := h.v0 ^^^ word }

/-- `Write` of an integer, for which the count must be a multiple of 8. -/
def writeUint64 (data : UInt64) : CSipHasher :=
  let h := h.compress data
  { h with count := h.count + 8 }

def writeByte (byte : UInt8) : CSipHasher :=
  let tmp := h.tmp ||| byte.toUInt64 <<< (8 * (h.count % 8)).toUInt64
  let h := { h with tmp, count := h.count + 1 }
  if h.count &&& 7 = 0 then { h.compress h.tmp with tmp := 0 } else h

def write (data : Bytes) : CSipHasher := data.foldl writeByte h

def finalize : UInt64 :=
  let h := h.compress (h.tmp ||| h.count.toUInt64 <<< 56)
  let h := ({ h with v2 := h.v2 ^^^ 0xFF } : CSipHasher).sipRound.sipRound.sipRound.sipRound
  h.v0 ^^^ h.v1 ^^^ h.v2 ^^^ h.v3

end CSipHasher

example : (CSipHasher.init 0x0706050403020100 0x0F0E0D0C0B0A0908).finalize = 0x726fdb47dd0e0e31 := by
  decide +kernel
example : ((CSipHasher.init 0x0706050403020100 0x0F0E0D0C0B0A0908).write [0]).finalize =
    0x74f839c593dc67fd := by
  decide +kernel

end Qogecoin
