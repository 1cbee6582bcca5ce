import Qogecoin.Library.Codec

/-! `CScript`: a script is its bytes, an iterator into it is the unread rest. The loops of the
code over `GetOp` are recursions on the list of instructions `readOps` reads. A flag word is the
set of its bits, so that adding flags is set inclusion. Numbers on the stack are little-endian with
a sign bit; values read are at most five bytes long, so the 64-bit arithmetic of the code is
arithmetic on integers. -/
namespace Qogecoin.Script

open Codec List

namespace Op

def pushData1 : UInt8 := 0x4c
def pushData2 : UInt8 := 0x4d
def pushData4 : UInt8 := 0x4e
def op1 : UInt8 := 0x51
def op2 : UInt8 := 0x52
def op16 : UInt8 := 0x60
def opIf : UInt8 := 0x63
def opEndIf : UInt8 := 0x68
def dup : UInt8 := 0x76
def equal : UInt8 := 0x87
def equalVerify : UInt8 := 0x88
def hash160 : UInt8 := 0xa9
def codeSeparator : UInt8 := 0xab
def checkSig : UInt8 := 0xac
def checkSigVerify : UInt8 := 0xad
def checkMultiSig : UInt8 := 0xae
def checkMultiSigVerify : UInt8 := 0xaf

end Op

def lockTimeThreshold : Nat := 500000000

/-- What `GetScriptOp` returns, with the iterator it leaves behind. -/
structure OpRead where
  opcode : UInt8
  data : Bytes
  pc : Bytes
deriving DecidableEq, Repr

def lengthWidth (opcode : UInt8) : Nat :=
  if opcode < Op.pushData1 then 0
  else if opcode = Op.pushData1 then 1
  else if opcode = Op.pushData2 then 2
  else 4

def pushSize (opcode : UInt8) (pc : Bytes) : Nat :=
  if opcode < Op.pushData1 then opcode.toNat else leNat (pc.take (lengthWidth opcode))

/-- On failure the iterator stays where reading stopped. -/
def getScriptOp : Bytes → Except Bytes OpRead
  | [] => .error []
  | opcode :: pc =>
    if opcode ≤ Op.pushData4 then
      if pc.length < lengthWidth opcode then .error pc
      else
        let nSize := pushSize opcode pc
        let operand := pc.drop (lengthWidth opcode)
        if operand.length < nSize then .error operand
        else .ok ⟨opcode, operand.take nSize, operand.drop nSize⟩
    else .ok ⟨opcode, [], pc⟩

theorem getScriptOp_length {pc : Bytes} {op : OpRead} (read : getScriptOp pc = .ok op) :
    op.pc.length < pc.length := by
  cases pc with
  | nil => cases read
  | cons opcode pc =>
    simp only [getScriptOp] at read
    split at read
    · split at read
      · cases read
      · split at read
        · cases read
        · cases read
          simp only [length_drop, length_cons]
          omega
    · cases read
      simp

/-- The instructions a loop over `GetOp` sees: it ends at the end of the script, or at bytes
that are no instruction. -/
inductive Ops where
  | done
  | bad (pc : Bytes)
  | op (read : OpRead) (rest : Ops)
deriving Repr

def readOps (pc : Bytes) : Ops :=
  if pc = [] then .done
  else
    match _read : getScriptOp pc with
    | .error stop => .bad stop
    | .ok op => .op op (readOps op.pc)
termination_by pc.length
decreasing_by exact getScriptOp_length _read

@[simp] theorem readOps_nil : readOps [] = .done := by
  rw [readOps]
  rfl

theorem readOps_op {pc : Bytes} {op : OpRead} (read : getScriptOp pc = .ok op) :
    readOps pc = .op op (readOps op.pc) := by
  have nonempty : pc ≠ [] := by
    rintro rfl
    cases read
  rw [readOps, if_neg nonempty]
  split
  next failed =>
    rw [read] at failed
    cases failed
  next again =>
    rw [read] at again
    cases again
    rfl

def Ops.pushOnly : Ops → Bool
  | .done => true
  | .bad _ => false
  | .op read rest => if read.opcode > Op.op16 then false else rest.pushOnly

def isPushOnly (script : Bytes) : Bool := (readOps script).pushOnly

def isPayToScriptHash (script : Bytes) : Bool :=
  script.length == 23 && script.getD 0 0 == Op.hash160 && script.getD 1 0 == 0x14
    && script.getD 22 0 == Op.equal

def isWitnessProgram : Bytes → Option (Nat × Bytes)
  | first :: size :: program =>
    if program.length + 2 < 4 ∨ program.length + 2 > 42 then none
    else if first ≠ 0 ∧ (first < Op.op1 ∨ first > Op.op16) then none
    else if size.toNat + 2 = program.length + 2 then
      some (if first = 0 then 0 else first.toNat - 0x50, program)
    else none
  | _ => none

section

variable {script : Bytes} {witversion : Nat} {program : Bytes}
  (found : isWitnessProgram script = some (witversion, program))
include found

theorem isWitnessProgram_eq_some :
    ∃ first size, script = first :: size :: program ∧ size.toNat = program.length ∧
      witversion = if first = 0 then 0 else first.toNat - 0x50 := by
  unfold isWitnessProgram at found
  split at found
  next first size rest =>
    split at found
    · cases found
    · split at found
      · cases found
      · split at found
        next sized =>
          cases found
          exact ⟨first, size, rfl, by omega, rfl⟩
        · cases found
  · cases found

theorem script_of_program (long : program.length = 32) (version : witversion = 1 ∨ witversion = 2) :
    script = (if witversion = 1 then Op.op1 else Op.op2) :: 0x20 :: program := by
  obtain ⟨first, size, rfl, sized, number⟩ := isWitnessProgram_eq_some found
  have push : size = 0x20 := by
    apply UInt8.toNat_inj.mp
    rw [sized, long]
    rfl
  have byte : first.toNat = 0x50 + witversion := by
    split at number
    · omega
    · omega
  rw [push]
  congr 1
  apply UInt8.toNat_inj.mp
  rcases version with rfl | rfl
  · exact byte
  · exact byte

end

def pushBytes (b : Bytes) : Bytes :=
  if b.length < 0x4c then .ofNat b.length :: b
  else if b.length ≤ 0xff then Op.pushData1 :: .ofNat b.length :: b
  else if b.length ≤ 0xffff then Op.pushData2 :: leBytes 2 b.length ++ b
  else Op.pushData4 :: leBytes 4 b.length ++ b

def isOpSuccess (opcode : UInt8) : Bool :=
  let n := opcode.toNat
  n == 80 || n == 98 || (126 ≤ n && n ≤ 129) || (131 ≤ n && n ≤ 134) || (137 ≤ n && n ≤ 138)
    || (141 ≤ n && n ≤ 142) || (149 ≤ n && n ≤ 153) || (187 ≤ n && n ≤ 254)

/-- For opcodes up to `OP_PUSHDATA4`. -/
def checkMinimalPush (data : Bytes) (opcode : UInt8) : Bool :=
  match data with
  | [] => opcode == 0
  | [b] => if (1 ≤ b ∧ b ≤ 16) ∨ b = 0x81 then false else opcode == 1
  | _ =>
    if data.length ≤ 75 then opcode.toNat == data.length
    else if data.length ≤ 255 then opcode == Op.pushData1
    else if data.length ≤ 65535 then opcode == Op.pushData2
    else true

def castToBool : Bytes → Bool
  | [] => false
  | [b] => b ≠ 0 && b ≠ 0x80
  | b :: bs => b ≠ 0 || castToBool bs

def skipMatches (b pc : Bytes) : Nat × Bytes :=
  if b ≠ [] ∧ b <+: pc then
    let (found, rest) := skipMatches b (pc.drop b.length)
    (found + 1, rest)
  else (0, pc)
termination_by pc.length
decreasing_by
  rename_i here
  have positive := length_pos_iff.mpr here.1
  have fits := here.2.length_le
  simp only [length_drop]
  omega

theorem skipMatches_length (b pc : Bytes) : (skipMatches b pc).2.length ≤ pc.length := by
  fun_induction skipMatches b pc with
  | case1 pc here found rest split ih =>
    rw [split] at ih
    simp only [length_drop] at ih
    simp only
    omega
  | case2 pc here => exact Nat.le_refl _

def deleteFrom (b pc : Bytes) : Nat × Bytes :=
  let here := skipMatches b pc
  match _read : getScriptOp here.2 with
  | .error _ => here
  | .ok op =>
    let later := deleteFrom b op.pc
    (here.1 + later.1, here.2.take (here.2.length - op.pc.length) ++ later.2)
termination_by pc.length
decreasing_by exact lt_of_lt_of_le (getScriptOp_length _read) (skipMatches_length b pc)

def findAndDelete (script b : Bytes) : Nat × Bytes :=
  if b = [] then (0, script)
  else
    let deleted := deleteFrom b script
    if deleted.1 > 0 then deleted else (0, script)

inductive Flag where
  | p2sh
  | strictEnc
  | derSig
  | lowS
  | nullDummy
  | sigPushOnly
  | minimalData
  | discourageUpgradableNops
  | cleanStack
  | checkLockTimeVerify
  | checkSequenceVerify
  | witness
  | discourageUpgradableWitnessProgram
  | minimalIf
  | nullFail
  | witnessPubKeyType
  | constScriptCode
  | taproot
  | discourageUpgradableTaprootVersion
  | discourageOpSuccess
  | discourageUpgradablePubKeyType
  | p2qpk
deriving DecidableEq, Repr

abbrev Flags := Finset Flag

namespace ScriptNum

def hasExcessByte (vch : Bytes) : Bool :=
  match vch.reverse with
  | [] => false
  | [last] => last &&& 0x7f == 0
  | last :: previous :: _ => last &&& 0x7f == 0 && previous &&& 0x80 == 0

def setVch (vch : Bytes) : Int :=
  match vch.getLast? with
  | none => 0
  | some last =>
    if last &&& 0x80 ≠ 0 then -((leNat vch : Int) - 0x80 * 256 ^ (vch.length - 1))
    else leNat vch

/-- The constructor from a stack element; `none` is a `scriptnum_error`. -/
def ofBytes (vch : Bytes) (fRequireMinimal : Bool) (nMaxNumSize : Nat) : Option Int :=
  if vch.length > nMaxNumSize then none
  else if fRequireMinimal && hasExcessByte vch then none
  else some (setVch vch)

def nDefaultMaxNumSize : Nat := 4

def getInt (n : Int) : Int := max (-2 ^ 31) (min n (2 ^ 31 - 1))

def absBytes (absvalue : Nat) : Bytes :=
  if absvalue = 0 then [] else .ofNat absvalue :: absBytes (absvalue / 256)

def serialize (value : Int) : Bytes :=
  if value = 0 then []
  else
    let result := absBytes value.natAbs
    let last := result.getLastD 0
    if last &&& 0x80 ≠ 0 then result ++ [if value < 0 then 0x80 else 0]
    else if value < 0 then result.dropLast ++ [last ||| 0x80]
    else result

theorem ofBytes_relax {vch : Bytes} {strict lenient : Bool} {nMaxNumSize : Nat} {n : Int}
    (weaker : lenient → strict) (read : ofBytes vch strict nMaxNumSize = some n) :
    ofBytes vch lenient nMaxNumSize = some n := by
  unfold ofBytes at read ⊢
  split at read
  · cases read
  rename_i short
  rw [if_neg short]
  split at read
  · cases read
  next accepted =>
    have : ¬(lenient && hasExcessByte vch) = true := by
      intro both
      simp only [Bool.and_eq_true] at both accepted
      exact accepted ⟨weaker both.1, both.2⟩
    rw [if_neg this]
    exact read

end ScriptNum

end Qogecoin.Script
