import Qogecoin.Script.Script

/-! The opcodes by what the interpreter's `switch` does with them: opcodes that share a `case`
share a constructor and differ in its argument. -/
namespace Qogecoin.Script

inductive StackOp where
  | twoDrop | twoDup | threeDup | twoOver | twoRot | twoSwap
  | ifDup | depth | drop | dup | nip | over | pick | roll | rot | swap | tuck
  | size
deriving DecidableEq, Repr

inductive UnaryOp where
  | oneAdd | oneSub | negate | abs | not | zeroNotEqual
deriving DecidableEq, Repr

inductive BinaryOp where
  | add | sub | boolAnd | boolOr | numEqual | numEqualVerify | numNotEqual
  | lessThan | greaterThan | lessThanOrEqual | greaterThanOrEqual | min | max
deriving DecidableEq, Repr

inductive HashOp where
  | ripemd160 | sha1 | sha256 | hash160 | hash256
deriving DecidableEq, Repr

inductive Opcode where
  /-- `OP_1NEGATE` and `OP_1` to `OP_16`. -/
  | number (n : Int)
  | nop
  | checkLockTimeVerify
  | checkSequenceVerify
  /-- `OP_NOP1` and `OP_NOP4` to `OP_NOP10`. -/
  | upgradableNop
  | opIf (negated : Bool)
  | opElse
  | opEndIf
  | verify
  | opReturn
  | toAltStack
  | fromAltStack
  | stack (op : StackOp)
  | equal (verify : Bool)
  | unary (op : UnaryOp)
  | binary (op : BinaryOp)
  | within
  | hash (op : HashOp)
  | codeSeparator
  | checkSig (verify : Bool)
  | checkSigAdd
  | checkMultiSig (verify : Bool)
  /-- Everything the `switch` has no `case` for. -/
  | other
deriving DecidableEq, Repr

def decode (opcode : UInt8) : Opcode :=
  match opcode.toNat with
  | 0x4f => .number (-1)
  | 0x61 => .nop
  | 0x63 => .opIf false
  | 0x64 => .opIf true
  | 0x67 => .opElse
  | 0x68 => .opEndIf
  | 0x69 => .verify
  | 0x6a => .opReturn
  | 0x6b => .toAltStack
  | 0x6c => .fromAltStack
  | 0x6d => .stack .twoDrop
  | 0x6e => .stack .twoDup
  | 0x6f => .stack .threeDup
  | 0x70 => .stack .twoOver
  | 0x71 => .stack .twoRot
  | 0x72 => .stack .twoSwap
  | 0x73 => .stack .ifDup
  | 0x74 => .stack .depth
  | 0x75 => .stack .drop
  | 0x76 => .stack .dup
  | 0x77 => .stack .nip
  | 0x78 => .stack .over
  | 0x79 => .stack .pick
  | 0x7a => .stack .roll
  | 0x7b => .stack .rot
  | 0x7c => .stack .swap
  | 0x7d => .stack .tuck
  | 0x82 => .stack .size
  | 0x87 => .equal false
  | 0x88 => .equal true
  | 0x8b => .unary .oneAdd
  | 0x8c => .unary .oneSub
  | 0x8f => .unary .negate
  | 0x90 => .unary .abs
  | 0x91 => .unary .not
  | 0x92 => .unary .zeroNotEqual
  | 0x93 => .binary .add
  | 0x94 => .binary .sub
  | 0x9a => .binary .boolAnd
  | 0x9b => .binary .boolOr
  | 0x9c => .binary .numEqual
  | 0x9d => .binary .numEqualVerify
  | 0x9e => .binary .numNotEqual
  | 0x9f => .binary .lessThan
  | 0xa0 => .binary .greaterThan
  | 0xa1 => .binary .lessThanOrEqual
  | 0xa2 => .binary .greaterThanOrEqual
  | 0xa3 => .binary .min
  | 0xa4 => .binary .max
  | 0xa5 => .within
  | 0xa6 => .hash .ripemd160
  | 0xa7 => .hash .sha1
  | 0xa8 => .hash .sha256
  | 0xa9 => .hash .hash160
  | 0xaa => .hash .hash256
  | 0xab => .codeSeparator
  | 0xac => .checkSig false
  | 0xad => .checkSig true
  | 0xae => .checkMultiSig false
  | 0xaf => .checkMultiSig true
  | 0xb1 => .checkLockTimeVerify
  | 0xb2 => .checkSequenceVerify
  | 0xba => .checkSigAdd
  | n =>
    if 0x51 ≤ n ∧ n ≤ 0x60 then .number (n - 0x50)
    else if n = 0xb0 ∨ (0xb3 ≤ n ∧ n ≤ 0xb9) then .upgradableNop
    else .other

/-- `OP_CAT`, `OP_SUBSTR`, `OP_LEFT`, `OP_RIGHT`, `OP_INVERT`, `OP_AND`, `OP_OR`, `OP_XOR`,
`OP_2MUL`, `OP_2DIV`, `OP_MUL`, `OP_DIV`, `OP_MOD`, `OP_LSHIFT`, `OP_RSHIFT`. -/
def disabledOpcodes : List UInt8 :=
  [0x7e, 0x7f, 0x80, 0x81, 0x83, 0x84, 0x85, 0x86, 0x8d, 0x8e, 0x95, 0x96, 0x97, 0x98, 0x99]

end Qogecoin.Script
