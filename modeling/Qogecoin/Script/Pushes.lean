import Qogecoin.Script.Opcode
import Qogecoin.Script.Operations

/-! Scripts built with `operator<<` are read back by `GetOp`, and `CheckMinimalPush` accepts the
shortest push of an element. -/
namespace Qogecoin.Script

open Codec List ScriptNum

inductive Item where
  | opcode (code : UInt8)
  | data (b : Bytes)

def append (script : Bytes) : Item → Bytes
  | .opcode code => script ++ [code]
  | .data b => script ++ pushBytes b

def Item.Valid : Item → Prop
  | .opcode code => code = 0 ∨ ¬code ≤ Op.pushData4
  | .data b => b.length < 2 ^ 32

def pushOpcode (length : Nat) : UInt8 :=
  if length < 0x4c then .ofNat length
  else if length ≤ 0xff then Op.pushData1
  else if length ≤ 0xffff then Op.pushData2
  else Op.pushData4

/-- What `GetOp` is to return for an item. -/
def Item.read : Item → UInt8 × Bytes
  | .opcode code => (code, [])
  | .data b => (pushOpcode b.length, b)

def Ops.reads : Ops → List (UInt8 × Bytes)
  | .op read rest => (read.opcode, read.data) :: rest.reads
  | _ => []

/-- Running the instruction puts the element on the stack. -/
def Pushes (b element : Bytes) : Prop :=
  ∃ opcode data, getScriptOp b = .ok ⟨opcode, data, []⟩ ∧
    (opcode ≤ Op.pushData4 ∧ element = data ∨
      ∃ n, decode opcode = .number n ∧ element = serialize n)

variable {opcode : UInt8} {data b : Bytes}

theorem push_cases (push : opcode ≤ Op.pushData4) : opcode < Op.pushData1 ∨
    opcode = Op.pushData1 ∨ opcode = Op.pushData2 ∨ opcode = Op.pushData4 := by
  simp only [UInt8.le_iff_toNat_le, UInt8.lt_iff_toNat_lt, ← UInt8.toNat_inj, Op.pushData1,
    Op.pushData2, Op.pushData4, UInt8.reduceToNat] at push ⊢
  omega

theorem direct_of_lt {n : Nat} (short : n < 0x4c) :
    UInt8.ofNat n < Op.pushData1 ∧ (UInt8.ofNat n).toNat = n := by
  have same : (UInt8.ofNat n).toNat = n := by
    rw [UInt8.toNat_ofNat']
    omega
  exact ⟨UInt8.lt_iff_toNat_lt.mpr (same.trans_lt short), same⟩

theorem encodesOp_pushBytes (short : b.length < 2 ^ 32) :
    pushOpcode b.length ≤ Op.pushData4 ∧ EncodesOp (pushOpcode b.length) b (pushBytes b) := by
  have sized {opcode : UInt8} (width : Nat) (large : ¬opcode < Op.pushData1)
      (same : lengthWidth opcode = width) (fits : b.length < 256 ^ width)
      (push : opcode ≤ Op.pushData4) :
      opcode ≤ Op.pushData4 ∧ EncodesOp opcode b (opcode :: (leBytes width b.length ++ b)) := by
    rw [EncodesOp, if_pos push]
    refine ⟨push, _, rfl, by rw [leBytes_length, same], ?_⟩
    rw [if_neg large, leNat_leBytes, Nat.mod_eq_of_lt fits]
  unfold pushOpcode pushBytes
  split
  next direct =>
    obtain ⟨below, same⟩ := direct_of_lt direct
    have push := UInt8.le_trans (UInt8.le_of_lt below) (by decide : Op.pushData1 ≤ Op.pushData4)
    rw [EncodesOp, if_pos push]
    exact ⟨push, [], rfl, (if_pos below).symm, by rw [if_pos below, same]⟩
  · split
    · exact sized 1 (by decide) rfl (by omega) (by decide)
    · split
      · exact sized 2 (by decide) rfl (by omega) (by decide)
      · exact sized 4 (by decide) rfl (by omega) (by decide)

theorem lengthWidth_pushOpcode (n : Nat) : lengthWidth (pushOpcode n) =
    if n < 0x4c then 0 else if n ≤ 0xff then 1 else if n ≤ 0xffff then 2 else 4 := by
  unfold pushOpcode
  split
  next direct =>
    exact if_pos (direct_of_lt direct).1
  · split
    · rfl
    · split <;> rfl

theorem lengthWidth_le (opcode : UInt8) : lengthWidth opcode ≤ 4 := by
  unfold lengthWidth
  split_ifs <;> omega

/-- A push is at least as long as the one with the opcode for the length of its data. -/
theorem EncodesOp.shortest (push : opcode ≤ Op.pushData4) (encodes : EncodesOp opcode data b) :
    b.length = 1 + lengthWidth opcode + data.length ∧ data.length < 2 ^ 32 ∧
      lengthWidth (pushOpcode data.length) ≤ lengthWidth opcode ∧
      (lengthWidth opcode ≤ lengthWidth (pushOpcode data.length) →
        opcode = pushOpcode data.length) := by
  rw [EncodesOp, if_pos push] at encodes
  obtain ⟨size, rfl, width, length⟩ := encodes
  have bound := leNat_lt size
  rw [width] at bound
  refine ⟨by simp [width]; omega, ?_⟩
  rw [lengthWidth_pushOpcode]
  by_cases direct : opcode < Op.pushData1
  · rw [if_pos direct] at length
    have short : data.length < 0x4c := length ▸ UInt8.lt_iff_toNat_lt.mp direct
    rw [pushOpcode, if_pos short, if_pos short, length, UInt8.ofNat_toNat]
    exact ⟨by omega, Nat.zero_le _, fun _ => rfl⟩
  · rw [if_neg direct] at length
    rw [← length] at bound
    rw [pushOpcode]
    rcases (push_cases push).resolve_left direct with rfl | rfl | rfl <;>
      simp only [lengthWidth] at bound ⊢ <;> grind

/-- An element that `OP_1NEGATE` or one of `OP_1` to `OP_16` pushes. -/
def IsSmallNumber (element : Bytes) : Prop :=
  ∃ x : UInt8, element = [x] ∧ ((1 ≤ x ∧ x ≤ 16) ∨ x = 0x81)

theorem checkMinimalPush_eq (push : opcode ≤ Op.pushData4) (encodes : EncodesOp opcode data b) :
    checkMinimalPush data opcode = true ↔
      opcode = pushOpcode data.length ∧ ¬IsSmallNumber data := by
  obtain ⟨_, _, _, only⟩ := encodes.shortest push
  match data with
  | [] => simp [checkMinimalPush, pushOpcode, IsSmallNumber]
  | [x] =>
    simp only [checkMinimalPush, pushOpcode, IsSmallNumber]
    split <;> simp_all
  | x :: y :: rest =>
    have large : ¬IsSmallNumber (x :: y :: rest) := by simp [IsSmallNumber]
    rw [lengthWidth_pushOpcode] at only
    have narrow := lengthWidth_le opcode
    rw [and_iff_left large, pushOpcode]
    simp only [checkMinimalPush]
    generalize (x :: y :: rest).length = n at only
    by_cases direct : n < 0x4c
    · rw [if_pos (by omega), if_pos direct, beq_iff_eq, ← UInt8.toNat_inj, (direct_of_lt direct).2]
    rw [if_neg (by omega : ¬n ≤ 75), if_neg direct]
    by_cases one : n ≤ 255
    · rw [if_pos one, if_pos one, beq_iff_eq]
    · rw [if_neg one, if_neg one]
      by_cases two : n ≤ 65535
      · rw [if_pos two, if_pos two, beq_iff_eq]
      · have four := only (by rwa [if_neg direct, if_neg one, if_neg two])
        rw [pushOpcode, if_neg direct, if_neg one, if_neg two] at four
        simp [two, four]

theorem serialize_small {k : Nat} (positive : 1 ≤ k) (small : k ≤ 16) :
    serialize k = [.ofNat k] := by
  interval_cases k <;> simp [serialize, absBytes] <;> decide

theorem serialize_negOne : serialize (-1) = [0x81] := by
  simp [serialize, absBytes]
  decide

theorem decode_number {n : Int} : decode opcode = .number n ↔
    opcode = 0x4f ∧ n = -1 ∨ 0x50 < opcode.toNat ∧ opcode.toNat ≤ 0x60 ∧ n = opcode.toNat - 0x50 := by
  rw [← UInt8.toNat_inj, decode, show (0x4f : UInt8).toNat = 0x4f from rfl]
  generalize opcode.toNat = k
  split
  -- every opcode of the table but the first is no number and outside the range
  all_goals try
    simp only [reduceCtorEq, false_iff]
    omega
  · grind
  · split_ifs <;> grind

theorem isSmallNumber_iff {element : Bytes} : IsSmallNumber element ↔
    ∃ opcode n, decode opcode = .number n ∧ serialize n = element := by
  constructor
  · rintro ⟨x, rfl, ⟨low, high⟩ | rfl⟩
    · rw [UInt8.le_iff_toNat_le] at low high
      refine ⟨0x50 + x, x.toNat, decode_number.mpr (.inr ?_), ?_⟩
      · simp at low high ⊢
        omega
      · rw [serialize_small low high, UInt8.ofNat_toNat]
    · exact ⟨0x4f, -1, rfl, serialize_negOne⟩
  · rintro ⟨opcode, n, number, rfl⟩
    rcases decode_number.mp number with ⟨_, rfl⟩ | ⟨low, high, rfl⟩
    · exact ⟨0x81, serialize_negOne, .inr rfl⟩
    · have same : ((opcode.toNat : Int) - 0x50) = (opcode.toNat - 0x50 : Nat) := by omega
      refine ⟨_, same ▸ serialize_small (by omega) (by omega), .inl ?_⟩
      simp only [UInt8.le_iff_toNat_le, UInt8.toNat_ofNat', UInt8.reduceToNat]
      omega

theorem minimalPush_iff (push : opcode ≤ Op.pushData4) (encodes : EncodesOp opcode data b) :
    checkMinimalPush data opcode = true ↔ ∀ c, Pushes c data → b.length ≤ c.length := by
  obtain ⟨length, short, least, only⟩ := encodes.shortest push
  rw [checkMinimalPush_eq push encodes, isSmallNumber_iff]
  constructor
  · rintro ⟨same, large⟩ c ⟨opcode', data', read, element⟩
    obtain ⟨c', whole, encodes'⟩ := getScriptOp_iff.mp read
    rw [append_nil] at whole
    subst whole
    rcases element with ⟨push', rfl⟩ | ⟨n, number, element⟩
    · obtain ⟨length', _, least', _⟩ := encodes'.shortest push'
      rw [← same] at least'
      omega
    · exact absurd ⟨opcode', n, number, element.symm⟩ large
  · intro shortest
    constructor
    · obtain ⟨push', encodes'⟩ := encodesOp_pushBytes short
      have longer := shortest (pushBytes data)
        ⟨_, data, getScriptOp_iff.mpr ⟨_, (append_nil _).symm, encodes'⟩, .inl ⟨push', rfl⟩⟩
      have length' := (encodes'.shortest push').1
      exact only (by omega)
    · rintro ⟨opcode', n, number, element⟩
      have plain : ¬opcode' ≤ Op.pushData4 := by
        rw [UInt8.le_iff_toNat_le]
        rcases decode_number.mp number with ⟨rfl, _⟩ | ⟨low, _⟩
        · decide
        · exact not_le.mpr (lt_trans (by decide) low)
      have one := shortest [opcode'] ⟨opcode', [], getScriptOp_iff.mpr ⟨[opcode'], rfl, ?_⟩,
        .inr ⟨n, number, element.symm⟩⟩
      · obtain ⟨x, rfl, _⟩ := isSmallNumber_iff.mpr ⟨opcode', n, number, element⟩
        simp at one length
        omega
      · rw [EncodesOp, if_neg plain]
        exact ⟨rfl, rfl⟩

theorem foldl_append (items : List Item) (script : Bytes) :
    items.foldl append script = script ++ items.flatMap (append []) := by
  induction items generalizing script with
  | nil => simp
  | cons item items ih =>
    rw [foldl_cons, ih, flatMap_cons, ← append_assoc]
    cases item <;> rfl

theorem Item.encodes {item : Item} (valid : item.Valid) :
    EncodesOp item.read.1 item.read.2 (append [] item) := by
  cases item with
  | data b => exact (encodesOp_pushBytes valid).2
  | opcode code =>
    rcases valid with rfl | plain
    · exact ⟨[], rfl, rfl, rfl⟩
    · exact (if_neg plain).mpr ⟨rfl, rfl⟩

theorem readOps_flatMap {items : List Item} (valid : ∀ item ∈ items, item.Valid) :
    (readOps (items.flatMap (append []))).reads = items.map Item.read ∧
      (readOps (items.flatMap (append []))).complete = true := by
  induction items with
  | nil => simp [Ops.reads, Ops.complete]
  | cons item items ih =>
    obtain ⟨first, others⟩ := forall_mem_cons.mp valid
    obtain ⟨reads, complete⟩ := ih others
    have read := getScriptOp_iff.mpr
      ⟨_, rfl (a := _ ++ items.flatMap (append [])), item.encodes first⟩
    rw [flatMap_cons, readOps_op read, Ops.reads, Ops.complete, reads]
    exact ⟨rfl, complete⟩

theorem building_and_parsing_agree :
    (∀ items : List Item, (∀ item ∈ items, item.Valid) →
      (readOps (items.foldl append [])).reads = items.map Item.read ∧
        (readOps (items.foldl append [])).complete = true) ∧
    (∀ script, (∀ b ∈ operations script, b ≠ []) ∧ (operations script).flatten <+: script) ∧
    ∀ pc opcode data rest, getScriptOp pc = .ok ⟨opcode, data, rest⟩ → opcode ≤ Op.pushData4 →
      (checkMinimalPush data opcode = true ↔
        ∀ c, Pushes c data → pc.length - rest.length ≤ c.length) := by
  refine ⟨?_, ?_, ?_⟩
  · intro items valid
    rw [foldl_append, nil_append]
    exact readOps_flatMap valid
  · intro script
    obtain ⟨all, covers, _⟩ := operations_spec script
    exact ⟨fun b member => (all b member).ne_nil, covers⟩
  · intro pc opcode data rest read push
    obtain ⟨b, rfl, encodes⟩ := getScriptOp_iff.mp read
    rw [length_append, Nat.add_sub_cancel]
    exact minimalPush_iff push encodes

/-- `OP_PUSHDATA1` is no direct push, but what follows it is read as its length and data. -/
theorem bare_pushData1_not_read :
    readOps ([Item.opcode Op.pushData1].foldl append []) = .bad [] :=
  readOps_bad (by decide) rfl

end Qogecoin.Script
