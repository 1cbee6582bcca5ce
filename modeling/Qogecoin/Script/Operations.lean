import Qogecoin.Script.SigHash

/-! The instructions of a script as pieces of it: reading is taking off one of the code words of
`EncodesOp`, and `FindAndDelete` deletes whole instructions. The script code of a legacy signature
hash is the script without its code separators. -/
namespace Qogecoin.Script

open Codec List

/-- A script without its code separators: its other instructions, and all bytes behind the last
instruction that can be read. -/
def dropSeparators (script : Bytes) : Ops → Bytes
  | .done => []
  | .bad _ => script
  | .op read rest =>
    (if read.opcode = Op.codeSeparator then [] else script.take (script.length - read.pc.length))
      ++ dropSeparators read.pc rest

def unread : Ops → Bytes
  | .done => []
  | .bad stop => stop
  | .op _ rest => unread rest

theorem suffix_of_getScriptOp_error {pc stop : Bytes} (failed : getScriptOp pc = .error stop) :
    stop <:+ pc := by
  cases pc with
  | nil =>
    cases failed
    exact suffix_refl _
  | cons opcode pc =>
    simp only [getScriptOp] at failed
    split at failed
    · split at failed
      · cases failed
        exact suffix_cons _ _
      · split at failed
        · cases failed
          exact (drop_suffix _ _).trans (suffix_cons _ _)
        · cases failed
    · cases failed

/-- The bytes `b` are one instruction. -/
def EncodesOp (opcode : UInt8) (data b : Bytes) : Prop :=
  if opcode ≤ Op.pushData4 then
    ∃ size : Bytes, b = opcode :: (size ++ data) ∧ size.length = lengthWidth opcode ∧
      data.length = if opcode < Op.pushData1 then opcode.toNat else leNat size
  else data = [] ∧ b = [opcode]

theorem getScriptOp_iff {opcode : UInt8} {data pc rest : Bytes} :
    getScriptOp pc = .ok ⟨opcode, data, rest⟩ ↔ ∃ b, pc = b ++ rest ∧ EncodesOp opcode data b := by
  constructor
  · intro read
    cases pc with
    | nil => cases read
    | cons first pc =>
      rw [getScriptOp] at read
      split at read
      next push =>
        split at read
        · cases read
        dsimp only at read
        split at read
        · cases read
        rename_i wide long
        cases read
        have whole : pc.take (lengthWidth opcode) ++
            ((pc.drop (lengthWidth opcode)).take (pushSize opcode pc) ++
              (pc.drop (lengthWidth opcode)).drop (pushSize opcode pc)) = pc := by
          rw [take_append_drop, take_append_drop]
        refine ⟨opcode :: (pc.take (lengthWidth opcode) ++
          (pc.drop (lengthWidth opcode)).take (pushSize opcode pc)), ?_, ?_⟩
        · rw [cons_append, append_assoc, whole]
        · rw [EncodesOp, if_pos push]
          refine ⟨_, rfl, ?_, ?_⟩
          · rw [length_take]
            omega
          · rw [length_take, min_eq_left (by omega), pushSize]
      next plain =>
        cases read
        refine ⟨[opcode], rfl, ?_⟩
        rw [EncodesOp, if_neg plain]
        exact ⟨rfl, rfl⟩
  · rintro ⟨b, rfl, encodes⟩
    rw [EncodesOp] at encodes
    split at encodes
    next push =>
      obtain ⟨size, rfl, width, length⟩ := encodes
      have read : pushSize opcode (size ++ (data ++ rest)) = data.length := by
        rw [pushSize, ← width, take_left, length]
      rw [cons_append, append_assoc, getScriptOp, if_pos push, if_neg (by simp; omega), read,
        ← width, drop_left]
      simp
    next plain =>
      obtain ⟨rfl, rfl⟩ := encodes
      rw [singleton_append, getScriptOp, if_neg plain]

theorem getScriptOp_eq {pc : Bytes} {op : OpRead} (read : getScriptOp pc = .ok op) :
    ∃ operand, pc = op.opcode :: operand ++ op.pc ∧
      (op.opcode = Op.codeSeparator → operand = []) := by
  obtain ⟨b, same, encodes⟩ := getScriptOp_iff.mp read
  rw [EncodesOp] at encodes
  split at encodes
  next push =>
    obtain ⟨size, rfl, _⟩ := encodes
    exact ⟨_, same, fun separator => absurd (separator ▸ push) (by decide)⟩
  · obtain ⟨_, rfl⟩ := encodes
    exact ⟨[], same, fun _ => rfl⟩

theorem readOps_bad {pc stop : Bytes} (nonempty : pc ≠ []) (failed : getScriptOp pc = .error stop) :
    readOps pc = .bad stop := by
  rw [readOps, if_neg nonempty]
  split
  next again =>
    rw [failed] at again
    cases again
    rfl
  next read =>
    rw [failed] at read
    cases read

/-- The range that is being written when the rest of the script is `pc` begins before it. What is
written from there on, with what is not read, is that range and the rest without separators. -/
theorem withoutCodeSeparators_append (range pc : Bytes) :
    withoutCodeSeparators (range ++ pc) (readOps pc) ++ unread (readOps pc) =
      range ++ dropSeparators pc (readOps pc) := by
  induction pc using readOps.induct generalizing range with
  | case1 => simp [withoutCodeSeparators, unread, dropSeparators]
  | case2 pc nonempty stop failed =>
    obtain ⟨before, same⟩ := suffix_of_getScriptOp_error failed
    rw [readOps_bad nonempty failed]
    simp only [withoutCodeSeparators, unread, dropSeparators, ← same]
    rw [← append_assoc, length_append, Nat.add_sub_cancel, take_left]
  | case3 pc nonempty op read ih =>
    obtain ⟨operand, same, alone⟩ := getScriptOp_eq read
    rw [readOps_op read]
    simp only [withoutCodeSeparators, unread, dropSeparators]
    by_cases separator : op.opcode = Op.codeSeparator
    · rw [if_pos separator, if_pos separator, append_assoc]
      have here := ih []
      rw [nil_append] at here
      rw [here, same, alone separator, nil_append]
      have written : (range ++ ([op.opcode] ++ op.pc)).length - op.pc.length - 1 =
          range.length := by
        simp only [length_append, length_singleton]
        omega
      rw [written, take_left]
    · rw [if_neg separator, if_neg separator]
      have here := ih (range ++ op.opcode :: operand)
      rw [append_assoc, ← same] at here
      have written : pc.length - op.pc.length = (op.opcode :: operand).length := by
        rw [same, length_append, Nat.add_sub_cancel]
      rw [here, written, same, take_left, append_assoc]

theorem length_dropSeparators (pc : Bytes) :
    (dropSeparators pc (readOps pc)).length + countCodeSeparators (readOps pc) = pc.length := by
  induction pc using readOps.induct with
  | case1 => simp [dropSeparators, countCodeSeparators]
  | case2 pc nonempty stop failed =>
    rw [readOps_bad nonempty failed]
    rfl
  | case3 pc nonempty op read ih =>
    obtain ⟨operand, same, alone⟩ := getScriptOp_eq read
    rw [readOps_op read]
    simp only [dropSeparators, countCodeSeparators, length_append]
    have total : pc.length = operand.length + 1 + op.pc.length := by
      rw [same, length_append, length_cons]
    by_cases separator : op.opcode = Op.codeSeparator
    · rw [if_pos separator, if_pos separator, total, alone separator]
      omega
    · rw [if_neg separator, if_neg separator, length_take]
      omega

/-- A compact size and as many bytes, which are the script without its separators, are written if
and only if nothing is left unread. -/
theorem serializeScriptCode_complete_iff (scriptCode : Bytes) :
    (∃ written, serializeScriptCode scriptCode = writeCompactSize written.length ++ written ∧
        written = dropSeparators scriptCode (readOps scriptCode)) ↔
      unread (readOps scriptCode) = [] := by
  have length := length_dropSeparators scriptCode
  have parts := withoutCodeSeparators_append [] scriptCode
  rw [nil_append, nil_append] at parts
  have size : scriptCode.length - countCodeSeparators (readOps scriptCode) =
      (dropSeparators scriptCode (readOps scriptCode)).length := by omega
  rw [serializeScriptCode, size]
  constructor
  · rintro ⟨written, same, rfl⟩
    rw [← append_cancel_left same] at parts
    exact append_right_eq_self.mp parts
  · intro complete
    rw [complete, append_nil] at parts
    exact ⟨_, by rw [parts], rfl⟩

/-- A push of two bytes of which only one is there: the size written is that of the script, and
the byte behind the opcode is missing. -/
theorem serializeScriptCode_truncates :
    serializeScriptCode [0x02, 0x01] = writeCompactSize 2 ++ [0x02] ∧
      dropSeparators [0x02, 0x01] (readOps [0x02, 0x01]) = [0x02, 0x01] := by
  have bad : readOps [0x02, 0x01] = .bad [0x01] := readOps_bad (by decide) rfl
  rw [serializeScriptCode, bad]
  decide

def IsOperation (b : Bytes) : Prop := ∃ opcode data, EncodesOp opcode data b

variable {b : Bytes}

theorem IsOperation.read (operation : IsOperation b) (rest : Bytes) :
    ∃ opcode data, getScriptOp (b ++ rest) = .ok ⟨opcode, data, rest⟩ := by
  obtain ⟨opcode, data, encodes⟩ := operation
  exact ⟨opcode, data, getScriptOp_iff.mpr ⟨b, rfl, encodes⟩⟩

theorem IsOperation.ne_nil (operation : IsOperation b) : b ≠ [] := by
  rintro rfl
  obtain ⟨opcode, data, read⟩ := operation.read []
  cases read

theorem IsOperation.eq_of_prefix {c rest : Bytes} (first : IsOperation b) (second : IsOperation c)
    (before : b <+: c ++ rest) : b = c := by
  obtain ⟨rest', same⟩ := before
  obtain ⟨opcode, data, read⟩ := first.read rest'
  obtain ⟨opcode', data', read'⟩ := second.read rest
  rw [same, read'] at read
  cases read
  exact append_cancel_right same

def Ops.complete : Ops → Bool
  | .done => true
  | .bad _ => false
  | .op _ rest => rest.complete

def Ops.pieces (script : Bytes) : Ops → List Bytes
  | .done => []
  | .bad _ => []
  | .op read rest => script.take (script.length - read.pc.length) :: rest.pieces read.pc

def operations (script : Bytes) : List Bytes := (readOps script).pieces script

theorem readOps_append (operation : IsOperation b) (rest : Bytes) :
    operations (b ++ rest) = b :: operations rest ∧
      (readOps (b ++ rest)).complete = (readOps rest).complete := by
  obtain ⟨opcode, data, read⟩ := operation.read rest
  rw [operations, readOps_op read, Ops.pieces, Ops.complete, length_append, Nat.add_sub_cancel,
    take_left]
  exact ⟨rfl, rfl⟩

variable {pieces : List Bytes}

theorem operations_flatten (all : ∀ b ∈ pieces, IsOperation b) :
    operations pieces.flatten = pieces ∧ (readOps pieces.flatten).complete = true := by
  induction pieces with
  | nil => simp [operations, Ops.pieces, Ops.complete]
  | cons b pieces ih =>
    obtain ⟨operation, others⟩ := forall_mem_cons.mp all
    obtain ⟨same, complete⟩ := ih others
    obtain ⟨here, still⟩ := readOps_append operation pieces.flatten
    rw [flatten_cons, here, still, same]
    exact ⟨rfl, complete⟩

theorem operations_spec (script : Bytes) : (∀ b ∈ operations script, IsOperation b) ∧
    (operations script).flatten <+: script ∧
    ((readOps script).complete = true → (operations script).flatten = script) := by
  induction script using readOps.induct with
  | case1 => simp [operations, Ops.pieces]
  | case2 pc nonempty stop failed =>
    rw [operations, readOps_bad nonempty failed]
    simp [Ops.pieces, Ops.complete]
  | case3 pc nonempty op read ih =>
    obtain ⟨b, split, encodes⟩ := getScriptOp_iff.mp read
    have operation : IsOperation b := ⟨_, _, encodes⟩
    obtain ⟨all, before, whole⟩ := ih
    obtain ⟨here, still⟩ := readOps_append operation op.pc
    rw [split, here, still, forall_mem_cons, flatten_cons]
    exact ⟨⟨operation, all⟩, (prefix_append_right_inj b).mpr before,
      fun complete => by rw [whole complete]⟩

theorem skipMatches_copy (nonempty : b ≠ []) (pc : Bytes) :
    skipMatches b (b ++ pc) = ((skipMatches b pc).1 + 1, (skipMatches b pc).2) := by
  rw [skipMatches, if_pos ⟨nonempty, prefix_append b pc⟩, drop_left]

theorem deleteFrom_copy (nonempty : b ≠ []) (pc : Bytes) :
    deleteFrom b (b ++ pc) = ((deleteFrom b pc).1 + 1, (deleteFrom b pc).2) := by
  rw [deleteFrom, deleteFrom, skipMatches_copy nonempty]
  dsimp only
  split
  · rfl
  · rw [Nat.add_right_comm]

theorem deleteFrom_other {c : Bytes} (first : IsOperation b) (second : IsOperation c)
    (other : c ≠ b) (pc : Bytes) :
    deleteFrom b (c ++ pc) = ((deleteFrom b pc).1, c ++ (deleteFrom b pc).2) := by
  have stays : skipMatches b (c ++ pc) = (0, c ++ pc) := by
    rw [skipMatches, if_neg]
    exact fun here => other (first.eq_of_prefix second here.2).symm
  obtain ⟨opcode, data, read⟩ := second.read pc
  rw [deleteFrom, stays]
  dsimp only
  split
  next failed =>
    rw [read] at failed
    cases failed
  next again =>
    rw [read] at again
    cases again
    rw [Nat.zero_add, length_append, Nat.add_sub_cancel, take_left]

theorem deleteFrom_flatten (operation : IsOperation b) (all : ∀ c ∈ pieces, IsOperation c) :
    deleteFrom b pieces.flatten = (pieces.count b, (pieces.filter (· ≠ b)).flatten) := by
  induction pieces with
  | nil =>
    have none : skipMatches b [] = (0, []) := by
      rw [skipMatches, if_neg]
      exact fun here => here.1 (prefix_nil.mp here.2)
    rw [flatten_nil, deleteFrom, none]
    rfl
  | cons c pieces ih =>
    obtain ⟨here, others⟩ := forall_mem_cons.mp all
    rw [flatten_cons]
    by_cases same : c = b
    · subst same
      rw [deleteFrom_copy here.ne_nil, ih others]
      simp
    · rw [deleteFrom_other operation here same, ih others]
      simp [same]

theorem findAndDelete_flatten (operation : IsOperation b) (all : ∀ c ∈ pieces, IsOperation c) :
    findAndDelete pieces.flatten b = (pieces.count b, (pieces.filter (· ≠ b)).flatten) := by
  rw [findAndDelete, if_neg operation.ne_nil, deleteFrom_flatten operation all]
  dsimp only
  split_ifs with none
  · rfl
  · have absent : pieces.count b = 0 := by omega
    rw [absent, filter_eq_self.mpr]
    intro c member
    simp only [ne_eq, decide_eq_true_eq]
    rintro rfl
    exact count_eq_zero.mp absent member

theorem findAndDelete_exact (script b : Bytes) (parses : (readOps script).complete = true)
    (single : ∃ opcode data, getScriptOp b = .ok ⟨opcode, data, []⟩) :
    ∃ script', findAndDelete script b = ((operations script).count b, script') ∧
      operations script' = (operations script).filter (· ≠ b) ∧
      (readOps script').complete = true ∧ script' = (operations script').flatten ∧
      findAndDelete script' b = (0, script') := by
  obtain ⟨opcode, data, read⟩ := single
  obtain ⟨b', whole, encodes⟩ := getScriptOp_iff.mp read
  rw [append_nil] at whole
  subst whole
  have operation : IsOperation b := ⟨opcode, data, encodes⟩
  obtain ⟨all, _, covers⟩ := operations_spec script
  have kept : ∀ c ∈ (operations script).filter (· ≠ b), IsOperation c :=
    fun c member => all c (mem_filter.mp member).1
  have deleted := findAndDelete_flatten operation all
  rw [covers parses] at deleted
  obtain ⟨same, complete⟩ := operations_flatten kept
  refine ⟨_, deleted, same, complete, by rw [same], ?_⟩
  rw [findAndDelete_flatten operation kept, filter_filter]
  simp [count_eq_zero]

theorem findAndDelete_exact_of_one : ∃ script', findAndDelete [0x51] [0x51] =
    ((operations [0x51]).count [0x51], script') ∧ findAndDelete script' [0x51] = (0, script') := by
  have plain : IsOperation [0x51] := ⟨0x51, [], rfl, rfl⟩
  have parses : (readOps [0x51]).complete = true :=
    (operations_flatten (forall_mem_singleton.mpr plain)).2
  obtain ⟨script', deleted, _, _, _, again⟩ :=
    findAndDelete_exact [0x51] [0x51] parses ⟨0x51, [], rfl⟩
  exact ⟨script', deleted, again⟩

end Qogecoin.Script
