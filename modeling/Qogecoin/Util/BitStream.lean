import Qogecoin.Library.BitString
import Qogecoin.Library.Codec
import Qogecoin.Library.Loops

/-! The bit streams of `streams.h` and the Golomb-Rice code of `util/golombrice.h`. -/
namespace Qogecoin

open Codec BitString Loops List

inductive Failure where
  | iosBase
  | invalidArgument
  | outOfRange
  | assertion
deriving DecidableEq, Repr

structure BitStreamWriter where
  ostream : Bytes
  /-- The byte that waits to be written. -/
  buffer : UInt8
  /-- The number of high order bits of the buffer that are used. -/
  offset : Nat

namespace BitStreamWriter

def flush (w : BitStreamWriter) : BitStreamWriter :=
  if w.offset = 0 then w else ⟨w.ostream ++ [w.buffer], 0, 0⟩

def writeLoop (data : UInt64) : Nat → Nat → BitStreamWriter → BitStreamWriter
  | 0, _, w => w
  | fuel + 1, nbits, w =>
    if nbits = 0 then w
    else
      let bits := min (8 - w.offset) nbits
      let chunk := data <<< .ofNat (64 - nbits) >>> .ofNat (64 - 8 + w.offset)
      let w := { w with buffer := w.buffer ||| chunk.toUInt8, offset := w.offset + bits }
      writeLoop data fuel (nbits - bits) (if w.offset = 8 then w.flush else w)

def write (data : UInt64) (nbits : Nat) (w : BitStreamWriter) : Except Failure BitStreamWriter :=
  if nbits > 64 then .error .outOfRange else .ok (w.writeLoop data nbits nbits)

def written (w : BitStreamWriter) : List Bool :=
  packed w.ostream ++ bits w.offset (w.buffer.toNat / 2 ^ (8 - w.offset))

structure Valid (w : BitStreamWriter) : Prop where
  room : w.offset < 8
  clear : w.buffer.toNat % 2 ^ (8 - w.offset) = 0

variable {nbits : Nat} {w : BitStreamWriter} (data : UInt64)

theorem chunk_toNat {offset : Nat} (some_ : 0 < nbits) (few : nbits ≤ 64) (room : offset < 8) :
    let k := min (8 - offset) nbits
    (data <<< .ofNat (64 - nbits) >>> .ofNat (64 - 8 + offset)).toUInt8.toNat =
      data.toNat / 2 ^ (nbits - k) % 2 ^ k * 2 ^ (8 - offset - k) := by
  intro k
  have left : (UInt64.ofNat (64 - nbits)).toNat % 64 = 64 - nbits := by
    rw [UInt64.toNat_ofNat']
    omega
  have right : (UInt64.ofNat (64 - 8 + offset)).toNat % 64 = 64 - 8 + offset := by
    rw [UInt64.toNat_ofNat']
    omega
  rw [UInt64.toNat_toUInt8, UInt64.toNat_shiftRight, UInt64.toNat_shiftLeft, left, right,
    Nat.shiftLeft_eq, Nat.shiftRight_eq_div_pow]
  have cut : data.toNat * 2 ^ (64 - nbits) % 2 ^ 64 = data.toNat % 2 ^ nbits * 2 ^ (64 - nbits) := by
    rw [← Nat.mul_mod_mul_right, ← pow_add, Nat.add_sub_cancel' few]
  have bound : data.toNat / 2 ^ (nbits - k) % 2 ^ k * 2 ^ (8 - offset - k) < 2 ^ 8 := by
    have fits : 2 ^ k * 2 ^ (8 - offset - k) ≤ 2 ^ 8 := by
      rw [← pow_add]
      exact Nat.pow_le_pow_right (by omega) (by omega)
    exact (Nat.mul_lt_mul_of_pos_right (Nat.mod_lt _ (Nat.two_pow_pos k))
      (Nat.two_pow_pos _)).trans_le fits
  rw [cut]
  rcases Nat.le_total nbits (8 - offset) with all | part
  · have here : k = nbits := Nat.min_eq_right all
    have place : 64 - nbits = (8 - offset - nbits) + (64 - 8 + offset) := by omega
    rw [here] at bound ⊢
    rw [place, pow_add, ← Nat.mul_assoc, Nat.mul_div_cancel _ (Nat.two_pow_pos _)]
    rw [Nat.sub_self, pow_zero, Nat.div_one] at bound ⊢
    exact Nat.mod_eq_of_lt bound
  · have here : k = 8 - offset := Nat.min_eq_left part
    have place : 64 - 8 + offset = (64 - nbits) + (nbits - k) := by omega
    have total : 2 ^ nbits = 2 ^ (nbits - k) * 2 ^ k := by
      rw [← pow_add, Nat.sub_add_cancel (by omega)]
    have none_left : 8 - offset - k = 0 := by omega
    rw [none_left, pow_zero, Nat.mul_one] at bound ⊢
    rw [place, pow_add, Nat.mul_comm (data.toNat % 2 ^ nbits),
      Nat.mul_div_mul_left _ _ (Nat.two_pow_pos _), total, Nat.mod_mul_right_div_self]
    exact Nat.mod_eq_of_lt bound

theorem Valid.append (valid : w.Valid) {k v : Nat} {chunk : UInt8} (fits : k ≤ 8 - w.offset)
    (small : v < 2 ^ k) (placed : chunk.toNat = v * 2 ^ (8 - w.offset - k)) :
    let w' : BitStreamWriter := { w with buffer := w.buffer ||| chunk, offset := w.offset + k }
    w'.buffer.toNat % 2 ^ (8 - w'.offset) = 0 ∧ w'.written = w.written ++ bits k v := by
  have free : 8 - w.offset = (8 - w.offset - k) + k := by omega
  have used : w.buffer.toNat = 2 ^ (8 - w.offset) * (w.buffer.toNat / 2 ^ (8 - w.offset)) := by
    have whole := Nat.div_add_mod w.buffer.toNat (2 ^ (8 - w.offset))
    rw [valid.clear, Nat.add_zero] at whole
    exact whole.symm
  have low : chunk.toNat < 2 ^ (8 - w.offset) := by
    rw [placed, free, pow_add, Nat.mul_comm, Nat.add_sub_cancel]
    exact Nat.mul_lt_mul_of_pos_left small (Nat.two_pow_pos _)
  have buffer : (w.buffer ||| chunk).toNat = 2 ^ (8 - w.offset - k) *
      (2 ^ k * (w.buffer.toNat / 2 ^ (8 - w.offset)) + v) := by
    rw [UInt8.toNat_or]
    conv_lhs => rw [used]
    have power : 2 ^ (8 - w.offset) = 2 ^ (8 - w.offset - k) * 2 ^ k := by rw [← pow_add, ← free]
    rw [← Nat.two_pow_add_eq_or_of_lt low, placed, power]
    ring
  have rest : 8 - (w.offset + k) = 8 - w.offset - k := by omega
  dsimp only
  rw [written, written, rest, buffer]
  constructor
  · exact Nat.mul_mod_right _ _
  · rw [Nat.mul_div_cancel_left _ (Nat.two_pow_pos _), bits_append _ _ _ small,
      append_assoc]

theorem flush_full (full : w.offset = 8) :
    w.flush.Valid ∧ w.flush.written = w.written := by
  have flushed : w.flush = ⟨w.ostream ++ [w.buffer], 0, 0⟩ := if_neg (by omega)
  rw [flushed]
  refine ⟨⟨Nat.zero_lt_succ 7, rfl⟩, ?_⟩
  rw [written, written, full, packed_append, Nat.sub_self, pow_zero, Nat.div_one, bits,
    append_nil, packed_cons]
  exact congrArg (packed w.ostream ++ ·) (append_nil _)

theorem writeLoop_spec (fuel : Nat) (valid : w.Valid) (few : nbits ≤ 64) (enough : nbits ≤ fuel) :
    (w.writeLoop data fuel nbits).Valid ∧
      (w.writeLoop data fuel nbits).written = w.written ++ bits nbits data.toNat := by
  induction fuel generalizing nbits w with
  | zero =>
    rw [Nat.le_zero.mp enough, writeLoop, bits, append_nil]
    exact ⟨valid, rfl⟩
  | succ fuel ih =>
    rw [writeLoop]
    split
    next none_left =>
      rw [none_left, bits, append_nil]
      exact ⟨valid, rfl⟩
    rename_i some_
    have room := valid.room
    obtain ⟨clear, appended⟩ := valid.append (k := min (8 - w.offset) nbits)
      (Nat.min_le_left _ _) (Nat.mod_lt _ (Nat.two_pow_pos _))
      (chunk_toNat data (Nat.pos_of_ne_zero some_) few room)
    dsimp only at clear appended ⊢
    have onward {w' : BitStreamWriter} (valid' : w'.Valid)
        (written' : w'.written = w.written ++ bits (min (8 - w.offset) nbits)
          (data.toNat / 2 ^ (nbits - min (8 - w.offset) nbits) % 2 ^ min (8 - w.offset) nbits)) :
        (w'.writeLoop data fuel (nbits - min (8 - w.offset) nbits)).Valid ∧
          (w'.writeLoop data fuel (nbits - min (8 - w.offset) nbits)).written =
            w.written ++ bits nbits data.toNat := by
      obtain ⟨valid'', written''⟩ := ih valid' (by omega : nbits - min (8 - w.offset) nbits ≤ 64)
        (by omega)
      refine ⟨valid'', ?_⟩
      rw [written'', written', bits_mod, append_assoc, ← bits_split (Nat.min_le_right _ _)]
    split
    next full =>
      obtain ⟨valid', flushed⟩ := flush_full (w := { w with
        buffer := w.buffer ||| (data <<< .ofNat (64 - nbits) >>>
          .ofNat (64 - 8 + w.offset)).toUInt8
        offset := w.offset + min (8 - w.offset) nbits }) full
      exact onward valid' (flushed.trans appended)
    next partly =>
      exact onward ⟨by dsimp only; omega, clear⟩ appended

theorem write_spec (valid : w.Valid) (few : nbits ≤ 64) :
    ∃ w', w.write data nbits = .ok w' ∧ w'.Valid ∧
      w'.written = w.written ++ bits nbits data.toNat :=
  ⟨_, if_neg (by omega), writeLoop_spec data nbits valid few (Nat.le_refl nbits)⟩

theorem flush_spec (valid : w.Valid) :
    ∃ padding : List Bool, padding.length < 8 ∧ packed w.flush.ostream = w.written ++ padding := by
  rw [flush]
  split
  next empty =>
    refine ⟨[], by decide, ?_⟩
    rw [written, empty, bits, append_nil, append_nil]
  next some_ =>
    have room := valid.room
    refine ⟨bits (8 - w.offset) w.buffer.toNat, by rw [bits_length]; omega, ?_⟩
    rw [written, packed_append, append_assoc, ← bits_split room.le, packed_cons]
    exact congrArg (packed w.ostream ++ ·) (append_nil _)

end BitStreamWriter

structure BitStreamReader where
  istream : Bytes
  buffer : UInt8
  /-- The number of high order bits of the buffer that were returned. -/
  offset : Nat

namespace BitStreamReader

def start (istream : Bytes) : BitStreamReader := ⟨istream, 0, 8⟩

/-- A byte is read into the buffer when all bits of the last one were returned. -/
def refill (r : BitStreamReader) : Except Failure BitStreamReader :=
  if r.offset = 8 then
    match r.istream with
    | [] => .error .iosBase
    | byte :: istream => .ok ⟨istream, byte, 0⟩
  else .ok r

def readLoop : Nat → Nat → UInt64 → BitStreamReader → Except Failure (UInt64 × BitStreamReader)
  | 0, _, data, r => .ok (data, r)
  | fuel + 1, nbits, data, r =>
    if nbits = 0 then .ok (data, r)
    else do
      let r ← r.refill
      let bits := min (8 - r.offset) nbits
      let chunk := r.buffer <<< .ofNat r.offset >>> .ofNat (8 - bits)
      let data := data <<< .ofNat bits ||| chunk.toUInt64
      readLoop fuel (nbits - bits) data { r with offset := r.offset + bits }

def read (nbits : Nat) (r : BitStreamReader) : Except Failure (UInt64 × BitStreamReader) :=
  if nbits > 64 then .error .outOfRange else r.readLoop nbits nbits 0

def remaining (r : BitStreamReader) : List Bool :=
  bits (8 - r.offset) r.buffer.toNat ++ packed r.istream

theorem refill_spec {r : BitStreamReader} (bound : r.offset ≤ 8) (some_ : r.remaining ≠ []) :
    ∃ r', r.refill = .ok r' ∧ r'.offset < 8 ∧ r'.remaining = r.remaining := by
  rw [refill]
  split
  next used =>
    rw [remaining, used, Nat.sub_self, bits, nil_append] at some_ ⊢
    cases stream : r.istream with
    | nil =>
      rw [stream] at some_
      exact absurd rfl some_
    | cons byte istream => exact ⟨_, rfl, Nat.zero_lt_succ 7, (packed_cons byte istream).symm⟩
  next unused =>
    exact ⟨r, rfl, by omega, rfl⟩

theorem chunk_toNat (buffer : UInt8) {offset k : Nat} (room : offset < 8) (some_ : 0 < k)
    (fits : k ≤ 8 - offset) :
    (buffer <<< .ofNat offset >>> .ofNat (8 - k)).toNat =
      buffer.toNat / 2 ^ (8 - offset - k) % 2 ^ k := by
  have left : (UInt8.ofNat offset).toNat % 8 = offset := by
    rw [UInt8.toNat_ofNat']
    omega
  have right : (UInt8.ofNat (8 - k)).toNat % 8 = 8 - k := by
    rw [UInt8.toNat_ofNat']
    omega
  have cut : buffer.toNat * 2 ^ offset % 2 ^ 8 = buffer.toNat % 2 ^ (8 - offset) * 2 ^ offset := by
    rw [← Nat.mul_mod_mul_right, ← pow_add, Nat.sub_add_cancel room.le]
  have place : 8 - k = offset + (8 - offset - k) := by omega
  have width : 2 ^ (8 - offset) = 2 ^ (8 - offset - k) * 2 ^ k := by
    rw [← pow_add, Nat.sub_add_cancel fits]
  rw [UInt8.toNat_shiftRight, UInt8.toNat_shiftLeft, left, right, Nat.shiftLeft_eq,
    Nat.shiftRight_eq_div_pow, cut, place, pow_add, Nat.mul_comm (buffer.toNat % _),
    Nat.mul_div_mul_left _ _ (Nat.two_pow_pos _), width, Nat.mod_mul_right_div_self]

theorem shift_toNat {data : UInt64} {chunk : UInt8} {k : Nat} (few : k < 64)
    (small : chunk.toNat < 2 ^ k) (fits : data.toNat * 2 ^ k < 2 ^ 64) :
    (data <<< .ofNat k ||| chunk.toUInt64).toNat = 2 ^ k * data.toNat + chunk.toNat := by
  have shift : (UInt64.ofNat k).toNat % 64 = k := by
    rw [UInt64.toNat_ofNat']
    omega
  rw [UInt64.toNat_or, UInt64.toNat_shiftLeft, shift, Nat.shiftLeft_eq, Nat.mod_eq_of_lt fits,
    UInt8.toNat_toUInt64, Nat.mul_comm, Nat.two_pow_add_eq_or_of_lt small]

theorem readLoop_spec (fuel : Nat) {nbits x : Nat} {data : UInt64} {r : BitStreamReader}
    {rest : List Bool} (bound : r.offset ≤ 8) (enough : nbits ≤ fuel)
    (small : (data.toNat + 1) * 2 ^ nbits ≤ 2 ^ 64)
    (left : r.remaining = bits nbits x ++ rest) :
    ∃ r', r.readLoop fuel nbits data =
        .ok (.ofNat (data.toNat * 2 ^ nbits + x % 2 ^ nbits), r') ∧
      r'.offset ≤ 8 ∧ r'.remaining = rest := by
  have finished {data : UInt64} {r : BitStreamReader} (bound : r.offset ≤ 8)
      (left : r.remaining = bits 0 x ++ rest) :
      ∃ r', (.ok (data, r) : Except Failure _) =
          .ok (.ofNat (data.toNat * 2 ^ 0 + x % 2 ^ 0), r') ∧
        r'.offset ≤ 8 ∧ r'.remaining = rest := by
    refine ⟨r, ?_, bound, left⟩
    rw [pow_zero, Nat.mod_one, Nat.mul_one, Nat.add_zero, UInt64.ofNat_toNat]
  induction fuel generalizing nbits data r with
  | zero =>
    rw [Nat.le_zero.mp enough] at left ⊢
    exact finished bound left
  | succ fuel ih =>
    rw [readLoop]
    split
    next none_left =>
      rw [none_left] at left ⊢
      exact finished bound left
    rename_i some_
    have nonempty : r.remaining ≠ [] := by
      intro empty
      have size := congrArg List.length (left.symm.trans empty)
      rw [length_append, bits_length, length_nil] at size
      omega
    obtain ⟨r1, refilled, room, same⟩ := refill_spec bound nonempty
    rw [← same] at left
    rw [refilled, ok_bind]
    have fits : min (8 - r1.offset) nbits ≤ nbits := Nat.min_le_right _ _
    have inside : min (8 - r1.offset) nbits ≤ 8 - r1.offset := Nat.min_le_left _ _
    have positive : 0 < min (8 - r1.offset) nbits := by omega
    generalize min (8 - r1.offset) nbits = k at fits inside positive
    have parts : 2 ^ nbits = 2 ^ (nbits - k) * 2 ^ k := by
      rw [← pow_add, Nat.sub_add_cancel fits]
    -- the bits of the buffer are the next ones
    rw [remaining, bits_split inside, bits_split fits, append_assoc, append_assoc] at left
    obtain ⟨front, behind⟩ := append_inj left (by rw [bits_length, bits_length])
    have chunk := chunk_toNat r1.buffer room positive inside
    rw [mod_eq_of_bits front] at chunk
    have narrow : (r1.buffer <<< .ofNat r1.offset >>> .ofNat (8 - k)).toNat < 2 ^ k := by
      rw [chunk]
      exact Nat.mod_lt _ (Nat.two_pow_pos k)
    rw [parts, ← Nat.mul_assoc, Nat.mul_right_comm] at small
    have scaled : (data.toNat + 1) * 2 ^ k ≤ 2 ^ 64 :=
      (Nat.le_mul_of_pos_right _ (Nat.two_pow_pos (nbits - k))).trans small
    have value := shift_toNat (by omega) narrow
      ((Nat.mul_lt_mul_of_pos_right (Nat.lt_succ_self _) (Nat.two_pow_pos k)).trans_le scaled)
    obtain ⟨r', done, bound', left'⟩ := @ih (nbits - k)
      (data <<< .ofNat k |||
        (r1.buffer <<< .ofNat r1.offset >>> .ofNat (8 - k)).toUInt64)
      { r1 with offset := r1.offset + k } (by dsimp only; omega) (by omega)
      (by
        rw [value]
        refine le_trans (Nat.mul_le_mul_right _ ?_) small
        rw [Nat.add_mul, Nat.one_mul, Nat.mul_comm (2 ^ k), Nat.add_assoc]
        exact Nat.add_le_add_left narrow _)
      (by
        rw [remaining]
        rw [Nat.sub_add_eq]
        exact behind)
    refine ⟨r', ?_, bound', left'⟩
    rw [done, value, chunk, parts, Nat.mod_mul]
    congr 3
    ring

theorem read_spec {nbits x : Nat} {r : BitStreamReader} {rest : List Bool} (few : nbits ≤ 64)
    (bound : r.offset ≤ 8) (left : r.remaining = bits nbits x ++ rest) :
    ∃ r', r.read nbits = .ok (.ofNat (x % 2 ^ nbits), r') ∧ r'.offset ≤ 8 ∧
      r'.remaining = rest := by
  have small : ((0 : UInt64).toNat + 1) * 2 ^ nbits ≤ 2 ^ 64 := by
    rw [UInt64.toNat_zero, Nat.zero_add, Nat.one_mul]
    exact Nat.pow_le_pow_right (by decide) few
  obtain ⟨r', done, bound', left'⟩ := readLoop_spec nbits bound (Nat.le_refl nbits) small left
  rw [UInt64.toNat_zero, Nat.zero_mul, Nat.zero_add] at done
  exact ⟨r', (if_neg (by omega)).trans done, bound', left'⟩

theorem istream_eq_nil {r : BitStreamReader} (few : r.remaining.length < 8) : r.istream = [] := by
  rw [remaining, length_append, packed_length] at few
  exact eq_nil_of_length_eq_zero (by omega)

end BitStreamReader

def writeQuotient : Nat → Nat → BitStreamWriter → Except Failure BitStreamWriter
  | 0, _, w => .ok w
  | fuel + 1, q, w =>
    if q = 0 then .ok w
    else do
      let nbits := if q ≤ 64 then q else 64
      writeQuotient fuel (q - nbits) (← w.write 0xFFFFFFFFFFFFFFFF nbits)

def golombRiceEncode (P : UInt8) (x : UInt64) (bitwriter : BitStreamWriter) :
    Except Failure BitStreamWriter := do
  let q := (x >>> P.toUInt64).toNat
  let bitwriter ← writeQuotient q q bitwriter
  let bitwriter ← bitwriter.write 0 1
  bitwriter.write x P.toNat

def readQuotient : Nat → UInt64 → BitStreamReader → Except Failure (UInt64 × BitStreamReader)
  | 0, _, _ => .error .iosBase
  | fuel + 1, q, r => do
    let (bit, r) ← r.read 1
    if bit = 1 then readQuotient fuel (q + 1) r else .ok (q, r)

def golombRiceDecode (P : UInt8) (bitreader : BitStreamReader) :
    Except Failure (UInt64 × BitStreamReader) := do
  let bitsLeft := 8 * bitreader.istream.length + (8 - bitreader.offset)
  let (q, bitreader) ← readQuotient (bitsLeft + 1) 0 bitreader
  let (r, bitreader) ← bitreader.read P.toNat
  .ok (q <<< P.toUInt64 + r, bitreader)

def code (P x : Nat) : List Bool := replicate (x / 2 ^ P) true ++ false :: bits P x

theorem writeQuotient_spec (fuel : Nat) {q : Nat} {w : BitStreamWriter} (valid : w.Valid)
    (enough : q ≤ fuel) : ∃ w', writeQuotient fuel q w = .ok w' ∧ w'.Valid ∧
      w'.written = w.written ++ List.replicate q true := by
  induction fuel generalizing q w with
  | zero =>
    rw [Nat.le_zero.mp enough]
    exact ⟨w, rfl, valid, (append_nil _).symm⟩
  | succ fuel ih =>
    rw [writeQuotient]
    split
    next none_left =>
      rw [none_left]
      exact ⟨w, rfl, valid, (append_nil _).symm⟩
    rename_i some_
    have turn : ∃ n, (if q ≤ 64 then q else 64) = n ∧ 0 < n ∧ n ≤ 64 ∧ n ≤ q := by
      split
      · exact ⟨q, rfl, by omega, by omega, by omega⟩
      · exact ⟨64, rfl, by omega, by omega, by omega⟩
    obtain ⟨n, same, positive, few, fits⟩ := turn
    dsimp only
    rw [same]
    obtain ⟨w1, wrote, valid1, written1⟩ :=
      BitStreamWriter.write_spec 0xFFFFFFFFFFFFFFFF valid few
    obtain ⟨w', done, valid', written'⟩ := ih valid1 (by omega : q - n ≤ fuel)
    rw [wrote, ok_bind]
    refine ⟨w', done, valid', ?_⟩
    have ones : bits n (0xFFFFFFFFFFFFFFFF : UInt64).toNat = List.replicate n true := bits_ones few
    rw [written', written1, ones, append_assoc, replicate_append_replicate,
      Nat.add_sub_cancel' fits]

theorem golombRiceEncode_spec {P : UInt8} (few : P.toNat < 64) (x : UInt64) {w : BitStreamWriter}
    (valid : w.Valid) : ∃ w', golombRiceEncode P x w = .ok w' ∧ w'.Valid ∧
      w'.written = w.written ++ code P.toNat x.toNat := by
  have quotient : (x >>> P.toUInt64).toNat = x.toNat / 2 ^ P.toNat := by
    rw [UInt64.toNat_shiftRight, UInt8.toNat_toUInt64, Nat.mod_eq_of_lt few,
      Nat.shiftRight_eq_div_pow]
  obtain ⟨w1, ones, valid1, written1⟩ :=
    writeQuotient_spec (x >>> P.toUInt64).toNat valid (Nat.le_refl _)
  obtain ⟨w2, zero, valid2, written2⟩ := BitStreamWriter.write_spec 0 valid1 (by decide : 1 ≤ 64)
  obtain ⟨w3, remainder, valid3, written3⟩ := BitStreamWriter.write_spec x valid2 few.le
  refine ⟨w3, ?_, valid3, ?_⟩
  · rw [golombRiceEncode, ones, ok_bind, zero, ok_bind, remainder]
  · rw [written3, written2, written1, quotient, code, append_assoc, append_assoc]
    rfl

variable {r : BitStreamReader} {rest : List Bool}

theorem read_bit {bit : Bool} (bound : r.offset ≤ 8) (left : r.remaining = bit :: rest) :
    ∃ r', r.read 1 = .ok (bit.toUInt64, r') ∧ r'.offset ≤ 8 ∧ r'.remaining = rest := by
  cases bit with
  | true => exact BitStreamReader.read_spec (x := 1) (by decide) bound left
  | false => exact BitStreamReader.read_spec (x := 0) (by decide) bound left

theorem readQuotient_spec (n : Nat) {fuel : Nat} {q : UInt64} (bound : r.offset ≤ 8)
    (enough : n < fuel) (left : r.remaining = replicate n true ++ false :: rest) :
    ∃ r', readQuotient fuel q r = .ok (q + .ofNat n, r') ∧ r'.offset ≤ 8 ∧
      r'.remaining = rest := by
  induction n generalizing fuel q r with
  | zero =>
    obtain ⟨fuel, rfl⟩ := Nat.exists_eq_succ_of_ne_zero (Nat.ne_zero_of_lt enough)
    obtain ⟨r', done, bound', left'⟩ := read_bit bound left
    refine ⟨r', ?_, bound', left'⟩
    rw [readQuotient, done, ok_bind]
    exact congrArg (fun q => Except.ok (q, r')) (UInt64.add_zero q).symm
  | succ n ih =>
    obtain ⟨fuel, rfl⟩ := Nat.exists_eq_succ_of_ne_zero (Nat.ne_zero_of_lt enough)
    obtain ⟨r1, done, bound1, left1⟩ := read_bit bound left
    obtain ⟨r', counted, bound', left'⟩ := ih (q := q + 1) bound1 (Nat.lt_of_succ_lt_succ enough) left1
    refine ⟨r', ?_, bound', left'⟩
    have sum : q + 1 + .ofNat n = q + .ofNat (n + 1) := by
      rw [UInt64.ofNat_add, UInt64.add_assoc, UInt64.add_comm 1]
      rfl
    rw [← sum, ← counted, readQuotient, done, ok_bind]
    rfl

theorem golombRiceDecode_spec {P : UInt8} (few : P.toNat < 64) (x : UInt64) (bound : r.offset ≤ 8)
    (left : r.remaining = code P.toNat x.toNat ++ rest) :
    ∃ r', golombRiceDecode P r = .ok (x, r') ∧ r'.offset ≤ 8 ∧ r'.remaining = rest := by
  rw [code, append_assoc, cons_append] at left
  have enough : x.toNat / 2 ^ P.toNat < 8 * r.istream.length + (8 - r.offset) + 1 := by
    have size := congrArg length left
    rw [BitStreamReader.remaining, length_append, bits_length, packed_length,
      length_append, length_replicate] at size
    omega
  obtain ⟨r1, ones, bound1, left1⟩ := readQuotient_spec (q := 0) _ bound enough left
  obtain ⟨r2, remainder, bound2, left2⟩ := BitStreamReader.read_spec few.le bound1 left1
  refine ⟨r2, ?_, bound2, left2⟩
  rw [golombRiceDecode]
  rw [ones, ok_bind]
  dsimp only
  rw [remainder, ok_bind, UInt64.zero_add]
  have value : .ofNat (x.toNat / 2 ^ P.toNat) <<< P.toUInt64 +
      .ofNat (x.toNat % 2 ^ P.toNat) = x := by
    have bounded := UInt64.toNat_lt x
    have product : x.toNat / 2 ^ P.toNat * 2 ^ P.toNat ≤ x.toNat := Nat.div_mul_le_self _ _
    apply UInt64.toNat_inj.mp
    rw [UInt64.toNat_add, UInt64.toNat_shiftLeft, UInt8.toNat_toUInt64, Nat.mod_eq_of_lt few,
      Nat.shiftLeft_eq, UInt64.toNat_ofNat', UInt64.toNat_ofNat',
      Nat.mod_eq_of_lt ((Nat.div_le_self _ _).trans_lt bounded),
      Nat.mod_eq_of_lt (product.trans_lt bounded),
      Nat.mod_eq_of_lt ((Nat.mod_le _ _).trans_lt bounded), Nat.div_add_mod',
      Nat.mod_eq_of_lt bounded]
  rw [value]

end Qogecoin
