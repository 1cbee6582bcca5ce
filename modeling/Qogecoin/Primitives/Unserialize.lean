import Qogecoin.Primitives.Block

/-! Reading a transaction off a stream. A reader that fails has thrown an `ios_base::failure`. The
two encodings of integers in `serialize.h` have one code word for each value. -/
namespace Qogecoin

open Codec List Option CTxIn

def readByte : Reader UInt8
  | [] => none
  | b :: bs => some (b, bs)

def readUInt32 : Reader UInt32 := fun bs => do
  let (n, bs) ← readLe 4 bs
  some (UInt32.ofNat n, bs)

def readInt32 : Reader Int32 := fun bs => do
  let (n, bs) ← readUInt32 bs
  some (n.toInt32, bs)

def readInt64 : Reader Int64 := fun bs => do
  let (n, bs) ← readLe 8 bs
  some ((UInt64.ofNat n).toInt64, bs)

def readUint256 : Reader Uint256 := fun bs =>
  if long : 32 ≤ bs.length then some (⟨bs.take 32, by simp [long]⟩, bs.drop 32) else none

def unserializeBytes : Reader Bytes := fun bs => do
  let (nSize, bs) ← readCompactSize true bs
  readBytes nSize bs

def readVector {α : Type} (read : Reader α) : Reader (List α) := fun bs => do
  let (size, bs) ← readCompactSize true bs
  readTimes read size bs

def COutPoint.unserialize : Reader COutPoint := fun bs => do
  let (hash, bs) ← readUint256 bs
  let (n, bs) ← readUInt32 bs
  some (⟨hash, n⟩, bs)

/-- The witness of an input is not with the input. -/
def CTxIn.unserialize : Reader CTxIn := fun bs => do
  let (prevout, bs) ← COutPoint.unserialize bs
  let (scriptSig, bs) ← unserializeBytes bs
  let (nSequence, bs) ← readUInt32 bs
  some (⟨prevout, scriptSig, nSequence, []⟩, bs)

def CTxOut.unserialize : Reader CTxOut := fun bs => do
  let (nValue, bs) ← readInt64 bs
  let (scriptPubKey, bs) ← unserializeBytes bs
  some (⟨nValue, scriptPubKey⟩, bs)

variable (fAllowWitness : Bool)

/-- The flags, the inputs and the outputs. A vector without inputs is also the mark of the extended
format. -/
def readInputsOutputs : Reader (UInt8 × List CTxIn × List CTxOut) :=
  fun bs => do
    let (vin, bs) ← readVector unserialize bs
    if vin = [] ∧ fAllowWitness then do
      let (flags, bs) ← readByte bs
      if flags ≠ 0 then do
        let (vin, bs) ← readVector unserialize bs
        let (vout, bs) ← readVector CTxOut.unserialize bs
        some ((flags, vin, vout), bs)
      else some ((flags, [], []), bs)
    else do
      let (vout, bs) ← readVector CTxOut.unserialize bs
      some ((0, vin, vout), bs)

def readWitnesses : List CTxIn → Reader (List CTxIn)
  | [], bs => some ([], bs)
  | txin :: vin, bs => do
    let (stack, bs) ← readVector unserializeBytes bs
    let (vin, bs) ← readWitnesses vin bs
    some ({ txin with scriptWitness := stack } :: vin, bs)

def readOptionalData (flags : UInt8) (vin : List CTxIn) : Reader (UInt8 × List CTxIn) := fun bs =>
  if flags &&& 1 ≠ 0 ∧ fAllowWitness then do
    let (vin, bs) ← readWitnesses vin bs
    -- "Superfluous witness record"
    if vin.any fun txin => !txin.scriptWitness.isEmpty then some ((flags ^^^ 1, vin), bs) else none
  else some ((flags, vin), bs)

def unserializeTransaction : Reader CTransaction := fun bs => do
  let (nVersion, bs) ← readInt32 bs
  let ((flags, vin, vout), bs) ← readInputsOutputs fAllowWitness bs
  let ((flags, vin), bs) ← readOptionalData fAllowWitness flags vin bs
  -- "Unknown transaction optional data"
  if flags ≠ 0 then none
  else do
    let (nLockTime, bs) ← readUInt32 bs
    some (⟨nVersion, vin, vout, nLockTime⟩, bs)

theorem reads_uint32 : Reads (fun _ => True) serializeUInt32 readUInt32 := by
  intro n rest _
  have value := reads_leBytes 4 n.toNat rest n.toNat_lt
  simp only [serializeUInt32, readUInt32, value, bind_eq_bind, bind_some,
    UInt32.ofNat_toNat]

theorem reads_int32 : Reads (fun _ => True) serializeInt32 readInt32 := by
  intro n rest _
  have value := reads_uint32 n.toUInt32 rest trivial
  simp only [serializeInt32, readInt32, value, bind_eq_bind, bind_some,
    Int32.toInt32_toUInt32]

theorem reads_int64 : Reads (fun _ => True) serializeInt64 readInt64 := by
  intro n rest _
  have value := reads_leBytes 8 n.toUInt64.toNat rest n.toUInt64.toNat_lt
  simp only [serializeInt64, readInt64, value, bind_eq_bind, bind_some,
    UInt64.ofNat_toNat, Int64.toInt64_toUInt64]

theorem reads_uint256 : Reads (fun _ => True) Uint256.bytes readUint256 := by
  intro h rest _
  have size := h.size
  unfold readUint256
  rw [dif_pos (by simp [size])]
  simp only [take_left' size, drop_left' size]

theorem reads_size {n : Nat} (fits : n ≤ maxSize) (rest : Bytes) :
    readCompactSize true (writeCompactSize n ++ rest) = some (n, rest) := by
  apply reads_compactSize
  constructor
  · simp only [maxSize] at fits
    omega
  · exact fun _ => fits

theorem reads_bytes : Reads (fun b : Bytes => b.length ≤ maxSize) serializeBytes unserializeBytes := by
  intro b rest fits
  simp only [serializeBytes, unserializeBytes, append_assoc, reads_size fits,
    bind_eq_bind, bind_some, readBytes_append rfl]

theorem reads_vector {α : Type} {valid : α → Prop} {write : α → Bytes} {read : Reader α}
    (undoes : Reads valid write read) :
    Reads (fun v : List α => v.length ≤ maxSize ∧ ∀ a ∈ v, valid a) (serializeVector write)
      (readVector read) := by
  intro v rest fits
  simp only [serializeVector, readVector, append_assoc, reads_size fits.1, bind_eq_bind,
    bind_some]
  exact undoes.times v rest fits.2

theorem reads_outPoint : Reads (fun _ => True) COutPoint.serialize COutPoint.unserialize := by
  intro o rest _
  have hash := reads_uint256 o.hash (serializeUInt32 o.n ++ rest) trivial
  have n := reads_uint32 o.n rest trivial
  simp only [COutPoint.serialize, COutPoint.unserialize, append_assoc, hash,
    bind_eq_bind, bind_some, n]

def CTxIn.stripped (txin : CTxIn) : CTxIn := { txin with scriptWitness := [] }

theorem CTxIn.unserialize_serialize (txin : CTxIn) (rest : Bytes)
    (fits : txin.scriptSig.length ≤ maxSize) :
    unserialize (txin.serialize ++ rest) = some (txin.stripped, rest) := by
  have prevout := reads_outPoint txin.prevout
    (serializeBytes txin.scriptSig ++ (serializeUInt32 txin.nSequence ++ rest)) trivial
  have scriptSig := reads_bytes txin.scriptSig (serializeUInt32 txin.nSequence ++ rest) fits
  have nSequence := reads_uint32 txin.nSequence rest trivial
  simp only [serialize, unserialize, append_assoc, prevout, bind_eq_bind,
    bind_some, scriptSig, nSequence, stripped]

theorem reads_txOut :
    Reads (fun out : CTxOut => out.scriptPubKey.length ≤ maxSize) CTxOut.serialize
      CTxOut.unserialize := by
  intro out rest fits
  have nValue := reads_int64 out.nValue (serializeBytes out.scriptPubKey ++ rest) trivial
  have scriptPubKey := reads_bytes out.scriptPubKey rest fits
  simp only [CTxOut.serialize, CTxOut.unserialize, append_assoc, nValue, bind_eq_bind,
    bind_some, scriptPubKey]

variable {vin : List CTxIn} {bs : Bytes}

theorem reads_vin (count : vin.length ≤ maxSize)
    (scripts : ∀ txin ∈ vin, txin.scriptSig.length ≤ maxSize) (rest : Bytes) :
    readVector unserialize (serializeVector serialize vin ++ rest) =
      some (vin.map stripped, rest) := by
  have written : serializeVector serialize vin =
      serializeVector serialize (vin.map stripped) := by
    simp only [serializeVector, length_map, flatMap_map]
    rfl
  have undoes : Reads (fun txin : CTxIn => txin.scriptSig.length ≤ maxSize ∧
      txin.stripped = txin) serialize unserialize := by
    intro txin rest valid
    rw [txin.unserialize_serialize rest valid.1, valid.2]
  rw [written]
  apply reads_vector undoes
  constructor
  · rwa [length_map]
  · intro txin member
    obtain ⟨whole, inside, rfl⟩ := mem_map.mp member
    exact ⟨scripts whole inside, rfl⟩

theorem reads_no_inputs (rest : Bytes) :
    readVector unserialize (serializeVector serialize [] ++ rest) = some ([], rest) :=
  reads_vin (by simp) (by simp) rest

theorem readWitnesses_stripped (witnesses : ∀ txin ∈ vin, txin.scriptWitness.length ≤ maxSize ∧
      ∀ item ∈ txin.scriptWitness, item.length ≤ maxSize) (rest : Bytes) :
    readWitnesses (vin.map stripped)
      ((vin.flatMap fun txin => serializeStack txin.scriptWitness) ++ rest) = some (vin, rest) := by
  induction vin with
  | nil => rfl
  | cons txin vin ih =>
    rw [forall_mem_cons] at witnesses
    have first := reads_vector reads_bytes txin.scriptWitness
      ((vin.flatMap fun txin => serializeStack txin.scriptWitness) ++ rest) witnesses.1
    have others := ih witnesses.2
    simp only [map_cons, flatMap_cons, append_assoc, readWitnesses]
    rw [show serializeStack txin.scriptWitness = serializeVector serializeBytes txin.scriptWitness
      from rfl, first]
    simp only [bind_eq_bind, bind_some, others, stripped]

structure CTransaction.WithinLimits (tx : CTransaction) : Prop where
  inputs : tx.vin.length ≤ maxSize
  outputs : tx.vout.length ≤ maxSize
  scriptSigs : ∀ txin ∈ tx.vin, txin.scriptSig.length ≤ maxSize
  scriptPubKeys : ∀ out ∈ tx.vout, out.scriptPubKey.length ≤ maxSize
  witnesses : ∀ txin ∈ tx.vin, txin.scriptWitness.length ≤ maxSize ∧
    ∀ item ∈ txin.scriptWitness, item.length ≤ maxSize

theorem stripped_of_hasWitness {tx : CTransaction} (bare : tx.hasWitness = false) :
    tx.vin.map CTxIn.stripped = tx.vin := by
  have each : ∀ txin ∈ tx.vin, txin.stripped = txin := by
    intro txin member
    simp only [CTransaction.hasWitness, List.any_eq_false, Bool.not_eq_true', Bool.not_eq_false,
      List.isEmpty_iff] at bare
    have none := bare txin member
    cases txin
    cases none
    rfl
  exact (List.map_congr_left each).trans (List.map_id' _)

section

variable {tx : CTransaction} (limits : tx.WithinLimits) (rest : Bytes)

include limits

theorem CTransaction.WithinLimits.readVin :
    readVector CTxIn.unserialize (serializeVector CTxIn.serialize tx.vin ++ rest) =
      some (tx.vin.map CTxIn.stripped, rest) :=
  reads_vin limits.inputs limits.scriptSigs rest

theorem CTransaction.WithinLimits.readVout :
    readVector CTxOut.unserialize (serializeVector CTxOut.serialize tx.vout ++ rest) =
      some (tx.vout, rest) :=
  reads_vector reads_txOut tx.vout rest ⟨limits.outputs, limits.scriptPubKeys⟩

theorem readInputsOutputs_extended :
    readInputsOutputs true (serializeVector CTxIn.serialize [] ++ ([1] ++
      (serializeVector CTxIn.serialize tx.vin ++
        (serializeVector CTxOut.serialize tx.vout ++ rest)))) =
      some ((1, tx.vin.map CTxIn.stripped, tx.vout), rest) := by
  simp [readInputsOutputs, reads_no_inputs, readByte, limits.readVin, limits.readVout]

theorem readInputsOutputs_plain (bare : tx.hasWitness = false)
    (marked : tx.vin = [] → tx.vout = []) :
    readInputsOutputs true (serializeVector CTxIn.serialize tx.vin ++
      (serializeVector CTxOut.serialize tx.vout ++ rest)) = some ((0, tx.vin, tx.vout), rest) := by
  by_cases none : tx.vin = []
  · -- the byte of the empty vector of outputs is read as flags
    rw [none, marked none]
    have outputs : serializeVector CTxOut.serialize [] = [0] := rfl
    simp [readInputsOutputs, reads_no_inputs, outputs, readByte]
  · have vin := limits.readVin (serializeVector CTxOut.serialize tx.vout ++ rest)
    rw [stripped_of_hasWitness bare] at vin
    simp [readInputsOutputs, vin, none, limits.readVout]

theorem readOptionalData_extended (witness : tx.hasWitness = true) :
    readOptionalData true 1 (tx.vin.map stripped)
      ((tx.vin.flatMap fun txin => serializeStack txin.scriptWitness) ++ rest) =
      some ((0, tx.vin), rest) := by
  have witnesses := readWitnesses_stripped limits.witnesses rest
  have some : (tx.vin.any fun txin => !txin.scriptWitness.isEmpty) = true := witness
  rw [readOptionalData, if_pos (by decide), witnesses]
  simp only [bind_eq_bind, bind_some, some, if_true]
  rfl

/-- A transaction is read back from its own bytes, and nothing is read of those behind it. -/
theorem unserializeTransaction_serialize (marked : tx.vin = [] → tx.vout = []) :
    unserializeTransaction true (tx.serialize true ++ rest) = some (tx, rest) := by
  have version := fun rest => reads_int32 tx.nVersion rest trivial
  have lockTime := reads_uint32 tx.nLockTime rest trivial
  cases witness : tx.hasWitness with
  | true =>
    simp only [CTransaction.serialize, witness, Bool.and_true, if_true, append_assoc,
      unserializeTransaction, version, bind_eq_bind, bind_some,
      readInputsOutputs_extended limits, readOptionalData_extended limits _ witness, lockTime]
    rfl
  | false =>
    simp only [CTransaction.serialize, witness, Bool.and_false, Bool.false_eq_true, if_false,
      append_assoc, append_nil, unserializeTransaction, version, bind_eq_bind,
      bind_some, readInputsOutputs_plain limits _ witness marked]
    have plain : readOptionalData true 0 tx.vin (serializeUInt32 tx.nLockTime ++ rest) =
      some ((0, tx.vin), serializeUInt32 tx.nLockTime ++ rest) := rfl
    simp only [plain, bind_some, lockTime]
    rfl

end

theorem canonical_uint32 : Canonical serializeUInt32 readUInt32 := by
  intro bs n rest accepted
  obtain ⟨⟨value, bs1⟩, read, last⟩ := bind_eq_some_iff.mp accepted
  cases last
  rw [canonical_le 4 _ _ _ read, serializeUInt32, UInt32.toNat_ofNat_of_lt' (readLe_lt read)]

theorem canonical_int32 : Canonical serializeInt32 readInt32 := by
  intro bs n rest accepted
  obtain ⟨⟨value, bs1⟩, read, last⟩ := bind_eq_some_iff.mp accepted
  cases last
  rw [canonical_uint32 _ _ _ read, serializeInt32, UInt32.toUInt32_toInt32]

theorem canonical_int64 : Canonical serializeInt64 readInt64 := by
  intro bs n rest accepted
  obtain ⟨⟨value, bs1⟩, read, last⟩ := bind_eq_some_iff.mp accepted
  cases last
  rw [canonical_le 8 _ _ _ read, serializeInt64, UInt64.toUInt64_toInt64,
    UInt64.toNat_ofNat_of_lt' (readLe_lt read)]

theorem canonical_uint256 : Canonical Uint256.bytes readUint256 := by
  intro bs h rest accepted
  unfold readUint256 at accepted
  split at accepted
  · cases accepted
    exact (take_append_drop 32 bs).symm
  · cases accepted

variable {rest : Bytes}

theorem readLe_canonical {rangeCheck : Bool} {k least n : Nat}
    (accepted : ((readLe k bs).bind fun x => if x.1 < least then none else if rangeCheck = true ∧
      x.1 > maxSize then none else some (x.1, x.2)) = some (n, rest)) :
    least ≤ n ∧ n < 256 ^ k ∧ bs = leBytes k n ++ rest := by
  obtain ⟨⟨value, bs1⟩, read, last⟩ := bind_eq_some_iff.mp accepted
  split at last
  · cases last
  next canonical =>
    split at last
    · cases last
    · cases last
      exact ⟨not_lt.mp canonical, readLe_lt read, canonical_le k _ _ _ read⟩

theorem canonical_compactSize (rangeCheck : Bool) :
    Canonical writeCompactSize (readCompactSize rangeCheck) := by
  intro bs n rest accepted
  cases bs with
  | nil => cases accepted
  | cons chSize bs =>
    simp only [readCompactSize, bind_eq_bind, bind_none, bind_some]
      at accepted
    unfold writeCompactSize
    split at accepted
    next one =>
      split at accepted
      · cases accepted
      · cases accepted
        have small : chSize.toNat < 253 := UInt8.lt_iff_toNat_lt.mp one
        rw [if_pos small, UInt8.ofNat_toNat, singleton_append]
    next many =>
      split at accepted
      next two =>
        obtain ⟨least, most, content⟩ := readLe_canonical accepted
        rw [if_neg (by omega), if_pos (by omega), two, content, cons_append]
      split at accepted
      next four =>
        obtain ⟨least, most, content⟩ := readLe_canonical accepted
        rw [if_neg (by omega), if_neg (by omega), if_pos (by omega), four, content,
          cons_append]
      next two four =>
        obtain ⟨least, most, content⟩ := readLe_canonical accepted
        have eight : chSize = 255 := by
          have bound := chSize.toNat_lt
          rw [UInt8.lt_iff_toNat_lt] at many
          rw [← UInt8.toNat_inj] at two four ⊢
          simp only [UInt8.reduceToNat] at many two four ⊢
          omega
        rw [if_neg (by omega), if_neg (by omega), if_neg (by omega), eight, content,
          cons_append]

theorem canonical_bytes : Canonical serializeBytes unserializeBytes := by
  intro bs b rest accepted
  obtain ⟨⟨nSize, bs1⟩, size, content⟩ := bind_eq_some_iff.mp accepted
  obtain ⟨split, length⟩ := readBytes_canonical content
  rw [canonical_compactSize true _ _ _ size, split, serializeBytes, length, append_assoc]

theorem canonical_vector {α : Type} {write : α → Bytes} {read : Reader α}
    (canonical : Canonical write read) : Canonical (serializeVector write) (readVector read) := by
  intro bs l rest accepted
  obtain ⟨⟨nSize, bs1⟩, size, content⟩ := bind_eq_some_iff.mp accepted
  obtain ⟨split, length⟩ := canonical.times content
  rw [canonical_compactSize true _ _ _ size, split, serializeVector, length, append_assoc]

theorem canonical_outPoint : Canonical COutPoint.serialize COutPoint.unserialize := by
  intro bs o rest accepted
  obtain ⟨⟨hash, bs1⟩, first, accepted1⟩ := bind_eq_some_iff.mp accepted
  obtain ⟨⟨n, bs2⟩, second, last⟩ := bind_eq_some_iff.mp accepted1
  cases last
  rw [canonical_uint256 _ _ _ first, canonical_uint32 _ _ _ second, COutPoint.serialize,
    append_assoc]

theorem canonical_txIn : Canonical serialize unserialize := by
  intro bs txin rest accepted
  obtain ⟨⟨prevout, bs1⟩, first, accepted1⟩ := bind_eq_some_iff.mp accepted
  obtain ⟨⟨scriptSig, bs2⟩, second, accepted2⟩ := bind_eq_some_iff.mp accepted1
  obtain ⟨⟨nSequence, bs3⟩, third, last⟩ := bind_eq_some_iff.mp accepted2
  cases last
  rw [canonical_outPoint _ _ _ first, canonical_bytes _ _ _ second, canonical_uint32 _ _ _ third,
    serialize, append_assoc, append_assoc]

theorem canonical_txOut : Canonical CTxOut.serialize CTxOut.unserialize := by
  intro bs out rest accepted
  obtain ⟨⟨nValue, bs1⟩, first, accepted1⟩ := bind_eq_some_iff.mp accepted
  obtain ⟨⟨scriptPubKey, bs2⟩, second, last⟩ := bind_eq_some_iff.mp accepted1
  cases last
  rw [canonical_int64 _ _ _ first, canonical_bytes _ _ _ second, CTxOut.serialize,
    append_assoc]

theorem CTxIn.unserialize_stripped {txin : CTxIn}
    (accepted : unserialize bs = some (txin, rest)) : txin.scriptWitness = [] := by
  obtain ⟨_, _, accepted1⟩ := bind_eq_some_iff.mp accepted
  obtain ⟨_, _, accepted2⟩ := bind_eq_some_iff.mp accepted1
  obtain ⟨_, _, last⟩ := bind_eq_some_iff.mp accepted2
  cases last
  rfl

theorem canonical_vin (accepted : readVector unserialize bs = some (vin, rest)) :
    bs = serializeVector serialize vin ++ rest ∧ ∀ txin ∈ vin, txin.scriptWitness = [] := by
  constructor
  · exact canonical_vector canonical_txIn _ _ _ accepted
  · obtain ⟨_, _, content⟩ := bind_eq_some_iff.mp accepted
    exact forall_of_readTimes (fun _ _ _ => unserialize_stripped) content

theorem canonical_inputsOutputs {flags : UInt8} {vout : List CTxOut}
    (accepted : readInputsOutputs true bs = some ((flags, vin, vout), rest)) :
    bs = (if flags ≠ 0 then serializeVector CTxIn.serialize [] ++ [flags] else [])
        ++ serializeVector CTxIn.serialize vin ++ serializeVector CTxOut.serialize vout ++ rest ∧
      ∀ txin ∈ vin, txin.scriptWitness = [] := by
  obtain ⟨⟨vin1, bs1⟩, first, accepted1⟩ := bind_eq_some_iff.mp accepted
  obtain ⟨written, bare⟩ := canonical_vin first
  simp only [and_true] at accepted1
  split at accepted1
  next empty =>
    subst empty
    obtain ⟨⟨flag, bs2⟩, mark, accepted2⟩ := bind_eq_some_iff.mp accepted1
    have marked : bs1 = flag :: bs2 := by
      cases bs1 with
      | nil => cases mark
      | cons b bs1 =>
        cases mark
        rfl
    simp only at accepted2
    split at accepted2
    next extended =>
      obtain ⟨⟨vin2, bs3⟩, inputs, accepted3⟩ := bind_eq_some_iff.mp accepted2
      obtain ⟨⟨vout2, bs4⟩, outputs, last⟩ := bind_eq_some_iff.mp accepted3
      cases last
      obtain ⟨written2, bare2⟩ := canonical_vin inputs
      have written3 : bs3 = serializeVector CTxOut.serialize vout2 ++ bs4 :=
        canonical_vector canonical_txOut _ _ _ outputs
      refine ⟨?_, bare2⟩
      rw [written, marked, written2, written3, if_pos extended]
      simp
    next plain =>
      cases accepted2
      refine ⟨?_, by simp⟩
      rw [written, marked, if_neg plain, not_not.mp plain]
      rfl
  · obtain ⟨⟨vout1, bs2⟩, outputs, last⟩ := bind_eq_some_iff.mp accepted1
    cases last
    refine ⟨?_, bare⟩
    rw [written, canonical_vector canonical_txOut _ _ _ outputs]
    simp

theorem canonical_witnesses {vin' : List CTxIn}
    (accepted : readWitnesses vin bs = some (vin', rest)) :
    bs = (vin'.flatMap fun txin => serializeStack txin.scriptWitness) ++ rest ∧
      vin'.map serialize = vin.map serialize := by
  induction vin generalizing vin' bs with
  | nil =>
    cases accepted
    exact ⟨rfl, rfl⟩
  | cons txin vin ih =>
    obtain ⟨⟨stack, bs1⟩, first, accepted1⟩ := bind_eq_some_iff.mp accepted
    obtain ⟨⟨vin1, bs2⟩, others, last⟩ := bind_eq_some_iff.mp accepted1
    cases last
    obtain ⟨written, same⟩ := ih others
    have read : bs = serializeStack stack ++ bs1 := canonical_vector canonical_bytes _ _ _ first
    constructor
    · rw [read, written, flatMap_cons, append_assoc]
    · rw [map_cons, map_cons, same]
      rfl

theorem flag_eq_one {flags : UInt8} (left : flags ^^^ 1 = 0) : flags = 1 := by
  have again := congrArg (· ^^^ 1) left
  simpa [UInt8.xor_assoc] using again

theorem canonical_transaction :
    Canonical (fun tx : CTransaction => tx.serialize true) (unserializeTransaction true) := by
  intro bs tx rest accepted
  obtain ⟨⟨nVersion, bs1⟩, version, accepted1⟩ := bind_eq_some_iff.mp accepted
  obtain ⟨⟨⟨flags, vin, vout⟩, bs2⟩, inputs, accepted2⟩ := bind_eq_some_iff.mp accepted1
  obtain ⟨⟨⟨flags', vin'⟩, bs3⟩, optional, accepted3⟩ := bind_eq_some_iff.mp accepted2
  simp only at accepted3
  split at accepted3
  · cases accepted3
  rename_i known
  obtain ⟨⟨nLockTime, bs4⟩, lockTime, last⟩ := bind_eq_some_iff.mp accepted3
  cases last
  obtain ⟨written, bare⟩ := canonical_inputsOutputs inputs
  have first : bs = serializeInt32 nVersion ++ bs1 := canonical_int32 _ _ _ version
  have end3 : bs3 = serializeUInt32 nLockTime ++ bs4 := canonical_uint32 _ _ _ lockTime
  unfold readOptionalData at optional
  split at optional
  next extended =>
    obtain ⟨⟨vin1, bs5⟩, witnesses, last⟩ := bind_eq_some_iff.mp optional
    simp only at last
    split at last
    next some =>
      cases last
      have one := flag_eq_one (not_not.mp known)
      subst one
      obtain ⟨written2, same⟩ := canonical_witnesses witnesses
      have hasWitness : CTransaction.hasWitness ⟨nVersion, vin', vout, nLockTime⟩ = true := some
      have count : vin'.length = vin.length := by simpa using congrArg List.length same
      have vectors : serializeVector CTxIn.serialize vin' =
          serializeVector CTxIn.serialize vin := by
        simp only [serializeVector, flatMap_def, same, count]
      simp only [CTransaction.serialize, hasWitness, Bool.and_true, if_true, vectors]
      rw [first, written, written2, end3]
      simp
    · cases last
  next plain =>
    cases optional
    have zero : flags = 0 := not_not.mp known
    subst zero
    have hasWitness : CTransaction.hasWitness ⟨nVersion, vin, vout, nLockTime⟩ = false := by
      simpa [CTransaction.hasWitness] using bare
    simp only [CTransaction.serialize, hasWitness, Bool.and_false, Bool.false_eq_true, if_false]
    rw [first, written, end3]
    simp

/-- With witnesses, the format of a transaction is one to one: a transaction that has inputs, or
neither inputs nor outputs, is read back from exactly its own bytes, and bytes that are accepted are
those that would be written of the transaction, so that no two byte strings stand for one. -/
theorem wire_format_is_bijective :
    (∀ (tx : CTransaction) (rest : Bytes), tx.WithinLimits → (tx.vin = [] → tx.vout = []) →
      unserializeTransaction true (tx.serialize true ++ rest) = some (tx, rest)) ∧
    (∀ bs tx, unserializeTransaction true bs = some (tx, []) → tx.serialize true = bs) ∧
    ∀ bs bs' tx, unserializeTransaction true bs = some (tx, []) →
      unserializeTransaction true bs' = some (tx, []) → bs = bs' := by
  have again : ∀ bs tx, unserializeTransaction true bs = some (tx, []) →
      tx.serialize true = bs := by
    intro bs tx accepted
    have written := canonical_transaction bs tx [] accepted
    rw [append_nil] at written
    exact written.symm
  refine ⟨?_, again, ?_⟩
  · intro tx rest limits marked
    exact unserializeTransaction_serialize limits rest marked
  · intro bs bs' tx accepted accepted'
    rw [← again bs tx accepted, again bs' tx accepted']

theorem wire_format_is_bijective_for_samples :
    let spend : CTransaction :=
      ⟨2, [⟨⟨.uint256S 7, 1⟩, [], 5, []⟩, ⟨⟨.uint256S 8, 0⟩, [0x51], 6, [[], [1, 2]]⟩],
        [⟨50, [0x51, 0x52]⟩], 9⟩
    let empty : CTransaction := ⟨1, [], [], 3⟩
    unserializeTransaction true (spend.serialize true ++ [0xff]) = some (spend, [0xff]) ∧
      unserializeTransaction true (empty.serialize true ++ [0xff]) = some (empty, [0xff]) ∧
      empty.serialize true = [1, 0, 0, 0, 0, 0, 3, 0, 0, 0] := by
  intro spend empty
  obtain ⟨back, again, _⟩ := wire_format_is_bijective
  refine ⟨?_, ?_, ?_⟩
  · apply back
    · exact ⟨by decide, by decide, by decide, by decide, by decide⟩
    · exact fun none => by cases none
  · apply back
    · exact ⟨by decide, by decide, by decide, by decide, by decide⟩
    · exact fun _ => rfl
  · exact again _ _ (by decide)

theorem ofNat_eq {b : UInt8} {n : Nat} (value : n = b.toNat) : .ofNat n = b := by
  rw [value, UInt8.ofNat_toNat]

def readBefore (n : Nat) : Bytes := if n = 0 then [] else varIntHigh (n - 1)

theorem readBefore_high (n : Nat) {b : UInt8} (goes : 128 ≤ b.toNat) :
    readBefore n ++ [b] = varIntHigh (n * 128 + b.toNat % 128) := by
  have small := b.toNat_lt
  have last : .ofNat ((n * 128 + b.toNat % 128) % 128 + 128) = b := ofNat_eq (by omega)
  rw [varIntHigh, last, readBefore]
  by_cases first : n = 0
  · rw [if_pos first, if_pos (by omega), nil_append]
  · rw [if_neg first, if_neg (by omega)]
    congr 2
    omega

theorem readBefore_last (n : Nat) {b : UInt8} (ends : b.toNat < 128) :
    readBefore n ++ [b] = writeVarInt (n * 128 + b.toNat % 128) := by
  rw [writeVarInt, readBefore]
  by_cases first : n = 0
  · have last : .ofNat (n * 128 + b.toNat % 128) = b := ofNat_eq (by omega)
    rw [if_pos first, if_pos (by omega), nil_append, last]
  · have last : .ofNat ((n * 128 + b.toNat % 128) % 128) = b := ofNat_eq (by omega)
    rw [if_neg first, if_neg (by omega), last]
    congr 2
    omega

theorem readVarIntFrom_canonical {max n v : Nat} {bs rest : Bytes} (full : max % 128 = 127)
    (accepted : readVarIntFrom max n bs = some (v, rest)) :
    readBefore n ++ bs = writeVarInt v ++ rest ∧ v ≤ max := by
  induction bs generalizing n with
  | nil => cases accepted
  | cons b bs ih =>
    rw [readVarIntFrom] at accepted
    rw [← singleton_append, ← append_assoc]
    split at accepted
    · cases accepted
    rename_i room
    dsimp only at accepted
    split at accepted
    next goes =>
      split at accepted
      · cases accepted
      · rw [readBefore_high n goes]
        exact ih accepted
    next ends =>
      cases accepted
      rw [readBefore_last n (by omega)]
      exact ⟨rfl, by omega⟩

theorem prefixFree_writeVarInt : PrefixFree (fun _ => True) writeVarInt := by
  intro m n s t _ _ same
  exact (reads_varInt (max m n)).prefixFree m n s t (le_max_left m n) (le_max_right m n) same

theorem readVarInt_exact {max : Nat} (full : max % 128 = 127) (n : Nat) (rest : Bytes) :
    readVarInt max (writeVarInt n ++ rest) = if n ≤ max then some (n, rest) else none := by
  split
  next small =>
    exact reads_varInt max n rest small
  next large =>
    by_contra accepted
    obtain ⟨⟨v, rest'⟩, read⟩ := Option.ne_none_iff_exists'.mp accepted
    obtain ⟨same, bound⟩ := readVarIntFrom_canonical full read
    obtain ⟨rfl, _⟩ := prefixFree_writeVarInt _ _ _ _ trivial trivial same
    exact large bound

/-- An integer type has `k` value bits, of which there are at least seven. -/
theorem integers_canonical :
    (∀ k, 7 ≤ k →
      (∀ n rest, readVarInt (2 ^ k - 1) (writeVarInt n ++ rest) =
        if n ≤ 2 ^ k - 1 then some (n, rest) else none) ∧
      ∀ bs n rest, readVarInt (2 ^ k - 1) bs = some (n, rest) → bs = writeVarInt n ++ rest) ∧
    (∀ m n, writeVarInt m <+: writeVarInt n → m = n) ∧
    (∀ rangeCheck,
      (∀ n rest, n < 2 ^ 64 → readCompactSize rangeCheck (writeCompactSize n ++ rest) =
        if rangeCheck = true ∧ n > maxSize then none else some (n, rest)) ∧
      ∀ bs n rest, readCompactSize rangeCheck bs = some (n, rest) →
        bs = writeCompactSize n ++ rest) ∧
    ∀ m n, m < 2 ^ 64 → n < 2 ^ 64 → writeCompactSize m <+: writeCompactSize n → m = n := by
  refine ⟨?_, fun m n => prefixFree_writeVarInt.eq_of_prefix trivial trivial,
    fun rangeCheck => ⟨fun n rest fits => readCompactSize_exact rangeCheck fits rest,
      canonical_compactSize rangeCheck⟩,
    fun m n => prefixFree_compactSize.eq_of_prefix⟩
  intro k wide
  have full : (2 ^ k - 1) % 128 = 127 := by
    obtain ⟨j, rfl⟩ := Nat.exists_eq_add_of_le wide
    have positive := Nat.two_pow_pos j
    rw [pow_add]
    omega
  exact ⟨readVarInt_exact full, fun bs n rest read => (readVarIntFrom_canonical full read).1⟩

end Qogecoin
