import Qogecoin.Crypto.SipHash
import Qogecoin.Primitives.Serialize
import Qogecoin.Util.BitStream

/-! `GCSFilter`, the Golomb-coded sets of `blockfilter.cpp`. -/
namespace Qogecoin

open Codec BitString Loops List Nat

def fastRange64 (x n : UInt64) : UInt64 := .ofNat ((x.toNat * n.toNat) >>> 64)

structure GCSFilter.Params where
  siphashK0 : UInt64
  siphashK1 : UInt64
  P : UInt8
  M : UInt32

structure GCSFilter where
  params : GCSFilter.Params
  N : UInt32
  F : UInt64
  encoded : Bytes

namespace GCSFilter

variable (params : Params)

def hashToRange (F : UInt64) (element : Bytes) : UInt64 :=
  fastRange64 ((CSipHasher.init params.siphashK0 params.siphashK1).write element).finalize F

def buildHashedSet (F : UInt64) (elements : List Bytes) : List UInt64 :=
  (elements.map (hashToRange params F)).mergeSort (· ≤ ·)

def encodeAll (P : UInt8) : UInt64 → List UInt64 → BitStreamWriter →
    Except Failure BitStreamWriter
  | _, [], bitwriter => .ok bitwriter
  | lastValue, value :: values, bitwriter => do
    encodeAll P value values (← golombRiceEncode P (value - lastValue) bitwriter)

def ofElements (elements : List Bytes) : Except Failure GCSFilter :=
  let N := UInt32.ofNat elements.length
  if N.toNat ≠ elements.length then .error .invalidArgument
  else do
    let F := N.toUInt64 * params.M.toUInt64
    let size := writeCompactSize N.toNat
    if elements = [] then .ok ⟨params, N, F, size⟩
    else
      let bitwriter ← encodeAll params.P 0 (buildHashedSet params F elements) ⟨[], 0, 0⟩
      .ok ⟨params, N, F, size ++ bitwriter.flush.ostream⟩

def decodeAll (P : UInt8) : Nat → BitStreamReader → Except Failure BitStreamReader
  | 0, bitreader => .ok bitreader
  | n + 1, bitreader => do
    let (_, bitreader) ← golombRiceDecode P bitreader
    decodeAll P n bitreader

def readSize (stream : Bytes) : Except Failure (Nat × Bytes) :=
  match readCompactSize true stream with
  | none => .error .iosBase
  | some result => .ok result

def ofEncoded (encoded : Bytes) : Except Failure GCSFilter := do
  let (size, stream) ← readSize encoded
  let N := UInt32.ofNat size
  if N.toNat ≠ size then .error .iosBase
  else
    let F := N.toUInt64 * params.M.toUInt64
    let bitreader ← decodeAll params.P N.toNat (.start stream)
    if bitreader.istream ≠ [] then .error .iosBase else .ok ⟨params, N, F, encoded⟩

/-- The inner loop of `MatchInternal`: the answer, or the hashes from the first one above the
value on. -/
def seek (value : UInt64) : List UInt64 → Bool ⊕ List UInt64
  | [] => .inl false
  | hash :: hashes =>
    if hash = value then .inl true else if hash > value then .inr (hash :: hashes)
    else seek value hashes

def scan (P : UInt8) : Nat → UInt64 → List UInt64 → BitStreamReader → Except Failure Bool
  | 0, _, _, _ => .ok false
  | n + 1, value, hashes, bitreader => do
    let (delta, bitreader) ← golombRiceDecode P bitreader
    let value := value + delta
    match seek value hashes with
    | .inl answer => .ok answer
    | .inr hashes => scan P n value hashes bitreader

variable (filter : GCSFilter)

def matchInternal (hashes : List UInt64) : Except Failure Bool := do
  let (size, stream) ← readSize filter.encoded
  if size ≠ filter.N.toNat then .error .assertion
  else scan filter.params.P filter.N.toNat 0 hashes (.start stream)

def match_ (element : Bytes) : Except Failure Bool :=
  filter.matchInternal [hashToRange filter.params filter.F element]

def matchAny (elements : List Bytes) : Except Failure Bool :=
  filter.matchInternal (buildHashedSet filter.params filter.F elements)

variable {elements : List Bytes} {params : Params}

theorem mem_buildHashedSet {F hash : UInt64} :
    hash ∈ buildHashedSet params F elements ↔ hash ∈ elements.map (hashToRange params F) :=
  mem_mergeSort

theorem buildHashedSet_length (params : Params) (F : UInt64) (elements : List Bytes) :
    (buildHashedSet params F elements).length = elements.length := by
  rw [buildHashedSet, length_mergeSort, length_map]

theorem buildHashedSet_sorted (params : Params) (F : UInt64) (elements : List Bytes) :
    (buildHashedSet params F elements).Pairwise (· ≤ ·) := by
  have sorted : (buildHashedSet params F elements).Pairwise fun a b => decide (a ≤ b) = true := by
    apply pairwise_mergeSort
    · intro a b c first second
      exact decide_eq_true (UInt64.le_trans (of_decide_eq_true first) (of_decide_eq_true second))
    · intro a b
      simpa using UInt64.le_total a b
  exact sorted.imp of_decide_eq_true

def codes (P : Nat) : UInt64 → List UInt64 → List Bool
  | _, [] => []
  | lastValue, value :: values => code P (value - lastValue).toNat ++ codes P value values

variable {P : UInt8}

variable {lastValue : UInt64} {hashes : List UInt64}

theorem encodeAll_spec (few : P.toNat < 64) (values : List UInt64) {w : BitStreamWriter}
    (valid : w.Valid) : ∃ w', encodeAll P lastValue values w = .ok w' ∧
      w'.Valid ∧ w'.written = w.written ++ codes P.toNat lastValue values := by
  induction values generalizing lastValue w with
  | nil => exact ⟨w, rfl, valid, (append_nil _).symm⟩
  | cons value values ih =>
    obtain ⟨w1, first, valid1, written1⟩ := golombRiceEncode_spec few (value - lastValue) valid
    obtain ⟨w', rest, valid', written'⟩ := @ih value w1 valid1
    refine ⟨w', ?_, valid', ?_⟩
    · rw [encodeAll, first, ok_bind, rest]
    · rw [written', written1, codes, append_assoc]

theorem decodeAll_spec (few : P.toNat < 64) (values : List UInt64) {r : BitStreamReader}
    {rest : List Bool} (bound : r.offset ≤ 8)
    (left : r.remaining = codes P.toNat lastValue values ++ rest) :
    ∃ r', decodeAll P values.length r = .ok r' ∧ r'.remaining = rest := by
  induction values generalizing lastValue r with
  | nil => exact ⟨r, rfl, left⟩
  | cons value values ih =>
    rw [codes, append_assoc] at left
    obtain ⟨r1, first, bound1, left1⟩ := golombRiceDecode_spec few _ bound left
    obtain ⟨r', decoded, left'⟩ := ih bound1 left1
    refine ⟨r', ?_, left'⟩
    rw [length_cons, decodeAll, first, ok_bind]
    exact decoded

theorem seek_spec (value : UInt64) (sorted : hashes.Pairwise (· ≤ ·)) :
    (∃ rest, seek value hashes = .inr rest ∧ rest.Pairwise (· ≤ ·) ∧ value ∉ hashes ∧
        ∀ hash, value ≤ hash → (hash ∈ hashes ↔ hash ∈ rest)) ∨
      (seek value hashes = .inl true ∧ value ∈ hashes) ∨
      (seek value hashes = .inl false ∧ ∀ hash ∈ hashes, hash < value) := by
  induction hashes with
  | nil => exact .inr (.inr ⟨rfl, nofun⟩)
  | cons first hashes ih =>
    obtain ⟨least, others⟩ := pairwise_cons.mp sorted
    rw [seek]
    by_cases equal : first = value
    · rw [if_pos equal, equal]
      exact .inr (.inl ⟨rfl, mem_cons_self⟩)
    rw [if_neg equal]
    by_cases above : first > value
    · rw [if_pos above]
      refine .inl ⟨_, rfl, sorted, ?_, fun _ _ => .rfl⟩
      intro member
      rcases mem_cons.mp member with same | later
      · exact equal same.symm
      · exact absurd (least value later) (UInt64.not_le.mpr above)
    · rw [if_neg above]
      have below : first < value := UInt64.lt_of_le_of_ne (UInt64.not_lt.mp above) equal
      rcases ih others with ⟨rest, found, sorted', missing, same⟩ | ⟨found, member⟩ | ⟨found, low⟩
      · refine .inl ⟨rest, found, sorted', ?_, ?_⟩
        · intro member
          rcases mem_cons.mp member with here | later
          · exact equal here.symm
          · exact missing later
        · intro hash bound
          rw [← same hash bound, mem_cons]
          constructor
          · rintro (here | later)
            · rw [here] at bound
              exact absurd below (UInt64.not_lt.mpr bound)
            · exact later
          · exact .inr
      · exact .inr (.inl ⟨found, mem_cons_of_mem _ member⟩)
      · refine .inr (.inr ⟨found, ?_⟩)
        intro hash member
        rcases mem_cons.mp member with here | later
        · rw [here]
          exact below
        · exact low hash later

theorem scan_spec (few : P.toNat < 64) (values : List UInt64) {r : BitStreamReader}
    {rest : List Bool} (increasing : values.Pairwise (· ≤ ·)) (sorted : hashes.Pairwise (· ≤ ·))
    (bound : r.offset ≤ 8) (left : r.remaining = codes P.toNat lastValue values ++ rest) :
    scan P values.length lastValue hashes r = .ok (decide (∃ hash ∈ hashes, hash ∈ values)) := by
  induction values generalizing lastValue hashes r with
  | nil => simp [scan]
  | cons value values ih =>
    obtain ⟨least, increasing'⟩ := pairwise_cons.mp increasing
    rw [codes, append_assoc] at left
    obtain ⟨r1, first, bound1, left1⟩ := golombRiceDecode_spec few _ bound left
    rw [length_cons, scan, first, ok_bind]
    have sum : lastValue + (value - lastValue) = value := by
      rw [UInt64.add_comm, UInt64.sub_add_cancel]
    dsimp only
    rw [sum]
    rcases seek_spec value sorted with
      ⟨hashes', found, sorted', missing, same⟩ | ⟨found, member⟩ | ⟨found, low⟩
    · rw [found]
      dsimp only
      rw [ih increasing' sorted' bound1 left1]
      congr 1
      rw [decide_eq_decide]
      constructor
      · rintro ⟨hash, inside, here⟩
        exact ⟨hash, (same hash (least hash here)).mpr inside, mem_cons_of_mem _ here⟩
      · rintro ⟨hash, inside, here⟩
        rcases mem_cons.mp here with equal | later
        · rw [equal] at inside
          exact absurd inside missing
        · exact ⟨hash, (same hash (least hash later)).mp inside, later⟩
    · rw [found]
      rw [decide_eq_true ⟨value, member, mem_cons_self⟩]
    · rw [found]
      rw [decide_eq_false]
      rintro ⟨hash, inside, here⟩
      have high : value ≤ hash := by
        rcases mem_cons.mp here with equal | later
        · rw [equal]
          exact UInt64.le_refl _
        · exact least hash later
      exact absurd (low hash inside) (UInt64.not_lt.mpr high)

structure RoundTrips (params : Params) (elements : List Bytes) (filter decoded : GCSFilter) :
    Prop where
  built : ofElements params elements = .ok filter
  accepted : ofEncoded params filter.encoded = .ok decoded
  matches_ : ∀ element, decoded.match_ element = .ok (decide
    (hashToRange params decoded.F element ∈ elements.map (hashToRange params decoded.F)))
  matchesAny : ∀ queries, decoded.matchAny queries = .ok (decide (∃ query ∈ queries,
    hashToRange params decoded.F query ∈ elements.map (hashToRange params decoded.F)))
  members : ∀ element ∈ elements, decoded.match_ element = .ok true

theorem readSize_writeCompactSize {n : Nat} (small : n ≤ maxSize) (rest : Bytes) :
    readSize (writeCompactSize n ++ rest) = .ok (n, rest) := by
  have fits : n < 2 ^ 64 := small.trans_lt (by decide)
  rw [readSize, reads_compactSize true n rest ⟨fits, fun _ => small⟩]

theorem readSize_too_large {n : Nat} (large : maxSize < n) (small : n < 2 ^ 32) (rest : Bytes) :
    readSize (writeCompactSize n ++ rest) = .error .iosBase := by
  rw [readSize, readCompactSize_exact true (by omega), if_pos ⟨rfl, large⟩]

structure Encodes (params : Params) (elements : List Bytes) (filter : GCSFilter) (body : Bytes) :
    Prop where
  params_eq : filter.params = params
  size : filter.N.toNat = elements.length
  range : filter.F = filter.N.toUInt64 * params.M.toUInt64
  encoded : filter.encoded = writeCompactSize elements.length ++ body
  codes_eq : ∃ padding : List Bool, padding.length < 8 ∧
    packed body = codes params.P.toNat 0 (buildHashedSet params filter.F elements) ++ padding

theorem ofElements_spec (few : params.P.toNat < 64) (small : elements.length < 2 ^ 32) :
    ∃ filter body, ofElements params elements = .ok filter ∧ Encodes params elements filter body := by
  have size : (UInt32.ofNat elements.length).toNat = elements.length := by
    rw [UInt32.toNat_ofNat', mod_eq_of_lt small]
  rw [ofElements]
  rw [if_neg (not_not.mpr size), size]
  by_cases empty : elements = []
  · rw [if_pos empty]
    refine ⟨_, [], rfl, rfl, size, rfl, (append_nil _).symm, [], by decide, ?_⟩
    rw [empty]
    simp [buildHashedSet, codes, packed]
  rw [if_neg empty]
  obtain ⟨w, encoded, valid, written⟩ := @encodeAll_spec params.P 0 few
    (buildHashedSet params ((UInt32.ofNat elements.length).toUInt64 * params.M.toUInt64) elements)
    ⟨[], 0, 0⟩ ⟨zero_lt_succ 7, rfl⟩
  obtain ⟨padding, short, flushed⟩ := BitStreamWriter.flush_spec valid
  rw [encoded, ok_bind]
  exact ⟨_, w.flush.ostream, rfl, rfl, size, rfl, rfl, padding, short, flushed.trans
    (congrArg (· ++ padding) written)⟩

section

variable {filter : GCSFilter} {body : Bytes} (encodes : Encodes params elements filter body)
  (few : params.P.toNat < 64) (small : elements.length ≤ maxSize)
include encodes few small

theorem Encodes.accepted : ofEncoded params filter.encoded = .ok filter := by
  obtain ⟨padding, short, bits_eq⟩ := encodes.codes_eq
  have size : (UInt32.ofNat elements.length).toNat = elements.length := by
    rw [← encodes.size, UInt32.ofNat_toNat]
  have left : (BitStreamReader.start body).remaining =
      codes params.P.toNat 0 (buildHashedSet params filter.F elements) ++ padding := bits_eq
  obtain ⟨r, decoded, left'⟩ := decodeAll_spec few _ (le_refl 8) left
  rw [buildHashedSet_length] at decoded
  have finished : r.istream = [] := BitStreamReader.istream_eq_nil (by rw [left']; exact short)
  rw [ofEncoded, encodes.encoded, readSize_writeCompactSize small, ok_bind]
  dsimp only
  rw [if_neg (not_not.mpr size), size, decoded, ok_bind, if_neg (not_not.mpr finished),
    ← encodes.encoded]
  have number : UInt32.ofNat elements.length = filter.N := by
    rw [← encodes.size, UInt32.ofNat_toNat]
  rw [number, ← encodes.range, ← encodes.params_eq]

theorem Encodes.matchInternal_eq (sorted : hashes.Pairwise (· ≤ ·)) :
    filter.matchInternal hashes = .ok (decide (∃ hash ∈ hashes,
      hash ∈ elements.map (hashToRange params filter.F))) := by
  obtain ⟨padding, _, bits_eq⟩ := encodes.codes_eq
  have left : (BitStreamReader.start body).remaining =
      codes params.P.toNat 0 (buildHashedSet params filter.F elements) ++ padding := bits_eq
  have scanned := scan_spec few _ (buildHashedSet_sorted params filter.F elements) sorted
    (le_refl 8) left
  rw [buildHashedSet_length] at scanned
  rw [matchInternal, encodes.encoded, readSize_writeCompactSize small, ok_bind]
  dsimp only
  rw [if_neg (not_not.mpr encodes.size.symm), encodes.size, encodes.params_eq, scanned]
  simp only [mem_buildHashedSet]

end

theorem roundTrips_of_small (few : params.P.toNat < 64) (bound : elements.length ≤ maxSize) :
    ∃ filter decoded, RoundTrips params elements filter decoded := by
  obtain ⟨filter, body, built, encodes⟩ := ofElements_spec few (bound.trans_lt (by decide))
  have single (element : Bytes) : filter.match_ element = .ok (decide
      (hashToRange params filter.F element ∈ elements.map (hashToRange params filter.F))) := by
    rw [match_, encodes.matchInternal_eq few bound (pairwise_singleton _ _), encodes.params_eq]
    simp
  refine ⟨filter, filter, built, encodes.accepted few bound, single, ?_, ?_⟩
  · intro queries
    rw [matchAny, encodes.matchInternal_eq few bound (buildHashedSet_sorted _ _ _),
      encodes.params_eq]
    congr 1
    rw [decide_eq_decide]
    simp only [mem_buildHashedSet]
    simp
  · intro element member
    rw [single, decide_eq_true (mem_map_of_mem member)]

theorem not_roundTrips_of_large (few : params.P.toNat < 64) (large : maxSize < elements.length)
    (small : elements.length < 2 ^ 32) :
    ¬∃ filter decoded, RoundTrips params elements filter decoded := by
  rintro ⟨filter, decoded, trips⟩
  obtain ⟨filter', body, built, encodes⟩ := ofElements_spec few small
  have same : filter = filter' := Except.ok.inj (trips.built.symm.trans built)
  have accepted := trips.accepted
  rw [same, ofEncoded, encodes.encoded, readSize_too_large large small] at accepted
  cases accepted

/-- A filter is decoded to what was encoded if its number of elements passes the range check of
`ReadCompactSize`, and refused otherwise. -/
theorem filter_round_trips_iff (params : Params) (elements : List Bytes)
    (narrow : params.P.toNat ≤ 32) (small : elements.length < 2 ^ 32) :
    (∃ filter decoded, RoundTrips params elements filter decoded) ↔ elements.length ≤ maxSize := by
  have few : params.P.toNat < 64 := by omega
  constructor
  · intro trips
    by_contra large
    exact not_roundTrips_of_large few (not_le.mp large) small trips
  · exact roundTrips_of_small few

def basicParams : Params := ⟨0, 0, 19, 784931⟩

theorem filter_of_two_elements_round_trips :
    basicParams.P.toNat ≤ 32 ∧ [[1], [2, 3]].length < 2 ^ 32 ∧
      ∃ filter decoded, RoundTrips basicParams [[1], [2, 3]] filter decoded :=
  ⟨by decide, by decide,
    (filter_round_trips_iff basicParams [[1], [2, 3]] (by decide) (by decide)).mpr (by decide)⟩

theorem filter_of_many_elements_is_refused :
    ∃ elements : List Bytes, elements.Nodup ∧ elements.length < 2 ^ 32 ∧
      ¬∃ filter decoded, RoundTrips basicParams elements filter decoded := by
  have size : ((range (maxSize + 1)).map (leBytes 4)).length = maxSize + 1 := by
    rw [length_map, length_range]
  refine ⟨(range (maxSize + 1)).map (leBytes 4), ?_, ?_, ?_⟩
  · refine Nodup.map_on ?_ nodup_range
    intro m inM n inN same
    have smallM := mem_range.mp inM
    have smallN := mem_range.mp inN
    rw [maxSize] at smallM smallN
    exact leBytes_injective (by omega) (by omega) same
  · rw [size]
    decide
  · exact not_roundTrips_of_large (by decide) (by rw [size]; decide) (by rw [size]; decide)

end GCSFilter

end Qogecoin
