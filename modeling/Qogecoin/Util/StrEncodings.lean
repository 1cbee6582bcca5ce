import Qogecoin.Library.Codec

/-! `ConvertBits` and the Base64 and Base32 texts of `util/strencodings`: the texts a decoder
accepts are the padded encodings. A character is the byte it is stored in. -/
namespace Qogecoin.StrEncodings

open Codec List Nat

/-- The variables of `ConvertBits` and the values it has put out. -/
structure Groups where
  acc : Nat := 0
  bits : Nat := 0
  out : List Nat := []

section ConvertBits

variable (frombits tobits : Nat)

/-- The inner loop, which runs at most `bits` times. -/
def emit : Nat → Groups → Groups
  | 0, s => s
  | fuel + 1, s =>
    if tobits ≤ s.bits then
      let bits := s.bits - tobits
      emit fuel { s with bits, out := s.out ++ [s.acc >>> bits &&& (2 ^ tobits - 1)] }
    else s

def push (s : Groups) (v : Nat) : Groups :=
  let bits := s.bits + frombits
  emit tobits bits { s with
    acc := (s.acc <<< frombits ||| v) &&& (2 ^ (frombits + tobits - 1) - 1), bits }

/-- The end of the conversion. -/
def finish (pad : Bool) (s : Groups) : Option (List Nat) :=
  let last := s.acc <<< (tobits - s.bits) &&& (2 ^ tobits - 1)
  if pad then some (if s.bits ≠ 0 then s.out ++ [last] else s.out)
  else if frombits ≤ s.bits ∨ last ≠ 0 then none
  else some s.out

/-- `infn` is `none` where the source has a negative value. -/
def convertBits {α : Type} (pad : Bool) (infn : α → Option Nat) (input : List α) :
    Option (List Nat) :=
  (input.mapM infn).bind fun vs => finish frombits tobits pad (vs.foldl (push frombits tobits) {})

end ConvertBits

variable {w frombits tobits : Nat} {read : List Nat} {s : Groups}

/-- The number whose digits the values of width `w` are, the most significant one first. -/
def number (w : Nat) (vs : List Nat) : Nat := ofDigits (2 ^ w) vs.reverse

theorem number_concat (vs : List Nat) (v : Nat) :
    number w (vs ++ [v]) = number w vs * 2 ^ w + v := by
  rw [number, reverse_concat, ofDigits_cons, number, mul_comm, add_comm]

theorem number_injective (pos : 0 < w) {vs us : List Nat} (vs_lt : ∀ v ∈ vs, v < 2 ^ w)
    (us_lt : ∀ u ∈ us, u < 2 ^ w) (sizes : vs.length = us.length)
    (same : number w vs = number w us) : vs = us :=
  reverse_injective (ofDigits_inj_of_len_eq (Nat.one_lt_two_pow pos.ne') (by simpa using sizes)
    (by simpa using vs_lt) (by simpa using us_lt) same)

/-- What `ConvertBits` has read is what it has put out and the low bits of `acc`. -/
structure Holds (frombits tobits : Nat) (read : List Nat) (s : Groups) : Prop where
  small : ∀ v ∈ s.out, v < 2 ^ tobits
  all : number tobits s.out * 2 ^ s.bits + s.acc % 2 ^ s.bits = number frombits read
  sizes : tobits * s.out.length + s.bits = frombits * read.length

theorem emit_holds (pos : 0 < tobits) {fuel : Nat}
    (holds : Holds frombits tobits read s) (enough : s.bits ≤ fuel) :
    Holds frombits tobits read (emit tobits fuel s) ∧ (emit tobits fuel s).bits < tobits := by
  induction fuel generalizing s with
  | zero => exact ⟨holds, by unfold emit; omega⟩
  | succ fuel ih =>
    rw [emit]
    split_ifs with full
    · refine ih ⟨?_, ?_, ?_⟩ (by dsimp only; omega)
      · simpa [or_imp, forall_and] using ⟨holds.small, Nat.mod_lt _ (Nat.two_pow_pos _)⟩
      · rw [← holds.all, ← Nat.sub_add_cancel full]
        rw [number_concat, Nat.and_two_pow_sub_one_eq_mod, Nat.shiftRight_eq_div_pow, pow_add,
          Nat.mod_mul, Nat.add_sub_cancel]
        ring
      · rw [← holds.sizes]
        dsimp only
        rw [length_append, length_singleton, Nat.mul_succ]
        omega
    · exact ⟨holds, not_le.mp full⟩

theorem push_holds (pos : 0 < tobits) {v : Nat} (holds : Holds frombits tobits read s)
    (few : s.bits < tobits) (small : v < 2 ^ frombits) :
    Holds frombits tobits (read ++ [v]) (push frombits tobits s v) ∧
      (push frombits tobits s v).bits < tobits := by
  have room : 2 ^ (s.bits + frombits) ∣ 2 ^ (frombits + tobits - 1) :=
    Nat.pow_dvd_pow 2 (by omega)
  refine emit_holds pos ⟨holds.small, ?_, ?_⟩ le_rfl
  · have low : (s.acc * 2 ^ frombits + v) % 2 ^ frombits = v := by
      rw [Nat.mul_add_mod', Nat.mod_eq_of_lt small]
    have high : (s.acc * 2 ^ frombits + v) / 2 ^ frombits = s.acc := by
      rw [Nat.mul_comm, Nat.mul_add_div (Nat.two_pow_pos _), Nat.div_eq_of_lt small, Nat.add_zero]
    rw [Nat.and_two_pow_sub_one_eq_mod, Nat.mod_mod_of_dvd _ room,
      ← Nat.shiftLeft_add_eq_or_of_lt small, Nat.shiftLeft_eq, number_concat, ← holds.all,
      Nat.add_comm s.bits, pow_add, Nat.mod_mul, low, high]
    ring
  · have sizes := holds.sizes
    dsimp only
    rw [length_append, length_singleton, Nat.mul_succ]
    omega

theorem foldl_push_holds (pos : 0 < tobits) {vs : List Nat}
    (holds : Holds frombits tobits read s) (few : s.bits < tobits)
    (small : ∀ v ∈ vs, v < 2 ^ frombits) :
    Holds frombits tobits (read ++ vs) (vs.foldl (push frombits tobits) s) ∧
      (vs.foldl (push frombits tobits) s).bits < tobits := by
  induction vs generalizing read s with
  | nil => simpa using ⟨holds, few⟩
  | cons v vs ih =>
    simp only [mem_cons, forall_eq_or_imp] at small
    obtain ⟨kept, fewer⟩ := push_holds pos holds few small.1
    have rest := ih kept fewer small.2
    rwa [append_assoc] at rest

/-- The values `vs` of width `w` are the bytes `bs`, with less than one value of zero bits added. -/
structure Regroups (w : Nat) (bs vs : List Nat) : Prop where
  bytes : ∀ b ∈ bs, b < 2 ^ 8
  values : ∀ v ∈ vs, v < 2 ^ w
  same : ∃ k < w, w * vs.length = 8 * bs.length + k ∧ number w vs = number 8 bs * 2 ^ k

variable {α : Type} {infn : α → Option Nat} {input : List α} {bs vs : List Nat}

/-- The last group of a conversion: the low bits of `acc`, filled with zeros. -/
theorem last_eq {b : Nat} (few : b ≤ tobits) (acc : Nat) :
    acc <<< (tobits - b) &&& (2 ^ tobits - 1) = acc % 2 ^ b * 2 ^ (tobits - b) := by
  rw [Nat.and_two_pow_sub_one_eq_mod, Nat.shiftLeft_eq, ← Nat.mul_mod_mul_right, ← pow_add,
    Nat.add_sub_cancel' few]

theorem convertBits_pad (pos : 0 < w) (read : input.mapM infn = some bs)
    (small : ∀ b ∈ bs, b < 2 ^ 8) :
    ∃ vs, convertBits 8 w true infn input = some vs ∧ Regroups w bs vs := by
  have start : Holds 8 w [] {} := ⟨by simp, rfl, rfl⟩
  obtain ⟨⟨values, all, sizes⟩, few⟩ := foldl_push_holds pos start pos small
  rw [convertBits, read, Option.bind_some, finish, if_pos rfl]
  generalize bs.foldl (push 8 w) {} = s at *
  rw [nil_append] at all sizes
  rw [last_eq few.le]
  split_ifs with left
  · refine ⟨_, rfl, small, ?_, w - s.bits, by omega, ?_, ?_⟩
    · have last := Nat.mod_lt (s.acc <<< (w - s.bits)) (Nat.two_pow_pos w)
      rw [← Nat.and_two_pow_sub_one_eq_mod, last_eq few.le] at last
      simpa [or_imp, forall_and] using ⟨values, last⟩
    · rw [length_append, length_singleton, Nat.mul_succ]
      omega
    · rw [number_concat, ← all, Nat.add_mul, Nat.mul_assoc, ← pow_add, Nat.add_sub_cancel' few.le]
  · rw [not_not] at left
    rw [left] at all sizes
    exact ⟨_, rfl, small, values, 0, pos, sizes, by simpa [Nat.mod_one] using all⟩

theorem convertBits_exact (width : w = 5 ∨ w = 6) (read : input.mapM infn = some vs)
    (small : ∀ v ∈ vs, v < 2 ^ w) :
    convertBits w 8 false infn input = some bs ↔ Regroups w bs vs := by
  have start : Holds w 8 [] {} := ⟨by simp, rfl, rfl⟩
  obtain ⟨⟨bytes, all, sizes⟩, few⟩ := foldl_push_holds (by decide) start (by decide) small
  rw [convertBits, read, Option.bind_some, finish, if_neg Bool.false_ne_true]
  generalize vs.foldl (push w 8) {} = s at *
  rw [nil_append] at all sizes
  simp only [last_eq few.le, ne_eq, Nat.mul_eq_zero, (Nat.two_pow_pos _).ne', or_false,
    Option.ite_none_left_eq_some, not_or, not_le, not_not, Option.some.injEq]
  constructor
  · rintro ⟨⟨fewer, zero⟩, rfl⟩
    exact ⟨bytes, small, s.bits, fewer, sizes.symm, by rw [← all, zero, Nat.add_zero]⟩
  · rintro ⟨bytes', -, k, fewer, sizes', same⟩
    obtain rfl : s.bits = k := by omega
    have low := congrArg (· % 2 ^ s.bits) (all.trans same)
    simp only [Nat.mul_add_mod', Nat.mod_mod, Nat.mul_mod_left] at low
    rw [low, Nat.add_zero, same] at all
    exact ⟨⟨fewer, low⟩, number_injective (by decide) bytes bytes' (by omega)
      (Nat.eq_of_mul_eq_mul_right (Nat.two_pow_pos _) all)⟩

theorem Regroups.unique_values (width : w = 5 ∨ w = 6) {us : List Nat} (one : Regroups w bs vs)
    (other : Regroups w bs us) : vs = us := by
  obtain ⟨k, few, sizes, same⟩ := one.same
  obtain ⟨j, fewer, sizes', same'⟩ := other.same
  obtain ⟨rfl, lengths⟩ : k = j ∧ vs.length = us.length := by
    rcases width with rfl | rfl <;> omega
  exact number_injective (by omega) one.values other.values lengths (same.trans same'.symm)

/-- The code of the padding character. -/
def equals : UInt8 := 61

/-- The padding loop of the encoders, which runs less than `unit` times. -/
def padTo (unit : Nat) : Nat → Bytes → Bytes
  | 0, str => str
  | fuel + 1, str => if str.length % unit ≠ 0 then padTo unit fuel (str ++ [equals]) else str

/-- `str` without a suffix of `n` padding characters. -/
def removeSuffix (str : Bytes) (n : Nat) : Bytes :=
  if replicate n equals <:+ str then str.take (str.length - n) else str

/-- An alphabet, the table that inverts it, and the suffixes a decoder removes in turn. -/
structure TextCodec where
  width : Nat
  unit : Nat
  alphabet : Nat → UInt8
  table : UInt8 → Option Nat
  suffixes : List Nat
  /-- The letter case the alphabet is written in. -/
  fold : UInt8 → UInt8
  shape : width = 5 ∧ unit = 8 ∨ width = 6 ∧ unit = 4
  short : suffixes.sum < unit
  table_alphabet : ∀ v < 2 ^ width, table (alphabet v) = some v
  alphabet_table : ∀ c, ∀ v ∈ table c, v < 2 ^ width ∧ alphabet v = fold c
  table_equals : table equals = none
  fold_equals : fold equals = equals
  clears : ∀ {n k p l : Nat}, width * l = 8 * n + k → k < width → (l + p) % unit = 0 → p < unit →
    suffixes.foldl (fun p n => if n ≤ p then p - n else p) p = 0

namespace TextCodec

variable (codec : TextCodec)

def encode (input : Bytes) (pad : Bool) : Bytes :=
  let values := (convertBits 8 codec.width true (fun b => some b.toNat) input).getD []
  let str := values.map codec.alphabet
  if pad then padTo codec.unit codec.unit str else str

def decode (str : Bytes) : Option Bytes :=
  if str.length % codec.unit ≠ 0 then none
  else (convertBits codec.width 8 false codec.table (codec.suffixes.foldl removeSuffix str)).map
    (·.map .ofNat)

end TextCodec

/-- The loop adds the fewest characters that complete a unit. -/
theorem padTo_eq {unit fuel q : Nat} {str : Bytes} (enough : q ≤ fuel)
    (complete : (str.length + q) % unit = 0) :
    ∃ p ≤ q, padTo unit fuel str = str ++ replicate p equals ∧ (str.length + p) % unit = 0 := by
  induction fuel generalizing q str with
  | zero => exact ⟨0, zero_le q, by simp [padTo], le_zero.mp enough ▸ complete⟩
  | succ fuel ih =>
    rw [padTo]
    split_ifs with more
    · obtain _ | q := q
      · exact absurd complete more
      · have step : str.length + (q + 1) = (str ++ [equals]).length + q := by simp; omega
        obtain ⟨p, few, padded, done⟩ := ih (by omega) (step ▸ complete)
        refine ⟨p + 1, by omega, by simp [padded, replicate_succ], ?_⟩
        rw [← done, length_append, length_singleton]
        congr 1
        omega
    · exact ⟨0, zero_le q, by simp, not_not.mp more⟩

theorem removeSuffix_eq {body : Bytes} (clean : equals ∉ body) (p n : Nat) :
    removeSuffix (body ++ replicate p equals) n =
      body ++ replicate (if n ≤ p then p - n else p) equals := by
  unfold removeSuffix
  split_ifs with found few few
  · have parts : body ++ replicate p equals =
        body ++ replicate (p - n) equals ++ replicate n equals := by
      rw [append_assoc, replicate_append_replicate, Nat.sub_add_cancel few]
    rw [parts]
    exact take_left' (by simp; omega)
  · obtain ⟨front, same⟩ := found
    rw [← Nat.sub_add_cancel (not_le.mp few).le, ← replicate_append_replicate,
      ← append_assoc] at same
    rw [← append_cancel_right same] at clean
    simp at clean
    omega
  · refine absurd ⟨body ++ replicate (p - n) equals, ?_⟩ found
    rw [append_assoc, replicate_append_replicate, Nat.sub_add_cancel few]
  · rfl

theorem foldl_removeSuffix_eq {body : Bytes} (clean : equals ∉ body) (suffixes : List Nat)
    (p : Nat) :
    suffixes.foldl removeSuffix (body ++ replicate p equals) =
      body ++ replicate (suffixes.foldl (fun p n => if n ≤ p then p - n else p) p) equals := by
  induction suffixes generalizing p with
  | nil => rfl
  | cons n suffixes ih => rw [foldl_cons, foldl_cons, removeSuffix_eq clean, ih]

theorem eq_foldl_removeSuffix (suffixes : List Nat) (str : Bytes) :
    ∃ p ≤ suffixes.sum, str = suffixes.foldl removeSuffix str ++ replicate p equals := by
  induction suffixes generalizing str with
  | nil => exact ⟨0, le_rfl, by simp⟩
  | cons n suffixes ih =>
    obtain ⟨p, few, same⟩ := ih (removeSuffix str n)
    rw [foldl_cons, sum_cons]
    by_cases found : replicate n equals <:+ str
    · refine ⟨p + n, by omega, ?_⟩
      rw [← replicate_append_replicate, ← append_assoc, ← same, removeSuffix, if_pos found]
      obtain ⟨front, rfl⟩ := found
      simp
    · refine ⟨p, by omega, ?_⟩
      rw [← same, removeSuffix, if_neg found]

namespace TextCodec

variable {codec : TextCodec} {input str : Bytes}

/-- A padded encoding is the alphabet's text of the input's values, filled up to a unit. -/
theorem encode_spec (codec : TextCodec) (input : Bytes) :
    ∃ vs p, codec.encode input true = vs.map codec.alphabet ++ replicate p equals ∧ p < codec.unit ∧
      (vs.length + p) % codec.unit = 0 ∧ Regroups codec.width (input.map UInt8.toNat) vs := by
  have pos : 0 < codec.width := by have := codec.shape; omega
  have bytes : ∀ b ∈ input.map UInt8.toNat, b < 2 ^ 8 := by simpa using fun b _ => b.toNat_lt
  obtain ⟨vs, converted, regroups⟩ :=
    @convertBits_pad _ _ (fun b : UInt8 => some b.toNat) _ _ pos mapM_pure bytes
  obtain ⟨q, below, complete⟩ : ∃ q < codec.unit,
      ((vs.map codec.alphabet).length + q) % codec.unit = 0 := by
    rw [length_map]
    refine ⟨(codec.unit - vs.length % codec.unit) % codec.unit, ?_⟩
    rcases codec.shape with ⟨-, unit⟩ | ⟨-, unit⟩ <;> rw [unit] <;> omega
  obtain ⟨p, few, padded, whole⟩ := padTo_eq below.le complete
  refine ⟨vs, p, ?_, by omega, by simpa using whole, regroups⟩
  simpa only [encode, converted, if_true, Option.getD_some] using padded

theorem mapM_table {vs : List Nat} (small : ∀ v ∈ vs, v < 2 ^ codec.width) :
    (vs.map codec.alphabet).mapM codec.table = some vs := by
  induction vs with
  | nil => rfl
  | cons v vs ih =>
    simp only [mem_cons, forall_eq_or_imp] at small
    rw [map_cons, mapM_cons, codec.table_alphabet v small.1, ih small.2]
    rfl

theorem of_mapM_table {vs : List Nat} (read : str.mapM codec.table = some vs) :
    (∀ v ∈ vs, v < 2 ^ codec.width) ∧ vs.map codec.alphabet = str.map codec.fold := by
  induction str generalizing vs with
  | nil => simp_all
  | cons c str ih =>
    rw [mapM_cons] at read
    obtain ⟨v, found, read⟩ := Option.bind_eq_some_iff.mp read
    obtain ⟨us, rest, last⟩ := Option.bind_eq_some_iff.mp read
    cases last
    obtain ⟨small, letter⟩ := codec.alphabet_table c v found
    simpa [small, letter] using ih rest

theorem decode_encode (codec : TextCodec) (input : Bytes) :
    codec.decode (codec.encode input true) = some input := by
  obtain ⟨vs, p, text, few, whole, regroups⟩ := codec.encode_spec input
  obtain ⟨k, fewer, sizes, _⟩ := regroups.same
  have clean : equals ∉ vs.map codec.alphabet := by
    intro member
    obtain ⟨v, mem, padding⟩ := mem_map.mp member
    have found := codec.table_alphabet v (regroups.values v mem)
    rw [padding, codec.table_equals] at found
    cases found
  have width : codec.width = 5 ∨ codec.width = 6 := by have := codec.shape; omega
  rw [text, decode, if_neg (by simpa using whole), foldl_removeSuffix_eq clean,
    codec.clears sizes fewer whole few, replicate_zero, append_nil,
    (convertBits_exact width (mapM_table regroups.values) regroups.values).mpr regroups]
  simp [Function.comp_def]

theorem encode_of_decode {out : Bytes} (accepted : codec.decode str = some out) :
    codec.encode out true = str.map codec.fold := by
  rw [decode, Option.ite_none_left_eq_some, not_not, Option.map_eq_some_iff] at accepted
  obtain ⟨unit, bs, converted, rfl⟩ := accepted
  obtain ⟨p, few, same⟩ := eq_foldl_removeSuffix codec.suffixes str
  generalize codec.suffixes.foldl removeSuffix str = body at *
  obtain ⟨vs, read, -⟩ := Option.bind_eq_some_iff.mp converted
  obtain ⟨small, letters⟩ := of_mapM_table read
  have width : codec.width = 5 ∨ codec.width = 6 := by have := codec.shape; omega
  have regroups := (convertBits_exact width read small).mp converted
  obtain ⟨us, q, text, below, whole, others⟩ := codec.encode_spec (bs.map .ofNat)
  have bytes : (bs.map UInt8.ofNat).map UInt8.toNat = bs := by
    rw [map_map]
    refine (map_congr_left fun b member => ?_).trans (map_id bs)
    exact UInt8.toNat_ofNat_of_lt (regroups.bytes b member)
  rw [bytes] at others
  obtain rfl := regroups.unique_values width others
  have lengths : vs.length = body.length := by simpa using congrArg List.length letters
  obtain rfl : p = q := by
    have short := codec.short
    rw [same, length_append, length_replicate, ← lengths] at unit
    rcases codec.shape with ⟨-, eq⟩ | ⟨-, eq⟩ <;> rw [eq] at short below whole unit <;> omega
  rw [text, same, map_append, map_replicate, codec.fold_equals, letters]

end TextCodec

theorem forall_byte (P : UInt8 → Prop) (all : ∀ i : Fin 256, P (.ofFin i)) (c : UInt8) : P c :=
  all c.toFin

def base64 : TextCodec where
  width := 6
  unit := 4
  alphabet v := .ofNat
    ("ABCDEFGHIJKLMNOPQRSTUVWXYZabcdefghijklmnopqrstuvwxyz0123456789+/".toList.getD v '=').toNat
  table c :=
    let n := c.toNat
    if 65 ≤ n ∧ n ≤ 90 then some (n - 65) else if 97 ≤ n ∧ n ≤ 122 then some (n - 71)
    else if 48 ≤ n ∧ n ≤ 57 then some (n + 4) else if n = 43 then some 62
    else if n = 47 then some 63 else none
  suffixes := [1, 1]
  fold := id
  shape := by decide
  short := by decide
  table_alphabet := by decide +kernel
  alphabet_table := forall_byte _ (by decide +kernel)
  table_equals := rfl
  fold_equals := rfl
  clears := by
    intro n k p l sizes few whole short
    obtain rfl | rfl | rfl : p = 0 ∨ p = 1 ∨ p = 2 := by omega
    all_goals rfl

def toLower (c : UInt8) : UInt8 := if 65 ≤ c ∧ c ≤ 90 then c + 32 else c

def base32 : TextCodec where
  width := 5
  unit := 8
  alphabet v := .ofNat ("abcdefghijklmnopqrstuvwxyz234567".toList.getD v '=').toNat
  table c :=
    let n := c.toNat
    if 65 ≤ n ∧ n ≤ 90 then some (n - 65) else if 97 ≤ n ∧ n ≤ 122 then some (n - 97)
    else if 50 ≤ n ∧ n ≤ 55 then some (n - 24) else none
  suffixes := [1, 2, 1, 2]
  fold := toLower
  shape := by decide
  short := by decide
  table_alphabet := by decide +kernel
  alphabet_table := forall_byte _ (by decide +kernel)
  table_equals := rfl
  fold_equals := rfl
  clears := by
    intro n k p l sizes few whole short
    obtain rfl | rfl | rfl | rfl | rfl : p = 0 ∨ p = 1 ∨ p = 3 ∨ p = 4 ∨ p = 6 := by omega
    all_goals rfl

variable (input : Bytes)

def encodeBase64 : Bytes := base64.encode input true

def decodeBase64 (str : Bytes) : Option Bytes := base64.decode str

def encodeBase32 (pad : Bool := true) : Bytes := base32.encode input pad

def decodeBase32 (str : Bytes) : Option Bytes := base32.decode str

def isUpper (c : UInt8) : Bool := 65 ≤ c ∧ c ≤ 90

theorem eq_of_toLower {s t : Bytes} (letters : s.map toLower = t.map toLower)
    (same : ∀ p ∈ s.zip t, isUpper p.1 = isUpper p.2) : s = t := by
  have undo : ∀ c, (if isUpper c then toLower c - 32 else toLower c) = c :=
    forall_byte _ (by decide +kernel)
  induction s generalizing t with
  | nil => simpa using letters.symm
  | cons a s ih =>
    cases t with
    | nil => cases letters
    | cons b t =>
      obtain ⟨here, rest⟩ := cons.inj letters
      rw [zip_cons_cons, forall_mem_cons] at same
      rw [← undo a, ← undo b, here, same.1, ih rest same.2]

/-- Decoders undo encoders, and a decoder accepts no other text of the same bytes, except for the
case of Base32 letters. -/
theorem base_texts_canonical : decodeBase64 (encodeBase64 input) = some input ∧
      decodeBase32 (encodeBase32 input) = some input ∧
      (∀ str, decodeBase64 str = some input → str = encodeBase64 input) ∧
      (∀ str, decodeBase32 str = some input → str.map toLower = encodeBase32 input) ∧
      (∀ s t, decodeBase64 s = some input → decodeBase64 t = some input → s = t) ∧
      ∀ s t, decodeBase32 s = some input → decodeBase32 t = some input →
        (∀ p ∈ s.zip t, isUpper p.1 = isUpper p.2) → s = t := by
  have text64 : ∀ str, decodeBase64 str = some input → str = encodeBase64 input :=
    fun str accepted => str.map_id.symm.trans (TextCodec.encode_of_decode accepted).symm
  have text32 : ∀ str, decodeBase32 str = some input → str.map toLower = encodeBase32 input :=
    fun str accepted => (TextCodec.encode_of_decode accepted).symm
  exact ⟨base64.decode_encode input, base32.decode_encode input, text64, text32,
    fun s t first second => (text64 s first).trans (text64 t second).symm,
    fun s t first second => eq_of_toLower ((text32 s first).trans (text32 t second).symm)⟩

end Qogecoin.StrEncodings
