import Mathlib.Data.Nat.Digits.Lemmas

/-! Byte strings that can be read back. A writer is prefix-free on the valid values when the value
and the bytes behind it are determined by the whole string, so a concatenation is taken apart
field by field; a reader that undoes a writer is one way to see it. -/
namespace Codec

open List Nat

abbrev Bytes := List UInt8

def leBytes : Nat → Nat → Bytes
  | 0, _ => []
  | k + 1, n => .ofNat n :: leBytes k (n / 256)

def leNat (bs : Bytes) : Nat := ofDigits 256 (bs.map UInt8.toNat)

@[simp] theorem leNat_nil : leNat [] = 0 := rfl

@[simp] theorem leNat_cons (b : UInt8) (bs : Bytes) : leNat (b :: bs) = b.toNat + 256 * leNat bs := by
  simp [leNat, ofDigits_cons]

@[simp] theorem leBytes_length (k n : Nat) : (leBytes k n).length = k := by
  induction k generalizing n with
  | zero => rfl
  | succ k ih => simp [leBytes, ih]

theorem leNat_leBytes (k n : Nat) : leNat (leBytes k n) = n % 256 ^ k := by
  induction k generalizing n with
  | zero => simp [leBytes, mod_one]
  | succ k ih =>
    rw [leBytes, leNat_cons, ih, pow_succ, mul_comm, mul_comm (256 ^ k), mod_mul]
    simp
    ring

theorem leNat_lt (bs : Bytes) : leNat bs < 256 ^ bs.length := by
  have h := ofDigits_lt_base_pow_length (b := 256) (l := bs.map UInt8.toNat) (by norm_num)
    (by
      intro d member
      obtain ⟨b, _, rfl⟩ := mem_map.mp member
      exact b.toNat_lt)
  simpa [leNat] using h

theorem leBytes_leNat (bs : Bytes) : leBytes bs.length (leNat bs) = bs := by
  induction bs with
  | nil => rfl
  | cons b bs ih =>
    have hb := b.toNat_lt
    have low : .ofNat (b.toNat + 256 * leNat bs) = b := by
      apply UInt8.toNat_inj.mp
      rw [UInt8.toNat_ofNat']
      omega
    have high : (b.toNat + 256 * leNat bs) / 256 = leNat bs := by omega
    rw [length_cons, leBytes, leNat_cons, low, high, ih]

variable {n : Nat} {bs rest : Bytes}

theorem leBytes_injective {k m : Nat} (hm : m < 256 ^ k) (hn : n < 256 ^ k)
    (same : leBytes k m = leBytes k n) : m = n := by
  have values := congrArg leNat same
  rwa [leNat_leBytes, leNat_leBytes, mod_eq_of_lt hm, mod_eq_of_lt hn] at values

section

variable {α β : Type}

def PrefixFree (valid : α → Prop) (write : α → Bytes) : Prop :=
  ∀ a b s t, valid a → valid b → write a ++ s = write b ++ t → a = b ∧ s = t

abbrev Reader (α : Type) := Bytes → Option (α × Bytes)

def Reads (valid : α → Prop) (write : α → Bytes) (read : Reader α) : Prop :=
  ∀ a rest, valid a → read (write a ++ rest) = some (a, rest)

variable {valid : α → Prop} {write : α → Bytes}

theorem Reads.prefixFree {read : Reader α} (undoes : Reads valid write read) :
    PrefixFree valid write := by
  intro a b s t validA validB same
  have left := undoes a s validA
  rw [same, undoes b t validB] at left
  cases left
  exact ⟨rfl, rfl⟩

theorem PrefixFree.injective (free : PrefixFree valid write) {a b : α} (validA : valid a)
    (validB : valid b) (same : write a = write b) : a = b :=
  (free a b [] [] validA validB (by rw [same])).1

theorem PrefixFree.eq_of_prefix (free : PrefixFree valid write) {a b : α} (validA : valid a)
    (validB : valid b) (before : write a <+: write b) : a = b := by
  obtain ⟨s, same⟩ := before
  exact (free a b s [] validA validB (by rw [same, append_nil])).1

theorem prefixFree_of_width (width : Nat) (long : ∀ a, (write a).length = width)
    (injective : ∀ a b, valid a → valid b → write a = write b → a = b) :
    PrefixFree valid write := by
  intro a b s t validA validB same
  have parts := append_inj same (by rw [long, long])
  exact ⟨injective a b validA validB parts.1, parts.2⟩

theorem PrefixFree.sized {valid : Nat → Prop} {write : Nat → Bytes} (free : PrefixFree valid write) :
    PrefixFree (fun b : Bytes => valid b.length) fun b => write b.length ++ b := by
  intro a b s t validA validB same
  simp only [append_assoc] at same
  obtain ⟨length, rest⟩ := free _ _ _ _ validA validB same
  exact append_inj rest length

theorem PrefixFree.pair {validA : α → Prop} {validB : β → Prop} {writeA : α → Bytes}
    {writeB : β → Bytes} (freeA : PrefixFree validA writeA) (freeB : PrefixFree validB writeB) :
    PrefixFree (fun p : α × β => validA p.1 ∧ validB p.2) fun p => writeA p.1 ++ writeB p.2 := by
  intro p q s t validP validQ same
  simp only [append_assoc] at same
  obtain ⟨first, rest⟩ := freeA _ _ _ _ validP.1 validQ.1 same
  obtain ⟨second, rest⟩ := freeB _ _ _ _ validP.2 validQ.2 rest
  exact ⟨Prod.ext first second, rest⟩

/-- The values of a list can be read off the concatenation alone, without its length. -/
theorem PrefixFree.flatMap_injective (free : PrefixFree valid write) (nonempty : ∀ a, write a ≠ []) :
    ∀ {l m : List α}, (∀ a ∈ l, valid a) → (∀ a ∈ m, valid a) →
      l.flatMap write = m.flatMap write → l = m
  | [], [], _, _, _ => rfl
  | [], _ :: _, _, _, same | _ :: _, [], _, _, same => by
    simp [nonempty] at same
  | a :: l, b :: m, validL, validM, same => by
    simp only [mem_cons, forall_eq_or_imp] at validL validM
    obtain ⟨rfl, rest⟩ := free _ _ _ _ validL.1 validM.1 same
    rw [free.flatMap_injective nonempty validL.2 validM.2 rest]

theorem PrefixFree.terminated (free : PrefixFree valid write) {stop : Bytes}
    (apart : ∀ a s t, valid a → write a ++ s ≠ stop ++ t) :
    PrefixFree (fun l : List α => ∀ a ∈ l, valid a) fun l => l.flatMap write ++ stop := by
  intro l
  induction l with
  | nil =>
    intro m s t _ validM same
    cases m with
    | nil => exact ⟨rfl, append_cancel_left same⟩
    | cons b m =>
      simp only [flatMap_nil, nil_append, flatMap_cons, append_assoc] at same
      exact absurd same.symm (apart b _ _ (validM b mem_cons_self))
  | cons a l ih =>
    intro m s t validL validM same
    rw [forall_mem_cons] at validL
    cases m with
    | nil =>
      simp only [flatMap_nil, nil_append, flatMap_cons, append_assoc] at same
      exact absurd same (apart a _ _ validL.1)
    | cons b m =>
      rw [forall_mem_cons] at validM
      simp only [flatMap_cons, append_assoc] at same
      obtain ⟨rfl, rest⟩ := free _ _ _ _ validL.1 validM.1 same
      obtain ⟨rfl, tails⟩ := ih m s t validL.2 validM.2 (by simpa only [append_assoc] using rest)
      exact ⟨rfl, tails⟩

theorem PrefixFree.field_injective (free : PrefixFree valid write) (nonempty : ∀ a, write a ≠ [])
    (field : β → α) {l m : List β} (validL : ∀ b ∈ l, valid (field b))
    (validM : ∀ b ∈ m, valid (field b))
    (same : (l.flatMap fun b => write (field b)) = m.flatMap fun b => write (field b)) :
    l.map field = m.map field := by
  apply free.flatMap_injective nonempty
  · intro a member
    obtain ⟨b, inL, rfl⟩ := mem_map.mp member
    exact validL b inL
  · intro a member
    obtain ⟨b, inM, rfl⟩ := mem_map.mp member
    exact validM b inM
  · simp only [flatMap_map]
    exact same

end

def readLe (k : Nat) : Reader Nat := fun bs =>
  if bs.length < k then none else some (leNat (bs.take k), bs.drop k)

theorem reads_leBytes (k : Nat) : Reads (· < 256 ^ k) (leBytes k) (readLe k) := by
  intro n rest small
  have long : ¬(leBytes k n ++ rest).length < k := by simp
  rw [readLe, if_neg long, take_append_of_le_length (by simp),
    drop_append_of_le_length (by simp), take_of_length_le (by simp),
    drop_of_length_le (by simp), leNat_leBytes, mod_eq_of_lt small]
  rfl

def readBytes (n : Nat) : Reader Bytes := fun bs =>
  if bs.length < n then none else some (bs.take n, bs.drop n)

theorem readBytes_append {b : Bytes} (size : b.length = n) (rest : Bytes) :
    readBytes n (b ++ rest) = some (b, rest) := by
  subst size
  simp [readBytes]

variable {α : Type}

def readTimes {α : Type} (read : Reader α) : Nat → Reader (List α)
  | 0, bs => some ([], bs)
  | n + 1, bs => do
    let (a, bs) ← read bs
    let (l, bs) ← readTimes read n bs
    some (a :: l, bs)

theorem Reads.times {valid : α → Prop} {write : α → Bytes} {read : Reader α}
    (undoes : Reads valid write read) (l : List α) (rest : Bytes) (all : ∀ a ∈ l, valid a) :
    readTimes read l.length (l.flatMap write ++ rest) = some (l, rest) := by
  induction l with
  | nil => rfl
  | cons a l ih =>
    have first := undoes a (l.flatMap write ++ rest) (all a (by simp))
    have others := ih (fun b member => all b (by simp [member]))
    simp only [length_cons, flatMap_cons, append_assoc, readTimes, first,
      Option.bind_eq_bind, Option.bind_some, others]

/-- What the reader accepts is what the writer writes of the result. -/
def Canonical (write : α → Bytes) (read : Reader α) : Prop :=
  ∀ bs a rest, read bs = some (a, rest) → bs = write a ++ rest

theorem canonical_le (k : Nat) : Canonical (leBytes k) (readLe k) := by
  intro bs n rest accepted
  unfold readLe at accepted
  split at accepted
  · cases accepted
  · cases accepted
    have width : (bs.take k).length = k := by
      rw [length_take]
      omega
    have value := leBytes_leNat (bs.take k)
    rw [width] at value
    rw [value, take_append_drop]

theorem readLe_lt {k : Nat} (accepted : readLe k bs = some (n, rest)) :
    n < 256 ^ k := by
  unfold readLe at accepted
  split at accepted
  · cases accepted
  · cases accepted
    have bound := leNat_lt (bs.take k)
    rwa [length_take, min_eq_left (by omega)] at bound

theorem readBytes_canonical {b : Bytes} (accepted : readBytes n bs = some (b, rest)) :
    bs = b ++ rest ∧ b.length = n := by
  unfold readBytes at accepted
  split at accepted
  · cases accepted
  · cases accepted
    constructor
    · exact (take_append_drop n bs).symm
    · rw [length_take]
      omega

theorem Canonical.times {write : α → Bytes} {read : Reader α}
    (canonical : Canonical write read) {l : List α}
    (accepted : readTimes read n bs = some (l, rest)) :
    bs = l.flatMap write ++ rest ∧ l.length = n := by
  induction n generalizing bs l with
  | zero =>
    cases accepted
    exact ⟨rfl, rfl⟩
  | succ n ih =>
    obtain ⟨⟨a, bs1⟩, first, accepted1⟩ := Option.bind_eq_some_iff.mp accepted
    obtain ⟨⟨l1, bs2⟩, others, last⟩ := Option.bind_eq_some_iff.mp accepted1
    cases last
    obtain ⟨written, count⟩ := ih others
    constructor
    · rw [canonical _ _ _ first, written, flatMap_cons, append_assoc]
    · rw [length_cons, count]

theorem forall_of_readTimes {read : Reader α} {P : α → Prop}
    (each : ∀ bs a rest, read bs = some (a, rest) → P a) {l : List α}
    (accepted : readTimes read n bs = some (l, rest)) : ∀ a ∈ l, P a := by
  induction n generalizing bs l with
  | zero =>
    cases accepted
    simp
  | succ n ih =>
    obtain ⟨⟨a, bs1⟩, first, accepted1⟩ := Option.bind_eq_some_iff.mp accepted
    obtain ⟨⟨l1, bs2⟩, others, last⟩ := Option.bind_eq_some_iff.mp accepted1
    cases last
    rw [forall_mem_cons]
    exact ⟨each _ _ _ first, ih others⟩

end Codec
