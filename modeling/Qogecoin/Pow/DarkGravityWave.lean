import Qogecoin.Pow.ArithUint256
import Qogecoin.Consensus.Params

/-! `DarkGravityWave` and the formula it is meant to compute. -/
namespace Qogecoin.DarkGravityWave

open Arith BaseUint Chain Consensus Codec List Nat Option Uint256

def readWords : Bytes → List UInt32
  | a :: b :: c :: d :: rest => .ofNat (leNat [a, b, c, d]) :: readWords rest
  | _ => []

theorem readWords_length (k : Nat) (bs : Bytes) (size : bs.length = 4 * k) :
    (readWords bs).length = k := by
  induction k generalizing bs with
  | zero => simp_all [readWords]
  | succ k ih =>
    match bs, size with
    | a :: b :: c :: d :: rest, size =>
      rw [readWords, length_cons, ih rest (by simp at size; omega)]

theorem readWords_value (k : Nat) (bs : Bytes) (size : bs.length = 4 * k) :
    Limbs.value (readWords bs) = leNat bs := by
  induction k generalizing bs with
  | zero => simp_all [readWords]
  | succ k ih =>
    match bs, size with
    | a :: b :: c :: d :: rest, size =>
      have bound := leNat_lt [a, b, c, d]
      have word : (UInt32.ofNat (leNat [a, b, c, d])).toNat = leNat [a, b, c, d] := by
        rw [UInt32.toNat_ofNat']
        exact mod_eq_of_lt (lt_of_lt_of_le bound (by norm_num))
      rw [readWords, Limbs.value_cons, ih rest (by simp at size; omega), word]
      simp only [leNat_cons, leNat_nil]
      ring

def uintToArith256 (a : Uint256) : ArithUint256 :=
  ⟨readWords a.bytes, readWords_length 8 a.bytes (by rw [a.size])⟩

theorem uintToArith256_toNat (a : Uint256) : (uintToArith256 a).toNat = a.toNat :=
  readWords_value 8 a.bytes (by rw [a.size])

/-- The averaging loop with `left` blocks to go after the current one. Running off the chain is
the failed assertion on `pprev`. It returns the average and the last block it read. -/
def averageLoop : Nat → UInt32 → Chain → ArithUint256 → Option (ArithUint256 × CBlockIndex)
  | _, _, [], _ => none
  | left, nCountBlocks, pindex :: pprev, bnPastTargetAvg => do
    let bnTarget := (setCompact pindex.nBits).bn
    let sum := (bnPastTargetAvg.mulUInt32 nCountBlocks).add bnTarget
    let bnPastTargetAvg ←
      if nCountBlocks = 1 then some bnTarget
      else sum.div (ofUInt64 (nCountBlocks + 1).toUInt64)
    match left with
    | 0 => some (bnPastTargetAvg, pindex)
    | left + 1 => averageLoop left (nCountBlocks + 1) pprev bnPastTargetAvg

def nPastBlocks : Nat := 24

def limitTimespan (nTargetTimespan nActualTimespan : Int) : Int :=
  let raised :=
    if nActualTimespan < nTargetTimespan.tdiv 3 then nTargetTimespan.tdiv 3 else nActualTimespan
  if raised > nTargetTimespan * 3 then nTargetTimespan * 3 else raised

def darkGravityWave (pindexLast : Chain) (params : Params) : Option UInt32 :=
  let bnPowLimit := uintToArith256 params.powLimit
  match pindexLast with
  | [] => getCompact bnPowLimit false
  | tip :: _ =>
    if pindexLast.nHeight < nPastBlocks then getCompact bnPowLimit false
    else do
      let (bnNew, pindex) ← averageLoop (nPastBlocks - 1) 1 pindexLast zero
      let nTargetTimespan := nPastBlocks * params.nPowTargetSpacing
      let nActualTimespan := limitTimespan nTargetTimespan (getBlockTime tip - getBlockTime pindex)
      -- the product takes the `uint32_t` overload, the quotient converts through `uint64_t`
      let bnNew := bnNew.mulUInt32 (.ofInt nActualTimespan)
      let bnNew ← bnNew.div (ofUInt64 (.ofInt nTargetTimespan))
      let bnNew := if (bnNew.compareTo bnPowLimit).isGT then bnPowLimit else bnNew
      getCompact bnNew false

def target (pindex : CBlockIndex) : Nat := (setCompact pindex.nBits).bn.toNat

def averageFrom : Nat → Nat → List Nat → Nat
  | _, a, [] => a
  | n, a, t :: ts => averageFrom (n + 1) ((a * n + t) / (n + 1)) ts

def runningAverage : List Nat → Nat
  | [] => 0
  | t :: ts => averageFrom 2 t ts

def window (c : Chain) : List CBlockIndex := c.take nPastBlocks

def timespan (blocks : Chain) : Nat :=
  match blocks, blocks[nPastBlocks - 1]? with
  | newest :: _, some oldest =>
    (min 4320 (max 480 (getBlockTime newest - getBlockTime oldest))).toNat
  | _, _ => 0

def average (c : Chain) : Nat := runningAverage ((window c).map target)

def formula (params : Params) (c : Chain) : Nat :=
  min params.powLimit.toNat (average c * timespan c / 1440)

def compactOf (n : Nat) : Option UInt32 := getCompact (uintToArith256 (uint256S n)) false

def decoded (nBits : UInt32) : Nat := (setCompact nBits).bn.toNat

structure Legal (params : Params) (c : Chain) : Prop where
  long : 25 ≤ c.length
  targets : ∀ b ∈ window c, 0 < target b ∧ target b ≤ params.powLimit.toNat

theorem averageFrom_bounds (n a lo hi : Nat) (ts : List Nat) (first : lo ≤ a ∧ a ≤ hi)
    (rest : ∀ t ∈ ts, lo ≤ t ∧ t ≤ hi) : lo ≤ averageFrom n a ts ∧ averageFrom n a ts ≤ hi := by
  induction ts generalizing n a with
  | nil => exact first
  | cons t ts ih =>
    have head := rest t (by simp)
    refine ih (n + 1) _ ?_ (fun u member => rest u (by simp [member]))
    constructor
    · rw [Nat.le_div_iff_mul_le (by omega), Nat.mul_succ]
      exact Nat.add_le_add (Nat.mul_le_mul_right n first.1) head.1
    · apply Nat.div_le_of_le_mul
      rw [Nat.mul_comm (n + 1), Nat.mul_succ]
      exact Nat.add_le_add (Nat.mul_le_mul_right n first.2) head.2

theorem runningAverage_bounds (ts : List Nat) (lo hi : Nat) (full : ts ≠ [])
    (all : ∀ t ∈ ts, lo ≤ t ∧ t ≤ hi) : lo ≤ runningAverage ts ∧ runningAverage ts ≤ hi := by
  cases ts with
  | nil => exact absurd rfl full
  | cons t ts =>
    exact averageFrom_bounds 2 t lo hi ts (all t (by simp)) (fun u member => all u (by simp [member]))

theorem toNat_succ (n : UInt32) (few : n.toNat ≤ 24) : (n + 1).toNat = n.toNat + 1 := by
  rw [UInt32.toNat_add]
  exact mod_eq_of_lt (by simp; omega)

theorem average_step (n : UInt32) (avg bnTarget : ArithUint256) (limit : Nat)
    (room : limit * 26 < 2 ^ 256) (few : n.toNat ≤ 24) (small : avg.toNat ≤ limit)
    (legal : bnTarget.toNat ≤ limit) :
    ∃ q : ArithUint256, ((avg.mulUInt32 n).add bnTarget).div (ofUInt64 (n + 1).toUInt64) = some q ∧
      q.toNat = (avg.toNat * n.toNat + bnTarget.toNat) / (n.toNat + 1) := by
  have divisor : (ofUInt64 (n + 1).toUInt64 : ArithUint256).toNat = n.toNat + 1 := by
    rw [ofUInt64_toNat, UInt32.toNat_toUInt64, toNat_succ n few]
  have product : avg.toNat * n.toNat ≤ limit * 24 := Nat.mul_le_mul small few
  have multiplied : (avg.mulUInt32 n).toNat = avg.toNat * n.toNat := by
    rw [mulUInt32_toNat]
    exact Nat.mod_eq_of_lt (by omega)
  have sum : ((avg.mulUInt32 n).add bnTarget).toNat = avg.toNat * n.toNat + bnTarget.toNat := by
    rw [add_toNat, multiplied]
    exact Nat.mod_eq_of_lt (by omega)
  obtain ⟨q, found, value⟩ := div_toNat ((avg.mulUInt32 n).add bnTarget) _ (by
    rw [divisor]
    exact Nat.succ_pos _)
  exact ⟨q, found, by rw [value, sum, divisor]⟩

theorem averageLoop_rest (left limit : Nat) (n : UInt32) (blocks : Chain) (avg : ArithUint256)
    (room : limit * 26 < 2 ^ 256) (later : 2 ≤ n.toNat) (few : n.toNat + left ≤ 24)
    (small : avg.toNat ≤ limit) (legal : ∀ b ∈ blocks.take (left + 1), target b ≤ limit)
    (last : CBlockIndex) (reached : blocks[left]? = some last) :
    ∃ q, averageLoop left n blocks avg = some (q, last) ∧
      q.toNat = averageFrom n.toNat avg.toNat ((blocks.take (left + 1)).map target) := by
  induction blocks generalizing left n avg with
  | nil => simp at reached
  | cons b rest ih =>
    have head := legal b (by simp)
    obtain ⟨q, found, value⟩ :=
      average_step n avg (setCompact b.nBits).bn limit room (by omega) small head
    have other : n ≠ 1 := by rintro rfl; simp at later
    cases left with
    | zero =>
      have same : b = last := by simpa using reached
      refine ⟨q, ?_, value⟩
      rw [averageLoop, if_neg other, found, same]
      rfl
    | succ left =>
      have next := toNat_succ n (by omega)
      have kept : q.toNat ≤ limit := by
        rw [value]
        exact (averageFrom_bounds n.toNat avg.toNat 0 limit [target b] ⟨zero_le _, small⟩
          (by simpa using head)).2
      obtain ⟨r, run, result⟩ := ih left (n + 1) q (by omega) (by omega) kept
        (fun x member => legal x (by simp [member])) (by simpa using reached)
      refine ⟨r, ?_, ?_⟩
      · rw [averageLoop, if_neg other, found]
        exact run
      · rw [result, next, value]
        rfl

theorem averageLoop_run (limit : Nat) (blocks : Chain) (room : limit * 26 < 2 ^ 256)
    (legal : ∀ b ∈ window blocks, target b ≤ limit) (last : CBlockIndex)
    (reached : blocks[nPastBlocks - 1]? = some last) :
    ∃ q, averageLoop (nPastBlocks - 1) 1 blocks zero = some (q, last) ∧
      q.toNat = average blocks := by
  cases blocks with
  | nil => simp at reached
  | cons b rest =>
    obtain ⟨q, run, value⟩ := averageLoop_rest 22 limit 2 rest (setCompact b.nBits).bn room
      (by decide) (by decide) (legal b (by simp [window, nPastBlocks]))
      (fun x member => legal x (by simp [window, nPastBlocks, member])) last
      (by simpa [nPastBlocks] using reached)
    refine ⟨q, ?_, ?_⟩
    · simpa [averageLoop, nPastBlocks] using run
    · exact value

theorem timespan_eq (newest oldest : CBlockIndex) (rest : Chain)
    (reached : (newest :: rest)[nPastBlocks - 1]? = some oldest) :
    timespan (newest :: rest) =
      (min 4320 (max 480 (getBlockTime newest - getBlockTime oldest))).toNat := by
  simp only [timespan, reached]

theorem timespan_bounds (c : Chain) (long : 25 ≤ c.length) :
    480 ≤ timespan c ∧ timespan c ≤ 4320 := by
  cases c with
  | nil => simp at long
  | cons newest rest =>
    have inside : nPastBlocks - 1 < (newest :: rest).length := by
      simp only [nPastBlocks]
      omega
    rw [timespan_eq newest _ rest (getElem?_eq_getElem inside)]
    omega

variable (params : Params) (nBits seconds : UInt32) (c : Chain)

/-- What the code computes on a legal window: the product is reduced modulo `2 ^ 256`. -/
theorem darkGravityWave_run (legal : Legal params c)
    (room : params.powLimit.toNat * 26 < 2 ^ 256) (spacing : params.nPowTargetSpacing = 60) :
    ∃ bnNew : ArithUint256, darkGravityWave c params = getCompact bnNew false ∧
      bnNew.toNat =
        min params.powLimit.toNat (average c * timespan c % 2 ^ 256 / 1440) := by
  obtain ⟨long, targets⟩ := legal
  cases c with
  | nil => simp at long
  | cons newest rest =>
    have inside : nPastBlocks - 1 < (newest :: rest).length := by
      simp only [nPastBlocks]
      omega
    obtain ⟨oldest, reached⟩ : ∃ b, (newest :: rest)[nPastBlocks - 1]? = some b :=
      ⟨_, getElem?_eq_getElem inside⟩
    obtain ⟨avg, run, value⟩ := averageLoop_run params.powLimit.toNat (newest :: rest) room
      (fun b member => (targets b member).2) oldest reached
    have deep : ¬ nHeight (newest :: rest) < nPastBlocks := by
      simp only [nHeight, nPastBlocks]
      omega
    have span := timespan_bounds (newest :: rest) long
    obtain ⟨T, clamped⟩ : ∃ T, timespan (newest :: rest) = T := ⟨_, rfl⟩
    have actual : (min 4320 (max 480 (getBlockTime newest - getBlockTime oldest))).toNat = T := by
      rw [← clamped, timespan_eq newest oldest rest reached]
    rw [clamped] at span ⊢
    have factor : (UInt32.ofInt T).toNat = T := by
      simp [UInt32.ofInt]
      omega
    have divisor : (ofUInt64 (.ofInt 1440) : ArithUint256).toNat = 1440 := by
      rw [ofUInt64_toNat]
      rfl
    obtain ⟨q, quotient, scaled⟩ := div_toNat (avg.mulUInt32 (.ofInt T))
      (ofUInt64 (.ofInt 1440)) (by rw [divisor]; norm_num)
    rw [mulUInt32_toNat, factor, value, divisor] at scaled
    refine ⟨if (q.compareTo (uintToArith256 params.powLimit)).isGT
      then uintToArith256 params.powLimit else q, ?_, ?_⟩
    · have whole : (nPastBlocks : Int) * params.nPowTargetSpacing = 1440 := by
        rw [spacing]
        rfl
      have held : limitTimespan 1440 (getBlockTime newest - getBlockTime oldest) = T := by
        simp only [limitTimespan, show Int.tdiv 1440 3 = 480 by rfl]
        split <;> split at * <;> omega
      simp only [darkGravityWave, if_neg deep, run, bind_eq_bind, bind_some, whole, held,
        quotient]
    · split
      next above =>
        rw [compareTo_isGT, uintToArith256_toNat, scaled] at above
        rw [uintToArith256_toNat]
        omega
      next below =>
        rw [compareTo_isGT, uintToArith256_toNat, scaled] at below
        rw [scaled]
        omega

theorem compactOf_eq (bn : ArithUint256) : getCompact bn false = compactOf bn.toNat := by
  have same : bn = uintToArith256 (uint256S bn.toNat) := by
    apply BaseUint.toNat_injective
    rw [uintToArith256_toNat, uint256S_toNat _ bn.toNat_lt]
  rw [compactOf, ← same]

theorem compactOf_rounds (n : Nat) (fits : n < 2 ^ 256) :
    ∃ c e, compactOf n = some c ∧ Rounds n e (decoded c) := by
  obtain ⟨c, e, encoded, rounds⟩ := getCompact_round (uintToArith256 (uint256S n))
  rw [uintToArith256_toNat, uint256S_toNat n fits] at rounds
  exact ⟨c, e, encoded, rounds⟩

theorem compactOf_mono {m n : Nat} {c d : UInt32} (ordered : m ≤ n) (fits : n < 2 ^ 256)
    (first : compactOf m = some c) (second : compactOf n = some d) : decoded c ≤ decoded d := by
  obtain ⟨c', e, found, rounds⟩ := compactOf_rounds m (by omega)
  obtain ⟨d', f, found', rounds'⟩ := compactOf_rounds n fits
  rw [first, some_inj] at found
  rw [second, some_inj] at found'
  subst found found'
  exact rounds.mono rounds' ordered

/-- What is asked of the retarget at one chain: the returned bits are those of the formula, the
new target stays within a factor three of the window's targets up to compact rounding, and a
chain with the same targets and a shorter timespan does not get an easier target. -/
structure MeetsFormula (params : Params) (c : Chain) : Prop where
  exact : darkGravityWave c params = compactOf (formula params c)
  bounded : ∀ nBits lo hi, darkGravityWave c params = some nBits →
    (∀ b ∈ window c, lo ≤ target b ∧ target b ≤ hi) →
      (∀ low, compactOf (lo / 3) = some low → decoded low ≤ decoded nBits) ∧
        decoded nBits ≤ 3 * hi
  monotone : ∀ c' nBits nBits', 25 ≤ c'.length → (window c').map target = (window c).map target →
    timespan c' ≤ timespan c → darkGravityWave c' params = some nBits' →
      darkGravityWave c params = some nBits → decoded nBits' ≤ decoded nBits

structure Retargets (params : Params) : Prop where
  limit : params.powLimit.toNat = 2 ^ 244 - 1
  spacing : params.nPowTargetSpacing = 60

theorem retargets_of_network (network : params = mainParams ∨ params = testNetParams) :
    Retargets params := by
  have limit : (uint256S
      0x000fffffffffffffffffffffffffffffffffffffffffffffffffffffffffffff).toNat = 2 ^ 244 - 1 := by
    rw [uint256S_toNat _ (by norm_num)]
    norm_num
  rcases network with rfl | rfl <;> exact ⟨limit, rfl⟩

theorem average_bounds (lo hi : Nat) (long : 25 ≤ c.length)
    (all : ∀ b ∈ window c, lo ≤ target b ∧ target b ≤ hi) : lo ≤ average c ∧ average c ≤ hi := by
  apply runningAverage_bounds
  · intro empty
    have size := congrArg length empty
    rw [length_map, window, length_take, nPastBlocks, length_nil] at size
    omega
  · intro t member
    obtain ⟨b, inside, rfl⟩ := mem_map.mp member
    exact all b inside

theorem exact_of_fits (network : Retargets params) (c : Chain) (legal : Legal params c)
    (fits : average c * timespan c < 2 ^ 256) :
    darkGravityWave c params = compactOf (formula params c) := by
  obtain ⟨bn, run, value⟩ := darkGravityWave_run params c legal
    (by rw [network.limit]; norm_num) network.spacing
  rw [run, compactOf_eq, value, mod_eq_of_lt fits, formula]

/-- When the product wraps, the code returns a far harder target than the limit it should. -/
theorem inexact_of_wrap (network : Retargets params) (c : Chain) (legal : Legal params c)
    (wraps : 2 ^ 256 ≤ average c * timespan c) :
    darkGravityWave c params ≠ compactOf (formula params c) := by
  intro same
  obtain ⟨bn, run, value⟩ := darkGravityWave_run params c legal
    (by rw [network.limit]; norm_num) network.spacing
  have span := timespan_bounds c legal.long
  have avg := (average_bounds c 0 (2 ^ 244 - 1) legal.long (fun b member =>
    ⟨Nat.zero_le _, by rw [← network.limit]; exact (legal.targets b member).2⟩)).2
  have product : average c * timespan c ≤ (2 ^ 244 - 1) * 4320 := Nat.mul_le_mul avg span.2
  rw [formula, network.limit] at same
  rw [network.limit] at value
  generalize average c * timespan c = p at *
  have capped : min (2 ^ 244 - 1) (p / 1440) = 2 ^ 244 - 1 := by omega
  have reduced : bn.toNat < 2 ^ 242 := by
    rw [value]
    omega
  rw [capped, run, compactOf_eq] at same
  obtain ⟨small, e, first, rounds⟩ := compactOf_rounds bn.toNat bn.toNat_lt
  obtain ⟨large, f, second, rounds'⟩ := compactOf_rounds (2 ^ 244 - 1) (by norm_num)
  rw [first, second, Option.some_inj] at same
  subst same
  have below := rounds.le
  have exact := rounds'.value
  have kept := Nat.div_add_mod (2 ^ 244 - 1) (256 ^ f)
  rw [Nat.mul_comm, ← exact] at kept
  rcases rounds'.least with zero | least
  · subst zero
    omega
  · omega

theorem bounded_of_exact (legal : Legal params c)
    (exact : darkGravityWave c params = compactOf (formula params c)) (nBits : UInt32)
    (lo hi : Nat) (run : darkGravityWave c params = some nBits)
    (all : ∀ b ∈ window c, lo ≤ target b ∧ target b ≤ hi) :
    (∀ low, compactOf (lo / 3) = some low → decoded low ≤ decoded nBits) ∧
      decoded nBits ≤ 3 * hi := by
  have span := timespan_bounds c legal.long
  have avg := average_bounds c lo hi legal.long all
  have legalLow := average_bounds c 0 _ legal.long (fun b member =>
    ⟨zero_le _, (legal.targets b member).2⟩)
  have lower : average c * 480 ≤ average c * timespan c := mul_le_mul_left _ span.1
  have upper : average c * timespan c ≤ average c * 4320 := mul_le_mul_left _ span.2
  rw [exact] at run
  have size : formula params c < 2 ^ 256 := by
    have limit := params.powLimit.toNat_lt
    rw [formula]
    omega
  constructor
  · intro low encoded
    refine compactOf_mono ?_ size encoded run
    rw [formula]
    omega
  · obtain ⟨n, e, found, rounds⟩ := compactOf_rounds _ size
    rw [run, some_inj] at found
    subst found
    have below := rounds.le
    rw [formula] at below
    omega

/-- The retarget computes its formula at a chain exactly when the average target times the
timespan fits in 256 bits. -/
theorem meetsFormula_iff_product_fits (params : Params)
    (network : params = mainParams ∨ params = testNetParams) (c : Chain) (legal : Legal params c) :
    MeetsFormula params c ↔ average c * timespan c < 2 ^ 256 := by
  have shared := retargets_of_network params network
  constructor
  · intro meets
    by_contra wraps
    exact inexact_of_wrap params shared c legal (by omega) meets.exact
  · intro fits
    have exact := exact_of_fits params shared c legal fits
    refine ⟨exact, bounded_of_exact params c legal exact, ?_⟩
    intro c' nBits nBits' long same shorter run' run
    have sameAverage : average c' = average c := by rw [average, average, same]
    have legal' : Legal params c' := by
      refine ⟨long, ?_⟩
      intro b member
      have inside : target b ∈ (window c).map target := same ▸ mem_map_of_mem member
      obtain ⟨d, other, equal⟩ := mem_map.mp inside
      rw [← equal]
      exact legal.targets d other
    have product : average c' * timespan c' ≤ average c * timespan c := by
      rw [sameAverage]
      exact Nat.mul_le_mul_left _ shorter
    have exact' := exact_of_fits params shared c' legal' (by omega)
    rw [exact'] at run'
    rw [exact] at run
    refine compactOf_mono ?_ ?_ run' run
    · have quotient := Nat.div_le_div_right (c := 1440) product
      rw [formula, formula]
      omega
    · rw [formula]
      omega

def burst (nBits : UInt32) (seconds : UInt32) (count : Nat) : Chain :=
  ⟨.null, 4, seconds, nBits⟩ :: replicate count ⟨.null, 4, 0, nBits⟩

theorem burst_window :
    (window (burst nBits seconds 24)).map target = replicate 24 (decoded nBits) := by
  simp [window, burst, nPastBlocks, target, decoded, replicate]

theorem burst_legal (target : 0 < decoded nBits ∧ decoded nBits ≤ 2 ^ 244 - 1) :
    Legal mainParams (burst nBits seconds 24) := by
  refine ⟨by simp [burst], ?_⟩
  intro b member
  have inside := mem_map_of_mem (f := DarkGravityWave.target) member
  rw [burst_window] at inside
  rw [(retargets_of_network mainParams (.inl rfl)).limit, eq_of_mem_replicate inside]
  exact target

theorem averageFrom_constant (n a k : Nat) : averageFrom n a (List.replicate k a) = a := by
  induction k generalizing n with
  | zero => rfl
  | succ k ih =>
    have step : (a * n + a) / (n + 1) = a := by
      rw [← Nat.mul_succ]
      exact Nat.mul_div_cancel a (Nat.succ_pos n)
    rw [replicate_succ, averageFrom, step, ih]

theorem burst_average : average (burst nBits seconds 24) = decoded nBits := by
  rw [average, burst_window]
  exact averageFrom_constant 2 (decoded nBits) 23

theorem decoded_eq (nBits : UInt32) (n : Nat)
    (value : decodeNat (nBits.toNat / 2 ^ 24) (nBits.toNat % 2 ^ 23) % 2 ^ 256 = n) :
    decoded nBits = n := by
  rw [decoded, setCompact_toNat, value]

theorem steady_chain_meetsFormula : MeetsFormula mainParams (burst 0x1e0fffff 1380 24) := by
  have bits := decoded_eq 0x1e0fffff ((2 ^ 20 - 1) * 2 ^ 216) (by decide)
  refine (meetsFormula_iff_product_fits mainParams (.inl rfl) _ (burst_legal _ _ ?_)).mpr ?_
  · rw [bits]
    norm_num
  · rw [burst_average, bits]
    decide

/-- Blocks at the limit whose newest is five hours late: the product wraps. -/
theorem slow_chain_not_meetsFormula :
    Legal mainParams (burst 0x1f0fffff 18000 24) ∧
      ¬ MeetsFormula mainParams (burst 0x1f0fffff 18000 24) := by
  have bits := decoded_eq 0x1f0fffff ((2 ^ 20 - 1) * 2 ^ 224) (by decide)
  have legal : Legal mainParams (burst 0x1f0fffff 18000 24) := by
    apply burst_legal
    rw [bits]
    norm_num
  refine ⟨legal, fun meets => ?_⟩
  refine inexact_of_wrap mainParams (retargets_of_network _ (.inl rfl)) _ legal ?_ meets.exact
  rw [burst_average, bits]
  decide

end Qogecoin.DarkGravityWave
