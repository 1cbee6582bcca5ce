import Qogecoin.Validation.Connected
import Mathlib.Algebra.BigOperators.Ring.Finset
import Mathlib.Algebra.Order.BigOperators.Group.Finset

/-! No inflation: the coins of a chain are worth no more than its blocks were allowed to create. -/
namespace Qogecoin.Validation

open Codec Commands Coins Consensus Ledger List CoinsState Result View

instance : Finite COutPoint := by
  let code (o : COutPoint) : Fin (2 ^ 256) × Fin (2 ^ 32) := (⟨o.hash.toNat, o.hash.toNat_lt⟩, o.n.toFin)
  have distinct : Function.Injective code := by
    intro o p same
    obtain ⟨hash, n⟩ := o
    obtain ⟨hash', n'⟩ := p
    simp only [code, Prod.mk.injEq, Fin.mk.injEq] at same
    have hashes := Uint256.toNat_injective hash hash' same.1
    have indices : n = n' := UInt32.toFin_inj.mp same.2
    rw [hashes, indices]
  exact Finite.of_injective code distinct

noncomputable instance : Fintype COutPoint := Fintype.ofFinite COutPoint

def coinValue (coin : Coin) : Int := coin.out.nValue.toInt

noncomputable def supply (coins : FlatMap) : Int := Ledger.sum (fun _ => coinValue) coins

theorem coinValue_nonneg {coin : Coin} (range : MoneyRange coin.out.nValue) : 0 ≤ coinValue coin :=
  ((moneyRange_iff _).mp range).1

theorem listSum_zip (outpoints : List COutPoint) (spent : List Coin)
    (lengths : outpoints.length = spent.length) :
    listSum (fun _ => coinValue) (outpoints.zip spent) = coinsValue spent := by
  have coins : (outpoints.zip spent).map Prod.snd = spent := map_snd_zip (le_of_eq lengths.symm)
  have split : (outpoints.zip spent).map (fun e => coinValue e.2) =
      ((outpoints.zip spent).map Prod.snd).map coinValue := by
    rw [map_map]
    rfl
  rw [listSum, split, coins]
  rfl

theorem listSum_created_le (txid : Uint256) (nHeight : Int) (fCoinbase : Bool) (i : Nat)
    (vout : List CTxOut) (outputs : ∀ out ∈ vout, MoneyRange out.nValue) :
    listSum (fun _ => coinValue) (created txid nHeight fCoinbase i vout) ≤ valueOut vout := by
  induction vout generalizing i with
  | nil => simp [created, listSum, valueOut]
  | cons out vout ih =>
    have rest := ih (i + 1) fun o member => outputs o (mem_cons_of_mem out member)
    have here := ((moneyRange_iff _).mp (outputs out mem_cons_self)).1
    have sum : valueOut (out :: vout) = out.nValue.toInt + valueOut vout := by
      simp [valueOut]
    rw [created, sum]
    split
    · omega
    · simp only [listSum, map_cons, sum_cons, coinValue, newCoin] at rest ⊢
      omega

section

variable [Crypto]

theorem created_nonneg {tx : CTransaction} (formed : TxWellFormed tx) (nHeight : Int)
    (txundo : CTxUndo) : ∀ e ∈ (txChange nHeight tx txundo).created, 0 ≤ coinValue e.2 := by
  intro e member
  obtain ⟨_, out, inside, _, made⟩ := mem_created member
  rw [made]
  exact coinValue_nonneg (formed.outputs out inside)

theorem supply_coinbase_le {tx : CTransaction} (formed : TxWellFormed tx) (nHeight : Int)
    (s : CoinsState) (inRange : InRange s) :
    supply (s.after (txChange nHeight tx ⟨[]⟩).forward).coins ≤ supply s.coins + valueOut tx.vout := by
  have nothing : (txChange nHeight tx ⟨[]⟩).forward = additions (txChange nHeight tx ⟨[]⟩).created := by
    simp [Change.forward, txChange, removals]
  have added : supply (s.after (txChange nHeight tx ⟨[]⟩).forward).coins ≤ supply s.coins +
      listSum (fun _ => coinValue) (txChange nHeight tx ⟨[]⟩).created := by
    rw [nothing]
    exact sum_additions_le (fun o coin found => coinValue_nonneg (inRange o coin found))
      (created_nonneg formed nHeight ⟨[]⟩)
  have outputs := listSum_created_le tx.getHash nHeight tx.isCoinBase 0 tx.vout formed.outputs
  exact added.trans (by simpa [txChange] using outputs)

theorem supply_forwards_le (nHeight : Int) (vtx : List CTransaction) (vtxundo : List CTxUndo)
    (s : CoinsState) (inRange : CoinsState.InRange s) (formed : ∀ tx ∈ vtx, TxWellFormed tx)
    (undoes : Undoes vtx vtxundo) (fits : FitsAll (changes nHeight vtx vtxundo) s.coins) :
    supply (s.after (forwards (changes nHeight vtx vtxundo))).coins ≤
      supply s.coins - totalFees vtx vtxundo := by
  induction undoes generalizing s with
  | nil => simp [changes, forwards, totalFees, CoinsState.after]
  | @cons tx txundo vtx vtxundo length _ ih =>
    have well := formed tx mem_cons_self
    obtain ⟨here, others⟩ := fits
    have rest := ih (s.after (txChange nHeight tx txundo).forward)
      (inRange_after inRange well nHeight txundo)
      (fun tx' member => formed tx' (mem_cons_of_mem tx member)) others
    have first : supply (s.after (txChange nHeight tx txundo).forward).coins = supply s.coins -
        listSum (fun _ => coinValue) (txChange nHeight tx txundo).spent +
        listSum (fun _ => coinValue) (txChange nHeight tx txundo).created := here.sum_forward
    have paid : listSum (fun _ => coinValue) (txChange nHeight tx txundo).spent =
        coinsValue txundo.vprevout := listSum_zip _ _ (by simp [length])
    have outputs : listSum (fun _ => coinValue) (txChange nHeight tx txundo).created ≤ valueOut tx.vout :=
      listSum_created_le tx.getHash nHeight tx.isCoinBase 0 tx.vout well.outputs
    have split : s.after (forwards (changes nHeight (tx :: vtx) (txundo :: vtxundo))) =
        (s.after (txChange nHeight tx txundo).forward).after
          (forwards (changes nHeight vtx vtxundo)) := by
      rw [← CoinsState.after_append]
      rfl
    have fees : totalFees (tx :: vtx) (txundo :: vtxundo) =
        coinsValue txundo.vprevout - valueOut tx.vout + totalFees vtx vtxundo := by
      simp [totalFees]
    rw [split, fees]
    omega

variable {params : Params} {block : CBlock} {pindex : Chain} {blockundo : CBlockUndo}
  {s t : CoinsState}

theorem Connected.supply_le (connected : Connected params block pindex blockundo s t)
    (inRange : InRange s) :
    supply t.coins ≤ supply s.coins + (getBlockSubsidy pindex.nHeight params).toInt ∧
      InRange t := by
  obtain ⟨coinbase, rest, whole, _⟩ := connected.formed.coinbase
  have first : TxWellFormed coinbase := connected.formed.transactions coinbase (by simp [whole])
  have others : ∀ tx ∈ rest, TxWellFormed tx := by
    intro tx member
    exact connected.formed.transactions tx (by simp [whole, member])
  have undoes := connected.undoes
  rw [whole] at undoes
  have fits := connected.fitsRest coinbase rest whole
  have range := inRange_after inRange first pindex.nHeight ⟨[]⟩
  have coins : t.coins = ((s.after (txChange pindex.nHeight coinbase ⟨[]⟩).forward).after
      (forwards (changes pindex.nHeight rest blockundo.vtxundo))).coins := by
    rw [connected.effect, blockChanges_eq pindex.nHeight blockundo whole, forwards_cons,
      after_append]
    rfl
  constructor
  · have created := supply_coinbase_le first pindex.nHeight s inRange
    have moved := supply_forwards_le pindex.nHeight rest blockundo.vtxundo _ range others undoes fits
    have reward := connected.reward coinbase rest whole
    rw [coins]
    omega
  · intro o coin found
    rw [coins] at found
    apply (fits.invariant range ?_).2 o coin found
    intro change member
    obtain ⟨⟨tx, txundo⟩, pair, rfl⟩ := mem_map.mp member
    intro e inside
    obtain ⟨_, out, output, _, made⟩ := mem_created inside
    rw [made]
    exact (others tx (of_mem_zip pair).1).outputs out output

end

def issued (params : Params) (n : Nat) : Int :=
  ∑ h ∈ .Icc 1 n, (getBlockSubsidy h params).toInt

variable (params : Params)

theorem issued_succ (n : Nat) :
    issued params (n + 1) = issued params n + (getBlockSubsidy (n + 1 : Nat) params).toInt :=
  Finset.sum_Icc_succ_top (by omega) _

theorem issued_mono (n : Nat) : issued params n ≤ issued params (n + 1) := by
  rw [issued_succ, getBlockSubsidy_toInt]
  have nonneg := Int.natCast_nonneg (10 ^ 10 / 2 ^ ((n + 1) / params.nSubsidyHalvingInterval))
  omega

theorem sum_halves_le (a n : Nat) : ∑ k ∈ .range (n + 1), a / 2 ^ k + a / 2 ^ n ≤ 2 * a := by
  induction n with
  | zero => simp; omega
  | succ n ih =>
    have half : a / 2 ^ (n + 1) * 2 ≤ a / 2 ^ n := by
      rw [pow_succ, ← Nat.div_div_eq_div_mul]
      exact Nat.div_mul_le_self _ 2
    rw [Finset.sum_range_succ]
    omega

theorem sum_periods (f : Nat → Nat) (interval n : Nat) (positive : 0 < interval) :
    ∑ h ∈ .range (interval * n), f (h / interval) =
      interval * ∑ k ∈ .range n, f k := by
  induction n with
  | zero => simp
  | succ n ih =>
    have period : ∀ j ∈ Finset.range interval, f ((interval * n + j) / interval) = f n := by
      intro j inside
      rw [Nat.mul_add_div positive, Nat.div_eq_of_lt (Finset.mem_range.mp inside), add_zero]
    rw [Nat.mul_succ, Finset.sum_range_add, ih, Finset.sum_congr rfl period, Finset.sum_const,
      Finset.card_range, nsmul_eq_mul, Nat.cast_id, Finset.sum_range_succ, Nat.mul_add]

theorem issued_le_maxMoney (interval : params.nSubsidyHalvingInterval = 500000) (n : Nat) :
    issued params n ≤ maxMoney.toInt := by
  have subsidies : issued params n = (∑ h ∈ .Icc 1 n, 10 ^ 10 / 2 ^ (h / 500000) : Nat) := by
    rw [issued, Nat.cast_sum]
    apply Finset.sum_congr rfl
    intro h _
    rw [getBlockSubsidy_toInt, interval]
  have inside : Finset.Icc 1 n ⊆ Finset.range (500000 * (n / 500000 + 1)) := by
    intro h member
    rw [Finset.mem_Icc] at member
    rw [Finset.mem_range]
    omega
  have bound : ∑ h ∈ .Icc 1 n, 10 ^ 10 / 2 ^ (h / 500000) ≤ 10 ^ 16 := by
    calc ∑ h ∈ .Icc 1 n, 10 ^ 10 / 2 ^ (h / 500000)
        ≤ ∑ h ∈ .range (500000 * (n / 500000 + 1)), 10 ^ 10 / 2 ^ (h / 500000) :=
          Finset.sum_le_sum_of_subset inside
      _ = 500000 * ∑ k ∈ .range (n / 500000 + 1), 10 ^ 10 / 2 ^ k :=
          sum_periods (fun k => 10 ^ 10 / 2 ^ k) 500000 _ (by omega)
      _ ≤ 500000 * (2 * 10 ^ 10) := by
          apply Nat.mul_le_mul_left
          exact le_trans (Nat.le_add_right _ _) (sum_halves_le (10 ^ 10) (n / 500000))
      _ = 10 ^ 16 := by norm_num
  have upper : maxMoney.toInt = (10 ^ 16 : Nat) := by decide
  rw [subsidies, upper]
  exact_mod_cast bound

/-- Views in which blocks have been connected one after the other, from an empty database on: in
one cache, or, if `layered`, with caches put on top and flushed as `ConnectTip` and
`FlushStateToDisk` do. A cache on top does not know all coins below it, so there BIP30 has to be
enforced. -/
inductive Reached [Crypto] (params : Params) (layered : Bool) : Chain → View → Prop
  | start : Reached params layered [] (View.fresh emptyBase)
  | connect {pindex : CBlockIndex} {pprev : Chain} {view view' : View} {undo : Option CBlockUndo}
      (env : Environment) (block : CBlock) (before : Reached params layered pprev view)
      (same : env.params = params)
      (enforced : layered = true → enforceBIP30 params (pindex :: pprev) = true)
      (connects : (connectBlock env block (pindex :: pprev) false).run handle view =
        .returned (undo, view')) : Reached params layered (pindex :: pprev) view'
  | push {pindex : Chain} {view : View} (caches : layered = true)
      (before : Reached params layered pindex view) : Reached params layered pindex view.push
  | flush {pindex : Chain} {view view' : View} (entries : Entries) (caches : layered = true)
      (before : Reached params layered pindex view)
      (walk : entries.Perm view.top.cacheCoins.entries) (flushes : view.flush entries = .ok view') :
      Reached params layered pindex view'

section

variable {params : Params} {layered : Bool} {pindex : Chain} {view : View}

structure Accounted (params : Params) (layered : Bool) (pindex : Chain) (view : View) : Prop where
  sound : view.Sound
  /-- A lone cache over nothing holds all coins. -/
  cached : layered = false →
    ∀ o, (view.shown o).isSome → (view.top.cacheCoins.lookup o).isSome
  inRange : InRange view.state
  supply : supply view.shown ≤ issued params (pindex.length - 1)

def knownTo (layered : Bool) (view : View) : Set COutPoint :=
  if layered then ∅ ∪ {o | view.shown o = none} else Set.univ

theorem Accounted.shows (accounted : Accounted params layered pindex view) :
    view.Shows (knownTo layered view) view.state := by
  have shows := shows_state view accounted.sound
  cases layered with
  | true => exact shows.extend fun _ absent => absent
  | false => exact { shows with cached := fun o _ present => accounted.cached rfl o present }

theorem Accounted.guarded (accounted : Accounted params layered pindex view) {index : CBlockIndex}
    (enforced : layered = true → enforceBIP30 params (index :: pindex) = true) :
    Guarded (knownTo layered view) params (index :: pindex) view.state := by
  cases layered with
  | true => exact .inr ⟨enforced rfl, fun _ absent => .inr absent⟩
  | false => exact .inl fun _ => trivial

theorem Accounted.layer {view' : View} (accounted : Accounted params layered pindex view)
    (caches : layered = true) (sound : view'.Sound) (same : view'.shown = view.shown) :
    Accounted params layered pindex view' where
  sound
  cached alone := by
    rw [caches] at alone
    cases alone
  inRange o coin found := accounted.inRange o coin ((congrFun same o).symm.trans found)
  supply := same ▸ accounted.supply

variable [Crypto]

theorem Accounted.connect (accounted : Accounted params layered pindex view) {index : CBlockIndex}
    {view' : View} {undo : Option CBlockUndo} (env : Environment) (block : CBlock)
    (same : env.params = params)
    (enforced : layered = true → enforceBIP30 params (index :: pindex) = true)
    (connects : (connectBlock env block (index :: pindex) false).run View.handle view =
      .returned (undo, view')) : Accounted params layered (index :: pindex) view' := by
  subst same
  obtain ⟨t, shows, made⟩ := Program.post_of_run (View.handle_refines _) accounted.shows
    (connectBlock_wp env block (index :: pindex) view.state accounted.inRange
      (accounted.guarded enforced)) connects
  have result : CoinsState.InRange t ∧
      Validation.supply t.coins ≤ issued env.params ((index :: pindex).length - 1) := by
    have before := accounted.supply
    rw [length_cons, Nat.add_sub_cancel]
    rcases made with ⟨_, _, effect⟩ | ⟨blockundo, _, connected⟩
    · have coins : t.coins = view.shown := by
        rw [effect]
        rfl
      constructor
      · intro o coin found
        rw [coins] at found
        exact accounted.inRange o coin found
      · rw [coins]
        cases pindex with
        | nil => exact before
        | cons parent rest =>
          have later := issued_mono env.params rest.length
          simp only [length_cons, Nat.add_sub_cancel] at before ⊢
          omega
    · obtain ⟨bound, range⟩ := connected.supply_le accounted.inRange
      refine ⟨range, ?_⟩
      have orphan := connected.parent
      cases pindex with
      | nil => exact absurd rfl orphan
      | cons parent rest =>
        have height : Chain.nHeight (index :: parent :: rest) = (rest.length + 1 : Nat) := by
          simp [Chain.nHeight]
        have shown : view.state.coins = view.shown := rfl
        rw [height, shown] at bound
        rw [length_cons, issued_succ]
        rw [length_cons, Nat.add_sub_cancel] at before
        omega
  refine ⟨shows.sound, ?_, ?_, ?_⟩
  · intro alone o present
    subst alone
    exact shows.cached o trivial (shows.coins ▸ present)
  · intro o coin found
    exact result.1 o coin (shows.coins ▸ found)
  · rw [shows.coins]
    exact result.2

theorem Reached.accounted (reached : Reached params layered pindex view) :
    Accounted params layered pindex view := by
  induction reached with
  | start =>
    have empty : (View.fresh View.emptyBase).shown = fun _ => none := rfl
    refine ⟨View.fresh_sound View.emptyBase, ?_, ?_, ?_⟩
    · intro _ o present
      rw [empty] at present
      cases present
    · intro o coin found
      cases found
    · rw [empty]
      simp [supply, Ledger.sum, issued]
  | connect env block _ same enforced connects ih => exact ih.connect env block same enforced connects
  | push caches _ ih =>
    obtain ⟨sound, flat⟩ := View.push_spec _ ih.sound
    exact ih.layer caches sound (List.cons.inj flat).1
  | flush entries caches _ walk flushes ih =>
    obtain ⟨next, run, sound, flat⟩ := View.flush_spec _ ih.sound walk
    rw [flushes] at run
    cases run
    exact ih.layer caches sound (List.cons.inj flat).1

/-- The coins of a chain are worth at most the subsidies of its blocks, which with a halving every
500000 blocks stay within `MAX_MONEY`; and whatever block comes next, no addition of amounts
overflows. -/
theorem no_inflation (reached : Reached params layered pindex view) :
    supply view.shown ≤ issued params (pindex.length - 1) ∧
      (params.nSubsidyHalvingInterval = 500000 → ∀ n, issued params n ≤ maxMoney.toInt) ∧
      ∀ (env : Environment) (block : CBlock) (index : CBlockIndex), env.params = params →
        (layered = true → enforceBIP30 params (index :: pindex) = true) →
        (connectBlock env block (index :: pindex) false).run handle view ≠
          .crashed .signedOverflow := by
  have accounted := reached.accounted
  refine ⟨accounted.supply, issued_le_maxMoney params, ?_⟩
  intro env block index same enforced overflow
  subst same
  have sat := Program.run_sat (handle_refines _) accounted.shows
    (connectBlock_wp env block (index :: pindex) view.state accounted.inRange
      (accounted.guarded enforced))
  rw [overflow, sat_crashed, noOverflow_crashes] at sat
  exact sat rfl

end

def minedCoinbase : CTransaction where
  nVersion := 1
  vin := [⟨⟨.null, COutPoint.nullIndex⟩, [0x51, 0x51], CTxIn.sequenceFinal, []⟩]
  vout := [⟨100 * COIN, [0x51]⟩]
  nLockTime := 0

def minedBlock (nVersion : Int32) (hashPrevBlock : Uint256) : CBlock where
  nVersion
  hashPrevBlock
  hashMerkleRoot := @CTransaction.getHash Crypto.firstBytes minedCoinbase
  nTime := 0
  nBits := 0x207fffff
  nNonce := 0
  vtx := [minedCoinbase]

def minedHash (block : CBlock) : Uint256 :=
  @CBlockHeader.getHash Crypto.firstBytes block.toCBlockHeader

def minedGenesis : CBlock := minedBlock 1 .null

def minedParams : Params :=
  { regTestParams with hashGenesisBlock := minedHash minedGenesis, nSubsidyHalvingInterval := 500000 }

def minedEnvironment : Environment :=
  ⟨minedParams, fun _ => true, ScriptCaches.empty, true, false⟩

def minedIndex (block : CBlock) : CBlockIndex := ⟨minedHash block, block.nVersion, 0, 0x207fffff⟩

theorem no_inflation_after_two_blocks :
    let _ := Crypto.firstBytes
    let second := minedBlock 2 (minedHash minedGenesis)
    ∃ view, Reached minedParams true [minedIndex second, minedIndex minedGenesis] view ∧
      supply view.shown ≤ issued minedParams 1 := by
  intro crypto second
  let run (view : View) (block : CBlock) (pindex : Chain) :=
    (connectBlock minedEnvironment block pindex false).run handle view
  -- the second run starts where the first one has ended
  have succeeds : (run (View.fresh emptyBase) minedGenesis [minedIndex minedGenesis] >>=
      fun out => run out.2 second [minedIndex second, minedIndex minedGenesis]).any (fun _ => true) = true := by
    decide +kernel
  obtain ⟨⟨undo', view'⟩, both, _⟩ := exists_of_any succeeds
  obtain ⟨⟨undo, view⟩, first, next⟩ := bind_eq_returned.mp both
  have genesis : Reached minedParams true [minedIndex minedGenesis] view :=
    .connect minedEnvironment minedGenesis .start rfl (fun _ => by decide +kernel) first
  have reached : Reached minedParams true [minedIndex second, minedIndex minedGenesis] view' :=
    .connect minedEnvironment second genesis rfl (fun _ => by decide +kernel) next
  exact ⟨view', reached, (no_inflation reached).1⟩

end Qogecoin.Validation
