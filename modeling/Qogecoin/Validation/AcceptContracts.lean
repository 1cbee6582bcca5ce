import Qogecoin.Library.Contracts
import Qogecoin.Validation.PolicyFlags

/-! What one call of `MemPoolAccept` needs and leaves: looking up coins, checking scripts, and
looking for the origins of coins. -/
namespace Qogecoin.Validation

open Codec Commands Coins Consensus Script List AList Option Program View
open EStateM (Contract Discipline contract_iff)

section

variable {κ : Type} [Crypto] {setup : CacheSetup κ}

variable (m : MemPoolAccept setup)

def MemPoolAccept.HasCoin (o : COutPoint) : Prop :=
  ∃ entry, m.view.cacheCoins.lookup o = some entry ∧ entry.coin.isSpent = false

def MemPoolAccept.Ready (vin : List CTxIn) : Prop :=
  ∀ txin ∈ vin, m.HasCoin txin.prevout

def MemPoolAccept.Available (o : COutPoint) : Prop :=
  (getTx m.pool o.hash).isSome = true ∨ (m.coinsTip.shown o).isSome = true

/-- The chain, the transactions that are evaluated, and their outputs by txid. -/
structure Surroundings where
  tip : Chain
  coins : FlatMap
  bugs : List Uint256
  outputs : Uint256 → List CTxOut
  txs : Set CTransaction

def Surroundings.outputAt (around : Surroundings) (o : COutPoint) : Option CTxOut :=
  (around.outputs o.hash)[o.n.toNat]?

def Surroundings.spentOutput (around : Surroundings) (o : COutPoint) : CTxOut :=
  (around.outputAt o).getD ⟨-1, []⟩

structure MemPoolAccept.Consistent [Inhabited κ] (around : Surroundings) (m : MemPoolAccept setup) : Prop where
  tip : m.tip = around.tip
  bugs : m.bugs = around.bugs
  pool : ∀ tx ∈ m.pool, tx ∈ around.txs
  sound : m.coinsTip.Sound
  shown : m.coinsTip.shown = around.coins
  tempAdded : ∀ o coin, m.tempAdded o = some coin → around.outputAt o = some coin.out
  view : ∀ o entry, m.view.cacheCoins.lookup o = some entry → entry.coin.isSpent = false →
    around.outputAt o = some entry.coin.out
  caches : m.caches.Sound setup around.spentOutput around.txs

def acceptance [Inhabited κ] (setup : CacheSetup κ) (around : Surroundings) : Discipline (MemPoolAccept setup) where
  invariant m := m.Consistent around
  follows m m' := ∀ o, m.HasCoin o → m'.HasCoin o
  refl _ _ has := has
  trans first second o has := second o (first o has)

/-- The contract of a program that may stop with any error. -/
abbrev Upholds [Inhabited κ] (setup : CacheSetup κ) (around : Surroundings) {α : Type}
    (pre : MemPoolAccept setup → Prop)
    (x : AcceptM setup α) (post : α → MemPoolAccept setup → Prop) : Prop :=
  Contract (acceptance setup around) pre x post fun _ => True

end

section

theorem getCoin_shown {view : View} (sound : view.Sound) (o : COutPoint) :
    (view.getCoin o).1 = view.shown o ∧ (view.getCoin o).2.Sound ∧
      (view.getCoin o).2.shown = view.shown := by
  have flat := view.fetch_flat o sound
  simp only [flat_eq, List.cons.injEq] at flat
  exact ⟨view.fetch_entry o sound, view.fetch_sound o sound, flat.1⟩

theorem checkTransaction_inputs (passed : checkTransaction tx = .returned ()) :
    tx.vin ≠ [] := by
  obtain ⟨_, first, _⟩ := Result.bind_eq_returned.mp passed
  exact Result.rejectIf_eq_returned.mp first

theorem getBestBlock_shown {view : View} (sound : view.Sound) :
    view.getBestBlock.2.Sound ∧ view.getBestBlock.2.shown = view.shown := by
  obtain ⟨_, shown, kept⟩ := View.bestBlockAt_spec view.base view.below
  unfold View.getBestBlock
  split
  · constructor
    · exact ⟨shown ▸ sound.1, kept sound.2⟩
    · simp only [View.shown, View.layers, viewAt, shown]
  · exact ⟨sound, rfl⟩

theorem fetch_dummy (cache : CCoinsViewCache) (o : COutPoint) :
    (View.mk cache [] dummyView).fetch o =
      (cache.cacheCoins.lookup o, View.mk cache [] dummyView) := by
  unfold fetch fetchCoin
  cases found : cache.cacheCoins.lookup o with
  | some entry => rfl
  | none => rfl

theorem run_dummy {ε α : Type} {p : CoinsM ε α} (reads : p.Calls View.Reads)
    {cache : CCoinsViewCache} {a : α} {view : View}
    (ran : p.run View.handle ⟨cache, [], dummyView⟩ = .returned (a, view)) :
    ⟨cache, [], dummyView⟩ = view := by
  refine View.run_reads_keeps ?_ reads rfl ran
  rintro _ o rfl
  exact (congrArg Prod.snd (fetch_dummy cache o)).symm

variable {κ : Type} [Inhabited κ] [Crypto] {setup : CacheSetup κ}
  {around : Surroundings}
  {pre : MemPoolAccept setup → Prop} {stop : Halt → Prop}

theorem refuse_contract (verdict : Option TxInvalid) :
    Upholds setup around pre (refuse verdict)
      (fun _ m => verdict = none ∧ pre m) := by
  cases verdict with
  | none => exact .pure fun _ _ holds => ⟨rfl, holds⟩
  | some state => exact .throw trivial

theorem assertThat_contract (p : Prop) [Decidable p] :
    Upholds setup around pre (assertThat p)
      (fun _ m => p ∧ pre m) :=
  .ite (fun holds => .pure fun _ _ before => ⟨holds, before⟩) fun _ => .throw trivial

theorem resultOf_contract {α : Type} (result : Result Crash TxInvalid α) :
    Upholds setup around pre (resultOf result)
      (fun a m => result = .returned a ∧ pre m) := by
  cases result with
  | returned a => exact .pure fun _ _ holds => ⟨rfl, holds⟩
  | rejected state | crashed f => exact .throw trivial

theorem attempt_contract {α : Type} {x : AcceptM setup α} {post : α → MemPoolAccept setup → Prop}
    (contract : Contract (acceptance setup around) pre x post stop) :
    Contract (acceptance setup around) pre (attempt x)
      (fun result m => (∀ a, result = .ok a → post a m) ∧
        ∀ state, result = .error state → stop (.invalid state)) stop := by
  rw [contract_iff] at contract ⊢
  intro m holds before
  have ends := contract m holds before
  unfold attempt
  generalize x m = result at ends ⊢
  cases result with
  | ok a m' =>
    obtain ⟨kept, moved, result⟩ := ends
    refine ⟨kept, moved, ?_, nofun⟩
    rintro b ⟨⟩
    exact result
  | error e m' =>
    cases e with
    | invalid state =>
      obtain ⟨kept, moved, result⟩ := ends
      refine ⟨kept, moved, nofun, ?_⟩
      rintro state' ⟨⟩
      exact result
    | crash f => exact ends

structure Answers (around : Surroundings) (o : COutPoint)
    (parent : Option Coin × View) : Prop where
  coin : ∀ coin, parent.1 = some coin → around.outputAt o = some coin.out
  sound : parent.2.Sound
  shown : parent.2.shown = around.coins

omit [Inhabited κ] [Crypto] in
theorem haveCoinOver_cases (m : MemPoolAccept setup) (parent : Option Coin × View)
    (o : COutPoint) :
    (∃ entry, m.view.cacheCoins.lookup o = some entry ∧
      m.haveCoinOver parent o = (entry.unspent.isSome, m)) ∨
    (parent.1 = none ∧ m.haveCoinOver parent o = (false, { m with coinsTip := parent.2 })) ∨
    ∃ coin, m.view.cacheCoins.lookup o = none ∧ parent.1 = some coin ∧
      m.haveCoinOver parent o =
        ((CCoinsCacheEntry.mk coin false coin.isSpent).unspent.isSome,
          { m with
            view := { m.view with
              cacheCoins := m.view.cacheCoins.insert o ⟨coin, false, coin.isSpent⟩ }
            coinsTip := parent.2 }) := by
  cases cached : m.view.cacheCoins.lookup o with
  | some entry =>
    exact .inl ⟨entry, rfl, by simp [MemPoolAccept.haveCoinOver, fetchCoin, cached]⟩
  | none =>
    right
    cases found : parent.1 with
    | none => exact .inl ⟨rfl, by simp [MemPoolAccept.haveCoinOver, fetchCoin, cached, found]⟩
    | some coin =>
      exact .inr ⟨coin, rfl, rfl, by simp [MemPoolAccept.haveCoinOver, fetchCoin, cached, found]⟩

variable {m : MemPoolAccept setup}

theorem haveCoinOver_step (holds : m.Consistent around) {o : COutPoint}
    {parent : Option Coin × View} (answers : Answers around o parent) :
    (m.haveCoinOver parent o).2.Consistent around ∧
      (∀ p, m.HasCoin p → (m.haveCoinOver parent o).2.HasCoin p) ∧
      ((m.haveCoinOver parent o).1 = true → (m.haveCoinOver parent o).2.HasCoin o) := by
  rcases haveCoinOver_cases m parent o with
    ⟨entry, cached, same⟩ | ⟨missing, same⟩ | ⟨coin, missing, found, same⟩
  · rw [same]
    refine ⟨holds, fun _ has => has, ?_⟩
    intro unspent
    obtain ⟨coin, live⟩ := isSome_iff_exists.mp unspent
    exact ⟨entry, cached, (unspent_eq_some.mp live).1⟩
  · rw [same]
    refine ⟨{ holds with sound := answers.sound, shown := answers.shown }, fun _ has => has, ?_⟩
    simp
  · rw [same]
    refine ⟨{ holds with sound := answers.sound, shown := answers.shown, view := ?_ }, ?_, ?_⟩
    · intro p e lookup live
      by_cases here : p = o
      · subst here
        rw [lookup_insert] at lookup
        cases lookup
        exact answers.coin coin found
      · rw [lookup_insert_ne here] at lookup
        exact holds.view p e lookup live
    · rintro p ⟨e, lookup, live⟩
      have other : p ≠ o := by
        rintro rfl
        rw [missing] at lookup
        cases lookup
      exact ⟨e, (lookup_insert_ne other).trans lookup, live⟩
    · intro unspent
      obtain ⟨coin', live⟩ := isSome_iff_exists.mp unspent
      exact ⟨_, lookup_insert _, (unspent_eq_some.mp live).1⟩

variable {tx : CTransaction}

omit [Inhabited κ] in
theorem getTx_some {mapTx : List CTransaction} {hash : Uint256} (found : getTx mapTx hash = some tx) :
    tx ∈ mapTx ∧ tx.getHash = hash :=
  ⟨mem_of_find?_eq_some found, by simpa using List.find?_some found⟩

/-- Transactions with one txid have the same outputs, and coins of the chain are such outputs. -/
structure TxidsDetermine (around : Surroundings) : Prop where
  vout : ∀ tx ∈ around.txs, tx.vout = around.outputs tx.getHash
  coins : ∀ o coin, around.coins o = some coin → around.outputAt o = some coin.out

theorem unconfirmedCoin_out (names : TxidsDetermine around) (member : tx ∈ around.txs)
    {o : COutPoint} (hash : tx.getHash = o.hash) {coin : Coin}
    (found : unconfirmedCoin tx o = some coin) : around.outputAt o = some coin.out := by
  obtain ⟨out, here, rfl⟩ := map_eq_some_iff.mp found
  rw [names.vout tx member, hash] at here
  exact here

section

variable (names : TxidsDetermine around) (holds : m.Consistent around)
  (o : COutPoint)
include names holds

theorem tip_answers : Answers around o (m.coinsTip.getCoin o) := by
  obtain ⟨found, sound, shown⟩ := getCoin_shown holds.sound o
  refine ⟨?_, sound, shown.trans holds.shown⟩
  intro coin answer
  rw [found, holds.shown] at answer
  exact names.coins o coin answer

theorem getCoin_answers : Answers around o (m.getCoin o) := by
  unfold MemPoolAccept.getCoin
  cases temp : m.tempAdded o with
  | some coin =>
    refine ⟨?_, holds.sound, holds.shown⟩
    rintro coin' ⟨⟩
    exact holds.tempAdded o coin temp
  | none =>
    cases pooled : getTx m.pool o.hash with
    | none => exact tip_answers names holds o
    | some ptx =>
      obtain ⟨member, hash⟩ := getTx_some pooled
      exact ⟨fun coin => unconfirmedCoin_out names (holds.pool ptx member) hash, holds.sound,
        holds.shown⟩

end

omit [Inhabited κ] [Crypto] in
theorem ready_cons {txin : CTxIn} {vin : List CTxIn} (rest : m.Ready vin)
    (first : m.HasCoin txin.prevout) : m.Ready (txin :: vin) := by
  intro other member
  rcases mem_cons.mp member with rfl | later
  · exact first
  · exact rest other later

/-- Neither looking up a coin nor reading the best block nor a use of the limits takes away the
fact. -/
structure LoadingKeeps (around : Surroundings) (fact : MemPoolAccept setup → Prop) : Prop where
  lookup : ∀ m o, m.Consistent around → fact m → fact (m.haveCoinOver (m.getCoin o) o).2
  best : ∀ m, m.Consistent around → fact m →
    let best := m.coinsTip.getBestBlock
    fact { m with view := { m.view with hashBlock := best.1 }, coinsTip := best.2 }
  limits : ∀ m limits calls, fact m → fact { m with limits, calls }

variable {fact : MemPoolAccept setup → Prop}

theorem loadInputs_contract (names : TxidsDetermine around)
    (keeps : LoadingKeeps around fact) (tx : CTransaction) (vin : List CTxIn) :
    Upholds setup around fact (loadInputs tx vin)
      (fun _ m => m.Ready vin ∧ fact m) := by
  induction vin with
  | nil => exact .pure fun _ _ given => ⟨by simp [MemPoolAccept.Ready], given⟩
  | cons txin vin ih =>
    have looked : Upholds setup around fact
        (modifyGet fun m => m.haveCoinOver (m.getCoin txin.prevout) txin.prevout)
        (fun found m => fact m ∧ (found = true → m.HasCoin txin.prevout)) := by
      refine .modifyGet fun m holds given => ?_
      obtain ⟨kept, moved, has⟩ :=
        haveCoinOver_step holds (getCoin_answers names holds txin.prevout)
      exact ⟨kept, moved, keeps.lookup m _ holds given, has⟩
    refine .bind looked fun found => ?_
    refine .ite (fun yes => ?_) fun no => ?_
    · have stays : ∀ m m', (acceptance setup around).follows m m' →
          m.HasCoin txin.prevout → m'.HasCoin txin.prevout := fun _ _ moved has => moved _ has
      exact ((ih.frame stays).before fun _ _ given => ⟨given.1, given.2 yes⟩).after
        fun _ _ _ all => ⟨ready_cons all.1.1 all.2, all.1.2⟩
    · refine .bind .get fun m => ?_
      exact .ite (fun _ => .throw trivial) fun _ => .throw trivial

theorem readBestBlock_contract (keeps : LoadingKeeps around fact) (vin : List CTxIn) :
    Upholds setup around (fun m => m.Ready vin ∧ fact m) readBestBlock
      (fun _ m => m.Ready vin ∧ fact m) := by
  refine .modifyGet fun m holds given => ?_
  dsimp only
  obtain ⟨sound, shown⟩ := getBestBlock_shown holds.sound
  split
  · exact ⟨{ holds with sound, shown := shown.trans holds.shown, view := holds.view },
      fun _ has => has, given.1, keeps.best m holds given.2⟩
  · exact ⟨holds, fun _ has => has, given⟩

omit [Inhabited κ] [Crypto] in
theorem ready_stays (vin : List CTxIn) (m m' : MemPoolAccept setup)
    (moved : ∀ o, m.HasCoin o → m'.HasCoin o) (ready : m.Ready vin) :
    m'.Ready vin :=
  fun txin member => moved _ (ready txin member)

structure Prepared (tx : CTransaction) (m : MemPoolAccept setup) : Prop where
  spending : tx.isCoinBase = false
  inputs : tx.vin ≠ []
  ready : m.Ready tx.vin

omit [Inhabited κ] [Crypto] in
theorem prepared_stays (tx : CTransaction) (m m' : MemPoolAccept setup)
    (moved : ∀ o, m.HasCoin o → m'.HasCoin o) (prepared : Prepared tx m) :
    Prepared tx m' :=
  { prepared with ready := ready_stays _ m m' moved prepared.ready }

theorem singleConflict_contract (policy : Policy setup) (conflicts : List Uint256) :
    Upholds setup around pre (singleConflict policy conflicts) (fun _ => pre) := by
  unfold singleConflict
  split
  · refine .bind .get fun m => ?_
    split
    · exact .throw trivial
    · exact .pure fun _ _ given => given.2.2
  · exact .pure fun _ _ given => given

theorem limits_contract {α : Type} {f : MemPoolAccept setup → α × MemPoolAccept setup}
    (keeps : ∀ m limits calls, pre m → pre { m with limits, calls })
    (moves : ∀ m, ∃ limits calls, (f m).2 = { m with limits, calls }) :
    Upholds setup around pre (modifyGet f) (fun _ => pre) := by
  refine .modifyGet fun m holds given => ?_
  obtain ⟨limits, calls, moved⟩ := moves m
  rw [moved]
  exact ⟨{ holds with }, fun _ has => has, keeps m limits calls given⟩

theorem preChecks_keeps [DecidableEq κ] (names : TxidsDetermine around)
    (keeps : LoadingKeeps around fact) (policy : Policy setup) (args : ATMPArgs)
    (tx : CTransaction) :
    Upholds setup around fact (preChecks policy args tx)
      (fun _ m => Prepared tx m ∧ fact m) := by
  refine .bind (resultOf_contract _) fun _ => .assume fun wellFormed => ?_
  refine .bind (refuse_contract _) fun _ => .assume fun loose => ?_
  have spending : tx.isCoinBase = false := by
    cases coinbase : tx.isCoinBase with
    | false => rfl
    | true => simp [coinbase] at loose
  refine .bind .get fun m => .assume fun _ => ?_
  refine .bind (refuse_contract _) fun _ => .assume fun _ => ?_
  refine .bind (refuse_contract _) fun _ => .assume fun _ => ?_
  refine .bind (refuse_contract _) fun _ => .assume fun _ => ?_
  refine .bind (resultOf_contract _) fun conflicts => .assume fun _ => ?_
  refine .bind ((loadInputs_contract names keeps tx tx.vin).before
    fun _ _ given => given.2) fun _ => ?_
  refine .bind (readBestBlock_contract keeps tx.vin) fun _ => .bind .get fun m => .assume fun _ => ?_
  refine .bind (assertThat_contract _) fun _ => .assume fun _ => ?_
  refine .bind (refuse_contract _) fun _ => .assume fun _ => ?_
  refine .bind (singleConflict_contract policy conflicts) fun conflict => ?_
  have called : Upholds setup around (fun m => m.Ready tx.vin ∧ fact m)
      (callWithin policy tx conflict) (fun _ m => m.Ready tx.vin ∧ fact m) :=
    limits_contract (fun m limits calls given => ⟨given.1, keeps.limits m limits calls given.2⟩)
      fun m => ⟨_, _, rfl⟩
  refine .bind (called.before fun _ _ given => given.2) fun within => ?_
  refine .bind (refuse_contract _) fun _ => .assume fun _ => ?_
  refine .bind .get fun m => .assume fun _ => ?_
  refine .bind (refuse_contract _) fun _ => .assume fun _ => ?_
  refine .pure fun m' _ given => ?_
  exact ⟨⟨spending, checkTransaction_inputs wellFormed, given.2.1⟩, given.2.2⟩

theorem preChecks_contract [DecidableEq κ] (names : TxidsDetermine around)
    (policy : Policy setup) (args : ATMPArgs) (tx : CTransaction) :
    Upholds setup around (fun _ => True) (preChecks policy args tx)
      (fun _ m => Prepared tx m) :=
  (preChecks_keeps names ⟨fun _ _ _ _ => trivial, fun _ _ _ => trivial, fun _ _ _ _ => trivial⟩ policy args tx).after
    fun _ _ _ left => left.1

theorem consistent_determined (holds : m.Consistent around) :
    Determined around.spentOutput ⟨m.view, [], dummyView⟩ := by
  constructor
  · rintro o coin ⟨⟩
  · intro cache member o entry lookup live
    cases mem_singleton.mp member
    rw [Surroundings.spentOutput, holds.view o entry lookup live]
    rfl

theorem ready_has (holds : m.Consistent around) {vin : List CTxIn} (ready : m.Ready vin) :
    ∀ txin ∈ vin, Has around.spentOutput txin.prevout ⟨m.view, [], dummyView⟩ := by
  intro txin member
  obtain ⟨entry, lookup, live⟩ := ready txin member
  refine ⟨entry, lookup, live, ?_⟩
  rw [Surroundings.spentOutput, holds.view _ entry lookup live]
  rfl

omit [Inhabited κ] [Crypto] in
theorem assertThat_of {p : Prop} [Decidable p] (holds : p) (m : MemPoolAccept setup) :
    assertThat p m = .ok () m := by
  unfold assertThat
  rw [if_pos holds]
  rfl

/-- How the look for the origins of coins ends: all are there, or an assertion fails. -/
inductive Traced (around : Surroundings) (m : MemPoolAccept setup) (available : Prop) :
    EStateM.Result Halt (MemPoolAccept setup) Unit → Prop where
  | found (there : available) (m' : MemPoolAccept setup)
      (holds : m'.Consistent around) (moved : ∀ o, m.HasCoin o → m'.HasCoin o)
      (pool : m'.pool = m.pool) : Traced around m available (.ok () m')
  | missing (gone : ¬available) (m' : MemPoolAccept setup)
      (holds : m'.Consistent around) (moved : ∀ o, m.HasCoin o → m'.HasCoin o) :
      Traced around m available (.error (.crash .assertion) m')

theorem checkOrigin_traced (names : TxidsDetermine around)
    (holds : m.Consistent around) {o : COutPoint} (has : m.HasCoin o) :
    Traced around m (m.Available o) (checkOrigin o m) := by
  obtain ⟨entry, lookup, live⟩ := has
  have out := holds.view o entry lookup live
  have access : (View.mk m.view [] dummyView).accessCoin o =
      (entry.coin, View.mk m.view [] dummyView) := by
    simp only [View.accessCoin, fetch_dummy, lookup]
    rfl
  have first : (modifyGet fun m : MemPoolAccept setup =>
      let accessed := (View.mk m.view [] dummyView).accessCoin o
      (accessed.1, { m with view := accessed.2.top }) : AcceptM setup Coin) m =
      .ok entry.coin m := by
    show EStateM.Result.ok _ _ = _
    rw [access]
  have second : (get : AcceptM setup (MemPoolAccept setup)) m = .ok m m := rfl
  unfold checkOrigin
  rw [EStateM.bind_of_ok first, if_neg (by simp [live]), EStateM.bind_of_ok second]
  cases pooled : getTx m.pool o.hash with
  | some txFrom =>
    obtain ⟨member, hash⟩ := getTx_some pooled
    have here : txFrom.vout[o.n.toNat]? = some entry.coin.out := by
      rw [names.vout txFrom (holds.pool txFrom member), hash]
      exact out
    have inside : txFrom.vout.length > o.n.toNat := (List.getElem?_eq_some_iff.mp here).1
    dsimp only
    rw [EStateM.bind_of_ok (assertThat_of hash m), EStateM.bind_of_ok (assertThat_of inside m),
      assertThat_of here m]
    exact .found (.inl (by rw [pooled]; rfl)) m holds (fun _ has => has) rfl
  | none =>
    have fetched := m.coinsTip.fetch_flat o holds.sound
    simp only [View.flat_eq, List.cons.injEq] at fetched
    have shown := m.coinsTip.accessCoin_eq o holds.sound
    have third : (modifyGet fun m : MemPoolAccept setup =>
        let accessed := m.coinsTip.accessCoin o
        (accessed.1, { m with coinsTip := accessed.2 }) : AcceptM setup Coin) m =
        .ok (m.coinsTip.accessCoin o).1 { m with coinsTip := (m.coinsTip.accessCoin o).2 } := rfl
    have holds' : MemPoolAccept.Consistent around
        { m with coinsTip := (m.coinsTip.accessCoin o).2 } :=
      { holds with
        sound := m.coinsTip.fetch_sound o holds.sound
        shown := fetched.1.trans holds.shown }
    dsimp only
    rw [EStateM.bind_of_ok third]
    cases tip : m.coinsTip.shown o with
    | some coin =>
      rw [tip, Option.getD_some] at shown
      have unspent : coin.isSpent = false := viewAt_unspent _ _ o coin tip
      have same : coin.out = entry.coin.out := by
        rw [holds.shown] at tip
        exact Option.some_inj.mp ((names.coins o coin tip).symm.trans out)
      rw [shown, EStateM.bind_of_ok (assertThat_of unspent _), assertThat_of same _]
      exact .found (.inr (by rw [tip]; rfl)) _ holds' (fun _ has => has) rfl
    | none =>
      rw [tip, Option.getD_none] at shown
      rw [shown]
      refine .missing ?_ _ holds' fun _ has => has
      rintro (inPool | onChain)
      · rw [pooled] at inPool
        cases inPool
      · rw [tip] at onChain
        cases onChain

theorem checkOrigins_traced (names : TxidsDetermine around)
    (holds : m.Consistent around) {vin : List CTxIn} (ready : m.Ready vin) :
    Traced around m (∀ txin ∈ vin, m.Available txin.prevout) (checkOrigins vin m) := by
  induction vin generalizing m with
  | nil => exact .found (by simp) m holds (fun _ has => has) rfl
  | cons txin vin ih =>
    have head := checkOrigin_traced names holds (ready txin mem_cons_self)
    unfold checkOrigins
    generalize first : checkOrigin txin.prevout m = result at head
    cases head with
    | found there m' holds' moved pool =>
      rw [EStateM.bind_of_ok first]
      have same : ∀ o, m'.Available o ↔ m.Available o := by
        intro o
        rw [MemPoolAccept.Available, MemPoolAccept.Available, pool, holds'.shown, holds.shown]
      have rest := ih holds' fun other member =>
        moved _ (ready other (mem_cons_of_mem _ member))
      generalize checkOrigins vin m' = result at rest
      cases rest with
      | found all m'' holds'' moved' pool' =>
        refine .found ?_ m'' holds'' (fun o has => moved' o (moved o has)) (pool'.trans pool)
        exact forall_mem_cons.mpr ⟨there, fun other member => (same _).mp (all other member)⟩
      | missing gone m'' holds'' moved' =>
        refine .missing ?_ m'' holds'' fun o has => moved' o (moved o has)
        intro all
        exact gone fun other member => (same _).mpr (all other (mem_cons_of_mem _ member))
    | missing gone m' holds' moved =>
      rw [EStateM.bind_of_error first]
      exact .missing (fun all => gone (all txin mem_cons_self)) m' holds' moved

section

variable [DecidableEq κ]

omit [Inhabited κ] in
theorem checkInputScripts_reads (tx : CTransaction) (flags : Flags) (sigStore fullStore : Bool)
    (txdata : PrecomputedTransactionData) (queue : Bool) (caches : NodeCaches setup) :
    (setup.checkInputScripts tx flags sigStore fullStore txdata queue caches).Calls View.Reads := by
  unfold CacheSetup.checkInputScripts
  split
  · exact .pure _
  dsimp only
  split
  · exact .pure _
  refine .bind (precompute_within _ _).calls fun data => .bind (.lift _) fun _ => ?_
  dsimp only
  split
  · exact .pure _
  · unfold CacheSetup.performChecks
    split
    · exact .lift _
    · exact .pure _
    · exact .pure _

theorem checkInputScripts_returned {utxo : COutPoint → CTxOut} {view view' : View}
    (spending : tx.isCoinBase = false) {flags : Flags} {given txdata : PrecomputedTransactionData}
    {checks : List (CScriptCheck Unit)} (determined : view.Determined utxo)
    (known : FreshOrFilled utxo tx given)
    (ran : (checkInputScripts .empty tx flags given false).run handle view =
      .returned ((txdata, checks), view')) : ScriptsPass utxo tx flags := by
  rw [checkInputScripts_spending spending] at ran
  obtain ⟨data, next, filled, rest⟩ := run_bind_eq_returned.mp ran
  obtain ⟨_, _, checked⟩ := run_lift_bind_eq_returned.mp rest
  obtain ⟨_, passed, _⟩ := run_lift_bind_eq_returned.mp checked
  exact ⟨data, precompute_run determined known filled, runChecks_returned passed⟩

/-- What the checks of scripts rely on, with the parameters of the chain. -/
structure Setting (setup : CacheSetup κ) (around : Surroundings) (params : Params) : Prop where
  free : CSignatureCache.CollisionFree setup.signatureCache.finalize
  distinct : Set.InjOn CTransaction.getWitnessHash around.txs
  names : TxidsDetermine around
  shipped : params.scriptFlagExceptions ∈ shippedExceptions
  stays : StaysActive params around.tip

variable {args : ATMPArgs} (setting : Setting setup around args.params)
  {txdata : PrecomputedTransactionData}

include setting

theorem checkScripts_contract (member : tx ∈ around.txs) (flags : Flags) (fullStore : Bool)
    (given : FreshOrFilled around.spentOutput tx txdata) :
    Upholds setup around (Prepared tx)
      (checkScripts tx flags fullStore txdata)
      (fun result m => Prepared tx m ∧ FreshOrFilled around.spentOutput tx result.2 ∧
        (result.1 = none ↔ ScriptsPass around.spentOutput tx flags)) := by
  rw [Upholds, contract_iff]
  intro m holds prepared
  have left : ∀ txin ∈ tx.vin, m.HasCoin txin.prevout := prepared.ready
  have determined := consistent_determined holds
  have called := checkInputScripts_called setting.free setting.distinct holds.caches member flags
    true fullStore given false determined
  have reads := checkInputScripts_reads tx flags true fullStore txdata false m.caches
  have same : ∀ outcome view, (setup.checkInputScripts tx flags true fullStore txdata false
      m.caches).run View.handle ⟨m.view, [], dummyView⟩ = .returned (outcome, view) →
      view.top = m.view := fun outcome view ran => by rw [← run_dummy reads ran]
  have failing : ∀ state, (checkInputScripts .empty tx flags txdata false).run View.handle
      ⟨m.view, [], dummyView⟩ = .rejected state → ¬ScriptsPass around.spentOutput tx flags := by
    intro state rejected pass
    obtain ⟨_, _, returned, _⟩ := checkInputScripts_pass prepared.spending
      (ready_has holds prepared.ready) pass given false
    cases rejected.symm.trans returned
  have passing : ∀ result, (checkInputScripts .empty tx flags txdata false).run View.handle
      ⟨m.view, [], dummyView⟩ = .returned result → ScriptsPass around.spentOutput tx flags :=
    fun result returned => checkInputScripts_returned prepared.spending determined given returned
  unfold checkScripts
  generalize (setup.checkInputScripts tx flags true fullStore txdata false m.caches).run
    View.handle ⟨m.view, [], dummyView⟩ = cached at called same ⊢
  generalize (checkInputScripts .empty tx flags txdata false).run View.handle
    ⟨m.view, [], dummyView⟩ = plain at called failing passing
  cases called with
  | hit caches sound pass =>
    exact ⟨{ holds with caches := sound }, fun _ has => has, { prepared with ready := left }, given,
      fun _ => pass, fun _ => rfl⟩
  | accepted caches sound data vChecks _ filled view =>
    dsimp only
    rw [same _ view rfl]
    exact ⟨{ holds with caches := sound }, fun _ has => has, { prepared with ready := left },
      filled prepared.inputs, fun _ => passing _ rfl, fun _ => rfl⟩
  | rejected caches sound state data filled view =>
    dsimp only
    rw [same _ view rfl]
    exact ⟨{ holds with caches := sound }, fun _ has => has, { prepared with ready := left },
      filled prepared.inputs, nofun, fun pass => absurd pass (failing state rfl)⟩
  | refused state =>
    exact ⟨holds, fun _ has => has, prepared, given, nofun,
      fun pass => absurd pass (failing state rfl)⟩
  | crashed f => exact ⟨holds, fun _ has => has, trivial⟩

theorem witnessStripped_contract (member : tx ∈ around.txs) (flags : Flags)
    (given : FreshOrFilled around.spentOutput tx txdata) :
    Upholds setup around (Prepared tx) (witnessStripped tx flags txdata)
      (fun _ _ => True) := by
  refine .ite (fun _ => .pure fun _ _ _ => trivial) fun _ => ?_
  refine .bind (checkScripts_contract setting member _ false given) fun without => ?_
  refine .ite (fun _ => .pure fun _ _ _ => trivial) fun _ => ?_
  intro m holds left
  exact Contract.bind (checkScripts_contract setting member _ false left.2.1)
    (fun _ => .pure fun _ _ _ => trivial) m holds left.1

theorem policyScriptChecks_contract (member : tx ∈ around.txs) :
    Upholds setup around (Prepared tx) (policyScriptChecks args tx)
      (fun txdata m => Prepared tx m ∧ FreshOrFilled around.spentOutput tx txdata ∧
        ScriptsPass around.spentOutput tx (policyFlags args.params around.tip)) := by
  refine .bind .get fun m => .assume fun holds => ?_
  rw [show m.tip = around.tip from holds.tip]
  intro m' holds' given
  refine Contract.bind (checkScripts_contract setting member _ false (.inl rfl))
    (fun result => ?_) m' holds' given.2
  cases verdict : result.1 with
  | none =>
    refine .pure fun m _ left => ?_
    exact ⟨left.1, left.2.1, left.2.2.mp rfl⟩
  | some state =>
    intro m holds left
    exact Contract.bind (witnessStripped_contract setting member _ left.2.1)
      (fun _ => .throw trivial) m holds left.1

theorem checkScripts_passes (member : tx ∈ around.txs) {flags : Flags} (fullStore : Bool)
    (given : FreshOrFilled around.spentOutput tx txdata)
    (holds : m.Consistent around) (prepared : Prepared tx m)
    (pass : ScriptsPass around.spentOutput tx flags) :
    ∃ data m', checkScripts tx flags fullStore txdata m = .ok (none, data) m' ∧
      m'.pool = m.pool := by
  have called := checkInputScripts_called setting.free setting.distinct holds.caches member flags
    true fullStore given false (consistent_determined holds)
  obtain ⟨_, _, returned, _⟩ := checkInputScripts_pass prepared.spending
    (ready_has holds prepared.ready) pass given false
  rw [returned] at called
  unfold checkScripts
  generalize (setup.checkInputScripts tx flags true fullStore txdata false m.caches).run
    handle ⟨m.view, [], dummyView⟩ = cached at called ⊢
  cases called with
  | hit caches sound pass => exact ⟨_, _, rfl, rfl⟩
  | accepted caches sound data vChecks same filled view => exact ⟨_, _, rfl, rfl⟩

theorem consensusScriptChecks_traced (member : tx ∈ around.txs)
    (given : FreshOrFilled around.spentOutput tx txdata)
    (pass : ScriptsPass around.spentOutput tx (policyFlags args.params around.tip))
    (holds : m.Consistent around) (prepared : Prepared tx m) :
    Traced around m (∀ txin ∈ tx.vin, m.Available txin.prevout)
      (consensusScriptChecks args tx txdata m) := by
  have passes := pass.mono (blockFlags_subset setting.shipped setting.stays)
    (blockFlags_coherent setting.shipped _)
  have origins := checkOrigins_traced setting.names holds prepared.ready
  unfold consensusScriptChecks checkInputsFromMempoolAndCache
  rw [holds.tip, EStateM.bind_of_ok (assertThat_of prepared.spending m)]
  generalize traced : checkOrigins tx.vin m = result at origins
  cases origins with
  | missing gone m' holds' moved =>
    rw [EStateM.bind_of_error traced]
    exact .missing gone m' holds' moved
  | found there m' holds' moved pool =>
    have prepared' : Prepared tx m' :=
      { prepared with ready := fun txin member => moved _ (prepared.ready txin member) }
    obtain ⟨data, m'', checked, pool'⟩ :=
      checkScripts_passes setting member true given holds' prepared' passes
    obtain ⟨holds'', moved', _⟩ :=
      (checkScripts_contract setting member _ true given m' holds' prepared').1 _ _ checked
    rw [EStateM.bind_of_ok traced, EStateM.bind_of_ok checked]
    exact .found there m'' holds'' (fun o has => moved' o (moved o has)) (pool'.trans pool)

end

end

end Qogecoin.Validation
