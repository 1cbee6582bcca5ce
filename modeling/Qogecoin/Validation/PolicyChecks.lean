import Qogecoin.Validation.AcceptContracts
import Qogecoin.Validation.PackageLimits

/-! The script checks of `MemPoolAccept`: what passes with the flags of policy passes with those of
the tip, as long as the coins are there. -/
namespace Qogecoin.Validation

open Codec Commands Coins Consensus Script List CSignatureCache Option
open EStateM (Contract Discipline contract_iff)

def Blameless (r : PackageMempoolAcceptResult) : Prop :=
  ∀ hash, .consensusScriptChecksFailed hash ∉ r.packageState

variable {r : PackageMempoolAcceptResult}

theorem Blameless.emplace (blameless : Blameless r) (wtxid : Uint256) (result : MempoolAcceptResult) :
    Blameless (r.emplace wtxid result) := by
  unfold PackageMempoolAcceptResult.emplace
  split
  · exact blameless
  · exact blameless

theorem Blameless.note [Crypto] (blameless : Blameless r) (tx : CTransaction) {bug : PackageInvalid}
    {result : Except (Option TxInvalid) Unit}
    (other : (∀ hash, bug ≠ .consensusScriptChecksFailed hash) ∨ ∃ u, result = .ok u) :
    Blameless (r.note tx bug result) := by
  cases result with
  | ok u => exact blameless
  | error state =>
    intro hash member
    rcases mem_append.mp member with before | now
    · exact blameless hash before
    · rcases other with different | ⟨u, ok⟩
      · exact different hash (mem_singleton.mp now).symm
      · cases ok

theorem Blameless.foldl {β : Type}
    (step : PackageMempoolAcceptResult → β → PackageMempoolAcceptResult)
    (keeps : ∀ r b, Blameless r → Blameless (step r b)) (l : List β) (blameless : Blameless r) :
    Blameless (l.foldl step r) := by
  induction l generalizing r with
  | nil => exact blameless
  | cons b l ih => exact ih (keeps r b blameless)

section

variable {κ : Type} [Inhabited κ] [Crypto] {setup : CacheSetup κ}
  {around : Surroundings}

variable {fact : Prop}

theorem limitMempoolSize_contract (policy : Policy setup) :
    Upholds setup around (fun _ => fact) (limitMempoolSize policy)
      (fun _ _ => fact) := by
  refine .modifyGet fun m holds before => ?_
  have uncached : ∀ (removed : List COutPoint) (view : View), view.Sound →
      (removed.foldl .uncache view).Sound ∧
        (removed.foldl .uncache view).shown = view.shown := by
    intro removed
    induction removed with
    | nil => exact fun view sound => ⟨sound, rfl⟩
    | cons o removed ih =>
      intro view sound
      obtain ⟨kept, flat⟩ := view.uncache_spec o sound
      simp only [View.flat_eq, List.cons.injEq] at flat
      obtain ⟨left, shown⟩ := ih (view.uncache o) kept
      exact ⟨left, shown.trans flat.1⟩
  obtain ⟨sound, shown⟩ := uncached (policy.noSpendsRemaining m) m.coinsTip holds.sound
  refine ⟨{ holds with pool := ?_, sound, shown := shown.trans holds.shown }, fun _ has => has,
    before⟩
  intro tx member
  exact holds.pool tx (mem_of_mem_filter member)

theorem noneExists_contract (txns : List CTransaction) {pre : MemPoolAccept setup → Prop} :
    Upholds setup around pre (noneExists txns) (fun _ => pre) :=
  .bind .get fun _ => (assertThat_contract _).after fun _ _ _ given => given.2.2.2

theorem packageMempoolChecks_contract (policy : Policy setup) (txns : List CTransaction)
    {pre : MemPoolAccept setup → Prop}
    (keeps : ∀ m limits calls, pre m → pre { m with limits, calls }) :
    Upholds setup around pre (packageMempoolChecks policy txns) (fun _ => pre) :=
  .bind (noneExists_contract txns) fun _ => .bind (limits_contract keeps fun _ => ⟨_, _, rfl⟩)
    fun _ => .bind .get fun _ => .pure fun _ _ given => given.2.2

theorem finalize_contract (policy : Policy setup) (args : ATMPArgs) {tx : CTransaction}
    (member : tx ∈ around.txs) (allConflicting : List Uint256) :
    Upholds setup around (fun _ => True)
      (finalize policy args tx allConflicting) (fun _ _ => True) := by
  have removed : Upholds setup around (fun _ => True)
      (modify fun m : MemPoolAccept setup =>
        { m with pool := m.pool.filter fun other => other.getHash ∉ allConflicting })
      (fun _ _ => True) := by
    refine .modifyGet fun m holds _ => ?_
    refine ⟨{ holds with pool := ?_ }, fun _ has => has, trivial⟩
    intro other left
    exact holds.pool other (mem_of_mem_filter left)
  have added : Upholds setup around (fun _ => True)
      (modify fun m : MemPoolAccept setup =>
        { m with pool := if (getTx m.pool tx.getHash).isSome then m.pool else tx :: m.pool })
      (fun _ _ => True) := by
    refine .modifyGet fun m holds _ => ?_
    refine ⟨{ holds with pool := ?_ }, fun _ has => has, trivial⟩
    intro other left
    dsimp only at left
    split at left
    · exact holds.pool other left
    · rcases mem_cons.mp left with rfl | old
      · exact member
      · exact holds.pool other old
  refine .bind removed fun _ => .bind added fun _ => ?_
  refine .ite (fun _ => ?_) fun _ => .pure fun _ _ _ => trivial
  refine .bind (limitMempoolSize_contract policy) fun _ => .bind .get fun m => ?_
  exact (refuse_contract _).after fun _ _ _ _ => trivial

def AllPrepared (workspaces : List (CTransaction × PrecomputedTransactionData))
    (m : MemPoolAccept setup) : Prop :=
  ∀ ws ∈ workspaces, Prepared ws.1 m

omit [Inhabited κ] [Crypto] in
theorem allPrepared_stays (workspaces : List (CTransaction × PrecomputedTransactionData))
    (m m' : MemPoolAccept setup) (moved : ∀ o, m.HasCoin o → m'.HasCoin o)
    (all : AllPrepared workspaces m) : AllPrepared workspaces m' :=
  fun ws member => prepared_stays ws.1 m m' moved (all ws member)

theorem packageOrConfirmed_contract (names : TxidsDetermine around)
    (parents : List Uint256) (vin : List CTxIn) :
    Upholds setup around (fun _ => True) (packageOrConfirmed parents vin)
      (fun _ _ => True) := by
  induction vin with
  | nil => exact .pure fun _ _ _ => trivial
  | cons input vin ih =>
    refine .ite (fun _ => ih) fun _ => ?_
    have looked : Upholds setup around (fun _ => True)
        (modifyGet fun m => m.haveCoinOver (m.coinsTip.getCoin input.prevout) input.prevout)
        (fun _ _ => True) := by
      refine .modifyGet fun m holds _ => ?_
      obtain ⟨kept, moved, _⟩ := haveCoinOver_step holds (tip_answers names holds input.prevout)
      exact ⟨kept, moved, trivial⟩
    exact .bind looked fun found => .ite (fun _ => ih) fun _ => .pure fun _ _ _ => trivial

theorem preCheckEach_contract [DecidableEq κ]
    (names : TxidsDetermine around) (policy : Policy setup) (args : ATMPArgs)
    (txns : List CTransaction) (member : ∀ tx ∈ txns, tx ∈ around.txs) :
    Upholds setup around (fun _ => True) (preCheckEach policy args txns)
      (fun refused m => refused = none → ∀ tx ∈ txns, Prepared tx m) := by
  induction txns with
  | nil => exact .pure fun _ _ _ => by simp
  | cons tx txns ih =>
    obtain ⟨here, later⟩ := forall_mem_cons.mp member
    refine .bind (attempt_contract (preChecks_contract names policy args tx)) fun result => ?_
    cases result with
    | error state => exact .pure fun _ _ _ => by simp
    | ok u =>
      have added : Upholds setup around (fun _ => True)
          (packageAddTransaction tx) (fun _ _ => True) := by
        refine .modifyGet fun m holds _ => ?_
        refine ⟨{ holds with tempAdded := ?_ }, fun _ has => has, trivial⟩
        intro o coin found
        rcases or_eq_some_iff.mp found with before | ⟨_, now⟩
        · exact holds.tempAdded o coin before
        · dsimp only at now
          split at now
          next hash =>
            exact unconfirmedCoin_out names here hash.symm now
          · cases now
      refine .bind (assertThat_contract _) fun _ => .assume fun _ => ?_
      refine .bind ((added.frame (prepared_stays tx)).before
        fun _ _ given => ⟨trivial, given.1 u rfl⟩) fun _ => ?_
      refine ((ih later).frame (prepared_stays tx)).after fun refused m _ left passed => ?_
      exact forall_mem_cons.mpr ⟨left.2, left.1 passed⟩

structure Vetted (around : Surroundings) (params : Params)
    (ws : CTransaction × PrecomputedTransactionData) : Prop where
  member : ws.1 ∈ around.txs
  filled : FreshOrFilled around.spentOutput ws.1 ws.2
  pass : ScriptsPass around.spentOutput ws.1 (policyFlags params around.tip)

section

variable [DecidableEq κ] (policy : Policy setup) {args : ATMPArgs}
  (setting : Setting setup around args.params)

include setting

theorem consensusScriptChecks_contract {ws : CTransaction × PrecomputedTransactionData}
    (vetted : Vetted around args.params ws) :
    Contract (acceptance setup around) (Prepared ws.1)
      (consensusScriptChecks args ws.1 ws.2) (fun _ _ => True) (fun e => ∃ f, e = .crash f) := by
  rw [contract_iff]
  intro m holds prepared
  have traced := consensusScriptChecks_traced setting vetted.member vetted.filled vetted.pass
    holds prepared
  generalize consensusScriptChecks args ws.1 ws.2 m = result at traced
  cases traced with
  | found there m' holds' moved pool => exact ⟨holds', moved, trivial⟩
  | missing gone m' holds' moved => exact ⟨holds', moved, _, rfl⟩

theorem acceptSingleTransaction_contract {tx : CTransaction} (member : tx ∈ around.txs) :
    Upholds setup around (fun _ => True)
      (acceptSingleTransaction policy args tx) (fun _ _ => True) := by
  refine .bind (preChecks_contract setting.names policy args tx) fun _ => ?_
  refine .bind .get fun m => ?_
  refine .bind (resultOf_contract _) fun allConflicting => ?_
  refine .bind ((policyScriptChecks_contract setting member).before
    fun _ _ given => given.2.2.2) fun txdata => ?_
  intro m'' holds'' left
  have vetted : Vetted around args.params (tx, txdata) :=
    ⟨member, left.2.1, left.2.2⟩
  have checked := (consensusScriptChecks_contract setting vetted).stopping fun _ _ => trivial
  refine Contract.bind checked (fun _ => ?_) m'' holds'' left.1
  exact .ite (fun _ => .pure fun _ _ _ => trivial)
    fun _ => finalize_contract policy args member allConflicting

variable {workspaces : List (CTransaction × PrecomputedTransactionData)} (txns : List CTransaction)
  (package : List CTransaction)

theorem submitEach_contract
    (vetted : ∀ ws ∈ workspaces, Vetted around args.params ws)
    (blameless : Blameless r) :
    Upholds setup around (AllPrepared workspaces)
      (submitEach policy args workspaces r) (fun r' _ => Blameless r') := by
  induction workspaces generalizing r with
  | nil => exact .pure fun _ _ _ => blameless
  | cons ws workspaces ih =>
    obtain ⟨here, later⟩ := forall_mem_cons.mp vetted
    have checked := (attempt_contract (consensusScriptChecks_contract setting here)).stopping
      fun _ _ => trivial
    have framed := checked.frame (allPrepared_stays workspaces)
    intro m holds all
    obtain ⟨first, rest⟩ := forall_mem_cons.mp all
    refine Contract.bind framed (fun result => ?_) m holds ⟨first, rest⟩
    intro m' holds' given
    have passed : ∃ u, result = .ok u := by
      cases result with
      | ok u => exact ⟨u, rfl⟩
      | error state =>
        obtain ⟨f, impossible⟩ := given.1.2 state rfl
        cases impossible
    have added : Upholds setup around (fun _ => True)
        (attempt (finalize policy args ws.1 [])) (fun _ _ => True) :=
      (attempt_contract (finalize_contract policy args here.member [])).after fun _ _ _ _ => trivial
    have blameless' :
        Blameless (r.note ws.1 (.consensusScriptChecksFailed ws.1.getHash) result) :=
      blameless.note ws.1 (.inr passed)
    refine Contract.bind (limits_contract (fun m _ _ => allPrepared_stays _ m _ fun _ has => has)
      fun m => ⟨_, _, rfl⟩) (fun limits => .bind .get fun m'' => ?_) m' holds' given.2
    refine .bind ((added.frame (allPrepared_stays workspaces)).before
      fun _ _ left => ⟨trivial, left.2.2⟩) fun outcome => ?_
    refine (ih later ?_).before fun _ _ left => left.2
    exact (blameless'.note ws.1 (.inl (by simp))).note ws.1 (.inl (by simp))

theorem policyCheckEach_contract (member : ∀ tx ∈ txns, tx ∈ around.txs) :
    Upholds setup around (fun m => ∀ tx ∈ txns, Prepared tx m)
      (policyCheckEach args txns)
      (fun result m => AllPrepared result.1 m ∧
        ∀ ws ∈ result.1, Vetted around args.params ws) := by
  induction txns with
  | nil => exact .pure fun _ _ _ => by simp [AllPrepared]
  | cons tx txns ih =>
    obtain ⟨here, later⟩ := forall_mem_cons.mp member
    have restStays : ∀ m m' : MemPoolAccept setup,
        (acceptance setup around).follows m m' → (∀ tx ∈ txns, Prepared tx m) →
        ∀ tx ∈ txns, Prepared tx m' :=
      fun m m' moved all tx member => prepared_stays tx m m' moved (all tx member)
    have checked := (attempt_contract (policyScriptChecks_contract setting here)).frame
      restStays
    refine .bind (checked.before fun _ _ all => forall_mem_cons.mp all) fun result => ?_
    cases result with
    | error state => exact .pure fun _ _ _ => by simp [AllPrepared]
    | ok txdata =>
      intro m holds given
      obtain ⟨prepared, filled, pass⟩ := given.1.1 txdata rfl
      have vetted : Vetted around args.params (tx, txdata) :=
        ⟨here, filled, pass⟩
      refine Contract.bind ((ih later).frame (prepared_stays tx)) (fun rest => ?_) m holds
        ⟨given.2, prepared⟩
      refine .pure fun m' _ left => ?_
      exact ⟨forall_mem_cons.mpr ⟨left.2, left.1.1⟩,
        forall_mem_cons.mpr ⟨vetted, left.1.2⟩⟩

theorem submitPackage_contract
    (vetted : ∀ ws ∈ workspaces, Vetted around args.params ws)
    (blameless : Blameless r) :
    Upholds setup around (AllPrepared workspaces)
      (submitPackage policy args workspaces r) (fun r' _ => Blameless r') := by
  refine .bind (noneExists_contract _) fun _ => ?_
  refine .bind (submitEach_contract policy setting vetted blameless) fun r' => ?_
  refine .bind (limitMempoolSize_contract policy) fun _ => .bind .get fun m' => ?_
  refine .pure fun _ _ left => ?_
  exact Blameless.foldl _ (fun r ws fine => fine.emplace _ _) workspaces left.2.2

theorem acceptMultipleTransactions_contract (member : ∀ tx ∈ txns, tx ∈ around.txs) :
    Upholds setup around (fun _ => True)
      (acceptMultipleTransactions policy args txns) (fun r _ => Blameless r) := by
  have failing : ∀ r tx state, Blameless r → Blameless (transactionFailed r tx state) := by
    intro r tx state blameless hash blamed
    rcases mem_append.mp blamed with before | now
    · exact blameless hash before
    · cases mem_singleton.mp now
  have empty : Blameless ⟨[], []⟩ := fun _ blamed => by cases blamed
  unfold acceptMultipleTransactions
  split
  · exact .pure fun _ _ _ hash blamed => by simp at blamed
  refine .bind (preCheckEach_contract setting.names policy args txns member) fun refused => ?_
  cases refused with
  | some refusal => exact .pure fun _ _ _ => failing _ _ _ empty
  | none =>
    refine .bind .get fun m => .assume fun _ => ?_
    refine .ite (fun _ => .pure fun _ _ _ hash blamed => by simp at blamed) fun _ => ?_
    have limited : Upholds setup around (fun m => ∀ tx ∈ txns, Prepared tx m)
        (if txns.length > 1 then packageMempoolChecks policy txns else pure true)
        (fun _ m => ∀ tx ∈ txns, Prepared tx m) :=
      .ite (fun _ => packageMempoolChecks_contract policy txns fun m _ _ all tx member =>
        prepared_stays tx m _ (fun _ has => has) (all tx member)) fun _ => .pure fun _ _ all => all
    refine .bind (limited.before fun _ _ given => given.2 rfl) fun within => ?_
    refine .ite (fun _ => .pure fun _ _ _ hash blamed => by simp at blamed) fun _ => ?_
    refine .bind (policyCheckEach_contract setting txns member) fun result => ?_
    obtain ⟨workspaces, refused⟩ := result
    have passed : Blameless ((if args.testAccept then workspaces else []).foldl
        (fun r ws => r.emplace ws.1.getWitnessHash .success) ⟨[], []⟩) :=
      Blameless.foldl _ (fun r ws fine => fine.emplace _ _) _ empty
    cases refused with
    | some refusal => exact .pure fun _ _ _ => failing _ _ _ passed
    | none =>
      refine .ite (fun _ => .pure fun _ _ _ => passed) fun _ => ?_
      intro m' holds' given
      exact submitPackage_contract policy setting given.2
        passed m' holds' given.1

theorem acceptEach_contract (member : ∀ tx ∈ package, tx ∈ around.txs)
    {acc : PackageMempoolAcceptResult × Bool × List CTransaction} (blameless : Blameless acc.1)
    (new : ∀ tx ∈ acc.2.2, tx ∈ around.txs) :
    Upholds setup around (fun _ => True)
      (acceptEach policy args package acc)
      (fun acc' _ => Blameless acc'.1 ∧ ∀ tx ∈ acc'.2.2, tx ∈ around.txs) := by
  induction package generalizing acc with
  | nil => exact .pure fun _ _ _ => ⟨blameless, new⟩
  | cons tx package ih =>
    obtain ⟨here, later⟩ := forall_mem_cons.mp member
    obtain ⟨r, quitEarly, txnsNew⟩ := acc
    have go : ∀ {r quitEarly txnsNew} {pre : MemPoolAccept setup → Prop}, Blameless r →
        (∀ tx ∈ txnsNew, tx ∈ around.txs) → Upholds setup around pre
          (acceptEach policy args package (r, quitEarly, txnsNew))
          (fun acc' _ => Blameless acc'.1 ∧ ∀ tx ∈ acc'.2.2, tx ∈ around.txs) :=
      fun fine known => (ih later fine known).before fun _ _ _ => trivial
    refine .bind .get fun m => ?_
    refine .ite (fun _ => ?_) fun _ => ?_
    · exact .bind (assertThat_contract _) fun _ => go (blameless.emplace _ _) new
    · split
      · exact go (blameless.emplace _ _) new
      · refine .bind ((attempt_contract (@acceptSingleTransaction_contract _ _ _ _ _ _ policy
          args.singleInPackageAccept setting _ here)).before fun _ _ _ => trivial)
          fun single => .bind .get fun m' => ?_
        cases single with
        | ok u =>
          exact .bind (assertThat_contract _) fun _ => go (blameless.emplace _ _) new
        | error state =>
          refine .ite (fun _ => go blameless ?_) fun _ => go blameless new
          intro other listed
          rcases mem_append.mp listed with old | last
          · exact new other old
          · rw [mem_singleton.mp last]
            exact here

theorem acceptPackage_contract (member : ∀ tx ∈ package, tx ∈ around.txs) :
    Upholds setup around (fun _ => True)
      (acceptPackage policy args package) (fun r _ => Blameless r) := by
  unfold acceptPackage
  split
  · exact .pure fun _ _ _ hash blamed => by simp at blamed
  refine .ite (fun _ => .pure fun _ _ _ hash blamed => by simp at blamed) fun _ => ?_
  refine .bind (assertThat_contract _) fun _ => .assume fun _ => ?_
  refine .bind (packageOrConfirmed_contract setting.names _ _) fun complete => ?_
  refine .ite (fun _ => .pure fun _ _ _ hash blamed => by simp at blamed) fun _ => ?_
  refine .bind (acceptEach_contract policy setting package
    member (fun _ blamed => by cases blamed) (by simp)) fun acc => ?_
  obtain ⟨r, quitEarly, txnsNew⟩ := acc
  refine .ite (fun _ => .pure fun _ _ given => given.1) fun _ => ?_
  intro m holds given
  refine Contract.bind (acceptMultipleTransactions_contract policy setting txnsNew given.2)
    (fun submitted => ?_) m holds trivial
  exact .pure fun _ _ fine => Blameless.foldl _ (fun r e ok => ok.emplace _ _) _ fine

end

structure Sourced (pool : List CTransaction) (m : MemPoolAccept setup) : Prop where
  pool : m.pool = pool
  tempAdded : ∀ o, m.tempAdded o = none
  available : ∀ o, m.HasCoin o → m.Available o

variable {pool : List CTransaction}

theorem Sourced.load {m : MemPoolAccept setup} (sourced : Sourced pool m)
    (holds : m.Consistent around) (names : TxidsDetermine around)
    (o : COutPoint) :
    Sourced pool (m.haveCoinOver (m.getCoin o) o).2 := by
  obtain ⟨kept, _, _⟩ := haveCoinOver_step holds (getCoin_answers names holds o)
  have same : ∀ p, (m.haveCoinOver (m.getCoin o) o).2.Available p ↔ m.Available p := by
    intro p
    rw [MemPoolAccept.Available, MemPoolAccept.Available, kept.shown, holds.shown]
    rfl
  refine ⟨sourced.pool, sourced.tempAdded, ?_⟩
  intro p has
  rw [same]
  rcases haveCoinOver_cases m (m.getCoin o) o with
    ⟨entry, cached, result⟩ | ⟨missing, result⟩ | ⟨coin, missing, found, result⟩
  · rw [result] at has
    exact sourced.available p has
  · rw [result] at has
    exact sourced.available p has
  · rw [result] at has
    obtain ⟨entry, lookup, live⟩ := has
    by_cases here : p = o
    · subst here
      unfold MemPoolAccept.getCoin at found
      rw [sourced.tempAdded p] at found
      cases pooled : getTx m.pool p.hash with
      | some ptx => exact .inl (by rw [pooled]; rfl)
      | none =>
        rw [pooled] at found
        rw [(getCoin_shown holds.sound p).1] at found
        exact .inr (by rw [found]; rfl)
    · exact sourced.available p ⟨entry, (AList.lookup_insert_ne here).symm.trans lookup, live⟩

theorem loading_sourced (names : TxidsDetermine around) :
    LoadingKeeps around (@Sourced _ _ setup pool) where
  lookup m o holds sourced := sourced.load holds names o
  best m holds sourced := by
    refine ⟨sourced.pool, sourced.tempAdded, ?_⟩
    intro o has
    rw [MemPoolAccept.Available, (getBestBlock_shown holds.sound).2]
    exact sourced.available o has
  limits m _ _ sourced := ⟨sourced.pool, sourced.tempAdded, sourced.available⟩

end

namespace Evicted

open Sample hiding start

local instance : Crypto := Crypto.firstBytes

def grandparent : CTransaction := spending 1 ⟨.uint256S 8, 0⟩

def cheapParent : CTransaction := spending 2 ⟨grandparent.getHash, 0⟩
def otherParent : CTransaction := spending 3 confirmed
def child : CTransaction := spending 4 ⟨cheapParent.getHash, 0⟩

/-- Single fee rates are too low for the first parent, and the mempool has no room for its own
parent once another transaction is added. -/
def policy : Policy setup :=
  { acceptingAll with
    late := fun args _ tx =>
      if args.packageFeerates = false ∧ tx = cheapParent then
        some ⟨.mempoolPolicy, "mempool min fee not met"⟩
      else none
    stays := fun _ tx => tx ≠ grandparent }

def start : MemPoolAccept setup := Sample.start [grandparent]

def args : ATMPArgs := .packageChildWithParents regTestParams

/-- Whether the run ends in an assertion, and in its last state the first parent passes
`PolicyScriptChecks` and then the same assertion fails in `ConsensusScriptChecks`. -/
def aborts : Bool :=
  match acceptPackage policy args [cheapParent, otherParent, child] start with
  | .error (.crash .assertion) last =>
    match policyScriptChecks args cheapParent last with
    | .ok txdata checked =>
      match consensusScriptChecks args cheapParent txdata checked with
      | .error (.crash .assertion) _ => true
      | _ => false
    | _ => false
  | _ => false

def transactions : Set CTransaction := { grandparent, cheapParent, otherParent, child }

def around : Surroundings :=
  ⟨start.tip, base.coins, [], fun _ => replicate 4 ⟨0, [0x51]⟩, transactions⟩

theorem transactions_distinct : Set.InjOn CTransaction.getWitnessHash transactions := by
  have hashes : ∀ tx ∈ [grandparent, cheapParent, otherParent, child],
      ∀ tx' ∈ [grandparent, cheapParent, otherParent, child],
        tx.getWitnessHash = tx'.getWitnessHash → tx = tx' := by decide +kernel
  intro tx member tx' member' same
  exact hashes tx (by simpa [transactions] using member) tx' (by simpa [transactions] using member')
    same

theorem outputs_named : TxidsDetermine around := by
  constructor
  · rintro tx (rfl | rfl | rfl | rfl) <;> rfl
  · intro o coin found
    simp only [around, base] at found
    split at found
    next here =>
      subst here
      cases found
      rfl
    · cases found

theorem start_consistent : start.Consistent around where
  tip := rfl
  bugs := rfl
  pool := by
    intro tx member
    rw [mem_singleton.mp member]
    exact .inl rfl
  sound := by
    refine ⟨?_, trivial⟩
    intro o entry found
    cases found
  shown := by
    funext o
    rfl
  tempAdded := by rintro o coin ⟨⟩
  view := by rintro o entry ⟨⟩
  caches := sound_fresh

def passes : Bool :=
  match preChecks policy args otherParent start with
  | .ok _ loaded =>
    match policyScriptChecks args otherParent loaded with
    | .ok _ checked => checked.pool = start.pool
    | _ => false
  | _ => false

end Evicted

end Qogecoin.Validation
