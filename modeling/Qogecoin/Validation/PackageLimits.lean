import Qogecoin.Library.Contracts
import Qogecoin.Validation.MemPoolAccept

/-! The limits that `MemPoolAccept` puts on the ancestors and descendants of what it evaluates. They
are members of the object, and `PreChecks` raises them for a transaction that replaces a single
one. -/
namespace Qogecoin.Validation

open Codec Commands Consensus Coins Script List Limits
open EStateM (Contract Discipline contract_iff)

namespace PackageLimits

/-- Calls with the limits as they stand before and after them, for a transaction at a time. -/
inductive Traced : Limits → List Call → Limits → Prop
  | nil (limits : Limits) : Traced limits [] limits
  | preChecks {limits limits' : Limits} {calls : List Call} (conflict : Option UInt64)
      (rest : Traced (limits.allow conflict) calls limits') :
      Traced limits (⟨.preChecks conflict, limits.allow conflict⟩ :: calls) limits'
  | carveOut {limits limits' : Limits} {calls : List Call} (conflict : Option UInt64)
      (rest : Traced (limits.allow conflict) calls limits') :
      Traced limits (⟨.preChecks conflict, limits.allow conflict⟩ ::
        ⟨.carveOut conflict, (limits.allow conflict).carveOut⟩ :: calls) limits'
  | package {limits limits' : Limits} {calls : List Call} {use : Use}
      (kind : use = .packageMempoolChecks ∨ use = .submitPackage)
      (rest : Traced limits calls limits') : Traced limits (⟨use, limits⟩ :: calls) limits'

theorem Traced.append {limits limits' limits'' : Limits} {calls calls' : List Call}
    (first : Traced limits calls limits') (second : Traced limits' calls' limits'') :
    Traced limits (calls ++ calls') limits'' := by
  induction first with
  | nil _ => exact second
  | preChecks conflict _ ih => exact .preChecks conflict (ih second)
  | carveOut conflict _ ih => exact .carveOut conflict (ih second)
  | package kind _ ih => exact .package kind (ih second)

section

variable {κ : Type} {setup : CacheSetup κ}

/-- All that a program does with the limits is to make such calls. -/
def tracing (setup : CacheSetup κ) : Discipline (MemPoolAccept setup) where
  invariant _ := True
  follows m m' := ∃ calls, m'.calls = m.calls ++ calls ∧ Traced m.limits calls m'.limits
  refl m := ⟨[], (append_nil _).symm, .nil _⟩
  trans := by
    rintro r s t ⟨calls, eq, traced⟩ ⟨calls', eq', traced'⟩
    exact ⟨calls ++ calls', by rw [eq', eq, append_assoc], traced.append traced'⟩

def Traces {α : Type} (x : AcceptM setup α) : Prop :=
  Contract (tracing setup) (fun _ => True) x (fun _ _ => True) fun _ => True

def callsOf {α : Type} (x : AcceptM setup α) (m : MemPoolAccept setup) (configured : Limits) :
    List Call :=
  match x { m with limits := configured, calls := [] } with
  | .ok _ m => m.calls
  | .error _ m => m.calls

theorem traced_callsOf {α : Type} {x : AcceptM setup α} (traces : Traces x)
    (m : MemPoolAccept setup) (configured : Limits) :
    ∃ limits, Traced configured (callsOf x m configured) limits := by
  have ends := contract_iff.mp traces { m with limits := configured, calls := [] } trivial trivial
  unfold callsOf
  generalize x { m with limits := configured, calls := [] } = result at ends ⊢
  cases result with
  | ok a m | error e m =>
    obtain ⟨_, ⟨calls, same, traced⟩, _⟩ := ends
    rw [nil_append] at same
    rw [← same] at traced
    exact ⟨m.limits, traced⟩

namespace Traces

variable {α β : Type}

protected theorem pure (a : α) : Traces (pure a : AcceptM setup α) :=
  Contract.pure fun _ _ _ => trivial

protected theorem throw (e : Halt) : Traces (.throw e : AcceptM setup α) :=
  Contract.throw trivial

protected theorem bind {x : AcceptM setup α} {f : α → AcceptM setup β} (head : Traces x)
    (rest : ∀ a, Traces (f a)) : Traces (x >>= f) :=
  Contract.bind head rest

protected theorem ite {c : Prop} [Decidable c] {x y : AcceptM setup α} (yes : Traces x)
    (no : Traces y) : Traces (if c then x else y) :=
  Contract.ite (fun _ => yes) fun _ => no

/-- A step that uses no limits and leaves them. -/
protected theorem leave {x : AcceptM setup α}
    (same : ∀ m, (stateOf (x m)).limits = m.limits ∧ (stateOf (x m)).calls = m.calls) :
    Traces x := by
  rw [Traces, contract_iff]
  intro m _ _
  have left := same m
  have follows : (tracing setup).follows m (stateOf (x m)) :=
    ⟨[], by rw [left.2, append_nil], by rw [left.1]; exact .nil _⟩
  cases ran : x m with
  | ok a m' | error e m' =>
    rw [ran] at follows
    exact ⟨trivial, follows, trivial⟩

protected theorem get : Traces (get : AcceptM setup (MemPoolAccept setup)) :=
  .leave fun _ => ⟨rfl, rfl⟩

protected theorem refuse (state : Option TxInvalid) : Traces (refuse state : AcceptM setup Unit) := by
  cases state with
  | none => exact .pure ()
  | some state => exact .throw _

protected theorem resultOf (result : Result Crash TxInvalid α) :
    Traces (resultOf result : AcceptM setup α) := by
  cases result with
  | returned a => exact .pure a
  | rejected | crashed => exact .throw _

protected theorem assertThat (p : Prop) [Decidable p] : Traces (assertThat p : AcceptM setup Unit) :=
  .ite (.pure ()) (.throw _)

protected theorem attempt {x : AcceptM setup α} (traces : Traces x) : Traces (attempt x) := by
  rw [Traces, contract_iff] at traces ⊢
  intro m _ _
  have ends := traces m trivial trivial
  unfold attempt
  generalize x m = result at ends ⊢
  cases result with
  | ok a m' => exact ends
  | error e m' =>
    cases e with
    | invalid state | crash f => exact ends

end Traces

theorem traces_useLimits {use : Use} (kind : use = .packageMempoolChecks ∨ use = .submitPackage) :
    Traces (useLimits use : AcceptM setup Limits) :=
  Contract.modifyGet fun _ _ _ => ⟨trivial, ⟨_, rfl, .package kind (.nil _)⟩, trivial⟩

theorem traces_readBestBlock : Traces (readBestBlock : AcceptM setup Unit) := by
  refine .leave fun m => ?_
  show (MemPoolAccept.limits (ite _ _ _)) = _ ∧ (MemPoolAccept.calls (ite _ _ _)) = _
  split
  · exact ⟨rfl, rfl⟩
  · exact ⟨rfl, rfl⟩

theorem traces_packageOrConfirmed (parents : List Uint256) (vin : List CTxIn) :
    Traces (packageOrConfirmed parents vin : AcceptM setup Bool) := by
  induction vin with
  | nil => exact .pure true
  | cons input vin ih =>
    exact .ite ih (.bind (.leave fun _ => ⟨rfl, rfl⟩) fun found => .ite ih (.pure false))

theorem traces_callWithin (policy : Policy setup) (tx : CTransaction) (conflict : Option UInt64) :
    Traces (callWithin policy tx conflict) := by
  apply Contract.modifyGet
  intro m _ _
  refine ⟨trivial, ⟨_, rfl, ?_⟩, trivial⟩
  split
  · exact .carveOut conflict (.nil _)
  · exact .preChecks conflict (.nil _)

variable [Crypto]

theorem traces_loadInputs (tx : CTransaction) (vin : List CTxIn) :
    Traces (loadInputs tx vin : AcceptM setup Unit) := by
  induction vin with
  | nil => exact .pure ()
  | cons txin vin ih =>
    refine .bind (.leave fun _ => ⟨rfl, rfl⟩) fun found => .ite ih ?_
    exact .bind .get fun m => .ite (.throw _) (.throw _)

theorem traces_checkOrigins (vin : List CTxIn) :
    Traces (checkOrigins vin : AcceptM setup Unit) := by
  induction vin with
  | nil => exact .pure ()
  | cons txin vin ih =>
    refine .bind (.bind (.leave fun _ => ⟨rfl, rfl⟩) fun coin => .ite (.throw _) ?_) fun _ => ih
    refine .bind .get fun m => ?_
    split
    · exact .bind (.assertThat _) fun _ => .bind (.assertThat _) fun _ => .assertThat _
    · refine .bind (.leave fun _ => ⟨rfl, rfl⟩) fun _ => ?_
      exact .bind (.assertThat _) fun _ => .assertThat _

theorem traces_noneExists (txns : List CTransaction) :
    Traces (noneExists txns : AcceptM setup Unit) :=
  .bind .get fun _ => .assertThat _

variable (policy : Policy setup) (args : ATMPArgs) (tx : CTransaction)

theorem traces_singleConflict (conflicts : List Uint256) :
    Traces (singleConflict policy conflicts) := by
  unfold singleConflict
  split
  · refine .bind .get fun m => ?_
    split
    · exact .throw _
    · exact .pure _
  · exact .pure _

theorem traces_packageMempoolChecks (txns : List CTransaction) :
    Traces (packageMempoolChecks policy txns) :=
  .bind (traces_noneExists txns) fun _ => .bind (traces_useLimits (.inl rfl)) fun _ =>
    .bind .get fun _ => .pure _

theorem traces_finalize (allConflicting : List Uint256) :
    Traces (finalize policy args tx allConflicting) := by
  refine .bind (.leave fun _ => ⟨rfl, rfl⟩) fun _ => .bind (.leave fun _ => ⟨rfl, rfl⟩) fun _ => ?_
  refine .ite (.bind (.leave fun _ => ⟨rfl, rfl⟩) fun _ => ?_) (.pure ())
  exact .bind .get fun _ => .refuse _

theorem traces_preChecks : Traces (preChecks policy args tx) := by
  refine .bind (.resultOf _) fun _ => .bind (.refuse _) fun _ => .bind .get fun m => ?_
  refine .bind (.refuse _) fun _ => .bind (.refuse _) fun _ => .bind (.refuse _) fun _ => ?_
  refine .bind (.resultOf _) fun conflicts => .bind (traces_loadInputs tx tx.vin) fun _ => ?_
  refine .bind traces_readBestBlock fun _ => .bind .get fun m => .bind (.assertThat _) fun _ => ?_
  refine .bind (.refuse _) fun _ => .bind (traces_singleConflict policy conflicts) fun conflict => ?_
  refine .bind (traces_callWithin policy tx conflict) fun within => .bind (.refuse _) fun _ => ?_
  exact .bind .get fun m => .bind (.refuse _) fun _ => .pure _

theorem traces_preCheckEach (txns : List CTransaction) :
    Traces (preCheckEach policy args txns) := by
  induction txns with
  | nil => exact .pure none
  | cons tx txns ih =>
    refine .bind (traces_preChecks policy args tx).attempt fun checked => ?_
    cases checked with
    | error _ => exact .pure _
    | ok _ => exact .bind (.assertThat _) fun _ => .bind (.leave fun _ => ⟨rfl, rfl⟩) fun _ => ih

variable [DecidableEq κ]

theorem traces_checkScripts (flags : Flags) (cacheFullScriptStore : Bool)
    (txdata : PrecomputedTransactionData) :
    Traces (checkScripts tx flags cacheFullScriptStore txdata :
      AcceptM setup (Option TxInvalid × PrecomputedTransactionData)) := by
  refine .leave fun m => ?_
  unfold checkScripts
  split <;> exact ⟨rfl, rfl⟩

theorem traces_policyScriptChecks :
    Traces (policyScriptChecks args tx : AcceptM setup PrecomputedTransactionData) := by
  refine .bind .get fun m => .bind (traces_checkScripts tx _ _ _) fun checked => ?_
  split
  · exact .pure _
  · refine .bind (.ite (.pure _) ?_) fun _ => .throw _
    refine .bind (traces_checkScripts tx _ _ _) fun without => .ite (.pure _) ?_
    exact .bind (traces_checkScripts tx _ _ _) fun _ => .pure _

theorem traces_consensusScriptChecks (txdata : PrecomputedTransactionData) :
    Traces (consensusScriptChecks args tx txdata : AcceptM setup Unit) := by
  have checks : ∀ flags, Traces (checkInputsFromMempoolAndCache tx flags txdata :
      AcceptM setup Unit) := fun flags =>
    .bind (.assertThat _) fun _ => .bind (traces_checkOrigins _) fun _ =>
      .bind (traces_checkScripts tx _ _ _) fun _ => .refuse _
  rw [Traces, contract_iff]
  intro m _ _
  have ends := contract_iff.mp
    (checks (getBlockScriptFlags args.params m.tip.getBlockHash m.tip)) m trivial trivial
  unfold consensusScriptChecks
  generalize checkInputsFromMempoolAndCache tx _ txdata m = result at ends ⊢
  cases result with
  | ok a m' => exact ends
  | error e m' =>
    cases e with
    | invalid state | crash f => exact ends

theorem traces_acceptSingleTransaction : Traces (acceptSingleTransaction policy args tx) := by
  refine .bind (traces_preChecks policy args tx) fun conflicts => .bind .get fun m => ?_
  refine .bind (.resultOf _) fun _ => .bind (traces_policyScriptChecks args tx) fun txdata => ?_
  exact .bind (traces_consensusScriptChecks args tx txdata) fun _ =>
    .ite (.pure ()) (traces_finalize policy args tx _)

theorem traces_policyCheckEach (txns : List CTransaction) :
    Traces (policyCheckEach args txns : AcceptM setup _) := by
  induction txns with
  | nil => exact .pure _
  | cons tx txns ih =>
    refine .bind (traces_policyScriptChecks args tx).attempt fun checked => ?_
    cases checked with
    | error _ => exact .pure _
    | ok _ => exact .bind ih fun _ => .pure _

theorem traces_submitEach (workspaces : List (CTransaction × PrecomputedTransactionData))
    (r : PackageMempoolAcceptResult) : Traces (submitEach policy args workspaces r) := by
  induction workspaces generalizing r with
  | nil => exact .pure r
  | cons ws workspaces ih =>
    refine .bind (traces_consensusScriptChecks args ws.1 ws.2).attempt fun checked => ?_
    refine .bind (traces_useLimits (.inr rfl)) fun limits => .bind .get fun m => ?_
    exact .bind (traces_finalize policy args ws.1 []).attempt fun added => ih _

theorem traces_acceptMultipleTransactions (txns : List CTransaction) :
    Traces (acceptMultipleTransactions policy args txns) := by
  unfold acceptMultipleTransactions
  split
  · exact .pure _
  refine .bind (traces_preCheckEach policy args txns) fun refused => ?_
  split
  · exact .pure _
  refine .bind .get fun m => .ite (.pure _) (.bind ?_ fun within => .ite (.pure _) ?_)
  · exact .ite (traces_packageMempoolChecks policy txns) (.pure true)
  · refine .bind (traces_policyCheckEach args txns) fun checked => ?_
    dsimp only
    split
    · exact .pure _
    · refine .ite (.pure _) (.bind (traces_noneExists _) fun _ => ?_)
      refine .bind (traces_submitEach policy args _ _) fun r => ?_
      exact .bind (.leave fun _ => ⟨rfl, rfl⟩) fun _ => .bind .get fun m => .pure _

variable (package : List CTransaction)

theorem traces_acceptEach (acc : PackageMempoolAcceptResult × Bool × List CTransaction) :
    Traces (acceptEach policy args package acc) := by
  induction package generalizing acc with
  | nil => exact .pure _
  | cons tx package ih =>
    refine .bind .get fun m => .ite (.bind (.assertThat _) fun _ => ih _) ?_
    split
    · exact ih _
    · refine .bind (traces_acceptSingleTransaction policy args.singleInPackageAccept tx).attempt
        fun single => .bind .get fun m => ?_
      cases single with
      | ok _ => exact .bind (.assertThat _) fun _ => ih _
      | error state => exact .ite (ih _) (ih _)

theorem traces_acceptPackage : Traces (acceptPackage policy args package) := by
  unfold acceptPackage
  split
  · exact .pure _
  refine .ite (.pure _) (.bind (.assertThat _) fun _ => ?_)
  refine .bind (traces_packageOrConfirmed _ _) fun complete => .ite (.pure _) ?_
  refine .bind (traces_acceptEach policy args package _) fun found => .ite (.pure _) ?_
  exact .bind (traces_acceptMultipleTransactions policy args _) fun submitted => .pure _

theorem traces_processNewPackage (params : Params) (testAccept : Bool) :
    Traces (processNewPackage policy params package testAccept) :=
  .bind (.assertThat _) fun _ => .ite (traces_acceptMultipleTransactions policy _ package)
    (traces_acceptPackage policy _ package)

end

/-- The configured limits, raised for the only direct conflict of the transaction itself. -/
def expected (configured : Limits) : Use → Limits
  | .preChecks conflict => configured.allow conflict
  | .carveOut conflict => (configured.allow conflict).carveOut
  | .packageMempoolChecks => configured
  | .submitPackage => configured

def AsConfigured (configured : Limits) (calls : List Call) : Prop :=
  ∀ call ∈ calls, call.limits = expected configured call.use

/-- A transaction for which the limits are raised is the last one that is evaluated. -/
def RaisedLast : List Call → Prop
  | [] => True
  | ⟨.preChecks (some size), _⟩ :: calls => ∀ call ∈ calls, call.use = .carveOut (some size)
  | _ :: calls => RaisedLast calls

section

variable {configured limits limits' : Limits} {calls : List Call}

theorem descendants_of_allow {conflict : Option UInt64}
    (same : limits.allow conflict = configured.allow conflict) :
    limits.descendants = configured.descendants := by
  cases conflict with
  | none => exact congrArg Limits.descendants same
  | some size => exact (UInt64.add_left_inj 1).mp (congrArg Limits.descendants same)

theorem Traced.eq_nil_of_raised (traced : Traced limits calls limits')
    (raised : limits.descendants = configured.descendants + 1)
    (expected : AsConfigured configured calls) : calls = [] := by
  have differs : ¬limits.descendants = configured.descendants := by
    rw [raised]
    intro same
    cases UInt64.add_eq_left.mp same
  cases traced with
  | nil => rfl
  | preChecks | carveOut =>
    exact absurd (descendants_of_allow (expected _ mem_cons_self)) differs
  | package kind rest =>
    have same := expected _ mem_cons_self
    rcases kind with rfl | rfl <;> exact absurd (congrArg Limits.descendants same) differs

theorem Traced.eq_nil_of_carveOuts (traced : Traced limits calls limits') {conflict : Option UInt64}
    (carved : ∀ call ∈ calls, call.use = .carveOut conflict) : calls = [] := by
  cases traced with
  | nil => rfl
  | preChecks | carveOut => cases carved _ mem_cons_self
  | package kind _ =>
    have use := carved _ mem_cons_self
    rcases kind with rfl | rfl <;> cases use

theorem asConfigured_cons {call : Call} (here : call.limits = expected configured call.use) :
    AsConfigured configured (call :: calls) ↔ AsConfigured configured calls := by
  rw [AsConfigured, forall_mem_cons]
  exact and_iff_right here

theorem Traced.asConfigured_iff (traced : Traced limits calls limits')
    (start : limits = configured) :
    AsConfigured configured calls ↔ RaisedLast calls := by
  induction traced with
  | nil _ => exact ⟨fun _ => trivial, fun _ _ none => by cases none⟩
  | preChecks conflict rest ih =>
    rw [asConfigured_cons (by rw [start]; rfl)]
    cases conflict with
    | none => exact ih start
    | some size =>
      constructor
      · intro expected
        rw [rest.eq_nil_of_raised (by rw [start]; rfl) expected]
        intro call none
        cases none
      · intro last
        rw [rest.eq_nil_of_carveOuts last]
        intro call none
        cases none
  | carveOut conflict rest ih =>
    rw [asConfigured_cons (by rw [start]; rfl), asConfigured_cons (by rw [start]; rfl)]
    cases conflict with
    | none => exact ih start
    | some size =>
      constructor
      · intro expected
        rw [rest.eq_nil_of_raised (by rw [start]; rfl) expected]
        intro call only
        rw [mem_singleton.mp only]
      · intro last
        rw [rest.eq_nil_of_carveOuts fun call inside => last call (mem_cons_of_mem _ inside)]
        intro call none
        cases none
  | package kind rest ih =>
    rcases kind with rfl | rfl <;> exact (asConfigured_cons start).trans (ih start)

end

/-- In the evaluation of a package, all limits are as configured, up to the allowance for the
transaction at hand, if and only if no transaction is evaluated after one that replaces a single
other one. -/
theorem limits_as_configured_iff [Crypto] {κ : Type} [DecidableEq κ] {setup : CacheSetup κ}
    (policy : Policy setup) (params : Params) (package : List CTransaction) (testAccept : Bool)
    (m : MemPoolAccept setup) (configured : Limits) :
    AsConfigured configured
        (callsOf (processNewPackage policy params package testAccept) m configured) ↔
      RaisedLast (callsOf (processNewPackage policy params package testAccept) m configured) := by
  obtain ⟨limits, traced⟩ :=
    traced_callsOf (traces_processNewPackage policy package params testAccept) m configured
  exact traced.asConfigured_iff rfl

end PackageLimits

namespace Sample

local instance : Crypto := Crypto.firstBytes

def spending (version : Int32) (prevout : COutPoint) : CTransaction :=
  ⟨version, [⟨prevout, [], 0, []⟩], replicate 4 ⟨0, [0x51]⟩, 0⟩

def confirmed : COutPoint := ⟨.uint256S 7, 0⟩

def setup : CacheSetup (Option Bytes) := sampleSetup some

def base : BaseView where
  coins o := if o = confirmed then some ⟨⟨0, [0x51]⟩, false, 0⟩ else none
  unspent := by
    intro o c found
    split at found
    · cases found
      rfl
    · cases found
  hashBlock := .uint256S 9

def defaultLimits : Limits := ⟨25, 101000, 25, 101000⟩

def start (pool : List CTransaction) : MemPoolAccept setup where
  pool
  tip := [⟨.uint256S 9, 1, 0, 0x207fffff⟩]
  coinsTip := ⟨⟨.uint256S 9, ∅⟩, [], base⟩
  tempAdded _ := none
  view := ⟨.null, ∅⟩
  caches := .fresh setup
  limits := defaultLimits
  calls := []
  bugs := []

def acceptingAll : Policy setup where
  early _ _ := none
  late _ _ _ := none
  sizeWithDescendants _ _ := 200
  vsize _ _ := 200
  calculateMemPoolAncestors _ _ _ := true
  disjoint _ _ _ := true
  replacement _ _ conflicts := .ok conflicts
  checkPackage _ := none
  isChildWithParents _ := true
  packageFeeRate _ _ := true
  checkPackageLimits _ _ _ := true
  stays _ _ := true
  noSpendsRemaining _ := []

/-- The parent replaces a transaction of the mempool; its child replaces nothing, and is evaluated
with the limits that were raised for the parent. -/
theorem child_evaluated_within_raised_limits :
    let parent := spending 2 confirmed
    let calls := PackageLimits.callsOf (processNewPackage acceptingAll regTestParams
      [parent, spending 3 ⟨parent.getHash, 0⟩] false) (start [spending 1 confirmed]) defaultLimits
    calls = [⟨.preChecks (some 200), ⟨25, 101000, 26, 101200⟩⟩,
        ⟨.preChecks none, ⟨25, 101000, 26, 101200⟩⟩] ∧
      ¬PackageLimits.AsConfigured defaultLimits calls := by
  intro parent calls
  have made : calls = [⟨.preChecks (some 200), ⟨25, 101000, 26, 101200⟩⟩,
      ⟨.preChecks none, ⟨25, 101000, 26, 101200⟩⟩] := by decide +kernel
  refine ⟨made, ?_⟩
  rw [made]
  intro expected
  have same := expected ⟨.preChecks none, ⟨25, 101000, 26, 101200⟩⟩ (by simp)
  revert same
  decide

end Sample

end Qogecoin.Validation
