import Qogecoin.Validation.CachedConnect

/-! `MemPoolAccept`: the coins of a transaction are looked up, its scripts are checked with the flags
of policy and once more with those of the tip, and it is added to the mempool. The limits on its
ancestors and descendants are followed; what else decides about it (standardness, locks, fees and
replacement) is left open. -/
namespace Qogecoin.Validation

open Codec Commands Coins Consensus Script

section

variable {κ : Type} [Crypto] (setup : CacheSetup κ)

def getTx (mapTx : List CTransaction) (hash : Uint256) : Option CTransaction :=
  mapTx.find? fun tx => tx.getHash = hash

def mempoolHeight : BitVec 31 := 0x7fffffff

def dummyView : BaseView := View.emptyBase

structure Limits where
  ancestors : UInt64
  ancestorSize : UInt64
  descendants : UInt64
  descendantSize : UInt64
deriving DecidableEq, Repr

def Limits.allow (limits : Limits) : Option UInt64 → Limits
  | none => limits
  | some size => { limits with
      descendants := limits.descendants + 1
      descendantSize := limits.descendantSize + size }

def extraDescendantTxSizeLimit : Nat := 10000

def Limits.carveOut (limits : Limits) : Limits := { limits with
  ancestors := 2
  descendants := limits.descendants + 1
  descendantSize := limits.descendantSize + UInt64.ofNat extraDescendantTxSizeLimit }

/-- Where limits are used. In `PreChecks`, with the size of the single direct conflict of the
transaction and its descendants, if it has one. -/
inductive Limits.Use where
  | preChecks (conflict : Option UInt64)
  | carveOut (conflict : Option UInt64)
  | packageMempoolChecks
  | submitPackage
deriving DecidableEq, Repr

structure Limits.Call where
  use : Use
  limits : Limits
deriving DecidableEq, Repr

/-- The object with what it refers to: the mempool, the active chain with its coins, and the
caches. `calls` are the uses of the limits, `bugs` the transactions for which the log asks for a
report. -/
structure MemPoolAccept where
  pool : List CTransaction
  tip : Chain
  coinsTip : View
  tempAdded : COutPoint → Option Coin
  view : CCoinsViewCache
  caches : NodeCaches setup
  limits : Limits
  calls : List Limits.Call
  bugs : List Uint256

inductive Halt where
  | invalid (state : Option TxInvalid)
  | crash (f : Crash)
deriving DecidableEq

abbrev AcceptM := EStateM Halt (MemPoolAccept setup)

variable {setup}

def invalid {α : Type} (state : TxInvalid) : AcceptM setup α := .throw (.invalid (some state))

def assertThat (p : Prop) [Decidable p] : AcceptM setup Unit :=
  if p then pure () else .throw (.crash .assertion)

def refuse : Option TxInvalid → AcceptM setup Unit
  | none => pure ()
  | some state => invalid state

def attempt {α : Type} (x : AcceptM setup α) : AcceptM setup (Except (Option TxInvalid) α) := fun m =>
  match x m with
  | .ok a m => .ok (.ok a) m
  | .error (.invalid state) m => .ok (.error state) m
  | .error (.crash f) m => .error (.crash f) m

def resultOf {α : Type} : Result Crash TxInvalid α → AcceptM setup α
  | .returned a => pure a
  | .rejected state => invalid state
  | .crashed f => .throw (.crash f)

def unconfirmedCoin (tx : CTransaction) (o : COutPoint) : Option Coin :=
  tx.vout[o.n.toNat]?.map fun out => ⟨out, false, mempoolHeight⟩

def MemPoolAccept.getCoin (m : MemPoolAccept setup) (o : COutPoint) : Option Coin × View :=
  match m.tempAdded o with
  | some coin => (some coin, m.coinsTip)
  | none =>
    match getTx m.pool o.hash with
    | some ptx => (unconfirmedCoin ptx o, m.coinsTip)
    | none => m.coinsTip.getCoin o

def MemPoolAccept.haveCoinOver (m : MemPoolAccept setup) (parent : Option Coin × View)
    (o : COutPoint) : Bool × MemPoolAccept setup :=
  let fetched := fetchCoin o m.view [] (parent.1, [])
  let coinsTip := if (m.view.cacheCoins.lookup o).isSome then m.coinsTip else parent.2
  ((fetched.1.bind CCoinsCacheEntry.unspent).isSome, { m with view := fetched.2.1, coinsTip })

def packageAddTransaction (tx : CTransaction) : AcceptM setup Unit :=
  let added := fun o : COutPoint => if o.hash = tx.getHash then unconfirmedCoin tx o else none
  modify fun m => { m with tempAdded := fun o => (m.tempAdded o).or (added o) }

def loadInputs (tx : CTransaction) : List CTxIn → AcceptM setup Unit
  | [] => pure ()
  | txin :: vin => do
    let found ← modifyGet fun m => m.haveCoinOver (m.getCoin txin.prevout) txin.prevout
    if found then loadInputs tx vin
    else do
      let m ← get
      let known := (List.range tx.vout.length).any fun out =>
        m.coinsTip.haveCoinInCache ⟨tx.getHash, UInt32.ofNat out⟩
      if known then invalid ⟨.conflict, "txn-already-known"⟩
      else invalid ⟨.missingInputs, "bad-txns-inputs-missingorspent"⟩

def readBestBlock : AcceptM setup Unit :=
  modify fun m =>
    if m.view.hashBlock.isNull then
      let best := m.coinsTip.getBestBlock
      { m with view := { m.view with hashBlock := best.1 }, coinsTip := best.2 }
    else m

structure ATMPArgs where
  params : Params
  bypassLimits : Bool
  testAccept : Bool
  allowBip125Replacement : Bool
  packageSubmission : Bool
  packageFeerates : Bool

variable (params : Params)

def ATMPArgs.packageTestAccept : ATMPArgs :=
  ⟨params, false, true, false, false, false⟩

def ATMPArgs.packageChildWithParents : ATMPArgs :=
  ⟨params, false, false, false, true, true⟩

def ATMPArgs.singleInPackageAccept (args : ATMPArgs) : ATMPArgs :=
  ⟨args.params, false, args.testAccept, true, false, false⟩

variable (setup) in
/-- The decisions that go by other things than the coins and the scripts of a transaction. `early`
and `late` are those of `PreChecks` before the conflicts and after the inputs are looked up. -/
structure Policy where
  early : MemPoolAccept setup → CTransaction → Option TxInvalid
  late : ATMPArgs → MemPoolAccept setup → CTransaction → Option TxInvalid
  sizeWithDescendants : MemPoolAccept setup → CTransaction → UInt64
  vsize : MemPoolAccept setup → CTransaction → Int
  calculateMemPoolAncestors : MemPoolAccept setup → CTransaction → Limits → Bool
  /-- `EntriesAndTxidsDisjoint`, for the ancestors and these direct conflicts. -/
  disjoint : MemPoolAccept setup → CTransaction → List Uint256 → Bool
  replacement : MemPoolAccept setup → CTransaction → List Uint256 →
    Except TxInvalid (List Uint256)
  checkPackage : List CTransaction → Option String
  isChildWithParents : List CTransaction → Bool
  packageFeeRate : MemPoolAccept setup → List CTransaction → Bool
  checkPackageLimits : MemPoolAccept setup → List CTransaction → Limits → Bool
  -- the last two are `LimitMempoolSize`
  stays : MemPoolAccept setup → CTransaction → Bool
  noSpendsRemaining : MemPoolAccept setup → List COutPoint

variable [DecidableEq κ] (policy : Policy setup) (args : ATMPArgs) (tx : CTransaction)

def signalsOptInRBF : Bool := tx.vin.any fun txin => txin.nSequence ≤ 0xfffffffd

def findConflicts (args : ATMPArgs) (pool : List CTransaction) :
    List CTxIn → List Uint256 → Result Crash TxInvalid (List Uint256)
  | [], conflicts => .returned conflicts
  | txin :: vin, conflicts =>
    match pool.find? fun other => other.vin.any fun spent => spent.prevout = txin.prevout with
    | none => findConflicts args pool vin conflicts
    | some other =>
      if !args.allowBip125Replacement then
        .rejected ⟨.mempoolPolicy, "bip125-replacement-disallowed"⟩
      else if other.getHash ∈ conflicts then findConflicts args pool vin conflicts
      else if !signalsOptInRBF other then .rejected ⟨.mempoolPolicy, "txn-mempool-conflict"⟩
      else findConflicts args pool vin (conflicts ++ [other.getHash])

def singleConflict : List Uint256 → AcceptM setup (Option UInt64)
  | [txid] => do
    let m ← get
    match getTx m.pool txid with
    | none => .throw (.crash .assertion)
    | some conflict => pure (some (policy.sizeWithDescendants m conflict))
  | _ => pure none

/-- `PreChecks` raises the limits and calls `CalculateMemPoolAncestors` with them, and once more
with those of the carve-out: whether a call succeeds. -/
def callWithin (conflict : Option UInt64) : AcceptM setup Bool :=
  modifyGet fun m =>
    let limits := m.limits.allow conflict
    let within := policy.calculateMemPoolAncestors m tx limits
    let again := !within && policy.vsize m tx ≤ extraDescendantTxSizeLimit
    let carvedOut : List Limits.Call := if again then [⟨.carveOut conflict, limits.carveOut⟩] else []
    (within || again && policy.calculateMemPoolAncestors m tx limits.carveOut,
      { m with limits, calls := m.calls ++ ⟨.preChecks conflict, limits⟩ :: carvedOut })

def useLimits (use : Limits.Use) : AcceptM setup Limits :=
  modifyGet fun m => (m.limits, { m with calls := m.calls ++ [⟨use, m.limits⟩] })

def preChecks : AcceptM setup (List Uint256) := do
  resultOf (checkTransaction tx)
  refuse (if tx.isCoinBase then some (.consensus "coinbase") else none)
  let m ← get
  refuse (policy.early m tx)
  refuse (if m.pool.any fun other => other.getWitnessHash = tx.getWitnessHash then
    some ⟨.conflict, "txn-already-in-mempool"⟩ else none)
  refuse (if (getTx m.pool tx.getHash).isSome then
    some ⟨.conflict, "txn-same-nonwitness-data-in-mempool"⟩ else none)
  let conflicts ← resultOf (findConflicts args m.pool tx.vin [])
  loadInputs tx tx.vin
  readBestBlock
  let m ← get
  -- the lookup of this hash in the block index gives the tip
  assertThat (m.view.hashBlock = m.tip.getBlockHash)
  refuse (policy.late args m tx)
  let conflict ← singleConflict policy conflicts
  let within ← callWithin policy tx conflict
  refuse (if within then none else some ⟨.mempoolPolicy, "too-long-mempool-chain"⟩)
  let m ← get
  refuse (if policy.disjoint m tx conflicts then none
    else some (.consensus "bad-txns-spends-conflicting-tx"))
  pure conflicts

def checkScripts (flags : Flags) (cacheFullScriptStore : Bool)
    (txdata : PrecomputedTransactionData) :
    AcceptM setup (Option TxInvalid × PrecomputedTransactionData) := fun m =>
  match (setup.checkInputScripts tx flags true cacheFullScriptStore txdata false m.caches).run
      View.handle ⟨m.view, [], dummyView⟩ with
  | .returned ((.hit, caches), view) => .ok (none, txdata) { m with caches, view := view.top }
  | .returned ((.accepted txdata _, caches), view) =>
    .ok (none, txdata) { m with caches, view := view.top }
  | .returned ((.rejected state txdata, caches), view) =>
    .ok (some state, txdata) { m with caches, view := view.top }
  | .rejected state => .ok (some state, txdata) m
  | .crashed f => .error (.crash f) m

def policyFlags (params : Params) (tip : Chain) : Flags :=
  standardScriptVerifyFlags ∪ flagIf (params.activeAfter tip .p2qpk) .p2qpk

def witnessStripped (flags : Flags) (txdata : PrecomputedTransactionData) : AcceptM setup Bool :=
  if tx.hasWitness then pure false
  else do
    let without ← checkScripts tx (flags \ { .witness, .cleanStack }) false txdata
    if without.1.isSome then pure false
    else do
      let unclean ← checkScripts tx (flags \ { .cleanStack }) false without.2
      pure unclean.1.isSome

def policyScriptChecks : AcceptM setup PrecomputedTransactionData := do
  let m ← get
  let flags := policyFlags args.params m.tip
  let checked ← checkScripts tx flags false .empty
  match checked.1 with
  | none => pure checked.2
  | some state => do
    let stripped ← witnessStripped tx flags checked.2
    invalid (if stripped then { state with result := .witnessStripped } else state)

def checkOrigin (o : COutPoint) : AcceptM setup Unit := do
  let coin ← modifyGet fun m =>
    let accessed := (View.mk m.view [] dummyView).accessCoin o
    (accessed.1, { m with view := accessed.2.top })
  if coin.isSpent then .throw (.invalid none)
  else do
    let m ← get
    match getTx m.pool o.hash with
    | some txFrom => do
      assertThat (txFrom.getHash = o.hash)
      assertThat (txFrom.vout.length > o.n.toNat)
      assertThat (txFrom.vout[o.n.toNat]? = some coin.out)
    | none => do
      let coinFromUTXOSet ← modifyGet fun m =>
        let accessed := m.coinsTip.accessCoin o
        (accessed.1, { m with coinsTip := accessed.2 })
      assertThat (coinFromUTXOSet.isSpent = false)
      assertThat (coinFromUTXOSet.out = coin.out)

def checkOrigins : List CTxIn → AcceptM setup Unit
  | [] => pure ()
  | txin :: vin => do
    checkOrigin txin.prevout
    checkOrigins vin

def checkInputsFromMempoolAndCache (flags : Flags)
    (txdata : PrecomputedTransactionData) : AcceptM setup Unit := do
  assertThat (tx.isCoinBase = false)
  checkOrigins tx.vin
  let checked ← checkScripts tx flags true txdata
  refuse checked.1

def consensusScriptChecks (txdata : PrecomputedTransactionData) : AcceptM setup Unit := fun m =>
  match checkInputsFromMempoolAndCache tx (getBlockScriptFlags args.params m.tip.getBlockHash m.tip)
      txdata m with
  | .ok _ m => .ok () m
  -- BUG! PLEASE REPORT THIS! CheckInputScripts failed against latest-block but not STANDARD flags
  | .error (.invalid state) m => .error (.invalid state) { m with bugs := m.bugs ++ [tx.getHash] }
  | .error (.crash f) m => .error (.crash f) m

def limitMempoolSize : AcceptM setup Unit :=
  modify fun m => { m with
    pool := m.pool.filter (policy.stays m)
    coinsTip := (policy.noSpendsRemaining m).foldl View.uncache m.coinsTip }

def finalize (allConflicting : List Uint256) : AcceptM setup Unit := do
  modify fun m => { m with pool := m.pool.filter fun other => other.getHash ∉ allConflicting }
  -- an insertion finds the txid taken or makes a new entry
  modify fun m => { m with pool := if (getTx m.pool tx.getHash).isSome then m.pool else tx :: m.pool }
  if !args.packageSubmission && !args.bypassLimits then do
    limitMempoolSize policy
    let m ← get
    refuse (if (getTx m.pool tx.getHash).isSome then none
      else some ⟨.mempoolPolicy, "mempool full"⟩)
  else pure ()

def replacementChecks (m : MemPoolAccept setup) : List Uint256 →
    Result Crash TxInvalid (List Uint256)
  | [] => .returned []
  | conflicts =>
    match policy.replacement m tx conflicts with
    | .ok allConflicting => .returned allConflicting
    | .error state => .rejected state

def acceptSingleTransaction : AcceptM setup Unit := do
  let conflicts ← preChecks policy args tx
  let m ← get
  let allConflicting ← resultOf (replacementChecks policy tx m conflicts)
  let txdata ← policyScriptChecks args tx
  consensusScriptChecks args tx txdata
  if args.testAccept then pure ()
  else finalize policy args tx allConflicting

inductive MempoolAcceptResult where
  | success
  | failure (state : Option TxInvalid)
  | mempoolTx
  | mempoolTxDifferentWitness (wtxid : Uint256)
deriving DecidableEq

inductive PackageInvalid where
  | policy (reason : String)
  | transactionFailed
  -- BUG! PolicyScriptChecks succeeded but ConsensusScriptChecks failed
  | consensusScriptChecksFailed (hash : Uint256)
  -- BUG! Mempool ancestors or descendants were underestimated
  | ancestorsUnderestimated (hash : Uint256)
  -- BUG! Adding to mempool failed
  | addingFailed (hash : Uint256)
deriving DecidableEq

/-- All that `package_state` was set to, the last one last, and the results of the transactions. -/
structure PackageMempoolAcceptResult where
  packageState : List PackageInvalid
  results : List (Uint256 × MempoolAcceptResult)
deriving DecidableEq

namespace PackageMempoolAcceptResult

variable (r : PackageMempoolAcceptResult)

def emplace (wtxid : Uint256) (result : MempoolAcceptResult) : PackageMempoolAcceptResult :=
  if (r.results.lookup wtxid).isSome then r
  else { r with results := r.results ++ [(wtxid, result)] }

def note (tx : CTransaction) (bug : PackageInvalid) :
    Except (Option TxInvalid) Unit → PackageMempoolAcceptResult
  | .ok _ => r
  | .error state =>
    { r.emplace tx.getWitnessHash (.failure state) with packageState := r.packageState ++ [bug] }

end PackageMempoolAcceptResult

def submitEach : List (CTransaction × PrecomputedTransactionData) → PackageMempoolAcceptResult →
    AcceptM setup PackageMempoolAcceptResult
  | [], r => pure r
  | (tx, txdata) :: workspaces, r => do
    let checked ← attempt (consensusScriptChecks args tx txdata)
    let r := r.note tx (.consensusScriptChecksFailed tx.getHash) checked
    let limits ← useLimits .submitPackage
    let m ← get
    let r := r.note tx (.ancestorsUnderestimated tx.getHash)
      (if policy.calculateMemPoolAncestors m tx limits then .ok () else .error none)
    -- nothing was replaced: `ReplacementChecks` is not called for packages
    let added ← attempt (finalize policy args tx [])
    submitEach workspaces (r.note tx (.addingFailed tx.getHash) added)

def noneExists (txns : List CTransaction) : AcceptM setup Unit := do
  let m ← get
  assertThat (∀ tx ∈ txns, (getTx m.pool tx.getHash).isSome = false)

def submitPackage (workspaces : List (CTransaction × PrecomputedTransactionData))
    (r : PackageMempoolAcceptResult) : AcceptM setup PackageMempoolAcceptResult := do
  noneExists (workspaces.map Prod.fst)
  let r ← submitEach policy args workspaces r
  limitMempoolSize policy
  let m ← get
  pure (workspaces.foldl (fun r ws =>
    r.emplace ws.1.getWitnessHash
      (if m.pool.any fun other => other.getWitnessHash = ws.1.getWitnessHash then .success
        else .failure (some ⟨.mempoolPolicy, "mempool full"⟩))) r)

def preCheckEach : List CTransaction → AcceptM setup (Option (CTransaction × Option TxInvalid))
  | [] => pure none
  | tx :: txns => do
    let checked ← attempt (preChecks policy args tx)
    match checked with
    | .error state => pure (some (tx, state))
    | .ok _ => do
      assertThat (args.allowBip125Replacement = false)
      packageAddTransaction tx
      preCheckEach txns

def policyCheckEach : List CTransaction → AcceptM setup
    (List (CTransaction × PrecomputedTransactionData) × Option (CTransaction × Option TxInvalid))
  | [] => pure ([], none)
  | tx :: txns => do
    let checked ← attempt (policyScriptChecks args tx)
    match checked with
    | .error state => pure ([], some (tx, state))
    | .ok txdata => do
      let rest ← policyCheckEach txns
      pure ((tx, txdata) :: rest.1, rest.2)

def transactionFailed (r : PackageMempoolAcceptResult) (tx : CTransaction)
    (state : Option TxInvalid) : PackageMempoolAcceptResult :=
  { r.emplace tx.getWitnessHash (.failure state) with
    packageState := r.packageState ++ [.transactionFailed] }

def packageMempoolChecks (txns : List CTransaction) : AcceptM setup Bool := do
  noneExists txns
  let limits ← useLimits .packageMempoolChecks
  let m ← get
  pure (policy.checkPackageLimits m txns limits)

def acceptMultipleTransactions (txns : List CTransaction) :
    AcceptM setup PackageMempoolAcceptResult :=
  match policy.checkPackage txns with
  | some reason => pure ⟨[.policy reason], []⟩
  | none => do
    let refused ← preCheckEach policy args txns
    match refused with
    | some (tx, state) => pure (transactionFailed ⟨[], []⟩ tx state)
    | none => do
      let m ← get
      if args.packageFeerates && !policy.packageFeeRate m txns then
        pure ⟨[.policy "package-fee-too-low"], []⟩
      else do
        let within ← (if txns.length > 1 then packageMempoolChecks policy txns else pure true)
        if !within then pure ⟨[.policy "package-mempool-limits"], []⟩
        else do
          let (workspaces, refused) ← policyCheckEach args txns
          let passed := if args.testAccept then workspaces else []
          let r := passed.foldl (fun r ws => r.emplace ws.1.getWitnessHash .success) ⟨[], []⟩
          match refused with
          | some (tx, state) => pure (transactionFailed r tx state)
          | none => if args.testAccept then pure r else submitPackage policy args workspaces r

def packageOrConfirmed (parents : List Uint256) : List CTxIn → AcceptM setup Bool
  | [] => pure true
  | input :: vin =>
    if input.prevout.hash ∈ parents then packageOrConfirmed parents vin
    else do
      let found ← modifyGet fun m =>
        m.haveCoinOver (m.coinsTip.getCoin input.prevout) input.prevout
      if found then packageOrConfirmed parents vin else pure false

/-- The loop over the package: the results so far, whether to quit early, and `txns_new`. -/
def acceptEach : List CTransaction → PackageMempoolAcceptResult × Bool × List CTransaction →
    AcceptM setup (PackageMempoolAcceptResult × Bool × List CTransaction)
  | [], acc => pure acc
  | tx :: package, (r, quitEarly, txnsNew) => do
    let m ← get
    if m.pool.any fun other => other.getWitnessHash = tx.getWitnessHash then do
      assertThat ((getTx m.pool tx.getHash).isSome)
      acceptEach package (r.emplace tx.getWitnessHash .mempoolTx, quitEarly, txnsNew)
    else
      match getTx m.pool tx.getHash with
      | some other =>
        acceptEach package
          (r.emplace tx.getWitnessHash (.mempoolTxDifferentWitness other.getWitnessHash),
            quitEarly, txnsNew)
      | none => do
        let single ← attempt (acceptSingleTransaction policy args.singleInPackageAccept tx)
        let m ← get
        match single with
        | .ok _ => do
          assertThat (m.pool.any fun other => other.getWitnessHash = tx.getWitnessHash)
          acceptEach package (r.emplace tx.getWitnessHash .success, quitEarly, txnsNew)
        | .error state =>
          let again := state.any fun state =>
            state.result = .mempoolPolicy ∨ state.result = .missingInputs
          if again then acceptEach package (r, quitEarly, txnsNew ++ [tx])
          else acceptEach package (r, true, txnsNew)

def acceptPackage (package : List CTransaction) : AcceptM setup PackageMempoolAcceptResult :=
  match policy.checkPackage package with
  | some reason => pure ⟨[.policy reason], []⟩
  | none =>
    if !policy.isChildWithParents package then
      pure ⟨[.policy "package-not-child-with-parents"], []⟩
    else do
      assertThat (package.length > 1)
      let parents := package.dropLast.map CTransaction.getHash
      let complete ← packageOrConfirmed parents
        ((package.getLast?.map CTransaction.vin).getD [])
      if !complete then pure ⟨[.policy "package-not-child-with-unconfirmed-parents"], []⟩
      else do
        let (r, quitEarly, txnsNew) ← acceptEach policy args package (⟨[], []⟩, false, [])
        if quitEarly || txnsNew.isEmpty then pure r
        else do
          let submitted ← acceptMultipleTransactions policy args txnsNew
          pure (r.results.foldl (fun submitted e => submitted.emplace e.1 e.2) submitted)

def processNewPackage (params : Params) (package : List CTransaction) (testAccept : Bool) :
    AcceptM setup PackageMempoolAcceptResult := do
  assertThat (package ≠ [])
  if testAccept then acceptMultipleTransactions policy (.packageTestAccept params) package
  else acceptPackage policy (.packageChildWithParents params) package

end

end Qogecoin.Validation
