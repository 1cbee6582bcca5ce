import Qogecoin.Consensus.Chain

/-! `BaseIndex`: the thread that brings an index up to the active chain, and the notifications that
keep it there. The two run beside each other and beside changes of the active chain. -/
namespace Qogecoin.Index

open Chain

variable (tip pindex : Chain)

def contains : Prop := tip.getAncestor pindex.nHeight = pindex

instance (tip pindex : Chain) : Decidable (contains tip pindex) :=
  inferInstanceAs (Decidable (_ = _))

def genesisOf (tip : Chain) : Chain := tip.getAncestor 0

def next : Chain :=
  if contains tip pindex then tip.getAncestor (pindex.nHeight + 1) else []

def walkBack (tip : Chain) : Chain → Chain
  | [] => []
  | index :: pprev =>
    if contains tip (index :: pprev) then index :: pprev else walkBack tip pprev

def findFork : Chain :=
  if pindex.nHeight > tip.nHeight then walkBack tip (pindex.getAncestor tip.nHeight)
  else walkBack tip pindex

inductive Failure where
  | assertion
  | nullPointer
  | fatalError
deriving DecidableEq, Repr

inductive Reason where
  | periodic
  | interrupt
  | caughtUp
  | rewind
  | flushed
deriving DecidableEq, Repr

/-- What reaches an index and its database: a call of `WriteBlock`, the part of `Rewind` before that
of the base class, and the batch of a commit with the best block. `CommitInternal` takes the running
state of the index at the commit itself, except for the commit after the thread has caught up:
notifications may be processed after it took the running state, at `latch`. -/
inductive Op where
  | writeBlock (pindex : Chain)
  | rewind (currentTip newTip : Chain)
  | latch
  | commit (reason : Reason) (best : Chain)
deriving DecidableEq, Repr

inductive Notification where
  | blockConnected (pindex : Chain)
  | chainStateFlushed (locatorTip : Chain)
deriving DecidableEq, Repr

/-- Where `ThreadSync` is: before it looks at `m_interrupt`, asks for the next block under `cs_main`,
compares the clock or writes the block, in the commit that ends it, or after it. -/
inductive SyncAt where
  | check (pindex : Chain)
  | advance (pindex : Chain)
  | publish (pindex : Chain)
  | write (pindex : Chain)
  | interrupted
  | caughtUp
  | committing
  | ended
deriving DecidableEq, Repr

inductive CallbackAt where
  | idle
  | rewinding (currentTip pindex : Chain)
  | connecting (pindex : Chain)
  | written (pindex : Chain)
deriving DecidableEq, Repr

structure BaseState where
  chain : Chain
  queue : List Notification
  best : Chain
  synced : Bool
  sync : SyncAt
  callback : CallbackAt
deriving DecidableEq, Repr

abbrev Outcome := List Op × Except Failure BaseState

def commit (reason : Reason) (best : Chain) : List Op :=
  if best = [] then [] else [.commit reason best]

def baseRewind (currentTip newTip : Chain) (s : BaseState) : Outcome :=
  if currentTip ≠ s.best then ([], .error .assertion)
  else if newTip = [] then ([], .error .nullPointer)
  else if currentTip.getAncestor newTip.nHeight ≠ newTip then ([], .error .assertion)
  else (commit .rewind newTip, .ok { s with best := newTip })

def nextSyncBlock (pindexPrev tip : Chain) : Except Failure Chain :=
  if pindexPrev = [] then .ok (genesisOf tip)
  else if next tip pindexPrev ≠ [] then .ok (next tip pindexPrev)
  else if findFork tip pindexPrev = [] then .error .nullPointer
  else .ok (next tip (findFork tip pindexPrev))

def advance (pindex : Chain) (s : BaseState) : Outcome :=
  match nextSyncBlock pindex s.chain with
  | .error failure => ([], .error failure)
  | .ok [] => ([], .ok { s with best := pindex, synced := true, sync := .caughtUp })
  | .ok (index :: pprev) =>
    if pprev = pindex then ([], .ok { s with sync := .publish (index :: pprev) })
    else
      let (ops, result) := baseRewind pindex pprev s
      (.rewind pindex pprev :: ops,
        result.map fun s => { s with sync := .publish (index :: pprev) })

/-- A step of `ThreadSync`, given `m_interrupt` and whether the interval for writing the locator is
over. -/
def syncStep (interrupt due : Bool) (s : BaseState) : Outcome :=
  match s.sync with
  | .check pindex =>
    if interrupt then ([], .ok { s with best := pindex, sync := .interrupted })
    else ([], .ok { s with sync := .advance pindex })
  | .advance pindex => advance pindex s
  | .publish pindex =>
    if due then
      (commit .periodic pindex, .ok { s with best := pindex, sync := .write pindex })
    else ([], .ok { s with sync := .write pindex })
  | .write pindex => ([.writeBlock pindex], .ok { s with sync := .check pindex })
  | .interrupted => (commit .interrupt s.best, .ok { s with sync := .ended })
  | .caughtUp => ([.latch], .ok { s with sync := .committing })
  | .committing => (commit .caughtUp s.best, .ok { s with sync := .ended })
  | .ended => ([], .ok s)

def blockConnected (pindex : Chain) (s : BaseState) : Outcome :=
  if !s.synced then ([], .ok s)
  else if s.best = [] then
    if pindex.nHeight ≠ 0 then ([], .error .fatalError)
    else ([], .ok { s with callback := .connecting pindex })
  else if s.best.getAncestor (pindex.nHeight - 1) ≠ pindex.pprev then ([], .ok s)
  else if s.best = pindex.pprev then ([], .ok { s with callback := .connecting pindex })
  else
    ([.rewind s.best pindex.pprev], .ok { s with callback := .rewinding s.best pindex })

def chainStateFlushed (locatorTip : Chain) (s : BaseState) : Outcome :=
  if !s.synced then ([], .ok s)
  else if s.best = [] then ([], .error .nullPointer)
  else if s.best.getAncestor locatorTip.nHeight ≠ locatorTip then ([], .ok s)
  else (commit .flushed s.best, .ok s)

def deliverStep (s : BaseState) : Outcome :=
  match s.callback with
  | .idle =>
    match s.queue with
    | [] => ([], .ok s)
    | .blockConnected pindex :: queue => blockConnected pindex { s with queue }
    | .chainStateFlushed locatorTip :: queue => chainStateFlushed locatorTip { s with queue }
  | .rewinding currentTip pindex =>
    let (ops, result) := baseRewind currentTip pindex.pprev s
    (ops, result.map fun s => { s with callback := .connecting pindex })
  | .connecting pindex => ([.writeBlock pindex], .ok { s with callback := .written pindex })
  | .written pindex => ([], .ok { s with best := pindex, callback := .idle })

def connectedBlocks (fork : Chain) : Chain → List Chain
  | [] => []
  | index :: pprev =>
    if index :: pprev = fork then [] else connectedBlocks fork pprev ++ [index :: pprev]

/-- Another tip becomes active: the chain is disconnected down to the fork, and every block that is
connected is announced. -/
def activate (newTip : Chain) (s : BaseState) : BaseState :=
  { s with
    chain := newTip
    queue := s.queue ++
      (connectedBlocks (findFork s.chain newTip) newTip).map .blockConnected }

inductive Action where
  | activate (newTip : Chain)
  | flush
  | sync (interrupt due : Bool)
  | deliver
deriving DecidableEq, Repr

def step (action : Action) (s : BaseState) : Outcome :=
  match action with
  | .activate newTip => ([], .ok (activate newTip s))
  | .flush => ([], .ok { s with queue := s.queue ++ [.chainStateFlushed s.chain] })
  | .sync interrupt due => syncStep interrupt due s
  | .deliver => deliverStep s

def runSchedule : List Action → BaseState → Outcome
  | [], s => ([], .ok s)
  | action :: schedule, s =>
    match step action s with
    | (ops, .error failure) => (ops, .error failure)
    | (ops, .ok s') => (ops ++ (runSchedule schedule s').1, (runSchedule schedule s').2)

def started (chain best : Chain) : BaseState where
  chain
  queue := []
  best
  synced := best = chain
  sync := if best = chain then .ended else .check best
  callback := .idle

end Qogecoin.Index
