import Qogecoin.Coins.Program
import Qogecoin.Crypto.SipHash
import Qogecoin.Library.OrderedIndex
import Mathlib.Data.Prod.Lex

/-! `TxRequestTracker`: which transactions to request from which peers. An iterator is the pair of
peer and transaction hash of its announcement. -/
namespace Qogecoin.TxRequest

open Coins OrderedIndex Function

abbrev NodeId := Int

structure GenTxid where
  isWtxid : Bool
  hash : Uint256
deriving DecidableEq, Repr

inductive State where
  | candidateDelayed
  | candidateReady
  | candidateBest
  | requested
  | completed
deriving DecidableEq, Repr

/-- The values of the enumeration, whose order the index by transaction hash relies on. -/
def State.value : State → Nat
  | .candidateDelayed => 0
  | .candidateReady => 1
  | .candidateBest => 2
  | .requested => 3
  | .completed => 4

instance : LinearOrder State :=
  LinearOrder.lift' State.value fun s t same => by cases s <;> cases t <;> first | rfl | cases same

structure Announcement where
  txhash : Uint256
  /-- In microseconds: the time from which a candidate may be requested, or the expiry of a
  request. -/
  time : Int
  peer : NodeId
  sequence : BitVec 59
  preferred : Bool
  isWtxid : Bool
  state : State
deriving DecidableEq, Repr

namespace Announcement

variable (ann : Announcement)

/-- What stands for an iterator. -/
def id : NodeId × Uint256 := (ann.peer, ann.txhash)

def isSelected : Bool :=
  ann.state = .candidateBest || ann.state = .requested

def isWaiting : Bool :=
  ann.state = .requested || ann.state = .candidateDelayed

def isSelectable : Bool :=
  ann.state = .candidateReady || ann.state = .candidateBest

def setState (state : State) (ann : Announcement) : Announcement := { ann with state }

def toGenTxid : GenTxid := ⟨ann.isWtxid, ann.txhash⟩

end Announcement

structure PriorityComputer where
  k0 : UInt64
  k1 : UInt64

variable (computer : PriorityComputer)

def PriorityComputer.lowBits (txhash : Uint256) (peer : NodeId) : UInt64 :=
  (((CSipHasher.init computer.k0 computer.k1).write txhash.bytes).writeUint64
    (UInt64.ofInt peer)).finalize >>> 1

def PriorityComputer.priority (txhash : Uint256) (peer : NodeId) (preferred : Bool) : UInt64 :=
  computer.lowBits txhash peer ||| preferred.toUInt64 <<< 63

variable (ann : Announcement)

def PriorityComputer.of : UInt64 :=
  computer.priority ann.txhash ann.peer ann.preferred

inductive WaitState where
  | futureEvent
  | noEvent
  | pastEvent
deriving DecidableEq, Repr

def WaitState.value : WaitState → Nat
  | .futureEvent => 0
  | .noEvent => 1
  | .pastEvent => 2

instance : LinearOrder WaitState :=
  LinearOrder.lift' WaitState.value fun s t same => by
    cases s <;> cases t <;> first | rfl | cases same

def getWaitState : WaitState :=
  if ann.isWaiting then .futureEvent else if ann.isSelectable then .pastEvent else .noEvent

abbrev ByPeerView := NodeId ×ₗ Bool ×ₗ Uint256

def peerView (peer : NodeId) (best : Bool) (txhash : Uint256) : ByPeerView :=
  toLex (peer, toLex (best, txhash))

def byPeerView : ByPeerView :=
  peerView ann.peer (ann.state = .candidateBest) ann.txhash

abbrev ByTxHashView := Uint256 ×ₗ State ×ₗ Nat

def txHashView (txhash : Uint256) (state : State) (prio : UInt64) : ByTxHashView :=
  toLex (txhash, toLex (state, prio.toNat))

def byTxHashView : ByTxHashView :=
  let prio := if ann.state = .candidateReady then computer.of ann else 0
  txHashView ann.txhash ann.state prio

abbrev ByTimeView := WaitState ×ₗ Int

def byTimeView : ByTimeView := toLex (getWaitState ann, ann.time)

/-- The multi-index container: the announcements in the order of each of its indexes. -/
structure Index where
  byPeer : List Announcement
  byTxHash : List Announcement
  byTime : List Announcement

variable [Container Announcement]

def Index.emplace (index : Index) : Index :=
  ⟨Container.insert byPeerView ann index.byPeer,
    Container.insert (byTxHashView computer) ann index.byTxHash,
    Container.insert byTimeView ann index.byTime⟩

def Index.erase (it : NodeId × Uint256) (index : Index) : Index :=
  ⟨index.byPeer.filter (·.id ≠ it), index.byTxHash.filter (·.id ≠ it),
    index.byTime.filter (·.id ≠ it)⟩

def Index.modify (computer : PriorityComputer) (it : NodeId × Uint256)
    (modifier : Announcement → Announcement) (index : Index) : Index :=
  ⟨Container.modify byPeerView (·.id = it) modifier index.byPeer,
    Container.modify (byTxHashView computer) (·.id = it) modifier index.byTxHash,
    Container.modify byTimeView (·.id = it) modifier index.byTime⟩

structure PeerInfo where
  total : Nat
  completed : Nat
  requested : Nat
deriving DecidableEq, Repr

structure Tracker where
  currentSequence : UInt64
  index : Index
  peerinfo : NodeId → Option PeerInfo

namespace Tracker

def empty : Tracker := ⟨0, ⟨[], [], []⟩, fun _ => none⟩

def deref (t : Tracker) (it : NodeId × Uint256) : Option Announcement :=
  t.index.byPeer.find? (·.id = it)

def findByPeer (t : Tracker) (view : ByPeerView) : Option Announcement :=
  t.index.byPeer.find? (byPeerView · = view)

variable (computer : PriorityComputer) (it : NodeId × Uint256)

def erase (it : NodeId × Uint256) (t : Tracker) : Except Crash Tracker :=
  match t.deref it with
  | none => .error .nullPointer
  | some ann =>
    match t.peerinfo ann.peer with
    | none => .error .nullPointer
    | some info =>
      let completed := info.completed - (if ann.state = .completed then 1 else 0)
      let requested := info.requested - (if ann.state = .requested then 1 else 0)
      let total := info.total - 1
      .ok { t with
        index := t.index.erase it
        peerinfo := update t.peerinfo ann.peer
          (if total = 0 then none else some ⟨total, completed, requested⟩) }

def modify (it : NodeId × Uint256) (modifier : Announcement → Announcement) (t : Tracker) :
    Except Crash Tracker :=
  match t.deref it with
  | none => .error .nullPointer
  | some ann =>
    match t.peerinfo ann.peer with
    | none => .error .nullPointer
    | some info =>
      let completed := info.completed - (if ann.state = .completed then 1 else 0) +
        (if (modifier ann).state = .completed then 1 else 0)
      let requested := info.requested - (if ann.state = .requested then 1 else 0) +
        (if (modifier ann).state = .requested then 1 else 0)
      .ok { t with
        index := t.index.modify computer it modifier
        peerinfo := update t.peerinfo ann.peer (some ⟨info.total, completed, requested⟩) }

def promoteCandidateReady (t : Tracker) : Except Crash Tracker :=
  match t.deref it with
  | none => .error .assertion
  | some ann =>
    if ann.state ≠ .candidateDelayed then .error .assertion
    else do
      let t ← t.modify computer it (·.setState .candidateReady)
      match next (·.id = it) t.index.byTxHash with
      | none => t.modify computer it (·.setState .candidateBest)
      | some itNext =>
        if itNext.txhash ≠ ann.txhash ∨ itNext.state = .completed then
          t.modify computer it (·.setState .candidateBest)
        else if itNext.state = .candidateBest then
          if computer.of ann > computer.of itNext then do
            let t ← t.modify computer itNext.id (·.setState .candidateReady)
            t.modify computer it (·.setState .candidateBest)
          else .ok t
        else .ok t

def changeAndReselect (newState : State) (t : Tracker) : Except Crash Tracker :=
  if newState ≠ .completed ∧ newState ≠ .candidateDelayed then .error .assertion
  else
    match t.deref it with
    | none => .error .assertion
    | some ann => do
      let t ← if ann.isSelected then
          match prev (·.id = it) t.index.byTxHash with
          | none => .ok t
          | some itPrev =>
            if itPrev.txhash = ann.txhash ∧ itPrev.state = .candidateReady then
              t.modify computer itPrev.id (·.setState .candidateBest)
            else .ok t
        else .ok t
      t.modify computer it (·.setState newState)

def isOnlyNonCompleted (t : Tracker) : Except Crash Bool :=
  match t.deref it with
  | none => .error .assertion
  | some ann =>
    if ann.state = .completed then .error .assertion
    else if (prev (·.id = it) t.index.byTxHash).any (·.txhash = ann.txhash) then .ok false
    else if (next (·.id = it) t.index.byTxHash).any fun itNext =>
        itNext.txhash = ann.txhash && itNext.state ≠ .completed then .ok false
    else .ok true

def eraseWhile (txhash : Uint256) : List Announcement → Tracker → Except Crash Tracker
  | [], t => .ok t
  | ann :: rest, t =>
    if ann.txhash = txhash then do eraseWhile txhash rest (← t.erase ann.id) else .ok t

def makeCompleted (t : Tracker) : Except Crash (Bool × Tracker) :=
  match t.deref it with
  | none => .error .assertion
  | some ann =>
    if ann.state = .completed then .ok (true, t)
    else do
      if ← t.isOnlyNonCompleted it then
        let following := (t.index.byTxHash.dropWhile (·.id ≠ it)).tail
        let t ← eraseWhile ann.txhash following (← t.erase it)
        .ok (false, t)
      else
        let t ← t.changeAndReselect computer it .completed
        .ok (true, t)

/-- The first loop of `SetTimePoint`. Every turn leaves fewer announcements that wait for a time that
has come. -/
def passTime (now : Int) : Nat → List (NodeId × GenTxid) → Tracker →
    Except Crash (List (NodeId × GenTxid) × Tracker)
  | 0, expired, t => .ok (expired, t)
  | fuel + 1, expired, t =>
    match t.index.byTime.head? with
    | none => .ok (expired, t)
    | some ann =>
      if ann.state = .candidateDelayed ∧ ann.time ≤ now then do
        passTime now fuel expired (← t.promoteCandidateReady computer ann.id)
      else if ann.state = .requested ∧ ann.time ≤ now then do
        let (_, t) ← t.makeCompleted computer ann.id
        passTime now fuel (expired ++ [(ann.peer, ann.toGenTxid)]) t
      else .ok (expired, t)

/-- The second loop, for a clock that went backwards. Every turn leaves fewer candidates that are
ready before their time. -/
def demote (now : Int) : Nat → Tracker → Except Crash Tracker
  | 0, t => .ok t
  | fuel + 1, t =>
    match t.index.byTime.getLast? with
    | none => .ok t
    | some ann =>
      if ann.isSelectable ∧ ann.time > now then do
        demote now fuel (← t.changeAndReselect computer ann.id .candidateDelayed)
      else .ok t

def setTimePoint (now : Int) (t : Tracker) : Except Crash (List (NodeId × GenTxid) × Tracker) := do
  let (expired, t) ← t.passTime computer now t.index.byTime.length []
  let t ← t.demote computer now t.index.byTime.length
  .ok (expired, t)

variable (peer : NodeId)

/-- The loop of `DisconnectedPeer`. Every turn erases an announcement of the peer. -/
def disconnectFrom (peer : NodeId) : Nat → Option Announcement → Tracker → Except Crash Tracker
  | 0, _, t => .ok t
  | _, none, t => .ok t
  | fuel + 1, some it, t =>
    if it.peer ≠ peer then .ok t
    else do
      let itNext := (next (·.id = it.id) t.index.byPeer).filter (·.peer = peer)
      let (exist, t) ← t.makeCompleted computer it.id
      let t ← if exist then t.erase it.id else .ok t
      disconnectFrom peer fuel itNext t

variable (t : Tracker)

def disconnectedPeer : Except Crash Tracker :=
  t.disconnectFrom computer peer t.index.byPeer.length
    (lowerBound byPeerView (peerView peer false .null) t.index.byPeer).head?

variable (txhash : Uint256)

def forgetTxHash (t : Tracker) : Except Crash Tracker :=
  t.eraseWhile txhash
    (lowerBound (byTxHashView computer) (txHashView txhash .candidateDelayed 0) t.index.byTxHash)

def receivedInv (gtxid : GenTxid) (preferred : Bool) (reqtime : Int) (t : Tracker) : Tracker :=
  if (t.findByPeer (peerView peer true gtxid.hash)).isSome then t
  else
    let ann : Announcement :=
      { txhash := gtxid.hash
        time := reqtime
        peer
        sequence := BitVec.ofNat 59 t.currentSequence.toNat
        preferred
        isWtxid := gtxid.isWtxid
        state := .candidateDelayed }
    if (t.findByPeer (byPeerView ann)).isSome then t
    else
      let info := (t.peerinfo peer).getD ⟨0, 0, 0⟩
      { currentSequence := t.currentSequence + 1
        index := t.index.emplace computer ann
        peerinfo := update t.peerinfo peer (some { info with total := info.total + 1 }) }

def getRequestable (now : Int) (t : Tracker) :
    Except Crash (List GenTxid × List (NodeId × GenTxid) × Tracker) := do
  let (expired, t) ← t.setTimePoint computer now
  let selected := (lowerBound byPeerView (peerView peer true .null) t.index.byPeer).takeWhile
    fun ann => ann.peer = peer && ann.state = .candidateBest
  let selected := selected.mergeSort fun a b => a.sequence ≤ b.sequence
  .ok (selected.map (·.toGenTxid), expired, t)

def requestedTx (expiry : Int) (t : Tracker) : Except Crash Tracker :=
  let request (ann : Announcement) : Announcement := { ann with state := .requested, time := expiry }
  match t.findByPeer (peerView peer true txhash) with
  | some it => t.modify computer it.id request
  | none =>
    match t.findByPeer (peerView peer false txhash) with
    | none => .ok t
    | some it =>
      if it.state ≠ .candidateDelayed ∧ it.state ≠ .candidateReady then .ok t
      else do
        let t ← match (lowerBound (byTxHashView computer)
            (txHashView txhash .candidateBest 0) t.index.byTxHash).head? with
          | none => .ok t
          | some itOld =>
            if itOld.txhash ≠ txhash then .ok t
            else if itOld.state = .candidateBest then
              t.modify computer itOld.id (·.setState .candidateReady)
            else if itOld.state = .requested then
              t.modify computer itOld.id (·.setState .completed)
            else .ok t
        t.modify computer it.id request

def receivedResponse (t : Tracker) : Except Crash Tracker :=
  let it := (t.findByPeer (peerView peer false txhash)).or (t.findByPeer (peerView peer true txhash))
  match it with
  | none => .ok t
  | some it => do
    let (_, t) ← t.makeCompleted computer it.id
    .ok t

def countInFlight : Nat :=
  ((t.peerinfo peer).map (·.requested)).getD 0

def countCandidates : Nat :=
  ((t.peerinfo peer).map fun info => info.total - info.requested - info.completed).getD 0

def count : Nat := ((t.peerinfo peer).map (·.total)).getD 0

def size : Nat := t.index.byPeer.length

def recomputePeerInfo (index : Index) : NodeId → Option PeerInfo :=
  index.byPeer.foldl (fun ret ann =>
    let info := (ret ann.peer).getD ⟨0, 0, 0⟩
    update ret ann.peer (some
      ⟨info.total + 1, info.completed + (if ann.state = .completed then 1 else 0),
        info.requested + (if ann.state = .requested then 1 else 0)⟩)) fun _ => none

structure TxHashInfo where
  candidateDelayed : Nat := 0
  candidateReady : Nat := 0
  candidateBest : Nat := 0
  requested : Nat := 0
  priorityCandidateBest : UInt64 := 0xFFFFFFFFFFFFFFFF
  priorityBestCandidateReady : UInt64 := 0
  peers : List NodeId := []

def TxHashInfo.add (info : TxHashInfo) (ann : Announcement) : TxHashInfo where
  candidateDelayed := info.candidateDelayed + if ann.state = .candidateDelayed then 1 else 0
  candidateReady := info.candidateReady + if ann.state = .candidateReady then 1 else 0
  candidateBest := info.candidateBest + if ann.state = .candidateBest then 1 else 0
  requested := info.requested + if ann.state = .requested then 1 else 0
  priorityCandidateBest :=
    if ann.state = .candidateBest then computer.of ann else info.priorityCandidateBest
  priorityBestCandidateReady :=
    if ann.state = .candidateReady then
      if info.priorityBestCandidateReady < computer.of ann then computer.of ann
      else info.priorityBestCandidateReady
    else info.priorityBestCandidateReady
  peers := info.peers ++ [ann.peer]

def computeTxHashInfo (index : Index) : Uint256 → Option TxHashInfo :=
  index.byPeer.foldl (fun ret ann =>
    update ret ann.txhash (some (((ret ann.txhash).getD {}).add computer ann)))
    fun _ => none

def noneAdjacent : List NodeId → Bool
  | a :: b :: rest => a ≠ b && noneAdjacent (b :: rest)
  | _ => true

structure SanityCheck (t : Tracker) : Prop where
  peerinfo : t.peerinfo = recomputePeerInfo t.index
  infos : ∀ txhash info, computeTxHashInfo computer t.index txhash = some info →
    info.candidateDelayed + info.candidateReady + info.candidateBest + info.requested > 0 ∧
    info.candidateBest + info.requested ≤ 1 ∧
    (info.candidateReady > 0 → info.candidateBest + info.requested = 1) ∧
    (info.candidateReady ≠ 0 ∧ info.candidateBest ≠ 0 →
      info.priorityCandidateBest ≥ info.priorityBestCandidateReady) ∧
    noneAdjacent (info.peers.mergeSort (· ≤ ·)) = true

def PostGetRequestableSanityCheck (now : Int) (t : Tracker) : Prop :=
  ∀ ann ∈ t.index.byPeer,
    if ann.isWaiting then ann.time > now else if ann.isSelectable then ann.time ≤ now else True

end Tracker

end Qogecoin.TxRequest
