import Qogecoin.Net.TxRequest

/-! What `TxRequestTracker` is for, as its header says: a book of announcements in the order in which
they were made, with no other structure. -/
namespace Qogecoin.TxRequest

open List

inductive Status where
  | candidate
  | requested
  | completed
deriving DecidableEq, Repr

structure Entry where
  peer : NodeId
  gtxid : GenTxid
  preferred : Bool
  status : Status
  /-- The time from which a candidate may be requested, or the expiry of a request. -/
  time : Int
deriving DecidableEq, Repr

abbrev Book := List Entry

namespace Book

def alive (txhash : Uint256) (book : Book) : Bool :=
  book.any fun e => e.gtxid.hash = txhash && e.status ≠ .completed

def cleanup (book : Book) : Book := book.filter fun e => alive e.gtxid.hash book

variable (peer : NodeId)

def knows (txhash : Uint256) (book : Book) : Bool :=
  book.any fun e => e.peer = peer && e.gtxid.hash = txhash

def receivedInv (gtxid : GenTxid) (preferred : Bool) (reqtime : Int) (book : Book) : Book :=
  if book.knows peer gtxid.hash then book
  else book ++ [⟨peer, gtxid, preferred, .candidate, reqtime⟩]

def disconnectedPeer (book : Book) : Book := cleanup (book.filter (·.peer ≠ peer))

variable (txhash : Uint256)

def forgetTxHash (book : Book) : Book := book.filter (·.gtxid.hash ≠ txhash)

def requestedTx (expiry : Int) (book : Book) : Book :=
  if book.any fun e => e.peer = peer && e.gtxid.hash = txhash && e.status = .candidate then
    book.map fun e =>
      if e.gtxid.hash ≠ txhash then e
      else if e.peer = peer then { e with status := .requested, time := expiry }
      else if e.status = .requested then { e with status := .completed }
      else e
  else book

def receivedResponse (book : Book) : Book :=
  cleanup (book.map fun e =>
    if e.peer = peer ∧ e.gtxid.hash = txhash then { e with status := .completed } else e)

variable (now : Int)

def isExpired (e : Entry) : Bool := e.status = .requested && e.time ≤ now

def complete (e : Entry) : Entry :=
  if isExpired now e then { e with status := .completed } else e

def expire (book : Book) : Book := cleanup (book.map (complete now))

def expired (book : Book) : List (NodeId × GenTxid) :=
  (book.filter (isExpired now)).map fun e => (e.peer, e.gtxid)

def isReady (e : Entry) : Bool := e.status = .candidate && e.time ≤ now

variable (computer : PriorityComputer)

def noBetter (e' e : Entry) : Bool :=
  !e'.preferred && e.preferred || e'.preferred = e.preferred &&
    computer.lowBits e'.gtxid.hash e'.peer ≤ computer.lowBits e.gtxid.hash e.peer

def chosen (now : Int) (book : Book) (e : Entry) : Bool :=
  isReady now e && book.all fun e' => e'.gtxid.hash ≠ e.gtxid.hash ||
    e'.status ≠ .requested && (!isReady now e' || noBetter computer e' e)

def requestable (peer : NodeId) (now : Int) (book : Book) : List GenTxid :=
  (book.filter fun e => e.peer = peer && chosen computer now book e).map (·.gtxid)

def countInFlight (book : Book) : Nat :=
  book.countP fun e => e.peer = peer && e.status = .requested

def countCandidates (book : Book) : Nat :=
  book.countP fun e => e.peer = peer && e.status = .candidate

def count (book : Book) : Nat := book.countP (·.peer = peer)

variable {book : Book} {txhash : Uint256}

theorem alive_iff : alive txhash book = true ↔
    ∃ e ∈ book, e.gtxid.hash = txhash ∧ e.status ≠ .completed := by
  simp [alive]

theorem cleanup_eq_self (lives : ∀ e ∈ book, alive e.gtxid.hash book = true) :
    cleanup book = book := filter_eq_self.mpr lives

def cleanupOf (txhash : Uint256) (book : Book) : Book :=
  if alive txhash book then book else forgetTxHash txhash book

theorem cleanup_eq_cleanupOf
    (lives : ∀ e ∈ book, e.gtxid.hash ≠ txhash → alive e.gtxid.hash book = true) :
    cleanup book = cleanupOf txhash book := by
  rw [cleanupOf]
  split
  next here =>
    apply cleanup_eq_self
    intro e member
    by_cases same : e.gtxid.hash = txhash
    · rw [same]
      exact here
    · exact lives e member same
  next dead =>
    apply filter_congr
    intro e member
    by_cases same : e.gtxid.hash = txhash
    · rw [same]
      simpa using dead
    · simp [lives e member same, same]

theorem alive_forgetTxHash {other : Uint256} (apart : other ≠ txhash) :
    alive other (forgetTxHash txhash book) = alive other book := by
  rw [Bool.eq_iff_iff, alive_iff, alive_iff]
  constructor
  · rintro ⟨e, member, same, open_⟩
    exact ⟨e, (mem_filter.mp member).1, same, open_⟩
  · rintro ⟨e, member, same, open_⟩
    refine ⟨e, mem_filter.mpr ⟨member, ?_⟩, same, open_⟩
    simpa [same] using apart

theorem cleanup_forgetTxHash (dead : alive txhash book = false) :
    cleanup (forgetTxHash txhash book) = cleanup book := by
  rw [cleanup, cleanup]
  conv_lhs => rw [forgetTxHash, filter_filter]
  apply filter_congr
  intro e _
  by_cases same : e.gtxid.hash = txhash
  · rw [same, dead]
    simp
  · have unchanged : alive e.gtxid.hash (forgetTxHash txhash book) = alive e.gtxid.hash book :=
      alive_forgetTxHash same
    rw [forgetTxHash] at unchanged
    rw [unchanged]
    simp [same]

variable (now : Int)

theorem alive_map_complete (dead : alive txhash book = false) :
    alive txhash (book.map (complete now)) = false := by
  by_contra lives
  obtain ⟨e', member, same, open_⟩ := alive_iff.mp (by simpa using lives)
  obtain ⟨e, inE, rfl⟩ := mem_map.mp member
  rw [complete] at same open_
  split at open_
  · exact open_ rfl
  next pending =>
    rw [if_neg pending] at same
    rw [alive_iff.mpr ⟨e, inE, same, open_⟩] at dead
    cases dead

theorem map_complete_forgetTxHash (txhash : Uint256) (book : Book) :
    (forgetTxHash txhash book).map (complete now) = forgetTxHash txhash (book.map (complete now)) := by
  rw [forgetTxHash, forgetTxHash, filter_map]
  congr 1
  apply filter_congr
  intro e _
  rw [Function.comp_apply, complete]
  split <;> rfl

theorem expire_cleanupOf (txhash : Uint256) (book : Book) :
    expire now (cleanupOf txhash book) = expire now book := by
  rw [cleanupOf]
  split_ifs with dead
  · rfl
  · rw [expire, map_complete_forgetTxHash,
      cleanup_forgetTxHash (alive_map_complete now (by simpa using dead))]
    rfl

theorem expired_cleanupOf (txhash : Uint256) (book : Book) :
    expired now (cleanupOf txhash book) = expired now book := by
  rw [cleanupOf]
  split_ifs with dead
  · rfl
  rw [expired, expired, forgetTxHash, filter_filter]
  congr 1
  apply filter_congr
  intro e member
  cases pending : isExpired now e with
  | false => rfl
  | true =>
    have other : e.gtxid.hash ≠ txhash := by
      intro same
      have requested : e.status = .requested := by
        simp only [isExpired, Bool.and_eq_true, decide_eq_true_eq] at pending
        exact pending.1
      exact dead (alive_iff.mpr ⟨e, member, same, by simp [requested]⟩)
    simp [other]

theorem alive_filter (q : Entry → Bool) (dead : alive txhash book = false) :
    alive txhash (book.filter q) = false := by
  by_contra lives
  obtain ⟨e, member, same, open_⟩ := alive_iff.mp (by simpa using lives)
  rw [alive_iff.mpr ⟨e, (mem_filter.mp member).1, same, open_⟩] at dead
  cases dead

theorem disconnectedPeer_cleanupOf (peer : NodeId) (txhash : Uint256) (book : Book) :
    disconnectedPeer peer (cleanupOf txhash book) = disconnectedPeer peer book := by
  rw [cleanupOf]
  split_ifs with dead
  · rfl
  have dead : alive txhash book = false := by simpa using dead
  have swap : (forgetTxHash txhash book).filter (·.peer ≠ peer) =
      forgetTxHash txhash (book.filter (·.peer ≠ peer)) := by
    rw [forgetTxHash, forgetTxHash, filter_filter, filter_filter]
    apply filter_congr
    intro e _
    exact Bool.and_comm _ _
  rw [disconnectedPeer, swap, cleanup_forgetTxHash (alive_filter _ dead)]
  rfl

end Book

end Qogecoin.TxRequest
