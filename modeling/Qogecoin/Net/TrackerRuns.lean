import Qogecoin.Net.TrackerChecks

/-! Sequences of calls of `TxRequestTracker`, with any peers, times and clocks. -/
namespace Qogecoin.TxRequest

open Coins OrderedIndex Tracker Loops List Book

inductive Call where
  | receivedInv (peer : NodeId) (gtxid : GenTxid) (preferred : Bool) (reqtime : Int)
  | disconnectedPeer (peer : NodeId)
  | forgetTxHash (txhash : Uint256)
  | getRequestable (peer : NodeId) (now : Int)
  | requestedTx (peer : NodeId) (txhash : Uint256) (expiry : Int)
  | receivedResponse (peer : NodeId) (txhash : Uint256)
deriving DecidableEq, Repr

variable [Container Announcement] (computer : PriorityComputer)

def Tracker.call (t : Tracker) : Call → Except Crash Tracker
  | .receivedInv peer gtxid preferred reqtime =>
    .ok (t.receivedInv computer peer gtxid preferred reqtime)
  | .disconnectedPeer peer => t.disconnectedPeer computer peer
  | .forgetTxHash txhash => t.forgetTxHash computer txhash
  | .getRequestable peer now => do
    let (_, _, t) ← t.getRequestable computer peer now
    .ok t
  | .requestedTx peer txhash expiry => t.requestedTx computer peer txhash expiry
  | .receivedResponse peer txhash => t.receivedResponse computer peer txhash

variable (calls : List Call)

def Tracker.run : Except Crash Tracker :=
  calls.foldlM (call computer) Tracker.empty

def Tracker.book (t : Tracker) : Book :=
  (t.index.byPeer.mergeSort fun a b => a.sequence ≤ b.sequence).map entry

def Book.call (book : Book) : Call → Book
  | .receivedInv peer gtxid preferred reqtime => book.receivedInv peer gtxid preferred reqtime
  | .disconnectedPeer peer => book.disconnectedPeer peer
  | .forgetTxHash txhash => book.forgetTxHash txhash
  | .getRequestable _ now => book.expire now
  | .requestedTx peer txhash expiry => book.requestedTx peer txhash expiry
  | .receivedResponse peer txhash => book.receivedResponse peer txhash

def Book.run : Book := calls.foldl call []

/-- The announcements and the answers come in the order of the book as long as `inOrder` holds. -/
structure Refines (inOrder : Prop) (computer : PriorityComputer) (t : Tracker) (book : Book) :
    Prop where
  announcements : Listed inOrder t.book book
  requestable : ∀ peer now, ∃ answer expired t',
    t.getRequestable computer peer now = .ok (answer, expired, t') ∧
    Listed inOrder answer (requestable computer peer now (book.expire now)) ∧
    expired.Perm (book.expired now) ∧ t'.PostGetRequestableSanityCheck now
  inFlight : ∀ peer, t.countInFlight peer = book.countInFlight peer
  candidates : ∀ peer, t.countCandidates peer = book.countCandidates peer
  count : ∀ peer, t.count peer = book.count peer
  size : t.size = book.length
  sanityCheck : SanityCheck computer t

def NoTies : Prop :=
  ∀ peer gtxid preferred reqtime, .receivedInv peer gtxid preferred reqtime ∈ calls →
  ∀ peer' gtxid' preferred' reqtime', .receivedInv peer' gtxid' preferred' reqtime' ∈ calls →
    gtxid.hash = gtxid'.hash →
    computer.priority gtxid.hash peer preferred = computer.priority gtxid'.hash peer' preferred' →
    peer = peer'

def Book.accepts (book : Book) : Call → Bool
  | .receivedInv peer gtxid _ _ => !book.knows peer gtxid.hash
  | _ => false

/-- How many announcements are accepted. -/
def Book.accepted : List Call → Book → Nat
  | [], _ => 0
  | call :: calls, book => (book.accepts call).toNat + accepted calls (book.call call)

variable {computer : PriorityComputer} {sequence : UInt64} {t : Tracker}
  {order : List Announcement} {calls : List Call}

omit [Container Announcement] in
theorem Book.accepted_append (calls : List Call) (call : Call) (book : Book) :
    book.accepted (calls ++ [call]) =
      book.accepted calls + ((calls.foldl Book.call book).accepts call).toNat := by
  induction calls generalizing book with
  | nil => exact Nat.add_comm _ _
  | cons first calls ih =>
    rw [cons_append, Book.accepted, ih, Book.accepted, foldl_cons, Nat.add_assoc]

structure Announced (calls : List Call) (sequence : UInt64)
    (labels : List (NodeId × Uint256 × Bool × BitVec 59)) : Prop where
  numbered : sequence = .ofNat (accepted calls [])
  ordered : accepted calls [] ≤ 2 ^ 59 →
    (∀ label ∈ labels, label.2.2.2.toNat < accepted calls []) ∧
      labels.Pairwise fun label later => label.2.2.2 < later.2.2.2
  source : ∀ label ∈ labels, ∃ isWtxid reqtime,
    Call.receivedInv label.1 ⟨isWtxid, label.2.1⟩ label.2.2.1 reqtime ∈ calls

section

variable {labels labels' : List (NodeId × Uint256 × Bool × BitVec 59)}
  (announced : Announced calls sequence labels)
include announced

omit [Container Announcement]

theorem Announced.later (stays : labels'.Sublist labels) {call : Call}
    (refused : (Book.run calls).accepts call = false) :
    Announced (calls ++ [call]) sequence labels' := by
  have same : Book.accepted (calls ++ [call]) [] = Book.accepted calls [] := by
    rw [Book.accepted_append, ← Book.run, refused]
    rfl
  refine ⟨by rw [same]; exact announced.numbered, ?_, ?_⟩
  · rw [same]
    intro few
    obtain ⟨below, increasing⟩ := announced.ordered few
    exact ⟨fun label inside => below label (stays.subset inside), increasing.sublist stays⟩
  · intro label inside
    obtain ⟨isWtxid, reqtime, called⟩ := announced.source label (stays.subset inside)
    exact ⟨isWtxid, reqtime, mem_append_left _ called⟩

theorem Announced.emplace (peer : NodeId) (gtxid : GenTxid) (preferred : Bool) (reqtime : Int)
    (fresh : (Book.run calls).knows peer gtxid.hash = false) :
    Announced (calls ++ [.receivedInv peer gtxid preferred reqtime]) (sequence + 1)
      (labels ++ [(peer, gtxid.hash, preferred, .ofNat 59 sequence.toNat)]) := by
  have next : Book.accepted (calls ++ [.receivedInv peer gtxid preferred reqtime]) [] =
      Book.accepted calls [] + 1 := by
    rw [Book.accepted_append, ← Book.run, Book.accepts, fresh]
    rfl
  constructor
  · rw [next, announced.numbered, UInt64.ofNat_add]
    rfl
  · rw [next]
    intro few
    obtain ⟨below, increasing⟩ := announced.ordered (by omega)
    have number : (BitVec.ofNat 59 sequence.toNat).toNat = Book.accepted calls [] := by
      rw [announced.numbered, BitVec.toNat_ofNat, UInt64.toNat_ofNat']
      omega
    constructor
    · intro label inside
      rcases mem_append.mp inside with old | new
      · exact (below label old).trans (Nat.lt_succ_self _)
      · rw [mem_singleton.mp new, number]
        exact Nat.lt_succ_self _
    · rw [pairwise_append]
      refine ⟨increasing, pairwise_singleton _ _, ?_⟩
      intro label old later new
      rw [mem_singleton.mp new, BitVec.lt_def, number]
      exact below label old
  · intro label inside
    rcases mem_append.mp inside with old | new
    · obtain ⟨isWtxid, reqtime, called⟩ := announced.source label old
      exact ⟨isWtxid, reqtime, mem_append_left _ called⟩
    · rw [mem_singleton.mp new]
      exact ⟨gtxid.isWtxid, reqtime, mem_append_right _ mem_cons_self⟩

end

omit [Container Announcement] in
theorem Announced.increasing (announced : Announced calls sequence (order.map stable))
    (few : accepted calls [] ≤ 2 ^ 59) : Increasing order := by
  have increasing := (announced.ordered few).2
  rw [pairwise_map] at increasing
  exact increasing

omit [Container Announcement] in
theorem Announced.untied (announced : Announced calls sequence (order.map stable))
    (noTies : NoTies computer calls) : Untied computer order := by
  intro x inX y inY sameHash samePriority
  obtain ⟨_, _, calledX⟩ := announced.source _ (mem_map_of_mem inX)
  obtain ⟨_, _, calledY⟩ := announced.source _ (mem_map_of_mem inY)
  exact noTies _ _ _ _ calledX _ _ _ _ calledY sameHash samePriority

structure Tracks (computer : PriorityComputer) (calls : List Call) (t : Tracker)
    (order : List Announcement) : Prop where
  holds : ∃ sequence, Holds computer sequence t order ∧
    Announced calls sequence (order.map stable)
  selection : Selection computer order
  book : order.map entry = Book.run calls

theorem Tracks.call (tracks : Tracks computer calls t order) (noTies : NoTies computer calls)
    (call : Call) :
    ∃ t' order', t.call computer call = .ok t' ∧ Tracks computer (calls ++ [call]) t' order' := by
  obtain ⟨⟨sequence, holds, announced⟩, selection, listed⟩ := tracks
  have run : Book.run (calls ++ [call]) = (Book.run calls).call call := by
    rw [Book.run, foldl_append]
    rfl
  rw [← listed] at run
  cases call with
  | receivedInv peer gtxid preferred reqtime =>
    obtain ⟨sequence', order', holds', selection', book, ⟨known, same, sequence_⟩ |
        ⟨fresh, next_, labels⟩⟩ := receivedInv_spec holds selection peer gtxid preferred reqtime
    · rw [listed] at known
      refine ⟨_, order', rfl, ⟨sequence', holds', ?_⟩, selection', book.trans run.symm⟩
      rw [same, sequence_]
      exact announced.later (.refl _) (by rw [Book.accepts, known]; rfl)
    · rw [listed] at fresh
      refine ⟨_, order', rfl, ⟨sequence', holds', ?_⟩, selection', book.trans run.symm⟩
      rw [next_, labels]
      exact announced.emplace peer gtxid preferred reqtime fresh
  | disconnectedPeer peer =>
    obtain ⟨t', order', done, holds', selection', stays, book⟩ :=
      disconnectedPeer_spec holds selection peer
    exact ⟨t', order', done, ⟨sequence, holds', announced.later stays rfl⟩, selection',
      book.trans run.symm⟩
  | forgetTxHash txhash =>
    obtain ⟨t', done, holds'⟩ := forgetTxHash_spec holds txhash
    exact ⟨t', _, done, ⟨sequence, holds', announced.later (filter_sublist.map _) rfl⟩,
      (selection.forget txhash).selection, (map_entry_filter txhash order).trans run.symm⟩
  | getRequestable peer now =>
    obtain ⟨answer, expired, t', order', done, _, holds', selection', stays, book, _⟩ :=
      getRequestable_spec holds selection (announced.untied noTies) peer now
    refine ⟨t', order', ?_, ⟨sequence, holds', announced.later stays rfl⟩, selection',
      book.trans run.symm⟩
    rw [Tracker.call, done, ok_bind]
  | requestedTx peer txhash expiry =>
    obtain ⟨t', order', done, holds', selection', stays, book⟩ :=
      requestedTx_spec holds selection peer txhash expiry
    exact ⟨t', order', done, ⟨sequence, holds', announced.later stays rfl⟩, selection',
      book.trans run.symm⟩
  | receivedResponse peer txhash =>
    obtain ⟨t', order', done, holds', selection', stays, book⟩ :=
      receivedResponse_spec holds selection peer txhash
    exact ⟨t', order', done, ⟨sequence, holds', announced.later stays rfl⟩, selection',
      book.trans run.symm⟩

omit [Container Announcement] in
theorem NoTies.of_append {rest : List Call} (noTies : NoTies computer (calls ++ rest)) :
    NoTies computer calls := by
  intro peer gtxid preferred reqtime called peer' gtxid' preferred' reqtime' called'
  exact noTies _ _ _ _ (mem_append_left _ called) _ _ _ _ (mem_append_left _ called')

omit [Container Announcement] in
theorem holds_empty (sequence : UInt64) :
    Holds computer sequence { Tracker.empty with currentSequence := sequence } [] :=
  ⟨rfl, .refl _, .refl _, .refl _, .nil, .nil, .nil, .nil, fun _ => rfl⟩

theorem tracks_run (calls : List Call) (noTies : NoTies computer calls) :
    ∃ t order, Tracker.run computer calls = .ok t ∧ Tracks computer calls t order := by
  induction calls using reverseRecOn with
  | nil =>
    exact ⟨Tracker.empty, [], rfl, ⟨0, holds_empty 0, rfl, fun _ => ⟨nofun, .nil⟩, nofun⟩,
      fun _ => ⟨nofun, nofun, nofun⟩, rfl⟩
  | append_singleton calls call ih =>
    obtain ⟨t, order, ran, tracks⟩ := ih noTies.of_append
    obtain ⟨t', order', called, tracks'⟩ := tracks.call noTies.of_append call
    refine ⟨t', order', ?_, tracks'⟩
    rw [Tracker.run] at ran ⊢
    rw [foldlM_append, ran, ok_bind, foldlM_cons, called]
    rfl

theorem Tracks.refines (tracks : Tracks computer calls t order) (noTies : NoTies computer calls) :
    Refines (accepted calls [] ≤ 2 ^ 59) computer t (order.map entry) := by
  obtain ⟨⟨sequence, holds, announced⟩, selection, _⟩ := tracks
  refine ⟨?_, ?_, holds.countInFlight_eq, holds.countCandidates_eq, holds.count_eq, holds.size_eq,
    TxRequest.sanityCheck holds selection⟩
  · exact ((listed_mergeSort holds.byPeer).imp announced.increasing).map entry
  · intro peer now
    obtain ⟨answer, expired, t', order', done, listed, _, _, _, book, expiry, checked⟩ :=
      getRequestable_spec holds selection (announced.untied noTies) peer now
    rw [book] at listed
    exact ⟨answer, expired, t', done, listed.imp announced.increasing, expiry, checked⟩

/-- After any calls the tracker does what its specification says, and in the same order as long as
no more than `2 ^ 59` announcements were accepted, as many as there are sequence numbers. -/
theorem tracker_refines_book (computer : PriorityComputer) (calls : List Call)
    (noTies : NoTies computer calls) :
    ∃ t, Tracker.run computer calls = .ok t ∧
      Refines (accepted calls [] ≤ 2 ^ 59) computer t (Book.run calls) := by
  obtain ⟨t, order, ran, tracks⟩ := tracks_run calls noTies
  rw [← tracks.book]
  exact ⟨t, ran, tracks.refines noTies⟩

def sampleHash (n : UInt8) : Uint256 := ⟨n :: replicate 31 0, rfl⟩

def sampleCalls : List Call :=
  [.receivedInv 0 ⟨true, sampleHash 1⟩ true 5, .receivedInv 1 ⟨true, sampleHash 1⟩ false 0,
    .getRequestable 0 6, .getRequestable 1 3, .requestedTx 1 (sampleHash 1) 10,
    .getRequestable 0 20, .receivedResponse 0 (sampleHash 1)]

omit [Container Announcement] in
theorem tracker_refines_book_sample :
    let _ := Container.sorting Announcement
    NoTies ⟨0, 0⟩ sampleCalls ∧ accepted sampleCalls [] = 2 ∧
      ∃ t, Tracker.run ⟨0, 0⟩ sampleCalls = .ok t ∧
        Refines (accepted sampleCalls [] ≤ 2 ^ 59) ⟨0, 0⟩ t (Book.run sampleCalls) := by
  intro sorting
  have noTies : NoTies ⟨0, 0⟩ sampleCalls := by
    have kinds {peer : NodeId} {gtxid : GenTxid} {preferred : Bool} {reqtime : Int}
        (called : .receivedInv peer gtxid preferred reqtime ∈ sampleCalls) :
        peer = 0 ∧ gtxid.hash = sampleHash 1 ∧ preferred = true ∨
          peer = 1 ∧ gtxid.hash = sampleHash 1 ∧ preferred = false := by
      simp only [sampleCalls, mem_cons, Call.receivedInv.injEq, reduceCtorEq, not_mem_nil,
        or_false] at called
      rcases called with ⟨peer, gtxid, preferred, _⟩ | ⟨peer, gtxid, preferred, _⟩
      · exact .inl ⟨peer, congrArg GenTxid.hash gtxid, preferred⟩
      · exact .inr ⟨peer, congrArg GenTxid.hash gtxid, preferred⟩
    intro peer gtxid preferred _ called peer' gtxid' preferred' _ called' _ samePriority
    rcases kinds called with ⟨here, hash, kind⟩ | ⟨here, hash, kind⟩ <;>
      rcases kinds called' with ⟨there, hash', kind'⟩ | ⟨there, hash', kind'⟩ <;>
      rw [here, there, hash, hash', kind, kind'] at samePriority
    · rw [here, there]
    · exact absurd samePriority (by decide +kernel)
    · exact absurd samePriority (by decide +kernel)
    · rw [here, there]
  exact ⟨noTies, by decide +kernel, tracker_refines_book ⟨0, 0⟩ sampleCalls noTies⟩

def sampleInv (n : UInt8) : Call := .receivedInv 0 ⟨true, sampleHash n⟩ true 0

def sampleEntry (n : UInt8) : Entry := ⟨0, ⟨true, sampleHash n⟩, true, .candidate, 0⟩

/-- An announcement made and forgotten many times, and then two others. -/
def turnover (rounds : Nat) : List Call :=
  (replicate rounds [sampleInv 0, .forgetTxHash (sampleHash 0)]).flatten

def wraparound : List Call := turnover (2 ^ 59 - 1) ++ [sampleInv 1, sampleInv 2]

section

omit [Container Announcement]

theorem noTies_wraparound : NoTies computer wraparound := by
  have peer {call : Call} (called : call ∈ wraparound) {peer : NodeId} {gtxid : GenTxid}
      {preferred : Bool} {reqtime : Int}
      (inv : call = .receivedInv peer gtxid preferred reqtime) : peer = 0 := by
    have kinds : call ∈ [sampleInv 0, .forgetTxHash (sampleHash 0), sampleInv 1, sampleInv 2] := by
      rcases mem_append.mp called with rounds | last
      · obtain ⟨round, replicated, inside⟩ := mem_flatten.mp rounds
        rw [eq_of_mem_replicate replicated] at inside
        exact mem_append_left _ inside
      · exact mem_append_right [sampleInv 0, .forgetTxHash (sampleHash 0)] last
    rw [inv] at kinds
    simp only [mem_cons, sampleInv, Call.receivedInv.injEq, reduceCtorEq, not_mem_nil,
      false_or, or_false] at kinds
    rcases kinds with first | second | third
    · exact first.1
    · exact second.1
    · exact third.1
  intro p _ _ _ called p' _ _ _ called' _ _
  rw [peer called rfl, peer called' rfl]

theorem run_turnover (rounds : Nat) :
    Book.run (turnover rounds) = [] ∧ accepted (turnover rounds) [] = rounds := by
  induction rounds with
  | zero => exact ⟨rfl, rfl⟩
  | succ rounds ih =>
    rw [turnover, replicate_succ, flatten_cons]
    exact ⟨ih.1, (Nat.add_comm _ _).trans (congrArg (· + 1) ((Nat.zero_add _).trans ih.2))⟩

theorem tracker_reorders_after_wraparound :
    let _ := Container.sorting Announcement
    ¬∀ (computer : PriorityComputer) (calls : List Call), NoTies computer calls →
      ∃ t, Tracker.run computer calls = .ok t ∧ Refines True computer t (Book.run calls) := by
  intro sorting refines
  obtain ⟨t, ran, refined⟩ := refines ⟨0, 0⟩ wraparound noTies_wraparound
  obtain ⟨empty, used⟩ := run_turnover (2 ^ 59 - 1)
  have noTies : NoTies ⟨0, 0⟩ (turnover (2 ^ 59 - 1)) := noTies_wraparound.of_append
  obtain ⟨t0, order0, ran0, ⟨sequence, holds0, announced⟩, selection0, book0⟩ := tracks_run _ noTies
  have number := announced.numbered
  rw [used] at number
  have none : order0 = [] := map_eq_nil_iff.mp (book0.trans empty)
  subst none
  obtain ⟨_, order1, holds1, selection1, book1, ⟨known, _⟩ | ⟨_, rfl, labels1⟩⟩ :=
    receivedInv_spec holds0 selection0 0 ⟨true, sampleHash 1⟩ true 0
  · cases known
  have book1 : order1.map entry = [sampleEntry 1] := book1
  obtain ⟨_, order2, holds2, _, book2, ⟨known, _⟩ | ⟨_, rfl, labels2⟩⟩ :=
    receivedInv_spec holds1 selection1 0 ⟨true, sampleHash 2⟩ true 0
  · rw [book1] at known
    exact absurd known (by decide +kernel)
  rw [book1, show receivedInv 0 ⟨true, sampleHash 2⟩ true 0 [sampleEntry 1] =
    [sampleEntry 1, sampleEntry 2] by decide +kernel] at book2
  obtain ⟨x, rest, rfl, entryX, single⟩ := map_eq_cons_iff.mp book2
  obtain ⟨y, rfl, entryY⟩ := map_eq_singleton_iff.mp single
  rw [labels1] at labels2
  obtain ⟨labelX, rest⟩ := cons.inj labels2
  have sequenceX : x.sequence = .ofNat 59 sequence.toNat := congrArg (·.2.2.2) labelX
  have sequenceY : y.sequence = .ofNat 59 (sequence + 1).toNat :=
    congrArg (·.2.2.2) (cons.inj rest).1
  -- the older announcement has the last sequence number, the newer one the first
  have increasing : Increasing [y, x] := by
    rw [Increasing, pairwise_pair, sequenceX, sequenceY, number]
    decide +kernel
  have sorted := (listed_mergeSort (holds2.byPeer.trans (.swap y x []))).2 increasing
  rw [Tracker.run, wraparound, foldlM_append, ← Tracker.run, ran0] at ran
  have last := refined.announcements.2 trivial
  rw [Book.run, wraparound, foldl_append, ← Book.run, empty, ← Except.ok.inj ran] at last
  have swapped : [sampleEntry 2, sampleEntry 1] = [sampleInv 1, sampleInv 2].foldl call [] := by
    rw [← last, ← entryX, ← entryY]
    exact (congrArg (map entry) sorted).symm
  exact absurd swapped (by decide +kernel)

end

end Qogecoin.TxRequest
