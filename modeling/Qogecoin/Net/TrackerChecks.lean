import Qogecoin.Net.TrackerRefinement

/-! What `TxRequestTracker` answers: `GetRequestable`, the counters, and the sanity checks. -/
namespace Qogecoin.TxRequest

open Coins OrderedIndex Tracker Loops List Announcement Book Function

variable {computer : PriorityComputer} {sequence : UInt64} {t : Tracker}
  {order : List Announcement} {a x y : Announcement}

abbrev Increasing (order : List Announcement) : Prop :=
  order.Pairwise fun x y => x.sequence < y.sequence

def Untied (computer : PriorityComputer) (order : List Announcement) : Prop :=
  ∀ x ∈ order, ∀ y ∈ order, x.txhash = y.txhash → computer.of x = computer.of y → x.peer = y.peer

theorem of_eq_of_stable (same : stable x = stable y) : computer.of x = computer.of y := by
  have hash := congrArg (·.2.1) same
  have peer := congrArg (·.1) same
  have preferred := congrArg (·.2.2.1) same
  dsimp only [stable] at hash peer preferred
  rw [PriorityComputer.of, PriorityComputer.of, hash, peer, preferred]

section

variable {order' : List Announcement} (stays : (order'.map stable).Sublist (order.map stable))
include stays

theorem Increasing.mono (increasing : Increasing order) : Increasing order' := by
  have before : (order.map stable).Pairwise fun x y => x.2.2.2 < y.2.2.2 :=
    pairwise_map.mpr increasing
  have after := before.sublist stays
  rw [pairwise_map] at after
  exact after

theorem Untied.mono (untied : Untied computer order) : Untied computer order' := by
  have origin {x : Announcement} (inX : x ∈ order') : ∃ x0 ∈ order, stable x0 = stable x :=
    mem_map.mp (stays.subset (mem_map_of_mem inX))
  intro x inX y inY sameHash samePriority
  obtain ⟨x0, inX0, stableX⟩ := origin inX
  obtain ⟨y0, inY0, stableY⟩ := origin inY
  have peerX : x0.peer = x.peer := congrArg (·.1) stableX
  have peerY : y0.peer = y.peer := congrArg (·.1) stableY
  have hashX : x0.txhash = x.txhash := congrArg (·.2.1) stableX
  have hashY : y0.txhash = y.txhash := congrArg (·.2.1) stableY
  rw [← peerX, ← peerY]
  apply untied x0 inX0 y0 inY0
  · rw [hashX, hashY, sameHash]
  · rw [of_eq_of_stable stableX, of_eq_of_stable stableY, samePriority]

end

variable {view : List Announcement} {now : Int}

/-- The same elements, and in the same order if `inOrder` holds. -/
def Listed {α : Type} (inOrder : Prop) (l l' : List α) : Prop := l.Perm l' ∧ (inOrder → l = l')

theorem Listed.map {α β : Type} {inOrder : Prop} {l l' : List α} (listed : Listed inOrder l l')
    (f : α → β) : Listed inOrder (l.map f) (l'.map f) :=
  ⟨listed.1.map f, fun here => congrArg _ (listed.2 here)⟩

theorem Listed.imp {α : Type} {inOrder inOrder' : Prop} {l l' : List α}
    (listed : Listed inOrder l l') (imp : inOrder' → inOrder) : Listed inOrder' l l' :=
  ⟨listed.1, fun here => listed.2 (imp here)⟩

theorem listed_mergeSort (perm : view.Perm order) :
    Listed (Increasing order) (view.mergeSort fun a b => a.sequence ≤ b.sequence) order := by
  have sorted : (view.mergeSort fun a b => a.sequence ≤ b.sequence).Pairwise
      fun a b => decide (a.sequence ≤ b.sequence) = true := by
    apply pairwise_mergeSort
    · intro a b c first second
      exact decide_eq_true (BitVec.le_trans (of_decide_eq_true first) (of_decide_eq_true second))
    · intro a b
      simpa using BitVec.le_total a.sequence b.sequence
  have same := (mergeSort_perm view fun a b => a.sequence ≤ b.sequence).trans perm
  refine ⟨same, fun increasing => ?_⟩
  apply Perm.eq_of_pairwise _ (sorted.imp of_decide_eq_true) (increasing.imp BitVec.le_of_lt) same
  intro x y inX inY below above
  have distinct : (order.map (·.sequence)).Nodup :=
    pairwise_map.mpr (increasing.imp fun less => BitVec.ne_of_lt less)
  exact inj_on_of_nodup_map distinct (same.mem_iff.mp inX) inY (BitVec.le_antisymm below above)

theorem isReady_entry : isReady now (entry x) = true ↔
    x.state.status = .candidate ∧ x.time ≤ now := by
  show (decide (x.state.status = .candidate) && decide (x.time ≤ now)) = true ↔ _
  rw [Bool.and_eq_true, decide_eq_true_eq, decide_eq_true_eq]

theorem candidate_status {state : State} : state.status = .candidate ↔
    state = .candidateDelayed ∨ state = .candidateReady ∨ state = .candidateBest := by
  cases state <;> simp [State.status]

theorem chosen_iff :
    chosen computer now (order.map entry) (entry x) = true ↔
      (x.state.status = .candidate ∧ x.time ≤ now) ∧ ∀ y ∈ order, y.txhash = x.txhash →
        y.state.status ≠ .requested ∧
          (y.state.status = .candidate → y.time ≤ now → computer.of y ≤ computer.of x) := by
  rw [chosen, Bool.and_eq_true, isReady_entry, all_eq_true]
  have each (y : Announcement) : (decide ((entry y).gtxid.hash ≠ (entry x).gtxid.hash) ||
      decide ((entry y).status ≠ .requested) &&
        (!isReady now (entry y) || noBetter computer (entry y) (entry x))) = true ↔
      (y.txhash = x.txhash → y.state.status ≠ .requested ∧
        (y.state.status = .candidate → y.time ≤ now → computer.of y ≤ computer.of x)) := by
    rw [Bool.or_eq_true, decide_eq_true_eq, Bool.and_eq_true, decide_eq_true_eq, Bool.or_eq_true,
      Bool.not_eq_true', ← Bool.not_eq_true, isReady_entry, noBetter_iff]
    have shape (h r c n b : Prop) : ¬h ∨ ¬r ∧ (¬(c ∧ n) ∨ b) ↔ (h → ¬r ∧ (c → n → b)) := by
      tauto
    exact shape _ _ _ _ _
  constructor
  · rintro ⟨ready, others⟩
    exact ⟨ready, fun y inY => (each y).mp (others (entry y) (mem_map_of_mem inY))⟩
  · rintro ⟨ready, others⟩
    refine ⟨ready, ?_⟩
    intro e member
    obtain ⟨y, inY, rfl⟩ := mem_map.mp member
    exact (each y).mpr (others y inY)

theorem best_iff_chosen (selection : Selection computer order)
    (unique : UniqueIds order) (untied : Untied computer order)
    (timely : ∀ x ∈ order, due now x = false ∧ early now x = false) (inX : x ∈ order) :
    x.state = .candidateBest ↔ chosen computer now (order.map entry) (entry x) = true := by
  have settled := selection x.txhash
  have passed {y : Announcement} (inY : y ∈ order) (best : y.state = .candidateBest) :
      y.time ≤ now := by
    simpa [early, isSelectable, best] using (timely y inY).2
  have waits {y : Announcement} (inY : y ∈ order) (delayed : y.state = .candidateDelayed) :
      now < y.time := by
    simpa [due, isWaiting, delayed] using (timely y inY).1
  rw [chosen_iff]
  constructor
  · intro best
    have rival {y : Announcement} (inY : y ∈ order) (same : y.txhash = x.txhash)
        (chosen : y.isSelected = true) : y = x :=
      settled.single y ⟨inY, same⟩ x ⟨inX, rfl⟩ chosen (isSelected_iff.mpr (.inl best))
    refine ⟨⟨candidate_status.mpr (.inr (.inr best)), passed inX best⟩, ?_⟩
    intro y inY same
    constructor
    · intro requested
      have state := requested_status.mp requested
      rw [rival inY same (isSelected_iff.mpr (.inr state)), best] at state
      cases state
    · intro candidate come
      rcases candidate_status.mp candidate with delayed | ready | also
      · exact absurd come (not_le.mpr (waits inY delayed))
      · obtain ⟨z, inZ, chosen, bound⟩ := settled.ready y ⟨inY, same⟩ ready
        rw [rival inZ.1 inZ.2 chosen] at bound
        exact bound best
      · rw [rival inY same (isSelected_iff.mpr (.inl also))]
        exact UInt64.le_refl _
  · rintro ⟨⟨candidate, come⟩, others⟩
    rcases candidate_status.mp candidate with delayed | ready | best
    · exact absurd come (not_le.mpr (waits inX delayed))
    · -- a ready candidate waits for a selected one, which can only be itself
      obtain ⟨y, inY, chosen, bound⟩ := settled.ready x ⟨inX, rfl⟩ ready
      have best : y.state = .candidateBest := by
        rcases isSelected_iff.mp chosen with best | requested
        · exact best
        · exact absurd (requested_status.mpr requested) (others y inY.1 inY.2).1
      have above := (others y inY.1 inY.2).2 (candidate_status.mpr (.inr (.inr best)))
        (passed inY.1 best)
      have samePeer := untied y inY.1 x inX inY.2 (UInt64.le_antisymm above (bound best))
      rw [← eq_of_id unique inY.1 inX (Prod.ext samePeer inY.2)]
      exact best
    · exact best

theorem best_of_peerView_le {peer : NodeId} {txhash : Uint256} (same : x.peer = peer)
    (below : peerView peer true txhash ≤ byPeerView x) :
    decide (x.state = .candidateBest) = true := by
  simp only [byPeerView, peerView, Prod.Lex.le_iff, ofLex_toLex, same, lt_self_iff_false, false_or,
    true_and] at below
  rcases below with less | equal
  · exact absurd less (by simp)
  · exact equal.1.symm

theorem getRequestable_spec [Container Announcement] (holds : Holds computer sequence t order)
    (selection : Selection computer order) (untied : Untied computer order) (peer : NodeId)
    (now : Int) :
    ∃ answer expired t' order', t.getRequestable computer peer now = .ok (answer, expired, t') ∧
      Listed (Increasing order) answer
        (Book.requestable computer peer now (order'.map entry)) ∧
      Holds computer sequence t' order' ∧ Selection computer order' ∧
      (order'.map stable).Sublist (order.map stable) ∧
      order'.map entry = Book.expire now (order.map entry) ∧
      expired.Perm (Book.expired now (order.map entry)) ∧
      t'.PostGetRequestableSanityCheck now := by
  obtain ⟨expired, t', order', set, holds', selection', stays, book, expiry, timely⟩ :=
    setTimePoint_spec now holds selection
  refine ⟨_, expired, t', order', by rw [Tracker.getRequestable, set, ok_bind], ?_, holds',
    selection', stays, book, expiry, ?_⟩
  · have range := takeWhile_lowerBound (k := peerView peer true .null)
      (q := fun x => decide (x.peer = peer) && decide (x.state = .candidateBest)) holds'.sortedPeer
      (by
        intro x _ inside
        rw [Bool.and_eq_true, decide_eq_true_eq] at inside
        exact peerView_le inside.1 inside.2.ge)
      (by
        intro x _ y _ lower upper inside
        rw [Bool.and_eq_true, decide_eq_true_eq] at inside ⊢
        have high := byPeerView_peer upper
        rw [inside.1] at high
        have samePeer := le_antisymm high (peer_le_of_peerView lower)
        exact ⟨samePeer, best_of_peerView_le samePeer lower⟩)
    have agree : order'.filter (fun x => decide (x.peer = peer) &&
          decide (x.state = .candidateBest)) =
        order'.filter ((fun e => decide (e.peer = peer) &&
          Book.chosen computer now (order'.map entry) e) ∘ entry) := by
      apply filter_congr
      intro x inX
      rw [Function.comp_apply, Bool.eq_iff_iff, Bool.and_eq_true, Bool.and_eq_true,
        ← best_iff_chosen selection' holds'.unique (untied.mono stays) timely inX, decide_eq_true_eq,
        decide_eq_true_eq, decide_eq_true_eq]
      rfl
    have listed := (listed_mergeSort (holds'.byPeer.filter fun x => decide (x.peer = peer) &&
      decide (x.state = .candidateBest))).imp fun increasing : Increasing order =>
        (increasing.mono stays).filter _
    rw [range, Book.requestable, filter_map, map_map]
    rw [agree] at listed
    exact listed.map _
  · intro x inX
    have pending := timely x (holds'.byPeer.mem_iff.mp inX)
    rw [due, early] at pending
    split
    next waiting =>
      simpa [waiting] using pending.1
    · split
      next selectable =>
        simpa [selectable] using pending.2
      · trivial

theorem countP_entry (q : Status → Bool) (peer : NodeId) :
    (order.map entry).countP (fun e => e.peer = peer && q e.status) =
      order.countP fun x => x.peer = peer && q x.state.status := by
  rw [countP_map]
  rfl

theorem countP_status (order : List Announcement) (peer : NodeId) :
    order.countP (·.peer = peer) = (order.countP fun x => x.peer = peer && x.state = .requested) +
      (order.countP fun x => x.peer = peer && x.state = .completed) +
      order.countP fun x => x.peer = peer && x.state.status = .candidate := by
  induction order with
  | nil => rfl
  | cons x order ih =>
    simp only [countP_cons, ih]
    by_cases here : x.peer = peer
    · cases state : x.state <;> simp [here, State.status] <;> omega
    · simp [here]

section Counters

variable (holds : Holds computer sequence t order) (peer : NodeId)

include holds

theorem Holds.peerinfo_map (f : PeerInfo → Nat) (zero : f ⟨0, 0, 0⟩ = 0) :
    ((t.peerinfo peer).map f).getD 0 = f ⟨order.countP (·.peer = peer),
      order.countP fun ann => ann.peer = peer && ann.state = .completed,
      order.countP fun ann => ann.peer = peer && ann.state = .requested⟩ := by
  rw [← statistics_getD, ← holds.peerinfo, ← Option.getD_map f, zero]

theorem Holds.countInFlight_eq :
    t.countInFlight peer = Book.countInFlight peer (order.map entry) := by
  rw [Tracker.countInFlight, holds.peerinfo_map peer PeerInfo.requested rfl, Book.countInFlight,
    countP_entry fun status => decide (status = .requested)]
  simp only [requested_status]

theorem Holds.countCandidates_eq :
    t.countCandidates peer = Book.countCandidates peer (order.map entry) := by
  rw [Tracker.countCandidates, holds.peerinfo_map peer _ rfl, Book.countCandidates,
    countP_entry fun status => decide (status = .candidate)]
  have split := countP_status order peer
  dsimp only
  omega

theorem Holds.count_eq : t.count peer = Book.count peer (order.map entry) := by
  rw [Tracker.count, holds.peerinfo_map peer PeerInfo.total rfl, Book.count, countP_map]
  rfl

omit peer in
theorem Holds.size_eq : t.size = (order.map entry).length := by
  rw [Tracker.size, holds.byPeer.length_eq, length_map]

end Counters

theorem statistics_append (view : List Announcement) (ann : Announcement) :
    statistics (view ++ [ann]) = Function.update (statistics view) ann.peer
      (let info := (statistics view ann.peer).getD ⟨0, 0, 0⟩
      some ⟨info.total + 1, info.completed + (if ann.state = .completed then 1 else 0),
        info.requested + (if ann.state = .requested then 1 else 0)⟩) := by
  funext peer
  rw [statistics_getD]
  by_cases here : peer = ann.peer
  · rw [here, Function.update_self, statistics]
    simp [countP_append, countP_cons]
  · have other : ¬ann.peer = peer := fun same => here same.symm
    rw [Function.update_of_ne here, statistics, statistics]
    simp [countP_append, other]

theorem recomputePeerInfo_eq (index : Index) : recomputePeerInfo index = statistics index.byPeer := by
  rw [recomputePeerInfo]
  induction index.byPeer using reverseRecOn with
  | nil => rfl
  | append_singleton view ann ih =>
    rw [foldl_append, ih, statistics_append]
    rfl

theorem computeTxHashInfo_eq (index : Index) (txhash : Uint256) :
    computeTxHashInfo computer index txhash =
      let view := index.byPeer.filter (·.txhash = txhash)
      if view = [] then none else some (view.foldl (TxHashInfo.add computer) {}) := by
  rw [computeTxHashInfo]
  induction index.byPeer using reverseRecOn with
  | nil => rfl
  | append_singleton view ann ih =>
    rw [foldl_append]
    dsimp only [foldl_cons, foldl_nil]
    by_cases here : txhash = ann.txhash
    · rw [← here, update_self, ih, filter_append,
        filter_cons_of_pos (by simp [here])]
      generalize view.filter (·.txhash = txhash) = before
      cases before with
      | nil => rfl
      | cons x rest => simp
    · rw [update_of_ne here, ih, filter_append,
        filter_cons_of_neg (by simpa using fun same => here same.symm)]
      simp

structure Summary (computer : PriorityComputer) (view : List Announcement) (info : TxHashInfo) :
    Prop where
  delayed : info.candidateDelayed = view.countP (·.state = .candidateDelayed)
  ready : info.candidateReady = view.countP (·.state = .candidateReady)
  best : info.candidateBest = view.countP (·.state = .candidateBest)
  requested : info.requested = view.countP (·.state = .requested)
  bestPriority : info.candidateBest ≠ 0 →
    ∃ x ∈ view, x.state = .candidateBest ∧ info.priorityCandidateBest = computer.of x
  readyPriority : info.priorityBestCandidateReady = 0 ∨
    ∃ x ∈ view, x.state = .candidateReady ∧ info.priorityBestCandidateReady = computer.of x
  peers : info.peers = view.map (·.peer)

theorem Summary.add {info : TxHashInfo} (summary : Summary computer view info) (ann : Announcement) :
    Summary computer (view ++ [ann]) (info.add computer ann) := by
  have last : ann ∈ view ++ [ann] := mem_append_right _ mem_cons_self
  constructor
  · simp [TxHashInfo.add, summary.delayed, countP_append, countP_cons]
  · simp [TxHashInfo.add, summary.ready, countP_append, countP_cons]
  · simp [TxHashInfo.add, summary.best, countP_append, countP_cons]
  · simp [TxHashInfo.add, summary.requested, countP_append, countP_cons]
  · intro some_
    by_cases best : ann.state = .candidateBest
    · exact ⟨ann, last, best, if_pos best⟩
    · have before : info.candidateBest ≠ 0 := by simpa [TxHashInfo.add, best] using some_
      obtain ⟨x, inX, state, same⟩ := summary.bestPriority before
      exact ⟨x, mem_append_left _ inX, state, (if_neg best).trans same⟩
  · have old : info.priorityBestCandidateReady = 0 ∨ ∃ x ∈ view ++ [ann],
        x.state = .candidateReady ∧ info.priorityBestCandidateReady = computer.of x := by
      rcases summary.readyPriority with zero | ⟨x, inX, state, same⟩
      · exact .inl zero
      · exact .inr ⟨x, mem_append_left _ inX, state, same⟩
    rw [TxHashInfo.add]
    dsimp only
    split
    next state =>
      split
      · exact .inr ⟨ann, last, state, rfl⟩
      · exact old
    · exact old
  · simp [TxHashInfo.add, summary.peers]

theorem summary_foldl (view : List Announcement) :
    Summary computer view (view.foldl (TxHashInfo.add computer) {}) := by
  induction view using reverseRecOn with
  | nil => exact ⟨rfl, rfl, rfl, rfl, fun some_ => absurd rfl some_, .inl rfl, rfl⟩
  | append_singleton view ann ih =>
    rw [foldl_append]
    exact ih.add ann

theorem noneAdjacent_of_nodup {peers : List NodeId} (nodup : peers.Nodup) :
    noneAdjacent peers = true := by
  induction peers with
  | nil => rfl
  | cons p peers ih =>
    cases peers with
    | nil => rfl
    | cons q rest =>
      obtain ⟨outside, rest_⟩ := nodup_cons.mp nodup
      rw [noneAdjacent, ih rest_, Bool.and_true, decide_eq_true_eq]
      rintro rfl
      exact outside mem_cons_self

theorem countP_le_one {q : Announcement → Bool} (nodup : view.Nodup)
    (single : ∀ x ∈ view, ∀ y ∈ view, q x = true → q y = true → x = y) : view.countP q ≤ 1 := by
  rw [countP_eq_length_filter]
  have inside {x : Announcement} (inX : x ∈ view.filter q) := mem_filter.mp inX
  have distinct := nodup.filter q
  cases kept : view.filter q with
  | nil => exact Nat.zero_le 1
  | cons x rest =>
    rw [kept] at inside distinct
    cases rest with
    | nil => exact Nat.le_refl 1
    | cons y rest =>
      obtain ⟨inX, here⟩ := inside (x := x) mem_cons_self
      obtain ⟨inY, there⟩ := inside (x := y) (mem_cons_of_mem x mem_cons_self)
      have same := single x inX y inY here there
      exact absurd (same ▸ mem_cons_self) (nodup_cons.mp distinct).1

theorem countP_selected (view : List Announcement) :
    view.countP (·.state = .candidateBest) + view.countP (·.state = .requested) =
      view.countP (·.isSelected) := by
  induction view with
  | nil => rfl
  | cons x view ih =>
    rw [countP_cons, countP_cons, countP_cons, ← ih, isSelected]
    cases x.state <;> simp <;> omega

theorem Settled.checks {txhash : Uint256} {info : TxHashInfo}
    (settled : Settled computer (group order txhash)) (mem : ∀ x, x ∈ view ↔ x ∈ group order txhash)
    (nonempty : view ≠ []) (distinct : (view.map (·.peer)).Nodup)
    (summary : Summary computer view info) :
    info.candidateDelayed + info.candidateReady + info.candidateBest + info.requested > 0 ∧
    info.candidateBest + info.requested ≤ 1 ∧
    (info.candidateReady > 0 → info.candidateBest + info.requested = 1) ∧
    (info.candidateReady ≠ 0 ∧ info.candidateBest ≠ 0 →
      info.priorityCandidateBest ≥ info.priorityBestCandidateReady) ∧
    noneAdjacent (info.peers.mergeSort (· ≤ ·)) = true := by
  have selected : info.candidateBest + info.requested = view.countP (·.isSelected) := by
    rw [summary.best, summary.requested, countP_selected]
  have single : view.countP (·.isSelected) ≤ 1 := by
    apply countP_le_one distinct.of_map
    intro x inX y inY
    exact settled.single x ((mem x).mp inX) y ((mem y).mp inY)
  refine ⟨?_, ?_, ?_, ?_, ?_⟩
  · obtain ⟨x, inX⟩ := exists_mem_of_ne_nil view nonempty
    obtain ⟨y, inY, open_⟩ := settled.alive x ((mem x).mp inX)
    have counted (state : State) (same : y.state = state) :
        0 < view.countP (·.state = state) :=
      countP_pos_iff.mpr ⟨y, (mem y).mpr inY, by simpa using same⟩
    rw [summary.delayed, summary.ready, summary.best, summary.requested]
    cases state : y.state with
    | candidateDelayed | candidateReady | candidateBest | requested =>
      have := counted _ state
      omega
    | completed => exact absurd state open_
  · omega
  · intro some_
    rw [summary.ready] at some_
    obtain ⟨x, inX, ready⟩ := countP_pos_iff.mp some_
    obtain ⟨y, inY, chosen, _⟩ := settled.ready x ((mem x).mp inX) (of_decide_eq_true ready)
    have counted : 0 < view.countP (·.isSelected) :=
      countP_pos_iff.mpr ⟨y, (mem y).mpr inY, chosen⟩
    omega
  · rintro ⟨_, some_⟩
    obtain ⟨x, inX, best, priority⟩ := summary.bestPriority some_
    rw [priority]
    rcases summary.readyPriority with zero | ⟨y, inY, ready, same⟩
    · rw [zero]
      exact UInt64.zero_le
    · obtain ⟨z, inZ, chosen, bound⟩ := settled.ready y ((mem y).mp inY) ready
      rw [settled.single z inZ x ((mem x).mp inX) chosen (isSelected_iff.mpr (.inl best))] at bound
      rw [same]
      exact bound best
  · apply noneAdjacent_of_nodup
    rw [(mergeSort_perm _ _).nodup_iff, summary.peers]
    exact distinct

theorem sanityCheck (holds : Holds computer sequence t order)
    (selection : Selection computer order) : SanityCheck computer t := by
  constructor
  · rw [recomputePeerInfo_eq]
    funext peer
    rw [holds.peerinfo, statistics, statistics, holds.byPeer.countP_eq, holds.byPeer.countP_eq,
      holds.byPeer.countP_eq]
  · intro txhash info found
    rw [computeTxHashInfo_eq] at found
    dsimp only at found
    split at found
    · cases found
    rename_i nonempty
    cases found
    apply (selection txhash).checks _ nonempty _ (summary_foldl _)
    · intro x
      rw [mem_filter, holds.byPeer.mem_iff, decide_eq_true_eq]
      rfl
    · have unique := (unique_of_perm holds.byPeer holds.unique).filter (·.txhash = txhash)
      rw [Nodup, pairwise_map]
      apply unique.imp_of_mem
      intro x y inX inY apart same
      have hashX := of_decide_eq_true (mem_filter.mp inX).2
      have hashY := of_decide_eq_true (mem_filter.mp inY).2
      exact apart (Prod.ext same (hashX.trans hashY.symm))

end Qogecoin.TxRequest
