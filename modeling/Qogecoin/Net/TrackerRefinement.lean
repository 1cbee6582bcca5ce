import Qogecoin.Net.TrackerTime

/-! `TxRequestTracker` does what the book of announcements does. -/
namespace Qogecoin.TxRequest

open Coins OrderedIndex Tracker Loops List Function

variable {computer : PriorityComputer} {sequence : UInt64} {t : Tracker}
  {order order' : List Announcement} {a x y : Announcement}

theorem lowBits_lt (computer : PriorityComputer) (txhash : Uint256) (peer : NodeId) :
    (computer.lowBits txhash peer).toNat < 2 ^ 63 := by
  rw [PriorityComputer.lowBits, UInt64.toNat_shiftRight]
  have bound := UInt64.toNat_lt (((CSipHasher.init computer.k0 computer.k1).write txhash.bytes).writeUint64
    (UInt64.ofInt peer)).finalize
  simp only [Nat.shiftRight_eq_div_pow]
  show _ / 2 ^ 1 < _
  omega

theorem priority_toNat (computer : PriorityComputer) (txhash : Uint256) (peer : NodeId)
    (preferred : Bool) : (computer.priority txhash peer preferred).toNat =
      2 ^ 63 * preferred.toNat + (computer.lowBits txhash peer).toNat := by
  have bound := lowBits_lt computer txhash peer
  rw [PriorityComputer.priority, UInt64.toNat_or]
  cases preferred with
  | false =>
    have high : ((false.toUInt64 <<< 63 : UInt64)).toNat = 0 := by decide
    rw [high, Nat.or_zero, Bool.toNat_false, Nat.mul_zero, Nat.zero_add]
  | true =>
    have high : ((true.toUInt64 <<< 63 : UInt64)).toNat = 2 ^ 63 * 1 := by decide
    rw [high, Nat.or_comm, ← Nat.two_pow_add_eq_or_of_lt bound]
    rfl

theorem noBetter_iff : Book.noBetter computer (entry x) (entry y) = true ↔
    computer.of x ≤ computer.of y := by
  rw [UInt64.le_iff_toNat_le, PriorityComputer.of, PriorityComputer.of, priority_toNat,
    priority_toNat]
  have boundX := lowBits_lt computer x.txhash x.peer
  have boundY := lowBits_lt computer y.txhash y.peer
  show (!x.preferred && y.preferred || decide (x.preferred = y.preferred) &&
    decide (computer.lowBits x.txhash x.peer ≤ computer.lowBits y.txhash y.peer)) = true ↔ _
  cases x.preferred <;> cases y.preferred <;> simp [UInt64.le_iff_toNat_le] <;> omega

variable {peer : NodeId} {txhash : Uint256}

variable {best : Bool}

theorem byPeerView_eq :
    byPeerView x = peerView peer best txhash ↔
      x.id = (peer, txhash) ∧ decide (x.state = .candidateBest) = best := by
  simp only [byPeerView, peerView, Announcement.id, EmbeddingLike.apply_eq_iff_eq, Prod.mk.injEq]
  constructor
  · rintro ⟨samePeer, state, sameHash⟩
    exact ⟨⟨samePeer, sameHash⟩, state⟩
  · rintro ⟨⟨samePeer, sameHash⟩, state⟩
    exact ⟨samePeer, state, sameHash⟩

theorem Holds.findByPeer_some (holds : Holds computer sequence t order) {view : ByPeerView}
    (found : t.findByPeer view = some x) : x ∈ order ∧ byPeerView x = view :=
  ⟨holds.byPeer.mem_iff.mp (mem_of_find?_eq_some found), by simpa using find?_some found⟩

theorem Holds.findByPeer_none (holds : Holds computer sequence t order) {view : ByPeerView}
    (missing : t.findByPeer view = none) (inX : x ∈ order) : byPeerView x ≠ view := by
  have other := find?_eq_none.mp missing x (holds.byPeer.mem_iff.mpr inX)
  simpa using other

theorem txHashView_le {state : State} (same : x.txhash = txhash) (below : state ≤ x.state) :
    txHashView txhash state 0 ≤ byTxHashView computer x := by
  simp only [byTxHashView, txHashView, Prod.Lex.le_iff, ofLex_toLex, same, lt_self_iff_false,
    false_or, true_and]
  exact below.lt_or_eq.imp_right fun equal => ⟨equal, Nat.zero_le _⟩

variable (holds : Holds computer sequence t order) (selection : Selection computer order)

include holds in
theorem forgetTxHash_spec (txhash : Uint256) :
    ∃ t', t.forgetTxHash computer txhash = .ok t' ∧
      Holds computer sequence t' (order.filter (·.txhash ≠ txhash)) := by
  have run := takeWhile_lowerBound (k := txHashView txhash .candidateDelayed 0)
    (q := fun x => decide (x.txhash = txhash)) holds.sortedTxHash
    (fun x _ same => txHashView_le (by simpa using same) (by cases x.state <;> decide))
    fun x _ y _ lower upper same => by
      simpa using byTxHashView_between lower upper (by simpa using same)
  have distinct := (unique_of_perm holds.byTxHash holds.unique).sublist
    (dropWhile_sublist (byTxHashView computer · < txHashView txhash .candidateDelayed 0))
  obtain ⟨t', erased, holds'⟩ := eraseWhile_spec holds txhash
    (lowerBound (byTxHashView computer) (txHashView txhash .candidateDelayed 0) t.index.byTxHash)
    (fun x inX => by
      rw [run] at inX
      exact holds.byTxHash.mem_iff.mp (mem_filter.mp inX).1) distinct
  refine ⟨t', erased, ?_⟩
  rw [run] at holds'
  have agree : order.filter (fun x => decide (x.txhash ≠ txhash)) =
      order.filter fun x => decide (x ∉ t.index.byTxHash.filter fun x => x.txhash = txhash) := by
    apply filter_congr
    intro x inX
    simp [holds.byTxHash.mem_iff, inX]
  rw [agree]
  exact holds'

theorem Selection.emplace (selection : Selection computer order)
    (delayed : a.state = .candidateDelayed) : Selection computer (order ++ [a]) := by
  refine (selection.local a.txhash ?_ ?_).selection
  · intro y other
    rw [mem_append, mem_singleton]
    constructor
    · rintro (old | rfl)
      · exact old
      · exact absurd rfl other
    · exact .inl
  · have mem (y : Announcement) : y ∈ group (order ++ [a]) a.txhash ↔
        y ∈ group order a.txhash ∨ y = a := by
      constructor
      · rintro ⟨inY, same⟩
        rcases mem_append.mp inY with old | new
        · exact .inl ⟨old, same⟩
        · exact .inr (mem_singleton.mp new)
      · rintro (⟨old, same⟩ | rfl)
        · exact ⟨mem_append_left _ old, same⟩
        · exact ⟨mem_append_right _ mem_cons_self, rfl⟩
    apply (selection a.txhash).of_fewer
    · intro y inY selected
      rcases (mem y).mp inY with old | rfl
      · exact old
      · simp [isSelected_iff, delayed] at selected
    · intro x inX ready
      rcases (mem x).mp inX with old | rfl
      · exact .inl ⟨old, fun y inY _ => (mem y).mpr (.inl inY)⟩
      · rw [delayed] at ready
        cases ready
    · exact fun _ _ => ⟨a, (mem a).mpr (.inr rfl), by simp [delayed]⟩

theorem knows_map_entry (peer : NodeId) (txhash : Uint256) :
    Book.knows peer txhash (order.map entry) = true ↔ ∃ x ∈ order, x.id = (peer, txhash) := by
  simp only [Book.knows, any_map, any_eq_true, comp_apply, Bool.and_eq_true,
    decide_eq_true_eq, Announcement.id, Prod.mk.injEq]
  rfl

include holds in
theorem id_of_findByPeer (found : t.findByPeer (peerView peer best txhash) = some x) :
    x ∈ order ∧ x.id = (peer, txhash) := by
  obtain ⟨inX, same⟩ := holds.findByPeer_some found
  exact ⟨inX, (byPeerView_eq.mp same).1⟩

include holds in
theorem absent_of_findByPeer (other : t.findByPeer (peerView peer false txhash) = none)
    (best : t.findByPeer (peerView peer true txhash) = none) :
    ∀ x ∈ order, x.id ≠ (peer, txhash) := by
  intro x inX same
  cases state : decide (x.state = .candidateBest) with
  | true => exact holds.findByPeer_none best inX (byPeerView_eq.mpr ⟨same, state⟩)
  | false => exact holds.findByPeer_none other inX (byPeerView_eq.mpr ⟨same, state⟩)

include holds selection in
theorem receivedInv_spec [Container Announcement] (peer : NodeId) (gtxid : GenTxid) (preferred : Bool) (reqtime : Int) :
    ∃ sequence' order', Holds computer sequence' (t.receivedInv computer peer gtxid preferred reqtime)
        order' ∧ Selection computer order' ∧
      order'.map entry = Book.receivedInv peer gtxid preferred reqtime (order.map entry) ∧
      (Book.knows peer gtxid.hash (order.map entry) = true ∧ order' = order ∧ sequence' = sequence ∨
        Book.knows peer gtxid.hash (order.map entry) = false ∧ sequence' = sequence + 1 ∧
        order'.map stable = order.map stable ++
          [(peer, gtxid.hash, preferred, BitVec.ofNat 59 sequence.toNat)]) := by
  rw [Tracker.receivedInv, Book.receivedInv, ← Bool.not_eq_true]
  simp only [knows_map_entry]
  by_cases present : ∃ x ∈ order, x.id = (peer, gtxid.hash)
  · rw [if_pos present]
    refine ⟨sequence, order, ?_, selection, rfl, .inl ⟨present, rfl, rfl⟩⟩
    split
    · exact holds
    rename_i notBest
    split
    · exact holds
    next notOther =>
      obtain ⟨x, member, same⟩ := present
      exact absurd same (absent_of_findByPeer holds (Option.not_isSome_iff_eq_none.mp notOther)
        (Option.not_isSome_iff_eq_none.mp notBest) x member)
  · have none (best : Bool) : ¬(t.findByPeer (peerView peer best gtxid.hash)).isSome = true := by
      intro found
      obtain ⟨x, found⟩ := Option.isSome_iff_exists.mp found
      exact present ⟨x, id_of_findByPeer holds found⟩
    rw [if_neg present, if_neg (none true)]
    split
    next found => exact absurd found (none false)
    refine ⟨sequence + 1, _, holds.emplace (fun x member same => present ⟨x, member, same⟩) rfl,
      selection.emplace rfl, map_append, .inr ⟨present, rfl, ?_⟩⟩
    rw [map_append, holds.currentSequence]
    rfl

def Leaves (computer : PriorityComputer) (sequence : UInt64) (order : List Announcement)
    (book : List Entry) (result : Except Crash Tracker) : Prop :=
  ∃ t' order', result = .ok t' ∧ Holds computer sequence t' order' ∧ Selection computer order' ∧
    (order'.map stable).Sublist (order.map stable) ∧ order'.map entry = book

include holds in
theorem find_either (peer : NodeId) (txhash : Uint256) :
    (∃ x ∈ order, x.id = (peer, txhash) ∧ (t.findByPeer (peerView peer false txhash)).or
      (t.findByPeer (peerView peer true txhash)) = some x) ∨
    (∀ x ∈ order, x.id ≠ (peer, txhash)) ∧ (t.findByPeer (peerView peer false txhash)).or
      (t.findByPeer (peerView peer true txhash)) = none := by
  cases first : t.findByPeer (peerView peer false txhash) with
  | some x =>
    obtain ⟨inX, same⟩ := id_of_findByPeer holds first
    exact .inl ⟨x, inX, same, rfl⟩
  | none =>
    cases second : t.findByPeer (peerView peer true txhash) with
    | some x =>
      obtain ⟨inX, same⟩ := id_of_findByPeer holds second
      exact .inl ⟨x, inX, same, rfl⟩
    | none => exact .inr ⟨absent_of_findByPeer holds first second, rfl⟩

theorem map_entry_complete (same : a.id = (peer, txhash)) :
    (mark a.id .completed order).map entry = (order.map entry).map fun e =>
      if e.peer = peer ∧ e.gtxid.hash = txhash then { e with status := .completed } else e := by
  rw [map_map, same]
  apply map_mark
  · intro x _ here
    exact (if_pos ⟨congrArg Prod.fst here, congrArg Prod.snd here⟩).symm
  · intro x _ apart
    exact (if_neg fun both => apart (Prod.ext both.1 both.2)).symm

include holds selection in
theorem cleanup_complete (member : a ∈ order) :
    Book.cleanup ((mark a.id .completed order).map entry) =
      Book.cleanupOf a.txhash ((mark a.id .completed order).map entry) := by
  apply Book.cleanup_eq_cleanupOf
  intro e inE other
  obtain ⟨x', inX', rfl⟩ := mem_map.mp inE
  obtain ⟨x, inX, rfl⟩ := mem_map.mp inX'
  have hash : (entry (update a.id (·.setState .completed) x)).gtxid.hash = x.txhash := by
    rw [update]
    split <;> rfl
  rw [hash] at other ⊢
  obtain ⟨y, inY, alive⟩ := (selection x.txhash).alive x ⟨inX, rfl⟩
  rw [alive_map_entry, any_eq_true]
  refine ⟨y, (mem_mark holds.unique member _ y).mpr (.inr ⟨inY.1, ?_⟩), ?_⟩
  · rintro rfl
    exact other inY.2.symm
  · simp [inY.2, alive]

include holds selection in
theorem receivedResponse_spec [Container Announcement] (peer : NodeId) (txhash : Uint256) :
    Leaves computer sequence order (Book.receivedResponse peer txhash (order.map entry))
      (t.receivedResponse computer peer txhash) := by
  rw [Tracker.receivedResponse]
  rcases find_either holds peer txhash with ⟨a, member, same, found⟩ | ⟨absent, missing⟩
  · obtain ⟨exist, t1, order1, made, holds1, resettled, agree, _⟩ :=
      makeCompleted_spec holds selection member
    rw [found]
    dsimp only
    rw [made, ok_bind]
    refine ⟨t1, order1, rfl, holds1, resettled.selection, stays_of_completed _ _ agree, ?_⟩
    rw [map_entry_of_coarse agree, map_entry_cleanupOf, Book.receivedResponse,
      ← map_entry_complete same, cleanup_complete holds selection member]
  · rw [missing]
    refine ⟨t, order, rfl, holds, selection, List.Sublist.refl _, ?_⟩
    have unchanged : ((order.map entry).map fun e =>
        if e.peer = peer ∧ e.gtxid.hash = txhash then { e with status := .completed } else e) =
          order.map entry := by
      rw [map_map]
      apply map_congr_left
      intro x inX
      refine if_neg ?_
      rintro ⟨samePeer, sameHash⟩
      exact absent x inX (Prod.ext samePeer sameHash)
    rw [Book.receivedResponse, unchanged, selection.cleanup_eq]

def request (expiry : Int) (ann : Announcement) : Announcement :=
  { ann with state := .requested, time := expiry }

def requestEntry (peer : NodeId) (txhash : Uint256) (expiry : Int) (e : Entry) : Entry :=
  if e.gtxid.hash ≠ txhash then e
  else if e.peer = peer then { e with status := .requested, time := expiry }
  else if e.status = .requested then { e with status := .completed }
  else e

theorem any_candidate :
    ((order.map entry).any fun e =>
      e.peer = peer && e.gtxid.hash = txhash && e.status = .candidate) = true ↔
      ∃ x ∈ order, x.id = (peer, txhash) ∧ x.state.status = .candidate := by
  simp only [any_map, any_eq_true, comp_apply, Bool.and_eq_true,
    decide_eq_true_eq, Announcement.id, Prod.mk.injEq]
  rfl

include holds selection in
theorem request_spec [Container Announcement] {u : Announcement → Announcement} (member : a ∈ order)
    (candidate : a.state.status = .candidate) (expiry : Int) {t1 : Tracker}
    (holds1 : Holds computer sequence t1 (order.map u)) (keeps : u a = a)
    (same : ∀ x, stable (u x) = stable x)
    (others : ∀ x ∈ order, x.txhash ≠ a.txhash → u x = x)
    (unselects : ∀ x ∈ order, x.txhash = a.txhash → (u x).isSelected = true → x = a)
    (entries : ∀ x ∈ order, x ≠ a →
      entry (u x) = requestEntry a.peer a.txhash expiry (entry x)) :
    Leaves computer sequence order (Book.requestedTx a.peer a.txhash expiry (order.map entry))
      (t1.modify computer a.id (request expiry)) := by
  have inA : a ∈ order.map u := mem_map.mpr ⟨a, member, keeps⟩
  obtain ⟨t2, changed, holds2⟩ := holds1.modify inA (request expiry) fun _ => rfl
  have mem := mem_update_iff holds1.unique inA (request expiry)
  have hash (x : Announcement) : (u x).txhash = x.txhash := congrArg (·.2.1) (same x)
  refine ⟨t2, _, changed, holds2, ?_, ?_, ?_⟩
  · refine (selection.local a.txhash ?_ ?_).selection
    · intro y elsewhere
      constructor
      · intro inY
        rcases (mem y).mp inY with rfl | ⟨inY, _⟩
        · exact absurd rfl elsewhere
        · obtain ⟨x, inX, rfl⟩ := mem_map.mp inY
          rw [hash] at elsewhere
          rw [others x inX elsewhere]
          exact inX
      · intro inY
        refine (mem y).mpr (.inr ⟨mem_map.mpr ⟨y, inY, others y inY elsewhere⟩, ?_⟩)
        rintro rfl
        exact elsewhere rfl
    · refine .of_selected (a := request expiry a) ⟨(mem _).mpr (.inl rfl), rfl⟩ rfl ?_ nofun
      rintro y ⟨inY, sameHash⟩ chosen
      rcases (mem y).mp inY with rfl | ⟨inY, other⟩
      · rfl
      · obtain ⟨x, inX, rfl⟩ := mem_map.mp inY
        rw [hash] at sameHash
        rw [unselects x inX sameHash chosen] at other
        exact absurd keeps other
  · rw [map_map, map_map]
    refine (map_congr_left fun x _ => ?_) ▸ .refl _
    rw [comp_apply, comp_apply, ← same x, update]
    split <;> rfl
  · rw [Book.requestedTx, if_pos (any_candidate.mpr ⟨a, member, rfl, candidate⟩), map_map,
      map_map, map_map]
    apply map_congr_left
    intro x inX
    rw [comp_apply, comp_apply, comp_apply, update]
    by_cases here : x = a
    · rw [here, keeps, if_pos rfl, if_neg (show ¬(entry a).gtxid.hash ≠ a.txhash from
        not_not.mpr rfl), if_pos (show (entry a).peer = a.peer from rfl)]
      rfl
    · have apart : (u x).id ≠ a.id := by
        intro equal
        have identity : (u x).id = x.id :=
          Prod.ext (congrArg (·.1) (same x)) (congrArg (·.2.1) (same x))
        exact here (eq_of_id holds.unique inX member (identity.symm.trans equal))
      rw [if_neg apart]
      exact entries x inX here

theorem requestEntry_kept {expiry : Int} (other : x.peer ≠ peer)
    (unrequested : x.state ≠ .requested) (txhash : Uint256) :
    entry x = requestEntry peer txhash expiry (entry x) := by
  rw [requestEntry]
  split
  · rfl
  · rw [if_neg (show (entry x).peer ≠ peer from other), if_neg]
    exact fun requested => unrequested (requested_status.mp requested)

theorem requestEntry_elsewhere {expiry : Int} (other : x.txhash ≠ txhash) :
    entry x = requestEntry peer txhash expiry (entry x) := by
  rw [requestEntry, if_pos (show (entry x).gtxid.hash ≠ txhash from other)]

theorem peer_ne (unique : UniqueIds order) (member : a ∈ order)
    (inX : x ∈ order) (other : x ≠ a) (same : x.txhash = a.txhash) : x.peer ≠ a.peer :=
  fun equal => other (eq_of_id unique inX member (Prod.ext equal same))

include holds in
theorem lowerBound_selected (selection : Selection computer order) (inY : y ∈ group order txhash)
    (chosen : y.isSelected = true) :
    (lowerBound (byTxHashView computer) (txHashView txhash .candidateBest 0)
      t.index.byTxHash).head? = some y := by
  have least : State.candidateBest ≤ y.state := by
    rcases isSelected_iff.mp chosen with kind | kind <;> rw [kind]
    decide
  obtain ⟨b, rest, found, inB, low, high⟩ :=
    lowerBound_head holds.sortedTxHash (holds.byTxHash.mem_iff.mpr inY.1) (txHashView_le inY.2 least)
  have same := byTxHashView_between low high inY.2
  have inB : b ∈ group order txhash := ⟨holds.byTxHash.mem_iff.mp inB, same⟩
  have above : .candidateBest ≤ b.state := by
    rw [byTxHashView, txHashView, txHashView, Prod.Lex.toLex_le_toLex] at low
    exact Prod.Lex.monotone_fst _ _ (low.resolve_left (same ▸ lt_irrefl _)).2
  have below := (byTxHashView_le high (same.trans inY.2.symm)).1
  have selected : b.isSelected = true := isSelected_iff_between.mpr
    ⟨lt_of_lt_of_le (by decide) above, below.trans_lt (isSelected_iff_between.mp chosen).2⟩
  rw [found, (selection txhash).single b inB y inY selected chosen]
  rfl

include holds selection in
theorem request_only [Container Announcement] (member : a ∈ order) (candidate : a.state.status = .candidate) (expiry : Int)
    (only : ∀ x ∈ order, x.txhash = a.txhash → x.isSelected = true → x = a) :
    Leaves computer sequence order (Book.requestedTx a.peer a.txhash expiry (order.map entry))
      (t.modify computer a.id (request expiry)) := by
  have plain : Holds computer sequence t (order.map id) := by rwa [map_id]
  refine request_spec holds selection member candidate expiry plain rfl (fun _ => rfl)
    (fun _ _ _ => rfl) only ?_
  intro x inX other
  by_cases sameHash : x.txhash = a.txhash
  · apply requestEntry_kept (peer_ne holds.unique member inX other sameHash)
    exact fun requested => other (only x inX sameHash (isSelected_iff.mpr (.inr requested)))
  · exact requestEntry_elsewhere sameHash

include holds selection in
theorem requestedTx_spec [Container Announcement] (peer : NodeId) (txhash : Uint256) (expiry : Int) :
    Leaves computer sequence order (Book.requestedTx peer txhash expiry (order.map entry))
      (t.requestedTx computer peer txhash expiry) := by
  have kept (none : ¬∃ x ∈ order, x.id = (peer, txhash) ∧ x.state.status = .candidate) :
      Leaves computer sequence order (Book.requestedTx peer txhash expiry (order.map entry))
        (.ok t) := by
    refine ⟨t, order, rfl, holds, selection, .refl _, ?_⟩
    rw [Book.requestedTx, if_neg fun any => none (any_candidate.mp any)]
  rw [Tracker.requestedTx]
  cases best : t.findByPeer (peerView peer true txhash) with
  | some a =>
    obtain ⟨member, view⟩ := holds.findByPeer_some best
    obtain ⟨same, state⟩ := byPeerView_eq.mp view
    obtain ⟨rfl, rfl⟩ := Prod.mk.injEq .. ▸ same
    have state : a.state = .candidateBest := by simpa using state
    apply request_only holds selection member (by rw [state]; rfl) expiry
    intro x inX sameHash chosen
    exact (selection a.txhash).single x ⟨inX, sameHash⟩ a ⟨member, rfl⟩ chosen
      (isSelected_iff.mpr (.inl state))
  | none =>
    cases found : t.findByPeer (peerView peer false txhash) with
    | none =>
      apply kept
      rintro ⟨x, inX, same, _⟩
      exact absent_of_findByPeer holds found best x inX same
    | some a =>
      obtain ⟨member, view⟩ := holds.findByPeer_some found
      obtain ⟨same, notBest⟩ := byPeerView_eq.mp view
      obtain ⟨rfl, rfl⟩ := Prod.mk.injEq .. ▸ same
      have notBest : a.state ≠ .candidateBest := by simpa using notBest
      dsimp only
      split
      next neither =>
        apply kept
        rintro ⟨x, inX, same, candidate⟩
        rw [eq_of_id holds.unique inX member same] at candidate
        cases state : a.state <;> rw [state] at candidate <;>
          first
          | exact neither.1 state
          | exact neither.2 state
          | exact notBest state
          | cases candidate
      next either =>
        have either : a.state = .candidateDelayed ∨ a.state = .candidateReady := by
          by_contra neither
          exact either (not_or.mp neither)
        have candidate : a.state.status = .candidate := by
          rcases either with state | state <;> rw [state] <;> rfl
        have unselected : ¬a.isSelected = true := by
          rw [isSelected_iff]
          rcases either with state | state <;> rw [state] <;> simp
        by_cases exists_ : ∃ y ∈ group order a.txhash, y.isSelected = true
        · obtain ⟨y, inY, chosen⟩ := exists_
          have other : y ≠ a := by
            rintro rfl
            exact unselected chosen
          have only {x : Announcement} (inX : x ∈ order) (sameHash : x.txhash = a.txhash)
              (selected : x.isSelected = true) : x = y :=
            (selection a.txhash).single x ⟨inX, sameHash⟩ y inY selected chosen
          have apart : a.id ≠ y.id := fun equal => other (eq_of_id holds.unique inY.1 member equal.symm)
          -- the one that was selected becomes another candidate, or is given up
          have step {state : State} (leaves : ¬(y.setState state).isSelected = true)
              (becomes : entry (y.setState state) =
                requestEntry a.peer a.txhash expiry (entry y)) :
              Leaves computer sequence order
                (Book.requestedTx a.peer a.txhash expiry (order.map entry)) (do
                  let t1 ← t.modify computer y.id (·.setState state)
                  t1.modify computer a.id (request expiry)) := by
            obtain ⟨t1, first, holds1⟩ := holds.mark inY.1 state
            rw [first, ok_bind]
            refine request_spec holds selection member candidate expiry holds1 (if_neg apart) ?_ ?_
              ?_ ?_
            · intro x
              rw [update]
              split <;> rfl
            · intro x _ elsewhere
              refine if_neg fun equal => elsewhere ?_
              exact (congrArg Prod.snd equal).trans inY.2
            · intro x inX sameHash selected
              rw [update] at selected
              split at selected
              next equal =>
                rw [eq_of_id holds.unique inX inY.1 equal] at selected
                exact absurd selected leaves
              next distinct =>
                exact absurd (by rw [only inX sameHash selected]) distinct
            · intro x inX notA
              rw [update]
              split
              next equal =>
                rw [eq_of_id holds.unique inX inY.1 equal]
                exact becomes
              next distinct =>
                by_cases sameHash : x.txhash = a.txhash
                · apply requestEntry_kept (peer_ne holds.unique member inX notA sameHash)
                  intro requested
                  exact distinct (by rw [only inX sameHash (isSelected_iff.mpr (.inr requested))])
                · exact requestEntry_elsewhere sameHash
          have otherPeer := peer_ne holds.unique member inY.1 other inY.2
          rw [lowerBound_selected holds selection inY chosen]
          dsimp only
          rw [if_neg (not_not.mpr inY.2)]
          rcases isSelected_iff.mp chosen with best | requested
          · rw [if_pos best]
            apply step (by simp [isSelected_iff])
            have same : entry (y.setState .candidateReady) = entry y := by
              rw [entry, entry, best]
              rfl
            rw [same]
            exact requestEntry_kept otherPeer (by simp [best]) a.txhash
          · rw [if_neg (by simp [requested]), if_pos requested]
            apply step (by simp [isSelected_iff])
            rw [requestEntry, if_neg (not_not.mpr (show (entry y).gtxid.hash = a.txhash from inY.2)),
              if_neg (show (entry y).peer ≠ a.peer from otherPeer),
              if_pos (show (entry y).status = .requested from requested_status.mpr requested)]
            rfl
        · have idle {x : Announcement} (inX : x ∈ order) (sameHash : x.txhash = a.txhash) :
              ¬x.isSelected = true := fun selected => exists_ ⟨x, ⟨inX, sameHash⟩, selected⟩
          have plainly := request_only holds selection member candidate expiry
            fun x inX sameHash chosen => absurd chosen (idle inX sameHash)
          split
          · exact plainly
          rename_i b found
          have inB : b ∈ order := holds.byTxHash.mem_iff.mp
            ((dropWhile_sublist _).subset (mem_of_head? found))
          split
          · exact plainly
          next sameHash =>
            have passive := idle inB (not_not.mp sameHash)
            rw [isSelected_iff, not_or] at passive
            rw [if_neg passive.1, if_neg passive.2]
            exact plainly

theorem Selection.erase_completed (selection : Selection computer order) (member : a ∈ order)
    (completed : a.state = .completed) (unique : UniqueIds order) :
    Resettled computer order a.txhash (order.filter (·.id ≠ a.id)) := by
  have mem (y : Announcement) : y ∈ order.filter (·.id ≠ a.id) ↔ y ∈ order ∧ y ≠ a := by
    rw [mem_filter]
    constructor
    · rintro ⟨inY, apart⟩
      refine ⟨inY, ?_⟩
      rintro rfl
      simp at apart
    · rintro ⟨inY, other⟩
      exact ⟨inY, by simpa using fun equal => other (eq_of_id unique inY member equal)⟩
  have kept {y : Announcement} (inY : y ∈ group order a.txhash) (open_ : y.state ≠ .completed) :
      y ∈ group (order.filter (·.id ≠ a.id)) a.txhash := by
    refine ⟨(mem y).mpr ⟨inY.1, ?_⟩, inY.2⟩
    rintro rfl
    exact open_ completed
  have old {x : Announcement} (inX : x ∈ group (order.filter (·.id ≠ a.id)) a.txhash) :
      x ∈ group order a.txhash := ⟨((mem x).mp inX.1).1, inX.2⟩
  apply selection.local a.txhash
  · intro y elsewhere
    rw [mem]
    constructor
    · exact fun both => both.1
    · intro inY
      refine ⟨inY, ?_⟩
      rintro rfl
      exact elsewhere rfl
  · apply (selection a.txhash).of_fewer
    · exact fun y inY _ => old inY
    · exact fun x inX _ => .inl ⟨old inX, fun y inY chosen =>
        kept inY (isSelected_iff_between.mp chosen).2.ne⟩
    · intro x inX
      obtain ⟨y, inY, open_⟩ := (selection a.txhash).alive x (old inX)
      exact ⟨y, kept inY open_, open_⟩

theorem eq_of_coarse_completed (agree : coarse y = coarse (a.setState .completed)) :
    y = a.setState .completed := by
  have right : coarse (a.setState .completed) = a.setState .completed := if_neg (by simp)
  rw [right] at agree
  rw [coarse] at agree
  split at agree
  · have state := congrArg Announcement.state agree
    cases state
  · exact agree

include holds selection in
theorem disconnect_step [Container Announcement] (member : a ∈ order) :
    ∃ t' order', (do
        let (exist, t1) ← t.makeCompleted computer a.id
        if exist then t1.erase a.id else .ok t1) = .ok t' ∧
      Holds computer sequence t' order' ∧ Selection computer order' ∧
      (order'.map stable).Sublist (order.map stable) ∧
      Book.disconnectedPeer a.peer (order'.map entry) =
        Book.disconnectedPeer a.peer (order.map entry) ∧
      ∀ y, y.peer = a.peer → (y ∈ order' ↔ y ∈ order ∧ y ≠ a) := by
  obtain ⟨exist, t1, order1, made, holds1, resettled, agree, exists_⟩ :=
    makeCompleted_spec holds selection member
  have kept := stays_of_completed _ _ agree
  have same (y : Announcement) (samePeer : y.peer = a.peer) (elsewhere : y.txhash ≠ a.txhash) :
      y ∈ order1 ↔ y ∈ order ∧ y ≠ a := by
    rw [resettled.outside y elsewhere]
    constructor
    · intro inY
      refine ⟨inY, ?_⟩
      rintro rfl
      exact elsewhere rfl
    · exact fun both => both.1
  have marked : Book.disconnectedPeer a.peer (order1.map entry) =
      Book.disconnectedPeer a.peer (order.map entry) := by
    rw [map_entry_of_coarse agree, map_entry_cleanupOf, Book.disconnectedPeer_cleanupOf,
      Book.disconnectedPeer, Book.disconnectedPeer]
    congr 1
    rw [mark, map_map, filter_map, filter_map]
    have blind : (fun e : Entry => decide (e.peer ≠ a.peer)) ∘ entry ∘
        update a.id (·.setState .completed) = fun x => decide (x.peer ≠ a.peer) := by
      funext x
      rw [comp_apply, comp_apply, update]
      split <;> rfl
    rw [blind]
    apply map_congr_left
    intro x inX
    have other : x.peer ≠ a.peer := by simpa using (mem_filter.mp inX).2
    rw [comp_apply, update, if_neg fun equal => other (congrArg Prod.fst equal)]
  have gone {y : Announcement} (equal : y.id = a.id) : ¬(y ∈ order ∧ y ≠ a) :=
    fun both => both.2 (eq_of_id holds.unique both.1 member equal)
  rw [made, ok_bind]
  cases exist with
  | true =>
    obtain ⟨b, inB, identity⟩ := exists_.mp rfl
    have completed : b = a.setState .completed := by
      obtain ⟨z, inZ, equal, sameId⟩ := exists_of_map_coarse agree.symm inB
      have inMarked := (cleanupOf_sublist _ _).subset inZ
      rcases (mem_mark holds.unique member .completed z).mp inMarked with rfl | other
      · exact eq_of_coarse_completed equal.symm
      · exact absurd other (gone (sameId.trans identity))
    obtain ⟨t2, erased, holds2⟩ := holds1.erase inB
    have resettled2 := resettled.selection.erase_completed inB (by rw [completed]; rfl) holds1.unique
    rw [identity] at erased holds2 resettled2
    refine ⟨t2, _, erased, holds2, resettled2.selection, ?_, ?_, ?_⟩
    · exact ((filter_sublist).map stable).trans kept
    · rw [← marked, Book.disconnectedPeer, Book.disconnectedPeer, filter_map, filter_map,
        filter_filter]
      congr 2
      apply filter_congr
      intro x _
      by_cases here : x.id = a.id
      · have samePeer : x.peer = a.peer := congrArg Prod.fst here
        simp [here, entry, samePeer]
      · simp [here]
    · intro y samePeer
      rw [mem_filter]
      by_cases sameHash : y.txhash = a.txhash
      · have equal : y.id = a.id := Prod.ext samePeer sameHash
        simp [equal, gone equal]
      · have apart : y.id ≠ a.id := fun equal => sameHash (congrArg Prod.snd equal)
        rw [same y samePeer sameHash]
        simp [apart]
  | false =>
    refine ⟨t1, order1, rfl, holds1, resettled.selection, kept, marked, ?_⟩
    intro y samePeer
    by_cases sameHash : y.txhash = a.txhash
    · have equal : y.id = a.id := Prod.ext samePeer sameHash
      constructor
      · intro inY
        cases exists_.mpr ⟨y, inY, equal⟩
      · exact fun both => absurd both (gone equal)
    · exact same y samePeer sameHash

theorem byPeerView_injective (same : byPeerView x = byPeerView y) : x.id = y.id := by
  rw [byPeerView_eq.mp same |>.1]
  rfl

theorem peerView_le (same : x.peer = peer) (below : best ≤ decide (x.state = .candidateBest)) :
    peerView peer best .null ≤ byPeerView x := by
  rw [byPeerView, peerView, peerView, Prod.Lex.le_iff]
  refine .inr ⟨same.symm, ?_⟩
  rw [ofLex_toLex, ofLex_toLex, Prod.Lex.le_iff]
  rcases below.lt_or_eq with less | equal
  · exact .inl less
  · exact .inr ⟨equal, Uint256.null_le _⟩

theorem peer_le_of_peerView (below : peerView peer best txhash ≤ byPeerView x) :
    peer ≤ x.peer := Prod.Lex.monotone_fst _ _ below

theorem byPeerView_peer (below : byPeerView x ≤ byPeerView y) : x.peer ≤ y.peer :=
  peer_le_of_peerView below

theorem head_of_peer {view : List Announcement} (sorted : Sorted byPeerView view)
    (bound : ∀ x ∈ view, peer ≤ x.peer) :
    view.head?.filter (·.peer = peer) = (view.filter (·.peer = peer)).head? := by
  cases view with
  | nil => rfl
  | cons x view =>
    by_cases here : x.peer = peer
    · simp [here]
    · have above : peer < x.peer := lt_of_le_of_ne (bound x mem_cons_self) (Ne.symm here)
      have nothing : view.filter (·.peer = peer) = [] := by
        rw [filter_eq_nil_iff]
        intro y inY
        have order := byPeerView_peer ((pairwise_cons.mp sorted).1 y inY)
        simpa using (above.trans_le order).ne'
      simp [here, nothing]

theorem byPeer_unique {l l' : List Announcement} (sorted : Sorted byPeerView l)
    (sorted' : Sorted byPeerView l') (unique : UniqueIds l)
    (unique' : UniqueIds l') (same : ∀ x, x ∈ l ↔ x ∈ l') : l = l' := by
  have nodup {l : List Announcement} (unique : UniqueIds l) : l.Nodup :=
    unique.imp fun apart equal => apart (by rw [equal])
  refine Perm.eq_of_pairwise ?_ sorted sorted'
    ((perm_ext_iff_of_nodup (nodup unique) (nodup unique')).mpr same)
  intro x y inX inY below above
  exact eq_of_id unique inX ((same y).mpr inY) (byPeerView_injective (le_antisymm below above))

theorem next_of_peer (holds : Holds computer sequence t order)
    (first : (t.index.byPeer.filter (·.peer = peer)).head? = some a) :
    ∃ after : List Announcement, next (·.id = a.id) t.index.byPeer = after.head? ∧
      t.index.byPeer.filter (·.peer = peer) = a :: after.filter (·.peer = peer) ∧
      after.head?.filter (·.peer = peer) = (after.filter (·.peer = peer)).head? := by
  have found := mem_filter.mp (mem_of_head? first)
  have samePeer : a.peer = peer := by simpa using found.2
  obtain ⟨before, after, located⟩ :=
    exists_located_id (unique_of_perm holds.byPeer holds.unique) found.1
  have sorted := holds.sortedPeer
  rw [located.split] at sorted
  have bound := (pairwise_cons.mp (pairwise_append.mp sorted).2.1)
  refine ⟨after, located.next_eq, ?_, ?_⟩
  · rw [located.split, filter_append, filter_cons_of_pos (by simpa using samePeer)] at first ⊢
    cases front : before.filter (·.peer = peer) with
    | nil => rfl
    | cons b rest =>
      rw [front] at first
      have inB : b ∈ before.filter (·.peer = peer) := by
        rw [front]
        exact mem_cons_self
      have apart := located.earlier b (mem_filter.mp inB).1
      rw [cons_append, head?_cons, Option.some.injEq] at first
      rw [first] at apart
      simp at apart
  · apply head_of_peer bound.2
    intro x inX
    rw [← samePeer]
    exact byPeerView_peer (bound.1 x inX)

theorem disconnect_finished (holds : Holds computer sequence t order)
    (selection : Selection computer order) (none_ : t.index.byPeer.filter (·.peer = peer) = []) :
    Leaves computer sequence order (Book.disconnectedPeer peer (order.map entry)) (.ok t) := by
  refine ⟨t, order, rfl, holds, selection, .refl _, ?_⟩
  have others : (order.map entry).filter (·.peer ≠ peer) = order.map entry := by
    rw [filter_eq_self]
    intro e member
    obtain ⟨x, inX, rfl⟩ := mem_map.mp member
    have other := filter_eq_nil_iff.mp none_ x (holds.byPeer.mem_iff.mpr inX)
    show decide (x.peer ≠ peer) = true
    simpa using other
  rw [Book.disconnectedPeer, others]
  exact selection.cleanup_eq.symm

theorem disconnectFrom_spec [Container Announcement] (peer : NodeId) (fuel : Nat) (it : Option Announcement)
    (holds : Holds computer sequence t order) (selection : Selection computer order)
    (next_ : it.filter (·.peer = peer) = (t.index.byPeer.filter (·.peer = peer)).head?)
    (enough : order.countP (·.peer = peer) ≤ fuel) :
    Leaves computer sequence order (Book.disconnectedPeer peer (order.map entry))
      (t.disconnectFrom computer peer fuel it) := by
  induction fuel generalizing t order it with
  | zero =>
    rw [Tracker.disconnectFrom]
    apply disconnect_finished holds selection
    rw [filter_eq_nil_iff]
    intro x inX
    exact countP_eq_zero.mp (Nat.le_zero.mp enough) x (holds.byPeer.mem_iff.mp inX)
  | succ fuel ih =>
    cases it with
    | none =>
      apply disconnect_finished holds selection
      exact List.head?_eq_none_iff.mp next_.symm
    | some a =>
      rw [Tracker.disconnectFrom]
      by_cases here : a.peer = peer
      · rw [if_neg (not_not.mpr here)]
        have first : (t.index.byPeer.filter (·.peer = peer)).head? = some a := by
          rw [← next_]
          simp [here]
        obtain ⟨after, follows, range, onward⟩ := next_of_peer holds first
        have member : a ∈ order := holds.byPeer.mem_iff.mp
          (mem_filter.mp (mem_of_head? first)).1
        obtain ⟨t1, order1, turned, holds1, selection1, stays1, book1, members⟩ :=
          disconnect_step holds selection member
        have distinct : UniqueIds (a :: after.filter (·.peer = peer)) := by
          rw [← range]
          exact (unique_of_perm holds.byPeer holds.unique).filter _
        have ordered : Sorted byPeerView (a :: after.filter (·.peer = peer)) := by
          rw [← range]
          exact holds.sortedPeer.filter _
        have remaining : t1.index.byPeer.filter (·.peer = peer) = after.filter (·.peer = peer) := by
          apply byPeer_unique (holds1.sortedPeer.filter _) (pairwise_cons.mp ordered).2
            ((unique_of_perm holds1.byPeer holds1.unique).filter _)
            (pairwise_cons.mp distinct).2
          intro x
          have inRange : x ∈ t.index.byPeer.filter (·.peer = peer) ↔
              x ∈ a :: after.filter (·.peer = peer) := by rw [range]
          rw [mem_filter, mem_cons, holds.byPeer.mem_iff] at inRange
          rw [mem_filter, holds1.byPeer.mem_iff]
          constructor
          · rintro ⟨inX, samePeer⟩
            have kept := (members x ((of_decide_eq_true samePeer).trans here.symm)).mp inX
            exact (inRange.mp ⟨kept.1, samePeer⟩).resolve_left kept.2
          · intro inX
            obtain ⟨old, samePeer⟩ := inRange.mpr (.inr inX)
            refine ⟨(members x ((of_decide_eq_true samePeer).trans here.symm)).mpr ⟨old, ?_⟩,
              samePeer⟩
            rintro rfl
            exact (pairwise_cons.mp distinct).1 x inX rfl
        have fewer : order1.countP (·.peer = peer) ≤ fuel := by
          have before := holds.byPeer.countP_eq (·.peer = peer)
          have now := holds1.byPeer.countP_eq (·.peer = peer)
          rw [countP_eq_length_filter, range] at before
          rw [countP_eq_length_filter, remaining] at now
          rw [length_cons] at before
          omega
        obtain ⟨t', order', rest, holds', selection', stays, book⟩ :=
          ih (after.head?.filter (·.peer = peer)) holds1 selection1 (by
            rw [remaining, ← onward, Option.filter_filter]
            simp) fewer
        refine ⟨t', order', ?_, holds', selection', stays.trans stays1, ?_⟩
        · rw [← rest, follows]
          cases made : t.makeCompleted computer a.id with
          | error crash =>
            rw [made] at turned
            cases turned
          | ok result =>
            rw [made, ok_bind] at turned
            rw [ok_bind]
            dsimp only at turned ⊢
            split at turned
            next exist =>
              rw [if_pos exist, turned, ok_bind]
            next gone =>
              rw [if_neg gone, turned, ok_bind]
        · rw [book, ← here]
          exact book1
      · rw [if_pos here]
        apply disconnect_finished holds selection
        apply List.head?_eq_none_iff.mp
        rw [← next_]
        simp [here]

include holds selection in
theorem disconnectedPeer_spec [Container Announcement] (peer : NodeId) :
    Leaves computer sequence order (Book.disconnectedPeer peer (order.map entry))
      (t.disconnectedPeer computer peer) := by
  apply disconnectFrom_spec peer t.index.byPeer.length _ holds selection
  · have range := takeWhile_lowerBound (k := peerView peer false .null)
      (q := fun x => decide (x.peer = peer)) holds.sortedPeer
      (fun x _ same => peerView_le (of_decide_eq_true same) (Bool.false_le _))
      fun x _ y _ lower upper same => by
        have low := peer_le_of_peerView lower
        have high := byPeerView_peer upper
        rw [of_decide_eq_true same] at high
        simpa using le_antisymm high low
    rw [← range]
    cases lowerBound byPeerView (peerView peer false .null) t.index.byPeer with
    | nil => rfl
    | cons x rest =>
      rw [List.head?_cons, takeWhile_cons, Option.filter_some]
      split <;> rfl
  · rw [← holds.byPeer.countP_eq]
    exact countP_le_length

end Qogecoin.TxRequest
