import Qogecoin.Net.RequestBook
import Qogecoin.Net.TrackerSelection

/-! `SetTimePoint`: the tracker catches up with the clock, which may have gone backwards. -/
namespace Qogecoin.TxRequest

open Coins OrderedIndex Tracker Loops List Announcement Book Bool

variable {computer : PriorityComputer} {sequence : UInt64} {t : Tracker}
  {order order' changed : List Announcement} {a x y : Announcement} {now : Int}

def State.status : State → Status
  | .candidateDelayed | .candidateReady | .candidateBest => .candidate
  | .requested => .requested
  | .completed => .completed

def entry (ann : Announcement) : Entry :=
  ⟨ann.peer, ann.toGenTxid, ann.preferred, ann.state.status, ann.time⟩

variable (ann : Announcement) (it : NodeId × Uint256) (txhash : Uint256) {state : State}

theorem entry_coarse : entry (coarse ann) = entry ann := by
  rw [coarse]
  split_ifs with best
  · rw [entry, entry, best]
    rfl
  · rfl

theorem map_of_coarse {β : Type} {f : Announcement → β} (blind : ∀ x, f (coarse x) = f x)
    (agree : order'.map coarse = changed.map coarse) : order'.map f = changed.map f := by
  have through (list : List Announcement) : list.map f = (list.map coarse).map f := by
    rw [map_map]
    exact map_congr_left fun x _ => (blind x).symm
  rw [through order', agree, ← through]

theorem map_entry_of_coarse (agree : order'.map coarse = changed.map coarse) :
    order'.map entry = changed.map entry := map_of_coarse entry_coarse agree

theorem countP_of_coarse (agree : order'.map coarse = changed.map coarse)
    {q : Announcement → Bool} (blind : ∀ x, q (coarse x) = q x) :
    order'.countP q = changed.countP q := by
  have through (list : List Announcement) : list.countP q = (list.map q).countP id := by
    rw [countP_map]
    rfl
  rw [through order', map_of_coarse blind agree, ← through]

def stable (ann : Announcement) : NodeId × Uint256 × Bool × BitVec 59 :=
  (ann.peer, ann.txhash, ann.preferred, ann.sequence)

theorem stable_coarse : stable (coarse ann) = stable ann := by
  rw [coarse]
  split <;> rfl

theorem map_stable_of_coarse (agree : order'.map coarse = changed.map coarse) :
    order'.map stable = changed.map stable := map_of_coarse stable_coarse agree

theorem map_stable_mark (state : State) (order : List Announcement) :
    (mark it state order).map stable = order.map stable :=
  map_mark (fun _ _ _ => rfl) fun _ _ _ => rfl

section

variable (order : List Announcement)

theorem cleanupOf_sublist : (cleanupOf txhash order).Sublist order := by
  rw [cleanupOf]
  split
  · exact Sublist.refl _
  · exact filter_sublist

theorem completed_status : state.status = .completed ↔ state = .completed := by
  cases state <;> simp [State.status]

theorem requested_status : state.status = .requested ↔ state = .requested := by
  cases state <;> simp [State.status]

theorem alive_map_entry : alive txhash (order.map entry) =
      order.any fun x => x.txhash = txhash && x.state ≠ .completed := by
  rw [alive, any_map]
  congr
  funext x
  show (decide (x.txhash = txhash) && decide (x.state.status ≠ .completed)) = _
  simp [completed_status]

theorem map_entry_filter :
    (order.filter (·.txhash ≠ txhash)).map entry = Book.forgetTxHash txhash (order.map entry) := by
  rw [Book.forgetTxHash, filter_map]
  rfl

theorem map_entry_cleanupOf :
    (cleanupOf txhash order).map entry = Book.cleanupOf txhash (order.map entry) := by
  rw [cleanupOf, Book.cleanupOf, alive_map_entry]
  split
  · rfl
  · exact map_entry_filter txhash order

end

theorem Selection.lives (selection : Selection computer order) :
    ∀ e ∈ order.map entry, alive e.gtxid.hash (order.map entry) = true := by
  intro e member
  obtain ⟨x, inX, rfl⟩ := mem_map.mp member
  obtain ⟨y, inY, alive⟩ := (selection x.txhash).alive x ⟨inX, rfl⟩
  rw [alive_map_entry, any_eq_true]
  have same : y.txhash = (entry x).gtxid.hash := inY.2
  exact ⟨y, inY.1, by simp [same, alive]⟩

theorem Selection.cleanup_eq (selection : Selection computer order) :
    cleanup (order.map entry) = order.map entry := cleanup_eq_self selection.lives

def due (now : Int) (ann : Announcement) : Bool := ann.isWaiting && ann.time ≤ now

def early (now : Int) (ann : Announcement) : Bool := ann.isSelectable && now < ann.time

theorem due_coarse (now : Int) (ann : Announcement) : due now (coarse ann) = due now ann := by
  rw [coarse]
  split_ifs with best
  · simp [due, isWaiting, setState, best]
  · rfl

theorem early_coarse (now : Int) (ann : Announcement) : early now (coarse ann) = early now ann := by
  rw [coarse]
  split_ifs with best
  · rw [early, early, show ann.isSelectable = true by simp [isSelectable, best]]
    rfl
  · rfl

theorem byTimeView_le (below : byTimeView x ≤ byTimeView y) :
    getWaitState x < getWaitState y ∨ getWaitState x = getWaitState y ∧ x.time ≤ y.time := by
  simpa [byTimeView, Prod.Lex.le_iff] using below

theorem getWaitState_waiting : getWaitState x = .futureEvent ↔ x.isWaiting = true := by
  rw [getWaitState]
  split
  · simp_all
  · split <;> simp_all

theorem getWaitState_selectable : getWaitState x = .pastEvent ↔ x.isSelectable = true := by
  obtain ⟨txhash, time, peer, seq, preferred, isWtxid, state⟩ := x
  cases state <;> simp [getWaitState, isWaiting, isSelectable]

theorem Holds.due_head (holds : Holds computer sequence t order)
    (first : t.index.byTime.head? = some a) (inX : x ∈ order) (pending : due now x = true) :
    due now a = true := by
  have inside := holds.byTime.mem_iff.mpr inX
  have sorted := holds.sortedTime
  cases list : t.index.byTime with
  | nil =>
    rw [list] at first
    cases first
  | cons b rest =>
    rw [list] at first inside sorted
    cases first
    rcases mem_cons.mp inside with rfl | later
    · exact pending
    · simp only [due, and_eq_true, decide_eq_true_eq] at pending ⊢
      have waits := getWaitState_waiting.mpr pending.1
      rcases byTimeView_le ((pairwise_cons.mp sorted).1 x later) with less | ⟨same, time⟩
      · rw [waits] at less
        cases state : getWaitState a <;> rw [state] at less <;> exact absurd less (by decide)
      · rw [waits] at same
        exact ⟨getWaitState_waiting.mp same, time.trans pending.2⟩

theorem Holds.early_last (holds : Holds computer sequence t order)
    (last : t.index.byTime.getLast? = some a) (inX : x ∈ order) (ready : early now x = true) :
    early now a = true := by
  have inside := holds.byTime.mem_iff.mpr inX
  have sorted := holds.sortedTime
  obtain ⟨front, list⟩ := getLast?_eq_some_iff.mp last
  rw [list] at inside sorted
  rcases mem_append.mp inside with earlier | same
  · simp only [early, and_eq_true, decide_eq_true_eq] at ready ⊢
    have past := getWaitState_selectable.mpr ready.1
    have below := (pairwise_append.mp sorted).2.2 x earlier a mem_cons_self
    rcases byTimeView_le below with less | ⟨same, time⟩
    · rw [past] at less
      cases state : getWaitState a <;> rw [state] at less <;> exact absurd less (by decide)
    · rw [past] at same
      exact ⟨getWaitState_selectable.mp same.symm, ready.2.trans_le time⟩
  · rw [← mem_singleton.mp same]
    exact ready

theorem stays_of_completed
    (agree : order'.map coarse = (cleanupOf txhash (mark it .completed order)).map coarse) :
    (order'.map stable).Sublist (order.map stable) := by
  rw [map_stable_of_coarse agree, ← map_stable_mark it .completed order]
  exact (cleanupOf_sublist _ _).map stable

theorem map_entry_mark (unique : UniqueIds order) (member : a ∈ order)
    (same : a.state.status = state.status) :
    (mark a.id state order).map entry = order.map entry := by
  refine map_mark ?_ fun _ _ _ => rfl
  intro x inX here
  rw [eq_of_id unique inX member here, entry, entry, same]
  rfl

theorem isExpired_entry : isExpired now (entry x) = true ↔
    x.state = .requested ∧ x.time ≤ now := by
  show (decide (x.state.status = .requested) && decide (x.time ≤ now)) = true ↔ _
  simp [requested_status]

theorem expire_makeCompleted (unique : UniqueIds order) (member : a ∈ order)
    (requested : a.state = .requested) (time : a.time ≤ now)
    (agree : order'.map coarse = (cleanupOf a.txhash (mark a.id .completed order)).map coarse) :
    Book.expire now (order'.map entry) = Book.expire now (order.map entry) ∧
      (Book.expired now (order.map entry)).Perm
        ((a.peer, a.toGenTxid) :: Book.expired now (order'.map entry)) := by
  have pending : Book.isExpired now (entry a) = true := isExpired_entry.mpr ⟨requested, time⟩
  have completed : ¬Book.isExpired now (entry (a.setState .completed)) = true := by
    simp [isExpired_entry]
  rw [map_entry_of_coarse agree, map_entry_cleanupOf, Book.expire_cleanupOf,
    Book.expired_cleanupOf]
  constructor
  · rw [Book.expire, Book.expire, map_map, map_map]
    congr 1
    refine map_mark ?_ fun _ _ _ => rfl
    intro x inX same
    rw [Function.comp_apply, Function.comp_apply, eq_of_id unique inX member same, Book.complete,
      if_neg completed, Book.complete, if_pos pending]
    rfl
  · obtain ⟨before, after, located⟩ := exists_located_id unique member
    rw [mark, map_update_eq, located.map_eq, located.split, Book.expired, Book.expired, map_append,
      map_append, map_cons, map_cons, filter_append, filter_append,
      filter_cons_of_pos pending, filter_cons_of_neg completed, map_append,
      map_append, map_cons]
    exact perm_middle

theorem Selection.expire_nothing (selection : Selection computer order)
    (none : ∀ x ∈ order, due now x = false) :
    expire now (order.map entry) = order.map entry ∧
      expired now (order.map entry) = [] := by
  have pending {x : Announcement} (inX : x ∈ order) : isExpired now (entry x) = false := by
    by_contra expired
    obtain ⟨requested, time⟩ := isExpired_entry.mp (by simpa using expired)
    have waits := none x inX
    simp [due, isWaiting, requested] at waits
    omega
  constructor
  · have same : (order.map entry).map (complete now) = order.map entry := by
      rw [map_map]
      apply map_congr_left
      intro x inX
      exact if_neg (by simp [pending inX])
    rw [expire, same, selection.cleanup_eq]
  · have empty : (order.map entry).filter (isExpired now) = [] := by
      rw [filter_eq_nil_iff]
      intro e member
      obtain ⟨x, inX, rfl⟩ := mem_map.mp member
      simp [pending inX]
    rw [expired, empty]
    rfl

theorem countP_due_mark (unique : UniqueIds order) (member : a ∈ order)
    (pending : due now a = true) (settles : (a.setState state).isWaiting = false) :
    (mark a.id state order).countP (due now) + 1 = order.countP (due now) := by
  obtain ⟨rest, counts⟩ := countP_split unique member
  obtain ⟨whole, after, _⟩ := counts (due now)
  rw [mark, whole, after, if_pos pending, if_neg (by simp [due, settles])]

def Passes (computer : PriorityComputer) (sequence : UInt64) (now : Int)
    (order : List Announcement) (acc : List (NodeId × GenTxid))
    (result : Except Crash (List (NodeId × GenTxid) × Tracker)) : Prop :=
  ∃ expired t' order', result = .ok (acc ++ expired, t') ∧ Holds computer sequence t' order' ∧
    Selection computer order' ∧ (order'.map stable).Sublist (order.map stable) ∧
    order'.map entry = Book.expire now (order.map entry) ∧
    expired.Perm (Book.expired now (order.map entry)) ∧ ∀ x ∈ order', due now x = false

theorem passTime_stops (acc : List (NodeId × GenTxid)) (holds : Holds computer sequence t order)
    (selection : Selection computer order) (none : ∀ x ∈ order, due now x = false) :
    Passes computer sequence now order acc (.ok (acc, t)) := by
  obtain ⟨book, expired⟩ := selection.expire_nothing none
  exact ⟨[], t, order, by simp, holds, selection, .refl _, book.symm, by rw [expired], none⟩

theorem passTime_spec [Container Announcement] (fuel : Nat) (acc : List (NodeId × GenTxid))
    (holds : Holds computer sequence t order) (selection : Selection computer order)
    (enough : order.countP (due now) ≤ fuel) :
    Passes computer sequence now order acc (t.passTime computer now fuel acc) := by
  induction fuel generalizing t order acc with
  | zero =>
    apply passTime_stops acc holds selection
    simpa using countP_eq_zero.mp (Nat.le_zero.mp enough)
  | succ fuel ih =>
    rw [passTime]
    cases first : t.index.byTime.head? with
    | none =>
      have empty := head?_eq_none_iff.mp first
      have perm := holds.byTime
      rw [empty] at perm
      apply passTime_stops acc holds selection
      rw [nil_perm.mp perm]
      simp
    | some a =>
      have member := holds.byTime.mem_iff.mp (mem_of_head? first)
      dsimp only
      split
      next delayed =>
        have pending : due now a = true := by simp [due, isWaiting, delayed]
        obtain ⟨t1, order1, promoted, holds1, selection1, agree⟩ :=
          promoteCandidateReady_spec holds selection member delayed.1
        have count := countP_due_mark holds.unique member pending
          (show (a.setState .candidateReady).isWaiting = false from rfl)
        rw [← countP_of_coarse agree (due_coarse now)] at count
        have same : order1.map entry = order.map entry := by
          rw [map_entry_of_coarse agree]
          exact map_entry_mark holds.unique member (by rw [delayed.1]; rfl)
        obtain ⟨expired, t', order', ran, holds', selection', stays, book, expiry, none⟩ :=
          ih acc holds1 selection1.selection (by omega)
        rw [promoted, ok_bind]
        rw [map_stable_of_coarse agree, map_stable_mark] at stays
        rw [same] at book expiry
        exact ⟨expired, t', order', ran, holds', selection', stays, book, expiry, none⟩
      · split
        next notDelayed requested =>
          have pending : due now a = true := by simp [due, isWaiting, requested]
          obtain ⟨exist, t1, order1, made, holds1, selection1, agree, _⟩ :=
            makeCompleted_spec holds selection member
          have count := countP_due_mark holds.unique member pending
            (show (a.setState .completed).isWaiting = false from rfl)
          have fewer : order1.countP (due now) ≤
              (mark a.id .completed order).countP (due now) := by
            rw [countP_of_coarse agree (due_coarse now)]
            exact (cleanupOf_sublist _ _).countP_le
          obtain ⟨book1, expired1⟩ :=
            expire_makeCompleted holds.unique member requested.1 requested.2 agree
          obtain ⟨expired, t', order', ran, holds', selection', stays, book, expiry, none⟩ :=
            ih (acc ++ [(a.peer, a.toGenTxid)]) holds1 selection1.selection (by omega)
          rw [made, ok_bind]
          refine ⟨(a.peer, a.toGenTxid) :: expired, t', order', ?_, holds', selection', ?_, ?_, ?_,
            none⟩
          · rw [← append_cons] at ran
            exact ran
          · exact stays.trans (stays_of_completed _ _ agree)
          · rw [book, book1]
          · exact (expiry.cons _).trans expired1.symm
        next notDelayed notRequested =>
          apply passTime_stops acc holds selection
          intro x inX
          by_contra pending
          have head := holds.due_head first inX (by simpa using pending)
          simp only [due, isWaiting, and_eq_true, or_eq_true,
            decide_eq_true_eq] at head
          rcases head.1 with requested | delayed
          · exact notRequested ⟨requested, head.2⟩
          · exact notDelayed ⟨delayed, head.2⟩

theorem demote_spec [Container Announcement] (fuel : Nat) (holds : Holds computer sequence t order)
    (selection : Selection computer order) (enough : order.countP (early now) ≤ fuel)
    (waits : order.countP (due now) = 0) :
    ∃ t' order', t.demote computer now fuel = .ok t' ∧ Holds computer sequence t' order' ∧
      Selection computer order' ∧ order'.map stable = order.map stable ∧
      order'.map entry = order.map entry ∧ order'.countP (due now) = 0 ∧
      order'.countP (early now) = 0 := by
  induction fuel generalizing t order with
  | zero =>
    exact ⟨t, order, rfl, holds, selection, rfl, rfl, waits, Nat.le_zero.mp enough⟩
  | succ fuel ih =>
    rw [demote]
    cases last : t.index.byTime.getLast? with
    | none =>
      have perm := holds.byTime
      rw [getLast?_eq_none_iff.mp last] at perm
      have empty := nil_perm.mp perm
      exact ⟨t, order, rfl, holds, selection, rfl, rfl, waits, by rw [empty]; rfl⟩
    | some a =>
      have member := holds.byTime.mem_iff.mp (mem_of_getLast? last)
      dsimp only
      split
      next ready =>
        have isEarly : early now a = true := by simpa [early] using ready
        obtain ⟨t1, order1, changed, holds1, selection1, agree⟩ :=
          changeAndReselect_spec holds selection member (.inr rfl) fun same => by cases same
        obtain ⟨rest, counts⟩ := countP_split holds.unique member
        obtain ⟨whole, after, _⟩ := counts (early now)
        obtain ⟨whole', after', _⟩ := counts (due now)
        have fewer : order1.countP (early now) + 1 = order.countP (early now) := by
          rw [countP_of_coarse agree (early_coarse now), mark, after, whole, if_pos isEarly,
            if_neg (by simp [early, isSelectable])]
        have waits1 : order1.countP (due now) = 0 := by
          rw [countP_of_coarse agree (due_coarse now), mark, after', if_neg]
          · omega
          · show ¬(true && decide (a.time ≤ now)) = true
            simpa using ready.2
        have same : order1.map entry = order.map entry := by
          rw [map_entry_of_coarse agree]
          apply map_entry_mark holds.unique member
          rcases (show a.state = .candidateReady ∨ a.state = .candidateBest by
            simpa [isSelectable] using ready.1) with state | state <;> rw [state] <;> rfl
        obtain ⟨t', order', ran, holds', selection', stays, book, none, none'⟩ :=
          ih holds1 selection1.selection (by omega) waits1
        rw [changed, ok_bind]
        rw [map_stable_of_coarse agree, map_stable_mark] at stays
        rw [same] at book
        exact ⟨t', order', ran, holds', selection', stays, book, none, none'⟩
      next settled =>
        refine ⟨t, order, rfl, holds, selection, rfl, rfl, waits, ?_⟩
        rw [countP_eq_zero]
        intro x inX isEarly
        have final := holds.early_last last inX isEarly
        exact settled (by simpa [early] using final)

theorem setTimePoint_spec [Container Announcement] (now : Int) (holds : Holds computer sequence t order)
    (selection : Selection computer order) :
    ∃ expired t' order', t.setTimePoint computer now = .ok (expired, t') ∧
      Holds computer sequence t' order' ∧ Selection computer order' ∧
      (order'.map stable).Sublist (order.map stable) ∧
      order'.map entry = Book.expire now (order.map entry) ∧
      expired.Perm (Book.expired now (order.map entry)) ∧
      ∀ x ∈ order', due now x = false ∧ early now x = false := by
  have enough : order.countP (due now) ≤ t.index.byTime.length := by
    rw [holds.byTime.length_eq]
    exact countP_le_length
  obtain ⟨expired, t1, order1, passed, holds1, selection1, stays1, book1, expiry, waits⟩ :=
    passTime_spec t.index.byTime.length [] holds selection enough
  have enough1 : order1.countP (early now) ≤ t1.index.byTime.length := by
    rw [holds1.byTime.length_eq]
    exact countP_le_length
  have waits1 : order1.countP (due now) = 0 := by
    rw [countP_eq_zero]
    intro x inX
    simp [waits x inX]
  obtain ⟨t2, order2, demoted, holds2, selection2, stays2, book2, none, none'⟩ :=
    demote_spec t1.index.byTime.length holds1 selection1 enough1 waits1
  refine ⟨expired, t2, order2, ?_, holds2, selection2, by rw [stays2]; exact stays1,
    by rw [book2, book1], expiry, ?_⟩
  · rw [setTimePoint, passed, ok_bind]
    dsimp only
    rw [demoted, ok_bind]
    rfl
  · intro x inX
    constructor
    · simpa using countP_eq_zero.mp none x inX
    · simpa using countP_eq_zero.mp none' x inX

end Qogecoin.TxRequest
