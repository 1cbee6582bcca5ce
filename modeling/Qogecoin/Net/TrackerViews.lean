import Qogecoin.Net.TxRequest

/-! The container of `TxRequestTracker` and its statistics: what the elementary operations do to the
announcements, whatever the order of equivalent ones in the indexes. -/
namespace Qogecoin.TxRequest

open Coins OrderedIndex Tracker List Function Container

def update (it : NodeId × Uint256) (f : Announcement → Announcement) (ann : Announcement) :
    Announcement := if ann.id = it then f ann else ann

def statistics (order : List Announcement) (peer : NodeId) : Option PeerInfo :=
  let total := order.countP (·.peer = peer)
  if total = 0 then none
  else some ⟨total, order.countP fun ann => ann.peer = peer && ann.state = .completed,
    order.countP fun ann => ann.peer = peer && ann.state = .requested⟩

abbrev UniqueIds (order : List Announcement) : Prop := order.Pairwise fun x y => x.id ≠ y.id

structure Holds (computer : PriorityComputer) (sequence : UInt64) (t : Tracker)
    (order : List Announcement) : Prop where
  currentSequence : t.currentSequence = sequence
  byPeer : t.index.byPeer.Perm order
  byTxHash : t.index.byTxHash.Perm order
  byTime : t.index.byTime.Perm order
  sortedPeer : Sorted byPeerView t.index.byPeer
  sortedTxHash : Sorted (byTxHashView computer) t.index.byTxHash
  sortedTime : Sorted byTimeView t.index.byTime
  unique : order.Pairwise fun x y => x.id ≠ y.id
  peerinfo : ∀ peer, t.peerinfo peer = statistics order peer

variable {computer : PriorityComputer} {sequence : UInt64} {t : Tracker}
  {order view : List Announcement} {a : Announcement} {it : NodeId × Uint256}
  {f : Announcement → Announcement}

theorem eq_of_id (unique : UniqueIds order) {x y : Announcement}
    (inX : x ∈ order) (inY : y ∈ order) (same : x.id = y.id) : x = y := by
  have distinct : (order.map Announcement.id).Nodup := pairwise_map.mpr unique
  exact inj_on_of_nodup_map distinct inX inY same

theorem unique_of_perm (perm : view.Perm order) (unique : UniqueIds order) : UniqueIds view :=
  (perm.pairwise_iff fun apart => Ne.symm apart).mpr unique

theorem exists_located_id (unique : UniqueIds order) (member : a ∈ order) :
    ∃ before after, Located (fun x => decide (x.id = a.id)) order before a after := by
  apply exists_located member (by simp)
  apply unique.imp
  intro x y apart both
  obtain ⟨left, right⟩ := both
  exact apart ((of_decide_eq_true left).trans (of_decide_eq_true right).symm)

theorem map_update_eq (it : NodeId × Uint256) (f : Announcement → Announcement)
    (order : List Announcement) :
    order.map (update it f) = order.map fun x => if decide (x.id = it) then f x else x := by
  apply map_congr_left
  intro x _
  simp [update]

theorem update_id (same : ∀ ann, (f ann).id = ann.id) (ann : Announcement) :
    (update it f ann).id = ann.id := by
  rw [update]
  split
  · exact same ann
  · rfl

theorem mem_update_iff (unique : UniqueIds order) (member : a ∈ order)
    (f : Announcement → Announcement) (y : Announcement) :
    y ∈ order.map (update a.id f) ↔ y = f a ∨ y ∈ order ∧ y ≠ a := by
  constructor
  · intro inside
    obtain ⟨x, inX, rfl⟩ := mem_map.mp inside
    rw [update]
    split_ifs with same
    · rw [eq_of_id unique inX member same]
      exact .inl rfl
    · exact .inr ⟨inX, fun equal => same (by rw [equal])⟩
  · rintro (rfl | ⟨inY, other⟩)
    · exact mem_map.mpr ⟨a, member, if_pos rfl⟩
    · exact mem_map.mpr ⟨y, inY, if_neg fun same => other (eq_of_id unique inY member same)⟩

theorem unique_map_update (unique : UniqueIds order)
    (same : ∀ ann, (f ann).id = ann.id) :
    UniqueIds (order.map (update it f)) := by
  rw [UniqueIds, pairwise_map]
  apply unique.imp
  intro x y apart
  rw [update_id same, update_id same]
  exact apart

theorem countP_split (unique : UniqueIds order) (member : a ∈ order) :
    ∃ rest : (Announcement → Bool) → Nat, ∀ q : Announcement → Bool,
      order.countP q = rest q + (if q a then 1 else 0) ∧
      (∀ f, (order.map (update a.id f)).countP q = rest q + if q (f a) then 1 else 0) ∧
      (order.filter (·.id ≠ a.id)).countP q = rest q := by
  obtain ⟨before, after, located⟩ := exists_located_id unique member
  refine ⟨fun q => before.countP q + after.countP q, ?_⟩
  intro q
  have others : order.filter (·.id ≠ a.id) = before ++ after := by
    rw [located.split, filter_append, filter_cons_of_neg (by simp)]
    congr 1
    · exact filter_eq_self.mpr fun x early => by simpa using located.earlier x early
    · exact filter_eq_self.mpr fun x late => by simpa using located.later x late
  refine ⟨?_, ?_, ?_⟩
  · rw [located.split, countP_append, countP_cons, ← Nat.add_assoc]
  · intro f
    rw [map_update_eq, located.map_eq, countP_append, countP_cons, ← Nat.add_assoc]
  · rw [others, countP_append]

theorem statistics_getD (order : List Announcement) (peer : NodeId) :
    (statistics order peer).getD ⟨0, 0, 0⟩ = ⟨order.countP (·.peer = peer),
      order.countP fun ann => ann.peer = peer && ann.state = .completed,
      order.countP fun ann => ann.peer = peer && ann.state = .requested⟩ := by
  rw [statistics]
  split_ifs with none
  · have outside := countP_eq_zero.mp none
    have nothing (q : Announcement → Bool) :
        order.countP (fun ann => ann.peer = peer && q ann) = 0 := by
      rw [countP_eq_zero]
      intro x member
      have other := outside x member
      simp [other]
    rw [none, nothing, nothing]
    rfl
  · rfl

namespace Holds

variable (holds : Holds computer sequence t order)

include holds

theorem deref_eq (member : a ∈ order) : t.deref a.id = some a := by
  have present : (t.deref a.id).isSome = true := by
    rw [deref, List.find?_isSome]
    exact ⟨a, holds.byPeer.mem_iff.mpr member, by simp⟩
  obtain ⟨b, found⟩ := Option.isSome_iff_exists.mp present
  have same : b.id = a.id := by simpa using List.find?_some found
  have inside := holds.byPeer.mem_iff.mp (mem_of_find?_eq_some found)
  rw [found, eq_of_id holds.unique inside member same]

theorem located (perm : view.Perm order) (member : a ∈ order) :
    ∃ before after, Located (fun x => decide (x.id = a.id)) view before a after :=
  exists_located_id (unique_of_perm perm holds.unique) (perm.mem_iff.mpr member)

theorem peerinfo_eq (member : a ∈ order) :
    t.peerinfo a.peer = some ⟨order.countP (·.peer = a.peer),
      order.countP fun ann => ann.peer = a.peer && ann.state = .completed,
      order.countP fun ann => ann.peer = a.peer && ann.state = .requested⟩ := by
  rw [holds.peerinfo, statistics]
  refine if_neg ?_
  rw [countP_eq_zero]
  exact fun none => none a member (by simp)

theorem erase (member : a ∈ order) :
    ∃ t', t.erase a.id = .ok t' ∧
      Holds computer sequence t' (order.filter (·.id ≠ a.id)) := by
  rw [Tracker.erase, holds.deref_eq member]
  dsimp only
  rw [holds.peerinfo_eq member]
  refine ⟨_, rfl, holds.currentSequence, holds.byPeer.filter _, holds.byTxHash.filter _,
    holds.byTime.filter _, holds.sortedPeer.filter _, holds.sortedTxHash.filter _,
    holds.sortedTime.filter _, holds.unique.filter _, ?_⟩
  intro peer
  obtain ⟨rest, counts⟩ := countP_split holds.unique member
  have before p := (counts p).1
  have erased p := (counts p).2.2
  by_cases own : peer = a.peer
  · subst own
    dsimp only
    rw [update_self, statistics]
    simp only [before, erased]
    simp
  · dsimp only
    rw [update_of_ne own, holds.peerinfo, statistics, statistics]
    simp only [before, erased]
    simp [Ne.symm own]

variable [Container Announcement]

theorem modify (member : a ∈ order) (f : Announcement → Announcement)
    (same : ∀ ann, (f ann).id = ann.id) :
    ∃ t', t.modify computer a.id f = .ok t' ∧
      Holds computer sequence t' (order.map (update a.id f)) := by
  rw [Tracker.modify, holds.deref_eq member]
  dsimp only
  rw [holds.peerinfo_eq member]
  have updated {κ : Type} [LinearOrder κ] {key : Announcement → κ} {view : List Announcement}
      (perm : view.Perm order) : (Container.modify key (fun x => decide (x.id = a.id)) f view).Perm
        (order.map (update a.id f)) := by
    rw [map_update_eq]
    exact (Container.modify_perm ..).trans (perm.map _)
  refine ⟨_, rfl, holds.currentSequence, updated holds.byPeer, updated holds.byTxHash,
    updated holds.byTime, Container.modify_sorted _ _ _ _ holds.sortedPeer,
    Container.modify_sorted _ _ _ _ holds.sortedTxHash,
    Container.modify_sorted _ _ _ _ holds.sortedTime, unique_map_update holds.unique same, ?_⟩
  intro peer
  obtain ⟨rest, counts⟩ := countP_split holds.unique member
  have before p := (counts p).1
  have changed p := (counts p).2.1
  have peers : (f a).peer = a.peer := congrArg Prod.fst (same a)
  by_cases own : peer = a.peer
  · subst own
    dsimp only
    rw [update_self, statistics]
    simp only [before, changed]
    simp [peers]
  · dsimp only
    rw [update_of_ne own, holds.peerinfo, statistics, statistics]
    simp only [before, changed]
    simp [peers, Ne.symm own]

theorem emplace (absent : ∀ x ∈ order, x.id ≠ a.id) (fresh : a.state = .candidateDelayed) :
    Holds computer (sequence + 1)
      { currentSequence := t.currentSequence + 1
        index := t.index.emplace computer a
        peerinfo := Function.update t.peerinfo a.peer (some
          { (t.peerinfo a.peer).getD ⟨0, 0, 0⟩ with
            total := ((t.peerinfo a.peer).getD ⟨0, 0, 0⟩).total + 1 }) } (order ++ [a]) := by
  have joined {view view' : List Announcement} (perm : view.Perm order)
      (added : view'.Perm (a :: view)) : view'.Perm (order ++ [a]) :=
    added.trans ((perm.cons a).trans (perm_append_singleton a order).symm)
  refine ⟨congrArg (· + 1) holds.currentSequence, joined holds.byPeer (insert_perm ..),
    joined holds.byTxHash (insert_perm ..), joined holds.byTime (insert_perm ..),
    insert_sorted _ _ _ holds.sortedPeer, insert_sorted _ _ _ holds.sortedTxHash,
    insert_sorted _ _ _ holds.sortedTime, ?_, ?_⟩
  · refine pairwise_append.mpr ⟨holds.unique, pairwise_singleton .., ?_⟩
    intro x member y last
    rw [mem_singleton.mp last]
    exact absent x member
  · intro peer
    dsimp only
    by_cases own : peer = a.peer
    · subst own
      rw [update_self, holds.peerinfo, statistics_getD, statistics]
      simp [fresh]
    · rw [update_of_ne own, holds.peerinfo, statistics, statistics]
      simp [Ne.symm own]

end Holds

end Qogecoin.TxRequest
