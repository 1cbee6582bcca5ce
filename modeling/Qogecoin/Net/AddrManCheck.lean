import Qogecoin.Library.Loops
import Qogecoin.Net.AddrManMoves

/-! An address manager whose tables agree passes its consistency check. -/
namespace Qogecoin.AddrManImpl

open Coins AssocCount Loops List AList AddrInfo Nat

variable {s s' : AddrManImpl} {id : Int} {info info' : AddrInfo}

theorem Directory.perm (directory : Directory s) : s.vRandom.Perm s.mapInfo.keys := by
  apply (perm_ext_iff_of_nodup directory.nodup s.mapInfo.keys_nodup).mpr
  intro id
  rw [← AList.mem_keys, ← AList.lookup_isSome, Option.isSome_iff_exists]
  constructor
  · intro member
    obtain ⟨k, bound, at_k⟩ := mem_iff_getElem.mp member
    obtain ⟨info, found, _⟩ := directory.listed k id (by rw [List.getElem?_eq_getElem bound, at_k])
    exact ⟨info, found⟩
  · rintro ⟨info, found⟩
    obtain ⟨k, _, at_k⟩ := directory.placed id info found
    exact mem_of_getElem? at_k

theorem mem_slots {buckets b p : Nat} : (b, p) ∈ slots buckets ↔ b < buckets ∧ p < 64 := by
  show (b, p) ∈ range buckets ×ˢ range 64 ↔ _
  rw [mem_product, mem_range, mem_range]

theorem nodup_slots (buckets : Nat) : (slots buckets).Nodup :=
  nodup_range.product nodup_range

section Check

variable [Crypto] {groups : NetGroupManager}

theorem getBucketPosition_lt (nKey : Uint256) (fNew : Bool) (b : Nat) (a : CService) :
    getBucketPosition nKey fNew b a < 64 :=
  mod_lt _ (by decide)

theorem getTriedBucket_lt (nKey : Uint256) (a : CService) :
    getTriedBucket groups nKey a < 256 :=
  mod_lt _ (by decide)

def heldIn (s : AddrManImpl) (id : Int) (rest : List (Nat × Nat)) : Nat :=
  rest.countP fun slot => s.vvNew slot.1 slot.2 = id

theorem NewTable.heldIn_slots (table : NewTable s) (found : s.mapInfo.lookup id = some info)
    (proper : id ≠ -1) : info.nRefCount = heldIn s id (slots 1024) := by
  have row : ∀ b, ((List.range 64).map fun p => (b, p)).countP
      (fun slot => decide (s.vvNew slot.1 slot.2 = id)) =
        if s.vvNew b (newPos s.nKey info.service b) = id then 1 else 0 := by
    intro b
    have only : ∀ p, s.vvNew b p = id → p = newPos s.nKey info.service b := by
      intro p held
      obtain ⟨_, other, at_slot, _, own⟩ := table.entry b p (held ▸ proper)
      rw [held, found, Option.some.injEq] at at_slot
      rw [at_slot, own]
    rw [countP_map]
    split
    next held =>
      have one : (List.range 64).count (newPos s.nKey info.service b) = 1 :=
        count_eq_one_of_mem nodup_range
          (mem_range.mpr (getBucketPosition_lt s.nKey true b info.service))
      rw [← one]
      apply countP_congr
      intro p _
      simp only [Function.comp_apply, decide_eq_true_eq, beq_iff_eq]
      exact ⟨only p, fun same => same ▸ held⟩
    next free =>
      apply countP_eq_zero.mpr
      intro p _ held
      have at_p : s.vvNew b p = id := of_decide_eq_true held
      exact free (only p at_p ▸ at_p)
  rw [table.refs id info found, Nat.cast_inj, holders, Finset.card_filter, heldIn, slots,
    countP_flatMap]
  simp only [Function.comp_def, row]
  rfl

theorem checkInfo_eq (inv : Inv groups [] 0 s) (found : s.mapInfo.lookup id = some info)
    (setTried : List Int) (mapNew : AList fun _ : Int => Int) :
    s.checkInfo (setTried, mapNew) id info = .ok (if info.fInTried then (id :: setTried, mapNew)
      else (setTried, mapNew.insert id info.nRefCount)) := by
  obtain ⟨k, pos, at_k⟩ := inv.directory.placed id info found
  obtain ⟨lastTry, lastSuccess⟩ := (inv.entries.fitting found).times
  have known := inv.directory.addressed id info found
  have rest : ∀ sets : List Int × AList fun _ : Int => Int,
      (if s.mapAddr info.service ≠ some id then .error (-5)
        else if info.nRandomPos < 0 ∨ s.vRandom[info.nRandomPos.toNat]? ≠ some id then .error (-14)
        else if info.nLastTry < 0 then .error (-6)
        else if info.nLastSuccess < 0 then .error (-8)
        else .ok sets : Except Int (List Int × AList fun _ : Int => Int)) = .ok sets := by
    intro sets
    rw [if_neg (not_not.mpr known), if_neg, if_neg (not_lt.mpr lastTry),
      if_neg (not_lt.mpr lastSuccess)]
    rw [pos, Int.toNat_natCast, at_k]
    simp
  unfold checkInfo
  cases flag : info.fInTried with
  | true =>
    have success := (inv.entries.fitting found).succeeded flag
    simp only [if_true, if_neg (Int.ne_of_gt success), inv.tried_refs found flag, ne_eq,
      not_true_eq_false, if_false]
    exact rest _
  | false =>
    have used := (inv.entries.fitting found).used flag not_mem_nil
    have few := (inv.entries.fitting found).few
    have range : ¬ (info.nRefCount < 0 ∨ info.nRefCount > 8) := by omega
    simp only [Bool.false_eq_true, if_false, if_neg range, if_neg (Int.ne_of_gt used)]
    exact rest _

structure Collected (s : AddrManImpl) (rest : List (Sigma fun _ : Int => AddrInfo))
    (sets : List Int × AList fun _ : Int => Int) : Prop where
  entries : ∀ entry ∈ rest, s.mapInfo.lookup entry.1 = some entry.2
  distinct : rest.NodupKeys
  nodup : sets.1.Nodup
  tried : ∀ k, k ∈ sets.1 ↔ k ∉ rest.keys ∧ ∃ info, s.mapInfo.lookup k = some info ∧
    info.fInTried = true
  triedCount : sets.1.length + rest.countP (fun entry => entry.2.fInTried) =
    count fInTried s.mapInfo
  new : ∀ k, sets.2.lookup k = if k ∈ rest.keys then none
    else ((s.mapInfo.lookup k).filter fun info => !info.fInTried).map nRefCount
  newCount : sets.2.keys.length + rest.countP (fun entry => !entry.2.fInTried) =
    count (fun info => !info.fInTried) s.mapInfo

omit [Crypto] in
theorem collected_start (s : AddrManImpl) : Collected s s.mapInfo.entries ([], ∅) where
  entries := by
    intro entry member
    exact mem_lookup_iff.mpr member
  distinct := s.mapInfo.nodupKeys
  nodup := nodup_nil
  tried := by
    intro k
    constructor
    · exact nofun
    · rintro ⟨absent, info, found, _⟩
      rw [lookup_eq_none.mpr absent] at found
      cases found
  triedCount := zero_add _
  new := by
    intro k
    split
    · rfl
    next absent =>
      rw [lookup_eq_none.mpr absent]
      rfl
  newCount := zero_add _

theorem Collected.step (inv : Inv groups [] 0 s) {entry : Sigma fun _ : Int => AddrInfo}
    {rest : List (Sigma fun _ : Int => AddrInfo)} {sets : List Int × AList fun _ : Int => Int}
    (collected : Collected s (entry :: rest) sets) :
    ∃ sets', s.checkInfo sets entry.1 entry.2 = .ok sets' ∧ Collected s rest sets' := by
  obtain ⟨id, info⟩ := entry
  have found : s.mapInfo.lookup id = some info := collected.entries _ mem_cons_self
  obtain ⟨later, distinct⟩ := nodupKeys_cons.mp collected.distinct
  have others : ∀ k, k ≠ id → (k ∈ List.keys (⟨id, info⟩ :: rest) ↔ k ∈ rest.keys) := by
    intro k other
    simp [other]
  have untried_before : sets.2.lookup id = none := by
    rw [collected.new, if_pos (by simp)]
  have outside : id ∉ sets.1 := by
    intro member
    exact ((collected.tried id).mp member).1 (by simp)
  refine ⟨_, checkInfo_eq inv found sets.1 sets.2, ?_⟩
  have entries := (forall_mem_cons.mp collected.entries).2
  have triedCount := collected.triedCount
  have newCount := collected.newCount
  rw [countP_cons] at triedCount newCount
  cases flag : info.fInTried with
  | true =>
    simp only [flag, if_true, Bool.not_true, Bool.false_eq_true, if_false] at triedCount newCount
    refine ⟨entries, distinct, nodup_cons.mpr ⟨outside, collected.nodup⟩, ?_, ?_, ?_, newCount⟩
    · intro k
      rw [if_pos rfl, mem_cons]
      by_cases same : k = id
      · subst same
        simp only [true_or, true_iff]
        exact ⟨later, info, found, flag⟩
      · rw [collected.tried, others k same]
        simp [same]
    · rw [if_pos rfl, length_cons]
      omega
    · intro k
      rw [if_pos rfl, collected.new]
      by_cases same : k = id
      · subst same
        rw [if_pos (by simp), if_neg later, found]
        simp [Option.filter, flag]
      · simp only [others k same]
  | false =>
    simp only [flag, if_true, Bool.not_false, Bool.false_eq_true, if_false] at triedCount newCount
    refine ⟨entries, distinct, collected.nodup, ?_, triedCount, ?_, ?_⟩
    · intro k
      rw [if_neg Bool.false_ne_true, collected.tried]
      by_cases same : k = id
      · subst same
        simp [found, flag]
      · rw [others k same]
    · intro k
      rw [if_neg Bool.false_ne_true]
      by_cases same : k = id
      · subst same
        rw [AList.lookup_insert, if_neg later, found]
        simp [Option.filter, flag]
      · rw [AList.lookup_insert_ne same, collected.new]
        simp only [others k same]
    · rw [if_neg Bool.false_ne_true, AList.keys_insert,
        erase_of_not_mem (AList.lookup_eq_none.mp untried_before), length_cons]
      omega

structure TriedLeft (s : AddrManImpl) (rest : List (Nat × Nat)) (setTried : List Int) : Prop where
  distinct : rest.Nodup
  nodup : setTried.Nodup
  left : ∀ k, k ∈ setTried ↔ k ≠ -1 ∧ ∃ slot ∈ rest, s.vvTried slot.1 slot.2 = k

theorem TriedLeft.step (table : TriedTable groups s) {slot : Nat × Nat}
    {rest : List (Nat × Nat)} {setTried : List Int} (left : TriedLeft s (slot :: rest) setTried) :
    ∃ setTried', s.checkTriedSlot groups setTried slot = .ok setTried' ∧
      TriedLeft s rest setTried' := by
  obtain ⟨b, p⟩ := slot
  obtain ⟨elsewhere, distinct⟩ := nodup_cons.mp left.distinct
  by_cases empty : s.vvTried b p = -1
  · refine ⟨setTried, if_pos empty, distinct, left.nodup, ?_⟩
    intro k
    rw [left.left, exists_mem_cons_iff]
    constructor
    · rintro ⟨proper, held | later⟩
      · exact absurd (held.symm.trans empty) proper
      · exact ⟨proper, later⟩
    · exact fun ⟨proper, later⟩ => ⟨proper, .inr later⟩
  · obtain ⟨info, found, flag, own⟩ := table.entry b p empty
    obtain ⟨own_b, own_p⟩ := Prod.mk.inj own
    rw [own_b] at own_p
    have inside : s.vvTried b p ∈ setTried :=
      (left.left _).mpr ⟨empty, (b, p), mem_cons_self, rfl⟩
    refine ⟨setTried.erase (s.vvTried b p), ?_, distinct, left.nodup.erase _, ?_⟩
    · unfold checkTriedSlot
      simp only [if_neg empty, if_neg (not_not.mpr inside), found, own_b, own_p, ne_eq,
        not_true_eq_false, if_false]
    · intro k
      rw [left.nodup.mem_erase_iff, left.left, exists_mem_cons_iff]
      constructor
      · rintro ⟨other, proper, held | later⟩
        · exact absurd held.symm other
        · exact ⟨proper, later⟩
      · rintro ⟨proper, slot, member, held⟩
        refine ⟨?_, proper, .inr ⟨slot, member, held⟩⟩
        -- An id has one tried slot, and this one is behind.
        rintro rfl
        obtain ⟨info', found', _, own'⟩ := table.entry slot.1 slot.2 (held ▸ empty)
        rw [held, found, Option.some.injEq] at found'
        rw [← found', own] at own'
        exact elsewhere (own' ▸ member)

structure NewLeft (s : AddrManImpl) (rest : List (Nat × Nat)) (mapNew : AList fun _ : Int => Int) :
    Prop where
  left : ∀ k, mapNew.lookup k = if k = -1 ∨ heldIn s k rest = 0 then none
    else some (heldIn s k rest : Int)

theorem NewLeft.step (table : NewTable s) {slot : Nat × Nat} {rest : List (Nat × Nat)}
    {mapNew : AList fun _ : Int => Int} (left : NewLeft s (slot :: rest) mapNew) :
    ∃ mapNew', s.checkNewSlot mapNew slot = .ok mapNew' ∧ NewLeft s rest mapNew' := by
  obtain ⟨b, p⟩ := slot
  have others : ∀ k, k ≠ s.vvNew b p → heldIn s k ((b, p) :: rest) = heldIn s k rest := by
    intro k other
    unfold heldIn
    rw [countP_cons, if_neg (by simpa using Ne.symm other), add_zero]
  by_cases empty : s.vvNew b p = -1
  · refine ⟨mapNew, if_pos empty, ⟨?_⟩⟩
    intro k
    rw [left.left]
    by_cases proper : k = -1
    · simp [proper]
    · rw [others k (by rw [empty]; exact proper)]
  · obtain ⟨_, info, found, flag, own⟩ := table.entry b p empty
    have own' : getBucketPosition s.nKey true b info.service = p := own
    have here : heldIn s (s.vvNew b p) ((b, p) :: rest) = heldIn s (s.vvNew b p) rest + 1 := by
      unfold heldIn
      rw [countP_cons, if_pos (by simp)]
    obtain ⟨n, fewer⟩ : ∃ n, heldIn s (s.vvNew b p) rest = n := ⟨_, rfl⟩
    have counted := left.left (s.vvNew b p)
    rw [here, fewer, if_neg (by simp [empty])] at counted
    have unfolded : s.checkNewSlot mapNew (b, p) = if (n : Int) = 0
        then .ok (mapNew.erase (s.vvNew b p)) else .ok (mapNew.insert (s.vvNew b p) n) := by
      unfold checkNewSlot
      simp [if_neg empty, counted, found, own']
    rw [unfolded]
    split
    next last =>
      refine ⟨_, rfl, ⟨fun k => ?_⟩⟩
      by_cases same : k = s.vvNew b p
      · rw [same, lookup_erase, if_pos (Or.inr (by omega))]
      · rw [lookup_erase_ne same, left.left, others k same]
    next more =>
      refine ⟨_, rfl, ⟨fun k => ?_⟩⟩
      by_cases same : k = s.vvNew b p
      · rw [same, lookup_insert, if_neg (by omega), fewer]
      · rw [lookup_insert_ne same, left.left, others k same]

theorem checkTables_eq (inv : Inv groups [] 0 s) :
    s.checkTables groups = if s.nKey.isNull then .error (-16) else .ok () := by
  have total : (s.vRandom.length : Int) = s.nTried + s.nNew := by
    have all := count_add_count_not AddrInfo.fInTried s.mapInfo
    have tried := inv.counts.tried
    have new := inv.counts.new
    rw [inv.directory.perm.length_eq]
    omega
  obtain ⟨sets, collecting, collected⟩ := foldlM_ok (Collected s)
    (fun _ _ _ collected => collected.step inv) (collected_start s)
  have tried_start : TriedLeft s (slots 256) sets.1 := by
    refine ⟨nodup_slots 256, collected.nodup, ?_⟩
    intro k
    rw [collected.tried]
    constructor
    · rintro ⟨_, info, found, flag⟩
      have at_slot := inv.tried.slot k info found flag
      exact ⟨inv.proper found, triedSlot groups s.nKey info.service,
        mem_slots.mpr ⟨getTriedBucket_lt _ _, getBucketPosition_lt _ _ _ _⟩, at_slot⟩
    · rintro ⟨proper, slot, _, held⟩
      obtain ⟨info, found, flag, _⟩ := inv.tried.entry slot.1 slot.2 (held ▸ proper)
      exact ⟨not_mem_nil, info, held ▸ found, flag⟩
  have new_start : NewLeft s (slots 1024) sets.2 := by
    constructor
    intro k
    rw [collected.new, if_neg (show k ∉ List.keys [] from not_mem_nil)]
    cases found : s.mapInfo.lookup k with
    | none =>
      by_cases proper : k = -1
      · simp [proper]
      have unheld : heldIn s k (slots 1024) = 0 := by
        apply countP_eq_zero.mpr
        intro slot _ held
        have at_slot : s.vvNew slot.1 slot.2 = k := of_decide_eq_true held
        obtain ⟨_, info, known, _⟩ := inv.new.entry slot.1 slot.2 (at_slot ▸ proper)
        rw [at_slot, found] at known
        cases known
      simp [unheld]
    | some info =>
      have refs := inv.new.heldIn_slots found (inv.proper found)
      cases flag : info.fInTried with
      | true =>
        have zero := inv.tried_refs found flag
        have unheld : heldIn s k (slots 1024) = 0 := by omega
        simp [Option.filter, flag, unheld]
      | false =>
        have used := (inv.entries.fitting found).used flag not_mem_nil
        have held : heldIn s k (slots 1024) ≠ 0 := by omega
        have kept : (some info).filter (fun info => !info.fInTried) = some info := by
          simp [Option.filter, flag]
        rw [kept, if_neg (not_or.mpr ⟨inv.proper found, held⟩), ← refs]
        rfl
  obtain ⟨setTried, tried_loop, tried_end⟩ := foldlM_ok (TriedLeft s)
    (fun _ _ _ left => left.step inv.tried) tried_start
  obtain ⟨mapNew, new_loop, new_end⟩ := foldlM_ok (NewLeft s)
    (fun _ _ _ left => left.step inv.new) new_start
  have no_tried : setTried.length = 0 := by
    rw [length_eq_zero_iff, eq_nil_iff_forall_not_mem]
    intro k member
    obtain ⟨_, slot, inside, _⟩ := (tried_end.left k).mp member
    exact not_mem_nil inside
  have no_new : mapNew.keys.length = 0 := by
    rw [length_eq_zero_iff, eq_nil_iff_forall_not_mem]
    intro k member
    have absent := new_end.left k
    rw [if_pos (Or.inr (show heldIn s k [] = 0 from rfl))] at absent
    exact AList.lookup_eq_none.mp absent member
  have tried_count : (sets.1.length : Int) = s.nTried := by
    rw [inv.counts.tried, ← collected.triedCount]
    simp
  have new_count : (sets.2.keys.length : Int) = s.nNew := by
    have counted := inv.counts.new
    rw [← collected.newCount] at counted
    simpa using counted.symm
  obtain ⟨triedSet, newMap⟩ := sets
  unfold checkTables
  rw [if_neg (not_not.mpr total), collecting, ok_bind]
  simp only
  rw [if_neg (not_not.mpr tried_count),
    if_neg (not_not.mpr new_count), tried_loop, ok_bind, new_loop, ok_bind,
    if_neg (not_not.mpr no_tried), if_neg (not_not.mpr no_new)]

/-- The key is all that can be wrong with a manager whose tables agree. -/
theorem checkAddrman_eq (inv : Inv groups [] 0 s) :
    s.checkAddrman groups = if s.nKey.isNull then -16 else 0 := by
  unfold checkAddrman
  rw [checkTables_eq inv]
  cases s.nKey.isNull <;> rfl

end Check

end Qogecoin.AddrManImpl
