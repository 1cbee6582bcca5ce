import Qogecoin.Net.AddrManTables

/-! The private operations of an address manager: entries are made, moved and deleted. In between
some entries are loose: in neither table. -/
namespace Qogecoin.AddrManImpl

open Coins AssocCount List Function Option AddrInfo

variable {s s' : AddrManImpl} {id : Int} {info info' : AddrInfo} {loose : List Int} {extra : Int}
  {old new : Option AddrInfo}

structure Counts (extra : Int) (s : AddrManImpl) : Prop where
  tried : s.nTried = count fInTried s.mapInfo
  new : s.nNew + extra = count (fun info => !info.fInTried) s.mapInfo

structure Fitting (loose : List Int) (id : Int) (info : AddrInfo) : Prop where
  few : info.nRefCount ≤ 8
  used : info.fInTried = false → id ∉ loose → 0 < info.nRefCount
  free : id ∈ loose → info.fInTried = false ∧ info.nRefCount = 0
  succeeded : info.fInTried = true → 0 < info.nLastSuccess
  times : 0 ≤ info.nLastTry ∧ 0 ≤ info.nLastSuccess

structure Entries (loose : List Int) (s : AddrManImpl) : Prop where
  fitting : ∀ {id info}, s.mapInfo.lookup id = some info → Fitting loose id info
  known : ∀ id ∈ loose, ∃ info, s.mapInfo.lookup id = some info

theorem Entries.free (entries : Entries loose s) (inside : id ∈ loose) :
    ∃ info, s.mapInfo.lookup id = some info ∧ info.fInTried = false ∧ info.nRefCount = 0 := by
  obtain ⟨info, found⟩ := entries.known id inside
  exact ⟨info, found, (entries.fitting found).free inside⟩

variable {loose' : List Int} {found : AddrInfo} {k : Int} {n bucket left : Nat}

theorem Fitting.of_iff (fitting : Fitting loose id info) (same : id ∈ loose' ↔ id ∈ loose) :
    Fitting loose' id info where
  few := fitting.few
  used := fun flag outside => fitting.used flag (mt same.mpr outside)
  free := fun inside => fitting.free (same.mp inside)
  succeeded := fitting.succeeded
  times := fitting.times

theorem Entries.set (entries : Entries loose s) (sets : Sets s s' id old new)
    (own : new.elim (id ∉ loose') (Fitting loose' id))
    (same : ∀ k, k ≠ id → (k ∈ loose' ↔ k ∈ loose)) : Entries loose' s' := by
  constructor
  · intro k found at_k
    rcases sets.cases at_k with ⟨rfl, rfl⟩ | ⟨other, old⟩
    · exact own
    · exact (entries.fitting old).of_iff (same k other)
  · intro k inside
    by_cases current : k = id
    · subst current
      cases new with
      | none => exact absurd inside own
      | some info' => exact ⟨info', sets.after⟩
    · obtain ⟨found, at_k⟩ := entries.known k ((same k current).mp inside)
      exact ⟨found, (sets.others k current).trans at_k⟩

theorem Counts.set {extra' : Int} (counts : Counts extra s) (sets : Sets s s' id old new)
    (tried : s'.nTried + (old.any fInTried).toNat =
      s.nTried + (new.any fInTried).toNat)
    (added : s'.nNew + extra' + (old.any (!·.fInTried)).toNat =
      s.nNew + extra + (new.any (!·.fInTried)).toNat) : Counts extra' s' := by
  have one := sets.counts fInTried
  have two := sets.counts fun info => !info.fInTried
  have before := counts.tried
  have before' := counts.new
  constructor <;> omega

abbrev Adds (s s' : AddrManImpl) (id : Int) (info : AddrInfo) : Prop :=
  Sets s s' id none (some info)

abbrev Drops (s s' : AddrManImpl) (id : Int) (info : AddrInfo) : Prop :=
  Sets s s' id (some info) none

theorem Adds.kept (adds : Adds s s' id info) (at_k : s.mapInfo.lookup k = some found) :
    k ≠ id ∧ s'.mapInfo.lookup k = some found := by
  have other : k ≠ id := by
    rintro rfl
    cases adds.before.symm.trans at_k
  exact ⟨other, (adds.others k other).trans at_k⟩

theorem Drops.kept (drops : Drops s s' id info) (at_k : s'.mapInfo.lookup k = some found) :
    k ≠ id ∧ s.mapInfo.lookup k = some found := by
  rcases drops.cases at_k with ⟨_, ⟨⟩⟩ | kept
  exact kept

theorem Directory.add (directory : Directory s) (adds : Adds s s' s.nIdCount info)
    (unknown : s.mapAddr info.service = none) (room : s.nIdCount < 2 ^ 31 - 1)
    (last : info.nRandomPos = s.vRandom.length) (ids : s'.nIdCount = s.nIdCount + 1)
    (addrs : s'.mapAddr = Function.update s.mapAddr info.service (some s.nIdCount))
    (random : s'.vRandom = s.vRandom ++ [s.nIdCount]) : Directory s' := by
  have start := directory.bounded.1
  constructor
  · intro k found at_k
    rw [ids]
    rcases adds.cases at_k with ⟨rfl, _⟩ | ⟨_, old⟩
    · omega
    · have bound := directory.ids k found old
      omega
  · omega
  · intro k found at_k
    rw [addrs]
    rcases adds.cases at_k with ⟨rfl, ⟨⟩⟩ | ⟨_, old⟩
    · exact update_self ..
    · have known := directory.addressed k found old
      rw [update_of_ne]
      · exact known
      · intro same
        rw [same, unknown] at known
        cases known
  · intro a k at_a
    rw [addrs] at at_a
    by_cases own : a = info.service
    · rw [own, update_self, some.injEq] at at_a
      exact ⟨info, at_a ▸ adds.after, own.symm⟩
    · rw [update_of_ne own] at at_a
      obtain ⟨found, at_k, same⟩ := directory.known a k at_a
      exact ⟨found, (adds.kept at_k).2, same⟩
  · intro n k at_n
    rw [random] at at_n
    by_cases old : n < s.vRandom.length
    · rw [List.getElem?_append_left old] at at_n
      obtain ⟨found, at_k, same⟩ := directory.listed n k at_n
      exact ⟨found, (adds.kept at_k).2, same⟩
    · have bound := (List.getElem?_eq_some_iff.mp at_n).1
      rw [length_append, length_singleton] at bound
      have here : n = s.vRandom.length := by omega
      rw [here, List.getElem?_concat_length, some.injEq] at at_n
      exact ⟨info, at_n ▸ adds.after, by rw [last, here]⟩
  · intro k found at_k
    rw [random]
    rcases adds.cases at_k with ⟨rfl, ⟨⟩⟩ | ⟨_, old⟩
    · exact ⟨s.vRandom.length, last, List.getElem?_concat_length⟩
    · obtain ⟨n, same, at_n⟩ := directory.placed k found old
      have bound := (List.getElem?_eq_some_iff.mp at_n).1
      exact ⟨n, same, (List.getElem?_append_left bound).trans at_n⟩

/-- The entry at another place of `vRandom`. -/
abbrev moved (info : AddrInfo) (pos : Int) : AddrInfo := { info with nRandomPos := pos }

theorem Fitting.change (fitting : Fitting loose id info) (flag : info'.fInTried = info.fInTried)
    (refs : info'.nRefCount = info.nRefCount)
    (succeeded : info.fInTried = true → 0 < info'.nLastSuccess)
    (times : 0 ≤ info'.nLastTry ∧ 0 ≤ info'.nLastSuccess) : Fitting loose id info' := by
  rw [← flag] at succeeded
  refine ⟨?_, ?_, ?_, succeeded, times⟩
  · rw [refs]
    exact fitting.few
  · rw [flag, refs]
    exact fitting.used
  · rw [flag, refs]
    exact fitting.free

structure Reorders (s s' : AddrManImpl) : Prop where
  forward : ∀ k info, s.mapInfo.lookup k = some info →
    ∃ pos, s'.mapInfo.lookup k = some (moved info pos)
  back : ∀ k info', s'.mapInfo.lookup k = some info' →
    ∃ info pos, s.mapInfo.lookup k = some info ∧ info' = moved info pos
  counts : ∀ p, (∀ info pos, p (moved info pos) = p info) → count p s'.mapInfo = count p s.mapInfo
  rest : s' = { s with mapInfo := s'.mapInfo, vRandom := s'.vRandom }

theorem Reorders.refl (s : AddrManImpl) : Reorders s s :=
  ⟨fun _ info found => ⟨info.nRandomPos, found⟩,
    fun _ info found => ⟨info, info.nRandomPos, found, rfl⟩, fun _ _ => rfl, rfl⟩

theorem Reorders.exists_iff (reorders : Reorders s s') {P : AddrInfo → Prop}
    (same : ∀ info pos, P (moved info pos) ↔ P info) :
    (∃ found, s'.mapInfo.lookup k = some found ∧ P found) ↔
      ∃ found, s.mapInfo.lookup k = some found ∧ P found := by
  constructor
  · rintro ⟨info', found', holds⟩
    obtain ⟨info, pos, found, rfl⟩ := reorders.back k info' found'
    exact ⟨info, found, (same info pos).mp holds⟩
  · rintro ⟨info, found, holds⟩
    obtain ⟨pos, found'⟩ := reorders.forward k info found
    exact ⟨_, found', (same info pos).mpr holds⟩

theorem Directory.reorder (directory : Directory s) (reorders : Reorders s s')
    (listed : ∀ (k : Nat) id, s'.vRandom[k]? = some id →
      ∃ info, s'.mapInfo.lookup id = some info ∧ info.nRandomPos = k)
    (placed : ∀ id info, s'.mapInfo.lookup id = some info →
      ∃ k : Nat, info.nRandomPos = k ∧ s'.vRandom[k]? = some id) : Directory s' := by
  have same_ids : s'.nIdCount = s.nIdCount := by rw [reorders.rest]
  have same_addrs : s'.mapAddr = s.mapAddr := by rw [reorders.rest]
  refine ⟨?_, same_ids ▸ directory.bounded, ?_, ?_, listed, placed⟩
  · intro k info' found'
    obtain ⟨info, _, found, _⟩ := reorders.back k info' found'
    rw [same_ids]
    exact directory.ids k info found
  · intro k info' found'
    obtain ⟨info, pos, found, rfl⟩ := reorders.back k info' found'
    rw [same_addrs]
    exact directory.addressed k info found
  · intro a k at_a
    rw [same_addrs] at at_a
    exact (reorders.exists_iff fun _ _ => .rfl).mpr (directory.known a k at_a)

theorem Reorders.move (found : s.mapInfo.lookup id = some info) (pos : Int) :
    Reorders s (s.updateInfo id fun info => { info with nRandomPos := pos }) := by
  rw [updateInfo_eq found]
  have changes : Changes s { s with mapInfo := s.mapInfo.insert id (moved info pos) } id info
      (moved info pos) := sets_insert found _ rfl
  constructor
  · intro k old at_k
    by_cases same : k = id
    · subst same
      cases found.symm.trans at_k
      exact ⟨pos, changes.after⟩
    · exact ⟨old.nRandomPos, (changes.others k same).trans at_k⟩
  · intro k new at_k
    rcases changes.cases at_k with ⟨rfl, ⟨⟩⟩ | ⟨_, old⟩
    · exact ⟨info, pos, found, rfl⟩
    · exact ⟨new, new.nRandomPos, old, rfl⟩
  · intro p same
    have counted := changes.counts p
    simp only [Option.any_some, same] at counted
    exact Nat.add_right_cancel counted
  · rfl

theorem Reorders.trans {s'' : AddrManImpl} (first : Reorders s s') (second : Reorders s' s'') :
    Reorders s s'' := by
  constructor
  · intro k info found
    obtain ⟨pos, found'⟩ := first.forward k info found
    obtain ⟨pos', found''⟩ := second.forward k _ found'
    exact ⟨pos', found''⟩
  · intro k info'' found''
    obtain ⟨info', pos', found', rfl⟩ := second.back k info'' found''
    obtain ⟨info, pos, found, rfl⟩ := first.back k info' found'
    exact ⟨info, pos', found, rfl⟩
  · intro p same
    exact (second.counts p same).trans (first.counts p same)
  · rw [second.rest, first.rest]

theorem Directory.position (directory : Directory s) {k : Nat} (at_k : s.vRandom[k]? = some id)
    (found : s.mapInfo.lookup id = some info) : info.nRandomPos = k := by
  obtain ⟨other, found', pos⟩ := directory.listed k id at_k
  rw [found, some.injEq] at found'
  rw [found', pos]

theorem Directory.position_unique (directory : Directory s) {j k : Nat}
    (at_j : s.vRandom[j]? = some id) (at_k : s.vRandom[k]? = some id) : j = k := by
  obtain ⟨info, found, pos⟩ := directory.listed j id at_j
  have pos' := directory.position at_k found
  rw [pos] at pos'
  exact_mod_cast pos'

theorem getElem?_set_set {order : List Int} {m : Nat} (n_in : n < order.length)
    (m_in : m < order.length) (k : Nat) :
    ((order.set n order[m]).set m order[n])[k]? = order[Equiv.swap n m k]? := by
  rw [getElem?_set, getElem?_set, length_set, Equiv.swap_apply_def]
  grind

theorem swapRandom_spec (directory : Directory s) {m : Nat} (n_in : n < s.vRandom.length)
    (m_in : m < s.vRandom.length) :
    ∃ s', s.swapRandom n m = .ok s' ∧ Directory s' ∧ Reorders s s' ∧
      s'.vRandom.length = s.vRandom.length ∧ s'.vRandom[m]? = s.vRandom[n]? := by
  by_cases same : n = m
  · subst same
    exact ⟨s, if_pos rfl, directory, .refl s, rfl, rfl⟩
  have at_n := getElem?_eq_getElem n_in
  have at_m := getElem?_eq_getElem m_in
  have order := getElem?_set_set n_in m_in
  generalize s.vRandom[n] = id1 at at_n order
  generalize s.vRandom[m] = id2 at at_m order
  obtain ⟨info1, found1, _⟩ := directory.listed n id1 at_n
  obtain ⟨info2, found2, _⟩ := directory.listed m id2 at_m
  have distinct : id2 ≠ id1 := by
    rintro rfl
    exact same (directory.position_unique at_n at_m)
  let s1 := s.updateInfo id1 fun info => { info with nRandomPos := m }
  have changes1 : Changes s s1 id1 info1 { info1 with nRandomPos := m } :=
    sets_insert found1 _ (by rw [show s1 = _ from updateInfo_eq found1 _])
  have found2' : s1.mapInfo.lookup id2 = some info2 := (changes1.others id2 distinct).trans found2
  let s2 := s1.updateInfo id2 fun info => { info with nRandomPos := n }
  have changes2 : Changes s1 s2 id2 info2 { info2 with nRandomPos := n } :=
    sets_insert found2' _ (by rw [show s2 = _ from updateInfo_eq found2' _])
  have reorders : Reorders s s2 := (Reorders.move found1 m).trans (Reorders.move found2' n)
  let s3 : AddrManImpl := { s2 with vRandom := (s.vRandom.set n id2).set m id1 }
  have reorders3 : Reorders s s3 :=
    ⟨reorders.forward, reorders.back, reorders.counts, by
      show { s2 with vRandom := (s.vRandom.set n id2).set m id1 } = _
      rw [reorders.rest]⟩
  have entry : ∀ id info (k : Nat), s.vRandom[k]? = some id → s.mapInfo.lookup id = some info →
      s3.mapInfo.lookup id = some { info with nRandomPos := Equiv.swap n m k } := by
    intro id info k at_k found
    by_cases k_n : k = n
    · subst k_n
      cases at_n.symm.trans at_k
      cases found1.symm.trans found
      rw [Equiv.swap_apply_left]
      exact (changes2.others id1 distinct.symm).trans changes1.after
    by_cases k_m : k = m
    · subst k_m
      cases at_m.symm.trans at_k
      cases found2.symm.trans found
      rw [Equiv.swap_apply_right]
      exact changes2.after
    have not1 : id ≠ id1 := by
      rintro rfl
      exact k_n (directory.position_unique at_k at_n)
    have not2 : id ≠ id2 := by
      rintro rfl
      exact k_m (directory.position_unique at_k at_m)
    rw [Equiv.swap_apply_of_ne_of_ne k_n k_m, ← directory.position at_k found]
    exact (changes2.others id not2).trans ((changes1.others id not1).trans found)
  refine ⟨s3, ?_, ?_, reorders3, by simp [s3], (order m).trans (by simp)⟩
  · unfold swapRandom
    rw [if_neg same, at_n, at_m]
    simp only [found1, found2, isSome_some, Bool.and_self, if_true]
    rfl
  · apply directory.reorder reorders3
    · intro k id at_k
      rw [order] at at_k
      obtain ⟨info, found, _⟩ := directory.listed _ id at_k
      exact ⟨_, entry id info _ at_k found, by simp⟩
    · intro id info' found'
      obtain ⟨info, _, found, _⟩ := reorders3.back id info' found'
      obtain ⟨k, _, at_k⟩ := directory.placed id info found
      rw [entry id info k at_k found, some.injEq] at found'
      exact ⟨Equiv.swap n m k, by rw [← found'], by rw [order, Equiv.swap_apply_self]; exact at_k⟩

theorem Directory.drop (directory : Directory s) (drops : Drops s s' id info)
    (last : s.vRandom[s.vRandom.length - 1]? = some id) (ids : s'.nIdCount = s.nIdCount)
    (addrs : s'.mapAddr = Function.update s.mapAddr info.service none)
    (random : s'.vRandom = s.vRandom.dropLast) : Directory s' := by
  constructor
  · rw [ids]
    exact fun k found at_k => directory.ids k found (drops.kept at_k).2
  · rw [ids]
    exact directory.bounded
  · intro k found at_k
    obtain ⟨other, old⟩ := drops.kept at_k
    have known := directory.addressed k found old
    rw [addrs, update_of_ne]
    · exact known
    · intro same
      rw [same, directory.addressed id info drops.before, some.injEq] at known
      exact other known.symm
  · intro a k at_a
    rw [addrs] at at_a
    have different : a ≠ info.service := by
      rintro rfl
      rw [update_self] at at_a
      cases at_a
    rw [update_of_ne different] at at_a
    obtain ⟨found, at_k, own⟩ := directory.known a k at_a
    have other : k ≠ id := by
      rintro rfl
      rw [drops.before, some.injEq] at at_k
      exact different (at_k ▸ own.symm)
    exact ⟨found, (drops.others k other).trans at_k, own⟩
  · intro n k at_n
    rw [random, List.getElem?_dropLast] at at_n
    split at at_n
    next early =>
      obtain ⟨found, at_k, pos⟩ := directory.listed n k at_n
      have other : k ≠ id := by
        rintro rfl
        have place := directory.position_unique at_n last
        omega
      exact ⟨found, (drops.others k other).trans at_k, pos⟩
    · cases at_n
  · intro k found at_k
    obtain ⟨other, old⟩ := drops.kept at_k
    obtain ⟨n, pos, at_n⟩ := directory.placed k found old
    refine ⟨n, pos, ?_⟩
    have bound := (List.getElem?_eq_some_iff.mp at_n).1
    have early : n ≠ s.vRandom.length - 1 := by
      rintro rfl
      rw [last, some.injEq] at at_n
      exact other at_n.symm
    rw [random, List.getElem?_dropLast, if_pos (by omega)]
    exact at_n

theorem Directory.nodup (directory : Directory s) : s.vRandom.Nodup := by
  apply nodup_iff_getElem?_ne_getElem?.mpr
  intro i j before inside same
  have at_j := getElem?_eq_getElem inside
  obtain ⟨info, found, pos⟩ := directory.listed j _ at_j
  obtain ⟨info', found', pos'⟩ := directory.listed i _ (same.trans at_j)
  rw [found, some.injEq] at found'
  rw [← found', pos] at pos'
  omega

theorem Directory.length_le (directory : Directory s) :
    (s.vRandom.length : Int) ≤ s.nIdCount := by
  have inside : s.vRandom ⊆ (List.range s.nIdCount.toNat).map Int.ofNat := by
    intro id member
    obtain ⟨k, bound, at_k⟩ := mem_iff_getElem.mp member
    obtain ⟨info, found, _⟩ := directory.listed k id (by rw [List.getElem?_eq_getElem bound, at_k])
    obtain ⟨nonneg, below⟩ := directory.ids id info found
    exact mem_map.mpr ⟨id.toNat, mem_range.mpr (by omega), Int.toNat_of_nonneg nonneg⟩
  have bound := (directory.nodup.subperm inside).length_le
  rw [length_map, length_range] at bound
  have start := directory.bounded.1
  omega

/-- Entries keep their addresses and are not tried more often. -/
structure Frame (s s' : AddrManImpl) : Prop where
  back : ∀ k info', s'.mapInfo.lookup k = some info' → ∃ info, s.mapInfo.lookup k = some info ∧
    info'.service = info.service ∧ info'.nAttempts ≤ info.nAttempts
  key : s'.nKey = s.nKey
  ids : s'.nIdCount = s.nIdCount
  collisions : s'.triedCollisions = s.triedCollisions

theorem Frame.refl (s : AddrManImpl) : Frame s s :=
  ⟨fun _ info found => ⟨info, found, rfl, le_refl _⟩, rfl, rfl, rfl⟩

theorem Frame.trans {s'' : AddrManImpl} (first : Frame s s') (second : Frame s' s'') :
    Frame s s'' where
  back := by
    intro k info'' found''
    obtain ⟨info', found', same', fewer'⟩ := second.back k info'' found''
    obtain ⟨info, found, same, fewer⟩ := first.back k info' found'
    exact ⟨info, found, same'.trans same, fewer'.trans fewer⟩
  key := second.key.trans first.key
  ids := second.ids.trans first.ids
  collisions := second.collisions.trans first.collisions

theorem Changes.frame (changes : Changes s s' id info info')
    (same_service : info'.service = info.service) (fewer : info'.nAttempts ≤ info.nAttempts)
    (key : s'.nKey = s.nKey) (ids : s'.nIdCount = s.nIdCount)
    (collisions : s'.triedCollisions = s.triedCollisions) : Frame s s' where
  back := by
    intro k found at_k
    rcases changes.cases at_k with ⟨rfl, ⟨⟩⟩ | ⟨_, old⟩
    · exact ⟨info, changes.before, same_service, fewer⟩
    · exact ⟨found, old, rfl, le_refl _⟩
  key := key
  ids := ids
  collisions := collisions

structure Keeps (s s' : AddrManImpl) (but : Int) : Prop extends Frame s s' where
  forward : ∀ k info, k ≠ but → s.mapInfo.lookup k = some info →
    ∃ pos, s'.mapInfo.lookup k = some (moved info pos)
  tried : s'.vvTried = s.vvTried

theorem toUnsigned_natCast (small : (n : Int) < 2 ^ 32) : toUnsigned n = n := by
  unfold toUnsigned
  rw [Int.emod_eq_of_lt (Int.natCast_nonneg n) small]
  rfl

section Steps

variable [Crypto] {groups : NetGroupManager}

structure Inv (groups : NetGroupManager) (loose : List Int) (extra : Int) (s : AddrManImpl) :
    Prop where
  directory : Directory s
  tried : TriedTable groups s
  new : NewTable s
  entries : Entries loose s
  counts : Counts extra s

theorem Inv.proper (inv : Inv groups loose extra s) (found : s.mapInfo.lookup id = some info) :
    id ≠ -1 :=
  inv.directory.proper found

structure Refreshes (info info' : AddrInfo) : Prop where
  service : info'.service = info.service
  pos : info'.nRandomPos = info.nRandomPos
  flag : info'.fInTried = info.fInTried
  refs : info'.nRefCount = info.nRefCount
  succeeded : info.fInTried = true → 0 < info'.nLastSuccess
  times : 0 ≤ info'.nLastTry ∧ 0 ≤ info'.nLastSuccess

theorem Inv.update (inv : Inv groups loose extra s) (found : s.mapInfo.lookup id = some info)
    {change : AddrInfo → AddrInfo} (refreshes : Refreshes info (change info))
    (made : s' = s.updateInfo id change) :
    Inv groups loose extra s' ∧ Changes s s' id info (change info) ∧
      s' = { s with mapInfo := s'.mapInfo } := by
  obtain ⟨same_service, same_pos, same_flag, same_refs, succeeded, times⟩ := refreshes
  rw [updateInfo_eq found] at made
  have changes : Changes s s' id info (change info) := sets_insert found _ (by rw [made])
  subst made
  refine ⟨⟨?_, ?_, ?_, ?_, ?_⟩, changes, rfl⟩
  · exact inv.directory.change changes same_service same_pos rfl rfl rfl
  · exact inv.tried.change changes same_service same_flag rfl rfl
  · exact inv.new.change changes same_service same_flag same_refs rfl rfl
  · exact inv.entries.set changes
      ((inv.entries.fitting found).change same_flag same_refs succeeded times) fun _ _ => .rfl
  · exact inv.counts.set changes (by simp [same_flag]) (by simp [same_flag])

theorem Inv.refresh (inv : Inv groups loose extra s) (found : s.mapInfo.lookup id = some info)
    {change : AddrInfo → AddrInfo} (refreshes : Refreshes info (change info))
    (fewer : (change info).nAttempts ≤ info.nAttempts) (made : s' = s.updateInfo id change) :
    Inv groups loose extra s' ∧ Frame s s' ∧ s'.vvTried = s.vvTried ∧
      s'.mapInfo.lookup id = some (change info) := by
  obtain ⟨inv', changes, rest⟩ := inv.update found refreshes made
  refine ⟨inv', changes.frame refreshes.service fewer ?_ ?_ ?_, ?_, changes.after⟩ <;> rw [rest]

theorem create_spec (inv : Inv groups [] 0 s) {addr : CAddress} (source : CNetAddr)
    (unknown : s.mapAddr addr.service = none) (room : s.nIdCount < 2 ^ 31 - 1) :
    ∃ s', s.create addr source = .ok (s.nIdCount, s') ∧ Inv groups [s.nIdCount] 1 s' ∧
      Adds s s' s.nIdCount { AddrInfo.of addr source with nRandomPos := s.vRandom.length } ∧
      s'.nKey = s.nKey ∧ s'.nIdCount = s.nIdCount + 1 ∧ s'.vvTried = s.vvTried ∧
      s'.triedCollisions = s.triedCollisions := by
  have start := inv.directory.bounded.1
  have absent : s.mapInfo.lookup s.nIdCount = none := by
    cases found : s.mapInfo.lookup s.nIdCount with
    | none => rfl
    | some info =>
      have bound := (inv.directory.ids _ _ found).2
      omega
  obtain ⟨s', made⟩ : ∃ s', s' = { s with
      nIdCount := s.nIdCount + 1
      mapInfo := s.mapInfo.insert s.nIdCount
        { AddrInfo.of addr source with nRandomPos := s.vRandom.length }
      mapAddr := Function.update s.mapAddr addr.service (some s.nIdCount)
      vRandom := s.vRandom ++ [s.nIdCount] } := ⟨_, rfl⟩
  have adds : Adds s s' s.nIdCount
      { AddrInfo.of addr source with nRandomPos := s.vRandom.length } :=
    sets_insert absent _ (by rw [made])
  have fitting : Fitting [s.nIdCount] s.nIdCount
      { AddrInfo.of addr source with nRandomPos := s.vRandom.length } :=
    ⟨(by decide : (0 : Int) ≤ 8), fun _ outside => absurd mem_cons_self outside,
      fun _ => ⟨rfl, rfl⟩, nofun, le_refl (0 : Int), le_refl (0 : Int)⟩
  have created : s.create addr source = .ok (s.nIdCount, s') := by
    rw [create, if_neg (by omega), made]
  subst made
  refine ⟨_, created, ⟨?_, ?_, ?_, ?_, ?_⟩, adds, rfl, rfl, rfl, rfl⟩
  · exact inv.directory.add adds unknown room rfl rfl rfl rfl
  · exact inv.tried.idle adds trivial rfl rfl rfl
  · exact inv.new.idle adds (by omega) trivial rfl rfl rfl
  · exact inv.entries.set adds fitting fun k other => by simp [other]
  · exact inv.counts.set adds (by simp [AddrInfo.of]) (by simp [AddrInfo.of])

theorem Inv.reorder (inv : Inv groups loose extra s) (directory : Directory s')
    (reorders : Reorders s s') : Inv groups loose extra s' := by
  have tried : s'.vvTried = s.vvTried := by rw [reorders.rest]
  have new : s'.vvNew = s.vvNew := by rw [reorders.rest]
  have key : s'.nKey = s.nKey := by rw [reorders.rest]
  refine ⟨directory, inv.tried.of_iff (fun _ _ => ?_) tried key, ⟨?_, ?_⟩, ⟨?_, ?_⟩,
    ⟨?_, ?_⟩⟩
  · exact reorders.exists_iff fun _ _ => .rfl
  · rw [new, key]
    exact fun b p filled => (inv.new.entry b p filled).imp_right
      (reorders.exists_iff fun _ _ => .rfl).mpr
  · intro k info' found'
    obtain ⟨info, pos, found, rfl⟩ := reorders.back k info' found'
    rw [new, key]
    exact inv.new.refs k info found
  · intro k info' found'
    obtain ⟨info, pos, found, rfl⟩ := reorders.back k info' found'
    have fitting := inv.entries.fitting found
    exact fitting.change rfl rfl fitting.succeeded fitting.times
  · intro k inside
    obtain ⟨info, found⟩ := inv.entries.known k inside
    obtain ⟨pos, found'⟩ := reorders.forward k info found
    exact ⟨_, found'⟩
  · rw [reorders.counts _ fun _ _ => rfl, ← inv.counts.tried, reorders.rest]
  · rw [reorders.counts _ fun _ _ => rfl, ← inv.counts.new, reorders.rest]

theorem delete_spec (inv : Inv groups (id :: loose) extra s) (outside : id ∉ loose) :
    ∃ s', s.delete id = .ok s' ∧ Inv groups loose extra s' ∧ Keeps s s' id ∧
      s'.vvNew = s.vvNew ∧ s'.mapInfo.lookup id = none := by
  obtain ⟨info, found, flag, zero⟩ := inv.entries.free mem_cons_self
  obtain ⟨n, pos, at_n⟩ := inv.directory.placed id info found
  have n_in := (List.getElem?_eq_some_iff.mp at_n).1
  have total := inv.directory.length_le
  have bound := inv.directory.bounded.2
  obtain ⟨s1, swapped, directory1, reorders, same_length, at_last⟩ :=
    swapRandom_spec inv.directory n_in (show s.vRandom.length - 1 < s.vRandom.length by omega)
  obtain ⟨pos₁, found₁⟩ := reorders.forward id info found
  have inv1 := inv.reorder directory1 reorders
  obtain ⟨s2, made⟩ : ∃ s2, s2 = { s1 with
      vRandom := s1.vRandom.dropLast
      mapAddr := Function.update s1.mapAddr info.service none
      mapInfo := s1.mapInfo.erase id
      nNew := s1.nNew - 1 } := ⟨_, rfl⟩
  have drops : Drops s1 s2 id (moved info pos₁) := sets_erase found₁ (by rw [made])
  have deleted : s.delete id = .ok s2 := by
    have first : toUnsigned info.nRandomPos = n := by
      rw [pos]
      exact toUnsigned_natCast (by omega)
    have last : toUnsigned (s.vRandom.length - 1) = s.vRandom.length - 1 := by
      rw [show (s.vRandom.length : Int) - 1 = ((s.vRandom.length - 1 : Nat) : Int) by omega]
      exact toUnsigned_natCast (by omega)
    rw [delete, found]
    simp only [flag, Bool.false_eq_true, if_false, zero, ne_eq, not_true_eq_false]
    rw [first, last, swapped, made]
    rfl
  subst made
  refine ⟨_, deleted, ⟨?_, ?_, ?_, ?_, ?_⟩, ?_, ?_, drops.after⟩
  · apply directory1.drop drops
    · rw [same_length, at_last, at_n]
    · rfl
    · rfl
    · rfl
  · exact inv1.tried.idle drops flag trivial rfl rfl
  · exact inv1.new.idle drops (inv.proper found) zero trivial rfl rfl
  · exact inv1.entries.set drops outside fun k other => by simp [other]
  · exact inv1.counts.set drops (by simp [flag]) (by simp [flag]; omega)
  · refine ⟨⟨?_, ?_, ?_, ?_⟩, ?_, ?_⟩
    · intro k new at_k
      obtain ⟨old, pos, found_old, rfl⟩ := reorders.back k new (drops.kept at_k).2
      exact ⟨old, found_old, rfl, le_refl _⟩
    · rw [reorders.rest]
    · rw [reorders.rest]
    · rw [reorders.rest]
    · intro k old other at_k
      obtain ⟨pos, found_new⟩ := reorders.forward k old at_k
      exact ⟨pos, (drops.others k other).trans found_new⟩
    · rw [reorders.rest]
  · rw [reorders.rest]

/-- `s` without one reference to an entry, which is taken out of a new bucket. -/
def unlinked (s : AddrManImpl) (id : Int) (info : AddrInfo) (b : Nat) : AddrManImpl :=
  { s with
    mapInfo := s.mapInfo.insert id { info with nRefCount := info.nRefCount - 1 }
    vvNew := setSlot s.vvNew b (newPos s.nKey info.service b) (-1) }

/-- An entry without references is loose until it is deleted. -/
theorem Inv.unlink {b : Nat} (inv : Inv groups loose extra s)
    (found : s.mapInfo.lookup id = some info) (held : s.vvNew b (newPos s.nKey info.service b) = id)
    (outside : id ∉ loose) :
    Inv groups (if info.nRefCount = 1 then id :: loose else loose) extra (s.unlinked id info b) ∧
      Changes s (s.unlinked id info b) id info { info with nRefCount := info.nRefCount - 1 } := by
  have changes : Changes s (s.unlinked id info b) id info
      { info with nRefCount := info.nRefCount - 1 } := sets_insert found _ rfl
  obtain ⟨inside, same, at_slot, flag, _⟩ := inv.new.entry b (newPos s.nKey info.service b)
    (held ▸ inv.proper found)
  rw [held, found, some.injEq] at at_slot
  subst at_slot
  have fitting := inv.entries.fitting found
  have positive := inv.new.positive found (inv.proper found) held
  refine ⟨⟨?_, ?_, ?_, ?_, ?_⟩, changes⟩
  · exact inv.directory.change changes rfl rfl rfl rfl rfl
  · exact inv.tried.change changes rfl rfl rfl rfl
  · apply inv.new.set changes rfl rfl inside (fun filled => absurd rfl filled) rfl _
      (fun _ _ other old => ⟨held ▸ other.symm, (inv.proper old).symm⟩) rfl
    have refs := inv.new.refs _ _ found
    have less := holders_unlink inside held (inv.proper found)
    dsimp only [unlinked]
    omega
  · have last : id ∈ (if info.nRefCount = 1 then id :: loose else loose) ↔
        info.nRefCount = 1 := by
      split <;> simp_all
    apply inv.entries.set changes
    · constructor
      · have few := fitting.few
        show info.nRefCount - 1 ≤ 8
        omega
      · intro _ outside
        have more : info.nRefCount ≠ 1 := fun one => outside (last.mpr one)
        show 0 < info.nRefCount - 1
        omega
      · intro inside'
        have one := last.mp inside'
        exact ⟨flag, show info.nRefCount - 1 = 0 by omega⟩
      · exact fitting.succeeded
      · exact fitting.times
    · intro k other
      split <;> simp [other]
  · exact inv.counts.set changes (by simp [unlinked]) (by simp [unlinked])

theorem clearNew_spec (inv : Inv groups loose extra s) (b p : Nat) :
    ∃ s', s.clearNew b p = .ok s' ∧ Inv groups loose extra s' ∧ Keeps s s' (s.vvNew b p) ∧
      s'.vvNew b p = -1 := by
  by_cases filled : s.vvNew b p ≠ -1
  · obtain ⟨inside, info, found, flag, own⟩ := inv.new.entry b p filled
    obtain ⟨id, id_eq⟩ : ∃ id, id = s.vvNew b p := ⟨_, rfl⟩
    rw [← id_eq] at found
    have positive := inv.new.positive found (inv.proper found) id_eq.symm
    have outside : id ∉ loose := by
      intro free
      have zero := ((inv.entries.fitting found).free free).2
      omega
    have unfolded : s.clearNew b p = if info.nRefCount - 1 = 0 then
        (s.unlinked id info b).delete id else .ok (s.unlinked id info b) := by
      unfold clearNew
      rw [if_pos filled]
      simp only [← id_eq, access_eq found, updateInfo_eq found]
      rw [if_neg (by omega), unlinked, own]
    have emptied : (s.unlinked id info b).vvNew b p = -1 := by
      rw [unlinked, own]
      exact if_pos ⟨rfl, rfl⟩
    have held : s.vvNew b (newPos s.nKey info.service b) = id := by rw [own, id_eq]
    obtain ⟨inv1, changes⟩ := inv.unlink found held outside
    have frame := changes.frame rfl (le_refl _) rfl rfl rfl
    rw [unfolded, ← id_eq]
    by_cases last : info.nRefCount = 1
    · rw [if_pos last] at inv1
      obtain ⟨s2, deleted, inv2, keeps, same_new, _⟩ := delete_spec inv1 outside
      refine ⟨s2, ?_, inv2, ⟨frame.trans keeps.toFrame, ?_, keeps.tried⟩, ?_⟩
      · rw [if_pos (by omega)]
        exact deleted
      · intro k old other at_k
        exact keeps.forward k old other ((changes.others k other).trans at_k)
      · rw [same_new]
        exact emptied
    · rw [if_neg last] at inv1
      refine ⟨_, if_neg (by omega), inv1, ⟨frame, ?_, rfl⟩, emptied⟩
      intro k old other at_k
      exact ⟨old.nRandomPos, (changes.others k other).trans at_k⟩
  · refine ⟨s, if_neg filled, inv, ⟨.refl s, ?_, rfl⟩, not_not.mp filled⟩
    exact fun k info _ found => ⟨info.nRandomPos, found⟩

theorem unlinkNew_held (found : s.mapInfo.lookup id = some info)
    (held : s.vvNew (bucket % 1024) (newPos s.nKey info.service (bucket % 1024)) = id) :
    s.unlinkNew id (left + 1) bucket =
      if info.nRefCount - 1 = 0 then s.unlinked id info (bucket % 1024)
      else (s.unlinked id info (bucket % 1024)).unlinkNew id left (bucket + 1) := by
  have reached : ({ s with
      vvNew := setSlot s.vvNew (bucket % 1024) (newPos s.nKey info.service (bucket % 1024)) (-1)
      } : AddrManImpl).updateInfo id (fun info => { info with nRefCount := info.nRefCount - 1 }) =
      s.unlinked id info (bucket % 1024) := by
    apply updateInfo_eq
    exact found
  rw [← reached]
  conv => lhs; unfold unlinkNew
  simp only [found]
  exact if_pos held

theorem unlinkNew_other (found : s.mapInfo.lookup id = some info)
    (held : s.vvNew (bucket % 1024) (newPos s.nKey info.service (bucket % 1024)) ≠ id) :
    s.unlinkNew id (left + 1) bucket = s.unlinkNew id left (bucket + 1) := by
  conv => lhs; unfold unlinkNew
  simp only [found]
  exact if_neg held

/-- The loop of `MakeTried` takes an entry out of every new bucket, if those that hold it are still
ahead. -/
theorem unlinkNew_spec (inv : Inv groups loose extra s) (found : s.mapInfo.lookup id = some info)
    (flag : info.fInTried = false) (outside : id ∉ loose)
    (ahead : ∀ b ∈ holders s.vvNew s.nKey id info.service, ∃ j < left, b = (bucket + j) % 1024) :
    Inv groups (id :: loose) extra (s.unlinkNew id left bucket) ∧
      Changes s (s.unlinkNew id left bucket) id info { info with nRefCount := 0 } ∧
      s.unlinkNew id left bucket = { s with
        mapInfo := (s.unlinkNew id left bucket).mapInfo
        vvNew := (s.unlinkNew id left bucket).vvNew } := by
  induction left generalizing s info bucket with
  | zero =>
    have empty : holders s.vvNew s.nKey id info.service = ∅ := by
      apply Finset.eq_empty_of_forall_notMem
      intro b held
      obtain ⟨j, early, _⟩ := ahead b held
      omega
    have refs := inv.new.refs id info found
    have positive := (inv.entries.fitting found).used flag outside
    rw [empty] at refs
    rw [refs] at positive
    exact absurd positive (lt_irrefl 0)
  | succ left ih =>
    have step : ∀ b ∈ holders s.vvNew s.nKey id info.service, b ≠ bucket % 1024 →
        ∃ j < left, b = (bucket + 1 + j) % 1024 := by
      intro b held other
      obtain ⟨j, early, at_b⟩ := ahead b held
      cases j with
      | zero => exact absurd at_b other
      | succ j => exact ⟨j, by omega, by rw [at_b, Nat.add_right_comm, Nat.add_assoc]⟩
    by_cases held : s.vvNew (bucket % 1024)
        (newPos s.nKey info.service (bucket % 1024)) = id
    · obtain ⟨inv1, changes⟩ := inv.unlink found held outside
      rw [unlinkNew_held found held]
      by_cases last : info.nRefCount = 1
      · rw [if_pos (by omega)]
        rw [if_pos last] at inv1
        rw [last] at changes
        exact ⟨inv1, changes, rfl⟩
      rw [if_neg (by omega)]
      rw [if_neg last] at inv1
      have ahead1 : ∀ b ∈ holders (s.unlinked id info (bucket % 1024)).vvNew s.nKey id
          info.service, ∃ j < left, b = (bucket + 1 + j) % 1024 := by
        intro b held_b
        obtain ⟨inside, at_b⟩ := Finset.mem_filter.mp held_b
        simp only [unlinked, setSlot] at at_b
        split at at_b
        · exact absurd at_b.symm (inv.proper found)
        next elsewhere =>
          apply step b (Finset.mem_filter.mpr ⟨inside, at_b⟩)
          rintro rfl
          exact elsewhere ⟨rfl, rfl⟩
      obtain ⟨inv2, changes2, rest⟩ := ih inv1 changes.after flag ahead1
      refine ⟨inv2, changes.trans changes2, ?_⟩
      rw [rest]
      rfl
    · rw [unlinkNew_other found held]
      apply ih inv found flag
      intro b held_b
      apply step b held_b
      rintro rfl
      exact held (Finset.mem_filter.mp held_b).2

end Steps

end Qogecoin.AddrManImpl
