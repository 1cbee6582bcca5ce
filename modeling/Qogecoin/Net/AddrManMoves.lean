import Qogecoin.Net.AddrManSteps

/-! Entries move between the new and the tried table of an address manager. -/
namespace Qogecoin.AddrManImpl

open Coins AssocCount List AddrInfo

variable {s s' : AddrManImpl} {id : Int} {info info' : AddrInfo} {loose : List Int} {extra : Int}
  [Crypto] {groups : NetGroupManager}

/-- The entry is put in a free slot of the new table. -/
def link (s : AddrManImpl) (id : Int) (info : AddrInfo) (b : Nat) (new : Int) : AddrManImpl := { s with
  mapInfo := s.mapInfo.insert id { info with nRefCount := info.nRefCount + 1 }
  vvNew := setSlot s.vvNew b (newPos s.nKey info.service b) id
  nNew := new }

/-- The entry is put in a free slot of the tried table. -/
def enterTried (s : AddrManImpl) (id : Int) (info : AddrInfo) (b p : Nat) : AddrManImpl := { s with
  mapInfo := s.mapInfo.insert id { info with fInTried := true }
  vvTried := setSlot s.vvTried b p id
  nTried := s.nTried + 1 }

/-- The entry of a slot of the tried table is taken out. -/
def untry (s : AddrManImpl) (b p : Nat) (info : AddrInfo) : AddrManImpl := { s with
  mapInfo := s.mapInfo.insert (s.vvTried b p) { info with fInTried := false }
  vvTried := setSlot s.vvTried b p (-1)
  nTried := s.nTried - 1 }

theorem getNewBucket_lt (nKey : Uint256) (a : CService) (src : CNetAddr) :
    getNewBucket groups nKey a src < 1024 :=
  Nat.mod_lt _ (by decide)

section

variable (inv : Inv groups loose extra s)
include inv

theorem Inv.tried_refs (found : s.mapInfo.lookup id = some info) (flag : info.fInTried = true) :
    info.nRefCount = 0 := by
  have empty : holders s.vvNew s.nKey id info.service = ∅ := by
    apply Finset.eq_empty_of_forall_notMem
    intro b held
    obtain ⟨_, at_b⟩ := Finset.mem_filter.mp held
    obtain ⟨_, other, at_slot, untried, _⟩ := inv.new.entry b _ (at_b ▸ inv.proper found)
    rw [at_b, found, Option.some.injEq] at at_slot
    rw [← at_slot, flag] at untried
    cases untried
  rw [inv.new.refs id info found, empty]
  rfl

theorem Inv.adjust {extra' new : Int} (counted : new + extra' = s.nNew + extra) (good : Int)
    (collisions : List Int) :
    Inv groups loose extra' { s with
      nNew := new
      nLastGood := good
      triedCollisions := collisions } where
  directory := ⟨inv.directory.ids, inv.directory.bounded, inv.directory.addressed,
    inv.directory.known, inv.directory.listed, inv.directory.placed⟩
  tried := ⟨inv.tried.entry, inv.tried.slot⟩
  new := ⟨inv.new.entry, inv.new.refs⟩
  entries := ⟨inv.entries.fitting, inv.entries.known⟩
  counts := ⟨inv.counts.tried, counted.trans inv.counts.new⟩

theorem Inv.link {loose' : List Int} {extra' new : Int} {b : Nat}
    (found : s.mapInfo.lookup id = some info) (flag : info.fInTried = false)
    (few : info.nRefCount < 8) (inside : b < 1024)
    (free : s.vvNew b (newPos s.nKey info.service b) = -1)
    (others : ∀ k, k ≠ id → (k ∈ loose' ↔ k ∈ loose)) (placed : id ∉ loose')
    (counted : new + extra' = s.nNew + extra) :
    Inv groups loose' extra' (s.link id info b new) ∧
      Changes s (s.link id info b new) id info { info with nRefCount := info.nRefCount + 1 } := by
  have changes := sets_insert found { info with nRefCount := info.nRefCount + 1 }
    (rfl : (s.link id info b new).mapInfo = _)
  unfold AddrManImpl.link at changes ⊢
  have fitting := inv.entries.fitting found
  have refs := inv.new.refs id info found
  refine ⟨⟨?_, ?_, ?_, ?_, ?_⟩, changes⟩
  · exact inv.directory.change changes rfl rfl rfl rfl rfl
  · exact inv.tried.change changes rfl rfl rfl rfl
  · have unheld : ∀ k found, s.mapInfo.lookup k = some found →
        s.vvNew b (newPos s.nKey info.service b) ≠ k := by
      intro k found at_k
      rw [free]
      exact (inv.proper at_k).symm
    apply inv.new.set changes rfl rfl inside (fun _ => ⟨rfl, flag⟩) rfl _
      (fun k found other old => ⟨unheld k found old, other.symm⟩) rfl
    rw [holders_link inside (unheld _ _ found), Nat.cast_succ, ← refs]
  · apply inv.entries.set changes _ others
    constructor
    · show info.nRefCount + 1 ≤ 8
      omega
    · intro _ _
      show 0 < info.nRefCount + 1
      omega
    · exact fun inside' => absurd inside' placed
    · exact fitting.succeeded
    · exact fitting.times
  · exact inv.counts.set changes (by simp) (by rw [counted]; simp)

theorem Inv.untry {b p : Nat} (filled : s.vvTried b p ≠ -1)
    (found : s.mapInfo.lookup (s.vvTried b p) = some info) :
    info.fInTried = true ∧ info.nRefCount = 0 ∧
      Inv groups (s.vvTried b p :: loose) (extra + 1) (s.untry b p info) ∧
      Changes s (s.untry b p info) (s.vvTried b p) info { info with fInTried := false } := by
  have changes := sets_insert found { info with fInTried := false }
    (rfl : (s.untry b p info).mapInfo = _)
  unfold AddrManImpl.untry at changes ⊢
  obtain ⟨same, at_slot, flag, own⟩ := inv.tried.entry b p filled
  rw [found, Option.some.injEq] at at_slot
  subst at_slot
  have zero := inv.tried_refs found flag
  have fitting := inv.entries.fitting found
  refine ⟨flag, zero, ⟨?_, ?_, ?_, ?_, ?_⟩, changes⟩
  · exact inv.directory.change changes rfl rfl rfl rfl rfl
  · exact inv.tried.set changes (fun _ => own) nofun (fun filled => absurd rfl filled)
      (fun _ _ other _ => other.symm) rfl rfl
  · exact inv.new.idle changes filled zero zero rfl rfl
  · apply inv.entries.set changes
    · exact ⟨fitting.few, fun _ outside => absurd mem_cons_self outside,
        fun _ => ⟨rfl, zero⟩, nofun, fitting.times⟩
    · intro k other
      simp [other]
  · exact inv.counts.set changes (by simp [flag]) (by simp [flag]; omega)

end

theorem Inv.try {b p : Nat} (inv : Inv groups (id :: loose) (extra + 1) s) (outside : id ∉ loose)
    (found : s.mapInfo.lookup id = some info) (success : 0 < info.nLastSuccess)
    (own : triedSlot groups s.nKey info.service = (b, p)) (free : s.vvTried b p = -1) :
    Inv groups loose extra (s.enterTried id info b p) ∧
      Changes s (s.enterTried id info b p) id info { info with fInTried := true } := by
  have changes := sets_insert found { info with fInTried := true }
    (rfl : (s.enterTried id info b p).mapInfo = _)
  unfold enterTried at changes ⊢
  have fitting := inv.entries.fitting found
  obtain ⟨flag, zero⟩ := fitting.free mem_cons_self
  refine ⟨⟨?_, ?_, ?_, ?_, ?_⟩, changes⟩
  · exact inv.directory.change changes rfl rfl rfl rfl rfl
  · exact inv.tried.set changes (by simp [flag]) (fun _ => ⟨rfl, own⟩) (fun _ => ⟨rfl, rfl⟩)
      (fun _ _ _ old => free ▸ (inv.proper old).symm) rfl rfl
  · exact inv.new.idle changes (inv.proper found) zero zero rfl rfl
  · apply inv.entries.set changes
    · exact ⟨fitting.few, nofun, fun inside => absurd inside outside, fun _ => success,
        fitting.times⟩
    · intro k other
      simp [other]
  · exact inv.counts.set changes (by simp [flag]) (by simp [flag]; omega)

theorem evict_spec {b p : Nat} (inv : Inv groups loose extra s) (filled : s.vvTried b p ≠ -1) :
    ∃ s', s.evict groups b p = .ok s' ∧ Inv groups loose extra s' ∧ Frame s s' ∧
      s'.vvTried = setSlot s.vvTried b p (-1) ∧
      ∀ k ∈ loose, ∀ info, s.mapInfo.lookup k = some info →
        ∃ pos, s'.mapInfo.lookup k = some (moved info pos) := by
  obtain ⟨info, found, _⟩ := inv.tried.entry b p filled
  obtain ⟨flag, zero, inv1, changes1⟩ := inv.untry filled found
  have frame1 : Frame s (s.untry b p info) := changes1.frame rfl (le_refl _) rfl rfl rfl
  rw [evict, found]
  simp only [updateInfo_eq found]
  change ∃ s', ((s.untry b p info).clearNew _ (newPos s.nKey _ _) >>= _) = _ ∧ _
  have inside : getNewBucket groups s.nKey info.service info.source < 1024 :=
    getNewBucket_lt _ _ _
  generalize getNewBucket groups s.nKey info.service info.source = bucket at inside ⊢
  obtain ⟨s2, cleared, inv2, keeps, empty⟩ :=
    clearNew_spec inv1 bucket (newPos s.nKey info.service bucket)
  -- Loose entries are in no slot of the new table, so the slot that is cleared is another's.
  have loose_kept : ∀ k ∈ s.vvTried b p :: loose, ∀ info1,
      (s.untry b p info).mapInfo.lookup k = some info1 →
        ∃ pos, s2.mapInfo.lookup k = some (moved info1 pos) := by
    intro k inside info1 at_k
    have none_left := ((inv1.entries.fitting at_k).free inside).2
    exact keeps.forward k info1
      (inv1.new.unheld at_k none_left (inv1.proper at_k) _ _).symm at_k
  obtain ⟨pos, found2⟩ := loose_kept _ mem_cons_self _ changes1.after
  have outside : s.vvTried b p ∉ loose := by
    intro free
    have untried := ((inv.entries.fitting found).free free).1
    rw [flag] at untried
    cases untried
  have same_pos : newPos s2.nKey info.service bucket = newPos s.nKey info.service bucket := by
    rw [keeps.key]
    rfl
  have looser : ∀ k, k ≠ s.vvTried b p → (k ∈ loose ↔ k ∈ s.vvTried b p :: loose) := by
    intro k other
    simp [other]
  have few : info.nRefCount < 8 := by omega
  have linked : Inv groups loose extra (s2.link _ _ bucket (s2.nNew + 1)) ∧ _ :=
    inv2.link found2 rfl few inside (same_pos ▸ empty) looser outside (by ring)
  obtain ⟨inv3, changes3⟩ := linked
  refine ⟨_, ?_, inv3, (frame1.trans keeps.toFrame).trans (changes3.frame rfl (le_refl _) rfl rfl rfl),
    keeps.tried, ?_⟩
  · rw [cleared]
    show (if s2.vvNew bucket (newPos s.nKey info.service bucket) ≠ -1 then _ else _) = _
    rw [if_neg (not_not.mpr empty), updateInfo_eq found2, AddrManImpl.link]
    simp only [zero, service] at same_pos ⊢
    rw [same_pos]
    rfl
  · intro k inside found_k at_k
    have other : k ≠ s.vvTried b p := by
      rintro rfl
      exact outside inside
    obtain ⟨pos', at_k'⟩ := loose_kept k (mem_cons_of_mem _ inside) found_k
      ((changes1.others k other).trans at_k)
    exact ⟨pos', (changes3.others k other).trans at_k'⟩

theorem makeTried_spec {current : AddrInfo} (inv : Inv groups [] 0 s)
    (found : s.mapInfo.lookup id = some current) (flag : current.fInTried = false)
    (success : 0 < current.nLastSuccess) (same_service : info.service = current.service) :
    ∃ s', s.makeTried groups info id = .ok s' ∧ Inv groups [] 0 s' ∧ Frame s s' ∧
      ∀ b p, s.vvTried b p ≠ -1 → s'.vvTried b p ≠ -1 := by
  have ahead : ∀ start, ∀ b ∈ holders s.vvNew s.nKey id current.service,
      ∃ j < 1024, b = (start + j) % 1024 := by
    intro start b held
    have inside := Finset.mem_range.mp (Finset.mem_filter.mp held).1
    exact ⟨(b + 1024 - start % 1024) % 1024, by omega, by omega⟩
  obtain ⟨inv1, changes1, rest1⟩ := unlinkNew_spec inv found flag not_mem_nil
    (ahead (AddrInfo.getNewBucket groups s.nKey info.service info.source))
  rw [makeTried]
  generalize s.unlinkNew id 1024 _ = s1 at inv1 changes1 rest1 ⊢
  have frame1 : Frame s s1 := by
    refine changes1.frame rfl (le_refl _) ?_ ?_ ?_ <;> rw [rest1]
  have tried1 : s1.vvTried = s.vvTried := by rw [rest1]
  obtain ⟨s2, made2⟩ : ∃ s2, s2 = { s1 with nNew := s1.nNew - 1 } := ⟨_, rfl⟩
  have inv2 : Inv groups [id] (0 + 1) s2 :=
    made2 ▸ inv1.adjust (by omega) s1.nLastGood s1.triedCollisions
  simp only [← made2]
  rw [changes1.after, if_neg (by simp)]
  generalize bucket : AddrInfo.getTriedBucket groups s1.nKey info.service = b
  generalize position : AddrInfo.getBucketPosition s1.nKey false b info.service = p
  -- The slot is free already, or its entry goes back to the new table.
  have room : ∃ s3, (if s1.vvTried b p ≠ -1 then s2.evict groups b p else .ok s2) = .ok s3 ∧
      Inv groups [id] (0 + 1) s3 ∧ Frame s1 s3 ∧ s3.vvTried b p = -1 ∧
      (∀ b' p', ¬ (b' = b ∧ p' = p) → s3.vvTried b' p' = s1.vvTried b' p') ∧
      ∃ pos, s3.mapInfo.lookup id = some (moved { current with nRefCount := 0 } pos) := by
    by_cases filled : s1.vvTried b p ≠ -1
    · subst made2
      obtain ⟨s3, evicted, inv3, frame3, tried3, kept⟩ := evict_spec inv2 filled
      refine ⟨s3, ?_, inv3, ⟨frame3.back, frame3.key, frame3.ids, frame3.collisions⟩, ?_, ?_,
        kept id mem_cons_self _ changes1.after⟩
      · rw [if_pos filled, evicted]
      · rw [tried3]
        exact if_pos ⟨rfl, rfl⟩
      · intro b' p' elsewhere
        rw [tried3]
        exact if_neg elsewhere
    · subst made2
      exact ⟨_, if_neg filled, inv2, ⟨(Frame.refl s1).back, rfl, rfl, rfl⟩, not_not.mp filled,
        fun _ _ _ => rfl, current.nRandomPos, changes1.after⟩
  obtain ⟨s3, made_room, inv3, frame3, free, elsewhere, pos, found3⟩ := room
  have own : triedSlot groups s3.nKey current.service = (b, p) := by
    rw [frame3.key, ← same_service, ← position, ← bucket]
    rfl
  obtain ⟨inv4, changes4⟩ := inv3.try not_mem_nil found3 success own free
  refine ⟨_, ?_, inv4,
    (frame1.trans frame3).trans (changes4.frame rfl (le_refl _) rfl rfl rfl), ?_⟩
  · rw [← apply_ite (· >>= _), made_room]
    show (if s3.vvTried b p ≠ -1 then _ else _) = _
    rw [if_neg (not_not.mpr free)]
    apply congrArg Except.ok
    apply updateInfo_eq
    exact found3
  · intro b' p' filled
    show setSlot s3.vvTried b p id b' p' ≠ -1
    unfold setSlot
    split
    · exact inv.proper found
    next other =>
      rw [elsewhere b' p' other, tried1]
      exact filled

theorem enterNew_spec {current : AddrInfo} {draws : Draws} {source : CNetAddr}
    (inv : Inv groups loose 0 s) (found : s.mapInfo.lookup id = some current)
    (flag : current.fInTried = false) (few : current.nRefCount < 8)
    (same_service : info.service = current.service)
    (same_refs : info.nRefCount = current.nRefCount)
    (state : loose = if current.nRefCount = 0 then [id] else []) :
    ∃ entered s', s.enterNew groups draws id info source = .ok (entered, s') ∧
      Inv groups [] 0 s' ∧ Frame s s' ∧ s'.vvTried = s.vvTried := by
  obtain ⟨b, b_eq⟩ : ∃ b, b = getNewBucket groups s.nKey info.service source := ⟨_, rfl⟩
  have inside : b < 1024 := b_eq ▸ getNewBucket_lt _ _ _
  obtain ⟨p, p_eq⟩ : ∃ p, p = newPos s.nKey current.service b := ⟨_, rfl⟩
  have p_eq' : p = getBucketPosition s.nKey true b info.service := by
    rw [p_eq, same_service]
    rfl
  by_cases held : s.vvNew b p = id
  · have used : loose = [] := by
      rw [state, if_neg]
      intro zero
      exact inv.new.unheld found zero (inv.proper found) b p held
    refine ⟨false, s, ?_, used ▸ inv, .refl s, rfl⟩
    unfold enterNew
    simp only [← b_eq, ← p_eq']
    exact if_pos held
  · have accessed : ∃ insert, s.enterNew groups draws id info source =
        if insert = true then do
          let s ← s.clearNew b p
          let s := s.updateInfo id fun info => { info with nRefCount := info.nRefCount + 1 }
          .ok (true, { s with vvNew := setSlot s.vvNew b p id })
        else if info.nRefCount = 0 then do
          let s ← s.delete id
          .ok (false, s)
        else .ok (false, s) := by
      unfold enterNew
      simp only [← b_eq, ← p_eq', if_neg held]
      by_cases empty : s.vvNew b p = -1
      · simp only [if_pos empty]
        exact ⟨true, rfl⟩
      · obtain ⟨_, existing, at_slot, _⟩ := inv.new.entry b p empty
        simp only [if_neg empty, access_eq at_slot]
        exact ⟨_, rfl⟩
    obtain ⟨insert, entering⟩ := accessed
    rw [entering]
    by_cases enters : insert = true
    · rw [if_pos enters]
      obtain ⟨s1, cleared, inv1, keeps, empty⟩ := clearNew_spec inv b p
      obtain ⟨pos, found1⟩ := keeps.forward id current (Ne.symm held) found
      have same_pos : newPos s1.nKey current.service b = p := by rw [keeps.key, p_eq]
      have others : ∀ k, k ≠ id → (k ∈ [] ↔ k ∈ loose) := by
        intro k other
        rw [state]
        split <;> simp [other]
      have linked : Inv groups [] 0 (s1.link id _ b s1.nNew) ∧ _ := inv1.link found1 flag few
        inside (same_pos.symm ▸ empty) others not_mem_nil rfl
      obtain ⟨inv2, changes2⟩ := linked
      refine ⟨true, _, ?_, inv2, keeps.toFrame.trans (changes2.frame rfl (le_refl _) rfl rfl rfl), keeps.tried⟩
      rw [cleared]
      show Except.ok (true, _) = _
      rw [updateInfo_eq found1, AddrManImpl.link, ← same_pos]
      rfl
    · rw [if_neg enters]
      by_cases zero : current.nRefCount = 0
      · rw [if_pos (same_refs.trans zero)]
        rw [if_pos zero] at state
        subst state
        obtain ⟨s1, deleted, inv1, keeps, _⟩ := delete_spec inv not_mem_nil
        exact ⟨false, s1, by rw [deleted]; rfl, inv1, keeps.toFrame, keeps.tried⟩
      · rw [if_neg (same_refs.trans_ne zero)]
        rw [if_neg zero] at state
        exact ⟨false, s, rfl, state ▸ inv, .refl s, rfl⟩

end Qogecoin.AddrManImpl
