import Qogecoin.Net.AddrManCheck

/-! The public calls of an address manager, in any order: its tables always agree, and the slot that
a pending collision is about is never empty. -/
namespace Qogecoin.AddrManImpl

open Coins AssocCount Loops List Nat Uint256

section

variable {s s' : AddrManImpl} {id : Int} {info info' : AddrInfo} [Crypto] {groups : NetGroupManager}

structure Evolves (s s' : AddrManImpl) : Prop where
  key : s'.nKey = s.nKey
  ids : s.nIdCount ≤ s'.nIdCount
  back : ∀ k info', s'.mapInfo.lookup k = some info' → k < s.nIdCount →
    ∃ info, s.mapInfo.lookup k = some info ∧ info'.service = info.service
  tried : ∀ b p, s.vvTried b p ≠ -1 → s'.vvTried b p ≠ -1

omit [Crypto] in
theorem Evolves.trans {s'' : AddrManImpl} (first : Evolves s s') (second : Evolves s' s'') :
    Evolves s s'' where
  key := second.key.trans first.key
  ids := first.ids.trans second.ids
  back := by
    intro k info'' found'' old
    obtain ⟨info', found', same'⟩ := second.back k info'' found'' (lt_of_lt_of_le old first.ids)
    obtain ⟨info, found, same⟩ := first.back k info' found' old
    exact ⟨info, found, same'.trans same⟩
  tried := fun b p filled => second.tried b p (first.tried b p filled)

omit [Crypto] in
theorem Frame.evolves (frame : Frame s s')
    (tried : ∀ b p, s.vvTried b p ≠ -1 → s'.vvTried b p ≠ -1) : Evolves s s' where
  key := frame.key
  ids := frame.ids.ge
  back := by
    intro k info' found' _
    obtain ⟨info, found, same, _⟩ := frame.back k info' found'
    exact ⟨info, found, same⟩
  tried := tried

def Tries (n : Nat) (s : AddrManImpl) : Prop :=
  ∀ id info, s.mapInfo.lookup id = some info → info.nAttempts ≤ n

variable {n : Nat}

omit [Crypto] in
theorem Frame.tries (frame : Frame s s') (before : Tries n s) : Tries n s' := by
  intro k info' found'
  obtain ⟨info, found, _, fewer⟩ := frame.back k info' found'
  exact fewer.trans (before k info found)

def Pending (groups : NetGroupManager) (s : AddrManImpl) : Prop :=
  ∀ k ∈ s.triedCollisions, k < s.nIdCount ∧ ∀ info, s.mapInfo.lookup k = some info →
    s.vvTried (triedSlot groups s.nKey info.service).1
      (triedSlot groups s.nKey info.service).2 ≠ -1

theorem Pending.evolve (pending : Pending groups s) (evolves : Evolves s s')
    (fewer : s'.triedCollisions ⊆ s.triedCollisions) : Pending groups s' := by
  intro k member
  obtain ⟨old, filled⟩ := pending k (fewer member)
  refine ⟨lt_of_lt_of_le old evolves.ids, ?_⟩
  intro info' found'
  obtain ⟨info, found, same⟩ := evolves.back k info' found' old
  rw [evolves.key, same]
  exact evolves.tried _ _ (filled info found)

structure Sound (groups : NetGroupManager) (s : AddrManImpl) : Prop where
  inv : Inv groups [] 0 s
  pending : Pending groups s

theorem sound_fresh (nKey : Uint256) : Sound groups (fresh nKey) where
  inv := by
    have absent {p : Int → AddrInfo → Prop} :
        ∀ k info, (fresh nKey).mapInfo.lookup k = some info → p k info := by
      intro k info found
      rw [fresh, AList.lookup_empty] at found
      cases found
    constructor
    · exact ⟨absent, ⟨le_refl (0 : Int), (by decide : (0 : Int) ≤ 2 ^ 31 - 1)⟩, absent, nofun,
        nofun, absent⟩
    · exact ⟨fun _ _ filled => absurd rfl filled, absent⟩
    · exact ⟨fun _ _ filled => absurd rfl filled, absent⟩
    · exact ⟨absent _ _, nofun⟩
    · exact ⟨rfl, rfl⟩
  pending := nofun

theorem Inv.find_eq (inv : Inv groups [] 0 s) {a : CService} :
    s.find a = none ∧ s.mapAddr a = none ∨ ∃ id info, s.find a = some (id, info) ∧
      s.mapInfo.lookup id = some info ∧ info.service = a := by
  unfold find
  cases known : s.mapAddr a with
  | none => exact .inl ⟨rfl, rfl⟩
  | some id =>
    obtain ⟨info, found, own⟩ := inv.directory.known a id known
    refine .inr ⟨id, info, ?_, found, own⟩
    simp only [found, Option.map_some]

omit [Crypto] in
theorem Evolves.refl (s : AddrManImpl) : Evolves s s :=
  (Frame.refl s).evolves fun _ _ filled => filled

omit [Crypto] in
theorem Adds.evolves (adds : Adds s s' s.nIdCount info) (key : s'.nKey = s.nKey)
    (ids : s'.nIdCount = s.nIdCount + 1) (tried : s'.vvTried = s.vvTried) : Evolves s s' where
  key := key
  ids := by omega
  back := by
    intro k info' found old
    rcases adds.cases found with ⟨rfl, _⟩ | ⟨_, before⟩
    · exact absurd old (lt_irrefl _)
    · exact ⟨info', before, rfl⟩
  tried := by
    rw [tried]
    exact fun _ _ filled => filled

structure Added (groups : NetGroupManager) (s s' : AddrManImpl) : Prop where
  inv : Inv groups [] 0 s'
  evolves : Evolves s s'
  collisions : s'.triedCollisions = s.triedCollisions
  ids : s'.nIdCount ≤ s.nIdCount + 1
  tries : ∀ n, Tries n s → Tries n s'

theorem Added.of_frame (inv : Inv groups [] 0 s') (frame : Frame s s')
    (tried : s'.vvTried = s.vvTried) : Added groups s s' where
  inv := inv
  evolves := frame.evolves (by
    rw [tried]
    exact fun _ _ filled => filled)
  collisions := frame.collisions
  ids := by
    rw [frame.ids]
    omega
  tries := fun _ => frame.tries

section

variable (inv : Inv groups [] 0 s) {draws : Draws} {addr : CAddress} {source : CNetAddr}
  {nTimePenalty : Int} (routable : addr.service.ip.isRoutable = true)
include inv routable

theorem addSingle_known (finds : s.find addr.service = some (id, info))
    (found : s.mapInfo.lookup id = some info) :
    ∃ added s', s.addSingle groups draws addr source nTimePenalty = .ok (added, s') ∧
      Added groups s s' := by
  obtain ⟨penalty, penalty_eq⟩ : ∃ penalty,
    penalty = if addr.service.ip = source then 0 else nTimePenalty := ⟨_, rfl⟩
  obtain ⟨s1, s1_eq⟩ : ∃ s1, s1 = s.updateInfo id fun info => refreshed draws info addr penalty :=
    ⟨_, rfl⟩
  obtain ⟨inv1, frame1, tried1, found1⟩ := inv.refresh found ⟨rfl, rfl, rfl, rfl,
    (inv.entries.fitting found).succeeded, (inv.entries.fitting found).times⟩ (le_refl _) s1_eq
  have stays : Added groups s s1 := .of_frame inv1 frame1 tried1
  rw [addSingle, if_neg (not_not.mpr routable)]
  simp only [finds]
  rw [← penalty_eq, ← s1_eq]
  split
  · exact ⟨false, s1, rfl, stays⟩
  split
  · exact ⟨false, s1, rfl, stays⟩
  next untried =>
    split
    · exact ⟨false, s1, rfl, stays⟩
    case isFalse room =>
    split
    · exact ⟨false, s1, rfl, stays⟩
    · have flag := Bool.eq_false_iff.mpr untried
      have used := (inv1.entries.fitting found1).used flag not_mem_nil
      have few := (inv1.entries.fitting found1).few
      obtain ⟨entered, s2, entering, inv2, frame2, tried2⟩ := enterNew_spec inv1 found1 flag
        (by omega) rfl rfl (if_neg (by omega)).symm
      exact ⟨entered, s2, entering,
        .of_frame inv2 (frame1.trans frame2) (tried2.trans tried1)⟩

theorem addSingle_new (missing : s.find addr.service = none)
    (unknown : s.mapAddr addr.service = none) (room : s.nIdCount < 2 ^ 31 - 1) :
    ∃ added s', s.addSingle groups draws addr source nTimePenalty = .ok (added, s') ∧
      Added groups s s' := by
  obtain ⟨penalty, penalty_eq⟩ : ∃ penalty,
    penalty = if addr.service.ip = source then 0 else nTimePenalty := ⟨_, rfl⟩
  obtain ⟨s1, created, inv1, adds, key1, ids1, tried1, collisions1⟩ :=
    create_spec inv source unknown room
  have found1 := adds.after
  obtain ⟨s2, s2_eq⟩ : ∃ s2, s2 = s1.updateInfo s.nIdCount fun info =>
    { info with address := { info.address with
      nTime := truncateTime (info.address.nTime.toNat - penalty) } } := ⟨_, rfl⟩
  have fitting := inv1.entries.fitting found1
  obtain ⟨inv2, frame2, tried2, found2⟩ :=
    inv1.refresh found1 ⟨rfl, rfl, rfl, rfl, fitting.succeeded, fitting.times⟩ (le_refl _) s2_eq
  have inv3 : Inv groups [s.nIdCount] 0 { s2 with nNew := s2.nNew + 1 } :=
    inv2.adjust (by ring) s2.nLastGood s2.triedCollisions
  have frame3 : Frame s1 { s2 with nNew := s2.nNew + 1 } :=
    ⟨frame2.back, frame2.key, frame2.ids, frame2.collisions⟩
  rw [addSingle, if_neg (not_not.mpr routable)]
  simp only [missing]
  rw [created, ok_bind, ← penalty_eq, ← s2_eq]
  obtain ⟨entered, s4, entering, inv4, frame4, tried4⟩ := enterNew_spec inv3 found2 rfl
    (by decide : (0 : Int) < 8) rfl rfl rfl
  refine ⟨entered, s4, entering, inv4, ?_, ?_, ?_, ?_⟩
  · apply (adds.evolves key1 ids1 tried1).trans
    apply (frame3.trans frame4).evolves
    rw [tried4, tried2]
    exact fun _ _ filled => filled
  · rw [(frame3.trans frame4).collisions, collisions1]
  · rw [(frame3.trans frame4).ids, ids1]
  · intro n before
    refine (frame3.trans frame4).tries fun k found at_k => ?_
    rcases adds.cases at_k with ⟨_, ⟨⟩⟩ | ⟨_, old⟩
    · exact zero_le n
    · exact before k found old

end

theorem addSingle_spec (inv : Inv groups [] 0 s) (draws : Draws) (addr : CAddress)
    (source : CNetAddr) (nTimePenalty : Int) :
    s.addSingle groups draws addr source nTimePenalty = .error .signedOverflow ∧
        s.nIdCount = 2 ^ 31 - 1 ∨
      ∃ added s', s.addSingle groups draws addr source nTimePenalty = .ok (added, s') ∧
        Added groups s s' := by
  by_cases routable : addr.service.ip.isRoutable = true
  · rcases inv.find_eq (a := addr.service) with ⟨missing, unknown⟩ | ⟨id, info, finds, found, _⟩
    · by_cases full : s.nIdCount = 2 ^ 31 - 1
      · refine .inl ⟨?_, full⟩
        rw [addSingle, if_neg (not_not.mpr routable)]
        simp only [missing]
        rw [create, if_pos full]
        rfl
      · have room := lt_of_le_of_ne inv.directory.bounded.2 full
        exact .inr (addSingle_new inv routable missing unknown room)
    · exact .inr (addSingle_known inv routable finds found)
  · refine .inr ⟨false, s, ?_, .of_frame inv (.refl s) rfl⟩
    rw [addSingle, if_pos routable]

theorem add_spec (sound : Sound groups s) (vAddr : List (CAddress × Draws)) (source : CNetAddr)
    (nTimePenalty : Int) :
    s.add_ groups vAddr source nTimePenalty = .error .signedOverflow ∧
        2 ^ 31 - 1 < s.nIdCount + vAddr.length ∨
      ∃ s', s.add_ groups vAddr source nTimePenalty = .ok s' ∧ Sound groups s' ∧ Evolves s s' ∧
        s'.nIdCount ≤ s.nIdCount + vAddr.length ∧ (Tries n s → Tries n s') := by
  induction vAddr generalizing s with
  | nil => exact .inr ⟨s, rfl, sound, .refl s, by simp, fun before => before⟩
  | cons head vAddr ih =>
    obtain ⟨addr, draws⟩ := head
    have unfolded : s.add_ groups ((addr, draws) :: vAddr) source nTimePenalty =
        s.addSingle groups draws addr source nTimePenalty >>= fun outcome =>
          outcome.2.add_ groups vAddr source nTimePenalty := by
      unfold add_
      rw [foldlM_cons]
      simp only
      cases s.addSingle groups draws addr source nTimePenalty <;> rfl
    rw [unfolded, length_cons, cast_add, cast_one]
    rcases addSingle_spec sound.inv draws addr source nTimePenalty with
      ⟨full, all⟩ | ⟨added, s1, adding, done⟩
    · rw [full]
      exact .inl ⟨rfl, by omega⟩
    · rw [adding, ok_bind]
      have sound1 : Sound groups s1 :=
        ⟨done.inv, sound.pending.evolve done.evolves fun _ member => done.collisions ▸ member⟩
      have ids := done.ids
      rcases ih sound1 with ⟨full, all⟩ | ⟨s2, rest, sound2, evolves, more, tries⟩
      · exact .inl ⟨full, by omega⟩
      · exact .inr ⟨s2, rest, sound2, done.evolves.trans evolves, by omega,
          fun before => tries (done.tries n before)⟩

structure Kept (groups : NetGroupManager) (s s' : AddrManImpl) : Prop where
  sound : Sound groups s'
  evolves : Evolves s s'
  ids : s'.nIdCount = s.nIdCount
  tries : ∀ n, Tries n s → Tries n s'

theorem Kept.refl (sound : Sound groups s) : Kept groups s s :=
  ⟨sound, .refl s, rfl, fun _ before => before⟩

theorem Kept.trans {s'' : AddrManImpl} (first : Kept groups s s') (second : Kept groups s' s'') :
    Kept groups s s'' :=
  ⟨second.sound, first.evolves.trans second.evolves, second.ids.trans first.ids,
    fun n before => second.tries n (first.tries n before)⟩

section

variable (sound : Sound groups s)
include sound

theorem Kept.of_frame (inv : Inv groups [] 0 s') (frame : Frame s s')
    (tried : ∀ b p, s.vvTried b p ≠ -1 → s'.vvTried b p ≠ -1) : Kept groups s s' := by
  have evolves := frame.evolves tried
  exact ⟨⟨inv, sound.pending.evolve evolves fun _ member => frame.collisions ▸ member⟩, evolves,
    frame.ids, fun _ => frame.tries⟩

theorem Kept.adjust (good : Int) {collisions : List Int}
    (pending : Pending groups { s with triedCollisions := collisions }) :
    Kept groups s { s with nLastGood := good, triedCollisions := collisions } where
  sound := ⟨sound.inv.adjust rfl good collisions, pending⟩
  evolves := ⟨rfl, le_refl _, fun _ info found _ => ⟨info, found, rfl⟩, fun _ _ filled => filled⟩
  ids := rfl
  tries _ before := before

theorem good_spec (addr : CService) (testBeforeEvict : Bool) {nTime : Int} (positive : 0 < nTime) :
    ∃ moved s', s.good_ groups addr testBeforeEvict nTime = .ok (moved, s') ∧ Kept groups s s' ∧
      (testBeforeEvict = false → s'.triedCollisions = s.triedCollisions) := by
  obtain ⟨s0, s0_eq⟩ : ∃ s0, s0 = { s with nLastGood := nTime } := ⟨_, rfl⟩
  have kept0 : Kept groups s s0 := s0_eq ▸ Kept.adjust sound nTime sound.pending
  have same0 : s0.triedCollisions = s.triedCollisions := by rw [s0_eq]
  rcases kept0.sound.inv.find_eq (a := addr) with ⟨missing, _⟩ | ⟨id, info, finds, found, _⟩
  · refine ⟨false, s0, ?_, kept0, fun _ => same0⟩
    rw [good_, ← s0_eq]
    simp only [missing]
  obtain ⟨s1, s1_eq⟩ : ∃ s1, s1 = s0.updateInfo id fun info =>
    { info with nLastSuccess := nTime, nLastTry := nTime, nAttempts := 0 } := ⟨_, rfl⟩
  obtain ⟨inv1, frame1, tried1, found1⟩ := kept0.sound.inv.refresh found
    ⟨rfl, rfl, rfl, rfl, fun _ => positive, positive.le, positive.le⟩ (zero_le _) s1_eq
  have kept1 : Kept groups s s1 :=
    kept0.trans (.of_frame kept0.sound inv1 frame1 fun _ _ filled => tried1 ▸ filled)
  have sound1 := kept1.sound
  have same1 : s1.triedCollisions = s.triedCollisions := frame1.collisions.trans same0
  rw [good_, ← s0_eq]
  simp only [finds]
  rw [← s1_eq]
  by_cases tried : info.fInTried = true
  · exact ⟨false, s1, if_pos tried, kept1, fun _ => same1⟩
  have flag := Bool.eq_false_iff.mpr tried
  have used := (kept0.sound.inv.entries.fitting found).used flag not_mem_nil
  rw [if_neg tried, if_neg (not_not.mpr used)]
  split
  next collides =>
    obtain ⟨testing, filled⟩ := Bool.and_eq_true_iff.mp collides
    split
    · refine ⟨false, _, rfl, kept1.trans (Kept.adjust sound1 s1.nLastGood ?_), ?_⟩
      · intro k member
        rcases (Worklist.mem_insert id k _).mp member with rfl | old
        · refine ⟨(sound1.inv.directory.ids k _ found1).2, ?_⟩
          intro other at_k
          rw [found1, Option.some.injEq] at at_k
          rw [← at_k]
          exact of_decide_eq_true filled
        · exact sound1.pending k old
      · intro never
        rw [never] at testing
        cases testing
    · exact ⟨false, s1, rfl, kept1, fun _ => same1⟩
  · obtain ⟨s2, moving, inv2, frame2, tried2⟩ :=
      makeTried_spec sound1.inv found1 flag positive (Eq.refl info.service)
    refine ⟨true, s2, ?_, kept1.trans (.of_frame sound1 inv2 frame2 tried2), ?_⟩
    · rw [moving]
      rfl
    · exact fun _ => frame2.collisions.trans same1

theorem resolveCollision_spec {clock : Nat → Int} (positive : ∀ n, 0 < clock n) (idNew : Int) :
    ∃ settled s', s.resolveCollision groups clock idNew = .ok (settled, s') ∧ Kept groups s s' ∧
      s'.triedCollisions = s.triedCollisions := by
  have replaced : ∀ (info : AddrInfo) (n : Nat), ∃ settled s',
      (do
        let moved ← s.good_ groups info.service false (clock n)
        .ok (true, moved.2) : Except Crash (Bool × AddrManImpl)) = .ok (settled, s') ∧
        Kept groups s s' ∧ s'.triedCollisions = s.triedCollisions := by
    intro info n
    obtain ⟨moved, s', moving, kept, same⟩ := good_spec sound info.service false (positive n)
    refine ⟨true, s', ?_, kept, same rfl⟩
    rw [moving]
    rfl
  have left : ∀ settled, ∃ settled' s', (.ok (settled, s) : Except Crash (Bool × AddrManImpl)) =
      .ok (settled', s') ∧ Kept groups s s' ∧ s'.triedCollisions = s.triedCollisions :=
    fun settled => ⟨settled, s, rfl, .refl sound, rfl⟩
  unfold resolveCollision
  cases found : s.mapInfo.lookup idNew with
  | none => exact left true
  | some infoNew =>
    simp only
    split
    · exact left true
    split
    next filled =>
      obtain ⟨infoOld, old, _⟩ := sound.inv.tried.entry _ _ filled
      rw [access_eq old]
      split
      · exact left true
      · split
        · split
          · exact replaced infoNew 3
          · exact left false
        · split
          · exact replaced infoNew 5
          · exact left false
    · exact replaced infoNew 6

theorem resolveCollisions_spec {clock : Int → Nat → Int} (positive : ∀ id n, 0 < clock id n) :
    ∃ s', s.resolveCollisions_ groups clock = .ok s' ∧ Kept groups s s' := by
  have step : ∀ (id : Int) (rest : List Int) (state : AddrManImpl), Kept groups s state →
      ∃ state', (do
        let r ← state.resolveCollision groups (clock id) id
        .ok (if r.1 then { r.2 with triedCollisions := r.2.triedCollisions.erase id } else r.2) :
          Except Crash AddrManImpl) = .ok state' ∧ Kept groups s state' := by
    intro id rest state kept
    obtain ⟨settled, s', resolved, kept', _⟩ := resolveCollision_spec kept.sound (positive id) id
    rw [resolved, ok_bind]
    refine ⟨_, rfl, kept.trans (kept'.trans ?_)⟩
    cases settled with
    | true => exact Kept.adjust kept'.sound s'.nLastGood fun k member =>
        kept'.sound.pending k (mem_of_mem_erase member)
    | false => exact .refl kept'.sound
  exact foldlM_ok (fun _ state => Kept groups s state) step (Kept.refl sound)

theorem selectTriedCollision_spec (rand : Nat) :
    Kept groups s (s.selectTriedCollision_ groups rand).2 := by
  unfold selectTriedCollision_
  cases chosen : s.triedCollisions[rand % s.triedCollisions.length]? with
  | none => exact .refl sound
  | some idNew =>
    simp only
    cases found : s.mapInfo.lookup idNew with
    | none => exact Kept.adjust sound s.nLastGood fun k member =>
        sound.pending k (mem_of_mem_erase member)
    | some newInfo =>
      have filled := (sound.pending idNew (mem_of_getElem? chosen)).2 newInfo found
      obtain ⟨infoOld, old, _⟩ := sound.inv.tried.entry _ _ filled
      have accessed : s.access (s.vvTried (triedSlot groups s.nKey newInfo.service).1
        (triedSlot groups s.nKey newInfo.service).2) = (infoOld, s) := access_eq old
      simp only [triedSlot] at accessed
      simp only [accessed]
      exact .refl sound

end

inductive Call where
  | add (vAddr : List (CAddress × Draws)) (source : CNetAddr) (nTimePenalty : Int)
  | good (addr : CService) (nTime : Int)
  | attempt (addr : CService) (fCountFailure : Bool) (nTime : Int)
  | connected (addr : CService) (nTime : Int)
  | setServices (addr : CService) (nServices : UInt64)
  | resolveCollisions (clock : Int → Nat → Int)
  | selectTriedCollision (rand : Nat)

def Call.Positive : Call → Prop
  | .add _ _ _ | .setServices _ _ | .selectTriedCollision _ => True
  | .good _ nTime | .attempt _ _ nTime | .connected _ nTime => 0 < nTime
  | .resolveCollisions clock => ∀ id n, 0 < clock id n

def Call.offered : Call → Nat
  | .add vAddr _ _ => vAddr.length
  | _ => 0

def Call.attempts : Call → Nat
  | .attempt _ _ _ => 1
  | _ => 0

section

variable (groups : NetGroupManager) (s : AddrManImpl)

def perform : Call → Except Crash AddrManImpl
  | .add vAddr source nTimePenalty => s.add_ groups vAddr source nTimePenalty
  | .good addr nTime => do
    let (_, s) ← s.good_ groups addr true nTime
    .ok s
  | .attempt addr fCountFailure nTime => s.attempt_ addr fCountFailure nTime
  | .connected addr nTime => .ok (s.connected_ addr nTime)
  | .setServices addr nServices => .ok (s.setServices_ addr nServices)
  | .resolveCollisions clock => s.resolveCollisions_ groups clock
  | .selectTriedCollision rand => .ok (s.selectTriedCollision_ groups rand).2

def check (due : Bool) : Except Crash Unit :=
  if due && s.checkAddrman groups ≠ 0 then .error .assertion else .ok ()

def run (calls : List (Call × Bool × Bool)) : Except Crash AddrManImpl :=
  calls.foldlM (fun s (call, before, after) => do
    s.check groups before
    let s ← s.perform groups call
    s.check groups after
    .ok s) s

end

theorem check_ok (sound : Sound groups s) (key : s.nKey.isNull = false) (due : Bool) :
    s.check groups due = .ok () := by
  unfold check
  rw [checkAddrman_eq sound.inv, key]
  simp

theorem Kept.update (sound : Sound groups s) (addr : CService) {change : AddrInfo → AddrInfo}
    (refreshes : ∀ id info, Fitting [] id info → Refreshes info (change info))
    (fewer : ∀ info, (change info).nAttempts ≤ info.nAttempts) :
    Kept groups s (match s.find addr with
      | none => s
      | some (nId, _) => s.updateInfo nId change) := by
  rcases sound.inv.find_eq (a := addr) with ⟨missing, _⟩ | ⟨id, info, finds, found, _⟩
  · rw [missing]
    exact .refl sound
  · rw [finds]
    obtain ⟨inv', frame, tried, _⟩ := sound.inv.refresh found
      (refreshes id info (sound.inv.entries.fitting found)) (fewer info) rfl
    exact .of_frame sound inv' frame fun _ _ filled => tried ▸ filled

theorem attempt_spec (sound : Sound groups s) (addr : CService) (fCountFailure : Bool) {nTime : Int}
    (positive : 0 < nTime) (tries : Tries n s) :
    s.attempt_ addr fCountFailure nTime = .error .signedOverflow ∧ 2 ^ 31 - 1 ≤ n ∨
      ∃ s', s.attempt_ addr fCountFailure nTime = .ok s' ∧ Sound groups s' ∧ Evolves s s' ∧
        s'.nIdCount = s.nIdCount ∧ Tries (n + 1) s' := by
  unfold attempt_
  rcases sound.inv.find_eq (a := addr) with ⟨missing, _⟩ | ⟨id, info, finds, found, _⟩
  · rw [missing]
    exact .inr ⟨s, rfl, sound, .refl s, rfl, fun k old at_k => (tries k old at_k).trans n.le_succ⟩
  have fitting := sound.inv.entries.fitting found
  have counted := tries id info found
  have changed : ∀ change : AddrInfo → AddrInfo, Refreshes info (change info) →
      (change info).nAttempts ≤ n + 1 →
      let s' := s.updateInfo id change
      Sound groups s' ∧ Evolves s s' ∧ s'.nIdCount = s.nIdCount ∧ Tries (n + 1) s' := by
    intro change refreshes small s'
    have made : s' = s.updateInfo id change := rfl
    obtain ⟨inv', changes, rest⟩ := sound.inv.update found refreshes made
    have evolves : Evolves s s' := by
      refine ⟨by rw [rest], by rw [rest], fun k new at_k _ => ?_, by rw [rest]; exact fun _ _ h => h⟩
      rcases changes.cases at_k with ⟨rfl, ⟨⟩⟩ | ⟨_, old⟩
      · exact ⟨info, found, refreshes.service⟩
      · exact ⟨new, old, rfl⟩
    refine ⟨⟨inv', sound.pending.evolve evolves ?_⟩, evolves, by rw [rest], fun k new at_k => ?_⟩
    · rw [rest]
      exact fun _ member => member
    · rcases changes.cases at_k with ⟨_, ⟨⟩⟩ | ⟨_, old⟩
      · exact small
      · exact (tries k new old).trans n.le_succ
  rw [finds]
  dsimp only
  split
  · split
    next full => exact .inl ⟨rfl, full ▸ counted⟩
    · exact .inr ⟨_, rfl, changed _ ⟨rfl, rfl, rfl, rfl, fitting.succeeded, positive.le,
        fitting.times.2⟩ (succ_le_succ counted)⟩
  · exact .inr ⟨_, rfl, changed _ ⟨rfl, rfl, rfl, rfl, fitting.succeeded, positive.le,
      fitting.times.2⟩ (counted.trans n.le_succ)⟩

theorem perform_spec (sound : Sound groups s) {call : Call} (positive : call.Positive)
    (tries : Tries n s) :
    s.perform groups call = .error .signedOverflow ∧
        (2 ^ 31 - 1 < s.nIdCount + call.offered ∨ 2 ^ 31 - 1 < n + call.attempts) ∨
      ∃ s', s.perform groups call = .ok s' ∧ Sound groups s' ∧ Evolves s s' ∧
        s'.nIdCount ≤ s.nIdCount + call.offered ∧ Tries (n + call.attempts) s' := by
  have same : ∀ s', call.attempts = 0 → Kept groups s s' → s.perform groups call = .ok s' →
      ∃ s', s.perform groups call = .ok s' ∧ Sound groups s' ∧ Evolves s s' ∧
        s'.nIdCount ≤ s.nIdCount + call.offered ∧ Tries (n + call.attempts) s' := by
    intro s' none kept performed
    have ids := kept.ids
    exact ⟨s', performed, kept.sound, kept.evolves, by omega, none ▸ kept.tries n tries⟩
  cases call with
  | add vAddr source nTimePenalty =>
    rcases add_spec sound vAddr source nTimePenalty with ⟨full, all⟩ | ⟨s', added, kept, rest⟩
    · exact .inl ⟨full, .inl all⟩
    · exact .inr ⟨s', added, kept, rest.1, rest.2.1, rest.2.2 tries⟩
  | good addr nTime =>
    obtain ⟨moved, s', moving, kept, _⟩ := good_spec sound addr true positive
    refine .inr (same s' rfl kept ?_)
    rw [perform, moving]
    rfl
  | attempt addr fCountFailure nTime =>
    rcases attempt_spec sound addr fCountFailure positive tries with
      ⟨full, all⟩ | ⟨s', tried, kept, evolves, ids, more⟩
    · exact .inl ⟨full, .inr (lt_succ_of_le all)⟩
    · exact .inr ⟨s', tried, kept, evolves, by rw [ids]; simp [Call.offered], more⟩
  | connected addr nTime =>
    refine .inr (same _ rfl (Kept.update sound addr (fun _ info fitting => ?_) fun info => ?_) rfl)
    · split <;> exact ⟨rfl, rfl, rfl, rfl, fitting.succeeded, fitting.times⟩
    · split <;> exact le_refl _
  | setServices addr nServices =>
    refine .inr (same _ rfl (Kept.update sound addr (fun _ info fitting => ?_) fun _ => ?_) rfl)
    · exact ⟨rfl, rfl, rfl, rfl, fitting.succeeded, fitting.times⟩
    · exact le_refl _
  | resolveCollisions clock =>
    obtain ⟨s', resolved, kept⟩ := resolveCollisions_spec sound positive
    exact .inr (same s' rfl kept resolved)
  | selectTriedCollision rand =>
    exact .inr (same _ rfl (selectTriedCollision_spec sound rand) rfl)

theorem run_spec (sound : Sound groups s) (key : s.nKey.isNull = false) (tries : Tries n s)
    {calls : List (Call × Bool × Bool)} (positive : ∀ call ∈ calls, call.1.Positive) :
    s.run groups calls = .error .signedOverflow ∧
        (2 ^ 31 - 1 < s.nIdCount + (calls.map fun call => call.1.offered).sum ∨
          2 ^ 31 - 1 < n + (calls.map fun call => call.1.attempts).sum) ∨
      ∃ s', s.run groups calls = .ok s' ∧ Sound groups s' ∧ s'.nKey = s.nKey := by
  induction calls generalizing s n with
  | nil => exact .inr ⟨s, rfl, sound, rfl⟩
  | cons head calls ih =>
    obtain ⟨call, before, after⟩ := head
    have unfolded : s.run groups ((call, before, after) :: calls) =
        s.perform groups call >>= fun s => s.check groups after >>= fun _ =>
          s.run groups calls := by
      unfold run
      rw [foldlM_cons]
      simp only [check_ok sound key, ok_bind]
      cases s.perform groups call with
      | error crash => rfl
      | ok s1 =>
        simp only [ok_bind]
        cases s1.check groups after <;> rfl
    rw [unfolded, map_cons, map_cons, sum_cons, sum_cons, cast_add]
    rcases perform_spec sound (positive _ mem_cons_self) tries with
      ⟨full, all⟩ | ⟨s1, performed, sound1, evolves, ids, tries1⟩
    · rw [full]
      exact .inl ⟨rfl, by omega⟩
    · have key1 : s1.nKey.isNull = false := evolves.key ▸ key
      rw [performed, ok_bind, check_ok sound1 key1, ok_bind]
      rcases ih sound1 key1 tries1 (fun call member => positive call (mem_cons_of_mem _ member)) with
        ⟨full, all⟩ | ⟨s2, rest, sound2, same⟩
      · exact .inl ⟨full, by omega⟩
      · exact .inr ⟨s2, rest, sound2, same.trans evolves.key⟩

/-- In every run of a manager with a key no assertion fails and the check finds nothing wrong, until
the ids run out or an address was tried too often. -/
theorem tables_agree_in_every_run (groups : NetGroupManager) (nKey : Uint256)
    (key : nKey.isNull = false) {calls : List (Call × Bool × Bool)}
    (positive : ∀ call ∈ calls, call.1.Positive) :
    (∃ s, (fresh nKey).run groups calls = .ok s ∧ s.checkAddrman groups = 0 ∧
        (∀ k ∈ s.triedCollisions, ∀ info, s.mapInfo.lookup k = some info →
          s.vvTried (triedSlot groups s.nKey info.service).1
            (triedSlot groups s.nKey info.service).2 ≠ -1) ∧
        s.mapInfo.lookup (-1) = none) ∨
      (fresh nKey).run groups calls = .error .signedOverflow ∧
        (2 ^ 31 ≤ (calls.map fun call => call.1.offered).sum ∨
          2 ^ 31 ≤ (calls.map fun call => call.1.attempts).sum) := by
  have untried : Tries 0 (fresh nKey) := fun id info found => by cases found
  rcases run_spec (sound_fresh nKey) key untried positive with ⟨full, all⟩ | ⟨s, ran, sound, same⟩
  · have start : (fresh nKey).nIdCount = 0 := rfl
    exact .inr ⟨full, by omega⟩
  refine .inl ⟨s, ran, ?_, fun k member => (sound.pending k member).2, ?_⟩
  · rw [checkAddrman_eq sound.inv, same]
    change (if nKey.isNull then _ else _) = _
    rw [key]
    rfl
  · cases found : s.mapInfo.lookup (-1) with
    | none => rfl
    | some info => exact absurd rfl (sound.inv.proper found)

end

def sampleGroups : NetGroupManager := ⟨fun a => a.addr.take 2⟩

def sampleService (n : UInt8) : CService := ⟨⟨.ipv4, [250, 1, 1, n], rfl, nofun⟩, 8333⟩

/-- The second address has the slot of the first in the tried table, which is then evicted. -/
def sampleCalls : List (Call × Bool × Bool) :=
  [(.add [(⟨sampleService 1, 100, 1⟩, ⟨fun _ => 200, 0⟩)] .none 0, true, true),
    (.good (sampleService 1) 300, true, true),
    (.attempt (sampleService 1) true 310, false, true),
    (.add [(⟨sampleService 2, 320, 1⟩, ⟨fun _ => 330, 0⟩)] .none 0, true, true),
    (.good (sampleService 2) 350, true, true),
    (.resolveCollisions fun _ _ => 20000, false, true),
    (.selectTriedCollision 5, true, false)]

theorem sample_tables_agree :
    let _ := Crypto.firstBytes
    let unchecked := sampleCalls.map fun call => (call.1, false, false)
    ((fresh (uint256S 1)).run sampleGroups (unchecked.take 5)).map triedCollisions =
        .ok [1] ∧
      ∃ s, (fresh (uint256S 1)).run sampleGroups sampleCalls = .ok s ∧
        s.checkAddrman sampleGroups = 0 := by
  let _ := Crypto.firstBytes
  have positive : ∀ call ∈ sampleCalls, call.1.Positive := by
    intro call member
    simp only [sampleCalls, mem_cons, not_mem_nil, or_false] at member
    rcases member with rfl | rfl | rfl | rfl | rfl | rfl | rfl <;> simp [Call.Positive]
  refine ⟨by decide +kernel, ?_⟩
  rcases tables_agree_in_every_run sampleGroups (uint256S 1) (by decide) positive
    with ⟨s, ran, checked, _⟩ | ⟨_, many⟩
  · exact ⟨s, ran, checked⟩
  · exact absurd many (by decide)

/-- A key that is null fails the check: with checks on, the first call stops the program. -/
theorem null_key_fails_check :
    let _ := Crypto.firstBytes
    (fresh .null).checkAddrman sampleGroups = -16 ∧
      (fresh .null).run sampleGroups [(.good (sampleService 1) 300, true, true)] =
        .error .assertion := by
  let _ := Crypto.firstBytes
  have failed : (fresh .null).checkAddrman sampleGroups = -16 := by
    rw [checkAddrman_eq (sound_fresh _).inv]
    rfl
  have stopped : (fresh .null).check sampleGroups true = .error .assertion := by
    rw [check, failed]
    rfl
  refine ⟨failed, ?_⟩
  rw [run, foldlM_cons]
  simp only [stopped]
  rfl

end Qogecoin.AddrManImpl
