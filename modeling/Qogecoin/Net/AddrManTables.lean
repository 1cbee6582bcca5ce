import Qogecoin.Library.AssocCount
import Qogecoin.Net.AddrMan

/-! What the tables of an address manager keep true, and what one change of an entry or a slot does
to it. -/
namespace Qogecoin.AddrManImpl

open Coins AssocCount Finset AddrInfo

variable {s s' : AddrManImpl} {id : Int} {info info' : AddrInfo} {old new : Option AddrInfo}

theorem updateInfo_eq (found : s.mapInfo.lookup id = some info) (change : AddrInfo → AddrInfo) :
    s.updateInfo id change = { s with mapInfo := s.mapInfo.insert id (change info) } := by
  unfold updateInfo
  rw [found]

theorem access_eq (found : s.mapInfo.lookup id = some info) : s.access id = (info, s) := by
  unfold access
  rw [found]

/-- One entry is made, changed or deleted. -/
structure Sets (s s' : AddrManImpl) (id : Int) (old new : Option AddrInfo) : Prop where
  before : s.mapInfo.lookup id = old
  after : s'.mapInfo.lookup id = new
  others : ∀ k, k ≠ id → s'.mapInfo.lookup k = s.mapInfo.lookup k
  counts : ∀ p, count p s'.mapInfo + (old.any p).toNat = count p s.mapInfo + (new.any p).toNat

abbrev Changes (s s' : AddrManImpl) (id : Int) (info info' : AddrInfo) : Prop :=
  Sets s s' id (some info) (some info')

theorem sets_insert (found : s.mapInfo.lookup id = old) (info' : AddrInfo)
    (same : s'.mapInfo = s.mapInfo.insert id info') : Sets s s' id old (some info') where
  before := found
  after := by
    rw [same]
    exact AList.lookup_insert _
  others := by
    intro k other
    rw [same]
    exact AList.lookup_insert_ne other
  counts := by
    intro p
    rw [same, ← found]
    exact count_insert p id info'

theorem sets_erase (found : s.mapInfo.lookup id = old) (same : s'.mapInfo = s.mapInfo.erase id) :
    Sets s s' id old none where
  before := found
  after := by
    rw [same]
    exact AList.lookup_erase id _
  others := by
    intro k other
    rw [same]
    exact AList.lookup_erase_ne other
  counts := by
    intro p
    rw [same, ← found]
    exact count_erase p id

theorem Sets.trans {s'' : AddrManImpl} {last : Option AddrInfo} (first : Sets s s' id old new)
    (second : Sets s' s'' id new last) : Sets s s'' id old last where
  before := first.before
  after := second.after
  others := fun k other => (second.others k other).trans (first.others k other)
  counts := by
    intro p
    have one := first.counts p
    have two := second.counts p
    omega

variable {k : Int} {found : AddrInfo}

theorem Sets.cases (sets : Sets s s' id old new) (at_k : s'.mapInfo.lookup k = some found) :
    k = id ∧ new = some found ∨ k ≠ id ∧ s.mapInfo.lookup k = some found := by
  by_cases same : k = id
  · subst same
    exact .inl ⟨rfl, sets.after.symm.trans at_k⟩
  · exact .inr ⟨same, (sets.others k same).symm.trans at_k⟩

theorem Sets.exists_iff (sets : Sets s s' id old new) {P : AddrInfo → Prop}
    (moved : (∃ found, new = some found ∧ P found) ↔ ∃ found, old = some found ∧ P found) :
    (∃ found, s'.mapInfo.lookup k = some found ∧ P found) ↔
      ∃ found, s.mapInfo.lookup k = some found ∧ P found := by
  by_cases current : k = id
  · rw [current, sets.before, sets.after]
    exact moved
  · rw [sets.others k current]

theorem Changes.all (changes : Changes s s' id info info') {P : Int → AddrInfo → Prop}
    (before : ∀ k found, s.mapInfo.lookup k = some found → P k found)
    (own : P id info → P id info') (k : Int) (found : AddrInfo)
    (at_k : s'.mapInfo.lookup k = some found) : P k found := by
  rcases changes.cases at_k with ⟨rfl, ⟨⟩⟩ | ⟨_, old⟩
  · exact own (before _ _ changes.before)
  · exact before _ _ old

theorem Changes.exists_iff (changes : Changes s s' id info info') {P : AddrInfo → Prop}
    (moved : P info' ↔ P info) :
    (∃ found, s'.mapInfo.lookup k = some found ∧ P found) ↔
      ∃ found, s.mapInfo.lookup k = some found ∧ P found :=
  Sets.exists_iff changes (by simp [moved])

structure Directory (s : AddrManImpl) : Prop where
  ids : ∀ id info, s.mapInfo.lookup id = some info → 0 ≤ id ∧ id < s.nIdCount
  bounded : 0 ≤ s.nIdCount ∧ s.nIdCount ≤ 2 ^ 31 - 1
  addressed : ∀ id info, s.mapInfo.lookup id = some info → s.mapAddr info.service = some id
  known : ∀ a id, s.mapAddr a = some id →
    ∃ info, s.mapInfo.lookup id = some info ∧ info.service = a
  listed : ∀ (k : Nat) id, s.vRandom[k]? = some id →
    ∃ info, s.mapInfo.lookup id = some info ∧ info.nRandomPos = k
  placed : ∀ id info, s.mapInfo.lookup id = some info →
    ∃ k : Nat, info.nRandomPos = k ∧ s.vRandom[k]? = some id

theorem Directory.proper (directory : Directory s) (found : s.mapInfo.lookup id = some info) :
    id ≠ -1 := by
  have bound := (directory.ids id info found).1
  omega

theorem Directory.change (directory : Directory s) (changes : Changes s s' id info info')
    (same_service : info'.service = info.service) (same_pos : info'.nRandomPos = info.nRandomPos)
    (ids : s'.nIdCount = s.nIdCount) (addrs : s'.mapAddr = s.mapAddr)
    (random : s'.vRandom = s.vRandom) : Directory s' := by
  constructor
  · rw [ids]
    exact changes.all directory.ids fun old => old
  · rw [ids]
    exact directory.bounded
  · rw [addrs]
    apply changes.all directory.addressed
    rw [same_service]
    exact fun old => old
  · rw [addrs]
    exact fun a k at_a =>
      (changes.exists_iff (by rw [same_service])).mpr (directory.known a k at_a)
  · rw [random]
    exact fun n k at_n => (changes.exists_iff (by rw [same_pos])).mpr (directory.listed n k at_n)
  · rw [random]
    apply changes.all directory.placed
    rw [same_pos]
    exact fun old => old

section Tables

variable [Crypto] {groups : NetGroupManager}

def triedSlot (groups : NetGroupManager) (nKey : Uint256) (a : CService) : Nat × Nat :=
  (getTriedBucket groups nKey a,
    getBucketPosition nKey false (getTriedBucket groups nKey a) a)

structure TriedTable (groups : NetGroupManager) (s : AddrManImpl) : Prop where
  entry : ∀ b p, s.vvTried b p ≠ -1 → ∃ info, s.mapInfo.lookup (s.vvTried b p) = some info ∧
    info.fInTried = true ∧ triedSlot groups s.nKey info.service = (b, p)
  slot : ∀ id info, s.mapInfo.lookup id = some info → info.fInTried = true →
    s.vvTried (triedSlot groups s.nKey info.service).1
      (triedSlot groups s.nKey info.service).2 = id

def TriedAs (s : AddrManImpl) (k : Int) (a : CService) : Prop :=
  ∃ found, s.mapInfo.lookup k = some found ∧ found.fInTried = true ∧ found.service = a

theorem TriedTable.of_iff (table : TriedTable groups s)
    (same : ∀ k a, TriedAs s' k a ↔ TriedAs s k a) (tried : s'.vvTried = s.vvTried)
    (key : s'.nKey = s.nKey) : TriedTable groups s' := by
  constructor <;> rw [tried, key]
  · intro b p filled
    obtain ⟨old, found, flag, own⟩ := table.entry b p filled
    obtain ⟨new, found', flag', service⟩ := (same _ _).mpr ⟨old, found, flag, rfl⟩
    exact ⟨new, found', flag', by rw [service, own]⟩
  · intro k new found' flag'
    obtain ⟨old, found, flag, service⟩ := (same _ _).mp ⟨new, found', flag', rfl⟩
    rw [← service]
    exact table.slot k old found flag

theorem TriedTable.change (table : TriedTable groups s) (changes : Changes s s' id info info')
    (same_service : info'.service = info.service) (same_flag : info'.fInTried = info.fInTried)
    (tried : s'.vvTried = s.vvTried) (key : s'.nKey = s.nKey) : TriedTable groups s' :=
  table.of_iff (fun _ _ => changes.exists_iff (by rw [same_flag, same_service])) tried key

theorem TriedTable.idle (table : TriedTable groups s) (sets : Sets s s' id old new)
    (untried : old.elim True (·.fInTried = false)) (untried' : new.elim True (·.fInTried = false))
    (tried : s'.vvTried = s.vvTried) (key : s'.nKey = s.nKey) : TriedTable groups s' := by
  refine table.of_iff (fun k a => sets.exists_iff ?_) tried key
  cases old <;> cases new <;> simp_all

variable {b p : Nat} {a : CService} {nKey : Uint256} {vvNew : Nat → Nat → Int}

/-- One slot is set, which only the changed entry has or gets. -/
theorem TriedTable.set {v : Int} (table : TriedTable groups s) (changes : Changes s s' id info info')
    (leaves : info.fInTried = true → triedSlot groups s.nKey info.service = (b, p))
    (enters : info'.fInTried = true → v = id ∧ triedSlot groups s.nKey info'.service = (b, p))
    (placed : v ≠ -1 → v = id ∧ info'.fInTried = true)
    (free : ∀ k found, k ≠ id → s.mapInfo.lookup k = some found → s.vvTried b p ≠ k)
    (tried : s'.vvTried = setSlot s.vvTried b p v) (key : s'.nKey = s.nKey) :
    TriedTable groups s' := by
  constructor <;> rw [tried, key]
  · intro b' p' filled
    unfold setSlot at filled ⊢
    by_cases here : b' = b ∧ p' = p
    · rw [if_pos here] at filled ⊢
      obtain ⟨rfl, flag⟩ := placed filled
      exact ⟨info', changes.after, flag, by rw [(enters flag).2, here.1, here.2]⟩
    rw [if_neg here] at filled ⊢
    obtain ⟨found, at_slot, flag, own⟩ := table.entry b' p' filled
    have other : s.vvTried b' p' ≠ id := by
      intro same
      rw [same, changes.before, Option.some.injEq] at at_slot
      subst at_slot
      rw [leaves flag, Prod.mk.injEq] at own
      exact here ⟨own.1.symm, own.2.symm⟩
    exact ⟨found, (changes.others _ other).trans at_slot, flag, own⟩
  · intro k found at_k flag
    unfold setSlot
    rcases changes.cases at_k with ⟨rfl, ⟨⟩⟩ | ⟨other, old⟩
    · rw [(enters flag).2, if_pos ⟨rfl, rfl⟩, (enters flag).1]
    · have at_slot := table.slot k found old flag
      rw [if_neg]
      · exact at_slot
      · rintro ⟨same_b, same_p⟩
        rw [same_b, same_p] at at_slot
        exact free k found other old at_slot

def newPos (nKey : Uint256) (a : CService) (bucket : Nat) : Nat :=
  getBucketPosition nKey true bucket a

def holders (vvNew : Nat → Nat → Int) (nKey : Uint256) (id : Int) (a : CService) : Finset Nat :=
  (range 1024).filter fun b => vvNew b (newPos nKey a b) = id

structure NewTable (s : AddrManImpl) : Prop where
  entry : ∀ b p, s.vvNew b p ≠ -1 → b < 1024 ∧ ∃ info, s.mapInfo.lookup (s.vvNew b p) = some info ∧
    info.fInTried = false ∧ newPos s.nKey info.service b = p
  refs : ∀ id info, s.mapInfo.lookup id = some info →
    info.nRefCount = (holders s.vvNew s.nKey id info.service).card

theorem NewTable.change (table : NewTable s) (changes : Changes s s' id info info')
    (same_service : info'.service = info.service) (same_flag : info'.fInTried = info.fInTried)
    (same_refs : info'.nRefCount = info.nRefCount) (new : s'.vvNew = s.vvNew)
    (key : s'.nKey = s.nKey) : NewTable s' := by
  constructor <;> rw [new, key]
  · exact fun b p filled => (table.entry b p filled).imp_right
      (changes.exists_iff (by rw [same_flag, same_service])).mpr
  · apply changes.all table.refs
    rw [same_refs, same_service]
    exact fun old => old

theorem NewTable.positive (table : NewTable s) (found : s.mapInfo.lookup id = some info)
    (proper : id ≠ -1) (held : s.vvNew b p = id) : 0 < info.nRefCount := by
  obtain ⟨inside, other, at_slot, _, own⟩ := table.entry b p (held ▸ proper)
  rw [held, found, Option.some.injEq] at at_slot
  subst at_slot
  have member : b ∈ holders s.vvNew s.nKey id info.service :=
    mem_filter.mpr ⟨mem_range.mpr inside, by rw [own, held]⟩
  rw [table.refs id info found]
  exact_mod_cast card_pos.mpr ⟨b, member⟩

theorem NewTable.unheld (table : NewTable s) (found : s.mapInfo.lookup id = some info)
    (zero : info.nRefCount = 0) (proper : id ≠ -1) (b p : Nat) : s.vvNew b p ≠ id := by
  intro held
  have positive := table.positive found proper held
  omega

/-- An entry without references is made, changed or deleted. -/
theorem NewTable.idle (table : NewTable s) (sets : Sets s s' id old new) (proper : id ≠ -1)
    (zero : old.elim True (·.nRefCount = 0)) (zero' : new.elim True (·.nRefCount = 0))
    (same : s'.vvNew = s.vvNew) (key : s'.nKey = s.nKey) : NewTable s' := by
  have unheld : ∀ b p, s.vvNew b p ≠ id := by
    intro b p held
    obtain ⟨_, info, found, _⟩ := table.entry b p (held ▸ proper)
    rw [held] at found
    rw [← sets.before, found] at zero
    exact table.unheld found zero proper b p held
  constructor <;> rw [same, key]
  · intro b p filled
    obtain ⟨inside, found, at_slot, rest⟩ := table.entry b p filled
    exact ⟨inside, found, (sets.others _ (unheld b p)).trans at_slot, rest⟩
  · intro k found at_k
    rcases sets.cases at_k with ⟨rfl, rfl⟩ | ⟨_, old⟩
    · have empty : holders s.vvNew s.nKey k found.service = ∅ :=
        filter_eq_empty_iff.mpr fun b _ held => unheld b _ held
      rw [empty]
      exact zero'
    · exact table.refs k found old

theorem holders_other {k : Int} (before : vvNew b p ≠ k) (after : id ≠ k) :
    holders (setSlot vvNew b p id) nKey k a = holders vvNew nKey k a := by
  apply filter_congr
  intro b' _
  unfold setSlot
  split
  next here =>
    rw [here.1] at *
    rw [here.2]
    simp [before, after]
  · rfl

theorem holders_link (inside : b < 1024) (free : vvNew b (newPos nKey a b) ≠ id) :
    (holders (setSlot vvNew b (newPos nKey a b) id) nKey id a).card =
      (holders vvNew nKey id a).card + 1 := by
  have more : holders (setSlot vvNew b (newPos nKey a b) id) nKey id a =
      insert b (holders vvNew nKey id a) := by
    ext b'
    unfold holders setSlot
    by_cases here : b' = b
    · subst here
      simp [inside]
    · simp [here]
  have new : b ∉ holders vvNew nKey id a := fun held => free (mem_filter.mp held).2
  rw [more, card_insert_of_notMem new]

theorem holders_unlink (inside : b < 1024) (held : vvNew b (newPos nKey a b) = id)
    (proper : id ≠ -1) :
    (holders (setSlot vvNew b (newPos nKey a b) (-1)) nKey id a).card + 1 =
      (holders vvNew nKey id a).card := by
  have fewer : holders (setSlot vvNew b (newPos nKey a b) (-1)) nKey id a =
      (holders vvNew nKey id a).erase b := by
    ext b'
    unfold holders setSlot
    by_cases here : b' = b
    · subst here
      simp [proper.symm]
    · simp [here]
  have old : b ∈ holders vvNew nKey id a := mem_filter.mpr ⟨mem_range.mpr inside, held⟩
  rw [fewer, card_erase_add_one old]

theorem NewTable.set {v : Int} (table : NewTable s) (changes : Changes s s' id info info')
    (same_service : info'.service = info.service) (same_flag : info'.fInTried = info.fInTried)
    (inside : b < 1024) (placed : v ≠ -1 → v = id ∧ info.fInTried = false)
    (new : s'.vvNew = setSlot s.vvNew b (newPos s.nKey info.service b) v)
    (refs : info'.nRefCount = (holders s'.vvNew s.nKey id info.service).card)
    (free : ∀ k found, k ≠ id → s.mapInfo.lookup k = some found →
      s.vvNew b (newPos s.nKey info.service b) ≠ k ∧ v ≠ k) (key : s'.nKey = s.nKey) :
    NewTable s' := by
  constructor
  · intro b' p filled
    rw [new] at filled ⊢
    rw [key]
    unfold setSlot at filled ⊢
    by_cases here : b' = b ∧ p = newPos s.nKey info.service b
    · rw [if_pos here] at filled ⊢
      obtain ⟨rfl, flag⟩ := placed filled
      exact ⟨here.1 ▸ inside, info', changes.after, same_flag.trans flag,
        by rw [same_service, here.1, here.2]⟩
    · rw [if_neg here] at filled ⊢
      exact (table.entry b' p filled).imp_right
        (changes.exists_iff (by rw [same_flag, same_service])).mpr
  · intro k found at_k
    rw [key]
    rcases changes.cases at_k with ⟨rfl, ⟨⟩⟩ | ⟨other, old⟩
    · rw [refs, same_service]
    · obtain ⟨before, after⟩ := free k found other old
      rw [new, holders_other before after]
      exact table.refs _ _ old

end Tables

end Qogecoin.AddrManImpl
