import Qogecoin.Library.Loops
import Qogecoin.Primitives.Transaction

/-! `m_block_index` and the pointers `pskip` in it. A pointer to an entry is the key of the entry.
`GetAncestor` jumps along these pointers, and they are themselves set by `GetAncestor`. -/
namespace Qogecoin.BlockTree

open List Function Int Nat Option

/-- The fields of a `CBlockIndex` by which blocks are linked. -/
structure IndexEntry where
  pprev : Option Uint256
  pskip : Option Uint256
  nHeight : Nat
deriving DecidableEq, Repr

def IndexEntry.initial : IndexEntry := ⟨none, none, 0⟩

abbrev BlockMap := Uint256 → Option IndexEntry

inductive Crash where
  | assertion
  | nullPointer
deriving DecidableEq, Repr

def invertLowestOne (n : Nat) : Nat := n &&& (n - 1)

def getSkipHeight (height : Nat) : Nat :=
  if height < 2 then 0
  else if height &&& 1 ≠ 0 then invertLowestOne (invertLowestOne (height - 1)) + 1
  else invertLowestOne height

theorem invertLowestOne_le (n : Nat) : invertLowestOne n ≤ n - 1 := and_le_right

variable {height : Nat}

theorem getSkipHeight_lt (positive : 0 < height) : getSkipHeight height < height := by
  have once := invertLowestOne_le height
  have below := invertLowestOne_le (height - 1)
  have twice := invertLowestOne_le (invertLowestOne (height - 1))
  unfold getSkipHeight
  split
  · exact positive
  · split <;> omega

theorem getSkipHeight_le (height : Nat) : getSkipHeight height ≤ height := by
  rcases Nat.eq_zero_or_pos height with rfl | positive
  · rfl
  · exact (getSkipHeight_lt positive).le

variable (m : BlockMap)

def walk (m : BlockMap) (height : Nat) (pindexWalk : Uint256) (heightWalk : Nat) :
    Except Crash Uint256 :=
  if heightWalk > height then
    let heightSkip := getSkipHeight heightWalk
    let heightSkipPrev := getSkipHeight (heightWalk - 1)
    match m pindexWalk with
    | none => .error .nullPointer
    | some entry =>
      let followed : Prop := heightSkip = height ∨ (heightSkip > height ∧
        ¬((heightSkipPrev : Int) < heightSkip - 2 ∧ heightSkipPrev ≥ height))
      match if followed then entry.pskip else none with
      | some pskip => walk m height pskip heightSkip
      | none =>
        match entry.pprev with
        | none => .error .assertion
        | some pprev => walk m height pprev (heightWalk - 1)
  else .ok pindexWalk
termination_by heightWalk
decreasing_by
  · exact getSkipHeight_lt (by omega)
  · omega

def getAncestor (pindex : Uint256) (height : Int) : Except Crash (Option Uint256) :=
  match m pindex with
  | none => .error .nullPointer
  | some entry =>
    if height > entry.nHeight ∨ height < 0 then .ok none
    else some <$> walk m height.toNat pindex entry.nHeight

def buildSkip (pindex : Uint256) : Except Crash BlockMap :=
  match m pindex with
  | none => .error .nullPointer
  | some entry =>
    match entry.pprev with
    | none => .ok m
    | some pprev => do
      let pskip ← getAncestor m pprev (getSkipHeight entry.nHeight)
      pure (update m pindex (some { entry with pskip }))

/-- The entry of the block itself is there when its parent is looked for. -/
def addToBlockIndex (hash hashPrevBlock : Uint256) : Except Crash BlockMap :=
  if (m hash).isSome then .ok m
  else
    let inserted := update m hash (some .initial)
    match inserted hashPrevBlock with
    | none => .ok inserted
    | some prev =>
      buildSkip (update inserted hash
        (some { IndexEntry.initial with pprev := some hashPrevBlock, nHeight := prev.nHeight + 1 }))
        hash

/-- What is stored about a block; `hash` is that of the header. -/
structure CDiskBlockIndex where
  hash : Uint256
  hashPrev : Uint256
  nHeight : Nat
deriving DecidableEq, Repr

def insertBlockIndex (hash : Uint256) : BlockMap :=
  if hash = .null ∨ (m hash).isSome then m else update m hash (some .initial)

/-- One turn of the loop of `LoadBlockIndexGuts`. The null hash has no entry to write to. -/
def loadRecord (diskindex : CDiskBlockIndex) : Except Crash BlockMap :=
  if diskindex.hash = .null then .error .nullPointer
  else
    let m := insertBlockIndex (insertBlockIndex m diskindex.hash) diskindex.hashPrev
    .ok (update m diskindex.hash (some
      { (m diskindex.hash).getD .initial with
        pprev := if diskindex.hashPrev = .null then none else some diskindex.hashPrev
        nHeight := diskindex.nHeight }))

def loadBlockIndex (records : List CDiskBlockIndex) (vSortedByHeight : List Uint256) :
    Except Crash BlockMap := do
  let m ← records.foldlM loadRecord fun _ => none
  vSortedByHeight.foldlM buildSkip m

structure Consistent (records : List CDiskBlockIndex) : Prop where
  nonnull : ∀ r ∈ records, r.hash ≠ .null
  distinct : records.Pairwise (·.hash ≠ ·.hash)
  linked : ∀ r ∈ records, r.hashPrev = .null ∧ r.nHeight = 0 ∨
    ∃ parent ∈ records, parent.hash = r.hashPrev ∧ r.nHeight = parent.nHeight + 1

inductive Built : BlockMap → Prop where
  | empty : Built fun _ => none
  | add {m m' : BlockMap} (hash hashPrevBlock : Uint256) (built : Built m)
      (added : addToBlockIndex m hash hashPrevBlock = .ok m') : Built m'
  | load {m' : BlockMap} {records : List CDiskBlockIndex} {vSortedByHeight : List Uint256}
      (consistent : Consistent records)
      (stored : ∀ hash ∈ vSortedByHeight, ∃ r ∈ records, r.hash = hash)
      (loaded : loadBlockIndex records vSortedByHeight = .ok m') : Built m'

def prev (b : Uint256) : Option Uint256 := (m b).bind (·.pprev)

def follow (m : BlockMap) (b : Uint256) : Nat → Option Uint256
  | 0 => some b
  | n + 1 => (prev m b).bind fun p => follow m p n

variable {m m' : BlockMap} {b p a hash : Uint256} {entry : IndexEntry} {n : Nat}

theorem follow_add (i j : Nat) : follow m b (i + j) = (follow m b i).bind (follow m · j) := by
  induction i generalizing b with
  | zero =>
    rw [zero_add]
    rfl
  | succ i ih =>
    rw [succ_add, follow, follow, bind_assoc]
    exact congrArg _ (funext fun p => ih)

theorem follow_of_add {i j : Nat} (first : follow m b i = some p) (second : follow m p j = some a) :
    follow m b (i + j) = some a := by
  rw [follow_add, first]
  exact second

theorem follow_own (own : prev m b = some b) (n : Nat) : follow m b n = some b := by
  induction n with
  | zero => rfl
  | succ n ih => rw [follow, own, bind_some, ih]

theorem follow_congr (same : ∀ b, prev m b = prev m' b) (n : Nat) :
    follow m b n = follow m' b n := by
  induction n generalizing b with
  | zero => rfl
  | succ n ih =>
    rw [follow, follow, same b]
    exact congrArg _ (funext fun p => ih)

/-- The height of a block is one more than that of its parent. A block that is its own parent
(there is no such header) has any height. -/
def Linked (m : BlockMap) (b : Uint256) (entry : IndexEntry) : Prop :=
  (entry.pprev = none ∧ entry.nHeight = 0) ∨ entry.pprev = some b ∨
    ∃ p parent, entry.pprev = some p ∧ m p = some parent ∧ entry.nHeight = parent.nHeight + 1

structure Sound (m : BlockMap) : Prop where
  linked : ∀ b entry, m b = some entry → Linked m b entry
  skips : ∀ b entry s, m b = some entry → entry.pskip = some s →
    follow m b (entry.nHeight - getSkipHeight entry.nHeight) = some s

def At (m : BlockMap) (b : Uint256) (height : Nat) : Prop :=
  ∃ entry, m b = some entry ∧ (entry.nHeight = height ∨ entry.pprev = some b)

theorem prev_of (found : m b = some entry) : prev m b = entry.pprev := by
  rw [prev, found]
  rfl

theorem Sound.step (sound : Sound m) (here : At m b (n + 1)) :
    ∃ p, prev m b = some p ∧ At m p n := by
  obtain ⟨entry, found, height⟩ := here
  rw [prev_of found]
  rcases height with height | own
  · rcases sound.linked b entry found with ⟨_, zero⟩ | own | ⟨p, parent, same, known, above⟩
    · omega
    · exact ⟨b, own, entry, found, .inr own⟩
    · exact ⟨p, same, parent, known, .inl (by omega)⟩
  · exact ⟨b, own, entry, found, .inr own⟩

theorem Sound.follow (sound : Sound m) (here : At m b height) (n : Nat) (enough : n ≤ height) :
    ∃ a, follow m b n = some a ∧ At m a (height - n) := by
  induction n generalizing b height with
  | zero => exact ⟨b, rfl, here⟩
  | succ n ih =>
    obtain ⟨height, rfl⟩ : ∃ below, height = below + 1 := ⟨height - 1, by omega⟩
    obtain ⟨p, parent, there⟩ := sound.step here
    obtain ⟨a, followed, arrived⟩ := ih there (by omega)
    refine ⟨a, ?_, ?_⟩
    · rw [BlockTree.follow, parent]
      exact followed
    · rwa [Nat.add_sub_add_right]

theorem Sound.skip (sound : Sound m) (here : At m b height) (found : m b = some entry)
    {s : Uint256} (jump : entry.pskip = some s) :
    BlockTree.follow m b (height - getSkipHeight height) = some s := by
  have stored := sound.skips b entry s found jump
  obtain ⟨entry', found', counted⟩ := here
  cases found.symm.trans found'
  rcases counted with rfl | own
  · exact stored
  · have loop := follow_own ((prev_of found).trans own)
    rw [loop] at stored ⊢
    exact stored

theorem Sound.walk (sound : Sound m) {height heightWalk : Nat} (here : At m b heightWalk)
    (below : height ≤ heightWalk) : ∃ a, BlockTree.follow m b (heightWalk - height) = some a ∧
      walk m height b heightWalk = .ok a := by
  induction heightWalk using Nat.strong_induction_on generalizing b with
  | _ heightWalk ih =>
    rw [BlockTree.walk]
    split_ifs with above
    · obtain ⟨entry, found, _⟩ := id here
      rw [found]
      dsimp only
      split
      next s jump =>
        obtain ⟨followed, jump⟩ := Option.ite_none_right_eq_some.mp jump
        have lower := getSkipHeight_lt (show 0 < heightWalk by omega)
        have arrived := sound.skip here found jump
        obtain ⟨_, same, there⟩ := sound.follow here (heightWalk - getSkipHeight heightWalk) (by omega)
        cases arrived.symm.trans same
        rw [Nat.sub_sub_self lower.le] at there
        have bound : height ≤ getSkipHeight heightWalk := by omega
        obtain ⟨a, rest, walked⟩ := ih _ lower there bound
        refine ⟨a, ?_, walked⟩
        rw [← Nat.sub_add_sub_cancel lower.le bound]
        exact follow_of_add arrived rest
      · obtain ⟨heightWalk, rfl⟩ : ∃ below, heightWalk = below + 1 := ⟨heightWalk - 1, by omega⟩
        obtain ⟨p, parent, there⟩ := sound.step here
        obtain ⟨a, rest, walked⟩ := ih heightWalk (by omega) there (by omega)
        rw [prev_of found] at parent
        rw [parent]
        refine ⟨a, ?_, walked⟩
        rw [Nat.succ_sub (by omega), BlockTree.follow, prev_of found, parent]
        exact rest
    · rw [show heightWalk - height = 0 by omega]
      exact ⟨b, rfl, rfl⟩

theorem Sound.getAncestor (sound : Sound m) (found : m b = some entry)
    (below : height ≤ entry.nHeight) :
    ∃ a, BlockTree.follow m b (entry.nHeight - height) = some a ∧
      getAncestor m b height = .ok (some a) := by
  obtain ⟨a, followed, walked⟩ := sound.walk ⟨entry, found, .inl rfl⟩ below
  refine ⟨a, followed, ?_⟩
  rw [BlockTree.getAncestor, found]
  dsimp only
  rw [if_neg (by omega), toNat_natCast, walked]
  rfl

def setSkip (m : BlockMap) (b : Uint256) (pskip : Option Uint256) : BlockMap := fun x =>
  (m x).map fun entry => { entry with pskip := if x = b then pskip else entry.pskip }

theorem setSkip_eq (found : m b = some entry) (pskip : Option Uint256) :
    update m b (some { entry with pskip }) = setSkip m b pskip := by
  funext x
  unfold setSkip
  by_cases here : x = b
  · rw [here, update_self, found, map_some, if_pos rfl]
  · rw [update_of_ne here]
    simp [here]

theorem prev_setSkip (pskip : Option Uint256) (x : Uint256) :
    prev (setSkip m b pskip) x = prev m x := by
  rw [prev, prev, setSkip, bind_map]
  rfl

theorem Sound.setSkip (sound : Sound m) (found : m b = some entry)
    (right : BlockTree.follow m b (entry.nHeight - getSkipHeight entry.nHeight) = some a) :
    Sound (setSkip m b (some a)) := by
  constructor
  · intro x new known
    obtain ⟨old, before, rfl⟩ := Option.map_eq_some_iff.mp known
    refine (sound.linked x old before).imp_right (Or.imp_right ?_)
    rintro ⟨p, parent, link, above, height⟩
    exact ⟨p, _, link, congrArg (Option.map _) above, height⟩
  · intro x new s known jump
    obtain ⟨old, before, rfl⟩ := Option.map_eq_some_iff.mp known
    rw [follow_congr (prev_setSkip (some a))]
    split at jump
    next here =>
      subst here
      cases found.symm.trans before
      cases jump
      exact right
    · exact sound.skips x old s before jump

theorem Sound.buildSkip (sound : Sound m) (found : m b = some entry) :
    ∃ m', buildSkip m b = .ok m' ∧ Sound m' ∧ ∀ x, (m' x).isSome = (m x).isSome := by
  rw [BlockTree.buildSkip, found]
  dsimp only
  cases link : entry.pprev with
  | none => exact ⟨m, rfl, sound, fun _ => rfl⟩
  | some p =>
    obtain ⟨a, asked, right⟩ : ∃ a,
        BlockTree.getAncestor m p (getSkipHeight entry.nHeight) = .ok (some a) ∧
        BlockTree.follow m b (entry.nHeight - getSkipHeight entry.nHeight) = some a := by
      rcases sound.linked b entry found with ⟨none, _⟩ | own | ⟨_, parent, same, above, height⟩
      · cases link.symm.trans none
      · cases link.symm.trans own
        obtain ⟨a, followed, asked⟩ := sound.getAncestor found (getSkipHeight_le entry.nHeight)
        exact ⟨a, asked, followed⟩
      · cases link.symm.trans same
        have lower := getSkipHeight_lt (show 0 < entry.nHeight by omega)
        obtain ⟨a, followed, asked⟩ := sound.getAncestor above
          (show getSkipHeight entry.nHeight ≤ parent.nHeight by omega)
        refine ⟨a, asked, ?_⟩
        rw [show entry.nHeight - getSkipHeight entry.nHeight =
          parent.nHeight - getSkipHeight entry.nHeight + 1 by omega, BlockTree.follow, prev_of found,
          link]
        exact followed
    dsimp only
    rw [asked, Loops.ok_bind]
    refine ⟨_, rfl, ?_, ?_⟩
    · rw [← link, setSkip_eq found]
      exact sound.setSkip found right
    · intro x
      rw [← link, setSkip_eq found, BlockTree.setSkip, isSome_map]

theorem Sound.follow_insert (sound : Sound m) (fresh : m hash = none) (new : IndexEntry)
    (found : m b = some entry) (n : Nat) :
    BlockTree.follow (update m hash (some new)) b n = BlockTree.follow m b n := by
  induction n generalizing b entry with
  | zero => rfl
  | succ n ih =>
    have apart : b ≠ hash := by
      rintro rfl
      cases found.symm.trans fresh
    have kept : prev (update m hash (some new)) b = entry.pprev := by
      rw [prev, update_of_ne apart, found]
      rfl
    rw [BlockTree.follow, BlockTree.follow, kept, prev_of found]
    rcases sound.linked b entry found with ⟨none, _⟩ | own | ⟨p, parent, link, above, _⟩
    · rw [none]
      rfl
    · rw [own]
      exact ih found
    · rw [link]
      exact ih above

theorem Sound.insert (sound : Sound m) (fresh : m hash = none) (unset : entry.pskip = none)
    (linked : Linked (update m hash (some entry)) hash entry) :
    Sound (update m hash (some entry)) := by
  have old {x : Uint256} {e : IndexEntry} (known : m x = some e) :
      update m hash (some entry) x = some e := by
    rwa [update_of_ne]
    rintro rfl
    cases known.symm.trans fresh
  constructor
  · intro x e known
    by_cases here : x = hash
    · subst here
      rw [update_self] at known
      cases known
      exact linked
    · rw [update_of_ne here] at known
      refine (sound.linked x e known).imp_right (Or.imp_right ?_)
      rintro ⟨p, parent, link, above, height⟩
      exact ⟨p, parent, link, old above, height⟩
  · intro x e s known jump
    by_cases here : x = hash
    · subst here
      rw [update_self] at known
      cases known
      cases unset.symm.trans jump
    · rw [update_of_ne here] at known
      rw [sound.follow_insert fresh entry known]
      exact sound.skips x e s known jump

theorem Sound.addToBlockIndex (sound : Sound m) (hash hashPrevBlock : Uint256) :
    ∃ m', addToBlockIndex m hash hashPrevBlock = .ok m' ∧ Sound m' := by
  rw [BlockTree.addToBlockIndex]
  split_ifs with missing
  · exact ⟨m, rfl, sound⟩
  have fresh := not_isSome_iff_eq_none.mp missing
  dsimp only
  split
  · exact ⟨_, rfl, sound.insert fresh rfl (.inl ⟨rfl, rfl⟩)⟩
  rename_i parent above
  rw [update_idem]
  have sound1 : Sound (update m hash (some { IndexEntry.initial with
      pprev := some hashPrevBlock, nHeight := parent.nHeight + 1 })) := by
    apply sound.insert fresh rfl
    by_cases own : hashPrevBlock = hash
    · exact .inr (.inl (congrArg some own))
    · rw [update_of_ne own] at above
      exact .inr (.inr ⟨_, parent, rfl, (update_of_ne own ..).trans above, rfl⟩)
  obtain ⟨m', built, sound2, _⟩ := sound1.buildSkip (update_self ..)
  exact ⟨m', built, sound2⟩

def CDiskBlockIndex.toEntry (r : CDiskBlockIndex) : IndexEntry :=
  ⟨if r.hashPrev = .null then none else some r.hashPrev, none, r.nHeight⟩

def Blank (m : BlockMap) (x : Uint256) : Prop := m x = none ∨ m x = some .initial

theorem insertBlockIndex_of_some (found : m b = some entry) (hash : Uint256) :
    insertBlockIndex m hash b = some entry := by
  unfold insertBlockIndex
  split_ifs with fresh
  · exact found
  · rwa [update_of_ne]
    rintro rfl
    exact fresh (.inr (by rw [found]; rfl))

theorem Blank.insertBlockIndex (blank : Blank m b) (hash : Uint256) :
    Blank (insertBlockIndex m hash) b := by
  unfold BlockTree.insertBlockIndex
  split
  · exact blank
  · by_cases here : b = hash
    · exact .inr (by rw [here, update_self])
    · unfold Blank
      rwa [update_of_ne here]

structure Loaded (done : List CDiskBlockIndex) (m : BlockMap) : Prop where
  entries : ∀ r ∈ done, m r.hash = some r.toEntry
  others : ∀ x, (∀ r ∈ done, r.hash ≠ x) → Blank m x

theorem Loaded.record {done : List CDiskBlockIndex} {r : CDiskBlockIndex} (loaded : Loaded done m)
    (nonnull : r.hash ≠ .null) (new : ∀ old ∈ done, old.hash ≠ r.hash) :
    ∃ m', loadRecord m r = .ok m' ∧ Loaded (done ++ [r]) m' := by
  have blank := ((loaded.others r.hash new).insertBlockIndex r.hash).insertBlockIndex r.hashPrev
  rw [loadRecord, if_neg nonnull]
  refine ⟨_, rfl, ?_, ?_⟩
  · intro old member
    rcases mem_append.mp member with before | last
    · rw [update_of_ne (new old before)]
      exact insertBlockIndex_of_some (insertBlockIndex_of_some (loaded.entries old before) _) _
    · rw [mem_singleton.mp last, update_self]
      rcases blank with missing | initial
      · rw [missing]
        rfl
      · rw [initial]
        rfl
  · intro x other
    have apart := other r (mem_append_right done mem_cons_self)
    unfold Blank
    rw [update_of_ne apart.symm]
    apply Blank.insertBlockIndex
    exact (loaded.others x fun old member => other old (mem_append_left _ member)).insertBlockIndex _

variable {records : List CDiskBlockIndex}

theorem Loaded.sound (consistent : Consistent records) (loaded : Loaded records m) : Sound m := by
  have entries : ∀ x entry, m x = some entry →
      entry = .initial ∨ ∃ r ∈ records, r.hash = x ∧ entry = r.toEntry := by
    intro x entry known
    by_cases stored : ∃ r ∈ records, r.hash = x
    · obtain ⟨r, member, rfl⟩ := stored
      cases known.symm.trans (loaded.entries r member)
      exact .inr ⟨r, member, rfl, rfl⟩
    · push Not at stored
      rcases loaded.others x stored with missing | initial
      · cases known.symm.trans missing
      · cases known.symm.trans initial
        exact .inl rfl
  constructor
  · intro x entry known
    rcases entries x entry known with rfl | ⟨r, member, rfl, rfl⟩
    · exact .inl ⟨rfl, rfl⟩
    · rcases consistent.linked r member with ⟨null, height⟩ | ⟨parent, stored, same, height⟩
      · exact .inl ⟨if_pos null, height⟩
      · refine .inr (.inr ⟨parent.hash, parent.toEntry, ?_, loaded.entries parent stored, height⟩)
        rw [same]
        exact if_neg (same ▸ consistent.nonnull parent stored)
  · intro x entry s known jump
    rcases entries x entry known with rfl | ⟨r, _, rfl, rfl⟩ <;> cases jump

theorem loadBlockIndex_sound {vSortedByHeight : List Uint256} (consistent : Consistent records)
    (stored : ∀ hash ∈ vSortedByHeight, ∃ r ∈ records, r.hash = hash) :
    ∃ m', loadBlockIndex records vSortedByHeight = .ok m' ∧ Sound m' := by
  have read : ∃ m, records.foldlM loadRecord (fun _ => none) = .ok m ∧
      ∃ done, done ++ [] = records ∧ Loaded done m := by
    refine Loops.foldlM_ok (fun rest m => ∃ done, done ++ rest = records ∧ Loaded done m) ?_
      ⟨[], rfl, nofun, fun _ _ => .inl rfl⟩
    rintro r rest m ⟨done, whole, loaded⟩
    have distinct := whole ▸ consistent.distinct
    obtain ⟨m', read, loaded'⟩ := loaded.record
      (consistent.nonnull r (whole ▸ mem_append_right done mem_cons_self))
      fun old member => (pairwise_append.mp distinct).2.2 old member r mem_cons_self
    exact ⟨m', read, done ++ [r], by rw [append_assoc]; exact whole, loaded'⟩
  obtain ⟨m, read, done, whole, loaded⟩ := read
  rw [append_nil] at whole
  subst whole
  have known : ∀ hash ∈ vSortedByHeight, (m hash).isSome := by
    intro hash member
    obtain ⟨r, inside, rfl⟩ := stored hash member
    rw [loaded.entries r inside]
    rfl
  rw [loadBlockIndex, read]
  have built : ∃ m', vSortedByHeight.foldlM buildSkip m = .ok m' ∧ Sound m' ∧
      ∀ hash ∈ [], (m' hash).isSome := by
    refine Loops.foldlM_ok (fun rest m => Sound m ∧ ∀ hash ∈ rest, (m hash).isSome) ?_
      ⟨loaded.sound consistent, known⟩
    rintro hash rest m ⟨sound, known⟩
    obtain ⟨entry, found⟩ := isSome_iff_exists.mp (known hash mem_cons_self)
    obtain ⟨m', built, sound', same⟩ := sound.buildSkip found
    refine ⟨m', built, sound', ?_⟩
    intro other member
    rw [same]
    exact known other (mem_cons_of_mem _ member)
  obtain ⟨m', built, sound, _⟩ := built
  exact ⟨m', built, sound⟩

theorem Built.sound (built : Built m) : Sound m := by
  induction built with
  | empty => exact ⟨nofun, nofun⟩
  | add hash hashPrevBlock _ added sound =>
    obtain ⟨m', again, sound'⟩ := sound.addToBlockIndex hash hashPrevBlock
    cases added.symm.trans again
    exact sound'
  | load consistent stored loaded =>
    obtain ⟨m', again, sound⟩ := loadBlockIndex_sound consistent stored
    cases loaded.symm.trans again
    exact sound

/-- In every tree, `GetAncestor` returns the block that following `pprev` leads to, and null for
heights that the block has no ancestor at. Neither adding a block nor loading a tree runs into the
assertion. -/
theorem getAncestor_exact (built : Built m) :
    (∀ b entry, m b = some entry → ∀ height : Int,
      (0 ≤ height → height ≤ entry.nHeight →
        ∃ a, follow m b (entry.nHeight - height).toNat = some a ∧
          getAncestor m b height = .ok (some a)) ∧
      (height < 0 ∨ entry.nHeight < height → getAncestor m b height = .ok none)) ∧
    (∀ hash hashPrevBlock, ∃ m', addToBlockIndex m hash hashPrevBlock = .ok m') ∧
    ∀ records vSortedByHeight, Consistent records →
      (∀ hash ∈ vSortedByHeight, ∃ r ∈ records, r.hash = hash) →
      ∃ m', loadBlockIndex records vSortedByHeight = .ok m' := by
  refine ⟨?_, ?_, ?_⟩
  · intro b entry found height
    constructor
    · intro nonnegative below
      obtain ⟨height, rfl⟩ := eq_ofNat_of_zero_le nonnegative
      rw [ofNat_le] at below
      rw [← ofNat_sub below, toNat_natCast]
      exact built.sound.getAncestor found below
    · intro outside
      rw [getAncestor, found]
      exact if_pos outside.symm
  · intro hash hashPrevBlock
    obtain ⟨m', added, _⟩ := built.sound.addToBlockIndex hash hashPrevBlock
    exact ⟨m', added⟩
  · intro records vSortedByHeight consistent stored
    obtain ⟨m', loaded, _⟩ := loadBlockIndex_sound consistent stored
    exact ⟨m', loaded⟩

theorem getAncestor_exact_of_two :
    let genesis := Uint256.uint256S 1
    let child := Uint256.uint256S 2
    ∃ m, Built m ∧ getAncestor m child 0 = .ok (some genesis) ∧ getAncestor m child 2 = .ok none := by
  intro genesis child
  let one : BlockMap := update (fun _ => none) genesis (some .initial)
  have first : addToBlockIndex (fun _ => none) genesis .null = .ok one := rfl
  have asked (m : BlockMap) (found : m genesis = some .initial) :
      getAncestor m genesis 0 = .ok (some genesis) := by
    rw [getAncestor, found]
    dsimp only
    rw [if_neg (by decide), walk]
    rfl
  have second : addToBlockIndex one child genesis =
      .ok (update one child (some ⟨some genesis, some genesis, 1⟩)) := by
    let inserted : BlockMap := update (update one child (some .initial)) child
      (some ⟨some genesis, none, 1⟩)
    change (getAncestor inserted genesis 0 >>= fun pskip =>
      pure (update inserted child (some ⟨some genesis, pskip, 1⟩))) = _
    rw [asked _ rfl, Loops.ok_bind, update_idem, update_idem]
    rfl
  have built := Built.add _ _ (.add _ _ .empty first) second
  have answers := (getAncestor_exact built).1 child _ (update_self ..)
  refine ⟨_, built, ?_, (answers 2).2 (by decide)⟩
  obtain ⟨a, followed, found⟩ := (answers 0).1 (by decide) (by decide)
  cases followed
  exact found

end Qogecoin.BlockTree
