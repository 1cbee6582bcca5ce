import Qogecoin.Coins.Cache

/-! The stack of coin caches behaves as a stack of flat maps of unspent coins. A flat stack has
one map for every cache layer and the map of the base view at the end. -/
namespace Qogecoin.Coins

open List AList CCoinsCacheEntry Function

abbrev FlatMap := COutPoint → Option Coin
abbrev FlatStack := List FlatMap

def cell (parent : Option Coin) : Option CCoinsCacheEntry → Option Coin
  | none => parent
  | some entry => entry.unspent

def viewAt (base : BaseView) : List CCoinsViewCache → FlatMap
  | [] => base.coins
  | top :: below => fun o => cell (viewAt base below o) (top.cacheCoins.lookup o)

def viewsAt (base : BaseView) : List CCoinsViewCache → FlatStack
  | [] => [base.coins]
  | top :: below => viewAt base (top :: below) :: viewsAt base below

/-- The five combinations that `CCoinsCacheEntry` documents as valid. -/
def Documented (entry : CCoinsCacheEntry) : Prop :=
  (entry.coin.isSpent = false ∧ entry.fresh = true ∧ entry.dirty = true) ∨
  (entry.coin.isSpent = false ∧ entry.fresh = false ∧ entry.dirty = true) ∨
  (entry.coin.isSpent = false ∧ entry.fresh = false ∧ entry.dirty = false) ∨
  (entry.coin.isSpent = true ∧ entry.fresh = true ∧ entry.dirty = false) ∨
  (entry.coin.isSpent = true ∧ entry.fresh = false ∧ entry.dirty = true)

/-- A sound entry over a parent that shows `parent`: `FRESH` means the parent has no such coin,
a clean entry agrees with the parent, and a spent coin is cleared. -/
structure Sound (parent : Option Coin) (entry : CCoinsCacheEntry) : Prop where
  documented : Documented entry
  fresh : entry.fresh = true → parent = none
  clean : entry.dirty = false → entry.unspent = parent
  cleared : entry.coin.isSpent = true → entry.coin = .empty

def MapSound (parent : FlatMap) (cacheCoins : CCoinsMap) : Prop :=
  ∀ o entry, cacheCoins.lookup o = some entry → Sound (parent o) entry

def LayersSound (base : BaseView) : List CCoinsViewCache → Prop
  | [] => True
  | top :: below => MapSound (viewAt base below) top.cacheCoins ∧ LayersSound base below

variable {entry : CCoinsCacheEntry} {o : COutPoint}

theorem unspent_eq_none :
    entry.unspent = none ↔ entry.coin.isSpent = true := by
  simp [unspent]

theorem unspent_eq_some {coin : Coin} :
    entry.unspent = some coin ↔ entry.coin.isSpent = false ∧ entry.coin = coin := by
  simp [unspent]

variable (base : BaseView)

theorem viewAt_unspent (layers : List CCoinsViewCache) (o : COutPoint) (c : Coin)
    (found : viewAt base layers o = some c) : c.isSpent = false := by
  induction layers with
  | nil => exact base.unspent o c found
  | cons top below ih =>
    simp only [viewAt] at found
    cases entry : top.cacheCoins.lookup o with
    | none => exact ih (by simpa [entry, cell] using found)
    | some e =>
      simp only [entry, cell, unspent_eq_some] at found
      rcases found with ⟨live, rfl⟩
      exact live

/-- The cleared coin stands for a coin that is not there. -/
theorem Sound.coin_eq {parent : Option Coin} (sound : Sound parent entry) :
    entry.unspent.getD .empty = entry.coin := by
  cases spent : entry.coin.isSpent with
  | false => simp [unspent, spent]
  | true => simp [unspent, sound.cleared spent]

theorem sound_fetched (coin : Coin) (live : coin.isSpent = false) :
    Sound (some coin) ⟨coin, false, coin.isSpent⟩ := by
  constructor
  · simp [Documented, live]
  · simp [live]
  · intro _
    simp [unspent, live]
  · simp [live]

structure Fetched (base : BaseView) (o : COutPoint) (layers : List CCoinsViewCache)
    (result : Option CCoinsCacheEntry) (top : CCoinsViewCache) (below : List CCoinsViewCache) :
    Prop where
  sound : LayersSound base (top :: below)
  views : viewsAt base (top :: below) = viewsAt base layers
  stored : top.cacheCoins.lookup o = result
  shown : result.bind unspent = viewAt base layers o

theorem viewAt_of_viewsAt {base : BaseView} {left right : List CCoinsViewCache}
    (same : viewsAt base left = viewsAt base right) : viewAt base left = viewAt base right := by
  cases left <;> cases right <;> simp_all [viewsAt, viewAt]

theorem viewsAt_cons {base : BaseView} {top top' : CCoinsViewCache}
    {below below' : List CCoinsViewCache} (head : viewAt base (top :: below) = viewAt base (top' :: below'))
    (rest : viewsAt base below = viewsAt base below') :
    viewsAt base (top :: below) = viewsAt base (top' :: below') := by
  simp only [viewsAt, head, rest]

variable {parent : FlatMap} {m : CCoinsMap}

/-- What a layer with these coins shows over its parent. -/
def overlay (parent : FlatMap) (cacheCoins : CCoinsMap) : FlatMap := fun o =>
  cell (parent o) (cacheCoins.lookup o)

theorem overlay_insert : overlay parent (m.insert o entry) =
    update (overlay parent m) o entry.unspent := by
  funext p
  by_cases same : p = o
  · subst same
    simp [overlay, cell]
  · simp [overlay, same, lookup_insert_ne same]

theorem overlay_erase :
    overlay parent (m.erase o) = update (overlay parent m) o (parent o) := by
  funext p
  by_cases same : p = o
  · subst same
    simp [overlay, cell]
  · simp [overlay, same, lookup_erase_ne same]

theorem mapSound_empty : MapSound parent ∅ := by
  intro o entry found
  simp at found

theorem mapSound_insert (sound : MapSound parent m)
    (new : Sound (parent o) entry) : MapSound parent (m.insert o entry) := by
  intro p e found
  by_cases same : p = o
  · subst same
    rw [lookup_insert, Option.some_inj] at found
    exact found ▸ new
  · rw [lookup_insert_ne same] at found
    exact sound p e found

theorem mapSound_erase (sound : MapSound parent m) :
    MapSound parent (m.erase o) := by
  intro p e found
  by_cases same : p = o
  · subst same
    simp at found
  · rw [lookup_erase_ne same] at found
    exact sound p e found

theorem fetchCoin_spec (o : COutPoint) (top : CCoinsViewCache) (below : List CCoinsViewCache)
    (parent : Option Coin × List CCoinsViewCache) (sound : LayersSound base (top :: below))
    (answer : parent.1 = viewAt base below o) (kept : LayersSound base parent.2)
    (same : viewsAt base parent.2 = viewsAt base below) :
    Fetched base o (top :: below) (fetchCoin o top below parent).1
      (fetchCoin o top below parent).2.1 (fetchCoin o top below parent).2.2 := by
  have views := viewAt_of_viewsAt same
  unfold fetchCoin
  cases entry : top.cacheCoins.lookup o with
  | some e => exact ⟨sound, rfl, entry, by simp [viewAt, entry, cell]⟩
  | none =>
    obtain ⟨coin, layers⟩ := parent
    cases coin with
    | none =>
      refine ⟨⟨views ▸ sound.1, kept⟩, viewsAt_cons ?_ same, entry, ?_⟩
      · simp only [viewAt, views]
      · simpa [viewAt, entry, cell] using answer
    | some c =>
      have live := viewAt_unspent base below o c answer.symm
      refine ⟨⟨mapSound_insert (views ▸ sound.1) ?_, kept⟩, viewsAt_cons ?_ same, by simp, ?_⟩
      · rw [views, ← answer]
        exact sound_fetched c live
      · have shown : viewAt base (top :: below) o = some c := by simp [viewAt, entry, cell, ← answer]
        refine overlay_insert.trans ?_
        rw [views, unspent_eq_some.mpr ⟨live, rfl⟩, ← shown]
        exact update_eq_self o _
      · simp [viewAt, entry, cell, ← answer, unspent, live]

theorem getCoinAt_spec (o : COutPoint) (layers : List CCoinsViewCache)
    (sound : LayersSound base layers) :
    (getCoinAt base o layers).1 = viewAt base layers o ∧
      LayersSound base (getCoinAt base o layers).2 ∧
        viewsAt base (getCoinAt base o layers).2 = viewsAt base layers := by
  induction layers with
  | nil => exact ⟨rfl, trivial, rfl⟩
  | cons top below ih =>
    obtain ⟨answer, kept, same⟩ := ih sound.2
    have fetched := fetchCoin_spec base o top below _ sound answer kept same
    exact ⟨fetched.shown, fetched.sound, fetched.views⟩

def merged (parent : FlatMap) (entries : Entries) : FlatMap := fun o =>
  match entries.dlookup o with
  | some entry => entry.unspent
  | none => parent o

variable {rest : Entries}

theorem merged_cons (missing : o ∉ rest.keys) :
    merged parent (⟨o, entry⟩ :: rest) =
      merged (update parent o entry.unspent) rest := by
  funext p
  by_cases same : p = o
  · subst same
    simp [merged, dlookup_eq_none.mpr missing]
  · have skipped : dlookup p (⟨o, entry⟩ :: rest) = dlookup p rest :=
      dlookup_cons_ne rest (Sigma.mk o entry) same
    simp [merged, skipped, same]

theorem ne_of_mem_tail {p : COutPoint} (missing : o ∉ rest.keys)
    (member : ⟨p, entry⟩ ∈ rest) : p ≠ o := by
  intro same
  have key : p ∈ rest.keys := mem_keys_of_mem (s := ⟨p, entry⟩) member
  exact missing (same ▸ key)

/-- A sound child entry merges without an exception, and the parent then shows the child's coin. -/
theorem batchWriteEntry_spec (grand : FlatMap) (m : CCoinsMap) (o : COutPoint)
    (entry : CCoinsCacheEntry) (sound : MapSound grand m)
    (child : Sound (overlay grand m o) entry) :
    ∃ next, batchWriteEntry m o entry = .ok next ∧ MapSound grand next ∧
      overlay grand next = Function.update (overlay grand m) o entry.unspent := by
  unfold batchWriteEntry
  cases dirty : entry.dirty with
  | false => exact ⟨m, by simp, sound, by simp [child.clean dirty]⟩
  | true =>
    have inserted : ∀ fresh, (fresh = true → grand o = none) →
        (entry.coin.isSpent = true → fresh = false) →
          MapSound grand (m.insert o ⟨entry.coin, true, fresh⟩) ∧
            overlay grand (m.insert o ⟨entry.coin, true, fresh⟩) =
              Function.update (overlay grand m) o entry.unspent := by
      intro fresh absent live
      refine ⟨mapSound_insert sound ⟨?_, absent, by simp, child.cleared⟩, overlay_insert⟩
      cases spent : entry.coin.isSpent with
      | true => simp [Documented, spent, live spent]
      | false => cases fresh <;> simp [Documented, spent]
    have never : ¬ (entry.fresh = true ∧ entry.coin.isSpent = true) := by
      rcases child.documented with h | h | h | h | h <;> simp_all
    simp only [Bool.not_true, Bool.false_eq_true, if_false]
    cases found : m.lookup o with
    | none =>
      simp only [overlay, found, cell] at child
      have kept : (entry.fresh && entry.coin.isSpent) = false := by simpa using never
      simp only [kept, Bool.false_eq_true, if_false]
      exact ⟨_, rfl, inserted entry.fresh child.fresh (fun spent => by simpa [spent] using kept)⟩
    | some us =>
      have known := sound o us found
      simp only [overlay, found, cell] at child
      have misapplied : (entry.fresh && !us.coin.isSpent) = false := by
        cases fresh : entry.fresh with
        | false => rfl
        | true =>
          have absent := child.fresh fresh
          rw [unspent_eq_none] at absent
          simp [absent]
      simp only [misapplied, Bool.false_eq_true, if_false]
      split
      next both =>
        simp only [Bool.and_eq_true] at both
        refine ⟨_, rfl, mapSound_erase sound, ?_⟩
        rw [overlay_erase, known.fresh both.1, unspent_eq_none.mpr both.2]
      next stays =>
        refine ⟨_, rfl, inserted us.fresh known.fresh ?_⟩
        intro spent
        simpa [spent] using stays

theorem batchWrite_spec (grand : FlatMap) (m : CCoinsMap) (entries : Entries)
    (nodup : entries.NodupKeys) (sound : MapSound grand m)
    (children : ∀ o entry, ⟨o, entry⟩ ∈ entries → Sound (overlay grand m o) entry) :
    ∃ next, batchWrite m entries = .ok next ∧ MapSound grand next ∧
      overlay grand next = merged (overlay grand m) entries := by
  induction entries generalizing m with
  | nil => exact ⟨m, rfl, sound, rfl⟩
  | cons head rest ih =>
    obtain ⟨o, entry⟩ := head
    rw [nodupKeys_cons] at nodup
    obtain ⟨next, step, kept, written⟩ :=
      batchWriteEntry_spec grand m o entry sound (children o entry (by simp))
    obtain ⟨last, run, final, shown⟩ := ih next nodup.2 kept (by
      intro p e member
      rw [written, update_of_ne (ne_of_mem_tail nodup.1 member)]
      exact children p e (by simp [member]))
    refine ⟨last, ?_, final, ?_⟩
    · simp only [batchWrite, step]
      exact run
    · rw [shown, written, merged_cons nodup.1]

theorem baseWrite_spec (entries : Entries) (nodup : entries.NodupKeys)
    (children : ∀ o entry, ⟨o, entry⟩ ∈ entries → Sound (base.coins o) entry) :
    (entries.foldl (fun base e => base.write e.1 e.2) base).coins = merged base.coins entries := by
  induction entries generalizing base with
  | nil => rfl
  | cons head rest ih =>
    obtain ⟨o, entry⟩ := head
    rw [nodupKeys_cons] at nodup
    have child := children o entry (by simp)
    have written : (base.write o entry).coins = update base.coins o entry.unspent := by
      funext p
      by_cases same : p = o
      · subst same
        cases dirty : entry.dirty with
        | false => simp [BaseView.write, dirty, child.clean dirty]
        | true => simp [BaseView.write, dirty]
      · simp [BaseView.write, same]
    rw [foldl_cons, ih (base.write o entry) nodup.2 (by
      intro p e member
      rw [written, update_of_ne (ne_of_mem_tail nodup.1 member)]
      exact children p e (by simp [member])), written, merged_cons nodup.1]

theorem merged_eq_cell (parent : FlatMap) (m : CCoinsMap) (entries : Entries)
    (perm : entries.Perm m.entries) (nodup : entries.NodupKeys) :
    merged parent entries = overlay parent m := by
  funext o
  have same : dlookup o entries = m.lookup o := perm_dlookup o nodup perm
  rw [merged, same, overlay]
  cases m.lookup o <;> rfl

namespace View

variable (view : View)

def Sound : Prop := LayersSound view.base view.layers

def shown : FlatMap := viewAt view.base view.layers

def flat : FlatStack := viewsAt view.base view.layers

def lower : FlatStack := viewsAt view.base view.below

theorem flat_eq : view.flat = view.shown :: view.lower := rfl

section

variable (view : View) (o : COutPoint) (sound : view.Sound)
include sound

theorem fetch_spec :
    Fetched view.base o view.layers (view.fetch o).1 (view.fetch o).2.top (view.fetch o).2.below := by
  obtain ⟨answer, kept, same⟩ := getCoinAt_spec view.base o view.below sound.2
  exact fetchCoin_spec view.base o view.top view.below _ sound answer kept same

theorem fetch_sound : (view.fetch o).2.Sound :=
  (fetch_spec view o sound).sound

theorem fetch_flat : (view.fetch o).2.flat = view.flat :=
  (fetch_spec view o sound).views

theorem fetch_entry : (view.fetch o).1.bind unspent = view.shown o :=
  (fetch_spec view o sound).shown

theorem accessCoin_eq : (view.accessCoin o).1 = (view.shown o).getD .empty := by
  have stored := (fetch_spec view o sound).stored
  simp only [accessCoin]
  rw [← fetch_entry view o sound]
  cases found : (view.fetch o).1 with
  | none => rfl
  | some e =>
    rw [found] at stored
    exact ((fetch_sound view o sound).1 o e stored).coin_eq.symm

theorem setCoins_erase :
    (view.setCoins (view.top.cacheCoins.erase o)).Sound ∧
      (view.setCoins (view.top.cacheCoins.erase o)).flat =
        update view.shown o (viewAt view.base view.below o) :: view.lower :=
  ⟨⟨mapSound_erase sound.1, sound.2⟩, congrArg (· :: view.lower) overlay_erase⟩

theorem setCoins_insert (new : Coins.Sound (viewAt view.base view.below o) entry) :
    (view.setCoins (view.top.cacheCoins.insert o entry)).Sound ∧
      (view.setCoins (view.top.cacheCoins.insert o entry)).flat =
        update view.shown o entry.unspent :: view.lower :=
  ⟨⟨mapSound_insert sound.1 new, sound.2⟩, congrArg (· :: view.lower) overlay_insert⟩

theorem addCoin_spec {coin : Coin} {possibleOverwrite : Bool} (live : coin.isSpent = false)
    (free : possibleOverwrite = false → view.shown o = none) :
    ∃ next, view.addCoin o coin possibleOverwrite = .ok next ∧ next.Sound ∧
      next.flat =
        (if isUnspendable coin.out.scriptPubKey then view.shown
          else Function.update view.shown o (some coin)) :: view.lower := by
  unfold addCoin
  simp only [live, Bool.false_eq_true, if_false]
  by_cases unspendable : isUnspendable coin.out.scriptPubKey = true
  · simp only [unspendable, if_true]
    exact ⟨view, rfl, sound, rfl⟩
  simp only [unspendable]
  have parent : view.shown o =
      cell (viewAt view.base view.below o) (view.top.cacheCoins.lookup o) := rfl
  obtain ⟨entry, default⟩ : ∃ entry, entry = (view.top.cacheCoins.lookup o).getD
      ⟨.empty, false, false⟩ := ⟨_, rfl⟩
  rw [← default]
  have spent : possibleOverwrite = false → entry.coin.isSpent = true := by
    intro strict
    have none := free strict
    rw [parent] at none
    cases found : view.top.cacheCoins.lookup o with
    | none => simp [default, found]
    | some e =>
      rw [found, cell, unspent_eq_none] at none
      simpa [default, found] using none
  have passes : (!possibleOverwrite && !entry.coin.isSpent) = false := by
    cases possibleOverwrite <;> simp_all
  simp only [passes, Bool.false_eq_true, if_false]
  refine ⟨_, rfl, ?_⟩
  have new : Coins.Sound (viewAt view.base view.below o)
      ⟨coin, true, entry.fresh || (!possibleOverwrite && !entry.dirty)⟩ := by
    refine ⟨?_, ?_, by simp, by simp [live]⟩
    · simp only [Documented, live]
      cases entry.fresh || (!possibleOverwrite && !entry.dirty) <;> simp
    · -- a fresh flag is either inherited or set over a spent entry that is not dirty
      intro fresh
      simp only [Bool.or_eq_true, Bool.and_eq_true, Bool.not_eq_true'] at fresh
      cases found : view.top.cacheCoins.lookup o with
      | none =>
        simp only [default, found, Option.getD_none, Bool.false_eq_true, false_or, and_true] at fresh
        have none := free fresh
        rwa [parent, found, cell] at none
      | some e =>
        have known := sound.1 o e found
        simp only [default, found, Option.getD_some] at fresh spent
        rcases fresh with inherited | ⟨strict, clean⟩
        · exact known.fresh inherited
        · have agrees := known.clean clean
          rwa [unspent_eq_none.mpr (spent strict), eq_comm] at agrees
  simpa [unspent, live] using setCoins_insert view o sound new

theorem spendCoin_spec :
    (view.spendCoin o).1.2 = (view.shown o).getD .empty ∧
      ((view.spendCoin o).1.1 = false → view.shown o = none) ∧
        (view.spendCoin o).2.Sound ∧
          (view.spendCoin o).2.flat = update view.shown o none :: view.lower := by
  have fetched := fetch_spec view o sound
  have kept := fetch_flat view o sound
  have entry := fetch_entry view o sound
  have still := fetch_sound view o sound
  unfold spendCoin
  cases found : view.fetch o with
  | mk result next =>
    rw [found] at fetched kept entry still
    rw [flat_eq, flat_eq, List.cons.injEq] at kept
    cases result with
    | none =>
      have absent : view.shown o = none := entry.symm
      refine ⟨by simp [absent], fun _ => absent, still, ?_⟩
      simp only [flat_eq, kept.1, kept.2, ← absent, update_eq_self]
    | some e =>
      have stored : next.top.cacheCoins.lookup o = some e := fetched.stored
      have known := still.1 o e stored
      have value : e.unspent = view.shown o := entry
      refine ⟨by rw [← value, known.coin_eq], by simp, ?_⟩
      simp only
      rw [← kept.1, ← kept.2]
      split_ifs with fresh
      · have update := setCoins_erase next o still
        rwa [known.fresh fresh] at update
      · exact setCoins_insert next o still ⟨by simp [Documented], by simp, by simp, by simp⟩

theorem uncache_spec : (view.uncache o).Sound ∧ (view.uncache o).flat = view.flat := by
  unfold uncache
  cases found : view.top.cacheCoins.lookup o with
  | none => exact ⟨sound, rfl⟩
  | some e =>
    simp only
    split_ifs with unchanged
    · simp only [Bool.and_eq_true, Bool.not_eq_true'] at unchanged
      have agrees := (sound.1 o e found).clean unchanged.1
      have update := setCoins_erase view o sound
      have value : view.shown o = viewAt view.base view.below o := by
        simp [shown, layers, viewAt, found, cell, agrees]
      rwa [← value, update_eq_self] at update
    · exact ⟨sound, rfl⟩

/-- Flushing the top layer, in whatever order its map is walked, never throws: the layer below
then shows what the top showed. -/
theorem flush_spec {entries : Entries}
    (walk : entries.Perm view.top.cacheCoins.entries) :
    ∃ next, view.flush entries = .ok next ∧ next.Sound ∧
      next.flat = view.shown :: view.shown :: view.lower.tail := by
  obtain ⟨top, below, base⟩ := view
  have nodup : entries.NodupKeys := (perm_nodupKeys walk).mpr top.cacheCoins.nodupKeys
  have children : ∀ o entry, ⟨o, entry⟩ ∈ entries → Coins.Sound (viewAt base below o) entry := by
    intro o entry member
    exact sound.1 o entry (mem_lookup_iff.mpr (walk.mem_iff.mp member))
  have shows := merged_eq_cell (viewAt base below) top.cacheCoins entries walk nodup
  cases below with
  | nil =>
    refine ⟨_, rfl, ⟨mapSound_empty, trivial⟩, ?_⟩
    have written := baseWrite_spec base entries nodup children
    have coins : (base.batchWrite entries top.hashBlock).coins =
        viewAt base [top] := written.trans shows
    simp [flat_eq, lower, viewsAt, shown, layers, viewAt, cell, coins]
  | cons parent below =>
    obtain ⟨m, run, kept, written⟩ :=
      batchWrite_spec (viewAt base below) parent.cacheCoins entries nodup sound.2.1 children
    refine ⟨⟨⟨top.hashBlock, ∅⟩, ⟨top.hashBlock, m⟩ :: below, base⟩, ?_,
      ⟨mapSound_empty, kept, sound.2.2⟩, ?_⟩
    · simp only [flush, run]
      rfl
    · have same : viewAt base (⟨top.hashBlock, m⟩ :: below) = viewAt base (top :: parent :: below) :=
        written.trans shows
      simp only [flat_eq, lower, viewsAt, shown, layers, same, tail_cons, List.cons.injEq,
        and_true]
      funext o
      rw [← same]
      rfl

theorem push_spec : view.push.Sound ∧ view.push.flat = view.shown :: view.flat :=
  ⟨⟨mapSound_empty, sound⟩, rfl⟩

theorem discard_spec (child : view.below ≠ []) :
    view.discard.Sound ∧ view.discard.flat = view.lower := by
  obtain ⟨top, below, base⟩ := view
  cases below with
  | nil => exact absurd rfl child
  | cons parent below => exact ⟨sound.2, rfl⟩

end

def fresh (base : BaseView) : View := ⟨⟨.null, ∅⟩, [], base⟩

theorem fresh_sound (base : BaseView) : (fresh base).Sound := ⟨mapSound_empty, trivial⟩

inductive Op where
  | addCoin (o : COutPoint) (coin : Coin) (possibleOverwrite : Bool)
  | spendCoin (o : COutPoint)
  | getCoin (o : COutPoint)
  | haveCoin (o : COutPoint)
  | accessCoin (o : COutPoint)
  | uncache (o : COutPoint)
  | flush (entries : Entries)
  | push
  | discard

inductive Answer where
  | done
  | found (coin : Option Coin)
  | present (present : Bool)
  | coin (coin : Coin)
deriving DecidableEq, Repr

variable (view : View)

def apply : Op → Except Fault (Answer × View)
  | .addCoin o coin possibleOverwrite => do
    .ok (.done, ← view.addCoin o coin possibleOverwrite)
  | .spendCoin o => .ok (.coin (view.spendCoin o).1.2, (view.spendCoin o).2)
  | .getCoin o => .ok (.found (view.getCoin o).1, (view.getCoin o).2)
  | .haveCoin o => .ok (.present (view.haveCoin o).1, (view.haveCoin o).2)
  | .accessCoin o => .ok (.coin (view.accessCoin o).1, (view.accessCoin o).2)
  | .uncache o => .ok (.done, view.uncache o)
  | .flush entries => do .ok (.done, ← view.flush entries)
  | .push => .ok (.done, view.push)
  | .discard => .ok (.done, view.discard)

def applyFlat (top : FlatMap) (below : FlatStack) : Op → Answer × FlatStack
  | .addCoin o coin _ =>
    (.done, (if isUnspendable coin.out.scriptPubKey then top
      else update top o (some coin)) :: below)
  | .spendCoin o => (.coin ((top o).getD .empty), update top o none :: below)
  | .getCoin o => (.found (top o), top :: below)
  | .haveCoin o => (.present (top o).isSome, top :: below)
  | .accessCoin o => (.coin ((top o).getD .empty), top :: below)
  | .uncache _ => (.done, top :: below)
  | .flush _ => (.done, top :: top :: below.tail)
  | .push => (.done, top :: top :: below)
  | .discard => (.done, below)

/-- What the callers of an operation promise: an added coin is unspent and does not overwrite an
unspent one unless that is announced, a flush walks exactly the entries of the map, and only a
child layer is discarded. -/
def Promised (top : FlatMap) : Op → Prop
  | .addCoin o coin possibleOverwrite =>
    coin.isSpent = false ∧ (possibleOverwrite = false → top o = none)
  | .flush entries => entries.Perm view.top.cacheCoins.entries
  | .discard => view.below ≠ []
  | _ => True

theorem apply_refines (op : Op) (sound : view.Sound) (promised : Promised view view.shown op) :
    ∃ next, view.apply op = .ok ((applyFlat view.shown view.lower op).1, next) ∧ next.Sound ∧
      next.flat = (applyFlat view.shown view.lower op).2 := by
  cases op with
  | addCoin o coin possibleOverwrite =>
    obtain ⟨next, run, kept, flat⟩ :=
      addCoin_spec view o sound promised.1 promised.2
    exact ⟨next, by simp only [apply, run]; rfl, kept, flat⟩
  | spendCoin o =>
    obtain ⟨moved, _, kept, flat⟩ := spendCoin_spec view o sound
    exact ⟨_, by simp only [apply, moved]; rfl, kept, flat⟩
  | getCoin o =>
    have entry := fetch_entry view o sound
    exact ⟨_, by simp only [apply, getCoin, entry]; rfl, fetch_sound view o sound,
      fetch_flat view o sound⟩
  | haveCoin o =>
    have entry := fetch_entry view o sound
    exact ⟨_, by simp only [apply, haveCoin, entry]; rfl, fetch_sound view o sound,
      fetch_flat view o sound⟩
  | accessCoin o =>
    refine ⟨_, ?_, fetch_sound view o sound, fetch_flat view o sound⟩
    simp only [apply, accessCoin_eq view o sound]
    rfl
  | uncache o =>
    obtain ⟨kept, flat⟩ := uncache_spec view o sound
    exact ⟨_, rfl, kept, flat⟩
  | flush entries =>
    obtain ⟨next, run, kept, flat⟩ := flush_spec view sound promised
    exact ⟨next, by simp only [apply, run]; rfl, kept, flat⟩
  | push =>
    obtain ⟨kept, flat⟩ := push_spec view sound
    exact ⟨_, rfl, kept, flat⟩
  | discard =>
    obtain ⟨kept, flat⟩ := discard_spec view sound promised
    exact ⟨_, rfl, kept, flat⟩

def run (view : View) : List Op → Except Fault (List Answer × View)
  | [] => .ok ([], view)
  | op :: ops => do
    let (answer, next) ← view.apply op
    let (answers, last) ← next.run ops
    .ok (answer :: answers, last)

def runFlat : FlatStack → List Op → List Answer × FlatStack
  | top :: below, op :: ops =>
    let step := applyFlat top below op
    let rest := runFlat step.2 ops
    (step.1 :: rest.1, rest.2)
  | stack, _ => ([], stack)

def PromisedRun (view : View) : FlatStack → List Op → Prop
  | top :: below, op :: ops =>
    Promised view top op ∧ ∀ answer next, view.apply op = .ok (answer, next) →
      next.PromisedRun (applyFlat top below op).2 ops
  | _, _ => True

theorem run_refines (ops : List Op) (sound : view.Sound)
    (promised : view.PromisedRun view.flat ops) :
    ∃ last, view.run ops = .ok ((runFlat view.flat ops).1, last) ∧ last.Sound ∧
      last.flat = (runFlat view.flat ops).2 := by
  induction ops generalizing view with
  | nil => exact ⟨view, rfl, sound, rfl⟩
  | cons op ops ih =>
    rw [flat_eq] at promised ⊢
    obtain ⟨now, later⟩ := promised
    obtain ⟨next, step, kept, flat⟩ := apply_refines view op sound now
    have rest := later _ next step
    rw [← flat] at rest
    obtain ⟨last, finish, final, result⟩ := ih next kept rest
    refine ⟨last, ?_, final, ?_⟩
    · simp only [run, step, bind, Except.bind, runFlat, ← flat, finish]
    · simp only [runFlat, ← flat, result]

theorem documented_of_sound (base : BaseView) (layers : List CCoinsViewCache)
    (sound : LayersSound base layers) : ∀ layer ∈ layers, ∀ o entry,
      layer.cacheCoins.lookup o = some entry → Documented entry := by
  induction layers with
  | nil => simp
  | cons top below ih =>
    intro layer member o entry found
    rcases mem_cons.mp member with rfl | inside
    · exact (sound.1 o entry found).documented
    · exact ih sound.2 layer inside o entry found

/-- Any promised sequence of operations on caches over a plain map runs without a fault, answers
as the stack of flat maps does, and leaves every entry in a documented state. -/
theorem cache_stack_refines_flat_maps (base : BaseView) (ops : List Op)
    (promised : (fresh base).PromisedRun [base.coins, base.coins] ops) :
    ∃ last, (fresh base).run ops = .ok ((runFlat [base.coins, base.coins] ops).1, last) ∧
      last.flat = (runFlat [base.coins, base.coins] ops).2 ∧
        ∀ layer ∈ last.layers, ∀ o entry,
          layer.cacheCoins.lookup o = some entry → Documented entry := by
  obtain ⟨last, run, sound, flat⟩ := run_refines (fresh base) ops (fresh_sound base) promised
  exact ⟨last, run, flat, documented_of_sound last.base last.layers sound⟩

def sampleOps (o : COutPoint) (coin : Coin) : List Op :=
  [.push, .addCoin o coin false, .flush [⟨o, ⟨coin, true, true⟩⟩], .discard, .getCoin o,
    .push, .spendCoin o, .haveCoin o, .discard, .accessCoin o]

def sampleOutPoint : COutPoint := ⟨.null, 7⟩
def sampleCoin : Coin := ⟨⟨50, [0x51]⟩, false, 3⟩

def emptyBase : BaseView := ⟨fun _ => none, by simp, .null⟩

theorem sample_run_refines_flat_maps :
    ∃ last, (fresh emptyBase).run (sampleOps sampleOutPoint sampleCoin) =
        .ok ((runFlat [emptyBase.coins, emptyBase.coins] (sampleOps sampleOutPoint sampleCoin)).1, last) ∧
      last.flat = (runFlat [emptyBase.coins, emptyBase.coins] (sampleOps sampleOutPoint sampleCoin)).2 ∧
        ∀ layer ∈ last.layers, ∀ o entry,
          layer.cacheCoins.lookup o = some entry → Documented entry := by
  apply cache_stack_refines_flat_maps
  refine ⟨trivial, ?_⟩
  rintro _ _ ⟨⟩
  refine ⟨⟨by decide, fun _ => rfl⟩, ?_⟩
  rintro _ _ ⟨⟩
  refine ⟨Perm.refl _, ?_⟩
  rintro _ _ ⟨⟩
  refine ⟨cons_ne_nil _ _, ?_⟩
  rintro _ _ ⟨⟩
  refine ⟨trivial, ?_⟩
  rintro _ _ ⟨⟩
  refine ⟨trivial, ?_⟩
  rintro _ _ ⟨⟩
  refine ⟨trivial, ?_⟩
  rintro _ _ ⟨⟩
  refine ⟨trivial, ?_⟩
  rintro _ _ ⟨⟩
  refine ⟨cons_ne_nil _ _, ?_⟩
  rintro _ _ ⟨⟩
  exact ⟨trivial, fun _ _ _ => trivial⟩

end View

end Qogecoin.Coins
