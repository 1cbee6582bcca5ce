import Qogecoin.Coins.Program

/-! What a view has read: a coin that was found is in the top cache, and reading it again changes
nothing. The outputs of coins are taken to be determined by their outpoints where that is said. -/
namespace Qogecoin.Coins

open Commands List AList Option

variable (utxo : COutPoint → CTxOut)

def CCoinsViewCache.Determined (cache : CCoinsViewCache) : Prop :=
  ∀ o entry, cache.cacheCoins.lookup o = some entry → entry.coin.isSpent = false →
    entry.coin.out = utxo o

structure LayersDetermined (base : BaseView) (layers : List CCoinsViewCache) : Prop where
  base : ∀ o coin, base.coins o = some coin → coin.out = utxo o
  layers : ∀ cache ∈ layers, cache.Determined utxo

def View.Determined (view : View) : Prop := LayersDetermined utxo view.base view.layers

variable {utxo}

variable {below : List CCoinsViewCache} {base : BaseView}

variable {top : CCoinsViewCache}

theorem LayersDetermined.tail (all : LayersDetermined utxo base (top :: below)) :
    LayersDetermined utxo base below :=
  ⟨all.base, fun cache member => all.layers cache (mem_cons_of_mem top member)⟩

theorem LayersDetermined.cons (own : top.Determined utxo) (all : LayersDetermined utxo base below) :
    LayersDetermined utxo base (top :: below) := by
  refine ⟨all.base, ?_⟩
  intro cache member
  rcases mem_cons.mp member with rfl | later
  · exact own
  · exact all.layers cache later

variable {o : COutPoint}

theorem CCoinsViewCache.Determined.insert {cache : CCoinsViewCache} (own : cache.Determined utxo)
    {entry : CCoinsCacheEntry} (new : entry.coin.isSpent = false → entry.coin.out = utxo o) :
    CCoinsViewCache.Determined utxo
      { cache with cacheCoins := cache.cacheCoins.insert o entry } := by
  intro p found lookup live
  by_cases same : p = o
  · subst same
    rw [lookup_insert] at lookup
    cases lookup
    exact new live
  · rw [lookup_insert_ne same] at lookup
    exact own p found lookup live

theorem CCoinsViewCache.Determined.erase {cache : CCoinsViewCache} (own : cache.Determined utxo)
    (o : COutPoint) :
    CCoinsViewCache.Determined utxo { cache with cacheCoins := cache.cacheCoins.erase o } := by
  intro p found lookup live
  by_cases same : p = o
  · subst same
    rw [lookup_erase] at lookup
    cases lookup
  · rw [lookup_erase_ne same] at lookup
    exact own p found lookup live

theorem fetchCoin_lookup (o : COutPoint) (top : CCoinsViewCache) (below : List CCoinsViewCache)
    (parent : Option Coin × List CCoinsViewCache) :
    (fetchCoin o top below parent).2.1.cacheCoins.lookup o = (fetchCoin o top below parent).1 := by
  unfold fetchCoin
  split
  next entry cached =>
    exact cached
  next missing =>
    split
    · exact missing
    · exact lookup_insert _

theorem fetchCoin_determined {parent : Option Coin × List CCoinsViewCache}
    (own : top.Determined utxo) (rest : LayersDetermined utxo base below)
    (found : ∀ coin, parent.1 = some coin → coin.out = utxo o)
    (left : LayersDetermined utxo base parent.2) :
    LayersDetermined utxo base
      ((fetchCoin o top below parent).2.1 :: (fetchCoin o top below parent).2.2) := by
  unfold fetchCoin
  split
  · exact rest.cons own
  · split
    · exact left.cons own
    · exact left.cons (own.insert fun _ => found _ rfl)

theorem getCoinAt_determined (o : COutPoint) {layers : List CCoinsViewCache}
    (all : LayersDetermined utxo base layers) :
    (∀ coin, (getCoinAt base o layers).1 = some coin → coin.out = utxo o) ∧
      LayersDetermined utxo base (getCoinAt base o layers).2 := by
  induction layers with
  | nil => exact ⟨all.base o, all⟩
  | cons top below ih =>
    obtain ⟨found, left⟩ := ih all.tail
    have own := all.layers top mem_cons_self
    have fetched := fetchCoin_determined (o := o) own all.tail found left
    refine ⟨?_, fetched⟩
    intro coin unspent
    obtain ⟨entry, cached, live⟩ := bind_eq_some_iff.mp unspent
    rw [← fetchCoin_lookup] at cached
    obtain ⟨alive, rfl⟩ := unspent_eq_some.mp live
    exact fetched.layers _ mem_cons_self o entry cached alive

namespace View

variable {view : View}

theorem Determined.fetch (determined : view.Determined utxo) (o : COutPoint) :
    (view.fetch o).2.Determined utxo := by
  obtain ⟨found, left⟩ := getCoinAt_determined o determined.tail
  exact fetchCoin_determined (determined.layers view.top mem_cons_self) determined.tail found
    left

def Adds (utxo : COutPoint → CTxOut) : Command → Prop
  | .addCoin o coin _ => coin.out = utxo o
  | _ => True

theorem bestBlockAt_determined {layers : List CCoinsViewCache}
    (all : LayersDetermined utxo base layers) :
    LayersDetermined utxo base (bestBlockAt base layers).2 := by
  induction layers with
  | nil => exact all
  | cons top below ih =>
    have own := all.layers top mem_cons_self
    unfold bestBlockAt
    split
    · exact (ih all.tail).cons own
    · exact all

variable {c : Command}

theorem Determined.step {view view' : View} {r : c.Reply} (adds : Adds utxo c)
    (determined : view.Determined utxo) (ran : View.handle c view = .ok (r, view')) :
    view'.Determined utxo := by
  have own := determined.layers view.top mem_cons_self
  cases c with
  | haveCoin o | accessCoin o =>
    cases ran
    exact determined.fetch o
  | addCoin o coin possibleOverwrite =>
    simp only [View.handle] at ran
    cases added : view.addCoin o coin possibleOverwrite with
    | error fault =>
      rw [added] at ran
      cases ran
    | ok next =>
      rw [added] at ran
      cases ran
      rcases addCoin_cases added with ⟨_, rfl⟩ | ⟨_, fresh, rfl⟩
      · exact determined
      · exact determined.tail.cons (own.insert fun _ => adds)
  | spendCoin o =>
    have left : view' = (view.spendCoin o).2 := (congrArg Prod.snd (Except.ok.inj ran)).symm
    have fetched := determined.fetch o
    rw [left]
    unfold View.spendCoin
    split
    next next missing =>
      rw [missing] at fetched
      exact fetched
    next entry next found =>
      rw [found] at fetched
      have top := fetched.layers next.top mem_cons_self
      split
      · exact fetched.tail.cons (top.erase o)
      · exact fetched.tail.cons (top.insert fun live => by simp at live)
  | getBestBlock =>
    have left : view' = view.getBestBlock.2 := (congrArg Prod.snd (Except.ok.inj ran)).symm
    rw [left]
    unfold View.getBestBlock
    split
    · exact (bestBlockAt_determined determined.tail).cons own
    · exact determined
  | setBestBlock hashBlock =>
    cases ran
    exact determined.tail.cons own

def Has (utxo : COutPoint → CTxOut) (o : COutPoint) (view : View) : Prop :=
  ∃ entry, view.top.cacheCoins.lookup o = some entry ∧ entry.coin.isSpent = false ∧
    entry.coin.out = utxo o

theorem has_of_haveCoin (determined : view.Determined utxo) (found : (view.haveCoin o).1 = true) :
    (view.haveCoin o).2.Has utxo o := by
  obtain ⟨coin, unspent⟩ := isSome_iff_exists.mp found
  obtain ⟨entry, cached, live⟩ := bind_eq_some_iff.mp unspent
  have lookup : (view.haveCoin o).2.top.cacheCoins.lookup o = some entry :=
    (fetchCoin_lookup ..).trans cached
  have alive := (unspent_eq_some.mp live).1
  have fetched := determined.fetch o
  exact ⟨entry, lookup, alive, fetched.layers _ mem_cons_self o entry lookup alive⟩

theorem Has.fetch (has : view.Has utxo o) (p : COutPoint) : (view.fetch p).2.Has utxo o := by
  obtain ⟨entry, cached, live, out⟩ := has
  refine ⟨entry, ?_, live, out⟩
  unfold View.fetch fetchCoin
  split
  · exact cached
  rename_i missing
  split
  · exact cached
  · have other : o ≠ p := by
      rintro rfl
      rw [cached] at missing
      cases missing
    exact (lookup_insert_ne other).trans cached

theorem Determined.accessCoin (determined : view.Determined utxo)
    (live : (view.accessCoin o).1.isSpent = false) : (view.accessCoin o).1.out = utxo o := by
  cases fetched : (view.fetch o).1 with
  | none =>
    simp only [View.accessCoin, fetched] at live
    cases live
  | some entry =>
    have coin : (view.accessCoin o).1 = entry.coin := by
      simp only [View.accessCoin, fetched]
      rfl
    have lookup : (view.fetch o).2.top.cacheCoins.lookup o = some entry :=
      (fetchCoin_lookup ..).trans fetched
    rw [coin] at live ⊢
    exact (determined.fetch o).layers _ mem_cons_self o entry lookup live

theorem Has.accessCoin (has : view.Has utxo o) :
    ∃ coin, view.accessCoin o = (coin, view) ∧ coin.isSpent = false ∧ coin.out = utxo o := by
  obtain ⟨entry, cached, live, out⟩ := has
  refine ⟨entry.coin, ?_, live, out⟩
  unfold View.accessCoin View.fetch fetchCoin
  rw [cached]
  rfl

theorem fetchCoin_again {p : COutPoint} (top : CCoinsViewCache)
    (same : (getCoinAt base o (getCoinAt base p below).2).1 = (getCoinAt base o below).1) :
    let fetched := fetchCoin p top below (getCoinAt base p below)
    (fetchCoin o fetched.2.1 fetched.2.2 (getCoinAt base o fetched.2.2)).1 =
      (fetchCoin o top below (getCoinAt base o below)).1 := by
  have answer : ∀ (cache : CCoinsViewCache) (layers layers' : List CCoinsViewCache),
      (getCoinAt base o layers).1 = (getCoinAt base o layers').1 →
        (fetchCoin o cache layers (getCoinAt base o layers)).1 =
          (fetchCoin o cache layers' (getCoinAt base o layers')).1 := by
    intro cache layers layers' equal
    unfold fetchCoin
    cases cache.cacheCoins.lookup o with
    | some entry => rfl
    | none =>
      generalize getCoinAt base o layers = left at equal ⊢
      generalize getCoinAt base o layers' = right at equal ⊢
      obtain ⟨coin, _⟩ := left
      obtain ⟨coin', _⟩ := right
      cases equal
      cases coin <;> rfl
  intro fetched
  cases cached : top.cacheCoins.lookup p with
  | some entry =>
    have unchanged : fetched = (some entry, top, below) := by
      simp only [fetched, fetchCoin, cached]
    rw [unchanged]
  | none =>
    cases parent : getCoinAt base p below with
    | mk found left =>
      rw [parent] at same
      cases found with
      | none =>
        have unchanged : fetched = (none, top, left) := by
          simp only [fetched, fetchCoin, cached, parent]
        rw [unchanged]
        exact answer top left below same
      | some tmp =>
        let entry : CCoinsCacheEntry := ⟨tmp, false, tmp.isSpent⟩
        have filled : fetched =
            (some entry, { top with cacheCoins := top.cacheCoins.insert p entry }, left) := by
          simp only [fetched, fetchCoin, cached, parent, entry]
        rw [filled]
        by_cases equal : o = p
        · subst equal
          have first : (fetchCoin o top below (getCoinAt base o below)).1 = some entry := by
            simp only [fetchCoin, cached, parent, entry]
          rw [first]
          simp only [fetchCoin, lookup_insert]
        · rw [← answer top left below same]
          simp only [fetchCoin, lookup_insert_ne equal]
          cases top.cacheCoins.lookup o with
          | some cachedEntry => rfl
          | none =>
            rcases getCoinAt base o left with ⟨_ | coin, rest⟩ <;> rfl

theorem getCoinAt_again (base : BaseView) (o p : COutPoint) (layers : List CCoinsViewCache) :
    (getCoinAt base o (getCoinAt base p layers).2).1 = (getCoinAt base o layers).1 := by
  induction layers with
  | nil => rfl
  | cons top below ih =>
    simp only [getCoinAt]
    rw [fetchCoin_again top ih]

theorem fetch_again (view : View) (o p : COutPoint) :
    ((view.fetch p).2.fetch o).1 = (view.fetch o).1 :=
  fetchCoin_again view.top (getCoinAt_again view.base o p view.below)

def SameReads (view view' : View) : Prop :=
  ∀ o, (view'.accessCoin o).1 = (view.accessCoin o).1

theorem SameReads.fetch {view view' : View} (same : view.SameReads view') (p : COutPoint) :
    view.SameReads (view'.fetch p).2 := by
  intro o
  rw [← same o]
  simp only [View.accessCoin, fetch_again]

section

variable {ε α : Type} {p : CoinsM ε α} {view view' : View} {a : α}

/-- All that reading does is fetching coins. -/
theorem run_reads_keeps {keep : View → Prop}
    (fetch : ∀ view o, keep view → keep (view.fetch o).2) (reads : p.Calls Reads)
    (start : keep view) (ran : p.run View.handle view = .returned (a, view')) : keep view' := by
  refine reads.run_keeps ?_ start ran
  intro c view r view' reads kept step
  cases c with
  | haveCoin o | accessCoin o =>
    cases step
    exact fetch view o kept
  | _ => exact reads.elim

theorem SameReads.run {start : View} (reads : p.Calls Reads) (same : start.SameReads view)
    (ran : p.run View.handle view = .returned (a, view')) : start.SameReads view' :=
  run_reads_keeps (fun _ o same => same.fetch o) reads same ran

theorem Determined.run (adds : p.Calls (Adds utxo)) (determined : view.Determined utxo)
    (ran : p.run View.handle view = .returned (a, view')) : view'.Determined utxo :=
  adds.run_keeps (fun _ _ _ _ adds determined ran => determined.step adds ran) determined ran

theorem Has.run (reads : p.Calls Reads) (has : view.Has utxo o)
    (ran : p.run View.handle view = .returned (a, view')) : view'.Has utxo o :=
  run_reads_keeps (fun _ p has => has.fetch p) reads has ran

theorem Determined.run_reads (reads : p.Calls Reads) (determined : view.Determined utxo)
    (ran : p.run View.handle view = .returned (a, view')) : view'.Determined utxo :=
  run_reads_keeps (fun _ o determined => determined.fetch o) reads determined ran

end

end View

end Qogecoin.Coins
