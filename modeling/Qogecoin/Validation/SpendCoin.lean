import Qogecoin.Validation.UpdateCoins

/-! When the return value of `SpendCoin` tells whether a coin was spent. -/
namespace Qogecoin.Coins

open Commands

variable {o : COutPoint} {view : View}

theorem fetchCoin_found {top : CCoinsViewCache} (missing : top.cacheCoins.lookup o = none)
    (below : List CCoinsViewCache) (parent : Option Coin × List CCoinsViewCache) {coin : Coin}
    (found : parent.1 = some coin) :
    (fetchCoin o top below parent).1 = some ⟨coin, false, coin.isSpent⟩ := by
  obtain ⟨tmp, layers⟩ := parent
  cases found
  simp [fetchCoin, missing]

theorem getCoinAt_shows (base : BaseView) (o : COutPoint) (layers : List CCoinsViewCache) :
    (getCoinAt base o layers).1 = viewAt base layers o ∧
      (viewAt base layers o = none → (getCoinAt base o layers).2 = layers) := by
  induction layers with
  | nil => exact ⟨rfl, fun _ => rfl⟩
  | cons top below ih =>
    obtain ⟨answer, kept⟩ := ih
    cases entry : top.cacheCoins.lookup o with
    | some e => simp [getCoinAt, fetchCoin, entry, viewAt, cell]
    | none =>
      have through : viewAt base (top :: below) o = viewAt base below o := by
        simp [viewAt, entry, cell]
      rw [through]
      cases found : viewAt base below o with
      | none =>
        have missing : getCoinAt base o below = (none, below) :=
          Prod.ext (answer.trans found) (kept found)
        simp [getCoinAt, fetchCoin, entry, missing]
      | some coin =>
        have live := viewAt_unspent base below o coin found
        constructor
        · rw [getCoinAt]
          simp only [fetchCoin_found entry _ _ (answer.trans found)]
          simp [CCoinsCacheEntry.unspent, live]
        · intro none
          cases none

namespace View

/-- The entry of the top layer at an outpoint is the mark that a coin has been spent. -/
def Tombstone (view : View) (o : COutPoint) : Prop :=
  ∃ entry, view.top.cacheCoins.lookup o = some entry ∧ entry.coin.isSpent = true

variable {entry : CCoinsCacheEntry}

theorem fetch_cached (found : view.top.cacheCoins.lookup o = some entry) :
    view.fetch o = (some entry, view) := by
  simp [fetch, fetchCoin, found]

theorem shown_cached (found : view.top.cacheCoins.lookup o = some entry) :
    view.shown o = entry.unspent := by
  simp [shown, layers, viewAt, found, cell]

theorem shown_uncached (missing : view.top.cacheCoins.lookup o = none) :
    view.shown o = viewAt view.base view.below o := by
  simp [shown, layers, viewAt, missing, cell]

theorem fetch_uncached (missing : view.top.cacheCoins.lookup o = none) :
    (view.shown o = none → view.fetch o = (none, view)) ∧
      ∀ coin, view.shown o = some coin → (view.fetch o).1 = some ⟨coin, false, false⟩ := by
  obtain ⟨answer, kept⟩ := getCoinAt_shows view.base o view.below
  rw [shown_uncached missing]
  constructor
  · intro absent
    have nothing : getCoinAt view.base o view.below = (none, view.below) :=
      Prod.ext (answer.trans absent) (kept absent)
    simp [fetch, fetchCoin, missing, nothing]
  · intro coin present
    have live := viewAt_unspent view.base view.below o coin present
    rw [fetch]
    simp only [fetchCoin_found missing _ _ (answer.trans present), live]

theorem spendCoin_of_fetch (fetched : (view.fetch o).1 = some entry) :
    (view.spendCoin o).1 = (true, entry.coin) := by
  cases result : view.fetch o with
  | mk found next =>
    rw [result] at fetched
    cases fetched
    simp [spendCoin, result]

def Along (holds : View → Prop) (view : View) : List Op → Prop
  | [] => holds view
  | op :: ops => holds view ∧ ∀ answer next, view.apply op = .ok (answer, next) →
    next.Along holds ops

theorem along_of_forall (holds : View → Prop) (view : View) (ops : List Op)
    (every : ∀ view, holds view) : view.Along holds ops := by
  induction ops generalizing view with
  | nil => exact every view
  | cons op ops ih => exact ⟨every view, fun _ next _ => ih next⟩

end View

end Qogecoin.Coins

namespace Qogecoin.Validation

open Coins Commands

section

variable {ε : Type}

theorem run_spendInputs_cons (txin : CTxIn) (vin : List CTxIn) (view : View) :
    (spendInputs (txin :: vin) : CoinsM ε _).run View.handle view =
      if (view.spendCoin txin.prevout).1.1 then
        (spendInputs vin >>= fun rest => pure ((view.spendCoin txin.prevout).1.2 :: rest) :
          CoinsM ε _).run View.handle (view.spendCoin txin.prevout).2
      else .crashed .assertion := by
  have spent : (spendCoin txin.prevout : CoinsM ε _).run View.handle view =
      .returned (view.spendCoin txin.prevout) := rfl
  rw [spendInputs, Program.run_bind, spent]
  cases view.spendCoin txin.prevout with
  | mk reply next =>
    obtain ⟨isSpent, coin⟩ := reply
    cases isSpent with
    | false => rfl
    | true => rfl

theorem spendInputs_crashes {before after : List CTxIn} {txin : CTxIn} {start view : View}
    {spent : List Coin} (fails : (view.spendCoin txin.prevout).1.1 = false)
    (reaches : (spendInputs before : CoinsM ε _).run View.handle start = .returned (spent, view)) :
    (spendInputs (before ++ txin :: after) : CoinsM ε _).run View.handle start =
      .crashed .assertion := by
  induction before generalizing start spent with
  | nil =>
    cases reaches
    rw [List.nil_append, run_spendInputs_cons, fails]
    rfl
  | cons first before ih =>
    rw [run_spendInputs_cons] at reaches
    rw [List.cons_append, run_spendInputs_cons]
    by_cases isSpent : (start.spendCoin first.prevout).1.1 = true
    · rw [if_pos isSpent] at reaches ⊢
      obtain ⟨rest, next, ran, last⟩ := Program.run_bind_eq_returned.mp reaches
      cases last
      rw [Program.run_bind, ih ran]
    · rw [if_neg isSpent] at reaches
      cases reaches

variable [Crypto]

/-- `SpendCoin` tells whether there was a coin to spend, hands it out, and otherwise changes
nothing; `UpdateCoins` fails its assertion when it gets to an input without a coin. -/
structure Reports (view : View) (o : COutPoint) : Prop where
  returned : (view.spendCoin o).1.1 = true ↔ ∃ coin, view.shown o = some coin
  moved : ∀ coin, view.shown o = some coin → (view.spendCoin o).1.2 = coin
  unchanged : view.shown o = none → (view.spendCoin o).2 = view
  asserted : view.shown o = none → ∀ (start : View) (tx : CTransaction) (nHeight : Int)
    (before after : List CTxIn) (txin : CTxIn) (spent : List Coin),
    tx.isCoinBase = false → tx.vin = before ++ txin :: after → txin.prevout = o →
    (spendInputs before : CoinsM Empty _).run View.handle start = .returned (spent, view) →
    (updateCoins tx nHeight : CoinsM Empty _).run View.handle start = .crashed .assertion

theorem updateCoins_crashes {tx : CTransaction} {nHeight : Int} {start : View}
    (spending : tx.isCoinBase = false)
    (crashes : (spendInputs tx.vin : CoinsM ε _).run View.handle start = .crashed .assertion) :
    (updateCoins tx nHeight : CoinsM ε _).run View.handle start = .crashed .assertion := by
  rw [updateCoins, if_neg (by simp [spending]), Program.run_bind, crashes]

theorem Reports.of_false (absent : view.shown o = none) (fails : (view.spendCoin o).1.1 = false)
    (kept : (view.spendCoin o).2 = view) :
    Reports view o where
  returned := by simp [fails, absent]
  moved := by simp [absent]
  unchanged _ := kept
  asserted _ start tx nHeight before after txin spent spending inputs here reaches := by
    subst here
    apply updateCoins_crashes spending
    rw [inputs]
    exact spendInputs_crashes fails reaches

theorem Reports.of_true {coin : Coin} (present : view.shown o = some coin)
    (spends : (view.spendCoin o).1 = (true, coin)) : Reports view o where
  returned := by simp [spends, present]
  moved := by simp [spends, present]
  unchanged absent := by simp [present] at absent
  asserted absent := by simp [present] at absent

theorem reports_iff (view : View) (o : COutPoint) : Reports view o ↔ ¬view.Tombstone o := by
  cases found : view.top.cacheCoins.lookup o with
  | none =>
    have untouched : ¬view.Tombstone o := by simp [View.Tombstone, found]
    obtain ⟨missing, fetched⟩ := View.fetch_uncached found
    simp only [untouched, not_false_eq_true, iff_true]
    cases shown : view.shown o with
    | none =>
      have nothing : view.spendCoin o = ((false, Coin.empty), view) := by
        simp [View.spendCoin, missing shown]
      exact .of_false shown (by rw [nothing]) (by rw [nothing])
    | some coin => exact .of_true shown (View.spendCoin_of_fetch (fetched coin shown))
  | some entry =>
    have spends : (view.spendCoin o).1 = (true, entry.coin) :=
      View.spendCoin_of_fetch (by rw [View.fetch_cached found])
    have value := View.shown_cached found
    cases spent : entry.coin.isSpent with
    | false =>
      have untouched : ¬view.Tombstone o := by simp [View.Tombstone, found, spent]
      have live : view.shown o = some entry.coin := value.trans (unspent_eq_some.mpr ⟨spent, rfl⟩)
      simp only [untouched, not_false_eq_true, iff_true]
      exact .of_true live spends
    | true =>
      -- the entry is there, so the answer is yes although its coin is gone
      have tombstone : view.Tombstone o := ⟨entry, found, spent⟩
      have absent : view.shown o = none := value.trans (unspent_eq_none.mpr spent)
      simp only [tombstone, not_true_eq_false, iff_false]
      intro reports
      obtain ⟨coin, present⟩ := reports.returned.mp (by rw [spends])
      rw [absent] at present
      cases present

/-- In every state of every run of operations on caches over a base, whether the callers keep
their promises or not, `SpendCoin` reports real spends exactly where the cache holds no tombstone. -/
theorem spends_reported_iff_no_tombstone (base : BaseView) (ops : List View.Op) :
    (View.fresh base).Along (fun view => ∀ o, Reports view o ↔ ¬view.Tombstone o) ops :=
  View.along_of_forall _ _ ops reports_iff

end

def sampleBase : BaseView where
  coins o := if o = View.sampleOutPoint then some View.sampleCoin else none
  unspent := by
    intro o coin found
    split at found
    · cases found
      decide
    · cases found
  hashBlock := .null

def sampleInput : CTxIn := ⟨View.sampleOutPoint, [], 0, []⟩

/-- A coin of the base view is spent twice, by `SpendCoin` and by `UpdateCoins`. -/
theorem tombstone_is_spent_again :
    let _ := Crypto.firstBytes
    ¬(View.fresh sampleBase).Along (fun view => ∀ o, Reports view o) [.spendCoin View.sampleOutPoint] ∧
    ((updateCoins ⟨1, [sampleInput, sampleInput], [⟨100, []⟩], 0⟩ 1 : CoinsM Empty _).run
      View.handle (View.fresh sampleBase)).any (fun _ => true) = true := by
  intro _
  constructor
  · intro along
    have reports := (along.2 _ _ rfl) View.sampleOutPoint
    have none : ((View.fresh sampleBase).spendCoin View.sampleOutPoint).2.shown
        View.sampleOutPoint = none := by decide +kernel
    obtain ⟨coin, present⟩ := reports.returned.mp (by decide +kernel)
    rw [none] at present
    cases present
  · decide +kernel

end Qogecoin.Validation
