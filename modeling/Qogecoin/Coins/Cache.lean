import Qogecoin.Primitives.Transaction
import Mathlib.Data.List.AList

/-! `CCoinsViewCache`: layers of coin caches over a plain map of unspent coins. The top layer is
the head of the list. An operation runs on the top layer and may fill the caches below it. -/
namespace Qogecoin.Coins

structure CCoinsCacheEntry where
  coin : Coin
  dirty : Bool
  fresh : Bool
deriving DecidableEq, Repr

def CCoinsCacheEntry.unspent (entry : CCoinsCacheEntry) : Option Coin :=
  if entry.coin.isSpent then none else some entry.coin

/-- An unordered map: the order of the entries is used by no lookup. -/
abbrev CCoinsMap := AList fun _ : COutPoint => CCoinsCacheEntry

structure CCoinsViewCache where
  hashBlock : Uint256
  cacheCoins : CCoinsMap

structure BaseView where
  coins : COutPoint → Option Coin
  unspent : ∀ o c, coins o = some c → c.isSpent = false
  hashBlock : Uint256

/-- What ends an operation abnormally: a failed `assert`, or a thrown `std::logic_error`. -/
inductive Fault where
  | assertion
  | logicError
deriving DecidableEq, Repr

structure View where
  top : CCoinsViewCache
  below : List CCoinsViewCache
  base : BaseView

/-- `FetchCoin` in the layer `top`, given what `GetCoin` of the view below returns and leaves. -/
def fetchCoin (o : COutPoint) (top : CCoinsViewCache) (below : List CCoinsViewCache)
    (parent : Option Coin × List CCoinsViewCache) :
    Option CCoinsCacheEntry × CCoinsViewCache × List CCoinsViewCache :=
  match top.cacheCoins.lookup o with
  | some entry => (some entry, top, below)
  | none =>
    match parent with
    | (none, below) => (none, top, below)
    | (some tmp, below) =>
      let entry : CCoinsCacheEntry := ⟨tmp, false, tmp.isSpent⟩
      (some entry, { top with cacheCoins := top.cacheCoins.insert o entry }, below)

def getCoinAt (base : BaseView) (o : COutPoint) :
    List CCoinsViewCache → Option Coin × List CCoinsViewCache
  | [] => (base.coins o, [])
  | top :: below =>
    let fetched := fetchCoin o top below (getCoinAt base o below)
    (fetched.1.bind CCoinsCacheEntry.unspent, fetched.2.1 :: fetched.2.2)

def batchWriteEntry (cacheCoins : CCoinsMap) (o : COutPoint) (entry : CCoinsCacheEntry) :
    Except Fault CCoinsMap :=
  if !entry.dirty then .ok cacheCoins
  else
    match cacheCoins.lookup o with
    | none =>
      if entry.fresh && entry.coin.isSpent then .ok cacheCoins
      else .ok (cacheCoins.insert o ⟨entry.coin, true, entry.fresh⟩)
    | some us =>
      if entry.fresh && !us.coin.isSpent then .error .logicError
      else if us.fresh && entry.coin.isSpent then .ok (cacheCoins.erase o)
      else .ok (cacheCoins.insert o ⟨entry.coin, true, us.fresh⟩)

abbrev Entries := List (Sigma fun _ : COutPoint => CCoinsCacheEntry)

def batchWrite (cacheCoins : CCoinsMap) : Entries → Except Fault CCoinsMap
  | [] => .ok cacheCoins
  | ⟨o, entry⟩ :: rest => do batchWrite (← batchWriteEntry cacheCoins o entry) rest

/-- A plain map takes over every dirty entry: spent ones are erased, the others written. -/
def BaseView.write (base : BaseView) (o : COutPoint) (entry : CCoinsCacheEntry) : BaseView where
  coins p := if p = o ∧ entry.dirty then entry.unspent else base.coins p
  unspent := by
    intro p c found
    split at found
    · simp only [CCoinsCacheEntry.unspent] at found
      split at found <;> simp_all
    · exact base.unspent p c found
  hashBlock := base.hashBlock

def BaseView.batchWrite (base : BaseView) (entries : Entries) (hashBlock : Uint256) : BaseView :=
  { entries.foldl (fun base e => base.write e.1 e.2) base with hashBlock }

namespace View

variable (view : View)

def layers : List CCoinsViewCache := view.top :: view.below

variable (o : COutPoint)

def fetch : Option CCoinsCacheEntry × View :=
  let fetched := fetchCoin o view.top view.below (getCoinAt view.base o view.below)
  (fetched.1, { view with top := fetched.2.1, below := fetched.2.2 })

def getCoin : Option Coin × View :=
  let fetched := view.fetch o
  (fetched.1.bind CCoinsCacheEntry.unspent, fetched.2)

def haveCoin : Bool × View :=
  let fetched := view.fetch o
  ((fetched.1.bind CCoinsCacheEntry.unspent).isSome, fetched.2)

def accessCoin : Coin × View :=
  let fetched := view.fetch o
  ((fetched.1.map CCoinsCacheEntry.coin).getD .empty, fetched.2)

def setCoins (cacheCoins : CCoinsMap) : View :=
  { view with top := { view.top with cacheCoins } }

def haveCoinInCache : Bool :=
  ((view.top.cacheCoins.lookup o).bind CCoinsCacheEntry.unspent).isSome

def addCoin (coin : Coin) (possibleOverwrite : Bool) : Except Fault View :=
  if coin.isSpent then .error .assertion
  else if isUnspendable coin.out.scriptPubKey then .ok view
  else
    -- the emplaced default entry is spent and carries no flag
    let entry := (view.top.cacheCoins.lookup o).getD ⟨.empty, false, false⟩
    if !possibleOverwrite && !entry.coin.isSpent then .error .logicError
    else
      let fresh := !possibleOverwrite && !entry.dirty
      .ok (view.setCoins (view.top.cacheCoins.insert o ⟨coin, true, entry.fresh || fresh⟩))

def spendCoin : (Bool × Coin) × View :=
  match view.fetch o with
  | (none, view) => ((false, .empty), view)
  | (some entry, view) =>
    let coins := view.top.cacheCoins
    let cleared := if entry.fresh then coins.erase o else coins.insert o ⟨.empty, true, false⟩
    ((true, entry.coin), view.setCoins cleared)

def uncache : View :=
  match view.top.cacheCoins.lookup o with
  | some entry =>
    if !entry.dirty && !entry.fresh then view.setCoins (view.top.cacheCoins.erase o) else view
  | none => view

def flush (entries : Entries) : Except Fault View :=
  let emptied : CCoinsViewCache := { view.top with cacheCoins := ∅ }
  match view.below with
  | [] => .ok ⟨emptied, [], view.base.batchWrite entries view.top.hashBlock⟩
  | parent :: below => do
    let cacheCoins ← batchWrite parent.cacheCoins entries
    .ok ⟨emptied, ⟨view.top.hashBlock, cacheCoins⟩ :: below, view.base⟩

def push : View := ⟨⟨Uint256.null, ∅⟩, view.top :: view.below, view.base⟩

def discard : View :=
  match view.below with
  | [] => view
  | top :: below => ⟨top, below, view.base⟩

/-- `GetBestBlock` fills the null hashes on its way down. -/
def bestBlockAt (base : BaseView) : List CCoinsViewCache → Uint256 × List CCoinsViewCache
  | [] => (base.hashBlock, [])
  | top :: below =>
    if top.hashBlock.isNull then
      let found := bestBlockAt base below
      (found.1, { top with hashBlock := found.1 } :: found.2)
    else (top.hashBlock, top :: below)

def getBestBlock : Uint256 × View :=
  if view.top.hashBlock.isNull then
    let found := bestBlockAt view.base view.below
    (found.1, ⟨{ view.top with hashBlock := found.1 }, found.2, view.base⟩)
  else (view.top.hashBlock, view)

def setBestBlock (hashBlock : Uint256) : View :=
  { view with top := { view.top with hashBlock } }

end View

end Qogecoin.Coins
