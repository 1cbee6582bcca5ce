import Qogecoin.Library.Commands
import Qogecoin.Coins.Refinement

/-! Consensus code works on a `CCoinsViewCache&`. It is written as programs over the methods of
the view, which run on a stack of caches, and is reasoned about over the plain set of coins the
stack shows. -/
namespace Qogecoin.Coins

open Commands

/-- What ends a program abnormally: a failed `assert`, an exception nobody catches, or undefined
behaviour. -/
inductive Crash where
  | assertion
  | logicError
  | runtimeError
  | signedOverflow
  | nullPointer
deriving DecidableEq, Repr

def Fault.toCrash : Fault → Crash
  | .assertion => .assertion
  | .logicError => .logicError

inductive Command where
  | haveCoin (o : COutPoint)
  | accessCoin (o : COutPoint)
  | addCoin (o : COutPoint) (coin : Coin) (possibleOverwrite : Bool)
  | spendCoin (o : COutPoint)
  | getBestBlock
  | setBestBlock (hashBlock : Uint256)

@[reducible] def Command.Reply : Command → Type
  | .haveCoin _ => Bool
  | .accessCoin _ => Coin
  | .addCoin _ _ _ => Unit
  | .spendCoin _ => Bool × Coin
  | .getBestBlock => Uint256
  | .setBestBlock _ => Unit

@[reducible] def methods : Interface := ⟨Command, Command.Reply⟩

abbrev CoinsM (ε α : Type) := Program methods Crash ε α

section

variable {ε : Type}

def haveCoin (o : COutPoint) : CoinsM ε Bool := Program.perform (I := methods) (.haveCoin o)

def accessCoin (o : COutPoint) : CoinsM ε Coin := Program.perform (I := methods) (.accessCoin o)

def addCoin (o : COutPoint) (coin : Coin) (possibleOverwrite : Bool) : CoinsM ε Unit :=
  Program.perform (I := methods) (.addCoin o coin possibleOverwrite)

def spendCoin (o : COutPoint) : CoinsM ε (Bool × Coin) :=
  Program.perform (I := methods) (.spendCoin o)

def getBestBlock : CoinsM ε Uint256 := Program.perform (I := methods) .getBestBlock

def setBestBlock (hashBlock : Uint256) : CoinsM ε Unit :=
  Program.perform (I := methods) (.setBestBlock hashBlock)

end

def View.handle : Program.Handler methods Crash View
  | .haveCoin o, view => .ok (view.haveCoin o)
  | .accessCoin o, view => .ok (view.accessCoin o)
  | .addCoin o coin possibleOverwrite, view =>
    match view.addCoin o coin possibleOverwrite with
    | .ok next => .ok ((), next)
    | .error fault => .error fault.toCrash
  | .spendCoin o, view => .ok (view.spendCoin o)
  | .getBestBlock, view => .ok view.getBestBlock
  | .setBestBlock hashBlock, view => .ok ((), view.setBestBlock hashBlock)

/-- What a view shows, and the best block of the view it stands on. -/
structure CoinsState where
  coins : FlatMap
  bestBlock : Uint256
  parentBlock : Uint256

namespace CoinsState

def setBestBlock (s : CoinsState) (hashBlock : Uint256) : CoinsState :=
  { s with bestBlock := if hashBlock.isNull then s.parentBlock else hashBlock }

def write (s : CoinsState) (o : COutPoint) (coin : Option Coin) : CoinsState :=
  { s with coins := Function.update s.coins o coin }

@[simp] theorem coins_write (s : CoinsState) (o : COutPoint) (coin : Option Coin) :
    (s.write o coin).coins = Function.update s.coins o coin := rfl

/-- What each method does to the plain set. A spend of an absent coin may or may not be noticed.
An addition that overwrites a coin without announcing it throws for outpoints in `known`, those
whose coins are in the top cache if they are unspent; it must not happen for others. -/
def pre (known : Set COutPoint) : (c : Command) → CoinsState → (c.Reply → CoinsState → Prop) →
    (Crash → Prop) → Prop
  | .haveCoin o, s, post, _ => post (s.coins o).isSome s
  | .accessCoin o, s, post, _ => post ((s.coins o).getD .empty) s
  | .addCoin o coin possibleOverwrite, s, post, crash =>
    (coin.isSpent = true → crash .assertion) ∧
      (coin.isSpent = false → isUnspendable coin.out.scriptPubKey = true → post () s) ∧
      (coin.isSpent = false → isUnspendable coin.out.scriptPubKey = false →
        (possibleOverwrite = false ∧ (s.coins o).isSome → o ∈ known ∧ crash .logicError) ∧
        (possibleOverwrite = true ∨ s.coins o = none → post () (s.write o (some coin))))
  | .spendCoin o, s, post, _ => ∀ noticed : Bool, ((s.coins o).isSome → noticed = true) →
      post (noticed, (s.coins o).getD .empty) (s.write o none)
  | .getBestBlock, s, post, _ => post s.bestBlock s
  | .setBestBlock hashBlock, s, post, _ => post () (s.setBestBlock hashBlock)

def spec (known : Set COutPoint) : Program.Spec methods Crash CoinsState where
  pre := pre known
  mono := by
    intro c s post post' crash crash' returns crashes holds
    cases c with
    | haveCoin o | accessCoin o | getBestBlock | setBestBlock h => exact returns _ _ holds
    | spendCoin o =>
      intro noticed sure
      exact returns _ _ (holds noticed sure)
    | addCoin o coin possibleOverwrite =>
      obtain ⟨spent, unspendable, added⟩ := holds
      refine ⟨fun h => crashes _ (spent h), fun live h => returns _ _ (unspendable live h), ?_⟩
      intro live spendable
      obtain ⟨taken, free⟩ := added live spendable
      exact ⟨fun h => ⟨(taken h).1, crashes _ (taken h).2⟩, fun h => returns _ _ (free h)⟩

end CoinsState

section

open CoinsState Program

variable {ε : Type} {known : Set COutPoint} {ends : Ends Crash ε} {s : CoinsState}

variable (o : COutPoint)

@[simp] theorem wp_haveCoin (post : Bool → CoinsState → Prop) :
    (haveCoin o : CoinsM ε Bool).wp (spec known) post ends s ↔ post (s.coins o).isSome s := Iff.rfl

@[simp] theorem wp_accessCoin (post : Coin → CoinsState → Prop) :
    (accessCoin o : CoinsM ε Coin).wp (spec known) post ends s ↔
      post ((s.coins o).getD .empty) s := Iff.rfl

@[simp] theorem wp_spendCoin (post : Bool × Coin → CoinsState → Prop) :
    (spendCoin o : CoinsM ε (Bool × Coin)).wp (spec known) post ends s ↔
      ∀ noticed : Bool, ((s.coins o).isSome → noticed = true) →
        post (noticed, (s.coins o).getD .empty) (s.write o none) := Iff.rfl

@[simp] theorem wp_getBestBlock (post : Uint256 → CoinsState → Prop) :
    (getBestBlock : CoinsM ε Uint256).wp (spec known) post ends s ↔ post s.bestBlock s := Iff.rfl

@[simp] theorem wp_setBestBlock (hashBlock : Uint256) (post : Unit → CoinsState → Prop) :
    (setBestBlock hashBlock : CoinsM ε Unit).wp (spec known) post ends s ↔
      post () (s.setBestBlock hashBlock) := Iff.rfl

theorem addCoin_wp {o : COutPoint} {coin : Coin} {possibleOverwrite : Bool}
    {post : Unit → CoinsState → Prop} (live : coin.isSpent = false)
    (throws : possibleOverwrite = false → (s.coins o).isSome →
      o ∈ known ∧ ends.crashes .logicError)
    (dropped : isUnspendable coin.out.scriptPubKey = true → post () s)
    (written : isUnspendable coin.out.scriptPubKey = false →
      possibleOverwrite = true ∨ s.coins o = none → post () (s.write o (some coin))) :
    (addCoin o coin possibleOverwrite : CoinsM ε Unit).wp (spec known) post ends s := by
  constructor
  · intro dead
    rw [live] at dead
    cases dead
  · constructor
    · exact fun _ unspendable => dropped unspendable
    · exact fun _ spendable => ⟨fun taken => throws taken.1 taken.2, written spendable⟩

def noOverflow : Ends Crash ε := Ends.onlyCrashes (· ≠ .signedOverflow)

@[simp] theorem noOverflow_crashes (f : Crash) :
    (noOverflow : Ends Crash ε).crashes f ↔ f ≠ .signedOverflow := Iff.rfl

@[simp] theorem noOverflow_rejects (e : ε) : noOverflow.rejects e := trivial

def ReadOnly {α : Type} (p : CoinsM ε α) : Prop :=
  ∀ known s, p.wp (spec known) (fun _ t => t = s) noOverflow s

def View.Reads : Command → Prop
  | .haveCoin _ | .accessCoin _ => True
  | _ => False

variable {α β : Type} {p : CoinsM ε α}

theorem readOnly_of_within (within : p.Within View.Reads noOverflow) : ReadOnly p := by
  intro known s
  refine within.wp ?_ s
  intro c s post crash reads returns
  cases c with
  | haveCoin o | accessCoin o => exact returns _
  | _ => exact reads.elim

theorem ReadOnly.wp_bind (readOnly : ReadOnly p) {f : α → CoinsM ε β} {post : β → CoinsState → Prop}
    (rest : ∀ a, (f a).wp (spec known) post noOverflow s) :
    (p >>= f).wp (spec known) post noOverflow s := by
  rw [Program.wp_bind]
  refine wp_consequence (readOnly known s) ?_
  intro a t same
  subst same
  exact rest a

end

namespace View

section

variable (o : COutPoint) (top : CCoinsViewCache) (below : List CCoinsViewCache)
  (parent : Option Coin × List CCoinsViewCache)

theorem fetchCoin_hashBlock :
    (fetchCoin o top below parent).2.1.hashBlock = top.hashBlock := by
  unfold fetchCoin
  split
  · rfl
  · split <;> rfl

theorem fetchCoin_keeps {p : COutPoint} (cached : (top.cacheCoins.lookup p).isSome) :
    ((fetchCoin o top below parent).2.1.cacheCoins.lookup p).isSome := by
  unfold fetchCoin
  split
  · exact cached
  · split
    · exact cached
    · by_cases same : p = o
      · subst same
        simp
      · simpa only [AList.lookup_insert_ne same] using cached

theorem fetchCoin_below :
    (fetchCoin o top below parent).2.2 = below ∨ (fetchCoin o top below parent).2.2 = parent.2 := by
  unfold fetchCoin
  split
  · exact .inl rfl
  · split <;> exact .inr rfl

end

theorem getCoinAt_bestBlock (base : BaseView) (o : COutPoint) (layers : List CCoinsViewCache) :
    (bestBlockAt base (getCoinAt base o layers).2).1 = (bestBlockAt base layers).1 := by
  induction layers with
  | nil => rfl
  | cons top below ih =>
    have hash := fetchCoin_hashBlock o top below (getCoinAt base o below)
    have rest : (bestBlockAt base (fetchCoin o top below (getCoinAt base o below)).2.2).1 =
        (bestBlockAt base below).1 := by
      rcases fetchCoin_below o top below (getCoinAt base o below) with same | same <;> rw [same]
      exact ih
    simp only [getCoinAt, bestBlockAt, hash]
    split
    · exact rest
    · rfl

variable (view : View)

theorem fetch_bestBlock (o : COutPoint) :
    (bestBlockAt view.base (view.fetch o).2.below).1 = (bestBlockAt view.base view.below).1 := by
  rw [fetch]
  rcases fetchCoin_below o view.top view.below (getCoinAt view.base o view.below) with same | same <;>
    rw [same]
  exact getCoinAt_bestBlock view.base o view.below

theorem bestBlockAt_spec (base : BaseView) (layers : List CCoinsViewCache) :
    (bestBlockAt base (bestBlockAt base layers).2).1 = (bestBlockAt base layers).1 ∧
      viewAt base (bestBlockAt base layers).2 = viewAt base layers ∧
      (LayersSound base layers → LayersSound base (bestBlockAt base layers).2) := by
  induction layers with
  | nil => exact ⟨rfl, rfl, id⟩
  | cons top below ih =>
    obtain ⟨same, view, sound⟩ := ih
    simp only [bestBlockAt]
    split_ifs with own
    · refine ⟨?_, ?_, ?_⟩
      · simp only [bestBlockAt]
        split
        · exact same
        · rfl
      · simp only [viewAt, view]
      · intro ok
        exact ⟨view ▸ ok.1, sound ok.2⟩
    · refine ⟨?_, rfl, id⟩
      simp only [bestBlockAt, own]
      rfl

/-- The view shows the state `s`, and an unspent coin at an outpoint of `known` has an entry in the
top cache. -/
structure Shows (known : Set COutPoint) (view : View) (s : CoinsState) : Prop where
  sound : view.Sound
  coins : view.shown = s.coins
  cached : ∀ o ∈ known, (s.coins o).isSome → (view.top.cacheCoins.lookup o).isSome
  bestBlock : view.getBestBlock.1 = s.bestBlock
  parentBlock : (bestBlockAt view.base view.below).1 = s.parentBlock

def state : CoinsState :=
  ⟨view.shown, view.getBestBlock.1, (bestBlockAt view.base view.below).1⟩

theorem shows_state (sound : view.Sound) : view.Shows ∅ view.state :=
  ⟨sound, rfl, by simp, rfl, rfl⟩

theorem Shows.extend {known free : Set COutPoint} {view : View} {s : CoinsState}
    (shows : view.Shows known s) (absent : ∀ o ∈ free, s.coins o = none) :
    view.Shows (known ∪ free) s := by
  refine { shows with cached := ?_ }
  intro o member present
  rcases member with old | new
  · exact shows.cached o old present
  · rw [absent o new] at present
    cases present

theorem getBestBlock_eq :
    view.getBestBlock.1 = if view.top.hashBlock.isNull then (bestBlockAt view.base view.below).1
      else view.top.hashBlock := by
  unfold getBestBlock
  split <;> rfl

theorem getBestBlock_congr {view next : View} (hash : next.top.hashBlock = view.top.hashBlock)
    (below : (bestBlockAt next.base next.below).1 = (bestBlockAt view.base view.below).1) :
    next.getBestBlock.1 = view.getBestBlock.1 := by
  rw [getBestBlock_eq, getBestBlock_eq, hash, below]

theorem getBestBlock_setCoins (m : CCoinsMap) :
    (view.setCoins m).getBestBlock.1 = view.getBestBlock.1 := getBestBlock_congr rfl rfl

theorem state_setBestBlock {hashBlock : Uint256} (same : view.state.bestBlock = hashBlock) :
    view.state.setBestBlock hashBlock = view.state := by
  have whole := view.getBestBlock_eq
  subst same
  simp only [CoinsState.setBestBlock, state]
  congr 1
  by_cases null : view.getBestBlock.1.isNull = true
  · have parent : (bestBlockAt view.base view.below).1 = view.getBestBlock.1 := by
      by_cases own : view.top.hashBlock.isNull = true
      · rw [whole, if_pos own]
      · rw [whole, if_neg own] at null
        exact absurd null own
    exact (if_pos null).trans parent
  · exact if_neg null

variable {known : Set COutPoint} {view : View} {s : CoinsState}

theorem Shows.fetch (shows : view.Shows known s) (o : COutPoint) :
    (view.fetch o).2.Shows known s := by
  have flat := fetch_flat view o shows.sound
  rw [flat_eq, flat_eq, List.cons.injEq] at flat
  have below := fetch_bestBlock view o
  refine ⟨fetch_sound view o shows.sound, flat.1.trans shows.coins, ?_, ?_, ?_⟩
  · intro p member present
    exact fetchCoin_keeps o _ _ _ (shows.cached p member present)
  · exact (getBestBlock_congr (fetchCoin_hashBlock o _ _ _) below).trans shows.bestBlock
  · exact below.trans shows.parentBlock

theorem Shows.spendCoin (shows : view.Shows known s) (o : COutPoint) :
    (view.spendCoin o).2.Shows known (s.write o none) := by
  obtain ⟨_, _, sound, flat⟩ := spendCoin_spec view o shows.sound
  rw [flat_eq, List.cons.injEq, shows.coins] at flat
  have fetched := shows.fetch o
  have still {p : COutPoint} (present : ((s.write o none).coins p).isSome) :
      p ≠ o ∧ (s.coins p).isSome := by
    by_cases same : p = o
    · simp [CoinsState.write, same] at present
    · exact ⟨same, by simpa [CoinsState.write, same] using present⟩
  unfold View.spendCoin at sound flat ⊢
  cases found : view.fetch o with
  | mk result next =>
    rw [found] at fetched sound flat
    cases result with
    | none =>
      exact ⟨sound, flat.1, fun p member present => fetched.cached p member (still present).2,
        fetched.bestBlock, fetched.parentBlock⟩
    | some entry =>
      have best := getBestBlock_setCoins next
      refine ⟨sound, flat.1, ?_, (best _).trans fetched.bestBlock, fetched.parentBlock⟩
      intro p member present
      obtain ⟨other, present⟩ := still present
      have cached := fetched.cached p member present
      simp only [setCoins]
      split
      · rwa [AList.lookup_erase_ne other]
      · rwa [AList.lookup_insert_ne other]

variable {coin : Coin} {o : COutPoint}

theorem addCoin_cases {possibleOverwrite : Bool} {next : View}
    (run : view.addCoin o coin possibleOverwrite = .ok next) :
    isUnspendable coin.out.scriptPubKey = true ∧ next = view ∨
      isUnspendable coin.out.scriptPubKey = false ∧
        ∃ fresh, next = view.setCoins (view.top.cacheCoins.insert o ⟨coin, true, fresh⟩) := by
  unfold View.addCoin at run
  split at run
  · cases run
  split at run
  next unspendable => exact .inl ⟨unspendable, (Except.ok.inj run).symm⟩
  next spendable =>
    dsimp only at run
    split at run
    · cases run
    · exact .inr ⟨by simpa using spendable, _, (Except.ok.inj run).symm⟩

theorem addCoin_taken (live : coin.isSpent = false)
    (spendable : isUnspendable coin.out.scriptPubKey = false) (present : (view.shown o).isSome)
    (cached : (view.top.cacheCoins.lookup o).isSome) :
    view.addCoin o coin false = .error .logicError := by
  obtain ⟨entry, found⟩ := Option.isSome_iff_exists.mp cached
  have shown : entry.unspent = view.shown o := by
    simp [View.shown, layers, viewAt, found, cell]
  have unspent : entry.coin.isSpent = false := by
    rw [← shown] at present
    cases spent : entry.coin.isSpent with
    | false => rfl
    | true => simp [CCoinsCacheEntry.unspent, spent] at present
  simp [View.addCoin, live, spendable, found, unspent]

theorem Shows.addCoin (shows : view.Shows known s) {possibleOverwrite : Bool}
    (live : coin.isSpent = false) (free : possibleOverwrite = true ∨ s.coins o = none) :
    ∃ next, view.addCoin o coin possibleOverwrite = .ok next ∧
      next.Shows known (if isUnspendable coin.out.scriptPubKey then s else s.write o (some coin)) := by
  have absent : possibleOverwrite = false → view.shown o = none := by
    intro strict
    rw [shows.coins]
    rcases free with announced | absent
    · rw [strict] at announced
      cases announced
    · exact absent
  obtain ⟨next, run, sound, flat⟩ := addCoin_spec view o shows.sound live absent
  rw [flat_eq, List.cons.injEq, shows.coins] at flat
  refine ⟨next, run, ?_⟩
  rcases addCoin_cases run with ⟨unspendable, rfl⟩ | ⟨spendable, fresh, rfl⟩
  · rwa [if_pos unspendable]
  · rw [spendable] at flat ⊢
    have best := getBestBlock_setCoins view
    refine ⟨sound, flat.1, ?_, (best _).trans shows.bestBlock, shows.parentBlock⟩
    intro p member present
    by_cases same : p = o
    · subst same
      simp [setCoins]
    · have cached := shows.cached p member (by simpa [CoinsState.write, same] using present)
      simpa [setCoins, AList.lookup_insert_ne same] using cached

theorem Shows.getBestBlock (shows : view.Shows known s) : view.getBestBlock.2.Shows known s := by
  have whole := getBestBlock_eq view
  have best := shows.bestBlock
  rw [whole] at best
  unfold View.getBestBlock
  split_ifs with null
  · obtain ⟨same, coins, sound⟩ := bestBlockAt_spec view.base view.below
    rw [if_pos null] at best
    refine ⟨⟨coins ▸ shows.sound.1, sound shows.sound.2⟩, ?_, shows.cached, ?_, ?_⟩
    · rw [← shows.coins]
      simp only [shown, layers, viewAt, coins]
    · rw [getBestBlock_eq]
      simp only [same, best]
      split <;> rfl
    · exact same.trans shows.parentBlock
  · exact shows

theorem handle_refines (known : Set COutPoint) :
    Program.Refines handle (CoinsState.spec known) (Shows known) := by
  intro c view s post crash shows holds
  cases c with
  | haveCoin o =>
    have found := fetch_entry view o shows.sound
    refine ⟨s, shows.fetch o, ?_⟩
    simp only [found, shows.coins]
    exact holds
  | accessCoin o =>
    refine ⟨s, shows.fetch o, ?_⟩
    have reply : post ((s.coins o).getD .empty) s := holds
    rw [← shows.coins, ← accessCoin_eq view o shows.sound] at reply
    exact reply
  | spendCoin o =>
    obtain ⟨moved, unnoticed, _⟩ := spendCoin_spec view o shows.sound
    refine ⟨_, shows.spendCoin o, ?_⟩
    rw [shows.coins] at moved unnoticed
    have noticed : (s.coins o).isSome → (view.spendCoin o).1.1 = true := by
      intro present
      cases answer : (view.spendCoin o).1.1 with
      | true => rfl
      | false =>
        rw [unnoticed answer] at present
        cases present
    have reply := holds _ noticed
    rw [← moved] at reply
    exact reply
  | getBestBlock =>
    refine ⟨s, shows.getBestBlock, ?_⟩
    have reply : post s.bestBlock s := holds
    rw [← shows.bestBlock] at reply
    exact reply
  | setBestBlock hashBlock =>
    refine ⟨s.setBestBlock hashBlock, ?_, holds⟩
    refine ⟨shows.sound, shows.coins, shows.cached, ?_, shows.parentBlock⟩
    rw [getBestBlock_eq, CoinsState.setBestBlock, ← shows.parentBlock]
    rfl
  | addCoin o coin possibleOverwrite =>
    obtain ⟨spent, unspendable, added⟩ := holds
    simp only [handle]
    cases dead : coin.isSpent with
    | true =>
      have run : view.addCoin o coin possibleOverwrite = .error .assertion := by
        simp [View.addCoin, dead]
      rw [run]
      exact spent dead
    | false =>
      cases spendable : isUnspendable coin.out.scriptPubKey with
      | true =>
        have run : view.addCoin o coin possibleOverwrite = .ok view := by
          simp [View.addCoin, dead, spendable]
        rw [run]
        exact ⟨s, shows, unspendable dead spendable⟩
      | false =>
        obtain ⟨throws, writes⟩ := added dead spendable
        by_cases taken : possibleOverwrite = false ∧ (s.coins o).isSome
        · obtain ⟨member, crashes⟩ := throws taken
          have run := addCoin_taken dead spendable (shows.coins ▸ taken.2)
            (shows.cached o member taken.2)
          rw [taken.1, run]
          exact crashes
        · have free : possibleOverwrite = true ∨ s.coins o = none := by
            cases possibleOverwrite with
            | true => exact .inl rfl
            | false => simpa using taken
          obtain ⟨next, run, result⟩ := shows.addCoin dead free
          rw [spendable] at result
          rw [run]
          exact ⟨_, result, writes free⟩

def Alone (base : BaseView) (view : View) : Prop := view.base = base ∧ view.below = []

theorem fetch_alone {base : BaseView} (o : COutPoint) (alone : view.Alone base) :
    (view.fetch o).2.Alone base := by
  obtain ⟨same, lone⟩ := alone
  refine ⟨same, ?_⟩
  simp only [fetch, lone, getCoinAt]
  rcases fetchCoin_below o view.top [] (view.base.coins o, []) with same | same <;> rw [same]

theorem handle_alone {base : BaseView} (c : Command) (view : View) (r : c.Reply) (view' : View)
    (alone : view.Alone base) (step : handle c view = .ok (r, view')) : view'.Alone base := by
  cases c with
  | haveCoin o | accessCoin o =>
    cases step
    exact fetch_alone o alone
  | setBestBlock hashBlock =>
    cases step
    exact alone
  | getBestBlock =>
    injection step with reply
    have last : view' = view.getBestBlock.2 := (congrArg Prod.snd reply).symm
    obtain ⟨same, lone⟩ := alone
    rw [last, getBestBlock]
    split
    · exact ⟨same, by simp only [lone, bestBlockAt]⟩
    · exact ⟨same, lone⟩
  | spendCoin o =>
    injection step with reply
    have last : view' = (view.spendCoin o).2 := (congrArg Prod.snd reply).symm
    have fetched := fetch_alone o alone
    rw [last, spendCoin]
    split <;> (rename_i found; rw [found] at fetched; exact fetched)
  | addCoin o coin possibleOverwrite =>
    simp only [handle] at step
    cases added : view.addCoin o coin possibleOverwrite with
    | error fault =>
      rw [added] at step
      cases step
    | ok next =>
      rw [added] at step
      cases step
      rcases addCoin_cases added with ⟨_, rfl⟩ | ⟨_, _, rfl⟩ <;> exact alone

end View

end Qogecoin.Coins
