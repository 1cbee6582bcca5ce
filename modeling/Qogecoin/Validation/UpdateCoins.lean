import Qogecoin.Library.Ledger
import Qogecoin.Coins.Undo
import Qogecoin.Consensus.TxVerify

/-! `UpdateCoins`: what a transaction does to the coins, and the undo data it leaves. -/
namespace Qogecoin.Coins.CoinsState

open Updates

def after (s : CoinsState) (writes : List (COutPoint × Option Coin)) : CoinsState :=
  { s with coins := apply writes s.coins }

@[simp] theorem coins_after (s : CoinsState) (writes : List (COutPoint × Option Coin)) :
    (s.after writes).coins = apply writes s.coins := rfl

theorem after_append (s : CoinsState) (us vs : List (COutPoint × Option Coin)) :
    s.after (us ++ vs) = (s.after us).after vs := by
  simp only [after, apply_append]

end Qogecoin.Coins.CoinsState

namespace Qogecoin.Validation

open Codec Commands Coins Consensus Ledger List Program

section

variable {ε : Type}

def mayOverwrite (outpoint : COutPoint) (fCoinbase checkForOverwrite : Bool) : CoinsM ε Bool :=
  if checkForOverwrite then haveCoin outpoint else pure fCoinbase

def newCoin (out : CTxOut) (nHeight : Int) (fCoinbase : Bool) : Coin :=
  ⟨out, fCoinbase, BitVec.ofInt 31 nHeight⟩

def addOutput (txid : Uint256) (nHeight : Int) (fCoinbase checkForOverwrite : Bool) (i : Nat)
    (out : CTxOut) : CoinsM ε Unit := do
  let overwrite ← mayOverwrite ⟨txid, .ofNat i⟩ fCoinbase checkForOverwrite
  addCoin ⟨txid, .ofNat i⟩ (newCoin out nHeight fCoinbase) overwrite

def addOutputs (txid : Uint256) (nHeight : Int) (fCoinbase checkForOverwrite : Bool) :
    (i : Nat) → List CTxOut → CoinsM ε Unit
  | _, [] => pure ()
  | i, out :: vout => do
    addOutput txid nHeight fCoinbase checkForOverwrite i out
    addOutputs txid nHeight fCoinbase checkForOverwrite (i + 1) vout

def addCoins [Crypto] (tx : CTransaction) (nHeight : Int) (checkForOverwrite : Bool) :
    CoinsM ε Unit :=
  addOutputs tx.getHash nHeight tx.isCoinBase checkForOverwrite 0 tx.vout

def spendInputs : List CTxIn → CoinsM ε (List Coin)
  | [] => pure []
  | txin :: vin => do
    let (isSpent, coin) ← spendCoin txin.prevout
    assertThat (isSpent = true) .assertion
    let rest ← spendInputs vin
    pure (coin :: rest)

def updateCoins [Crypto] (tx : CTransaction) (nHeight : Int) : CoinsM ε CTxUndo :=
  if tx.isCoinBase then do
    addCoins tx nHeight false
    pure ⟨[]⟩
  else do
    let vprevout ← spendInputs tx.vin
    addCoins tx nHeight false
    pure ⟨vprevout⟩

end

def created (txid : Uint256) (nHeight : Int) (fCoinbase : Bool) :
    (i : Nat) → List CTxOut → List (COutPoint × Coin)
  | _, [] => []
  | i, out :: vout =>
    if isUnspendable out.scriptPubKey then created txid nHeight fCoinbase (i + 1) vout
    else (⟨txid, .ofNat i⟩, newCoin out nHeight fCoinbase)
      :: created txid nHeight fCoinbase (i + 1) vout

theorem mem_created {txid : Uint256} {nHeight : Int} {fCoinbase : Bool} {i : Nat}
    {vout : List CTxOut} {e : COutPoint × Coin} (member : e ∈ created txid nHeight fCoinbase i vout) :
    (∃ j, i ≤ j ∧ j < i + vout.length ∧ e.1 = ⟨txid, .ofNat j⟩) ∧
      ∃ out ∈ vout, isUnspendable out.scriptPubKey = false ∧
        e.2 = newCoin out nHeight fCoinbase := by
  induction vout generalizing i with
  | nil => cases member
  | cons out vout ih =>
    have later : e ∈ created txid nHeight fCoinbase (i + 1) vout → (∃ j, i ≤ j ∧
        j < i + (out :: vout).length ∧ e.1 = ⟨txid, .ofNat j⟩) ∧ ∃ out' ∈ out :: vout,
        isUnspendable out'.scriptPubKey = false ∧ e.2 = newCoin out' nHeight fCoinbase := by
      intro rest
      obtain ⟨⟨j, low, high, key⟩, out', inside, facts⟩ := ih rest
      refine ⟨⟨j, by omega, ?_, key⟩, out', by simp [inside], facts⟩
      rw [length_cons]
      omega
    rw [created] at member
    split at member
    · exact later member
    next spendable =>
      rcases mem_cons.mp member with rfl | rest
      · exact ⟨⟨i, le_refl i, by simp, rfl⟩, out, by simp, by simpa using spendable, rfl⟩
      · exact later rest

theorem created_nodup (txid : Uint256) (nHeight : Int) (fCoinbase : Bool) (i : Nat)
    (vout : List CTxOut) (fits : i + vout.length ≤ 2 ^ 32) :
    ((created txid nHeight fCoinbase i vout).map Prod.fst).Nodup := by
  induction vout generalizing i with
  | nil => simp [created]
  | cons out vout ih =>
    rw [length_cons] at fits
    rw [created]
    split
    · exact ih (i + 1) (by omega)
    rw [map_cons, nodup_cons]
    refine ⟨?_, ih (i + 1) (by omega)⟩
    intro inside
    obtain ⟨e, member, same⟩ := mem_map.mp inside
    obtain ⟨⟨j, low, high, key⟩, _⟩ := mem_created member
    rw [same] at key
    injection key with _ indices
    have values := congrArg UInt32.toNat indices
    rw [UInt32.toNat_ofNat', UInt32.toNat_ofNat', Nat.mod_eq_of_lt (by omega),
      Nat.mod_eq_of_lt (by omega)] at values
    omega

/-- The coins a transaction takes out, which its undo data holds, and those it puts in. -/
def txChange [Crypto] (nHeight : Int) (tx : CTransaction) (txundo : CTxUndo) :
    Change COutPoint Coin where
  spent := (tx.vin.map CTxIn.prevout).zip txundo.vprevout
  created := created tx.getHash nHeight tx.isCoinBase 0 tx.vout

section

variable {ε : Type} {known : Set COutPoint} {ends : Ends Crash ε}

theorem addOutput_wp {txid : Uint256} {nHeight : Int} {fCoinbase checkForOverwrite : Bool} {i : Nat}
    {out : CTxOut} {s : CoinsState} {post : Unit → CoinsState → Prop}
    (range : MoneyRange out.nValue)
    (throws : checkForOverwrite = false → fCoinbase = false → ends.crashes .logicError ∧
      (⟨txid, .ofNat i⟩ : COutPoint) ∈ known)
    (returns : (checkForOverwrite = false → fCoinbase = false →
        ∀ e ∈ created txid nHeight fCoinbase i [out], s.coins e.1 = none) →
      post () (s.after (additions (created txid nHeight fCoinbase i [out])))) :
    (addOutput (ε := ε) txid nHeight fCoinbase checkForOverwrite i out).wp (CoinsState.spec known)
      post ends s := by
  have add : ∀ overwrite : Bool,
      (checkForOverwrite = true → overwrite = (s.coins ⟨txid, .ofNat i⟩).isSome) →
      (checkForOverwrite = false → overwrite = fCoinbase) →
      (addCoin (ε := ε) ⟨txid, .ofNat i⟩ (newCoin out nHeight fCoinbase) overwrite).wp
        (CoinsState.spec known) post ends s := by
    intro overwrite looked trusted
    have live : (newCoin out nHeight fCoinbase).isSpent = false := isSpent_of_moneyRange range
    apply addCoin_wp live
    · intro strict present
      cases checkForOverwrite with
      | true =>
        rw [looked rfl, present] at strict
        cases strict
      | false =>
        obtain ⟨crash, inside⟩ := throws rfl ((trusted rfl).symm.trans strict)
        exact ⟨inside, crash⟩
    · intro unspendable
      have skipped : created txid nHeight fCoinbase i [out] = [] := if_pos unspendable
      rw [skipped] at returns
      exact returns (by simp)
    · intro spendable free
      have kept : created txid nHeight fCoinbase i [out] =
          [(⟨txid, .ofNat i⟩, newCoin out nHeight fCoinbase)] :=
        if_neg (Bool.eq_false_iff.mp spendable)
      rw [kept] at returns
      apply returns
      intro strict spending e member
      rw [mem_singleton.mp member]
      rcases free with announced | absent
      · rw [trusted strict, spending] at announced
        cases announced
      · exact absent
  cases checkForOverwrite with
  | true => exact add _ (fun _ => rfl) (fun strict => by cases strict)
  | false => exact add _ (fun check => by cases check) (fun _ => rfl)

theorem created_cons (txid : Uint256) (nHeight : Int) (fCoinbase : Bool) (i : Nat) (out : CTxOut)
    (vout : List CTxOut) : created txid nHeight fCoinbase i (out :: vout) =
      created txid nHeight fCoinbase i [out] ++ created txid nHeight fCoinbase (i + 1) vout := by
  simp only [created]
  split <;> rfl

theorem addOutputs_wp (txid : Uint256) (nHeight : Int) (fCoinbase checkForOverwrite : Bool) (i : Nat)
    (vout : List CTxOut) (s : CoinsState) (outputs : ∀ out ∈ vout, MoneyRange out.nValue)
    (fits : i + vout.length ≤ 2 ^ 32)
    (throws : checkForOverwrite = false → fCoinbase = false → ends.crashes .logicError ∧
      ∀ j, i ≤ j → j < i + vout.length → (⟨txid, .ofNat j⟩ : COutPoint) ∈ known) :
    (addOutputs (ε := ε) txid nHeight fCoinbase checkForOverwrite i vout).wp (CoinsState.spec known)
      (fun _ t => t = s.after (additions (created txid nHeight fCoinbase i vout)) ∧
        (checkForOverwrite = false → fCoinbase = false →
          ∀ e ∈ created txid nHeight fCoinbase i vout, s.coins e.1 = none)) ends s := by
  induction vout generalizing i s with
  | nil => exact ⟨rfl, by simp [created]⟩
  | cons out vout ih =>
    have nodup := created_nodup txid nHeight fCoinbase i (out :: vout) fits
    rw [length_cons] at fits throws
    rw [created_cons, map_append] at nodup
    have apart := (nodup_append.mp nodup).2.2
    rw [addOutputs, wp_bind]
    apply addOutput_wp (outputs out (by simp))
    · intro strict spending
      obtain ⟨crash, all⟩ := throws strict spending
      exact ⟨crash, all i (le_refl i) (by omega)⟩
    · intro first
      have later : checkForOverwrite = false → fCoinbase = false → ends.crashes .logicError ∧
          ∀ j, i + 1 ≤ j → j < i + 1 + vout.length →
            (⟨txid, .ofNat j⟩ : COutPoint) ∈ known := by
        intro strict spending
        obtain ⟨crash, all⟩ := throws strict spending
        exact ⟨crash, fun j low high => all j (by omega) (by omega)⟩
      apply wp_consequence
        (ih (i + 1) _ (fun o member => outputs o (by simp [member])) (by omega) later)
      intro _ t result
      obtain ⟨effect, rest⟩ := result
      rw [created_cons]
      constructor
      · rw [effect, additions, additions, additions, map_append, CoinsState.after_append]
      · intro strict spending e member
        rcases mem_append.mp member with here | there
        · exact first strict spending e here
        · -- the outputs put in so far are at other outpoints
          have absent := rest strict spending e there
          rwa [CoinsState.coins_after, apply_additions_of_notMem] at absent
          intro inside
          exact apart e.1 inside e.1 (mem_map_of_mem there) rfl

theorem spendInputs_wp (vin : List CTxIn) (spent : List Coin) (s : CoinsState)
    (distinct : (vin.map CTxIn.prevout).Nodup) (spends : Spends s.coins vin spent) :
    (spendInputs (ε := ε) vin).wp (CoinsState.spec known)
      (fun coins t => coins = spent ∧
        t = s.after (removals ((vin.map CTxIn.prevout).zip spent))) ends s := by
  induction vin generalizing s spent with
  | nil =>
    cases spends
    exact ⟨rfl, rfl⟩
  | cons txin vin ih =>
    cases spends with
    | @cons _ coin _ spent found others =>
      rw [map_cons, nodup_cons] at distinct
      -- the other inputs spend other outpoints
      have still : Spends (s.write txin.prevout none).coins vin spent := by
        apply Spends.congr others
        intro other member
        apply Function.update_of_ne
        intro same
        exact distinct.1 (mem_map.mpr ⟨other, member, same⟩)
      simp only [spendInputs, wp_bind, wp_spendCoin, found, Option.isSome_some,
        Option.getD_some, wp_assertThat, wp_pure]
      intro noticed sure
      constructor
      · exact fun unnoticed => absurd (sure trivial) unnoticed
      · intro _
        apply wp_consequence (ih spent _ distinct.2 still)
        rintro coins t ⟨rfl, rfl⟩
        exact ⟨rfl, rfl⟩

variable [Crypto]

theorem updateCoins_coinbase (tx : CTransaction) (nHeight : Int) (s : CoinsState)
    (formed : TxWellFormed tx) (coinbase : tx.isCoinBase = true) :
    (updateCoins (ε := ε) tx nHeight).wp (CoinsState.spec known)
      (fun txundo t => txundo = ⟨[]⟩ ∧ t = s.after (txChange nHeight tx ⟨[]⟩).forward) ends s := by
  have count := formed.count_le
  rw [updateCoins, if_pos coinbase, wp_bind]
  apply wp_consequence (addOutputs_wp tx.getHash nHeight tx.isCoinBase false 0 tx.vout s
    formed.outputs (by omega) (by simp [coinbase]))
  intro _ t result
  constructor
  · rfl
  · rw [result.1]
    simp [txChange, Change.forward, removals]

theorem updateCoins_spending (tx : CTransaction) (nHeight : Int) (s : CoinsState)
    (spent : List Coin) (formed : TxWellFormed tx) (spending : tx.isCoinBase = false)
    (spends : Spends s.coins tx.vin spent) (throws : ends.crashes .logicError)
    (inKnown : ∀ i < tx.vout.length, (⟨tx.getHash, .ofNat i⟩ : COutPoint) ∈ known) :
    (updateCoins (ε := ε) tx nHeight).wp (CoinsState.spec known)
      (fun txundo t => txundo = ⟨spent⟩ ∧ t = s.after (txChange nHeight tx ⟨spent⟩).forward ∧
        (txChange nHeight tx ⟨spent⟩).Fits s.coins) ends s := by
  have count := formed.count_le
  rw [updateCoins, if_neg (by simp [spending]), wp_bind]
  apply wp_consequence (spendInputs_wp tx.vin spent s formed.distinct spends)
  intro coins t result
  obtain ⟨rfl, rfl⟩ := result
  rw [wp_bind]
  apply wp_consequence (addOutputs_wp tx.getHash nHeight tx.isCoinBase false 0 tx.vout _
    formed.outputs (by omega) (fun _ _ => ⟨throws, fun i _ high => inKnown i (by omega)⟩))
  intro _ t result
  obtain ⟨effect, absent⟩ := result
  refine ⟨rfl, ?_, ?_⟩
  · rw [effect, ← CoinsState.after_append]
    rfl
  · have lengths := List.Forall₂.length_eq spends
    exact {
      spentOnce := by
        rw [txChange, map_fst_zip (by simp [lengths])]
        exact formed.distinct
      present := Spends.present spends
      createdOnce := created_nodup _ _ _ _ _ (by omega)
      absent := absent rfl spending }

end

end Qogecoin.Validation
