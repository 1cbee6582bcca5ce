import Qogecoin.Wallet.Transactions

/-! Wallet transactions that conflict with the active chain, and what the wallet keeps true about
their states. -/
namespace Qogecoin.Wallet

open Coins List

variable [Crypto]

/-- A wallet transaction conflicts with a chain when an input of it, or of an ancestor of it in the
wallet, is spent by a different transaction of the chain. -/
inductive IsConflicted (transactions : Uint256 → Option CTransaction)
    (chain : List CTransaction) : Uint256 → Prop
  | spent {id : Uint256} {tx other : CTransaction} {outpoint : COutPoint}
      (own : transactions id = some tx) (confirmed : other ∈ chain)
      (different : other.getHash ≠ id) (input : outpoint ∈ spends tx)
      (taken : outpoint ∈ spends other) : IsConflicted transactions chain id
  | inherited {id : Uint256} {tx : CTransaction} {outpoint : COutPoint}
      (own : transactions id = some tx) (input : outpoint ∈ spends tx)
      (ancestor : IsConflicted transactions chain outpoint.hash) :
      IsConflicted transactions chain id

def Contested (transactions : Uint256 → Option CTransaction) (chain : List CTransaction)
    (tx : CTransaction) : Prop :=
  ∃ outpoint ∈ spends tx, (∃ other ∈ chain, other.getHash ≠ tx.getHash ∧ outpoint ∈ spends other) ∨
    IsConflicted transactions chain outpoint.hash

def Closed (transactions : Uint256 → Option CTransaction) (conflicts : Uint256 → Prop) : Prop :=
  ∀ id tx, transactions id = some tx → ∀ outpoint ∈ spends tx,
    conflicts outpoint.hash → conflicts id

structure ValidChain (chain : List CTransaction) : Prop where
  distinct : (chain.map CTransaction.getHash).Nodup
  single : ∀ tx ∈ chain, ∀ other ∈ chain, ∀ outpoint ∈ spends tx, outpoint ∈ spends other →
    other.getHash = tx.getHash
  parents : ∀ tx ∈ chain, ∀ outpoint ∈ spends tx, ∃ parent ∈ chain, parent.getHash = outpoint.hash

def validChain (chain : List CTransaction) : Bool :=
  (chain.map CTransaction.getHash).Nodup &&
  (chain.all fun tx => chain.all fun other => (spends tx).all fun outpoint =>
    !(spends other).contains outpoint || other.getHash == tx.getHash) &&
  chain.all fun tx => (spends tx).all fun outpoint => chain.any fun parent =>
    parent.getHash == outpoint.hash

theorem validChain_iff (chain : List CTransaction) : validChain chain = true ↔ ValidChain chain := by
  simp only [validChain, Bool.and_eq_true, decide_eq_true_eq, all_eq_true, Bool.or_eq_true,
    Bool.not_eq_true', contains_eq_mem, decide_eq_false_iff_not, beq_iff_eq, any_eq_true]
  constructor
  · rintro ⟨⟨distinct, single⟩, parents⟩
    exact ⟨distinct, fun tx inside other inside' outpoint input taken =>
      (single tx inside other inside' outpoint input).resolve_left (not_not.mpr taken), parents⟩
  · intro valid
    exact ⟨⟨valid.distinct, fun tx inside other inside' outpoint input =>
      or_iff_not_imp_left.mpr fun taken =>
        valid.single tx inside other inside' outpoint input (not_not.mp taken)⟩, valid.parents⟩

instance (chain : List CTransaction) : Decidable (ValidChain chain) :=
  decidable_of_iff _ (validChain_iff chain)

/-- Transactions among which a hash determines the inputs, with no null input but a coinbase's. -/
structure Proper (known : CTransaction → Prop) : Prop where
  inputs : ∀ tx other, known tx → known other → tx.getHash = other.getHash → spends tx = spends other
  notNull : ∀ tx, known tx → ∀ outpoint ∈ spends tx, outpoint.isNull = false

section Conflicts

variable {transactions transactions' : Uint256 → Option CTransaction}
  {chain chain' : List CTransaction} {tx : CTransaction} {known : CTransaction → Prop}

theorem IsConflicted.mono (longer : ∀ tx ∈ chain, tx ∈ chain') {id : Uint256}
    (conflict : IsConflicted transactions chain id) : IsConflicted transactions chain' id := by
  induction conflict with
  | spent own confirmed different input taken =>
    exact .spent own (longer _ confirmed) different input taken
  | inherited own input _ ih => exact .inherited own input ih

theorem Contested.mono (longer : ∀ tx ∈ chain, tx ∈ chain')
    (contested : Contested transactions chain tx) : Contested transactions chain' tx := by
  obtain ⟨outpoint, input, ⟨other, confirmed, taken⟩ | ancestor⟩ := contested
  · exact ⟨outpoint, input, .inl ⟨other, longer _ confirmed, taken⟩⟩
  · exact ⟨outpoint, input, .inr (ancestor.mono longer)⟩

theorem closed_isConflicted : Closed transactions (IsConflicted transactions chain) :=
  fun _ _ own _ input ancestor => .inherited own input ancestor

theorem IsConflicted.least {conflicts : Uint256 → Prop} (closed : Closed transactions conflicts)
    (direct : ∀ id tx, transactions id = some tx → ∀ other ∈ chain, other.getHash ≠ id →
      ∀ outpoint ∈ spends tx, outpoint ∈ spends other → conflicts id) {id : Uint256}
    (conflict : IsConflicted transactions chain id) : conflicts id := by
  induction conflict with
  | spent own confirmed different input taken =>
    exact direct _ _ own _ confirmed different _ input taken
  | inherited own input _ ih => exact closed _ _ own _ input ih

theorem IsConflicted.own {id : Uint256} (conflict : IsConflicted transactions chain id) :
    ∃ tx, transactions id = some tx := by
  cases conflict with
  | spent own => exact ⟨_, own⟩
  | inherited own => exact ⟨_, own⟩

theorem IsConflicted.contested {stored : CTransaction}
    (own : transactions tx.getHash = some stored) (same : spends stored = spends tx)
    (conflict : IsConflicted transactions chain tx.getHash) : Contested transactions chain tx := by
  cases conflict with
  | spent own' confirmed different input taken =>
    rw [own] at own'
    cases own'
    rw [same] at input
    exact ⟨_, input, .inl ⟨_, confirmed, different, taken⟩⟩
  | inherited own' input ancestor =>
    rw [own] at own'
    cases own'
    rw [same] at input
    exact ⟨_, input, .inr ancestor⟩

theorem Contested.isConflicted (own : transactions tx.getHash = some tx)
    (contested : Contested transactions chain tx) : IsConflicted transactions chain tx.getHash := by
  obtain ⟨outpoint, input, ⟨other, confirmed, different, taken⟩ | ancestor⟩ := contested
  · exact .spent own confirmed different input taken
  · exact .inherited own input ancestor

theorem IsConflicted.of_store (others : ∀ id, id ≠ tx.getHash → transactions' id = transactions id)
    (inputs : ∀ stored, transactions' tx.getHash = some stored → spends stored = spends tx)
    (clear : ¬ Contested transactions chain tx) {id : Uint256}
    (conflict : IsConflicted transactions' chain id) : IsConflicted transactions chain id := by
  induction conflict with
  | @spent id stored other outpoint own confirmed different input taken =>
    by_cases current : id = tx.getHash
    · subst current
      rw [inputs _ own] at input
      exact absurd ⟨_, input, .inl ⟨_, confirmed, different, taken⟩⟩ clear
    · exact .spent ((others id current).symm.trans own) confirmed different input taken
  | @inherited id stored outpoint own input _ ih =>
    by_cases current : id = tx.getHash
    · subst current
      rw [inputs _ own] at input
      exact absurd ⟨_, input, .inr ih⟩ clear
    · exact .inherited ((others id current).symm.trans own) input ih

theorem isConflicted_store {stored : CTransaction}
    (others : ∀ id, id ≠ tx.getHash → transactions' id = transactions id)
    (own : transactions' tx.getHash = some stored) (same : spends stored = spends tx)
    (before : ∀ old, transactions tx.getHash = some old → spends old = spends tx)
    (clear : ¬ Contested transactions chain tx) (id : Uint256) :
    IsConflicted transactions' chain id ↔ IsConflicted transactions chain id := by
  have forth {id : Uint256} : IsConflicted transactions' chain id → IsConflicted transactions chain id :=
    IsConflicted.of_store others (fun _ own' => Option.some.inj (own.symm.trans own') ▸ same) clear
  refine ⟨forth, IsConflicted.of_store (fun id other => (others id other).symm) before ?_⟩
  rintro ⟨outpoint, input, taken⟩
  exact clear ⟨outpoint, input, taken.imp_right forth⟩

section

variable (proper : Proper known) (valid : ValidChain chain) (chain_known : ∀ tx ∈ chain, known tx)
  (own_known : ∀ id tx, transactions id = some tx → known tx ∧ tx.getHash = id)
  (confirmed : tx ∈ chain)
include proper valid chain_known own_known confirmed

theorem not_isConflicted_of_confirmed : ¬ IsConflicted transactions chain tx.getHash := by
  intro conflict
  obtain ⟨id, same⟩ : ∃ id, id = tx.getHash := ⟨_, rfl⟩
  rw [← same] at conflict
  induction conflict generalizing tx with
  | spent own confirmed' different input taken =>
    obtain ⟨stored_known, stored_hash⟩ := own_known _ _ own
    rw [proper.inputs _ _ stored_known (chain_known _ confirmed) (stored_hash.trans same)] at input
    exact different ((valid.single _ confirmed _ confirmed' _ input taken).trans same.symm)
  | inherited own input _ ih =>
    obtain ⟨stored_known, stored_hash⟩ := own_known _ _ own
    rw [proper.inputs _ _ stored_known (chain_known _ confirmed) (stored_hash.trans same)] at input
    obtain ⟨parent, inside, parent_hash⟩ := valid.parents _ confirmed _ input
    exact ih inside parent_hash.symm

theorem not_contested_of_confirmed : ¬ Contested transactions chain tx := by
  rintro ⟨outpoint, input, ⟨other, inside, different, taken⟩ | ancestor⟩
  · exact different (valid.single _ confirmed _ inside _ input taken)
  · obtain ⟨parent, inside, parent_hash⟩ := valid.parents _ confirmed _ input
    rw [← parent_hash] at ancestor
    exact not_isConflicted_of_confirmed proper valid chain_known own_known inside ancestor

end

end Conflicts

namespace CWallet

variable {wallet : CWallet}

def transaction (wallet : CWallet) (id : Uint256) : Option CTransaction :=
  (wallet.find id).map CWalletTx.tx

theorem find_hash {id : Uint256} {wtx : CWalletTx} (found : wallet.find id = some wtx) :
    wtx.tx.getHash = id := by
  simpa using find?_some found

theorem find_map (change : CWalletTx → CWalletTx)
    (keeps : ∀ wtx, (change wtx).tx.getHash = wtx.tx.getHash) (id : Uint256) :
    find { wallet with mapWallet := wallet.mapWallet.map change } id =
      (wallet.find id).map change := by
  have same : (fun wtx : CWalletTx => wtx.tx.getHash == id) ∘ change =
      fun wtx => wtx.tx.getHash == id := by
    funext wtx
    rw [Function.comp_apply, keeps]
  unfold find
  rw [find?_map, same]

theorem find_update (hash : Uint256) (change : CWalletTx → CWalletTx)
    (keeps : ∀ wtx, wtx.tx.getHash = hash → (change wtx).tx.getHash = hash) (id : Uint256) :
    (wallet.update hash change).find id =
      if id = hash then (wallet.find id).map change else wallet.find id := by
  unfold update
  rw [find_map]
  · cases found : wallet.find id with
    | none => simp
    | some wtx =>
      have own := find_hash found
      by_cases current : id = hash
      · simp [current, own]
      · simp [current, own]
  · intro wtx
    split
    next own => rw [keeps wtx own, own]
    · rfl

theorem update_absent {hash : Uint256} (absent : wallet.find hash = none)
    (change : CWalletTx → CWalletTx) : wallet.update hash change = wallet := by
  have unchanged : wallet.mapWallet.map
      (fun wtx => if wtx.tx.getHash = hash then change wtx else wtx) = wallet.mapWallet := by
    conv_rhs => rw [← map_id wallet.mapWallet]
    apply map_congr_left
    intro wtx inside
    have other := find?_eq_none.mp absent wtx inside
    rw [if_neg (by simpa using other)]
    rfl
  rw [update, unchanged]

theorem find_setState (hash : Uint256) (state : TxState) (id : Uint256) :
    (wallet.setState hash state).find id =
      if id = hash then (wallet.find id).map fun wtx => { wtx with state } else wallet.find id := by
  apply find_update
  intro wtx own
  exact own

theorem mem_hashes {id : Uint256} :
    id ∈ wallet.mapWallet.map (fun wtx => wtx.tx.getHash) ↔ ∃ wtx, wallet.find id = some wtx := by
  rw [← Option.isSome_iff_exists, find, find?_isSome]
  simp

end CWallet

end Qogecoin.Wallet
