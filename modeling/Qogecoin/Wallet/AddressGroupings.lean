import Qogecoin.Wallet.Transactions

/-! `GetAddressGroupings`: the addresses of a wallet that its transactions link. Overlapping groups
are merged through a map from addresses to pointers at the groups that hold them. -/
namespace Qogecoin.Wallet

open List Relation

/-- What the language leaves open: where a new set is put while those of `live` are in use, and in
which order the sets that were inserted in a set are visited. -/
structure Choices (Dest : Type) where
  alloc : Finset Nat → Nat
  fresh : ∀ live, alloc live ∉ live
  order : List (Finset Dest) → List (Finset Dest)
  mem_order : ∀ {sets group}, group ∈ order sets ↔ group ∈ sets

/-- `heap` is read at the pointers of `uniqueGroupings` only: the others are deleted or never were
in use. -/
structure Groupings (Dest : Type) where
  heap : Nat → Finset Dest
  uniqueGroupings : Finset Nat
  setmap : Dest → Option Nat

variable {Dest : Type} [DecidableEq Dest]

namespace Groupings

/-- The round of the loop for one group; reading a deleted set is a failure. -/
def merge (choices : Choices Dest) (s : Groupings Dest) (grouping : Finset Dest) :
    Option (Groupings Dest) :=
  let hits := grouping.biUnion fun address => (s.setmap address).toFinset
  let pointer := choices.alloc s.uniqueGroupings
  let merged := grouping ∪ hits.biUnion s.heap
  if hits ⊆ s.uniqueGroupings then
    some
      { heap := Function.update s.heap pointer merged
        uniqueGroupings := insert pointer (s.uniqueGroupings \ hits)
        setmap := fun element => if element ∈ merged then some pointer else s.setmap element }
  else none

/-- What the groups put together is related by `r`, and they hold those that were seen. -/
structure Inv (r : Dest → Dest → Prop) (seen : List (Finset Dest)) (s : Groupings Dest) : Prop where
  owner : ∀ a p, s.setmap a = some p ↔ p ∈ s.uniqueGroupings ∧ a ∈ s.heap p
  linked : ∀ a b p, s.setmap a = some p → s.setmap b = some p → r a b
  covers : ∀ group ∈ seen, ∀ a ∈ group, ∀ b ∈ group, ∃ p, s.setmap a = some p ∧ s.setmap b = some p

variable {r : Dest → Dest → Prop} (joins : ∀ a b c d, r a c → r c d → r b d → r a b)
  {seen : List (Finset Dest)} {s : Groupings Dest} (choices : Choices Dest)

include joins

theorem Inv.merge (inv : Inv r seen s) {group : Finset Dest}
    (one : ∀ a ∈ group, ∀ b ∈ group, r a b) :
    ∃ s', s.merge choices group = some s' ∧ Inv r (seen ++ [group]) s' := by
  have fresh := choices.fresh s.uniqueGroupings
  have live : ∀ a, s.setmap a ≠ some (choices.alloc s.uniqueGroupings) :=
    fun a found => fresh ((inv.owner a _).mp found).1
  rw [Groupings.merge]
  generalize choices.alloc s.uniqueGroupings = pointer at live ⊢
  generalize same : (group.biUnion fun a => (s.setmap a).toFinset) = hits
  have hit : ∀ p, p ∈ hits ↔ ∃ b ∈ group, s.setmap b = some p := by simp [← same]
  have inside : hits ⊆ s.uniqueGroupings := by
    intro p touched
    obtain ⟨a, _, found⟩ := (hit p).mp touched
    exact ((inv.owner a p).mp found).1
  have member : ∀ a, a ∈ group ∪ hits.biUnion s.heap ↔
      a ∈ group ∨ ∃ p ∈ hits, s.setmap a = some p := by
    intro a
    rw [Finset.mem_union, Finset.mem_biUnion]
    refine or_congr_right (exists_congr fun p => and_congr_right fun touched => ?_)
    rw [inv.owner, and_iff_right (inside touched)]
  rw [if_pos inside]
  refine ⟨_, rfl, ?_⟩
  generalize group ∪ hits.biUnion s.heap = merged at member ⊢
  -- a group that is kept is merged as a whole or not at all
  have whole : ∀ a p, s.setmap a = some p → (a ∈ merged ↔ p ∈ hits) := by grind
  have near : ∀ a ∈ merged, ∃ b ∈ group, r a b := by grind [Inv.linked]
  clear same
  constructor
  · intro a p
    dsimp only
    by_cases new : p = pointer
    · subst new
      by_cases inside : a ∈ merged <;> simp [inside, live]
    · rw [Function.update_of_ne new, Finset.mem_insert, or_iff_right new, Finset.mem_sdiff,
        and_right_comm, ← inv.owner]
      grind
  · have linked := inv.linked
    grind
  · have covers := inv.covers
    grind

/-- The loop over the groups; it starts with nothing merged. -/
def mergeAll (choices : Choices Dest) (groups : List (Finset Dest)) : Option (Groupings Dest) :=
  groups.foldlM (merge choices) ⟨fun _ => ∅, ∅, fun _ => none⟩

theorem exists_mergeAll {groups : List (Finset Dest)}
    (one : ∀ group ∈ groups, ∀ a ∈ group, ∀ b ∈ group, r a b) :
    ∃ s, mergeAll choices groups = some s ∧ Inv r groups s := by
  induction groups using reverseRecOn with
  | nil => exact ⟨_, rfl, by constructor <;> simp⟩
  | append_singleton groups group ih =>
    obtain ⟨s, before, inv⟩ := ih fun g member => one g (mem_append_left _ member)
    obtain ⟨next, merged, inv⟩ := inv.merge joins choices (one group (by simp))
    refine ⟨next, ?_, inv⟩
    rw [mergeAll] at before ⊢
    rw [foldlM_append, before]
    show (foldlM (merge choices) s [group]) = some next
    rw [foldlM_cons, merged]
    rfl

end Groupings

/-- What the wallet asks of its keys, its address book and `ExtractDestination`. -/
structure Ownership (Dest : Type) where
  isMine : CTxOut → Bool
  findAddressBookEntry : Dest → Bool
  extractDestination : CTxOut → Option Dest

namespace CWallet

variable [Crypto] (wallet : CWallet) (own : Ownership Dest)

def previousOutput (txin : CTxIn) : Option CTxOut := do
  let prev ← wallet.find txin.prevout.hash
  prev.tx.vout[txin.prevout.n.toNat]?

def outputIsChange (own : Ownership Dest) (txout : CTxOut) : Bool :=
  own.isMine txout && (own.extractDestination txout).all (!own.findAddressBookEntry ·)

def ownAddresses (own : Ownership Dest) (outputs : List CTxOut) : List Dest :=
  (outputs.filter own.isMine).filterMap own.extractDestination

def grouping (tx : CTransaction) : List Dest :=
  let inputs := ownAddresses own (tx.vin.filterMap wallet.previousOutput)
  if inputs.isEmpty then []
  else inputs ++ (tx.vout.filter (outputIsChange own)).filterMap own.extractDestination

/-- The sets inserted in `groupings`, transaction by transaction. -/
def groupings : List (Finset Dest) :=
  wallet.mapWallet.flatMap fun wtx =>
    let grouping := (wallet.grouping own wtx.tx).toFinset
    (if grouping.card > 0 then [grouping] else []) ++
      (ownAddresses own wtx.tx.vout).map fun address => {address}

def getAddressGroupings (choices : Choices Dest) : Option (Finset (Finset Dest)) := do
  let s ← Groupings.mergeAll choices (choices.order (wallet.groupings own))
  return s.uniqueGroupings.image s.heap

def Linked (a b : Dest) : Prop :=
  ∃ wtx ∈ wallet.mapWallet, a ∈ wallet.grouping own wtx.tx ∧ b ∈ wallet.grouping own wtx.tx

def Occurs (a : Dest) : Prop :=
  ∃ wtx ∈ wallet.mapWallet, ∃ txout ∈ wtx.tx.vout, own.isMine txout ∧
    own.extractDestination txout = some a

/-- Addresses of the wallet that a chain of its transactions links. -/
def Connected (a b : Dest) : Prop :=
  Occurs wallet own a ∧ Occurs wallet own b ∧ EqvGen (Linked wallet own) a b

variable {wallet own} {a b : Dest} {group : Finset Dest}

omit [DecidableEq Dest] [Crypto] in
theorem mem_ownAddresses {outputs : List CTxOut} : a ∈ ownAddresses own outputs ↔
    ∃ txout ∈ outputs, own.isMine txout ∧ own.extractDestination txout = some a := by
  simp [ownAddresses, and_assoc]

omit [DecidableEq Dest] in
theorem occurs_of_mem {wtx : CWalletTx} (known : wtx ∈ wallet.mapWallet)
    (inside : a ∈ wallet.grouping own wtx.tx) : Occurs wallet own a := by
  simp only [grouping] at inside
  split at inside
  · cases inside
  · rcases mem_append.mp inside with input | change
    · obtain ⟨txout, spent, mine⟩ := mem_ownAddresses.mp input
      obtain ⟨txin, _, previous⟩ := mem_filterMap.mp spent
      obtain ⟨prev, stored, at_n⟩ := Option.bind_eq_some_iff.mp previous
      exact ⟨prev, mem_of_find?_eq_some stored, txout, mem_of_getElem? at_n, mine⟩
    · obtain ⟨txout, output, address⟩ := mem_filterMap.mp change
      obtain ⟨member, mine⟩ := mem_filter.mp output
      exact ⟨wtx, known, txout, member, (Bool.and_eq_true_iff.mp mine).1, address⟩

theorem connected_of_mem (inserted : group ∈ wallet.groupings own) (ina : a ∈ group)
    (inb : b ∈ group) : Connected wallet own a b := by
  obtain ⟨wtx, known, member⟩ := mem_flatMap.mp inserted
  rcases mem_append.mp member with together | lone
  · split at together
    · cases mem_singleton.mp together
      rw [mem_toFinset] at ina inb
      exact ⟨occurs_of_mem known ina, occurs_of_mem known inb, .rel a b ⟨wtx, known, ina, inb⟩⟩
    · cases together
  · obtain ⟨c, mine, rfl⟩ := mem_map.mp lone
    cases Finset.mem_singleton.mp ina
    cases Finset.mem_singleton.mp inb
    have occurs : Occurs wallet own a := ⟨wtx, known, mem_ownAddresses.mp mine⟩
    exact ⟨occurs, occurs, .refl a⟩

theorem Linked.exists_mem (linked : Linked wallet own a b) :
    ∃ group ∈ wallet.groupings own, a ∈ group ∧ b ∈ group := by
  obtain ⟨wtx, known, ina, inb⟩ := linked
  have ina := mem_toFinset.mpr ina
  refine ⟨_, mem_flatMap.mpr ⟨wtx, known, mem_append_left _ ?_⟩, ina, mem_toFinset.mpr inb⟩
  rw [if_pos (Finset.card_pos.mpr ⟨a, ina⟩)]
  exact mem_singleton_self _

theorem Occurs.exists_mem (occurs : Occurs wallet own a) :
    ∃ group ∈ wallet.groupings own, a ∈ group := by
  obtain ⟨wtx, known, mine⟩ := occurs
  exact ⟨{a}, mem_flatMap.mpr ⟨wtx, known, mem_append_right _
    (mem_map_of_mem (mem_ownAddresses.mpr mine))⟩, by simp⟩

end CWallet

end Qogecoin.Wallet
