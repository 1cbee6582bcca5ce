import Qogecoin.Script.Simulation
import Qogecoin.Util.CuckooCache

/-! `CSignatureCache` and `CachingTransactionSignatureChecker`: valid signatures are remembered by a
hash of everything that went into their verification. The two kinds of signatures share a table. -/
namespace Qogecoin.Script

open Codec CuckooCache List Crypto

/-- What is fixed when the cache is set up. `finalize` is the hash of an entry; its values, which
are of type `uint256` in the code, may be of any type. -/
structure CSignatureCache (κ : Type) where
  nonce : Uint256
  finalize : Bytes → κ
  setValid : Shape κ

namespace CSignatureCache

def paddingECDSA : Bytes := 0x45 :: replicate 31 0

def paddingSchnorr : Bytes := 0x53 :: replicate 31 0

variable {κ : Type} (self : CSignatureCache κ)

def computeEntryECDSA (hash : Uint256) (vchSig pubkey : Bytes) : κ :=
  self.finalize (self.nonce.bytes ++ paddingECDSA ++ hash.bytes ++ pubkey ++ vchSig)

def computeEntrySchnorr (hash : Uint256) (sig pubkey : Bytes) : κ :=
  self.finalize (self.nonce.bytes ++ paddingSchnorr ++ hash.bytes ++ pubkey ++ sig)

variable [DecidableEq κ]

def get (entry : κ) (erase : Bool) : Eval (Cache self.setValid) Bool := fun cache =>
  .ok (cache.contains entry erase).1 (cache.contains entry erase).2

def set (entry : κ) : Eval (Cache self.setValid) Unit := fun cache => .ok () (cache.insert entry)

/-- Either method of `CachingTransactionSignatureChecker`; `valid` is the answer of the method it
overrides. -/
def verify (store : Bool) (entry : κ) (valid : Bool) : Eval (Cache self.setValid) Bool := do
  let found ← self.get entry (!store)
  if found then pure true
  else if valid = false then pure false
  else do
    onlyIf (store = true) (self.set entry)
    pure true

variable [Crypto]

def verifyECDSASignature (store : Bool) (vchSig pubkey : Bytes) (sighash : Uint256) :
    Eval (Cache self.setValid) Bool :=
  self.verify store (self.computeEntryECDSA sighash vchSig pubkey)
    (verifyECDSA pubkey sighash vchSig)

def verifySchnorrSignature (store : Bool) (sig pubkey : Bytes) (sighash : Uint256) :
    Eval (Cache self.setValid) Bool :=
  self.verify store (self.computeEntrySchnorr sighash sig pubkey)
    (verifySchnorr pubkey sighash sig)

end CSignatureCache

theorem isValidPubKey_split {key key' sig sig' : Bytes} (valid : isValidPubKey key = true)
    (valid' : isValidPubKey key' = true) (same : key ++ sig = key' ++ sig') :
    key = key' ∧ sig = sig' := by
  have lengths : key.length = key'.length := by
    cases key with
    | nil => cases valid
    | cons header rest =>
      cases key' with
      | nil => cases valid'
      | cons header' rest' =>
        have first : header = header' := by
          simpa using congrArg head? same
        simp only [isValidPubKey] at valid valid'
        grind
  exact append_inj same lengths

namespace CSignatureCache

variable {κ : Type} [Inhabited κ] [Crypto] (self : CSignatureCache κ)

/-- The hash of an entry has no collisions and never gives the element the table is filled with. -/
structure CollisionFree (finalize : Bytes → κ) : Prop where
  injective : Function.Injective finalize
  fresh : ∀ data, finalize data ≠ default

/-- An element the table may hold: the one it is filled with, or the entry of a valid signature. -/
inductive Justified : κ → Prop where
  | unused : Justified default
  | ecdsa (hash : Uint256) (vchSig pubkey : Bytes) (key : isValidPubKey pubkey = true)
      (valid : verifyECDSA pubkey hash vchSig = true) :
      Justified (self.computeEntryECDSA hash vchSig pubkey)
  | schnorr (hash : Uint256) (sig pubkey : Bytes) (key : pubkey.length = 32)
      (valid : verifySchnorr pubkey hash sig = true) :
      Justified (self.computeEntrySchnorr hash sig pubkey)

def Sound (cache : Cache self.setValid) : Prop := ∀ loc, self.Justified (cache.table loc)

theorem sound_setup : self.Sound (Cache.setup self.setValid) := fun _ => .unused

variable {self} (free : CollisionFree self.finalize)
include free

theorem Justified.ecdsa_valid {hash : Uint256} {vchSig pubkey : Bytes}
    (key : isValidPubKey pubkey = true)
    (held : self.Justified (self.computeEntryECDSA hash vchSig pubkey)) :
    verifyECDSA pubkey hash vchSig = true := by
  generalize computed : self.computeEntryECDSA hash vchSig pubkey = entry at held
  cases held with
  | unused => exact absurd computed (free.fresh _)
  | ecdsa hash' vchSig' pubkey' key' valid =>
    have strings := free.injective computed
    simp only [append_assoc, append_cancel_left_eq] at strings
    have hashes := append_inj strings (by rw [hash.size, hash'.size])
    obtain ⟨rfl, rfl⟩ := isValidPubKey_split key key' hashes.2
    cases (Uint256.bytes_injective hashes.1 : hash = hash')
    exact valid
  | schnorr hash' sig pubkey' key' valid =>
    have strings := free.injective computed
    simp [paddingECDSA, paddingSchnorr] at strings

theorem Justified.schnorr_valid {hash : Uint256} {sig pubkey : Bytes}
    (key : pubkey.length = 32)
    (held : self.Justified (self.computeEntrySchnorr hash sig pubkey)) :
    verifySchnorr pubkey hash sig = true := by
  generalize computed : self.computeEntrySchnorr hash sig pubkey = entry at held
  cases held with
  | unused => exact absurd computed (free.fresh _)
  | ecdsa hash' vchSig pubkey' key' valid =>
    have strings := free.injective computed
    simp [paddingECDSA, paddingSchnorr] at strings
  | schnorr hash' sig' pubkey' key' valid =>
    have strings := free.injective computed
    simp only [append_assoc, append_cancel_left_eq] at strings
    have hashes := append_inj strings (by rw [hash.size, hash'.size])
    have keys := append_inj hashes.2 (by rw [key, key'])
    cases (Uint256.bytes_injective hashes.1 : hash = hash')
    cases keys.1
    cases keys.2
    exact valid

omit free in
variable (self) in
def transparent : Correspondence (Cache self.setValid) Unit where
  related cache _ := self.Sound cache
  stopped cache _ := self.Sound cache
  stop _ _ sound := sound

omit free in
theorem verify_simulates [DecidableEq κ] (store : Bool) {entry : κ} {valid : Bool}
    (held : self.Justified entry → valid = true) (justified : valid = true → self.Justified entry) :
    Simulates self.transparent (self.verify store entry valid) (pure valid) := by
  intro cache _ sound
  have kept : self.Sound (cache.contains entry (!store)).2 := by
    intro loc
    rw [Cache.contains_table]
    exact sound loc
  have first : self.get entry (!store) cache =
      .ok (cache.contains entry (!store)).1 (cache.contains entry (!store)).2 := rfl
  unfold verify
  rw [EStateM.bind_of_ok first]
  by_cases found : (cache.contains entry (!store)).1 = true
  · have same := held (Cache.contains_holds sound found)
    rw [if_pos found, same]
    exact .ok _ _ _ kept
  · rw [if_neg found]
    cases valid with
    | false => exact .ok _ _ _ kept
    | true =>
      cases store with
      | false => exact .ok _ _ _ kept
      | true => exact .ok _ _ _ (Cache.insert_keeps kept (justified rfl))

theorem verifyECDSASignature_simulates [DecidableEq κ] (store : Bool) (vchSig : Bytes)
    {pubkey : Bytes} (sighash : Uint256) (key : isValidPubKey pubkey = true) :
    Simulates self.transparent (self.verifyECDSASignature store vchSig pubkey sighash)
      (pure (verifyECDSA pubkey sighash vchSig)) :=
  verify_simulates store (Justified.ecdsa_valid free key)
    (Justified.ecdsa sighash vchSig pubkey key)

theorem verifySchnorrSignature_simulates [DecidableEq κ] (store : Bool) (sig : Bytes)
    {pubkey : Bytes} (sighash : Uint256) (key : pubkey.length = 32) :
    Simulates self.transparent (self.verifySchnorrSignature store sig pubkey sighash)
      (pure (verifySchnorr pubkey sighash sig)) :=
  verify_simulates store (Justified.schnorr_valid free key)
    (Justified.schnorr sighash sig pubkey key)

end CSignatureCache

end Qogecoin.Script
