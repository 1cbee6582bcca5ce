import Qogecoin.Script.Interpreter

/-! `OP_CHECKMULTISIG` looks for an assignment of its signatures to keys, in order. Its loop takes
the first key that a signature is valid for. -/
namespace Qogecoin.Script

open Codec List EStateM ScriptNum

section

variable {α β : Type} {R : α → β → Prop} {a : α} {b : β} {as : List α} {bs : List β}

theorem SublistForall₂.length_le (assigned : SublistForall₂ R as bs) : as.length ≤ bs.length := by
  obtain ⟨chosen, related, sub⟩ := sublistForall₂_iff.mp assigned
  rw [related.length_eq]
  exact sub.length_le

/-- What is assigned to the first key may as well be left out. -/
theorem SublistForall₂.tail (assigned : SublistForall₂ R (a :: as) bs) : SublistForall₂ R as bs := by
  obtain ⟨chosen, related, sub⟩ := sublistForall₂_iff.mp assigned
  cases related with
  | cons _ rest => exact sublistForall₂_iff.mpr ⟨_, rest, (sublist_cons_self _ _).trans sub⟩

/-- It is never wrong to assign the first key to the first signature it fits. -/
theorem sublistForall₂_cons_of_fits (fits : R a b) :
    SublistForall₂ R (a :: as) (b :: bs) ↔ SublistForall₂ R as bs := by
  constructor
  · intro assigned
    cases assigned with
    | cons _ rest => exact rest
    | cons_right later => exact SublistForall₂.tail later
  · exact .cons fits

theorem sublistForall₂_cons_of_not_fits (unfit : ¬R a b) :
    SublistForall₂ R (a :: as) (b :: bs) ↔ SublistForall₂ R (a :: as) bs := by
  constructor
  · intro assigned
    cases assigned with
    | cons fits _ => exact absurd fits unfit
    | cons_right later => exact later
  · exact .cons_right

end

section

variable {σ α β : Type}

/-- From every state the computation ends without an error. -/
def Returns (x : Eval σ α) (P : α → Prop) : Prop := ∀ s, ∃ a s', x s = .ok a s' ∧ P a

theorem Returns.pure {a : α} {P : α → Prop} (holds : P a) : Returns (pure a : Eval σ α) P :=
  fun s => ⟨a, s, rfl, holds⟩

theorem Returns.bind {x : Eval σ α} {f : α → Eval σ β} {P : α → Prop} {Q : β → Prop}
    (head : Returns x P) (rest : ∀ a, P a → Returns (f a) Q) : Returns (x >>= f) Q := by
  intro s
  obtain ⟨a, s', returned, holds⟩ := head s
  simp only [Bind.bind, EStateM.bind, returned]
  exact rest a holds s'

theorem returns_failIf {c : Prop} [Decidable c] {serror : ScriptError} (passes : ¬c) :
    Returns (failIf c serror : Eval σ Unit) fun _ => True := by
  rw [failIf_neg passes]
  exact .pure trivial

variable {stack rest : List Bytes} {i : Nat}

theorem returns_stacktop {vch : Bytes} (found : stack.drop (i - 1) = vch :: rest) :
    Returns (stacktop stack i : Eval σ Bytes) (· = vch) := by
  have here : stack[i - 1]? = some vch := by
    rw [← head?_drop, found]
    rfl
  rw [stacktop, here]
  exact .pure rfl

theorem returns_needs {n : Nat} (enough : n ≤ stack.length) :
    Returns (needs stack n : Eval σ Unit) fun _ => True :=
  returns_failIf (not_lt.mpr enough)

theorem returns_scriptNum {vch : Bytes} {fRequireMinimal : Bool} {nMaxNumSize : Nat} {n : Int}
    (read : ofBytes vch fRequireMinimal nMaxNumSize = some n) :
    Returns (scriptNum vch fRequireMinimal nMaxNumSize : Eval σ Int) (· = n) := by
  rw [scriptNum, read]
  exact .pure rfl

theorem returns_popArguments {flags : Flags} {fSuccess : Bool} {arguments : List Bytes}
    {ikey2 : Nat} (nullFail : fSuccess = false → .nullFail ∈ flags →
      ∀ vch ∈ arguments.drop ikey2, vch = []) :
    Returns (popArguments flags fSuccess arguments.length ikey2 (arguments ++ rest) :
      Eval σ (List Bytes)) (· = rest) := by
  induction arguments generalizing ikey2 with
  | nil => exact .pure rfl
  | cons vch arguments ih =>
    refine (returns_stacktop (i := 1) rfl).bind fun top same => ?_
    subst same
    refine (returns_failIf ?_).bind fun _ _ => ?_
    · rintro ⟨failed, active, rfl, long⟩
      exact long (nullFail failed active top mem_cons_self)
    refine (Returns.pure (P := (· = arguments ++ rest)) rfl).bind fun _ same => same ▸ ih ?_
    intro failed active vch later
    refine nullFail failed active vch ?_
    cases ikey2 with
    | zero => exact mem_cons_of_mem _ later
    | succ ikey2 => exact later

theorem drop_next {vch : Bytes} (positive : 0 < i) (found : stack.drop (i - 1) = vch :: rest) :
    stack.drop (i + 1 - 1) = rest := by
  rw [show i + 1 - 1 = i - 1 + 1 by omega, ← drop_drop, found]
  rfl

/-- What `OP_CHECKMULTISIG` takes from the stack, the top first, with counts that it accepts. -/
structure MultiSigArguments (flags : Flags) where
  vchKeys : Bytes
  keys : List Bytes
  vchSigs : Bytes
  sigs : List Bytes
  dummy : Bytes
  keys_count : ofBytes vchKeys (decide (.minimalData ∈ flags))
    nDefaultMaxNumSize = some (keys.length : Int)
  sigs_count : ofBytes vchSigs (decide (.minimalData ∈ flags))
    nDefaultMaxNumSize = some (sigs.length : Int)
  few_keys : keys.length ≤ maxPubKeysPerMultiSig
  few_sigs : sigs.length ≤ keys.length

namespace MultiSigArguments

variable {flags : Flags} (arguments : MultiSigArguments flags) (rest : List Bytes)

def counted : List Bytes :=
  arguments.vchKeys :: (arguments.keys ++ arguments.vchSigs :: arguments.sigs)

def all : List Bytes :=
  arguments.counted ++ [arguments.dummy]

theorem length_counted :
    arguments.counted.length = 2 + arguments.keys.length + 1 + arguments.sigs.length - 1 := by
  simp only [counted, length_cons, length_append]
  omega

theorem length_all :
    arguments.all.length = arguments.keys.length + arguments.sigs.length + 3 := by
  rw [all, length_append, length_counted, length_singleton]
  omega

theorem drop_counted :
    arguments.counted.drop (arguments.keys.length + 2) = arguments.sigs := by
  simp [counted, drop_append]

theorem drop_keys : (arguments.all ++ rest).drop (2 - 1) =
    arguments.keys ++ arguments.vchSigs :: (arguments.sigs ++ arguments.dummy :: rest) := by
  simp [all, counted]

theorem drop_count : (arguments.all ++ rest).drop (2 + arguments.keys.length - 1) =
    arguments.vchSigs :: (arguments.sigs ++ arguments.dummy :: rest) := by
  rw [show 2 + arguments.keys.length - 1 = arguments.keys.length + 1 by omega]
  simp [all, counted]

theorem drop_sigs : (arguments.all ++ rest).drop (2 + arguments.keys.length + 1 - 1) =
    arguments.sigs ++ arguments.dummy :: rest :=
  drop_next (by omega) (arguments.drop_count rest)

theorem getInt_keys :
    getInt (arguments.keys.length : Int) = arguments.keys.length := by
  have := arguments.few_keys
  unfold getInt maxPubKeysPerMultiSig at *
  omega

theorem getInt_sigs :
    getInt (arguments.sigs.length : Int) = arguments.sigs.length := by
  have := arguments.few_keys
  have := arguments.few_sigs
  unfold getInt maxPubKeysPerMultiSig at *
  omega

end MultiSigArguments

variable (flags : Flags) (sigversion : SigVersion)

def multiSigScriptCode (sigs : List Bytes) (scriptCode : Bytes) : Bytes :=
  sigs.foldl (fun code sig =>
    if sigversion = .base then (findAndDelete code (pushBytes sig)).2 else code) scriptCode

theorem findAndDelete_of_zero {script b : Bytes} (none : (findAndDelete script b).1 = 0) :
    (findAndDelete script b).2 = script := by
  simp only [findAndDelete] at none ⊢
  split_ifs at none ⊢ with empty found
  · rfl
  · exact absurd found (by omega)
  · rfl

theorem returns_dropSignatures (sigs : List Bytes) (isig : Nat) (scriptCode : Bytes)
    (positive : 0 < isig) (found : stack.drop (isig - 1) = sigs ++ rest)
    (unused : sigversion = .base → .constScriptCode ∈ flags →
      ∀ sig ∈ sigs, (findAndDelete scriptCode (pushBytes sig)).1 = 0) :
    Returns (dropSignatures flags sigversion stack sigs.length isig scriptCode : Eval σ Bytes)
      (· = multiSigScriptCode sigversion sigs scriptCode) := by
  induction sigs generalizing isig scriptCode with
  | nil => exact .pure rfl
  | cons sig sigs ih =>
    refine (returns_stacktop found).bind fun vchSig same => ?_
    subst same
    refine Returns.bind (P := (· = multiSigScriptCode sigversion [vchSig] scriptCode)) ?_ ?_
    · unfold dropSignature multiSigScriptCode
      by_cases base : sigversion = .base
      · rw [if_pos base]
        refine (returns_failIf ?_).bind fun _ _ => .pure ?_
        · rintro ⟨deleted, active⟩
          exact deleted.ne' (unused base active vchSig mem_cons_self)
        · simp [base]
      · rw [if_neg base]
        exact .pure (by simp [base])
    · rintro _ rfl
      refine ih (isig + 1) _ (by omega) (drop_next positive found) ?_
      intro base active sig later
      have kept : multiSigScriptCode sigversion [vchSig] scriptCode = scriptCode := by
        simp [multiSigScriptCode, base, findAndDelete_of_zero (unused base active _ mem_cons_self)]
      rw [kept]
      exact unused base active sig (mem_cons_of_mem _ later)

variable [Crypto] {checker : BaseSignatureChecker σ} {accepts : Bytes → Bytes → Bytes → Bool}

def Decides (checker : BaseSignatureChecker σ) (sigversion : SigVersion)
    (accepts : Bytes → Bytes → Bytes → Bool) : Prop :=
  ∀ vchSig vchPubKey scriptCode s, ∃ s',
    checker.checkECDSASignature vchSig vchPubKey scriptCode sigversion s =
      .ok (accepts vchSig vchPubKey scriptCode) s'

/-- The pairs of a signature and a key that the loop looks at. -/
def examined (accepts : Bytes → Bytes → Bool) : List Bytes → List Bytes → List (Bytes × Bytes)
  | key :: keys, sig :: sigs =>
    let left := if accepts sig key then sigs else sig :: sigs
    (sig, key) :: if left.length > keys.length then [] else examined accepts keys left
  | _, _ => []

def Encoded (σ : Type) (flags : Flags) (sigversion : SigVersion) (pair : Bytes × Bytes) : Prop :=
  checkSignatureEncoding pair.1 flags = (pure () : Eval σ Unit) ∧
    checkPubKeyEncoding pair.2 flags sigversion = (pure () : Eval σ Unit)

theorem returns_matchSignatures (decides : Decides checker sigversion accepts) (scriptCode : Bytes)
    {others : List Bytes} (keys sigs : List Bytes) (ikey isig : Nat)
    (ikey_pos : 0 < ikey) (isig_pos : 0 < isig)
    (at_keys : stack.drop (ikey - 1) = keys ++ rest)
    (at_sigs : stack.drop (isig - 1) = sigs ++ others)
    (encoded : ∀ pair ∈ examined (accepts · · scriptCode) keys sigs,
      Encoded σ flags sigversion pair) :
    Returns (matchSignatures flags checker sigversion scriptCode stack keys.length sigs.length ikey
        isig) fun fSuccess => fSuccess = true ↔
      SublistForall₂ (fun sig key => accepts sig key scriptCode = true) sigs keys := by
  induction keys generalizing sigs ikey isig with
  | nil =>
    cases sigs with
    | nil =>
      rw [length_nil, matchSignatures]
      exact .pure ⟨fun _ => .nil, fun _ => rfl⟩
    | cons sig sigs =>
      rw [length_nil, length_cons, matchSignatures]
      exact .pure ⟨nofun, fun assigned => absurd (SublistForall₂.length_le assigned) (by simp)⟩
  | cons key keys ih =>
    cases sigs with
    | nil =>
      rw [length_nil, matchSignatures]
      exact .pure ⟨fun _ => .nil, fun _ => rfl⟩
    | cons sig sigs =>
      rw [examined] at encoded
      obtain ⟨⟨sigEncoded, keyEncoded⟩, later⟩ := forall_mem_cons.mp encoded
      rw [length_cons, length_cons, matchSignatures]
      refine (returns_stacktop at_sigs).bind fun vchSig same => ?_
      subst same
      refine (returns_stacktop at_keys).bind fun vchPubKey same => ?_
      subst same
      rw [sigEncoded, pure_bind, keyEncoded, pure_bind]
      have asked : Returns (checker.checkECDSASignature vchSig vchPubKey scriptCode sigversion)
          (· = accepts vchSig vchPubKey scriptCode) := by
        intro s
        obtain ⟨s', answered⟩ := decides vchSig vchPubKey scriptCode s
        exact ⟨_, s', answered, rfl⟩
      refine asked.bind fun fOk same => ?_
      subst same
      -- the assignment that is left to find, for the keys behind this one
      have step : ∀ left index, stack.drop (index - 1) = left ++ others → 0 < index →
          (∀ pair ∈ if left.length > keys.length then []
            else examined (accepts · · scriptCode) keys left, Encoded σ flags sigversion pair) →
          Returns (if left.length > keys.length then pure false else
            matchSignatures flags checker sigversion scriptCode stack keys.length left.length
              (ikey + 1) index) fun fSuccess => fSuccess = true ↔
            SublistForall₂ (fun sig key => accepts sig key scriptCode = true) left keys := by
        intro left index found positive encoded
        split_ifs at encoded ⊢ with few
        · exact .pure ⟨nofun, fun assigned =>
            absurd (SublistForall₂.length_le assigned) (not_le.mpr few)⟩
        · exact ih left (ikey + 1) index (by omega) positive (drop_next ikey_pos at_keys) found
            encoded
      cases fOk : accepts vchSig vchPubKey scriptCode with
      | true =>
        simp only [fOk, if_true] at later
        simp only [if_true,
          sublistForall₂_cons_of_fits (R := fun sig key => accepts sig key scriptCode = true) fOk]
        exact step sigs (isig + 1) (drop_next isig_pos at_sigs) (by omega) later
      | false =>
        have unfit : ¬accepts vchSig vchPubKey scriptCode = true := by rw [fOk]; nofun
        simp only [fOk, Bool.false_eq_true, if_false] at later
        simp only [Bool.false_eq_true, if_false,
          sublistForall₂_cons_of_not_fits (R := fun sig key => accepts sig key scriptCode = true)
            unfit]
        exact step (vchSig :: sigs) isig at_sigs isig_pos later

variable {flags sigversion}

/-- The signatures can be assigned to keys, in order. -/
def MultiSigArguments.Matched (arguments : MultiSigArguments flags) (sigversion : SigVersion)
    (accepts : Bytes → Bytes → Bytes → Bool) (pbegincodehash : Bytes) : Prop :=
  SublistForall₂ (fun sig key =>
    accepts sig key (multiSigScriptCode sigversion arguments.sigs pbegincodehash) = true)
    arguments.sigs arguments.keys

/-- None of the rules that stop the opcode applies: no encoding that is looked at is refused, the
dummy and the signatures of a failure are empty where they have to be, there are not too many
operations, and the script does not push a signature where that is forbidden. -/
structure MultiSigArguments.Unobstructed (σ : Type) (arguments : MultiSigArguments flags)
    (sigversion : SigVersion) (accepts : Bytes → Bytes → Bytes → Bool) (pbegincodehash : Bytes)
    (nOpCount : Nat) : Prop where
  encodings : ∀ pair ∈ examined
    (accepts · · (multiSigScriptCode sigversion arguments.sigs pbegincodehash))
    arguments.keys arguments.sigs, Encoded σ flags sigversion pair
  nullDummy : .nullDummy ∈ flags → arguments.dummy = []
  nullFail : .nullFail ∈ flags →
    arguments.Matched sigversion accepts pbegincodehash ∨ ∀ sig ∈ arguments.sigs, sig = []
  opCount : nOpCount + arguments.keys.length ≤ maxOpsPerScript
  scriptCode : sigversion = .base → .constScriptCode ∈ flags →
    ∀ sig ∈ arguments.sigs, (findAndDelete pbegincodehash (pushBytes sig)).1 = 0

theorem checkMultiSig_decides_matchings (arguments : MultiSigArguments flags)
    (version : sigversion = .base ∨ sigversion = .witnessV0)
    (decides : Decides checker sigversion accepts) {pbegincodehash : Bytes} {nOpCount : Nat}
    (free : arguments.Unobstructed σ sigversion accepts pbegincodehash nOpCount)
    (rest : List Bytes) (s : σ) :
    arguments.all.length = arguments.keys.length + arguments.sigs.length + 3 ∧
    ∃ fSuccess s', evalCheckMultiSig flags checker sigversion false pbegincodehash nOpCount
        (arguments.all ++ rest) s =
          .ok (vchBool fSuccess :: rest, nOpCount + arguments.keys.length) s' ∧
      (fSuccess = true ↔ arguments.Matched sigversion accepts pbegincodehash) := by
  refine ⟨arguments.length_all, ?_⟩
  have size : (arguments.all ++ rest).length =
      arguments.keys.length + arguments.sigs.length + 3 + rest.length := by
    rw [length_append, arguments.length_all]
  have few_keys := arguments.few_keys
  have few_sigs := arguments.few_sigs
  have legacy : ¬sigversion = .tapscript := by
    rintro rfl
    exact version.elim nofun nofun
  have returns : Returns (evalCheckMultiSig flags checker sigversion false pbegincodehash nOpCount
      (arguments.all ++ rest)) fun out => ∃ fSuccess,
        out = (vchBool fSuccess :: rest, nOpCount + arguments.keys.length) ∧
          (fSuccess = true ↔ arguments.Matched sigversion accepts pbegincodehash) := by
    refine (returns_failIf legacy).bind fun _ _ => ?_
    refine (returns_needs (by omega)).bind fun _ _ => ?_
    refine (returns_stacktop (i := 1) rfl).bind ?_
    rintro _ rfl
    refine (returns_scriptNum arguments.keys_count).bind ?_
    rintro _ rfl
    rw [arguments.getInt_keys, Int.toNat_natCast]
    refine (returns_failIf (by omega)).bind fun _ _ => ?_
    refine (returns_failIf (not_lt.mpr free.opCount)).bind fun _ _ => ?_
    refine (returns_needs (by omega)).bind fun _ _ => ?_
    refine (returns_stacktop (arguments.drop_count rest)).bind ?_
    rintro _ rfl
    refine (returns_scriptNum arguments.sigs_count).bind ?_
    rintro _ rfl
    rw [arguments.getInt_sigs, Int.toNat_natCast]
    refine (returns_failIf (by omega)).bind fun _ _ => ?_
    refine (returns_needs (by omega)).bind fun _ _ => ?_
    refine (returns_dropSignatures flags sigversion arguments.sigs _ _ (by omega)
      (arguments.drop_sigs rest) free.scriptCode).bind ?_
    rintro _ rfl
    refine (returns_matchSignatures flags sigversion decides _ arguments.keys arguments.sigs 2 _
      (by omega) (by omega) (arguments.drop_keys rest) (arguments.drop_sigs rest)
      free.encodings).bind fun fSuccess decided => ?_
    rw [← arguments.length_counted, MultiSigArguments.all, append_assoc]
    refine (returns_popArguments ?_).bind ?_
    · intro failed active
      rw [arguments.drop_counted]
      exact (free.nullFail active).resolve_left fun matched =>
        Bool.false_ne_true (failed.symm.trans (decided.mpr matched))
    rintro _ rfl
    refine (returns_needs (by simp)).bind fun _ _ => ?_
    refine (returns_stacktop (i := 1) rfl).bind ?_
    rintro _ rfl
    refine (returns_failIf fun long => long.2 (free.nullDummy long.1)).bind fun _ _ => ?_
    exact .pure ⟨fSuccess, rfl, decided⟩
  obtain ⟨_, s', returned, fSuccess, rfl, decided⟩ := returns s
  exact ⟨fSuccess, s', returned, decided⟩

end

def BaseSignatureChecker.answering (accepts : Bytes → Bytes → Bytes → Bool) :
    BaseSignatureChecker Unit :=
  { BaseSignatureChecker.rejecting with
    checkECDSASignature := fun sig key scriptCode _ => pure (accepts sig key scriptCode) }

theorem decides_answering (accepts : Bytes → Bytes → Bytes → Bool) (sigversion : SigVersion) :
    Decides (.answering accepts) sigversion accepts := fun _ _ _ _ => ⟨(), rfl⟩

/-- Every key has one signature, and it looks the same. -/
def sameBytes (sig key _ : Bytes) : Bool := sig = key

/-- The first and the last of three keys have signed. -/
def twoOfThree : MultiSigArguments {.constScriptCode} where
  vchKeys := [3]
  keys := [[7], [8], [9]]
  vchSigs := [2]
  sigs := [[7], [9]]
  dummy := []
  keys_count := by decide
  sigs_count := by decide
  few_keys := by decide
  few_sigs := by decide

theorem skipMatches_self {b : Bytes} (nonempty : b ≠ []) : skipMatches b b = (1, []) := by
  rw [skipMatches, if_pos ⟨nonempty, prefix_rfl⟩, drop_length, skipMatches,
    if_neg fun same => nonempty (prefix_nil.mp same.2)]

theorem findAndDelete_self {b : Bytes} (nonempty : b ≠ []) : findAndDelete b b = (1, []) := by
  have deleted : deleteFrom b b = (1, []) := by
    rw [deleteFrom]
    split
    · exact skipMatches_self nonempty
    next op read =>
      rw [skipMatches_self nonempty] at read
      cases read
  rw [findAndDelete, if_neg nonempty, deleted]
  rfl

/-- A signature that the script itself pushes stops the opcode, and so does the number of keys when
the script has had many operations, with no encoding, dummy or null-fail rule switched on. -/
theorem scriptCode_and_opCount_stop_checkMultiSig :
    let _ := Crypto.firstBytes
    let checker := BaseSignatureChecker.answering sameBytes
    Decides checker .base sameBytes ∧
    evalCheckMultiSig {.constScriptCode} checker .base false (pushBytes [7]) 1 twoOfThree.all () =
      .error (.fail .sigFindAndDelete) () ∧
    evalCheckMultiSig {.constScriptCode} checker .base false [Op.checkMultiSig] 199 twoOfThree.all () =
      .error (.fail .opCount) () := by
  intro _
  have dropped : (dropSignature {.constScriptCode} .base [7] (pushBytes [7]) : Eval Unit Bytes) =
      fail .sigFindAndDelete := by
    rw [dropSignature, if_pos rfl, findAndDelete_self (by decide)]
    rfl
  refine ⟨decides_answering _ _, ?_, rfl⟩
  -- up to this call the opcode computes
  change bind
    (bind (dropSignature {.constScriptCode} .base [7] (pushBytes [7])) _) _ () = _
  rw [dropped]
  rfl

theorem deleteFrom_checkMultiSig {b : Bytes} (long : 1 < b.length) :
    (deleteFrom b [Op.checkMultiSig]).1 = 0 := by
  have kept : ∀ pc : Bytes, pc.length ≤ 1 → skipMatches b pc = (0, pc) := by
    intro pc short
    rw [skipMatches, if_neg fun same => absurd same.2.length_le (by omega)]
  have at_end : deleteFrom b [] = (0, []) := by
    rw [deleteFrom, kept [] (by simp)]
    rfl
  rw [deleteFrom, kept [_] (by simp)]
  exact (Nat.zero_add _).trans (congrArg Prod.fst at_end)

theorem twoOfThree_matched :
    let _ := Crypto.firstBytes
    ∃ s', evalCheckMultiSig {.constScriptCode} (.answering sameBytes) .base false
      [Op.checkMultiSig] 1 (twoOfThree.all ++ [[4]]) () = .ok ([vchTrue, [4]], 4) s' := by
  intro _
  have unused : ∀ sig ∈ twoOfThree.sigs,
      (findAndDelete [Op.checkMultiSig] (pushBytes sig)).1 = 0 := by
    intro sig mem
    have long : ∀ sig ∈ twoOfThree.sigs, 1 < (pushBytes sig).length := by decide
    rw [findAndDelete, if_neg fun empty => absurd (empty ▸ long sig mem) (by simp)]
    simp only [deleteFrom_checkMultiSig (long sig mem), gt_iff_lt, lt_irrefl, if_false]
  have encoded : ∀ pair, Encoded Unit {.constScriptCode} .base pair := by
    rintro ⟨sig, key⟩
    refine ⟨?_, rfl⟩
    unfold checkSignatureEncoding
    split <;> rfl
  have matched : twoOfThree.Matched .base sameBytes [Op.checkMultiSig] :=
    .cons rfl (.cons_right (.cons rfl .nil))
  have free : twoOfThree.Unobstructed Unit .base sameBytes [Op.checkMultiSig] 1 := {
    encodings := fun pair _ => encoded pair
    nullDummy := fun _ => rfl
    nullFail := fun _ => .inl matched
    opCount := by decide
    scriptCode := fun _ _ => unused }
  obtain ⟨-, fSuccess, s', returned, decided⟩ :=
    checkMultiSig_decides_matchings twoOfThree (.inl rfl) (decides_answering _ _) free [[4]] ()
  rw [decided.mpr matched] at returned
  exact ⟨s', returned⟩

end Qogecoin.Script
