import Mathlib.Logic.Basic

/-! Programs that reach their state only through the commands of an interface. A handler runs such
a program on a concrete state. A specification of the commands gives its weakest preconditions over
an abstract state, and a handler that keeps a relation to the abstract state makes the second sound
for the first. -/
namespace Commands

inductive Result (φ ε α : Type) where
  | returned (a : α)
  | rejected (e : ε)
  | crashed (f : φ)
deriving DecidableEq, Repr

structure Interface where
  Command : Type
  Reply : Command → Type

inductive Program (I : Interface) (φ ε α : Type) where
  | ret (r : Result φ ε α)
  | call (c : I.Command) (next : I.Reply c → Program I φ ε α)

variable {I : Interface} {φ ε ε' α β σ S : Type}

structure Ends (φ ε : Type) where
  rejects : ε → Prop
  crashes : φ → Prop

namespace Ends

def never : Ends φ ε := ⟨fun _ => False, fun _ => False⟩

def onlyCrashes (crashes : φ → Prop) : Ends φ ε := ⟨fun _ => True, crashes⟩

end Ends

namespace Result

def bind : Result φ ε α → (α → Result φ ε β) → Result φ ε β
  | returned a, f => f a
  | rejected e, _ => rejected e
  | crashed f, _ => crashed f

instance : Monad (Result φ ε) where
  pure := returned
  bind := bind

def adapt (g : ε → ε') : Result φ ε α → Result φ ε' α
  | returned a => returned a
  | rejected e => rejected (g e)
  | crashed f => crashed f

def rejectIf (c : Prop) [Decidable c] (e : ε) : Result φ ε Unit :=
  if c then rejected e else returned ()

def assertThat (c : Prop) [Decidable c] (f : φ) : Result φ ε Unit :=
  if c then returned () else crashed f

def any (p : α → Bool) : Result φ ε α → Bool
  | returned a => p a
  | _ => false

variable {x : Result φ ε α}

theorem exists_of_any {p : α → Bool} (ok : x.any p = true) : ∃ a, x = returned a ∧ p a = true := by
  cases x with
  | returned a => exact ⟨a, rfl, ok⟩
  | rejected e => cases ok
  | crashed f => cases ok

/-- Returning implies `post`, not returning implies `ends`. -/
def Sat (post : α → Prop) (ends : Ends φ ε) : Result φ ε α → Prop
  | returned a => post a
  | rejected e => ends.rejects e
  | crashed f => ends.crashes f

variable {post : α → Prop} {ends : Ends φ ε}

@[simp] theorem sat_pure (a : α) : (pure a : Result φ ε α).Sat post ends ↔ post a := Iff.rfl

@[simp] theorem sat_returned (a : α) : (returned a : Result φ ε α).Sat post ends ↔ post a := Iff.rfl

@[simp] theorem sat_rejected (e : ε) :
    (rejected e : Result φ ε α).Sat post ends ↔ ends.rejects e := Iff.rfl

@[simp] theorem sat_crashed (f : φ) :
    (crashed f : Result φ ε α).Sat post ends ↔ ends.crashes f := Iff.rfl

@[simp] theorem sat_bind (x : Result φ ε α) (f : α → Result φ ε β) (post : β → Prop) :
    (x >>= f).Sat post ends ↔ x.Sat (fun a => (f a).Sat post ends) ends := by
  cases x <;> rfl

@[simp] theorem sat_adapt (g : ε → ε') (x : Result φ ε α) (ends : Ends φ ε') :
    (x.adapt g).Sat post ends ↔ x.Sat post ⟨fun e => ends.rejects (g e), ends.crashes⟩ := by
  cases x <;> rfl

@[simp] theorem sat_rejectIf (c : Prop) [Decidable c] (e : ε) (post : Unit → Prop) :
    (rejectIf c e : Result φ ε Unit).Sat post ends ↔
      (c → ends.rejects e) ∧ (¬c → post ()) := by
  by_cases h : c <;> simp [rejectIf, h]

@[simp] theorem sat_assertThat (c : Prop) [Decidable c] (f : φ) (post : Unit → Prop) :
    (assertThat c f : Result φ ε Unit).Sat post ends ↔
      (¬c → ends.crashes f) ∧ (c → post ()) := by
  by_cases h : c <;> simp [assertThat, h]

theorem Sat.mono {post' : α → Prop} {ends' : Ends φ ε} (sat : x.Sat post ends)
    (returns : ∀ a, post a → post' a) (rejects : ∀ e, ends.rejects e → ends'.rejects e)
    (crashes : ∀ f, ends.crashes f → ends'.crashes f) : x.Sat post' ends' := by
  cases x with
  | returned a => exact returns a sat
  | rejected e => exact rejects e sat
  | crashed f => exact crashes f sat

theorem Sat.imp {post' : α → Prop} (sat : x.Sat post ends) (returns : ∀ a, post a → post' a) :
    x.Sat post' ends :=
  sat.mono returns (fun _ h => h) fun _ h => h

theorem bind_eq_returned {f : α → Result φ ε β} {b : β} :
    x >>= f = returned b ↔ ∃ a, x = returned a ∧ f a = returned b := by
  cases x with
  | returned a | rejected e | crashed c => simp [Bind.bind, bind]

theorem adapt_eq_returned {g : ε → ε'} {a : α} :
    x.adapt g = returned a ↔ x = returned a := by
  cases x <;> simp [adapt]

theorem rejectIf_eq_returned {c : Prop} [Decidable c] {e : ε} {u : Unit} :
    (rejectIf c e : Result φ ε Unit) = returned u ↔ ¬c := by
  by_cases h : c <;> simp [rejectIf, h]

theorem assertThat_eq_returned {c : Prop} [Decidable c] {f : φ} {u : Unit} :
    (assertThat c f : Result φ ε Unit) = returned u ↔ c := by
  by_cases h : c <;> simp [assertThat, h]

end Result

namespace Program

def bind : Program I φ ε α → (α → Program I φ ε β) → Program I φ ε β
  | ret (.returned a), f => f a
  | ret (.rejected e), _ => ret (.rejected e)
  | ret (.crashed f), _ => ret (.crashed f)
  | call c next, f => call c fun r => (next r).bind f

instance : Monad (Program I φ ε) where
  pure a := ret (.returned a)
  bind := bind

def lift (r : Result φ ε α) : Program I φ ε α := ret r

def rejectIf (c : Prop) [Decidable c] (e : ε) : Program I φ ε Unit := lift (.rejectIf c e)

def assertThat (c : Prop) [Decidable c] (f : φ) : Program I φ ε Unit := lift (.assertThat c f)

def crash (f : φ) : Program I φ ε α := lift (.crashed f)

def perform (c : I.Command) : Program I φ ε (I.Reply c) := call c fun r => ret (.returned r)

def adapt (g : ε → ε') : Program I φ ε α → Program I φ ε' α
  | ret r => ret (r.adapt g)
  | call c next => call c fun r => (next r).adapt g

abbrev Handler (I : Interface) (φ σ : Type) := (c : I.Command) → σ → Except φ (I.Reply c × σ)

def run (handle : Handler I φ σ) : Program I φ ε α → σ → Result φ ε (α × σ)
  | ret (.returned a), s => .returned (a, s)
  | ret (.rejected e), _ => .rejected e
  | ret (.crashed f), _ => .crashed f
  | call c next, s =>
    match handle c s with
    | .ok (r, s') => run handle (next r) s'
    | .error f => .crashed f

theorem run_bind (handle : Handler I φ σ) (p : Program I φ ε α) (f : α → Program I φ ε β) (s : σ) :
    (p >>= f).run handle s =
      match p.run handle s with
      | .returned (a, s') => (f a).run handle s'
      | .rejected e => .rejected e
      | .crashed c => .crashed c := by
  show (p.bind f).run handle s = _
  induction p generalizing s with
  | ret r => cases r <;> rfl
  | call c next ih =>
    simp only [bind, run]
    cases handle c s with
    | error c => rfl
    | ok reply => exact ih reply.1 reply.2

variable {p : Program I φ ε α}

variable {handle : Handler I φ σ} {f : α → Program I φ ε β}

theorem run_bind_eq_returned {s t : σ} {b : β} :
    (p >>= f).run handle s = .returned (b, t) ↔
      ∃ a s', p.run handle s = .returned (a, s') ∧ (f a).run handle s' = .returned (b, t) := by
  rw [run_bind]
  cases p.run handle s with
  | returned out =>
    constructor
    · exact fun rest => ⟨out.1, out.2, rfl, rest⟩
    · rintro ⟨a, s', same, rest⟩
      cases same
      exact rest
  | rejected e => simp
  | crashed c => simp

/-- The precondition of each command, for a postcondition of its reply and the state it leaves. -/
structure Spec (I : Interface) (φ S : Type) where
  pre : (c : I.Command) → S → (I.Reply c → S → Prop) → (φ → Prop) → Prop
  mono : ∀ c s {post post' : I.Reply c → S → Prop} {crash crash' : φ → Prop},
    (∀ r t, post r t → post' r t) → (∀ f, crash f → crash' f) →
      pre c s post crash → pre c s post' crash'

def wp (spec : Spec I φ S) : Program I φ ε α → (α → S → Prop) → Ends φ ε → S → Prop
  | ret r, post, ends, s => r.Sat (fun a => post a s) ends
  | call c next, post, ends, s =>
    spec.pre c s (fun r t => (next r).wp spec post ends t) ends.crashes

variable {spec : Spec I φ S} {post : α → S → Prop} {ends : Ends φ ε} {s : S}

@[simp] theorem wp_pure (a : α) :
    (pure a : Program I φ ε α).wp spec post ends s ↔ post a s := Iff.rfl

@[simp] theorem wp_lift (r : Result φ ε α) :
    (lift r : Program I φ ε α).wp spec post ends s ↔ r.Sat (fun a => post a s) ends := Iff.rfl

@[simp] theorem wp_rejectIf (c : Prop) [Decidable c] (e : ε) (post : Unit → S → Prop) :
    (rejectIf c e : Program I φ ε Unit).wp spec post ends s ↔
      (c → ends.rejects e) ∧ (¬c → post () s) := Result.sat_rejectIf c e _

@[simp] theorem wp_assertThat (c : Prop) [Decidable c] (f : φ) (post : Unit → S → Prop) :
    (assertThat c f : Program I φ ε Unit).wp spec post ends s ↔
      (¬c → ends.crashes f) ∧ (c → post () s) := Result.sat_assertThat c f _

@[simp] theorem wp_bind (p : Program I φ ε α) (f : α → Program I φ ε β) (post : β → S → Prop) :
    (p >>= f).wp spec post ends s ↔ p.wp spec (fun a t => (f a).wp spec post ends t) ends s := by
  show (p.bind f).wp spec post ends s ↔ _
  induction p generalizing s with
  | ret r => cases r <;> rfl
  | call c next ih =>
    have same : (fun r t => ((next r).bind f).wp spec post ends t) =
        fun r t => (next r).wp spec (fun a u => (f a).wp spec post ends u) ends t := by
      funext r t
      exact propext (ih r)
    simp only [bind, wp, same]

@[simp] theorem wp_adapt (g : ε → ε') (p : Program I φ ε α) (ends : Ends φ ε') :
    (p.adapt g).wp spec post ends s ↔
      p.wp spec post ⟨fun e => ends.rejects (g e), ends.crashes⟩ s := by
  induction p generalizing s with
  | ret r => exact r.sat_adapt g ends
  | call c next ih =>
    have same : (fun r t => ((next r).adapt g).wp spec post ends t) =
        fun r t => (next r).wp spec post ⟨fun e => ends.rejects (g e), ends.crashes⟩ t := by
      funext r t
      exact propext (ih r)
    simp only [adapt, wp, same]

@[simp] theorem wp_ite (c : Prop) [Decidable c] (p q : Program I φ ε α) :
    (if c then p else q).wp spec post ends s ↔
      (c → p.wp spec post ends s) ∧ (¬c → q.wp spec post ends s) := by
  by_cases h : c <;> simp [h]

theorem wp_mono {post' : α → S → Prop} {ends' : Ends φ ε} (holds : p.wp spec post ends s)
    (returns : ∀ a t, post a t → post' a t) (rejects : ∀ e, ends.rejects e → ends'.rejects e)
    (crashes : ∀ f, ends.crashes f → ends'.crashes f) : p.wp spec post' ends' s := by
  induction p generalizing s with
  | ret r => exact Result.Sat.mono holds (fun a => returns a s) rejects crashes
  | call c next ih => exact spec.mono c s (fun r t => ih r) crashes holds

theorem wp_consequence {post' : α → S → Prop} (holds : p.wp spec post ends s)
    (returns : ∀ a t, post a t → post' a t) :
    p.wp spec post' ends s :=
  wp_mono holds returns (fun _ h => h) (fun _ h => h)

def Refines (handle : Handler I φ σ) (spec : Spec I φ S) (rel : σ → S → Prop) : Prop :=
  ∀ c s t (post : I.Reply c → S → Prop) (crash : φ → Prop),
    rel s t → spec.pre c t post crash →
      match handle c s with
      | .ok (r, s') => ∃ t', rel s' t' ∧ post r t'
      | .error f => crash f

variable {rel : σ → S → Prop}

theorem run_sat (refines : Refines handle spec rel) {s : σ} {t : S} (related : rel s t)
    (holds : p.wp spec post ends t) :
    (p.run handle s).Sat (fun out => ∃ t', rel out.2 t' ∧ post out.1 t') ends := by
  induction p generalizing s t with
  | ret r =>
    cases r with
    | returned a => exact ⟨t, related, holds⟩
    | rejected e => exact holds
    | crashed f => exact holds
  | call c next ih =>
    have step := refines c s t _ _ related holds
    simp only [run]
    cases result : handle c s with
    | error f =>
      rw [result] at step
      exact step
    | ok reply =>
      rw [result] at step
      obtain ⟨t', still, rest⟩ := step
      exact ih reply.1 still rest

theorem post_of_run (refines : Refines handle spec rel) {s s' : σ} {t : S} {a : α}
    (related : rel s t) (holds : p.wp spec post ends t)
    (returned : p.run handle s = .returned (a, s')) : ∃ t', rel s' t' ∧ post a t' := by
  have sat := run_sat refines related holds
  rw [returned] at sat
  exact sat

def Calls (P : I.Command → Prop) : Program I φ ε α → Prop
  | ret _ => True
  | call c next => P c ∧ ∀ r, (next r).Calls P

namespace Calls

variable {P : I.Command → Prop}

theorem lift (r : Result φ ε α) : (lift r : Program I φ ε α).Calls P := trivial

theorem pure (a : α) : (pure a : Program I φ ε α).Calls P := trivial

theorem perform {c : I.Command} (allowed : P c) : (perform c : Program I φ ε (I.Reply c)).Calls P :=
  ⟨allowed, fun _ => trivial⟩

theorem bind {f : α → Program I φ ε β} (first : p.Calls P) (rest : ∀ a, (f a).Calls P) :
    (p >>= f).Calls P := by
  induction p with
  | ret r =>
    cases r with
    | returned a => exact rest a
    | rejected e => trivial
    | crashed f => trivial
  | call c next ih => exact ⟨first.1, fun r => ih r (first.2 r)⟩

theorem adapt {g : ε → ε'} (calls : p.Calls P) : (p.adapt g).Calls P := by
  induction p with
  | ret r => trivial
  | call c next ih => exact ⟨calls.1, fun r => ih r (calls.2 r)⟩

theorem run_keeps {handle : Handler I φ σ} {keep : σ → Prop}
    (step : ∀ c s r s', P c → keep s → handle c s = .ok (r, s') → keep s') (calls : p.Calls P)
    {s s' : σ} {a : α} (start : keep s) (returned : p.run handle s = .returned (a, s')) :
    keep s' := by
  induction p generalizing s with
  | ret r =>
    cases r with
    | returned b =>
      cases returned
      exact start
    | rejected e | crashed f => cases returned
  | call c next ih =>
    simp only [run] at returned
    cases result : handle c s with
    | error f =>
      rw [result] at returned
      cases returned
    | ok reply =>
      rw [result] at returned
      exact ih reply.1 (calls.2 reply.1) (step c s reply.1 reply.2 calls.1 start result) returned

end Calls

/-- The program performs only commands with `P`, and ends as `ends` says if it does not return. -/
def Within (P : I.Command → Prop) (ends : Ends φ ε) : Program I φ ε α → Prop
  | ret r => r.Sat (fun _ => True) ends
  | call c next => P c ∧ ∀ r, (next r).Within P ends

namespace Within

variable {P : I.Command → Prop}

theorem pure (a : α) : (pure a : Program I φ ε α).Within P ends := trivial

theorem perform {c : I.Command} (allowed : P c) :
    (perform c : Program I φ ε (I.Reply c)).Within P ends := ⟨allowed, fun _ => trivial⟩

theorem lift {r : Result φ ε α} (safe : r.Sat (fun _ => True) ends) :
    (lift r : Program I φ ε α).Within P ends := safe

theorem assertThat (c : Prop) [Decidable c] {f : φ} (crashes : ends.crashes f) :
    (assertThat c f : Program I φ ε Unit).Within P ends :=
  (Result.sat_assertThat c f _).mpr ⟨fun _ => crashes, fun _ => trivial⟩

theorem bind {f : α → Program I φ ε β} (first : p.Within P ends)
    (rest : ∀ a, (f a).Within P ends) : (p >>= f).Within P ends := by
  induction p with
  | ret r =>
    cases r with
    | returned a => exact rest a
    | rejected e | crashed f => exact first
  | call c next ih => exact ⟨first.1, fun r => ih r (first.2 r)⟩

theorem adapt {g : ε → ε'} {ends' : Ends φ ε'} (rejects : ∀ e, ends.rejects e → ends'.rejects (g e))
    (crashes : ∀ f, ends.crashes f → ends'.crashes f) (within : p.Within P ends) :
    (p.adapt g).Within P ends' := by
  induction p with
  | ret r => exact (r.sat_adapt g ends').mpr (Result.Sat.mono within (fun _ h => h) rejects crashes)
  | call c next ih => exact ⟨within.1, fun r => ih r (within.2 r)⟩

theorem calls (within : p.Within P ends) : p.Calls P := by
  induction p with
  | ret r => trivial
  | call c next ih => exact ⟨within.1, fun r => ih r (within.2 r)⟩

/-- Commands that keep the state make programs that keep the state. -/
theorem wp (keeps : ∀ c s post crash, P c → (∀ r, post r s) → spec.pre c s post crash)
    (within : p.Within P ends) (s : S) : p.wp spec (fun _ t => t = s) ends s := by
  induction p with
  | ret r => exact Result.Sat.imp within fun _ _ => rfl
  | call c next ih => exact keeps c s _ _ within.1 fun r => ih r (within.2 r)

end Within

theorem run_keeps {keep : σ → Prop}
    (step : ∀ c s r s', keep s → handle c s = .ok (r, s') → keep s') {s s' : σ} {a : α}
    (start : keep s) (returned : p.run handle s = .returned (a, s')) : keep s' := by
  have any : p.Calls fun _ => True := by
    clear returned
    induction p with
    | ret r => trivial
    | call c next ih => exact ⟨trivial, ih⟩
  exact any.run_keeps (fun c s r s' _ => step c s r s') start returned

theorem run_returns (refines : Refines handle spec rel) {s : σ} {t : S} (related : rel s t)
    (holds : p.wp spec post Ends.never t) :
    ∃ a s' t', p.run handle s = .returned (a, s') ∧ rel s' t' ∧ post a t' := by
  have sat := run_sat refines related holds
  cases result : p.run handle s with
  | returned out =>
    rw [result] at sat
    obtain ⟨t', still, final⟩ := sat
    exact ⟨out.1, out.2, t', rfl, still, final⟩
  | rejected e | crashed f =>
    rw [result] at sat
    exact sat.elim

theorem run_lift_eq_returned {r : Result φ ε α} {s t : σ} {a : α} :
    (lift r).run handle s = .returned (a, t) ↔ r = .returned a ∧ s = t := by
  cases r <;> simp [lift, run]

theorem run_lift_bind_eq_returned {r : Result φ ε α} {s t : σ} {b : β} :
    (lift r >>= f).run handle s = .returned (b, t) ↔
      ∃ a, r = .returned a ∧ (f a).run handle s = .returned (b, t) := by
  simp [run_bind_eq_returned, run_lift_eq_returned, and_assoc]

theorem run_adapt (handle : Handler I φ σ) (g : ε → ε') (p : Program I φ ε α) (s : σ) :
    (p.adapt g).run handle s = (p.run handle s).adapt g := by
  induction p generalizing s with
  | ret r => cases r <;> rfl
  | call c next ih =>
    simp only [adapt, run]
    cases handle c s with
    | error f => rfl
    | ok reply => exact ih reply.1 reply.2

inductive Alike (R : α → β → σ → Prop) : Result φ ε (α × σ) → Result φ ε (β × σ) → Prop where
  | returned (a : α) (b : β) (s : σ) (related : R a b s) :
    Alike R (.returned (a, s)) (.returned (b, s))
  | rejected (e : ε) : Alike R (.rejected e) (.rejected e)
  | crashed (f : φ) : Alike R (.crashed f) (.crashed f)

def Matches (handle : Handler I φ σ) (R : α → β → σ → Prop) (p : Program I φ ε α)
    (q : Program I φ ε β) (s : σ) : Prop :=
  Alike R (p.run handle s) (q.run handle s)

namespace Matches

variable {γ δ : Type} {handle : Handler I φ σ} {R : α → β → σ → Prop} {s : σ}

theorem pure {a : α} {b : β} (related : R a b s) :
    Matches handle R (pure a : Program I φ ε α) (pure b) s := .returned a b s related

theorem same {R : α → α → σ → Prop} (holds : ∀ a s', p.run handle s = .returned (a, s') → R a a s') :
    Matches handle R p p s := by
  unfold Matches
  cases result : p.run handle s with
  | returned out => exact .returned out.1 out.1 out.2 (holds out.1 out.2 result)
  | rejected e => exact .rejected e
  | crashed f => exact .crashed f

variable {f : α → Program I φ ε γ}

theorem bind {q : Program I φ ε β} {g : β → Program I φ ε δ} {S : γ → δ → σ → Prop}
    (first : Matches handle R p q s) (rest : ∀ a b s', R a b s' → Matches handle S (f a) (g b) s') :
    Matches handle S (p >>= f) (q >>= g) s := by
  unfold Matches at first ⊢
  rw [run_bind, run_bind]
  generalize p.run handle s = left at first ⊢
  generalize q.run handle s = right at first ⊢
  cases first with
  | returned a b s' related => exact rest a b s' related
  | rejected e => exact .rejected e
  | crashed f => exact .crashed f

/-- A part the two programs have in common is run by both alike. -/
theorem bind_same {g : α → Program I φ ε δ} {S : γ → δ → σ → Prop}
    (rest : ∀ a s', p.run handle s = .returned (a, s') → Matches handle S (f a) (g a) s') :
    Matches handle S (p >>= f) (p >>= g) s := by
  refine bind (R := fun a b s' => a = b ∧ p.run handle s = .returned (a, s'))
    (same fun _ _ ran => ⟨rfl, ran⟩) ?_
  rintro a _ s' ⟨rfl, ran⟩
  exact rest a s' ran

theorem run_eq {p q : Program I φ ε α} (ends : Matches handle (fun a b _ => a = b) p q s) :
    p.run handle s = q.run handle s := by
  unfold Matches at ends
  generalize p.run handle s = left at ends ⊢
  generalize q.run handle s = right at ends ⊢
  cases ends with
  | returned a b s' same => rw [same]
  | rejected e => rfl
  | crashed f => rfl

end Matches

end Program

end Commands
