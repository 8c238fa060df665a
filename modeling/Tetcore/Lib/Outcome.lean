import Mathlib.Logic.Basic

/-!
# Outcomes of a call that can panic

A call of a Rust function either returns `Ok`, returns `Err`, or panics (a failed `assert!`, an
index past the end of a slice, an overflow in a debug build). `Outcome ε α` records which, so that
"never panics" is a statement about the value a model computes.
-/

/-- How a call ends: with a value, with an error it returns, or with a panic. -/
inductive Outcome (ε α : Type)
  | ok (value : α)
  | err (error : ε)
  | panic
  deriving DecidableEq, Repr

namespace Outcome

variable {ε α β : Type}

def ofExcept : Except ε α → Outcome ε α
  | .ok a => .ok a
  | .error e => .err e

def bind : Outcome ε α → (α → Outcome ε β) → Outcome ε β
  | .ok a, f => f a
  | .err e, _ => .err e
  | .panic, _ => .panic

instance : Monad (Outcome ε) where
  pure := .ok
  bind := Outcome.bind

theorem pure_eq (a : α) : (pure a : Outcome ε α) = .ok a := rfl

theorem bind_eq (o : Outcome ε α) (f : α → Outcome ε β) : o >>= f = o.bind f := rfl

/-- The state after a call that returns the new state, leaves the state as it was when it returns
an error, and aborts the run when it panics. -/
def after {σ : Type} (o : Outcome ε σ) (s : σ) : Option σ :=
  match o with
  | .ok s' => some s'
  | .err _ => some s
  | .panic => none

/-- `Result::expect`: an error panics. -/
def expect {ε' : Type} : Outcome ε α → Outcome ε' α
  | .ok a => .ok a
  | _ => .panic

/-- `Result::map_err`. -/
def mapErr {ε' : Type} (f : ε → ε') : Outcome ε α → Outcome ε' α
  | .ok a => .ok a
  | .err e => .err (f e)
  | .panic => .panic

/-- The outcome without its value. -/
def erase (o : Outcome ε α) : Outcome ε Unit :=
  o.bind fun _ => .ok ()

@[simp]
theorem ofExcept_ne_panic (x : Except ε α) : ofExcept x ≠ .panic := by
  cases x <;> simp [ofExcept]

@[simp]
theorem ofExcept_eq_ok {x : Except ε α} {a : α} : ofExcept x = .ok a ↔ x = .ok a := by
  cases x <;> simp [ofExcept]

@[simp]
theorem ok_bind (a : α) (f : α → Outcome ε β) : (ok a).bind f = f a := rfl

theorem bind_eq_ok {o : Outcome ε α} {f : α → Outcome ε β} {b : β} :
    o.bind f = .ok b ↔ ∃ a, o = .ok a ∧ f a = .ok b := by
  cases o <;> simp [bind]

theorem bind_eq_panic {o : Outcome ε α} {f : α → Outcome ε β} :
    o.bind f = .panic ↔ o = .panic ∨ ∃ a, o = .ok a ∧ f a = .panic := by
  cases o <;> simp [bind]

@[simp]
theorem expect_ok {ε' : Type} (a : α) : (expect (ok a : Outcome ε α) : Outcome ε' α) = .ok a :=
  rfl

@[simp]
theorem erase_eq_err {o : Outcome ε α} {e : ε} : o.erase = .err e ↔ o = .err e := by
  cases o <;> simp [erase, bind]

theorem foldlM_invariant {σ : Type} (f : σ → α → Outcome ε σ) (P : List α → σ → Prop)
    (hstep : ∀ a as s, P (a :: as) s → ∃ s', f s a = .ok s' ∧ P as s') :
    ∀ (as : List α) (s : σ), P as s → ∃ s', as.foldlM f s = .ok s' ∧ P [] s' := by
  intro as
  induction as with
  | nil => intro s hs; exact ⟨s, rfl, hs⟩
  | cons a as ih =>
    intro s hs
    obtain ⟨s₁, hf, hs₁⟩ := hstep a as s hs
    obtain ⟨s₂, hfold, hs₂⟩ := ih s₁ hs₁
    refine ⟨s₂, ?_, hs₂⟩
    rw [List.foldlM_cons, bind_eq, hf, ok_bind, hfold]

end Outcome
