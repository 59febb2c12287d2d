/-
# Computations that may panic

A computation of the source returns a value, returns an error, or panics: an index out of range, an
overflow in a build that checks for it, an iterator over a range that ends before it starts.
-/
import Mathlib.Logic.Basic

namespace ZenoChain

/-- How a computation ends. -/
inductive Outcome (ε α : Type)
  | ok (value : α)
  | error (reason : ε)
  | panic
deriving DecidableEq, Repr

namespace Outcome

variable {ε α β : Type}

instance : Monad (Outcome ε) where
  pure := ok
  bind
    | ok a, f => f a
    | error e, _ => error e
    | panic, _ => panic

/-- The computation returns, with a value or an error. -/
def Returns (x : Outcome ε α) : Prop := x ≠ panic

instance [DecidableEq ε] [DecidableEq α] (x : Outcome ε α) : Decidable x.Returns :=
  inferInstanceAs (Decidable (x ≠ panic))

/-- The value, if one is returned. -/
def value? : Outcome ε α → Option α
  | ok a => some a
  | _ => none

/-- An optional value, or an error. -/
def ofOption (reason : ε) : Option α → Outcome ε α
  | some a => ok a
  | none => error reason

@[simp] lemma pure_eq (a : α) : (pure a : Outcome ε α) = ok a := rfl

@[simp] lemma ok_bind (a : α) (f : α → Outcome ε β) : (ok a >>= f) = f a := rfl

@[simp] lemma error_bind (e : ε) (f : α → Outcome ε β) : (error e >>= f) = error e := rfl

@[simp] lemma panic_bind (f : α → Outcome ε β) : (panic >>= f) = panic := rfl

@[simp] lemma returns_ok (a : α) : (ok a : Outcome ε α).Returns := nofun

@[simp] lemma returns_error (e : ε) : (error e : Outcome ε α).Returns := nofun

@[simp] lemma not_returns_panic : ¬ (panic : Outcome ε α).Returns := fun h => h rfl

@[simp] lemma returns_ofOption (e : ε) (o : Option α) : (ofOption e o).Returns := by
  cases o <;> exact nofun

@[simp] lemma ofOption_eq_ok_iff {e : ε} {o : Option α} {a : α} :
    ofOption e o = ok a ↔ o = some a := by
  cases o <;> simp [ofOption]

lemma bind_eq_ok_iff {x : Outcome ε α} {f : α → Outcome ε β} {b : β} :
    (x >>= f) = ok b ↔ ∃ a, x = ok a ∧ f a = ok b := by
  cases x <;> simp

/-- A sequence returns exactly if its first part does and, after a value, its second part. -/
lemma returns_bind_iff {x : Outcome ε α} {f : α → Outcome ε β} :
    (x >>= f).Returns ↔ x.Returns ∧ ∀ a, x = ok a → (f a).Returns := by
  cases x <;> simp

end Outcome

end ZenoChain
