/-
# Machine words as bounded naturals

Unsigned machine integers of a fixed width are represented by natural numbers; what a
width changes is only the behaviour of an operation at the end of the range.  The
operations below are the four usual ones: clamping at the largest value, refusing, and
reducing modulo `2 ^ w`.
-/
import Mathlib.Algebra.Order.Ring.Nat
import Mathlib.Tactic.Ring

namespace ZenoChain.Word

/-- The largest value of an unsigned word of `w` bits. -/
def maxValue (w : ℕ) : ℕ := 2 ^ w - 1

/-- Addition that stays at the largest value. -/
def saturatingAdd (w a b : ℕ) : ℕ := min (a + b) (maxValue w)

/-- Subtraction that stays at zero. -/
def saturatingSub (a b : ℕ) : ℕ := a - b

/-- Multiplication that stays at the largest value. -/
def saturatingMul (w a b : ℕ) : ℕ := min (a * b) (maxValue w)

/-- Addition that refuses to leave the range. -/
def checkedAdd (w a b : ℕ) : Option ℕ := if a + b < 2 ^ w then some (a + b) else none

/-- Subtraction that refuses to go below zero. -/
def checkedSub (a b : ℕ) : Option ℕ := if b ≤ a then some (a - b) else none

/-- Addition modulo `2 ^ w`. -/
def wrappingAdd (w a b : ℕ) : ℕ := (a + b) % 2 ^ w

/-- Subtraction modulo `2 ^ w`. -/
def wrappingSub (w a b : ℕ) : ℕ := (a + (2 ^ w - b)) % 2 ^ w

variable {w a b c : ℕ}

lemma le_maxValue_iff : a ≤ maxValue w ↔ a < 2 ^ w := by
  have := Nat.two_pow_pos w
  rw [maxValue]
  omega

lemma saturatingAdd_of_lt (h : a + b < 2 ^ w) : saturatingAdd w a b = a + b :=
  Nat.min_eq_left (le_maxValue_iff.mpr h)

lemma saturatingAdd_le : saturatingAdd w a b ≤ a + b := Nat.min_le_left _ _

lemma saturatingMul_le : saturatingMul w a b ≤ a * b := Nat.min_le_left _ _

lemma checkedAdd_of_lt (h : a + b < 2 ^ w) : checkedAdd w a b = some (a + b) := by
  rw [checkedAdd, if_pos h]

lemma checkedAdd_of_not_lt (h : ¬ a + b < 2 ^ w) : checkedAdd w a b = none := by
  rw [checkedAdd, if_neg h]

lemma checkedSub_eq_some_iff : checkedSub a b = some c ↔ b ≤ a ∧ c = a - b := by
  rw [checkedSub]
  split <;> simp_all [eq_comm]

lemma checkedSub_of_le (h : b ≤ a) : checkedSub a b = some (a - b) := by
  rw [checkedSub, if_pos h]

lemma wrappingAdd_of_lt (h : a + b < 2 ^ w) : wrappingAdd w a b = a + b := Nat.mod_eq_of_lt h

lemma wrappingSub_of_le (h : b ≤ a) (ha : a < 2 ^ w) : wrappingSub w a b = a - b := by
  have hsum : a + (2 ^ w - b) = a - b + 2 ^ w := by omega
  rw [wrappingSub, hsum, Nat.add_mod_right, Nat.mod_eq_of_lt (by omega)]

end ZenoChain.Word
