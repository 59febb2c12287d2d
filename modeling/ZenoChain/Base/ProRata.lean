/-
# Division in proportion

A pool is divided in proportion to some weights, every share rounded down.  The shares do not
exceed the pool, and what remains of it is less than their number.
-/
import Mathlib.Algebra.BigOperators.Group.List.Lemmas
import Mathlib.Algebra.Order.Ring.Nat
import Mathlib.Tactic.Ring

namespace ZenoChain.ProRata

/-- The share of a weight out of a total. -/
def share (pool total weight : ℕ) : ℕ := pool * weight / total

variable {total : ℕ}

/-- Multiplied by the total, the shares make up the part of the weights in the pool, up to
the remainders of the divisions. -/
lemma mul_sum_share (pool : ℕ) (htotal : 0 < total) (weights : List ℕ) :
    total * (weights.map (share pool total)).sum ≤ pool * weights.sum ∧
      pool * weights.sum + weights.length ≤
        total * (weights.map (share pool total)).sum + weights.length * total := by
  induction weights with
  | nil => simp
  | cons w weights ih =>
    have hdiv := Nat.div_add_mod (pool * w) total
    have hmod := Nat.mod_lt (pool * w) htotal
    simp only [List.map_cons, List.sum_cons, List.length_cons, Nat.mul_add, Nat.add_mul, share,
      Nat.one_mul] at ih ⊢
    omega

variable {weights : List ℕ}

theorem sum_share_le (pool : ℕ) (htotal : 0 < weights.sum) :
    (weights.map (share pool weights.sum)).sum ≤ pool := by
  have h := (mul_sum_share pool htotal weights).1
  rw [Nat.mul_comm pool] at h
  exact Nat.le_of_mul_le_mul_left h htotal

theorem lt_sum_share (pool : ℕ) (htotal : 0 < weights.sum) :
    pool < (weights.map (share pool weights.sum)).sum + weights.length := by
  have h := (mul_sum_share pool htotal weights).2
  have hpos : 0 < weights.length := by
    rcases weights with _ | ⟨w, weights⟩
    · exact absurd htotal (by simp)
    · simp
  refine Nat.lt_of_mul_lt_mul_left (a := weights.sum) ?_
  rw [Nat.mul_add, Nat.mul_comm weights.sum weights.length, Nat.mul_comm weights.sum pool]
  omega

end ZenoChain.ProRata
