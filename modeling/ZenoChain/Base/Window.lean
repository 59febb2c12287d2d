/-
# Sliding windows

Arrivals are accepted unless they are among the last accepted ones, up to a fixed number.  The
window of these has no repetition, though the history of all that were accepted may have some.
-/
import Mathlib.Data.List.DropRight
import Mathlib.Data.List.Nodup

namespace ZenoChain.Window

variable {α : Type} [DecidableEq α] {n : ℕ} {history : List α} {a : α}

/-- The accepted arrivals after one more arrival. -/
def accept (n : ℕ) (history : List α) (a : α) : List α :=
  if a ∈ history.rtake n then history else history ++ [a]

omit [DecidableEq α] in
lemma length_rtake_le (n : ℕ) (l : List α) : (l.rtake n).length ≤ n := by
  rw [List.rtake, List.length_drop]
  omega

omit [DecidableEq α] in
/-- For the window after an arrival, the window before it is enough. -/
lemma rtake_concat (n : ℕ) (l : List α) (a : α) :
    (l ++ [a]).rtake n = (l.rtake n ++ [a]).rtake n := by
  cases n with
  | zero => rw [List.rtake_zero, List.rtake_zero]
  | succ n =>
    rw [List.rtake_concat_succ, List.rtake_concat_succ]
    congr 1
    rw [List.rtake, List.rtake, List.rtake, List.drop_drop, List.length_drop]
    congr 1
    omega

/-- Only a new element enters the window. -/
lemma nodup_accept (h : (history.rtake n).Nodup) : ((accept n history a).rtake n).Nodup := by
  rw [accept]
  split
  · exact h
  · rename_i hnew
    rw [rtake_concat]
    exact (List.nodup_append.mpr ⟨h, List.nodup_singleton a, by grind⟩).sublist
      (List.drop_sublist _ _)

end ZenoChain.Window
