/-
# Settling in instalments

The elements of a queue become due at dates of their own.  At one date after the other, all that
are due by then are settled, in the order of the queue, and the others stay.  Whatever the dates
are, the same elements are settled as if all were done at the end; but they are settled in the order
of their instalments, so that it is an element of the last instalment that comes last.
-/
import Mathlib.Data.List.Perm.Basic
import Mathlib.Order.Lattice

namespace ZenoChain.Instalments

variable {α κ : Type} [LinearOrder κ] (key : α → κ)

/-- The instalment of an element: the first of the dates by which it is due. -/
def stage (dates : List κ) (a : α) : ℕ := dates.findIdx (key a ≤ ·)

/-- The elements that are due by one of the dates, in the order of the queue. -/
def due (dates : List κ) (queue : List α) : List α :=
  queue.filter fun a => stage key dates a < dates.length

/-- The elements that no date reaches, in the order of the queue. -/
def rest (dates : List κ) (queue : List α) : List α :=
  queue.filter fun a => ¬ stage key dates a < dates.length

/-- The elements of the last instalment that is not empty, in the order of the queue. -/
def latest (dates : List κ) (queue : List α) : List α :=
  (due key dates queue).filter fun a =>
    ∀ b ∈ due key dates queue, stage key dates b ≤ stage key dates a

/-- Settles what is due at one date after the other. -/
def settle : List κ → List α → List α
  | [], _ => []
  | date :: dates, queue =>
    queue.filter (key · ≤ date) ++ settle dates (queue.filter fun a => ¬ key a ≤ date)

variable {key} {date : κ} {dates : List κ} {queue : List α} {a : α}

/-! ## One date -/

lemma stage_cons_of_le (h : key a ≤ date) : stage key (date :: dates) a = 0 := by
  rw [stage, List.findIdx_cons, decide_eq_true h]
  rfl

lemma stage_cons_of_not_le (h : ¬ key a ≤ date) :
    stage key (date :: dates) a = stage key dates a + 1 := by
  rw [stage, List.findIdx_cons, decide_eq_false h]
  rfl

lemma stage_lt_cons_iff :
    stage key (date :: dates) a < (date :: dates).length ↔
      key a ≤ date ∨ stage key dates a < dates.length := by
  by_cases h : key a ≤ date
  · simp [stage_cons_of_le h, h]
  · simp [stage_cons_of_not_le h, h]

lemma stage_lt_iff : stage key dates a < dates.length ↔ ∃ date ∈ dates, key a ≤ date := by
  rw [stage, List.findIdx_lt_length]
  simp

/-- Of the elements that are due, those due by the first date are settled first. -/
lemma filter_due_cons (key : α → κ) (date : κ) (dates : List κ) (queue : List α) :
    (due key (date :: dates) queue).filter (key · ≤ date) = queue.filter (key · ≤ date) := by
  rw [due, List.filter_filter]
  refine List.filter_congr fun a _ => ?_
  rw [← Bool.decide_and, decide_eq_decide, stage_lt_cons_iff]
  exact ⟨And.left, fun h => ⟨h, .inl h⟩⟩

/-- The others are due by the later dates. -/
lemma filter_not_due_cons (key : α → κ) (date : κ) (dates : List κ) (queue : List α) :
    (due key (date :: dates) queue).filter (fun a => ¬ key a ≤ date) =
      due key dates (queue.filter fun a => ¬ key a ≤ date) := by
  rw [due, due, List.filter_filter, List.filter_filter]
  refine List.filter_congr fun a _ => ?_
  rw [← Bool.decide_and, ← Bool.decide_and, decide_eq_decide, stage_lt_cons_iff]
  constructor
  · rintro ⟨hnot, h⟩
    exact ⟨h.resolve_left hnot, hnot⟩
  · rintro ⟨h, hnot⟩
    exact ⟨hnot, .inr h⟩

lemma rest_cons :
    rest key (date :: dates) queue = rest key dates (queue.filter fun a => ¬ key a ≤ date) := by
  rw [rest, rest, List.filter_filter]
  refine List.filter_congr fun a _ => ?_
  rw [← Bool.decide_and, decide_eq_decide, stage_lt_cons_iff, not_or, and_comm]

/-! ## All dates -/

/-- **What is settled** does not depend on the instalments: every element that is due, once. -/
theorem settle_perm (key : α → κ) (dates : List κ) (queue : List α) :
    (settle key dates queue).Perm (due key dates queue) := by
  induction dates generalizing queue with
  | nil => simp [settle, due]
  | cons date dates ih =>
    have hsplit := List.filter_append_perm (fun a => decide (key a ≤ date))
      (due key (date :: dates) queue)
    have hlater := filter_not_due_cons key date dates queue
    simp only [decide_not] at hlater
    rw [filter_due_cons, hlater] at hsplit
    refine List.Perm.trans (List.Perm.append_left _ ?_) hsplit
    simpa only [decide_not] using ih (queue.filter fun a => ¬ key a ≤ date)

/-- Where something is left for the later dates, the last instalment is one of them. -/
lemma latest_cons_of_ne_nil (h : due key dates (queue.filter fun a => ¬ key a ≤ date) ≠ []) :
    latest key (date :: dates) queue =
      latest key dates (queue.filter fun a => ¬ key a ≤ date) := by
  obtain ⟨b, hb⟩ := List.exists_mem_of_ne_nil _ h
  have hmem : ∀ {c : α}, c ∈ due key dates (queue.filter fun a => ¬ key a ≤ date) →
      c ∈ due key (date :: dates) queue ∧ ¬ key c ≤ date := by
    intro c hc
    rw [← filter_not_due_cons] at hc
    obtain ⟨hdue, hlate⟩ := List.mem_filter.mp hc
    exact ⟨hdue, of_decide_eq_true hlate⟩
  have hkeep : latest key (date :: dates) queue =
      ((due key (date :: dates) queue).filter fun a => ¬ key a ≤ date).filter fun a =>
        ∀ b ∈ due key (date :: dates) queue,
          stage key (date :: dates) b ≤ stage key (date :: dates) a := by
    rw [latest, List.filter_filter]
    refine List.filter_congr fun a _ => ?_
    rw [← Bool.decide_and, decide_eq_decide]
    refine ⟨fun hmax => ⟨hmax, fun hle => ?_⟩, And.left⟩
    -- An element of the first instalment is not behind one of a later instalment.
    have hbehind := hmax b (hmem hb).1
    rw [stage_cons_of_le hle, stage_cons_of_not_le (hmem hb).2] at hbehind
    exact absurd hbehind (Nat.not_succ_le_zero _)
  rw [hkeep, filter_not_due_cons, latest]
  refine List.filter_congr fun a ha => ?_
  rw [decide_eq_decide]
  constructor
  · intro hmax c hc
    have hle := hmax c (hmem hc).1
    rw [stage_cons_of_not_le (hmem hc).2, stage_cons_of_not_le (hmem ha).2] at hle
    exact Nat.le_of_succ_le_succ hle
  · intro hmax c hc
    rw [stage_cons_of_not_le (hmem ha).2]
    by_cases hfirst : key c ≤ date
    · rw [stage_cons_of_le hfirst]
      exact Nat.zero_le _
    · rw [stage_cons_of_not_le hfirst]
      refine Nat.succ_le_succ (hmax c ?_)
      rw [← filter_not_due_cons]
      exact List.mem_filter.mpr ⟨hc, decide_eq_true hfirst⟩

/-- Where nothing is left for the later dates, the first instalment is the last one. -/
lemma latest_cons_of_eq_nil (h : due key dates (queue.filter fun a => ¬ key a ≤ date) = []) :
    latest key (date :: dates) queue = queue.filter (key · ≤ date) := by
  have hfirst : ∀ c ∈ due key (date :: dates) queue, key c ≤ date := by
    intro c hc
    by_contra hlate
    have hmem : c ∈ (due key (date :: dates) queue).filter fun a => ¬ key a ≤ date :=
      List.mem_filter.mpr ⟨hc, decide_eq_true hlate⟩
    rw [filter_not_due_cons, h] at hmem
    cases hmem
  rw [← filter_due_cons key date dates, latest]
  refine List.filter_congr fun a ha => ?_
  rw [decide_eq_decide]
  refine iff_of_true (fun b hb => ?_) (hfirst a ha)
  rw [stage_cons_of_le (hfirst b hb)]
  exact Nat.zero_le _

/-- **What is settled last** is the last element of the last instalment that is not empty. -/
theorem getLast?_settle (key : α → κ) (dates : List κ) (queue : List α) :
    (settle key dates queue).getLast? = (latest key dates queue).getLast? := by
  induction dates generalizing queue with
  | nil => simp [settle, latest, due]
  | cons date dates ih =>
    rw [settle, List.getLast?_append, ih]
    by_cases hlater : due key dates (queue.filter fun a => ¬ key a ≤ date) = []
    · rw [latest_cons_of_eq_nil hlater, latest, hlater]
      rfl
    · have hsome : latest key dates (queue.filter fun a => ¬ key a ≤ date) ≠ [] := by
        intro hnil
        have hnone := ih (queue.filter fun a => ¬ key a ≤ date)
        rw [hnil, List.getLast?_nil, List.getLast?_eq_none_iff] at hnone
        have hperm := settle_perm key dates (queue.filter fun a => ¬ key a ≤ date)
        rw [hnone] at hperm
        exact hlater hperm.symm.eq_nil
      rw [latest_cons_of_ne_nil hlater, Option.or_of_isSome]
      rwa [← Option.isNone_eq_false_iff, Option.isNone_eq_false_iff, List.getLast?_isSome]

/-- An ordered queue splits at a date. -/
lemma filter_append_of_pairwise (date : κ) (h : queue.Pairwise fun a b => key a ≤ key b) :
    queue.filter (key · ≤ date) ++ queue.filter (fun a => ¬ key a ≤ date) = queue := by
  induction queue with
  | nil => rfl
  | cons a queue ih =>
    obtain ⟨hfirst, hrest⟩ := List.pairwise_cons.mp h
    by_cases ha : key a ≤ date
    · rw [List.filter_cons_of_pos (by simpa using ha), List.filter_cons_of_neg (by simpa using ha),
        List.cons_append, ih hrest]
    · have hnone : queue.filter (key · ≤ date) = [] := by
        refine List.filter_eq_nil_iff.mpr fun b hb hle => ha ?_
        exact le_trans (hfirst b hb) (of_decide_eq_true hle)
      rw [List.filter_cons_of_neg (by simpa using ha), hnone, List.nil_append,
        List.filter_eq_self]
      intro b hb
      refine decide_eq_true fun hle => ha ?_
      rcases List.mem_cons.mp hb with rfl | hb
      · exact hle
      · exact le_trans (hfirst b hb) hle

/-- Where the queue is in the order of its dates, the instalments do not change the order. -/
theorem settle_eq_due (dates : List κ) (h : queue.Pairwise fun a b => key a ≤ key b) :
    settle key dates queue = due key dates queue := by
  induction dates generalizing queue with
  | nil => simp [settle, due]
  | cons date dates ih =>
    rw [settle, ih (h.filter _), ← filter_due_cons key date dates, ← filter_not_due_cons]
    exact filter_append_of_pairwise date (h.filter _)

end ZenoChain.Instalments
