/-
# Histories

The elements of a list, the oldest first, each with what stands before it: a property which looks
back holds throughout a list if every element has it where it stands.
-/
import Mathlib.Data.List.Induction

namespace ZenoChain

variable {α : Type} {P Q : List α → α → Prop} {l m : List α} {x : α}

/-- Every element has a property that looks back at what stands before it. -/
def Throughout (P : List α → α → Prop) (l : List α) : Prop :=
  ∀ before x after, l = before ++ x :: after → P before x

lemma throughout_nil : Throughout P [] :=
  fun _ _ _ h => absurd h.symm (List.append_ne_nil_of_right_ne_nil _ (List.cons_ne_nil _ _))

/-- An element of the second list looks back at the first one as well. -/
lemma throughout_append :
    Throughout P (l ++ m) ↔ Throughout P l ∧ Throughout (fun before => P (l ++ before)) m := by
  constructor
  · refine fun h => ⟨?_, ?_⟩
    · rintro before x after rfl
      exact h before x (after ++ m) (by rw [List.append_assoc, List.cons_append])
    · rintro before x after rfl
      exact h (l ++ before) x after (List.append_assoc _ _ _).symm
  · rintro ⟨hl, hm⟩ before x after hsplit
    rcases List.append_eq_append_iff.mp hsplit with ⟨rest, rfl, hrest⟩ | ⟨rest, hrest, hafter⟩
    · exact hm rest x after hrest
    · rcases List.cons_eq_append_iff.mp hafter with ⟨rfl, hnone⟩ | ⟨rest', rfl, -⟩
      · have hfirst : P (l ++ []) x := hm [] x after hnone
        rwa [hrest, List.append_nil, List.append_nil] at hfirst
      · exact hl before x rest' hrest

lemma throughout_singleton : Throughout P [x] ↔ P [] x := by
  constructor
  · exact fun h => h [] x [] rfl
  · intro h before y after hsplit
    rcases List.cons_eq_append_iff.mp hsplit with ⟨rfl, hy⟩ | ⟨rest, -, hrest⟩
    · rwa [(List.cons.inj hy).1]
    · cases List.append_ne_nil_of_right_ne_nil _ (List.cons_ne_nil y after) hrest.symm

/-- One more element. -/
lemma throughout_concat : Throughout P (l ++ [x]) ↔ Throughout P l ∧ P l x := by
  rw [throughout_append, throughout_singleton, List.append_nil]

lemma Throughout.of_append (h : Throughout P (l ++ m)) : Throughout P l := (throughout_append.mp h).1

/-- Elements that have the property wherever they stand. -/
lemma Throughout.append (h : Throughout P l) (hm : ∀ x ∈ m, ∀ before, P before x) :
    Throughout P (l ++ m) := by
  refine throughout_append.mpr ⟨h, ?_⟩
  rintro before x after rfl
  exact hm x (List.mem_append_right _ List.mem_cons_self) _

/-- The induction along a history: what holds at its beginning, and of a longer history if it holds
before the last element and this element has the property. -/
lemma Throughout.induction {motive : List α → Prop} (h : Throughout P l) (nil : motive [])
    (concat : ∀ l x, Throughout P l → P l x → motive l → motive (l ++ [x])) : motive l := by
  induction l using List.reverseRecOn with
  | nil => exact nil
  | append_singleton l x ih =>
    obtain ⟨hl, hx⟩ := throughout_concat.mp h
    exact concat l x hl hx (ih hl)

end ZenoChain
