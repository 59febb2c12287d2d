/-
# Self-delimiting encodings

An encoding delimits itself if the encoded value can be read off the front of any string that
begins with its encoding.  Encodings of constant length do, and sequences of encodings that do,
as long as their number is known.  Blocks of one length are read off at multiples of it.
-/
import Mathlib.Data.List.Basic
import Mathlib.Tactic.Ring

namespace ZenoChain

variable {α β : Type}

/-- The encodings of the values with a property delimit themselves. -/
def Delimits (p : α → Prop) (f : α → List β) : Prop :=
  ∀ ⦃a b⦄, p a → p b → ∀ ⦃x y⦄, f a ++ x = f b ++ y → a = b ∧ x = y

namespace Delimits

variable {p : α → Prop} {f : α → List β}

/-- Nothing but the value itself has its encoding. -/
lemma inj (h : Delimits p f) {a b : α} (ha : p a) (hb : p b) (heq : f a = f b) : a = b :=
  (h ha hb (congrArg (· ++ []) heq)).1

lemma of_length {n : ℕ} (hlength : ∀ a, (f a).length = n)
    (hinj : ∀ ⦃a b⦄, p a → p b → f a = f b → a = b) : Delimits p f := by
  intro a b ha hb x y h
  obtain ⟨hhead, htail⟩ := List.append_inj h (by rw [hlength, hlength])
  exact ⟨hinj ha hb hhead, htail⟩

/-- Sequences of the same length can be read off one encoding after the other. -/
lemma flatMap_inj (h : Delimits p f) {l l' : List α} (hl : ∀ a ∈ l, p a) (hl' : ∀ a ∈ l', p a)
    (hlength : l.length = l'.length) {x y : List β} (heq : l.flatMap f ++ x = l'.flatMap f ++ y) :
    l = l' ∧ x = y := by
  induction l generalizing l' with
  | nil =>
    obtain rfl := List.length_eq_zero_iff.mp hlength.symm
    exact ⟨rfl, heq⟩
  | cons a l ih =>
    cases l' with
    | nil => cases hlength
    | cons a' l' =>
      rw [List.flatMap_cons, List.flatMap_cons, List.append_assoc, List.append_assoc] at heq
      obtain ⟨hhead, hrest⟩ := h (hl a List.mem_cons_self) (hl' a' List.mem_cons_self) heq
      obtain ⟨htail, hrest⟩ := ih (fun b hb => hl b (List.mem_cons_of_mem _ hb))
        (fun b hb => hl' b (List.mem_cons_of_mem _ hb)) (Nat.succ.inj hlength) hrest
      exact ⟨by rw [hhead, htail], hrest⟩

end Delimits

/-! ## Blocks of one length -/

section Blocks

variable {f : α → List β} {n : ℕ}

lemma length_flatMap_blocks (h : ∀ a, (f a).length = n) (l : List α) :
    (l.flatMap f).length = l.length * n := by
  induction l with
  | nil => simp
  | cons a l ih => rw [List.flatMap_cons, List.length_append, h, ih, List.length_cons]; ring

/-- A block is read off at its place. -/
lemma take_drop_blocks (h : ∀ a, (f a).length = n) {l : List α} {i : ℕ} {a : α}
    (hi : l[i]? = some a) : ((l.flatMap f).drop (i * n)).take n = f a := by
  obtain ⟨hlt, ha⟩ := List.getElem?_eq_some_iff.mp hi
  have hsplit : l = l.take i ++ a :: l.drop (i + 1) := by
    rw [← ha, ← List.drop_eq_getElem_cons hlt, List.take_append_drop]
  have hbefore : ((l.take i).flatMap f).length = i * n := by
    rw [length_flatMap_blocks h, List.length_take, min_eq_left hlt.le]
  rw [hsplit, List.flatMap_append, List.flatMap_cons, ← hbefore, List.drop_left, ← h a,
    List.take_left]

/-- Any string of the right length is made of blocks. -/
lemma flatMap_range_blocks (k n : ℕ) (x : List β) :
    ((List.range k).flatMap fun i => (x.drop (i * n)).take n) = x.take (k * n) := by
  induction k with
  | zero => simp
  | succ k ih =>
    rw [List.range_succ, List.flatMap_append, ih, Nat.succ_mul, List.take_add]
    simp

end Blocks

end ZenoChain
