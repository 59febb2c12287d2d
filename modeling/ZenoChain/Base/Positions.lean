/-
# Positions and keys

The entries of an ordered table with natural keys, listed in the order of their keys.  Where the
keys have gaps, the position of an entry in the list is not its key; taking positions for keys hits
the right entries exactly if they lie before the gaps.
-/
import Mathlib.Data.List.Basic
import Mathlib.Algebra.Order.Ring.Nat

namespace ZenoChain.Positions

variable {ν : Type} (p : ν → Bool) (l : List (ℕ × ν))

/-- The position belongs to an entry with the property. -/
def hit (i : ℕ) : Bool := l[i]?.any fun e => p e.2

/-- Every entry with the property stands under the key that is its position. -/
def Aligned : Prop := ∀ (i : ℕ) (e : ℕ × ν), l[i]? = some e → p e.2 = true → e.1 = i

variable {p l}

lemma hit_iff {i : ℕ} : hit p l i = true ↔ ∃ e, l[i]? = some e ∧ p e.2 = true := by
  rw [hit, Option.any_eq_true]

instance : Decidable (Aligned p l) :=
  decidable_of_iff (∀ x ∈ l.zipIdx, p x.1.2 = true → x.1.1 = x.2) <| by
    simp only [List.mem_zipIdx_iff_getElem?, Aligned, Prod.forall]
    exact ⟨fun h i k v he => h k v i he, fun h k v i he => h i k v he⟩

/-- Increasing keys are at least as large as their positions. -/
lemma le_key (h : l.Pairwise fun a b => a.1 < b.1) {i : ℕ} {e : ℕ × ν} (he : l[i]? = some e) :
    i ≤ e.1 := by
  induction i generalizing e with
  | zero => exact Nat.zero_le _
  | succ i ih =>
    obtain ⟨hi, rfl⟩ := List.getElem?_eq_some_iff.mp he
    have hprev := ih (List.getElem?_eq_getElem (Nat.lt_of_succ_lt hi))
    have hlt := List.pairwise_iff_getElem.mp h i (i + 1) (Nat.lt_of_succ_lt hi) hi (Nat.lt_succ_self i)
    omega

/-- Entries with the same key stand at the same position. -/
lemma position_unique (h : l.Pairwise fun a b => a.1 < b.1) {i j : ℕ} {e e' : ℕ × ν}
    (he : l[i]? = some e) (he' : l[j]? = some e') (heq : e.1 = e'.1) : i = j := by
  obtain ⟨hi, rfl⟩ := List.getElem?_eq_some_iff.mp he
  obtain ⟨hj, rfl⟩ := List.getElem?_eq_some_iff.mp he'
  rcases Nat.lt_trichotomy i j with hlt | rfl | hgt
  · have := List.pairwise_iff_getElem.mp h i j hi hj hlt
    omega
  · rfl
  · have := List.pairwise_iff_getElem.mp h j i hj hi hgt
    omega

/-- If the positions of the entries with the property are keys of such entries, they are their own
keys. -/
lemma aligned_of_hit_key (h : l.Pairwise fun a b => a.1 < b.1)
    (hkeys : ∀ (i : ℕ) (e : ℕ × ν), l[i]? = some e → p e.2 = true → hit p l e.1 = true) :
    Aligned p l := by
  -- Downwards from the end of the list: the key of an entry is a later position with the property.
  have key : ∀ (n i : ℕ) (e : ℕ × ν), l.length ≤ i + n → l[i]? = some e → p e.2 = true → e.1 = i := by
    intro n
    induction n with
    | zero =>
      intro i e hn he
      have := (List.getElem?_eq_some_iff.mp he).1
      omega
    | succ n ih =>
      intro i e hn he hp
      have hle := le_key h he
      by_contra hne
      obtain ⟨e', he', hp'⟩ := hit_iff.mp (hkeys i e he hp)
      have hfixed := ih e.1 e' (by omega) he' hp'
      exact hne (position_unique h he he' hfixed.symm).symm
  exact fun i e he hp => key l.length i e (Nat.le_add_left _ _) he hp

lemma hit_key_iff_of_aligned (h : l.Pairwise fun a b => a.1 < b.1) (haligned : Aligned p l) {i : ℕ}
    {e : ℕ × ν} (he : l[i]? = some e) : hit p l e.1 = true ↔ p e.2 = true := by
  constructor
  · intro hhit
    obtain ⟨e', he', hp'⟩ := hit_iff.mp hhit
    have hpos := position_unique h he he' (haligned _ e' he' hp').symm
    subst hpos
    rw [he'] at he
    exact Option.some.inj he ▸ hp'
  · intro hp
    rw [haligned i e he hp]
    exact hit_iff.mpr ⟨e, he, hp⟩

/-- **Positions for keys.**  Taking out the entries whose keys are positions of entries with the
property takes out the entries with the property exactly if they are aligned. -/
theorem filter_hit_eq_iff (h : l.Pairwise fun a b => a.1 < b.1) :
    (l.filter fun e => ! hit p l e.1).map Prod.snd = (l.map Prod.snd).filter (fun v => ! p v) ↔
      Aligned p l := by
  constructor
  · intro heq
    refine aligned_of_hit_key h fun i e he hp => ?_
    by_contra hnot
    -- The entry would stay, but nothing with the property is to stay.
    have hmem : e.2 ∈ (l.filter fun e => ! hit p l e.1).map Prod.snd := by
      refine List.mem_map_of_mem (List.mem_filter.mpr ⟨List.mem_of_getElem? he, ?_⟩)
      simpa using hnot
    rw [heq, List.mem_filter, hp] at hmem
    exact Bool.false_ne_true hmem.2
  · intro haligned
    rw [List.filter_map]
    congr 1
    refine List.filter_congr fun e he => ?_
    obtain ⟨i, hi⟩ := List.mem_iff_getElem?.mp he
    have hiff := hit_key_iff_of_aligned h haligned hi
    rw [Function.comp_apply, Bool.eq_iff_iff.mpr hiff]

end ZenoChain.Positions
