/-
# The best of a list

A list sorted stably by a measure, the greatest values first, and cut off after some elements.
The measures of the chosen elements depend on the elements only.  The chosen elements themselves
depend on the order of the list, unless the cut leaves no choice: the elements of one measure
are in the order of the list, so that two of them may change places as soon as one of them is
above the cut.
-/
import Mathlib.Data.List.Sort

namespace ZenoChain

variable {α β : Type} [LinearOrder β] (f : α → β) (k : ℕ) (l : List α)

/-- The elements by falling measure; those of one measure stay in their order. -/
def ranked : List α := l.insertionSort fun a b => f b ≤ f a

/-- The first elements of the ranking. -/
def best : List α := (ranked f l).take k

/-- How many elements have a greater measure than a given one. -/
def ahead (a : α) : ℕ := (l.filter fun b => f a < f b).length

variable {f k l}

instance isTrans_measure : IsTrans α fun a b => f b ≤ f a := ⟨fun _ _ _ hab hbc => hbc.trans hab⟩

instance total_measure : Std.Total fun a b : α => f b ≤ f a := ⟨fun a b => le_total (f b) (f a)⟩

lemma ranked_perm : (ranked f l).Perm l := List.perm_insertionSort _ _

lemma pairwise_ranked : (ranked f l).Pairwise fun a b => f b ≤ f a :=
  List.pairwise_insertionSort _ _

lemma best_sublist : (best f k l).Sublist (ranked f l) := List.take_sublist _ _

lemma mem_of_mem_best {a : α} (h : a ∈ best f k l) : a ∈ l :=
  ranked_perm.mem_iff.mp (best_sublist.mem h)

lemma nodup_best (h : l.Nodup) : (best f k l).Nodup :=
  (ranked_perm.nodup_iff.mpr h).sublist best_sublist

@[simp] lemma length_best : (best f k l).length = min k l.length := by
  rw [best, List.length_take, ranked_perm.length_eq]

lemma pairwise_best : (best f k l).Pairwise fun a b => f b ≤ f a :=
  pairwise_ranked.sublist best_sublist

/-- An element that is not chosen is not better than a chosen one. -/
lemma le_of_not_mem_best {a b : α} (ha : a ∈ l) (hnot : a ∉ best f k l) (hb : b ∈ best f k l) :
    f a ≤ f b := by
  have hsplit : a ∈ best f k l ++ (ranked f l).drop k := by
    rw [best, List.take_append_drop]
    exact ranked_perm.mem_iff.mpr ha
  have hpairwise := pairwise_ranked (f := f) (l := l)
  rw [← List.take_append_drop k (ranked f l), List.pairwise_append] at hpairwise
  exact hpairwise.2.2 b hb a ((List.mem_append.mp hsplit).resolve_left hnot)

/-- The measures of the chosen elements are the first ones of all measures, in falling order. -/
lemma map_best {xs : List β} (hperm : xs.Perm (l.map f)) (hxs : xs.Pairwise fun x y => y ≤ x) :
    (best f k l).map f = xs.take k := by
  have hranked : ((ranked f l).map f).Pairwise fun x y => y ≤ x :=
    List.pairwise_map.mpr pairwise_ranked
  have heq : (ranked f l).map f = xs :=
    ((ranked_perm.map f).trans hperm.symm).eq_of_pairwise
      (fun _ _ _ _ hab hba => le_antisymm hba hab) hranked hxs
  rw [best, List.map_take, heq]

/-! ## Where the order of the list shows -/

lemma ahead_of_perm {l' : List α} (h : l.Perm l') (a : α) : ahead f l a = ahead f l' a :=
  (h.filter _).length_eq

/-- An element does not stand ahead of itself. -/
lemma ahead_cons_self (a : α) : ahead f (a :: l) a = ahead f l a := by
  rw [ahead, List.filter_cons_of_neg (by simp)]
  rfl

/-- The elements ahead of one stand before it in the ranking. -/
lemma ahead_le_of_getElem? {i : ℕ} {a : α} (h : (ranked f l)[i]? = some a) : ahead f l a ≤ i := by
  obtain ⟨hi, ha⟩ := List.getElem?_eq_some_iff.mp h
  have hpairwise := pairwise_ranked (f := f) (l := l)
  rw [← List.take_append_drop i (ranked f l), List.drop_eq_getElem_cons hi, ha,
    List.pairwise_append, List.pairwise_cons] at hpairwise
  -- Nothing from the element on is ahead of it.
  have hrest : ((a :: (ranked f l).drop (i + 1)).filter fun b => f a < f b) = [] := by
    rw [List.filter_eq_nil_iff]
    intro b hb
    rw [decide_eq_true_eq, not_lt]
    rcases List.mem_cons.mp hb with rfl | hb
    · exact le_rfl
    · exact hpairwise.2.1.1 b hb
  calc ahead f l a = ahead f (ranked f l) a := (ahead_of_perm ranked_perm a).symm
    _ = (((ranked f l).take i).filter fun b => f a < f b).length := by
      conv_lhs => rw [ahead, ← List.take_append_drop i (ranked f l), List.drop_eq_getElem_cons hi,
        ha, List.filter_append, hrest, List.append_nil]
    _ ≤ ((ranked f l).take i).length := List.length_filter_le _ _
    _ ≤ i := List.length_take_le _ _

/-- In a sorted list the better elements come first. -/
lemma takeWhile_eq_filter {m : List α} (hm : m.Pairwise fun a b => f b ≤ f a) (a : α) :
    (m.takeWhile fun b => f a < f b) = m.filter fun b => f a < f b := by
  induction m with
  | nil => rfl
  | cons b m ih =>
    rw [List.pairwise_cons] at hm
    by_cases hb : f a < f b
    · rw [List.takeWhile_cons_of_pos (by simpa using hb), List.filter_cons_of_pos (by simpa using hb),
        ih hm.2]
    · have hnone : (b :: m).filter (fun c => f a < f c) = [] := by
        rw [List.filter_eq_nil_iff]
        intro c hc
        rw [decide_eq_true_eq, not_lt]
        rcases List.mem_cons.mp hc with rfl | hc
        · exact not_lt.mp hb
        · exact (hm.1 c hc).trans (not_lt.mp hb)
      rw [List.takeWhile_cons_of_neg (by simpa using hb), hnone]

/-- The first element of a list stands right behind the ones ahead of it. -/
lemma getElem?_ranked_cons (a : α) : (ranked f (a :: l))[ahead f l a]? = some a := by
  have hlength : ((ranked f l).takeWhile fun b => ¬ f b ≤ f a).length = ahead f l a := by
    simp only [not_le]
    rw [takeWhile_eq_filter pairwise_ranked]
    exact ahead_of_perm ranked_perm a
  rw [ranked, List.insertionSort_cons_eq_take_drop, ← ranked,
    List.getElem?_append_right hlength.le, hlength, Nat.sub_self]
  rfl

/-- The cut leaves no choice: of two elements of one measure, none is chosen. -/
def NoChoice (f : α → β) (k : ℕ) (l : List α) : Prop :=
  ∀ a ∈ l, ∀ b ∈ l, a ≠ b → f a = f b → k ≤ ahead f l a

lemma best_eq_of_noChoice {l' : List α} (h : NoChoice f k l) (hperm : l'.Perm l) :
    best f k l' = best f k l := by
  have hmeasures : (best f k l').map f = (best f k l).map f := by
    rw [map_best ((ranked_perm.trans hperm.symm).map f) (List.pairwise_map.mpr pairwise_ranked), best,
      List.map_take]
  refine List.ext_getElem? fun i => ?_
  have hi := congrArg (fun m => m[i]?) hmeasures
  simp only [List.getElem?_map] at hi
  rcases ha : (best f k l')[i]? with _ | a
  · rw [ha, Option.map_none, eq_comm, Option.map_eq_none_iff] at hi
    exact hi.symm
  · rw [ha, Option.map_some, eq_comm, Option.map_eq_some_iff] at hi
    obtain ⟨b, hb, hfb⟩ := hi
    rw [hb]
    -- Were the two elements different, both would stand below the cut.
    by_contra hne
    rw [Option.some_inj] at hne
    have hmem := mem_of_mem_best (List.mem_of_getElem? hb)
    have hahead := h b hmem a (hperm.mem_iff.mp (mem_of_mem_best (List.mem_of_getElem? ha)))
      (fun heq => hne heq.symm) hfb
    rw [best, List.getElem?_take] at hb
    split at hb
    · rename_i hik
      have := ahead_le_of_getElem? hb
      omega
    · cases hb

/-- **The choice depends on the order of the list exactly when two elements of one measure reach
above the cut.** -/
theorem best_determined_iff :
    (∀ p q : List α, p.Perm l → q.Perm l → best f k p = best f k q) ↔ NoChoice f k l := by
  classical
  constructor
  · intro h a ha b hb hne hf
    by_contra hcut
    rw [not_le] at hcut
    -- Each of the two elements, put in front, comes right behind the ones ahead of both.
    have hfront : ∀ c ∈ l, f c = f a →
        (best f k (c :: l.erase c))[ahead f l a]? = some c := by
      intro c hc hca
      have hperm := List.perm_cons_erase hc
      have hahead : ahead f (l.erase c) c = ahead f l a := by
        rw [← ahead_cons_self, ← ahead_of_perm hperm, ahead, hca]
        rfl
      rw [best, List.getElem?_take, if_pos hcut, ← hahead]
      exact getElem?_ranked_cons c
    have heq := h (a :: l.erase a) (b :: l.erase b) (List.perm_cons_erase ha).symm
      (List.perm_cons_erase hb).symm
    have hsame := hfront a ha rfl
    rw [heq, hfront b hb hf.symm, Option.some_inj] at hsame
    exact hne hsame.symm
  · intro h p q hp hq
    rw [best_eq_of_noChoice h hp, best_eq_of_noChoice h hq]

end ZenoChain
