/-
# Ordered tables

Facts about ordered extensional maps: their values in the order of the keys, writing a
list of entries, and the total of a measure over all entries.
-/
import Mathlib.Algebra.BigOperators.Group.List.Basic
import Mathlib.Algebra.Order.Ring.Nat
import Std.Data.ExtTreeMap

namespace ZenoChain.Table

variable {κ ν μ : Type} {cmp : κ → κ → Ordering} [Std.TransCmp cmp]

/-- The values of a table, in the order of their keys. -/
def values (t : Std.ExtTreeMap κ ν cmp) : List ν := t.toList.map Prod.snd

/-- The entry of the greatest key. -/
def last (t : Std.ExtTreeMap κ ν cmp) : Option (κ × ν) := t.toList.getLast?

/-- Writes the entries of a list, one after the other. -/
def insertAll (t : Std.ExtTreeMap κ ν cmp) (l : List (κ × ν)) : Std.ExtTreeMap κ ν cmp :=
  l.foldl (fun t e => t.insert e.1 e.2) t

/-- The total of a measure over the values. -/
def total (f : ν → ℕ) (t : Std.ExtTreeMap κ ν cmp) : ℕ := ((values t).map f).sum

lemma insertAll_cons (t : Std.ExtTreeMap κ ν cmp) (e : κ × ν) (l : List (κ × ν)) :
    insertAll t (e :: l) = insertAll (t.insert e.1 e.2) l := rfl

lemma values_map (f : κ → ν → μ) (t : Std.ExtTreeMap κ ν cmp) :
    values (t.map f) = t.toList.map fun e => f e.1 e.2 := by
  rw [values, Std.ExtTreeMap.toList_map, List.map_map]
  rfl

lemma nodup_keys (t : Std.ExtTreeMap κ ν cmp) : (t.toList.map Prod.fst).Nodup := by
  rw [Std.ExtTreeMap.map_fst_toList_eq_keys]
  exact Std.ExtTreeMap.nodup_keys

section Lawful

variable [Std.LawfulEqCmp cmp]

lemma mem_toList_iff {t : Std.ExtTreeMap κ ν cmp} {e : κ × ν} :
    e ∈ t.toList ↔ t[e.1]? = some e.2 :=
  Std.ExtTreeMap.mem_toList_iff_getElem?_eq_some

lemma mem_values_iff {t : Std.ExtTreeMap κ ν cmp} {v : ν} :
    v ∈ values t ↔ ∃ k : κ, t[k]? = some v := by
  rw [values, List.mem_map]
  constructor
  · rintro ⟨⟨k, w⟩, he, rfl⟩
    exact ⟨k, mem_toList_iff.mp he⟩
  · rintro ⟨k, hk⟩
    exact ⟨(k, v), mem_toList_iff.mpr hk, rfl⟩

/-- Values that name their keys name them once. -/
lemma nodup_map_values {t : Std.ExtTreeMap κ ν cmp} {f : ν → κ}
    (h : ∀ k v, t[k]? = some v → f v = k) : ((values t).map f).Nodup := by
  have hkeys : (values t).map f = t.toList.map Prod.fst := by
    rw [values, List.map_map]
    exact List.map_congr_left fun e he => h e.1 e.2 (mem_toList_iff.mp he)
  rw [hkeys]
  exact nodup_keys t

lemma nodup_toList (t : Std.ExtTreeMap κ ν cmp) : t.toList.Nodup := by
  have h := Std.ExtTreeMap.distinct_keys_toList (t := t)
  refine h.imp ?_
  rintro a b hab rfl
  exact hab Std.ReflCmp.compare_self

variable [DecidableEq κ]

lemma getElem?_insert (t : Std.ExtTreeMap κ ν cmp) (k a : κ) (v : ν) :
    (t.insert k v)[a]? = if a = k then some v else t[a]? := by
  rw [Std.ExtTreeMap.getElem?_insert]
  by_cases h : a = k
  · rw [if_pos h, if_pos (Std.LawfulEqCmp.compare_eq_iff_eq.mpr h.symm)]
  · rw [if_neg h, if_neg fun hc => h (Std.LawfulEqCmp.compare_eq_iff_eq.mp hc).symm]

/-- A write of what is there changes nothing. -/
lemma insert_of_getElem? {t : Std.ExtTreeMap κ ν cmp} {k : κ} {v : ν} (h : t[k]? = some v) :
    t.insert k v = t := by
  refine Std.ExtTreeMap.ext_getElem? fun a => ?_
  rw [getElem?_insert]
  by_cases ha : a = k
  · rw [if_pos ha, ha, h]
  · rw [if_neg ha]

lemma getElem?_erase (t : Std.ExtTreeMap κ ν cmp) (k a : κ) :
    (t.erase k)[a]? = if a = k then none else t[a]? := by
  rw [Std.ExtTreeMap.getElem?_erase]
  by_cases h : a = k
  · rw [if_pos h, if_pos (Std.LawfulEqCmp.compare_eq_iff_eq.mpr h.symm)]
  · rw [if_neg h, if_neg fun hc => h (Std.LawfulEqCmp.compare_eq_iff_eq.mp hc).symm]

/-- After some keys have been erased, the others are left alone. -/
lemma getElem?_foldl_erase {α : Type} (p : α → Prop) [DecidablePred p] (key : α → κ) (l : List α)
    (t : Std.ExtTreeMap κ ν cmp) (a : κ) :
    (l.foldl (fun t x => if p x then t.erase (key x) else t) t)[a]? =
      if ∃ x ∈ l, p x ∧ key x = a then none else t[a]? := by
  induction l generalizing t with
  | nil => simp
  | cons x l ih =>
    rw [List.foldl_cons, ih]
    by_cases hl : ∃ y ∈ l, p y ∧ key y = a
    · have hcons : ∃ y ∈ x :: l, p y ∧ key y = a := hl.imp fun y hy => ⟨.tail _ hy.1, hy.2⟩
      rw [if_pos hl, if_pos hcons]
    · rw [if_neg hl]
      by_cases hx : p x ∧ key x = a
      · rw [if_pos hx.1, getElem?_erase, if_pos hx.2.symm,
          if_pos ⟨x, List.mem_cons_self, hx⟩]
      · have hcons : ¬ ∃ y ∈ x :: l, p y ∧ key y = a := by
          rintro ⟨y, hy, hp⟩
          rcases List.mem_cons.mp hy with rfl | hy
          · exact hx hp
          · exact hl ⟨y, hy, hp⟩
        rw [if_neg hcons]
        split
        · rename_i hpx
          rw [getElem?_erase, if_neg fun hc => hx ⟨hpx, hc.symm⟩]
        · rfl

lemma getElem?_insertIfNew (t : Std.ExtTreeMap κ ν cmp) (k a : κ) (v : ν) :
    (t.insertIfNew k v)[a]? = if a = k then some (t[k]?.getD v) else t[a]? := by
  rw [Std.ExtTreeMap.getElem?_insertIfNew]
  by_cases h : a = k
  · subst h
    rw [if_pos rfl]
    by_cases ht : a ∈ t
    · rw [if_neg fun hc => hc.2 ht, Std.ExtTreeMap.getElem?_eq_some_getElem ht, Option.getD_some]
    · rw [if_pos ⟨Std.ReflCmp.compare_self, ht⟩, Std.ExtTreeMap.getElem?_eq_none ht,
        Option.getD_none]
  · rw [if_neg h, if_neg fun hc => h (Std.LawfulEqCmp.compare_eq_iff_eq.mp hc.1).symm]

/-- A present key is not written again. -/
lemma insertIfNew_of_mem {t : Std.ExtTreeMap κ ν cmp} {k : κ} (h : t[k]?.isSome) (w : ν) :
    t.insertIfNew k w = t := by
  refine Std.ExtTreeMap.ext_getElem? fun a => ?_
  obtain ⟨x, hx⟩ := Option.isSome_iff_exists.mp h
  rw [getElem?_insertIfNew, hx]
  by_cases ha : a = k
  · rw [if_pos ha, ha, hx, Option.getD_some]
  · rw [if_neg ha]

/-- After all entries of the list have been written, the last one of a key is what the key
holds; other keys are left alone. -/
lemma getElem?_insertAll_of_not_mem {t : Std.ExtTreeMap κ ν cmp} {l : List (κ × ν)} {a : κ}
    (h : ∀ e ∈ l, e.1 ≠ a) : (insertAll t l)[a]? = t[a]? := by
  induction l generalizing t with
  | nil => rfl
  | cons e l ih =>
    rw [insertAll_cons, ih fun e he => h e (List.mem_cons_of_mem _ he), getElem?_insert,
      if_neg fun hc => h e List.mem_cons_self hc.symm]

lemma isSome_getElem?_insertAll {t : Std.ExtTreeMap κ ν cmp} {l : List (κ × ν)} {a : κ}
    (h : a ∈ l.map Prod.fst ∨ t[a]?.isSome) : (insertAll t l)[a]?.isSome := by
  induction l generalizing t with
  | nil => exact h.resolve_left List.not_mem_nil
  | cons e l ih =>
    refine ih ?_
    rw [getElem?_insert]
    by_cases ha : a = e.1
    · rw [if_pos ha]
      exact .inr rfl
    · rw [if_neg ha]
      exact h.imp_left fun hmem => (List.mem_cons.mp hmem).resolve_left ha

/-- What a key holds after the entries of a list have been written is one of them or was there. -/
lemma mem_of_getElem?_insertAll {t : Std.ExtTreeMap κ ν cmp} {l : List (κ × ν)} {a : κ} {v : ν}
    (h : (insertAll t l)[a]? = some v) : (a, v) ∈ l ∨ t[a]? = some v := by
  induction l generalizing t with
  | nil => exact .inr h
  | cons e l ih =>
    rcases ih h with hl | ht
    · exact .inl (.tail _ hl)
    · rw [getElem?_insert] at ht
      split at ht
      · rename_i ha
        obtain rfl := Option.some.inj ht
        exact .inl (ha ▸ List.mem_cons_self)
      · exact .inr ht

/-- Entries of which no two differ under the same key, written into an empty table. -/
lemma getElem?_insertAll_empty_iff {l : List (κ × ν)} {a : κ} {v : ν}
    (h : ∀ w, (a, v) ∈ l → (a, w) ∈ l → v = w) :
    (insertAll (∅ : Std.ExtTreeMap κ ν cmp) l)[a]? = some v ↔ (a, v) ∈ l := by
  constructor
  · intro hv
    exact (mem_of_getElem?_insertAll hv).resolve_right (by simp)
  · intro hv
    have hsome : (insertAll (∅ : Std.ExtTreeMap κ ν cmp) l)[a]?.isSome :=
      isSome_getElem?_insertAll (.inl (List.mem_map_of_mem (f := Prod.fst) hv))
    obtain ⟨w, hw⟩ := Option.isSome_iff_exists.mp hsome
    have hmem := (mem_of_getElem?_insertAll hw).resolve_right (by simp)
    rw [hw, h w hv hmem]

/-- Writing all entries of a table puts them over the ones there. -/
lemma getElem?_insertAll_toList (t s : Std.ExtTreeMap κ ν cmp) (a : κ) :
    (insertAll t s.toList)[a]? = s[a]?.or t[a]? := by
  have key : ∀ (l : List (κ × ν)) (t : Std.ExtTreeMap κ ν cmp), (l.map Prod.fst).Nodup →
      (insertAll t l)[a]? = ((l.find? fun e => e.1 = a).map Prod.snd).or t[a]? := by
    intro l
    induction l with
    | nil =>
      intro t _
      rfl
    | cons e l ih =>
      intro t hl
      rw [List.map_cons, List.nodup_cons] at hl
      rw [insertAll_cons]
      by_cases he : e.1 = a
      · have hnot : ∀ e' ∈ l, e'.1 ≠ a := by
          intro e' he' hc
          exact hl.1 (List.mem_map.mpr ⟨e', he', hc.trans he.symm⟩)
        rw [getElem?_insertAll_of_not_mem hnot, getElem?_insert, if_pos he.symm,
          List.find?_cons_of_pos (by simpa using he)]
        rfl
      · rw [ih _ hl.2, getElem?_insert, if_neg fun hc => he hc.symm,
          List.find?_cons_of_neg (by simpa using he)]
  rw [key _ _ (nodup_keys s)]
  congr 1
  rcases hs : s[a]? with _ | v
  · rw [Option.map_eq_none_iff, List.find?_eq_none]
    intro e he hc
    rw [decide_eq_true_eq] at hc
    rw [mem_toList_iff, hc, hs] at he
    cases he
  · rw [Option.map_eq_some_iff]
    rcases hf : s.toList.find? fun e => e.1 = a with _ | e
    · rw [List.find?_eq_none] at hf
      exact absurd (decide_eq_true rfl) (hf (a, v) (mem_toList_iff.mpr hs))
    · have he := List.mem_of_find?_eq_some hf
      have hk := List.find?_some hf
      rw [decide_eq_true_eq] at hk
      rw [mem_toList_iff, hk, hs] at he
      exact ⟨e, hf, (Option.some.inj he).symm⟩

/-- A table written over itself, or over a part of itself, is what is left. -/
lemma insertAll_toList_of_subset {t s : Std.ExtTreeMap κ ν cmp}
    (h : ∀ a : κ, s[a]? = none → t[a]? = none) : insertAll t s.toList = s := by
  refine Std.ExtTreeMap.ext_getElem? fun a => ?_
  rw [getElem?_insertAll_toList]
  rcases hs : s[a]? with _ | v
  · rw [Option.none_or, h a hs]
  · rfl

/-! ## The entry of the greatest key -/

omit [DecidableEq κ] in
lemma last_eq_some_iff {t : Std.ExtTreeMap κ ν cmp} {e : κ × ν} :
    last t = some e ↔ t[e.1]? = some e.2 ∧ ∀ a : κ, t[a]?.isSome → a ≠ e.1 → cmp a e.1 = .lt := by
  have hordered := Std.ExtTreeMap.ordered_keys_toList (t := t)
  rw [last]
  constructor
  · intro h
    obtain ⟨init, hinit⟩ := List.getLast?_eq_some_iff.mp h
    refine ⟨mem_toList_iff.mp (hinit ▸ List.mem_append_right _ List.mem_cons_self), ?_⟩
    intro a ha hne
    obtain ⟨v, hv⟩ := Option.isSome_iff_exists.mp ha
    have hmem : (a, v) ∈ t.toList := mem_toList_iff.mpr hv
    rw [hinit, List.mem_append, List.mem_singleton] at hmem
    rw [hinit, List.pairwise_append] at hordered
    rcases hmem with hmem | rfl
    · exact hordered.2.2 _ hmem e List.mem_cons_self
    · exact absurd rfl hne
  · rintro ⟨he, hmax⟩
    have hmem : e ∈ t.toList := mem_toList_iff.mpr he
    rcases hl : t.toList.getLast? with _ | e'
    · rw [List.getLast?_eq_none_iff] at hl
      rw [hl] at hmem
      cases hmem
    · obtain ⟨init, hinit⟩ := List.getLast?_eq_some_iff.mp hl
      have he' : t[e'.1]? = some e'.2 :=
        mem_toList_iff.mp (hinit ▸ List.mem_append_right _ List.mem_cons_self)
      rw [hinit, List.mem_append, List.mem_singleton] at hmem
      rw [hinit, List.pairwise_append] at hordered
      rcases hmem with hmem | rfl
      · have hlt : cmp e.1 e'.1 = .lt := hordered.2.2 _ hmem e' List.mem_cons_self
        have hne : e'.1 ≠ e.1 := by
          intro hc
          have hself : cmp e.1 e.1 = .eq := Std.ReflCmp.compare_self
          rw [hc, hself] at hlt
          cases hlt
        have hgt := hmax e'.1 (by rw [he']; rfl) hne
        have hswap : cmp e'.1 e.1 = (cmp e.1 e'.1).swap := Std.OrientedCmp.eq_swap
        rw [hswap, hlt] at hgt
        cases hgt
      · rfl

/-- A write at a key that no key exceeds makes it the last one. -/
lemma last_insert {t : Std.ExtTreeMap κ ν cmp} {k : κ} {v : ν}
    (h : ∀ a : κ, t[a]?.isSome → a ≠ k → cmp a k = .lt) : last (t.insert k v) = some (k, v) := by
  rw [last_eq_some_iff, getElem?_insert, if_pos rfl]
  refine ⟨rfl, fun a ha hne => h a ?_ hne⟩
  rwa [getElem?_insert, if_neg hne] at ha

lemma getD_insert (t : Std.ExtTreeMap κ ν cmp) (k a : κ) (v w : ν) :
    (t.insert k v).getD a w = if a = k then v else t.getD a w := by
  rw [Std.ExtTreeMap.getD_eq_getD_getElem?, getElem?_insert, Std.ExtTreeMap.getD_eq_getD_getElem?]
  split <;> rfl

lemma getD_erase (t : Std.ExtTreeMap κ ν cmp) (k a : κ) (w : ν) :
    (t.erase k).getD a w = if a = k then w else t.getD a w := by
  rw [Std.ExtTreeMap.getD_eq_getD_getElem?, getElem?_erase, Std.ExtTreeMap.getD_eq_getD_getElem?]
  split <;> rfl

omit [Std.LawfulEqCmp cmp] [DecidableEq κ] in
lemma getD_of_getElem? {t : Std.ExtTreeMap κ ν cmp} {k : κ} {v : ν} (h : t[k]? = some v) (w : ν) :
    t.getD k w = v := by
  rw [Std.ExtTreeMap.getD_eq_getD_getElem?, h, Option.getD_some]

/-- What stood at a key does not matter for a write. -/
lemma insert_erase (t : Std.ExtTreeMap κ ν cmp) (k : κ) (v : ν) :
    (t.erase k).insert k v = t.insert k v := by
  refine Std.ExtTreeMap.ext_getElem? fun a => ?_
  rw [getElem?_insert, getElem?_insert, getElem?_erase]
  split <;> rfl

omit [Std.LawfulEqCmp cmp] [DecidableEq κ] in
lemma getElem?_eq_none_of_not_contains {t : Std.ExtTreeMap κ ν cmp} {k : κ}
    (h : ¬ t.contains k = true) : t[k]? = none := by
  rw [Std.ExtTreeMap.contains_eq_isSome_getElem?] at h
  exact Option.not_isSome_iff_eq_none.mp h

/-! ## Pairs as keys -/

/-- Pairs are compared by their first components, then by their second ones. -/
instance lawfulEqCmp_pair {α β : Type} [Ord α] [Ord β] [Std.LawfulEqOrd α] [Std.LawfulEqOrd β] :
    Std.LawfulEqCmp (compareLex (compareOn (Prod.fst : α × β → α)) (compareOn Prod.snd)) where
  compare_self {a} := by simp [compareLex, compareOn]
  eq_of_compare {a b} h := by
    simp only [compareLex, compareOn, Ordering.then_eq_eq, Std.LawfulEqCmp.compare_eq_iff_eq] at h
    exact Prod.ext h.1 h.2

/-! ## Values in the order of their keys -/

/-- Erasing a key that is not there does nothing. -/
lemma erase_of_vacant {t : Std.ExtTreeMap κ ν cmp} {k : κ} (h : t[k]? = none) : t.erase k = t := by
  refine Std.ExtTreeMap.ext_getElem? fun a => ?_
  rw [getElem?_erase]
  by_cases ha : a = k
  · rw [if_pos ha, ha, h]
  · rw [if_neg ha]

lemma toList_insert_perm (t : Std.ExtTreeMap κ ν cmp) (k : κ) (v : ν) :
    (t.insert k v).toList.Perm ((k, v) :: (t.erase k).toList) := by
  have hnot : (k, v) ∉ (t.erase k).toList := by
    rw [mem_toList_iff, getElem?_erase, if_pos rfl]
    exact nofun
  rw [List.perm_ext_iff_of_nodup (nodup_toList _) (List.nodup_cons.mpr ⟨hnot, nodup_toList _⟩)]
  rintro ⟨a, w⟩
  rw [List.mem_cons, mem_toList_iff, mem_toList_iff, getElem?_insert, getElem?_erase]
  by_cases ha : a = k
  · simp [ha, eq_comm]
  · simp [ha]

/-- A value written at a key above all others comes last. -/
lemma values_insert_last {t : Std.ExtTreeMap κ ν cmp} {k : κ} (v : ν)
    (h : ∀ a : κ, t[a]?.isSome → cmp a k = .lt) : values (t.insert k v) = values t ++ [v] := by
  have hvacant : t[k]? = none := by
    rcases hk : t[k]? with _ | w
    · rfl
    · have hlt := h k (by rw [hk]; rfl)
      have hself : cmp k k = .eq := Std.ReflCmp.compare_self
      rw [hself] at hlt
      cases hlt
  have hperm : (t.insert k v).toList.Perm (t.toList ++ [(k, v)]) := by
    have := toList_insert_perm t k v
    rw [erase_of_vacant hvacant] at this
    exact this.trans (List.perm_append_singleton _ _).symm
  have hordered : (t.toList ++ [(k, v)]).Pairwise fun a b => cmp a.1 b.1 = .lt := by
    refine List.pairwise_append.mpr ⟨Std.ExtTreeMap.ordered_keys_toList,
      List.pairwise_singleton _ _, fun a ha b hb => ?_⟩
    rw [List.mem_singleton.mp hb]
    exact h a.1 (by rw [mem_toList_iff.mp ha]; rfl)
  have heq : (t.insert k v).toList = t.toList ++ [(k, v)] := by
    refine hperm.eq_of_pairwise (fun a b _ _ hab hba => ?_)
      Std.ExtTreeMap.ordered_keys_toList hordered
    have hswap : cmp a.1 b.1 = (cmp b.1 a.1).swap := Std.OrientedCmp.eq_swap
    rw [hswap, hba] at hab
    cases hab
  rw [values, heq, List.map_append]
  rfl

/-! ## Totals -/

lemma total_insert_erase (f : ν → ℕ) (t : Std.ExtTreeMap κ ν cmp) (k : κ) (v : ν) :
    total f (t.insert k v) = f v + total f (t.erase k) := by
  have h := ((toList_insert_perm t k v).map Prod.snd).map f
  rw [total, values, h.sum_eq]
  rfl

/-- The total splits into the share of one key and the rest. -/
lemma total_eq_share (f : ν → ℕ) (t : Std.ExtTreeMap κ ν cmp) (k : κ) :
    total f t = (t[k]?.map f).getD 0 + total f (t.erase k) := by
  rcases hk : t[k]? with _ | v
  · simp [erase_of_vacant hk]
  · have h := total_insert_erase f t k v
    rw [insert_of_getElem? hk] at h
    exact h

/-- **A write moves the total by what it changes at its key.** -/
theorem total_insert (f : ν → ℕ) (t : Std.ExtTreeMap κ ν cmp) (k : κ) (v : ν) :
    total f (t.insert k v) + (t[k]?.map f).getD 0 = total f t + f v := by
  have h₁ := total_insert_erase f t k v
  have h₂ := total_eq_share f t k
  omega

lemma share_le_total (f : ν → ℕ) (t : Std.ExtTreeMap κ ν cmp) (k : κ) :
    (t[k]?.map f).getD 0 ≤ total f t := by
  have := total_eq_share f t k
  omega

/-- Entries of new keys add up. -/
lemma total_insertAll (f : ν → ℕ) {t : Std.ExtTreeMap κ ν cmp} {l : List (κ × ν)}
    (hl : (l.map Prod.fst).Nodup) (hnew : ∀ e ∈ l, t[e.1]? = none) :
    total f (insertAll t l) = total f t + (l.map fun e => f e.2).sum := by
  induction l generalizing t with
  | nil => rfl
  | cons e l ih =>
    rw [List.map_cons, List.nodup_cons] at hl
    have htotal := total_insert f t e.1 e.2
    rw [hnew e List.mem_cons_self, Option.map_none, Option.getD_none, Nat.add_zero] at htotal
    have hrest : ∀ e' ∈ l, (t.insert e.1 e.2)[e'.1]? = none := fun e' he' => by
      have hne : e'.1 ≠ e.1 := fun heq => hl.1 (heq ▸ List.mem_map_of_mem (f := Prod.fst) he')
      rw [getElem?_insert, if_neg hne]
      exact hnew e' (List.mem_cons_of_mem _ he')
    rw [insertAll_cons, ih hl.2 hrest, htotal, List.map_cons, List.sum_cons, Nat.add_assoc]

end Lawful

end ZenoChain.Table
