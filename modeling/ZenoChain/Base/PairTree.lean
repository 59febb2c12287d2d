/-
# Trees over rows of pairs

A row is halved by combining neighbours, a last entry without neighbour with itself, until one
entry is left.  So the tree stands on the first row followed by copies of some of its last
entries.  Where no two pairs collide the entry at the top tells the first row among those of the
same length; if moreover no entry of the first row is the value of a pair, it tells the row with
the copies, whatever its length.
-/
import Mathlib.Algebra.Order.Ring.Nat
import Mathlib.Data.List.Perm.Subperm
import Mathlib.Data.Set.Function

namespace ZenoChain.PairTree

variable {α β δ : Type}

/-- The pairs that are combined for the next row. -/
def pairs : List α → List (α × α)
  | [] => []
  | [a] => [(a, a)]
  | a :: b :: l => (a, b) :: pairs l

/-- The next row. -/
def row (node : δ → δ → δ) (l : List δ) : List δ := (pairs l).map (Function.uncurry node)

/-- The row with at most one entry, reached in at most that many rounds. -/
def climb (node : δ → δ → δ) : ℕ → List δ → List δ
  | 0, l => l
  | n + 1, l => if l.length ≤ 1 then l else climb node n (row node l)

/-- All pairs that are combined on the way. -/
def combined (node : δ → δ → δ) : ℕ → List δ → List (δ × δ)
  | 0, _ => []
  | n + 1, l => if l.length ≤ 1 then [] else pairs l ++ combined node n (row node l)

lemma length_pairs (l : List α) : (pairs l).length = (l.length + 1) / 2 := by
  induction l using pairs.induct with
  | case1 => simp [pairs]
  | case2 a => simp [pairs]
  | case3 a b l ih =>
    rw [pairs, List.length_cons, ih]
    simp only [List.length_cons]
    omega

lemma pairs_map (f : α → β) (l : List α) : pairs (l.map f) = (pairs l).map (Prod.map f f) := by
  induction l using pairs.induct with
  | case1 => rfl
  | case2 a => rfl
  | case3 a b l ih =>
    simp only [List.map_cons, pairs] at ih ⊢
    rw [ih]
    rfl

/-- Both entries of a pair are entries of the row. -/
lemma mem_of_mem_pairs {l : List α} {p : α × α} (h : p ∈ pairs l) : p.1 ∈ l ∧ p.2 ∈ l := by
  induction l using pairs.induct with
  | case1 => cases h
  | case2 a =>
    obtain rfl := List.mem_singleton.mp h
    exact ⟨List.mem_cons_self, List.mem_cons_self⟩
  | case3 a b l ih =>
    rcases List.mem_cons.mp h with rfl | h
    · simp
    · obtain ⟨hfst, hsnd⟩ := ih h
      exact ⟨by simp [hfst], by simp [hsnd]⟩

/-- The pairs tell a row of known length. -/
lemma pairs_inj {l l' : List α} (hlength : l.length = l'.length) (h : pairs l = pairs l') :
    l = l' := by
  induction l using pairs.induct generalizing l' with
  | case1 => exact (List.length_eq_zero_iff.mp hlength.symm).symm
  | case2 a =>
    obtain ⟨a', rfl⟩ := List.length_eq_one_iff.mp hlength.symm
    simp only [pairs, List.cons.injEq, Prod.mk.injEq, and_true, and_self] at h
    rw [h]
  | case3 a b l ih =>
    match l' with
    | [] | [_] => simp at hlength
    | a' :: b' :: l' =>
      simp only [pairs, List.cons.injEq, Prod.mk.injEq] at h
      obtain ⟨⟨rfl, rfl⟩, hrest⟩ := h
      rw [ih (by simpa using hlength) hrest]

section

variable {node : δ → δ → δ} {l l' : List δ}

lemma length_row : (row node l).length = (l.length + 1) / 2 := by
  rw [row, List.length_map, length_pairs]

/-- Lists on whose entries a function is injective are told by their images. -/
lemma map_inj_of_injOn {f : α → β} {l l' : List α} (hinj : Set.InjOn f {a | a ∈ l ++ l'})
    (h : l.map f = l'.map f) : l = l' := by
  induction l generalizing l' with
  | nil => exact (List.map_eq_nil_iff.mp h.symm).symm
  | cons a l ih =>
    cases l' with
    | nil => cases h
    | cons a' l' =>
      obtain ⟨hhead, htail⟩ := List.cons.inj h
      have hsub : {b | b ∈ l ++ l'} ⊆ {b | b ∈ a :: l ++ a' :: l'} := fun b hb => by
        simp only [Set.mem_ofPred_eq, List.mem_append, List.mem_cons] at hb ⊢
        tauto
      rw [hinj (by simp) (by simp) hhead, ih (hinj.mono hsub) htail]

/-- **Rows of the same length.**  Where no two pairs collide, they lead to different tops. -/
theorem climb_inj {n : ℕ} (hlength : l.length = l'.length)
    (hinj : Set.InjOn (Function.uncurry node) {p | p ∈ combined node n l ++ combined node n l'})
    (h : climb node n l = climb node n l') : l = l' := by
  induction n generalizing l l' with
  | zero => exact h
  | succ n ih =>
    simp only [climb, combined, ← hlength] at h hinj
    by_cases hle : l.length ≤ 1
    · rwa [if_pos hle, if_pos hle] at h
    · simp only [if_neg hle] at h hinj
      have hrow : row node l = row node l' := by
        refine ih (by rw [length_row, length_row, hlength]) (hinj.mono fun p hp => ?_) h
        simp only [List.mem_append, Set.mem_ofPred_eq] at hp ⊢
        tauto
      refine pairs_inj hlength (map_inj_of_injOn (hinj.mono fun p hp => ?_) hrow)
      simp only [List.mem_append, Set.mem_ofPred_eq] at hp ⊢
      tauto

/-- A function that respects the combination carries rows to rows. -/
lemma map_climb (node' : β → β → β) {f : δ → β} (hf : ∀ a b, f (node a b) = node' (f a) (f b))
    (n : ℕ) (l : List δ) : (climb node n l).map f = climb node' n (l.map f) := by
  induction n generalizing l with
  | zero => rfl
  | succ n ih =>
    have hrow : (row node l).map f = row node' (l.map f) := by
      rw [row, row, pairs_map, List.map_map, List.map_map]
      exact List.map_congr_left fun p _ => hf p.1 p.2
    rw [climb, climb, List.length_map, ← hrow, ← ih]
    split <;> rfl

end

/-! ## The tree -/

/-- Binary trees. -/
inductive Tree (α : Type)
  | leaf (a : α)
  | node (s t : Tree α)

namespace Tree

/-- The value at the top, from the values of the leaves. -/
def eval (node : δ → δ → δ) : Tree δ → δ
  | leaf a => a
  | .node s t => node (s.eval node) (t.eval node)

/-- The pairs that are combined in the tree. -/
def combined (node : δ → δ → δ) : Tree δ → List (δ × δ)
  | leaf _ => []
  | .node s t => (s.eval node, t.eval node) :: (s.combined node ++ t.combined node)

/-- The row of leaves. -/
def fringe : Tree α → List α
  | leaf a => [a]
  | node s t => s.fringe ++ t.fringe

/-- The tree with its leaves replaced. -/
def map (f : α → β) : Tree α → Tree β
  | leaf a => leaf (f a)
  | node s t => node (s.map f) (t.map f)

lemma fringe_map (f : α → β) (t : Tree α) : (t.map f).fringe = t.fringe.map f := by
  induction t with
  | leaf a => rfl
  | node s t hs ht => rw [map, fringe, hs, ht, fringe, List.map_append]

/-- All leaves are at the same depth. -/
def Level : ℕ → Tree α → Prop
  | 0, leaf _ => True
  | k + 1, node s t => s.Level k ∧ t.Level k
  | _, _ => False

lemma Level.length_fringe {k : ℕ} {t : Tree α} (h : t.Level k) : t.fringe.length = 2 ^ k := by
  induction t generalizing k with
  | leaf a =>
    match k with
    | 0 => rfl
    | k + 1 => exact h.elim
  | node s t hs ht =>
    match k with
    | 0 => exact h.elim
    | k + 1 =>
      rw [fringe, List.length_append, hs h.1, ht h.2, Nat.pow_succ]
      omega

/-- A level tree is told by its leaves. -/
lemma Level.eq_of_fringe {k k' : ℕ} {t t' : Tree α} (h : t.Level k) (h' : t'.Level k')
    (hfringe : t.fringe = t'.fringe) : t = t' := by
  induction t generalizing k k' t' with
  | leaf a =>
    match t', k' with
    | leaf a', _ => rw [List.singleton_inj.mp hfringe]
    | node _ _, 0 => exact h'.elim
    | node s' t', k' + 1 =>
      have hlength := congrArg List.length hfringe
      rw [h'.length_fringe, fringe, List.length_singleton, Nat.pow_succ] at hlength
      omega
  | node s t hs ht =>
    match k, t', k' with
    | 0, _, _ => exact h.elim
    | k + 1, leaf _, _ =>
      have hlength := congrArg List.length hfringe
      rw [h.length_fringe, fringe, List.length_singleton, Nat.pow_succ] at hlength
      omega
    | k + 1, node _ _, 0 => exact h'.elim
    | k + 1, node s' t', k' + 1 =>
      have hpow : 2 ^ (k + 1) = 2 ^ (k' + 1) := by
        rw [← h.length_fringe, ← h'.length_fringe, hfringe]
      obtain ⟨hleft, hright⟩ := List.append_inj hfringe <| by
        rw [h.1.length_fringe, h'.1.length_fringe]
        exact congrArg (2 ^ ·) (Nat.succ.inj (Nat.pow_right_injective le_rfl hpow))
      rw [hs h.1 h'.1 hleft, ht h.2 h'.2 hright]

/-- **Trees of any shapes.**  Where no two pairs collide and no leaf is the value of a pair,
the value at the top tells the tree. -/
theorem eval_inj {node : δ → δ → δ} {t t' : Tree δ}
    (hinj : Set.InjOn (Function.uncurry node) {p | p ∈ t.combined node ++ t'.combined node})
    (hleaf : ∀ a ∈ t.fringe ++ t'.fringe, ∀ p ∈ t.combined node ++ t'.combined node,
      a ≠ Function.uncurry node p)
    (h : t.eval node = t'.eval node) : t = t' := by
  induction t generalizing t' with
  | leaf a =>
    cases t' with
    | leaf a' => exact congrArg leaf h
    | node s' t' =>
      exact absurd h (hleaf a (by simp [fringe]) (s'.eval node, t'.eval node) (by simp [combined]))
  | node s t hs ht =>
    cases t' with
    | leaf a' =>
      exact absurd h.symm
        (hleaf a' (by simp [fringe]) (s.eval node, t.eval node) (by simp [combined]))
    | node s' t' =>
      have hpair : (s.eval node, t.eval node) = (s'.eval node, t'.eval node) :=
        hinj (by simp [combined]) (by simp [combined]) h
      obtain ⟨hleft, hright⟩ := Prod.mk.inj hpair
      have hs : s = s' := hs (hinj.mono fun p hp => ?_) (fun a ha p hp => hleaf a ?_ p ?_) hleft
      have ht : t = t' := ht (hinj.mono fun p hp => ?_) (fun a ha p hp => hleaf a ?_ p ?_) hright
      · rw [hs, ht]
      all_goals
        simp only [Set.mem_ofPred_eq, combined, fringe, List.mem_append, List.mem_cons] at *
        tauto

end Tree

/-- The tree above a row that is not empty. -/
def trees (l : List α) : List (Tree α) := climb Tree.node l.length (l.map Tree.leaf)

/-- The leaves of the tree: the row and the copies of its last entries. -/
def completed (l : List α) : List α := (trees l).flatMap Tree.fringe

example : completed [1, 2, 3, 4, 5] = [1, 2, 3, 4, 5, 5, 5, 5] := by decide

lemma mem_row {node : δ → δ → δ} {l : List δ} {a : δ} :
    a ∈ row node l ↔ ∃ p ∈ pairs l, node p.1 p.2 = a := by
  rw [row, List.mem_map]
  rfl

lemma length_climb_le {node : δ → δ → δ} {n : ℕ} {l : List δ} (h : l.length ≤ n + 1) :
    (climb node n l).length ≤ 1 := by
  induction n generalizing l with
  | zero => exact h
  | succ n ih =>
    rw [climb]
    split
    · assumption
    · exact ih (by rw [length_row]; omega)

section

variable {ts : List (Tree α)} {n : ℕ}

lemma level_climb {k : ℕ} (h : ∀ t ∈ ts, t.Level k) :
    ∃ k', ∀ t ∈ climb Tree.node n ts, t.Level k' := by
  induction n generalizing ts k with
  | zero => exact ⟨k, h⟩
  | succ n ih =>
    rw [climb]
    split
    · exact ⟨k, h⟩
    · refine ih (k := k + 1) fun t ht => ?_
      obtain ⟨p, hp, rfl⟩ := mem_row.mp ht
      obtain ⟨hfst, hsnd⟩ := mem_of_mem_pairs hp
      exact ⟨h _ hfst, h _ hsnd⟩

/-- A round keeps the leaves, perhaps with copies of the last ones behind them. -/
lemma fringe_row (ts : List (Tree α)) :
    ts.flatMap Tree.fringe <+: (row Tree.node ts).flatMap Tree.fringe ∧
      (row Tree.node ts).flatMap Tree.fringe ⊆ ts.flatMap Tree.fringe := by
  induction ts using pairs.induct with
  | case1 => exact ⟨List.prefix_refl _, List.Subset.refl _⟩
  | case2 t => simp [row, pairs, Tree.fringe]
  | case3 s t ts ih =>
    have hrow : row Tree.node (s :: t :: ts) = Tree.node s t :: row Tree.node ts := rfl
    simp only [hrow, List.flatMap_cons, Tree.fringe, ← List.append_assoc]
    refine ⟨(List.prefix_append_right_inj _).mpr ih.1, fun a ha => ?_⟩
    rcases List.mem_append.mp ha with ha | ha
    · exact List.mem_append_left _ ha
    · exact List.mem_append_right _ (ih.2 ha)

lemma fringe_climb (n : ℕ) (ts : List (Tree α)) :
    ts.flatMap Tree.fringe <+: (climb Tree.node n ts).flatMap Tree.fringe ∧
      (climb Tree.node n ts).flatMap Tree.fringe ⊆ ts.flatMap Tree.fringe := by
  induction n generalizing ts with
  | zero => exact ⟨List.prefix_refl _, List.Subset.refl _⟩
  | succ n ih =>
    rw [climb]
    split
    · exact ⟨List.prefix_refl _, List.Subset.refl _⟩
    · obtain ⟨hinit, hsubset⟩ := fringe_row ts
      obtain ⟨hinit', hsubset'⟩ := ih (row Tree.node ts)
      exact ⟨hinit.trans hinit', List.Subset.trans hsubset' hsubset⟩

end

lemma flatMap_fringe_leaf (l : List α) : (l.map Tree.leaf).flatMap Tree.fringe = l := by
  rw [List.flatMap_map]
  exact List.flatMap_singleton' l

lemma prefix_completed (l : List α) : l <+: completed l := by
  have h := (fringe_climb l.length (l.map Tree.leaf)).1
  rwa [flatMap_fringe_leaf] at h

lemma completed_subset (l : List α) : completed l ⊆ l := by
  have h := (fringe_climb l.length (l.map Tree.leaf)).2
  rwa [flatMap_fringe_leaf] at h

lemma completed_eq_nil_iff {l : List α} : completed l = [] ↔ l = [] := by
  constructor
  · intro h
    have hinit := prefix_completed l
    rwa [h, List.prefix_nil] at hinit
  · rintro rfl
    rfl

lemma completed_map (f : α → β) (l : List α) : completed (l.map f) = (completed l).map f := by
  have htrees : trees (l.map f) = (trees l).map (Tree.map f) := by
    rw [trees, trees, map_climb Tree.node (fun _ _ => rfl), List.length_map,
      List.map_map, List.map_map]
    rfl
  rw [completed, htrees, completed, List.flatMap_map, List.map_flatMap]
  exact congrArg (List.flatMap · _) (funext fun t => Tree.fringe_map f t)

/-- A function that is injective on the entries keeps the leaves apart. -/
lemma completed_map_eq_iff {f : α → β} {l l' : List α} (hinj : Set.InjOn f {a | a ∈ l ++ l'}) :
    completed (l.map f) = completed (l'.map f) ↔ completed l = completed l' := by
  rw [completed_map, completed_map]
  refine ⟨map_inj_of_injOn (hinj.mono fun a ha => ?_), fun h => by rw [h]⟩
  exact List.mem_append.mpr ((List.mem_append.mp ha).imp (fun h => completed_subset l h)
    fun h => completed_subset l' h)

/-- The leaves tell a row of known length, and a row without repeated entries. -/
lemma eq_of_completed {l l' : List α} (h : completed l = completed l')
    (htell : l.length = l'.length ∨ l.Nodup ∧ l'.Nodup) : l = l' := by
  have hle : ∀ {r r' : List α}, r.Nodup → completed r = completed r' → r.length ≤ r'.length :=
    fun {r r'} hr heq => by
      have hsub : r ⊆ r' := fun a ha => completed_subset r' (heq ▸ (prefix_completed r).subset ha)
      exact (List.Nodup.subperm hr hsub).length_le
  have hlength : l.length = l'.length := by
    rcases htell with hlength | ⟨hl, hl'⟩
    · exact hlength
    · exact le_antisymm (hle hl h) (hle hl' h.symm)
  have hinit := prefix_completed l
  rw [h] at hinit
  exact (List.prefix_of_prefix_length_le hinit (prefix_completed l') hlength.le).eq_of_length
    hlength

section

variable {node : δ → δ → δ} {l l' : List δ}

lemma trees_eval (node : δ → δ → δ) (l : List δ) : (trees l).map (Tree.eval node) = climb node l.length l := by
  rw [trees, map_climb node (fun _ _ => rfl), List.map_map]
  exact congrArg _ (List.map_id l)

/-- The pairs that are combined in the trees of a row are those of the trees below and those
combined on the way. -/
lemma combined_climb (node : δ → δ → δ) (n : ℕ) (ts : List (Tree δ)) :
    (climb Tree.node n ts).flatMap (Tree.combined node) ⊆
      ts.flatMap (Tree.combined node) ++ combined node n (ts.map (Tree.eval node)) := by
  induction n generalizing ts with
  | zero => exact List.subset_append_left _ _
  | succ n ih =>
    rw [climb, combined, List.length_map]
    split
    · exact List.subset_append_left _ _
    · have heval : (row Tree.node ts).map (Tree.eval node) = row node (ts.map (Tree.eval node)) := by
        rw [row, row, pairs_map, List.map_map, List.map_map]
        rfl
      refine List.Subset.trans (ih (row Tree.node ts)) ?_
      rw [heval]
      refine List.append_subset.mpr ⟨fun p hp => ?_, fun p hp => by simp [hp]⟩
      obtain ⟨t, ht, hp⟩ := List.mem_flatMap.mp hp
      obtain ⟨q, hq, rfl⟩ := mem_row.mp ht
      obtain ⟨hfst, hsnd⟩ := mem_of_mem_pairs hq
      rcases List.mem_cons.mp hp with rfl | hp
      · have hmem : Prod.map (Tree.eval node) (Tree.eval node) q ∈ pairs (ts.map (Tree.eval node)) := by
          rw [pairs_map]
          exact List.mem_map_of_mem hq
        simp only [List.mem_append]
        exact .inr (.inl hmem)
      · refine List.mem_append_left _ ?_
        rcases List.mem_append.mp hp with hp | hp
        · exact List.mem_flatMap.mpr ⟨_, hfst, hp⟩
        · exact List.mem_flatMap.mpr ⟨_, hsnd, hp⟩

lemma combined_trees {t : Tree δ} (h : t ∈ trees l) : t.combined node ⊆ combined node l.length l := by
  have hsub := combined_climb node l.length (l.map Tree.leaf)
  have hnil : (l.map Tree.leaf).flatMap (Tree.combined node) = [] := by
    simp [List.flatMap_map, Tree.combined]
  have hid : (l.map Tree.leaf).map (Tree.eval node) = l := by
    rw [List.map_map]
    exact List.map_id l
  rw [hnil, hid, List.nil_append] at hsub
  exact fun p hp => hsub (List.mem_flatMap.mpr ⟨t, h, hp⟩)

lemma fringe_trees {t : Tree α} {l : List α} (h : t ∈ trees l) : t.fringe ⊆ l :=
  fun _ ha => completed_subset l (List.mem_flatMap.mpr ⟨t, h, ha⟩)

/-- The leaves tell the tree. -/
lemma trees_eq_of_completed {l l' : List α} (h : completed l = completed l') :
    trees l = trees l' := by
  have hlevel : ∀ r : List α, ∃ k, ∀ t ∈ trees r, t.Level k := fun r =>
    level_climb (k := 0) fun t ht => by
      obtain ⟨a, -, rfl⟩ := List.mem_map.mp ht
      trivial
  have hone : ∀ r : List α, (trees r).length ≤ 1 := fun r =>
    length_climb_le (by rw [List.length_map]; omega)
  have hpos : ∀ {k : ℕ} {t : Tree α}, t.Level k → t.fringe ≠ [] := fun ht hnil => by
    have := ht.length_fringe
    rw [hnil] at this
    exact absurd this.symm (Nat.two_pow_pos _).ne'
  obtain ⟨k, hk⟩ := hlevel l
  obtain ⟨k', hk'⟩ := hlevel l'
  have hl := hone l
  have hl' := hone l'
  simp only [completed] at h
  match hts : trees l, hts' : trees l' with
  | [], [] => rfl
  | [], [t'] =>
    rw [hts, hts'] at h
    exact absurd (by simpa using h.symm) (hpos (hk' t' (by simp [hts'])))
  | [t], [] =>
    rw [hts, hts'] at h
    exact absurd (by simpa using h) (hpos (hk t (by simp [hts])))
  | [t], [t'] =>
    rw [hts, hts'] at h
    rw [(hk t (by simp [hts])).eq_of_fringe (hk' t' (by simp [hts'])) (by simpa using h)]
  | _ :: _ :: _, _ => simp [hts] at hl
  | _, _ :: _ :: _ => simp [hts'] at hl'

/-- **Rows of any lengths.**  Where no two pairs collide and no entry is the value of a pair,
the tops agree exactly if the leaves do. -/
theorem climb_eq_iff
    (hinj : Set.InjOn (Function.uncurry node)
      {p | p ∈ combined node l.length l ++ combined node l'.length l'})
    (hleaf : ∀ a ∈ l ++ l', ∀ p ∈ combined node l.length l ++ combined node l'.length l',
      a ≠ Function.uncurry node p) :
    climb node l.length l = climb node l'.length l' ↔ completed l = completed l' := by
  constructor
  · intro h
    rw [← trees_eval, ← trees_eval] at h
    have hcombined : ∀ t ∈ trees l ++ trees l', t.combined node ⊆
        combined node l.length l ++ combined node l'.length l' := fun t ht => by
      rcases List.mem_append.mp ht with ht | ht
      · exact List.Subset.trans (combined_trees ht) (List.subset_append_left _ _)
      · exact List.Subset.trans (combined_trees ht) (List.subset_append_right _ _)
    have hfringe : ∀ t ∈ trees l ++ trees l', t.fringe ⊆ l ++ l' := fun t ht => by
      rcases List.mem_append.mp ht with ht | ht
      · exact List.Subset.trans (fringe_trees ht) (List.subset_append_left _ _)
      · exact List.Subset.trans (fringe_trees ht) (List.subset_append_right _ _)
    have htrees : trees l = trees l' := by
      refine map_inj_of_injOn (fun t ht t' ht' heq => ?_) h
      have hpairs := List.append_subset.mpr ⟨hcombined t ht, hcombined t' ht'⟩
      have hleaves := List.append_subset.mpr ⟨hfringe t ht, hfringe t' ht'⟩
      exact Tree.eval_inj (hinj.mono hpairs)
        (fun a ha p hp => hleaf a (hleaves ha) p (hpairs hp)) heq
    rw [completed, htrees, completed]
  · intro h
    rw [← trees_eval, ← trees_eval, trees_eq_of_completed h]

end

end ZenoChain.PairTree
