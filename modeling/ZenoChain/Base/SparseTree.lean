/-
# Sparse Merkle trees

A tree of fixed depth over a list of entries, each with a key and a digest: a subtree without
entries has a digest of its own, an inner node combines its two halves, and a leaf has the
digest of the first entry that reaches it.  A key is read one bit at a level.  What stands at
the leaf of a key is recovered from the siblings along its path, and where no two nodes
collide the root determines the first entry at every leaf, and nothing else.
-/
import Mathlib.Data.Set.Function

namespace ZenoChain.SparseTree

variable {κ δ : Type} (bit : κ → ℕ → Bool) (node : δ → δ → δ) (blank : δ)

/-- The digest of a subtree with `n` levels and no entries. -/
def emptyRoot : ℕ → δ
  | 0 => blank
  | n + 1 => node (emptyRoot n) (emptyRoot n)

/-- The entries whose keys have a given bit at the upper one of `n + 1` levels. -/
def half (n : ℕ) (b : Bool) (l : List (κ × δ)) : List (κ × δ) := l.filter fun x => bit x.1 n = b

/-- The digest of a subtree with `n` levels. -/
def root : ℕ → List (κ × δ) → δ
  | n, [] => emptyRoot node blank n
  | 0, x :: _ => x.2
  | n + 1, l@(_ :: _) => node (root n (half bit n false l)) (root n (half bit n true l))

/-- The siblings along the path of a key, from the root down. -/
def siblings : ℕ → List (κ × δ) → κ → List δ
  | 0, _, _ => []
  | n + 1, l, k => root bit node blank n (half bit n (!bit k n) l) ::
      siblings n (half bit n (bit k n) l) k

/-- The root to which a leaf leads along the path of a key with the given siblings. -/
def climb (k : κ) : List δ → δ → δ
  | [], leaf => leaf
  | s :: rest, leaf =>
    if bit k rest.length then node s (climb k rest leaf) else node (climb k rest leaf) s

/-- Two keys lead to the same leaf of a subtree with `n` levels. -/
def Meet (n : ℕ) (k k' : κ) : Prop := ∀ i < n, bit k i = bit k' i

instance (n : ℕ) (k k' : κ) : Decidable (Meet bit n k k') :=
  inferInstanceAs (Decidable (∀ i < n, _))

/-- The first entry at the leaf of a key. -/
def first (n : ℕ) (l : List (κ × δ)) (k : κ) : Option (κ × δ) := l.find? fun x => Meet bit n k x.1

/-- The digest at the leaf of a key. -/
def leafAt (n : ℕ) (l : List (κ × δ)) (k : κ) : δ := ((first bit n l k).map Prod.snd).getD blank

/-- The pairs that are combined in a subtree. -/
def nodes : ℕ → List (κ × δ) → Set (δ × δ)
  | 0, _ => ∅
  | n + 1, l =>
    insert (root bit node blank n (half bit n false l), root bit node blank n (half bit n true l))
      (nodes n (half bit n false l) ∪ nodes n (half bit n true l))

/-- The pairs that are combined on the way up from a leaf. -/
def climbed (k : κ) : List δ → δ → List (δ × δ)
  | [], _ => []
  | s :: rest, leaf =>
    (if bit k rest.length then (s, climb bit node k rest leaf)
      else (climb bit node k rest leaf, s)) :: climbed k rest leaf

variable {bit node blank}

lemma half_true (n : ℕ) (l : List (κ × δ)) : half bit n true l = l.filter fun x => bit x.1 n := by
  refine List.filter_congr fun x _ => ?_
  cases bit x.1 n <;> rfl

lemma half_false (n : ℕ) (l : List (κ × δ)) :
    half bit n false l = l.filter fun x => ¬ bit x.1 n := by
  refine List.filter_congr fun x _ => ?_
  cases bit x.1 n <;> rfl

lemma root_succ (n : ℕ) (l : List (κ × δ)) : root bit node blank (n + 1) l =
    node (root bit node blank n (half bit n false l)) (root bit node blank n (half bit n true l)) := by
  cases l with
  | nil => rw [half, half, List.filter_nil, List.filter_nil, root, root, emptyRoot]
  | cons => rw [root]

lemma length_siblings (n : ℕ) (l : List (κ × δ)) (k : κ) :
    (siblings bit node blank n l k).length = n := by
  induction n generalizing l with
  | zero => rfl
  | succ n ih => rw [siblings, List.length_cons, ih]

/-! ## One level -/

lemma meet_succ {n : ℕ} {k k' : κ} : Meet bit (n + 1) k k' ↔ bit k' n = bit k n ∧ Meet bit n k k' := by
  constructor
  · exact fun h => ⟨(h n (Nat.lt_succ_self n)).symm, fun i hi => h i (Nat.lt_succ_of_lt hi)⟩
  · rintro ⟨hbit, h⟩ i hi
    rcases Nat.lt_succ_iff_lt_or_eq.mp hi with hlt | rfl
    · exact h i hlt
    · exact hbit.symm

/-- The first entry at a leaf lies in the half of its key. -/
lemma first_succ (n : ℕ) (l : List (κ × δ)) (k : κ) :
    first bit (n + 1) l k = first bit n (half bit n (bit k n) l) k := by
  rw [first, first, half, List.find?_filter]
  refine congrArg (List.find? · l) (funext fun x => ?_)
  rw [Bool.eq_iff_iff]
  simp only [decide_eq_true_eq, meet_succ]

lemma leafAt_succ (n : ℕ) (l : List (κ × δ)) (k : κ) :
    leafAt bit blank (n + 1) l k = leafAt bit blank n (half bit n (bit k n) l) k := by
  rw [leafAt, leafAt, first_succ]

lemma leafAt_zero (l : List (κ × δ)) (k : κ) : leafAt bit blank 0 l k = root bit node blank 0 l := by
  cases l with
  | nil => rfl
  | cons x l =>
    have hmeet : Meet bit 0 k x.1 := fun i hi => absurd hi (Nat.not_lt_zero i)
    rw [leafAt, first, List.find?_cons_of_pos (by simpa using hmeet)]
    rfl

/-! ## Paths -/

/-- **Completeness.**  From the digest at its leaf, the siblings of a key lead to the root. -/
theorem climb_siblings (n : ℕ) (l : List (κ × δ)) (k : κ) :
    climb bit node k (siblings bit node blank n l k) (leafAt bit blank n l k) =
      root bit node blank n l := by
  induction n generalizing l with
  | zero => exact leafAt_zero l k
  | succ n ih =>
    rw [siblings, climb, length_siblings, leafAt_succ, ih, root_succ]
    cases hbit : bit k n <;> rfl

/-- The way up along the siblings of a key combines pairs of the tree only. -/
lemma mem_nodes_of_climbed {n : ℕ} {l : List (κ × δ)} {k : κ} {p : δ × δ}
    (h : p ∈ climbed bit node k (siblings bit node blank n l k) (leafAt bit blank n l k)) :
    p ∈ nodes bit node blank n l := by
  induction n generalizing l with
  | zero => cases h
  | succ n ih =>
    rw [siblings, climbed, length_siblings, leafAt_succ, climb_siblings] at h
    rw [nodes]
    rcases List.mem_cons.mp h with rfl | hbelow
    · cases hbit : bit k n <;> exact Set.mem_insert _ _
    · have hhalf := ih hbelow
      cases hbit : bit k n
      · rw [hbit] at hhalf
        exact .inr (.inl hhalf)
      · rw [hbit] at hhalf
        exact .inr (.inr hhalf)

/-- **Soundness.**  Where no two pairs collide, two leaves that lead to the same root along the
path of a key are the same, and so are their siblings. -/
theorem climb_inj {k : κ} {s s' : List δ} {leaf leaf' : δ} (hlength : s.length = s'.length)
    (hinj : Set.InjOn (Function.uncurry node)
      {p | p ∈ climbed bit node k s leaf ++ climbed bit node k s' leaf'})
    (h : climb bit node k s leaf = climb bit node k s' leaf') : leaf = leaf' ∧ s = s' := by
  induction s generalizing s' with
  | nil =>
    obtain rfl := List.length_eq_zero_iff.mp hlength.symm
    exact ⟨h, rfl⟩
  | cons d rest ih =>
    rcases s' with _ | ⟨d', rest'⟩
    · cases hlength
    · have hrest : rest.length = rest'.length := Nat.succ.inj hlength
      have hsub : climbed bit node k rest leaf ++ climbed bit node k rest' leaf' ⊆
          climbed bit node k (d :: rest) leaf ++ climbed bit node k (d' :: rest') leaf' :=
        fun p hp => List.mem_append.mpr ((List.mem_append.mp hp).imp (.tail _) (.tail _))
      have hpair := hinj (List.mem_append_left _ List.mem_cons_self)
        (List.mem_append_right _ List.mem_cons_self)
      rw [climb, climb, hrest] at h
      rw [hrest] at hpair
      cases hbit : bit k rest'.length
      · rw [hbit] at h hpair
        obtain ⟨hbelow, rfl⟩ := Prod.mk.inj (hpair h)
        obtain ⟨rfl, rfl⟩ := ih hrest (hinj.mono hsub) hbelow
        exact ⟨rfl, rfl⟩
      · rw [hbit] at h hpair
        obtain ⟨rfl, hbelow⟩ := Prod.mk.inj (hpair h)
        obtain ⟨rfl, rfl⟩ := ih hrest (hinj.mono hsub) hbelow
        exact ⟨rfl, rfl⟩

/-! ## Roots -/

/-- **Binding.**  Where no two pairs collide, equal roots have the same digest at every leaf. -/
theorem leafAt_of_root_eq {n : ℕ} {l l' : List (κ × δ)}
    (hinj : (nodes bit node blank n l ∪ nodes bit node blank n l').InjOn (Function.uncurry node))
    (h : root bit node blank n l = root bit node blank n l') (k : κ) :
    leafAt bit blank n l k = leafAt bit blank n l' k := by
  rw [← climb_siblings n l k, ← climb_siblings n l' k] at h
  refine (climb_inj ?_ (hinj.mono ?_) h).1
  · rw [length_siblings, length_siblings]
  · intro p hp
    exact (List.mem_append.mp hp).imp mem_nodes_of_climbed mem_nodes_of_climbed

/-- The root depends on the first digests at the leaves of the keys only. -/
theorem root_congr {n : ℕ} {l l' : List (κ × δ)}
    (h : ∀ x ∈ l ++ l', (first bit n l x.1).map Prod.snd = (first bit n l' x.1).map Prod.snd) :
    root bit node blank n l = root bit node blank n l' := by
  induction n generalizing l l' with
  | zero =>
    have hmeet : ∀ (k : κ) (x : κ × δ), Meet bit 0 k x.1 := fun k x i hi => absurd hi (Nat.not_lt_zero i)
    have hfirst : ∀ (x : κ × δ) (l : List (κ × δ)) (k : κ), first bit 0 (x :: l) k = some x :=
      fun x l k => List.find?_cons_of_pos (by simpa using hmeet k x)
    rcases l with _ | ⟨x, l⟩ <;> rcases l' with _ | ⟨x', l'⟩
    · rfl
    · have hx := h x' (by simp)
      rw [hfirst] at hx
      cases hx
    · have hx := h x (by simp)
      rw [hfirst] at hx
      cases hx
    · have hx := h x (by simp)
      rw [hfirst, hfirst] at hx
      exact Option.some.inj hx
  | succ n ih =>
    rw [root_succ, root_succ]
    have hhalf : ∀ b, root bit node blank n (half bit n b l) = root bit node blank n (half bit n b l') := by
      intro b
      refine ih fun x hx => ?_
      -- An entry of a half has the bit of that half.
      have hmem : x ∈ l ++ l' ∧ bit x.1 n = b := by
        rw [half, half, ← List.filter_append, List.mem_filter] at hx
        exact ⟨hx.1, by simpa using hx.2⟩
      have hx' := h x hmem.1
      rwa [first_succ, first_succ, hmem.2] at hx'
    rw [hhalf false, hhalf true]

/-! ## Trees with one leaf -/

/-- The pairs of the empty subtrees with less than `n` levels and one more. -/
def blanks (node : δ → δ → δ) (blank : δ) (n : ℕ) : List (δ × δ) :=
  (List.range n).map fun i => (emptyRoot node blank i, emptyRoot node blank i)

lemma mem_blanks_succ {n : ℕ} {p : δ × δ} (h : p ∈ blanks node blank n) :
    p ∈ blanks node blank (n + 1) := by
  rw [blanks, List.range_succ, List.map_append]
  exact List.mem_append_left _ h

/-- The pairs of a tree without entries. -/
lemma mem_blanks_of_nodes_nil {n : ℕ} {p : δ × δ} (h : p ∈ nodes bit node blank n []) :
    p ∈ blanks node blank n := by
  induction n with
  | zero => cases h
  | succ n ih =>
    have hnil : ∀ b, half bit n b ([] : List (κ × δ)) = [] := fun _ => rfl
    have hroot : root bit node blank n ([] : List (κ × δ)) = emptyRoot node blank n := by rw [root]
    rw [nodes, hnil, hnil, hroot, Set.union_self] at h
    rcases h with rfl | hbelow
    · rw [blanks, List.range_succ, List.map_append]
      exact List.mem_append_right _ List.mem_cons_self
    · exact mem_blanks_succ (ih hbelow)

/-- The siblings on a path beside which there are no entries. -/
def blankSiblings (node : δ → δ → δ) (blank : δ) : ℕ → List δ
  | 0 => []
  | n + 1 => emptyRoot node blank n :: blankSiblings node blank n

/-- Where all entries lie on one path, one half holds all of them and the other one none. -/
lemma halves_of_meet {n : ℕ} {l : List (κ × δ)} {k : κ} (h : ∀ x ∈ l, Meet bit (n + 1) k x.1) :
    half bit n (bit k n) l = l ∧ half bit n (!bit k n) l = [] := by
  constructor
  · exact List.filter_eq_self.mpr fun x hx => by simp [(meet_succ.mp (h x hx)).1]
  · exact List.filter_eq_nil_iff.mpr fun x hx => by simp [(meet_succ.mp (h x hx)).1]

lemma siblings_of_meet {n : ℕ} {l : List (κ × δ)} {k : κ} (h : ∀ x ∈ l, Meet bit n k x.1) :
    siblings bit node blank n l k = blankSiblings node blank n := by
  induction n with
  | zero => rfl
  | succ n ih =>
    obtain ⟨hown, hother⟩ := halves_of_meet h
    rw [siblings, hown, hother, root, blankSiblings, ih fun x hx => (meet_succ.mp (h x hx)).2]

/-- Where all entries lie on one path, the pairs of the tree are those on the way up and those
of the empty subtrees. -/
lemma mem_climbed_of_nodes {n : ℕ} {l : List (κ × δ)} {k : κ} (h : ∀ x ∈ l, Meet bit n k x.1)
    {p : δ × δ} (hp : p ∈ nodes bit node blank n l) :
    p ∈ blanks node blank n ++
      climbed bit node k (siblings bit node blank n l k) (leafAt bit blank n l k) := by
  induction n with
  | zero => cases hp
  | succ n ih =>
    rw [nodes] at hp
    rw [siblings, climbed, length_siblings, leafAt_succ, climb_siblings]
    obtain ⟨hown, hother⟩ := halves_of_meet h
    have hmeet : ∀ x ∈ l, Meet bit n k x.1 := fun x hx => (meet_succ.mp (h x hx)).2
    rw [hown]
    have hbelow : p ∈ nodes bit node blank n l ∨ p ∈ nodes bit node blank n ([] : List (κ × δ)) →
        p ∈ blanks node blank (n + 1) ++
          climbed bit node k (siblings bit node blank n l k) (leafAt bit blank n l k) := by
      rintro (hhalf | hhalf)
      · exact List.mem_append.mpr ((List.mem_append.mp (ih hmeet hhalf)).imp_left mem_blanks_succ)
      · exact List.mem_append_left _ (mem_blanks_succ (mem_blanks_of_nodes_nil hhalf))
    have hcons : ∀ (x : δ × δ) (l l' : List (δ × δ)), p ∈ l ++ l' → p ∈ l ++ x :: l' :=
      fun x l l' hq => List.mem_append.mpr ((List.mem_append.mp hq).imp_right (.tail _))
    rcases hp with rfl | hp
    · refine List.mem_append_right _ ?_
      cases hbit : bit k n
      all_goals
        rw [hbit] at hown
        rw [hown]
        exact List.mem_cons_self
    · refine hcons _ _ _ (hbelow ?_)
      cases hbit : bit k n
      all_goals rw [hbit] at hown hother
      · exact hown ▸ hother ▸ hp
      · exact (hown ▸ hother ▸ hp).symm

end ZenoChain.SparseTree
