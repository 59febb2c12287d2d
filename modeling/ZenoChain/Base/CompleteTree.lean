/-
# Complete trees

A complete binary tree over an infinite row of leaves: the `i`-th subtree with `n` levels stands
above the leaves from `i * 2 ^ n` on.  A path leads from a subtree upwards; its siblings are the
neighbours of the subtrees on it.  From a subtree and its siblings the digest at the top of the
path is recovered, and where no two nodes collide nothing else leads there.
-/
import Mathlib.Algebra.Order.Ring.Nat
import Mathlib.Data.Set.Function

namespace ZenoChain.CompleteTree

variable {δ : Type} (node : δ → δ → δ)

/-- The digest of the `i`-th subtree with `n` levels. -/
def root (leaf : ℕ → δ) : ℕ → ℕ → δ
  | 0, i => leaf i
  | n + 1, i => node (root leaf n (i * 2)) (root leaf n (i * 2 + 1))

/-- The other child of the same node. -/
def sibling (i : ℕ) : ℕ := if i % 2 = 0 then i + 1 else i - 1

/-- The siblings on the path from the `i`-th subtree of a height over `n` levels, lowest first. -/
def path (leaf : ℕ → δ) : ℕ → ℕ → ℕ → List δ
  | _, 0, _ => []
  | h, n + 1, i => root node leaf h (sibling i) :: path leaf (h + 1) n (i / 2)

/-- The pair that is combined with a sibling. -/
def pair (x : δ) (i : ℕ) (s : δ) : δ × δ := if i % 2 = 0 then (x, s) else (s, x)

/-- The digest at the top of a path, from the one at its bottom and its siblings. -/
def climb : δ → ℕ → List δ → δ
  | x, _, [] => x
  | x, i, s :: rest => climb (Function.uncurry node (pair x i s)) (i / 2) rest

/-- The pairs that are combined on the way up. -/
def climbed : δ → ℕ → List δ → List (δ × δ)
  | _, _, [] => []
  | x, i, s :: rest => pair x i s :: climbed (Function.uncurry node (pair x i s)) (i / 2) rest

variable {node} {leaf leaf' : ℕ → δ}

/-- A subtree depends on its own leaves only. -/
lemma root_congr {n i : ℕ} (h : ∀ k, k / 2 ^ n = i → leaf k = leaf' k) :
    root node leaf n i = root node leaf' n i := by
  induction n generalizing i with
  | zero => exact h i (by simp)
  | succ n ih =>
    rw [root, root, ih fun k hk => h k ?_, ih fun k hk => h k ?_]
    all_goals
      rw [pow_succ, ← Nat.div_div_eq_div_mul, hk]
      omega

/-- Leaves that are all equal make the tree that is the same everywhere. -/
lemma root_const (empty : ℕ → δ) (hsucc : ∀ n, empty (n + 1) = node (empty n) (empty n)) (n i : ℕ) :
    root node (fun _ => empty 0) n i = empty n := by
  induction n generalizing i with
  | zero => rfl
  | succ n ih => rw [root, ih, ih, hsucc]

/-- A node combines one of its children with the sibling of this child. -/
lemma uncurry_pair_root (n i : ℕ) :
    Function.uncurry node (pair (root node leaf n i) i (root node leaf n (sibling i))) =
      root node leaf (n + 1) (i / 2) := by
  rw [root, pair, sibling]
  split
  · rw [show i / 2 * 2 = i by omega]
    rfl
  · rw [show i / 2 * 2 = i - 1 by omega, show i - 1 + 1 = i by omega]
    rfl

/-! ## Paths -/

lemma length_path (h n i : ℕ) : (path node leaf h n i).length = n := by
  induction n generalizing h i with
  | zero => rfl
  | succ n ih => rw [path, List.length_cons, ih]

/-- **Completeness.**  The siblings on the path of a subtree lead to the subtree above it. -/
theorem climb_path (h n i : ℕ) :
    climb node (root node leaf h i) i (path node leaf h n i) = root node leaf (h + n) (i / 2 ^ n) := by
  induction n generalizing h i with
  | zero => simp [path, climb]
  | succ n ih =>
    rw [path, climb, uncurry_pair_root, ih, Nat.div_div_eq_div_mul, ← pow_succ',
      show h + 1 + n = h + (n + 1) by omega]

/-- **Soundness.**  Where no two pairs collide, digests that lead to the same top along paths with
the same index are the same, and so are their siblings. -/
theorem climb_inj {x y : δ} {i j : ℕ} {s t : List δ} (hlength : s.length = t.length)
    (hindex : i % 2 ^ s.length = j % 2 ^ s.length)
    (hinj : Set.InjOn (Function.uncurry node) {p | p ∈ climbed node x i s ++ climbed node y j t})
    (h : climb node x i s = climb node y j t) : x = y ∧ s = t := by
  induction s generalizing x y i j t with
  | nil =>
    obtain rfl := List.length_eq_zero_iff.mp hlength.symm
    exact ⟨h, rfl⟩
  | cons a s ih =>
    rcases t with _ | ⟨b, t⟩
    · cases hlength
    · have hsub : climbed node (Function.uncurry node (pair x i a)) (i / 2) s ++
          climbed node (Function.uncurry node (pair y j b)) (j / 2) t ⊆
            climbed node x i (a :: s) ++ climbed node y j (b :: t) := by
        intro p hp
        simp only [climbed, List.mem_append, List.mem_cons] at hp ⊢
        tauto
      rw [List.length_cons, pow_succ'] at hindex
      have hparity : i % 2 = j % 2 := by
        have := congrArg (· % 2) hindex
        simpa only [Nat.mod_mod_of_dvd _ (Dvd.intro _ rfl)] using this
      have hhalf : i / 2 % 2 ^ s.length = j / 2 % 2 ^ s.length := by
        rw [← Nat.mod_mul_right_div_self, hindex, Nat.mod_mul_right_div_self]
      obtain ⟨htop, rfl⟩ := ih (Nat.succ.inj hlength) hhalf (hinj.mono hsub) h
      have hpair : pair x i a = pair y j b := by
        refine hinj ?_ ?_ htop
        · simp [climbed]
        · simp [climbed]
      rw [pair, pair, hparity] at hpair
      split at hpair
      · obtain ⟨rfl, rfl⟩ := Prod.mk.inj hpair
        exact ⟨rfl, rfl⟩
      · obtain ⟨rfl, rfl⟩ := Prod.mk.inj hpair
        exact ⟨rfl, rfl⟩

end ZenoChain.CompleteTree
