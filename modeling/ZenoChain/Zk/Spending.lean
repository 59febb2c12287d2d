/-
# Spending from the pool

A run of requests to a shielded pool, with an account of what it does to the leaves: the value
that each leaf was given, and the leaves that were consumed.  The pool itself keeps neither.
It keeps nullifiers, and nothing ties these to the leaves, nor the values to the commitments.
Where the requests do tie them, no leaf is consumed twice, an unshield pays what its leaf is
worth, and the total of the pool is what the unspent leaves are worth.
-/
import Mathlib.Algebra.BigOperators.Group.Finset.Basic
import Mathlib.Data.List.GetD
import ZenoChain.Base.Trace
import ZenoChain.Zk.CommitmentTree

namespace ZenoChain

/-- A request to the shielded pool. -/
inductive PoolRequest
  | shield (request : ShieldRequest)
  | transfer (proof : ShieldedTransferProof)
  | unshield (request : UnshieldRequest)
deriving DecidableEq, Repr

/-- The part of a request that spends a commitment. -/
structure Spend where
  nullifier : Hash32
  merkleRoot : Hash32
  merkleProof : CommitmentMerkleProof
deriving DecidableEq, Repr

namespace PoolRequest

/-- What a request spends, if it spends. -/
def spend : PoolRequest → Option Spend
  | shield _ => none
  | transfer proof => some ⟨proof.nullifier, proof.merkleRoot, proof.merkleProof⟩
  | unshield request => some ⟨request.nullifier, request.merkleRoot, request.merkleProof⟩

end PoolRequest

/-- The sum of the values of the leaves that are not spent. -/
def unspentSum (values spent : List ℕ) : ℕ :=
  ∑ leaf ∈ Finset.range values.length \ spent.toFinset, values.getD leaf 0

/-- A new leaf is unspent, and no other leaf changes. -/
lemma unspentSum_append {values spent : List ℕ} (value : ℕ)
    (h : ∀ leaf ∈ spent, leaf < values.length) :
    unspentSum (values ++ [value]) spent = unspentSum values spent + value := by
  have hnew : values.length ∉ Finset.range values.length \ spent.toFinset := by simp
  have hset : Finset.range (values ++ [value]).length \ spent.toFinset =
      insert values.length (Finset.range values.length \ spent.toFinset) := by
    ext leaf
    simp only [Finset.mem_sdiff, Finset.mem_range, Finset.mem_insert, List.mem_toFinset,
      List.length_append, List.length_singleton]
    constructor
    · rintro ⟨hlt, hspent⟩
      rcases Nat.lt_succ_iff_lt_or_eq.mp hlt with hlt | heq
      · exact .inr ⟨hlt, hspent⟩
      · exact .inl heq
    · rintro (rfl | ⟨hlt, hspent⟩)
      · exact ⟨Nat.lt_succ_self _, fun hspent => absurd (h _ hspent) (lt_irrefl _)⟩
      · exact ⟨Nat.lt_succ_of_lt hlt, hspent⟩
  rw [unspentSum, unspentSum, hset, Finset.sum_insert hnew, Nat.add_comm]
  congr 1
  · refine Finset.sum_congr rfl fun leaf hleaf => ?_
    have hlt := Finset.mem_range.mp (Finset.mem_sdiff.mp hleaf).1
    exact List.getD_append _ _ _ _ hlt
  · simp

/-- A leaf that is consumed takes its value with it. -/
lemma unspentSum_consume {values spent : List ℕ} {leaf : ℕ} (hleaf : leaf < values.length)
    (hspent : leaf ∉ spent) :
    unspentSum values (leaf :: spent) + values.getD leaf 0 = unspentSum values spent := by
  have hset : Finset.range values.length \ (leaf :: spent).toFinset =
      (Finset.range values.length \ spent.toFinset).erase leaf := by
    ext l
    simp only [Finset.mem_sdiff, Finset.mem_range, Finset.mem_erase, List.mem_toFinset,
      List.mem_cons]
    tauto
  have hmem : leaf ∈ Finset.range values.length \ spent.toFinset := by
    simp [hleaf, hspent]
  rw [unspentSum, unspentSum, hset]
  exact Finset.sum_erase_add _ _ hmem

lemma getElem?_append_of_some {α : Type} {l m : List α} {i : ℕ} {x : α} (h : l[i]? = some x) :
    (l ++ m)[i]? = some x := by
  rw [List.getElem?_append_left (List.getElem?_eq_some_iff.mp h).1, h]

/-- A pool with an account of its leaves since some time: the values that the inserted ones were
given, the ones that were consumed (the last one first), and the deposits. -/
structure LeafAccount where
  pool : ShieldedPool := {}
  values : List ℕ := []
  spent : List ℕ := []
  deposited : ℕ := 0

namespace LeafAccount

/-- The value of a leaf; an empty one has none. -/
def valueAt (a : LeafAccount) (leaf : ℕ) : ℕ := a.values.getD leaf 0

/-- The sum of the values of the unspent leaves. -/
def unspentValue (a : LeafAccount) : ℕ := unspentSum a.values a.spent

variable [Hashing]

/-- Serves a request.  A shield gives its leaf the deposited value, a transfer gives its leaf the
value of the leaf that it consumes; a request that fails does neither. -/
def serve (a : LeafAccount) : PoolRequest → LeafAccount
  | .shield request =>
    match ShieldedPool.shield request a.pool with
    | .ok _ pool =>
      { a with pool, values := a.values ++ [request.value]
               deposited := a.deposited + request.value }
    | .error _ pool => { a with pool }
  | .transfer proof =>
    match ShieldedPool.transfer proof a.pool with
    | .ok _ pool =>
      { a with pool, values := a.values ++ [a.valueAt proof.merkleProof.leaf]
               spent := proof.merkleProof.leaf :: a.spent }
    | .error _ pool => { a with pool }
  | .unshield request =>
    match ShieldedPool.unshield request a.pool with
    | .ok _ pool => { a with pool, spent := request.merkleProof.leaf :: a.spent }
    | .error _ pool => { a with pool }

lemma serve_shield {a : LeafAccount} {request : ShieldRequest} {index : ℕ} {pool : ShieldedPool}
    (h : ShieldedPool.shield request a.pool = .ok index pool) :
    a.serve (.shield request) =
      { a with pool, values := a.values ++ [request.value]
               deposited := a.deposited + request.value } := by
  rw [serve]
  simp only [h]

/-- Serves some requests, one after the other. -/
def run (a : LeafAccount) (requests : List PoolRequest) : LeafAccount := requests.foldl serve a

/-- The requests of a run, each with the account that it meets. -/
def trace (a : LeafAccount) (requests : List PoolRequest) : List (LeafAccount × PoolRequest) :=
  Trace.along serve a requests

lemma run_cons (a : LeafAccount) (request : PoolRequest) (requests : List PoolRequest) :
    a.run (request :: requests) = (a.serve request).run requests := rfl

lemma run_append (a : LeafAccount) (l m : List PoolRequest) : a.run (l ++ m) = (a.run l).run m :=
  List.foldl_append

end LeafAccount

/-! ## What a request does to the pool -/

section

variable [Hashing]

/-- The root and the proof of a spend are those that a pool asks for. -/
def Spend.Current (s : Spend) (p : ShieldedPool) : Prop :=
  s.merkleRoot = p.tree.root ∧ verifyCommitmentProof s.merkleProof p.tree.root = true

instance (s : Spend) (p : ShieldedPool) : Decidable (s.Current p) :=
  inferInstanceAs (Decidable (_ ∧ _))

namespace ShieldedPool

variable {p p' : ShieldedPool}

/-- A pool with one more nullifier. -/
def withNullifier (p : ShieldedPool) (nullifier : Hash32) : ShieldedPool :=
  { p with nullifiers := p.nullifiers.insert nullifier () }

omit [Hashing] in
lemma contains_withNullifier {nullifier n : Hash32} :
    (p.withNullifier nullifier).nullifiers.contains n = true ↔
      n = nullifier ∨ p.nullifiers.contains n = true := by
  rw [withNullifier, Std.ExtTreeMap.contains_insert, Bool.or_eq_true, beq_iff_eq,
    Std.LawfulEqCmp.compare_eq_iff_eq]
  exact or_congr_left eq_comm

/-- A spend with a proof against the current root and a fresh nullifier is accepted. -/
lemma spend_of_current {s : Spend} (hcurrent : s.Current p)
    (hfresh : p.nullifiers.contains s.nullifier = false) :
    spend s.nullifier s.merkleRoot s.merkleProof p = .ok ⟨⟩ (p.withNullifier s.nullifier) := by
  rw [spend, Handler.bind_ok (Handler.get_run p), if_neg (by rw [hfresh]; exact Bool.false_ne_true),
    if_neg (not_not.mpr hcurrent.1), if_neg (not_not.mpr hcurrent.2)]
  rfl

/-- A spend is refused without effect, or its nullifier is recorded. -/
lemma spend_cases (s : Spend) (p : ShieldedPool) :
    (∃ e, spend s.nullifier s.merkleRoot s.merkleProof p = .error e p) ∨
      (s.Current p ∧ p.nullifiers.contains s.nullifier = false ∧
        spend s.nullifier s.merkleRoot s.merkleProof p = .ok ⟨⟩ (p.withNullifier s.nullifier)) := by
  by_cases hspent : p.nullifiers.contains s.nullifier
  · refine .inl ⟨.nullifierAlreadySpent, ?_⟩
    rw [spend, Handler.bind_ok (Handler.get_run p), if_pos hspent]
    rfl
  · by_cases hcurrent : s.Current p
    · have hfresh := Bool.eq_false_iff.mpr hspent
      exact .inr ⟨hcurrent, hfresh, spend_of_current hcurrent hfresh⟩
    · left
      rw [spend, Handler.bind_ok (Handler.get_run p), if_neg hspent]
      by_cases hroot : s.merkleRoot ≠ p.tree.root
      · exact ⟨_, by rw [if_pos hroot]; rfl⟩
      · have hproof : ¬ verifyCommitmentProof s.merkleProof p.tree.root = true :=
          fun hproof => hcurrent ⟨not_not.mp hroot, hproof⟩
        exact ⟨_, by rw [if_neg hroot, if_pos hproof]; rfl⟩

/-- A full tree fails an insertion and leaves the pool alone. -/
lemma insertCommitment_full (h : 2 ^ commitmentTreeDepth ≤ p.tree.leafCount)
    (commitment : Hash32) :
    insertCommitment commitment p = .error (.verificationFailed "tree is full") p :=
  Handler.zoom_error (CommitmentTree.insert_full h commitment)

lemma insertCommitment_cases (commitment : Hash32) (p : ShieldedPool) :
    (∃ e, insertCommitment commitment p = .error e p) ∨
      ∃ index tree, CommitmentTree.insert commitment p.tree = .ok index tree ∧
        insertCommitment commitment p = .ok index { p with tree } := by
  rcases Nat.lt_or_ge p.tree.leafCount (2 ^ commitmentTreeDepth) with hroom | hfull
  · have hrun := CommitmentTree.insert_run hroom commitment
    exact .inr ⟨_, _, hrun, Handler.zoom_ok hrun⟩
  · exact .inl ⟨_, insertCommitment_full hfull commitment⟩

lemma shield_ok {request : ShieldRequest} {index : ℕ} {tree : CommitmentTree}
    (h : CommitmentTree.insert request.commitment p.tree = .ok index tree) :
    shield request p = .ok index
      { p with tree
               totalShieldedValue := Word.saturatingAdd 128 p.totalShieldedValue request.value } := by
  have hinsert : insertCommitment request.commitment p = .ok index { p with tree } :=
    Handler.zoom_ok h
  exact Handler.bind_ok hinsert

lemma shield_cases (request : ShieldRequest) (p : ShieldedPool) :
    (∃ e, shield request p = .error e p) ∨
      ∃ index tree, CommitmentTree.insert request.commitment p.tree = .ok index tree ∧
        shield request p = .ok index
          { p with tree
                   totalShieldedValue :=
                    Word.saturatingAdd 128 p.totalShieldedValue request.value } := by
  rcases insertCommitment_cases request.commitment p with ⟨e, herror⟩ | ⟨index, tree, hinsert, hok⟩
  · exact .inl ⟨e, Handler.bind_error herror⟩
  · exact .inr ⟨index, tree, hinsert, shield_ok hinsert⟩

/-- A transfer is refused without effect, or its nullifier is recorded; then it finds the tree
full or inserts its output. -/
lemma transfer_cases (proof : ShieldedTransferProof) (p : ShieldedPool) :
    (∃ e, transfer proof p = .error e p) ∨
      (Spend.Current ⟨proof.nullifier, proof.merkleRoot, proof.merkleProof⟩ p ∧
        p.nullifiers.contains proof.nullifier = false ∧
        ((∃ e, transfer proof p = .error e (p.withNullifier proof.nullifier)) ∨
          ∃ index tree, CommitmentTree.insert proof.outputCommitment p.tree = .ok index tree ∧
            transfer proof p = .ok index { p.withNullifier proof.nullifier with tree })) := by
  rcases spend_cases ⟨proof.nullifier, proof.merkleRoot, proof.merkleProof⟩ p with
    ⟨e, herror⟩ | ⟨hcurrent, hfresh, hok⟩
  · exact .inl ⟨e, Handler.bind_error herror⟩
  · refine .inr ⟨hcurrent, hfresh, ?_⟩
    rw [transfer, Handler.bind_ok hok]
    exact insertCommitment_cases proof.outputCommitment (p.withNullifier proof.nullifier)

/-- A transfer that passes all checks and finds room is accepted. -/
lemma transfer_of_current {proof : ShieldedTransferProof} {index : ℕ} {tree : CommitmentTree}
    (hcurrent : Spend.Current ⟨proof.nullifier, proof.merkleRoot, proof.merkleProof⟩ p)
    (hfresh : p.nullifiers.contains proof.nullifier = false)
    (h : CommitmentTree.insert proof.outputCommitment p.tree = .ok index tree) :
    transfer proof p = .ok index { p.withNullifier proof.nullifier with tree } := by
  have hspend := spend_of_current hcurrent hfresh
  have hinsert : insertCommitment proof.outputCommitment (p.withNullifier proof.nullifier) =
      .ok index { p.withNullifier proof.nullifier with tree } := Handler.zoom_ok h
  rw [transfer, Handler.bind_ok hspend, hinsert]

lemma unshield_of_current {request : UnshieldRequest}
    (hcurrent : Spend.Current ⟨request.nullifier, request.merkleRoot, request.merkleProof⟩ p)
    (hfresh : p.nullifiers.contains request.nullifier = false) :
    unshield request p = .ok ⟨⟩
      { p.withNullifier request.nullifier with
        totalShieldedValue := Word.saturatingSub p.totalShieldedValue request.value } := by
  have hspend := spend_of_current hcurrent hfresh
  exact Handler.bind_ok hspend

lemma unshield_cases (request : UnshieldRequest) (p : ShieldedPool) :
    (∃ e, unshield request p = .error e p) ∨
      (Spend.Current ⟨request.nullifier, request.merkleRoot, request.merkleProof⟩ p ∧
        p.nullifiers.contains request.nullifier = false ∧
        unshield request p = .ok ⟨⟩
          { p.withNullifier request.nullifier with
            totalShieldedValue := Word.saturatingSub p.totalShieldedValue request.value }) := by
  rcases spend_cases ⟨request.nullifier, request.merkleRoot, request.merkleProof⟩ p with
    ⟨e, herror⟩ | ⟨hcurrent, hfresh, hok⟩
  · exact .inl ⟨e, Handler.bind_error herror⟩
  · exact .inr ⟨hcurrent, hfresh, Handler.bind_ok hok⟩

end ShieldedPool

namespace LeafAccount

/-- The ways in which a request can end. -/
inductive Served (a : LeafAccount) : PoolRequest → LeafAccount → Prop
  | refused (request : PoolRequest) : Served a request a
  /-- A transfer that finds the tree full fails, but its nullifier stays recorded. -/
  | burnt {proof : ShieldedTransferProof}
      (current : Spend.Current ⟨proof.nullifier, proof.merkleRoot, proof.merkleProof⟩ a.pool) :
      Served a (.transfer proof) { a with pool := a.pool.withNullifier proof.nullifier }
  | shielded {request : ShieldRequest} {index : ℕ} {tree : CommitmentTree}
      (inserted : CommitmentTree.insert request.commitment a.pool.tree = .ok index tree) :
      Served a (.shield request)
        { a with
          pool := { a.pool with
            tree
            totalShieldedValue := Word.saturatingAdd 128 a.pool.totalShieldedValue request.value }
          values := a.values ++ [request.value]
          deposited := a.deposited + request.value }
  | transferred {proof : ShieldedTransferProof} {index : ℕ} {tree : CommitmentTree}
      (current : Spend.Current ⟨proof.nullifier, proof.merkleRoot, proof.merkleProof⟩ a.pool)
      (fresh : a.pool.nullifiers.contains proof.nullifier = false)
      (inserted : CommitmentTree.insert proof.outputCommitment a.pool.tree = .ok index tree) :
      Served a (.transfer proof)
        { a with
          pool := { a.pool.withNullifier proof.nullifier with tree }
          values := a.values ++ [a.valueAt proof.merkleProof.leaf]
          spent := proof.merkleProof.leaf :: a.spent }
  | unshielded {request : UnshieldRequest}
      (current : Spend.Current ⟨request.nullifier, request.merkleRoot, request.merkleProof⟩ a.pool)
      (fresh : a.pool.nullifiers.contains request.nullifier = false) :
      Served a (.unshield request)
        { a with
          pool := { a.pool.withNullifier request.nullifier with
            totalShieldedValue := Word.saturatingSub a.pool.totalShieldedValue request.value }
          spent := request.merkleProof.leaf :: a.spent }

lemma served (a : LeafAccount) (request : PoolRequest) : Served a request (a.serve request) := by
  cases request with
  | shield request =>
    rw [serve]
    rcases ShieldedPool.shield_cases request a.pool with ⟨e, h⟩ | ⟨index, tree, hinsert, h⟩
    · rw [h]
      exact .refused _
    · rw [h]
      exact .shielded hinsert
  | transfer proof =>
    rw [serve]
    rcases ShieldedPool.transfer_cases proof a.pool with
      ⟨e, h⟩ | ⟨hcurrent, hfresh, ⟨e, h⟩ | ⟨index, tree, hinsert, h⟩⟩
    · rw [h]
      exact .refused _
    · rw [h]
      exact .burnt hcurrent
    · rw [h]
      exact .transferred hcurrent hfresh hinsert
  | unshield request =>
    rw [serve]
    rcases ShieldedPool.unshield_cases request a.pool with ⟨e, h⟩ | ⟨hcurrent, hfresh, h⟩
    · rw [h]
      exact .refused _
    · rw [h]
      exact .unshielded hcurrent hfresh

/-! ## Leaves are consumed once -/

/-- A spend carries the nullifier of the leaf that it opens. -/
def BindsLeaf (N : ℕ → Hash32) (a : LeafAccount) (request : PoolRequest) : Prop :=
  ∀ s ∈ request.spend, s.Current a.pool → s.nullifier = N s.merkleProof.leaf

/-- The consumed leaves differ, and their nullifiers are recorded. -/
structure ConsumedOnce (N : ℕ → Hash32) (a : LeafAccount) : Prop where
  nodup : a.spent.Nodup
  recorded : ∀ leaf ∈ a.spent, a.pool.nullifiers.contains (N leaf) = true

variable {N : ℕ → Hash32} {a : LeafAccount}

omit [Hashing] in
/-- The step of a spend, whatever it does to the rest of the account. -/
lemma ConsumedOnce.consume (h : a.ConsumedOnce N) {b : LeafAccount} {leaf : ℕ}
    (hspent : b.spent = leaf :: a.spent)
    (hnullifiers : b.pool.nullifiers = (a.pool.withNullifier (N leaf)).nullifiers)
    (hfresh : a.pool.nullifiers.contains (N leaf) = false) : b.ConsumedOnce N := by
  constructor
  · rw [hspent, List.nodup_cons]
    refine ⟨fun hleaf => ?_, h.nodup⟩
    -- The nullifier of a leaf consumed before is not fresh.
    rw [h.recorded leaf hleaf] at hfresh
    cases hfresh
  · intro l hl
    rw [hspent, List.mem_cons] at hl
    rw [hnullifiers, ShieldedPool.contains_withNullifier]
    rcases hl with rfl | hl
    · exact .inl rfl
    · exact .inr (h.recorded l hl)

lemma ConsumedOnce.served (h : a.ConsumedOnce N) {request : PoolRequest} {b : LeafAccount}
    (hserved : Served a request b) (hbinds : BindsLeaf N a request) : b.ConsumedOnce N := by
  cases hserved with
  | refused => exact h
  | burnt hcurrent =>
    refine ⟨h.nodup, fun leaf hleaf => ?_⟩
    exact ShieldedPool.contains_withNullifier.mpr (.inr (h.recorded leaf hleaf))
  | shielded => exact ⟨h.nodup, h.recorded⟩
  | transferred hcurrent hfresh hinsert =>
    have hN := hbinds _ rfl hcurrent
    exact h.consume rfl (by rw [← hN]) (by rw [← hN]; exact hfresh)
  | unshielded hcurrent hfresh =>
    have hN := hbinds _ rfl hcurrent
    exact h.consume rfl (by rw [← hN]) (by rw [← hN]; exact hfresh)

/-- **No leaf is consumed twice** in a run whose spends carry a nullifier that depends only on the
leaf that they open, from whatever pool. -/
theorem spent_nodup_of_bindsLeaf (N : ℕ → Hash32) (p : ShieldedPool) {requests : List PoolRequest}
    (hbinds : ∀ e ∈ ({ pool := p } : LeafAccount).trace requests, BindsLeaf N e.1 e.2) :
    (({ pool := p } : LeafAccount).run requests).spent.Nodup := by
  have hstart : ({ pool := p } : LeafAccount).ConsumedOnce N :=
    ⟨List.nodup_nil, fun leaf hleaf => (List.not_mem_nil hleaf).elim⟩
  exact (Trace.keeps (fun a request h hb => h.served (a.served request) hb) hstart hbinds).2.nodup

/-! ## Values stay with their leaves -/

end LeafAccount

namespace PoolRequest

/-- The root and the proof of a request, if it spends, are those that a pool asks for. -/
def Current (request : PoolRequest) (p : ShieldedPool) : Prop := ∀ s ∈ request.spend, s.Current p

/-- The value of a request is the one that belongs to its commitment. -/
def KeepsValue (V : Hash32 → ℕ) : PoolRequest → Prop
  | shield request => request.value = V request.commitment
  | transfer proof => V proof.outputCommitment = V proof.merkleProof.commitment
  | unshield request => request.value = V request.merkleProof.commitment

/-- A request respects a value and a nullifier of each commitment, and it spends no empty leaf. -/
structure Binds (V : Hash32 → ℕ) (N : Hash32 → Hash32) (p : ShieldedPool)
    (request : PoolRequest) : Prop where
  value : request.KeepsValue V
  nullifier : ∀ s ∈ request.spend, s.nullifier = N s.merkleProof.commitment
  inserted : ∀ s ∈ request.spend, s.merkleProof.commitment = treeEmptyHash 0 →
    s.merkleProof.leaf < p.tree.leafCount

/-- A deposit has only to be of the value that belongs to its commitment. -/
lemma binds_shield {V : Hash32 → ℕ} {N : Hash32 → Hash32} {p : ShieldedPool}
    {request : ShieldRequest} (h : request.value = V request.commitment) :
    (shield request).Binds V N p := by
  refine ⟨h, fun s hs => ?_, fun s hs => ?_⟩
  · cases hs
  · cases hs

end PoolRequest

namespace LeafAccount

/-- The account fits the pool: its leaves are those of the tree, and they have the values of their
commitments; the nullifiers of the consumed ones are recorded; and the total is right. -/
structure Sound (V : Hash32 → ℕ) (N : Hash32 → Hash32) (leaves : List Hash32)
    (a : LeafAccount) : Prop where
  tree : a.pool.tree.Holds leaves
  values : a.values = leaves.map V
  spent : ∀ leaf ∈ a.spent, ∃ c, leaves[leaf]? = some c ∧ a.pool.nullifiers.contains (N c) = true
  total : a.pool.totalShieldedValue = a.unspentValue
  covered : a.pool.totalShieldedValue ≤ a.deposited

variable {V : Hash32 → ℕ} {N : Hash32 → Hash32} {leaves : List Hash32} {a : LeafAccount}

lemma sound_empty : Sound V N [] {} :=
  ⟨CommitmentTree.holds_empty, rfl, fun _ h => (List.not_mem_nil h).elim, rfl, le_rfl⟩

/-- A spend that the pool would take opens the leaf of its commitment. -/
lemma Sound.opens (h : a.Sound V N leaves) {s : Spend} (hcurrent : s.Current a.pool)
    (hfree : a.pool.tree.NoCollision s.merkleProof)
    (hinserted : s.merkleProof.commitment = treeEmptyHash 0 →
      s.merkleProof.leaf < a.pool.tree.leafCount) :
    leaves[s.merkleProof.leaf]? = some s.merkleProof.commitment := by
  have hopens := h.tree.commitment_of_verified hfree hcurrent.2
  rw [leafRow] at hopens
  rcases hleaf : leaves[s.merkleProof.leaf]? with _ | c
  · rw [hleaf] at hopens
    have hlt := hinserted hopens
    rw [h.tree.count] at hlt
    exact absurd hlt (Nat.not_lt.mpr (List.getElem?_eq_none_iff.mp hleaf))
  · rw [hleaf] at hopens
    rw [hopens]
    rfl

/-- The value of a leaf is that of its commitment. -/
lemma Sound.valueAt (h : a.Sound V N leaves) {leaf : ℕ} {c : Hash32}
    (hleaf : leaves[leaf]? = some c) : a.values[leaf]? = some (V c) ∧ a.valueAt leaf = V c := by
  have hvalue : a.values[leaf]? = some (V c) := by
    rw [h.values, List.getElem?_map, hleaf]
    rfl
  refine ⟨hvalue, ?_⟩
  rw [LeafAccount.valueAt, List.getD_eq_getElem?_getD, hvalue, Option.getD_some]

lemma Sound.spent_lt (h : a.Sound V N leaves) : ∀ leaf ∈ a.spent, leaf < a.values.length := by
  intro leaf hleaf
  obtain ⟨c, hc, -⟩ := h.spent leaf hleaf
  rw [h.values, List.length_map]
  exact (List.getElem?_eq_some_iff.mp hc).1

/-- Consuming a leaf whose nullifier is fresh takes its value out of the unspent ones. -/
lemma Sound.consume (h : a.Sound V N leaves) {leaf : ℕ} {c : Hash32}
    (hleaf : leaves[leaf]? = some c) (hfresh : a.pool.nullifiers.contains (N c) = false) :
    unspentSum a.values (leaf :: a.spent) + V c = a.unspentValue := by
  have hunspent : leaf ∉ a.spent := by
    intro hspent
    obtain ⟨c', hc', hrecorded⟩ := h.spent leaf hspent
    obtain rfl : c = c' := Option.some.inj (hleaf.symm.trans hc')
    rw [hrecorded] at hfresh
    cases hfresh
  have hlt : leaf < a.values.length := by
    rw [h.values, List.length_map]
    exact (List.getElem?_eq_some_iff.mp hleaf).1
  have hsum := unspentSum_consume hlt hunspent
  rwa [← (h.valueAt hleaf).2]

/-- The nullifiers of the consumed leaves are still recorded after one more leaf is consumed. -/
lemma Sound.spent_consume (h : a.Sound V N leaves) {leaf : ℕ} {c : Hash32}
    (hleaf : leaves[leaf]? = some c) : ∀ l ∈ leaf :: a.spent, ∃ c', leaves[l]? = some c' ∧
      (a.pool.withNullifier (N c)).nullifiers.contains (N c') = true := by
  intro l hl
  rcases List.mem_cons.mp hl with rfl | hl
  · exact ⟨c, hleaf, ShieldedPool.contains_withNullifier.mpr (.inl rfl)⟩
  · obtain ⟨c', hc', hrecorded⟩ := h.spent l hl
    exact ⟨c', hc', ShieldedPool.contains_withNullifier.mpr (.inr hrecorded)⟩

/-- No messages collide when a request is checked against a pool that asks for its proof. -/
def NoCollision (a : LeafAccount) (request : PoolRequest) : Prop :=
  request.Current a.pool → ∀ s ∈ request.spend, a.pool.tree.NoCollision s.merkleProof

/-- An unshield that succeeds pays what the leaf is worth that its proof opens. -/
def PaysLeaf (a : LeafAccount) (request : PoolRequest) : Prop :=
  ∀ q p', request = .unshield q → ShieldedPool.unshield q a.pool = .ok ⟨⟩ p' →
    a.values[q.merkleProof.leaf]? = some q.value

/-- The account fits the pool after a request as well. -/
lemma Sound.served (h : a.Sound V N leaves) {request : PoolRequest} {b : LeafAccount}
    (hserved : Served a request b) (hbinds : request.Current a.pool → request.Binds V N a.pool)
    (hfree : a.NoCollision request) (hfits : b.deposited < 2 ^ 128) :
    ∃ leaves', b.Sound V N leaves' := by
  cases hserved with
  | refused => exact ⟨leaves, h⟩
  | burnt hcurrent =>
    refine ⟨leaves, h.tree, h.values, fun leaf hleaf => ?_, h.total, h.covered⟩
    obtain ⟨c, hc, hrecorded⟩ := h.spent leaf hleaf
    exact ⟨c, hc, ShieldedPool.contains_withNullifier.mpr (.inr hrecorded)⟩
  | @shielded request index tree hinsert =>
    obtain ⟨-, -, htree⟩ := h.tree.of_insert hinsert
    have hvalue : request.value = V request.commitment :=
      (hbinds fun s hs => by cases hs).value
    have hsum : Word.saturatingAdd 128 a.pool.totalShieldedValue request.value =
        a.pool.totalShieldedValue + request.value :=
      Word.saturatingAdd_of_lt (lt_of_le_of_lt (Nat.add_le_add_right h.covered _) hfits)
    refine ⟨leaves ++ [request.commitment], htree, ?_, fun leaf hleaf => ?_, ?_, ?_⟩
    · simp only [h.values, hvalue, List.map_append, List.map_cons, List.map_nil]
    · obtain ⟨c, hc, hrecorded⟩ := h.spent leaf hleaf
      exact ⟨c, getElem?_append_of_some hc, hrecorded⟩
    · show Word.saturatingAdd 128 _ _ = unspentSum (a.values ++ [request.value]) a.spent
      rw [hsum, unspentSum_append _ h.spent_lt, h.total]
      rfl
    · show Word.saturatingAdd 128 _ _ ≤ a.deposited + request.value
      rw [hsum]
      exact Nat.add_le_add_right h.covered _
  | @transferred proof index tree hcurrent hfresh hinsert =>
    obtain ⟨-, -, htree⟩ := h.tree.of_insert hinsert
    have hall : PoolRequest.Current (.transfer proof) a.pool := fun s hs => by
      cases hs
      exact hcurrent
    obtain ⟨hvalue, hN, hinserted⟩ := hbinds hall
    have hleaf := h.opens hcurrent (hfree hall _ rfl) (hinserted _ rfl)
    have hnullifier : proof.nullifier = N proof.merkleProof.commitment := hN _ rfl
    have hworth := (h.valueAt hleaf).2
    have hconsume := h.consume hleaf (hnullifier ▸ hfresh)
    refine ⟨leaves ++ [proof.outputCommitment], htree, ?_, fun leaf hspent => ?_, ?_, h.covered⟩
    · -- The output gets the value of the leaf that is consumed.
      simp only [h.values, hworth, List.map_append, List.map_cons, List.map_nil]
      rw [show V proof.outputCommitment = V proof.merkleProof.commitment from hvalue]
    · obtain ⟨c, hc, hrecorded⟩ := h.spent_consume hleaf leaf hspent
      rw [← hnullifier] at hrecorded
      exact ⟨c, getElem?_append_of_some hc, hrecorded⟩
    · have hlt : ∀ l ∈ proof.merkleProof.leaf :: a.spent, l < a.values.length := by
        rw [List.forall_mem_cons]
        exact ⟨(List.getElem?_eq_some_iff.mp (h.valueAt hleaf).1).1, h.spent_lt⟩
      show a.pool.totalShieldedValue = unspentSum (a.values ++ [_]) (_ :: a.spent)
      rw [unspentSum_append _ hlt, hworth, hconsume, h.total]
  | @unshielded request hcurrent hfresh =>
    have hall : PoolRequest.Current (.unshield request) a.pool := fun s hs => by
      cases hs
      exact hcurrent
    obtain ⟨hvalue, hN, hinserted⟩ := hbinds hall
    have hleaf := h.opens hcurrent (hfree hall _ rfl) (hinserted _ rfl)
    have hnullifier : request.nullifier = N request.merkleProof.commitment := hN _ rfl
    have hconsume := h.consume hleaf (hnullifier ▸ hfresh)
    refine ⟨leaves, h.tree, h.values, fun leaf hspent => ?_, ?_, ?_⟩
    · obtain ⟨c, hc, hrecorded⟩ := h.spent_consume hleaf leaf hspent
      rw [← hnullifier] at hrecorded
      exact ⟨c, hc, hrecorded⟩
    · have hworth : request.value = V request.merkleProof.commitment := hvalue
      show a.pool.totalShieldedValue - request.value = unspentSum a.values (_ :: a.spent)
      rw [h.total, hworth, ← hconsume, Nat.add_sub_cancel]
    · exact (Nat.sub_le _ _).trans h.covered

/-- What an unshield pays, it takes from the leaf. -/
lemma Sound.paysLeaf (h : a.Sound V N leaves) {request : PoolRequest}
    (hbinds : request.Current a.pool → request.Binds V N a.pool) (hfree : a.NoCollision request) :
    a.PaysLeaf request := by
  rintro q p' rfl hok
  rcases ShieldedPool.unshield_cases q a.pool with ⟨e, herror⟩ | ⟨hcurrent, -, -⟩
  · rw [herror] at hok
    cases hok
  · have hall : PoolRequest.Current (.unshield q) a.pool := fun s hs => by
      cases hs
      exact hcurrent
    obtain ⟨hvalue, -, hinserted⟩ := hbinds hall
    rw [show q.value = V q.merkleProof.commitment from hvalue]
    exact (h.valueAt (h.opens hcurrent (hfree hall _ rfl) (hinserted _ rfl))).1

/-- Deposits only grow. -/
lemma Served.deposited_le {request : PoolRequest} {b : LeafAccount} (h : Served a request b) :
    a.deposited ≤ b.deposited := by
  cases h with
  | shielded => exact Nat.le_add_right _ _
  | _ => exact le_rfl

/-- **Values stay with their leaves** in a run from the empty pool whose requests respect a value
and a nullifier of each commitment: every unshield pays the value of the leaf that its proof
opens, and the total is that of the unspent leaves all along. -/
theorem values_bound_of_binds (V : Hash32 → ℕ) (N : Hash32 → Hash32) {requests : List PoolRequest}
    (hbinds : ∀ e ∈ trace {} requests, e.2.Current e.1.pool → e.2.Binds V N e.1.pool)
    (hfree : ∀ e ∈ trace {} requests, e.1.NoCollision e.2)
    (hfits : (run {} requests).deposited < 2 ^ 128) :
    (∀ e ∈ trace {} requests,
      e.1.PaysLeaf e.2 ∧ e.1.pool.totalShieldedValue = e.1.unspentValue) ∧
    (run {} requests).pool.totalShieldedValue = (run {} requests).unspentValue := by
  have hkeep : ∀ (a : LeafAccount) (request : PoolRequest), (∃ leaves, a.Sound V N leaves) →
      ((request.Current a.pool → request.Binds V N a.pool) ∧ a.NoCollision request ∧
        (a.serve request).deposited < 2 ^ 128) → ∃ leaves, (a.serve request).Sound V N leaves := by
    rintro a request ⟨leaves, h⟩ ⟨hb, hf, hd⟩
    exact h.served (a.served request) hb hf hd
  obtain ⟨hall, leaves, hend⟩ := Trace.keeps hkeep ⟨[], sound_empty⟩ fun e he =>
    ⟨hbinds e he, hfree e he, lt_of_le_of_lt (Trace.le_foldl_of_mem (fun a r => (a.served r).deposited_le) he) hfits⟩
  refine ⟨fun e he => ?_, hend.total⟩
  obtain ⟨leaves, h⟩ := hall e he
  exact ⟨h.paysLeaf (hbinds e he) (hfree e he), h.total⟩

end LeafAccount

/-! ## Notes -/

omit [Hashing] in
lemma commitmentMessage_inj {value value' : ℕ} {blinding blinding' : BlindingFactor}
    (h : commitmentMessage value blinding = commitmentMessage value' blinding')
    (hvalue : value < 2 ^ 128) (hvalue' : value' < 2 ^ 128) :
    value = value' ∧ blinding = blinding' := by
  rw [commitmentMessage, commitmentMessage, List.append_assoc, List.append_assoc] at h
  obtain ⟨hleft, hright⟩ := List.append_inj (List.append_cancel_left h)
    (by rw [Codec.u128, Codec.u128, Codec.length_leBytes, Codec.length_leBytes])
  exact ⟨Codec.leBytes_inj hleft hvalue hvalue', Codec.array32_inj hright⟩

/-- Notes that were made as the source makes them, with a key for each blinding factor, and whose
messages do not collide, neither with each other nor with that of the empty leaf. -/
structure Made (notes : Set ShieldedNote) : Prop where
  created : ∀ n ∈ notes, n.value < 2 ^ 128 ∧
    n = { createNoteWithKey n.value n.spendingKey n.blinding with treeIndex := n.treeIndex }
  oneKey : ∀ n ∈ notes, ∀ m ∈ notes, n.blinding = m.blinding → n.spendingKey = m.spendingKey
  noCollision : Set.InjOn hashBytes
    (insert (textBytes "zeno.zk.empty_leaf.v1")
      ((fun n : ShieldedNote => commitmentMessage n.value n.blinding) '' notes))

variable {notes : Set ShieldedNote}

lemma Made.commitment_eq (h : Made notes) {n : ShieldedNote} (hn : n ∈ notes) :
    n.commitment = hashBytes (commitmentMessage n.value n.blinding) := by
  rw [(h.created n hn).2]
  rfl

/-- A commitment binds its value and its nullifier. -/
lemma Made.binding (h : Made notes) {n m : ShieldedNote} (hn : n ∈ notes) (hm : m ∈ notes)
    (heq : n.commitment = m.commitment) : n.value = m.value ∧ n.nullifier = m.nullifier := by
  have hmessage : commitmentMessage n.value n.blinding = commitmentMessage m.value m.blinding := by
    refine h.noCollision (.inr ⟨n, hn, rfl⟩) (.inr ⟨m, hm, rfl⟩) ?_
    rw [← h.commitment_eq hn, ← h.commitment_eq hm, heq]
  obtain ⟨hvalue, hblinding⟩ :=
    commitmentMessage_inj hmessage (h.created n hn).1 (h.created m hm).1
  refine ⟨hvalue, ?_⟩
  have hkey := h.oneKey n hn m hm hblinding
  rw [(h.created n hn).2, (h.created m hm).2]
  simp only [createNoteWithKey, hvalue, hblinding, hkey]

lemma Made.commitment_ne_empty (h : Made notes) {n : ShieldedNote} (hn : n ∈ notes) :
    n.commitment ≠ treeEmptyHash 0 := by
  intro heq
  rw [h.commitment_eq hn] at heq
  have hmessage := h.noCollision (.inr ⟨n, hn, rfl⟩) (.inl rfl) heq
  have hlength := congrArg List.length hmessage
  simp only [commitmentMessage, List.length_append, Codec.u128, Codec.length_leBytes,
    Codec.length_array32] at hlength
  have htext : (textBytes "zeno.zk.empty_leaf.v1").length ≤
      (textBytes "zeno.zk.commitment.v1").length := by decide +kernel
  omega

namespace PoolRequest

/-- A request that the holder of some notes makes: a deposit of a note's value, a transfer to a
note of the same value, or a withdrawal of a note's value. -/
def FromNotes (notes : Set ShieldedNote) : PoolRequest → Prop
  | shield request => ∃ n ∈ notes, request = ⟨n.value, n.commitment⟩
  | transfer proof => ∃ n ∈ notes, ∃ m ∈ notes, m.value = n.value ∧
      proof.nullifier = n.nullifier ∧ proof.merkleProof.commitment = n.commitment ∧
      proof.outputCommitment = m.commitment
  | unshield request => ∃ n ∈ notes, request.value = n.value ∧ request.nullifier = n.nullifier ∧
      request.merkleProof.commitment = n.commitment

/-- Such requests respect the value and the nullifier that the notes give to commitments. -/
lemma FromNotes.binds {V : Hash32 → ℕ} {N : Hash32 → Hash32} (hmade : Made notes)
    (hV : ∀ n ∈ notes, V n.commitment = n.value) (hN : ∀ n ∈ notes, N n.commitment = n.nullifier)
    {request : PoolRequest} (h : request.FromNotes notes) (p : ShieldedPool) :
    request.Binds V N p := by
  cases request with
  | shield request =>
    obtain ⟨n, hn, rfl⟩ := h
    exact binds_shield (hV n hn).symm
  | transfer proof =>
    obtain ⟨n, hn, m, hm, hvalue, hnullifier, hcommitment, houtput⟩ := h
    refine ⟨?_, fun s hs => ?_, fun s hs hempty => ?_⟩
    · rw [KeepsValue, houtput, hcommitment, hV m hm, hV n hn, hvalue]
    · cases hs
      rw [hcommitment, hN n hn, hnullifier]
    · cases hs
      exact absurd (hcommitment.symm.trans hempty) (hmade.commitment_ne_empty hn)
  | unshield request =>
    obtain ⟨n, hn, hvalue, hnullifier, hcommitment⟩ := h
    refine ⟨?_, fun s hs => ?_, fun s hs hempty => ?_⟩
    · rw [KeepsValue, hcommitment, hV n hn, hvalue]
    · cases hs
      rw [hcommitment, hN n hn, hnullifier]
    · cases hs
      exact absurd (hcommitment.symm.trans hempty) (hmade.commitment_ne_empty hn)

end PoolRequest

/-- Notes that bind give each commitment its value and its nullifier. -/
lemma Made.exists_binding (h : Made notes) : ∃ (V : Hash32 → ℕ) (N : Hash32 → Hash32),
    ∀ n ∈ notes, V n.commitment = n.value ∧ N n.commitment = n.nullifier := by
  have hvalue : Function.FactorsThrough (fun n : notes => n.1.value) fun n => n.1.commitment :=
    fun n m heq => (h.binding n.2 m.2 heq).1
  have hnullifier : Function.FactorsThrough (fun n : notes => n.1.nullifier)
      fun n => n.1.commitment := fun n m heq => (h.binding n.2 m.2 heq).2
  refine ⟨Function.extend (fun n : notes => n.1.commitment) (fun n => n.1.value) fun _ => 0,
    Function.extend (fun n : notes => n.1.commitment) (fun n => n.1.nullifier) fun _ => 0,
    fun n hn => ⟨?_, ?_⟩⟩
  · exact hvalue.extend_apply _ ⟨n, hn⟩
  · exact hnullifier.extend_apply _ ⟨n, hn⟩

/-- **The pool is sound for the holders of notes.**  In a run of requests that are made from notes,
every unshield pays the value of the leaf that its proof opens, and the total is that of the
unspent leaves all along. -/
theorem values_bound_of_notes (hmade : Made notes) {requests : List PoolRequest}
    (hnotes : ∀ request ∈ requests, request.FromNotes notes)
    (hfree : ∀ e ∈ LeafAccount.trace {} requests, e.1.NoCollision e.2)
    (hfits : (LeafAccount.run {} requests).deposited < 2 ^ 128) :
    (∀ e ∈ LeafAccount.trace {} requests,
      e.1.PaysLeaf e.2 ∧ e.1.pool.totalShieldedValue = e.1.unspentValue) ∧
    (LeafAccount.run {} requests).pool.totalShieldedValue =
      (LeafAccount.run {} requests).unspentValue := by
  obtain ⟨V, N, hbinding⟩ := hmade.exists_binding
  refine LeafAccount.values_bound_of_binds V N (fun e he _ => ?_) hfree hfits
  have hmem := Trace.mem_of_mem_along he
  exact (hnotes _ hmem).binds hmade (fun n hn => (hbinding n hn).1) (fun n hn => (hbinding n hn).2)
    e.1.pool

end

/-! ## A pool with two deposits -/

section

open Transparent

/-- Two deposits. -/
def deposits : List PoolRequest := [.shield ⟨10, 5⟩, .shield ⟨20, 7⟩]

/-- A withdrawal from one of them. -/
def withdrawal (nullifier : Hash32) (leaf value : ℕ) : PoolRequest :=
  .unshield
    { nullifier, merkleProof := pairTree.opening leaf, merkleRoot := pairTree.root, value
      recipient := 3 }

/-- The account after the deposits. -/
def depositedAccount : LeafAccount :=
  { pool := { tree := pairTree, totalShieldedValue := 30 }, values := [10, 20], deposited := 30 }

lemma run_deposits : LeafAccount.run {} deposits = depositedAccount := by
  have hbuilt := pairTree_built
  rw [CommitmentTree.insertAll, List.mapM_cons] at hbuilt
  obtain ⟨index, t, hfirst, hrest⟩ := Handler.bind_eq_ok_iff.mp hbuilt
  rw [List.mapM_cons] at hrest
  obtain ⟨indices, t', hsecond, hdone⟩ := Handler.bind_eq_ok_iff.mp hrest
  obtain ⟨index', t'', hinsert, hnil⟩ := Handler.bind_eq_ok_iff.mp hsecond
  cases hnil
  cases hdone
  have hten : LeafAccount.serve {} (.shield ⟨10, 5⟩) =
      { pool := { tree := t, totalShieldedValue := 10 }, values := [10], deposited := 10 } :=
    LeafAccount.serve_shield (ShieldedPool.shield_ok hfirst)
  have htwenty : LeafAccount.serve
      { pool := { tree := t, totalShieldedValue := 10 }, values := [10], deposited := 10 }
      (.shield ⟨20, 7⟩) = depositedAccount :=
    LeafAccount.serve_shield (ShieldedPool.shield_ok hinsert)
  rw [deposits, LeafAccount.run_cons, LeafAccount.run_cons, hten, htwenty]
  rfl

lemma trace_deposits (more : List PoolRequest) : LeafAccount.trace {} (deposits ++ more) =
    LeafAccount.trace {} deposits ++ depositedAccount.trace more := by
  rw [← run_deposits]
  exact Trace.along_append _ _ _

/-- A withdrawal of the first deposit under a fresh nullifier is accepted. -/
lemma unshield_pairTree {p : ShieldedPool} (htree : p.tree = pairTree) {nullifier : Hash32}
    (hfresh : p.nullifiers.contains nullifier = false) (value : ℕ) :
    ShieldedPool.unshield
      ⟨nullifier, pairTree.opening 0, pairTree.root, value, 3⟩ p = .ok ⟨⟩
        { p.withNullifier nullifier with
          totalShieldedValue := Word.saturatingSub p.totalShieldedValue value } := by
  obtain ⟨-, hholds⟩ := CommitmentTree.holds_empty.of_insertAll (by simp) pairTree_built
  have hverified := hholds.verify_opening (show 0 < 2 ^ commitmentTreeDepth by decide)
  rw [← htree] at hverified ⊢
  exact ShieldedPool.unshield_of_current ⟨rfl, hverified⟩ hfresh

lemma serve_withdrawal {a : LeafAccount} (htree : a.pool.tree = pairTree) {nullifier : Hash32}
    (hfresh : a.pool.nullifiers.contains nullifier = false) (value : ℕ) :
    a.serve (withdrawal nullifier 0 value) =
      { a with
        pool := { a.pool.withNullifier nullifier with
          totalShieldedValue := Word.saturatingSub a.pool.totalShieldedValue value }
        spent := 0 :: a.spent } := by
  rw [withdrawal, LeafAccount.serve]
  simp only [unshield_pairTree htree hfresh]
  rfl

/-- No messages collide in the proof of such a withdrawal. -/
lemma noCollision_withdrawal {a : LeafAccount} (htree : a.pool.tree = pairTree)
    (nullifier : Hash32) (value : ℕ) : a.NoCollision (withdrawal nullifier 0 value) := by
  rintro - s hs
  cases hs
  rw [htree]
  exact CommitmentTree.noCollision_opening (by decide) (by decide +kernel)

/-- In a run of the deposits and of withdrawals of the first one no messages collide. -/
lemma noCollision_trace (withdrawals : List (Hash32 × ℕ)) :
    ∀ e ∈ LeafAccount.trace {} (deposits ++ withdrawals.map fun w => withdrawal w.1 0 w.2),
      e.1.NoCollision e.2 := by
  rw [trace_deposits, List.forall_mem_append]
  constructor
  · -- A deposit has no proof.
    rintro e he - s hs
    have hmem := Trace.mem_of_mem_along he
    rw [deposits, List.mem_pair] at hmem
    rcases hmem with hmem | hmem <;> rw [hmem] at hs <;> cases hs
  · have htree : depositedAccount.pool.tree = pairTree := rfl
    revert htree
    generalize depositedAccount = a
    induction withdrawals generalizing a with
    | nil => exact fun _ e he => (List.not_mem_nil he).elim
    | cons w withdrawals ih =>
      intro htree
      refine List.forall_mem_cons.mpr ⟨noCollision_withdrawal htree w.1 w.2, ih _ ?_⟩
      -- A withdrawal leaves the tree alone, accepted or not.
      have hserved := a.served (withdrawal w.1 0 w.2)
      revert hserved
      generalize a.serve (withdrawal w.1 0 w.2) = b
      intro hserved
      cases hserved <;> exact htree

/-- The same leaf is spent under two nullifiers. -/
theorem leaf_spent_twice :
    (∀ e ∈ LeafAccount.trace {} (deposits ++ [withdrawal 1 0 10, withdrawal 2 0 10]),
      e.1.NoCollision e.2) ∧
    ¬ (LeafAccount.run {} (deposits ++ [withdrawal 1 0 10, withdrawal 2 0 10])).spent.Nodup := by
  refine ⟨noCollision_trace [(1, 10), (2, 10)], ?_⟩
  have hfirst : depositedAccount.serve (withdrawal 1 0 10) = _ :=
    serve_withdrawal rfl (by decide) 10
  have hsecond : (depositedAccount.serve (withdrawal 1 0 10)).serve (withdrawal 2 0 10) = _ :=
    serve_withdrawal (by rw [hfirst]; rfl) (by rw [hfirst]; decide) 10
  rw [LeafAccount.run_append, run_deposits, LeafAccount.run_cons, LeafAccount.run_cons, hsecond,
    hfirst]
  decide

/-- A withdrawal pays more than its leaf is worth, and the total is no longer that of the other
leaf. -/
theorem leaf_overpaid :
    (∀ e ∈ LeafAccount.trace {} (deposits ++ [withdrawal 1 0 15]), e.1.NoCollision e.2) ∧
    (∃ e ∈ LeafAccount.trace {} (deposits ++ [withdrawal 1 0 15]), ¬ e.1.PaysLeaf e.2) ∧
    (LeafAccount.run {} (deposits ++ [withdrawal 1 0 15])).pool.totalShieldedValue = 15 ∧
    (LeafAccount.run {} (deposits ++ [withdrawal 1 0 15])).unspentValue = 20 := by
  refine ⟨noCollision_trace [(1, 15)], ⟨(depositedAccount, withdrawal 1 0 15), ?_, ?_⟩, ?_⟩
  · rw [trace_deposits]
    exact List.mem_append_right _ List.mem_cons_self
  · intro hpays
    have hvalue := hpays _ _ rfl (unshield_pairTree rfl (by decide) 15)
    have hworth : depositedAccount.values[(pairTree.opening 0).leaf]? = some 10 := rfl
    rw [hworth] at hvalue
    cases hvalue
  · have honly : depositedAccount.serve (withdrawal 1 0 15) = _ :=
      serve_withdrawal rfl (by decide) 15
    rw [LeafAccount.run_append, run_deposits, LeafAccount.run_cons, honly]
    exact ⟨rfl, by decide⟩

lemma mem_deposits_or {more : List PoolRequest} {e : LeafAccount × PoolRequest}
    (he : e ∈ LeafAccount.trace {} (deposits ++ more)) :
    e.2 = .shield ⟨10, 5⟩ ∨ e.2 = .shield ⟨20, 7⟩ ∨ e.2 ∈ more := by
  rcases List.mem_append.mp (Trace.mem_of_mem_along he) with hmem | hmem
  · rw [deposits, List.mem_pair] at hmem
    exact hmem.imp_right .inl
  · exact .inr (.inr hmem)

/-- Under one nullifier the leaf is spent once, however often it is tried. -/
theorem leaf_spent_once :
    (LeafAccount.run {} (deposits ++ List.replicate 3 (withdrawal 1 0 10))).spent.Nodup := by
  refine LeafAccount.spent_nodup_of_bindsLeaf (fun leaf => BitVec.ofNat 256 (leaf + 1)) {} ?_
  intro e he s hs _
  rcases mem_deposits_or he with hr | hr | hr
  · rw [hr] at hs
    cases hs
  · rw [hr] at hs
    cases hs
  · rw [List.eq_of_mem_replicate hr] at hs
    cases hs
    rfl

/-- The first deposit is paid out in full. -/
theorem leaf_paid :
    (∀ e ∈ LeafAccount.trace {} (deposits ++ [withdrawal 6 0 10]),
      e.1.PaysLeaf e.2 ∧ e.1.pool.totalShieldedValue = e.1.unspentValue) ∧
    (LeafAccount.run {} (deposits ++ [withdrawal 6 0 10])).pool.totalShieldedValue =
      (LeafAccount.run {} (deposits ++ [withdrawal 6 0 10])).unspentValue := by
  obtain ⟨-, hholds⟩ := CommitmentTree.holds_empty.of_insertAll (by simp) pairTree_built
  have hcommitment : (pairTree.opening 0).commitment = 5 := hholds.commitment_opening 0
  refine LeafAccount.values_bound_of_binds (fun c => if c = 5 then 10 else 20) (fun c => c + 1)
    (fun e he _ => ?_) (noCollision_trace [(6, 10)]) ?_
  · rcases mem_deposits_or he with hr | hr | hr
    · rw [hr]
      exact PoolRequest.binds_shield rfl
    · rw [hr]
      exact PoolRequest.binds_shield rfl
    · rw [List.mem_singleton.mp hr]
      refine ⟨?_, fun s hs => ?_, fun s hs hempty => ?_⟩
      · show 10 = if (pairTree.opening 0).commitment = 5 then 10 else 20
        rw [hcommitment, if_pos rfl]
      · cases hs
        show (6 : Hash32) = (pairTree.opening 0).commitment + 1
        rw [hcommitment]
        rfl
      · cases hs
        exact absurd (hcommitment.symm.trans hempty) (by decide +kernel)
  · have honly : depositedAccount.serve (withdrawal 6 0 10) = _ :=
      serve_withdrawal rfl (by decide) 10
    rw [LeafAccount.run_append, run_deposits, LeafAccount.run_cons, honly]
    decide

end

end ZenoChain
