/-
# Failed requests to the pool

A request that fails leaves the pool as it was, apart from one case: a transfer records its
nullifier before its output is inserted, so that on a full tree the nullifier stays behind.
The case is reached: the tree can be filled by deposits, and any leaf of it has a proof.
-/
import ZenoChain.Zk.Spending

namespace ZenoChain

section

variable [Hashing]

namespace ShieldedPool

/-- The operation that a request asks for; the index that it returns is left out. -/
def serve : PoolRequest → EStateM ZkError ShieldedPool PUnit
  | .shield request => do let _ ← shield request
  | .transfer proof => do let _ ← transfer proof
  | .unshield request => unshield request

/-- The pool that a request leaves behind. -/
def after (p : ShieldedPool) (request : PoolRequest) : ShieldedPool :=
  Handler.final (serve request p)

/-- The request changes nothing if it fails. -/
def FailsCleanly (p : ShieldedPool) (request : PoolRequest) : Prop :=
  ∀ err p', serve request p = .error err p' → p' = p

/-- A transfer that passes all checks meets a full tree. -/
def Overfills (p : ShieldedPool) : PoolRequest → Prop
  | .transfer proof =>
    p.nullifiers.contains proof.nullifier = false ∧
      Spend.Current ⟨proof.nullifier, proof.merkleRoot, proof.merkleProof⟩ p ∧
      2 ^ commitmentTreeDepth ≤ p.tree.leafCount
  | _ => False

variable {p : ShieldedPool}

lemma serve_shield_ok {request : ShieldRequest} {index : ℕ} {p' : ShieldedPool}
    (h : shield request p = .ok index p') : serve (.shield request) p = .ok ⟨⟩ p' :=
  Handler.bind_ok h

/-- On a full tree, a transfer that passes all checks fails with its nullifier recorded. -/
lemma serve_of_overfills {proof : ShieldedTransferProof} (h : p.Overfills (.transfer proof)) :
    serve (.transfer proof) p =
      .error (.verificationFailed "tree is full") (p.withNullifier proof.nullifier) := by
  obtain ⟨hfresh, hcurrent, hfull⟩ := h
  have hspend := spend_of_current hcurrent hfresh
  have hinsert := insertCommitment_full (p := p.withNullifier proof.nullifier) hfull
    proof.outputCommitment
  have htransfer : transfer proof p =
      .error (.verificationFailed "tree is full") (p.withNullifier proof.nullifier) := by
    rw [transfer, Handler.bind_ok hspend, hinsert]
  exact Handler.bind_error htransfer

omit [Hashing] in
lemma withNullifier_ne {nullifier : Hash32} (hfresh : p.nullifiers.contains nullifier = false) :
    p.withNullifier nullifier ≠ p := by
  intro heq
  have hmem : (p.withNullifier nullifier).nullifiers.contains nullifier = true :=
    contains_withNullifier.mpr (.inl rfl)
  rw [heq, hfresh] at hmem
  cases hmem

/-- **A failed request** leaves something behind exactly if it is a transfer that passes all
checks on a full tree. -/
theorem failsCleanly_iff (p : ShieldedPool) (request : PoolRequest) :
    p.FailsCleanly request ↔ ¬ p.Overfills request := by
  constructor
  · intro h hover
    cases request with
    | transfer proof => exact withNullifier_ne hover.1 (h _ _ (serve_of_overfills hover))
    | shield request => exact hover
    | unshield request => exact hover
  · intro hover err p' hrun
    cases request with
    | shield request =>
      rcases shield_cases request p with ⟨e, h⟩ | ⟨index, tree, -, h⟩
      · rw [serve, Handler.bind_error h] at hrun
        cases hrun
        rfl
      · rw [serve_shield_ok h] at hrun
        cases hrun
    | unshield request =>
      rcases unshield_cases request p with ⟨e, h⟩ | ⟨-, -, h⟩ <;> rw [serve, h] at hrun <;> cases hrun
      rfl
    | transfer proof =>
      rcases spend_cases ⟨proof.nullifier, proof.merkleRoot, proof.merkleProof⟩ p with
        ⟨e, h⟩ | ⟨hcurrent, hfresh, -⟩
      · have htransfer : transfer proof p = .error e p := Handler.bind_error h
        rw [serve, Handler.bind_error htransfer] at hrun
        cases hrun
        rfl
      · -- With all checks passed, the tree has room, and so the transfer does not fail.
        have hroom : p.tree.leafCount < 2 ^ commitmentTreeDepth :=
          Nat.lt_of_not_le fun hfull => hover ⟨hfresh, hcurrent, hfull⟩
        have hok := transfer_of_current hcurrent hfresh
          (CommitmentTree.insert_run hroom proof.outputCommitment)
        rw [serve, Handler.bind_ok hok] at hrun
        cases hrun

end ShieldedPool

/-- **Failed requests change nothing**, all along a run of the pool, exactly as long as no transfer
passes all checks on a full tree. -/
theorem ShieldedPool.run_failsCleanly_iff (requests : List PoolRequest) :
    (∀ e ∈ Trace.along ShieldedPool.after {} requests, e.1.FailsCleanly e.2) ↔
      ∀ e ∈ Trace.along ShieldedPool.after {} requests, ¬ e.1.Overfills e.2 :=
  forall₂_congr fun e _ => failsCleanly_iff e.1 e.2

/-! ## A full tree -/

namespace ShieldedPool

/-- Deposits of nothing under some commitments. -/
def fill (leaves : List Hash32) : List PoolRequest := leaves.map fun c => .shield ⟨0, c⟩

/-- Deposits fill the tree with their commitments and record no nullifier. -/
lemma fill_holds {leaves : List Hash32} (hroom : leaves.length ≤ 2 ^ commitmentTreeDepth) :
    ((fill leaves).foldl after {}).tree.Holds leaves ∧
      ((fill leaves).foldl after {}).nullifiers = ∅ := by
  induction leaves using List.reverseRecOn with
  | nil => exact ⟨CommitmentTree.holds_empty, rfl⟩
  | append_singleton leaves c ih =>
    rw [List.length_append, List.length_singleton] at hroom
    obtain ⟨hholds, hnullifiers⟩ := ih (by omega)
    obtain ⟨tree, hinsert, hholds'⟩ := hholds.insert (by omega) c
    have hshield := @shield_ok _ _ ⟨0, c⟩ _ _ hinsert
    rw [fill, List.map_append, List.foldl_append, ← fill]
    show (after _ (.shield ⟨0, c⟩)).tree.Holds _ ∧ (after _ (.shield ⟨0, c⟩)).nullifiers = ∅
    rw [after, serve_shield_ok hshield]
    exact ⟨hholds', hnullifiers⟩

/-- A transfer of the first leaf to itself. -/
def refill (p : ShieldedPool) (nullifier : Hash32) : ShieldedTransferProof :=
  { nullifier, merkleRoot := p.tree.root, merkleProof := p.tree.opening 0, outputCommitment := 0
    value := 0 }

lemma overfills_refill {leaves : List Hash32} (hfull : leaves.length = 2 ^ commitmentTreeDepth)
    (nullifier : Hash32) : ((fill leaves).foldl after {}).Overfills
      (.transfer (((fill leaves).foldl after {}).refill nullifier)) := by
  obtain ⟨hholds, hnullifiers⟩ := fill_holds hfull.le
  refine ⟨?_, ⟨rfl, hholds.verify_opening (Nat.two_pow_pos _)⟩, ?_⟩
  · rw [hnullifiers]
    simp
  · rw [hholds.count, hfull]

end ShieldedPool

end

section

open Transparent

/-- Once deposits have filled the tree, a transfer of its first leaf fails, and its nullifier is
recorded. -/
theorem ShieldedPool.transfer_fails_with_trace :
    ¬ ∀ (requests : List PoolRequest) (request : PoolRequest),
      (requests.foldl ShieldedPool.after {}).FailsCleanly request := by
  intro h
  have hfull : (List.replicate (2 ^ commitmentTreeDepth) (0 : Hash32)).length =
      2 ^ commitmentTreeDepth := List.length_replicate
  revert hfull
  generalize List.replicate (2 ^ commitmentTreeDepth) (0 : Hash32) = leaves
  intro hfull
  exact (failsCleanly_iff _ _).mp (h (fill leaves) _) (overfills_refill hfull 1)

end

end ZenoChain
