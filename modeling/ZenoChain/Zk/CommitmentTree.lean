/-
# The commitment tree

An insertion rewrites one path of the stored nodes, and nodes that are not stored stand for empty
subtrees.  So every node, stored or not, has the digest of the subtree that it stands for in the
complete tree over the inserted commitments, and its path verifies.  Conversely a verified
proof opens the leaf at its index modulo the number of leaves, be it inserted or empty.
-/
import ZenoChain.Base.CompleteTree
import ZenoChain.Execution.Transparent
import ZenoChain.Zk.Pool

namespace ZenoChain

/-- The message whose digest stands for an inner node of the commitment tree. -/
def treeNodeMessage (left right : Hash32) : Bytes :=
  textBytes "zeno.zk.tree_node.v1" ++ Codec.array32 left ++ Codec.array32 right

lemma treeNodeMessage_inj {left right left' right' : Hash32}
    (h : treeNodeMessage left right = treeNodeMessage left' right') :
    (left, right) = (left', right') := by
  rw [treeNodeMessage, treeNodeMessage, List.append_assoc, List.append_assoc] at h
  obtain ⟨hleft, hright⟩ := List.append_inj (List.append_cancel_left h)
    (by rw [Codec.length_array32, Codec.length_array32])
  rw [Codec.array32_inj hleft, Codec.array32_inj hright]

section

variable [Hashing]

/-- Where no messages collide, no nodes do. -/
lemma injOn_treeNodeHash {messages : Set Bytes} {pairs : Set (Hash32 × Hash32)}
    (h : messages.InjOn hashBytes) (hsub : Function.uncurry treeNodeMessage '' pairs ⊆ messages) :
    pairs.InjOn (Function.uncurry treeNodeHash) := by
  rintro ⟨left, right⟩ hpair ⟨left', right'⟩ hpair' heq
  have hmessage := h (hsub (Set.mem_image_of_mem _ hpair)) (hsub (Set.mem_image_of_mem _ hpair')) heq
  exact treeNodeMessage_inj hmessage

/-- The row of leaves that begins with some commitments; the other leaves are empty. -/
def leafRow (leaves : List Hash32) (i : ℕ) : Hash32 := leaves[i]?.getD (treeEmptyHash 0)

/-- The digest of a subtree of the complete tree over some commitments. -/
def fullRoot (leaves : List Hash32) : ℕ → ℕ → Hash32 :=
  CompleteTree.root treeNodeHash (leafRow leaves)

/-- The source folds a proof as a path is climbed. -/
lemma foldPath_eq (current : Hash32) (index : ℕ) (siblings : List Hash32) :
    foldPath current index siblings = CompleteTree.climb treeNodeHash current index siblings := by
  induction siblings generalizing current index with
  | nil => rfl
  | cons sibling siblings ih =>
    rw [foldPath, CompleteTree.climb, ih, CompleteTree.pair]
    split <;> rfl

/-- What it takes to pass the verification. -/
lemma verifyCommitmentProof_iff {proof : CommitmentMerkleProof} {expectedRoot : Hash32} :
    verifyCommitmentProof proof expectedRoot = true ↔
      proof.siblings.length = commitmentTreeDepth ∧
        CompleteTree.climb treeNodeHash proof.commitment proof.index proof.siblings =
          expectedRoot := by
  rw [verifyCommitmentProof, decide_eq_true_eq, foldPath_eq]

namespace CommitmentTree

/-- Inserts some commitments, one after the other, and returns their indices. -/
def insertAll (leaves : List Hash32) : EStateM ZkError CommitmentTree (List ℕ) :=
  leaves.mapM insert

/-- The tree stands for the complete tree over some commitments, in all of its nodes. -/
structure Holds (t : CommitmentTree) (leaves : List Hash32) : Prop where
  count : t.leafCount = leaves.length
  nodes : ∀ depth i, depth ≤ commitmentTreeDepth →
    t.nodeHash depth i = fullRoot leaves (commitmentTreeDepth - depth) i

variable {t : CommitmentTree} {leaves : List Hash32}

lemma fullRoot_nil (n i : ℕ) : fullRoot [] n i = treeEmptyHash n := by
  have hrow : leafRow [] = fun _ => treeEmptyHash 0 := rfl
  rw [fullRoot, hrow]
  exact CompleteTree.root_const treeEmptyHash (fun _ => rfl) n i

lemma holds_empty : Holds {} [] := by
  refine ⟨rfl, fun depth i hdepth => ?_⟩
  rw [fullRoot_nil, nodeHash, if_pos hdepth]
  rfl

/-! ## Insertion -/

/-- A node after another one has been written. -/
lemma nodeHash_insert (t : CommitmentTree) (depth index depth' index' : ℕ) (hash : Hash32) :
    nodeHash { t with nodes := t.nodes.insert (depth, index) hash } depth' index' =
      if depth' = depth ∧ index' = index then hash else t.nodeHash depth' index' := by
  rw [nodeHash, nodeHash, Table.getElem?_insert]
  by_cases h : depth' = depth ∧ index' = index
  · rw [if_pos h, if_pos (Prod.ext h.1 h.2), Option.getD_some]
  · rw [if_neg h, if_neg fun hc => h (Prod.mk.inj hc)]

@[simp] lemma leafCount_updatePath (depth index : ℕ) (t : CommitmentTree) :
    (updatePath depth index t).leafCount = t.leafCount := by
  induction depth generalizing index t with
  | zero => rfl
  | succ depth ih => rw [updatePath, ih]

/-- A path is rewritten from below: once the nodes at a depth are right, and those above it
apart from the path, all of them are. -/
lemma nodeHash_updatePath {depth index : ℕ} (hdepth : depth ≤ commitmentTreeDepth)
    (hbelow : ∀ d i, depth ≤ d → d ≤ commitmentTreeDepth →
      t.nodeHash d i = fullRoot leaves (commitmentTreeDepth - d) i)
    (habove : ∀ d i, d < depth → i ≠ index / 2 ^ (depth - d) →
      t.nodeHash d i = fullRoot leaves (commitmentTreeDepth - d) i)
    {d i : ℕ} (hd : d ≤ commitmentTreeDepth) :
    (updatePath depth index t).nodeHash d i = fullRoot leaves (commitmentTreeDepth - d) i := by
  induction depth generalizing index t with
  | zero => exact hbelow d i (Nat.zero_le d) hd
  | succ depth ih =>
    rw [updatePath]
    have hparent : treeNodeHash (t.nodeHash (depth + 1) (index / 2 * 2))
        (t.nodeHash (depth + 1) (index / 2 * 2 + 1)) =
          fullRoot leaves (commitmentTreeDepth - depth) (index / 2) := by
      rw [hbelow _ _ le_rfl hdepth, hbelow _ _ le_rfl hdepth,
        show commitmentTreeDepth - depth = commitmentTreeDepth - (depth + 1) + 1 by omega]
      rfl
    refine ih (by omega) (fun d i hle hd => ?_) (fun d i hlt hi => ?_)
    · rw [nodeHash_insert]
      split
      · rename_i h
        rw [hparent, h.1, h.2]
      · rename_i h
        rcases Nat.lt_or_eq_of_le hle with hlt | rfl
        · exact hbelow d i hlt hd
        · refine habove depth i (Nat.lt_succ_self depth) ?_
          rw [Nat.add_sub_cancel_left, pow_one]
          exact fun hi => h ⟨rfl, hi⟩
    · rw [nodeHash_insert, if_neg (by omega)]
      refine habove d i (by omega) ?_
      rwa [show depth + 1 - d = depth - d + 1 by omega, pow_succ', ← Nat.div_div_eq_div_mul]

/-- Subtrees that do not stand above the next leaf do not change. -/
lemma fullRoot_append {leaves : List Hash32} {n i : ℕ} (h : i ≠ leaves.length / 2 ^ n)
    (commitment : Hash32) : fullRoot (leaves ++ [commitment]) n i = fullRoot leaves n i := by
  refine CompleteTree.root_congr fun k hk => ?_
  have hne : k ≠ leaves.length := by
    rintro rfl
    exact h hk.symm
  rw [leafRow, leafRow, List.getElem?_append]
  split
  · rfl
  · rw [List.getElem?_eq_none (by simpa using by omega), List.getElem?_eq_none (by omega)]

/-- The tree with a leaf more, before the path above it is rewritten. -/
def addLeaf (t : CommitmentTree) (commitment : Hash32) : CommitmentTree :=
  { leafCount := t.leafCount + 1
    nodes := t.nodes.insert (commitmentTreeDepth, t.leafCount) commitment }

lemma insert_run (h : t.leafCount < 2 ^ commitmentTreeDepth) (commitment : Hash32) :
    insert commitment t =
      .ok t.leafCount (updatePath commitmentTreeDepth t.leafCount (t.addLeaf commitment)) := by
  rw [insert, Handler.bind_ok (Handler.get_run t), if_neg (Nat.not_le.mpr h)]
  rfl

/-- **An insertion** returns the next index, and the tree stands for one commitment more. -/
theorem Holds.insert (h : t.Holds leaves) (hroom : leaves.length < 2 ^ commitmentTreeDepth)
    (commitment : Hash32) : ∃ t', CommitmentTree.insert commitment t = .ok leaves.length t' ∧
      t'.Holds (leaves ++ [commitment]) := by
  have hrun := insert_run (h.count.trans_lt hroom) commitment
  rw [h.count] at hrun
  refine ⟨_, hrun, ?_, fun depth i hdepth => ?_⟩
  · rw [leafCount_updatePath, addLeaf, h.count, List.length_append, List.length_singleton]
  · -- Away from the new leaf nothing has been written, and nothing has to be.
    have hother : ∀ d i, ¬ (d = commitmentTreeDepth ∧ i = leaves.length) →
        i ≠ leaves.length / 2 ^ (commitmentTreeDepth - d) → d ≤ commitmentTreeDepth →
          (t.addLeaf commitment).nodeHash d i =
            fullRoot (leaves ++ [commitment]) (commitmentTreeDepth - d) i := by
      intro d i hne hi hd
      rw [fullRoot_append hi, ← h.nodes d i hd, addLeaf, h.count]
      exact (nodeHash_insert { t with leafCount := leaves.length + 1 } _ _ d i commitment).trans
        (if_neg hne)
    refine nodeHash_updatePath le_rfl (fun d i hle hd => ?_) (fun d i hlt hi => ?_) hdepth
    · obtain rfl : d = commitmentTreeDepth := le_antisymm hd hle
      by_cases hi : i = leaves.length
      · rw [addLeaf, h.count]
        refine (nodeHash_insert { t with leafCount := leaves.length + 1 } _ _ _ i commitment).trans ?_
        rw [if_pos ⟨rfl, hi⟩, Nat.sub_self, hi]
        simp [fullRoot, CompleteTree.root, leafRow]
      · exact hother _ i (fun hc => hi hc.2) (by simpa using hi) le_rfl
    · exact hother d i (by omega) hi hlt.le

/-- A full tree takes nothing. -/
lemma insert_full (h : 2 ^ commitmentTreeDepth ≤ t.leafCount) (commitment : Hash32) :
    insert commitment t = .error (.verificationFailed "tree is full") t := by
  rw [insert, Handler.bind_ok (Handler.get_run t), if_pos h]
  rfl

/-- Any number of insertions. -/
lemma Holds.insertAll (h : t.Holds leaves) (more : List Hash32)
    (hroom : leaves.length + more.length ≤ 2 ^ commitmentTreeDepth) :
    ∃ t', CommitmentTree.insertAll more t = .ok (List.range' leaves.length more.length) t' ∧
      t'.Holds (leaves ++ more) := by
  induction more generalizing t leaves with
  | nil => exact ⟨t, rfl, by simpa using h⟩
  | cons commitment more ih =>
    rw [List.length_cons] at hroom
    obtain ⟨t₁, hinsert, h₁⟩ := h.insert (by omega) commitment
    obtain ⟨t', hrest, h'⟩ := ih h₁ (by simpa using by omega)
    refine ⟨t', ?_, by simpa using h'⟩
    rw [List.length_append, List.length_singleton] at hrest
    rw [CommitmentTree.insertAll, List.mapM_cons, Handler.bind_ok hinsert]
    rw [CommitmentTree.insertAll] at hrest
    rw [Handler.bind_ok hrest]
    rfl

/-! ## Openings -/

/-- The proof for a leaf, be it inserted or empty. -/
def opening (t : CommitmentTree) (index : ℕ) : CommitmentMerkleProof :=
  { commitment := t.nodeHash commitmentTreeDepth index, index
    siblings := t.siblings commitmentTreeDepth index }

lemma prove_eq (t : CommitmentTree) (index : ℕ) :
    t.prove index = if t.leafCount ≤ index then .error .commitmentNotFound
      else .ok (t.opening index) := rfl

lemma Holds.root (h : t.Holds leaves) : t.root = fullRoot leaves commitmentTreeDepth 0 :=
  h.nodes 0 0 (Nat.zero_le _)

lemma Holds.siblings (h : t.Holds leaves) {depth : ℕ} (hdepth : depth ≤ commitmentTreeDepth)
    (index : ℕ) : t.siblings depth index =
      CompleteTree.path treeNodeHash (leafRow leaves) (commitmentTreeDepth - depth) depth index := by
  induction depth generalizing index with
  | zero => rfl
  | succ depth ih =>
    rw [CommitmentTree.siblings, CompleteTree.path, ih (by omega), h.nodes _ _ hdepth,
      show commitmentTreeDepth - (depth + 1) + 1 = commitmentTreeDepth - depth by omega]
    rfl

lemma Holds.commitment_opening (h : t.Holds leaves) (index : ℕ) :
    (t.opening index).commitment = leafRow leaves index := by
  rw [opening, h.nodes _ _ le_rfl, Nat.sub_self]
  rfl

lemma Holds.length_opening (h : t.Holds leaves) (index : ℕ) :
    (t.opening index).siblings.length = commitmentTreeDepth := by
  rw [opening, h.siblings le_rfl, CompleteTree.length_path]

/-- The proof for any leaf verifies, be it inserted or empty. -/
lemma Holds.verify_opening (h : t.Holds leaves) {index : ℕ}
    (hindex : index < 2 ^ commitmentTreeDepth) :
    verifyCommitmentProof (t.opening index) t.root = true := by
  refine verifyCommitmentProof_iff.mpr ⟨h.length_opening index, ?_⟩
  rw [h.commitment_opening, opening, h.siblings le_rfl, Nat.sub_self, h.root]
  have hclimb : CompleteTree.climb treeNodeHash (leafRow leaves index) index
      (CompleteTree.path treeNodeHash (leafRow leaves) 0 commitmentTreeDepth index) =
        fullRoot leaves (0 + commitmentTreeDepth) (index / 2 ^ commitmentTreeDepth) :=
    CompleteTree.climb_path 0 commitmentTreeDepth index
  rw [Nat.zero_add, Nat.div_eq_of_lt hindex] at hclimb
  exact hclimb

/-- **The incremental tree is the complete tree.**  Any number of insertions that fit return the
indices from zero on; the root is that of the complete tree over the commitments; and the proof
for each of them carries it and verifies. -/
theorem insertAll_complete {leaves : List Hash32}
    (hroom : leaves.length < 2 ^ commitmentTreeDepth) :
    ∃ t, insertAll leaves {} = .ok (List.range leaves.length) t ∧
      t.leafCount = leaves.length ∧
      t.root = CompleteTree.root treeNodeHash (leafRow leaves) commitmentTreeDepth 0 ∧
      ∀ index commitment, leaves[index]? = some commitment → ∃ proof, t.prove index = .ok proof ∧
        proof.index = index ∧ proof.commitment = commitment ∧
        verifyCommitmentProof proof t.root = true := by
  obtain ⟨t, hrun, hholds⟩ := holds_empty.insertAll leaves (by simpa using hroom.le)
  refine ⟨t, ?_, hholds.count, hholds.root, fun index commitment hleaf => ?_⟩
  · rw [List.range_eq_range']
    exact hrun
  · rw [List.nil_append] at hholds
    have hindex : index < leaves.length := (List.getElem?_eq_some_iff.mp hleaf).1
    refine ⟨t.opening index, ?_, rfl, ?_, hholds.verify_opening (by omega)⟩
    · rw [prove_eq, hholds.count, if_neg (by omega)]
    · rw [hholds.commitment_opening, leafRow, hleaf, Option.getD_some]

end CommitmentTree

/-! ## What a verified proof opens -/

/-- The messages that are hashed when a proof is verified. -/
def CommitmentMerkleProof.messages (proof : CommitmentMerkleProof) : List Bytes :=
  (CompleteTree.climbed treeNodeHash proof.commitment proof.index proof.siblings).map
    (Function.uncurry treeNodeMessage)

/-- The leaf that a proof opens: a path has no more bits than the tree has levels. -/
def CommitmentMerkleProof.leaf (proof : CommitmentMerkleProof) : ℕ :=
  proof.index % 2 ^ commitmentTreeDepth

namespace CommitmentTree

/-- No two messages on the path of a proof, as the proof has it and as the tree has it, collide. -/
def NoCollision (t : CommitmentTree) (proof : CommitmentMerkleProof) : Prop :=
  Set.InjOn hashBytes {m | m ∈ proof.messages ++ (t.opening proof.leaf).messages}

variable {t : CommitmentTree} {leaves : List Hash32} {proof : CommitmentMerkleProof}

/-- A verified proof carries what stands at the leaf that it opens. -/
theorem Holds.commitment_of_verified (h : t.Holds leaves) (hfree : t.NoCollision proof)
    (hverified : verifyCommitmentProof proof t.root = true) :
    proof.commitment = leafRow leaves proof.leaf := by
  have hleaf : proof.leaf < 2 ^ commitmentTreeDepth := Nat.mod_lt _ (Nat.two_pow_pos _)
  obtain ⟨hlength, hclimb⟩ := verifyCommitmentProof_iff.mp hverified
  obtain ⟨hlength', hclimb'⟩ := verifyCommitmentProof_iff.mp (h.verify_opening hleaf)
  rw [← h.commitment_opening]
  refine (CompleteTree.climb_inj (hlength.trans hlength'.symm) ?_ ?_
    (hclimb.trans hclimb'.symm)).1
  · show _ = proof.index % 2 ^ commitmentTreeDepth % _
    rw [hlength, Nat.mod_mod]
  · refine injOn_treeNodeHash hfree ?_
    rintro _ ⟨q, hq, rfl⟩
    show _ ∈ List.map _ _ ++ List.map _ _
    rw [← List.map_append]
    exact List.mem_map.mpr ⟨q, hq, rfl⟩

/-- What an insertion that succeeds has done. -/
lemma Holds.of_insert (h : t.Holds leaves) {commitment : Hash32} {index : ℕ} {t' : CommitmentTree}
    (hrun : CommitmentTree.insert commitment t = .ok index t') :
    leaves.length < 2 ^ commitmentTreeDepth ∧ index = leaves.length ∧
      t'.Holds (leaves ++ [commitment]) := by
  rcases Nat.lt_or_ge leaves.length (2 ^ commitmentTreeDepth) with hroom | hfull
  · obtain ⟨t₁, hinsert, h₁⟩ := h.insert hroom commitment
    rw [hinsert] at hrun
    cases hrun
    exact ⟨hroom, rfl, h₁⟩
  · rw [insert_full (h.count.symm ▸ hfull)] at hrun
    cases hrun

lemma Holds.of_insertAll (h : t.Holds leaves) (hfits : leaves.length ≤ 2 ^ commitmentTreeDepth)
    {more : List Hash32} {indices : List ℕ} {t' : CommitmentTree}
    (hrun : CommitmentTree.insertAll more t = .ok indices t') :
    (leaves ++ more).length ≤ 2 ^ commitmentTreeDepth ∧ t'.Holds (leaves ++ more) := by
  induction more generalizing t leaves indices with
  | nil =>
    cases hrun
    simpa using ⟨hfits, h⟩
  | cons commitment more ih =>
    rw [CommitmentTree.insertAll, List.mapM_cons] at hrun
    obtain ⟨index, t₁, hinsert, hrest⟩ := Handler.bind_eq_ok_iff.mp hrun
    obtain ⟨indices, t₂, hmore, hdone⟩ := Handler.bind_eq_ok_iff.mp hrest
    cases hdone
    obtain ⟨hroom, -, h₁⟩ := h.of_insert hinsert
    simpa using ih h₁ (by simpa using by omega) hmore

/-- **Soundness of openings.**  Where no messages collide, a verified proof opens an inserted
commitment exactly if its index is one of the tree and it does not open an empty leaf. -/
theorem verified_inserted_iff {indices : List ℕ} (hbuilt : insertAll leaves {} = .ok indices t)
    (hfree : t.NoCollision proof) (hverified : verifyCommitmentProof proof t.root = true) :
    (proof.index < t.leafCount ∧ leaves[proof.index]? = some proof.commitment) ↔
      proof.index < 2 ^ commitmentTreeDepth ∧
        (proof.commitment = treeEmptyHash 0 → proof.index < t.leafCount) := by
  obtain ⟨hfits, hholds⟩ := holds_empty.of_insertAll (by simp) hbuilt
  rw [List.nil_append] at hfits hholds
  have hopens := hholds.commitment_of_verified hfree hverified
  have hcount := hholds.count
  constructor
  · rintro ⟨hindex, -⟩
    exact ⟨by omega, fun _ => hindex⟩
  · rintro ⟨hindex, hempty⟩
    rw [CommitmentMerkleProof.leaf, Nat.mod_eq_of_lt hindex, leafRow] at hopens
    rcases hleaf : leaves[proof.index]? with _ | commitment
    · -- The leaf is empty, and so the condition takes the index for an inserted one.
      rw [hleaf] at hopens
      have hin := hempty hopens
      have hout := List.getElem?_eq_none_iff.mp hleaf
      omega
    · rw [hleaf] at hopens
      have hin := (List.getElem?_eq_some_iff.mp hleaf).1
      exact ⟨by omega, congrArg some hopens.symm⟩

/-- A path whose messages are those of the tree and have different digests is free of collisions. -/
lemma noCollision_of_nodup (hsame : proof.messages = (t.opening proof.leaf).messages)
    (hnodup : (proof.messages.map hashBytes).Nodup) : t.NoCollision proof := by
  intro m hm m' hm' heq
  have hown : ∀ m, m ∈ proof.messages ++ (t.opening proof.leaf).messages → m ∈ proof.messages := by
    intro m hm
    rw [← hsame] at hm
    simpa using hm
  exact List.inj_on_of_nodup_map hnodup (hown m hm) (hown m' hm') heq

lemma noCollision_opening {index : ℕ} (hindex : index < 2 ^ commitmentTreeDepth)
    (hnodup : ((t.opening index).messages.map hashBytes).Nodup) : t.NoCollision (t.opening index) := by
  refine noCollision_of_nodup ?_ hnodup
  rw [show (t.opening index).leaf = index from Nat.mod_eq_of_lt hindex]

end CommitmentTree

end

/-! ## A tree with two commitments -/

section

open Transparent

/-- A tree into which two commitments have been inserted. -/
def pairTree : CommitmentTree := Handler.final (CommitmentTree.insertAll [5, 7] {})

lemma pairTree_built : CommitmentTree.insertAll [5, 7] {} = .ok [0, 1] pairTree := by
  obtain ⟨t, hrun, -⟩ := CommitmentTree.holds_empty.insertAll [5, 7] (by decide)
  rw [pairTree, hrun]
  rfl

/-- The second commitment is proved. -/
theorem pairTree_complete : ∃ t, CommitmentTree.insertAll [5, 7] {} = .ok [0, 1] t ∧
    t.leafCount = 2 ∧ ∃ proof, t.prove 1 = .ok proof ∧ proof.commitment = 7 ∧
      verifyCommitmentProof proof t.root = true := by
  have hroom : ([5, 7] : List Hash32).length < 2 ^ commitmentTreeDepth := by decide
  obtain ⟨t, hrun, hcount, -, hproofs⟩ := CommitmentTree.insertAll_complete hroom
  obtain ⟨proof, hproof, -, hcommitment, hverified⟩ := hproofs 1 7 rfl
  exact ⟨t, hrun, hcount, proof, hproof, hcommitment, hverified⟩

/-- A proof for the third leaf, which is empty. -/
def emptyOpening : CommitmentMerkleProof := pairTree.opening 2

/-- The proof for the first commitment under an index that the tree does not have. -/
def aliasedOpening : CommitmentMerkleProof := { pairTree.opening 0 with index := 2 ^ 32 }

/-- Both of them verify. -/
theorem pairTree_opens_beyond :
    (pairTree.NoCollision emptyOpening ∧
      verifyCommitmentProof emptyOpening pairTree.root = true ∧
      ¬ emptyOpening.index < pairTree.leafCount) ∧
    pairTree.NoCollision aliasedOpening ∧
      verifyCommitmentProof aliasedOpening pairTree.root = true ∧
      ¬ aliasedOpening.index < pairTree.leafCount := by
  refine ⟨⟨?_, by decide +kernel⟩, ?_, by decide +kernel⟩
  · exact CommitmentTree.noCollision_opening (by decide) (by decide +kernel)
  · exact CommitmentTree.noCollision_of_nodup (by decide +kernel) (by decide +kernel)

/-- The proof for the second commitment opens it. -/
theorem pairTree_opens_second : 1 < pairTree.leafCount ∧
    ([5, 7] : List Hash32)[1]? = some (pairTree.opening 1).commitment := by
  have hfree : pairTree.NoCollision (pairTree.opening 1) :=
    CommitmentTree.noCollision_opening (by decide) (by decide +kernel)
  exact (CommitmentTree.verified_inserted_iff pairTree_built hfree (by decide +kernel)).mpr
    ⟨by decide, by decide +kernel⟩

end

end ZenoChain
