/-
# Shielded pool

The commitment tree and the pool of `zeno-zk`, and the calldata check of its precompile.
A pool operation is a program over the pool: what it wrote before it failed stays written.
-/
import ZenoChain.Base.Handler
import ZenoChain.Base.Table
import ZenoChain.Base.Word
import ZenoChain.State.Accounts

namespace ZenoChain

open Word

/-- Depth of the commitment Merkle tree. -/
def commitmentTreeDepth : ℕ := 32

/-- ZK proof system errors. -/
inductive ZkError
  | duplicateCommitment
  | nullifierAlreadySpent
  | invalidMerkleProof
  | commitmentNotFound
  | verificationFailed (message : String)
  | insufficientBalance
deriving DecidableEq, Repr

/-- The display text of a proof system error. -/
def ZkError.toText : ZkError → String
  | duplicateCommitment => "duplicate commitment"
  | nullifierAlreadySpent => "nullifier already spent (double-spend attempt)"
  | invalidMerkleProof => "invalid Merkle proof"
  | commitmentNotFound => "commitment not found"
  | verificationFailed message => "proof verification failed: " ++ message
  | insufficientBalance => "insufficient shielded balance"

/-- A Merkle proof for a commitment in the tree. -/
structure CommitmentMerkleProof where
  commitment : Hash32
  index : ℕ
  siblings : List Hash32
deriving DecidableEq, Repr

/-- A shielded transfer proof. -/
structure ShieldedTransferProof where
  nullifier : Hash32
  merkleRoot : Hash32
  merkleProof : CommitmentMerkleProof
  outputCommitment : Hash32
  value : ℕ
deriving DecidableEq, Repr

/-- A shield (deposit) request. -/
structure ShieldRequest where
  value : ℕ
  commitment : Hash32
deriving DecidableEq, Repr

/-- An unshield (withdraw) request. -/
structure UnshieldRequest where
  nullifier : Hash32
  merkleProof : CommitmentMerkleProof
  merkleRoot : Hash32
  value : ℕ
  recipient : Address
deriving DecidableEq, Repr

instance CommitmentTree.transCmp : Std.TransCmp
    (compareLex (compareOn (Prod.fst : ℕ × ℕ → ℕ)) (compareOn Prod.snd)) :=
  inferInstance

/-- Incremental Merkle tree for commitments: the hashes of the nodes under their depth and
index.  The hashes of empty subtrees, which the source keeps in a vector, are recomputed. -/
structure CommitmentTree where
  leafCount : ℕ := 0
  nodes : Std.ExtTreeMap (ℕ × ℕ) Hash32 (compareLex (compareOn Prod.fst) (compareOn Prod.snd)) := ∅

/-- The on-chain shielded pool state. -/
structure ShieldedPool where
  tree : CommitmentTree := {}
  nullifiers : BTreeMap Hash32 Unit := ∅
  totalShieldedValue : ℕ := 0

/-- The factor that hides the value in a commitment. -/
abbrev BlindingFactor := BitVec 256

/-- The key from which nullifiers are derived. -/
abbrev SpendingKey := BitVec 256

/-- What is needed to spend a commitment. -/
structure ShieldedNote where
  value : ℕ
  blinding : BlindingFactor
  spendingKey : SpendingKey
  commitment : Hash32
  nullifier : Hash32
  treeIndex : Option ℕ
deriving DecidableEq, Repr

/-- What is hashed to a commitment. -/
def commitmentMessage (value : ℕ) (blinding : BlindingFactor) : Bytes :=
  textBytes "zeno.zk.commitment.v1" ++ Codec.u128 value ++ Codec.array32 blinding

section Tree

variable [Hashing]

/-- Computes a hash commitment. -/
def computeCommitment (value : ℕ) (blinding : BlindingFactor) : Hash32 :=
  hashBytes (commitmentMessage value blinding)

/-- Computes a nullifier from a commitment and a spending key. -/
def computeNullifier (commitment : Hash32) (spendingKey : SpendingKey) : Hash32 :=
  hashBytes
    (textBytes "zeno.zk.nullifier.v1" ++ Codec.array32 commitment ++ Codec.array32 spendingKey)

/-- Creates a note with a specific spending key; the blinding factor is drawn at random. -/
def createNoteWithKey (value : ℕ) (spendingKey : SpendingKey) (blinding : BlindingFactor) :
    ShieldedNote :=
  let commitment := computeCommitment value blinding
  { value, blinding, spendingKey, commitment
    nullifier := computeNullifier commitment spendingKey
    treeIndex := none }

/-- Hash of an inner node of the commitment tree. -/
def treeNodeHash (left right : Hash32) : Hash32 :=
  hashBytes (textBytes "zeno.zk.tree_node.v1" ++ Codec.array32 left ++ Codec.array32 right)

/-- Hash of the empty subtree with `n` levels below it: the entry `32 - n` of
`compute_empty_hashes`. -/
def treeEmptyHash : ℕ → Hash32
  | 0 => hashBytes (textBytes "zeno.zk.empty_leaf.v1")
  | n + 1 => treeNodeHash (treeEmptyHash n) (treeEmptyHash n)

namespace CommitmentTree

/-- The hash of a node, or of an empty subtree of its depth. -/
def nodeHash (t : CommitmentTree) (depth index : ℕ) : Hash32 :=
  t.nodes[(depth, index)]?.getD
    (if depth ≤ commitmentTreeDepth then treeEmptyHash (commitmentTreeDepth - depth) else 0)

/-- Returns the current Merkle root. -/
def root (t : CommitmentTree) : Hash32 := t.nodeHash 0 0

/-- The loop of `insert`: rewrites the path from a node at `depth` up to the root. -/
def updatePath : ℕ → ℕ → CommitmentTree → CommitmentTree
  | 0, _, t => t
  | depth + 1, index, t =>
    let parentIndex := index / 2
    let left := t.nodeHash (depth + 1) (parentIndex * 2)
    let right := t.nodeHash (depth + 1) (parentIndex * 2 + 1)
    updatePath depth parentIndex
      { t with nodes := t.nodes.insert (depth, parentIndex) (treeNodeHash left right) }

/-- Inserts a commitment and returns its leaf index. -/
def insert (commitment : Hash32) : EStateM ZkError CommitmentTree ℕ := do
  let t ← get
  let index := t.leafCount
  if 2 ^ commitmentTreeDepth ≤ index then throw (.verificationFailed "tree is full")
  else
    set (updatePath commitmentTreeDepth index
      { leafCount := t.leafCount + 1
        nodes := t.nodes.insert (commitmentTreeDepth, index) commitment })
    return index

/-- The siblings on the path from a node at `depth` up to the root. -/
def siblings (t : CommitmentTree) : ℕ → ℕ → List Hash32
  | 0, _ => []
  | depth + 1, current =>
    t.nodeHash (depth + 1) (if current % 2 = 0 then current + 1 else current - 1) ::
      siblings t depth (current / 2)

/-- Generates a Merkle proof for a commitment at the given index. -/
def prove (t : CommitmentTree) (index : ℕ) : Except ZkError CommitmentMerkleProof :=
  if t.leafCount ≤ index then .error .commitmentNotFound
  else .ok
    { commitment := t.nodeHash commitmentTreeDepth index
      index
      siblings := t.siblings commitmentTreeDepth index }

end CommitmentTree

/-- The hash at the top of a path, from a hash, its index and the siblings above it. -/
def foldPath : Hash32 → ℕ → List Hash32 → Hash32
  | current, _, [] => current
  | current, index, sibling :: siblings =>
    foldPath (if index % 2 = 0 then treeNodeHash current sibling else treeNodeHash sibling current)
      (index / 2) siblings

/-- Verifies a commitment Merkle proof against a root. -/
def verifyCommitmentProof (proof : CommitmentMerkleProof) (expectedRoot : Hash32) : Bool :=
  proof.siblings.length = commitmentTreeDepth ∧
    foldPath proof.commitment proof.index proof.siblings = expectedRoot

namespace ShieldedPool

/-- Inserts into the tree of the pool. -/
def insertCommitment (commitment : Hash32) : EStateM ZkError ShieldedPool ℕ :=
  Handler.zoom ShieldedPool.tree (fun tree p => { p with tree }) id
    (CommitmentTree.insert commitment)

/-- Processes a shield (deposit): adds a commitment to the tree. -/
def shield (request : ShieldRequest) : EStateM ZkError ShieldedPool ℕ := do
  let index ← insertCommitment request.commitment
  modify fun p =>
    { p with totalShieldedValue := saturatingAdd 128 p.totalShieldedValue request.value }
  return index

/-- The checks shared by a transfer and an unshield, and the record of the nullifier. -/
def spend (nullifier merkleRoot : Hash32) (merkleProof : CommitmentMerkleProof) :
    EStateM ZkError ShieldedPool PUnit := do
  let p ← get
  if p.nullifiers.contains nullifier then throw .nullifierAlreadySpent
  else if merkleRoot ≠ p.tree.root then throw (.verificationFailed "merkle root mismatch")
  else if ¬ verifyCommitmentProof merkleProof p.tree.root then throw .invalidMerkleProof
  else set { p with nullifiers := p.nullifiers.insert nullifier () }

/-- What a nullifier is recorded for. -/
lemma spend_ok {nullifier merkleRoot : Hash32} {merkleProof : CommitmentMerkleProof}
    {p p' : ShieldedPool} (h : spend nullifier merkleRoot merkleProof p = .ok ⟨⟩ p') :
    ¬ p.nullifiers.contains nullifier ∧ merkleRoot = p.tree.root ∧
    verifyCommitmentProof merkleProof p.tree.root ∧
    p' = { p with nullifiers := p.nullifiers.insert nullifier () } := by
  rw [spend, Handler.bind_ok (Handler.get_run p)] at h
  split at h
  · cases h
  · rename_i hspent
    split at h
    · cases h
    · rename_i hroot
      split at h
      · cases h
      · rename_i hproof
        cases h
        exact ⟨hspent, not_not.mp hroot, not_not.mp hproof, rfl⟩

/-- Processes a shielded transfer: spends a commitment and creates a new one. -/
def transfer (proof : ShieldedTransferProof) : EStateM ZkError ShieldedPool ℕ := do
  spend proof.nullifier proof.merkleRoot proof.merkleProof
  insertCommitment proof.outputCommitment

/-- Processes an unshield (withdraw): spends a commitment. -/
def unshield (request : UnshieldRequest) : EStateM ZkError ShieldedPool PUnit := do
  spend request.nullifier request.merkleRoot request.merkleProof
  modify fun p =>
    { p with totalShieldedValue := saturatingSub p.totalShieldedValue request.value }

end ShieldedPool

end Tree

/-! ## EVM precompile interface -/

/-- The number written in some bytes, most significant byte first. -/
def natOfBytes (b : Bytes) : ℕ := b.foldl (fun n x => n * 256 + x.toNat) 0

/-- Reads a hash at an offset, or zero where the input is too short. -/
def readHash32 (data : Bytes) (offset : ℕ) : Hash32 :=
  if offset + 32 ≤ data.length then BitVec.ofNat 256 (natOfBytes ((data.drop offset).take 32))
  else 0

/-- The check of `zk_verify_precompile` on its calldata. -/
def verifyPrecompileInner [Hashing] (input : Bytes) : Bool :=
  let proof : CommitmentMerkleProof :=
    { commitment := readHash32 input 120
      index := natOfBytes ((input.drop 112).take 8).reverse
      siblings := (List.range commitmentTreeDepth).map fun i => readHash32 input (152 + i * 32) }
  152 + 32 * commitmentTreeDepth ≤ input.length ∧
    verifyCommitmentProof proof (readHash32 input 32) ∧
    readHash32 input 64 ≠ 0 ∧ readHash32 input 0 ≠ 0

/-- A 32-byte word holding a truth value. -/
def paddedBool (value : Bool) : Bytes := List.replicate 31 0 ++ [if value then 1 else 0]

/-- Verifies a shielded transfer proof from EVM calldata. -/
def zkVerifyPrecompile [Hashing] (input : Bytes) : Bytes := paddedBool (verifyPrecompileInner input)

end ZenoChain
