/-
# The calldata of the precompile

The documentation of the precompile puts the Merkle siblings before the index and the commitment
of the leaf; the precompile reads index and commitment first.  Both layouts have the same length,
so that a proof in the documented layout is read as another one: the one whose index, commitment
and siblings, in this order, have the bytes of its siblings, index and commitment.  On the layout
that it reads, the precompile accepts what verifies.
-/
import ZenoChain.Base.SelfDelimiting
import ZenoChain.Zk.Spending

namespace ZenoChain

open Codec

/-! ## Reading at fixed offsets -/

lemma natOfBytes_eq (b : Bytes) : natOfBytes b = Digits.ofBe b := by
  have key : ∀ (b : Bytes) (n : ℕ),
      b.foldl (fun n x => n * 256 + x.toNat) n = n * 256 ^ b.length + Digits.ofBe b := by
    intro b
    induction b with
    | nil => simp
    | cons x b ih =>
      intro n
      rw [List.foldl_cons, ih, Digits.ofBe_cons, List.length_cons]
      ring
  rw [natOfBytes, key, Nat.zero_mul, Nat.zero_add]

/-- The hash with the given bytes. -/
def hashOfBytes (b : Bytes) : Hash32 := BitVec.ofNat 256 (natOfBytes b)

lemma array32_hashOfBytes {b : Bytes} (h : b.length = 32) : array32 (hashOfBytes b) = b := by
  have hlt : Digits.ofBe b < 2 ^ 256 := by
    have hlt := Digits.ofBe_lt b
    rw [h] at hlt
    exact hlt
  rw [array32, hashOfBytes, natOfBytes_eq, BitVec.toNat_ofNat, Nat.mod_eq_of_lt hlt, beBytes_ofBe h]

lemma hashOfBytes_array32 (v : Hash32) : hashOfBytes (array32 v) = v :=
  array32_inj (array32_hashOfBytes (length_array32 v))

/-- Behind a front part of the input, a hash is read where the rest has it. -/
lemma readHash32_append {front rest : Bytes} {k : ℕ} (hfront : front.length = k) (offset : ℕ)
    (hroom : offset + 32 ≤ rest.length) :
    readHash32 (front ++ rest) (k + offset) = hashOfBytes ((rest.drop offset).take 32) := by
  have hdrop : (front ++ rest).drop (k + offset) = rest.drop offset := by
    rw [← List.drop_drop, List.drop_left' hfront]
  rw [readHash32, if_pos (by rw [List.length_append]; omega), hdrop, hashOfBytes]

/-- A hash is read off at its place. -/
lemma readHash32_array32 {front rest : Bytes} {k : ℕ} (v : Hash32) (hfront : front.length = k) :
    readHash32 (front ++ (array32 v ++ rest)) k = v := by
  have hroom : 0 + 32 ≤ (array32 v ++ rest).length := by simp
  have hread := readHash32_append hfront 0 hroom
  rw [Nat.add_zero, List.drop_zero, List.take_left' (length_array32 v)] at hread
  rw [hread, hashOfBytes_array32]

/-! ## The two layouts -/

/-- The fields that stand in front in both layouts. -/
def publicFields (proof : ShieldedTransferProof) : Bytes :=
  array32 proof.nullifier ++ array32 proof.merkleRoot ++ array32 proof.outputCommitment ++
    u128 proof.value

/-- A Merkle proof as documented: siblings, index, commitment. -/
def documentedPath (proof : CommitmentMerkleProof) : Bytes :=
  proof.siblings.flatMap array32 ++ u64 proof.index ++ array32 proof.commitment

/-- A Merkle proof as the precompile reads it: index, commitment, siblings. -/
def readPath (proof : CommitmentMerkleProof) : Bytes :=
  u64 proof.index ++ array32 proof.commitment ++ proof.siblings.flatMap array32

/-- The calldata for a transfer proof in the documented layout.  Integers have their least
significant byte first, as the precompile reads them. -/
def documentedCalldata (proof : ShieldedTransferProof) : Bytes :=
  publicFields proof ++ documentedPath proof.merkleProof

/-- The Merkle proof that the precompile reads behind the public fields. -/
def pathOfBytes (b : Bytes) : CommitmentMerkleProof :=
  { commitment := hashOfBytes ((b.drop 8).take 32)
    index := natOfBytes (b.take 8).reverse
    siblings := (List.range commitmentTreeDepth).map fun i =>
      hashOfBytes ((b.drop (40 + i * 32)).take 32) }

/-- The proof as which a Merkle proof in the documented layout is read. -/
def misread (proof : CommitmentMerkleProof) : CommitmentMerkleProof :=
  pathOfBytes (documentedPath proof)

/-- The bytes of a Merkle proof. -/
def pathLength : ℕ := 40 + commitmentTreeDepth * 32

lemma length_documentedPath {proof : CommitmentMerkleProof}
    (h : proof.siblings.length = commitmentTreeDepth) :
    (documentedPath proof).length = pathLength := by
  rw [documentedPath, List.length_append, List.length_append,
    length_flatMap_blocks length_array32, h, u64, length_leBytes, length_array32, pathLength]
  omega

lemma length_publicFields (proof : ShieldedTransferProof) : (publicFields proof).length = 112 := by
  simp [publicFields, u128]

/-- Every string of the right length is a Merkle proof in the layout of the precompile. -/
lemma readPath_pathOfBytes {b : Bytes} (h : b.length = pathLength) :
    readPath (pathOfBytes b) = b := by
  have hindex : u64 (natOfBytes (b.take 8).reverse) = b.take 8 := by
    rw [natOfBytes_eq, Digits.ofBe, List.reverse_reverse, u64]
    exact leBytes_ofLe (by rw [List.length_take, h, pathLength]; omega)
  have hcommitment : array32 (hashOfBytes ((b.drop 8).take 32)) = (b.drop 8).take 32 :=
    array32_hashOfBytes (by rw [List.length_take, List.length_drop, h, pathLength]; omega)
  have hsiblings : ((List.range commitmentTreeDepth).map fun i =>
      hashOfBytes ((b.drop (40 + i * 32)).take 32)).flatMap array32 = b.drop 40 := by
    rw [List.flatMap_map]
    have hblocks := flatMap_range_blocks commitmentTreeDepth 32 (b.drop 40)
    rw [List.take_of_length_le (by rw [List.length_drop, h, pathLength]; omega)] at hblocks
    rw [← hblocks]
    refine List.flatMap_congr fun i hi => ?_
    rw [List.drop_drop]
    refine array32_hashOfBytes ?_
    have hlt := List.mem_range.mp hi
    rw [List.length_take, List.length_drop, h, pathLength]
    omega
  rw [readPath, pathOfBytes, hindex, hcommitment, hsiblings, List.append_assoc,
    show b.drop 40 = (b.drop 8).drop 32 by rw [List.drop_drop], List.take_append_drop,
    List.take_append_drop]

/-- **The misread proof** has the bytes of the given one, in the layout of the precompile. -/
theorem readPath_misread {proof : CommitmentMerkleProof}
    (h : proof.siblings.length = commitmentTreeDepth) :
    readPath (misread proof) = documentedPath proof :=
  readPath_pathOfBytes (length_documentedPath h)

/-- A proof in the layout of the precompile is read as it is. -/
lemma pathOfBytes_readPath {proof : CommitmentMerkleProof}
    (hsiblings : proof.siblings.length = commitmentTreeDepth) (hindex : proof.index < 2 ^ 64) :
    pathOfBytes (readPath proof) = proof := by
  have hu64 : (u64 proof.index).length = 8 := length_leBytes 8 _
  have hbefore : (u64 proof.index ++ array32 proof.commitment).length = 40 := by
    rw [List.length_append, hu64, length_array32]
  have hread : natOfBytes ((readPath proof).take 8).reverse = proof.index := by
    rw [readPath, List.append_assoc, List.take_left' hu64, natOfBytes_eq, Digits.ofBe,
      List.reverse_reverse, u64, ofLe_leBytes (by exact hindex)]
  have hcommitment : hashOfBytes (((readPath proof).drop 8).take 32) = proof.commitment := by
    rw [readPath, List.append_assoc, List.drop_left' hu64, List.take_left' (length_array32 _),
      hashOfBytes_array32]
  have hpath : ((List.range commitmentTreeDepth).map fun i =>
      hashOfBytes (((readPath proof).drop (40 + i * 32)).take 32)) = proof.siblings := by
    refine List.ext_getElem (by rw [List.length_map, List.length_range, hsiblings]) ?_
    intro i hi hi'
    rw [List.getElem_map, List.getElem_range, readPath, ← List.drop_drop, List.drop_left' hbefore,
      take_drop_blocks length_array32 (List.getElem?_eq_getElem hi'), hashOfBytes_array32]
  rw [pathOfBytes, hread, hcommitment, hpath]

/-! ## What the precompile accepts -/

section

variable [Hashing]

/-- Behind the public fields, the precompile reads a Merkle proof and verifies it. -/
lemma verifyPrecompileInner_iff (proof : ShieldedTransferProof) {path : Bytes}
    (hpath : path.length = pathLength) :
    verifyPrecompileInner (publicFields proof ++ path) = true ↔
      verifyCommitmentProof (pathOfBytes path) proof.merkleRoot = true ∧
        proof.outputCommitment ≠ 0 ∧ proof.nullifier ≠ 0 := by
  have hfront := length_publicFields proof
  have hlength : 152 + 32 * commitmentTreeDepth ≤ (publicFields proof ++ path).length := by
    rw [List.length_append, hfront, hpath, pathLength]
    omega
  have hnullifier : readHash32 (publicFields proof ++ path) 0 = proof.nullifier := by
    rw [publicFields, List.append_assoc, List.append_assoc, List.append_assoc]
    exact readHash32_array32 proof.nullifier List.length_nil
  have hroot : readHash32 (publicFields proof ++ path) 32 = proof.merkleRoot := by
    rw [publicFields, List.append_assoc, List.append_assoc, List.append_assoc]
    exact readHash32_array32 proof.merkleRoot (length_array32 _)
  have houtput : readHash32 (publicFields proof ++ path) 64 = proof.outputCommitment := by
    rw [publicFields, List.append_assoc, List.append_assoc]
    refine readHash32_array32 proof.outputCommitment ?_
    rw [List.length_append, length_array32, length_array32]
  have hcommitment : readHash32 (publicFields proof ++ path) 120 =
      hashOfBytes ((path.drop 8).take 32) :=
    readHash32_append hfront 8 (by rw [hpath, pathLength]; omega)
  have hsiblings : ((List.range commitmentTreeDepth).map fun i =>
      readHash32 (publicFields proof ++ path) (152 + i * 32)) =
        (List.range commitmentTreeDepth).map fun i =>
          hashOfBytes ((path.drop (40 + i * 32)).take 32) := by
    refine List.map_congr_left fun i hi => ?_
    have hlt := List.mem_range.mp hi
    rw [show 152 + i * 32 = 112 + (40 + i * 32) by omega]
    exact readHash32_append hfront _ (by rw [hpath, pathLength]; omega)
  rw [verifyPrecompileInner, hnullifier, hroot, houtput, hcommitment, hsiblings,
    List.drop_left' hfront, ← pathOfBytes, decide_eq_true_eq]
  exact and_iff_right hlength

omit [Hashing] in
lemma paddedBool_eq_true_iff {value : Bool} : paddedBool value = paddedBool true ↔ value = true := by
  cases value <;> decide

/-- The precompile accepts a proof in the documented layout if the proof as which it is read
verifies. -/
lemma zkVerifyPrecompile_documented_iff {proof : ShieldedTransferProof}
    (h : proof.merkleProof.siblings.length = commitmentTreeDepth) :
    zkVerifyPrecompile (documentedCalldata proof) = paddedBool true ↔
      verifyCommitmentProof (misread proof.merkleProof) proof.merkleRoot = true ∧
        proof.outputCommitment ≠ 0 ∧ proof.nullifier ≠ 0 := by
  rw [zkVerifyPrecompile, paddedBool_eq_true_iff, documentedCalldata,
    verifyPrecompileInner_iff proof (length_documentedPath h), misread]

/-- **The precompile on its own layout** accepts what verifies. -/
theorem zkVerifyPrecompile_readPath_iff {proof : ShieldedTransferProof}
    (hsiblings : proof.merkleProof.siblings.length = commitmentTreeDepth)
    (hindex : proof.merkleProof.index < 2 ^ 64) :
    zkVerifyPrecompile (publicFields proof ++ readPath proof.merkleProof) = paddedBool true ↔
      verifyCommitmentProof proof.merkleProof proof.merkleRoot = true ∧
        proof.outputCommitment ≠ 0 ∧ proof.nullifier ≠ 0 := by
  have hlength : (readPath proof.merkleProof).length = pathLength := by
    rw [readPath, List.length_append, List.length_append,
      length_flatMap_blocks length_array32, hsiblings, u64, length_leBytes, length_array32, pathLength]
  rw [zkVerifyPrecompile, paddedBool_eq_true_iff, verifyPrecompileInner_iff proof hlength,
    pathOfBytes_readPath hsiblings hindex]

namespace ShieldedPool

/-- The pool takes a transfer. -/
def Accepts (p : ShieldedPool) (proof : ShieldedTransferProof) : Prop :=
  ∃ index p', transfer proof p = .ok index p'

/-- What the pool asks of a transfer apart from its Merkle proof: an unspent nullifier, the
current root, and room for the output. -/
def Ready (p : ShieldedPool) (proof : ShieldedTransferProof) : Prop :=
  p.nullifiers.contains proof.nullifier = false ∧ proof.merkleRoot = p.tree.root ∧
    p.tree.leafCount < 2 ^ commitmentTreeDepth

variable {p : ShieldedPool} {proof : ShieldedTransferProof}

lemma accepts_iff : p.Accepts proof ↔
    p.Ready proof ∧ verifyCommitmentProof proof.merkleProof proof.merkleRoot = true := by
  constructor
  · rintro ⟨index, p', hrun⟩
    rw [transfer] at hrun
    obtain ⟨⟨⟩, p₁, hspend, hinsert⟩ := Handler.bind_eq_ok_iff.mp hrun
    obtain ⟨hspent, hroot, hproof, rfl⟩ := spend_ok hspend
    refine ⟨⟨Bool.eq_false_iff.mpr hspent, hroot, ?_⟩, hroot ▸ hproof⟩
    by_contra hfull
    have hfails := insertCommitment_full (p := p.withNullifier proof.nullifier)
      (Nat.le_of_not_lt hfull) proof.outputCommitment
    cases hfails.symm.trans hinsert
  · rintro ⟨⟨hfresh, hroot, hroom⟩, hproof⟩
    exact ⟨_, _, transfer_of_current ⟨hroot, hroot ▸ hproof⟩ hfresh
      (CommitmentTree.insert_run hroom proof.outputCommitment)⟩

/-- The precompile accepts what the pool accepts, and nothing that does not verify. -/
def PrecompileAgrees (p : ShieldedPool) (proof : ShieldedTransferProof) : Prop :=
  (p.Accepts proof → proof.nullifier ≠ 0 → proof.outputCommitment ≠ 0 →
    zkVerifyPrecompile (documentedCalldata proof) = paddedBool true) ∧
  (zkVerifyPrecompile (documentedCalldata proof) = paddedBool true →
    verifyCommitmentProof proof.merkleProof proof.merkleRoot = true)

/-- **The precompile and the pool agree** on a proof with public fields that are not zero exactly if
the proof verifies whenever the misread one does, and the misread one does whenever the proof does
and the pool asks for nothing else. -/
theorem precompileAgrees_iff (p : ShieldedPool) {proof : ShieldedTransferProof}
    (h : proof.merkleProof.siblings.length = commitmentTreeDepth) :
    p.PrecompileAgrees proof ↔ (proof.nullifier ≠ 0 → proof.outputCommitment ≠ 0 →
      (p.Ready proof → verifyCommitmentProof proof.merkleProof proof.merkleRoot = true →
        verifyCommitmentProof (misread proof.merkleProof) proof.merkleRoot = true) ∧
      (verifyCommitmentProof (misread proof.merkleProof) proof.merkleRoot = true →
        verifyCommitmentProof proof.merkleProof proof.merkleRoot = true)) := by
  rw [PrecompileAgrees, accepts_iff, zkVerifyPrecompile_documented_iff h]
  tauto

end ShieldedPool

end

/-! ## A transfer that the precompile refuses -/

section

open Transparent

/-- A transfer of the first of two deposits. -/
def firstTransfer : ShieldedTransferProof :=
  { nullifier := 1, merkleRoot := pairTree.root, merkleProof := pairTree.opening 0
    outputCommitment := 9, value := 0 }

/-- The pool takes the transfer, and the precompile refuses it. -/
theorem firstTransfer_refused :
    ¬ ∀ (requests : List PoolRequest) (proof : ShieldedTransferProof),
      proof.merkleProof.siblings.length = commitmentTreeDepth →
        (LeafAccount.run {} requests).pool.PrecompileAgrees proof := by
  intro h
  obtain ⟨-, hholds⟩ := CommitmentTree.holds_empty.of_insertAll (by simp) pairTree_built
  have haccepts : depositedAccount.pool.Accepts firstTransfer :=
    ShieldedPool.accepts_iff.mpr
      ⟨⟨by decide, rfl, by decide⟩, hholds.verify_opening (Nat.two_pow_pos _)⟩
  have hagrees := h deposits firstTransfer (hholds.length_opening 0)
  rw [run_deposits] at hagrees
  have hreturns := hagrees.1 haccepts (by decide) (by decide)
  exact absurd hreturns (by decide +kernel)

/-- The path of the empty word through siblings that are all zero. -/
def zeroPath : CommitmentMerkleProof :=
  { commitment := 0, index := 0, siblings := List.replicate commitmentTreeDepth 0 }

/-- A transfer with a path that is read as itself. -/
def zeroTransfer : ShieldedTransferProof :=
  { nullifier := 1, merkleRoot := foldPath 0 0 zeroPath.siblings, merkleProof := zeroPath
    outputCommitment := 9, value := 0 }

/-- A pool whose current root is that of the transfer. -/
def zeroPool : ShieldedPool :=
  { tree := { nodes := (∅ : Std.ExtTreeMap _ _ _).insert (0, 0) zeroTransfer.merkleRoot } }

/-- Both the pool and the precompile accept this transfer. -/
theorem zeroTransfer_accepted : zeroPool.Accepts zeroTransfer ∧
    zkVerifyPrecompile (documentedCalldata zeroTransfer) = paddedBool true := by
  have hsame : misread zeroTransfer.merkleProof = zeroTransfer.merkleProof := by decide +kernel
  have hverified : verifyCommitmentProof zeroTransfer.merkleProof zeroTransfer.merkleRoot = true := by
    decide +kernel
  have haccepts : zeroPool.Accepts zeroTransfer :=
    ShieldedPool.accepts_iff.mpr ⟨⟨by decide, by decide +kernel, by decide⟩, hverified⟩
  have hagrees : zeroPool.PrecompileAgrees zeroTransfer := by
    refine (ShieldedPool.precompileAgrees_iff zeroPool (by decide)).mpr fun _ _ => ?_
    rw [hsame]
    exact ⟨fun _ => id, id⟩
  exact ⟨haccepts, hagrees.1 haccepts (by decide) (by decide)⟩

end

end ZenoChain
