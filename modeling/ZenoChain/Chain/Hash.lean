/-
# Hashing and commitment helpers

The two digests of the chain are third-party functions, given here by the class
`Hashing`; everything built on them is defined from their values.
-/
import ZenoChain.Chain.Codec

namespace ZenoChain

/-- The digests used by the chain: BLAKE3 and SHA3-256 of a byte string. -/
class Hashing where
  /-- Blake3 hash of arbitrary bytes. -/
  hashBytes : Bytes → Hash32
  /-- SHA3-256 hash of arbitrary bytes. -/
  sha3Hash : Bytes → Hash32

export Hashing (hashBytes sha3Hash)

variable [Hashing]

/-- One layer of the Merkle tree from the layer below: neighbours are hashed together,
and a last leaf without neighbour is its own sibling. -/
def merkleLayer : List Hash32 → List Hash32
  | [] => []
  | [a] => [hashBytes (Codec.array32 a ++ Codec.array32 a)]
  | a :: b :: l => hashBytes (Codec.array32 a ++ Codec.array32 b) :: merkleLayer l

/-- The loop of `merkle_root`, run for at most `fuel` layers. -/
def merkleLoop : ℕ → List Hash32 → List Hash32
  | 0, layer => layer
  | fuel + 1, layer => if layer.length ≤ 1 then layer else merkleLoop fuel (merkleLayer layer)

/-- Deterministic merkle root built from leaf hashes. -/
def merkleRoot (leaves : List Hash32) : Hash32 :=
  if leaves = [] then hashBytes [] else (merkleLoop leaves.length leaves).headD 0

lemma length_merkleLayer (l : List Hash32) : (merkleLayer l).length = (l.length + 1) / 2 := by
  induction l using merkleLayer.induct with
  | case1 => rfl
  | case2 a => simp [merkleLayer]
  | case3 a b l ih =>
    rw [merkleLayer, List.length_cons, ih]
    simp only [List.length_cons]
    omega

/-- The loop ends with a single hash: as many rounds as there are leaves are enough. -/
lemma length_merkleLoop {fuel : ℕ} {l : List Hash32} (hl : l ≠ []) (hf : l.length ≤ fuel + 1) :
    (merkleLoop fuel l).length = 1 := by
  induction fuel generalizing l with
  | zero =>
    have := List.length_pos_iff.mpr hl
    simp only [merkleLoop]
    omega
  | succ fuel ih =>
    have hpos := List.length_pos_iff.mpr hl
    rw [merkleLoop]
    split
    · omega
    · rename_i hlen
      refine ih ?_ ?_
      · rw [← List.length_pos_iff, length_merkleLayer]
        omega
      · rw [length_merkleLayer]
        omega

/-! ## Hashes of the domain types -/

/-- Transaction identifier. -/
def Transaction.id (t : Transaction) : Hash32 := hashBytes t.encode

/-- Block hash: it covers the whole signed block, not only the header. -/
def Block.hash (b : Block) : Hash32 := hashBytes b.encode

/-- Calculates the transaction merkle root. -/
def transactionRoot (transactions : List Transaction) : Hash32 :=
  merkleRoot (transactions.map Transaction.id)

/-- Calculates the receipt merkle root. -/
def receiptRoot (receipts : List Receipt) : Hash32 :=
  merkleRoot (receipts.map fun r => hashBytes r.encode)

end ZenoChain
