/-
# What a Merkle root tells

The last hash of an odd layer is its own sibling, so a root does not tell how often the end of
a list is repeated, and it does not tell a leaf from an inner node.  What it tells, where no
messages collide, are the leaves that the tree stands on: with their number, or without
repetitions among them, the list itself.  The encodings below the leaves are never as long as a
pair of hashes, so that no leaf of a transaction, receipt or validator root is an inner node.
-/
import ZenoChain.Base.PairTree
import ZenoChain.Chain.Encodings
import ZenoChain.Execution.Transparent
import ZenoChain.State.Staking

namespace ZenoChain

open PairTree (completed)

/-- The message whose digest stands above two neighbours. -/
def merkleMessage (p : Hash32 × Hash32) : Bytes := Codec.array32 p.1 ++ Codec.array32 p.2

lemma length_merkleMessage (p : Hash32 × Hash32) : (merkleMessage p).length = 64 := by
  rw [merkleMessage, List.length_append, Codec.length_array32, Codec.length_array32]

lemma merkleMessage_inj {p q : Hash32 × Hash32} (h : merkleMessage p = merkleMessage q) : p = q := by
  obtain ⟨hleft, hright⟩ := List.append_inj h (by rw [Codec.length_array32, Codec.length_array32])
  exact Prod.ext (Codec.array32_inj hleft) (Codec.array32_inj hright)

section

variable [Hashing]

/-- The digest that stands above two neighbours. -/
def merkleNode (a b : Hash32) : Hash32 := hashBytes (merkleMessage (a, b))

/-- The messages that are hashed for the root above some leaves. -/
def merkleMessages (leaves : List Hash32) : List Bytes :=
  if leaves = [] then [[]]
  else (PairTree.combined merkleNode leaves.length leaves).map merkleMessage

/-- A root binds two lists: it is the same exactly if the trees stand on the same leaves, and then
the lists are the same if they have the same length or repeat nothing. -/
structure Binds {α : Type} (root : List α → Hash32) (l l' : List α) : Prop where
  leaves : root l = root l' ↔ completed l = completed l'
  same : root l = root l' → l.length = l'.length ∨ l.Nodup ∧ l'.Nodup → l = l'

/-! ## The loop is a climb -/

lemma merkleLayer_eq (l : List Hash32) : merkleLayer l = PairTree.row merkleNode l := by
  induction l using merkleLayer.induct with
  | case1 => rfl
  | case2 a => rfl
  | case3 a b l ih =>
    rw [merkleLayer, ih]
    rfl

lemma merkleLoop_eq (fuel : ℕ) (l : List Hash32) :
    merkleLoop fuel l = PairTree.climb merkleNode fuel l := by
  induction fuel generalizing l with
  | zero => rfl
  | succ fuel ih => rw [merkleLoop, PairTree.climb, merkleLayer_eq, ih]

/-- The loop ends with the root alone. -/
lemma climb_eq_root {l : List Hash32} (hl : l ≠ []) :
    PairTree.climb merkleNode l.length l = [merkleRoot l] := by
  have hlength : (merkleLoop l.length l).length = 1 := length_merkleLoop hl (Nat.le_succ _)
  obtain ⟨root, hroot⟩ := List.length_eq_one_iff.mp hlength
  rw [merkleRoot, if_neg hl, hroot, ← merkleLoop_eq, hroot]
  rfl

/-- Where no messages collide, no pairs do. -/
lemma injOn_merkleNode {pairs : Set (Hash32 × Hash32)} {messages : Set Bytes}
    (h : messages.InjOn hashBytes) (hsub : ∀ p ∈ pairs, merkleMessage p ∈ messages) :
    pairs.InjOn (Function.uncurry merkleNode) := fun p hp q hq heq =>
  merkleMessage_inj (h (hsub p hp) (hsub q hq) heq)

lemma mem_merkleMessages {l : List Hash32} {p : Hash32 × Hash32}
    (hp : p ∈ PairTree.combined merkleNode l.length l) : merkleMessage p ∈ merkleMessages l := by
  rw [merkleMessages, if_neg]
  · exact List.mem_map_of_mem hp
  · rintro rfl
    cases hp

/-- **Lists of the same length.**  The tree has the same shape over both. -/
lemma merkleRoot_inj {l l' : List Hash32} (hlength : l.length = l'.length)
    (hfree : Set.InjOn hashBytes {m | m ∈ merkleMessages l ++ merkleMessages l'})
    (h : merkleRoot l = merkleRoot l') : l = l' := by
  by_cases hl : l = []
  · rw [hl] at hlength ⊢
    exact (List.length_eq_zero_iff.mp hlength.symm).symm
  · have hl' : l' ≠ [] := by
      rintro rfl
      exact hl (List.length_eq_zero_iff.mp hlength)
    refine PairTree.climb_inj (n := l.length) hlength (injOn_merkleNode hfree fun p hp => ?_) ?_
    · rw [Set.mem_ofPred_eq, List.mem_append] at hp ⊢
      rw [hlength] at hp
      exact hp.imp (fun hp => mem_merkleMessages (hlength ▸ hp)) mem_merkleMessages
    · rw [climb_eq_root hl, hlength, climb_eq_root hl', h]

/-! ## Lists of encoded leaves -/

/-- The messages that are hashed for the root of some encoded leaves. -/
def rootMessages (encoded : List Bytes) : List Bytes :=
  encoded ++ merkleMessages (encoded.map hashBytes)

/-- The root of a list is a leaf or a node, and only that of the empty list is the digest of
nothing. -/
lemma merkleRoot_eq_leaf_or_node {l : List Hash32} (hl : l ≠ []) :
    merkleRoot l ∈ l ∨
      ∃ p ∈ PairTree.combined merkleNode l.length l, merkleRoot l = merkleNode p.1 p.2 := by
  have htop := PairTree.trees_eval merkleNode l
  rw [climb_eq_root hl] at htop
  obtain ⟨t, ht, heval⟩ := List.map_eq_singleton_iff.mp htop
  have hmem : t ∈ PairTree.trees l := by simp [ht]
  cases t with
  | leaf a => exact .inl (heval ▸ PairTree.fringe_trees hmem (by simp [PairTree.Tree.fringe, PairTree.Tree.eval]))
  | node s t =>
    refine .inr ⟨(s.eval merkleNode, t.eval merkleNode), ?_, heval.symm⟩
    exact PairTree.combined_trees hmem (by simp [PairTree.Tree.combined])

section

variable {α : Type} {encode : α → Bytes} {l l' : List α} {messages : Set Bytes}

lemma encode_mem_messages (hsub : ∀ m ∈ rootMessages (l.map encode), m ∈ messages) {a : α}
    (ha : a ∈ l) : encode a ∈ messages :=
  hsub _ (List.mem_append_left _ (List.mem_map_of_mem ha))

lemma node_mem_messages (hsub : ∀ m ∈ rootMessages (l.map encode), m ∈ messages)
    {p : Hash32 × Hash32}
    (hp : p ∈ PairTree.combined merkleNode (l.map fun a => hashBytes (encode a)).length
      (l.map fun a => hashBytes (encode a))) : merkleMessage p ∈ messages := by
  refine hsub _ (List.mem_append_right _ ?_)
  rw [List.map_map]
  exact mem_merkleMessages hp

/-- The digest of nothing is the root of the empty list only. -/
lemma merkleRoot_ne_of_encode (hl : l ≠ []) (hlength : ∀ a ∈ l, (encode a).length ≠ 0)
    (hfree : messages.InjOn hashBytes) (hnil : [] ∈ messages)
    (hsub : ∀ m ∈ rootMessages (l.map encode), m ∈ messages) :
    merkleRoot (l.map fun a => hashBytes (encode a)) ≠ hashBytes [] := by
  intro h
  rcases merkleRoot_eq_leaf_or_node (l := l.map fun a => hashBytes (encode a)) (by simpa using hl)
    with hroot | ⟨p, hp, hroot⟩
  · obtain ⟨a, ha, heq⟩ := List.mem_map.mp hroot
    have hnone := hfree (encode_mem_messages hsub ha) hnil (heq.trans h)
    exact hlength a ha (by rw [hnone, List.length_nil])
  · have hnone := hfree (node_mem_messages hsub hp) hnil (hroot.symm.trans h)
    have hlong := length_merkleMessage p
    rw [hnone, List.length_nil] at hlong
    omega

/-- Two lists that are not empty have the same root if the trees stand on the same leaves. -/
lemma merkleRoot_eq_iff_of_encode (hl : l ≠ []) (hl' : l' ≠ [])
    (hinj : Set.InjOn encode {a | a ∈ l ++ l'})
    (hlength : ∀ a ∈ l ++ l', (encode a).length ≠ 64) (hfree : messages.InjOn hashBytes)
    (hsub : ∀ m ∈ rootMessages (l.map encode), m ∈ messages)
    (hsub' : ∀ m ∈ rootMessages (l'.map encode), m ∈ messages) :
    merkleRoot (l.map fun a => hashBytes (encode a)) =
      merkleRoot (l'.map fun a => hashBytes (encode a)) ↔ completed l = completed l' := by
  have hencode : ∀ a ∈ l ++ l', encode a ∈ messages := fun a ha =>
    (List.mem_append.mp ha).elim (encode_mem_messages hsub) (encode_mem_messages hsub')
  have hnode : ∀ p ∈ PairTree.combined merkleNode _ (l.map fun a => hashBytes (encode a)) ++
      PairTree.combined merkleNode _ (l'.map fun a => hashBytes (encode a)),
      merkleMessage p ∈ messages := fun p hp =>
    (List.mem_append.mp hp).elim (node_mem_messages hsub) (node_mem_messages hsub')
  have hleaf : Set.InjOn (fun a => hashBytes (encode a)) {a | a ∈ l ++ l'} :=
    fun a ha b hb heq => hinj ha hb (hfree (hencode a ha) (hencode b hb) heq)
  have htop := PairTree.climb_eq_iff (injOn_merkleNode hfree hnode) fun x hx p hp heq => by
    rw [← List.map_append] at hx
    obtain ⟨a, ha, rfl⟩ := List.mem_map.mp hx
    -- A leaf that is a node is the digest of as many bytes.
    have hsame := hfree (hencode a ha) (hnode p hp) heq
    exact hlength a ha (by rw [hsame, length_merkleMessage])
  rwa [climb_eq_root (by simpa using hl), climb_eq_root (by simpa using hl'),
    List.singleton_inj, PairTree.completed_map_eq_iff hleaf] at htop

/-- **Roots of encoded leaves.**  No leaf is a node, nor the digest of nothing. -/
theorem binds_of_encode (hinj : Set.InjOn encode {a | a ∈ l ++ l'})
    (hlength : ∀ a ∈ l ++ l', (encode a).length ≠ 0 ∧ (encode a).length ≠ 64)
    (hfree : Set.InjOn hashBytes
      {m | m ∈ rootMessages (l.map encode) ++ rootMessages (l'.map encode)}) :
    Binds (fun l => merkleRoot (l.map fun a => hashBytes (encode a))) l l' := by
  set messages := {m | m ∈ rootMessages (l.map encode) ++ rootMessages (l'.map encode)}
  have hsub : ∀ m ∈ rootMessages (l.map encode), m ∈ messages := fun m hm =>
    List.mem_append_left _ hm
  have hsub' : ∀ m ∈ rootMessages (l'.map encode), m ∈ messages := fun m hm =>
    List.mem_append_right _ hm
  have hleaves : merkleRoot (l.map fun a => hashBytes (encode a)) =
      merkleRoot (l'.map fun a => hashBytes (encode a)) ↔ completed l = completed l' := by
    by_cases hl : l = []
    · by_cases hl' : l' = []
      · exact iff_of_true (by rw [hl, hl']) (by rw [hl, hl'])
      · have hnil : [] ∈ messages := hsub [] (by simp [hl, rootMessages, merkleMessages])
        refine iff_of_false (fun h => ?_) fun h => hl' ?_
        · rw [hl] at h
          exact merkleRoot_ne_of_encode hl'
            (fun a ha => (hlength a (List.mem_append_right _ ha)).1) hfree hnil hsub' h.symm
        · rwa [hl, eq_comm, PairTree.completed_eq_nil_iff.mpr rfl,
            PairTree.completed_eq_nil_iff] at h
    · by_cases hl' : l' = []
      · have hnil : [] ∈ messages := hsub' [] (by simp [hl', rootMessages, merkleMessages])
        refine iff_of_false (fun h => ?_) fun h => hl ?_
        · rw [hl'] at h
          exact merkleRoot_ne_of_encode hl
            (fun a ha => (hlength a (List.mem_append_left _ ha)).1) hfree hnil hsub h
        · rwa [hl', PairTree.completed_eq_nil_iff.mpr rfl, PairTree.completed_eq_nil_iff] at h
      · exact merkleRoot_eq_iff_of_encode hl hl' hinj (fun a ha => (hlength a ha).2) hfree hsub hsub'
  exact ⟨hleaves, fun h htell => PairTree.eq_of_completed (hleaves.mp h) htell⟩

end

/-! ## Transactions, receipts and validators -/

/-- No two messages that are hashed for the roots of two lists collide. -/
def Apart {α : Type} (encode : α → Bytes) (l l' : List α) : Prop :=
  Set.InjOn hashBytes {m | m ∈ rootMessages (l.map encode) ++ rootMessages (l'.map encode)}

lemma binds_transactionRoot {l l' : List Transaction} (hfits : ∀ t ∈ l ++ l', t.Fits)
    (hfree : Apart Transaction.encode l l') : Binds transactionRoot l l' :=
  binds_of_encode
    (fun t ht t' ht' h => Transaction.delimits_encode.inj (hfits t ht) (hfits t' ht') h)
    (fun t _ => by have := t.lt_length_encode; omega) hfree

lemma binds_receiptRoot {l l' : List Receipt} (hfits : ∀ r ∈ l ++ l', r.Fits)
    (hfree : Apart Receipt.encode l l') : Binds receiptRoot l l' :=
  binds_of_encode
    (fun r hr r' hr' h => Receipt.delimits_encode.inj (hfits r hr) (hfits r' hr') h)
    (fun r _ => r.length_encode_ne) hfree

/-- The message that is hashed for a validator. -/
def validatorMessage (address : Address) : Bytes :=
  Codec.str "zeno.validator_set.v1" ++ Codec.array32 address

omit [Hashing] in
lemma length_validatorMessage (address : Address) : (validatorMessage address).length = 61 := by
  have hstr : (Codec.str "zeno.validator_set.v1").length = 29 := by decide +kernel
  rw [validatorMessage, List.length_append, hstr, Codec.length_array32]

lemma binds_validatorSetRoot {l l' : List Address} (hfree : Apart validatorMessage l l') :
    Binds validatorSetRoot l l' := by
  have hlength : ∀ a ∈ l ++ l',
      (validatorMessage a).length ≠ 0 ∧ (validatorMessage a).length ≠ 64 := fun a _ => by
    rw [length_validatorMessage]
    decide
  exact binds_of_encode (fun _ _ _ _ h => Codec.array32_inj (List.append_cancel_left h)) hlength hfree

/-- **Merkle roots.**  Where no messages collide, a root tells its leaves if it tells their
number.  The roots of leaves that are digests of other messages than nodes are, as those of
transactions, receipts and validators, tell the leaves that the tree stands on. -/
theorem merkleRoot_binds :
    (∀ l l' : List Hash32, l.length = l'.length →
      Set.InjOn hashBytes {m | m ∈ merkleMessages l ++ merkleMessages l'} →
      merkleRoot l = merkleRoot l' → l = l') ∧
    (∀ l l' : List Bytes, (∀ m ∈ l ++ l', m.length ≠ 0 ∧ m.length ≠ 64) → Apart id l l' →
      Binds (fun l => merkleRoot (l.map hashBytes)) l l') ∧
    (∀ l l' : List Transaction, (∀ t ∈ l ++ l', t.Fits) → Apart Transaction.encode l l' →
      Binds transactionRoot l l') ∧
    (∀ l l' : List Receipt, (∀ r ∈ l ++ l', r.Fits) → Apart Receipt.encode l l' →
      Binds receiptRoot l l') ∧
    ∀ l l' : List Address, Apart validatorMessage l l' → Binds validatorSetRoot l l' :=
  ⟨fun _ _ => merkleRoot_inj, fun _ _ => binds_of_encode (Function.injective_id.injOn),
    fun _ _ => binds_transactionRoot, fun _ _ => binds_receiptRoot,
    fun _ _ => binds_validatorSetRoot⟩

end

/-! ## Repeated and forged leaves -/

section

open Transparent

lemma injOn_of_list {messages : List Bytes} (h : ∀ m ∈ messages, ∀ m' ∈ messages,
    hashBytes m = hashBytes m' → m = m') : Set.InjOn hashBytes {m | m ∈ messages} :=
  fun m hm m' hm' => h m hm m' hm'

/-- Three leaves have the root of four, the last of them twice, and a leaf that is a node has the
root of its children; the validator set root shows the repetition as well. -/
theorem merkleRoot_repeats :
    (Set.InjOn hashBytes {m | m ∈ merkleMessages [1, 2, 3] ++ merkleMessages [1, 2, 3, 3]} ∧
      merkleRoot [1, 2, 3] = merkleRoot [1, 2, 3, 3]) ∧
    (Set.InjOn hashBytes {m | m ∈ merkleMessages [merkleNode 1 2] ++ merkleMessages [1, 2]} ∧
      merkleRoot [merkleNode 1 2] = merkleRoot [1, 2]) ∧
    Apart validatorMessage [1, 2, 3] [1, 2, 3, 3] ∧
      validatorSetRoot [1, 2, 3] = validatorSetRoot [1, 2, 3, 3] := by
  exact ⟨⟨injOn_of_list (by decide +kernel), by decide +kernel⟩,
    ⟨injOn_of_list (by decide +kernel), by decide +kernel⟩,
    injOn_of_list (by decide +kernel), by decide +kernel⟩

/-- The order of two validators is told. -/
theorem validatorSetRoot_order : validatorSetRoot [1, 2] ≠ validatorSetRoot [2, 1] := by
  have hbinds := merkleRoot_binds.2.2.2.2 [1, 2] [2, 1] (injOn_of_list (by decide +kernel))
  exact fun h => absurd (hbinds.same h (.inl rfl)) (by decide)

end

end ZenoChain
