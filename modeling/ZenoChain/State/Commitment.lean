/-
# Proofs against the state root

The sparse Merkle commitment to the accounts, with its inclusion and non-inclusion proofs.
The path of an address is a digest of 256 bits, of which the tree reads the first 64; where
several addresses share these, the first one stands at the leaf and hides the others.  So the
root binds what can be seen, and a proof verifies exactly for an address that is not hidden.
-/
import ZenoChain.Base.SparseTree
import ZenoChain.Execution.Transparent

namespace ZenoChain

/-- The message whose digest stands for an account at its address. -/
def leafMessage (address : Address) (account : Account) : Bytes :=
  Codec.str "zeno.smt.leaf.v1" ++ Codec.array32 address ++ account.encode

/-- The message whose digest stands for an inner node. -/
def nodeMessage (left right : Hash32) : Bytes :=
  textBytes "zeno.smt.node.v1" ++ Codec.array32 left ++ Codec.array32 right

/-- The message whose digest stands for an empty leaf. -/
def emptyMessage : Bytes := textBytes "zeno.smt.empty.leaf.v1"

lemma nodeMessage_inj {left right left' right' : Hash32}
    (h : nodeMessage left right = nodeMessage left' right') : (left, right) = (left', right') := by
  rw [nodeMessage, nodeMessage, List.append_assoc, List.append_assoc] at h
  obtain ⟨hleft, hright⟩ := List.append_inj (List.append_cancel_left h)
    (by rw [Codec.length_array32, Codec.length_array32])
  rw [Codec.array32_inj hleft, Codec.array32_inj hright]

lemma leafMessage_ne_emptyMessage (a : Address) (account : Account) :
    leafMessage a account ≠ emptyMessage := by
  intro h
  have hlength := congrArg List.length h
  have hempty : emptyMessage.length = 22 := by decide +kernel
  rw [hempty, leafMessage, List.length_append, List.length_append, Codec.length_array32] at hlength
  omega

/-- Where the fields have their widths, a leaf tells its address and its account. -/
lemma leafMessage_inj {a a' : Address} {account account' : Account}
    (h : leafMessage a account = leafMessage a' account') (hnonce : account.nonce < 2 ^ 64)
    (hnonce' : account'.nonce < 2 ^ 64) (hbalance : account.balance < 2 ^ 128)
    (hbalance' : account'.balance < 2 ^ 128) : (a, account) = (a', account') := by
  rw [leafMessage, leafMessage, List.append_assoc, List.append_assoc] at h
  obtain ⟨haddress, haccount⟩ := List.append_inj (List.append_cancel_left h)
    (by rw [Codec.length_array32, Codec.length_array32])
  rw [Account.encode, Account.encode] at haccount
  obtain ⟨hn, hb⟩ := List.append_inj haccount
    (by rw [Codec.u64, Codec.u64, Codec.length_leBytes, Codec.length_leBytes])
  have hnonces := Codec.leBytes_inj hn hnonce hnonce'
  have hbalances := Codec.leBytes_inj hb hbalance hbalance'
  rw [Codec.array32_inj haddress]
  cases account
  cases account'
  dsimp only at hnonces hbalances
  rw [hnonces, hbalances]

/-! ## The tree -/

section Tree

variable [Hashing]

/-- The bit of a path at the upper one of `n + 1` levels. -/
def levelBit (key : Hash32) (n : ℕ) : Bool := bitAt key (sparseDepth - (n + 1))

lemma emptyHash_eq (n : ℕ) : emptyHash n = SparseTree.emptyRoot nodeHash (emptyHash 0) n := by
  induction n with
  | zero => rfl
  | succ n ih =>
    show nodeHash (emptyHash n) (emptyHash n) = _
    rw [SparseTree.emptyRoot, ← ih]

/-- The recursion of the source computes the root of a sparse tree. -/
lemma subtreeRoot_eq (n : ℕ) (l : List (Hash32 × Hash32)) :
    subtreeRoot n l = SparseTree.root levelBit nodeHash (emptyHash 0) n l := by
  induction n generalizing l with
  | zero =>
    cases l with
    | nil => rfl
    | cons => rfl
  | succ n ih =>
    cases l with
    | nil => exact emptyHash_eq _
    | cons x l =>
      rw [subtreeRoot, SparseTree.root, ih, ih, SparseTree.half_false, SparseTree.half_true]
      rfl

/-! ## Proofs -/

/-- Siblings along the path of a key, top down. -/
def collectProof : ℕ → List (Hash32 × Hash32) → Hash32 → List Hash32
  | 0, _, _ => []
  | n + 1, entries, targetKey =>
    let left := entries.filter fun e => ¬ bitAt e.1 (sparseDepth - (n + 1))
    let right := entries.filter fun e => bitAt e.1 (sparseDepth - (n + 1))
    if bitAt targetKey (sparseDepth - (n + 1)) then
      subtreeRoot n left :: collectProof n right targetKey
    else subtreeRoot n right :: collectProof n left targetKey

/-- Inclusion or non-inclusion proof of one account. -/
structure AccountProof where
  address : Address
  account : Option Account
  siblings : List Hash32

/-- The entries of the tree: the path and the leaf of each account, in the order of addresses. -/
def StateSnapshot.entries (s : StateSnapshot) : List (Hash32 × Hash32) :=
  s.toList.map fun e => (pathKey e.1, leafHash e.1 e.2)

/-- Returns a proof-capable sparse Merkle proof for an account key. -/
def StateSnapshot.accountProof (s : StateSnapshot) (address : Address) : AccountProof :=
  { address, account := s[address]?
    siblings := collectProof sparseDepth s.entries (pathKey address) }

namespace AccountProof

/-- The digest at the leaf that a proof claims. -/
def leaf (p : AccountProof) : Hash32 :=
  match p.account with
  | some account => leafHash p.address account
  | none => emptyHash 0

/-- One step of the way up from a leaf. -/
def climbStep (path current : Hash32) (sibling : Hash32 × ℕ) : Hash32 :=
  if bitAt path (sparseDepth - 1 - sibling.2) then nodeHash sibling.1 current
  else nodeHash current sibling.1

/-- Verifies a proof against a sparse Merkle root. -/
def verify (p : AccountProof) (expectedRoot : Hash32) : Bool :=
  if p.siblings.length ≠ sparseDepth then false
  else
    decide (p.siblings.reverse.zipIdx.foldl (climbStep (pathKey p.address)) p.leaf = expectedRoot)

end AccountProof

/-- The source splits by the bit, the siblings are those of the sparse tree. -/
lemma collectProof_eq (n : ℕ) (l : List (Hash32 × Hash32)) (k : Hash32) :
    collectProof n l k = SparseTree.siblings levelBit nodeHash (emptyHash 0) n l k := by
  induction n generalizing l with
  | zero => rfl
  | succ n ih =>
    rw [collectProof, SparseTree.siblings]
    cases hbit : levelBit k n
    · rw [Bool.not_false, SparseTree.half_true, SparseTree.half_false, ← ih, ← subtreeRoot_eq]
      exact if_neg (Bool.not_eq_true _ ▸ hbit)
    · rw [Bool.not_true, SparseTree.half_true, SparseTree.half_false, ← ih, ← subtreeRoot_eq]
      exact if_pos hbit

/-- The loop of the verification climbs from the leaf. -/
lemma foldl_climbStep (path : Hash32) (siblings : List Hash32) (leaf : Hash32) :
    siblings.reverse.zipIdx.foldl (AccountProof.climbStep path) leaf =
      SparseTree.climb levelBit nodeHash path siblings leaf := by
  induction siblings with
  | nil => rfl
  | cons sibling rest ih =>
    rw [List.reverse_cons, List.zipIdx_append, List.foldl_append, ih, SparseTree.climb,
      List.length_reverse]
    have hdepth : sparseDepth - 1 - rest.length = sparseDepth - (rest.length + 1) := by omega
    simp only [List.zipIdx_cons, List.zipIdx_nil, List.foldl_cons, List.foldl_nil,
      AccountProof.climbStep, levelBit, Nat.zero_add, hdepth]
    rfl

namespace StateSnapshot

variable (s : StateSnapshot) (a : Address)

lemma stateRoot_eq : s.stateRoot =
    SparseTree.root levelBit nodeHash (emptyHash 0) sparseDepth s.entries := subtreeRoot_eq _ _

/-- Two addresses have paths that the tree does not tell apart. -/
def SamePath (a b : Address) : Prop := SparseTree.Meet levelBit sparseDepth (pathKey a) (pathKey b)

instance : DecidableRel SamePath := fun a b =>
  inferInstanceAs (Decidable (SparseTree.Meet levelBit sparseDepth (pathKey a) (pathKey b)))

/-- The first account on the path of an address, with its own address. -/
def firstOn (a : Address) : Option (Address × Account) := s.toList.find? fun e => SamePath a e.1

/-- An address is visible if no other account stands at its leaf. -/
def Visible (a : Address) : Prop := ∀ e ∈ s.firstOn a, e.1 = a

instance : Decidable (s.Visible a) := inferInstanceAs (Decidable (∀ e ∈ s.firstOn a, e.1 = a))

/-- The digest that stands for an account, or for none. -/
def leafOf (e : Option (Address × Account)) : Hash32 :=
  (e.map fun e => leafHash e.1 e.2).getD (emptyHash 0)

lemma first_entries : SparseTree.first levelBit sparseDepth s.entries (pathKey a) =
    (s.firstOn a).map fun e => (pathKey e.1, leafHash e.1 e.2) := by
  rw [SparseTree.first, entries, List.find?_map]
  rfl

lemma leafAt_entries : SparseTree.leafAt levelBit (emptyHash 0) sparseDepth s.entries (pathKey a) =
    leafOf (s.firstOn a) := by
  rw [SparseTree.leafAt, first_entries, Option.map_map]
  rfl

/-- At a visible address stands its own account. -/
lemma firstOn_of_visible (h : s.Visible a) : s.firstOn a = s[a]?.map fun account => (a, account) := by
  rcases hfirst : s.firstOn a with _ | ⟨b, account⟩
  · rcases ha : s[a]? with _ | account
    · rfl
    · have hmem : (a, account) ∈ s.toList := Table.mem_toList_iff.mpr ha
      have hnone := List.find?_eq_none.mp hfirst _ hmem
      simp [SamePath, SparseTree.Meet] at hnone
  · have hb : b = a := h _ hfirst
    subst hb
    have hmem := List.mem_of_find?_eq_some hfirst
    rw [Table.mem_toList_iff.mp hmem]
    rfl

end StateSnapshot

/-! ## What is hashed -/

/-- The messages that are hashed for the root of some accounts. -/
def StateSnapshot.hashed (s : StateSnapshot) : Set Bytes :=
  insert emptyMessage (((fun e : Address × Account => leafMessage e.1 e.2) '' {e | e ∈ s.toList}) ∪
    Function.uncurry nodeMessage ''
      SparseTree.nodes levelBit nodeHash (emptyHash 0) sparseDepth s.entries)

namespace AccountProof

/-- The account that a proof claims to stand at its address. -/
def claim (p : AccountProof) : Option (Address × Account) :=
  p.account.map fun account => (p.address, account)

/-- The messages that are hashed when a proof is verified. -/
def hashed (p : AccountProof) : Set Bytes :=
  insert emptyMessage (((fun e : Address × Account => leafMessage e.1 e.2) '' {e | e ∈ p.claim}) ∪
    Function.uncurry nodeMessage ''
      {q | q ∈ SparseTree.climbed levelBit nodeHash (pathKey p.address) p.siblings p.leaf})

lemma leaf_eq (p : AccountProof) : p.leaf = StateSnapshot.leafOf p.claim := by
  rw [leaf, claim]
  cases p.account <;> rfl

end AccountProof

/-- The leaf encoding tells some accounts, with their addresses, apart. -/
def EncodesApart (entries : Set (Address × Account)) : Prop :=
  entries.InjOn fun e => leafMessage e.1 e.2

lemma injOn_nodeHash {messages : Set Bytes} {pairs : Set (Hash32 × Hash32)}
    (h : messages.InjOn hashBytes) (hsub : Function.uncurry nodeMessage '' pairs ⊆ messages) :
    pairs.InjOn (Function.uncurry nodeHash) := by
  rintro ⟨left, right⟩ hpair ⟨left', right'⟩ hpair' heq
  have hmessage := h (hsub (Set.mem_image_of_mem _ hpair)) (hsub (Set.mem_image_of_mem _ hpair')) heq
  exact nodeMessage_inj hmessage

/-- Leaves without collisions tell which account stands there, if any. -/
lemma leafOf_inj {messages : Set Bytes} {entries : Set (Address × Account)}
    (h : messages.InjOn hashBytes) (hempty : emptyMessage ∈ messages)
    (hsub : (fun e : Address × Account => leafMessage e.1 e.2) '' entries ⊆ messages)
    (hapart : EncodesApart entries) {e e' : Option (Address × Account)} (he : ∀ x ∈ e, x ∈ entries)
    (he' : ∀ x ∈ e', x ∈ entries) (heq : StateSnapshot.leafOf e = StateSnapshot.leafOf e') :
    e = e' := by
  have hleaf : ∀ x : Address × Account, x ∈ entries → leafMessage x.1 x.2 ∈ messages :=
    fun x hx => hsub (Set.mem_image_of_mem _ hx)
  rcases e with _ | x <;> rcases e' with _ | x'
  · rfl
  · exact absurd (h hempty (hleaf x' (he' x' rfl)) heq).symm (leafMessage_ne_emptyMessage _ _)
  · exact absurd (h (hleaf x (he x rfl)) hempty heq) (leafMessage_ne_emptyMessage _ _)
  · have hmessage := h (hleaf x (he x rfl)) (hleaf x' (he' x' rfl)) heq
    rw [hapart (he x rfl) (he' x' rfl) hmessage]

/-! ## What a verified proof claims -/

namespace AccountProof

lemma verify_iff (p : AccountProof) (expectedRoot : Hash32) : p.verify expectedRoot = true ↔
    p.siblings.length = sparseDepth ∧
      SparseTree.climb levelBit nodeHash (pathKey p.address) p.siblings p.leaf = expectedRoot := by
  rw [verify]
  split
  · rename_i hlength
    simp [hlength]
  · rename_i hlength
    rw [decide_eq_true_eq, foldl_climbStep, and_iff_right (not_not.mp hlength)]

end AccountProof

namespace StateSnapshot

variable {s s₁ s₂ : StateSnapshot} {a : Address}

lemma mem_toList_of_firstOn {e : Address × Account} (h : s.firstOn a = some e) : e ∈ s.toList :=
  List.mem_of_find?_eq_some h

/-- The siblings that a proof carries. -/
lemma siblings_accountProof (s : StateSnapshot) (a : Address) : (s.accountProof a).siblings =
    SparseTree.siblings levelBit nodeHash (emptyHash 0) sparseDepth s.entries (pathKey a) :=
  collectProof_eq _ _ _

lemma length_siblings_accountProof (s : StateSnapshot) (a : Address) :
    (s.accountProof a).siblings.length = sparseDepth := by
  rw [siblings_accountProof, SparseTree.length_siblings]

/-- From the leaf of the first account on the path, the siblings lead to the root. -/
lemma climb_accountProof (s : StateSnapshot) (a : Address) :
    SparseTree.climb levelBit nodeHash (pathKey a) (s.accountProof a).siblings
      (leafOf (s.firstOn a)) = s.stateRoot := by
  rw [siblings_accountProof, ← leafAt_entries, stateRoot_eq]
  exact SparseTree.climb_siblings _ _ _

/-- This way up hashes nodes of the tree only. -/
lemma mem_nodes_of_climbed {q : Hash32 × Hash32}
    (h : q ∈ SparseTree.climbed levelBit nodeHash (pathKey a) (s.accountProof a).siblings
      (leafOf (s.firstOn a))) :
    q ∈ SparseTree.nodes levelBit nodeHash (emptyHash 0) sparseDepth s.entries := by
  rw [siblings_accountProof, ← leafAt_entries] at h
  exact SparseTree.mem_nodes_of_climbed h

lemma mem_hashed_of_nodes {q : Hash32 × Hash32}
    (h : q ∈ SparseTree.nodes levelBit nodeHash (emptyHash 0) sparseDepth s.entries) :
    nodeMessage q.1 q.2 ∈ s.hashed :=
  .inr (.inr (Set.mem_image_of_mem (Function.uncurry nodeMessage) h))

/-- Nothing but the first account on the path of an address can be proved for it. -/
lemma claim_eq_firstOn {p : AccountProof} (hinj : (s.hashed ∪ p.hashed).InjOn hashBytes)
    (hapart : EncodesApart ({e | e ∈ s.toList} ∪ {e | e ∈ p.claim}))
    (hverify : p.verify s.stateRoot = true) : p.claim = s.firstOn p.address := by
  obtain ⟨hlength, hclimb⟩ := (p.verify_iff _).mp hverify
  rw [← climb_accountProof s p.address] at hclimb
  -- Both ways up, from the claimed leaf and from the one in the tree, end at the root.
  have hnodes : Set.InjOn (Function.uncurry nodeHash)
      {q | q ∈ SparseTree.climbed levelBit nodeHash (pathKey p.address) p.siblings p.leaf ++
        SparseTree.climbed levelBit nodeHash (pathKey p.address)
          (s.accountProof p.address).siblings (leafOf (s.firstOn p.address))} := by
    refine injOn_nodeHash hinj ?_
    rintro _ ⟨q, hq, rfl⟩
    rcases List.mem_append.mp hq with hq | hq
    · exact .inr (.inr (.inr (Set.mem_image_of_mem _ hq)))
    · exact .inl (mem_hashed_of_nodes (mem_nodes_of_climbed hq))
  have hleaf := (SparseTree.climb_inj (hlength.trans (length_siblings_accountProof s _).symm) hnodes
    hclimb).1
  rw [AccountProof.leaf_eq] at hleaf
  refine leafOf_inj hinj (.inl (Set.mem_insert _ _)) ?_ hapart (fun x hx => .inr hx)
    (fun x hx => .inl (mem_toList_of_firstOn hx)) hleaf
  rw [Set.image_union]
  exact Set.union_subset_union (Set.subset_union_left.trans (Set.subset_insert _ _))
    (Set.subset_union_left.trans (Set.subset_insert _ _))

/-- **Proof completeness.**  The proof for an address carries the account that is stored there,
or none.  It verifies against the root if no account of another address stands at the leaf of
the address; and only then, unless two of the hashed messages collide. -/
theorem accountProof_complete_iff (s : StateSnapshot) (a : Address) :
    (s.accountProof a).address = a ∧ (s.accountProof a).account = s[a]? ∧
    (s.Visible a → (s.accountProof a).verify s.stateRoot = true) ∧
    ((s.hashed ∪ (s.accountProof a).hashed).InjOn hashBytes →
      EncodesApart ({e | e ∈ s.toList} ∪ {e | e ∈ (s.accountProof a).claim}) →
      (s.accountProof a).verify s.stateRoot = true → s.Visible a) := by
  refine ⟨rfl, rfl, fun hvisible => ?_, fun hinj hapart hverify e he => ?_⟩
  · have hclimb := climb_accountProof s a
    rw [firstOn_of_visible s a hvisible] at hclimb
    refine ((s.accountProof a).verify_iff _).mpr ⟨length_siblings_accountProof s a, ?_⟩
    rw [AccountProof.leaf_eq]
    exact hclimb
  · have hclaim := claim_eq_firstOn hinj hapart hverify
    rw [Option.mem_def, ← show _ = s.firstOn a from hclaim, AccountProof.claim,
      Option.map_eq_some_iff] at he
    obtain ⟨account, -, rfl⟩ := he
    rfl

end StateSnapshot

end Tree

/-! ## Two addresses with one leaf -/

namespace Twins

/-- Digests for which two addresses with one leaf are known: the number of a byte string modulo
`2 ^ 256`, and for the paths the same with its low 64 bits in the leading place. -/
scoped instance hashing : Hashing :=
  { hashBytes := fun b => BitVec.ofNat 256 (Transparent.number b)
    sha3Hash := fun b =>
      let n := Transparent.number b % 2 ^ 256
      BitVec.ofNat 256 (n % 2 ^ 64 * 2 ^ 192 + n / 2 ^ 64) }

/-- An address whose path begins like that of the address zero. -/
def twinAddress : Address := 0xf91bc945c91bf901

/-- An account at the address zero. -/
def solo : StateSnapshot := (∅ : StateSnapshot).insert 0 { balance := 5 }

/-- The same account, and one at the twin of its address. -/
def twins : StateSnapshot := solo.insert twinAddress { balance := 7 }

/-- No proof shows that there is no account at the twin address. -/
theorem twin_unproved : (solo.accountProof twinAddress).account = none ∧
    (solo.accountProof twinAddress).verify solo.stateRoot = false := by
  decide +kernel

end Twins

/-! ## Binding -/

section Binding

variable [Hashing]

namespace StateSnapshot

variable {s s₁ s₂ : StateSnapshot} {a : Address}

/-- Two states differ in nothing that the tree shows: one of them holds an account behind
another one with the same leaf. -/
def Hides (s₁ s₂ : StateSnapshot) : Prop := s₁ ≠ s₂ ∧ ∀ a, s₁.firstOn a = s₂.firstOn a

/-- States that show the same have the same root. -/
lemma stateRoot_congr (h : ∀ a, s₁.firstOn a = s₂.firstOn a) : s₁.stateRoot = s₂.stateRoot := by
  rw [stateRoot_eq, stateRoot_eq]
  refine SparseTree.root_congr fun x hx => ?_
  have hkey : ∃ a, x.1 = pathKey a := by
    rcases List.mem_append.mp hx with hx | hx
    · obtain ⟨e, -, rfl⟩ := List.mem_map.mp hx
      exact ⟨e.1, rfl⟩
    · obtain ⟨e, -, rfl⟩ := List.mem_map.mp hx
      exact ⟨e.1, rfl⟩
  obtain ⟨a, ha⟩ := hkey
  rw [ha, first_entries, first_entries, h]

/-- **Binding.**  Where no two of the hashed messages collide and the leaf encoding tells the
accounts apart, states with the same root are equal exactly if they do not hide an account from
each other; and a proof that verifies carries the account that is stored at its address, or
none. -/
theorem stateRoot_binds_iff (hinj : (s₁.hashed ∪ s₂.hashed).InjOn hashBytes)
    (hapart : EncodesApart ({e | e ∈ s₁.toList} ∪ {e | e ∈ s₂.toList})) :
    ((s₁.stateRoot = s₂.stateRoot → s₁ = s₂) ↔ ¬ Hides s₁ s₂) ∧
    ∀ p : AccountProof, (s₁.hashed ∪ p.hashed).InjOn hashBytes →
      EncodesApart ({e | e ∈ s₁.toList} ∪ {e | e ∈ p.claim}) →
      p.verify s₁.stateRoot = true → p.account = s₁[p.address]? := by
  refine ⟨⟨?_, fun hnot hroot => ?_⟩, fun p hinjp hapartp hverify => ?_⟩
  · rintro heq ⟨hne, hfirst⟩
    exact hne (heq (stateRoot_congr hfirst))
  · by_contra hne
    refine hnot ⟨hne, fun a => ?_⟩
    rw [stateRoot_eq, stateRoot_eq] at hroot
    have hnodes : Set.InjOn (Function.uncurry nodeHash)
        (SparseTree.nodes levelBit nodeHash (emptyHash 0) sparseDepth s₁.entries ∪
          SparseTree.nodes levelBit nodeHash (emptyHash 0) sparseDepth s₂.entries) := by
      refine injOn_nodeHash hinj ?_
      rintro _ ⟨q, hq | hq, rfl⟩
      · exact .inl (mem_hashed_of_nodes hq)
      · exact .inr (mem_hashed_of_nodes hq)
    have hleaf := SparseTree.leafAt_of_root_eq hnodes hroot (pathKey a)
    rw [leafAt_entries, leafAt_entries] at hleaf
    refine leafOf_inj hinj (.inl (Set.mem_insert _ _)) ?_ hapart
      (fun x hx => .inl (mem_toList_of_firstOn hx)) (fun x hx => .inr (mem_toList_of_firstOn hx))
      hleaf
    rw [Set.image_union]
    exact Set.union_subset_union (Set.subset_union_left.trans (Set.subset_insert _ _))
      (Set.subset_union_left.trans (Set.subset_insert _ _))
  · have hclaim := claim_eq_firstOn hinjp hapartp hverify
    -- The account at the leaf is the one that the proof claims, so it stands at its address.
    have hvisible : s₁.Visible p.address := by
      intro e he
      rw [Option.mem_def, ← hclaim, AccountProof.claim, Option.map_eq_some_iff] at he
      obtain ⟨account, -, rfl⟩ := he
      rfl
    rw [firstOn_of_visible s₁ p.address hvisible, AccountProof.claim] at hclaim
    exact Option.map_injective (fun _ _ h => (Prod.mk.inj h).2) hclaim

/-! ## Accounts on one path -/

/-- The messages for the root of accounts that have the leaf of an address in common. -/
def pathMessages (a : Address) (accounts : List (Address × Account)) : List Bytes :=
  emptyMessage :: (accounts.map (fun e => leafMessage e.1 e.2) ++
    (SparseTree.blanks nodeHash (emptyHash 0) sparseDepth ++
      SparseTree.climbed levelBit nodeHash (pathKey a)
        (SparseTree.blankSiblings nodeHash (emptyHash 0) sparseDepth)
        (leafOf accounts.head?)).map (Function.uncurry nodeMessage))

lemma firstOn_of_samePath (h : ∀ e ∈ s.toList, SamePath a e.1) : s.firstOn a = s.toList.head? := by
  rw [firstOn]
  rcases hlist : s.toList with _ | ⟨e, l⟩
  · rfl
  · exact List.find?_cons_of_pos (by simpa using h e (by rw [hlist]; exact List.mem_cons_self))

lemma mem_pathMessages (h : ∀ e ∈ s.toList, SamePath a e.1) {m : Bytes} (hm : m ∈ s.hashed) :
    m ∈ pathMessages a s.toList := by
  rw [pathMessages]
  rcases hm with rfl | ⟨e, he, rfl⟩ | ⟨q, hq, rfl⟩
  · exact List.mem_cons_self
  · exact .tail _ (List.mem_append_left _ (List.mem_map.mpr ⟨e, he, rfl⟩))
  · have hmeet : ∀ x ∈ s.entries, SparseTree.Meet levelBit sparseDepth (pathKey a) x.1 := by
      intro x hx
      obtain ⟨e, he, rfl⟩ := List.mem_map.mp hx
      exact h e he
    have hpairs := SparseTree.mem_climbed_of_nodes hmeet hq
    rw [SparseTree.siblings_of_meet hmeet, leafAt_entries, firstOn_of_samePath h] at hpairs
    exact .tail _ (List.mem_append_right _ (List.mem_map.mpr ⟨q, hpairs, rfl⟩))

/-- The messages for the root of no accounts are among them. -/
lemma mem_pathMessages_of_empty {accounts : List (Address × Account)} {m : Bytes}
    (hm : m ∈ StateSnapshot.hashed ∅) : m ∈ pathMessages a accounts := by
  rw [pathMessages]
  rcases hm with rfl | ⟨e, he, rfl⟩ | ⟨q, hq, rfl⟩
  · exact List.mem_cons_self
  · have hnone : (∅ : StateSnapshot)[e.1]? = some e.2 := Table.mem_toList_iff.mp he
    rw [Std.ExtTreeMap.getElem?_empty] at hnone
    cases hnone
  · have hblank : q ∈ SparseTree.blanks nodeHash (emptyHash 0) sparseDepth :=
      SparseTree.mem_blanks_of_nodes_nil hq
    exact .tail _ (List.mem_append_right _ (List.mem_map.mpr ⟨q, List.mem_append_left _ hblank, rfl⟩))

/-- Where all accounts stand on the path of an address that has none, its proof takes no other
messages than the root of no accounts. -/
lemma mem_hashed_empty_of_absent (h : ∀ e ∈ s.toList, SamePath a e.1) (hnone : s[a]? = none)
    {m : Bytes} (hm : m ∈ (s.accountProof a).hashed) : m ∈ StateSnapshot.hashed ∅ := by
  have hclaim : (s.accountProof a).claim = none := by
    rw [AccountProof.claim, show (s.accountProof a).account = none from hnone]
    rfl
  rcases hm with rfl | ⟨e, he, rfl⟩ | ⟨q, hq, rfl⟩
  · exact Set.mem_insert _ _
  · rw [hclaim] at he
    cases he
  · have hmeet : ∀ x ∈ s.entries, SparseTree.Meet levelBit sparseDepth (pathKey a) x.1 := by
      intro x hx
      obtain ⟨e, he, rfl⟩ := List.mem_map.mp hx
      exact h e he
    -- The siblings and the leaf are those of the tree without entries.
    have hblank :
        SparseTree.siblings levelBit nodeHash (emptyHash 0) sparseDepth s.entries (pathKey a) =
          SparseTree.siblings levelBit nodeHash (emptyHash 0) sparseDepth [] (pathKey a) := by
      rw [SparseTree.siblings_of_meet hmeet, SparseTree.siblings_of_meet (List.forall_mem_nil _)]
    replace hq : q ∈ SparseTree.climbed levelBit nodeHash (pathKey a) (s.accountProof a).siblings
      (s.accountProof a).leaf := hq
    rw [siblings_accountProof, hblank, AccountProof.leaf_eq, hclaim] at hq
    exact mem_hashed_of_nodes (SparseTree.mem_nodes_of_climbed hq)

/-- Later accounts on the path add their leaves only. -/
lemma pathMessages_subset {accounts accounts' : List (Address × Account)}
    (h : accounts <+: accounts') (hne : accounts ≠ []) :
    pathMessages a accounts ⊆ pathMessages a accounts' := by
  obtain ⟨more, rfl⟩ := h
  intro m hm
  rw [pathMessages, List.head?_append_of_ne_nil _ hne, List.map_append, List.append_assoc]
  rcases List.mem_cons.mp hm with rfl | hm
  · exact List.mem_cons_self
  · rcases List.mem_append.mp hm with hleaf | hnode
    · exact .tail _ (List.mem_append_left _ hleaf)
    · exact .tail _ (List.mem_append_right _ (List.mem_append_right _ hnode))

end StateSnapshot

end Binding

namespace Twins

open StateSnapshot

/-- The messages for the twins have different digests. -/
lemma injOn_twins : Set.InjOn hashBytes {m | m ∈ pathMessages 0 twins.toList} := by
  have hnodup : ((pathMessages 0 twins.toList).map hashBytes).Nodup := by decide +kernel
  exact fun m hm m' hm' heq => List.inj_on_of_nodup_map hnodup hm hm' heq

lemma mem_twins {m : Bytes} (hm : m ∈ twins.hashed) : m ∈ pathMessages 0 twins.toList :=
  mem_pathMessages (by decide +kernel) hm

lemma mem_twins_of_solo {m : Bytes} (hm : m ∈ solo.hashed) : m ∈ pathMessages 0 twins.toList :=
  pathMessages_subset (by decide +kernel) (by decide +kernel)
    (mem_pathMessages (a := 0) (by decide +kernel) hm)

lemma encodesApart_twins : EncodesApart {e | e ∈ twins.toList} := by
  have hfits : ∀ e ∈ twins.toList, e.2.nonce < 2 ^ 64 ∧ e.2.balance < 2 ^ 128 := by decide +kernel
  intro e he e' he' heq
  exact leafMessage_inj heq (hfits e he).1 (hfits e' he').1 (hfits e he).2 (hfits e' he').2

/-- The account at the twin address does not show in the root. -/
theorem twins_hidden : (solo.hashed ∪ twins.hashed).InjOn hashBytes ∧
    pathKey 0 ≠ pathKey twinAddress ∧
    EncodesApart ({e | e ∈ solo.toList} ∪ {e | e ∈ twins.toList}) ∧
    solo.stateRoot = twins.stateRoot ∧ solo ≠ twins := by
  refine ⟨injOn_twins.mono ?_, by decide +kernel, ?_, by decide +kernel, ?_⟩
  · rintro m (hm | hm)
    · exact mem_twins_of_solo hm
    · exact mem_twins hm
  · have hsub : ∀ e ∈ solo.toList, e ∈ twins.toList := by decide +kernel
    exact encodesApart_twins.mono (Set.union_subset hsub subset_rfl)
  · intro h
    have hsize : solo.size ≠ twins.size := by decide +kernel
    exact hsize (h ▸ rfl)

/-- The root tells the twins from no accounts. -/
theorem twins_bound : (twins.stateRoot = StateSnapshot.stateRoot ∅ → twins = ∅) ∧
    ¬ Hides twins ∅ := by
  have hnot : ¬ Hides twins ∅ := by
    rintro ⟨-, hfirst⟩
    have hzero : (twins.firstOn 0).isSome = true := by decide +kernel
    rw [hfirst 0] at hzero
    cases hzero
  have hinj : (twins.hashed ∪ StateSnapshot.hashed ∅).InjOn hashBytes := by
    refine injOn_twins.mono ?_
    rintro m (hm | hm)
    · exact mem_twins hm
    · exact mem_pathMessages_of_empty hm
  have hapart : EncodesApart ({e | e ∈ twins.toList} ∪ {e | e ∈ (∅ : StateSnapshot).toList}) := by
    have hnone : ∀ e ∈ (∅ : StateSnapshot).toList, e ∈ twins.toList := by decide +kernel
    exact encodesApart_twins.mono (Set.union_subset subset_rfl hnone)
  exact ⟨(stateRoot_binds_iff hinj hapart).1.mpr hnot, hnot⟩

/-- With these messages, the proof for the twin address cannot verify. -/
theorem twin_never_verifies : ¬ (solo.accountProof twinAddress).verify solo.stateRoot = true := by
  have hpath : ∀ e ∈ solo.toList, SamePath twinAddress e.1 := by decide +kernel
  have hnone : solo[twinAddress]? = none := by decide +kernel
  have hinj : (solo.hashed ∪ (solo.accountProof twinAddress).hashed).InjOn hashBytes := by
    refine injOn_twins.mono ?_
    rintro m (hm | hm)
    · exact mem_twins_of_solo hm
    · exact mem_pathMessages_of_empty (mem_hashed_empty_of_absent hpath hnone hm)
  have hapart : EncodesApart
      ({e | e ∈ solo.toList} ∪ {e | e ∈ (solo.accountProof twinAddress).claim}) := by
    have hsub : ∀ e ∈ solo.toList, e ∈ twins.toList := by decide +kernel
    refine encodesApart_twins.mono (Set.union_subset hsub ?_)
    rintro e he
    obtain ⟨account, haccount, -⟩ := Option.map_eq_some_iff.mp he
    exact absurd (hnone.symm.trans haccount) nofun
  have hhidden : ¬ solo.Visible twinAddress := by decide +kernel
  exact fun hverify =>
    hhidden ((accountProof_complete_iff solo twinAddress).2.2.2 hinj hapart hverify)

end Twins

end ZenoChain
