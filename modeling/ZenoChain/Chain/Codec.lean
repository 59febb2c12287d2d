/-
# Canonical binary encoding

The byte strings that are hashed, signed and measured are the bincode encodings of the
domain types in the canonical configuration: integers have their full width, least
significant byte first; a sequence or a string is preceded by its length as a 64-bit
integer; an optional value is preceded by one byte; a variant is preceded by its index as
a 32-bit integer; a record is the concatenation of its fields, and a byte array of fixed
size is written without a length.
-/
import ZenoChain.Base.Digits
import ZenoChain.Chain.Types

namespace ZenoChain

/-- What stands before a separator that is in neither part. -/
lemma append_separator_inj {α : Type} {a : α} {x y m n : List α} (hx : a ∉ x) (hy : a ∉ y)
    (h : x ++ a :: m = y ++ a :: n) : x = y ∧ m = n := by
  rcases List.append_eq_append_iff.mp h with ⟨t, rfl, ht⟩ | ⟨t, rfl, ht⟩
  · cases t with
    | nil => exact ⟨(List.append_nil _).symm, (List.cons.inj ht).2⟩
    | cons b t =>
      obtain ⟨rfl, -⟩ := List.cons.inj ht
      exact absurd (List.mem_append_right _ List.mem_cons_self) hy
  · cases t with
    | nil => exact ⟨List.append_nil _, (List.cons.inj ht).2.symm⟩
    | cons b t =>
      obtain ⟨rfl, -⟩ := List.cons.inj ht
      exact absurd (List.mem_append_right _ List.mem_cons_self) hx

namespace Codec

/-- The `k` bytes of a number, least significant first. -/
def leBytes : ℕ → ℕ → Bytes
  | 0, _ => []
  | k + 1, n => UInt8.ofNat n :: leBytes k (n / 256)

@[simp] lemma length_leBytes (k n : ℕ) : (leBytes k n).length = k := by
  induction k generalizing n with
  | zero => rfl
  | succ k ih => simp [leBytes, ih]

/-- The `k` bytes of a number, most significant first. -/
def beBytes (k n : ℕ) : Bytes := (leBytes k n).reverse

/-- A 32-bit integer, also the index of a variant. -/
def u32 (n : ℕ) : Bytes := leBytes 4 n

/-- A 64-bit integer, also the length of a sequence. -/
def u64 (n : ℕ) : Bytes := leBytes 8 n

/-- A 128-bit integer. -/
def u128 (n : ℕ) : Bytes := leBytes 16 n

/-- A 32-byte array. -/
def array32 (v : BitVec 256) : Bytes := beBytes 32 v.toNat

/-- A 20-byte array. -/
def array20 (v : BitVec 160) : Bytes := beBytes 20 v.toNat

/-- The number is read back off its bytes. -/
lemma ofLe_leBytes {k n : ℕ} (h : n < 256 ^ k) : Digits.ofLe (leBytes k n) = n := by
  induction k generalizing n with
  | zero => rw [leBytes, Digits.ofLe_nil]; omega
  | succ k ih =>
    have hrest : n / 256 < 256 ^ k := by rw [Nat.pow_succ] at h; omega
    have hlow : (UInt8.ofNat n).toNat = n % 256 := UInt8.toNat_ofNat'
    rw [leBytes, Digits.ofLe_cons, ih hrest, hlow]
    omega

lemma ofBe_beBytes {k n : ℕ} (h : n < 256 ^ k) : Digits.ofBe (beBytes k n) = n := by
  rw [Digits.ofBe, beBytes, List.reverse_reverse, ofLe_leBytes h]

/-- Any bytes are those of the number read off them. -/
lemma leBytes_ofLe {k : ℕ} {l : Bytes} (h : l.length = k) : leBytes k (Digits.ofLe l) = l := by
  refine Digits.ofLe_inj (by rw [length_leBytes, h]) (ofLe_leBytes ?_)
  rw [← h]
  exact Digits.ofLe_lt l

lemma beBytes_ofBe {k : ℕ} {l : Bytes} (h : l.length = k) : beBytes k (Digits.ofBe l) = l := by
  rw [beBytes, Digits.ofBe, leBytes_ofLe (by rw [List.length_reverse, h]), List.reverse_reverse]

lemma leBytes_inj {k n n' : ℕ} (h : leBytes k n = leBytes k n') (hn : n < 256 ^ k)
    (hn' : n' < 256 ^ k) : n = n' := by
  rw [← ofLe_leBytes hn, h, ofLe_leBytes hn']

lemma array32_inj {v v' : BitVec 256} (h : array32 v = array32 v') : v = v' := by
  rw [array32, array32, beBytes, beBytes, List.reverse_inj] at h
  exact BitVec.eq_of_toNat_eq (leBytes_inj h v.isLt v'.isLt)

lemma array20_inj {v v' : BitVec 160} (h : array20 v = array20 v') : v = v' := by
  rw [array20, array20, beBytes, beBytes, List.reverse_inj] at h
  exact BitVec.eq_of_toNat_eq (leBytes_inj h v.isLt v'.isLt)

@[simp] lemma length_array32 (v : BitVec 256) : (array32 v).length = 32 := by
  rw [array32, beBytes, List.length_reverse, length_leBytes]

/-- A sequence. -/
def seq {α : Type} (f : α → Bytes) (l : List α) : Bytes := u64 l.length ++ l.flatMap f

/-- A byte vector. -/
def bytes (b : Bytes) : Bytes := u64 b.length ++ b

/-- A string. -/
def str (s : String) : Bytes := bytes s.toUTF8.toList

/-- An optional value. -/
def option {α : Type} (f : α → Bytes) : Option α → Bytes
  | none => [0]
  | some a => 1 :: f a

end Codec

open Codec

/-- Encoding of an account record. -/
def Account.encode (a : Account) : Bytes := u64 a.nonce ++ u128 a.balance

/-- Encoding of an EVM transaction payload. -/
def EvmTransaction.encode (t : EvmTransaction) : Bytes :=
  (match t.kind with
    | .create bytecode => u32 0 ++ bytes bytecode
    | .call contract input => u32 1 ++ array20 contract ++ bytes input) ++
  u128 t.value ++ u64 t.gasLimit ++ u128 t.gasPrice

/-- Encoding of a transaction body. -/
def TransactionBody.encode (b : TransactionBody) : Bytes :=
  str b.chainId ++ array32 b.sender ++ array32 b.recipient ++ u128 b.amount ++ u64 b.nonce ++
    u128 b.fee ++ option EvmTransaction.encode b.evm ++ option str b.memo ++
    option u64 b.validUntil

/-- Encoding of a signed transaction. -/
def Transaction.encode (t : Transaction) : Bytes :=
  t.body.encode ++ bytes t.publicKey ++ bytes t.signature

/-- Encoding of an EVM log. -/
def EvmLog.encode (l : EvmLog) : Bytes :=
  array20 l.address ++ seq array32 l.topics ++ bytes l.data

/-- Encoding of the result of an EVM transaction. -/
def EvmCallResult.encode (r : EvmCallResult) : Bytes :=
  option array20 r.contractAddress ++ bytes r.output ++ u64 r.gasUsed ++ seq EvmLog.encode r.logs

/-- Encoding of an execution outcome. -/
def ExecutionOutcome.encode : ExecutionOutcome → Bytes
  | success => u32 0
  | rejected reason => u32 1 ++ str reason

/-- Encoding of a receipt. -/
def Receipt.encode (r : Receipt) : Bytes :=
  array32 r.txHash ++ u64 r.height ++ u128 r.feeCharged ++ r.outcome.encode ++
    option EvmCallResult.encode r.evm

/-- Encoding of a block header. -/
def BlockHeader.encode (h : BlockHeader) : Bytes :=
  u64 h.height ++ u32 h.round ++ str h.chainId ++ array32 h.parentHash ++ array32 h.txRoot ++
    array32 h.stateRoot ++ array32 h.receiptRoot ++ array32 h.proposer ++ u64 h.timestampMs

/-- Encoding of a signed block: the header, the transactions, the proposer's key and its
signature. -/
def Block.encode (b : Block) : Bytes :=
  b.header.encode ++ seq Transaction.encode b.transactions ++ bytes b.proposerPublicKey ++
    bytes b.proposerSignature

/-- Encoding of a consensus phase. -/
def VoteStep.encode : VoteStep → Bytes
  | prevote => u32 0
  | precommit => u32 1

end ZenoChain
