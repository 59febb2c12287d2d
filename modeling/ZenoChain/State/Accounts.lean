/-
# Account snapshot and its commitment

A `StateSnapshot` is a record whose only field is the account map.  Its root is that of a
sparse Merkle tree of depth 64: the path of an account is given by the leading bits of
the SHA3 hash of its address.
-/
import ZenoChain.Chain.Storage

namespace ZenoChain

/-- Snapshot of all account state. -/
abbrev StateSnapshot := BTreeMap Address Account

namespace StateSnapshot

/-- Loads the full account map from storage. -/
def load (store : Store) : StateSnapshot := store.accounts

/-- Reads an account, defaulting to zeroed state. -/
def account (s : StateSnapshot) (address : Address) : Account := s[address]?.getD {}

/-- Writes an account. -/
def putAccount (s : StateSnapshot) (address : Address) (account : Account) : StateSnapshot :=
  s.insert address account

/-- The writes by which a snapshot is stored. -/
def writes (s : StateSnapshot) : List Effect := s.toList.map fun e => .write (.putAccount e.1 e.2)

/-- Commits the snapshot to storage. -/
def persist [Hashing] {ε : Type} (s : StateSnapshot) : StoreM ε PUnit :=
  modify fun d => d.recordAll s.writes

lemma account_putAccount (s : StateSnapshot) (a b : Address) (acc : Account) :
    (s.putAccount a acc).account b = if b = a then acc else s.account b := by
  rw [account, putAccount, Table.getElem?_insert, account]
  split <;> rfl

/-- The sum of all native balances. -/
def supply (s : StateSnapshot) : ℕ := Table.total Account.balance s

lemma share_eq_balance (s : StateSnapshot) (a : Address) :
    (s[a]?.map Account.balance).getD 0 = (s.account a).balance := by
  rw [account]
  cases s[a]? <;> rfl

/-- Writing an account moves the supply by the change of its balance. -/
lemma supply_putAccount (s : StateSnapshot) (a : Address) (acc : Account) :
    (s.putAccount a acc).supply + (s.account a).balance = s.supply + acc.balance := by
  rw [← share_eq_balance]
  exact Table.total_insert Account.balance s a acc

lemma balance_le_supply (s : StateSnapshot) (a : Address) : (s.account a).balance ≤ s.supply := by
  rw [← share_eq_balance]
  exact Table.share_le_total Account.balance s a

end StateSnapshot

/-! ## Sparse Merkle state commitment -/

section Sparse

variable [Hashing]

/-- The depth of the tree. -/
def sparseDepth : ℕ := 64

/-- The bytes of a text, without its length. -/
def textBytes (s : String) : Bytes := s.toUTF8.toList

/-- Hash of an account at its address. -/
def leafHash (address : Address) (account : Account) : Hash32 :=
  hashBytes (Codec.str "zeno.smt.leaf.v1" ++ Codec.array32 address ++ account.encode)

/-- Hash of an inner node. -/
def nodeHash (left right : Hash32) : Hash32 :=
  hashBytes (textBytes "zeno.smt.node.v1" ++ Codec.array32 left ++ Codec.array32 right)

/-- Hash of the empty subtree with `n` levels below it: the entry `64 - n` of
`empty_hashes`. -/
def emptyHash : ℕ → Hash32
  | 0 => hashBytes (textBytes "zeno.smt.empty.leaf.v1")
  | n + 1 => nodeHash (emptyHash n) (emptyHash n)

/-- The bit of a path at a depth, most significant first. -/
def bitAt (key : Hash32) (depth : ℕ) : Bool := key.getMsbD depth

/-- The path of an address. -/
def pathKey (address : Address) : Hash32 := sha3Hash (Codec.array32 address)

/-- Root of the subtree with `n` levels below it, at depth `64 - n`, from the paths and
leaf hashes of its accounts.  At the bottom the first account is taken. -/
def subtreeRoot : ℕ → List (Hash32 × Hash32) → Hash32
  | n, [] => emptyHash n
  | 0, entry :: _ => entry.2
  | n + 1, entries@(_ :: _) =>
    nodeHash (subtreeRoot n (entries.filter fun e => ¬ bitAt e.1 (sparseDepth - (n + 1))))
      (subtreeRoot n (entries.filter fun e => bitAt e.1 (sparseDepth - (n + 1))))

/-- Returns the deterministic state root. -/
def StateSnapshot.stateRoot (s : StateSnapshot) : Hash32 :=
  subtreeRoot sparseDepth (s.toList.map fun e => (pathKey e.1, leafHash e.1 e.2))

end Sparse

end ZenoChain
