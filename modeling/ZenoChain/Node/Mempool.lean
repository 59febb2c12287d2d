/-
# Mempool

The pool of pending transactions with per-sender replacement by fee.  Its hash maps are
ordered maps here; no operation below depends on their order.
-/
import Mathlib.Data.List.Sort
import ZenoChain.Base.Word
import ZenoChain.Chain.Hash

namespace ZenoChain

open Word

/-- Maximum number of transactions in the mempool. -/
def maxMempoolSize : ℕ := 10000

/-- Maximum transactions per sender. -/
def maxPerSender : ℕ := 64

/-- Mempool errors; `panicked` stands for a failed `expect`. -/
inductive MempoolError
  | duplicate
  | replacementFeeTooLow
  | full
  | senderLimitExceeded
  | nonceGap (expected actual : ℕ)
  | panicked (message : String)
deriving DecidableEq, Repr

/-- The display text of a mempool error. -/
def MempoolError.toText : MempoolError → String
  | duplicate => "duplicate transaction"
  | replacementFeeTooLow => "replacement fee too low"
  | full => "mempool full"
  | senderLimitExceeded => "sender limit exceeded"
  | nonceGap expected actual =>
      "nonce gap: expected <= " ++ toString expected ++ ", got " ++ toString actual
  | panicked message => message

instance Mempool.transCmpSender : Std.TransCmp
    (compareLex (compareOn (Prod.fst : Address × ℕ → Address)) (compareOn Prod.snd)) :=
  inferInstance

instance Mempool.transCmpOrder : Std.TransCmp
    (compareLex (compareOn (Prod.fst : ℕ × Hash32 → ℕ)) (compareOn Prod.snd)) :=
  inferInstance

/-- Shared mempool. -/
structure Mempool where
  byHash : BTreeMap Hash32 Transaction := ∅
  bySenderNonce :
    Std.ExtTreeMap (Address × ℕ) Hash32 (compareLex (compareOn Prod.fst) (compareOn Prod.snd)) := ∅
  order :
    Std.ExtTreeMap (ℕ × Hash32) Unit (compareLex (compareOn Prod.fst) (compareOn Prod.snd)) := ∅
  bySenderCount : BTreeMap Address ℕ := ∅
  highestNonce : BTreeMap Address ℕ := ∅

namespace Mempool

/-- Takes the transaction out that a new one with the same sender and nonce replaces. -/
def removeReplaced (m : Mempool) (tx : Transaction) (existingHash : Hash32) :
    Except MempoolError Mempool :=
  match m.byHash[existingHash]? with
  | none => .error (.panicked "indexed tx must exist")
  | some existing =>
    if tx.body.fee ≤ existing.body.fee then .error .replacementFeeTooLow
    else .ok
      { m with
        order := m.order.erase (existing.body.fee, existingHash)
        byHash := m.byHash.erase existingHash }

/-- The limits on a transaction that replaces none. -/
def checkSender (m : Mempool) (tx : Transaction) : Except MempoolError Unit :=
  let highest := m.highestNonce.getD tx.body.sender 0
  if maxPerSender ≤ m.bySenderCount.getD tx.body.sender 0 then .error .senderLimitExceeded
  else if saturatingAdd 64 highest maxPerSender < tx.body.nonce then
    .error (.nonceGap (saturatingAdd 64 highest maxPerSender) tx.body.nonce)
  else .ok ()

/-- Makes room in a full pool by evicting its lowest fee. -/
def makeRoom (m : Mempool) (tx : Transaction) : Except MempoolError Mempool :=
  if m.byHash.size < maxMempoolSize then .ok m
  else
    match m.order.toList.head? with
    | none => .error .full
    | some ((lowestFee, lowestHash), _) =>
      if tx.body.fee ≤ lowestFee then .error .full
      else
        match m.byHash[lowestHash]? with
        | none => .ok m
        | some evicted =>
          match m.bySenderCount[evicted.body.sender]? with
          | none => .error (.panicked "sender count must exist for evicted tx")
          | some count => .ok
            { m with
              byHash := m.byHash.erase lowestHash
              bySenderNonce := m.bySenderNonce.erase (evicted.body.sender, evicted.body.nonce)
              order := m.order.erase (lowestFee, lowestHash)
              bySenderCount :=
                m.bySenderCount.insert evicted.body.sender (saturatingSub count 1) }

/-- Enters a transaction into every index. -/
def enter (m : Mempool) (tx : Transaction) (hash : Hash32) (isReplacement : Bool) : Mempool :=
  { order := m.order.insert (tx.body.fee, hash) ()
    bySenderNonce := m.bySenderNonce.insert (tx.body.sender, tx.body.nonce) hash
    bySenderCount :=
      if isReplacement then m.bySenderCount
      else m.bySenderCount.insert tx.body.sender (m.bySenderCount.getD tx.body.sender 0 + 1)
    highestNonce :=
      m.highestNonce.insert tx.body.sender
        (max tx.body.nonce (m.highestNonce.getD tx.body.sender 0))
    byHash := m.byHash.insert hash tx }

/-- Inserts a transaction with same-sender replacement-by-fee semantics. -/
def insert [Hashing] (m : Mempool) (tx : Transaction) : Except MempoolError Mempool :=
  let hash := tx.id
  if m.byHash.contains hash then .error .duplicate
  else
    match m.bySenderNonce[(tx.body.sender, tx.body.nonce)]? with
    | some existingHash => do
      let m ← m.removeReplaced tx existingHash
      return m.enter tx hash true
    | none => do
      m.checkSender tx
      let m ← m.makeRoom tx
      return m.enter tx hash false

/-- The counts after one pending transaction of a sender less. -/
def uncount (m : Mempool) (sender : Address) : BTreeMap Address ℕ :=
  match m.bySenderCount[sender]? with
  | none => m.bySenderCount
  | some count =>
    if saturatingSub count 1 = 0 then m.bySenderCount.erase sender
    else m.bySenderCount.insert sender (saturatingSub count 1)

/-- Takes a transaction out of every index, if its hash is there. -/
def discard (m : Mempool) (hash : Hash32) (tx : Transaction) : Mempool :=
  if m.byHash.contains hash then
    { m with
      byHash := m.byHash.erase hash
      bySenderNonce := m.bySenderNonce.erase (tx.body.sender, tx.body.nonce)
      order := m.order.erase (tx.body.fee, hash)
      bySenderCount := m.uncount tx.body.sender }
  else m

/-- Removes committed transactions. -/
def removeCommitted [Hashing] (m : Mempool) (transactions : List Transaction) : Mempool :=
  transactions.foldl (fun m tx => m.discard tx.id tx) m

/-- The transaction is not valid any more at a height. -/
def Expired (tx : Transaction) (currentHeight : ℕ) : Prop :=
  ∃ last ∈ tx.body.validUntil, last < currentHeight

instance (tx : Transaction) (currentHeight : ℕ) : Decidable (Expired tx currentHeight) :=
  inferInstanceAs (Decidable (∃ last ∈ tx.body.validUntil, _))

/-- Evicts transactions that have expired. -/
def evictExpired (m : Mempool) (currentHeight : ℕ) : Mempool :=
  ((m.byHash.toList.filter fun e => Expired e.2 currentHeight).map Prod.fst).foldl
    (fun m hash =>
      match m.byHash[hash]? with
      | none => m
      | some tx => m.discard hash tx) m

/-- The order of a block: high fees first, where fees of a thousand and more have priority. -/
def PrecedesInBlock (a b : Transaction) : Prop :=
  (1000 ≤ a.body.fee ∧ ¬ 1000 ≤ b.body.fee) ∨
    ((1000 ≤ a.body.fee ↔ 1000 ≤ b.body.fee) ∧ b.body.fee ≤ a.body.fee)

instance : DecidableRel PrecedesInBlock := fun _ _ => inferInstanceAs (Decidable (_ ∨ _))

/-- Returns transactions sorted by priority lane then fee.  The pending transactions are given
in the order in which the hash map is iterated, which is not specified. -/
def selectForBlockPrioritized (pending : List Transaction) (limit currentHeight : ℕ) :
    List Transaction :=
  ((pending.filter fun tx => ¬ Expired tx currentHeight).insertionSort PrecedesInBlock).take limit

end Mempool

end ZenoChain
