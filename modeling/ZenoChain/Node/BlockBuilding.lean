/-
# Pending transactions and block building

A proposer executes what it selects from its mempool.  A submitted transaction is valid when it
enters; it stays so as long as its sender neither sends by another way nor loses what it costs.
When a block commits another transaction of the sender, only the transactions of the block leave
the mempool, and the one left behind fails every block that it is selected for.
-/
import ZenoChain.Execution.Nonces
import ZenoChain.Execution.Payloads
import ZenoChain.Node.CommittedRoot
import ZenoChain.Node.MempoolIndexes

namespace ZenoChain

open Word

namespace ExecutionEngine

/-! ## What an account holds -/

variable {state : StateSnapshot} {a : Address} {cost : ℕ}

/-- Other writes than a debit leave an account with at least what a transaction costs. -/
lemma le_balance_putAccount (h : cost ≤ (state.account a).balance) {b : Address} {account : Account}
    (haccount : b = a → cost ≤ account.balance) :
    cost ≤ ((state.putAccount b account).account a).balance := by
  rw [StateSnapshot.account_putAccount]
  split
  · rename_i hb
    exact haccount hb.symm
  · exact h

lemma le_saturatingAdd {balance amount : ℕ} (h : cost ≤ balance) (hcost : cost < 2 ^ 128) :
    cost ≤ saturatingAdd 128 balance amount :=
  le_min (h.trans (Nat.le_add_right _ _)) (le_maxValue_iff.mpr hcost)

lemma le_balance_credit (h : cost ≤ (state.account a).balance) (hcost : cost < 2 ^ 128)
    (b : Address) (amount : ℕ) : cost ≤ ((credit state b amount).account a).balance :=
  le_balance_putAccount h fun hb => le_saturatingAdd (hb ▸ h) hcost

/-- A transaction of another sender takes nothing from an account. -/
lemma le_balance_afterDebit {debited : StateSnapshot} {tx : Transaction}
    (hdebit : debitSender state tx.body = .ok debited) (hother : tx.body.sender ≠ a)
    (h : cost ≤ (state.account a).balance) (hcost : cost < 2 ^ 128) :
    cost ≤ ((afterDebit debited tx).account a).balance := by
  obtain ⟨-, -, -, rfl⟩ := debitSender_ok_iff.mp hdebit
  have hdebited : cost ≤ ((state.putAccount tx.body.sender
      { nonce := (state.account tx.body.sender).nonce + 1
        balance := (state.account tx.body.sender).balance - (tx.body.amount + tx.body.fee) }).account
        a).balance := le_balance_putAccount h fun hb => absurd hb hother
  rw [afterDebit]
  split
  · exact le_balance_putAccount hdebited fun hb => le_saturatingAdd (hb ▸ hdebited) hcost
  · exact hdebited

/-- Nor do any number of them. -/
lemma le_balance_replayNative {txs : List Transaction} (hothers : ∀ tx ∈ txs, tx.body.sender ≠ a)
    (h : cost ≤ (state.account a).balance) (hcost : cost < 2 ^ 128) :
    cost ≤ ((replayNative txs state).account a).balance := by
  induction txs generalizing state with
  | nil => exact h
  | cons tx txs ih =>
    obtain ⟨hother, hrest⟩ := List.forall_mem_cons.mp hothers
    rw [replayNative]
    split
    · exact h
    · rename_i hdebit
      exact ih hrest (le_balance_afterDebit hdebit hother h hcost)

lemma le_balance_payFees {e : ExecutionEngine} (heconomics : e.economics.isSome)
    (h : cost ≤ (state.account a).balance) (hcost : cost < 2 ^ 128) (proposer : Address)
    (fees : ℕ) : cost ≤ ((payFees e state proposer fees).account a).balance := by
  rw [payFees]
  split
  · rename_i hnone
    rw [hnone] at heconomics
    cases heconomics
  · exact le_balance_credit (le_balance_credit h hcost _ _) hcost _ _

/-! ## Transactions that are due -/

/-- The sender of a transaction has its nonce and holds what it costs. -/
structure Due (state : StateSnapshot) (body : TransactionBody) : Prop where
  nonce : (state.account body.sender).nonce = body.nonce
  funds : body.amount + body.fee ≤ (state.account body.sender).balance

/-- What a transaction costs and the nonce after it are in range. -/
def InRange (body : TransactionBody) : Prop :=
  body.amount + body.fee < 2 ^ 128 ∧ body.nonce + 1 < 2 ^ 64

instance (body : TransactionBody) : Decidable (InRange body) :=
  inferInstanceAs (Decidable (_ ∧ _))

/-- The transaction was verified at some height, and its debit is in range. -/
structure Sendable (e : ExecutionEngine) (scheme : SignatureScheme) (tx : Transaction) : Prop where
  verified : ∃ height bytes, verifyTransaction scheme e.chainId tx height = .ok bytes
  inRange : InRange tx.body

variable {e : ExecutionEngine} {scheme : SignatureScheme} {height : ℕ}

/-- A transaction that was verified once verifies until it expires. -/
lemma verifyTransaction_of_not_expired {chainId : ChainId} {tx : Transaction} {height' : ℕ}
    {bytes : Bytes} (h : verifyTransaction scheme chainId tx height' = .ok bytes)
    (hexpired : ¬ Mempool.Expired tx height) :
    verifyTransaction scheme chainId tx height = .ok bytes := by
  rw [verifyTransaction] at h ⊢
  rcases hlast : tx.body.validUntil with _ | last
  · rw [hlast] at h
    exact h
  · have hlate : ¬ height > last := fun hc => hexpired ⟨last, hlast, hc⟩
    rw [hlast] at h
    by_cases hlate' : height' > last
    · simp only [if_pos hlate'] at h
      simp [bind, Except.bind, throw, throwThe, MonadExceptOf.throw] at h
      split_ifs at h
    · simp only [if_neg hlate'] at h
      simp only [if_neg hlate]
      exact h

/-- What is valid is due. -/
lemma due_of_validateTransaction {tx : Transaction}
    (h : e.validateTransaction scheme state height tx = .ok ()) (hrange : InRange tx.body) :
    Sendable e scheme tx ∧ Due state tx.body := by
  have hnonce := nonce_of_validateTransaction h
  rw [validateTransaction] at h
  rcases hverify : verifyTransaction scheme e.chainId tx height with err | bytes
  · rw [hverify] at h
    cases h
  · rw [hverify] at h
    refine ⟨⟨⟨height, bytes, hverify⟩, hrange⟩, hnonce, ?_⟩
    simp only [bind, Except.bind, hnonce, ne_eq, not_true_eq_false, if_false] at h
    split at h
    · cases h
    · rename_i hfunds
      rw [saturatingAdd_of_lt hrange.1] at hfunds
      exact not_lt.mp hfunds

/-- What is due can be executed next. -/
lemma Due.validate {tx : Transaction} (h : Due state tx.body) (hsendable : Sendable e scheme tx)
    (hexpired : ¬ Mempool.Expired tx height) :
    e.validateTransaction scheme state height tx = .ok () ∧
      ∃ debited, debitSender state tx.body = .ok debited := by
  obtain ⟨height', bytes, hverified⟩ := hsendable.verified
  obtain ⟨hcost, hnext⟩ := hsendable.inRange
  constructor
  · rw [validateTransaction, verifyTransaction_of_not_expired hverified hexpired]
    have hfunds := h.funds
    simp only [bind, Except.bind, h.nonce, ne_eq, not_true_eq_false, if_false,
      saturatingAdd_of_lt hcost, not_lt.mpr hfunds]
    rfl
  · exact ⟨_, debitSender_ok_iff.mpr ⟨hcost, h.funds, h.nonce.symm ▸ hnext, rfl⟩⟩

/-- Due transactions of different senders can be executed in any order. -/
lemma admits_of_due {txs : List Transaction} (hsendable : ∀ tx ∈ txs, Sendable e scheme tx)
    (hdue : ∀ tx ∈ txs, Due state tx.body) (hexpired : ∀ tx ∈ txs, ¬ Mempool.Expired tx height)
    (hsenders : (txs.map fun tx => tx.body.sender).Nodup) : Admits e scheme height txs state := by
  induction txs generalizing state with
  | nil => trivial
  | cons tx txs ih =>
    obtain ⟨hsend, hsendrest⟩ := List.forall_mem_cons.mp hsendable
    obtain ⟨hnow, hlater⟩ := List.forall_mem_cons.mp hdue
    obtain ⟨hfresh, hfreshrest⟩ := List.forall_mem_cons.mp hexpired
    rw [List.map_cons, List.nodup_cons] at hsenders
    obtain ⟨hvalid, debited, hdebit⟩ := hnow.validate hsend hfresh
    refine ⟨hvalid, debited, hdebit, ih hsendrest (fun tx' htx' => ?_) hfreshrest hsenders.2⟩
    -- The transaction is of another sender than those after it.
    have hother : tx.body.sender ≠ tx'.body.sender := fun hc =>
      hsenders.1 (hc ▸ List.mem_map_of_mem htx')
    refine ⟨?_, le_balance_afterDebit hdebit hother (hlater tx' htx').funds
      (hsendrest tx' htx').inRange.1⟩
    rw [nonce_afterDebit hdebit, if_neg hother]
    exact (hlater tx' htx').nonce

/-- A block in which the sender has no transaction leaves what is due. -/
lemma Due.prepares [Hashing] [Revm] {block : Block} {d d' : Disk} {p : PreparedBlock}
    (hp : Prepares e scheme block d p d') (heconomics : e.economics.isSome) {body : TransactionBody}
    (hothers : ∀ sent ∈ block.transactions, sent.body.sender ≠ body.sender)
    (hcost : body.amount + body.fee < 2 ^ 128) (h : Due (StateSnapshot.load d.store) body) :
    Due p.state body := by
  have hcounts := countsSent_prepareBlock (prepareBlock_ok_iff.mpr hp)
  obtain ⟨state, hloop, haccounting⟩ := hp.replay
  obtain ⟨-, results, -, hout⟩ := applyTransactions_ok_iff.mp hloop
  obtain ⟨rfl, -⟩ := Prod.mk.inj hout
  constructor
  · have hnone : sentBy body.sender block.transactions = [] :=
      List.filter_eq_nil_iff.mpr fun sent hsent => by simpa using hothers sent hsent
    rw [(hcounts body.sender).1, hnone]
    exact h.nonce
  · rw [(applyBlockAccounting_ok _ _ _ _ _).1 _ _ haccounting]
    exact le_balance_payFees heconomics (le_balance_replayNative hothers h.funds hcost) hcost _ _

/-- An account that keeps its nonce and has enough left. -/
lemma Due.putAccount {body : TransactionBody} (h : Due state body) {b : Address} {account : Account}
    (hnonce : account.nonce = (state.account b).nonce)
    (hfunds : b = body.sender → body.amount + body.fee ≤ account.balance) :
    Due (state.putAccount b account) body :=
  ⟨(nonce_putAccount state hnonce _).trans h.nonce, le_balance_putAccount h.funds hfunds⟩

/-- A credit leaves what is due. -/
lemma Due.credit [Hashing] {body : TransactionBody} (h : Due state body)
    (hcost : body.amount + body.fee < 2 ^ 128) (b : Address) (amount : ℕ) :
    Due (ExecutionEngine.credit state b amount) body :=
  ⟨(nonce_credit state b amount _).trans h.nonce, le_balance_credit h.funds hcost b amount⟩

/-! ## Staking after a commit -/

section

variable [Hashing]

/-- A commit, in either order of its writes. -/
lemma keyed_of_validateAndCommit [Revm] {finalized : FinalizedBlock} {d d' : Disk}
    (h : e.validateAndCommitFinalizedBlock scheme finalized d = .ok ⟨⟩ d')
    (hkeyed : (StakingSnapshot.load d.store).Keyed) : (StakingSnapshot.load d'.store).Keyed := by
  obtain ⟨p, d₁, hp, -, -, rfl⟩ := validateAndCommit_ok_iff.mp h
  obtain ⟨hkeyed₁, hstaking⟩ := hp.keyed hkeyed
  exact keyed_accountingWrites hkeyed₁ hstaking

lemma keyed_of_executeAndCommit [Revm] {block : Block} {certificate : CommitCertificate}
    {d d' : Disk} (h : executeAndCommit e scheme block certificate d = .ok ⟨⟩ d')
    (hkeyed : (StakingSnapshot.load d.store).Keyed) : (StakingSnapshot.load d'.store).Keyed := by
  rw [executeAndCommit] at h
  obtain ⟨r, d₂, hrun, hcommit⟩ := Handler.bind_eq_ok_iff.mp h
  obtain ⟨p, d₁, hp, rfl, rfl⟩ := executeBlock_ok_iff.mp hrun
  cases hcommit
  obtain ⟨hkeyed₁, hstaking⟩ := hp.keyed hkeyed
  exact keyed_accountingWrites hkeyed₁ hstaking

end

end ExecutionEngine

/-! ## What leaves the mempool -/

namespace Mempool

variable {m : Mempool} {hash : Hash32} {tx : Transaction}

/-- What is pending after a removal was pending before, and is not one of the removed. -/
lemma getElem?_removeCommitted [Hashing] {txs : List Transaction}
    (h : (m.removeCommitted txs).byHash[hash]? = some tx) :
    m.byHash[hash]? = some tx ∧ ∀ removed ∈ txs, removed.id ≠ hash := by
  induction txs generalizing m with
  | nil => exact ⟨h, fun _ hmem => absurd hmem List.not_mem_nil⟩
  | cons removed txs ih =>
    obtain ⟨hstill, hothers⟩ := ih (m := m.discard removed.id removed) h
    refine ⟨getElem?_discard hstill, List.forall_mem_cons.mpr ⟨?_, hothers⟩⟩
    rintro rfl
    rw [discard] at hstill
    split at hstill
    · rw [Table.getElem?_erase, if_pos rfl] at hstill
      cases hstill
    · rename_i habsent
      rw [Table.getElem?_eq_none_of_not_contains habsent] at hstill
      cases hstill

lemma getElem?_evictExpired {height : ℕ} (h : (m.evictExpired height).byHash[hash]? = some tx) :
    m.byHash[hash]? = some tx := by
  rw [evictExpired] at h
  generalize (m.byHash.toList.filter _).map Prod.fst = expired at h
  induction expired generalizing m with
  | nil => exact h
  | cons hash' expired ih =>
    have hstill := ih h
    dsimp only at hstill
    split at hstill
    · exact hstill
    · exact getElem?_discard hstill

/-- Where the nonce of every pending transaction is the one of its account, no two pending
transactions have the same sender. -/
lemma Consistent.nodup_senders [Hashing] (h : m.Consistent) (nonce : Address → ℕ)
    (hnonce : ∀ (hash : Hash32) (tx : Transaction), m.byHash[hash]? = some tx →
      tx.body.nonce = nonce tx.body.sender) :
    ((Table.values m.byHash).map fun tx => tx.body.sender).Nodup := by
  rw [Table.values, List.map_map]
  refine (Table.nodup_toList m.byHash).map_on ?_
  rintro ⟨hash, tx⟩ hmem ⟨hash', tx'⟩ hmem' hsender
  replace hsender : tx.body.sender = tx'.body.sender := hsender
  have htx := Table.mem_toList_iff.mp hmem
  have htx' := Table.mem_toList_iff.mp hmem'
  -- Both stand under one sender and one nonce.
  have hkey := (h.nonces _ _ hash).mpr ⟨tx, htx, rfl, rfl⟩
  have hkey' := (h.nonces _ _ hash').mpr ⟨tx', htx', rfl, rfl⟩
  rw [hnonce _ _ htx, hsender, ← hnonce _ _ htx', hkey'] at hkey
  obtain rfl := Option.some.inj hkey
  exact congrArg (Prod.mk hash') (Option.some.inj (htx.symm.trans htx'))

end Mempool

/-! ## Nodes that build blocks -/

/-- A node, and the committed blocks whose transactions the mempool has still to lose. -/
structure Builder where
  node : Node
  owed : List Block := []

/-- The events of a node that builds blocks: those of the node, what its consensus engine writes
about staking, the removal of the transactions of a committed block, and the two steps of a
proposal that leave traces. -/
inductive BuilderEvent
  | node (event : NodeEvent)
  | noted (address : Address)
  | punished (items : List Evidence)
  | removeCommitted (block : Block)
  | evictExpired (height : ℕ)
  | dryRun (height : ℕ) (transactions : List Transaction) (proposer : Address)

/-- The transactions that an event hands to the mempool. -/
def BuilderEvent.transactions : BuilderEvent → List Transaction
  | .node (.submitTx tx) => [tx]
  | .removeCommitted block => block.transactions
  | _ => []

namespace Builder

/-- The pending transactions. -/
def pending (b : Builder) : List Transaction := Table.values b.node.mempool.byHash

/-- The transaction is in a committed block, and will be removed with it. -/
def Settled (b : Builder) (tx : Transaction) : Prop := ∃ block ∈ b.owed, tx ∈ block.transactions

instance (b : Builder) (tx : Transaction) : Decidable (b.Settled tx) :=
  inferInstanceAs (Decidable (∃ block ∈ b.owed, _))

variable [Hashing] [Revm] (config : NodeConfig) (b : Builder)

/-- The staking state that the consensus engine reads. -/
def staking : StakingSnapshot :=
  (StakingSnapshot.load b.node.disk.store).ensureValidators config.genesis.validators

/-- Stores a staking state, if there is one. -/
def store (staking : Except StateError StakingSnapshot) : Builder :=
  match staking with
  | .error _ => b
  | .ok staking =>
    { b with node := { b.node with disk := b.node.disk.record (.write (.putStakingState staking)) } }

/-- The blocks that an event of the node commits. -/
def commits (event : NodeEvent) : List Block :=
  ((b.node.handle config event).disk.committed.drop b.node.disk.committed.length).map
    FinalizedBlock.block

/-- The node after an event. -/
def handle : BuilderEvent → Builder
  | .node event => { node := b.node.handle config event, owed := b.owed ++ b.commits config event }
  | .noted address => b.store ((b.staking config).noteLiveness address)
  | .punished items => b.store ((b.staking config).applyEvidence items config.genesis.economics)
  | .removeCommitted block =>
    if block ∈ b.owed then
      { node := { b.node with mempool := b.node.mempool.removeCommitted block.transactions }
        owed := b.owed.erase block }
    else b
  | .evictExpired height =>
    { b with node := { b.node with mempool := b.node.mempool.evictExpired height } }
  | .dryRun height transactions proposer =>
    { b with node :=
      { b.node with
        disk := Handler.final (config.engine.dryRunTransactions config.scheme height transactions
          proposer b.node.disk) } }

/-- The node after a sequence of events. -/
def run (events : List BuilderEvent) : Builder := events.foldl (handle config) b

/-- What the faucet pays out leaves the sender of a transaction with what it costs. -/
def FaucetSpares (accounts : StateSnapshot) (faucet : Option (Except String Address))
    (recipient : Address) (amount : ℕ) (body : TransactionBody) : Prop :=
  match faucet with
  | some (.ok faucetAddress) =>
    body.sender ≠ faucetAddress ∨ recipient = faucetAddress ∨ maxFaucetAmount < amount ∨
    (accounts.account faucetAddress).balance < amount ∨
    body.amount + body.fee + amount ≤ (accounts.account faucetAddress).balance
  | _ => True

instance (accounts : StateSnapshot) (faucet : Option (Except String Address)) (recipient : Address)
    (amount : ℕ) (body : TransactionBody) :
    Decidable (FaucetSpares accounts faucet recipient amount body) :=
  match faucet with
  | some (.ok _) => inferInstanceAs (Decidable (_ ∨ _))
  | some (.error _) | none => .isTrue trivial

/-- An event that takes from no pending transaction what it needs: a block in which the sender
has a transaction has this one, the faucet leaves enough, and what is submitted is in range. -/
def Spares : BuilderEvent → Prop
  | .node event =>
    (∀ tx ∈ b.pending, (b.handle config (.node event)).Settled tx ∨
      ∀ block ∈ b.commits config event, ∀ sent ∈ block.transactions,
        sent.body.sender ≠ tx.body.sender) ∧
    match event with
    | .submitTx tx =>
      config.engine.validateTransaction config.scheme (StateSnapshot.load b.node.disk.store)
        b.node.disk.store.nextHeight tx = .ok () → ExecutionEngine.InRange tx.body
    | .faucetSend faucet recipient amount => ∀ tx ∈ b.pending, b.Settled tx ∨
        FaucetSpares (StateSnapshot.load b.node.disk.store) faucet recipient amount tx.body
    | _ => True
  | _ => True

instance (event : BuilderEvent) : Decidable (Spares config b event) :=
  match event with
  | .node event =>
    match event with
    | .submitTx _ => inferInstanceAs (Decidable (_ ∧ (_ → _)))
    | .faucetSend .. => inferInstanceAs (Decidable (_ ∧ ∀ tx ∈ b.pending, _))
    | .imported _ | .finalized .. | .zkShield _ | .zkUnshield _ | .registerValidator _ =>
      inferInstanceAs (Decidable (_ ∧ True))
  | .noted _ | .punished _ | .removeCommitted _ | .evictExpired _ | .dryRun .. => .isTrue trivial

/-- Every event of a sequence spares what is pending when it happens. -/
def SparingRun : Builder → List BuilderEvent → Prop
  | _, [] => True
  | b, event :: events => Spares config b event ∧ SparingRun (handle config b event) events

instance decidableSparingRun (b : Builder) : (events : List BuilderEvent) →
    Decidable (SparingRun config b events)
  | [] => .isTrue trivial
  | event :: events =>
    have := decidableSparingRun (handle config b event) events
    inferInstanceAs (Decidable (_ ∧ _))

/-! ## What is pending is due -/

/-- Every pending transaction is due, or in a committed block and about to be removed. -/
structure Ready (known : Set Transaction) : Prop where
  consistent : b.node.mempool.Consistent
  within : b.node.mempool.Within known
  keyed : (StakingSnapshot.load b.node.disk.store).Keyed
  due : ∀ tx ∈ b.pending, b.Settled tx ∨
    (ExecutionEngine.Sendable config.engine config.scheme tx ∧
      ExecutionEngine.Due (StateSnapshot.load b.node.disk.store) tx.body)

variable {config b} {known : Set Transaction}

omit [Hashing] [Revm] in
lemma mem_pending {tx : Transaction} :
    tx ∈ b.pending ↔ ∃ hash : Hash32, b.node.mempool.byHash[hash]? = some tx :=
  Table.mem_values_iff

/-- Other accounts and another staking state under the same pending transactions. -/
lemma Ready.node_of_disk (h : Ready config b known) {event : NodeEvent} {d' : Disk}
    (hdisk : (b.node.handle config event).disk = d')
    (hmempool : (b.node.handle config event).mempool = b.node.mempool)
    (hkeyed : (StakingSnapshot.load d'.store).Keyed)
    (hdue : ∀ tx ∈ b.pending, ¬ b.Settled tx →
      ExecutionEngine.Sendable config.engine config.scheme tx →
      ExecutionEngine.Due (StateSnapshot.load b.node.disk.store) tx.body →
      (b.handle config (.node event)).Settled tx ∨
        ExecutionEngine.Due (StateSnapshot.load d'.store) tx.body) :
    Ready config (b.handle config (.node event)) known := by
  have hsettled : ∀ tx, b.Settled tx → (b.handle config (.node event)).Settled tx := by
    rintro tx ⟨block, hblock, htx⟩
    exact ⟨block, List.mem_append_left _ hblock, htx⟩
  refine ⟨?_, ?_, ?_, fun tx htx => ?_⟩
  · exact hmempool.symm ▸ h.consistent
  · exact hmempool.symm ▸ h.within
  · exact hdisk.symm ▸ hkeyed
  · have hpending : tx ∈ b.pending := by
      rw [pending, ← hmempool]
      exact htx
    by_cases hs : b.Settled tx
    · exact .inl (hsettled tx hs)
    · obtain ⟨hsendable, hnow⟩ := (h.due tx hpending).resolve_left hs
      rcases hdue tx hpending hs hsendable hnow with hlater | hlater
      · exact .inl hlater
      · exact .inr ⟨hsendable, hdisk.symm ▸ hlater⟩

/-- A commit of a block that spares what is pending. -/
lemma Ready.commit (h : Ready config b known) {event : NodeEvent} {block : Block}
    {p : PreparedBlock} {d₁ d' : Disk} {finalized : FinalizedBlock}
    (hspares : Spares config b (.node event))
    (hdisk : (b.node.handle config event).disk = d')
    (hmempool : (b.node.handle config event).mempool = b.node.mempool)
    (hkeyed : (StakingSnapshot.load d'.store).Keyed)
    (hp : ExecutionEngine.Prepares config.engine config.scheme block b.node.disk p d₁)
    (hblock : finalized.block = block)
    (hc : CommitsTo b.node.disk finalized p.state d') :
    Ready config (b.handle config (.node event)) known := by
  have hcommits : b.commits config event = [block] := by
    rw [commits, hdisk, hc.committed, List.drop_left, List.map_singleton, hblock]
  refine h.node_of_disk hdisk hmempool hkeyed fun tx htx _ hsendable hnow => ?_
  refine (hspares.1 tx htx).imp_right fun hothers => ?_
  rw [hcommits] at hothers
  rw [StateSnapshot.load, hc.accounts]
  exact hnow.prepares hp rfl (hothers block (List.mem_singleton_self _)) hsendable.inRange.1

/-- Writes of EVM accounts change neither the accounts nor the staking state. -/
lemma Ready.node_of_onlyEvmWrites (h : Ready config b known) {event : NodeEvent} {d' : Disk}
    (hdisk : (b.node.handle config event).disk = d')
    (hmempool : (b.node.handle config event).mempool = b.node.mempool)
    (hevm : OnlyEvmWrites b.node.disk d') : Ready config (b.handle config (.node event)) known := by
  refine h.node_of_disk hdisk hmempool ?_ fun _ _ _ _ hnow => .inr ?_
  · rw [StakingSnapshot.load, hevm.store_eq]
    exact h.keyed
  · rw [StateSnapshot.load, hevm.store_eq]
    exact hnow

lemma Ready.imported (h : Ready config b known) {finalized : FinalizedBlock}
    (hspares : Spares config b (.node (.imported finalized))) :
    Ready config (b.handle config (.node (.imported finalized))) known := by
  rcases hrun : config.engine.validateAndCommitFinalizedBlock config.scheme finalized b.node.disk with
    ⟨⟨⟩, d'⟩ | ⟨err, d'⟩
  · obtain ⟨p, d₁, hp, hc⟩ := commitsTo_of_validateAndCommit hrun
    exact h.commit hspares (congrArg Handler.final hrun) rfl
      (ExecutionEngine.keyed_of_validateAndCommit hrun h.keyed) hp rfl hc
  · exact h.node_of_onlyEvmWrites (congrArg Handler.final hrun) rfl
      (onlyEvmWrites_of_error hrun)

lemma Ready.finalized (h : Ready config b known) {block : Block} {certificate : CommitCertificate}
    (hspares : Spares config b (.node (.finalized block certificate))) :
    Ready config (b.handle config (.node (.finalized block certificate))) known := by
  rcases hrun : executeAndCommit config.engine config.scheme block certificate b.node.disk with
    ⟨⟨⟩, d'⟩ | ⟨err, d'⟩
  · obtain ⟨p, d₁, finalized, hp, hblock, hc⟩ := commitsTo_of_executeAndCommit hrun
    exact h.commit hspares (congrArg Handler.final hrun) rfl
      (ExecutionEngine.keyed_of_executeAndCommit hrun h.keyed) hp hblock hc
  · exact h.node_of_onlyEvmWrites (congrArg Handler.final hrun) rfl
      (onlyEvmWrites_of_executeAndCommit_error hrun)

omit [Revm] in
lemma due_faucetSend {faucet : Option (Except String Address)} {recipient : Address} {amount : ℕ}
    {d : Disk} {body : TransactionBody} (h : ExecutionEngine.Due (StateSnapshot.load d.store) body)
    (hcost : body.amount + body.fee < 2 ^ 128)
    (hspares : FaucetSpares (StateSnapshot.load d.store) faucet recipient amount body) :
    ExecutionEngine.Due
      (StateSnapshot.load (Handler.final (ZenoChain.faucetSend faucet recipient amount d)).store)
      body := by
  rw [ZenoChain.faucetSend.eq_def]
  split_ifs with hmax hzero
  · exact h
  · exact h
  · rcases faucet with _ | (err | faucetAddress)
    · exact h.credit hcost _ _
    · exact h
    · dsimp only
      rw [Handler.bind_ok (readStore_run d)]
      split_ifs with hempty
      · exact h
      · rw [Handler.bind_ok (write_run _ d)]
        set accounts := StateSnapshot.load d.store
        set left : Account :=
          { accounts.account faucetAddress with
            balance := saturatingSub (accounts.account faucetAddress).balance amount } with hleft
        have hnonce : left.nonce = (accounts.account faucetAddress).nonce := rfl
        have hput : (faucetAddress = body.sender → body.amount + body.fee ≤ left.balance) →
            ExecutionEngine.Due (accounts.putAccount faucetAddress left) body :=
          h.putAccount hnonce
        show ExecutionEngine.Due
          (ExecutionEngine.credit (accounts.putAccount faucetAddress left) recipient amount) body
        by_cases hsender : faucetAddress = body.sender
        · rcases hspares with hother | rfl | hc | hc | henough
          · exact absurd hsender.symm hother
          · -- What the faucet takes from the sender it gives back.
            refine ⟨?_, ?_⟩
            · rw [ExecutionEngine.nonce_credit, ExecutionEngine.nonce_putAccount _ hnonce]
              exact h.nonce
            · rw [← hsender, ExecutionEngine.credit, StateSnapshot.account_putAccount,
                StateSnapshot.account_putAccount, if_pos rfl, if_pos rfl]
              dsimp only
              have hback : left.balance + amount = (accounts.account recipient).balance :=
                Nat.sub_add_cancel (not_lt.mp hempty)
              rw [saturatingAdd, hback]
              exact le_min (hsender ▸ h.funds) (le_maxValue_iff.mpr hcost)
          · exact absurd hc hmax
          · exact absurd hc hempty
          · exact (hput fun _ => Nat.le_sub_of_add_le henough).credit hcost _ _
        · exact (hput fun hb => absurd hb hsender).credit hcost _ _

omit [Revm] in
/-- The faucet does not touch the staking state. -/
lemma stakingState_faucetSend (faucet : Option (Except String Address)) (recipient : Address)
    (amount : ℕ) (d : Disk) :
    (Handler.final (ZenoChain.faucetSend faucet recipient amount d)).store.stakingState =
      d.store.stakingState := by
  rw [ZenoChain.faucetSend.eq_def]
  split_ifs
  · rfl
  · rfl
  · rcases faucet with _ | (err | faucetAddress)
    · rfl
    · rfl
    · dsimp only
      rw [Handler.bind_ok (readStore_run d)]
      split_ifs <;> rfl

lemma Ready.faucetSend (h : Ready config b known) {faucet : Option (Except String Address)}
    {recipient : Address} {amount : ℕ}
    (hspares : Spares config b (.node (.faucetSend faucet recipient amount))) :
    Ready config (b.handle config (.node (.faucetSend faucet recipient amount))) known := by
  refine h.node_of_disk rfl rfl ?_ fun tx htx hsettled hsendable hnow => .inr ?_
  · rw [StakingSnapshot.load, Node.handle, Node.onDisk, stakingState_faucetSend]
    exact h.keyed
  · exact due_faucetSend hnow hsendable.inRange.1 ((hspares.2 tx htx).resolve_left hsettled)

lemma Ready.zkUnshield (h : Ready config b known) (request : UnshieldRequest) :
    Ready config (b.handle config (.node (.zkUnshield request))) known := by
  rcases hrun : ShieldedPool.unshield request b.node.zkPool with ⟨⟨⟩, zkPool⟩ | ⟨err, zkPool⟩
  · have hnode : b.node.handle config (.zkUnshield request) =
        Node.onDisk { b.node with zkPool } (creditStored request.recipient request.value) := by
      rw [Node.handle, hrun]
    refine h.node_of_disk (congrArg Node.disk hnode) (by rw [hnode]; rfl) h.keyed
      fun _ _ _ hsendable hnow => .inr ?_
    exact hnow.credit hsendable.inRange.1 _ _
  · have hnode : b.node.handle config (.zkUnshield request) = { b.node with zkPool } := by
      rw [Node.handle, hrun]
    exact h.node_of_disk (congrArg Node.disk hnode) (by rw [hnode]) h.keyed
      fun _ _ _ _ hnow => .inr hnow

/-- A submission that is accepted was valid on the stored accounts. -/
lemma Ready.submitTx (h : Ready config b known) {tx : Transaction} (htx : tx ∈ known)
    (hspares : Spares config b (.node (.submitTx tx))) :
    Ready config (b.handle config (.node (.submitTx tx))) known := by
  have hsame : b.node.handle config (.submitTx tx) = b.node →
      Ready config (b.handle config (.node (.submitTx tx))) known := fun hnode =>
    h.node_of_disk (congrArg Node.disk hnode) (congrArg Node.mempool hnode) h.keyed
      fun _ _ _ _ hnow => .inr hnow
  rcases hvalid : config.engine.validateTransaction config.scheme
    (StateSnapshot.load b.node.disk.store) b.node.disk.store.nextHeight tx with err | ⟨⟩
  · exact hsame (by rw [Node.handle, hvalid])
  rcases hinsert : b.node.mempool.insert tx with err | mempool
  · exact hsame (by rw [Node.handle, hvalid]; dsimp only; rw [hinsert])
  have hnode : b.node.handle config (.submitTx tx) =
      { b.node with mempool, disk := b.node.disk.record (.broadcast (.transaction tx)) } := by
    rw [Node.handle, hvalid]
    dsimp only
    rw [hinsert]
  obtain ⟨hconsistent, hold⟩ := (h.consistent.insert tx).1 mempool hinsert
  obtain ⟨hsendable, hnow⟩ := ExecutionEngine.due_of_validateTransaction hvalid (hspares.2 hvalid)
  refine ⟨?_, ?_, ?_, fun tx' htx' => ?_⟩
  · rw [handle, hnode]
    exact hconsistent
  · rw [handle, hnode]
    intro hash tx' hpending
    rcases hold hash tx' hpending with rfl | hpending
    · exact htx
    · exact h.within hash tx' hpending
  · rw [handle, hnode]
    exact h.keyed
  · rw [handle, hnode] at htx' ⊢
    obtain ⟨hash, hpending⟩ := mem_pending.mp htx'
    rcases hold hash tx' hpending with rfl | hpending
    · exact .inr ⟨hsendable, hnow⟩
    · refine (h.due tx' (mem_pending.mpr ⟨hash, hpending⟩)).imp_left ?_
      rintro ⟨block, hblock, hmem⟩
      exact ⟨block, List.mem_append_left _ hblock, hmem⟩

lemma Ready.node (h : Ready config b known) {event : NodeEvent}
    (hknown : ∀ tx ∈ (BuilderEvent.node event).transactions, tx ∈ known)
    (hspares : Spares config b (.node event)) :
    Ready config (b.handle config (.node event)) known := by
  cases event with
  | imported finalized => exact h.imported hspares
  | finalized block certificate => exact h.finalized hspares
  | faucetSend faucet recipient amount => exact h.faucetSend hspares
  | zkShield request => exact h.node_of_disk rfl rfl h.keyed fun _ _ _ _ hnow => .inr hnow
  | zkUnshield request => exact h.zkUnshield request
  | registerValidator request =>
    refine h.node_of_disk rfl rfl (keyed_registerValidator h.keyed) fun _ _ _ _ hnow => .inr ?_
    have haccounts : (b.node.handle config (.registerValidator request)).disk.store.accounts =
        b.node.disk.store.accounts := registerValidator_same.1
    rw [StateSnapshot.load, haccounts]
    exact hnow
  | submitTx tx => exact h.submitTx (hknown tx (List.mem_singleton_self tx)) hspares

omit [Revm] in
/-- A staking state with the same records may be stored. -/
lemma Ready.store (h : Ready config b known) {staking : Except StateError StakingSnapshot}
    (hsame : ∀ s, staking = .ok s → (b.staking config).SameRecords s) :
    Ready config (b.store staking) known := by
  rcases staking with err | s
  · exact h
  · exact ⟨h.consistent, h.within, (hsame s rfl).keyed (h.keyed.ensureValidators _), h.due⟩

/-- The transactions of a committed block are removed. -/
lemma Ready.removeCommitted (h : Ready config b known) (hinj : known.InjOn Transaction.id)
    {block : Block} (hknown : ∀ tx ∈ block.transactions, tx ∈ known) :
    Ready config (b.handle config (.removeCommitted block)) known := by
  rw [handle]
  split
  · obtain ⟨hconsistent, hwithin⟩ := h.consistent.removeCommitted h.within hinj hknown
    refine ⟨hconsistent, hwithin, h.keyed, fun tx htx => ?_⟩
    obtain ⟨hash, hpending⟩ := mem_pending.mp htx
    obtain ⟨hbefore, hremoved⟩ := Mempool.getElem?_removeCommitted hpending
    refine (h.due tx (mem_pending.mpr ⟨hash, hbefore⟩)).imp_left ?_
    rintro ⟨other, hother, hmem⟩
    refine ⟨other, (List.mem_erase_of_ne ?_).mpr hother, hmem⟩
    rintro rfl
    exact hremoved tx hmem (h.consistent.ids _ _ hbefore)
  · exact h

lemma Ready.evictExpired (h : Ready config b known) (height : ℕ) :
    Ready config (b.handle config (.evictExpired height)) known := by
  obtain ⟨hconsistent, hwithin⟩ := h.consistent.evictExpired h.within height
  refine ⟨hconsistent, hwithin, h.keyed, fun tx htx => ?_⟩
  obtain ⟨hash, hpending⟩ := mem_pending.mp htx
  exact h.due tx (mem_pending.mpr ⟨hash, Mempool.getElem?_evictExpired hpending⟩)

/-- An event that spares what is pending keeps it due. -/
lemma Ready.handle (h : Ready config b known) (hinj : known.InjOn Transaction.id)
    {event : BuilderEvent} (hknown : ∀ tx ∈ event.transactions, tx ∈ known)
    (hspares : Spares config b event) : Ready config (b.handle config event) known := by
  cases event with
  | node event => exact h.node hknown hspares
  | noted address => exact h.store fun _ => StakingSnapshot.sameRecords_noteLiveness
  | punished items => exact h.store fun _ => StakingSnapshot.sameRecords_applyEvidence
  | removeCommitted block => exact h.removeCommitted hinj hknown
  | evictExpired height => exact h.evictExpired height
  | dryRun height transactions proposer =>
    have hevm := ExecutionEngine.keeps_dryRunTransactions config.engine config.scheme height
      transactions proposer b.node.disk
    refine ⟨h.consistent, h.within, ?_, fun tx htx => ?_⟩
    · rw [Builder.handle, StakingSnapshot.load, hevm.store_eq]
      exact h.keyed
    · rw [Builder.handle, StateSnapshot.load, hevm.store_eq]
      exact h.due tx htx

lemma Ready.run {events : List BuilderEvent} (h : Ready config b known)
    (hinj : known.InjOn Transaction.id)
    (hknown : ∀ event ∈ events, ∀ tx ∈ event.transactions, tx ∈ known)
    (hspares : SparingRun config b events) : Ready config (b.run config events) known := by
  induction events generalizing b with
  | nil => exact h
  | cons event events ih =>
    rw [List.forall_mem_cons] at hknown
    exact ih (h.handle hinj hknown.1 hspares.1) hknown.2 hspares.2

/-! ## The selection for a block -/

/-- What a proposal may select: what has expired is evicted, and the rest is taken from the hash
map in any order. -/
def Selects (b : Builder) (limit height : ℕ) (selected : List Transaction) : Prop :=
  ∃ pending, pending.Perm (Table.values (b.node.mempool.evictExpired height).byHash) ∧
    selected = Mempool.selectForBlockPrioritized pending limit height

/-- At most one transaction of each sender is selected, and it is due. -/
lemma Ready.admits (h : Ready config b known) (howed : b.owed = []) {limit height : ℕ}
    {selected : List Transaction} (hselects : b.Selects limit height selected) :
    ExecutionEngine.Admits config.engine config.scheme height selected
      (StateSnapshot.load b.node.disk.store) := by
  obtain ⟨pending, hpending, rfl⟩ := hselects
  have hready := h.evictExpired height
  have hdue : ∀ tx ∈ pending, ExecutionEngine.Sendable config.engine config.scheme tx ∧
      ExecutionEngine.Due (StateSnapshot.load b.node.disk.store) tx.body := by
    intro tx htx
    refine (hready.due tx (hpending.mem_iff.mp htx)).resolve_left ?_
    rintro ⟨block, hblock, -⟩
    have hnone : block ∈ ([] : List Block) := howed ▸ hblock
    cases hnone
  have hsenders : (pending.map fun tx => tx.body.sender).Nodup := by
    refine (hpending.map _).nodup_iff.mpr (hready.consistent.nodup_senders
      (fun a => ((StateSnapshot.load b.node.disk.store).account a).nonce) fun hash tx htx => ?_)
    exact (hdue tx (hpending.mem_iff.mpr (Table.mem_values_iff.mpr ⟨hash, htx⟩))).2.nonce.symm
  -- The selection is a part of what is pending, in another order.
  have hselected : ∀ tx ∈ Mempool.selectForBlockPrioritized pending limit height,
      tx ∈ pending ∧ ¬ Mempool.Expired tx height := by
    intro tx htx
    have hsorted := List.mem_of_mem_take htx
    rw [List.mem_insertionSort, List.mem_filter, decide_eq_true_eq] at hsorted
    exact hsorted
  refine ExecutionEngine.admits_of_due (fun tx htx => (hdue tx (hselected tx htx).1).1)
    (fun tx htx => (hdue tx (hselected tx htx).1).2) (fun tx htx => (hselected tx htx).2) ?_
  have hsorted : (((pending.filter fun tx => ¬ Mempool.Expired tx height).insertionSort
      Mempool.PrecedesInBlock).map fun tx => tx.body.sender).Nodup :=
    (((List.perm_insertionSort _ _).map _).nodup_iff).mpr
      (hsenders.sublist (List.filter_sublist.map _))
  exact hsorted.sublist ((List.take_sublist _ _).map _)

omit [Revm] in
/-- The end of an epoch finds a record for every validator that it slashes. -/
lemma Ready.canSettle (h : Ready config b known) (height : ℕ) :
    ExecutionEngine.CanSettle config.engine b.node.disk.store height := by
  intro economics _ _ a ha
  have hkeyed := h.keyed.ensureValidators config.engine.validators
  obtain ⟨v, hv, rfl⟩ := List.mem_map.mp ha
  obtain ⟨a, hv⟩ := Table.mem_values_iff.mp (List.mem_filter.mp hv).1
  rw [hkeyed a v hv, hv]
  rfl

/-- **Block building.**  Let a node start with an empty mempool, and let every event spare what
is pending when it happens.  When the transactions of all committed blocks have been removed,
the dry run of a selection succeeds exactly if the payloads of the selection run, and the
selected transactions of each sender have consecutive nonces from the one of its account. -/
theorem run_selects {d : Disk} {zkPool : ShieldedPool} {events : List BuilderEvent}
    (hkeyed : (StakingSnapshot.load d.store).Keyed)
    (hinj : {tx | ∃ event ∈ events, tx ∈ event.transactions}.InjOn Transaction.id)
    (hspares : SparingRun config { node := { disk := d, zkPool } } events)
    (hrun : run config { node := { disk := d, zkPool } } events = b) (howed : b.owed = [])
    {limit height : ℕ} {selected : List Transaction} (hselects : b.Selects limit height selected)
    (proposer : Address) :
    ((∃ out d', config.engine.dryRunTransactions config.scheme height selected proposer
        b.node.disk = .ok out d') ↔
      ∃ results d', ExecutionEngine.RunsPayloads config.engine selected b.node.disk results d') ∧
    ∀ a, (ExecutionEngine.sentBy a selected).map (fun tx => tx.body.nonce) =
      List.range' ((StateSnapshot.load b.node.disk.store).account a).nonce
        (ExecutionEngine.sentBy a selected).length := by
  have hstart : Ready config { node := { disk := d, zkPool } }
      {tx | ∃ event ∈ events, tx ∈ event.transactions} := by
    refine ⟨Mempool.consistent_empty, fun hash tx htx => ?_, hkeyed, fun tx htx => ?_⟩
    · simp at htx
    · obtain ⟨hash, hpending⟩ := mem_pending.mp htx
      simp at hpending
  have hready := hstart.run hinj (fun event hevent tx htx => ⟨event, hevent, htx⟩) hspares
  rw [hrun] at hready
  have hadmits := hready.admits howed hselects
  refine ⟨⟨?_, ?_⟩, fun a => (ExecutionEngine.countsSent_replayNative hadmits a).2⟩
  · rintro ⟨⟨state, receipts⟩, d', hdry⟩
    obtain ⟨-, results, -, hpayloads, -⟩ := ExecutionEngine.dryRunTransactions_ok_iff.mp hdry
    exact ⟨results, d', hpayloads⟩
  · rintro ⟨results, d', hpayloads⟩
    have hevm := ExecutionEngine.onlyEvmWrites_of_runsPayloads hpayloads
    obtain ⟨⟨state, accounting⟩, haccounting⟩ :=
      (ExecutionEngine.applyBlockAccounting_ok d'.store
        (ExecutionEngine.replayNative selected (StateSnapshot.load b.node.disk.store)) proposer
        (ExecutionEngine.collectedFees selected 0) height).2.mpr
        ((ExecutionEngine.canSettle_congr hevm height).mpr (hready.canSettle height))
    exact ⟨_, d', ExecutionEngine.dryRunTransactions_ok_iff.mpr
      ⟨hadmits, results, accounting, hpayloads, rfl, haccounting⟩⟩

end Builder

/-! ## A transaction that is left behind -/

section

open Transparent ExecutionEngine

/-- A transfer of the key `1`. -/
def submitted : Transaction := payment [1] (address [9]) 5 0 10 none

/-- The next transfer of the key `1`. -/
def following : Transaction := payment [1] (address [9]) 5 1 10 none

/-- The first block, built by the key `2` from some transactions without payloads. -/
def blockOf (txs : List Transaction) : FinalizedBlock :=
  uncertified (propose faucetNode.engine funded [2] 1 0 0 txs)
    (receiptsOf 1 txs (txs.map fun _ => none))

/-- A transfer is submitted; a block with some transactions is committed, and they are removed. -/
def submitAndCommit (txs : List Transaction) : List BuilderEvent :=
  [.node (.submitTx submitted), .node (.imported (blockOf txs)), .removeCommitted (blockOf txs).block]

/-- The node before. -/
def builder : Builder := { node := { disk := funded } }

/-- What is selected is pending, as long as it fits and nothing has expired. -/
lemma selects_of_pending {b : Builder} {limit height : ℕ} {selected : List Transaction}
    (h : Mempool.selectForBlockPrioritized
      (Table.values (b.node.mempool.evictExpired height).byHash) limit height = selected) :
    b.Selects limit height selected := ⟨_, .refl _, h.symm⟩

/-- Another node has built a block with another transfer of the same nonce: the submitted
transfer stays in the mempool, is selected, and fails the dry run of every proposal. -/
theorem replaced_transfer_fails :
    let b := builder.run faucetNode (submitAndCommit [payment [1] (address [9]) 6 0 10 none])
    b.node.disk.committed.length = 1 ∧ b.owed = [] ∧
    b.Selects 10 2 [submitted] ∧
    (∃ results d', RunsPayloads faucetNode.engine [submitted] b.node.disk results d') ∧
    ∀ out d', faucetNode.engine.dryRunTransactions scheme 2 [submitted] (address [2])
      b.node.disk ≠ .ok out d' := by
  intro b
  have hkey : b.node.disk.committed.length = 1 ∧ b.owed = [] ∧
      Mempool.selectForBlockPrioritized (Table.values (b.node.mempool.evictExpired 2).byHash) 10 2 =
        [submitted] ∧
      (Handler.output (faucetNode.engine.dryRunTransactions scheme 2 [submitted] (address [2])
        b.node.disk)).isSome = false := by
    decide +kernel
  obtain ⟨hcommitted, howed, hselected, hdry⟩ := hkey
  refine ⟨hcommitted, howed, selects_of_pending hselected,
    ⟨[none], _, none, _, [], ⟨rfl, rfl⟩, ⟨rfl, rfl⟩, rfl⟩, fun out d' h => ?_⟩
  rw [h] at hdry
  cases hdry

/-- The submitted transfer is in the block, and the next one is submitted after it. -/
def honestRun : List BuilderEvent := submitAndCommit [submitted] ++ [.node (.submitTx following)]

/-- The next transfer is selected, and the dry run of the proposal succeeds. -/
theorem following_transfer_selected :
    let b := builder.run faucetNode honestRun
    b.Selects 10 2 [following] ∧
    (∃ out d', faucetNode.engine.dryRunTransactions scheme 2 [following] (address [2])
      b.node.disk = .ok out d') ∧
    ∀ a, (sentBy a [following]).map (fun tx => tx.body.nonce) =
      List.range' ((StateSnapshot.load b.node.disk.store).account a).nonce
        (sentBy a [following]).length := by
  intro b
  have hkey : Builder.SparingRun faucetNode builder honestRun ∧ b.owed = [] ∧
      Mempool.selectForBlockPrioritized (Table.values (b.node.mempool.evictExpired 2).byHash) 10 2 =
        [following] ∧ submitted.id ≠ following.id ∧
      (blockOf [submitted]).block.transactions = [submitted] := by
    decide +kernel
  obtain ⟨hspares, howed, hselected, hids, hblock⟩ := hkey
  have hinj : {tx | ∃ event ∈ honestRun, tx ∈ event.transactions}.InjOn Transaction.id := by
    have hknown : ∀ tx, (∃ event ∈ honestRun, tx ∈ event.transactions) →
        tx = submitted ∨ tx = following := by
      rintro tx ⟨event, hevent, htx⟩
      simp only [honestRun, submitAndCommit, List.cons_append, List.nil_append, List.mem_cons,
        List.not_mem_nil, or_false] at hevent
      rcases hevent with rfl | rfl | rfl | rfl
      · exact .inl (List.mem_singleton.mp htx)
      · cases htx
      · rw [BuilderEvent.transactions, hblock] at htx
        exact .inl (List.mem_singleton.mp htx)
      · exact .inr (List.mem_singleton.mp htx)
    intro tx htx tx' htx' hid
    rcases hknown tx htx with rfl | rfl <;> rcases hknown tx' htx' with rfl | rfl
    · rfl
    · exact absurd hid hids
    · exact absurd hid.symm hids
    · rfl
  have hselects := selects_of_pending hselected
  have hkeyed : (StakingSnapshot.load funded.store).Keyed := fun a v hv => by cases hv
  obtain ⟨hiff, hnonces⟩ := Builder.run_selects hkeyed hinj hspares rfl howed hselects (address [2])
  exact ⟨hselects, hiff.mpr ⟨[none], _, none, _, [], ⟨rfl, rfl⟩, ⟨rfl, rfl⟩, rfl⟩, hnonces⟩

end

end ZenoChain
