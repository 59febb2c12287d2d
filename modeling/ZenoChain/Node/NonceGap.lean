/-
# Nonce gaps

The mempool refuses a nonce that is too far above the highest one that it has seen of the sender.
It forgets what it has seen when the node restarts, and it does not see the transactions of blocks
that other nodes have built.  An account whose nonce stays within reach of what the mempool has
seen is never refused for a gap.
-/
import ZenoChain.Base.Trace
import ZenoChain.Execution.Nonces
import ZenoChain.Node.CommittedRoot

namespace ZenoChain

open Word ExecutionEngine

/-! ## The highest nonces that a mempool has seen -/

namespace Mempool

/-- The highest nonce of a sender that the mempool has seen. -/
def highest (m : Mempool) (sender : Address) : ℕ := m.highestNonce.getD sender 0

/-- The highest nonce of a sender that is not too far ahead. -/
def reach (m : Mempool) (sender : Address) : ℕ := saturatingAdd 64 (m.highest sender) maxPerSender

variable {m m' : Mempool} {tx : Transaction}

lemma highest_of_eq (h : m'.highestNonce = m.highestNonce) (sender : Address) :
    m'.highest sender = m.highest sender := by
  rw [highest, h, highest]

lemma highest_enter (m : Mempool) (tx : Transaction) (hash : Hash32) (isReplacement : Bool)
    (sender : Address) : m.highest sender ≤ (m.enter tx hash isReplacement).highest sender := by
  rw [highest, highest, enter, Std.ExtTreeMap.getD_insert]
  split
  · rename_i heq
    obtain rfl := Std.LawfulEqCmp.compare_eq_iff_eq.mp heq
    exact Nat.le_max_right _ _
  · exact le_rfl

lemma highestNonce_removeReplaced (hash : Hash32) :
    (∃ m', m.removeReplaced tx hash = .ok m' ∧ m'.highestNonce = m.highestNonce) ∨
      ∃ err, m.removeReplaced tx hash = .error err ∧ ∀ n k, err ≠ .nonceGap n k := by
  rw [removeReplaced]
  rcases m.byHash[hash]? with _ | existing
  · exact .inr ⟨_, rfl, nofun⟩
  · dsimp only
    split
    · exact .inr ⟨_, rfl, nofun⟩
    · exact .inl ⟨_, rfl, rfl⟩

lemma highestNonce_makeRoom (m : Mempool) (tx : Transaction) :
    (∃ m', m.makeRoom tx = .ok m' ∧ m'.highestNonce = m.highestNonce) ∨
      ∃ err, m.makeRoom tx = .error err ∧ ∀ n k, err ≠ .nonceGap n k := by
  rw [makeRoom]
  split_ifs
  · exact .inl ⟨_, rfl, rfl⟩
  · rcases m.order.toList.head? with _ | ⟨⟨lowestFee, lowestHash⟩, _⟩
    · exact .inr ⟨_, rfl, nofun⟩
    · dsimp only
      split_ifs
      · exact .inr ⟨_, rfl, nofun⟩
      · rcases m.byHash[lowestHash]? with _ | evicted
        · exact .inl ⟨_, rfl, rfl⟩
        · dsimp only
          rcases m.bySenderCount[evicted.body.sender]? with _ | count
          · exact .inr ⟨_, rfl, nofun⟩
          · exact .inl ⟨_, rfl, rfl⟩

/-- An insertion enters the transaction, or it fails; and it fails for a gap only where the nonce
is out of reach. -/
lemma insert_cases [Hashing] (m : Mempool) (tx : Transaction) :
    (∃ (m₁ : Mempool) (isReplacement : Bool), m₁.highestNonce = m.highestNonce ∧
      m.insert tx = .ok (m₁.enter tx tx.id isReplacement)) ∨
    ∃ err, m.insert tx = .error err ∧
      ∀ n k, err = .nonceGap n k → m.reach tx.body.sender < tx.body.nonce := by
  simp only [insert]
  split_ifs
  · exact .inr ⟨_, rfl, nofun⟩
  · rcases m.bySenderNonce[(tx.body.sender, tx.body.nonce)]? with _ | existingHash
    · dsimp only
      rcases hsender : m.checkSender tx with err | ⟨⟩
      · refine .inr ⟨err, rfl, ?_⟩
        rintro n k rfl
        rw [checkSender] at hsender
        split_ifs at hsender with hmany hgap
        · cases hsender
        · exact hgap
      · rcases m.highestNonce_makeRoom tx with ⟨m₁, hroom, hsame⟩ | ⟨err, hroom, hother⟩
        · rw [hroom]
          exact .inl ⟨m₁, false, hsame, rfl⟩
        · rw [hroom]
          exact .inr ⟨err, rfl, fun n k heq => absurd heq (hother n k)⟩
    · dsimp only
      rcases m.highestNonce_removeReplaced existingHash with
        ⟨m₁, hreplaced, hsame⟩ | ⟨err, hreplaced, hother⟩
      · rw [hreplaced]
        exact .inl ⟨m₁, true, hsame, rfl⟩
      · rw [hreplaced]
        exact .inr ⟨err, rfl, fun n k heq => absurd heq (hother n k)⟩

/-- What has been seen is not forgotten by an insertion. -/
lemma highest_le_insert [Hashing] (h : m.insert tx = .ok m') (sender : Address) :
    m.highest sender ≤ m'.highest sender := by
  rcases m.insert_cases tx with ⟨m₁, isReplacement, hsame, hrun⟩ | ⟨err, hrun, -⟩
  · rw [hrun] at h
    cases h
    rw [← highest_of_eq hsame]
    exact highest_enter _ _ _ _ _
  · rw [hrun] at h
    cases h

/-- Nor by a removal. -/
lemma highestNonce_discard (m : Mempool) (hash : Hash32) (tx : Transaction) :
    (m.discard hash tx).highestNonce = m.highestNonce := by
  rw [discard]
  split <;> rfl

lemma highestNonce_removeCommitted [Hashing] (m : Mempool) (txs : List Transaction) :
    (m.removeCommitted txs).highestNonce = m.highestNonce := by
  rw [removeCommitted]
  induction txs generalizing m with
  | nil => rfl
  | cons tx txs ih => rw [List.foldl_cons, ih, highestNonce_discard]

lemma highestNonce_evictExpired (m : Mempool) (height : ℕ) :
    (m.evictExpired height).highestNonce = m.highestNonce := by
  rw [evictExpired]
  generalize (m.byHash.toList.filter fun e => Expired e.2 height).map Prod.fst = hashes
  induction hashes generalizing m with
  | nil => rfl
  | cons hash hashes ih =>
    rw [List.foldl_cons, ih]
    split
    · rfl
    · exact highestNonce_discard _ _ _

lemma reach_mono (h : ∀ sender, m.highest sender ≤ m'.highest sender) (sender : Address) :
    m.reach sender ≤ m'.reach sender := by
  have hle := h sender
  rw [reach, reach, saturatingAdd, saturatingAdd]
  omega

end Mempool

/-! ## The nonces of a node -/

/-- What happens to the accounts and to the mempool of a node: its events, transactions from peers,
removals from the mempool, and restarts, which write the governance and the staking state back. -/
inductive PoolEvent
  | node (event : NodeEvent)
  | gossiped (tx : Transaction)
  | removeCommitted (transactions : List Transaction)
  | evictExpired (height : ℕ)
  | restart (governance : GovernanceState) (staking : StakingState)

namespace Node

/-- The nonce of an account. -/
def nonce (n : Node) (a : Address) : ℕ := (StateSnapshot.account n.disk.store.accounts a).nonce

/-- Every account's nonce is within reach of what the mempool has seen of it. -/
def WithinReach (n : Node) : Prop := ∀ a, n.nonce a ≤ n.mempool.reach a

section

variable [Hashing] [Revm] (config : NodeConfig)

/-- The node after an event. -/
def live (n : Node) : PoolEvent → Node
  | .node event => n.handle config event
  | .gossiped tx =>
    match n.mempool.insert tx with
    | .ok mempool => { n with mempool }
    | .error _ => n
  | .removeCommitted transactions => { n with mempool := n.mempool.removeCommitted transactions }
  | .evictExpired height => { n with mempool := n.mempool.evictExpired height }
  | .restart governance staking =>
    { disk := n.disk.recordAll
        [.write (.putGovernanceState governance), .write (.putStakingState staking)] }

/-- The event leaves the nonces within reach: if a block is committed, the nonces of its
transactions are below what the mempool reaches, and at a restart no nonce is above the first
reach. -/
def KeepsReach (n : Node) : PoolEvent → Prop
  | .node (.imported finalized) =>
    (∃ d', config.engine.validateAndCommitFinalizedBlock config.scheme finalized n.disk =
      .ok ⟨⟩ d') →
    ∀ tx ∈ finalized.block.transactions, tx.body.nonce < n.mempool.reach tx.body.sender
  | .node (.finalized block certificate) =>
    (∃ d', executeAndCommit config.engine config.scheme block certificate n.disk = .ok ⟨⟩ d') →
    ∀ tx ∈ block.transactions, tx.body.nonce < n.mempool.reach tx.body.sender
  | .restart _ _ => ∀ a, n.nonce a ≤ maxPerSender
  | _ => True

variable {config} {n : Node}

omit [Hashing] [Revm] in
/-- An event that changes no nonce and forgets nothing. -/
lemma WithinReach.of_same (h : n.WithinReach) {n' : Node} (hnonce : ∀ a, n'.nonce a = n.nonce a)
    (hhighest : ∀ a, n.mempool.highest a ≤ n'.mempool.highest a) : n'.WithinReach := by
  intro a
  rw [hnonce]
  exact (h a).trans (Mempool.reach_mono hhighest a)

omit [Hashing] [Revm] in
/-- A block that is committed adds its transactions to the nonces, and leaves them within reach
exactly if each of its nonces is below what the mempool reaches. -/
lemma WithinReach.countsSent_iff (h : n.WithinReach) {n' : Node} {txs : List Transaction}
    (hcounts : CountsSent n.disk.store.accounts txs n'.disk.store.accounts)
    (hmempool : n'.mempool = n.mempool) :
    n'.WithinReach ↔ ∀ tx ∈ txs, tx.body.nonce < n.mempool.reach tx.body.sender := by
  constructor
  · intro h' tx htx
    obtain ⟨hnonce, hrange⟩ := hcounts tx.body.sender
    have hsent : tx.body.nonce ∈ (sentBy tx.body.sender txs).map fun tx => tx.body.nonce :=
      List.mem_map_of_mem (List.mem_filter.mpr ⟨htx, decide_eq_true rfl⟩)
    rw [hrange, List.mem_range'_1] at hsent
    have hle := h' tx.body.sender
    rw [nonce, hnonce, hmempool] at hle
    omega
  · intro hblock a
    obtain ⟨hnonce, hrange⟩ := hcounts a
    rw [nonce, hnonce, hmempool]
    rcases Nat.eq_zero_or_pos (sentBy a txs).length with hzero | hpos
    · rw [hzero]
      exact h a
    · -- The last transaction that the account has sent has the nonce before the new one.
      have hlast : (StateSnapshot.account n.disk.store.accounts a).nonce +
          ((sentBy a txs).length - 1) ∈ (sentBy a txs).map fun tx => tx.body.nonce := by
        rw [hrange, List.mem_range'_1]
        omega
      obtain ⟨tx, htx, heq⟩ := List.mem_map.mp hlast
      obtain ⟨hmem, hsender⟩ := List.mem_filter.mp htx
      have hlt := hblock tx hmem
      rw [of_decide_eq_true hsender] at hlt
      omega

/-- A block that the node learns from a peer. -/
lemma WithinReach.imported_iff (h : n.WithinReach) (finalized : FinalizedBlock) :
    (n.handle config (.imported finalized)).WithinReach ↔
      n.KeepsReach config (.node (.imported finalized)) := by
  have hnode : n.handle config (.imported finalized) =
      n.onDisk (config.engine.validateAndCommitFinalizedBlock config.scheme finalized) := rfl
  rw [hnode, onDisk, KeepsReach]
  rcases hrun : config.engine.validateAndCommitFinalizedBlock config.scheme finalized n.disk with
    ⟨⟨⟩, d'⟩ | ⟨err, d'⟩
  · obtain ⟨p, d₁, hp, hc⟩ := commitsTo_of_validateAndCommit hrun
    have hcounts : CountsSent n.disk.store.accounts finalized.block.transactions
        d'.store.accounts := by
      rw [hc.accounts]
      exact countsSent_prepareBlock (prepareBlock_ok_iff.mpr hp)
    have hiff := WithinReach.countsSent_iff h hcounts (rfl : ({ n with disk := d' } : Node).mempool = _)
    exact ⟨fun h' _ => hiff.mp h', fun hblock => hiff.mpr (hblock ⟨d', rfl⟩)⟩
  · refine ⟨fun _ hex => ?_, fun _ => h.of_same (fun a => ?_) fun a => le_rfl⟩
    · obtain ⟨_, heq⟩ := hex
      cases heq
    · show (StateSnapshot.account d'.store.accounts a).nonce = n.nonce a
      rw [(onlyEvmWrites_of_error hrun).same.1, nonce]

/-- A block that the node has agreed on. -/
lemma WithinReach.finalized_iff (h : n.WithinReach) (block : Block)
    (certificate : CommitCertificate) :
    (n.handle config (.finalized block certificate)).WithinReach ↔
      n.KeepsReach config (.node (.finalized block certificate)) := by
  have hnode : n.handle config (.finalized block certificate) =
      n.onDisk (executeAndCommit config.engine config.scheme block certificate) := rfl
  rw [hnode, onDisk, KeepsReach]
  rcases hrun : executeAndCommit config.engine config.scheme block certificate n.disk with
    ⟨⟨⟩, d'⟩ | ⟨err, d'⟩
  · obtain ⟨p, d₁, finalized, hp, -, hc⟩ := commitsTo_of_executeAndCommit hrun
    have hcounts : CountsSent n.disk.store.accounts block.transactions d'.store.accounts := by
      rw [hc.accounts]
      exact countsSent_prepareBlock (prepareBlock_ok_iff.mpr hp)
    have hiff := WithinReach.countsSent_iff h hcounts (rfl : ({ n with disk := d' } : Node).mempool = _)
    exact ⟨fun h' _ => hiff.mp h', fun hblock => hiff.mpr (hblock ⟨d', rfl⟩)⟩
  · refine ⟨fun _ hex => ?_, fun _ => h.of_same (fun a => ?_) fun a => le_rfl⟩
    · obtain ⟨_, heq⟩ := hex
      cases heq
    · show (StateSnapshot.account d'.store.accounts a).nonce = n.nonce a
      rw [(onlyEvmWrites_of_executeAndCommit_error hrun).same.1, nonce]

omit [Revm] in
/-- The faucet moves balances only. -/
lemma nonce_faucetSend (faucet : Option (Except String Address)) (recipient : Address)
    (amount : ℕ) (d : Disk) (a : Address) :
    (StateSnapshot.account
      (Handler.final (ZenoChain.faucetSend faucet recipient amount d)).store.accounts a).nonce =
      (StateSnapshot.account d.store.accounts a).nonce := by
  rw [ZenoChain.faucetSend.eq_def]
  split_ifs
  · rfl
  · rfl
  · rcases faucet with _ | (err | faucetAddress)
    · exact nonce_credit d.store.accounts recipient amount a
    · rfl
    · dsimp only
      rw [Handler.bind_ok (readStore_run d)]
      split_ifs
      · rfl
      · rw [Handler.bind_ok (write_run _ d)]
        set left : Account := { StateSnapshot.account d.store.accounts faucetAddress with
          balance := saturatingSub (StateSnapshot.account d.store.accounts faucetAddress).balance
            amount }
        have hsame : left.nonce = (StateSnapshot.account d.store.accounts faucetAddress).nonce := rfl
        show ((credit (StateSnapshot.putAccount d.store.accounts faucetAddress left) recipient
          amount).account a).nonce = (StateSnapshot.account d.store.accounts a).nonce
        rw [nonce_credit, nonce_putAccount _ hsame]

/-- RPC calls change no nonce, and a submission only adds to what the mempool has seen. -/
lemma WithinReach.handle_iff (h : n.WithinReach) (event : NodeEvent) :
    (n.handle config event).WithinReach ↔ n.KeepsReach config (.node event) := by
  cases event with
  | imported finalized => exact h.imported_iff finalized
  | finalized block certificate => exact h.finalized_iff block certificate
  | faucetSend faucet recipient amount =>
    refine iff_of_true (h.of_same (fun a => ?_) fun a => le_rfl) trivial
    show (StateSnapshot.account (Handler.final (ZenoChain.faucetSend faucet recipient amount
      n.disk)).store.accounts a).nonce = n.nonce a
    rw [nonce_faucetSend, nonce]
  | zkShield request => exact iff_of_true h trivial
  | zkUnshield request =>
    refine iff_of_true ?_ trivial
    rw [Node.handle]
    split
    · exact h
    · exact h.of_same (fun a => nonce_credit n.disk.store.accounts _ _ a) fun a => le_rfl
  | registerValidator request =>
    refine iff_of_true (h.of_same (fun a => ?_) fun a => le_rfl) trivial
    show (StateSnapshot.account (Handler.final (ZenoChain.registerValidator config request
      n.disk)).store.accounts a).nonce = n.nonce a
    rw [registerValidator_same.1, nonce]
  | submitTx tx =>
    refine iff_of_true ?_ trivial
    rw [Node.handle]
    split
    · exact h
    · split
      · exact h
      · rename_i mempool hinsert
        exact h.of_same (fun a => rfl) fun a => Mempool.highest_le_insert hinsert a

/-- **What keeps the nonces within reach** of the mempool: exactly the events whose nonces do not
run ahead of what the mempool has seen. -/
theorem WithinReach.live_iff (h : n.WithinReach) (event : PoolEvent) :
    (n.live config event).WithinReach ↔ n.KeepsReach config event := by
  cases event with
  | node event =>
    rw [live]
    exact h.handle_iff event
  | gossiped tx =>
    refine iff_of_true ?_ trivial
    rw [Node.live]
    split
    · rename_i mempool hinsert
      exact h.of_same (fun a => rfl) fun a => Mempool.highest_le_insert hinsert a
    · exact h
  | removeCommitted transactions =>
    exact iff_of_true (h.of_same (fun a => rfl) fun a =>
      (Mempool.highest_of_eq (Mempool.highestNonce_removeCommitted _ _) a).ge) trivial
  | evictExpired height =>
    exact iff_of_true (h.of_same (fun a => rfl) fun a =>
      (Mempool.highest_of_eq (Mempool.highestNonce_evictExpired _ _) a).ge) trivial
  | restart governance staking =>
    -- An empty mempool has seen no nonce of any sender.
    have hempty : ∀ a, ({} : Mempool).reach a = maxPerSender := fun a => rfl
    exact forall_congr' fun a => by
      rw [← hempty a]
      rfl

omit [Revm] in
/-- Within reach, the nonce that the account has next is no gap. -/
lemma WithinReach.insert_ne_nonceGap (h : n.WithinReach) {height : ℕ} {tx : Transaction}
    (hvalid : config.engine.validateTransaction config.scheme (StateSnapshot.load n.disk.store)
      height tx = .ok ()) (expected actual : ℕ) :
    n.mempool.insert tx ≠ .error (.nonceGap expected actual) := by
  intro hgap
  rcases n.mempool.insert_cases tx with ⟨_, _, -, hrun⟩ | ⟨err, hrun, hreach⟩
  · rw [hrun] at hgap
    cases hgap
  · rw [hrun] at hgap
    have hlt := hreach expected actual (Except.error.inj hgap)
    have hnonce : n.nonce tx.body.sender = tx.body.nonce := nonce_of_validateTransaction hvalid
    have hle := h tx.body.sender
    omega

end

section

variable [Hashing] [Revm]

/-- No transaction that is valid on the stored accounts is refused for a gap of its nonce. -/
def RefusesNoGap (config : NodeConfig) (n : Node) : Prop :=
  ∀ (height : ℕ) (tx : Transaction) (expected actual : ℕ),
    config.engine.validateTransaction config.scheme (StateSnapshot.load n.disk.store) height tx =
      .ok () →
    n.mempool.insert tx ≠ .error (.nonceGap expected actual)

/-- **Nonce gaps.**  Take a run of a node that starts with all nonces within reach of what its
mempool has seen, whose blocks carry only nonces below what the mempool reaches, and which restarts
only while no nonce is above the first reach.  In every state that the run meets, no transaction
that is valid on the stored accounts is refused for a gap. -/
theorem run_refusesNoGap (config : NodeConfig) {n : Node} {events : List PoolEvent}
    (h : n.WithinReach)
    (hall : ∀ e ∈ Trace.along (live config) n events, e.1.KeepsReach config e.2) :
    (∀ e ∈ Trace.along (live config) n events, e.1.RefusesNoGap config) ∧
      (events.foldl (live config) n).RefusesNoGap config := by
  have hstep : ∀ (m : Node) (event : PoolEvent), m.WithinReach → m.KeepsReach config event →
      (m.live config event).WithinReach := fun _ event hreach hevent =>
    (hreach.live_iff event).mpr hevent
  obtain ⟨hmet, hend⟩ := Trace.keeps hstep h hall
  refine ⟨fun e he => ?_, ?_⟩
  · intro height tx expected actual hvalid
    exact (hmet e he).insert_ne_nonceGap hvalid expected actual
  · intro height tx expected actual hvalid
    exact hend.insert_ne_nonceGap hvalid expected actual

end

end Node

/-! ## A block from a peer, and a restart -/

section

open Transparent

/-- A store on which an account has nonce 64. -/
def seasoned : Disk :=
  { store :=
      { backend := .memory
        accounts :=
        (∅ : BTreeMap Address Account).insert (address [1]) { nonce := 64, balance := 100 } } }

/-- The payment of the account at a nonce. -/
def seasonedPayment (nonce : ℕ) : Transaction := payment [1] (address [9]) 5 nonce 10 none

/-- The block with the account's payment at nonce 64, as a peer has built it. -/
def seasonedBlock : FinalizedBlock :=
  uncertified (propose faucetNode.engine seasoned [2] 1 0 0 [seasonedPayment 64])
    (receiptsOf 1 [seasonedPayment 64] [none])

/-- The account's payment is submitted before the block with it comes in. -/
def submitAndLearn : List PoolEvent :=
  [.node (.submitTx (seasonedPayment 64)), .node (.imported seasonedBlock),
   .removeCommitted [seasonedPayment 64]]

/-- A transaction that is valid and refused for a gap. -/
def GapAt (n : Node) (tx : Transaction) : Bool :=
  (faucetNode.engine.validateTransaction scheme (StateSnapshot.load n.disk.store) 2 tx).isOk &&
    match n.mempool.insert tx with
    | .error (.nonceGap 64 65) => true
    | _ => false

lemma GapAt.not_refusesNoGap {n : Node} {tx : Transaction} (h : GapAt n tx) :
    ¬ n.RefusesNoGap faucetNode := by
  intro hnone
  obtain ⟨hvalid, hgap⟩ := Bool.and_eq_true_iff.mp h
  have hok : faucetNode.engine.validateTransaction scheme (StateSnapshot.load n.disk.store) 2 tx =
      .ok () := by
    rcases hrun : faucetNode.engine.validateTransaction scheme (StateSnapshot.load n.disk.store) 2
      tx with err | ⟨⟩
    · rw [hrun] at hvalid
      cases hvalid
    · rfl
  refine hnone 2 tx 64 65 hok ?_
  split at hgap
  · assumption
  · cases hgap

/-- A mempool that has not seen the payment at nonce 64, since it came in a block of a peer or
since the node has restarted after it, refuses the payment at nonce 65. -/
theorem learned_block_leaves_gap :
    ¬ ([PoolEvent.node (.imported seasonedBlock)].foldl (Node.live faucetNode)
      { disk := seasoned }).RefusesNoGap faucetNode ∧
    ¬ ((submitAndLearn ++ [PoolEvent.restart (.new faucetNode.genesis.economics) {}]).foldl
      (Node.live faucetNode) { disk := seasoned }).RefusesNoGap faucetNode := by
  -- Both nodes execute the block of the peer: they are evaluated together.
  have hgaps : GapAt ([PoolEvent.node (.imported seasonedBlock)].foldl (Node.live faucetNode)
        { disk := seasoned }) (seasonedPayment 65) ∧
      GapAt ((submitAndLearn ++
          [PoolEvent.restart (.new faucetNode.genesis.economics) {}]).foldl
        (Node.live faucetNode) { disk := seasoned }) (seasonedPayment 65) := by
    decide +kernel
  exact ⟨GapAt.not_refusesNoGap hgaps.1, GapAt.not_refusesNoGap hgaps.2⟩

/-- As long as the node runs, the mempool has seen the payment at nonce 64. -/
theorem submitted_block_leaves_no_gap :
    (submitAndLearn.foldl (Node.live faucetNode) { disk := seasoned }).RefusesNoGap faucetNode := by
  refine (Node.run_refusesNoGap faucetNode (fun a => ?_) ?_).2
  · have hreach : ({ disk := seasoned : Node }).mempool.reach a = 64 := rfl
    have hnonce : ({ disk := seasoned : Node }).nonce a = if a = address [1] then 64 else 0 := by
      rw [Node.nonce, StateSnapshot.account, seasoned, Table.getElem?_insert]
      split <;> rfl
    rw [hreach, hnonce]
    split <;> omega
  · simp only [submitAndLearn, Trace.along, List.forall_mem_cons]
    refine ⟨trivial, ?_, trivial, List.forall_mem_nil _⟩
    -- Only the block learned in the second step has to be below the reach.
    intro _
    decide +kernel

end

end ZenoChain
