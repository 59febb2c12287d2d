/-
# Proposal validation

The check of an incoming proposal, with its own simulation of the block's transactions, and
how it compares with the execution of the block.  The simulation saturates where the
execution refuses, wraps nonces, runs no EVM payload and computes no root.
-/
import ZenoChain.Execution.Replay
import ZenoChain.Execution.Transparent

namespace ZenoChain

open Word ExecutionEngine

/-- The state of the simulation after a transaction whose total could be subtracted. -/
def simulated (state : StateSnapshot) (body : TransactionBody) (balance : ℕ) : StateSnapshot :=
  let sender := state.account body.sender
  let state := state.putAccount body.sender { nonce := wrappingAdd 64 sender.nonce 1, balance }
  if body.evm.isNone then creditRecipient state body else state

/-- The checks of a proposed transaction that follow its simulation. -/
def checkProposedTransaction (scheme : SignatureScheme) (chainId : ChainId) (height : ℕ)
    (tx : Transaction) : Except String Unit := do
  let derived ← (senderFromPublicKey scheme tx.publicKey).mapError
    fun err => "proposal sender derivation failed: " ++ err.toText
  if derived ≠ tx.body.sender then throw "proposal transaction sender mismatch"
  else
    let _ ← (verifyTransaction scheme chainId tx height).mapError
      fun err => "proposal transaction signature invalid: " ++ err.toText
    if tx.body.encode = [] then
      throw "proposal transaction canonical bytes unexpectedly empty"
    else return ()

/-- The transaction loop of `validate_incoming_proposal`. -/
def simulateTransactions (scheme : SignatureScheme) (chainId : ChainId)
    (execution : ExecutionEngine) (height : ℕ) :
    List Transaction → StateSnapshot → Except String StateSnapshot
  | [], state => .ok state
  | tx :: txs, state =>
    match execution.validateTransaction scheme state height tx with
    | .error err => .error ("proposal contains invalid transaction: " ++ err.toText)
    | .ok () =>
      match checkedSub (state.account tx.body.sender).balance
          (saturatingAdd 128 tx.body.amount tx.body.fee) with
      | none => .error "proposal sender underflow"
      | some balance =>
        match checkProposedTransaction scheme chainId height tx with
        | .error err => .error err
        | .ok () =>
          simulateTransactions scheme chainId execution height txs
            (simulated state tx.body balance)

/-- Validates a proposal of the expected proposer on a store. -/
def validateIncomingProposal [Hashing] (scheme : SignatureScheme) (expected : Validator)
    (proposal : Proposal) (chainId : ChainId) (store : Store) (execution : ExecutionEngine)
    (maxTransactionsPerBlock : ℕ) : Except String Unit :=
  let header := proposal.block.header
  if expected.address ≠ proposal.validatorAddress then .error "proposal from unexpected proposer"
  else if header.proposer ≠ expected.address then .error "proposal block header proposer mismatch"
  else if proposal.block.proposerPublicKey ≠ expected.publicKey then
    .error "proposal public key does not match validator set"
  else if header.chainId ≠ chainId then .error "proposal chain id mismatch"
  else if header.height ≠ proposal.height then .error "proposal height/header mismatch"
  else if header.round ≠ proposal.round then .error "proposal round/header mismatch"
  else if maxTransactionsPerBlock < proposal.block.transactions.length then
    .error "proposal exceeds transaction limit"
  else if header.parentHash ≠ store.latestHash then .error "proposal parent hash mismatch"
  else
    match verifyBlock scheme proposal.block with
    | .error _ => .error "invalid proposal block signature"
    | .ok () =>
      (simulateTransactions scheme chainId execution proposal.height proposal.block.transactions
        (StateSnapshot.load store)).map fun _ => ()

/-! ## What acceptance says -/

section

variable [Hashing] {scheme : SignatureScheme} {expected : Validator} {proposal : Proposal}
  {chainId : ChainId} {store : Store} {execution : ExecutionEngine} {maxTransactions : ℕ}

/-- What an accepted proposal has been checked for. -/
structure AcceptsProposal (scheme : SignatureScheme) (expected : Validator) (proposal : Proposal)
    (chainId : ChainId) (store : Store) (execution : ExecutionEngine) (maxTransactions : ℕ) :
    Prop where
  validator : proposal.validatorAddress = expected.address
  proposer : proposal.block.header.proposer = expected.address
  publicKey : proposal.block.proposerPublicKey = expected.publicKey
  chain : proposal.block.header.chainId = chainId
  height : proposal.block.header.height = proposal.height
  round : proposal.block.header.round = proposal.round
  count : proposal.block.transactions.length ≤ maxTransactions
  parent : proposal.block.header.parentHash = store.latestHash
  verified : verifyBlock scheme proposal.block = .ok ()
  simulation : ∃ state, simulateTransactions scheme chainId execution proposal.height
    proposal.block.transactions (StateSnapshot.load store) = .ok state

/-- **The proposals that are accepted.** -/
theorem validateIncomingProposal_ok (h : validateIncomingProposal scheme expected proposal chainId
    store execution maxTransactions = .ok ()) :
    AcceptsProposal scheme expected proposal chainId store execution maxTransactions := by
  rw [validateIncomingProposal] at h
  split_ifs at h with h₁ h₂ h₃ h₄ h₅ h₆ h₇ h₈
  split at h
  · cases h
  · rename_i hverify
    rcases hsim : simulateTransactions scheme chainId execution proposal.height
      proposal.block.transactions (StateSnapshot.load store) with err | state
    · rw [hsim] at h
      cases h
    · exact ⟨(not_not.mp h₁).symm, not_not.mp h₂, not_not.mp h₃, not_not.mp h₄, not_not.mp h₅,
        not_not.mp h₆, not_lt.mp h₇, not_not.mp h₈, hverify, state, hsim⟩

end

section

variable {scheme : SignatureScheme} {chainId : ChainId} {execution : ExecutionEngine} {height : ℕ}

lemma simulateTransactions_cons_ok {tx : Transaction} {txs : List Transaction}
    {state state' : StateSnapshot}
    (h : simulateTransactions scheme chainId execution height (tx :: txs) state = .ok state') :
    execution.validateTransaction scheme state height tx = .ok () ∧
    ∃ balance, checkedSub (state.account tx.body.sender).balance
        (saturatingAdd 128 tx.body.amount tx.body.fee) = some balance ∧
      simulateTransactions scheme chainId execution height txs (simulated state tx.body balance) =
        .ok state' := by
  rw [simulateTransactions] at h
  split at h
  · cases h
  · rename_i hvalid
    split at h
    · cases h
    · rename_i balance hsub
      split at h
      · cases h
      · exact ⟨hvalid, balance, hsub, h⟩

/-- Where the total and the nonce fit, the simulation of a transaction is its execution. -/
lemma debitSender_of_simulated {state : StateSnapshot} {tx : Transaction} {balance : ℕ}
    (hvalid : execution.validateTransaction scheme state height tx = .ok ())
    (hsub : checkedSub (state.account tx.body.sender).balance
      (saturatingAdd 128 tx.body.amount tx.body.fee) = some balance)
    (hsum : tx.body.amount + tx.body.fee < 2 ^ 128) (hnonce : tx.body.nonce + 1 < 2 ^ 64) :
    ∃ debited, debitSender state tx.body = .ok debited ∧
      afterDebit debited tx = simulated state tx.body balance := by
  rw [saturatingAdd_of_lt hsum] at hsub
  obtain ⟨hle, rfl⟩ := checkedSub_eq_some_iff.mp hsub
  have hsame := nonce_of_validateTransaction hvalid
  refine ⟨_, debitSender_ok_iff.mpr ⟨hsum, hle, hsame ▸ hnonce, rfl⟩, ?_⟩
  rw [simulated, wrappingAdd_of_lt (hsame ▸ hnonce), afterDebit]

/-- Simulated transactions whose totals and nonces fit are admitted by the execution. -/
lemma admits_of_simulateTransactions {txs : List Transaction} {state state' : StateSnapshot}
    (h : simulateTransactions scheme chainId execution height txs state = .ok state')
    (hsums : ∀ tx ∈ txs, tx.body.amount + tx.body.fee < 2 ^ 128)
    (hnonces : ∀ tx ∈ txs, tx.body.nonce + 1 < 2 ^ 64) :
    Admits execution scheme height txs state := by
  induction txs generalizing state with
  | nil => trivial
  | cons tx txs ih =>
    obtain ⟨hvalid, balance, hsub, hrest⟩ := simulateTransactions_cons_ok h
    rw [List.forall_mem_cons] at hsums hnonces
    obtain ⟨debited, hdebit, hafter⟩ :=
      debitSender_of_simulated hvalid hsub hsums.1 hnonces.1
    refine ⟨hvalid, debited, hdebit, ?_⟩
    rw [hafter]
    exact ih hrest hsums.2 hnonces.2

/-- Admitted transactions have totals and nonces that fit. -/
lemma fits_of_admits {txs : List Transaction} {state : StateSnapshot}
    (h : Admits execution scheme height txs state) :
    ∀ tx ∈ txs, tx.body.amount + tx.body.fee < 2 ^ 128 ∧ tx.body.nonce + 1 < 2 ^ 64 := by
  induction txs generalizing state with
  | nil => exact nofun
  | cons tx txs ih =>
    obtain ⟨hvalid, debited, hdebit, hrest⟩ := h
    obtain ⟨hsum, -, hnonce, -⟩ := debitSender_ok_iff.mp hdebit
    rw [nonce_of_validateTransaction hvalid] at hnonce
    exact List.forall_mem_cons.mpr ⟨⟨hsum, hnonce⟩, ih hrest⟩

end

/-! ## Accepted proposals that execute -/

/-- What the validation of a proposal leaves unchecked and the execution of its block needs:
totals and nonces that fit, payloads that run, the three roots, and at the end of an epoch
stale records that name validators. -/
structure Executable [Hashing] [Revm] (execution : ExecutionEngine) (d : Disk) (block : Block) :
    Prop where
  sums : ∀ tx ∈ block.transactions, tx.body.amount + tx.body.fee < 2 ^ 128
  nonces : ∀ tx ∈ block.transactions, tx.body.nonce + 1 < 2 ^ 64
  payloads : ∃ results d', RunsPayloads execution block.transactions d results d' ∧
    block.header.receiptRoot =
      receiptRoot (receiptsOf block.header.height block.transactions results)
  txRoot : block.header.txRoot = transactionRoot block.transactions
  stateRoot : block.header.stateRoot = (payFees execution
    (replayNative block.transactions (StateSnapshot.load d.store)) block.header.proposer
    (collectedFees block.transactions 0)).stateRoot
  settles : CanSettle execution d.store block.header.height

section

variable [Hashing] [Revm] {scheme : SignatureScheme} {execution : ExecutionEngine}

/-- **Validation against execution.**  A block whose proposal has been accepted on a store is
executed there exactly if it is executable: validation alone does not imply it. -/
theorem executeBlock_iff_executable {expected : Validator} {proposal : Proposal}
    {chainId : ChainId} {d : Disk} {maxTransactions : ℕ}
    (hacc : validateIncomingProposal scheme expected proposal chainId d.store execution
      maxTransactions = .ok ()) :
    (∃ r d', execution.executeBlock scheme proposal.block d = .ok r d') ↔
      Executable execution d proposal.block := by
  have haccepts := validateIncomingProposal_ok hacc
  constructor
  · rintro ⟨r, d', hrun⟩
    obtain ⟨p, d₁, hp, -, -⟩ := executeBlock_ok_iff.mp hrun
    obtain ⟨state, hloop, haccounting⟩ := hp.replay
    obtain ⟨hadmits, results, hpayloads, hout⟩ := applyTransactions_ok_iff.mp hloop
    obtain ⟨rfl, hcollected⟩ := Prod.mk.inj hout
    obtain ⟨hfees, hreceipts⟩ := Prod.mk.inj hcollected
    have hfits := fits_of_admits hadmits
    refine ⟨fun tx htx => (hfits tx htx).1, fun tx htx => (hfits tx htx).2,
      ⟨results, d₁, hpayloads, ?_⟩, hp.txRoot, ?_, ?_⟩
    · rw [hp.receiptRoot, hreceipts, List.nil_append]
    · rw [hp.stateRoot, (applyBlockAccounting_ok _ _ _ _ _).1 _ _ haccounting, hfees]
    · rw [← canSettle_congr (onlyEvmWrites_of_runsPayloads hpayloads)]
      exact (applyBlockAccounting_ok _ _ _ _ _).2.mp ⟨_, haccounting⟩
  · intro h
    obtain ⟨simulatedState, hsim⟩ := haccepts.simulation
    obtain ⟨results, d₁, hpayloads, hreceipts⟩ := h.payloads
    have hadmits : Admits execution scheme proposal.block.header.height
        proposal.block.transactions (StateSnapshot.load d.store) := by
      rw [haccepts.height]
      exact admits_of_simulateTransactions hsim h.sums h.nonces
    have hloop := applyTransactions_ok_iff.mpr
      ⟨hadmits, results, hpayloads, (rfl : (_, collectedFees proposal.block.transactions 0,
        [] ++ receiptsOf proposal.block.header.height proposal.block.transactions results) = _)⟩
    have hsettles := (canSettle_congr (onlyEvmWrites_of_runsPayloads hpayloads) _).mpr h.settles
    obtain ⟨hpaid, hok⟩ := applyBlockAccounting_ok d₁.store
      (replayNative proposal.block.transactions (StateSnapshot.load d.store))
      proposal.block.header.proposer (collectedFees proposal.block.transactions 0)
      proposal.block.header.height
    obtain ⟨⟨state', accounting⟩, haccounting⟩ := hok.mpr hsettles
    have hstate := hpaid state' accounting haccounting
    refine ⟨_, _, executeBlock_ok_iff.mpr ⟨⟨state',
      receiptsOf proposal.block.header.height proposal.block.transactions results,
      collectedFees proposal.block.transactions 0, accounting⟩, d₁,
      ⟨haccepts.verified, haccepts.parent, ⟨_, hloop, haccounting⟩, h.txRoot, hreceipts, ?_⟩,
      rfl, rfl⟩⟩
    rw [h.stateRoot, hstate]

end

/-! ## A proposal with roots that nobody computed -/

section

open Transparent

/-- The validator with the key `2`. -/
def proposer : Validator :=
  { validatorId := "validator-2", votingPower := 1, p2pAddress := "", rpcAddress := ""
    publicKey := [2], address := address [2] }

/-- A signed block with one transfer whose header has zero in place of every root. -/
def unbacked : Block :=
  sealBlock
    { height := 1, round := 0, chainId := "zeno", parentHash := 0, txRoot := 0, stateRoot := 0
      receiptRoot := 0, proposer := address [2], timestampMs := 0 }
    [payment [1] (address [9]) 5 0 10 none] [2]

/-- Validation accepts the block, and it can never be executed. -/
theorem unbacked_accepted :
    validateIncomingProposal scheme proposer ⟨1, 0, unbacked, address [2]⟩ "zeno" funded.store
      devnet 10 = .ok () ∧
    ¬ ∃ r d', devnet.executeBlock scheme unbacked funded = .ok r d' := by
  refine ⟨by decide +kernel, ?_⟩
  rintro ⟨r, d', hrun⟩
  have hnone : (Handler.output (devnet.executeBlock scheme unbacked funded)).isNone := by
    decide +kernel
  rw [hrun] at hnone
  cases hnone

/-- What its execution would have needed. -/
theorem unbacked_executable_iff :
    (∃ r d', devnet.executeBlock scheme unbacked funded = .ok r d') ↔
      Executable devnet funded unbacked := by
  have hacc : validateIncomingProposal scheme proposer ⟨1, 0, unbacked, address [2]⟩ "zeno"
      funded.store devnet 10 = .ok () := by decide +kernel
  exact executeBlock_iff_executable hacc

end

end ZenoChain
