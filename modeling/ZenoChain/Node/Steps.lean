/-
# The operations of a node, step by step

Between two steps of one operation the steps of others may come.  Without them an operation does
what the runtime says.
-/
import ZenoChain.Consensus.Outcomes
import ZenoChain.Node.Runtime
import ZenoChain.Node.SharedMemory

namespace ZenoChain

open Word

section

variable [Hashing] {ε α : Type}

/-! ## The RPC calls -/

open StepM

/-- Reads an account. -/
def getAccount (a : Address) : StepM ε Account := do
  return (← step (.account a)).getD {}

/-- Writes an account. -/
def putAccount (a : Address) (account : Account) : StepM ε PUnit :=
  step (.write (.putAccount a account))

/-- Loads the staking state, or an empty one. -/
def loadStaking : StepM ε StakingSnapshot := do
  return (← step .stakingState).getD {}

/-- Reads an account, adds to its balance and writes it back. -/
def creditStoredSteps (recipient : Address) (amount : ℕ) : StepM ε PUnit := do
  let account ← getAccount recipient
  putAccount recipient { account with balance := saturatingAdd 128 account.balance amount }

/-- The steps of `faucet_send`. -/
def faucetSendSteps (faucet : Option (Except String Address)) (recipient : Address)
    (amount : ℕ) : StepM String PUnit :=
  if maxFaucetAmount < amount then
    throw ("faucet maximum is " ++ toString maxFaucetAmount ++ " ZPQ per request")
  else if amount = 0 then throw "amount must be greater than 0"
  else
    match faucet with
    | none => creditStoredSteps recipient amount
    | some (.error err) => throw err
    | some (.ok faucetAddress) => do
      let account ← getAccount faucetAddress
      if account.balance < amount then throw "faucet is empty"
      else
        putAccount faucetAddress { account with balance := saturatingSub account.balance amount }
        creditStoredSteps recipient amount

/-- The steps of `zk_unshield`. -/
def zkUnshieldSteps (request : UnshieldRequest) : StepM String PUnit := do
  match ← step (.unshield request) with
  | .error err => throw err.toText
  | .ok ⟨⟩ => creditStoredSteps request.recipient request.value

/-- The steps of `register_validator`. -/
def registerValidatorSteps (config : NodeConfig) (request : ValidatorJoinRequest) :
    StepM String PUnit :=
  match config.scheme.deriveAddress request.publicKey with
  | .error err => throw ("invalid public key: " ++ err.toText)
  | .ok address =>
    if request.selfBond < config.genesis.economics.minimumSelfBond then
      throw ("self-bond " ++ toString request.selfBond ++ " below minimum " ++
        toString config.genesis.economics.minimumSelfBond)
    else do
      let staking ← loadStaking
      match (staking.ensureValidators [joiningValidator request address]).delegate address address
        request.selfBond true with
      | .error err => throw ("delegation failed: " ++ err.toText)
      | .ok staking => step (.write (.putStakingState staking))

/-- The steps of `note_validator_liveness`. -/
def noteValidatorLivenessSteps (validators : List Validator) (address : Address) :
    StepM String PUnit := do
  let staking ← loadStaking
  match (staking.ensureValidators validators).noteLiveness address with
  | .error err => throw err.toText
  | .ok staking => step (.write (.putStakingState staking))

lemma runs_getAccount (a : Address) (d : Disk) :
    Runs (getAccount a : StepM ε Account) d (.ok (StateSnapshot.account d.store.accounts a) d) :=
  fun _ => rfl

lemma runs_loadStaking (d : Disk) :
    Runs (loadStaking : StepM ε StakingSnapshot) d (.ok (StakingSnapshot.load d.store) d) :=
  fun _ => rfl

lemma runs_creditStored (recipient : Address) (amount : ℕ) (d : Disk) :
    Runs (creditStoredSteps recipient amount) d (creditStored recipient amount d) := fun _ => rfl

/-- The steps of a faucet request are its run in the runtime. -/
lemma runs_faucetSend (faucet : Option (Except String Address)) (recipient : Address) (amount : ℕ)
    (d : Disk) :
    Runs (faucetSendSteps faucet recipient amount) d (faucetSend faucet recipient amount d) := by
  rw [faucetSendSteps.eq_def, faucetSend.eq_def]
  split_ifs
  · exact .throw _ d
  · exact .throw _ d
  · rcases faucet with _ | (err | faucetAddress)
    · exact runs_creditStored recipient amount d
    · exact .throw _ d
    · refine (runs_getAccount faucetAddress d).bind_ok ?_
      dsimp only
      rw [Handler.bind_ok (readStore_run d)]
      split_ifs
      · exact .throw _ d
      · exact (Runs.write _ d).bind_ok (runs_creditStored recipient amount _)

lemma runs_registerValidator (config : NodeConfig) (request : ValidatorJoinRequest) (d : Disk) :
    Runs (registerValidatorSteps config request) d (registerValidator config request d) := by
  rw [registerValidatorSteps, registerValidator]
  rcases config.scheme.deriveAddress request.publicKey with err | address
  · exact .throw _ d
  · dsimp only
    split_ifs
    · exact .throw _ d
    · refine (runs_loadStaking d).bind_ok ?_
      rw [Handler.bind_ok (readStore_run d)]
      rcases ((StakingSnapshot.load d.store).ensureValidators
        [joiningValidator request address]).delegate address address request.selfBond true with
        err | staking
      · exact .throw _ d
      · exact .write _ d

/-! ## The commit of a block -/

/-- Writes one after the other. -/
def writeAll : List Write → StepM ε PUnit
  | [] => pure ⟨⟩
  | w :: writes => do
    step (.write w)
    writeAll writes

lemma runs_writeAll (writes : List Write) (d : Disk) :
    Runs (writeAll writes : StepM ε PUnit) d (.ok ⟨⟩ (d.recordAll (writes.map .write))) := by
  induction writes generalizing d with
  | nil => exact .pure _ d
  | cons w writes ih => exact (Runs.write w d).bind_ok (ih _)

namespace EvmExecutor

/-- The writes of `persist_db`. -/
def persistDbSteps : List (EvmAddress × RevmAccount) → StepM EvmError PUnit
  | [] => pure ⟨⟩
  | (address, account) :: accounts => do
    if account.balance < 2 ^ 128 then
      step (.write (.putEvmAccount address
        { nonce := account.nonce, balance := account.balance, code := account.code,
          storage := account.storage }))
      persistDbSteps accounts
    else throw (.execution (balanceTooLarge address))

variable [Revm]

/-- Runs a transaction in the interpreter, between the read of the accounts and the writes. -/
def interpretSteps (evmChainId : ℕ) (caller : EvmAddress) (tx : EvmTransaction) :
    StepM EvmError EvmCallResult := do
  let accounts ← step .evmAccounts
  let db := callerDb (loadAccounts accounts) caller
  match Revm.transactCommit evmChainId db.existing caller tx with
  | .error message => throw (.execution message)
  | .ok (result, accounts) =>
    persistDbSteps accounts
    return decodeResult result

/-- Executes a state-changing EVM transaction. -/
def executeSteps (evmChainId : ℕ) (caller : EvmAddress) (tx : EvmTransaction) :
    StepM EvmError EvmCallResult :=
  match tx.kind with
  | .create _ => interpretSteps evmChainId caller tx
  | .call contract input =>
    match precompile contract input with
    | some result => pure result
    | none => interpretSteps evmChainId caller tx

omit [Revm] in
lemma only_persistDb (accounts : List (EvmAddress × RevmAccount)) :
    (persistDbSteps accounts).run.Only StoreAction.IsExecution := by
  induction accounts with
  | nil => exact .done _
  | cons entry accounts ih =>
    rw [persistDbSteps]
    split_ifs
    · exact only_bind (only_step trivial) fun _ => ih
    · exact .done _

lemma only_interpret (evmChainId : ℕ) (caller : EvmAddress) (tx : EvmTransaction) :
    (interpretSteps evmChainId caller tx).run.Only StoreAction.IsExecution := by
  refine only_bind (only_step trivial) fun accounts => ?_
  dsimp only
  split
  · exact .done _
  · exact only_bind (only_persistDb _) fun _ => .done _

lemma only_execute (evmChainId : ℕ) (caller : EvmAddress) (tx : EvmTransaction) :
    (executeSteps evmChainId caller tx).run.Only StoreAction.IsExecution := by
  rw [executeSteps]
  split
  · exact only_interpret _ _ _
  · split
    · exact .done _
    · exact only_interpret _ _ _

omit [Revm] in
lemma runs_persistDb (accounts : List (EvmAddress × RevmAccount)) (d : Disk) :
    Runs (persistDbSteps accounts) d (persistDb accounts d) := by
  induction accounts generalizing d with
  | nil => exact .pure _ d
  | cons entry accounts ih =>
    rw [persistDbSteps, persistDb]
    split_ifs
    · exact (Runs.write _ d).bind_ok (ih _)
    · exact .throw _ d

lemma runs_interpret (evmChainId : ℕ) (caller : EvmAddress) (tx : EvmTransaction) (d : Disk) :
    Runs (interpretSteps evmChainId caller tx) d (interpret evmChainId caller tx d) := by
  have hread : Runs (step .evmAccounts : StepM EvmError _) d (.ok d.store.evmAccounts d) :=
    fun _ => rfl
  refine hread.bind_ok ?_
  dsimp only
  rw [existing_callerDb, interpret_eq, loadDb]
  rcases Revm.transactCommit evmChainId (loadAccounts d.store.evmAccounts).existing caller tx with
    message | ⟨result, accounts⟩
  · exact .throw _ d
  · exact (runs_persistDb accounts d).bind fun _ d' _ => .pure _ d'

lemma runs_execute (evmChainId : ℕ) (caller : EvmAddress) (tx : EvmTransaction) (d : Disk) :
    Runs (executeSteps evmChainId caller tx) d (execute evmChainId caller tx d) := by
  rw [executeSteps, execute]
  rcases tx.kind with initCode | ⟨contract, input⟩
  · exact runs_interpret _ _ _ d
  · dsimp only
    rcases precompile contract input with _ | result
    · exact runs_interpret _ _ _ d
    · exact .pure _ d

end EvmExecutor

namespace ExecutionEngine

/-- The accounting of a block, from the staking and the governance state that it reads. -/
def applyBlockAccountingSteps (e : ExecutionEngine) (state : StateSnapshot) (proposer : Address)
    (totalFees height : ℕ) : StepM ExecutionError (StateSnapshot × AccountingArtifacts) :=
  match e.economics with
  | none =>
    StepM.ofExcept ((e.applyBlockAccounting { backend := .memory } state proposer totalFees
      height).mapError .state)
  | some _ => do
    let stakingState ← step .stakingState
    let governanceState ← step .governanceState
    StepM.ofExcept ((e.applyBlockAccounting { backend := .memory, stakingState, governanceState }
      state proposer totalFees height).mapError .state)

/-- The writes of `persist_accounting`. -/
def persistedWrites (prepared : PreparedBlock) : List Write :=
  (prepared.state.toList.map fun entry => .putAccount entry.1 entry.2) ++
  (prepared.accounting.staking.map .putStakingState).toList ++
  (prepared.accounting.governance.map .putGovernanceState).toList ++
  (prepared.accounting.epochTransition.map .putEpochTransition).toList

variable [Revm] (e : ExecutionEngine) (scheme : SignatureScheme)

/-- Applies a single transaction. -/
def applyTransactionSteps (state : StateSnapshot) (height : ℕ) (tx : Transaction) :
    StepM ExecutionError (StateSnapshot × Receipt) :=
  match e.validateTransaction scheme state height tx with
  | .error err => throw (.transaction err.toText)
  | .ok () =>
    match debitSender state tx.body with
    | .error message => throw (.transaction message)
    | .ok state =>
      match tx.body.evm with
      | none => pure (creditRecipient state tx.body, receiptOf tx height none)
      | some evmTx =>
        match e.evmChainId with
        | none => throw (.transaction "evm execution not enabled")
        | some evmChainId => do
          let result ← StepM.adaptError (fun err => .transaction err.toText)
            (EvmExecutor.executeSteps evmChainId (last20 tx.body.sender) evmTx)
          return (state, receiptOf tx height (some result))

/-- The transaction loop. -/
def applyTransactionsSteps (height : ℕ) : List Transaction → StateSnapshot → ℕ → List Receipt →
    StepM ExecutionError (StateSnapshot × ℕ × List Receipt)
  | [], state, fees, receipts => pure (state, fees, receipts)
  | tx :: txs, state, fees, receipts => do
    let (state, receipt) ← applyTransactionSteps e scheme state height tx
    applyTransactionsSteps height txs state (wrappingAdd 128 fees receipt.feeCharged)
      (receipts ++ [receipt])

/-- Replays a block on the accounts that it reads and checks its header. -/
def prepareBlockSteps (block : Block) : StepM ExecutionError PreparedBlock := do
  StepM.ofExcept ((verifyBlock scheme block).mapError .block)
  let latest ← step .latestBlock
  if block.header.parentHash ≠ (latest.map fun entry => entry.block.hash).getD 0 then
    throw (.block "parent hash mismatch")
  else
    let accounts ← step .accounts
    let (state, proposerFees, receipts) ←
      applyTransactionsSteps e scheme block.header.height block.transactions accounts 0 []
    let (state, accounting) ←
      applyBlockAccountingSteps e state block.header.proposer proposerFees block.header.height
    StepM.ofExcept (checkRoots block state receipts)
    return { state, receipts, proposerFees, accounting }

/-- The steps of `validate_and_commit_finalized_block`. -/
def validateAndCommitSteps (finalized : FinalizedBlock) : StepM ExecutionError PUnit := do
  let prepared ← prepareBlockSteps e scheme finalized.block
  if prepared.receipts ≠ finalized.receipts then throw (.block "receipt bundle mismatch")
  else if prepared.accounting.epochTransition ≠ finalized.epochTransition then
    throw (.block "epoch transition mismatch")
  else
    step (.write (.atomicCommitBlock finalized prepared.state))
    writeAll (persistedWrites prepared)

/-- The steps of the execution and the commit of a block that was agreed on. -/
def executeAndCommitSteps (block : Block) (certificate : CommitCertificate) :
    StepM ExecutionError PUnit := do
  let prepared ← prepareBlockSteps e scheme block
  writeAll (persistedWrites prepared)
  step (.write (.atomicCommitBlock
    { block, certificate, receipts := prepared.receipts
      epochTransition := prepared.accounting.epochTransition } prepared.state))

variable {e scheme}

lemma only_applyTransaction (state : StateSnapshot) (height : ℕ) (tx : Transaction) :
    (applyTransactionSteps e scheme state height tx).run.Only StoreAction.IsExecution := by
  rw [applyTransactionSteps]
  split
  · exact .done _
  · split
    · exact .done _
    · split
      · exact .done _
      · split
        · exact .done _
        · exact only_bind (only_adaptError (EvmExecutor.only_execute _ _ _)) fun _ => .done _

lemma only_applyTransactions (height : ℕ) (txs : List Transaction) (state : StateSnapshot)
    (fees : ℕ) (receipts : List Receipt) :
    (applyTransactionsSteps e scheme height txs state fees receipts).run.Only
      StoreAction.IsExecution := by
  induction txs generalizing state fees receipts with
  | nil => exact .done _
  | cons tx txs ih =>
    have hone : (applyTransactionSteps e scheme state height tx).run.Only
        StoreAction.IsExecution := only_applyTransaction state height tx
    rw [applyTransactionsSteps]
    refine only_bind hone fun result => ?_
    rcases result with ⟨state', receipt⟩
    exact ih state' _ _

/-- Up to its outcome, the execution of a block only reads and writes accounts of the EVM. -/
lemma only_prepareBlock (block : Block) :
    (prepareBlockSteps e scheme block).run.Only StoreAction.IsExecution := by
  refine only_bind (.done _) fun _ => only_bind (only_step trivial) fun latest => ?_
  split_ifs
  · exact .done _
  · refine only_bind (only_step trivial) fun accounts =>
      only_bind (only_applyTransactions _ _ _ _ _) fun ⟨state, fees, receipts⟩ =>
        only_bind ?_ fun _ => only_bind (.done _) fun _ => .done _
    rw [applyBlockAccountingSteps]
    split
    · exact .done _
    · exact only_bind (only_step trivial) fun _ =>
        only_bind (only_step trivial) fun _ => .done _

omit [Revm] in
lemma applyBlockAccounting_of_same {s s' : Store} (hstaking : s.stakingState = s'.stakingState)
    (hgovernance : s.governanceState = s'.governanceState) (state : StateSnapshot)
    (proposer : Address) (fees height : ℕ) :
    e.applyBlockAccounting s state proposer fees height =
      e.applyBlockAccounting s' state proposer fees height := by
  rw [applyBlockAccounting, applyBlockAccounting]
  rcases e.economics with _ | economics
  · rfl
  · dsimp only
    rw [StakingSnapshot.load, hstaking, GovernanceSnapshot.load, hgovernance]
    rfl

omit [Revm] in
lemma runs_applyBlockAccounting (state : StateSnapshot) (proposer : Address) (fees height : ℕ)
    (d : Disk) :
    Runs (applyBlockAccountingSteps e state proposer fees height) d (Handler.ofExcept
      ((e.applyBlockAccounting d.store state proposer fees height).mapError .state) d) := by
  rw [applyBlockAccountingSteps]
  rcases heconomics : e.economics with _ | economics
  · have hsame : ∀ s : Store, e.applyBlockAccounting s state proposer fees height =
        e.applyBlockAccounting d.store state proposer fees height := by
      intro s
      rw [applyBlockAccounting, applyBlockAccounting, heconomics]
    dsimp only
    rw [hsame]
    exact .ofExcept _ d
  · have hstaking : Runs (step .stakingState : StepM ExecutionError _) d
        (.ok d.store.stakingState d) := fun _ => rfl
    have hgovernance : Runs (step .governanceState : StepM ExecutionError _) d
        (.ok d.store.governanceState d) := fun _ => rfl
    refine hstaking.bind_ok (hgovernance.bind_ok ?_)
    have hsame : e.applyBlockAccounting
        { backend := .memory, stakingState := d.store.stakingState
          governanceState := d.store.governanceState } state proposer fees height =
        e.applyBlockAccounting d.store state proposer fees height :=
      applyBlockAccounting_of_same rfl rfl _ _ _ _
    rw [hsame]
    exact .ofExcept _ d

omit [Hashing] [Revm] in
lemma accountingWrites_eq (prepared : PreparedBlock) :
    accountingWrites prepared = (persistedWrites prepared).map .write := by
  rw [accountingWrites, persistedWrites, StateSnapshot.writes]
  simp only [List.map_append, List.map_map, Option.toList_map]
  rfl

lemma runs_applyTransaction (state : StateSnapshot) (height : ℕ) (tx : Transaction) (d : Disk) :
    Runs (applyTransactionSteps e scheme state height tx) d
      (e.applyTransaction scheme state height tx d) := by
  rw [applyTransactionSteps, applyTransaction]
  rcases e.validateTransaction scheme state height tx with err | ⟨⟩
  · exact .throw _ d
  · dsimp only
    rcases debitSender state tx.body with message | debited
    · exact .throw _ d
    · dsimp only
      rcases tx.body.evm with _ | evmTx
      · exact .pure _ d
      · dsimp only
        rcases e.evmChainId with _ | evmChainId
        · exact .throw _ d
        · exact ((EvmExecutor.runs_execute _ _ _ d).adaptError _).bind fun _ d' _ => .pure _ d'

lemma runs_applyTransactions (height : ℕ) (txs : List Transaction) (state : StateSnapshot)
    (fees : ℕ) (receipts : List Receipt) (d : Disk) :
    Runs (applyTransactionsSteps e scheme height txs state fees receipts) d
      (e.applyTransactions scheme height txs state fees receipts d) := by
  induction txs generalizing state fees receipts d with
  | nil => exact .pure _ d
  | cons tx txs ih =>
    rw [applyTransactionsSteps, applyTransactions]
    exact (runs_applyTransaction state height tx d).bind fun _ d' _ => ih _ _ _ d'

lemma runs_prepareBlock (block : Block) (d : Disk) :
    Runs (prepareBlockSteps e scheme block) d (e.prepareBlock scheme block d) := by
  refine (Runs.ofExcept _ d).bind fun _ d' hverify => ?_
  obtain ⟨-, rfl⟩ := Handler.ofExcept_eq_ok_iff.mp hverify
  have hlatest : Runs (step .latestBlock : StepM ExecutionError _) d (.ok d.store.latestBlock d) :=
    fun _ => rfl
  have haccounts : Runs (step .accounts : StepM ExecutionError _) d (.ok d.store.accounts d) :=
    fun _ => rfl
  refine hlatest.bind_ok ?_
  rw [Handler.bind_ok (readStore_run d)]
  have hhash : (d.store.latestBlock.map fun entry => entry.block.hash).getD 0 =
      d.store.latestHash := rfl
  rw [hhash]
  by_cases hparent : block.header.parentHash = d.store.latestHash
  · rw [if_neg (not_not.mpr hparent), if_neg (not_not.mpr hparent)]
    refine haccounts.bind_ok ((runs_applyTransactions _ _ _ _ _ d).bind fun ⟨state, fees, receipts⟩
      d₁ _ => ?_)
    dsimp only
    rw [Handler.bind_ok (readStore_run d₁)]
    refine (runs_applyBlockAccounting _ _ _ _ d₁).bind fun ⟨state', accounting⟩ d₂ _ => ?_
    refine (Runs.ofExcept _ d₂).bind fun _ d₃ _ => .pure _ d₃
  · rw [if_pos hparent, if_pos hparent]
    exact .throw _ d

lemma runs_validateAndCommit (finalized : FinalizedBlock) (d : Disk) :
    Runs (validateAndCommitSteps e scheme finalized) d
      (e.validateAndCommitFinalizedBlock scheme finalized d) := by
  refine (runs_prepareBlock _ d).bind fun prepared d' _ => ?_
  split_ifs
  · exact .throw _ d'
  · exact .throw _ d'
  · refine (Runs.write _ d').bind_ok ?_
    rw [commitFinalizedBlock, Handler.bind_ok (write_run _ d'), persistAccounting,
      accountingWrites_eq]
    exact runs_writeAll _ _

lemma runs_executeAndCommit (block : Block) (certificate : CommitCertificate) (d : Disk) :
    Runs (executeAndCommitSteps e scheme block certificate) d
      (executeAndCommit e scheme block certificate d) := by
  have hprepare : Runs (prepareBlockSteps e scheme block) d (e.prepareBlock scheme block d) :=
    runs_prepareBlock block d
  rcases hrun : e.prepareBlock scheme block d with ⟨prepared, d'⟩ | ⟨err, d'⟩
  · rw [hrun] at hprepare
    have hexecute : e.executeBlock scheme block d = .ok
        { block, receipts := prepared.receipts
          epochTransition := prepared.accounting.epochTransition
          proposerFees := prepared.proposerFees, state := prepared.state }
        (d'.recordAll (accountingWrites prepared)) := Handler.bind_ok hrun
    rw [executeAndCommit, Handler.bind_ok hexecute]
    refine hprepare.bind_ok ((runs_writeAll _ d').bind_ok ?_)
    rw [← accountingWrites_eq]
    exact .write _ _
  · rw [hrun] at hprepare
    have hexecute : e.executeBlock scheme block d = .error err d' := Handler.bind_error hrun
    rw [executeAndCommit, Handler.bind_error hexecute]
    exact hprepare.bind_error

end ExecutionEngine

/-! ## Operations -/

/-- The operations whose steps may interleave. -/
inductive Operation
  | faucetSend (faucet : Option (Except String Address)) (recipient : Address) (amount : ℕ)
  | zkUnshield (request : UnshieldRequest)
  | registerValidator (request : ValidatorJoinRequest)
  | noteValidatorLiveness (address : Address)
  | importBlock (finalized : FinalizedBlock)
  | finalizeBlock (block : Block) (certificate : CommitCertificate)

/-- A program that tells whether it has succeeded. -/
def StepM.succeeds (p : StepM ε α) : Program sharedMemory Bool := p.run >>= fun r => .done r.isOk

variable [Revm]

/-- The steps of an operation. -/
def Operation.program (config : NodeConfig) : Operation → Program sharedMemory Bool
  | faucetSend faucet recipient amount => (faucetSendSteps faucet recipient amount).succeeds
  | zkUnshield request => (zkUnshieldSteps request).succeeds
  | registerValidator request => (registerValidatorSteps config request).succeeds
  | noteValidatorLiveness address =>
    (noteValidatorLivenessSteps config.genesis.validators address).succeeds
  | importBlock finalized => (config.engine.validateAndCommitSteps config.scheme finalized).succeeds
  | finalizeBlock block certificate =>
    (config.engine.executeAndCommitSteps config.scheme block certificate).succeeds

/-- The event of the runtime that an operation is, if it is not a note of liveness. -/
def Operation.event : Operation → Option NodeEvent
  | faucetSend faucet recipient amount => some (.faucetSend faucet recipient amount)
  | zkUnshield request => some (.zkUnshield request)
  | registerValidator request => some (.registerValidator request)
  | noteValidatorLiveness _ => none
  | importBlock finalized => some (.imported finalized)
  | finalizeBlock block certificate => some (.finalized block certificate)

/-- The part of a node that its tasks share. -/
def Node.shared (n : Node) : Shared := ⟨n.disk.store, n.zkPool⟩

omit [Revm] in
lemma StepM.Runs.alone_succeeds {p : StepM ε PUnit} {m : StoreM ε PUnit} {n : Node}
    (h : Runs p n.disk (m n.disk)) : (p.succeeds.alone n.shared).2 = (n.onDisk m).shared := by
  rw [StepM.succeeds, Program.alone_bind, Node.shared, h n.zkPool, Node.onDisk]
  rcases m n.disk with ⟨⟨⟩, d'⟩ | ⟨err, d'⟩
  · rfl
  · rfl

omit [Revm] in
lemma alone_zkUnshield (request : UnshieldRequest) (s : Shared) :
    (zkUnshieldSteps request).succeeds.alone s =
      match ShieldedPool.unshield request s.zkPool with
      | .ok _ zkPool =>
        (creditStoredSteps request.recipient request.value : StepM String PUnit).succeeds.alone
          { s with zkPool }
      | .error _ zkPool => (false, { s with zkPool }) := by
  have hstep : (zkUnshieldSteps request).succeeds.alone s =
      (match (StoreAction.unshield request).answer s with
        | .error err => throw err.toText
        | .ok ⟨⟩ => creditStoredSteps request.recipient request.value :
        StepM String PUnit).succeeds.alone ((StoreAction.unshield request).after s) := rfl
  rw [hstep, StoreAction.answer, StoreAction.after]
  rcases ShieldedPool.unshield request s.zkPool with ⟨⟨⟩, zkPool⟩ | ⟨err, zkPool⟩
  · rfl
  · rfl

omit [Revm] in
/-- The steps of a note of liveness are what the consensus engine does. -/
lemma alone_noteValidatorLiveness (e : ConsensusEngine) (address : Address) (w : World)
    (zkPool : ShieldedPool) :
    ((noteValidatorLivenessSteps e.validators address).succeeds.alone ⟨w.disk.store, zkPool⟩).2 =
      ⟨(Handler.final (e.noteValidatorLiveness address w)).disk.store, zkPool⟩ := by
  have hstep : (noteValidatorLivenessSteps e.validators address).succeeds.alone
      ⟨w.disk.store, zkPool⟩ =
      (match e.noted w.disk.store address with
        | .error err => throw err.toText
        | .ok staking => step (.write (.putStakingState staking)) :
        StepM String PUnit).succeeds.alone ⟨w.disk.store, zkPool⟩ := rfl
  rw [hstep]
  rcases hnoted : e.noted w.disk.store address with err | staking
  · rw [ConsensusEngine.noteValidatorLiveness_error hnoted]
    rfl
  · rw [ConsensusEngine.noteValidatorLiveness_ok hnoted]
    rfl

/-- **The steps of an operation**, when nothing comes in between, are the event of the runtime. -/
theorem alone_program (config : NodeConfig) (n : Node) {operation : Operation} {event : NodeEvent}
    (h : operation.event = some event) :
    ((operation.program config).alone n.shared).2 = (n.handle config event).shared := by
  cases operation with
  | faucetSend faucet recipient amount =>
    cases h
    exact (runs_faucetSend faucet recipient amount n.disk).alone_succeeds
  | zkUnshield request =>
    cases h
    show ((zkUnshieldSteps request).succeeds.alone n.shared).2 = _
    rw [alone_zkUnshield, Node.handle, Node.shared]
    rcases ShieldedPool.unshield request n.zkPool with ⟨⟨⟩, zkPool⟩ | ⟨err, zkPool⟩
    · exact (runs_creditStored request.recipient request.value n.disk).alone_succeeds
        (n := { n with zkPool })
    · rfl
  | registerValidator request =>
    cases h
    exact (runs_registerValidator config request n.disk).alone_succeeds
  | noteValidatorLiveness address => cases h
  | importBlock finalized =>
    cases h
    exact (ExecutionEngine.runs_validateAndCommit finalized n.disk).alone_succeeds
  | finalizeBlock block certificate =>
    cases h
    exact (ExecutionEngine.runs_executeAndCommit block certificate n.disk).alone_succeeds

end

end ZenoChain
