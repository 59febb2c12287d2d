/-
# Deterministic block execution

The execution engine of `zeno-execution`.  Plain `+` on balances and fees is taken as the
release build computes it, modulo `2 ^ 128`.
-/
import ZenoChain.Execution.Evm
import ZenoChain.State.Staking

namespace ZenoChain

open Word

/-- Errors raised by the execution engine. -/
inductive ExecutionError
  | transaction (message : String)
  | block (message : String)
  | state (message : String)
deriving DecidableEq, Repr

/-- The display text of an execution error. -/
def ExecutionError.toText : ExecutionError → String
  | transaction message => "transaction invalid: " ++ message
  | block message => "block invalid: " ++ message
  | state message => "state error: " ++ message

/-- What the accounting of a block leaves to be persisted. -/
structure AccountingArtifacts where
  staking : Option StakingSnapshot
  governance : Option GovernanceSnapshot
  epochTransition : Option EpochTransition

/-- A block that was replayed and checked. -/
structure PreparedBlock where
  state : StateSnapshot
  receipts : List Receipt
  proposerFees : ℕ
  accounting : AccountingArtifacts

/-- Result of executing a block, not yet finalized. -/
structure BlockExecutionResult where
  block : Block
  receipts : List Receipt
  epochTransition : Option EpochTransition
  proposerFees : ℕ
  state : StateSnapshot

/-- Execution engine. -/
structure ExecutionEngine where
  chainId : ChainId
  evmChainId : Option ℕ
  economics : Option EconomicsParams
  validators : List Validator

/-- The account that collects the treasury's share of the fees. -/
def treasuryAddress : Address := 0

/-- The low 20 bytes of an address. -/
def last20 (a : Address) : EvmAddress := a.setWidth 160

/-- Hash of the latest stored block, or zero. -/
def Store.latestHash [Hashing] (store : Store) : Hash32 :=
  (store.latestBlock.map fun entry => entry.block.hash).getD 0

namespace ExecutionEngine

/-- Validates a transaction against the current state. -/
def validateTransaction (e : ExecutionEngine) (scheme : SignatureScheme) (state : StateSnapshot)
    (currentHeight : ℕ) (tx : Transaction) : Except TransactionError Unit := do
  let _ ← verifyTransaction scheme e.chainId tx currentHeight
  let sender := state.account tx.body.sender
  if sender.nonce ≠ tx.body.nonce then throw (.invalidNonce sender.nonce tx.body.nonce)
  else if sender.balance < saturatingAdd 128 tx.body.amount tx.body.fee then
    throw .insufficientBalance
  else return ()

/-- The debit of the sender of a transaction. -/
def debitSender (state : StateSnapshot) (body : TransactionBody) : Except String StateSnapshot :=
  let sender := state.account body.sender
  match checkedAdd 128 body.amount body.fee with
  | none => .error "amount + fee overflow"
  | some totalCost =>
    match checkedSub sender.balance totalCost with
    | none => .error "insufficient balance (checked)"
    | some balance =>
      match checkedAdd 64 sender.nonce 1 with
      | none => .error "nonce overflow"
      | some nonce => .ok (state.putAccount body.sender { nonce, balance })

/-- The credit of the recipient of a native transfer. -/
def creditRecipient (state : StateSnapshot) (body : TransactionBody) : StateSnapshot :=
  let recipient := state.account body.recipient
  state.putAccount body.recipient
    { recipient with balance := saturatingAdd 128 recipient.balance body.amount }

variable [Hashing]

/-- The receipt of an executed transaction. -/
def receiptOf (tx : Transaction) (height : ℕ) (evm : Option EvmCallResult) : Receipt :=
  { txHash := tx.id, height, feeCharged := tx.body.fee, outcome := .success, evm }

/-- The share of the fees that goes to the treasury. -/
def treasuryCut (economics : EconomicsParams) (totalFees : ℕ) : ℕ :=
  saturatingMul 128 totalFees economics.treasuryBps / 10000

/-- Adds to the balance of an account, staying at the largest value. -/
def credit (state : StateSnapshot) (address : Address) (amount : ℕ) : StateSnapshot :=
  let account := state.account address
  state.putAccount address { account with balance := saturatingAdd 128 account.balance amount }

/-- The settlement of an epoch at its boundary: downtime slashing, rewards, governance. -/
def settleEpoch (staking : StakingSnapshot) (governance : GovernanceSnapshot) (height : ℕ) :
    Except String (StakingSnapshot × GovernanceSnapshot × EpochTransition) :=
  match staking.applyDowntimeSlashing governance.economics with
  | .error err => .error err.toText
  | .ok staking =>
    let staking := (staking.settleEpochRewards 0 0 governance.economics).2
    let governance := (governance.activateReadyUpdates staking.epoch).2
    .ok (staking, governance, staking.buildEpochTransition height governance.economics)

/-- The block closes an epoch. -/
def ClosesEpoch (economics : EconomicsParams) (height : ℕ) : Prop :=
  economics.epochLength ≠ 0 ∧ height % economics.epochLength = 0

instance (economics : EconomicsParams) (height : ℕ) : Decidable (ClosesEpoch economics height) :=
  inferInstanceAs (Decidable (_ ∧ _))

/-- Splits the fees of a block and settles the epoch at its boundary. -/
def applyBlockAccounting (e : ExecutionEngine) (store : Store) (state : StateSnapshot)
    (proposer : Address) (totalFees height : ℕ) :
    Except String (StateSnapshot × AccountingArtifacts) :=
  match e.economics with
  | none =>
    let account := state.account proposer
    .ok (state.putAccount proposer
        { account with balance := wrappingAdd 128 account.balance totalFees },
      { staking := none, governance := none, epochTransition := none })
  | some economics =>
    let staking := (StakingSnapshot.load store).ensureValidators e.validators
    let governance := GovernanceSnapshot.load store economics
    let treasuryCut := treasuryCut economics totalFees
    let state := credit (credit state proposer (saturatingSub totalFees treasuryCut))
      treasuryAddress treasuryCut
    let staking :=
      { staking with treasuryBalance := saturatingAdd 128 staking.treasuryBalance treasuryCut }
    if ClosesEpoch economics height then
      match settleEpoch staking governance height with
      | .error err => .error err
      | .ok (staking, governance, transition) =>
        .ok (state, ⟨some staking, some governance, some transition⟩)
    else .ok (state, ⟨some staking, some governance, none⟩)

/-- The writes by which the accounting of a block is stored. -/
def accountingWrites (prepared : PreparedBlock) : List Effect :=
  prepared.state.writes ++
  (prepared.accounting.staking.map fun s => .write (.putStakingState s)).toList ++
  (prepared.accounting.governance.map fun g => .write (.putGovernanceState g)).toList ++
  (prepared.accounting.epochTransition.map fun t => .write (.putEpochTransition t)).toList

/-- Stores the accounts and the accounting of a block. -/
def persistAccounting {ε : Type} (prepared : PreparedBlock) : StoreM ε PUnit :=
  modify fun d => d.recordAll (accountingWrites prepared)

/-- Atomically commits a finalized block with all accounts and receipts. -/
def commitFinalizedBlock {ε : Type} (finalized : FinalizedBlock) (state : StateSnapshot) :
    StoreM ε PUnit :=
  write (.atomicCommitBlock finalized state)

/-- Builds a new candidate header. -/
def buildHeader (e : ExecutionEngine) (store : Store) (proposer : Address)
    (height round timestampMs : ℕ) (transactions : List Transaction) (stateAfter : StateSnapshot)
    (receipts : List Receipt) : BlockHeader :=
  { height, round, chainId := e.chainId, parentHash := store.latestHash
    txRoot := transactionRoot transactions, stateRoot := stateAfter.stateRoot
    receiptRoot := receiptRoot receipts, proposer, timestampMs }

variable [Revm] (e : ExecutionEngine) (scheme : SignatureScheme)

/-- Runs the executor inside the engine. -/
def executeEvm (evmChainId : ℕ) (caller : EvmAddress) (tx : EvmTransaction) :
    StoreM ExecutionError EvmCallResult :=
  Handler.zoom id (fun d _ => d) (fun err => .transaction err.toText)
    (EvmExecutor.execute evmChainId caller tx)

/-- Applies a single transaction. -/
def applyTransaction (state : StateSnapshot) (height : ℕ) (tx : Transaction) :
    StoreM ExecutionError (StateSnapshot × Receipt) :=
  match e.validateTransaction scheme state height tx with
  | .error err => throw (.transaction err.toText)
  | .ok () =>
    match debitSender state tx.body with
    | .error message => throw (.transaction message)
    | .ok state =>
      match tx.body.evm with
      | none => pure (creditRecipient state tx.body, receiptOf tx height none)
      | some evmTx =>
        match e.evmChainId with
        | none => throw (.transaction "evm execution not enabled")
        | some evmChainId => do
          let result ← executeEvm evmChainId (last20 tx.body.sender) evmTx
          return (state, receiptOf tx height (some result))

/-- The transaction loop: the state, the fees and the receipts collected so far. -/
def applyTransactions (height : ℕ) : List Transaction → StateSnapshot → ℕ → List Receipt →
    StoreM ExecutionError (StateSnapshot × ℕ × List Receipt)
  | [], state, fees, receipts => pure (state, fees, receipts)
  | tx :: txs, state, fees, receipts => do
    let (state, receipt) ← e.applyTransaction scheme state height tx
    applyTransactions height txs state (wrappingAdd 128 fees receipt.feeCharged)
      (receipts ++ [receipt])

/-- The check of the roots of a header against the replayed ones. -/
def checkRoots (block : Block) (state : StateSnapshot) (receipts : List Receipt) :
    Except ExecutionError Unit :=
  if block.header.txRoot ≠ transactionRoot block.transactions then
    .error (.block "tx root mismatch")
  else if block.header.receiptRoot ≠ receiptRoot receipts then
    .error (.block "receipt root mismatch")
  else if block.header.stateRoot ≠ state.stateRoot then .error (.block "state root mismatch")
  else .ok ()

/-- Replays a block on the stored state and checks its header. -/
def prepareBlock (block : Block) : StoreM ExecutionError PreparedBlock := do
  Handler.ofExcept ((verifyBlock scheme block).mapError .block)
  let store ← readStore
  if block.header.parentHash ≠ store.latestHash then throw (.block "parent hash mismatch")
  else
    let (state, proposerFees, receipts) ←
      e.applyTransactions scheme block.header.height block.transactions (StateSnapshot.load store)
        0 []
    let store ← readStore
    let (state, accounting) ← Handler.ofExcept
      ((e.applyBlockAccounting store state block.header.proposer proposerFees
        block.header.height).mapError .state)
    Handler.ofExcept (checkRoots block state receipts)
    return { state, receipts, proposerFees, accounting }

/-- Executes a proposed block. -/
def executeBlock (block : Block) : StoreM ExecutionError BlockExecutionResult := do
  let prepared ← e.prepareBlock scheme block
  persistAccounting prepared
  return { block, receipts := prepared.receipts
           epochTransition := prepared.accounting.epochTransition
           proposerFees := prepared.proposerFees, state := prepared.state }

/-- Replays and commits an externally supplied finalized block after deterministic
validation. -/
def validateAndCommitFinalizedBlock (finalized : FinalizedBlock) : StoreM ExecutionError PUnit := do
  let prepared ← e.prepareBlock scheme finalized.block
  if prepared.receipts ≠ finalized.receipts then throw (.block "receipt bundle mismatch")
  else if prepared.accounting.epochTransition ≠ finalized.epochTransition then
    throw (.block "epoch transition mismatch")
  else
    commitFinalizedBlock finalized prepared.state
    persistAccounting prepared

/-- Simulates transactions for proposal construction. -/
def dryRunTransactions (height : ℕ) (transactions : List Transaction) (proposer : Address) :
    StoreM String (StateSnapshot × List Receipt) := do
  let store ← readStore
  let (state, fees, receipts) ← Handler.zoom id (fun d _ => d) ExecutionError.toText
    (e.applyTransactions scheme height transactions (StateSnapshot.load store) 0 [])
  let store ← readStore
  let (state, _) ← Handler.ofExcept (e.applyBlockAccounting store state proposer fees height)
  return (state, receipts)

end ExecutionEngine

end ZenoChain
