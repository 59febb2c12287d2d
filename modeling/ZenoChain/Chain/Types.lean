/-
# Shared domain types of the chain

The records of `zeno-types`, with the fields that the modelled crates read.  A 32-byte
array is a 256-bit vector read most significant byte first, so that the derived order of
the array is the numeric order; a `BTreeMap` is an ordered extensional tree map.  Integers
are natural numbers, and every operation that can leave the range of its machine type is
written with the matching operation of `ZenoChain.Word`.
-/
import Mathlib.Data.Finset.Card
import Std.Data.ExtTreeMap

namespace ZenoChain

/-- A byte string. -/
abbrev Bytes := List UInt8

/-- Fixed 32-byte digest. -/
abbrev Hash32 := BitVec 256

/-- Account address: 32 bytes. -/
abbrev Address := BitVec 256

/-- 20-byte EVM address. -/
abbrev EvmAddress := BitVec 160

/-- Chain identifier. -/
abbrev ChainId := String

/-- An ordered map, iterated in ascending order of its keys. -/
abbrev BTreeMap (κ ν : Type) [Ord κ] := Std.ExtTreeMap κ ν compare

/-- An ordered map whose keys are pairs of addresses, compared lexicographically. -/
abbrev PairMap (ν : Type) :=
  Std.ExtTreeMap (Address × Address) ν (compareLex (compareOn Prod.fst) (compareOn Prod.snd))

instance Hash32.lawfulBEq : LawfulBEq Hash32 := inferInstance

instance Hash32.transOrd : Std.TransOrd Hash32 := inferInstance

instance EvmAddress.transOrd : Std.TransOrd EvmAddress := inferInstance

instance PairMap.transCmp : Std.TransCmp
    (compareLex (compareOn (Prod.fst : Address × Address → Address)) (compareOn Prod.snd)) :=
  inferInstance

/-! ## Accounts, staking and governance -/

/-- Basic account record; the default account is zeroed. -/
structure Account where
  nonce : ℕ := 0
  balance : ℕ := 0
deriving DecidableEq, Repr, Inhabited

/-- Validator lifecycle status. -/
inductive ValidatorStatus
  | active
  | jailed
  | inactive
deriving DecidableEq, Repr

/-- Validator staking state. -/
structure ValidatorStake where
  validatorAddress : Address
  selfBond : ℕ
  totalStake : ℕ
  commissionBps : ℕ
  status : ValidatorStatus
  lastLivenessEpoch : ℕ
deriving DecidableEq, Repr

/-- Delegation from a delegator to a validator. -/
structure Delegation where
  delegator : Address
  validatorAddress : Address
  amount : ℕ
deriving DecidableEq, Repr

/-- Pending unbonding request. -/
structure UnbondingDelegation where
  delegator : Address
  validatorAddress : Address
  amount : ℕ
  releaseEpoch : ℕ
deriving DecidableEq, Repr

/-- Slashing incident kept for audit and settlement. -/
structure SlashingEvent where
  validatorAddress : Address
  epoch : ℕ
  slashBps : ℕ
  reason : String
deriving DecidableEq, Repr

/-- Staking and rewards parameters. -/
structure EconomicsParams where
  minimumSelfBond : ℕ
  epochLength : ℕ
  unbondingEpochs : ℕ
  treasuryBps : ℕ
  downtimeSlashBps : ℕ
  doubleSignSlashBps : ℕ
deriving DecidableEq, Repr

/-- Supported governance parameter updates. -/
inductive ParameterUpdate
  | economics (params : EconomicsParams)
deriving DecidableEq, Repr

/-- Pending governance proposal. -/
structure GovernanceProposal where
  proposalId : ℕ
  activationEpoch : ℕ
  update : ParameterUpdate
  description : String
deriving DecidableEq, Repr

/-- Governance state. -/
structure GovernanceState where
  economics : EconomicsParams
  pending : List GovernanceProposal
  nextProposalId : ℕ
deriving DecidableEq, Repr

/-- Governance state created from the active economics configuration. -/
def GovernanceState.new (economics : EconomicsParams) : GovernanceState :=
  { economics, pending := [], nextProposalId := 1 }

/-- Finalized epoch transition record. -/
structure EpochTransition where
  epoch : ℕ
  height : ℕ
  validatorSet : List Address
  validatorSetRoot : Hash32
  economics : EconomicsParams
deriving DecidableEq, Repr

/-- Aggregate staking state; the default is the empty one. -/
structure StakingState where
  epoch : ℕ := 0
  validators : BTreeMap Address ValidatorStake := ∅
  delegations : PairMap Delegation := ∅
  unbonding : List UnbondingDelegation := []
  treasuryBalance : ℕ := 0
  slashingEvents : List SlashingEvent := []

/-! ## Transactions and receipts -/

/-- Supported EVM transaction kinds. -/
inductive EvmTransactionKind
  | create (bytecode : Bytes)
  | call (contract : EvmAddress) (input : Bytes)
deriving DecidableEq, Repr

/-- EVM transaction payload. -/
structure EvmTransaction where
  kind : EvmTransactionKind
  value : ℕ
  gasLimit : ℕ
  gasPrice : ℕ
deriving DecidableEq, Repr

/-- Transaction body without signature. -/
structure TransactionBody where
  chainId : ChainId
  sender : Address
  recipient : Address
  amount : ℕ
  nonce : ℕ
  fee : ℕ
  evm : Option EvmTransaction
  memo : Option String
  validUntil : Option ℕ
deriving DecidableEq, Repr

/-- Signed transaction envelope. -/
structure Transaction where
  body : TransactionBody
  publicKey : Bytes
  signature : Bytes
deriving DecidableEq, Repr

/-- Simplified EVM log. -/
structure EvmLog where
  address : EvmAddress
  topics : List Hash32
  data : Bytes
deriving DecidableEq, Repr

/-- Result of an EVM transaction. -/
structure EvmCallResult where
  contractAddress : Option EvmAddress
  output : Bytes
  gasUsed : ℕ
  logs : List EvmLog
deriving DecidableEq, Repr

/-- Transaction execution outcome. -/
inductive ExecutionOutcome
  | success
  | rejected (reason : String)
deriving DecidableEq, Repr

/-- Execution receipt. -/
structure Receipt where
  txHash : Hash32
  height : ℕ
  feeCharged : ℕ
  outcome : ExecutionOutcome
  evm : Option EvmCallResult
deriving DecidableEq, Repr

/-- Stored EVM account state. -/
structure EvmAccountState where
  nonce : ℕ := 0
  balance : ℕ := 0
  code : Bytes := []
  storage : BTreeMap Hash32 Hash32 := ∅

/-! ## Blocks, proposals and votes -/

/-- Validator descriptor. -/
structure Validator where
  validatorId : String
  votingPower : ℕ
  p2pAddress : String
  rpcAddress : String
  publicKey : Bytes
  address : Address
deriving DecidableEq, Repr

/-- Block header. -/
structure BlockHeader where
  height : ℕ
  round : ℕ
  chainId : ChainId
  parentHash : Hash32
  txRoot : Hash32
  stateRoot : Hash32
  receiptRoot : Hash32
  proposer : Address
  timestampMs : ℕ
deriving DecidableEq, Repr

/-- Signed block. -/
structure Block where
  header : BlockHeader
  transactions : List Transaction
  proposerPublicKey : Bytes
  proposerSignature : Bytes
deriving DecidableEq, Repr

/-- Proposal message. -/
structure Proposal where
  height : ℕ
  round : ℕ
  block : Block
  validatorAddress : Address
deriving DecidableEq, Repr

/-- Consensus phases. -/
inductive VoteStep
  | prevote
  | precommit
deriving DecidableEq, Repr

/-- Vote message. -/
structure Vote where
  height : ℕ
  round : ℕ
  step : VoteStep
  blockHash : Hash32
  validatorAddress : Address
  publicKey : Bytes
  signature : Bytes
deriving DecidableEq, Repr

/-- Evidence of a safety fault. -/
structure Evidence where
  validatorAddress : Address
  height : ℕ
  round : ℕ
  reason : String
deriving DecidableEq, Repr

/-- Finalization certificate. -/
structure CommitCertificate where
  blockHash : Hash32
  height : ℕ
  round : ℕ
  votes : List Vote
deriving DecidableEq, Repr

/-- Stored block bundle. -/
structure FinalizedBlock where
  block : Block
  certificate : CommitCertificate
  receipts : List Receipt
  epochTransition : Option EpochTransition
deriving DecidableEq, Repr

/-- The network messages that the consensus engine sends and receives. -/
inductive NetworkMessage
  | transaction (tx : Transaction)
  | proposal (proposal : Proposal)
  | vote (vote : Vote)
  | commit (finalized : FinalizedBlock)
deriving DecidableEq, Repr

/-! ## Persistence records -/

/-- Consensus persistence record. -/
structure ConsensusSnapshot where
  height : ℕ
  round : ℕ
deriving DecidableEq, Repr

/-- Durable consensus write-ahead log entry. -/
inductive ConsensusWalEntry
  | snapshotPersisted (height round : ℕ)
  | proposalAccepted (height round : ℕ) (blockHash : Hash32)
  | proposalBroadcast (height round : ℕ) (blockHash : Hash32)
  | voteRecorded (height round : ℕ) (step : VoteStep) (blockHash : Hash32)
      (validatorAddress : Address)
  | voteBroadcast (height round : ℕ) (step : VoteStep) (blockHash : Hash32)
      (validatorAddress : Address)
  | commitFinalized (height round : ℕ) (blockHash : Hash32)
  | heightAdvanced (nextHeight : ℕ)
  | roundAdvanced (height nextRound : ℕ)
  | evidenceRecorded (height round : ℕ) (validatorAddress : Address) (reason : String)
  | locked (height lockedRound : ℕ) (blockHash : Hash32) (block : Block)
  | polkaObserved (height validRound : ℕ) (blockHash : Hash32) (block : Block)
deriving DecidableEq, Repr

/-- The height by which log compaction files an entry. -/
def ConsensusWalEntry.height : ConsensusWalEntry → ℕ
  | snapshotPersisted h _ => h
  | proposalAccepted h _ _ => h
  | proposalBroadcast h _ _ => h
  | voteRecorded h _ _ _ _ => h
  | voteBroadcast h _ _ _ _ => h
  | commitFinalized h _ _ => h
  | heightAdvanced h => h
  | roundAdvanced h _ => h
  | evidenceRecorded h _ _ _ => h
  | locked h _ _ _ => h
  | polkaObserved h _ _ _ => h

/-- Slashing protection record of a validator; the default has signed nothing. -/
structure SlashingProtection where
  lastSignedProposalHeight : ℕ := 0
  lastSignedPrevoteHeight : ℕ := 0
  lastSignedPrecommitHeight : ℕ := 0
deriving DecidableEq, Repr, Inhabited

/-! ## Configuration -/

/-- Consensus parameters. -/
structure ConsensusParams where
  proposalTimeoutMs : ℕ
  voteTimeoutMs : ℕ
  maxTransactionsPerBlock : ℕ
  maxBlockBytes : ℕ
deriving DecidableEq, Repr

/-- Genesis configuration; of the network metadata only the EVM chain id is read. -/
structure Genesis where
  chainId : ChainId
  evmChainId : Option ℕ
  accounts : BTreeMap Address Account
  validators : List Validator
  consensus : ConsensusParams
  economics : EconomicsParams

/-- Validator join request. -/
structure ValidatorJoinRequest where
  publicKey : Bytes
  p2pAddress : String
  rpcAddress : String
  selfBond : ℕ
deriving DecidableEq, Repr

/-- Transaction admission error. -/
inductive TransactionError
  | zeroAmount
  | zeroFee
  | memoTooLarge
  | expired (validUntil : ℕ)
  | wrongChainId
  | insufficientBalance
  | invalidNonce (expected actual : ℕ)
  | senderMismatch
  | invalidSignature
  | transactionTooLarge (size : ℕ)
  | gasLimitExceeded (max actual : ℕ)
deriving DecidableEq, Repr

/-- The display text of a transaction error. -/
def TransactionError.toText : TransactionError → String
  | zeroAmount => "amount must be non-zero"
  | zeroFee => "fee must be non-zero"
  | memoTooLarge => "memo too large"
  | expired h => "transaction expired at height " ++ toString h
  | wrongChainId => "wrong chain id"
  | insufficientBalance => "insufficient balance"
  | invalidNonce expected actual =>
      "invalid nonce expected " ++ toString expected ++ " got " ++ toString actual
  | senderMismatch => "sender does not match public key"
  | invalidSignature => "signature invalid"
  | transactionTooLarge size => "transaction too large (" ++ toString size ++ " bytes)"
  | gasLimitExceeded max actual =>
      "gas limit exceeded (max " ++ toString max ++ ", got " ++ toString actual ++ ")"

end ZenoChain
