/-
# Deterministic validator consensus engine

The consensus engine of `zeno-consensus`: its round state, the handlers of proposals, votes,
commits and timeouts, and recovery from the snapshot and the write-ahead log.  A handler is
a program over the disk and the round state; it may stop with an error, and what it did
before stays done.

What comes from outside is an input of the event: the pending transactions that the mempool
selects and the wall clock, in milliseconds.  Heights have 64 bits and rounds 32, and the
release build adds one to them modulo their range.
-/
import Mathlib.Data.Finset.Insert
import ZenoChain.Consensus.Proposal

namespace ZenoChain

open Word

/-- Sentinel hash of a nil vote. -/
def nilHash : Hash32 := 0

/-- Validator signing material. -/
structure LocalValidator where
  validator : Validator
  secretKey : Bytes
deriving DecidableEq, Repr

/-- The configuration of a consensus engine. -/
structure ConsensusEngine where
  chainId : ChainId
  validators : List Validator
  scheme : SignatureScheme
  execution : ExecutionEngine
  params : ConsensusParams
  economics : EconomicsParams
  localValidator : Option LocalValidator

/-- The volatile state of a round; the default is the first round of the first height. -/
structure RoundState where
  height : ℕ := 1
  round : ℕ := 0
  proposal : Option Block := none
  prevotes : BTreeMap Hash32 (Finset Address) := ∅
  precommits : BTreeMap Hash32 (Finset Address) := ∅
  votes : List Vote := []
  evidence : List Evidence := []
  /-- The validators, heights and rounds for which evidence was recorded already. -/
  processedEvidence : Finset (Address × ℕ × ℕ) := ∅
  prevoted : Bool := false
  precommitted : Bool := false
  /-- Round at which this node locked on a block. -/
  lockedRound : Option ℕ := none
  lockedBlock : Option Block := none
  /-- Highest round at which a quorum of prevotes was observed. -/
  validRound : Option ℕ := none
  validBlock : Option Block := none

/-- What the engine reads and writes: the disk of its process and its round state. -/
structure World where
  disk : Disk
  state : RoundState

/-- A handler of the engine. -/
abbrev EngineM (α : Type) := EStateM String World α

/-- `None` comes before every round, as in the order of options. -/
def roundLe : Option ℕ → Option ℕ → Bool
  | none, _ => true
  | some _, none => false
  | some r, some r' => r ≤ r'

namespace RoundState

/-- A recorded vote of the same author for the same height, round and phase names another
hash. -/
def conflicts (s : RoundState) (vote : Vote) : Bool :=
  s.votes.any fun existing =>
    existing.height = vote.height ∧ existing.round = vote.round ∧ existing.step = vote.step ∧
      existing.validatorAddress = vote.validatorAddress ∧ existing.blockHash ≠ vote.blockHash

/-- The tally of a phase. -/
def tally (s : RoundState) : VoteStep → BTreeMap Hash32 (Finset Address)
  | .prevote => s.prevotes
  | .precommit => s.precommits

/-- The authors counted for a hash in a phase. -/
def voters (s : RoundState) (step : VoteStep) (hash : Hash32) : Finset Address :=
  (s.tally step)[hash]?.getD ∅

/-- Enters an author into a tally. -/
def addVoter (tally : BTreeMap Hash32 (Finset Address)) (vote : Vote) :
    BTreeMap Hash32 (Finset Address) :=
  tally.insert vote.blockHash (insert vote.validatorAddress (tally[vote.blockHash]?.getD ∅))

/-- Records a vote and counts it in the tally of its phase. -/
def count (s : RoundState) (vote : Vote) : RoundState :=
  match vote.step with
  | .prevote => { s with votes := s.votes ++ [vote], prevotes := addVoter s.prevotes vote }
  | .precommit => { s with votes := s.votes ++ [vote], precommits := addVoter s.precommits vote }

/-- Records evidence once for a validator, height and round. -/
def addEvidence (s : RoundState) (evidence : Evidence) : RoundState :=
  let key := (evidence.validatorAddress, evidence.height, evidence.round)
  if key ∈ s.processedEvidence then s
  else
    { s with
      processedEvidence := insert key s.processedEvidence
      evidence := s.evidence ++ [evidence] }

/-- Observes a quorum of prevotes for a block: it becomes the valid block and the lock. -/
def observePolka (s : RoundState) (round : ℕ) (block : Block) : RoundState :=
  { s with validRound := some round, validBlock := some block,
           lockedRound := some round, lockedBlock := some block }

/-- The hash that the locking rule lets a validator prevote for. -/
def prevoteChoice [Hashing] (s : RoundState) : Hash32 :=
  match s.lockedBlock, s.proposal with
  | some locked, some proposal =>
    if locked.hash = proposal.hash then proposal.hash
    -- Locked on another block: only a quorum seen no earlier than the lock frees the vote.
    else if s.validBlock.any (fun block => block.hash = proposal.hash) ∧
        roundLe s.lockedRound s.validRound then proposal.hash
    else nilHash
  | none, some proposal => proposal.hash
  | _, none => nilHash

/-- The state without the messages and flags of its round. -/
def clearRound (s : RoundState) : RoundState :=
  { s with proposal := none, prevotes := ∅, precommits := ∅, votes := [],
           prevoted := false, precommitted := false }

/-- The first round of another height; locks are dropped. -/
def toHeight (s : RoundState) (nextHeight : ℕ) : RoundState :=
  { s.clearRound with
    height := nextHeight, round := 0
    lockedRound := none, lockedBlock := none, validRound := none, validBlock := none }

/-- The next round of the height; locks stay. -/
def toNextRound (s : RoundState) : RoundState :=
  { s.clearRound with round := wrappingAdd 32 s.round 1 }

/-- Remembers that the own vote of a phase has been cast. -/
def markCast (s : RoundState) : VoteStep → RoundState
  | .prevote => { s with prevoted := true }
  | .precommit => { s with precommitted := true }

/-- The own vote of a phase has been cast. -/
def hasCast (s : RoundState) : VoteStep → Bool
  | .prevote => s.prevoted
  | .precommit => s.precommitted

end RoundState

namespace ConsensusEngine

/-- The validators that take part in consensus, in the order of their stake; the configured
ones where no validator is eligible. -/
def activeValidators (e : ConsensusEngine) (store : Store) : List Validator :=
  let staking := (StakingSnapshot.load store).ensureValidators e.validators
  let orderedAddresses := staking.effectiveValidatorSet e.economics
  if orderedAddresses = [] then e.validators
  else
    let byAddress : BTreeMap Address Validator :=
      Table.insertAll ∅ (e.validators.map fun v => (v.address, v))
    orderedAddresses.filterMap fun address => byAddress[address]?

/-- The number of votes that make a quorum. -/
def quorum (e : ConsensusEngine) (store : Store) : ℕ := (e.activeValidators store).length * 2 / 3 + 1

/-- The proposer of a round; there is none among no validators, where the source panics. -/
def proposerFor (e : ConsensusEngine) (store : Store) (height round : ℕ) :
    Except String Validator :=
  let validators := e.activeValidators store
  match validators[wrappingAdd 64 height round % validators.length]? with
  | some validator => .ok validator
  | none => .error "attempt to calculate the remainder with a divisor of zero"

/-- The local validator may vote. -/
def localValidatorActive (e : ConsensusEngine) (store : Store) : Bool :=
  match e.localValidator with
  | none => false
  | some localValidator =>
    ((StakingSnapshot.load store).ensureValidators e.validators).isValidatorActive
      localValidator.validator.address e.economics

variable [Hashing]

/-- Runs a program on the disk. -/
def onDisk {ε α : Type} (err : ε → String) (m : StoreM ε α) : EngineM α :=
  Handler.zoom World.disk (fun disk w => { w with disk }) err m

/-- Has one effect. -/
def emit (effect : Effect) : EngineM PUnit :=
  modify fun w => { w with disk := w.disk.record effect }

/-- Appends to the write-ahead log. -/
def appendWal (entry : ConsensusWalEntry) : EngineM PUnit :=
  emit (.write (.appendConsensusWal entry))

/-- Changes the round state. -/
def update (f : RoundState → RoundState) : EngineM PUnit :=
  modify fun w => { w with state := f w.state }

/-- Persists the height and the round. -/
def persistSnapshot : EngineM PUnit := do
  let w ← get
  emit (.write (.putConsensusSnapshot ⟨w.state.height, w.state.round⟩))
  appendWal (.snapshotPersisted w.state.height w.state.round)

variable (e : ConsensusEngine)

/-- The staking state after a validator has been noted as live. -/
def noted (store : Store) (address : Address) : Except StateError StakingSnapshot :=
  ((StakingSnapshot.load store).ensureValidators e.validators).noteLiveness address

/-- Notes that a validator is live. -/
def noteValidatorLiveness (address : Address) : EngineM PUnit := do
  let w ← get
  match e.noted w.disk.store address with
  | .error err => throw err.toText
  | .ok staking =>
    emit (.observe (.live address))
    emit (.write (.putStakingState staking))

/-- Signs a vote of the local validator for the current round, logs it and sends it. -/
def castVote (localValidator : LocalValidator) (step : VoteStep) (blockHash : Hash32) :
    EngineM Vote := do
  let w ← get
  let vote : Vote :=
    { height := w.state.height, round := w.state.round, step, blockHash
      validatorAddress := localValidator.validator.address
      publicKey := localValidator.validator.publicKey, signature := [] }
  match signVote e.scheme vote localValidator.secretKey with
  | .error err => throw err
  | .ok vote =>
    emit (.signVote vote)
    e.noteValidatorLiveness localValidator.validator.address
    appendWal (.voteBroadcast vote.height vote.round step blockHash vote.validatorAddress)
    update fun s => s.markCast step
    emit (.broadcast (.vote vote))
    return vote

/-- Casts a vote unless the node has no active validator or has voted in the phase. -/
def castOnce (step : VoteStep) (choice : RoundState → Hash32) : EngineM (Option Vote) := do
  let w ← get
  match e.localValidator with
  | none => return none
  | some localValidator =>
    if ¬ e.localValidatorActive w.disk.store then return none
    else if w.state.hasCast step then return none
    else
      let vote ← e.castVote localValidator step (choice w.state)
      return some vote

/-- Casts the prevote of the round by the locking rule. -/
def emitPrevote : EngineM (Option Vote) := e.castOnce .prevote RoundState.prevoteChoice

/-- Casts the precommit of the round. -/
def emitPrecommit (blockHash : Hash32) : EngineM (Option Vote) :=
  e.castOnce .precommit fun _ => blockHash

/-- A quorum of prevotes is there: locks on the proposal if it is the block voted for. -/
def observeQuorum (vote : Vote) : EngineM PUnit := do
  let w ← get
  match w.state.proposal with
  | none => return ⟨⟩
  | some block =>
    if vote.blockHash ≠ nilHash ∧ block.hash = vote.blockHash then
      update fun s => s.observePolka vote.round block
      appendWal (.polkaObserved vote.height vote.round vote.blockHash block)
      appendWal (.locked vote.height vote.round vote.blockHash block)
    else return ⟨⟩

/-- What a reached quorum calls for: the hash to precommit and the hash to finalize. -/
def actOnQuorum (vote : Vote) : EngineM (Option Hash32 × Option Hash32) :=
  match vote.step with
  | .prevote => do
    observeQuorum vote
    return (some vote.blockHash, none)
  | .precommit => return (none, if vote.blockHash ≠ nilHash then some vote.blockHash else none)

/-- Records a vote; gives back the hash to precommit and the hash to finalize. -/
def recordVote (vote : Vote) : EngineM (Option Hash32 × Option Hash32) := do
  Handler.ofExcept (verifyVote e.scheme vote)
  e.noteValidatorLiveness vote.validatorAddress
  let w ← get
  if vote.height ≠ w.state.height ∨ vote.round ≠ w.state.round then return (none, none)
  else if w.state.conflicts vote then
    update fun s => s.addEvidence
      ⟨vote.validatorAddress, vote.height, vote.round, "duplicate vote"⟩
    appendWal (.evidenceRecorded vote.height vote.round vote.validatorAddress "duplicate vote")
    return (none, none)
  else
    appendWal (.voteRecorded vote.height vote.round vote.step vote.blockHash
      vote.validatorAddress)
    update fun s => s.count vote
    let w ← get
    let voters := w.state.voters vote.step vote.blockHash
    if voters.card < e.quorum w.disk.store then return (none, none)
    else
      emit (.observe (.quorum vote.step vote.blockHash voters (e.activeValidators w.disk.store)))
      actOnQuorum vote

/-- Checks one vote of a certificate. -/
def checkCertificateVote (certificate : CommitCertificate) (vote : Vote) : Except String Unit := do
  verifyVote e.scheme vote
  if vote.height ≠ certificate.height ∨ vote.round ≠ certificate.round then
    throw "certificate vote height/round mismatch"
  else if vote.step ≠ .precommit then throw "certificate must contain only precommit votes"
  else if vote.blockHash ≠ certificate.blockHash then throw "certificate vote block hash mismatch"
  else return ()

/-- The authors of the votes of a certificate. -/
def certificateAuthors (certificate : CommitCertificate) : Finset Address :=
  (certificate.votes.map Vote.validatorAddress).toFinset

/-- Validates the certificate of a block. -/
def validateCommitCertificate (store : Store) (block : Block) (certificate : CommitCertificate) :
    Except String Unit := do
  if certificate.blockHash ≠ block.hash then throw "certificate block hash mismatch"
  else if certificate.height ≠ block.header.height then throw "certificate height mismatch"
  else if certificate.round ≠ block.header.round then throw "certificate round mismatch"
  else
    certificate.votes.forM (e.checkCertificateVote certificate)
    if (certificateAuthors certificate).card < e.quorum store then
      throw "certificate quorum not reached"
    else return ()

/-- Applies the evidence recorded so far to the staking state and forgets it. -/
def applyPendingEvidence : EngineM PUnit := do
  let w ← get
  update fun s => { s with evidence := [] }
  if w.state.evidence = [] then return ⟨⟩
  else
    match ((StakingSnapshot.load w.disk.store).ensureValidators e.validators).applyEvidence
        w.state.evidence e.economics with
    | .error err => throw err.toText
    | .ok staking =>
      emit (.observe (.punished w.state.evidence))
      emit (.write (.putStakingState staking))

/-- Moves to another height. -/
def advanceHeight (nextHeight : ℕ) : EngineM PUnit := do
  update fun s => s.toHeight nextHeight
  persistSnapshot
  appendWal (.heightAdvanced nextHeight)

/-- Moves to the next round. -/
def advanceRound : EngineM PUnit := do
  update RoundState.toNextRound
  persistSnapshot
  let w ← get
  appendWal (.roundAdvanced w.state.height w.state.round)

/-- Compaction of the log and pruning of old blocks after a height has been finalized. -/
def tidy (height : ℕ) : EngineM PUnit := do
  if 10 < height then emit (.write (.compactConsensusWal (saturatingSub height 10)))
  if 1000 < height then emit (.write (.pruneBlocksBelow (saturatingSub height 1000)))

/-- Announces a finalized block, tidies up and moves to the next height. -/
def closeHeight (finalized : FinalizedBlock) : EngineM PUnit := do
  let w ← get
  emit (.broadcast (.commit finalized))
  tidy w.state.height
  advanceHeight (wrappingAdd 64 w.state.height 1)

/-- The certificate made of the recorded precommits for a hash. -/
def certificateOf (s : RoundState) (blockHash : Hash32) : CommitCertificate :=
  { blockHash, height := s.height, round := s.round
    votes := s.votes.filter fun vote => vote.step = .precommit ∧ vote.blockHash = blockHash }

variable [Revm]

/-- Executes a block with its certificate and commits both. -/
def executeAndStore (block : Block) (certificate : CommitCertificate) :
    EngineM FinalizedBlock := do
  let executed ← onDisk ExecutionError.toText (e.execution.executeBlock e.scheme block)
  let finalized : FinalizedBlock :=
    { block := executed.block, certificate, receipts := executed.receipts
      epochTransition := executed.epochTransition }
  appendWal (.commitFinalized certificate.height certificate.round certificate.blockHash)
  emit (.write (.atomicCommitBlock finalized executed.state))
  return finalized

/-- Finalizes the proposal of the round, if it is the block with the given hash. -/
def finalize (blockHash : Hash32) : EngineM PUnit := do
  let w ← get
  match w.state.proposal with
  | none => throw "missing proposal for finalize"
  | some block =>
    if block.hash ≠ blockHash then return ⟨⟩
    else
      let certificate := certificateOf w.state blockHash
      Handler.ofExcept (e.validateCommitCertificate w.disk.store block certificate)
      let finalized ← e.executeAndStore block certificate
      e.applyPendingEvidence
      closeHeight finalized

/-- Answers a quorum of prevotes with the own precommit; gives back the hash to finalize. -/
def answerQuorum (shouldPrecommit : Option Hash32) : EngineM (Option Hash32) :=
  match shouldPrecommit with
  | none => return none
  | some blockHash => do
    match ← e.emitPrecommit blockHash with
    | none => return none
    | some precommitVote =>
      let (_, localFinalize) ← e.recordVote precommitVote
      return localFinalize

/-- Records a vote and takes the actions it calls for. -/
def handleVoteActions (vote : Vote) : EngineM PUnit := do
  let (shouldPrecommit, shouldFinalize) ← e.recordVote vote
  let localFinalize ← e.answerQuorum shouldPrecommit
  match shouldFinalize.or localFinalize with
  | none => return ⟨⟩
  | some blockHash => e.finalize blockHash

/-- Casts the prevote of the round and drives the votes that follow from it. -/
def prevoteAndDrive : EngineM PUnit := do
  match ← e.emitPrevote with
  | none => return ⟨⟩
  | some vote => e.handleVoteActions vote

/-- Validates a proposal against the proposer of its round. -/
def validateProposal (store : Store) (proposal : Proposal) : Except String Unit := do
  let expected ← e.proposerFor store proposal.height proposal.round
  validateIncomingProposal e.scheme expected proposal e.chainId store e.execution
    e.params.maxTransactionsPerBlock

/-- The evidence that a second proposal of a round gives rise to. -/
def proposalEvidence (proposal : Proposal) : Evidence :=
  ⟨proposal.validatorAddress, proposal.height, proposal.round, "conflicting proposal"⟩

/-- Records evidence of a second proposal, if there is none yet. -/
def recordConflictingProposal (proposal : Proposal) : EngineM PUnit := do
  let w ← get
  if (proposal.validatorAddress, proposal.height, proposal.round) ∈ w.state.processedEvidence then
    return ⟨⟩
  else
    appendWal (.evidenceRecorded proposal.height proposal.round proposal.validatorAddress
      "conflicting proposal")
    update fun s => s.addEvidence (proposalEvidence proposal)

/-- Handles a proposal. -/
def onProposal (proposal : Proposal) : EngineM PUnit := do
  let w ← get
  Handler.ofExcept (e.validateProposal w.disk.store proposal)
  if proposal.height ≠ w.state.height ∨ proposal.round ≠ w.state.round then return ⟨⟩
  else
    match w.state.proposal with
    | some existing =>
      if existing.hash ≠ proposal.block.hash then recordConflictingProposal proposal
      else return ⟨⟩
    | none =>
      appendWal (.proposalAccepted proposal.height proposal.round proposal.block.hash)
      update fun s => { s with proposal := some proposal.block }
      e.prevoteAndDrive

/-- Handles a vote. -/
def onVote (vote : Vote) : EngineM PUnit := e.handleVoteActions vote

/-- Imports an externally finalized block; also the handler of commit messages. -/
def importExternalFinalizedBlock (finalized : FinalizedBlock) : EngineM PUnit := do
  let w ← get
  if finalized.certificate.height < w.state.height then return ⟨⟩
  else
    Handler.ofExcept (e.validateCommitCertificate w.disk.store finalized.block
      finalized.certificate)
    appendWal (.commitFinalized finalized.certificate.height finalized.certificate.round
      finalized.certificate.blockHash)
    onDisk ExecutionError.toText
      (e.execution.validateAndCommitFinalizedBlock e.scheme finalized)
    advanceHeight (wrappingAdd 64 finalized.block.header.height 1)

/-- The slashing protection of a validator after it has been marked for a proposal; none if
a proposal of this or a later height was signed before. -/
def protect (store : Store) (address : Address) (height : ℕ) : Option SlashingProtection :=
  let protection := store.slashingProtection[address]?.getD {}
  if height ≤ protection.lastSignedProposalHeight then none
  else some { protection with lastSignedProposalHeight := height }

/-- Builds and signs a block of pending transactions; none if it is too large. -/
def buildBlock (localValidator : LocalValidator) (proposer : Address) (pending : List Transaction)
    (timestampMs : ℕ) : EngineM (Option Block) := do
  let w ← get
  let transactions := pending.take e.params.maxTransactionsPerBlock
  let (stateAfter, receipts) ← onDisk id
    (e.execution.dryRunTransactions e.scheme w.state.height transactions proposer)
  let w ← get
  let header := e.execution.buildHeader w.disk.store proposer w.state.height w.state.round
    timestampMs transactions stateAfter receipts
  match signBlock e.scheme header transactions localValidator.validator.publicKey
      localValidator.secretKey with
  | .error err => throw err
  | .ok block =>
    emit (.signHeader header)
    if e.params.maxBlockBytes < block.encode.length then return none
    else return some block

/-- Takes the own block as the proposal of the round and sends it. -/
def announceBlock (localValidator : LocalValidator) (proposer : Address) (block : Block) :
    EngineM PUnit := do
  e.noteValidatorLiveness localValidator.validator.address
  let w ← get
  appendWal (.proposalAccepted w.state.height w.state.round block.hash)
  update fun s => { s with proposal := some block }
  appendWal (.proposalBroadcast w.state.height w.state.round block.hash)
  emit (.broadcast (.proposal ⟨w.state.height, w.state.round, block, proposer⟩))

/-- Proposes a block where the local validator is the proposer of the round. -/
def maybePropose (pending : List Transaction) (timestampMs : ℕ) : EngineM PUnit := do
  let w ← get
  match e.localValidator with
  | none => return ⟨⟩
  | some localValidator =>
    if ¬ e.localValidatorActive w.disk.store then return ⟨⟩
    else
      let proposer ← Handler.ofExcept (e.proposerFor w.disk.store w.state.height w.state.round)
      if proposer.address ≠ localValidator.validator.address then return ⟨⟩
      else if w.state.proposal.isSome then return ⟨⟩
      else
        match protect w.disk.store localValidator.validator.address w.state.height with
        | none => return ⟨⟩
        | some protection =>
          emit (.write (.putSlashingProtection localValidator.validator.address protection))
          match ← e.buildBlock localValidator proposer.address pending timestampMs with
          | none => return ⟨⟩
          | some block =>
            e.announceBlock localValidator proposer.address block
            e.prevoteAndDrive

/-- Handles the timeout of a round. -/
def onTimeout (pending : List Transaction) (timestampMs : ℕ) : EngineM PUnit := do
  e.prevoteAndDrive
  advanceRound
  e.maybePropose pending timestampMs

/-- What the consensus task does before its first message. -/
def onStart (pending : List Transaction) (timestampMs : ℕ) : EngineM PUnit := do
  persistSnapshot
  e.maybePropose pending timestampMs

end ConsensusEngine

/-- The events of a consensus task. -/
inductive Event
  | start (pending : List Transaction) (timestampMs : ℕ)
  | proposal (proposal : Proposal)
  | vote (vote : Vote)
  | commit (finalized : FinalizedBlock)
  | timeout (pending : List Transaction) (timestampMs : ℕ)

/-- The vote that an event delivers. -/
def Event.vote? : Event → Option Vote
  | .vote v => some v
  | _ => none

/-- The proposal that an event delivers. -/
def Event.proposal? : Event → Option Proposal
  | .proposal p => some p
  | _ => none

/-- The finalized block that an event delivers. -/
def Event.commit? : Event → Option FinalizedBlock
  | .commit f => some f
  | _ => none

namespace ConsensusEngine

variable [Hashing] [Revm] (e : ConsensusEngine)

/-- The handler of an event. -/
def handler : Event → EngineM PUnit
  | .start pending timestampMs => e.onStart pending timestampMs
  | .proposal proposal => e.onProposal proposal
  | .vote vote => e.onVote vote
  | .commit finalized => e.importExternalFinalizedBlock finalized
  | .timeout pending timestampMs => e.onTimeout pending timestampMs

/-- The world after an event, handled with or without an error. -/
def handle (w : World) (event : Event) : World := Handler.final (e.handler event w)

end ConsensusEngine

/-! ## Recovery -/

/-- What recovery reads from the snapshot and the log. -/
structure RecoveredState where
  height : ℕ
  round : ℕ
  lockedRound : Option ℕ := none
  lockedBlock : Option Block := none
  validRound : Option ℕ := none
  validBlock : Option Block := none
deriving DecidableEq

/-- The recovered state at the start of a later height. -/
def RecoveredState.toHeight (r : RecoveredState) (nextHeight : ℕ) : RecoveredState :=
  if r.height < nextHeight then { height := nextHeight, round := 0 } else r

/-- The recovered state after a log entry. -/
def RecoveredState.replay (r : RecoveredState) : ConsensusWalEntry → RecoveredState
  | .snapshotPersisted height round =>
    if r.height < height ∨ (r.height = height ∧ r.round ≤ round) then { r with height, round }
    else r
  | .heightAdvanced nextHeight => r.toHeight nextHeight
  | .roundAdvanced height nextRound =>
    if height = r.height ∧ r.round < nextRound then { r with round := nextRound } else r
  | .commitFinalized height _ _ => r.toHeight (saturatingAdd 64 height 1)
  | .locked height lockedRound _ block =>
    if height = r.height then
      { r with lockedRound := some lockedRound, lockedBlock := some block }
    else r
  | .polkaObserved height validRound _ block =>
    if height = r.height then { r with validRound := some validRound, validBlock := some block }
    else r
  | .proposalAccepted .. | .proposalBroadcast .. | .voteRecorded .. | .voteBroadcast ..
  | .evidenceRecorded .. => r

/-- Recovers from a snapshot and the log. -/
def recoverSnapshot (snapshot : ConsensusSnapshot) (wal : List ConsensusWalEntry) :
    RecoveredState :=
  wal.foldl RecoveredState.replay { height := snapshot.height, round := snapshot.round }

/-- The snapshot of a store, or the first round after its latest block. -/
def Store.startSnapshot (store : Store) : ConsensusSnapshot :=
  store.snapshot.getD
    ⟨(store.latestBlock.map fun block => wrappingAdd 64 block.block.header.height 1).getD 1, 0⟩

/-- The round state that an engine starts with on a store. -/
def recovered (store : Store) : RoundState :=
  let r := recoverSnapshot store.startSnapshot store.loadConsensusWal
  { height := r.height, round := r.round, lockedRound := r.lockedRound
    lockedBlock := r.lockedBlock, validRound := r.validRound, validBlock := r.validBlock }

/-- The world in which an engine starts, or starts again, on the disk of its process. -/
def World.boot (disk : Disk) : World := { disk, state := recovered disk.store }

/-- The engine of a node: its local validator is one of the genesis validators. -/
def ConsensusEngine.new (genesis : Genesis) (scheme : SignatureScheme)
    (execution : ExecutionEngine) (localValidator : Option LocalValidator) : ConsensusEngine :=
  { chainId := genesis.chainId, validators := genesis.validators, scheme, execution
    params := genesis.consensus, economics := genesis.economics, localValidator }

end ZenoChain
