/-
# The moves of the engine

Every handler of the engine is a sequence of a few moves: a liveness note, an own vote, a
vote counted, a lock, a block committed, and so on.  This file says what each move does and
when it happens, and proves that a handler, whether it ends normally or with an error, is a
sequence of moves.  What holds in every run is then proved one move at a time.
-/
import ZenoChain.Consensus.Engine
import ZenoChain.Execution.Chain

namespace ZenoChain

open Word

/-! ## Quiet effects -/

/-- The effect signs no vote, changes no account, no staking or governance state and no block,
and logs neither a lock nor evidence. -/
def Effect.isQuiet : Effect → Bool
  | .signVote _ | .observe _ => false
  | .signHeader _ | .broadcast _ => true
  | .write (.putAccount ..) | .write (.putStakingState _) | .write (.putGovernanceState _)
  | .write (.putEpochTransition _) | .write (.atomicCommitBlock ..) => false
  | .write (.appendConsensusWal (.locked ..)) | .write (.appendConsensusWal (.polkaObserved ..))
  | .write (.appendConsensusWal (.evidenceRecorded ..)) => false
  | .write _ => true

lemma Effect.isQuiet_of_isEvmWrite {x : Effect} (h : x.IsEvmWrite) : x.isQuiet := by
  cases h
  rfl

lemma Effect.commits_of_isQuiet {x : Effect} (h : x.isQuiet) : x.commits = none := by
  unfold commits
  split
  · cases h
  · rfl

section

variable [Hashing]

lemma stakingState_record_quiet (d : Disk) {x : Effect} (h : x.isQuiet) :
    (d.record x).store.stakingState = d.store.stakingState := by
  rcases x with w | _ | _ | _ | _
  · cases w with
    | compactConsensusWal =>
      -- The one write that is defined by cases on the backend.
      simp only [Disk.store_record_write, Store.apply, Store.compactConsensusWal]
      split <;> rfl
    | _ => first | rfl | cases h
  all_goals rfl

lemma governanceState_record_quiet (d : Disk) {x : Effect} (h : x.isQuiet) :
    (d.record x).store.governanceState = d.store.governanceState := by
  rcases x with w | _ | _ | _ | _
  · cases w with
    | compactConsensusWal =>
      simp only [Disk.store_record_write, Store.apply, Store.compactConsensusWal]
      split <;> rfl
    | _ => first | rfl | cases h
  all_goals rfl

/-- Quiet effects keep what the staking and governance views are made of, and commit nothing. -/
lemma recordAll_quiet {es : List Effect} (h : ∀ x ∈ es, x.isQuiet) (d : Disk) :
    (d.recordAll es).store.stakingState = d.store.stakingState ∧
    (d.recordAll es).store.governanceState = d.store.governanceState := by
  induction es generalizing d with
  | nil => exact ⟨rfl, rfl⟩
  | cons x es ih =>
    obtain ⟨h₁, h₂⟩ := ih (fun y hy => h y (List.mem_cons_of_mem _ hy)) (d.record x)
    have hx := h x List.mem_cons_self
    rw [Disk.recordAll_cons, h₁, h₂, stakingState_record_quiet d hx, governanceState_record_quiet d hx]
    exact ⟨rfl, rfl⟩

lemma OnlyEvmWrites.quiet {d d' : Disk} (h : OnlyEvmWrites d d') :
    ∃ es, (∀ x ∈ es, Effect.isQuiet x) ∧ d' = d.recordAll es := by
  obtain ⟨es, hes, rfl⟩ := h
  exact ⟨es, fun x hx => Effect.isQuiet_of_isEvmWrite (hes x hx), rfl⟩

end

/-! ## Who is known and who stands -/

namespace ConsensusEngine

/-- The staking state as the engine reads it: with the configured validators in it. -/
def view (e : ConsensusEngine) (store : Store) : StakingSnapshot :=
  (StakingSnapshot.load store).ensureValidators e.validators

/-- The records of the view without the epochs in which the validators were seen last. -/
def standing (e : ConsensusEngine) (store : Store) : BTreeMap Address ValidatorStake :=
  (e.view store).standing

variable {e : ConsensusEngine} {store store' : Store}

lemma view_congr (h : store'.stakingState = store.stakingState) : e.view store' = e.view store := by
  rw [view, view, StakingSnapshot.load, StakingSnapshot.load, h]

lemma standing_congr (h : store'.stakingState = store.stakingState) :
    e.standing store' = e.standing store := by
  rw [standing, standing, view_congr h]

lemma activeValidators_congr (h : e.standing store' = e.standing store) :
    e.activeValidators store' = e.activeValidators store := by
  have hset := StakingSnapshot.effectiveValidatorSet_congr h e.economics
  simp only [view] at hset
  simp only [activeValidators, hset]

lemma quorum_congr (h : e.standing store' = e.standing store) :
    e.quorum store' = e.quorum store := by
  rw [quorum, quorum, activeValidators_congr h]

lemma localValidatorActive_congr (h : e.standing store' = e.standing store) :
    e.localValidatorActive store' = e.localValidatorActive store := by
  rw [localValidatorActive, localValidatorActive]
  split
  · rfl
  · exact StakingSnapshot.isValidatorActive_congr h _ _

/-- The staking state after a note, read back, is the noted one. -/
lemma view_put_noted {a : Address} {staking : StakingSnapshot}
    (h : e.noted store a = .ok staking) (hput : store'.stakingState = some staking) :
    e.view store' = staking := by
  rw [view, StakingSnapshot.load, hput, Option.getD_some]
  refine StakingSnapshot.ensureValidators_of_known fun v hv => ?_
  rw [StakingSnapshot.isSome_of_noteLiveness h]
  exact StakingSnapshot.isSome_ensureValidators.mpr (.inl (List.mem_map_of_mem hv))

lemma standing_put_noted {a : Address} {staking : StakingSnapshot}
    (h : e.noted store a = .ok staking) (hput : store'.stakingState = some staking) :
    e.standing store' = e.standing store := by
  rw [standing, view_put_noted h hput, standing]
  exact StakingSnapshot.standing_noteLiveness h

/-- An active local validator has a record, so that it can be noted as live. -/
lemma exists_noted_of_active {l : LocalValidator} (hl : e.localValidator = some l)
    (h : e.localValidatorActive store) : ∃ staking, e.noted store l.validator.address = .ok staking := by
  rw [localValidatorActive, hl] at h
  simp only [StakingSnapshot.isValidatorActive] at h
  obtain ⟨v, hv, -⟩ := Option.any_eq_true _ _ |>.mp h
  exact ⟨_, StakingSnapshot.noteLiveness_of_known hv⟩

end ConsensusEngine

/-! ## The round state -/

namespace RoundState

/-- The lock and the valid block. -/
def locks (s : RoundState) : (Option ℕ × Option Block) × (Option ℕ × Option Block) :=
  ((s.lockedRound, s.lockedBlock), (s.validRound, s.validBlock))

variable (s : RoundState) (vote : Vote) (item : Evidence)

/-- Counting a vote touches the votes and the tallies only. -/
lemma count_eq : ∃ prevotes precommits, s.count vote =
    { s with votes := s.votes ++ [vote], prevotes := prevotes, precommits := precommits } := by
  rw [count]
  split
  · exact ⟨_, _, rfl⟩
  · exact ⟨_, _, rfl⟩

/-- Recording evidence touches the evidence only. -/
lemma addEvidence_eq : ∃ processed evidence, s.addEvidence item =
    { s with processedEvidence := processed, evidence := evidence } := by
  simp only [addEvidence]
  split
  · exact ⟨_, _, rfl⟩
  · exact ⟨_, _, rfl⟩

lemma evidence_addEvidence_subset : (s.addEvidence item).evidence ⊆ s.evidence ++ [item] := by
  simp only [addEvidence]
  split
  · exact List.subset_append_left _ _
  · exact List.Subset.refl _

@[simp] lemma height_count : (s.count vote).height = s.height := by
  obtain ⟨p, q, h⟩ := s.count_eq vote
  rw [h]

@[simp] lemma round_count : (s.count vote).round = s.round := by
  obtain ⟨p, q, h⟩ := s.count_eq vote
  rw [h]

@[simp] lemma proposal_count : (s.count vote).proposal = s.proposal := by
  obtain ⟨p, q, h⟩ := s.count_eq vote
  rw [h]

@[simp] lemma votes_count : (s.count vote).votes = s.votes ++ [vote] := by
  obtain ⟨p, q, h⟩ := s.count_eq vote
  rw [h]

@[simp] lemma evidence_count : (s.count vote).evidence = s.evidence := by
  obtain ⟨p, q, h⟩ := s.count_eq vote
  rw [h]

@[simp] lemma hasCast_count (step : VoteStep) : (s.count vote).hasCast step = s.hasCast step := by
  obtain ⟨p, q, h⟩ := s.count_eq vote
  rw [h]
  cases step <;> rfl

@[simp] lemma locks_count : (s.count vote).locks = s.locks := by
  obtain ⟨p, q, h⟩ := s.count_eq vote
  rw [h]
  rfl

/-- The voters after a vote: its author has joined those for its hash in its phase. -/
lemma voters_count (step : VoteStep) (blockHash : Hash32) :
    (s.count vote).voters step blockHash =
      if step = vote.step ∧ blockHash = vote.blockHash then
        insert vote.validatorAddress (s.voters step blockHash)
      else s.voters step blockHash := by
  rw [count]
  cases hstep : vote.step <;> cases step <;>
    simp only [voters, tally, addVoter, Table.getElem?_insert, reduceCtorEq, false_and, true_and,
      if_false]
  all_goals
    split
    · rename_i h
      rw [h]
      rfl
    · rfl

@[simp] lemma voters_clearRound (step : VoteStep) (blockHash : Hash32) :
    s.clearRound.voters step blockHash = ∅ := by
  cases step <;> rfl

@[simp] lemma voters_toHeight (n : ℕ) (step : VoteStep) (blockHash : Hash32) :
    (s.toHeight n).voters step blockHash = ∅ := by
  cases step <;> rfl

@[simp] lemma voters_toNextRound (step : VoteStep) (blockHash : Hash32) :
    s.toNextRound.voters step blockHash = ∅ := by
  cases step <;> rfl

lemma hasCast_markCast (step step' : VoteStep) :
    (s.markCast step).hasCast step' = (decide (step' = step) || s.hasCast step') := by
  cases step <;> cases step' <;> rfl

/-- Marking an own vote as cast touches its flag only. -/
lemma markCast_eq (step : VoteStep) : ∃ prevoted precommitted, s.markCast step =
    { s with prevoted := prevoted, precommitted := precommitted } := by
  cases step
  · exact ⟨_, _, rfl⟩
  · exact ⟨_, _, rfl⟩

end RoundState

/-! ## What the moves do -/

namespace World

variable [Hashing]

/-- Some effects on the disk. -/
def emitAll (w : World) (es : List Effect) : World := { w with disk := w.disk.recordAll es }

@[simp] lemma state_emitAll (w : World) (es : List Effect) : (w.emitAll es).state = w.state := rfl

@[simp] lemma disk_emitAll (w : World) (es : List Effect) :
    (w.emitAll es).disk = w.disk.recordAll es := rfl

/-- A liveness note. -/
def note (w : World) (a : Address) (staking : StakingSnapshot) : World :=
  w.emitAll [.observe (.live a), .write (.putStakingState staking)]

@[simp] lemma state_note (w : World) (a : Address) (staking : StakingSnapshot) :
    (w.note a staking).state = w.state := rfl

/-- A block taken as the proposal of the round. -/
def accept (w : World) (block : Block) : World :=
  { w with state := { w.state with proposal := some block } }

/-- A vote logged and counted. -/
def count (w : World) (vote : Vote) : World :=
  { disk := w.disk.record (.write (.appendConsensusWal
      (.voteRecorded vote.height vote.round vote.step vote.blockHash vote.validatorAddress)))
    state := w.state.count vote }

/-- Evidence logged and recorded. -/
def accuse (w : World) (item : Evidence) : World :=
  { disk := w.disk.record (.write (.appendConsensusWal
      (.evidenceRecorded item.height item.round item.validatorAddress item.reason)))
    state := w.state.addEvidence item }

/-- A quorum reported among the validators of the moment. -/
def report (e : ConsensusEngine) (w : World) (step : VoteStep) (blockHash : Hash32) : World :=
  w.emitAll [.observe (.quorum step blockHash (w.state.voters step blockHash)
    (e.activeValidators w.disk.store))]

/-- A lock on a block for which a quorum of prevotes was seen in a round. -/
def lock (w : World) (height round : ℕ) (block : Block) (blockHash : Hash32) : World :=
  { disk := w.disk.recordAll
      [.write (.appendConsensusWal (.polkaObserved height round blockHash block)),
       .write (.appendConsensusWal (.locked height round blockHash block))]
    state := w.state.observePolka round block }

/-- The effects of casting a vote. -/
def castEffects (vote : Vote) (staking : StakingSnapshot) : List Effect :=
  [.signVote vote, .observe (.live vote.validatorAddress), .write (.putStakingState staking),
   .write (.appendConsensusWal
     (.voteBroadcast vote.height vote.round vote.step vote.blockHash vote.validatorAddress)),
   .broadcast (.vote vote)]

/-- An own vote signed, logged and sent. -/
def cast (w : World) (vote : Vote) (staking : StakingSnapshot) : World :=
  { disk := w.disk.recordAll (castEffects vote staking), state := w.state.markCast vote.step }

end World

/-- A block is committed to a disk: what the replay writes, then the block and its accounting
in the order of the local finalization or of the import. -/
inductive Commits [Hashing] [Revm] (e : ConsensusEngine) (f : FinalizedBlock) (d : Disk) :
    Disk → Prop
  | intro (d₁ : Disk) (p : PreparedBlock) (tail : List Effect)
      (prepares : ExecutionEngine.Prepares e.execution e.scheme f.block d p d₁)
      (order :
        tail = ExecutionEngine.accountingWrites p ++
            [.write (.appendConsensusWal (.commitFinalized f.certificate.height f.certificate.round
              f.certificate.blockHash)), .write (.atomicCommitBlock f p.state)] ∨
        tail = .write (.atomicCommitBlock f p.state) :: ExecutionEngine.accountingWrites p) :
      Commits e f d (d₁.recordAll tail)

/-- The recorded evidence is applied to the staking state of a disk. -/
inductive Settles [Hashing] (e : ConsensusEngine) : List Evidence → Disk → Disk → Prop
  | none (d : Disk) : Settles e [] d d
  | some {items : List Evidence} {d : Disk} {staking : StakingSnapshot} (hne : items ≠ [])
      (h : (e.view d.store).applyEvidence items e.economics = .ok staking) :
      Settles e items d
        (d.recordAll [.observe (.punished items), .write (.putStakingState staking)])

/-! ## When the moves happen -/

namespace ConsensusEngine

variable [Hashing] (e : ConsensusEngine)

/-- A vote that the local validator has signed and may cast. -/
def OwnVote (w : World) (vote : Vote) : Prop :=
  .signVote vote ∈ w.disk.journal ∧ e.localValidatorActive w.disk.store ∧
    ∃ l, e.localValidator = some l ∧ vote.validatorAddress = l.validator.address

/-- The local validator is active and casts a vote of its own for the current round, the first
one in its phase. -/
structure MayCast (w : World) (vote : Vote) (staking : StakingSnapshot) : Prop where
  active : e.localValidatorActive w.disk.store
  fresh : w.state.hasCast vote.step = false
  height : vote.height = w.state.height
  round : vote.round = w.state.round
  author : ∃ l, e.localValidator = some l ∧ vote.validatorAddress = l.validator.address
  noted : e.noted w.disk.store vote.validatorAddress = .ok staking

/-- A vote that is recorded while an event is handled is the one that was delivered, among the
validators of that moment, or an own one. -/
def Sourced (w₀ : World) (event : Event) (w : World) (vote : Vote) : Prop :=
  (event = .vote vote ∧ e.standing w.disk.store = e.standing w₀.disk.store) ∨ e.OwnVote w vote

/-- The node is locked, in the current round, on its proposal, which has the given hash. -/
def LockedNow (s : RoundState) (blockHash : Hash32) : Prop :=
  ∃ block, s.proposal = some block ∧ block.hash = blockHash ∧
    s.locks = ((some s.round, some block), (some s.round, some block))

/-- The delivered vote completes a quorum of prevotes for a block other than the proposal that
the node holds, if it holds one, and the node answers with its precommit: it precommits
without taking the lock. -/
def BlindPrecommit (w : World) (vote : Vote) : Prop :=
  vote.step = .prevote ∧ vote.blockHash ≠ nilHash ∧
  vote.height = w.state.height ∧ vote.round = w.state.round ∧
  (∀ block ∈ w.state.proposal, block.hash ≠ vote.blockHash) ∧
  e.localValidatorActive w.disk.store = true ∧ w.state.precommitted = false ∧
  verifyVote e.scheme vote = .ok () ∧ w.state.conflicts vote = false ∧
  e.quorum w.disk.store ≤ ((w.state.count vote).voters .prevote vote.blockHash).card

instance (w : World) (vote : Vote) : Decidable (e.BlindPrecommit w vote) :=
  inferInstanceAs (Decidable (_ ∧ _))

/-- The hash for which an own vote is cast: by the locking rule in the first phase, and for a
quorum of prevotes in the second one. -/
def Chooses (w₀ : World) (event : Event) (w : World) (step : VoteStep) (blockHash : Hash32) :
    Prop :=
  match step with
  | .prevote => blockHash = w.state.prevoteChoice
  | .precommit =>
    e.quorum w.disk.store ≤ (w.state.voters .prevote blockHash).card ∧
      (blockHash = nilHash ∨ LockedNow w.state blockHash ∨
        ∃ vote, event = .vote vote ∧ vote.blockHash = blockHash ∧ e.BlindPrecommit w₀ vote)

/-- Why evidence is recorded. -/
inductive Accusation (w₀ : World) (event : Event) (w : World) : Evidence → Prop
  | vote {vote : Vote} (verified : verifyVote e.scheme vote = .ok ())
      (known : (e.view w.disk.store).validators[vote.validatorAddress]?.isSome)
      (conflicts : w.state.conflicts vote) (sourced : e.Sourced w₀ event w vote) :
      Accusation w₀ event w ⟨vote.validatorAddress, vote.height, vote.round, "duplicate vote"⟩
  | proposal {proposal : Proposal} {existing : Block} (cause : event = .proposal proposal)
      (start : w = w₀) (valid : e.validateProposal w.disk.store proposal = .ok ())
      (height : proposal.height = w.state.height) (round : proposal.round = w.state.round)
      (held : w.state.proposal = some existing) (differs : existing.hash ≠ proposal.block.hash) :
      Accusation w₀ event w (proposalEvidence proposal)

/-- A block becomes the proposal of the round: it was delivered and verified, or the local
validator has signed its header. -/
def Proposed (event : Event) (w : World) (block : Block) : Prop :=
  (∃ p, event = .proposal p ∧ p.block = block ∧ verifyBlock e.scheme block = .ok ()) ∨
    (.signHeader block.header ∈ w.disk.journal ∧
      ∃ l, e.localValidator = some l ∧ block.header.proposer = l.validator.address)

variable [Revm]

/-- The moves of the engine while it handles an event that it meets in `w₀`. -/
inductive Move (w₀ : World) (event : Event) : World → World → Prop
  | quiet {w : World} {es : List Effect} (quiet : ∀ x ∈ es, Effect.isQuiet x) :
      Move w₀ event w (w.emitAll es)
  | note {w : World} {a : Address} {staking : StakingSnapshot}
      (noted : e.noted w.disk.store a = .ok staking) : Move w₀ event w (w.note a staking)
  | accept {w : World} {block : Block} (vacant : w.state.proposal = none)
      (height : block.header.height = w.state.height) (round : block.header.round = w.state.round)
      (proposed : e.Proposed event w block) :
      Move w₀ event w (w.accept block)
  | accuse {w : World} {item : Evidence} (accusation : e.Accusation w₀ event w item) :
      Move w₀ event w (w.accuse item)
  | cast {w : World} {vote : Vote} {staking : StakingSnapshot}
      (mayCast : e.MayCast w vote staking)
      (chooses : e.Chooses w₀ event w vote.step vote.blockHash) :
      Move w₀ event w (w.cast vote staking)
  | count {w : World} {vote : Vote} (verified : verifyVote e.scheme vote = .ok ())
      (height : vote.height = w.state.height) (round : vote.round = w.state.round)
      (agrees : w.state.conflicts vote = false) (sourced : e.Sourced w₀ event w vote) :
      Move w₀ event w (w.count vote)
  | report {w : World} {step : VoteStep} {blockHash : Hash32}
      (reached : e.quorum w.disk.store ≤ (w.state.voters step blockHash).card) :
      Move w₀ event w (World.report e w step blockHash)
  | lock {w : World} {block : Block} (held : w.state.proposal = some block)
      (reached : e.quorum w.disk.store ≤ (w.state.voters .prevote block.hash).card) :
      Move w₀ event w (w.lock w.state.height w.state.round block block.hash)
  | finalize {w : World} {f : FinalizedBlock} {d₁ d₂ : Disk}
      (held : w.state.proposal = some f.block)
      (certificate : f.certificate = certificateOf w.state f.block.hash)
      (valid : e.validateCommitCertificate w.disk.store f.block f.certificate = .ok ())
      (commits : Commits e f w.disk d₁) (settles : Settles e w.state.evidence d₁ d₂)
      (bound : w.state.height ≤ w₀.state.height + 1) :
      Move w₀ event w
        { disk := d₂
          state := { w.state with evidence := [] }.toHeight (wrappingAdd 64 w.state.height 1) }
  | stall {w : World} {f : FinalizedBlock} {d₁ : Disk} {err : StateError}
      (held : w.state.proposal = some f.block)
      (certificate : f.certificate = certificateOf w.state f.block.hash)
      (valid : e.validateCommitCertificate w.disk.store f.block f.certificate = .ok ())
      (commits : Commits e f w.disk d₁)
      (fails : (e.view d₁.store).applyEvidence w.state.evidence e.economics = .error err) :
      Move w₀ event w { disk := d₁, state := { w.state with evidence := [] } }
  | adopt {w : World} {f : FinalizedBlock} {d₁ : Disk} (cause : event = .commit f)
      (ahead : w.state.height ≤ f.block.header.height)
      (valid : e.validateCommitCertificate w.disk.store f.block f.certificate = .ok ())
      (commits : Commits e f w.disk d₁) :
      Move w₀ event w
        { disk := d₁, state := w.state.toHeight (wrappingAdd 64 f.block.header.height 1) }
  | nextRound {w : World} (bound : w.state.round ≤ w₀.state.round) :
      Move w₀ event w { w with state := w.state.toNextRound }

/-- Any number of moves. -/
abbrev Moves (w₀ : World) (event : Event) : World → World → Prop :=
  Relation.ReflTransGen (e.Move w₀ event)

omit [Revm] in
/-- Why a validator is noted as live: the event delivers a verified vote of it, and the note comes
first; or the local validator has signed a vote or a header for the current height. -/
inductive Heard (w₀ : World) (event : Event) (w : World) : Address → Prop
  | delivered {vote : Vote} (cause : event = .vote vote) (start : w = w₀)
      (verified : verifyVote e.scheme vote = .ok ()) : Heard w₀ event w vote.validatorAddress
  | vote {vote : Vote} (signed : .signVote vote ∈ w.disk.journal)
      (height : vote.height = w.state.height) : Heard w₀ event w vote.validatorAddress
  | header {header : BlockHeader} (signed : .signHeader header ∈ w.disk.journal)
      (height : header.height = w.state.height) : Heard w₀ event w header.proposer

/-- A move; if it is a liveness note, there is a reason for it. -/
structure Hears (w₀ : World) (event : Event) (w w' : World) : Prop where
  move : e.Move w₀ event w w'
  heard : ∀ a staking, w' = w.note a staking → e.Heard w₀ event w a

/-- Any number of moves, with a reason for every note. -/
abbrev Hearings (w₀ : World) (event : Event) : World → World → Prop :=
  Relation.ReflTransGen (e.Hears w₀ event)

end ConsensusEngine

end ZenoChain
