/-
# Handlers are sequences of moves

From the outcomes of the functions of the engine: the handler of every event, whether it
ends normally or with an error, is a sequence of moves.
-/
import ZenoChain.Consensus.Outcomes

namespace ZenoChain

open Word Handler

namespace ConsensusEngine

variable [Hashing] [Revm] {e : ConsensusEngine} {w w' w₀ : World} {event : Event} {vote : Vote}

/-! ## Driving votes -/

/-- A sequence of moves within a round. -/
structure Steady (e : ConsensusEngine) (w₀ : World) (event : Event) (w w' : World) : Prop where
  moves : e.Hearings w₀ event w w'
  height : w'.state.height = w.state.height
  round : w'.state.round = w.state.round

lemma Steady.drives {w₁ w₂ w₃ : World} (h : Steady e w₀ event w₁ w₂)
    (h' : Drives e w₀ event w₂ w₃) : Drives e w₀ event w₁ w₃ where
  moves := h.moves.trans h'.moves
  height := h.height ▸ h'.height
  round := h.round ▸ h'.round

lemma Steady.trans {w₁ w₂ w₃ : World} (h : Steady e w₀ event w₁ w₂)
    (h' : Steady e w₀ event w₂ w₃) : Steady e w₀ event w₁ w₃ where
  moves := h.moves.trans h'.moves
  height := h'.height.trans h.height
  round := h'.round.trans h.round

lemma Steady.refl (w : World) : Steady e w₀ event w w := ⟨.refl, rfl, rfl⟩

lemma steady_quiet (es : List Effect) (quiet : ∀ x ∈ es, Effect.isQuiet x) :
    Steady e w₀ event w (w.emitAll es) := ⟨.single (.quiet quiet), rfl, rfl⟩

lemma steady_cast {staking : StakingSnapshot} (mayCast : e.MayCast w vote staking)
    (chooses : e.Chooses w₀ event w vote.step vote.blockHash) :
    Steady e w₀ event w (w.cast vote staking) := by
  obtain ⟨prevoted, precommitted, h⟩ := w.state.markCast_eq vote.step
  have hstate : (w.cast vote staking).state =
    { w.state with prevoted := prevoted, precommitted := precommitted } := h
  refine ⟨.single (.cast mayCast chooses), ?_, ?_⟩ <;> rw [hstate]

/-- Answering a quorum of prevotes is a sequence of moves within the round, whether it ends
normally or not. -/
lemma steady_answerQuorum (polka : Option Hash32)
    (chooses : ∀ blockHash ∈ polka, e.localValidatorActive w.disk.store →
      w.state.hasCast .precommit = false → e.Chooses w₀ event w .precommit blockHash) :
    Steady e w₀ event w (final (e.answerQuorum polka w)) := by
  rcases polka with _ | blockHash
  · exact .refl w
  show Steady e w₀ event w (final ((e.emitPrecommit blockHash >>= _) w))
  rcases castOnce_cases e .precommit (fun _ => blockHash) w with
    hrun | ⟨err, hrun⟩ | ⟨vote, staking, hmay, hstep, hhash, hrun⟩
  · rw [emitPrecommit, bind_ok hrun]
    exact .refl w
  · rw [emitPrecommit, bind_error hrun]
    exact .refl w
  · rw [emitPrecommit, bind_ok hrun]
    have hchooses : e.Chooses w₀ event w vote.step vote.blockHash := by
      rw [hstep, hhash]
      exact chooses blockHash rfl hmay.active (hstep ▸ hmay.fresh)
    refine (steady_cast hmay hchooses).trans ?_
    dsimp only
    have hsourced : e.Sourced w₀ event (w.cast vote staking) vote := .inr hmay.ownVote
    have hheard : e.Heard w₀ event (w.cast vote staking) vote.validatorAddress :=
      .vote hmay.ownVote.1 hmay.height_cast
    rcases recordVote_moves hsourced fun _ => hheard with
      ⟨err, hrecord⟩ | ⟨out, w₁, w', -, hrecord, hstate, -, hrec, hmoves⟩
    · rw [bind_error hrecord]
      exact .refl _
    · rw [bind_ok hrecord]
      refine ⟨hmoves, ?_, ?_⟩
      · show w'.state.height = _
        rw [hrec.stays.height, hstate]
      · show w'.state.round = _
        rw [hrec.stays.round, hstate]

omit [Revm] in
/-- A reported quorum of prevotes justifies the precommit, unless it is a blind one. -/
lemma Reported.chooses {w₁ : World} {blockHash : Hash32} (h : Reported e vote w₁ blockHash w')
    (hstate : w₁.state = w.state) (hstays₁ : Stays e w w₁) (hstays : Stays e w₁ w')
    (verified : verifyVote e.scheme vote = .ok ())
    (matched : vote.step = .prevote → vote.blockHash ≠ nilHash →
      (∃ block, w.state.proposal = some block ∧ block.hash = vote.blockHash) ∨
        (event = .vote vote ∧ w = w₀))
    (active : e.localValidatorActive w'.disk.store) (fresh : w'.state.hasCast .precommit = false) :
    e.Chooses w₀ event w' .precommit blockHash := by
  refine ⟨h.stillReached, ?_⟩
  rcases h.locked with hnil | hlocked | hunmatched
  · exact .inl hnil
  · exact .inr (.inl hlocked)
  by_cases hnil : vote.blockHash = nilHash
  · exact .inl (h.hash.trans hnil)
  rw [hstate] at hunmatched
  rcases matched h.step hnil with ⟨block, hheld, hhash⟩ | ⟨hevent, rfl⟩
  · exact absurd hhash (hunmatched block hheld)
  · have hagrees := h.agrees
    have hreached := h.reached
    rw [hstate] at hagrees hreached
    rw [quorum_congr hstays₁.standing] at hreached
    rw [localValidatorActive_congr (hstays.standing.trans hstays₁.standing)] at active
    rw [hstays.hasCast, hstays₁.hasCast] at fresh
    exact .inr (.inr ⟨vote, hevent, h.hash.symm, h.step, hnil, hstate ▸ h.height, hstate ▸ h.round,
      hunmatched, active, fresh, verified, hagrees, hreached⟩)

/-- Handling a vote is a sequence of moves. -/
lemma drives_handleVoteActions (sourced : e.Sourced w₀ event w vote)
    (heard : verifyVote e.scheme vote = .ok () → e.Heard w₀ event w vote.validatorAddress)
    (bound : w.state.height ≤ w₀.state.height + 1)
    (matched : vote.step = .prevote → vote.blockHash ≠ nilHash →
      (∃ block, w.state.proposal = some block ∧ block.hash = vote.blockHash) ∨
        (event = .vote vote ∧ w = w₀)) :
    Drives e w₀ event w (final (e.handleVoteActions vote w)) := by
  rw [handleVoteActions]
  rcases recordVote_moves sourced heard with
    ⟨err, hrun⟩ | ⟨⟨polka, finalized⟩, w₁, w', hverify, hrun, hstate, hstays₁, hrec, hmoves⟩
  · rw [bind_error hrun]
    exact .refl w
  rw [bind_ok hrun]
  dsimp only
  have hstays := hstays₁.trans hrec.stays
  have hrecord : Steady e w₀ event w w' := ⟨hmoves, hstays.height, hstays.round⟩
  have hanswer : Steady e w₀ event w' (final (e.answerQuorum polka w')) := by
    refine steady_answerQuorum polka fun blockHash hpolka hactive hfresh => ?_
    obtain rfl : polka = some blockHash := hpolka
    exact hrec.reported.chooses hstate hstays₁ hrec.stays hverify matched hactive hfresh
  rcases hans : e.answerQuorum polka w' with ⟨localFinalize, w₂⟩ | ⟨err, w₂⟩
  · rw [bind_ok hans]
    rw [hans, final_ok] at hanswer
    have hsteady := hrecord.trans hanswer
    refine hsteady.drives ?_
    rcases finalized.or localFinalize with _ | blockHash
    · exact .refl w₂
    · exact drives_finalize blockHash (hsteady.height ▸ bound)
  · rw [bind_error hans]
    rw [hans] at hanswer
    exact (hrecord.trans hanswer).drives (.refl w₂)

omit [Revm] in
/-- A prevote for a block is for the proposal of the round. -/
lemma prevoteChoice_of_ne_nil {s : RoundState} (h : s.prevoteChoice ≠ nilHash) :
    ∃ block, s.proposal = some block ∧ block.hash = s.prevoteChoice := by
  rw [RoundState.prevoteChoice] at h ⊢
  rcases hheld : s.proposal with _ | proposal
  · rw [hheld] at h
    rcases hlocked : s.lockedBlock with _ | locked <;> rw [hlocked] at h <;> exact absurd rfl h
  · refine ⟨proposal, rfl, ?_⟩
    rw [hheld] at h
    rcases hlocked : s.lockedBlock with _ | locked
    · rfl
    · rw [hlocked] at h
      dsimp only at h ⊢
      split_ifs at h ⊢ with h₁ h₂
      · rfl
      · rfl
      · exact absurd rfl h

/-- The own prevote of the round and what follows from it is a sequence of moves. -/
lemma drives_prevoteAndDrive (bound : w.state.height ≤ w₀.state.height + 1) :
    Drives e w₀ event w (final (e.prevoteAndDrive w)) := by
  rw [prevoteAndDrive]
  rcases castOnce_cases e .prevote RoundState.prevoteChoice w with
    hrun | ⟨err, hrun⟩ | ⟨vote, staking, hmay, hstep, hhash, hrun⟩
  · rw [emitPrevote, bind_ok hrun]
    exact .refl w
  · rw [emitPrevote, bind_error hrun]
    exact .refl w
  · rw [emitPrevote, bind_ok hrun]
    have hchooses : e.Chooses w₀ event w vote.step vote.blockHash := by
      rw [hstep]
      exact hhash
    have hcast : Steady e w₀ event w (w.cast vote staking) := steady_cast hmay hchooses
    have hheard : e.Heard w₀ event (w.cast vote staking) vote.validatorAddress :=
      .vote hmay.ownVote.1 hmay.height_cast
    refine hcast.drives (drives_handleVoteActions (.inr hmay.ownVote) (fun _ => hheard)
      (hcast.height ▸ bound) ?_)
    intro _ hne
    -- An own prevote for a block is for the proposal, so that its quorum is not a blind one.
    obtain ⟨block, hheld, hblock⟩ := prevoteChoice_of_ne_nil (hhash ▸ hne)
    obtain ⟨prevoted, precommitted, hmark⟩ := w.state.markCast_eq vote.step
    refine .inl ⟨block, ?_, hblock.trans hhash.symm⟩
    rw [World.cast, hmark]
    exact hheld

/-! ## Proposals -/

omit [Revm] in
lemma validateProposal_ok {store : Store} {proposal : Proposal}
    (h : e.validateProposal store proposal = .ok ()) :
    ∃ expected, e.proposerFor store proposal.height proposal.round = .ok expected ∧
      AcceptsProposal e.scheme expected proposal e.chainId store e.execution
        e.params.maxTransactionsPerBlock := by
  rw [validateProposal] at h
  rcases hexpected : e.proposerFor store proposal.height proposal.round with err | expected
  · rw [hexpected] at h
    cases h
  · rw [hexpected] at h
    exact ⟨expected, rfl, validateIncomingProposal_ok h⟩

lemma steady_accept {block : Block} (vacant : w.state.proposal = none)
    (height : block.header.height = w.state.height) (round : block.header.round = w.state.round)
    (proposed : e.Proposed event w block) : Steady e w₀ event w (w.accept block) :=
  ⟨.single (.accept vacant height round proposed), rfl, rfl⟩

lemma steady_accuse {item : Evidence} (accusation : e.Accusation w₀ event w item) :
    Steady e w₀ event w (w.accuse item) :=
  ⟨.single (.accuse accusation), (stays_accuse e w item).height, (stays_accuse e w item).round⟩

/-- Handling a proposal is a sequence of moves. -/
lemma drives_onProposal (proposal : Proposal) (w : World) :
    Drives e w (.proposal proposal) w (final (e.onProposal proposal w)) := by
  rw [onProposal, bind_ok (get_run w)]
  rcases hvalid : e.validateProposal w.disk.store proposal with err | ⟨⟩
  · exact .refl w
  rw [ofExcept_ok, bind_ok (pure_run () w)]
  by_cases hmatch : proposal.height ≠ w.state.height ∨ proposal.round ≠ w.state.round
  · rw [if_pos hmatch]
    exact .refl w
  rw [if_neg hmatch]
  obtain ⟨hheight, hround⟩ := not_or.mp hmatch
  rw [not_not] at hheight hround
  obtain ⟨_, _, haccepts⟩ := validateProposal_ok hvalid
  rcases hheld : w.state.proposal with _ | existing
  · have hlog : Steady e w (.proposal proposal) w (w.emitAll [.write (.appendConsensusWal
        (.proposalAccepted proposal.height proposal.round proposal.block.hash))]) :=
      steady_quiet _ (by simp [Effect.isQuiet])
    refine hlog.drives (Steady.drives ?_ (drives_prevoteAndDrive (Nat.le_succ _)))
    exact steady_accept hheld (haccepts.height.trans hheight) (haccepts.round.trans hround)
      (.inl ⟨proposal, rfl, rfl, haccepts.verified⟩)
  · dsimp only
    by_cases hdiffers : existing.hash ≠ proposal.block.hash
    · rw [if_pos hdiffers, recordConflictingProposal, bind_ok (get_run w)]
      by_cases hknown : (proposal.validatorAddress, proposal.height, proposal.round) ∈
          w.state.processedEvidence
      · rw [if_pos hknown]
        exact .refl w
      · rw [if_neg hknown]
        have haccuse : Steady e w (.proposal proposal) w (w.accuse (proposalEvidence proposal)) :=
          steady_accuse (.proposal rfl rfl hvalid hheight hround hheld hdiffers)
        exact haccuse.drives (.refl _)
    · rw [if_neg hdiffers]
      exact .refl w

/-! ## Proposing -/

/-- **Every outcome of building a block**: an error or a block that is too large, or a block
of the local validator for the current round whose header it has signed. -/
theorem buildBlock_cases (e : ConsensusEngine) (l : LocalValidator) (proposer : Address)
    (pending : List Transaction) (timestampMs : ℕ) (w : World) :
    ∃ es, (∀ x ∈ es, Effect.isQuiet x) ∧
      ((∃ err, e.buildBlock l proposer pending timestampMs w = .error err (w.emitAll es)) ∨
        e.buildBlock l proposer pending timestampMs w = .ok none (w.emitAll es) ∨
        ∃ block, e.buildBlock l proposer pending timestampMs w = .ok (some block) (w.emitAll es) ∧
          .signHeader block.header ∈ es ∧ block.header.height = w.state.height ∧
          block.header.round = w.state.round ∧ block.header.proposer = proposer) := by
  rw [buildBlock, bind_ok (get_run w)]
  dsimp only
  have hkeeps := ExecutionEngine.keeps_dryRunTransactions e.execution e.scheme w.state.height
    (pending.take e.params.maxTransactionsPerBlock) proposer w.disk
  rcases hdry : e.execution.dryRunTransactions e.scheme w.state.height
    (pending.take e.params.maxTransactionsPerBlock) proposer w.disk with
    ⟨⟨state, receipts⟩, d⟩ | ⟨err, d⟩
  · rw [hdry] at hkeeps
    obtain ⟨es, hquiet, rfl⟩ := hkeeps.quiet
    rw [bind_ok (onDisk_ok hdry)]
    dsimp only
    rw [bind_ok (get_run _)]
    rcases hsign : signBlock e.scheme _ (pending.take e.params.maxTransactionsPerBlock)
      l.validator.publicKey l.secretKey with err | block
    · exact ⟨es, hquiet, .inl ⟨err, rfl⟩⟩
    obtain ⟨hheader, -, -⟩ := signBlock_ok hsign
    refine ⟨es ++ [.signHeader block.header], fun x hx => ?_, .inr ?_⟩
    · rcases List.mem_append.mp hx with hx | hx
      · exact hquiet x hx
      · rw [List.mem_singleton.mp hx]
        rfl
    · have hworld : w.emitAll (es ++ [.signHeader block.header]) =
          (w.emitAll es).emitAll [.signHeader block.header] := by
        rw [World.emitAll, Disk.recordAll_append]
        rfl
      rw [hworld, hheader]
      dsimp only
      by_cases hsize : e.params.maxBlockBytes < block.encode.length
      · rw [if_pos hsize]
        exact .inl rfl
      · rw [if_neg hsize]
        exact .inr ⟨block, rfl, List.mem_append_right _ (hheader ▸ List.mem_cons_self), by rw [hheader]; rfl,
          by rw [hheader]; rfl, by rw [hheader]; rfl⟩
  · rw [hdry] at hkeeps
    obtain ⟨es, hquiet, rfl⟩ := hkeeps.quiet
    exact ⟨es, hquiet, .inl ⟨_, bind_error (onDisk_error hdry)⟩⟩

/-- Announcing the own block is a sequence of moves within the round. -/
lemma steady_announceBlock {l : LocalValidator} {block : Block} (proposer : Address)
    (vacant : w.state.proposal = none) (height : block.header.height = w.state.height)
    (round : block.header.round = w.state.round) (proposed : e.Proposed event w block)
    (heard : e.Heard w₀ event w l.validator.address) :
    Steady e w₀ event w (final (e.announceBlock l proposer block w)) := by
  rw [announceBlock]
  rcases hnoted : e.noted w.disk.store l.validator.address with err | staking
  · rw [bind_error (noteValidatorLiveness_error hnoted)]
    exact .refl w
  · rw [bind_ok (noteValidatorLiveness_ok hnoted), bind_ok (get_run _), bind_ok (appendWal_run _ _),
      bind_ok (update_run _ _), bind_ok (appendWal_run _ _)]
    have hnote : Steady e w₀ event w (w.note l.validator.address staking) :=
      ⟨.single (.note hnoted heard), rfl, rfl⟩
    have hlog := hnote.trans (steady_quiet [.write (.appendConsensusWal
      (.proposalAccepted w.state.height w.state.round block.hash))] (by simp [Effect.isQuiet]))
    refine hlog.trans (Steady.trans (steady_accept vacant height round ?_)
      (steady_quiet [.write (.appendConsensusWal
          (.proposalBroadcast w.state.height w.state.round block.hash)),
        .broadcast (.proposal ⟨w.state.height, w.state.round, block, proposer⟩)]
        (by simp [Effect.isQuiet])))
    refine proposed.imp_right fun h => ⟨?_, h.2⟩
    rw [journal_emitAll]
    exact List.mem_append_left _ ((stays_note hnoted).journal.subset h.1)

/-- Proposing is a sequence of moves. -/
lemma drives_maybePropose (pending : List Transaction) (timestampMs : ℕ)
    (bound : w.state.height ≤ w₀.state.height + 1) :
    Drives e w₀ event w (final (e.maybePropose pending timestampMs w)) := by
  rw [maybePropose, bind_ok (get_run w)]
  rcases hlocal : e.localValidator with _ | l
  · exact .refl w
  dsimp only
  by_cases hactive : e.localValidatorActive w.disk.store
  swap
  · rw [if_pos hactive]
    exact .refl w
  rw [if_neg (not_not.mpr hactive)]
  rcases hproposer : e.proposerFor w.disk.store w.state.height w.state.round with err | proposer
  · exact .refl w
  rw [ofExcept_ok, bind_ok (pure_run proposer w)]
  by_cases hother : proposer.address ≠ l.validator.address
  · rw [if_pos hother]
    exact .refl w
  rw [if_neg hother]
  by_cases hheld : w.state.proposal.isSome
  · rw [if_pos hheld]
    exact .refl w
  rw [if_neg hheld]
  rcases protect w.disk.store l.validator.address w.state.height with _ | protection
  · exact .refl w
  dsimp only
  have hprotect : Steady e w₀ event w _ :=
    steady_quiet [.write (.putSlashingProtection l.validator.address protection)]
      (by simp [Effect.isQuiet])
  refine hprotect.drives ?_
  rw [bind_ok (emit_run _ w)]
  set w₁ := w.emitAll [.write (.putSlashingProtection l.validator.address protection)]
  obtain ⟨es, hquiet, ⟨err, hrun⟩ | hrun | ⟨block, hrun, hsigned, hheight, hround, hauthor⟩⟩ :=
    buildBlock_cases e l proposer.address pending timestampMs w₁
  · rw [bind_error hrun]
    exact (steady_quiet es hquiet).drives (.refl _)
  · rw [bind_ok hrun]
    exact (steady_quiet es hquiet).drives (.refl _)
  · rw [bind_ok hrun]
    refine (steady_quiet es hquiet).drives ?_
    have hjournal : .signHeader block.header ∈ (w₁.emitAll es).disk.journal := by
      rw [journal_emitAll]
      exact List.mem_append_right _ hsigned
    have hown : block.header.proposer = l.validator.address := hauthor.trans (not_not.mp hother)
    have hproposed : e.Proposed event (w₁.emitAll es) block := .inr ⟨hjournal, l, hlocal, hown⟩
    have hheard : e.Heard w₀ event (w₁.emitAll es) l.validator.address :=
      hown ▸ .header hjournal hheight
    have hvacant : w.state.proposal = none := by simpa using hheld
    have hannounce : Steady e w₀ event (w₁.emitAll es)
        (final (e.announceBlock l proposer.address block (w₁.emitAll es))) :=
      steady_announceBlock proposer.address hvacant hheight hround hproposed hheard
    dsimp only
    rcases hrun' : e.announceBlock l proposer.address block (w₁.emitAll es) with ⟨_, w₂⟩ | ⟨err, w₂⟩
    · rw [hrun', final_ok] at hannounce
      rw [bind_ok hrun']
      exact hannounce.drives (drives_prevoteAndDrive (hannounce.height ▸ bound))
    · rw [hrun', final_error] at hannounce
      rw [bind_error hrun']
      exact hannounce.drives (.refl w₂)

/-! ## Events -/

/-- Handling the timeout of a round is a sequence of moves. -/
lemma moves_onTimeout (pending : List Transaction) (timestampMs : ℕ) (w : World) :
    e.Hearings w event w (final (e.onTimeout pending timestampMs w)) := by
  have hdrive : Drives e w event w (final (e.prevoteAndDrive w)) :=
    drives_prevoteAndDrive (Nat.le_succ _)
  rw [onTimeout]
  rcases hrun : e.prevoteAndDrive w with ⟨_, w₁⟩ | ⟨err, w₁⟩
  · rw [hrun, final_ok] at hdrive
    obtain ⟨es, hquiet, hround⟩ := advanceRound_run w₁
    rw [bind_ok hrun, bind_ok hround]
    -- The round changes and is persisted; the height is still that of `w₁`.
    have hnext : e.Hearings w event w
        { disk := w₁.disk.recordAll es, state := w₁.state.toNextRound } :=
      (hdrive.moves.tail (.nextRound hdrive.round)).tail (.quiet hquiet)
    refine hnext.trans (Drives.moves ?_)
    exact drives_maybePropose pending timestampMs hdrive.height
  · rw [hrun, final_error] at hdrive
    rw [bind_error hrun]
    exact hdrive.moves

/-- The start of the consensus task is a sequence of moves. -/
lemma moves_onStart (pending : List Transaction) (timestampMs : ℕ) (w : World) :
    e.Hearings w event w (final (e.onStart pending timestampMs w)) := by
  have hrun : persistSnapshot w = .ok ⟨⟩ (w.emitAll
      [.write (.putConsensusSnapshot ⟨w.state.height, w.state.round⟩),
       .write (.appendConsensusWal (.snapshotPersisted w.state.height w.state.round))]) := rfl
  rw [onStart, bind_ok hrun]
  have hpersist : Steady e w event w _ :=
    steady_quiet [.write (.putConsensusSnapshot ⟨w.state.height, w.state.round⟩),
      .write (.appendConsensusWal (.snapshotPersisted w.state.height w.state.round))]
      (by simp [Effect.isQuiet])
  exact (hpersist.drives (drives_maybePropose pending timestampMs (Nat.le_succ _))).moves

/-- **Every outcome of an import**: nothing but quiet effects, or a log entry and a commit, and the
height that comes after the block. -/
theorem import_cases (e : ConsensusEngine) (f : FinalizedBlock) (w : World) :
    (∃ es, (∀ x ∈ es, Effect.isQuiet x) ∧
      final (e.importExternalFinalizedBlock f w) = w.emitAll es) ∨
    ∃ es d es', (∀ x ∈ es, Effect.isQuiet x) ∧ (∀ x ∈ es', Effect.isQuiet x) ∧
      w.state.height ≤ f.block.header.height ∧
      e.validateCommitCertificate (w.emitAll es).disk.store f.block f.certificate = .ok () ∧
      Commits e f (w.emitAll es).disk d ∧
      final (e.importExternalFinalizedBlock f w) =
        { disk := d.recordAll es'
          state := w.state.toHeight (wrappingAdd 64 f.block.header.height 1) } := by
  rw [importExternalFinalizedBlock, bind_ok (get_run w)]
  by_cases hpast : f.certificate.height < w.state.height
  · rw [if_pos hpast]
    exact .inl ⟨[], nofun, rfl⟩
  rw [if_neg hpast]
  rcases hvalid : e.validateCommitCertificate w.disk.store f.block f.certificate with err | ⟨⟩
  · exact .inl ⟨[], nofun, rfl⟩
  rw [ofExcept_ok, bind_ok (pure_run () w), bind_ok (appendWal_run _ w)]
  have hlog : ∀ x ∈ [Effect.write (.appendConsensusWal (.commitFinalized f.certificate.height
      f.certificate.round f.certificate.blockHash))], x.isQuiet := by simp [Effect.isQuiet]
  set w₁ := w.emitAll [.write (.appendConsensusWal (.commitFinalized f.certificate.height
    f.certificate.round f.certificate.blockHash))] with hw₁
  rcases hrun : e.execution.validateAndCommitFinalizedBlock e.scheme f w₁.disk with
    ⟨_, d⟩ | ⟨err, d⟩
  · obtain ⟨p, d₁, hprepares, -, -, hd⟩ := ExecutionEngine.validateAndCommit_ok_iff.mp hrun
    obtain ⟨es, hquiet, hadvance⟩ :=
      advanceHeight_run (wrappingAdd 64 f.block.header.height 1) { w₁ with disk := d }
    have hahead : w.state.height ≤ f.block.header.height := by
      rw [← (validateCommitCertificate_ok hvalid).height]
      exact not_lt.mp hpast
    rw [bind_ok (onDisk_ok hrun), hadvance]
    exact .inr ⟨_, d, es, hlog, hquiet, hahead, hvalid,
      hd ▸ .intro d₁ p _ hprepares (.inr rfl), rfl⟩
  · obtain ⟨es, hquiet, rfl⟩ := (onlyEvmWrites_of_error hrun).quiet
    rw [bind_error (onDisk_error hrun)]
    refine .inl ⟨_ ++ es, fun x hx => (List.mem_append.mp hx).elim (hlog x) (hquiet x), ?_⟩
    rw [World.emitAll, Disk.recordAll_append]
    rfl

/-- Importing a finalized block is a sequence of moves. -/
lemma moves_import (f : FinalizedBlock) (w : World) :
    e.Hearings w (.commit f) w (final (e.importExternalFinalizedBlock f w)) := by
  rcases import_cases e f w with
    ⟨es, hquiet, hrun⟩ | ⟨es, d, es', hquiet, hquiet', hahead, hvalid, hcommits, hrun⟩
  · rw [hrun]
    exact .single (.quiet hquiet)
  · have hadopt : e.Hears w (.commit f) (w.emitAll es) _ := .adopt rfl hahead hvalid hcommits
    rw [hrun]
    exact (Relation.ReflTransGen.tail (.single (.quiet hquiet)) hadopt).tail (.quiet hquiet')

/-- Every note in a handler has its reason. -/
theorem hearings_handle (e : ConsensusEngine) (w : World) (event : Event) :
    e.Hearings w event w (e.handle w event) := by
  rw [handle]
  cases event with
  | start pending timestampMs => exact moves_onStart pending timestampMs w
  | proposal proposal => exact (drives_onProposal proposal w).moves
  | vote vote =>
    refine Drives.moves (drives_handleVoteActions (.inl ⟨rfl, rfl⟩) (.delivered rfl rfl)
      (Nat.le_succ _) ?_)
    exact fun _ _ => .inr ⟨rfl, rfl⟩
  | commit f => exact moves_import f w
  | timeout pending timestampMs => exact moves_onTimeout pending timestampMs w

/-- **Handlers are sequences of moves.**  Whatever the event, and whether its handler ends
normally or with an error, the world afterwards is reached by moves. -/
theorem moves_handle (e : ConsensusEngine) (w : World) (event : Event) :
    e.Moves w event w (e.handle w event) :=
  Relation.ReflTransGen.mono (fun _ _ hhears => hhears.move) _ _ (hearings_handle e w event)

end ConsensusEngine

end ZenoChain
