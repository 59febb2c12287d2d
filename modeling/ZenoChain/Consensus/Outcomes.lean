/-
# What the functions of the engine do

For each function of the engine that handlers are made of, every outcome it can have: for a
recorded vote, an own vote, a certificate and a block that is finalized.
-/
import ZenoChain.Consensus.Moves

namespace ZenoChain

open Word Handler

section

variable [Hashing]

/-- A commit consists of quiet effects, of accounting, and of the block. -/
lemma Commits.effects [Revm] {e : ConsensusEngine} {f : FinalizedBlock} {d d' : Disk}
    (h : Commits e f d d') : ∃ es, d' = d.recordAll es ∧ es.filterMap Effect.commits = [f] ∧
      ∀ x ∈ es, x.isQuiet ∨ x.IsAccounting ∨ ∃ state, x = .write (.atomicCommitBlock f state) := by
  obtain ⟨d₁, p, tail, hprepares, horder⟩ := h
  obtain ⟨es, hes, rfl⟩ := hprepares.onlyEvmWrites
  refine ⟨es ++ tail, (d.recordAll_append es tail).symm, ?_, fun x hx => ?_⟩
  · have hevm : es.filterMap Effect.commits = [] := by
      refine List.filterMap_eq_nil_iff.mpr fun x hx => ?_
      obtain ⟨a, account⟩ := hes x hx
      rfl
    have haccounting : (ExecutionEngine.accountingWrites p).filterMap Effect.commits = [] := by
      refine List.filterMap_eq_nil_iff.mpr fun x hx => ?_
      cases ExecutionEngine.isAccounting_of_mem hx <;> rfl
    rcases horder with rfl | rfl
    · rw [List.filterMap_append, List.filterMap_append, hevm, haccounting]
      rfl
    · rw [List.filterMap_append, hevm]
      show [] ++ f :: (ExecutionEngine.accountingWrites p).filterMap Effect.commits = [f]
      rw [haccounting]
      rfl
  · rcases List.mem_append.mp hx with hx | hx
    · exact .inl (Effect.isQuiet_of_isEvmWrite (hes x hx))
    · have haccounting : x ∈ ExecutionEngine.accountingWrites p → x.IsAccounting :=
        ExecutionEngine.isAccounting_of_mem
      rcases horder with rfl | rfl
      · rcases List.mem_append.mp hx with hx | hx
        · exact .inr (.inl (haccounting hx))
        · simp only [List.mem_cons, List.not_mem_nil, or_false] at hx
          rcases hx with rfl | rfl
          · exact .inl rfl
          · exact .inr (.inr ⟨_, rfl⟩)
      · rcases List.mem_cons.mp hx with rfl | hx
        · exact .inr (.inr ⟨_, rfl⟩)
        · exact .inr (.inl (haccounting hx))

lemma Settles.recordAll {e : ConsensusEngine} {items : List Evidence} {d d' : Disk}
    (h : Settles e items d d') : ∃ es, d' = d.recordAll es := by
  cases h with
  | none => exact ⟨[], rfl⟩
  | some => exact ⟨_, rfl⟩

end

namespace ConsensusEngine

variable [Hashing] {e : ConsensusEngine} {w w' : World}

/-! ## Moves that are no notes -/

namespace Hears

variable [Revm] {w₀ : World} {event : Event} {vote : Vote}

omit [Revm] in
/-- The effects of a note. -/
lemma journal_note (w : World) (a : Address) (staking : StakingSnapshot) :
    (w.note a staking).disk.journal =
      w.disk.journal ++ [.observe (.live a), .write (.putStakingState staking)] :=
  w.disk.journal_recordAll _

/-- A move with other effects than a note. -/
lemma of_effects (h : e.Move w₀ event w w') (es : List Effect)
    (hes : w'.disk = w.disk.recordAll es)
    (hother : ∀ a staking, es ≠ [.observe (.live a), .write (.putStakingState staking)]) :
    e.Hears w₀ event w w' := by
  refine ⟨h, fun a staking heq => absurd ?_ (hother a staking)⟩
  have hjournal := journal_note w a staking
  rw [← heq, hes, Disk.journal_recordAll] at hjournal
  exact List.append_cancel_left hjournal

lemma quiet {es : List Effect} (quiet : ∀ x ∈ es, Effect.isQuiet x) :
    e.Hears w₀ event w (w.emitAll es) := by
  refine of_effects (.quiet quiet) es rfl fun a staking heq => ?_
  have hlive : Effect.isQuiet (.observe (.live a)) := quiet _ (heq ▸ List.mem_cons_self)
  cases hlive

lemma note {a : Address} {staking : StakingSnapshot} (noted : e.noted w.disk.store a = .ok staking)
    (heard : e.Heard w₀ event w a) : e.Hears w₀ event w (w.note a staking) := by
  refine ⟨.note noted, fun b staking' heq => ?_⟩
  have hjournal := congrArg (fun w : World => w.disk.journal) heq
  simp only [journal_note, List.append_cancel_left_eq, List.cons.injEq, Effect.observe.injEq,
    Observation.live.injEq] at hjournal
  exact hjournal.1 ▸ heard

lemma accept {block : Block} (vacant : w.state.proposal = none)
    (height : block.header.height = w.state.height) (round : block.header.round = w.state.round)
    (proposed : e.Proposed event w block) : e.Hears w₀ event w (w.accept block) :=
  of_effects (.accept vacant height round proposed) [] rfl nofun

lemma accuse {item : Evidence} (accusation : e.Accusation w₀ event w item) :
    e.Hears w₀ event w (w.accuse item) :=
  of_effects (.accuse accusation) [.write (.appendConsensusWal
    (.evidenceRecorded item.height item.round item.validatorAddress item.reason))] rfl nofun

lemma cast {staking : StakingSnapshot} (mayCast : e.MayCast w vote staking)
    (chooses : e.Chooses w₀ event w vote.step vote.blockHash) :
    e.Hears w₀ event w (w.cast vote staking) :=
  of_effects (.cast mayCast chooses) (World.castEffects vote staking) rfl nofun

lemma count (verified : verifyVote e.scheme vote = .ok ()) (height : vote.height = w.state.height)
    (round : vote.round = w.state.round) (agrees : w.state.conflicts vote = false)
    (sourced : e.Sourced w₀ event w vote) : e.Hears w₀ event w (w.count vote) :=
  of_effects (.count verified height round agrees sourced) [.write (.appendConsensusWal
    (.voteRecorded vote.height vote.round vote.step vote.blockHash vote.validatorAddress))]
    rfl nofun

lemma report {step : VoteStep} {blockHash : Hash32}
    (reached : e.quorum w.disk.store ≤ (w.state.voters step blockHash).card) :
    e.Hears w₀ event w (World.report e w step blockHash) :=
  of_effects (.report reached) [.observe (.quorum step blockHash (w.state.voters step blockHash)
    (e.activeValidators w.disk.store))] rfl nofun

lemma lock {block : Block} (held : w.state.proposal = some block)
    (reached : e.quorum w.disk.store ≤ (w.state.voters .prevote block.hash).card) :
    e.Hears w₀ event w (w.lock w.state.height w.state.round block block.hash) :=
  of_effects (.lock held reached)
    [.write (.appendConsensusWal (.polkaObserved w.state.height w.state.round block.hash block)),
     .write (.appendConsensusWal (.locked w.state.height w.state.round block.hash block))]
    rfl nofun

/-- A move that commits a block. -/
lemma of_commits {f : FinalizedBlock} {d₁ : Disk} (h : e.Move w₀ event w w')
    (hcommits : Commits e f w.disk d₁) (hafter : ∃ es, w'.disk = d₁.recordAll es) :
    e.Hears w₀ event w w' := by
  obtain ⟨es, rfl, hone, -⟩ := hcommits.effects
  obtain ⟨es', hes'⟩ := hafter
  rw [← Disk.recordAll_append] at hes'
  refine of_effects h _ hes' fun a staking heq => ?_
  -- A note commits nothing.
  have hnone := congrArg (List.filterMap Effect.commits) heq
  rw [List.filterMap_append, hone] at hnone
  cases hnone

lemma finalize {f : FinalizedBlock} {d₁ d₂ : Disk} (held : w.state.proposal = some f.block)
    (certificate : f.certificate = certificateOf w.state f.block.hash)
    (valid : e.validateCommitCertificate w.disk.store f.block f.certificate = .ok ())
    (commits : Commits e f w.disk d₁) (settles : Settles e w.state.evidence d₁ d₂)
    (bound : w.state.height ≤ w₀.state.height + 1) :
    e.Hears w₀ event w
      { disk := d₂
        state := { w.state with evidence := [] }.toHeight (wrappingAdd 64 w.state.height 1) } :=
  of_commits (.finalize held certificate valid commits settles bound) commits settles.recordAll

lemma stall {f : FinalizedBlock} {d₁ : Disk} {err : StateError}
    (held : w.state.proposal = some f.block)
    (certificate : f.certificate = certificateOf w.state f.block.hash)
    (valid : e.validateCommitCertificate w.disk.store f.block f.certificate = .ok ())
    (commits : Commits e f w.disk d₁)
    (fails : (e.view d₁.store).applyEvidence w.state.evidence e.economics = .error err) :
    e.Hears w₀ event w { disk := d₁, state := { w.state with evidence := [] } } :=
  of_commits (.stall held certificate valid commits fails) commits ⟨[], rfl⟩

lemma adopt {f : FinalizedBlock} {d₁ : Disk} (cause : event = .commit f)
    (ahead : w.state.height ≤ f.block.header.height)
    (valid : e.validateCommitCertificate w.disk.store f.block f.certificate = .ok ())
    (commits : Commits e f w.disk d₁) :
    e.Hears w₀ event w
      { disk := d₁, state := w.state.toHeight (wrappingAdd 64 f.block.header.height 1) } :=
  of_commits (.adopt cause ahead valid commits) commits ⟨[], rfl⟩

lemma nextRound (bound : w.state.round ≤ w₀.state.round) :
    e.Hears w₀ event w { w with state := w.state.toNextRound } :=
  of_effects (.nextRound bound) [] rfl nofun

end Hears

/-! ## Recording a vote -/

lemma emit_run (x : Effect) (w : World) : emit x w = .ok ⟨⟩ (w.emitAll [x]) := rfl

lemma appendWal_run (entry : ConsensusWalEntry) (w : World) :
    appendWal entry w = .ok ⟨⟩ (w.emitAll [.write (.appendConsensusWal entry)]) := rfl

omit [Hashing] in
lemma update_run (f : RoundState → RoundState) (w : World) :
    update f w = .ok ⟨⟩ { w with state := f w.state } := rfl

lemma noteValidatorLiveness_ok {a : Address} {staking : StakingSnapshot}
    (h : e.noted w.disk.store a = .ok staking) :
    e.noteValidatorLiveness a w = .ok ⟨⟩ (w.note a staking) := by
  rw [noteValidatorLiveness, bind_ok (get_run w), h]
  rfl

lemma noteValidatorLiveness_error {a : Address} {err : StateError}
    (h : e.noted w.disk.store a = .error err) :
    e.noteValidatorLiveness a w = .error err.toText w := by
  rw [noteValidatorLiveness, bind_ok (get_run w), h]
  rfl

/-- The evidence of a second vote. -/
def voteEvidence (vote : Vote) : Evidence :=
  ⟨vote.validatorAddress, vote.height, vote.round, "duplicate vote"⟩

/-- What a reached quorum leads to. -/
inductive Acted (vote : Vote) (w : World) : Option Hash32 × Option Hash32 → World → Prop
  | prevotes (step : vote.step = .prevote)
      (unmatched : vote.blockHash = nilHash ∨
        ∀ block ∈ w.state.proposal, block.hash ≠ vote.blockHash) :
      Acted vote w (some vote.blockHash, none) w
  | polka {block : Block} (step : vote.step = .prevote) (held : w.state.proposal = some block)
      (hash : block.hash = vote.blockHash) :
      Acted vote w (some vote.blockHash, none)
        (w.lock vote.height vote.round block vote.blockHash)
  | precommits (step : vote.step = .precommit) :
      Acted vote w (none, if vote.blockHash ≠ nilHash then some vote.blockHash else none) w

/-- A quorum of prevotes leads to a lock exactly if it is for the proposal of the round. -/
lemma actOnQuorum_cases (vote : Vote) (w : World) :
    ∃ out w', actOnQuorum vote w = .ok out w' ∧ Acted vote w out w' := by
  rw [actOnQuorum]
  cases hstep : vote.step with
  | precommit => exact ⟨_, _, rfl, .precommits hstep⟩
  | prevote =>
    dsimp only
    rcases hheld : w.state.proposal with _ | block
    · have hrun : observeQuorum vote w = .ok ⟨⟩ w := by
        rw [observeQuorum, bind_ok (get_run w), hheld]
        rfl
      refine ⟨_, _, bind_ok hrun, .prevotes hstep (.inr ?_)⟩
      rw [hheld]
      exact nofun
    by_cases hmatch : vote.blockHash ≠ nilHash ∧ block.hash = vote.blockHash
    · have hrun : observeQuorum vote w =
          .ok ⟨⟩ (w.lock vote.height vote.round block vote.blockHash) := by
        rw [observeQuorum, bind_ok (get_run w), hheld]
        exact congrFun (if_pos hmatch) w
      exact ⟨_, _, bind_ok hrun, .polka hstep hheld hmatch.2⟩
    · have hrun : observeQuorum vote w = .ok ⟨⟩ w := by
        rw [observeQuorum, bind_ok (get_run w), hheld]
        exact congrFun (if_neg hmatch) w
      refine ⟨_, _, bind_ok hrun, .prevotes hstep ?_⟩
      by_cases hnil : vote.blockHash = nilHash
      · exact .inl hnil
      · right
        rw [hheld]
        rintro _ ⟨⟩ heq
        exact hmatch ⟨hnil, heq⟩

/-- What recording a vote does after its author has been noted as live, and what it returns. -/
inductive Recorded (e : ConsensusEngine) (vote : Vote) (w : World) :
    Option Hash32 × Option Hash32 → World → Prop
  | stale (apart : vote.height ≠ w.state.height ∨ vote.round ≠ w.state.round) :
      Recorded e vote w (none, none) w
  | conflict (height : vote.height = w.state.height) (round : vote.round = w.state.round)
      (conflicts : w.state.conflicts vote) :
      Recorded e vote w (none, none) (w.accuse (voteEvidence vote))
  | few (height : vote.height = w.state.height) (round : vote.round = w.state.round)
      (agrees : w.state.conflicts vote = false) :
      Recorded e vote w (none, none) (w.count vote)
  | reached {out : Option Hash32 × Option Hash32} {w' : World}
      (height : vote.height = w.state.height) (round : vote.round = w.state.round)
      (agrees : w.state.conflicts vote = false)
      (reached : e.quorum (w.count vote).disk.store ≤
        ((w.count vote).state.voters vote.step vote.blockHash).card)
      (acted : Acted vote (World.report e (w.count vote) vote.step vote.blockHash) out w') :
      Recorded e vote w out w'

/-- A vote with a signature of a known author is recorded. -/
lemma recordVote_noted {vote : Vote} {staking : StakingSnapshot}
    (hverify : verifyVote e.scheme vote = .ok ())
    (hnoted : e.noted w.disk.store vote.validatorAddress = .ok staking) :
    ∃ out w', e.recordVote vote w = .ok out w' ∧
      Recorded e vote (w.note vote.validatorAddress staking) out w' := by
  rw [recordVote, hverify, ofExcept_ok, bind_ok (pure_run () w),
    bind_ok (noteValidatorLiveness_ok hnoted)]
  set w₁ := w.note vote.validatorAddress staking
  rw [bind_ok (get_run w₁)]
  by_cases happart : vote.height ≠ w₁.state.height ∨ vote.round ≠ w₁.state.round
  · rw [if_pos happart]
    exact ⟨_, _, rfl, .stale happart⟩
  rw [if_neg happart]
  obtain ⟨hheight, hround⟩ := not_or.mp happart
  rw [not_not] at hheight hround
  by_cases hconflicts : w₁.state.conflicts vote
  · rw [if_pos hconflicts]
    exact ⟨_, _, rfl, .conflict hheight hround hconflicts⟩
  have hagrees : w₁.state.conflicts vote = false := by simpa using hconflicts
  rw [if_neg hconflicts, bind_ok (appendWal_run _ w₁), bind_ok (update_run _ _),
    bind_ok (get_run _)]
  by_cases hfew : ((w₁.count vote).state.voters vote.step vote.blockHash).card <
      e.quorum (w₁.count vote).disk.store
  · exact ⟨_, _, congrFun (if_pos hfew) _, .few hheight hround hagrees⟩
  · obtain ⟨out, w', hrun, hacted⟩ :=
      actOnQuorum_cases vote (World.report e (w₁.count vote) vote.step vote.blockHash)
    exact ⟨out, w', (congrFun (if_neg hfew) _).trans hrun,
      .reached hheight hround hagrees (not_lt.mp hfew) hacted⟩

/-- **Every outcome of `record_vote`.** -/
theorem recordVote_cases (e : ConsensusEngine) (vote : Vote) (w : World) :
    (∃ err, e.recordVote vote w = .error err w) ∨
    ∃ staking out w', verifyVote e.scheme vote = .ok () ∧
      e.noted w.disk.store vote.validatorAddress = .ok staking ∧
      e.recordVote vote w = .ok out w' ∧
      Recorded e vote (w.note vote.validatorAddress staking) out w' := by
  rcases hverify : verifyVote e.scheme vote with err | ⟨⟩
  · rw [recordVote, hverify]
    exact .inl ⟨err, rfl⟩
  rcases hnoted : e.noted w.disk.store vote.validatorAddress with err | staking
  · rw [recordVote, hverify, ofExcept_ok, bind_ok (pure_run () w)]
    exact .inl ⟨_, bind_error (noteValidatorLiveness_error hnoted)⟩
  · obtain ⟨out, w', hrun, hrecorded⟩ := recordVote_noted hverify hnoted
    exact .inr ⟨staking, out, w', rfl, rfl, hrun, hrecorded⟩

/-! ## What recording a vote leaves alone -/

/-- Recording a vote keeps the height, the round, the proposal and the flags of the own votes;
it only adds to the journal, and it changes no validator's standing. -/
structure Stays (e : ConsensusEngine) (w w' : World) : Prop where
  journal : w.disk.journal <+: w'.disk.journal
  standing : e.standing w'.disk.store = e.standing w.disk.store
  height : w'.state.height = w.state.height
  round : w'.state.round = w.state.round
  proposal : w'.state.proposal = w.state.proposal
  hasCast : ∀ step, w'.state.hasCast step = w.state.hasCast step

omit [Hashing] in
lemma Stays.trans {w₁ w₂ w₃ : World} (h : Stays e w₁ w₂) (h' : Stays e w₂ w₃) : Stays e w₁ w₃ where
  journal := h.journal.trans h'.journal
  standing := h'.standing.trans h.standing
  height := h'.height.trans h.height
  round := h'.round.trans h.round
  proposal := h'.proposal.trans h.proposal
  hasCast step := (h'.hasCast step).trans (h.hasCast step)

omit [Hashing] in
lemma Stays.refl (e : ConsensusEngine) (w : World) : Stays e w w :=
  ⟨List.prefix_rfl, rfl, rfl, rfl, rfl, fun _ => rfl⟩

lemma journal_emitAll (w : World) (es : List Effect) :
    (w.emitAll es).disk.journal = w.disk.journal ++ es := w.disk.journal_recordAll es

lemma stays_note {a : Address} {staking : StakingSnapshot}
    (h : e.noted w.disk.store a = .ok staking) : Stays e w (w.note a staking) where
  journal := ⟨_, (journal_emitAll w _).symm⟩
  standing := standing_put_noted h rfl
  height := rfl
  round := rfl
  proposal := rfl
  hasCast _ := rfl

lemma stays_count (e : ConsensusEngine) (w : World) (vote : Vote) : Stays e w (w.count vote) where
  journal := List.prefix_append _ _
  standing := standing_congr rfl
  height := w.state.height_count vote
  round := w.state.round_count vote
  proposal := w.state.proposal_count vote
  hasCast := w.state.hasCast_count vote

lemma stays_report (e : ConsensusEngine) (w : World) (step : VoteStep) (blockHash : Hash32) :
    Stays e w (World.report e w step blockHash) where
  journal := ⟨_, (journal_emitAll w _).symm⟩
  standing := standing_congr rfl
  height := rfl
  round := rfl
  proposal := rfl
  hasCast _ := rfl

lemma stays_lock (e : ConsensusEngine) (w : World) (height round : ℕ) (block : Block)
    (blockHash : Hash32) : Stays e w (w.lock height round block blockHash) where
  journal := ⟨_, (w.disk.journal_recordAll _).symm⟩
  standing := standing_congr rfl
  height := rfl
  round := rfl
  proposal := rfl
  hasCast step := by cases step <;> rfl

lemma stays_accuse (e : ConsensusEngine) (w : World) (item : Evidence) : Stays e w (w.accuse item) := by
  obtain ⟨processed, evidence, h⟩ := w.state.addEvidence_eq item
  have hstate : (w.accuse item).state =
    { w.state with processedEvidence := processed, evidence := evidence } := h
  refine ⟨List.prefix_append _ _, standing_congr rfl, ?_, ?_, ?_, fun step => ?_⟩ <;> rw [hstate]
  cases step <;> rfl

variable {vote : Vote} {out : Option Hash32 × Option Hash32}

lemma Acted.stays (h : Acted vote w out w') : Stays e w w' := by
  cases h with
  | prevotes => exact .refl e w
  | polka => exact stays_lock e w _ _ _ _
  | precommits => exact .refl e w

lemma Recorded.stays (h : Recorded e vote w out w') : Stays e w w' := by
  cases h with
  | stale => exact .refl e w
  | conflict => exact stays_accuse e w _
  | few => exact stays_count e w vote
  | reached _ _ _ _ hacted =>
    exact ((stays_count e w vote).trans (stays_report e _ _ _)).trans hacted.stays

/-- What a reported quorum of prevotes means: it is there, and it is for no block, for the
proposal on which the node is now locked, or for a block that is not the proposal. -/
structure Reported (e : ConsensusEngine) (vote : Vote) (w : World) (blockHash : Hash32)
    (w' : World) : Prop where
  step : vote.step = .prevote
  hash : blockHash = vote.blockHash
  height : vote.height = w.state.height
  round : vote.round = w.state.round
  agrees : w.state.conflicts vote = false
  reached : e.quorum w.disk.store ≤ ((w.state.count vote).voters .prevote vote.blockHash).card
  stillReached : e.quorum w'.disk.store ≤ (w'.state.voters .prevote blockHash).card
  locked : blockHash = nilHash ∨ LockedNow w'.state blockHash ∨
    ∀ block ∈ w.state.proposal, block.hash ≠ vote.blockHash

lemma Recorded.reported {blockHash : Hash32} {o : Option Hash32}
    (h : Recorded e vote w (some blockHash, o) w') : Reported e vote w blockHash w' := by
  cases h with
  | reached hheight hround hagrees hreached hacted =>
    have hstays := (stays_count e w vote).trans (stays_report e _ vote.step vote.blockHash)
    have hquorum : e.quorum (w.count vote).disk.store = e.quorum w.disk.store :=
      quorum_congr (stays_count e w vote).standing
    cases hacted with
    | prevotes hstep hunmatched =>
      rw [hstep] at hreached
      refine ⟨hstep, rfl, hheight, hround, hagrees, hquorum ▸ hreached, hreached, ?_⟩
      rw [hstays.proposal] at hunmatched
      exact hunmatched.elim .inl fun h => .inr (.inr h)
    | polka hstep hheld hhash =>
      rw [hstep] at hreached
      refine ⟨hstep, rfl, hheight, hround, hagrees, hquorum ▸ hreached, hreached, .inr (.inl ?_)⟩
      have hr : vote.round = (World.report e (w.count vote) vote.step vote.blockHash).state.round := by
        rw [hstays.round, hround]
      refine ⟨_, hheld, hhash, ?_⟩
      rw [hr]
      rfl

variable [Revm] {w₀ : World} {event : Event}

/-- Recording a vote is a sequence of moves. -/
lemma Recorded.moves (h : Recorded e vote w out w') (verified : verifyVote e.scheme vote = .ok ())
    (known : (e.view w.disk.store).validators[vote.validatorAddress]?.isSome)
    (sourced : e.Sourced w₀ event w vote) : e.Hearings w₀ event w w' := by
  cases h with
  | stale => exact .refl
  | conflict hheight hround hconflicts =>
    exact .single (.accuse (.vote verified known hconflicts sourced))
  | few hheight hround hagrees => exact .single (.count verified hheight hround hagrees sourced)
  | reached hheight hround hagrees hreached hacted =>
    have hcount : e.Hearings w₀ event w (World.report e (w.count vote) vote.step vote.blockHash) :=
      .tail (.single (.count verified hheight hround hagrees sourced)) (.report hreached)
    cases hacted with
    | prevotes => exact hcount
    | precommits => exact hcount
    | polka hstep hheld hhash =>
      have hstays := (stays_count e w vote).trans (stays_report e _ vote.step vote.blockHash)
      rw [hstep, ← hhash] at hreached
      have hlock : e.Hears w₀ event _ _ := .lock hheld hreached
      rw [hstays.height, hstays.round, ← hheight, ← hround, hhash] at hlock
      exact hcount.tail hlock

omit [Hashing] [Revm] in
/-- A vote keeps its source while its author is noted and it is recorded. -/
lemma Sourced.stays (h : e.Sourced w₀ event w vote) (hstays : Stays e w w') :
    e.Sourced w₀ event w' vote := by
  rcases h with ⟨hevent, hstanding⟩ | ⟨hsigned, hactive, hauthor⟩
  · exact .inl ⟨hevent, hstays.standing.trans hstanding⟩
  · refine .inr ⟨hstays.journal.subset hsigned, ?_, hauthor⟩
    rw [localValidatorActive_congr hstays.standing]
    exact hactive

omit [Hashing] [Revm] in
lemma known_of_noted {store store' : Store} {a : Address} {staking : StakingSnapshot}
    (h : e.noted store a = .ok staking) (hput : store'.stakingState = some staking) :
    (e.view store').validators[a]?.isSome := by
  rw [view_put_noted h hput, StakingSnapshot.isSome_of_noteLiveness h]
  obtain ⟨v, hv, -⟩ := StakingSnapshot.noteLiveness_ok_iff.mp h
  rw [hv]
  rfl

/-- `record_vote` stops with an error and changes nothing, or it is a sequence of moves. -/
lemma recordVote_moves (sourced : e.Sourced w₀ event w vote)
    (heard : verifyVote e.scheme vote = .ok () → e.Heard w₀ event w vote.validatorAddress) :
    (∃ err, e.recordVote vote w = .error err w) ∨
    ∃ out w₁ w', verifyVote e.scheme vote = .ok () ∧ e.recordVote vote w = .ok out w' ∧
      w₁.state = w.state ∧ Stays e w w₁ ∧ Recorded e vote w₁ out w' ∧
      e.Hearings w₀ event w w' := by
  rcases recordVote_cases e vote w with herr | ⟨staking, out, w', hverify, hnoted, hrun, hrec⟩
  · exact .inl herr
  · have hstays := stays_note hnoted
    refine .inr ⟨out, w.note vote.validatorAddress staking, w', hverify, hrun, rfl, hstays, hrec, ?_⟩
    exact .head (.note hnoted (heard hverify))
      (hrec.moves hverify (known_of_noted hnoted rfl) (sourced.stays hstays))

/-! ## Casting a vote -/

omit [Revm] in
/-- **Every outcome of casting a vote**: nothing happens, the signature fails, or the vote is
signed, logged and sent. -/
theorem castOnce_cases (e : ConsensusEngine) (step : VoteStep) (choice : RoundState → Hash32)
    (w : World) :
    e.castOnce step choice w = .ok none w ∨ (∃ err, e.castOnce step choice w = .error err w) ∨
    ∃ vote staking, e.MayCast w vote staking ∧ vote.step = step ∧
      vote.blockHash = choice w.state ∧
      e.castOnce step choice w = .ok (some vote) (w.cast vote staking) := by
  rw [castOnce, bind_ok (get_run w)]
  rcases hlocal : e.localValidator with _ | l
  · exact .inl rfl
  dsimp only
  by_cases hactive : e.localValidatorActive w.disk.store
  · rw [if_neg (not_not.mpr hactive)]
    by_cases hcast : w.state.hasCast step
    · rw [if_pos hcast]
      exact .inl rfl
    · rw [if_neg hcast]
      obtain ⟨staking, hnoted⟩ := exists_noted_of_active hlocal hactive
      right
      rcases hsign : signVote e.scheme
        { height := w.state.height, round := w.state.round, step, blockHash := choice w.state
          validatorAddress := l.validator.address
          publicKey := l.validator.publicKey, signature := [] } l.secretKey with err | vote
      · left
        refine ⟨err, bind_error ?_⟩
        rw [castVote, bind_ok (get_run w), hsign]
        rfl
      · right
        obtain ⟨signature, hvote⟩ := signVote_ok hsign
        have hfresh : w.state.hasCast vote.step = false := by
          rw [hvote]
          simpa using hcast
        have hauthor : vote.validatorAddress = l.validator.address := by rw [hvote]
        refine ⟨vote, staking, ⟨hactive, hfresh, by rw [hvote], by rw [hvote], ⟨l, hlocal, hauthor⟩,
          hauthor ▸ hnoted⟩, by rw [hvote], by rw [hvote], bind_ok ?_⟩
        rw [castVote, bind_ok (get_run w), hsign]
        -- The author is noted in the store as it was before the signature.
        have hnote : e.noteValidatorLiveness l.validator.address (w.emitAll [.signVote vote]) =
          .ok ⟨⟩ ((w.emitAll [.signVote vote]).note l.validator.address staking) :=
          noteValidatorLiveness_ok hnoted
        refine (bind_ok (emit_run (.signVote vote) w)).trans ((bind_ok hnote).trans ?_)
        rw [hvote]
        rfl
  · rw [if_pos hactive]
    exact .inl rfl

omit [Revm] in
/-- A vote that has just been cast is for the current height. -/
lemma MayCast.height_cast {staking : StakingSnapshot} (h : e.MayCast w vote staking) :
    vote.height = (w.cast vote staking).state.height := by
  obtain ⟨prevoted, precommitted, hmark⟩ := w.state.markCast_eq vote.step
  rw [World.cast, hmark]
  exact h.height

omit [Revm] in
/-- A vote that has just been cast is an own vote. -/
lemma MayCast.ownVote {staking : StakingSnapshot} (h : e.MayCast w vote staking) :
    e.OwnVote (w.cast vote staking) vote := by
  refine ⟨?_, ?_, h.author⟩
  · rw [World.cast, Disk.journal_recordAll]
    exact List.mem_append_right _ List.mem_cons_self
  · rw [localValidatorActive_congr (standing_put_noted h.noted rfl)]
    exact h.active

/-! ## Certificates -/

omit [Hashing] [Revm] in
/-- A check of a whole list succeeds if it succeeds for every member. -/
lemma forM_ok {α ε : Type} {check : α → Except ε Unit} {l : List α} (h : l.forM check = .ok ()) :
    ∀ a ∈ l, check a = .ok () := by
  induction l with
  | nil => exact nofun
  | cons a l ih =>
    change (check a >>= fun _ => l.forM check) = .ok () at h
    rcases hcheck : check a with err | ⟨⟩
    · rw [hcheck] at h
      cases h
    · rw [hcheck] at h
      exact List.forall_mem_cons.mpr ⟨hcheck, ih h⟩

/-- What an accepted certificate has been checked for. -/
structure Certifies (e : ConsensusEngine) (store : Store) (block : Block)
    (certificate : CommitCertificate) : Prop where
  blockHash : certificate.blockHash = block.hash
  height : certificate.height = block.header.height
  round : certificate.round = block.header.round
  votes : ∀ vote ∈ certificate.votes, verifyVote e.scheme vote = .ok () ∧
    vote.height = certificate.height ∧ vote.round = certificate.round ∧
    vote.step = .precommit ∧ vote.blockHash = certificate.blockHash
  quorum : e.quorum store ≤ (certificateAuthors certificate).card

omit [Hashing] [Revm] in
lemma checkCertificateVote_ok {certificate : CommitCertificate} {vote : Vote}
    (h : e.checkCertificateVote certificate vote = .ok ()) :
    verifyVote e.scheme vote = .ok () ∧ vote.height = certificate.height ∧
      vote.round = certificate.round ∧ vote.step = .precommit ∧
      vote.blockHash = certificate.blockHash := by
  rw [checkCertificateVote] at h
  rcases hverify : verifyVote e.scheme vote with err | ⟨⟩
  · rw [hverify] at h
    cases h
  · rw [hverify] at h
    simp only [bind, Except.bind] at h
    split_ifs at h with h₁ h₂ h₃
    obtain ⟨hheight, hround⟩ := not_or.mp h₁
    exact ⟨rfl, not_not.mp hheight, not_not.mp hround, not_not.mp h₂, not_not.mp h₃⟩

omit [Revm] in
/-- **The certificates that are accepted.** -/
theorem validateCommitCertificate_ok {store : Store} {block : Block}
    {certificate : CommitCertificate}
    (h : e.validateCommitCertificate store block certificate = .ok ()) :
    Certifies e store block certificate := by
  rw [validateCommitCertificate] at h
  rcases hvotes : certificate.votes.forM (e.checkCertificateVote certificate) with err | ⟨⟩
  · rw [hvotes] at h
    split_ifs at h <;> cases h
  · rw [hvotes] at h
    split_ifs at h with h₁ h₂ h₃ h₄
    · cases h
    · refine ⟨not_not.mp h₁, not_not.mp h₂, not_not.mp h₃, fun vote hvote => ?_, not_lt.mp h₄⟩
      exact checkCertificateVote_ok (forM_ok hvotes vote hvote)

/-! ## Finalizing a block -/

omit [Revm] in
lemma advanceHeight_run (n : ℕ) (w : World) : ∃ es, (∀ x ∈ es, Effect.isQuiet x) ∧
    advanceHeight n w = .ok ⟨⟩ { disk := w.disk.recordAll es, state := w.state.toHeight n } := by
  refine ⟨[.write (.putConsensusSnapshot ⟨n, 0⟩),
    .write (.appendConsensusWal (.snapshotPersisted n 0)),
    .write (.appendConsensusWal (.heightAdvanced n))], ?_, rfl⟩
  simp [Effect.isQuiet]

omit [Revm] in
lemma advanceRound_run (w : World) : ∃ es, (∀ x ∈ es, Effect.isQuiet x) ∧
    advanceRound w = .ok ⟨⟩ { disk := w.disk.recordAll es, state := w.state.toNextRound } := by
  refine ⟨[.write (.putConsensusSnapshot ⟨w.state.height, w.state.toNextRound.round⟩),
    .write (.appendConsensusWal (.snapshotPersisted w.state.height w.state.toNextRound.round)),
    .write (.appendConsensusWal (.roundAdvanced w.state.height w.state.toNextRound.round))], ?_, rfl⟩
  simp [Effect.isQuiet]

omit [Revm] in
/-- Tidying up compacts the log and prunes blocks, if it does anything. -/
lemma tidy_run (height : ℕ) (w : World) : ∃ es,
    (∀ x ∈ es, ∃ n, x = .write (.compactConsensusWal n) ∨ x = .write (.pruneBlocksBelow n)) ∧
    tidy height w = .ok ⟨⟩ (w.emitAll es) := by
  by_cases hlog : 10 < height
  · by_cases hblocks : 1000 < height
    · refine ⟨[.write (.compactConsensusWal (saturatingSub height 10)),
        .write (.pruneBlocksBelow (saturatingSub height 1000))], ?_, ?_⟩
      · exact List.forall_mem_cons.mpr ⟨⟨_, .inl rfl⟩,
          List.forall_mem_singleton.mpr ⟨_, .inr rfl⟩⟩
      · rw [tidy, if_pos hlog, if_pos hblocks]
        rfl
    · refine ⟨[.write (.compactConsensusWal (saturatingSub height 10))], ?_, ?_⟩
      · exact List.forall_mem_singleton.mpr ⟨_, .inl rfl⟩
      · rw [tidy, if_pos hlog, if_neg hblocks]
        rfl
  · have hblocks : ¬ 1000 < height := by omega
    refine ⟨[], nofun, ?_⟩
    rw [tidy, if_neg hlog, if_neg hblocks]
    rfl

omit [Revm] in
lemma closeHeight_run (f : FinalizedBlock) (w : World) : ∃ es, (∀ x ∈ es, Effect.isQuiet x) ∧
    .broadcast (.commit f) ∈ es ∧
    closeHeight f w = .ok ⟨⟩ { disk := w.disk.recordAll es
                               state := w.state.toHeight (wrappingAdd 64 w.state.height 1) } := by
  rw [closeHeight, bind_ok (get_run w), bind_ok (emit_run _ w)]
  obtain ⟨es, hes, htidy⟩ := tidy_run w.state.height (w.emitAll [.broadcast (.commit f)])
  obtain ⟨es', hes', hadvance⟩ := advanceHeight_run (wrappingAdd 64 w.state.height 1)
    ((w.emitAll [.broadcast (.commit f)]).emitAll es)
  refine ⟨.broadcast (.commit f) :: (es ++ es'), fun x hx => ?_, List.mem_cons_self, ?_⟩
  · rcases List.mem_cons.mp hx with rfl | hx
    · rfl
    · rcases List.mem_append.mp hx with hx | hx
      · obtain ⟨n, rfl | rfl⟩ := hes x hx <;> rfl
      · exact hes' x hx
  · rw [bind_ok htidy, hadvance, Disk.recordAll_cons, Disk.recordAll_append]
    rfl

omit [Revm] in
/-- The evidence is applied and forgotten, or it cannot be applied and is forgotten. -/
lemma applyPendingEvidence_cases (e : ConsensusEngine) (w : World) :
    (∃ d, Settles e w.state.evidence w.disk d ∧
      e.applyPendingEvidence w =
        .ok ⟨⟩ { disk := d, state := { w.state with evidence := [] } }) ∨
    ∃ err, (e.view w.disk.store).applyEvidence w.state.evidence e.economics = .error err ∧
      e.applyPendingEvidence w =
        .error err.toText { w with state := { w.state with evidence := [] } } := by
  rw [applyPendingEvidence, bind_ok (get_run w), bind_ok (update_run _ w)]
  by_cases hempty : w.state.evidence = []
  · refine .inl ⟨w.disk, ?_, ?_⟩
    · rw [hempty]
      exact .none _
    · rw [if_pos hempty]
      rfl
  · rw [if_neg hempty]
    rcases happly : (e.view w.disk.store).applyEvidence w.state.evidence e.economics with
      err | staking
    all_goals
      have happly' := happly
      rw [view] at happly'
      rw [happly']
    · exact .inr ⟨err, rfl, rfl⟩
    · exact .inl ⟨_, .some hempty happly, rfl⟩

omit [Hashing] [Revm] in
lemma onDisk_ok {ε α : Type} {err : ε → String} {m : StoreM ε α} {a : α} {d : Disk}
    (h : m w.disk = .ok a d) : onDisk err m w = .ok a { w with disk := d } :=
  zoom_ok h

omit [Hashing] [Revm] in
lemma onDisk_error {ε α : Type} {err : ε → String} {m : StoreM ε α} {x : ε} {d : Disk}
    (h : m w.disk = .error x d) : onDisk err m w = .error (err x) { w with disk := d } :=
  zoom_error h

lemma executeBlock_onlyEvmWrites {block : Block} {d d' : Disk} {x : ExecutionError}
    (h : e.execution.executeBlock e.scheme block d = .error x d') : OnlyEvmWrites d d' := by
  have hkeeps := ExecutionEngine.keeps_prepareBlock e.execution e.scheme block d
  rw [ExecutionEngine.executeBlock] at h
  rcases hp : e.execution.prepareBlock e.scheme block d with ⟨p, d₁⟩ | ⟨err, d₁⟩
  · rw [bind_ok hp] at h
    cases h
  · rw [bind_error hp] at h
    cases h
    rwa [hp] at hkeeps

/-- A block that is executed and stored: its accounting, the log record, and the block. -/
lemma executeAndStore_ok_iff {block : Block} {certificate : CommitCertificate}
    {f : FinalizedBlock} {w' : World} :
    e.executeAndStore block certificate w = .ok f w' ↔
      ∃ p d₁, ExecutionEngine.Prepares e.execution e.scheme block w.disk p d₁ ∧
        f = { block, certificate, receipts := p.receipts
              epochTransition := p.accounting.epochTransition } ∧
        w' = { w with disk := d₁.recordAll (ExecutionEngine.accountingWrites p ++
          [.write (.appendConsensusWal (.commitFinalized certificate.height certificate.round
            certificate.blockHash)), .write (.atomicCommitBlock f p.state)]) } := by
  rw [executeAndStore]
  constructor
  · intro h
    obtain ⟨r, w₁, hexecute, h⟩ := bind_eq_ok_iff.mp h
    obtain ⟨d₁, hrun, rfl⟩ := zoom_eq_ok_iff.mp hexecute
    obtain ⟨p, d₂, hprepares, rfl, rfl⟩ := ExecutionEngine.executeBlock_ok_iff.mp hrun
    cases h
    refine ⟨p, d₂, hprepares, rfl, ?_⟩
    rw [Disk.recordAll_append]
    rfl
  · rintro ⟨p, d₁, hprepares, rfl, rfl⟩
    have hrun := ExecutionEngine.executeBlock_ok_iff.mpr ⟨p, d₁, hprepares, rfl, rfl⟩
    rw [bind_ok (onDisk_ok hrun), Disk.recordAll_append]
    rfl

/-- **Every outcome of executing and storing a block**: EVM writes and an error, or a commit. -/
theorem executeAndStore_cases (e : ConsensusEngine) (block : Block)
    (certificate : CommitCertificate) (w : World) :
    (∃ err es, (∀ x ∈ es, Effect.isQuiet x) ∧
      e.executeAndStore block certificate w = .error err (w.emitAll es)) ∨
    ∃ f d, f.block = block ∧ f.certificate = certificate ∧ Commits e f w.disk d ∧
      e.executeAndStore block certificate w = .ok f { w with disk := d } := by
  rcases hrun : e.execution.executeBlock e.scheme block w.disk with ⟨r, d₁⟩ | ⟨err, d₁⟩
  · obtain ⟨p, d₂, hprepares, -, -⟩ := ExecutionEngine.executeBlock_ok_iff.mp hrun
    let f : FinalizedBlock :=
      { block, certificate, receipts := p.receipts
        epochTransition := p.accounting.epochTransition }
    exact .inr ⟨f, _, rfl, rfl, .intro (f := f) d₂ p _ hprepares (.inl rfl),
      executeAndStore_ok_iff.mpr ⟨p, d₂, hprepares, rfl, rfl⟩⟩
  · obtain ⟨es, hquiet, rfl⟩ := (executeBlock_onlyEvmWrites hrun).quiet
    rw [executeAndStore]
    exact .inl ⟨_, es, hquiet, bind_error (onDisk_error hrun)⟩

/-- A sequence of moves that finalizes at most one block. -/
structure Drives (e : ConsensusEngine) (w₀ : World) (event : Event) (w w' : World) : Prop where
  moves : e.Hearings w₀ event w w'
  height : w'.state.height ≤ w.state.height + 1
  round : w'.state.round ≤ w.state.round

lemma Drives.refl (w : World) : Drives e w₀ event w w := ⟨.refl, Nat.le_succ _, le_rfl⟩

/-- Finalizing is a sequence of moves. -/
lemma drives_finalize (blockHash : Hash32) (bound : w.state.height ≤ w₀.state.height + 1) :
    Drives e w₀ event w (final (e.finalize blockHash w)) := by
  rw [finalize, bind_ok (get_run w)]
  rcases hheld : w.state.proposal with _ | block
  · exact .refl w
  dsimp only
  by_cases hhash : block.hash = blockHash
  · subst hhash
    rw [if_neg (not_not.mpr rfl)]
    rcases hvalid : e.validateCommitCertificate w.disk.store block
      (certificateOf w.state block.hash) with err | ⟨⟩
    · exact .refl w
    rw [ofExcept_ok, bind_ok (pure_run () w)]
    rcases executeAndStore_cases e block (certificateOf w.state block.hash) w with
      ⟨err, es, hquiet, hrun⟩ | ⟨f, d₁, rfl, hcert, hcommits, hrun⟩
    · rw [bind_error hrun]
      exact ⟨.single (.quiet hquiet), Nat.le_succ _, le_rfl⟩
    rw [bind_ok hrun]
    rw [← hcert] at hvalid
    rcases applyPendingEvidence_cases e { w with disk := d₁ } with
      ⟨d₂, hsettles, hevidence⟩ | ⟨err, hfails, hevidence⟩
    · rw [bind_ok hevidence]
      obtain ⟨es, hquiet, -, hclose⟩ := closeHeight_run f ⟨d₂, { w.state with evidence := [] }⟩
      rw [hclose]
      -- The block is committed and the height is left in one move; what follows is quiet.
      have hmove : e.Hears w₀ event w _ := .finalize hheld hcert hvalid hcommits hsettles bound
      exact ⟨.tail (.single hmove) (.quiet hquiet), Nat.mod_le _ _, Nat.zero_le _⟩
    · rw [bind_error hevidence]
      exact ⟨.single (.stall hheld hcert hvalid hcommits hfails), Nat.le_succ _, le_rfl⟩
  · rw [if_pos hhash]
    exact .refl w

end ConsensusEngine

end ZenoChain
