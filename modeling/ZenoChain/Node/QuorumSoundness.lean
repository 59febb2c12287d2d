/-
# Sound quorums

How many votes make a quorum is computed from the active validators; which votes are counted is
not.  A live vote counts for anyone with a record in the staking state, who may be jailed or
merely registered, and a vote of a certificate for anyone at all.  So a quorum is one of active
validators as long as nobody else votes; registrations, jailing and new epochs do not disturb
this, since a staking state changes for the worse only where a height ends.
-/
import ZenoChain.Consensus.Devnet
import ZenoChain.Consensus.Members
import ZenoChain.Node.ConsensusPlane

namespace ZenoChain

/-- The voters are active validators, and they are enough for a quorum. -/
structure SoundQuorum (voters : Finset Address) (active : List Validator) : Prop where
  subset : voters ⊆ (active.map Validator.address).toFinset
  enough : active.length * 2 / 3 + 1 ≤ voters.card

instance (voters : Finset Address) (active : List Validator) : Decidable (SoundQuorum voters active) :=
  decidable_of_iff (_ ∧ _) ⟨fun h => ⟨h.1, h.2⟩, fun h => ⟨h.1, h.2⟩⟩

/-- The quorum that an effect reports: its voters and the active validators of the moment. -/
def Effect.quorum? : Effect → Option (Finset Address × List Validator)
  | .observe (.quorum _ _ voters active) => some (voters, active)
  | _ => none

/-- Every quorum that a process has reported was one of active validators. -/
def Disk.SoundReports (d : Disk) : Prop :=
  ∀ q ∈ d.journal.filterMap Effect.quorum?, SoundQuorum q.1 q.2

instance (d : Disk) : Decidable d.SoundReports :=
  inferInstanceAs (Decidable (∀ q ∈ d.journal.filterMap Effect.quorum?, _))

section

variable [Hashing]

lemma Disk.SoundReports.recordAll {d : Disk} (h : d.SoundReports) {es : List Effect}
    (hes : ∀ x ∈ es, ∀ q ∈ x.quorum?, SoundQuorum q.1 q.2) : (d.recordAll es).SoundReports := by
  intro q hq
  rw [Disk.journal_recordAll, List.filterMap_append] at hq
  rcases List.mem_append.mp hq with hold | hnew
  · exact h q hold
  · obtain ⟨x, hx, hquorum⟩ := List.mem_filterMap.mp hnew
    exact hes x hx q hquorum

lemma Disk.SoundReports.record {d : Disk} (h : d.SoundReports) {x : Effect}
    (hx : x.quorum? = none) : (d.record x).SoundReports := by
  have hone : (d.recordAll [x]).SoundReports := h.recordAll fun y hy => by
    rw [List.mem_singleton.mp hy, hx]
    exact nofun
  exact hone

omit [Hashing] in
lemma Effect.quorum?_of_isQuiet {x : Effect} (h : x.isQuiet) : x.quorum? = none := by
  unfold quorum?
  split
  · cases h
  · rfl

/-- A commit reports no quorum. -/
lemma Disk.SoundReports.commits [Revm] {e : ConsensusEngine} {f : FinalizedBlock} {d d' : Disk}
    (h : d.SoundReports) (hcommits : Commits e f d d') : d'.SoundReports := by
  obtain ⟨es, rfl, -, hes⟩ := hcommits.effects
  refine h.recordAll fun x hx => ?_
  rcases hes x hx with hquiet | haccounting | ⟨_, rfl⟩
  · rw [Effect.quorum?_of_isQuiet hquiet]
    exact nofun
  · cases haccounting <;> exact nofun
  · exact nofun

lemma Disk.SoundReports.settles {e : ConsensusEngine} {items : List Evidence} {d d' : Disk}
    (h : d.SoundReports) (hsettles : Settles e items d d') : d'.SoundReports := by
  cases hsettles with
  | none => exact h
  | some => exact h.recordAll (by simp [Effect.quorum?])

end

namespace ConsensusEngine

variable [Hashing] {e : ConsensusEngine} {w₀ w w' : World} {event : Event}

/-- The vote is counted if it is delivered: it verifies, its author has a record, it is for the
current round, and no recorded vote contradicts it. -/
def Counts (e : ConsensusEngine) (w : World) (vote : Vote) : Prop :=
  verifyVote e.scheme vote = .ok () ∧ e.Knows w.disk.store vote.validatorAddress ∧
  vote.height = w.state.height ∧ vote.round = w.state.round ∧ w.state.conflicts vote = false

instance (e : ConsensusEngine) (w : World) (vote : Vote) : Decidable (e.Counts w vote) :=
  inferInstanceAs (Decidable (_ ∧ (_ = true) ∧ _))

/-- Nobody but a sitting validator votes: neither in a vote that is counted, nor in a certificate
that is not for a height of the past. -/
def Seats (e : ConsensusEngine) (w : World) (event : Event) : Prop :=
  (∀ vote ∈ event.vote?, e.Counts w vote → vote.validatorAddress ∈ e.sitting w.disk.store) ∧
  ∀ f ∈ event.commit?, w.state.height ≤ f.certificate.height →
    ∀ vote ∈ f.certificate.votes, verifyVote e.scheme vote = .ok () →
      vote.validatorAddress ∈ e.sitting w.disk.store

instance (e : ConsensusEngine) (w : World) (event : Event) : Decidable (e.Seats w event) :=
  inferInstanceAs (Decidable ((∀ vote ∈ event.vote?, _) ∧ ∀ f ∈ event.commit?, _))

/-- Sitting validators alone are counted, and what is needed to keep it so. -/
structure Seated (e : ConsensusEngine) (w : World) : Prop where
  counted : ∀ step blockHash, w.state.voters step blockHash ⊆
    (w.state.votes.map Vote.validatorAddress).toFinset
  votes : ∀ vote ∈ w.state.votes, vote.validatorAddress ∈ e.sitting w.disk.store
  known : ∀ item ∈ w.state.evidence, e.Knows w.disk.store item.validatorAddress
  keyed : (StakingSnapshot.load w.disk.store).Keyed
  reports : w.disk.SoundReports

omit [Hashing] in
/-- The voters for a hash are sitting validators. -/
lemma Seated.voters (h : Seated e w) (step : VoteStep) (blockHash : Hash32) :
    w.state.voters step blockHash ⊆ e.sitting w.disk.store := by
  intro a ha
  obtain ⟨vote, hvote, rfl⟩ := List.mem_map.mp (List.mem_toFinset.mp (h.counted step blockHash ha))
  exact h.votes vote hvote

/-! ## Moves that keep the seats -/

omit [Hashing] in
/-- Where no standing and no count changes. -/
lemma Seated.keep (h : Seated e w) (hstanding : e.standing w'.disk.store = e.standing w.disk.store)
    (hvoters : ∀ step blockHash, w'.state.voters step blockHash = w.state.voters step blockHash)
    (hvotes : w'.state.votes = w.state.votes)
    (hknown : ∀ item ∈ w'.state.evidence, e.Knows w.disk.store item.validatorAddress)
    (hkeyed : (StakingSnapshot.load w'.disk.store).Keyed) (hreports : w'.disk.SoundReports) :
    Seated e w' := by
  refine ⟨fun step blockHash => ?_, fun vote hvote => ?_, fun item hitem => ?_, hkeyed, hreports⟩
  · rw [hvoters, hvotes]
    exact h.counted step blockHash
  · rw [sitting_congr hstanding]
    exact h.votes vote (hvotes ▸ hvote)
  · exact (hknown item hitem).of_standing hstanding

omit [Hashing] in
/-- A new round or height, in which nothing is counted yet. -/
lemma seated_of_clear (hvoters : ∀ step blockHash, w'.state.voters step blockHash = ∅)
    (hvotes : w'.state.votes = [])
    (hknown : ∀ item ∈ w'.state.evidence, e.Knows w'.disk.store item.validatorAddress)
    (hkeyed : (StakingSnapshot.load w'.disk.store).Keyed) (hreports : w'.disk.SoundReports) :
    Seated e w' := by
  refine ⟨fun step blockHash => ?_, fun vote hvote => ?_, hknown, hkeyed, hreports⟩
  · rw [hvoters]
    exact Finset.empty_subset _
  · rw [hvotes] at hvote
    cases hvote

lemma Seated.quiet (h : Seated e w) {es : List Effect} (hes : ∀ x ∈ es, x.isQuiet) :
    Seated e (w.emitAll es) := by
  refine h.keep (standing_congr (recordAll_quiet hes w.disk).1) (fun _ _ => rfl) rfl h.known ?_ (h.reports.recordAll fun x hx => ?_)
  · rw [World.disk_emitAll, StakingSnapshot.load, (recordAll_quiet hes w.disk).1]
    exact h.keyed
  · rw [Effect.quorum?_of_isQuiet (hes x hx)]
    exact fun _ h => absurd h (Option.not_mem_none _)

lemma Seated.note (h : Seated e w) {a : Address} {staking : StakingSnapshot}
    (hnoted : e.noted w.disk.store a = .ok staking) : Seated e (w.note a staking) := by
  refine h.keep (stays_note hnoted).standing (fun _ _ => rfl) rfl h.known ?_
    (h.reports.recordAll (by simp [Effect.quorum?]))
  exact (StakingSnapshot.sameRecords_noteLiveness hnoted).keyed (h.keyed.ensureValidators _)

/-- Evidence against a known validator. -/
lemma Seated.accuse (h : Seated e w) {item : Evidence}
    (hitem : e.Knows w.disk.store item.validatorAddress) : Seated e (w.accuse item) := by
  obtain ⟨processed, evidence, hstate⟩ := w.state.addEvidence_eq item
  have hvoters : ∀ step blockHash,
      (w.accuse item).state.voters step blockHash = w.state.voters step blockHash := by
    intro step blockHash
    show (w.state.addEvidence item).voters step blockHash = _
    rw [hstate]
    cases step <;> rfl
  have hvotes : (w.accuse item).state.votes = w.state.votes := by
    show (w.state.addEvidence item).votes = _
    rw [hstate]
  refine h.keep (stays_accuse e w item).standing hvoters hvotes (fun item' hitem' => ?_) h.keyed (h.reports.record rfl)
  rcases List.mem_append.mp (w.state.evidence_addEvidence_subset item hitem') with hold | hnew
  · exact h.known item' hold
  · rwa [List.mem_singleton.mp hnew]

lemma Seated.cast (h : Seated e w) {vote : Vote} {staking : StakingSnapshot}
    (hmay : e.MayCast w vote staking) : Seated e (w.cast vote staking) := by
  obtain ⟨prevoted, precommitted, hmark⟩ := w.state.markCast_eq vote.step
  have hstate : (w.cast vote staking).state =
      { w.state with prevoted := prevoted, precommitted := precommitted } := hmark
  refine h.keep (standing_put_noted hmay.noted rfl) (fun step blockHash => ?_) ?_ ?_ ?_
    (h.reports.recordAll (by simp [World.castEffects, Effect.quorum?]))
  · rw [hstate]
    cases step <;> rfl
  · rw [hstate]
  · rw [hstate]
    exact h.known
  · exact (StakingSnapshot.sameRecords_noteLiveness hmay.noted).keyed (h.keyed.ensureValidators _)

/-- A vote of a sitting validator is counted. -/
lemma Seated.count (h : Seated e w) {vote : Vote}
    (hactive : vote.validatorAddress ∈ e.sitting w.disk.store) : Seated e (w.count vote) := by
  have hstays := stays_count e w vote
  refine ⟨fun step blockHash => ?_, fun v hv => ?_, fun item hitem => ?_, h.keyed,
    h.reports.record rfl⟩
  · show (w.state.count vote).voters step blockHash ⊆
      ((w.state.count vote).votes.map Vote.validatorAddress).toFinset
    have hbefore := h.counted step blockHash
    rw [RoundState.voters_count, RoundState.votes_count, List.map_append, List.toFinset_append]
    split
    · exact Finset.insert_subset (Finset.mem_union_right _ (by simp))
        (hbefore.trans Finset.subset_union_left)
    · exact hbefore.trans Finset.subset_union_left
  · rw [sitting_congr hstays.standing]
    replace hv : v ∈ (w.state.count vote).votes := hv
    rw [RoundState.votes_count] at hv
    rcases List.mem_append.mp hv with hold | hnew
    · exact h.votes v hold
    · rwa [List.mem_singleton.mp hnew]
  · replace hitem : item ∈ (w.state.count vote).evidence := hitem
    rw [RoundState.evidence_count] at hitem
    exact (h.known item hitem).of_standing hstays.standing

lemma Seated.report (h : Seated e w) {step : VoteStep} {blockHash : Hash32}
    (hreached : e.quorum w.disk.store ≤ (w.state.voters step blockHash).card) :
    Seated e (World.report e w step blockHash) := by
  refine h.keep (stays_report e w step blockHash).standing (fun _ _ => rfl) rfl h.known h.keyed (h.reports.recordAll ?_)
  intro x hx q hq
  rw [List.mem_singleton.mp hx] at hq
  obtain rfl := Option.some.inj hq
  exact ⟨(h.voters step blockHash).trans (sitting_subset h.keyed), hreached⟩

lemma Seated.lock (h : Seated e w) (height round : ℕ) (block : Block) (blockHash : Hash32) :
    Seated e (w.lock height round block blockHash) := by
  refine h.keep (stays_lock e w height round block blockHash).standing (fun step _ => ?_)
    rfl h.known h.keyed (h.reports.recordAll (by simp [Effect.quorum?]))
  cases step <;> rfl

omit [Hashing] in
/-- An own vote is one of a sitting validator. -/
lemma sitting_of_own (hlocal : ∀ l ∈ e.localValidator, l.validator ∈ e.validators)
    {vote : Vote} (hown : e.OwnVote w vote) : vote.validatorAddress ∈ e.sitting w.disk.store := by
  obtain ⟨-, hactive, l, hl, hauthor⟩ := hown
  rw [localValidatorActive, hl] at hactive
  exact hauthor ▸ mem_sitting.mpr ⟨List.mem_map_of_mem (hlocal l hl), hactive⟩

variable [Revm]

lemma keyed_commits {f : FinalizedBlock} {d d' : Disk} (h : Commits e f d d')
    (hkeyed : (StakingSnapshot.load d.store).Keyed) : (StakingSnapshot.load d'.store).Keyed := by
  obtain ⟨d₁, p, tail, hprepares, horder⟩ := h
  obtain ⟨hkeyed₁, hstaking⟩ := hprepares.keyed hkeyed
  rcases horder with rfl | rfl
  · rw [Disk.recordAll_append]
    exact StakingSnapshot.load_recordAll (ExecutionEngine.keyed_accountingWrites hkeyed₁ hstaking)
      (by simp)
  · exact ExecutionEngine.keyed_accountingWrites (d := d₁.record _) hkeyed₁ hstaking

omit [Revm] in
lemma keyed_settles {items : List Evidence} {d d' : Disk} (h : Settles e items d d')
    (hkeyed : (StakingSnapshot.load d.store).Keyed) : (StakingSnapshot.load d'.store).Keyed := by
  cases h with
  | none => exact hkeyed
  | some _ happly =>
    exact (StakingSnapshot.sameRecords_applyEvidence happly).keyed (hkeyed.ensureValidators _)

/-- **One move** keeps the counted votes with the sitting validators. -/
lemma Seated.move (h : Seated e w) (hlocal : ∀ l ∈ e.localValidator, l.validator ∈ e.validators)
    (hvote : ∀ vote ∈ event.vote?, vote.validatorAddress ∈ e.sitting w₀.disk.store)
    (hmove : e.Move w₀ event w w') : Seated e w' := by
  cases hmove with
  | quiet hquiet => exact h.quiet hquiet
  | note hnoted => exact h.note hnoted
  | accept =>
    refine h.keep rfl (fun step _ => ?_) rfl h.known h.keyed h.reports
    cases step <;> rfl
  | accuse haccusation => exact h.accuse haccusation.knows
  | cast hmay => exact h.cast hmay
  | count _ _ _ _ hsourced =>
    refine h.count ?_
    rcases hsourced with ⟨rfl, hstanding⟩ | hown
    · rw [sitting_congr hstanding]
      exact hvote _ rfl
    · exact sitting_of_own hlocal hown
  | report hreached => exact h.report hreached
  | lock => exact h.lock _ _ _ _
  | finalize _ _ _ hcommits hsettles =>
    have hkeyed := keyed_commits hcommits h.keyed
    have hreports := h.reports.commits hcommits
    exact seated_of_clear (RoundState.voters_toHeight _ _) rfl nofun (keyed_settles hsettles hkeyed)
      (hreports.settles hsettles)
  | stall _ _ _ hcommits hfails =>
    -- Evidence is recorded against known validators only, so that it can be applied.
    have hknown : ∀ item ∈ w.state.evidence, _ := fun item hitem =>
      (h.known item hitem).commits hcommits
    obtain ⟨_, happlied⟩ : ∃ staking, (e.view _).applyEvidence w.state.evidence e.economics =
        .ok staking := StakingSnapshot.applyEvidence_of_known hknown
    rw [happlied] at hfails
    cases hfails
  | adopt _ _ _ hcommits =>
    exact seated_of_clear (RoundState.voters_toHeight _ _) rfl
      (fun item hitem => (h.known item hitem).commits hcommits) (keyed_commits hcommits h.keyed)
      (h.reports.commits hcommits)
  | nextRound =>
    exact seated_of_clear (RoundState.voters_toNextRound _) rfl h.known h.keyed h.reports

/-- A vote that is not counted leaves a note of its author at most, or evidence against it. -/
lemma handle_of_not_counts {vote : Vote} (h : ¬ e.Counts w vote) :
    e.handle w (.vote vote) = w ∨
    ∃ staking, e.noted w.disk.store vote.validatorAddress = .ok staking ∧
      (e.handle w (.vote vote) = w.note vote.validatorAddress staking ∨
        e.handle w (.vote vote) =
          (w.note vote.validatorAddress staking).accuse (voteEvidence vote)) := by
  rw [handle, handler, onVote, handleVoteActions]
  rcases recordVote_cases e vote w with ⟨err, hrun⟩ | ⟨staking, out, w', hverify, hnoted, hrun, hrec⟩
  · rw [Handler.bind_error hrun]
    exact .inl rfl
  · have hknown : e.Knows w.disk.store vote.validatorAddress := by
      obtain ⟨v, hv, -⟩ := StakingSnapshot.noteLiveness_ok_iff.mp hnoted
      exact Option.isSome_of_eq_some hv
    rw [Handler.bind_ok hrun]
    refine .inr ⟨staking, hnoted, ?_⟩
    cases hrec with
    | stale => exact .inl rfl
    | conflict => exact .inr rfl
    | few hheight hround hagrees => exact absurd ⟨hverify, hknown, hheight, hround, hagrees⟩ h
    | reached hheight hround hagrees => exact absurd ⟨hverify, hknown, hheight, hround, hagrees⟩ h

/-- An event in which only sitting validators vote keeps the counted votes with them. -/
lemma Seated.handle (h : Seated e w) (hlocal : ∀ l ∈ e.localValidator, l.validator ∈ e.validators)
    (hseats : e.Seats w event) : Seated e (e.handle w event) := by
  by_cases hcounts : ∀ vote ∈ event.vote?, e.Counts w vote
  · exact invariant_of_moves (Seated e) h fun _ _ h₁ hmove => h₁.move hlocal
      (fun vote hvote => hseats.1 vote hvote (hcounts vote hvote)) hmove
  · cases event with
    | vote vote =>
      have hnot : ¬ e.Counts w vote := fun hc => hcounts fun v hv => Option.some.inj hv ▸ hc
      rcases handle_of_not_counts hnot with heq | ⟨staking, hnoted, heq | heq⟩
      · rwa [heq]
      · rw [heq]
        exact h.note hnoted
      · rw [heq]
        exact (h.note hnoted).accuse (known_of_noted hnoted rfl)
    | _ => exact absurd nofun hcounts

/-! ## Registrations -/

variable {config : NodeConfig} {request : ValidatorJoinRequest}

omit [Revm] in
/-- A registration takes no seat from anybody. -/
lemma sitting_registerValidator {d : Disk} (hbond : e.economics.minimumSelfBond < 2 ^ 128) :
    e.sitting d.store ⊆ e.sitting (Handler.final (registerValidator config request d)).store := by
  rcases registerValidator_cases config request d with heq | ⟨_, _, hdelegate, heq⟩
  · rw [heq]
  · intro a ha
    obtain ⟨hconfigured, hactive⟩ := mem_sitting.mp ha
    rw [heq]
    exact mem_sitting.mpr ⟨hconfigured,
      StakingSnapshot.isValidatorActive_of_delegate hdelegate hbond hconfigured hactive⟩

omit [Revm] in
/-- Known validators stay known. -/
lemma Knows.registerValidator {d : Disk} {a : Address} (h : e.Knows d.store a) :
    e.Knows (Handler.final (registerValidator config request d)).store a := by
  rcases registerValidator_cases config request d with heq | ⟨_, _, hdelegate, heq⟩
  · rwa [heq]
  · rw [heq]
    refine knows_iff.mpr ((knows_iff.mp h).imp_right fun hsome => ?_)
    refine ((StakingSnapshot.delegate_ok hdelegate).1.isSome a).mpr ?_
    exact StakingSnapshot.isSome_ensureValidators.mpr (.inr hsome)

omit [Revm] in
lemma Seated.register (h : Seated e w) (hbond : e.economics.minimumSelfBond < 2 ^ 128) :
    Seated e { w with disk := Handler.final (registerValidator config request w.disk) } := by
  refine ⟨h.counted, fun vote hvote => sitting_registerValidator hbond (h.votes vote hvote),
    fun item hitem => (h.known item hitem).registerValidator, keyed_registerValidator h.keyed, ?_⟩
  rcases registerValidator_cases config request w.disk with heq | ⟨_, _, -, heq⟩
  · rw [heq]
    exact h.reports
  · rw [heq]
    exact h.reports.record rfl

/-! ## Runs -/

/-- The steps of a node that concern quorums: its engine handles an event in which nobody but
sitting validators votes, or a validator registers. -/
inductive QuorumStep (config : NodeConfig) (e : ConsensusEngine) : World → World → Prop
  | handle {w : World} {event : Event} (seats : e.Seats w event) :
      QuorumStep config e w (e.handle w event)
  | register {w : World} (request : ValidatorJoinRequest) :
      QuorumStep config e w
        { w with disk := Handler.final (registerValidator config request w.disk) }

lemma Seated.run (h : Seated e w) (hlocal : ∀ l ∈ e.localValidator, l.validator ∈ e.validators)
    (hbond : e.economics.minimumSelfBond < 2 ^ 128)
    (hrun : Relation.ReflTransGen (QuorumStep config e) w w') : Seated e w' := by
  induction hrun with
  | refl => exact h
  | tail _ hstep ih =>
    cases hstep with
    | handle hseats => exact ih.handle hlocal hseats
    | register => exact ih.register hbond

omit [Hashing] [Revm] in
/-- An engine that starts has counted nobody. -/
lemma seated_boot {d : Disk} (hstart : d.journal = [])
    (hkeyed : (StakingSnapshot.load d.store).Keyed) : Seated e (World.boot d) := by
  refine seated_of_clear (fun step blockHash => ?_) rfl nofun hkeyed fun q hq => ?_
  · cases step <;> rfl
  · rw [World.boot, hstart] at hq
    cases hq

/-- If a certificate is accepted, its votes are a quorum of active validators, all of them
sitting. -/
def AcceptsSoundly (e : ConsensusEngine) (store : Store) (block : Block)
    (certificate : CommitCertificate) : Prop :=
  e.validateCommitCertificate store block certificate = .ok () →
    SoundQuorum (certificateAuthors certificate) (e.activeValidators store) ∧
      certificateAuthors certificate ⊆ e.sitting store

instance (e : ConsensusEngine) (store : Store) (block : Block) (certificate : CommitCertificate) :
    Decidable (e.AcceptsSoundly store block certificate) :=
  inferInstanceAs (Decidable (_ → _))

omit [Revm] in
lemma acceptsSoundly_of_sitting {store : Store} {block : Block} {certificate : CommitCertificate}
    (hkeyed : (StakingSnapshot.load store).Keyed)
    (h : ∀ vote ∈ certificate.votes, verifyVote e.scheme vote = .ok () →
      vote.validatorAddress ∈ e.sitting store) : e.AcceptsSoundly store block certificate := by
  intro hvalid
  have hcertifies := validateCommitCertificate_ok hvalid
  have hauthors : certificateAuthors certificate ⊆ e.sitting store := by
    intro a ha
    obtain ⟨vote, hvote, rfl⟩ := List.mem_map.mp (List.mem_toFinset.mp ha)
    exact h vote hvote (hcertifies.votes vote hvote).1
  exact ⟨⟨hauthors.trans (sitting_subset hkeyed), hcertifies.quorum⟩, hauthors⟩

/-- **Quorum soundness.**  Let an engine start on a store and handle events in which nobody but
sitting validators votes, with registrations between them.  Then every quorum that it has
reported is one of active validators, and so is every certificate that it accepts from outside in
such an event.  While such an event is handled, nobody but sitting validators is counted at any
point, and the certificates that the engine makes of the recorded votes are sound as well. -/
theorem run_soundQuorums (hbuilds : config.Builds e)
    (hbond : e.economics.minimumSelfBond < 2 ^ 128) {d : Disk} (hstart : d.journal = [])
    (hkeyed : (StakingSnapshot.load d.store).Keyed)
    (hrun : Relation.ReflTransGen (QuorumStep config e) (World.boot d) w) :
    w.disk.SoundReports ∧
    (∀ f, e.Seats w (.commit f) → w.state.height ≤ f.certificate.height →
      e.AcceptsSoundly w.disk.store f.block f.certificate) ∧
    ∀ event w', e.Seats w event → (∀ vote ∈ event.vote?, e.Counts w vote) → e.Moves w event w w' →
      (∀ step blockHash, w'.state.voters step blockHash ⊆ e.sitting w'.disk.store) ∧
      ∀ block, e.AcceptsSoundly w'.disk.store block (certificateOf w'.state block.hash) := by
  have hseated := (seated_boot hstart hkeyed).run hbuilds.localValidator hbond hrun
  refine ⟨hseated.reports, fun f hseats hheight => ?_, fun event w' hseats hcounts hmoves => ?_⟩
  · exact acceptsSoundly_of_sitting hseated.keyed fun vote => hseats.2 f rfl hheight vote
  · have hinside : Seated e w' := by
      induction hmoves with
      | refl => exact hseated
      | tail _ hmove ih =>
        exact ih.move hbuilds.localValidator
          (fun vote hvote => hseats.1 vote hvote (hcounts vote hvote)) hmove
    -- The certificate is made of recorded votes.
    exact ⟨hinside.voters, fun block => acceptsSoundly_of_sitting hinside.keyed
      fun vote hvote _ => hinside.votes vote (List.mem_of_mem_filter hvote)⟩

end ConsensusEngine

/-! ## A quorum with a registered validator -/

section

open Transparent

/-- A node of the network of four validators. -/
def quorumNode : NodeConfig :=
  { chainId := "zeno", scheme
    genesis :=
      { chainId := "zeno", evmChainId := none, accounts := ∅, validators
        consensus := (engineOf [1]).params, economics } }

lemma builds_quorumNode : quorumNode.Builds (engineOf [1]) := by
  have hplane : quorumNode.consensusPlane (some ⟨address [1], [1]⟩) = .ok (engineOf [1]) := rfl
  exact NodeConfig.builds_of_consensusPlane hplane

/-- The owner of the key `5`, who is not a validator of the genesis, registers. -/
def joining : World :=
  { World.boot blank with
    disk := Handler.final (registerValidator quorumNode
      { publicKey := [5], p2pAddress := "", rpcAddress := "", selfBond := 0 } blank) }

/-- Votes of two validators and of the owner of a key. -/
def votesWith (key : Bytes) (step : VoteStep) (blockHash : Hash32) : List Vote :=
  [castVote [2] 1 0 step blockHash, castVote [3] 1 0 step blockHash, castVote key 1 0 step blockHash]

/-- A certificate of a block with these votes. -/
def certificateWith (key : Bytes) (block : Block) : CommitCertificate :=
  { blockHash := block.hash, height := 1, round := 0
    votes := votesWith key .precommit block.hash }

/-- The registered key completes a quorum of prevotes, and a key without any record completes
the certificate of a block. -/
theorem outsiders_make_quorums :
    ¬ (((votesWith [5] .prevote 7).map Event.vote).foldl (engineOf [1]).handle
      joining).disk.SoundReports ∧
    ¬ (engineOf [1]).AcceptsSoundly blank.store (emptyProposal [2] 0).block
      (certificateWith [6] (emptyProposal [2] 0).block) := by
  constructor <;> decide +kernel

/-- A quorum of three validators is reported, and it is sound. -/
theorem validators_make_quorum :
    let w := ((votesWith [4] .prevote 7).map Event.vote).foldl (engineOf [1]).handle
      (World.boot blank)
    (w.disk.journal.filterMap Effect.quorum?).length = 1 ∧ w.disk.SoundReports := by
  intro w
  have hseats : (engineOf [1]).Meets (engineOf [1]).Seats (World.boot blank)
      ((votesWith [4] .prevote 7).map Event.vote) := by
    decide +kernel
  have hrun : Relation.ReflTransGen (ConsensusEngine.QuorumStep quorumNode (engineOf [1]))
      (World.boot blank) w := by
    refine Relation.ReflTransGen.mono ?_ _ _ (ConsensusEngine.run_of_meets _ hseats)
    rintro _ _ ⟨event, hevent, rfl⟩
    exact .handle hevent
  have hkeyed : (StakingSnapshot.load blank.store).Keyed := fun a v hv => by cases hv
  exact ⟨by decide +kernel,
    (ConsensusEngine.run_soundQuorums builds_quorumNode (by decide) rfl hkeyed hrun).1⟩

end

end ZenoChain
