/-
# Own votes and locks

What the moves of the engine do to the own votes of the local validator and to its lock: a
vote is cast once in a phase of a round, a lock is taken on the proposal of the round, and the
height and the round only grow while the counters have room.
-/
import ZenoChain.Consensus.Runs

namespace ZenoChain

open Word

/-- An own vote or a lock. -/
inductive Ballot
  | vote (vote : Vote)
  | lock (height round : ℕ) (blockHash : Hash32)
deriving DecidableEq

/-- The own vote or the lock that an effect is about. -/
def Effect.ballot : Effect → Option Ballot
  | .signVote vote => some (.vote vote)
  | .write (.appendConsensusWal (.locked height round blockHash _)) =>
    some (.lock height round blockHash)
  | _ => none

/-- The own votes and locks of a process, oldest first. -/
def Disk.ballots (d : Disk) : List Ballot := d.journal.filterMap Effect.ballot

lemma Effect.ballot_of_isQuiet {x : Effect} (h : x.isQuiet) : x.ballot = none := by
  unfold ballot
  split
  · cases h
  · cases h
  · rfl

lemma Effect.ballot_of_isAccounting {x : Effect} (h : x.IsAccounting) : x.ballot = none := by
  cases h <;> rfl

section

variable [Hashing]

lemma Disk.ballots_recordAll (d : Disk) (es : List Effect) :
    (d.recordAll es).ballots = d.ballots ++ es.filterMap Effect.ballot := by
  rw [ballots, journal_recordAll, List.filterMap_append]
  rfl

/-- Effects that are about no vote and no lock leave the ballots alone. -/
lemma Disk.ballots_recordAll_of_none (d : Disk) {es : List Effect}
    (h : ∀ x ∈ es, x.ballot = none) : (d.recordAll es).ballots = d.ballots := by
  rw [ballots_recordAll, List.filterMap_eq_nil_iff.mpr h, List.append_nil]

lemma Disk.ballots_recordAll_quiet (d : Disk) {es : List Effect} (h : ∀ x ∈ es, x.isQuiet) :
    (d.recordAll es).ballots = d.ballots :=
  d.ballots_recordAll_of_none fun x hx => Effect.ballot_of_isQuiet (h x hx)

variable [Revm]

lemma Commits.ballots {e : ConsensusEngine} {f : FinalizedBlock} {d d' : Disk}
    (h : Commits e f d d') : d'.ballots = d.ballots := by
  obtain ⟨es, rfl, -, hes⟩ := h.effects
  refine d.ballots_recordAll_of_none fun x hx => ?_
  rcases hes x hx with hquiet | haccounting | ⟨state, rfl⟩
  · exact Effect.ballot_of_isQuiet hquiet
  · exact Effect.ballot_of_isAccounting haccounting
  · rfl

omit [Revm] in
lemma Settles.ballots {e : ConsensusEngine} {items : List Evidence} {d d' : Disk}
    (h : Settles e items d d') : d'.ballots = d.ballots := by
  cases h with
  | none => rfl
  | some =>
    refine d.ballots_recordAll_of_none fun x hx => ?_
    simp only [List.mem_cons, List.not_mem_nil, or_false] at hx
    rcases hx with rfl | rfl <;> rfl

end

/-! ## Moves as steps of a voter -/

/-- While the event is handled no counter passes the end of its range. -/
structure Roomy (w₀ : World) (event : Event) : Prop where
  height : w₀.state.height + 2 < 2 ^ 64
  round : w₀.state.round + 1 < 2 ^ 32
  commit : ∀ f ∈ event.commit?, f.block.header.height + 1 < 2 ^ 64

instance (w₀ : World) (event : Event) : Decidable (Roomy w₀ event) :=
  decidable_of_iff (w₀.state.height + 2 < 2 ^ 64 ∧ w₀.state.round + 1 < 2 ^ 32 ∧
      ∀ f ∈ event.commit?, f.block.header.height + 1 < 2 ^ 64)
    ⟨fun h => ⟨h.1, h.2.1, h.2.2⟩, fun h => ⟨h.height, h.round, h.commit⟩⟩

namespace ConsensusEngine

variable [Hashing]

/-- What a move is to the own votes and the lock: nothing, a vote, a lock, a new height or a
new round. -/
inductive VoterStep (e : ConsensusEngine) (w₀ : World) (event : Event) (w w' : World) : Prop
  | idle (ballots : w'.disk.ballots = w.disk.ballots) (height : w'.state.height = w.state.height)
      (round : w'.state.round = w.state.round)
      (proposal : ∀ block, w.state.proposal = some block → w'.state.proposal = some block)
      (hasCast : ∀ step, w'.state.hasCast step = w.state.hasCast step)
      (locks : w'.state.locks = w.state.locks)
  | cast {vote : Vote} {staking : StakingSnapshot} (mayCast : e.MayCast w vote staking)
      (chooses : e.Chooses w₀ event w vote.step vote.blockHash)
      (ballots : w'.disk.ballots = w.disk.ballots ++ [.vote vote])
      (height : w'.state.height = w.state.height) (round : w'.state.round = w.state.round)
      (proposal : w'.state.proposal = w.state.proposal)
      (hasCast : ∀ step, w'.state.hasCast step = (decide (step = vote.step) || w.state.hasCast step))
      (locks : w'.state.locks = w.state.locks)
  | lock {block : Block} (held : w.state.proposal = some block)
      (reached : e.quorum w.disk.store ≤ (w.state.voters .prevote block.hash).card)
      (ballots : w'.disk.ballots =
        w.disk.ballots ++ [.lock w.state.height w.state.round block.hash])
      (height : w'.state.height = w.state.height) (round : w'.state.round = w.state.round)
      (proposal : w'.state.proposal = w.state.proposal)
      (hasCast : ∀ step, w'.state.hasCast step = w.state.hasCast step)
      (locks : w'.state.locks = ((some w.state.round, some block), (some w.state.round, some block)))
  | nextHeight (ballots : w'.disk.ballots = w.disk.ballots)
      (height : Roomy w₀ event → w.state.height < w'.state.height)
      (hasCast : ∀ step, w'.state.hasCast step = false)
      (locks : w'.state.locks = ((none, none), (none, none)))
  | nextRound (ballots : w'.disk.ballots = w.disk.ballots)
      (height : w'.state.height = w.state.height)
      (round : Roomy w₀ event → w'.state.round = w.state.round + 1)
      (hasCast : ∀ step, w'.state.hasCast step = false) (locks : w'.state.locks = w.state.locks)

variable [Revm] {e : ConsensusEngine} {w₀ w w' : World} {event : Event}

/-- **Every move is one step of a voter.** -/
theorem Move.voterStep (h : e.Move w₀ event w w') : VoterStep e w₀ event w w' := by
  cases h with
  | quiet hquiet =>
    exact .idle (w.disk.ballots_recordAll_quiet hquiet) rfl rfl (fun _ h => h) (fun _ => rfl) rfl
  | @note a staking =>
    have hballots : (w.note a staking).disk.ballots = w.disk.ballots :=
      w.disk.ballots_recordAll_of_none (by simp [Effect.ballot])
    exact .idle hballots rfl rfl (fun _ h => h) (fun _ => rfl) rfl
  | accept hvacant =>
    refine .idle rfl rfl rfl (fun block h => ?_) (fun step => by cases step <;> rfl) rfl
    rw [hvacant] at h
    cases h
  | @accuse item =>
    have hballots : (w.accuse item).disk.ballots = w.disk.ballots :=
      w.disk.ballots_recordAll_of_none (List.forall_mem_singleton.mpr rfl)
    have hstays := stays_accuse e w item
    refine .idle hballots hstays.height hstays.round (fun _ h => hstays.proposal.trans h)
      hstays.hasCast ?_
    obtain ⟨processed, evidence, hstate⟩ := w.state.addEvidence_eq item
    rw [World.accuse, hstate]
    rfl
  | @cast vote staking hmay hchooses =>
    obtain ⟨prevoted, precommitted, hmark⟩ := w.state.markCast_eq vote.step
    refine .cast hmay hchooses ?_ ?_ ?_ ?_ (w.state.hasCast_markCast vote.step) ?_
    · rw [World.cast, Disk.ballots_recordAll]
      rfl
    all_goals
      rw [World.cast, hmark]
      try rfl
  | @count vote =>
    have hballots : (w.count vote).disk.ballots = w.disk.ballots :=
      w.disk.ballots_recordAll_of_none (List.forall_mem_singleton.mpr rfl)
    have hstays := stays_count e w vote
    refine .idle hballots hstays.height hstays.round (fun _ h => hstays.proposal.trans h)
      hstays.hasCast ?_
    exact w.state.locks_count vote
  | @report step blockHash =>
    have hballots : (World.report e w step blockHash).disk.ballots = w.disk.ballots :=
      w.disk.ballots_recordAll_of_none (by simp [Effect.ballot])
    exact .idle hballots rfl rfl (fun _ h => h) (fun _ => rfl) rfl
  | @lock block hheld hreached =>
    refine .lock hheld hreached ?_ rfl rfl rfl (fun step => by cases step <;> rfl) rfl
    rw [World.lock, Disk.ballots_recordAll]
    rfl
  | finalize hheld hcertificate hvalid hcommits hsettles hbound =>
    refine .nextHeight (hsettles.ballots.trans hcommits.ballots) (fun hroom => ?_)
      (fun step => by cases step <;> rfl) rfl
    show w.state.height < wrappingAdd 64 w.state.height 1
    have := hroom.height
    rw [wrappingAdd_of_lt (by omega)]
    omega
  | stall hheld hcertificate hvalid hcommits =>
    exact .idle hcommits.ballots rfl rfl (fun _ h => h) (fun step => by cases step <;> rfl) rfl
  | @adopt f _ hcause hahead hvalid hcommits =>
    refine .nextHeight hcommits.ballots (fun hroom => ?_) (fun step => by cases step <;> rfl) rfl
    show w.state.height < wrappingAdd 64 f.block.header.height 1
    rw [wrappingAdd_of_lt (hroom.commit f (hcause ▸ rfl))]
    omega
  | nextRound hbound =>
    refine .nextRound rfl rfl (fun hroom => ?_) (fun step => by cases step <;> rfl) rfl
    have := hroom.round
    exact wrappingAdd_of_lt (by omega)

/-! ## One vote in a phase -/

/-- The own votes of a process that are no later than its height and round: those of the
current round are marked as cast, and no two votes of one phase name different hashes. -/
structure Voting (w : World) : Prop where
  past : ∀ vote, .vote vote ∈ w.disk.ballots → vote.height < w.state.height ∨
    (vote.height = w.state.height ∧ vote.round ≤ w.state.round)
  flagged : ∀ vote, .vote vote ∈ w.disk.ballots → vote.height = w.state.height →
    vote.round = w.state.round → w.state.hasCast vote.step
  once : ∀ vote vote', .vote vote ∈ w.disk.ballots → .vote vote' ∈ w.disk.ballots →
    vote.height = vote'.height → vote.round = vote'.round → vote.step = vote'.step →
    vote.blockHash = vote'.blockHash

omit [Hashing] [Revm] in
/-- A process that has not voted yet. -/
lemma voting_of_no_ballots (h : w.disk.ballots = []) : Voting w := by
  refine ⟨?_, ?_, ?_⟩ <;> rw [h]
  · exact nofun
  · exact nofun
  · exact nofun

omit [Hashing] [Revm] in
/-- The vote that may be cast is the first one of its phase. -/
lemma Voting.new_of_mayCast {vote : Vote} {staking : StakingSnapshot} (h : Voting w)
    (hmay : e.MayCast w vote staking) : ∀ vote', .vote vote' ∈ w.disk.ballots →
      vote'.height = vote.height → vote'.round = vote.round → vote'.step ≠ vote.step := by
  intro vote' hmem hheight hround hstep
  have hcast := h.flagged vote' hmem (hheight.trans hmay.height) (hround.trans hmay.round)
  rw [hstep, hmay.fresh] at hcast
  cases hcast

omit [Revm] in
/-- A step of the voter keeps its votes in order, while the counters have room. -/
lemma Voting.step (h : Voting w) (hroom : Roomy w₀ event) (hstep : VoterStep e w₀ event w w') :
    Voting w' := by
  cases hstep with
  | idle hballots hheight hround _ hcast _ =>
    refine ⟨?_, ?_, hballots ▸ h.once⟩ <;> rw [hballots, hheight, hround]
    · exact h.past
    · intro vote hmem hh hr
      rw [hcast]
      exact h.flagged vote hmem hh hr
  | @cast vote staking hmay _ hballots hheight hround _ hcast _ =>
    have hmem : ∀ v, .vote v ∈ w'.disk.ballots ↔ .vote v ∈ w.disk.ballots ∨ v = vote := by
      intro v
      rw [hballots, List.mem_append, List.mem_singleton, Ballot.vote.injEq]
    have hnew := h.new_of_mayCast hmay
    refine ⟨fun v hv => ?_, fun v hv hh hr => ?_, fun v v' hv hv' hh hr hs => ?_⟩
    · rw [hheight, hround]
      rcases (hmem v).mp hv with hv | rfl
      · exact h.past v hv
      · exact .inr ⟨hmay.height, hmay.round.le⟩
    · rw [hcast]
      rcases (hmem v).mp hv with hv | rfl
      · rw [h.flagged v hv (hheight ▸ hh) (hround ▸ hr), Bool.or_true]
      · rw [decide_eq_true rfl, Bool.true_or]
    · rcases (hmem v).mp hv with hv | rfl <;> rcases (hmem v').mp hv' with hv' | rfl
      · exact h.once v v' hv hv' hh hr hs
      · exact absurd hs (hnew v hv hh hr)
      · exact absurd hs.symm (hnew v' hv' hh.symm hr.symm)
      · rfl
  | lock _ _ hballots hheight hround _ hcast _ =>
    have hmem : ∀ v, .vote v ∈ w'.disk.ballots ↔ .vote v ∈ w.disk.ballots := by
      intro v
      simp [hballots]
    refine ⟨fun v hv => ?_, fun v hv hh hr => ?_, fun v v' hv hv' => ?_⟩
    · rw [hheight, hround]
      exact h.past v ((hmem v).mp hv)
    · rw [hcast]
      exact h.flagged v ((hmem v).mp hv) (hheight ▸ hh) (hround ▸ hr)
    · exact h.once v v' ((hmem v).mp hv) ((hmem v').mp hv')
  | nextHeight hballots hheight _ _ =>
    have hlt := hheight hroom
    have hpast : ∀ v, .vote v ∈ w'.disk.ballots → v.height < w'.state.height := by
      intro v hv
      rw [hballots] at hv
      have := h.past v hv
      omega
    refine ⟨fun v hv => .inl (hpast v hv), fun v hv hh _ => ?_, hballots ▸ h.once⟩
    exact absurd hh (hpast v hv).ne
  | nextRound hballots hheight hround _ _ =>
    have hnext := hround hroom
    have hpast : ∀ v, .vote v ∈ w'.disk.ballots → v.height < w'.state.height ∨
        (v.height = w'.state.height ∧ v.round < w'.state.round) := by
      intro v hv
      rw [hballots] at hv
      have := h.past v hv
      omega
    refine ⟨fun v hv => ?_, fun v hv hh hr => ?_, hballots ▸ h.once⟩
    · have := hpast v hv
      omega
    · have := hpast v hv
      omega

end ConsensusEngine

end ZenoChain
