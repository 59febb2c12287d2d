/-
# A precommit implies a lock

The locking rule of one validator: after a precommit for a block, its prevotes in later
rounds of the height are for that block, or for none, or for a block on which it has locked
in the meantime.  The engine keeps the rule as long as no precommit is a blind one: a quorum
of prevotes that is complete before the proposal is there makes the engine precommit, but it
locks on a proposal only.
-/
import ZenoChain.Base.Trace
import ZenoChain.Consensus.Ballots
import ZenoChain.Consensus.Devnet

namespace ZenoChain

/-- After a precommit for a block, a prevote in a later round of the height is for that block,
or for none, or for a block locked in between in a later round. -/
def KeepsLocks (ballots : List Ballot) : Prop :=
  ∀ before between after pre post,
    ballots = before ++ .vote pre :: (between ++ .vote post :: after) →
    pre.step = .precommit → pre.blockHash ≠ nilHash → post.step = .prevote →
    post.height = pre.height → pre.round < post.round →
    post.blockHash = nilHash ∨ post.blockHash = pre.blockHash ∨
      ∃ round, pre.round < round ∧ .lock pre.height round post.blockHash ∈ between

/-- One more ballot keeps the rule if it is a lock, or a vote that respects every precommit
before it. -/
lemma KeepsLocks.concat {ballots : List Ballot} (h : KeepsLocks ballots) {ballot : Ballot}
    (hlast : ∀ before after pre post, ballots = before ++ .vote pre :: after →
      ballot = .vote post → pre.step = .precommit → pre.blockHash ≠ nilHash →
      post.step = .prevote → post.height = pre.height → pre.round < post.round →
      post.blockHash = nilHash ∨ post.blockHash = pre.blockHash ∨
        ∃ round, pre.round < round ∧ .lock pre.height round post.blockHash ∈ after) :
    KeepsLocks (ballots ++ [ballot]) := by
  intro before between after pre post hsplit
  rw [← List.cons_append, ← List.append_assoc] at hsplit
  rcases Trace.concat_eq_append_cons hsplit with ⟨after', hballots, -⟩ | ⟨hballots, hballot, -⟩
  · refine h before between after' pre post ?_
    rw [hballots, List.append_assoc, List.cons_append]
  · -- The prevote is the new ballot.
    exact hlast before between pre post hballots hballot

namespace ConsensusEngine

variable [Hashing]

/-- The lock of a node covers a precommit for a block at its height: it was taken in the round
of the precommit on that block, which is still the proposal of that round, or later. -/
structure Covers (w : World) (pre : Vote) (since : List Ballot) : Prop where
  lock : ∃ round block, w.state.locks = ((some round, some block), (some round, some block)) ∧
    ((round = pre.round ∧ block.hash = pre.blockHash) ∨
      (pre.round < round ∧ .lock pre.height round block.hash ∈ since))
  proposal : pre.round = w.state.round →
    ∃ block, w.state.proposal = some block ∧ block.hash = pre.blockHash

/-- The state of a validator that keeps the locking rule. -/
structure Locking (w : World) : Prop where
  voting : Voting w
  keeps : KeepsLocks w.disk.ballots
  covers : ∀ before pre since, w.disk.ballots = before ++ .vote pre :: since →
    pre.step = .precommit → pre.blockHash ≠ nilHash → pre.height = w.state.height →
    Covers w pre since

variable {e : ConsensusEngine} {w₀ w w' : World} {event : Event}

/-- Under a lock that is also the valid block, a prevote for a block is for the locked one. -/
lemma prevoteChoice_of_locks {s : RoundState} {round : ℕ} {block : Block}
    (h : s.locks = ((some round, some block), (some round, some block))) :
    s.prevoteChoice = nilHash ∨ s.prevoteChoice = block.hash := by
  obtain ⟨⟨-, hlocked⟩, -, hvalid⟩ : (s.lockedRound = some round ∧ s.lockedBlock = some block) ∧
      s.validRound = some round ∧ s.validBlock = some block := by
    simpa [RoundState.locks] using h
  rw [RoundState.prevoteChoice, hlocked]
  rcases s.proposal with _ | proposal
  · exact .inl rfl
  · dsimp only
    split_ifs with hsame hfree
    · exact .inr hsame.symm
    · -- The valid block is the locked one, so that it cannot free the vote for another.
      rw [hvalid] at hfree
      simp only [Option.any_some, decide_eq_true_eq] at hfree
      exact absurd hfree.1 hsame
    · exact .inl rfl

lemma Covers.mono {pre : Vote} {since since' : List Ballot} (h : Covers w pre since)
    (hsince : since ⊆ since') (hlocks : w'.state.locks = w.state.locks)
    (hround : w'.state.round = w.state.round)
    (hproposal : ∀ block, w.state.proposal = some block → w'.state.proposal = some block) :
    Covers w' pre since' := by
  obtain ⟨round, block, hheld, hcover⟩ := h.lock
  refine ⟨⟨round, block, hlocks.trans hheld, hcover.imp_right fun h => ⟨h.1, hsince h.2⟩⟩, ?_⟩
  intro hr
  obtain ⟨block', hproposed, hhash⟩ := h.proposal (hr.trans hround)
  exact ⟨block', hproposal block' hproposed, hhash⟩

/-- A step of the voter keeps the locking rule, unless it is a blind precommit. -/
lemma Locking.step (h : Locking w) (hroom : Roomy w₀ event)
    (hsighted : ∀ vote ∈ event.vote?, ¬ e.BlindPrecommit w₀ vote)
    (hstep : VoterStep e w₀ event w w') : Locking w' := by
  have hvoting := h.voting.step hroom hstep
  cases hstep with
  | idle hballots hheight hround hproposal _ hlocks =>
    refine ⟨hvoting, hballots ▸ h.keeps, ?_⟩
    rw [hballots, hheight]
    intro before pre since hsplit hpre hne hh
    exact (h.covers before pre since hsplit hpre hne hh).mono (List.Subset.refl _) hlocks hround
      hproposal
  | @cast vote staking hmay hchooses hballots hheight hround hproposal _ hlocks =>
    refine ⟨hvoting, ?_, ?_⟩
    · rw [hballots]
      refine h.keeps.concat fun before after pre post hsplit hballot hpre hne hpost hh hr => ?_
      obtain rfl := Ballot.vote.inj hballot
      -- The prevote follows the locking rule, and the lock covers the precommit.
      have hcovers := h.covers before pre after hsplit hpre hne (hh.symm.trans hmay.height)
      obtain ⟨round, block, hheld, hcover⟩ := hcovers.lock
      have hchoice : vote.blockHash = w.state.prevoteChoice := by
        rw [hpost] at hchooses
        exact hchooses
      rcases prevoteChoice_of_locks hheld with hnil | hblock
      · exact .inl (hchoice.trans hnil)
      · rw [hchoice, hblock]
        rcases hcover with ⟨-, hsame⟩ | ⟨hlater, hlock⟩
        · exact .inr (.inl hsame)
        · exact .inr (.inr ⟨round, hlater, hlock⟩)
    · rw [hballots, hheight]
      intro before pre since hsplit hpre hne hh
      rcases Trace.concat_eq_append_cons hsplit with ⟨since', hbefore, rfl⟩ | ⟨-, hlast, -⟩
      · exact (h.covers before pre since' hbefore hpre hne hh).mono
          (List.subset_append_left _ _) hlocks hround fun block hb => hproposal.trans hb
      · -- The precommit is the new vote: it was cast with a fresh lock on the proposal.
        obtain rfl := Ballot.vote.inj hlast
        rw [hpre] at hchooses
        obtain ⟨block, hheld, hhash, hlock⟩ : LockedNow w.state vote.blockHash := by
          rcases hchooses.2 with hnil | hlocked | ⟨vote', hevent, -, hblind⟩
          · exact absurd hnil hne
          · exact hlocked
          · exact absurd hblind (hsighted vote' (hevent ▸ rfl))
        exact ⟨⟨w.state.round, block, hlocks.trans hlock, .inl ⟨hmay.round.symm, hhash⟩⟩,
          fun _ => ⟨block, hproposal.trans hheld, hhash⟩⟩
  | @lock block hheld _ hballots hheight hround hproposal _ hlocks =>
    refine ⟨hvoting, ?_, ?_⟩
    · rw [hballots]
      exact h.keeps.concat fun _ _ _ _ _ hballot => by cases hballot
    · rw [hballots, hheight]
      intro before pre since hsplit hpre hne hh
      rcases Trace.concat_eq_append_cons hsplit with ⟨since', hbefore, rfl⟩ | ⟨-, hlast, -⟩
      · have hcovers := h.covers before pre since' hbefore hpre hne hh
        have hpast := h.voting.past pre (hbefore ▸ List.mem_append_right _ List.mem_cons_self)
        refine ⟨⟨w.state.round, block, hlocks, ?_⟩, fun hr => ?_⟩
        · rcases Nat.lt_or_ge pre.round w.state.round with hlater | hsame
          · refine .inr ⟨hlater, List.mem_append_right _ ?_⟩
            rw [hh]
            exact List.mem_cons_self
          · -- A second lock in the round of the precommit is on the same proposal.
            have hr : pre.round = w.state.round := by omega
            obtain ⟨block', hheld', hhash⟩ := hcovers.proposal hr
            obtain rfl := Option.some.inj (hheld.symm.trans hheld')
            exact .inl ⟨hr.symm, hhash⟩
        · obtain ⟨block', hheld', hhash⟩ := hcovers.proposal (hr.trans hround)
          exact ⟨block', hproposal.trans hheld', hhash⟩
      · cases hlast
  | nextHeight hballots hheight _ _ =>
    refine ⟨hvoting, hballots ▸ h.keeps, ?_⟩
    rw [hballots]
    intro before pre since hsplit _ _ hh
    have hpast := h.voting.past pre (hsplit ▸ List.mem_append_right _ List.mem_cons_self)
    have hgrows := hheight hroom
    omega
  | nextRound hballots hheight hround _ hlocks =>
    refine ⟨hvoting, hballots ▸ h.keeps, ?_⟩
    rw [hballots, hheight]
    intro before pre since hsplit hpre hne hh
    have hpast := h.voting.past pre (hsplit ▸ List.mem_append_right _ List.mem_cons_self)
    have hgrows := hround hroom
    obtain ⟨round, block, hheld, hcover⟩ := (h.covers before pre since hsplit hpre hne hh).lock
    refine ⟨⟨round, block, hlocks.trans hheld, hcover⟩, fun hr => ?_⟩
    omega

/-- A process that has not voted yet keeps the locking rule. -/
lemma locking_boot {d : Disk} (hstart : d.journal = []) : Locking (World.boot d) := by
  have hnone : (World.boot d).disk.ballots = [] := by
    rw [World.boot, Disk.ballots, hstart]
    rfl
  refine ⟨voting_of_no_ballots hnone, ?_, ?_⟩ <;> rw [hnone]
  · intro before between after pre post hsplit
    simp at hsplit
  · intro before pre since hsplit
    simp at hsplit

variable [Revm]

/-- The event makes no counter pass its range and completes no quorum of prevotes that the
engine answers without its proposal. -/
def Sighted (e : ConsensusEngine) (w : World) (event : Event) : Prop :=
  Roomy w event ∧ ∀ vote ∈ event.vote?, ¬ e.BlindPrecommit w vote

instance (w : World) (event : Event) : Decidable (e.Sighted w event) :=
  inferInstanceAs (Decidable (_ ∧ _))

/-- **Precommit implies lock.**  A process that starts on any store and handles events none of
which leads to a blind precommit keeps the locking rule. -/
theorem run_keepsLocks {d : Disk} (hstart : d.journal = [])
    (hrun : e.Run e.Sighted (World.boot d) w) : KeepsLocks w.disk.ballots := by
  have hkeeps : Locking w :=
    invariant_of_run Locking (locking_boot hstart) (fun w₀ event hcond w w' h hmove =>
      h.step hcond.1 hcond.2 hmove.voterStep) hrun
  exact hkeeps.keeps

end ConsensusEngine

/-! ## A precommit without a lock -/

section

open Transparent

/-- A validator hears a quorum of prevotes for a hash before any proposal, and a proposal in
the next round. -/
def blindEvents : List Event :=
  [.vote (castVote [2] 1 0 .prevote 7), .vote (castVote [3] 1 0 .prevote 7),
   .vote (castVote [4] 1 0 .prevote 7), .timeout [] 0, .proposal (emptyProposal [3] 1)]

/-- It precommits for the hash, takes no lock, and prevotes for the other block one round
later. -/
theorem blindEvents_break_lock :
    ∃ w, (engineOf [1]).Run (fun _ _ => True) (World.boot blank) w ∧
      ¬ KeepsLocks w.disk.ballots := by
  refine ⟨_, ConsensusEngine.run_of_meets blindEvents (by decide +kernel), fun h => ?_⟩
  have hballots : (blindEvents.foldl (engineOf [1]).handle (World.boot blank)).disk.ballots =
      [.vote (castVote [1] 1 0 .precommit 7), .vote (castVote [1] 1 0 .prevote nilHash),
       .vote (castVote [1] 1 1 .prevote (emptyProposal [3] 1).block.hash)] := by decide +kernel
  rcases h [] [_] [] _ _ hballots rfl (by decide) rfl rfl (by decide) with hnil | hsame | ⟨_, -, hlock⟩
  · revert hnil
    decide +kernel
  · revert hsame
    decide +kernel
  · cases List.mem_singleton.mp hlock

/-- A validator that gets the proposal before the prevotes locks on it, and prevotes for
nothing in the next round, where another block is proposed. -/
def sightedEvents : List Event :=
  let blockHash := (emptyProposal [2] 0).block.hash
  [.proposal (emptyProposal [2] 0), .vote (castVote [2] 1 0 .prevote blockHash),
   .vote (castVote [3] 1 0 .prevote blockHash), .timeout [] 0, .proposal (emptyProposal [3] 1)]

/-- The rule on that run, with its two prevotes, its lock and its precommit. -/
theorem sightedEvents_keepLocks :
    (sightedEvents.foldl (engineOf [1]).handle (World.boot blank)).disk.ballots.length = 4 ∧
      KeepsLocks (sightedEvents.foldl (engineOf [1]).handle (World.boot blank)).disk.ballots :=
  ⟨by decide +kernel, ConsensusEngine.run_keepsLocks rfl
    (ConsensusEngine.run_of_meets sightedEvents (by decide +kernel))⟩

end

end ZenoChain
