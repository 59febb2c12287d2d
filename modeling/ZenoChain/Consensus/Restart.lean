/-
# Own votes across restarts

A crash can cut a handler after any of its effects; what is on the disk stays, the round state
is lost, and the engine starts again from what it recovers from the snapshot and the log.  The
marks of the own votes are part of the round state only, so a validator that comes back to a
round in which it has voted is free to vote again.  As long as every restart recovers to a
round after all its votes, no two votes of one phase name different hashes.
-/
import ZenoChain.Consensus.Ballots
import ZenoChain.Consensus.Devnet

namespace ZenoChain

/-- No two votes of one height, round and phase name different hashes. -/
def NoEquivocation (ballots : List Ballot) : Prop :=
  ∀ vote vote', .vote vote ∈ ballots → .vote vote' ∈ ballots → vote.height = vote'.height →
    vote.round = vote'.round → vote.step = vote'.step → vote.blockHash = vote'.blockHash

/-- A ballot belongs to an earlier round than the current one; a lock does not count. -/
def Ballot.Precedes (s : RoundState) : Ballot → Prop
  | .vote v => v.height < s.height ∨ (v.height = s.height ∧ v.round < s.round)
  | .lock .. => True

instance (s : RoundState) : ∀ ballot : Ballot, Decidable (ballot.Precedes s)
  | .vote _ => inferInstanceAs (Decidable (_ ∨ _))
  | .lock .. => inferInstanceAs (Decidable True)

/-- The engine recovers to a height and round after those of all its votes. -/
def RecoversAhead (d : Disk) : Prop := ∀ ballot ∈ d.ballots, ballot.Precedes (recovered d.store)

instance (d : Disk) : Decidable (RecoversAhead d) :=
  inferInstanceAs (Decidable (∀ ballot ∈ d.ballots, _))

namespace ConsensusEngine

variable [Hashing] [Revm] {e : ConsensusEngine} {w₀ w w' : World} {event : Event}

/-- The disk that is left by a crash after the first `k` effects of the handler of an event. -/
def crashDisk (e : ConsensusEngine) (w : World) (event : Event) (k : ℕ) : Disk :=
  w.disk.recordAll ((e.effectsOf w event).take k)

/-- One step in the life of a validator: an event is handled, or the process crashes while it
handles one and starts again. -/
inductive Life (e : ConsensusEngine) (Safe : Disk → Prop) : World → World → Prop
  | handle {w : World} {event : Event} (roomy : Roomy w event) : Life e Safe w (e.handle w event)
  | restart {w : World} {event : Event} (k : ℕ) (roomy : Roomy w event)
      (safe : Safe (e.crashDisk w event k)) : Life e Safe w (World.boot (e.crashDisk w event k))

/-- What a crash leaves of the ballots was there after the event as well. -/
lemma ballots_crashDisk_subset (k : ℕ) :
    (e.crashDisk w event k).ballots ⊆ (e.handle w event).disk.ballots := by
  rw [disk_handle, crashDisk, Disk.ballots_recordAll, Disk.ballots_recordAll]
  refine List.append_subset.mpr ⟨List.subset_append_left _ _, ?_⟩
  intro ballot hballot
  exact List.mem_append_right _ (((List.take_sublist _ _).filterMap _).subset hballot)

/-! ## Lives -/

/-- Handling an event keeps the own votes in order. -/
lemma Voting.handle (h : Voting w) (hroom : Roomy w event) : Voting (e.handle w event) :=
  invariant_of_moves Voting h fun _ _ hw hmove => hw.step hroom hmove.voterStep

/-- One step of a life whose restarts recover ahead of all votes keeps the votes in order. -/
lemma Voting.life (h : Voting w) (hlife : Life e RecoversAhead w w') : Voting w' := by
  cases hlife with
  | handle hroom => exact h.handle hroom
  | @restart event k hroom hahead =>
    have hsubset : (e.crashDisk w event k).ballots ⊆ (e.handle w event).disk.ballots :=
      ballots_crashDisk_subset k
    have hpast : ∀ vote, .vote vote ∈ (e.crashDisk w event k).ballots →
        vote.height < (World.boot (e.crashDisk w event k)).state.height ∨
        (vote.height = (World.boot (e.crashDisk w event k)).state.height ∧
          vote.round < (World.boot (e.crashDisk w event k)).state.round) :=
      fun vote hvote => hahead _ hvote
    refine ⟨fun vote hvote => ?_, fun vote hvote hheight hround => ?_, ?_⟩
    · have := hpast vote hvote
      omega
    · -- There is no vote in the round to which the engine recovers.
      have := hpast vote hvote
      omega
    · intro vote vote' hvote hvote'
      exact (h.handle hroom).once vote vote' (hsubset hvote) (hsubset hvote')

/-- **No self-equivocation across restarts.**  However often the process of a validator crashes
and at whatever point, it signs no two votes of one height, round and phase for different
hashes, if every restart recovers to a round after those in which it has signed. -/
theorem life_noEquivocation {d : Disk} (hstart : d.journal = [])
    (hlife : Relation.ReflTransGen (Life e RecoversAhead) (World.boot d) w) :
    NoEquivocation w.disk.ballots := by
  have hnone : (World.boot d).disk.ballots = [] := by
    rw [World.boot, Disk.ballots, hstart]
    rfl
  have hvoting : Voting w := by
    induction hlife with
    | refl => exact voting_of_no_ballots hnone
    | tail _ hstep ih => exact ih.life hstep
  exact hvoting.once

end ConsensusEngine

/-! ## A restart in the middle of a round -/

section

open Transparent ConsensusEngine

/-- A validator prevotes for a proposal, crashes after its handler, recovers to the same round
and prevotes for nothing at the timeout. -/
theorem restart_equivocates :
    ∃ w, Relation.ReflTransGen (Life (engineOf [1]) fun _ => True) (World.boot blank) w ∧
      ¬ NoEquivocation w.disk.ballots := by
  let crashed := (engineOf [1]).crashDisk (World.boot blank) (.proposal (emptyProposal [2] 0)) 100
  refine ⟨(engineOf [1]).handle (World.boot crashed) (.timeout [] 0), ?_, fun h => ?_⟩
  · exact .tail (.single (.restart 100 (by decide +kernel) trivial)) (.handle (by decide +kernel))
  · have hballots : ((engineOf [1]).handle (World.boot crashed) (.timeout [] 0)).disk.ballots =
        [.vote (Transparent.castVote [1] 1 0 .prevote (emptyProposal [2] 0).block.hash),
         .vote (Transparent.castVote [1] 1 0 .prevote nilHash)] := by decide +kernel
    rw [hballots] at h
    have hsame := h _ _ List.mem_cons_self (List.mem_cons_of_mem _ List.mem_cons_self) rfl rfl rfl
    revert hsame
    decide +kernel

/-- A validator prevotes for nothing at a timeout and crashes when the next round has been
persisted; it recovers to that round and votes for the proposal it gets there. -/
theorem restart_ahead_noEquivocation :
    let crashed := (engineOf [1]).crashDisk (World.boot blank) (.timeout [] 0) 100
    NoEquivocation
      ((engineOf [1]).handle (World.boot crashed) (.proposal (emptyProposal [3] 1))).disk.ballots :=
  life_noEquivocation (d := blank) rfl
    (.tail (.single (.restart 100 (by decide +kernel) (by decide +kernel)))
      (.handle (by decide +kernel)))

end

end ZenoChain
