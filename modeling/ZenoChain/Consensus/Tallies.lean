/-
# The votes of a round

Within a round the first vote of a validator in a phase counts; one that differs from it is evidence
against the validator, and is counted nowhere.  Evidence is recorded once for each validator.  So the
tallies are the first choices, whatever is repeated, and the validators that contradict themselves
are those that are accused.
-/
import ZenoChain.Base.FirstChoice
import ZenoChain.Consensus.Ballots
import ZenoChain.Consensus.Devnet
import ZenoChain.Consensus.Members

namespace ZenoChain

open Handler

/-- The phase of a vote and its author. -/
def Vote.seat (vote : Vote) : VoteStep × Address := (vote.step, vote.validatorAddress)

/-- The hash of the first vote of a validator in a phase. -/
def firstVote (votes : List Vote) (step : VoteStep) (a : Address) : Option Hash32 :=
  firstChoice Vote.seat Vote.blockHash votes (step, a)

/-- A validator has voted for two different hashes in one phase. -/
def Equivocates (votes : List Vote) (a : Address) : Prop :=
  ∃ step, Splits Vote.seat Vote.blockHash votes (step, a)

lemma not_equivocates_nil {a : Address} : ¬ Equivocates [] a := by
  rintro ⟨_, _, hx, -⟩
  cases hx

/-- Nothing of the round has been recorded yet. -/
structure RoundState.Begins (s : RoundState) : Prop where
  votes : s.votes = []
  voters : ∀ step blockHash, s.voters step blockHash = ∅
  processed : ∀ a, (a, s.height, s.round) ∉ s.processedEvidence

/-- The round state after some votes of the round: the tallies are the first votes, what is kept
are votes for these, and there is new evidence against each validator that contradicts itself. -/
structure RoundState.Tallied (s₀ : RoundState) (votes : List Vote) (s : RoundState) : Prop where
  height : s.height = s₀.height
  round : s.round = s₀.round
  voters : ∀ step blockHash a, a ∈ s.voters step blockHash ↔
    firstVote votes step a = some blockHash
  kept : ∀ vote ∈ s.votes, vote.height = s₀.height ∧ vote.round = s₀.round ∧
    firstVote votes vote.step vote.validatorAddress = some vote.blockHash
  first : ∀ step a blockHash, firstVote votes step a = some blockHash →
    ∃ vote ∈ s.votes, vote.step = step ∧ vote.validatorAddress = a ∧ vote.blockHash = blockHash
  processed : ∀ a, (a, s₀.height, s₀.round) ∈ s.processedEvidence ↔ Equivocates votes a
  evidence : ∃ gained : List Evidence, s.evidence = s₀.evidence ++ gained ∧
    (gained.map Evidence.validatorAddress).Nodup ∧
    (∀ a, a ∈ gained.map Evidence.validatorAddress ↔ Equivocates votes a) ∧
    ∀ item ∈ gained, item.height = s₀.height ∧ item.round = s₀.round ∧
      item.reason = "duplicate vote"

namespace RoundState

variable {s₀ s s' : RoundState} {votes : List Vote} {vote : Vote}

/-- A started engine is at the beginning of a round. -/
lemma begins_recovered (store : Store) : (recovered store).Begins :=
  ⟨rfl, fun step _ => by cases step <;> rfl, fun _ => Finset.notMem_empty _⟩

lemma Begins.tallied (h : s.Begins) : Tallied s [] s where
  height := rfl
  round := rfl
  voters step blockHash a := by
    rw [h.voters]
    exact iff_of_false (Finset.notMem_empty _) nofun
  kept vote hvote := by
    rw [h.votes] at hvote
    cases hvote
  first _ _ _ := nofun
  processed a := iff_of_false (h.processed a) not_equivocates_nil
  evidence := by
    refine ⟨[], (List.append_nil _).symm, .nil, fun a => ?_, nofun⟩
    exact iff_of_false List.not_mem_nil not_equivocates_nil

/-- Only the votes, the tallies and the evidence matter. -/
lemma Tallied.congr (h : Tallied s₀ votes s) (hheight : s'.height = s.height)
    (hround : s'.round = s.round) (hvotes : s'.votes = s.votes)
    (hvoters : ∀ step blockHash, s'.voters step blockHash = s.voters step blockHash)
    (hprocessed : s'.processedEvidence = s.processedEvidence)
    (hevidence : s'.evidence = s.evidence) : Tallied s₀ votes s' where
  height := hheight.trans h.height
  round := hround.trans h.round
  voters := by
    simp only [hvoters]
    exact h.voters
  kept := by
    rw [hvotes]
    exact h.kept
  first := by
    rw [hvotes]
    exact h.first
  processed := by
    rw [hprocessed]
    exact h.processed
  evidence := by
    rw [hevidence]
    exact h.evidence

/-- A vote conflicts if the first one of its author in its phase is another one. -/
lemma Tallied.conflicts_iff (h : Tallied s₀ votes s) (hheight : vote.height = s₀.height)
    (hround : vote.round = s₀.round) : s.conflicts vote ↔
      ∃ blockHash, firstVote votes vote.step vote.validatorAddress = some blockHash ∧
        blockHash ≠ vote.blockHash := by
  simp only [conflicts, List.any_eq_true, decide_eq_true_eq]
  constructor
  · rintro ⟨existing, hmem, -, -, hstep, hauthor, hne⟩
    have hfirst := (h.kept existing hmem).2.2
    rw [hstep, hauthor] at hfirst
    exact ⟨_, hfirst, hne⟩
  · rintro ⟨blockHash, hfirst, hne⟩
    obtain ⟨existing, hmem, hstep, hauthor, rfl⟩ := h.first _ _ _ hfirst
    obtain ⟨hheight', hround', -⟩ := h.kept existing hmem
    exact ⟨existing, hmem, hheight'.trans hheight.symm, hround'.trans hround.symm, hstep, hauthor,
      hne⟩

lemma firstVote_concat (step : VoteStep) (a : Address) :
    firstVote (votes ++ [vote]) step a = (firstVote votes step a).or
      (if vote.step = step ∧ vote.validatorAddress = a then some vote.blockHash else none) := by
  rw [firstVote, firstChoice_concat]
  simp only [Vote.seat, Prod.mk.injEq]
  rfl

lemma equivocates_concat_iff (a : Address) : Equivocates (votes ++ [vote]) a ↔
    Equivocates votes a ∨ (vote.validatorAddress = a ∧ ∃ blockHash,
      firstVote votes vote.step vote.validatorAddress = some blockHash ∧
        blockHash ≠ vote.blockHash) := by
  simp only [Equivocates, splits_concat_iff, exists_or]
  refine or_congr_right ?_
  constructor
  · rintro ⟨step, hseat, blockHash, hfirst, hne⟩
    obtain ⟨rfl, rfl⟩ := Prod.mk.inj hseat
    exact ⟨rfl, blockHash, hfirst, hne⟩
  · rintro ⟨rfl, blockHash, hfirst, hne⟩
    exact ⟨vote.step, rfl, blockHash, hfirst, hne⟩

/-- A vote that conflicts with none is counted. -/
lemma Tallied.count (h : Tallied s₀ votes s) (hheight : vote.height = s₀.height)
    (hround : vote.round = s₀.round) (hagrees : s.conflicts vote = false) :
    Tallied s₀ (votes ++ [vote]) (s.count vote) := by
  have hfree : ¬ ∃ blockHash, firstVote votes vote.step vote.validatorAddress = some blockHash ∧
      blockHash ≠ vote.blockHash := by
    rw [← h.conflicts_iff hheight hround, hagrees]
    exact nofun
  have hsame : ∀ a, Equivocates (votes ++ [vote]) a ↔ Equivocates votes a := fun a =>
    (equivocates_concat_iff a).trans (or_iff_left fun hnew => hfree hnew.2)
  -- The vote is the first of its author in its phase, or repeats it.
  have hown : firstVote (votes ++ [vote]) vote.step vote.validatorAddress = some vote.blockHash := by
    rw [firstVote_concat, if_pos ⟨rfl, rfl⟩]
    rcases hfirst : firstVote votes vote.step vote.validatorAddress with _ | blockHash
    · rfl
    · exact congrArg some (not_not.mp fun hne => hfree ⟨blockHash, hfirst, hne⟩)
  have hother : ∀ step a, ¬ (vote.step = step ∧ vote.validatorAddress = a) →
      firstVote (votes ++ [vote]) step a = firstVote votes step a := by
    intro step a hne
    rw [firstVote_concat, if_neg hne, Option.or_none]
  have hmono : ∀ step a blockHash, firstVote votes step a = some blockHash →
      firstVote (votes ++ [vote]) step a = some blockHash := by
    intro step a blockHash hfirst
    rw [firstVote_concat, hfirst]
    rfl
  refine ⟨(s.height_count vote).trans h.height, (s.round_count vote).trans h.round, ?_, ?_, ?_,
    ?_, ?_⟩
  · intro step blockHash a
    rw [voters_count]
    by_cases hseat : vote.step = step ∧ vote.validatorAddress = a
    · obtain ⟨rfl, rfl⟩ := hseat
      rw [hown, Option.some_inj]
      split
      · rename_i heq
        exact iff_of_true (Finset.mem_insert_self _ _) heq.2.symm
      · rename_i hne
        refine iff_of_false (fun hmem => ?_) fun heq => hne ⟨rfl, heq.symm⟩
        have hold := hmono _ _ _ ((h.voters _ _ _).mp hmem)
        rw [hown] at hold
        exact hne ⟨rfl, (Option.some.inj hold).symm⟩
    · rw [hother step a hseat, ← h.voters]
      split
      · rename_i heq
        rw [Finset.mem_insert]
        exact or_iff_right fun ha => hseat ⟨heq.1.symm, ha.symm⟩
      · rfl
  · intro v hv
    rw [votes_count, List.mem_append, List.mem_singleton] at hv
    rcases hv with hv | rfl
    · obtain ⟨hh, hr, hfirst⟩ := h.kept v hv
      exact ⟨hh, hr, hmono _ _ _ hfirst⟩
    · exact ⟨hheight, hround, hown⟩
  · intro step a blockHash hfirst
    rw [votes_count]
    by_cases hseat : vote.step = step ∧ vote.validatorAddress = a
    · obtain ⟨rfl, rfl⟩ := hseat
      rw [hown] at hfirst
      exact ⟨vote, List.mem_append_right _ List.mem_cons_self, rfl, rfl, Option.some.inj hfirst⟩
    · rw [hother step a hseat] at hfirst
      obtain ⟨v, hv, hrest⟩ := h.first _ _ _ hfirst
      exact ⟨v, List.mem_append_left _ hv, hrest⟩
  · intro a
    obtain ⟨p, q, hcount⟩ := s.count_eq vote
    rw [hcount, hsame]
    exact h.processed a
  · rw [evidence_count]
    simp only [hsame]
    exact h.evidence

/-- A vote that conflicts with one that is kept leads to evidence, once for each author. -/
lemma Tallied.accuse (h : Tallied s₀ votes s) (hheight : vote.height = s₀.height)
    (hround : vote.round = s₀.round) (hconflicts : s.conflicts vote) :
    Tallied s₀ (votes ++ [vote])
      (s.addEvidence ⟨vote.validatorAddress, vote.height, vote.round, "duplicate vote"⟩) := by
  obtain ⟨blockHash, hfirst, hne⟩ := (h.conflicts_iff hheight hround).mp hconflicts
  have hequivocates : ∀ a, Equivocates (votes ++ [vote]) a ↔
      Equivocates votes a ∨ vote.validatorAddress = a := fun a =>
    (equivocates_concat_iff a).trans
      (or_congr_right (and_iff_left ⟨blockHash, hfirst, hne⟩))
  -- The author has a first vote in the phase already.
  have hsame : ∀ step a, firstVote (votes ++ [vote]) step a = firstVote votes step a := by
    intro step a
    rw [firstVote_concat]
    split
    · rename_i hseat
      obtain ⟨rfl, rfl⟩ := hseat
      rw [hfirst]
      rfl
    · exact Option.or_none
  obtain ⟨gained, hevidence, hnodup, hgained, hitems⟩ := h.evidence
  rw [hheight, hround, addEvidence]
  dsimp only
  split
  · rename_i hprocessed
    have hold := (h.processed _).mp hprocessed
    have hnothing : ∀ a, Equivocates (votes ++ [vote]) a ↔ Equivocates votes a := fun a =>
      (hequivocates a).trans (or_iff_left_of_imp fun ha => ha ▸ hold)
    refine ⟨h.height, h.round, ?_, ?_, ?_, ?_, gained, hevidence, hnodup, ?_, hitems⟩
    · simp only [hsame]
      exact h.voters
    · simp only [hsame]
      exact h.kept
    · simp only [hsame]
      exact h.first
    · simp only [hnothing]
      exact h.processed
    · simp only [hnothing]
      exact hgained
  · rename_i hfresh
    have hnew : ¬ Equivocates votes vote.validatorAddress := (h.processed _).not.mp hfresh
    refine ⟨h.height, h.round, ?_, ?_, ?_, ?_, gained ++
      [⟨vote.validatorAddress, s₀.height, s₀.round, "duplicate vote"⟩], ?_, ?_, ?_, ?_⟩
    · simp only [hsame]
      exact h.voters
    · simp only [hsame]
      exact h.kept
    · simp only [hsame]
      exact h.first
    · intro a
      rw [hequivocates, ← h.processed, Finset.mem_insert, Prod.mk.injEq, and_iff_left rfl, or_comm,
        eq_comm (a := a)]
    · rw [hevidence, List.append_assoc]
    · rw [List.map_append, List.nodup_append]
      refine ⟨hnodup, List.nodup_singleton _, ?_⟩
      rintro a ha b hb rfl
      rw [List.map_singleton, List.mem_singleton] at hb
      have hauthor : a = vote.validatorAddress := hb
      exact hnew (hauthor ▸ (hgained a).mp ha)
    · intro a
      rw [hequivocates, List.map_append, List.mem_append, hgained, List.map_singleton,
        List.mem_singleton, eq_comm (a := a)]
    · intro item hitem
      rcases List.mem_append.mp hitem with hitem | hitem
      · exact hitems item hitem
      · rw [List.mem_singleton.mp hitem]
        exact ⟨rfl, rfl, rfl⟩

end RoundState

/-! ## Recording votes -/

namespace ConsensusEngine

variable [Hashing] {e : ConsensusEngine} {w : World} {votes votes' : List Vote} {vote : Vote}

/-- A verified vote of a known validator for the current height and round. -/
structure InRound (e : ConsensusEngine) (w : World) (vote : Vote) : Prop where
  verified : verifyVote e.scheme vote = .ok ()
  known : e.Knows w.disk.store vote.validatorAddress
  height : vote.height = w.state.height
  round : vote.round = w.state.round

/-- The world after some votes have been recorded, one after the other. -/
def recordVotes (e : ConsensusEngine) (w : World) (votes : List Vote) : World :=
  votes.foldl (fun w vote => final (e.recordVote vote w)) w

omit [Hashing] in
/-- Known validators can be noted as live. -/
lemma exists_noted {store : Store} {a : Address} (h : e.Knows store a) :
    ∃ staking, e.noted store a = .ok staking := by
  obtain ⟨v, hv⟩ := Option.isSome_iff_exists.mp h
  exact ⟨_, StakingSnapshot.noteLiveness_ok_iff.mpr ⟨v, hv, rfl⟩⟩

/-- What a reached quorum leads to leaves votes, tallies and evidence alone. -/
lemma Acted.tallied {s₀ : RoundState} {out : Option Hash32 × Option Hash32} {w' : World}
    (hacted : Acted vote w out w') (h : RoundState.Tallied s₀ votes w.state) :
    RoundState.Tallied s₀ votes w'.state := by
  cases hacted with
  | prevotes => exact h
  | polka => exact h.congr rfl rfl rfl (fun step _ => by cases step <;> rfl) rfl rfl
  | precommits => exact h

/-- **One vote** of the round. -/
lemma tallied_recordVote {s₀ : RoundState} (h : RoundState.Tallied s₀ votes w.state)
    (hin : e.InRound w vote) :
    RoundState.Tallied s₀ (votes ++ [vote]) (final (e.recordVote vote w)).state ∧
      ∀ v, e.InRound w v → e.InRound (final (e.recordVote vote w)) v := by
  obtain ⟨staking, hnoted⟩ := exists_noted hin.known
  obtain ⟨out, w', hrun, hrecorded⟩ := recordVote_noted hin.verified hnoted
  have hheight := hin.height.trans h.height
  have hround := hin.round.trans h.round
  have hstays := (stays_note hnoted).trans hrecorded.stays
  rw [hrun, final_ok]
  refine ⟨?_, fun v hv => ⟨hv.verified, hv.known.of_standing hstays.standing,
    hv.height.trans hstays.height.symm, hv.round.trans hstays.round.symm⟩⟩
  cases hrecorded with
  | stale hapart => exact absurd hapart (not_or.mpr ⟨not_not.mpr hin.height, not_not.mpr hin.round⟩)
  | conflict _ _ hconflicts => exact h.accuse hheight hround hconflicts
  | few _ _ hagrees => exact h.count hheight hround hagrees
  | reached _ _ hagrees _ hacted =>
    refine hacted.tallied ?_
    exact h.count hheight hround hagrees

/-- The votes of a round, one after the other. -/
lemma tallied_recordVotes {s₀ : RoundState} {before : List Vote}
    (h : RoundState.Tallied s₀ before w.state) (hvotes : ∀ vote ∈ votes, e.InRound w vote) :
    RoundState.Tallied s₀ (before ++ votes) (e.recordVotes w votes).state := by
  induction votes generalizing w before with
  | nil =>
    rw [List.append_nil]
    exact h
  | cons vote votes ih =>
    rw [List.forall_mem_cons] at hvotes
    obtain ⟨hnext, hin⟩ := tallied_recordVote h hvotes.1
    have hrest := ih hnext fun v hv => hin v (hvotes.2 v hv)
    rwa [List.append_assoc] at hrest

omit [Hashing] in
/-- Two sequences have the same votes of a validator, in any order and number. -/
def SameVotes (votes votes' : List Vote) (a : Address) : Prop :=
  ∀ step blockHash,
    (∃ vote ∈ votes, vote.seat = (step, a) ∧ vote.blockHash = blockHash) ↔
      ∃ vote ∈ votes', vote.seat = (step, a) ∧ vote.blockHash = blockHash

/-- **The votes of a round.**  However the verified votes of known validators for a round are mixed
and repeated, the tallies have each validator with its first vote of a phase, and with no other one;
the evidence gains one entry for each validator that has voted for two hashes in a phase, and no
others; and those who have not are counted alike whatever the order and the number of their votes. -/
theorem recordVotes_tally (hbegins : w.state.Begins) (hvotes : ∀ vote ∈ votes, e.InRound w vote) :
    (∀ step blockHash a, a ∈ (e.recordVotes w votes).state.voters step blockHash ↔
      firstVote votes step a = some blockHash) ∧
    (∀ step blockHash blockHash' a, a ∈ (e.recordVotes w votes).state.voters step blockHash →
      a ∈ (e.recordVotes w votes).state.voters step blockHash' → blockHash = blockHash') ∧
    (∃ gained : List Evidence, (e.recordVotes w votes).state.evidence = w.state.evidence ++ gained ∧
      (gained.map Evidence.validatorAddress).Nodup ∧
      (∀ a, a ∈ gained.map Evidence.validatorAddress ↔ Equivocates votes a) ∧
      ∀ item ∈ gained, item.height = w.state.height ∧ item.round = w.state.round ∧
        item.reason = "duplicate vote") ∧
    ∀ votes', (∀ vote ∈ votes', e.InRound w vote) → ∀ a, ¬ Equivocates votes a →
      SameVotes votes votes' a → ∀ step blockHash,
        (a ∈ (e.recordVotes w votes').state.voters step blockHash ↔
          a ∈ (e.recordVotes w votes).state.voters step blockHash) := by
  have htallied := tallied_recordVotes hbegins.tallied hvotes
  refine ⟨htallied.voters, fun step b b' a hb hb' => ?_, htallied.evidence,
    fun votes' hvotes' a hfree hsame step blockHash => ?_⟩
  · have hfirst := (htallied.voters step b a).mp hb
    rw [(htallied.voters step b' a).mp hb'] at hfirst
    exact (Option.some.inj hfirst).symm
  · have htallied' := tallied_recordVotes hbegins.tallied hvotes'
    have hsplit : ¬ Splits Vote.seat Vote.blockHash votes (step, a) := fun h => hfree ⟨step, h⟩
    have hfirst : firstVote votes' step a = firstVote votes step a :=
      firstChoice_congr hsplit (hsame step)
    rw [htallied.voters, htallied'.voters]
    show firstVote votes' step a = _ ↔ firstVote votes step a = _
    rw [hfirst]

end ConsensusEngine

/-! ## Three votes and their order -/

section

open Transparent ConsensusEngine

/-- Two validators vote for one hash, and the second one for another hash as well. -/
def mixedVotes : List Vote :=
  [castVote [2] 1 0 .prevote 7, castVote [3] 1 0 .prevote 7, castVote [3] 1 0 .prevote 8,
    castVote [2] 1 0 .prevote 7]

/-- The second one is counted for its first hash only. -/
theorem mixedVotes_tally :
    address [3] ∈ ((engineOf [1]).recordVotes (World.boot blank) mixedVotes).state.voters .prevote 7 ∧
    address [3] ∉ ((engineOf [1]).recordVotes (World.boot blank) mixedVotes).state.voters .prevote 8 := by
  have hin : ∀ vote ∈ mixedVotes, (engineOf [1]).InRound (World.boot blank) vote := by
    have hvotes : ∀ vote ∈ mixedVotes, verifyVote scheme vote = .ok () ∧
        vote.validatorAddress ∈ validators.map Validator.address ∧ vote.height = 1 ∧
        vote.round = 0 := by decide +kernel
    intro vote hvote
    obtain ⟨hverified, hmember, hheight, hround⟩ := hvotes vote hvote
    exact ⟨hverified, knows_iff.mpr (.inl hmember), hheight, hround⟩
  obtain ⟨hvoters, -, -, -⟩ := recordVotes_tally (RoundState.begins_recovered blank.store) hin
  rw [hvoters, hvoters]
  decide +kernel

end

/-! ## Where rounds begin -/

namespace RoundState

variable {s : RoundState}

/-- The votes are of the current round, and evidence is of no later one. -/
structure Recent (s : RoundState) : Prop where
  votes : ∀ vote ∈ s.votes, vote.height = s.height ∧ vote.round = s.round
  processed : ∀ key ∈ s.processedEvidence,
    key.2.1 < s.height ∨ (key.2.1 = s.height ∧ key.2.2 ≤ s.round)

/-- A later height is at its beginning. -/
lemma Recent.begins_toHeight (h : s.Recent) {n : ℕ} (hlater : s.height < n) :
    (s.toHeight n).Begins := by
  refine ⟨rfl, s.voters_toHeight n, fun a ha => ?_⟩
  have hpast := h.processed _ ha
  dsimp only [toHeight] at hpast
  omega

/-- The next round is at its beginning. -/
lemma Recent.begins_toNextRound (h : s.Recent) (hroom : s.round + 1 < 2 ^ 32) :
    s.toNextRound.Begins := by
  refine ⟨rfl, s.voters_toNextRound, fun a ha => ?_⟩
  have hpast := h.processed _ ha
  have hnext : s.toNextRound.round = s.round + 1 := Nat.mod_eq_of_lt hroom
  rw [hnext] at hpast
  dsimp only [toNextRound, clearRound] at hpast
  omega

/-- Evidence about the current round. -/
lemma Recent.addEvidence (h : s.Recent) {item : Evidence} (hheight : item.height = s.height)
    (hround : item.round = s.round) : (s.addEvidence item).Recent := by
  rw [RoundState.addEvidence]
  split
  · exact h
  · refine ⟨h.votes, fun key hkey => ?_⟩
    rcases Finset.mem_insert.mp hkey with rfl | hkey
    · exact .inr ⟨hheight, hround.le⟩
    · exact h.processed key hkey

lemma Recent.count (h : s.Recent) {vote : Vote} (hheight : vote.height = s.height)
    (hround : vote.round = s.round) : (s.count vote).Recent := by
  obtain ⟨p, q, hcount⟩ := s.count_eq vote
  rw [hcount]
  refine ⟨fun v hv => ?_, h.processed⟩
  rcases List.mem_append.mp hv with hv | hv
  · exact h.votes v hv
  · rw [List.mem_singleton.mp hv]
    exact ⟨hheight, hround⟩

lemma Recent.toHeight (h : s.Recent) {n : ℕ} (hlater : s.height < n) : (s.toHeight n).Recent := by
  refine ⟨nofun, fun key hkey => .inl ?_⟩
  have hpast := h.processed key hkey
  dsimp only [RoundState.toHeight]
  omega

lemma Recent.toNextRound (h : s.Recent) (hroom : s.round + 1 < 2 ^ 32) :
    s.toNextRound.Recent := by
  refine ⟨nofun, fun key hkey => ?_⟩
  have hpast := h.processed key hkey
  have hnext : s.toNextRound.round = s.round + 1 := Nat.mod_eq_of_lt hroom
  rw [hnext]
  dsimp only [RoundState.toNextRound, clearRound]
  omega

end RoundState

namespace ConsensusEngine

variable [Hashing] [Revm] {e : ConsensusEngine} {w₀ w w' : World} {event : Event}

/-- One move keeps what is recorded recent. -/
lemma recent_move (h : w.state.Recent) (hroom : Roomy w₀ event) (hmove : e.Move w₀ event w w') :
    w'.state.Recent := by
  cases hmove with
  | quiet | note | report | lock | stall | accept => exact ⟨h.votes, h.processed⟩
  | accuse haccusation =>
    refine h.addEvidence ?_ ?_ <;> cases haccusation with
    | vote _ _ hconflicts =>
      simp only [RoundState.conflicts, List.any_eq_true, decide_eq_true_eq] at hconflicts
      obtain ⟨existing, hmem, hheight, hround, -⟩ := hconflicts
      obtain ⟨hheight', hround'⟩ := h.votes existing hmem
      first | exact hheight.symm.trans hheight' | exact hround.symm.trans hround'
    | proposal _ _ _ hheight hround => first | exact hheight | exact hround
  | @cast vote =>
    obtain ⟨prevoted, precommitted, hmark⟩ := w.state.markCast_eq vote.step
    rw [World.cast, hmark]
    exact ⟨h.votes, h.processed⟩
  | count _ hheight hround => exact h.count hheight hround
  | finalize _ _ _ _ _ hbound =>
    have hnext : Word.wrappingAdd 64 w.state.height 1 = w.state.height + 1 :=
      Nat.mod_eq_of_lt (by have := hroom.height; omega)
    rw [hnext]
    exact RoundState.Recent.toHeight (s := { w.state with evidence := [] })
      ⟨h.votes, h.processed⟩ (Nat.lt_succ_self _)
  | @adopt f _ hcause hahead =>
    have hnext : Word.wrappingAdd 64 f.block.header.height 1 = f.block.header.height + 1 :=
      Nat.mod_eq_of_lt (hroom.commit f (by rw [hcause]; rfl))
    rw [hnext]
    exact h.toHeight (Nat.lt_succ_of_le hahead)
  | nextRound hbound =>
    have := hroom.round
    exact h.toNextRound (by omega)

/-- **An event** keeps what is recorded recent, so that every new round is at its beginning. -/
theorem recent_handle (h : w.state.Recent) (hroom : Roomy w event) :
    (e.handle w event).state.Recent :=
  invariant_of_moves (fun w => w.state.Recent) h fun _ _ hw hmove => recent_move hw hroom hmove

end ConsensusEngine

end ZenoChain
