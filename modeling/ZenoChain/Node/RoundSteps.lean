/-
# A round at one node

A node holds the proposal of its round and hears the votes of its validators.  If those that are not
faulty vote for the proposal, then whatever the others send, the node answers a quorum of prevotes
with its own precommit and a quorum of precommits by committing the block.
-/
import ZenoChain.Consensus.Agreement
import ZenoChain.Consensus.Tallies
import ZenoChain.Node.CatchUp

namespace ZenoChain

open Word Handler ExecutionEngine

/-! ## Effects that commit nothing -/

section

variable [Hashing]

/-- The effect writes no account and no block, and removes no block. -/
def Effect.sparesLedger (x : Effect) : Bool := x.sparesAccounts && x.sparesBlocks

omit [Hashing] in
lemma Effect.commits_of_sparesLedger {x : Effect} (h : x.sparesLedger) : x.commits = none := by
  unfold commits
  split
  · cases h
  · rfl

lemma latestBlock_record_sparing {x : Effect} (h : x.sparesLedger) (d : Disk) :
    (d.record x).store.latestBlock = d.store.latestBlock := by
  rcases x with w | _ | _ | _ | _
  · cases w with
    | putAccount | atomicCommitBlock | pruneBlocksBelow => cases h
    | compactConsensusWal n =>
      obtain ⟨wal, heq⟩ := d.store.compactConsensusWal_eq n
      rw [Disk.store_record_write, Store.apply, heq]
      rfl
    | _ => rfl
  all_goals rfl

lemma ledger_recordAll_sparing {es : List Effect} (h : ∀ x ∈ es, Effect.sparesLedger x) (d : Disk) :
    (d.recordAll es).store.ledger = d.store.ledger := by
  have haccounts : (d.recordAll es).store.accounts = d.store.accounts :=
    accounts_recordAll_sparing (fun x hx => (Bool.and_eq_true_iff.mp (h x hx)).1) d
  have hlatest : (d.recordAll es).store.latestBlock = d.store.latestBlock := by
    clear haccounts
    induction es generalizing d with
    | nil => rfl
    | cons x es ih =>
      obtain ⟨hx, hrest⟩ := List.forall_mem_cons.mp h
      rw [Disk.recordAll_cons, ih hrest, latestBlock_record_sparing hx]
  rw [Store.ledger, Store.ledger, haccounts, Store.latestHash, Store.latestHash, hlatest]

/-- A disk has got effects that leave the ledger alone. -/
def Disk.Spares (d d' : Disk) : Prop := ∃ es, d' = d.recordAll es ∧ ∀ x ∈ es, Effect.sparesLedger x

namespace Disk.Spares

variable {d d' d₁ d₂ d₃ : Disk}

lemma refl (d : Disk) : d.Spares d := ⟨[], rfl, List.forall_mem_nil _⟩

lemma trans (h : d₁.Spares d₂) (h' : d₂.Spares d₃) : d₁.Spares d₃ := by
  obtain ⟨es, rfl, hes⟩ := h
  obtain ⟨es', rfl, hes'⟩ := h'
  exact ⟨es ++ es', (Disk.recordAll_append _ _ _).symm, List.forall_mem_append.mpr ⟨hes, hes'⟩⟩

lemma committed (h : d.Spares d') : d'.committed = d.committed := by
  obtain ⟨es, rfl, hes⟩ := h
  exact d.committed_recordAll_of_none fun x hx => Effect.commits_of_sparesLedger (hes x hx)

lemma ledger (h : d.Spares d') : d'.store.ledger = d.store.ledger := by
  obtain ⟨es, rfl, hes⟩ := h
  exact ledger_recordAll_sparing hes d

end Disk.Spares

end

namespace ConsensusEngine

/-! ## What a node brings along -/

section

variable [Hashing] [Revm]

omit [Revm] in
/-- The key of a validator signs its votes, and they verify. -/
def CanSign (e : ConsensusEngine) (l : LocalValidator) : Prop :=
  ∀ vote : Vote, vote.validatorAddress = l.validator.address →
    vote.publicKey = l.validator.publicKey →
    ∃ v, signVote e.scheme vote l.secretKey = .ok v ∧ verifyVote e.scheme v = .ok ()

/-- What a node needs to take part in the round of a block. -/
structure CanCommit (e : ConsensusEngine) (E : Electorate Address) (block : Block) : Prop where
  validators : e.execution.validators = e.validators
  plain : IsPlain e.execution block
  receiptRoot : block.header.receiptRoot = receiptRoot (IsPlain.receipts block)
  hash : block.hash ≠ nilHash
  room : block.header.height + 1 < 2 ^ 64
  signer : ∃ l, e.localValidator = some l ∧ l.validator.address ∈ E.members ∧
    l.validator.address ∉ E.faulty ∧ e.CanSign l

/-- A vote of the round of a block: its author is a member, and votes for the block unless it is
faulty. -/
structure Proper (e : ConsensusEngine) (E : Electorate Address) (block : Block) (vote : Vote) :
    Prop where
  verified : verifyVote e.scheme vote = .ok ()
  height : vote.height = block.header.height
  round : vote.round = block.header.round
  member : vote.validatorAddress ∈ E.members
  choice : vote.validatorAddress ∉ E.faulty → vote.blockHash = block.hash

/-- A node is in the round of a block and holds it: the block extends the ledger, and all that the
node counts are proper votes. -/
structure Holding (e : ConsensusEngine) (E : Electorate Address) (block : Block)
    (chain : List FinalizedBlock) (w : World) : Prop where
  height : w.state.height = block.header.height
  round : w.state.round = block.header.round
  proposal : w.state.proposal = some block
  members : e.HasMembers w.disk.store E.members
  active : e.localValidatorActive w.disk.store
  fits : w.disk.store.ledger.Extends e.execution e.scheme block
  committed : w.disk.committed = chain
  accountable : e.Accountable w
  votes : ∀ v ∈ w.state.votes, e.Proper E block v
  voters : ∀ step blockHash, ∀ a ∈ w.state.voters step blockHash,
    ∃ v ∈ w.state.votes, v.step = step ∧ v.blockHash = blockHash ∧ v.validatorAddress = a

variable {e : ConsensusEngine} {E : Electorate Address} {block : Block} {chain : List FinalizedBlock}
  {w w' : World} {vote : Vote}

namespace Holding

omit [Revm] in
/-- The authors counted for a hash are members. -/
lemma voters_subset (h : e.Holding E block chain w) (step : VoteStep) (blockHash : Hash32) :
    w.state.voters step blockHash ⊆ E.members := by
  intro a ha
  obtain ⟨v, hv, -, -, rfl⟩ := h.voters step blockHash a ha
  exact (h.votes v hv).member

omit [Revm] in
lemma quorum_eq (h : e.Holding E block chain w) :
    e.quorum w.disk.store = E.members.card * 2 / 3 + 1 := by
  rw [quorum, h.members.2]

omit [Revm] in
lemma isQuorum_iff (h : e.Holding E block chain w) {step : VoteStep} {blockHash : Hash32} :
    E.IsQuorum (w.state.voters step blockHash) ↔
      e.quorum w.disk.store ≤ (w.state.voters step blockHash).card := by
  rw [h.quorum_eq]
  exact ⟨fun hS => hS.enough, fun henough => ⟨h.voters_subset step blockHash, henough⟩⟩

omit [Revm] in
/-- Only the block gets a quorum. -/
lemma sole (h : e.Holding E block chain w) {step : VoteStep} {blockHash : Hash32}
    (hS : E.IsQuorum (w.state.voters step blockHash)) : blockHash = block.hash := by
  obtain ⟨a, ha, -, hgood⟩ := hS.exists_common hS
  obtain ⟨v, hv, -, rfl, rfl⟩ := h.voters step blockHash a ha
  exact (h.votes v hv).choice hgood

omit [Revm] in
lemma keep (h : e.Holding E block chain w)
    (hstanding : e.standing w'.disk.store = e.standing w.disk.store)
    (hspares : w.disk.Spares w'.disk) (hheight : w'.state.height = w.state.height)
    (hround : w'.state.round = w.state.round) (hproposal : w'.state.proposal = w.state.proposal)
    (haccountable : ∀ item ∈ w'.state.evidence,
      item ∈ w.state.evidence ∨ e.Knows w.disk.store item.validatorAddress)
    (hvotes : w'.state.votes = w.state.votes)
    (hvoters : ∀ step blockHash, w'.state.voters step blockHash = w.state.voters step blockHash) :
    e.Holding E block chain w' where
  height := hheight.trans h.height
  round := hround.trans h.round
  proposal := hproposal.trans h.proposal
  members := by
    rw [HasMembers, activeValidators_congr hstanding]
    exact h.members
  active := by
    rw [localValidatorActive_congr hstanding]
    exact h.active
  fits := hspares.ledger ▸ h.fits
  committed := hspares.committed.trans h.committed
  accountable item hitem :=
    ((haccountable item hitem).elim (h.accountable item) id).of_standing hstanding
  votes := hvotes ▸ h.votes
  voters step blockHash := by
    rw [hvoters, hvotes]
    exact h.voters step blockHash

omit [Revm] in
lemma note (h : e.Holding E block chain w) {a : Address} {staking : StakingSnapshot}
    (hnoted : e.noted w.disk.store a = .ok staking) : e.Holding E block chain (w.note a staking) :=
  h.keep (stays_note hnoted).standing ⟨_, rfl, by simp [Effect.sparesLedger, Effect.sparesAccounts,
    Effect.sparesBlocks]⟩ rfl rfl rfl (fun _ => .inl) rfl fun _ _ => rfl

omit [Revm] in
lemma accuse (h : e.Holding E block chain w) {item : Evidence}
    (hknown : e.Knows w.disk.store item.validatorAddress) :
    e.Holding E block chain (w.accuse item) := by
  obtain ⟨processed, evidence, hstate⟩ := w.state.addEvidence_eq item
  have haccused : (w.accuse item).state =
    { w.state with processedEvidence := processed, evidence := evidence } := hstate
  have hstays := stays_accuse e w item
  refine h.keep hstays.standing ⟨[.write (.appendConsensusWal (.evidenceRecorded item.height
    item.round item.validatorAddress item.reason))], rfl, List.forall_mem_singleton.mpr rfl⟩
    hstays.height hstays.round hstays.proposal (fun other hother => ?_) ?_ fun step blockHash => ?_
  · rcases List.mem_append.mp (w.state.evidence_addEvidence_subset item hother) with hold | hnew
    · exact .inl hold
    · exact .inr (List.mem_singleton.mp hnew ▸ hknown)
  · rw [haccused]
  · rw [haccused]
    cases step <;> rfl

omit [Revm] in
lemma count (h : e.Holding E block chain w) (hproper : e.Proper E block vote) :
    e.Holding E block chain (w.count vote) := by
  have hstays := stays_count e w vote
  have hspares : w.disk.Spares (w.count vote).disk :=
    ⟨[.write (.appendConsensusWal (.voteRecorded vote.height vote.round vote.step vote.blockHash
      vote.validatorAddress))], rfl, List.forall_mem_singleton.mpr rfl⟩
  have hvotes : (w.count vote).state.votes = w.state.votes ++ [vote] := w.state.votes_count vote
  refine ⟨hstays.height.trans h.height, hstays.round.trans h.round,
    hstays.proposal.trans h.proposal, ?_, ?_, hspares.ledger ▸ h.fits,
    hspares.committed.trans h.committed, fun item hitem => ?_, fun v hv => ?_,
    fun step blockHash a ha => ?_⟩
  · rw [HasMembers, activeValidators_congr hstays.standing]
    exact h.members
  · rw [localValidatorActive_congr hstays.standing]
    exact h.active
  · exact (h.accountable item (w.state.evidence_count vote ▸ hitem)).of_standing hstays.standing
  · rw [hvotes] at hv
    rcases List.mem_append.mp hv with hold | hnew
    · exact h.votes v hold
    · exact List.mem_singleton.mp hnew ▸ hproper
  · replace ha : a ∈ (w.state.count vote).voters step blockHash := ha
    rw [RoundState.voters_count] at ha
    rw [hvotes]
    have hold : a ∈ w.state.voters step blockHash → ∃ v ∈ w.state.votes ++ [vote],
        v.step = step ∧ v.blockHash = blockHash ∧ v.validatorAddress = a := fun ha =>
      (h.voters step blockHash a ha).imp fun v hv => ⟨List.mem_append_left _ hv.1, hv.2⟩
    split at ha
    · rename_i hsame
      rcases Finset.mem_insert.mp ha with rfl | ha
      · exact ⟨vote, List.mem_append_right _ List.mem_cons_self, hsame.1.symm, hsame.2.symm, rfl⟩
      · exact hold ha
    · exact hold ha

omit [Revm] in
lemma report (h : e.Holding E block chain w) (step : VoteStep) (blockHash : Hash32) :
    e.Holding E block chain (World.report e w step blockHash) :=
  h.keep (stays_report e w step blockHash).standing ⟨_, rfl, List.forall_mem_singleton.mpr rfl⟩
    rfl rfl rfl (fun _ => .inl) rfl fun _ _ => rfl

omit [Revm] in
lemma lock (h : e.Holding E block chain w) (height round : ℕ) (b : Block) (blockHash : Hash32) :
    e.Holding E block chain (w.lock height round b blockHash) :=
  h.keep (stays_lock e w height round b blockHash).standing ⟨_, rfl, by simp [Effect.sparesLedger,
    Effect.sparesAccounts, Effect.sparesBlocks]⟩ rfl rfl rfl (fun _ => .inl) rfl
    fun step _ => by cases step <;> rfl

omit [Revm] in
lemma cast (h : e.Holding E block chain w) {staking : StakingSnapshot}
    (hmay : e.MayCast w vote staking) : e.Holding E block chain (w.cast vote staking) := by
  obtain ⟨prevoted, precommitted, hmark⟩ := w.state.markCast_eq vote.step
  have hstate : (w.cast vote staking).state =
    { w.state with prevoted := prevoted, precommitted := precommitted } := hmark
  refine h.keep (standing_put_noted hmay.noted rfl) ⟨World.castEffects vote staking, rfl, by
    simp [World.castEffects, Effect.sparesLedger, Effect.sparesAccounts, Effect.sparesBlocks]⟩
    ?_ ?_ ?_ (fun item hitem => ?_) ?_ fun step blockHash => ?_
  · rw [hstate]
  · rw [hstate]
  · rw [hstate]
  · rw [hstate] at hitem
    exact .inl hitem
  · rw [hstate]
  · rw [hstate]
    cases step <;> rfl

omit [Revm] in
/-- Members are known. -/
lemma knows (h : e.Holding E block chain w) {a : Address} (ha : a ∈ E.members) :
    e.Knows w.disk.store a := by
  rw [← h.members.1] at ha
  obtain ⟨v, hv, rfl⟩ := List.mem_map.mp (List.mem_toFinset.mp ha)
  exact knows_iff.mpr (.inl (List.mem_map_of_mem (e.activeValidators_subset _ hv)))

end Holding

/-! ## What a node says -/

/-- The votes that a node has signed on the way from a disk to another one are for a block, in its
round. -/
def SignsFor (block : Block) (d d' : Disk) : Prop :=
  ∃ new, d'.ballots = d.ballots ++ new ∧ ∀ v : Vote, .vote v ∈ new →
    v.height = block.header.height ∧ v.round = block.header.round ∧ v.blockHash = block.hash

namespace SignsFor

variable {d d' d₁ d₂ d₃ : Disk}

omit [Revm] in
lemma of_same (h : d'.ballots = d.ballots) : SignsFor block d d' :=
  ⟨[], by rw [h, List.append_nil], fun _ hv => absurd hv List.not_mem_nil⟩

omit [Revm] in
lemma trans (h : SignsFor block d₁ d₂) (h' : SignsFor block d₂ d₃) : SignsFor block d₁ d₃ := by
  obtain ⟨new, hnew, hvotes⟩ := h
  obtain ⟨more, hmore, hvotes'⟩ := h'
  exact ⟨new ++ more, by rw [hmore, hnew, List.append_assoc], fun v hv =>
    (List.mem_append.mp hv).elim (hvotes v) (hvotes' v)⟩

omit [Revm] in
lemma subset (h : SignsFor block d d') : d.ballots ⊆ d'.ballots := by
  obtain ⟨new, hnew, -⟩ := h
  exact hnew ▸ List.subset_append_left _ _

omit [Revm] in
/-- Effects of which each signed vote is for the block. -/
lemma of_effects (es : List Effect) (h : ∀ v : Vote, .signVote v ∈ es →
      v.height = block.header.height ∧ v.round = block.header.round ∧ v.blockHash = block.hash)
    (d : Disk) : SignsFor block d (d.recordAll es) := by
  refine ⟨es.filterMap Effect.ballot, d.ballots_recordAll es, fun v hv => ?_⟩
  obtain ⟨x, hx, hballot⟩ := List.mem_filterMap.mp hv
  unfold Effect.ballot at hballot
  split at hballot
  · cases hballot
    exact h v hx
  · cases hballot
  · cases hballot

end SignsFor

omit [Revm] in
/-- Recording a vote signs none. -/
lemma Recorded.signs {out : Option Hash32 × Option Hash32} (h : Recorded e vote w out w') :
    SignsFor block w.disk w'.disk := by
  have hcount : SignsFor block w.disk (w.count vote).disk :=
    .of_effects [.write (.appendConsensusWal (.voteRecorded vote.height vote.round vote.step
      vote.blockHash vote.validatorAddress))] (by simp) _
  cases h with
  | stale => exact .of_same rfl
  | conflict =>
    exact .of_effects [.write (.appendConsensusWal (.evidenceRecorded vote.height vote.round
      vote.validatorAddress "duplicate vote"))] (by simp) _
  | few => exact hcount
  | reached _ _ _ _ hacted =>
    have hreport : SignsFor block w.disk (World.report e (w.count vote) vote.step vote.blockHash).disk :=
      hcount.trans (.of_effects _ (by simp) _)
    cases hacted with
    | prevotes | precommits => exact hreport
    | polka => exact hreport.trans (.of_effects _ (by simp) _)

/-! ## Recording a vote -/

/-- A vote is not against a block: its author is a member, and if it is not faulty and the vote is of
the round of the block, then the vote is for the block. -/
structure Truthful (E : Electorate Address) (block : Block) (vote : Vote) : Prop where
  member : vote.validatorAddress ∈ E.members
  choice : vote.validatorAddress ∉ E.faulty → vote.height = block.header.height →
    vote.round = block.header.round → vote.blockHash = block.hash

/-- A quorum votes for a block in a phase, as a node counts. -/
def Reached (E : Electorate Address) (block : Block) (w : World) (step : VoteStep) : Prop :=
  E.IsQuorum (w.state.voters step block.hash)

omit [Revm] in
/-- A vote that makes a quorum is acted on. -/
lemma recordVote_reached {staking : StakingSnapshot} (hverify : verifyVote e.scheme vote = .ok ())
    (hnoted : e.noted w.disk.store vote.validatorAddress = .ok staking)
    (hheight : vote.height = w.state.height) (hround : vote.round = w.state.round)
    (hagrees : w.state.conflicts vote = false)
    (hreached : e.quorum ((w.note vote.validatorAddress staking).count vote).disk.store ≤
      ((w.state.count vote).voters vote.step vote.blockHash).card) :
    ∃ out w', e.recordVote vote w = .ok out w' ∧ Acted vote (World.report e
      ((w.note vote.validatorAddress staking).count vote) vote.step vote.blockHash) out w' := by
  obtain ⟨out, w', hrun, hacted⟩ := actOnQuorum_cases vote (World.report e
    ((w.note vote.validatorAddress staking).count vote) vote.step vote.blockHash)
  refine ⟨out, w', ?_, hacted⟩
  set w₁ := w.note vote.validatorAddress staking with hw₁
  have hin : ¬ (vote.height ≠ w₁.state.height ∨ vote.round ≠ w₁.state.round) :=
    not_or.mpr ⟨not_not.mpr hheight, not_not.mpr hround⟩
  have hagrees₁ : ¬ w₁.state.conflicts vote = true := by
    rw [hw₁, World.state_note, hagrees]
    exact Bool.false_ne_true
  rw [recordVote, hverify, ofExcept_ok, bind_ok (pure_run () w),
    bind_ok (noteValidatorLiveness_ok hnoted), bind_ok (get_run _), if_neg hin, if_neg hagrees₁,
    bind_ok (appendWal_run _ _), bind_ok (update_run _ _), bind_ok (get_run _)]
  exact (congrFun (if_neg (not_lt.mpr hreached)) _).trans hrun

omit [Revm] in
/-- A vote of the round that may be counted. -/
lemma Truthful.proper (h : Truthful E block vote) (hverify : verifyVote e.scheme vote = .ok ())
    (hheight : vote.height = block.header.height) (hround : vote.round = block.header.round) :
    e.Proper E block vote :=
  ⟨hverify, hheight, hround, h.member, fun hgood => h.choice hgood hheight hround⟩

omit [Hashing] [Revm] in
lemma voters_subset_count (s : RoundState) (vote : Vote) (step : VoteStep) (blockHash : Hash32) :
    s.voters step blockHash ⊆ (s.count vote).voters step blockHash := by
  rw [RoundState.voters_count]
  split
  · exact Finset.subset_insert _ _
  · exact Finset.Subset.refl _

omit [Revm] in
/-- The author of a counted vote for the block is among its voters. -/
lemma mem_voters_count (s : RoundState) (hhash : vote.blockHash = block.hash) :
    vote.validatorAddress ∈ (s.count vote).voters vote.step block.hash := by
  rw [RoundState.voters_count, if_pos ⟨rfl, hhash.symm⟩]
  exact Finset.mem_insert_self _ _

omit [Revm] in
/-- A counted vote makes no quorum but for its own hash in its own phase. -/
lemma reached_count {step : VoteStep} (h : Reached E block (w.count vote) step)
    (hother : ¬ (step = vote.step ∧ block.hash = vote.blockHash)) : Reached E block w step := by
  replace h : E.IsQuorum ((w.state.count vote).voters step block.hash) := h
  rwa [RoundState.voters_count, if_neg hother] at h

omit [Revm] in
@[simp] lemma voters_lock (w : World) (height round : ℕ) (b : Block) (blockHash : Hash32)
    (step : VoteStep) : (w.lock height round b blockHash).state.voters step = w.state.voters step := by
  cases step <;> rfl

omit [Revm] in
@[simp] lemma voters_accuse (w : World) (item : Evidence) (step : VoteStep) :
    (w.accuse item).state.voters step = w.state.voters step := by
  obtain ⟨processed, evidence, hstate⟩ := w.state.addEvidence_eq item
  have haccused : (w.accuse item).state =
    { w.state with processedEvidence := processed, evidence := evidence } := hstate
  rw [haccused]
  cases step <;> rfl

/-- What is counted in a round. -/
structure CountsIn (e : ConsensusEngine) (E : Electorate Address) (block : Block)
    (chain : List FinalizedBlock) (vote : Vote) (w w' : World) : Prop where
  holding : e.Holding E block chain w'
  voters : ∀ step blockHash, w.state.voters step blockHash ⊆ w'.state.voters step blockHash
  counted : vote.validatorAddress ∉ E.faulty → vote.height = block.header.height →
    vote.round = block.header.round → vote.validatorAddress ∈ w'.state.voters vote.step block.hash

omit [Revm] in
lemma Holding.counts (h : e.Holding E block chain w) (hvote : Truthful E block vote)
    (hverify : verifyVote e.scheme vote = .ok ()) (hheight : vote.height = w.state.height)
    (hround : vote.round = w.state.round) : CountsIn e E block chain vote w (w.count vote) where
  holding := h.count (hvote.proper hverify (hheight.trans h.height) (hround.trans h.round))
  voters := voters_subset_count w.state vote
  counted hgood hheight hround := mem_voters_count w.state (hvote.choice hgood hheight hround)

omit [Revm] in
/-- A vote that is recorded is counted, or it is none of the round, or its author is faulty. -/
lemma Holding.recorded {out : Option Hash32 × Option Hash32} (h : e.Holding E block chain w)
    (hvote : Truthful E block vote) (hverify : verifyVote e.scheme vote = .ok ())
    (hrec : Recorded e vote w out w') : CountsIn e E block chain vote w w' := by
  cases hrec with
  | stale hapart =>
    refine ⟨h, fun _ _ => Finset.Subset.refl _, fun _ hheight hround => ?_⟩
    exact absurd hapart (not_or.mpr
      ⟨not_not.mpr (hheight.trans h.height.symm), not_not.mpr (hround.trans h.round.symm)⟩)
  | conflict hheight hround hconflicts =>
    refine ⟨h.accuse (h.knows hvote.member), fun step blockHash => ?_, fun hgood _ _ => ?_⟩
    · rw [voters_accuse]
    · -- Two votes of an author that is not faulty are both for the block.
      obtain ⟨other, hother, hcompare⟩ := List.any_eq_true.mp hconflicts
      obtain ⟨-, -, -, hauthor, hdiffers⟩ := of_decide_eq_true hcompare
      have hsame := (h.votes other hother).choice (hauthor ▸ hgood)
      exact absurd (hsame.trans (hvote.choice hgood (hheight.trans h.height)
        (hround.trans h.round)).symm) hdiffers
  | few hheight hround => exact h.counts hvote hverify hheight hround
  | reached hheight hround _ _ hacted =>
    have hcounts := h.counts hvote hverify hheight hround
    have hreport := hcounts.holding.report vote.step vote.blockHash
    cases hacted with
    | prevotes | precommits => exact ⟨hreport, hcounts.voters, hcounts.counted⟩
    | polka =>
      refine ⟨hreport.lock _ _ _ _, fun step => ?_, ?_⟩
      · rw [voters_lock]
        exact hcounts.voters step
      · rw [voters_lock]
        exact hcounts.counted

/-- What recording a vote comes to: the node counts on in its round, and gives back the quorums that
there are now and were not there before. -/
structure Heeds (e : ConsensusEngine) (E : Electorate Address) (block : Block)
    (chain : List FinalizedBlock) (vote : Vote) (w : World) (out : Option Hash32 × Option Hash32)
    (w' : World) : Prop extends CountsIn e E block chain vote w w' where
  hasCast : ∀ step, w'.state.hasCast step = w.state.hasCast step
  signs : SignsFor block w.disk w'.disk
  polka : ∀ blockHash ∈ out.1, blockHash = block.hash ∧ Reached E block w' .prevote
  decision : ∀ blockHash ∈ out.2, blockHash = block.hash ∧ Reached E block w' .precommit
  noPolka : out.1 = none → Reached E block w' .prevote → Reached E block w .prevote
  noDecision : out.2 = none → Reached E block w' .precommit → Reached E block w .precommit

omit [Revm] in
lemma Heeds.of_recorded {out : Option Hash32 × Option Hash32} {staking : StakingSnapshot}
    (hnoted : e.noted w.disk.store vote.validatorAddress = .ok staking)
    (hcounts : CountsIn e E block chain vote (w.note vote.validatorAddress staking) w')
    (hrec : Recorded e vote (w.note vote.validatorAddress staking) out w')
    (hpolka : ∀ blockHash ∈ out.1, blockHash = block.hash ∧ Reached E block w' .prevote)
    (hdecision : ∀ blockHash ∈ out.2, blockHash = block.hash ∧ Reached E block w' .precommit)
    (hnoPolka : out.1 = none → Reached E block w' .prevote → Reached E block w .prevote)
    (hnoDecision : out.2 = none → Reached E block w' .precommit → Reached E block w .precommit) :
    Heeds e E block chain vote w out w' :=
  ⟨⟨hcounts.holding, hcounts.voters, hcounts.counted⟩,
    ((stays_note hnoted).trans hrec.stays).hasCast,
    (SignsFor.of_effects _ (by simp) _).trans hrec.signs, hpolka, hdecision, hnoPolka, hnoDecision⟩

omit [Revm] in
/-- A vote that makes a quorum. -/
lemma Holding.record_reached (h : e.Holding E block chain w) (hhash : block.hash ≠ nilHash)
    (hvote : Truthful E block vote) (hverify : verifyVote e.scheme vote = .ok ())
    {staking : StakingSnapshot} (hnoted : e.noted w.disk.store vote.validatorAddress = .ok staking)
    (hheight : vote.height = w.state.height) (hround : vote.round = w.state.round)
    (hagrees : w.state.conflicts vote = false)
    (hreached : e.quorum ((w.note vote.validatorAddress staking).count vote).disk.store ≤
      ((w.state.count vote).voters vote.step vote.blockHash).card) :
    ∃ out w', e.recordVote vote w = .ok out w' ∧ Heeds e E block chain vote w out w' := by
  obtain ⟨out, w', hrun, hacted⟩ :=
    recordVote_reached hverify hnoted hheight hround hagrees hreached
  have hnote := h.note hnoted
  have hquorum := (hnote.counts hvote hverify hheight hround).holding.isQuorum_iff.mpr hreached
  have hblock := (hnote.counts hvote hverify hheight hround).holding.sole hquorum
  have hrec : Recorded e vote (w.note vote.validatorAddress staking) out w' :=
    .reached hheight hround hagrees hreached hacted
  have hcounts := hnote.recorded hvote hverify hrec
  have hother : ∀ step, step ≠ vote.step →
      E.IsQuorum ((w.state.count vote).voters step block.hash) → Reached E block w step :=
    fun step hne hstep => reached_count (w := w) hstep fun hc => hne hc.1
  refine ⟨out, w', hrun, ?_⟩
  cases hacted with
  | prevotes hstep =>
    rw [hstep, hblock] at hquorum
    refine .of_recorded hnoted hcounts hrec (fun _ hsome => ?_)
      (fun _ hc => absurd hc (Option.not_mem_none _)) (fun hc => absurd hc (Option.some_ne_none _))
      fun _ => hother .precommit (by simp [hstep])
    obtain rfl := Option.some.inj hsome
    exact ⟨hblock, hquorum⟩
  | polka hstep =>
    rw [hstep, hblock] at hquorum
    refine .of_recorded hnoted hcounts hrec (fun _ hsome => ?_)
      (fun _ hc => absurd hc (Option.not_mem_none _)) (fun hc => absurd hc (Option.some_ne_none _))
      fun _ => hother .precommit (by simp [hstep])
    obtain rfl := Option.some.inj hsome
    exact ⟨hblock, hquorum⟩
  | precommits hstep =>
    rw [hstep, hblock] at hquorum
    rw [if_pos (hblock ▸ hhash)] at hrec hrun ⊢
    refine .of_recorded hnoted hcounts hrec (fun _ hc => absurd hc (Option.not_mem_none _))
      (fun _ hsome => ?_) (fun _ => hother .prevote (by simp [hstep]))
      (fun hc => absurd hc (Option.some_ne_none _))
    obtain rfl := Option.some.inj hsome
    exact ⟨hblock, hquorum⟩

omit [Revm] in
/-- **One vote.** -/
lemma Holding.record (h : e.Holding E block chain w) (hhash : block.hash ≠ nilHash)
    (hvote : Truthful E block vote) (hverify : verifyVote e.scheme vote = .ok ()) :
    ∃ out w', e.recordVote vote w = .ok out w' ∧ Heeds e E block chain vote w out w' := by
  obtain ⟨staking, hnoted⟩ := exists_noted (h.knows hvote.member)
  have hnote := h.note hnoted
  by_cases hreached : (vote.height = w.state.height ∧ vote.round = w.state.round ∧
      w.state.conflicts vote = false) ∧
      e.quorum ((w.note vote.validatorAddress staking).count vote).disk.store ≤
        ((w.state.count vote).voters vote.step vote.blockHash).card
  · obtain ⟨⟨hheight, hround, hagrees⟩, henough⟩ := hreached
    exact h.record_reached hhash hvote hverify hnoted hheight hround hagrees henough
  obtain ⟨out, w', hrun, hrec⟩ := recordVote_noted hverify hnoted
  have hcounts := hnote.recorded hvote hverify hrec
  have hnone : out = (none, none) ∧ ∀ step, Reached E block w' step → Reached E block w step := by
    cases hrec with
    | stale => exact ⟨rfl, fun _ hstep => hstep⟩
    | conflict =>
      refine ⟨rfl, fun step hstep => ?_⟩
      rwa [Reached, voters_accuse] at hstep
    | few hheight hround hagrees =>
      refine ⟨rfl, fun step hstep => reached_count (w := w) hstep ?_⟩
      rintro ⟨rfl, hsame⟩
      rw [Reached, hsame] at hstep
      exact hreached ⟨⟨hheight, hround, hagrees⟩, hcounts.holding.isQuorum_iff.mp hstep⟩
    | reached hheight hround hagrees henough =>
      exact absurd ⟨⟨hheight, hround, hagrees⟩, henough⟩ hreached
  obtain ⟨rfl, hsame⟩ := hnone
  exact ⟨_, w', hrun, .of_recorded hnoted hcounts hrec
    (fun _ hc => absurd hc (Option.not_mem_none _)) (fun _ hc => absurd hc (Option.not_mem_none _))
    (fun _ => hsame .prevote) fun _ => hsame .precommit⟩

/-! ## The own votes -/

omit [Revm] in
/-- An active validator that can sign casts a vote that verifies, the first one in its phase. -/
lemma castOnce_ok {l : LocalValidator} (hlocal : e.localValidator = some l) (hsign : e.CanSign l)
    (hactive : e.localValidatorActive w.disk.store) {step : VoteStep}
    (hfresh : w.state.hasCast step = false) (choice : RoundState → Hash32) :
    ∃ vote staking, e.castOnce step choice w = .ok (some vote) (w.cast vote staking) ∧
      e.MayCast w vote staking ∧ verifyVote e.scheme vote = .ok () ∧ vote.step = step ∧
      vote.blockHash = choice w.state ∧ vote.validatorAddress = l.validator.address := by
  obtain ⟨staking, hnoted⟩ := exists_noted_of_active hlocal hactive
  obtain ⟨vote, hsigned, hverify⟩ := hsign
    { height := w.state.height, round := w.state.round, step, blockHash := choice w.state
      validatorAddress := l.validator.address
      publicKey := l.validator.publicKey, signature := [] } rfl rfl
  obtain ⟨signature, hvote⟩ := signVote_ok hsigned
  have hauthor : vote.validatorAddress = l.validator.address := by rw [hvote]
  refine ⟨vote, staking, ?_, ⟨hactive, by rw [hvote]; exact hfresh, by rw [hvote], by rw [hvote],
    ⟨l, hlocal, hauthor⟩, hauthor ▸ hnoted⟩, hverify, by rw [hvote], by rw [hvote], hauthor⟩
  have hfresh' : ¬ w.state.hasCast step = true := by
    rw [hfresh]
    exact Bool.false_ne_true
  rw [castOnce, bind_ok (get_run w), hlocal]
  dsimp only
  rw [if_neg (not_not.mpr hactive), if_neg hfresh']
  refine bind_ok ?_
  rw [castVote, bind_ok (get_run w), hsigned]
  -- The author is noted in the store as it was before the signature.
  have hnote : e.noteValidatorLiveness l.validator.address (w.emitAll [.signVote vote]) =
    .ok ⟨⟩ ((w.emitAll [.signVote vote]).note l.validator.address staking) :=
    noteValidatorLiveness_ok hnoted
  refine (bind_ok (emit_run (.signVote vote) w)).trans ((bind_ok hnote).trans ?_)
  rw [hvote]
  rfl

omit [Revm] in
lemma castOnce_again {step : VoteStep} (hcast : w.state.hasCast step) (choice : RoundState → Hash32) :
    e.castOnce step choice w = .ok none w := by
  rw [castOnce, bind_ok (get_run w)]
  rcases e.localValidator with _ | l
  · rfl
  · dsimp only
    split_ifs <;> rfl

/-- The own vote of a node for a block in a phase has been signed, and the node counts it. -/
structure HasVoted (e : ConsensusEngine) (block : Block) (w : World) (step : VoteStep) : Prop where
  signed : ∃ v : Vote, .vote v ∈ w.disk.ballots ∧ verifyVote e.scheme v = .ok () ∧
    v.choice = (block.header.height, block.header.round, step, block.hash) ∧
    e.Speaks v.validatorAddress
  counted : ∀ a, e.Speaks a → a ∈ w.state.voters step block.hash

omit [Revm] in
lemma HasVoted.mono {step : VoteStep} (h : e.HasVoted block w step)
    (hballots : w.disk.ballots ⊆ w'.disk.ballots)
    (hvoters : w.state.voters step block.hash ⊆ w'.state.voters step block.hash) :
    e.HasVoted block w' step :=
  ⟨h.signed.imp fun _ hv => ⟨hballots hv.1, hv.2⟩, fun a ha => hvoters (h.counted a ha)⟩

omit [Revm] in
lemma voters_cast (w : World) (vote : Vote) (staking : StakingSnapshot) (step : VoteStep) :
    (w.cast vote staking).state.voters step = w.state.voters step := by
  obtain ⟨prevoted, precommitted, hmark⟩ := w.state.markCast_eq vote.step
  have hstate : (w.cast vote staking).state =
    { w.state with prevoted := prevoted, precommitted := precommitted } := hmark
  rw [hstate]
  cases step <;> rfl

omit [Revm] in
lemma hasCast_cast (w : World) (vote : Vote) (staking : StakingSnapshot) (step : VoteStep) :
    (w.cast vote staking).state.hasCast step =
      (decide (step = vote.step) || w.state.hasCast step) :=
  w.state.hasCast_markCast vote.step step

/-- An own vote for the block in a phase. -/
structure OwnFor (e : ConsensusEngine) (E : Electorate Address) (block : Block) (step : VoteStep)
    (vote : Vote) : Prop extends e.Proper E block vote where
  step : vote.step = step
  hash : vote.blockHash = block.hash
  own : e.Speaks vote.validatorAddress
  good : vote.validatorAddress ∉ E.faulty

omit [Revm] in
lemma OwnFor.truthful {step : VoteStep} (h : e.OwnFor E block step vote) : Truthful E block vote :=
  ⟨h.member, fun _ _ _ => h.hash⟩

omit [Revm] in
lemma OwnFor.hasVoted {step : VoteStep} (h : e.OwnFor E block step vote)
    (hmem : .vote vote ∈ w.disk.ballots) (hcounts : CountsIn e E block chain vote w' w) :
    e.HasVoted block w step := by
  refine ⟨⟨vote, hmem, h.verified, ?_, h.own⟩, fun a ha => ?_⟩
  · rw [Vote.choice, h.height, h.round, h.step, h.hash]
  · have hsame : vote.validatorAddress = a := Option.some.inj (h.own.symm.trans ha)
    rw [← hsame, ← h.step]
    exact hcounts.counted h.good h.height h.round

omit [Revm] in
/-- A node casts a vote for the block. -/
lemma Holding.castOnce (h : e.Holding E block chain w) (hcan : e.CanCommit E block)
    {step : VoteStep} (hfresh : w.state.hasCast step = false) (choice : RoundState → Hash32)
    (hchoice : choice w.state = block.hash) :
    ∃ vote staking, e.castOnce step choice w = .ok (some vote) (w.cast vote staking) ∧
      e.OwnFor E block step vote ∧ e.Holding E block chain (w.cast vote staking) ∧
      SignsFor block w.disk (w.cast vote staking).disk ∧
      .vote vote ∈ (w.cast vote staking).disk.ballots := by
  obtain ⟨l, hlocal, hmember, hgood, hsign⟩ := hcan.signer
  obtain ⟨vote, staking, hcast, hmay, hverify, hstep, hhash, hauthor⟩ :=
    castOnce_ok hlocal hsign h.active hfresh choice
  have hblock : vote.blockHash = block.hash := hhash.trans hchoice
  have hown : e.OwnFor E block step vote :=
    { verified := hverify, height := hmay.height.trans h.height
      round := hmay.round.trans h.round, member := hauthor ▸ hmember
      choice := fun _ => hblock, step := hstep, hash := hblock
      own := by
        rw [Speaks, hlocal, hauthor]
        rfl
      good := hauthor ▸ hgood }
  refine ⟨vote, staking, hcast, hown, h.cast hmay, ?_, ?_⟩
  · refine .of_effects (World.castEffects vote staking) (fun v hv => ?_) _
    have hv : v = vote := by simpa [World.castEffects] using hv
    exact hv ▸ ⟨hown.height, hown.round, hblock⟩
  · rw [World.cast, Disk.ballots_recordAll]
    exact List.mem_append_right _ List.mem_cons_self

/-! ## Committing the block -/

/-- A finalized block comes with its replay, and its certificate has the votes of a quorum. -/
def Sealed (e : ConsensusEngine) (E : Electorate Address) (f : FinalizedBlock) : Prop :=
  e.Bundles f ∧ ∃ store, e.HasMembers store E.members ∧ Certifies e store f.block f.certificate

omit [Revm] in
lemma Certifies.for {e' : ConsensusEngine} {store store' : Store} {certificate : CommitCertificate}
    (h : Certifies e store block certificate) (hmembers : e.HasMembers store E.members)
    (hscheme : e'.scheme = e.scheme) (hmembers' : e'.HasMembers store' E.members) :
    Certifies e' store' block certificate := by
  refine { h with votes := hscheme ▸ h.votes, quorum := ?_ }
  have hquorum := h.quorum
  rw [ConsensusEngine.quorum, hmembers.2] at hquorum
  rwa [ConsensusEngine.quorum, hmembers'.2]

/-- A node has committed the block after the chain, and has left its height. -/
def Finished (e : ConsensusEngine) (E : Electorate Address) (block : Block)
    (chain : List FinalizedBlock) (w : World) : Prop :=
  w.state.height = block.header.height + 1 ∧
    ∃ f, f.block = block ∧ e.Sealed E f ∧ w.disk.committed = chain ++ [f]

omit [Revm] in
/-- The precommits that a node has recorded make a certificate. -/
lemma Holding.certifies (h : e.Holding E block chain w)
    (hreached : Reached E block w .precommit) :
    Certifies e w.disk.store block (certificateOf w.state block.hash) where
  blockHash := rfl
  height := h.height
  round := h.round
  votes v hv := by
    obtain ⟨hmem, hfor⟩ := List.mem_filter.mp hv
    obtain ⟨hstep, hhash⟩ := of_decide_eq_true hfor
    have hproper := h.votes v hmem
    exact ⟨hproper.verified, hproper.height.trans h.height.symm, hproper.round.trans h.round.symm,
      hstep, hhash⟩
  quorum := by
    refine (h.isQuorum_iff.mp hreached).trans (Finset.card_le_card fun a ha => ?_)
    obtain ⟨v, hv, hstep, hhash, rfl⟩ := h.voters .precommit block.hash a ha
    rw [certificateAuthors, List.mem_toFinset]
    exact List.mem_map_of_mem (List.mem_filter.mpr ⟨hv, decide_eq_true ⟨hstep, hhash⟩⟩)

/-- **A quorum of precommits** makes the node commit the block. -/
lemma Holding.finalize (h : e.Holding E block chain w) (hcan : e.CanCommit E block)
    (hreached : Reached E block w .precommit) :
    ∃ w', e.finalize block.hash w = .ok ⟨⟩ w' ∧ Finished e E block chain w' ∧
      SignsFor block w.disk w'.disk := by
  have hcertifies := h.certifies hreached
  obtain ⟨p, hprepares, -⟩ := hcan.plain.prepares h.fits hcan.receiptRoot
  set certificate := certificateOf w.state block.hash with hcertificate
  let f : FinalizedBlock :=
    { block, certificate, receipts := p.receipts
      epochTransition := p.accounting.epochTransition }
  set d : Disk := w.disk.recordAll (accountingWrites p ++
    [.write (.appendConsensusWal (.commitFinalized certificate.height certificate.round
      certificate.blockHash)), .write (.atomicCommitBlock f p.state)]) with hd
  have hstored : e.executeAndStore block certificate w = .ok f { w with disk := d } :=
    executeAndStore_ok_iff.mpr ⟨p, w.disk, hprepares, rfl, rfl⟩
  have hcommits : Commits e f w.disk d := .intro (f := f) w.disk p _ hprepares (.inl rfl)
  rcases applyPendingEvidence_cases e { w with disk := d } with
    ⟨d₂, hsettles, hevidence⟩ | ⟨err, hfails, -⟩
  swap
  · -- The evidence is against known validators, so that it can be applied.
    obtain ⟨_, happlied⟩ := h.accountable.applies hcommits
    rw [happlied] at hfails
    cases hfails
  obtain ⟨es, hquiet, -, hclose⟩ := closeHeight_run f ⟨d₂, { w.state with evidence := [] }⟩
  refine ⟨{ disk := d₂.recordAll es,
            state := { w.state with evidence := [] }.toHeight (wrappingAdd 64 w.state.height 1) },
    ?_, ⟨?_, f, rfl, ⟨⟨w.disk, p, w.disk, hprepares, rfl, rfl⟩, w.disk.store, h.members,
    hcertifies⟩, ?_⟩, .of_same ?_⟩
  · rw [ConsensusEngine.finalize, bind_ok (get_run w), h.proposal]
    dsimp only
    rw [if_neg (not_not.mpr rfl), ← hcertificate, hcertifies.validate, ofExcept_ok,
      bind_ok (pure_run () w), bind_ok hstored, bind_ok hevidence]
    exact hclose
  · show wrappingAdd 64 w.state.height 1 = _
    rw [h.height]
    exact Nat.mod_eq_of_lt hcan.room
  · rw [d₂.committed_recordAll_of_none fun x hx => Effect.commits_of_isQuiet (hquiet x hx),
      hsettles.committed, hcommits.committed, h.committed]
  · rw [d₂.ballots_recordAll_quiet hquiet, hsettles.ballots, hcommits.ballots]

/-! ## Handling a vote -/

/-- A node in the round has done what its votes call for: it has precommitted if there is a quorum of
prevotes, and there is no quorum of precommits. -/
structure Abreast (e : ConsensusEngine) (E : Electorate Address) (block : Block)
    (chain : List FinalizedBlock) (w : World) : Prop extends e.Holding E block chain w where
  precommitted : w.state.hasCast .precommit → e.HasVoted block w .precommit
  polka : Reached E block w .prevote → w.state.hasCast .precommit
  undecided : ¬ Reached E block w .precommit

/-- What answering a quorum of prevotes comes to. -/
structure Answers (e : ConsensusEngine) (E : Electorate Address) (block : Block)
    (chain : List FinalizedBlock) (w : World) (out : Option Hash32) (w' : World) : Prop where
  holding : e.Holding E block chain w'
  voters : ∀ step blockHash, w.state.voters step blockHash ⊆ w'.state.voters step blockHash
  signs : SignsFor block w.disk w'.disk
  precommitted : w'.state.hasCast .precommit → e.HasVoted block w' .precommit
  polka : Reached E block w' .prevote → w'.state.hasCast .precommit
  decision : ∀ blockHash ∈ out, blockHash = block.hash ∧ Reached E block w' .precommit
  noDecision : out = none → Reached E block w' .precommit → Reached E block w .precommit

omit [Revm] in
lemma Holding.reached_mono (h : e.Holding E block chain w') {step : VoteStep}
    (hvoters : w.state.voters step block.hash ⊆ w'.state.voters step block.hash)
    (hreached : Reached E block w step) : Reached E block w' step :=
  ⟨h.voters_subset step block.hash, hreached.enough.trans (Finset.card_le_card hvoters)⟩

omit [Revm] in
/-- A quorum of prevotes is answered with the own precommit. -/
lemma Holding.answer_some (h : e.Holding E block chain w) (hcan : e.CanCommit E block)
    (hvoted : w.state.hasCast .precommit → e.HasVoted block w .precommit) :
    ∃ out w', e.answerQuorum (some block.hash) w = .ok out w' ∧
      Answers e E block chain w out w' := by
  by_cases hcast : w.state.hasCast .precommit
  · refine ⟨none, w, ?_, h, fun _ _ => Finset.Subset.refl _, .of_same rfl, hvoted, fun _ => hcast,
      fun _ hc => absurd hc (Option.not_mem_none _), fun _ hreached => hreached⟩
    show (e.emitPrecommit block.hash >>= _) w = _
    rw [emitPrecommit, bind_ok (castOnce_again hcast _)]
    rfl
  · obtain ⟨vote, staking, hrun, hown, hholding, hsigns, hmem⟩ :=
      h.castOnce hcan (Bool.eq_false_iff.mpr hcast) (fun _ => block.hash) rfl
    obtain ⟨out, w', hrecord, hheeds⟩ := hholding.record hcan.hash hown.truthful hown.verified
    have hhas : e.HasVoted block w' .precommit :=
      hown.hasVoted (hheeds.signs.subset hmem) hheeds.toCountsIn
    have hcast' : w'.state.hasCast .precommit := by
      rw [hheeds.hasCast, hasCast_cast, hown.step]
      rfl
    refine ⟨out.2, w', ?_, hheeds.holding, fun step blockHash => ?_, hsigns.trans hheeds.signs,
      fun _ => hhas, fun _ => hcast', hheeds.decision, fun hnone hreached => ?_⟩
    · show (e.emitPrecommit block.hash >>= _) w = _
      rw [emitPrecommit, bind_ok hrun]
      exact bind_ok hrecord
    · rw [← voters_cast w vote staking]
      exact hheeds.voters step blockHash
    · have hbefore := hheeds.noDecision hnone hreached
      rwa [Reached, voters_cast] at hbefore

omit [Revm] in
lemma Abreast.answer {out : Option Hash32 × Option Hash32} (h : e.Abreast E block chain w)
    (hcan : e.CanCommit E block) (hheeds : Heeds e E block chain vote w out w') :
    ∃ out' w₂, e.answerQuorum out.1 w' = .ok out' w₂ ∧ Answers e E block chain w' out' w₂ := by
  have hvoted : w'.state.hasCast .precommit → e.HasVoted block w' .precommit := fun hcast =>
    (h.precommitted (hheeds.hasCast .precommit ▸ hcast)).mono hheeds.signs.subset
      (hheeds.voters _ _)
  rcases hpolka : out.1 with _ | blockHash
  · refine ⟨none, w', rfl, hheeds.holding, fun _ _ => Finset.Subset.refl _, .of_same rfl, hvoted,
      fun hreached => ?_, fun _ hc => absurd hc (Option.not_mem_none _), fun _ hreached => hreached⟩
    rw [hheeds.hasCast]
    exact h.polka (hheeds.noPolka hpolka hreached)
  · obtain ⟨rfl, -⟩ := hheeds.polka blockHash hpolka
    exact hheeds.holding.answer_some hcan hvoted

/-- **A vote** that is delivered or cast.  It is counted, and the node is abreast again or has
committed the block. -/
lemma Abreast.drive (h : e.Abreast E block chain w) (hcan : e.CanCommit E block)
    (hvote : Truthful E block vote) (hverify : verifyVote e.scheme vote = .ok ()) :
    SignsFor block w.disk (final (e.handleVoteActions vote w)).disk ∧
    (e.Abreast E block chain (final (e.handleVoteActions vote w)) ∧
        CountsIn e E block chain vote w (final (e.handleVoteActions vote w)) ∨
      Finished e E block chain (final (e.handleVoteActions vote w))) := by
  obtain ⟨out, w₁, hrecord, hheeds⟩ := h.record hcan.hash hvote hverify
  obtain ⟨out', w₂, hanswer, hanswers⟩ := h.answer hcan hheeds
  have hsigns := hheeds.signs.trans hanswers.signs
  have hcounts : CountsIn e E block chain vote w w₂ :=
    ⟨hanswers.holding, fun step blockHash => (hheeds.voters step blockHash).trans
      (hanswers.voters step blockHash), fun hgood hheight hround =>
      hanswers.voters _ _ (hheeds.counted hgood hheight hround)⟩
  rw [handleVoteActions, bind_ok hrecord]
  dsimp only
  rw [bind_ok hanswer]
  rcases hfinal : out.2.or out' with _ | blockHash
  · obtain ⟨hnone, hnone'⟩ := Option.or_eq_none_iff.mp hfinal
    refine ⟨hsigns, .inl ⟨⟨hanswers.holding, hanswers.precommitted, hanswers.polka, ?_⟩, hcounts⟩⟩
    exact fun hreached => h.undecided (hheeds.noDecision hnone (hanswers.noDecision hnone' hreached))
  · have hdecided : blockHash = block.hash ∧ Reached E block w₂ .precommit := by
      rcases Option.or_eq_some_iff.mp hfinal with hsome | ⟨-, hsome⟩
      · obtain ⟨hhash, hreached⟩ := hheeds.decision blockHash hsome
        exact ⟨hhash, hanswers.holding.reached_mono (hanswers.voters _ _) hreached⟩
      · exact hanswers.decision blockHash hsome
    obtain ⟨rfl, hreached⟩ := hdecided
    obtain ⟨w₃, hrun, hfinished, hsigns'⟩ := hanswers.holding.finalize hcan hreached
    dsimp only
    rw [hrun, final_ok]
    exact ⟨hsigns.trans hsigns', .inr hfinished⟩

end

end ConsensusEngine

end ZenoChain
