/-
# The messages of a round at one node

Which events open the round of a block at a node, and what the messages of the round do then: until
the node has committed the block it counts all that it is told, and afterwards it leaves its height
alone.
-/
import ZenoChain.Node.RoundSteps

namespace ZenoChain

open Word Handler ExecutionEngine

/-- A message about a height or an earlier one. -/
def Event.UpTo (height : ℕ) : Event → Prop
  | .proposal p => p.height ≤ height
  | .vote v => v.height ≤ height
  | .commit f => f.certificate.height ≤ height
  | .start .. | .timeout .. => False

instance (height : ℕ) : DecidablePred (Event.UpTo height)
  | .proposal p => inferInstanceAs (Decidable (p.height ≤ height))
  | .vote v => inferInstanceAs (Decidable (v.height ≤ height))
  | .commit f => inferInstanceAs (Decidable (f.certificate.height ≤ height))
  | .start .. => isFalse id
  | .timeout .. => isFalse id

namespace ConsensusEngine

variable [Hashing] [Revm] {e : ConsensusEngine} {E : Electorate Address} {block : Block}
  {chain : List FinalizedBlock} {told : List Event} {w w' : World}

/-! ## After the commit -/

/-- A node that has committed the block signs and commits no more at its height. -/
lemma Finished.handle (h : Finished e E block chain w) {event : Event}
    (htimely : event.UpTo block.header.height) :
    Finished e E block chain (e.handle w event) ∧
      SignsFor block w.disk (e.handle w event).disk := by
  have hsame : ∀ {w' : World}, w'.state = w.state → w'.disk.committed = w.disk.committed →
      w'.disk.ballots = w.disk.ballots →
      Finished e E block chain w' ∧ SignsFor block w.disk w'.disk := by
    intro w' hstate hcommitted hballots
    refine ⟨?_, .of_same hballots⟩
    rw [Finished, hstate, hcommitted]
    exact h
  have hpast : ∀ n, n ≤ block.header.height → n < w.state.height := fun n hn => by
    rw [h.1]
    omega
  cases event with
  | start | timeout => cases htimely
  | proposal p =>
    have hstale : p.height ≠ w.state.height ∨ p.round ≠ w.state.round := .inl (hpast _ htimely).ne
    have hrun : final (e.onProposal p w) = w := by
      rw [onProposal, bind_ok (get_run w)]
      rcases e.validateProposal w.disk.store p with err | ⟨⟩
      · rfl
      · rw [ofExcept_ok, bind_ok (pure_run () w), if_pos hstale]
        rfl
    exact hsame (congrArg World.state hrun) (congrArg (fun w => w.disk.committed) hrun)
      (congrArg (fun w => w.disk.ballots) hrun)
  | vote v =>
    show Finished e E block chain (final (e.handleVoteActions v w)) ∧
      SignsFor block w.disk (final (e.handleVoteActions v w)).disk
    rw [handleVoteActions]
    rcases recordVote_cases e v w with ⟨err, hrun⟩ | ⟨staking, out, w', -, hnoted, hrun, hrec⟩
    · rw [bind_error hrun]
      exact hsame rfl rfl rfl
    · have hne : v.height ≠ w.state.height := (hpast _ htimely).ne
      cases hrec with
      | stale =>
        rw [bind_ok hrun]
        refine hsame rfl ?_ ?_
        · exact w.disk.committed_recordAll_of_none (by simp [Effect.commits])
        · exact w.disk.ballots_recordAll_of_none (by simp [Effect.ballot])
      | conflict hheight | few hheight | reached hheight => exact absurd hheight hne
  | commit f =>
    have hrun : final (e.importExternalFinalizedBlock f w) = w := by
      rw [importExternalFinalizedBlock, bind_ok (get_run w), if_pos (hpast _ htimely)]
      rfl
    exact hsame (congrArg World.state hrun) (congrArg (fun w => w.disk.committed) hrun)
      (congrArg (fun w => w.disk.ballots) hrun)

/-! ## Before the commit -/

/-- A node waits in the round: it has prevoted, has counted every vote that it has been told by a
validator that is not faulty, and none of the finalized blocks that it has been told is the block. -/
structure Waits (e : ConsensusEngine) (E : Electorate Address) (block : Block)
    (chain : List FinalizedBlock) (told : List Event) (w : World) : Prop
    extends e.Abreast E block chain w where
  prevoted : e.HasVoted block w .prevote
  counted : ∀ v, .vote v ∈ told → verifyVote e.scheme v = .ok () →
    v.validatorAddress ∉ E.faulty → v.height = block.header.height → v.round = block.header.round →
    v.validatorAddress ∈ w.state.voters v.step block.hash
  refused : ∀ f, .commit f ∈ told → f.block = block → ¬ e.Sealed E f

namespace Waits

/-- A node that changes neither its counts nor its flags waits on. -/
lemma keep (h : Waits e E block chain told w) (hholding : e.Holding E block chain w')
    (hcast : ∀ step, w'.state.hasCast step = w.state.hasCast step)
    (hvoters : ∀ step, w'.state.voters step = w.state.voters step)
    (hballots : w.disk.ballots ⊆ w'.disk.ballots) : Waits e E block chain told w' where
  toHolding := hholding
  precommitted hc := (h.precommitted (hcast .precommit ▸ hc)).mono hballots
    (hvoters .precommit ▸ Finset.Subset.refl _)
  polka hreached := by
    rw [Reached, hvoters] at hreached
    exact hcast .precommit ▸ h.polka hreached
  undecided hreached := by
    rw [Reached, hvoters] at hreached
    exact h.undecided hreached
  prevoted := h.prevoted.mono hballots (hvoters .prevote ▸ Finset.Subset.refl _)
  counted v := by
    rw [hvoters]
    exact h.counted v
  refused := h.refused

lemma tell (h : Waits e E block chain told w) {event : Event}
    (hcounted : ∀ v, event = .vote v → verifyVote e.scheme v = .ok () →
      v.validatorAddress ∉ E.faulty → v.height = block.header.height →
      v.round = block.header.round → v.validatorAddress ∈ w.state.voters v.step block.hash)
    (hrefused : ∀ f, event = .commit f → f.block = block → ¬ e.Sealed E f) :
    Waits e E block chain (told ++ [event]) w where
  toAbreast := h.toAbreast
  prevoted := h.prevoted
  counted v hv := (List.mem_append.mp hv).elim (h.counted v) fun hnew =>
    hcounted v (List.mem_singleton.mp hnew).symm
  refused f hf := (List.mem_append.mp hf).elim (h.refused f) fun hnew =>
    hrefused f (List.mem_singleton.mp hnew).symm

/-- What the delivery of an event leads to. -/
def Goes (e : ConsensusEngine) (E : Electorate Address) (block : Block)
    (chain : List FinalizedBlock) (told : List Event) (w w' : World) : Prop :=
  SignsFor block w.disk w'.disk ∧
    (Waits e E block chain told w' ∨ Finished e E block chain w')

lemma goes_vote (h : Waits e E block chain told w) (hcan : e.CanCommit E block) {v : Vote}
    (hvote : verifyVote e.scheme v = .ok () → Truthful E block v) :
    Goes e E block chain (told ++ [.vote v]) w (e.handle w (.vote v)) := by
  show Goes e E block chain (told ++ [.vote v]) w (final (e.handleVoteActions v w))
  rcases hverify : verifyVote e.scheme v with err | ⟨⟩
  · have hrun : final (e.handleVoteActions v w) = w := by
      rw [handleVoteActions, recordVote, hverify]
      rfl
    rw [hrun]
    refine ⟨.of_same rfl, .inl (h.tell (fun v' hv' hverify' => ?_) fun f hf => by cases hf)⟩
    cases hv'
    rw [hverify] at hverify'
    cases hverify'
  · obtain ⟨hsigns, ⟨habreast, hcounts⟩ | hfinished⟩ := h.drive hcan (hvote hverify) hverify
    · refine ⟨hsigns, .inl (tell ⟨habreast, h.prevoted.mono hsigns.subset
        (hcounts.voters _ _), fun v' hv' hverify' hgood hheight hround => hcounts.voters _ _
          (h.counted v' hv' hverify' hgood hheight hround), h.refused⟩ (fun v' hv' _ => ?_)
        fun f hf => by cases hf)⟩
      cases hv'
      exact hcounts.counted
    · exact ⟨hsigns, .inr hfinished⟩

lemma goes_proposal (h : Waits e E block chain told w) (p : Proposal) :
    Goes e E block chain (told ++ [.proposal p]) w (e.handle w (.proposal p)) := by
  have hidle : Goes e E block chain (told ++ [.proposal p]) w w :=
    ⟨.of_same rfl, .inl (h.tell (fun v hv => by cases hv) fun f hf => by cases hf)⟩
  show Goes e E block chain (told ++ [.proposal p]) w (final (e.onProposal p w))
  rw [onProposal, bind_ok (get_run w)]
  rcases hvalid : e.validateProposal w.disk.store p with err | ⟨⟩
  · exact hidle
  rw [ofExcept_ok, bind_ok (pure_run () w)]
  by_cases happart : p.height ≠ w.state.height ∨ p.round ≠ w.state.round
  · rw [if_pos happart]
    exact hidle
  rw [if_neg happart, h.toHolding.proposal]
  dsimp only
  by_cases hdiffers : block.hash ≠ p.block.hash
  swap
  · rw [if_neg hdiffers]
    exact hidle
  rw [if_pos hdiffers, recordConflictingProposal, bind_ok (get_run w)]
  by_cases hknown : (p.validatorAddress, p.height, p.round) ∈ w.state.processedEvidence
  · rw [if_pos hknown]
    exact hidle
  rw [if_neg hknown]
  -- The proposer of the round is one of the known validators.
  obtain ⟨expected, hproposer, haccepts⟩ := validateProposal_ok hvalid
  have hknows : e.Knows w.disk.store (proposalEvidence p).validatorAddress := by
    rw [proposalEvidence, haccepts.validator]
    exact knows_of_proposerFor hproposer
  have hsigns : SignsFor block w.disk (w.accuse (proposalEvidence p)).disk :=
    .of_effects [.write (.appendConsensusWal (.evidenceRecorded p.height p.round
      p.validatorAddress "conflicting proposal"))] (by simp) _
  have hwaits : Waits e E block chain told (w.accuse (proposalEvidence p)) :=
    h.keep (h.accuse hknows) (stays_accuse e w _).hasCast (voters_accuse w _) hsigns.subset
  exact ⟨hsigns, .inl (hwaits.tell (fun v hv => by cases hv) fun f hf => by cases hf)⟩

end Waits

/-- An import signs nothing. -/
lemma ballots_import (f : FinalizedBlock) (w : World) :
    (e.handle w (.commit f)).disk.ballots = w.disk.ballots := by
  show (final (e.importExternalFinalizedBlock f w)).disk.ballots = w.disk.ballots
  rcases import_cases e f w with
    ⟨es, hquiet, hrun⟩ | ⟨es, d, es', hquiet, hquiet', -, -, hcommits, hrun⟩
  · rw [hrun]
    exact w.disk.ballots_recordAll_quiet hquiet
  · rw [hrun]
    show (d.recordAll es').ballots = _
    rw [d.ballots_recordAll_quiet hquiet', hcommits.ballots]
    exact w.disk.ballots_recordAll_quiet hquiet

/-- A finalized block that does not come with its replay is not imported. -/
lemma import_unbundled {f : FinalizedBlock} (hnot : ¬ e.Bundles f) (w : World) :
    ∃ es, e.handle w (.commit f) = w.emitAll es ∧
      ∀ x ∈ es, Effect.isQuiet x ∧ Effect.sparesLedger x := by
  show ∃ es, final (e.importExternalFinalizedBlock f w) = w.emitAll es ∧ _
  rw [importExternalFinalizedBlock, bind_ok (get_run w)]
  by_cases hpast : f.certificate.height < w.state.height
  · rw [if_pos hpast]
    exact ⟨[], rfl, List.forall_mem_nil _⟩
  rw [if_neg hpast]
  rcases e.validateCommitCertificate w.disk.store f.block f.certificate with err | ⟨⟩
  · exact ⟨[], rfl, List.forall_mem_nil _⟩
  rw [ofExcept_ok, bind_ok (pure_run () w), bind_ok (appendWal_run _ w)]
  set record : Effect := .write (.appendConsensusWal (.commitFinalized f.certificate.height
    f.certificate.round f.certificate.blockHash)) with hrecord
  rcases hrun : e.execution.validateAndCommitFinalizedBlock e.scheme f (w.emitAll [record]).disk with
    ⟨⟨⟩, d⟩ | ⟨err, d⟩
  · obtain ⟨p, d₁, hprepares, hreceipts, htransition, -⟩ := validateAndCommit_ok_iff.mp hrun
    exact absurd ⟨_, p, d₁, hprepares, hreceipts.symm, htransition.symm⟩ hnot
  · obtain ⟨es, hevm, hd⟩ := onlyEvmWrites_of_error hrun
    subst hd
    rw [bind_error (onDisk_error hrun)]
    refine ⟨record :: es, rfl, List.forall_mem_cons.mpr ⟨⟨rfl, rfl⟩, fun x hx => ?_⟩⟩
    obtain ⟨a, account⟩ := hevm x hx
    exact ⟨rfl, rfl⟩

namespace Waits

lemma goes_commit (h : Waits e E block chain told w) (hcan : e.CanCommit E block)
    {f : FinalizedBlock} (htimely : f.certificate.height ≤ block.header.height)
    (hsole : Certifies e w.disk.store f.block f.certificate →
      f.block.header.height = block.header.height → f.block = block) :
    Goes e E block chain (told ++ [.commit f]) w (e.handle w (.commit f)) := by
  have hsigns : SignsFor block w.disk (e.handle w (.commit f)).disk :=
    .of_same (ballots_import f w)
  have hidle : ¬ (f.block = block ∧ e.Sealed E f) →
      ∀ {es : List Effect}, e.handle w (.commit f) = w.emitAll es →
      (∀ x ∈ es, Effect.isQuiet x ∧ Effect.sparesLedger x) →
      Goes e E block chain (told ++ [.commit f]) w (e.handle w (.commit f)) := by
    intro hnot es hrun hes
    refine ⟨hsigns, .inl ?_⟩
    rw [hrun] at hsigns ⊢
    have hstaking := (recordAll_quiet (fun x hx => (hes x hx).1) w.disk).1
    have hholding : e.Holding E block chain (w.emitAll es) :=
      h.toHolding.keep (standing_congr hstaking) ⟨es, rfl, fun x hx => (hes x hx).2⟩ rfl rfl rfl
        (fun _ => .inl) rfl fun _ _ => rfl
    refine (h.keep hholding (fun _ => rfl) (fun _ => rfl) hsigns.subset).tell
      (fun v hv => by cases hv) fun f' hf' hblock hsealed => ?_
    cases hf'
    exact hnot ⟨hblock, hsealed⟩
  by_cases hbundle : e.Bundles f
  swap
  · obtain ⟨es, hrun, hes⟩ := import_unbundled hbundle w
    exact hidle (fun hc => hbundle hc.2.1) hrun hes
  by_cases hpast : f.certificate.height < w.state.height
  · have hrun : e.handle w (.commit f) = w.emitAll [] := by
      show final (e.importExternalFinalizedBlock f w) = w
      rw [importExternalFinalizedBlock, bind_ok (get_run w), if_pos hpast]
      rfl
    refine hidle (fun hc => ?_) hrun (List.forall_mem_nil _)
    obtain ⟨rfl, -, store, -, hcertifies⟩ := hc
    rw [hcertifies.height, h.height] at hpast
    exact lt_irrefl _ hpast
  rcases hvalid : e.validateCommitCertificate w.disk.store f.block f.certificate with err | ⟨⟩
  · have hrun : e.handle w (.commit f) = w.emitAll [] := by
      show final (e.importExternalFinalizedBlock f w) = w
      rw [importExternalFinalizedBlock, bind_ok (get_run w), if_neg hpast, hvalid]
      rfl
    refine hidle (fun hc => ?_) hrun (List.forall_mem_nil _)
    obtain ⟨-, -, store, hmembers, hcertifies⟩ := hc
    rw [(hcertifies.for hmembers rfl h.members).validate] at hvalid
    cases hvalid
  · have hcertifies := validateCommitCertificate_ok hvalid
    have hheight : f.block.header.height = block.header.height := by
      rw [← hcertifies.height]
      exact le_antisymm htimely (h.height ▸ not_lt.mp hpast)
    obtain rfl := hsole hcertifies hheight
    obtain ⟨hcommitted, hstate, -⟩ := imports hcan.validators hcan.plain h.fits hbundle hcertifies
      (h.height ▸ le_refl _)
    refine ⟨hsigns, .inr ⟨?_, f, rfl, ⟨hbundle, w.disk.store, h.members, hcertifies⟩, ?_⟩⟩
    · rw [hstate]
      exact Nat.mod_eq_of_lt hcan.room
    · rw [hcommitted, h.committed]

/-- **A message** to a waiting node. -/
lemma goes (h : Waits e E block chain told w) (hcan : e.CanCommit E block) {event : Event}
    (htimely : event.UpTo block.header.height)
    (hvote : ∀ v, event = .vote v → verifyVote e.scheme v = .ok () → Truthful E block v)
    (hcommit : ∀ f, event = .commit f → Certifies e w.disk.store f.block f.certificate →
      f.block.header.height = block.header.height → f.block = block) :
    Goes e E block chain (told ++ [event]) w (e.handle w event) := by
  cases event with
  | start | timeout => cases htimely
  | proposal p => exact h.goes_proposal p
  | vote v => exact h.goes_vote hcan (hvote v rfl)
  | commit f => exact h.goes_commit hcan htimely (hcommit f rfl)

end Waits

/-! ## The opening -/

/-- A node has taken the block as its proposal and goes on to its prevote: it has no vote of the
round yet, and its locks let it vote for the block. -/
structure Starts (e : ConsensusEngine) (E : Electorate Address) (block : Block)
    (chain : List FinalizedBlock) (w : World) : Prop extends e.Holding E block chain w where
  empty : ∀ step blockHash, w.state.voters step blockHash = ∅
  fresh : ∀ step, w.state.hasCast step = false
  choice : w.state.prevoteChoice = block.hash

lemma Starts.goes (h : Starts e E block chain w) (hcan : e.CanCommit E block) :
    Waits.Goes e E block chain [] w (final (e.prevoteAndDrive w)) := by
  obtain ⟨vote, staking, hrun, hown, hholding, hsigns, hmem⟩ :=
    h.castOnce hcan (h.fresh .prevote) RoundState.prevoteChoice h.choice
  have hnobody : ∀ step, ¬ Reached E block (w.cast vote staking) step := by
    intro step hreached
    have henough := hreached.enough
    rw [voters_cast, h.empty, Finset.card_empty] at henough
    omega
  have hfresh : (w.cast vote staking).state.hasCast .precommit = false := by
    rw [hasCast_cast, hown.step, h.fresh]
    rfl
  have habreast : e.Abreast E block chain (w.cast vote staking) :=
    ⟨hholding, fun hcast => absurd (hfresh.symm.trans hcast) Bool.false_ne_true,
      fun hreached => absurd hreached (hnobody _), hnobody _⟩
  have hdrive : final (e.prevoteAndDrive w) =
      final (e.handleVoteActions vote (w.cast vote staking)) := by
    rw [prevoteAndDrive, emitPrevote, bind_ok hrun]
  rw [hdrive]
  obtain ⟨hsigns', ⟨habreast', hcounts⟩ | hfinished⟩ :=
    habreast.drive hcan hown.truthful hown.verified
  · refine ⟨hsigns.trans hsigns', .inl ⟨habreast', hown.hasVoted (hsigns'.subset hmem) hcounts, ?_, ?_⟩⟩
    · exact fun _ hv => absurd hv List.not_mem_nil
    · exact fun _ hf => absurd hf List.not_mem_nil
  · exact ⟨hsigns.trans hsigns', .inr hfinished⟩

/-- The event makes the node take the block as its proposal, and its handler goes on to the
prevote. -/
def Opens (e : ConsensusEngine) (E : Electorate Address) (block : Block) (w : World)
    (event : Event) : Prop :=
  ∃ w₁, Starts e E block w.disk.committed w₁ ∧ SignsFor block w.disk w₁.disk ∧
    e.handle w event = final (e.prevoteAndDrive w₁)

lemma Opens.goes {event : Event} (h : Opens e E block w event) (hcan : e.CanCommit E block) :
    Waits.Goes e E block w.disk.committed [] w (e.handle w event) := by
  obtain ⟨w₁, hstarts, hsigns, hrun⟩ := h
  obtain ⟨hsigns', hgoes⟩ := hstarts.goes hcan
  rw [← hrun] at hsigns' hgoes
  exact ⟨hsigns.trans hsigns', hgoes⟩

/-- A node is at the beginning of the round of a block: it has no proposal and no vote of the round,
its locks let it vote for the block, and the block extends its ledger. -/
structure Poised (e : ConsensusEngine) (E : Electorate Address) (block : Block) (w : World) :
    Prop where
  height : w.state.height = block.header.height
  round : w.state.round = block.header.round
  vacant : w.state.proposal = none
  votes : w.state.votes = []
  empty : ∀ step blockHash, w.state.voters step blockHash = ∅
  fresh : ∀ step, w.state.hasCast step = false
  choice : { w.state with proposal := some block }.prevoteChoice = block.hash
  members : e.HasMembers w.disk.store E.members
  active : e.localValidatorActive w.disk.store
  fits : w.disk.store.ledger.Extends e.execution e.scheme block
  accountable : e.Accountable w

omit [Revm] in
/-- The world of a poised node that has taken the block as its proposal. -/
lemma Poised.starts (h : Poised e E block w) (hspares : w.disk.Spares w'.disk)
    (hstanding : e.standing w'.disk.store = e.standing w.disk.store)
    (hstate : w'.state = { w.state with proposal := some block }) :
    Starts e E block w.disk.committed w' where
  height := by rw [hstate]; exact h.height
  round := by rw [hstate]; exact h.round
  proposal := by rw [hstate]
  members := by
    rw [HasMembers, activeValidators_congr hstanding]
    exact h.members
  active := by
    rw [localValidatorActive_congr hstanding]
    exact h.active
  fits := hspares.ledger ▸ h.fits
  committed := hspares.committed
  accountable item hitem := by
    rw [hstate] at hitem
    exact (h.accountable item hitem).of_standing hstanding
  votes v hv := by
    rw [hstate] at hv
    exact absurd (h.votes ▸ hv) List.not_mem_nil
  voters step blockHash a ha := by
    rw [hstate] at ha
    have hnone : a ∈ w.state.voters step blockHash := by cases step <;> exact ha
    rw [h.empty] at hnone
    exact absurd hnone (Finset.notMem_empty a)
  empty step blockHash := by
    rw [hstate, ← h.empty step blockHash]
    cases step <;> rfl
  fresh step := by
    rw [hstate, ← h.fresh step]
    cases step <;> rfl
  choice := by rw [hstate]; exact h.choice

/-- What a node does before it has a proposal leaves the round, the ledger, the standing of the
validators and the own votes as they are. -/
structure Readies (e : ConsensusEngine) (w w' : World) : Prop where
  state : w'.state = w.state
  spares : w.disk.Spares w'.disk
  standing : e.standing w'.disk.store = e.standing w.disk.store
  ballots : w'.disk.ballots = w.disk.ballots

instance : Std.Refl e.Readies := ⟨fun _ => ⟨rfl, .refl _, rfl, rfl⟩⟩

instance : IsTrans World e.Readies := ⟨fun _ _ _ h h' => ⟨h'.state.trans h.state,
  h.spares.trans h'.spares, h'.standing.trans h.standing, h'.ballots.trans h.ballots⟩⟩

omit [Revm] in
lemma readies_emitAll {es : List Effect} (h : ∀ x ∈ es, Effect.isQuiet x ∧ Effect.sparesLedger x)
    (w : World) : e.Readies w (w.emitAll es) :=
  ⟨rfl, ⟨es, rfl, fun x hx => (h x hx).2⟩,
    standing_congr (recordAll_quiet (fun x hx => (h x hx).1) w.disk).1,
    w.disk.ballots_recordAll_quiet fun x hx => (h x hx).1⟩

omit [Revm] in
lemma keeps_emit {x : Effect} (hquiet : x.isQuiet) (hspares : x.sparesLedger) :
    Keeps e.Readies (emit x) := fun w =>
  readies_emitAll (List.forall_mem_singleton.mpr ⟨hquiet, hspares⟩) w

/-- Building a block. -/
lemma keeps_buildBlock (l : LocalValidator) (proposer : Address) (pending : List Transaction)
    (timestampMs : ℕ) : Keeps e.Readies (e.buildBlock l proposer pending timestampMs) := by
  refine .bind .get fun w => .bind (fun v => ?_) fun out => .bind .get fun v => ?_
  · rw [onDisk, final_zoom]
    obtain ⟨es, hevm, hd⟩ := ExecutionEngine.keeps_dryRunTransactions e.execution e.scheme
      w.state.height (pending.take e.params.maxTransactionsPerBlock) proposer v.disk
    rw [hd]
    refine readies_emitAll (fun x hx => ?_) v
    obtain ⟨a, account⟩ := hevm x hx
    exact ⟨rfl, rfl⟩
  · dsimp only
    split
    · exact .throw _
    · refine .bind (keeps_emit rfl rfl) fun _ => ?_
      split
      · exact .pure _
      · exact .pure _

omit [Revm] in
lemma readies_note {a : Address} {staking : StakingSnapshot}
    (h : e.noted w.disk.store a = .ok staking) : e.Readies w (w.note a staking) :=
  ⟨rfl, ⟨_, rfl, by simp [Effect.sparesLedger, Effect.sparesAccounts, Effect.sparesBlocks]⟩,
    standing_put_noted h rfl, w.disk.ballots_recordAll_of_none (by simp [Effect.ballot])⟩

omit [Revm] in
/-- The own block becomes the proposal of the round. -/
lemma announceBlock_ok {l : LocalValidator} (hlocal : e.localValidator = some l)
    (hactive : e.localValidatorActive w.disk.store) (proposer : Address) (block : Block) :
    ∃ w', e.announceBlock l proposer block w = .ok ⟨⟩ (w'.accept block) ∧ e.Readies w w' := by
  obtain ⟨staking, hnoted⟩ := exists_noted_of_active hlocal hactive
  refine ⟨(w.note l.validator.address staking).emitAll [.write (.appendConsensusWal
      (.proposalAccepted w.state.height w.state.round block.hash)), .write (.appendConsensusWal
      (.proposalBroadcast w.state.height w.state.round block.hash)),
      .broadcast (.proposal ⟨w.state.height, w.state.round, block, proposer⟩)], ?_,
    IsTrans.trans _ _ _ (readies_note hnoted) (readies_emitAll (by simp [Effect.isQuiet,
      Effect.sparesLedger, Effect.sparesAccounts, Effect.sparesBlocks]) _)⟩
  rw [announceBlock, bind_ok (noteValidatorLiveness_ok hnoted), bind_ok (get_run _)]
  rfl

omit [Revm] in
/-- A poised node that has taken the block as its proposal. -/
lemma Poised.accepts (h : Poised e E block w) (hreadies : e.Readies w w') :
    Starts e E block w.disk.committed (w'.accept block) ∧
      SignsFor block w.disk (w'.accept block).disk := by
  refine ⟨h.starts hreadies.spares hreadies.standing ?_, .of_same hreadies.ballots⟩
  rw [World.accept, hreadies.state]

/-- A poised node is sent the proposal. -/
lemma opens_proposal (h : Poised e E block w) {p : Proposal} (hblock : p.block = block)
    (hvalid : e.validateProposal w.disk.store p = .ok ()) : Opens e E block w (.proposal p) := by
  subst hblock
  obtain ⟨_, -, haccepts⟩ := validateProposal_ok hvalid
  have hin : ¬ (p.height ≠ w.state.height ∨ p.round ≠ w.state.round) :=
    not_or.mpr ⟨not_not.mpr (haccepts.height.symm.trans h.height.symm),
      not_not.mpr (haccepts.round.symm.trans h.round.symm)⟩
  set entry : Effect := .write (.appendConsensusWal
    (.proposalAccepted p.height p.round p.block.hash)) with hentry
  have hreadies : e.Readies w (w.emitAll [entry]) :=
    readies_emitAll (List.forall_mem_singleton.mpr ⟨rfl, rfl⟩) w
  obtain ⟨hstarts, hsigns⟩ := h.accepts hreadies
  refine ⟨(w.emitAll [entry]).accept p.block, hstarts, hsigns, ?_⟩
  show final (e.onProposal p w) = _
  rw [onProposal, bind_ok (get_run w), hvalid, ofExcept_ok, bind_ok (pure_run () w), if_neg hin,
    h.vacant]
  dsimp only
  rw [bind_ok (appendWal_run _ w), bind_ok (update_run _ _)]
  rfl

/-- A poised node starts as the proposer of the round and builds the block. -/
lemma opens_start (h : Poised e E block w) {l : LocalValidator} (hlocal : e.localValidator = some l)
    {proposer : Validator}
    (hproposer : e.proposerFor w.disk.store w.state.height w.state.round = .ok proposer)
    (hown : proposer.address = l.validator.address)
    {protection : SlashingProtection}
    (hprotect : protect w.disk.store l.validator.address w.state.height = some protection)
    {pending : List Transaction} {timestampMs : ℕ} {w₂ : World}
    (hbuild : e.buildBlock l proposer.address pending timestampMs (w.emitAll
      [.write (.putConsensusSnapshot ⟨w.state.height, w.state.round⟩),
       .write (.appendConsensusWal (.snapshotPersisted w.state.height w.state.round)),
       .write (.putSlashingProtection l.validator.address protection)]) = .ok (some block) w₂) :
    Opens e E block w (.start pending timestampMs) := by
  set w₁ := w.emitAll
    [.write (.putConsensusSnapshot ⟨w.state.height, w.state.round⟩),
     .write (.appendConsensusWal (.snapshotPersisted w.state.height w.state.round))] with hw₁
  have hpersist : persistSnapshot w = .ok ⟨⟩ w₁ := rfl
  have hfirst : e.Readies w w₁ := readies_emitAll (by simp [Effect.isQuiet, Effect.sparesLedger,
    Effect.sparesAccounts, Effect.sparesBlocks]) w
  set w₁' := w₁.emitAll [.write (.putSlashingProtection l.validator.address protection)] with hw₁'
  have hsecond : e.Readies w w₁' := IsTrans.trans _ _ _ hfirst
    (readies_emitAll (List.forall_mem_singleton.mpr ⟨rfl, rfl⟩) w₁)
  have hbuild₁ : e.buildBlock l proposer.address pending timestampMs w₁' = .ok (some block) w₂ :=
    hbuild
  have hbuilt : e.Readies w w₂ := by
    have hkeeps := keeps_buildBlock (e := e) l proposer.address pending timestampMs w₁'
    rw [hbuild₁] at hkeeps
    exact IsTrans.trans _ _ _ hsecond hkeeps
  have hactive : ∀ {v : World}, e.Readies w v → e.localValidatorActive v.disk.store := fun hv => by
    rw [localValidatorActive_congr hv.standing]
    exact h.active
  obtain ⟨w₃, hannounce, hannounced⟩ :=
    announceBlock_ok hlocal (hactive hbuilt) proposer.address block
  obtain ⟨hstarts, hsigns⟩ := h.accepts (IsTrans.trans _ _ _ hbuilt hannounced)
  refine ⟨w₃.accept block, hstarts, hsigns, ?_⟩
  have hproposer₁ : e.proposerFor w₁.disk.store w₁.state.height w₁.state.round = .ok proposer := by
    rw [← hproposer, proposerFor, proposerFor, activeValidators_congr hfirst.standing]
    rfl
  have hprotect₁ : protect w₁.disk.store l.validator.address w₁.state.height = some protection :=
    hprotect
  have hvacant : ¬ w₁.state.proposal.isSome := by
    rw [hfirst.state, h.vacant]
    exact Bool.false_ne_true
  show final (e.onStart pending timestampMs w) = _
  rw [onStart, bind_ok hpersist, maybePropose, bind_ok (get_run w₁), hlocal]
  dsimp only
  rw [if_neg (not_not.mpr (hactive hfirst)), hproposer₁, ofExcept_ok, bind_ok (pure_run _ _),
    if_neg (not_not.mpr hown), if_neg hvacant, hprotect₁]
  dsimp only
  rw [bind_ok (emit_run _ w₁), bind_ok hbuild₁]
  dsimp only
  rw [bind_ok hannounce]

end ConsensusEngine

end ZenoChain
