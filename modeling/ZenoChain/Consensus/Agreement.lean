/-
# Agreement

Honest nodes finalize the same blocks, whatever is delivered to them and when, as long as none of
them precommits blindly.  What a node counts has been said by its authors, and what it commits has
been precommitted by a quorum; so the locks of the honest validators decide.
-/
import ZenoChain.Consensus.Network

namespace ZenoChain

/-! ## What a node counts -/

/-- What a node counts in its round, and all votes that it has recorded, are choices of their
authors. -/
structure Tallied (Makes : Choice → Address → Prop) (w : World) : Prop where
  voters : ∀ step blockHash, ∀ a ∈ w.state.voters step blockHash,
    Makes (w.state.height, w.state.round, step, blockHash) a
  votes : ∀ v ∈ w.state.votes, v.height = w.state.height ∧ v.round = w.state.round ∧
    Makes v.choice v.validatorAddress

namespace Tallied

variable {Makes Makes' : Choice → Address → Prop} {w w' : World}

lemma mono (h : Tallied Makes w) (hle : ∀ choice a, Makes choice a → Makes' choice a) :
    Tallied Makes' w :=
  ⟨fun step blockHash a ha => hle _ _ (h.voters step blockHash a ha),
    fun v hv => (h.votes v hv).imp_right (And.imp_right (hle _ _))⟩

lemma keep (h : Tallied Makes w)
    (hvoters : ∀ step blockHash, w'.state.voters step blockHash = w.state.voters step blockHash)
    (hvotes : w'.state.votes = w.state.votes) (hheight : w'.state.height = w.state.height)
    (hround : w'.state.round = w.state.round) : Tallied Makes w' := by
  refine ⟨fun step blockHash => ?_, ?_⟩
  · rw [hvoters, hheight, hround]
    exact h.voters step blockHash
  · rw [hvotes, hheight, hround]
    exact h.votes

lemma clear (hvoters : ∀ step blockHash, w'.state.voters step blockHash = ∅)
    (hvotes : w'.state.votes = []) : Tallied Makes w' := by
  refine ⟨fun step blockHash a ha => ?_, fun v hv => ?_⟩
  · rw [hvoters] at ha
    cases ha
  · rw [hvotes] at hv
    cases hv

variable [Hashing] {e : ConsensusEngine} {w₀ : World} {event : Event}

lemma count (h : Tallied Makes w) {vote : Vote} (hheight : vote.height = w.state.height)
    (hround : vote.round = w.state.round) (hmakes : Makes vote.choice vote.validatorAddress) :
    Tallied Makes (w.count vote) := by
  refine ⟨fun step blockHash a ha => ?_, fun v hv => ?_⟩
  · show Makes ((w.state.count vote).height, (w.state.count vote).round, step, blockHash) a
    rw [RoundState.height_count, RoundState.round_count]
    replace ha : a ∈ (w.state.count vote).voters step blockHash := ha
    rw [RoundState.voters_count] at ha
    split at ha
    · rename_i hsame
      rcases Finset.mem_insert.mp ha with rfl | hold
      · rw [hsame.1, hsame.2, ← hheight, ← hround]
        exact hmakes
      · exact h.voters step blockHash a hold
    · exact h.voters step blockHash a ha
  · show v.height = (w.state.count vote).height ∧ v.round = (w.state.count vote).round ∧ _
    rw [RoundState.height_count, RoundState.round_count]
    replace hv : v ∈ (w.state.count vote).votes := hv
    rw [RoundState.votes_count] at hv
    rcases List.mem_append.mp hv with hold | hnew
    · exact h.votes v hold
    · obtain rfl := List.mem_singleton.mp hnew
      exact ⟨hheight, hround, hmakes⟩

variable [Revm]

/-- One move counts nothing but what the author of a verified vote has chosen. -/
lemma move (h : Tallied Makes w) (hmove : e.Move w₀ event w w')
    (hmakes : ∀ vote, verifyVote e.scheme vote = .ok () → e.Sourced w₀ event w vote →
      Makes vote.choice vote.validatorAddress) : Tallied Makes w' := by
  cases hmove with
  | quiet | note | report => exact h.keep (fun _ _ => rfl) rfl rfl rfl
  | accept | lock | stall =>
    exact h.keep (fun step _ => by cases step <;> rfl) rfl rfl rfl
  | @accuse item =>
    obtain ⟨processed, evidence, hstate⟩ := w.state.addEvidence_eq item
    have haccused : (w.accuse item).state =
      { w.state with processedEvidence := processed, evidence := evidence } := hstate
    refine h.keep (fun step blockHash => ?_) ?_ ?_ ?_ <;> rw [haccused]
    cases step <;> rfl
  | @cast vote staking =>
    obtain ⟨prevoted, precommitted, hmark⟩ := w.state.markCast_eq vote.step
    have hcast : (w.cast vote staking).state =
      { w.state with prevoted := prevoted, precommitted := precommitted } := hmark
    refine h.keep (fun step blockHash => ?_) ?_ ?_ ?_ <;> rw [hcast]
    cases step <;> rfl
  | count hverified hheight hround _ hsourced =>
    exact h.count hheight hround (hmakes _ hverified hsourced)
  | finalize | adopt => exact clear (RoundState.voters_toHeight _ _) rfl
  | nextRound => exact clear (RoundState.voters_toNextRound _) rfl

end Tallied

/-! ## What a node commits -/

section

variable [Hashing]

lemma Disk.committed_recordAll_of_none (d : Disk) {es : List Effect}
    (h : ∀ x ∈ es, x.commits = none) : (d.recordAll es).committed = d.committed := by
  rw [committed_recordAll, List.filterMap_eq_nil_iff.mpr h, List.append_nil]

lemma Settles.committed {e : ConsensusEngine} {items : List Evidence} {d d' : Disk}
    (h : Settles e items d d') : d'.committed = d.committed := by
  cases h with
  | none => rfl
  | some => exact d.committed_recordAll_of_none (by simp [Effect.commits])

variable [Revm] {e : ConsensusEngine} {w₀ w w' : World} {event : Event}

lemma Commits.committed {f : FinalizedBlock} {d d' : Disk} (h : Commits e f d d') :
    d'.committed = d.committed ++ [f] := by
  obtain ⟨es, rfl, hcommits, -⟩ := h.effects
  rw [Disk.committed_recordAll, hcommits]

/-- A move commits nothing, or a block with a valid certificate, whose votes the node has recorded
or has been given. -/
lemma ConsensusEngine.Move.committed (h : e.Move w₀ event w w') :
    w'.disk.committed = w.disk.committed ∨
    ∃ f, w'.disk.committed = w.disk.committed ++ [f] ∧
      Certifies e w.disk.store f.block f.certificate ∧
      ∀ v ∈ f.certificate.votes, v ∈ w.state.votes ∨ v ∈ event.votes := by
  cases h with
  | quiet hquiet =>
    exact .inl (w.disk.committed_recordAll_of_none fun x hx =>
      Effect.commits_of_isQuiet (hquiet x hx))
  | note | report | lock =>
    exact .inl (w.disk.committed_recordAll_of_none (by simp [Effect.commits]))
  | accuse | count =>
    exact .inl (w.disk.committed_recordAll_of_none (List.forall_mem_singleton.mpr rfl))
  | cast =>
    exact .inl (w.disk.committed_recordAll_of_none (by simp [World.castEffects, Effect.commits]))
  | accept | nextRound => exact .inl rfl
  | @finalize f _ _ _ hcertificate hvalid hcommits hsettles =>
    refine .inr ⟨f, hsettles.committed.trans hcommits.committed,
      validateCommitCertificate_ok hvalid, fun v hv => .inl ?_⟩
    rw [hcertificate] at hv
    exact List.mem_of_mem_filter hv
  | @stall f _ _ _ hcertificate hvalid hcommits =>
    refine .inr ⟨f, hcommits.committed, validateCommitCertificate_ok hvalid, fun v hv => .inl ?_⟩
    rw [hcertificate] at hv
    exact List.mem_of_mem_filter hv
  | @adopt f _ hcause _ hvalid hcommits =>
    refine .inr ⟨f, hcommits.committed, validateCommitCertificate_ok hvalid, fun v hv => .inr ?_⟩
    rw [hcause]
    exact hv

end

/-! ## The order of the own votes -/

/-- The votes do not go back in height and round. -/
def InOrder (ballots : List Ballot) : Prop :=
  ballots.Pairwise fun x y => ∀ pre post, x = .vote pre → y = .vote post →
    pre.height < post.height ∨ (pre.height = post.height ∧ pre.round ≤ post.round)

/-- If a node prevotes against its precommit for a block, the lock that it has taken in between is
among its ballots when it prevotes. -/
lemma KeepsLocks.locked_of_mem {ballots early late : List Ballot} (h : KeepsLocks ballots)
    (hordered : InOrder ballots) (hsplit : ballots = early ++ late) {pre post : Vote}
    (hpre : .vote pre ∈ ballots) (hpost : .vote post ∈ early) (hprecommit : pre.step = .precommit)
    (hne : pre.blockHash ≠ nilHash) (hprevote : post.step = .prevote)
    (hheight : post.height = pre.height) (hround : pre.round < post.round) :
    post.blockHash = nilHash ∨ post.blockHash = pre.blockHash ∨
      ∃ round, pre.round < round ∧ .lock pre.height round post.blockHash ∈ early := by
  obtain ⟨before, after, rfl⟩ := List.append_of_mem hpost
  rw [List.append_assoc, List.cons_append] at hsplit
  subst hsplit
  rcases List.mem_append.mp hpre with hearly | hlate
  · obtain ⟨first, between, rfl⟩ := List.append_of_mem hearly
    have hkept := h first between (after ++ late) pre post (by simp) hprecommit hne hprevote
      hheight hround
    refine hkept.imp_right (Or.imp_right fun ⟨round, hlater, hlock⟩ => ⟨round, hlater, ?_⟩)
    exact List.mem_append_left _ (List.mem_append_right _ (List.mem_cons_of_mem _ hlock))
  · -- The precommit does not come after the prevote of a later round.
    rcases List.mem_cons.mp hlate with hsame | hlater
    · obtain rfl := Ballot.vote.inj hsame
      omega
    · have hpairs := (List.pairwise_append.mp hordered).2.1
      have := (List.pairwise_cons.mp hpairs).1 _ hlater post pre rfl rfl
      omega

/-! ## One honest node -/

namespace ConsensusEngine

variable [Hashing] {e : ConsensusEngine} {w₀ w w' : World} {event : Event}

lemma VoterStep.inOrder (h : VoterStep e w₀ event w w') (hvoting : Voting w)
    (hordered : InOrder w.disk.ballots) : InOrder w'.disk.ballots := by
  cases h with
  | idle hballots | nextHeight hballots | nextRound hballots => exact hballots ▸ hordered
  | cast hmay _ hballots =>
    rw [hballots]
    refine List.pairwise_append.mpr ⟨hordered, List.pairwise_singleton _ _, ?_⟩
    rintro x hx y hy pre post rfl rfl
    obtain rfl := Ballot.vote.inj (List.mem_singleton.mp hy)
    have hpast := hvoting.past pre hx
    rw [hmay.height, hmay.round]
    exact hpast
  | lock _ _ hballots =>
    rw [hballots]
    refine List.pairwise_append.mpr ⟨hordered, List.pairwise_singleton _ _, ?_⟩
    rintro x - y hy pre post - rfl
    cases List.mem_singleton.mp hy

end ConsensusEngine

namespace Network

variable {ι : Type} [DecidableEq ι]

/-- The state of an honest node, given the record of the network. -/
structure Honest [Hashing] (net : Network ι) (record : List (ι × Ballot)) (i : ι) (w : World) :
    Prop where
  locking : ConsensusEngine.Locking w
  ballots : w.disk.ballots = ballotsOf i record
  ordered : InOrder w.disk.ballots
  tallied : Tallied (net.Heard record) w
  committed : ∀ f ∈ w.disk.committed, ∃ round,
    net.Supported record (f.block.header.height, round, .precommit, f.block.hash)

variable [Hashing] {net : Network ι} {record : List (ι × Ballot)} {i : ι} {w₀ w w' : World}
  {event : Event}

/-- What other nodes sign leaves a node as it is. -/
lemma Honest.others (h : net.Honest record i w) {j : ι} (hne : j ≠ i) (new : List Ballot) :
    net.Honest (record ++ new.map (Prod.mk j)) i w where
  locking := h.locking
  ballots := by rw [ballotsOf_append, ballotsOf_map_ne hne, List.append_nil, h.ballots]
  ordered := h.ordered
  tallied := h.tallied.mono fun _ _ ha => ha.mono (List.subset_append_left _ _)
  committed f hf :=
    (h.committed f hf).imp fun _ hround => hround.mono (List.subset_append_left _ _)

omit [Hashing] [DecidableEq ι] in
/-- The voters that a node counts for a hash, if they are enough. -/
lemma supported_of_tallied (h : Tallied (net.Heard record) w) {step : VoteStep}
    {blockHash : Hash32}
    (hmembers : (net.engine i).HasMembers w.disk.store net.electorate.members)
    (hreached : (net.engine i).quorum w.disk.store ≤ (w.state.voters step blockHash).card) :
    net.Supported record (w.state.height, w.state.round, step, blockHash) := by
  refine ⟨w.state.voters step blockHash, ⟨fun a ha => (h.voters step blockHash a ha).1, ?_⟩,
    h.voters step blockHash⟩
  rwa [ConsensusEngine.quorum, hmembers.2] at hreached

omit [DecidableEq ι] in
/-- The authors of a valid certificate. -/
lemma supported_of_certifies (h : Tallied (net.Heard record) w)
    (hgenuine : ∀ v ∈ event.votes, verifyVote (net.engine i).scheme v = .ok () →
      net.Heard record v.choice v.validatorAddress)
    (hmembers : (net.engine i).HasMembers w.disk.store net.electorate.members) {block : Block}
    {certificate : CommitCertificate}
    (hcertifies : ConsensusEngine.Certifies (net.engine i) w.disk.store block certificate)
    (hvotes : ∀ v ∈ certificate.votes, v ∈ w.state.votes ∨ v ∈ event.votes) :
    net.Supported record (block.header.height, certificate.round, .precommit, block.hash) := by
  have hauthors : ∀ a ∈ ConsensusEngine.certificateAuthors certificate,
      net.Heard record (block.header.height, certificate.round, .precommit, block.hash) a := by
    intro a ha
    obtain ⟨v, hv, rfl⟩ := List.mem_map.mp (List.mem_toFinset.mp ha)
    obtain ⟨hverified, hheight, hround, hstep, hhash⟩ := hcertifies.votes v hv
    have hchoice : v.choice = (block.header.height, certificate.round, .precommit, block.hash) := by
      rw [Vote.choice, hheight, hround, hstep, hhash, hcertifies.height, hcertifies.blockHash]
    rw [← hchoice]
    rcases hvotes v hv with hrecorded | hdelivered
    · exact (h.votes v hrecorded).2.2
    · exact hgenuine v hdelivered hverified
  refine ⟨ConsensusEngine.certificateAuthors certificate, ⟨fun a ha => (hauthors a ha).1, ?_⟩, hauthors⟩
  have hquorum := hcertifies.quorum
  rwa [ConsensusEngine.quorum, hmembers.2] at hquorum

/-- A node adds at most one ballot in a move, for which a quorum has prevoted unless it is a
prevote itself. -/
lemma Honest.adds (h : net.Honest record i w)
    (hmembers : (net.engine i).HasMembers w.disk.store net.electorate.members)
    (hstep : ConsensusEngine.VoterStep (net.engine i) w₀ event w w') :
    w'.disk.ballots = w.disk.ballots ∨ ∃ ballot, w'.disk.ballots = w.disk.ballots ++ [ballot] ∧
      net.Precedes record ballot := by
  cases hstep with
  | idle hballots | nextHeight hballots | nextRound hballots => exact .inl hballots
  | @cast vote _ hmay hchooses hballots =>
    refine .inr ⟨_, hballots, fun hprecommit => ?_⟩
    rw [hprecommit] at hchooses
    rw [hmay.height, hmay.round]
    exact supported_of_tallied h.tallied hmembers hchooses.1
  | lock _ hreached hballots =>
    exact .inr ⟨_, hballots, supported_of_tallied h.tallied hmembers hreached⟩

/-- A node counts its own votes for what it has signed. -/
lemma Honest.heard_own (h : net.Honest record i w) {vote : Vote}
    (hown : (net.engine i).OwnVote w vote) : net.Heard record vote.choice vote.validatorAddress := by
  obtain ⟨hsigned, -, l, hl, hauthor⟩ := hown
  have hspeaks : (net.engine i).Speaks vote.validatorAddress := by
    rw [ConsensusEngine.Speaks, hl, hauthor]
    rfl
  have hballot : Ballot.vote vote ∈ w.disk.ballots :=
    List.mem_filterMap.mpr ⟨_, hsigned, rfl⟩
  rw [h.ballots, mem_ballotsOf] at hballot
  refine ⟨net.seated i _ hspeaks, fun j hj => ⟨vote, ?_, rfl⟩⟩
  rwa [net.distinct j i _ hj hspeaks]

variable [Revm]

/-- **One move** of an honest node: it adds its ballots to the record, and stays what it is. -/
lemma Honest.move (h : net.Honest record i w) (hjustified : net.Justified record)
    (hsighted : (net.engine i).Sighted w₀ event)
    (hgenuine : ∀ v ∈ event.votes, verifyVote (net.engine i).scheme v = .ok () →
      net.Heard record v.choice v.validatorAddress)
    (hmembers : (net.engine i).HasMembers w.disk.store net.electorate.members)
    (hmove : (net.engine i).Move w₀ event w w') :
    ∃ new, w'.disk.ballots = w.disk.ballots ++ new ∧
      net.Honest (record ++ new.map (Prod.mk i)) i w' ∧
      net.Justified (record ++ new.map (Prod.mk i)) := by
  have hstep := hmove.voterStep
  obtain ⟨new, hballots, hnew⟩ : ∃ new, w'.disk.ballots = w.disk.ballots ++ new ∧
      net.Justified (record ++ new.map (Prod.mk i)) := by
    rcases h.adds hmembers hstep with hsame | ⟨ballot, hadd, hprecedes⟩
    · exact ⟨[], by rw [hsame, List.append_nil], by rwa [List.map_nil, List.append_nil]⟩
    · exact ⟨[ballot], hadd, hjustified.concat hprecedes⟩
  have hsub : record ⊆ record ++ new.map (Prod.mk i) := List.subset_append_left _ _
  -- What is counted or committed was delivered, or is the node's own.
  have hmakes : ∀ vote, verifyVote (net.engine i).scheme vote = .ok () →
      (net.engine i).Sourced w₀ event w vote → net.Heard record vote.choice vote.validatorAddress := by
    rintro vote hverified (⟨rfl, -⟩ | hown)
    · exact hgenuine vote List.mem_cons_self hverified
    · exact h.heard_own hown
  refine ⟨new, hballots, ?_, hnew⟩
  refine ⟨h.locking.step hsighted.1 hsighted.2 hstep, ?_, hstep.inOrder h.locking.voting h.ordered,
    (h.tallied.move hmove hmakes).mono fun _ _ ha => ha.mono hsub, fun f hf => ?_⟩
  · rw [hballots, ballotsOf_append, ballotsOf_map_self, h.ballots]
  · rcases hmove.committed with hsame | ⟨f', hadd, hcertifies, hvotes⟩
    · rw [hsame] at hf
      exact (h.committed f hf).imp fun _ hround => hround.mono hsub
    · rw [hadd] at hf
      rcases List.mem_append.mp hf with hold | hlast
      · exact (h.committed f hold).imp fun _ hround => hround.mono hsub
      · obtain rfl := List.mem_singleton.mp hlast
        exact ⟨_, (supported_of_certifies h.tallied hgenuine hmembers hcertifies hvotes).mono hsub⟩

/-! ## All honest nodes -/

/-- The state of a network in which all that has been signed is justified. -/
structure Sound (net : Network ι) (s : NetworkState ι) : Prop where
  node : ∀ i, net.Honest s.record i (s.node i)
  justified : net.Justified s.record

omit [Revm] in
lemma sound_boot (net : Network ι) {start : ι → Disk} (hstart : ∀ i, (start i).journal = []) :
    net.Sound (boot start) := by
  refine ⟨fun i => ?_, justified_nil⟩
  have hnone : (World.boot (start i)).disk.ballots = [] := by
    rw [World.boot, Disk.ballots, hstart]
    rfl
  refine ⟨ConsensusEngine.locking_boot (hstart i), hnone, ?_, ?_, fun f hf => ?_⟩
  · show InOrder (World.boot (start i)).disk.ballots
    rw [hnone]
    exact .nil
  · exact ⟨fun step _ a ha => (by cases step <;> cases ha), List.forall_mem_nil _⟩
  · have hblocks : (World.boot (start i)).disk.committed = [] := by
      rw [World.boot, Disk.committed, hstart]
      rfl
    replace hf : f ∈ (World.boot (start i)).disk.committed := hf
    rw [hblocks] at hf
    cases hf

/-- **One delivery** keeps the network sound. -/
lemma Sound.deliver {s : NetworkState ι} {x : ι × Event} (h : net.Sound s)
    (hlegal : net.Legal s x) (hsighted : (net.engine x.1).Sighted (s.node x.1) x.2) :
    net.Sound (net.deliver s x) := by
  obtain ⟨i, event⟩ := x
  -- While the event is handled, the record grows by the ballots of the node.
  obtain ⟨new, hballots, hhonest, hjustified⟩ : ∃ new,
      ((net.engine i).handle (s.node i) event).disk.ballots = (s.node i).disk.ballots ++ new ∧
        net.Honest (s.record ++ new.map (Prod.mk i)) i ((net.engine i).handle (s.node i) event) ∧
        net.Justified (s.record ++ new.map (Prod.mk i)) := by
    refine ConsensusEngine.invariant_of_moves_within (fun w => ∃ new,
      w.disk.ballots = (s.node i).disk.ballots ++ new ∧
        net.Honest (s.record ++ new.map (Prod.mk i)) i w ∧
        net.Justified (s.record ++ new.map (Prod.mk i))) ⟨[], ?_, ?_, ?_⟩ ?_
    · rw [List.append_nil]
    · rw [List.map_nil, List.append_nil]
      exact h.node i
    · rw [List.map_nil, List.append_nil]
      exact h.justified
    · rintro w w' es hfirst hdisk ⟨new, hballots, hhonest, hjustified⟩ hmove
      have hmembers : (net.engine i).HasMembers w.disk.store net.electorate.members :=
        hdisk ▸ hlegal.fixed es ((List.mem_inits _ _).mpr hfirst)
      have hgenuine : ∀ v ∈ event.votes, verifyVote (net.engine i).scheme v = .ok () →
          net.Heard (s.record ++ new.map (Prod.mk i)) v.choice v.validatorAddress :=
        fun v hv hverified =>
          (hlegal.genuine v hv hverified).mono (List.subset_append_left _ _)
      obtain ⟨more, hmore, hhonest', hjustified'⟩ :=
        hhonest.move hjustified hsighted hgenuine hmembers hmove
      rw [List.append_assoc, ← List.map_append] at hhonest' hjustified'
      exact ⟨new ++ more, by rw [hmore, hballots, List.append_assoc], hhonest', hjustified'⟩
  have hnew : ((net.engine i).effectsOf (s.node i) event).filterMap Effect.ballot = new := by
    rw [ConsensusEngine.disk_handle, Disk.ballots_recordAll] at hballots
    exact List.append_cancel_left hballots
  have hdeliver : net.deliver s (i, event) =
      { node := Function.update s.node i ((net.engine i).handle (s.node i) event)
        record := s.record ++ new.map (Prod.mk i) } := by
    rw [Network.deliver, hnew]
  rw [hdeliver]
  refine ⟨fun j => ?_, hjustified⟩
  dsimp only
  rcases eq_or_ne j i with rfl | hne
  · rw [Function.update_self]
    exact hhonest
  · rw [Function.update_of_ne hne]
    exact (h.node j).others hne.symm new

section

variable (net : Network ι) (s : NetworkState ι) (height : ℕ)

/-- By a point of the record, a validator of an honest node has prevoted for a hash in a round of
the height. -/
def Prevoted (a : Address) (round : ℕ) (blockHash : Hash32) (time : ℕ) : Prop :=
  ∃ i, (net.engine i).Speaks a ∧
    ∃ v : Vote, (i, .vote v) ∈ s.record.take time ∧ v.choice = (height, round, .prevote, blockHash)

/-- A validator of an honest node precommits to a hash in a round of the height. -/
def Precommitted (a : Address) (round : ℕ) (blockHash : Hash32) : Prop :=
  ∃ i, (net.engine i).Speaks a ∧
    ∃ v : Vote, (i, .vote v) ∈ s.record ∧ v.choice = (height, round, .precommit, blockHash)

end

variable {s : NetworkState ι} {height round : ℕ} {blockHash : Hash32}

omit [DecidableEq ι] [Hashing] [Revm] in
lemma polka_of_supported {time : ℕ}
    (h : net.Supported (s.record.take time) (height, round, .prevote, blockHash)) :
    net.electorate.Polka (net.Prevoted s height) round blockHash time := by
  obtain ⟨S, hS, hheard⟩ := h
  refine ⟨S, hS, fun a ha hgood => ?_⟩
  obtain ⟨i, hspeaks⟩ := net.covers a (hheard a ha).1 hgood
  exact ⟨i, hspeaks, (hheard a ha).2 i hspeaks⟩

omit [DecidableEq ι] [Hashing] [Revm] in
lemma decided_of_supported
    (h : net.Supported s.record (height, round, .precommit, blockHash)) :
    net.electorate.Decided (net.Precommitted s height) round blockHash := by
  obtain ⟨S, hS, hheard⟩ := h
  refine ⟨S, hS, fun a ha hgood => ?_⟩
  obtain ⟨i, hspeaks⟩ := net.covers a (hheard a ha).1 hgood
  exact ⟨i, hspeaks, (hheard a ha).2 i hspeaks⟩

omit [DecidableEq ι] [Hashing] [Revm] in
/-- What precedes a ballot has been recorded before any time at which the ballot is there. -/
lemma Justified.precedes (h : net.Justified s.record) {i : ι} {ballot : Ballot} {time : ℕ}
    (hmem : (i, ballot) ∈ s.record.take time) :
    ∃ earlier < time, net.Precedes (s.record.take earlier) ballot := by
  obtain ⟨before, after, hsplit⟩ := List.append_of_mem hmem
  have hrecord : s.record = before ++ (i, ballot) :: (after ++ s.record.drop time) := by
    rw [← List.cons_append, ← List.append_assoc, ← hsplit, List.take_append_drop]
  have htake : s.record.take before.length = before := by
    rw [hrecord, List.take_left]
  have hlength : before.length < time := by
    have hle := List.length_take_le time s.record
    rw [hsplit, List.length_append, List.length_cons] at hle
    omega
  exact ⟨before.length, hlength, htake.symm ▸ h before i ballot _ hrecord⟩

omit [Revm] in
/-- **The honest validators of a network keep the locking rule.** -/
lemma Sound.locks (h : net.Sound s) (height : ℕ) :
    net.electorate.Locks (net.Prevoted s height) (net.Precommitted s height) nilHash where
  once := by
    rintro a round b b' ⟨i, hi, v, hv, hchoice⟩ ⟨j, hj, v', hv', hchoice'⟩
    obtain rfl := net.distinct i j a hi hj
    obtain ⟨rfl, rfl, hstep, rfl⟩ : v.height = height ∧ v.round = round ∧ v.step = .precommit ∧
      v.blockHash = b := by simpa [Vote.choice] using hchoice
    obtain ⟨hheight, hround, hstep', rfl⟩ : v'.height = v.height ∧ v'.round = v.round ∧
      v'.step = .precommit ∧ v'.blockHash = b' := by simpa [Vote.choice] using hchoice'
    have honest := h.node i
    refine honest.locking.voting.once v v' ?_ ?_ hheight.symm hround.symm (hstep.trans hstep'.symm)
    · rwa [honest.ballots, mem_ballotsOf]
    · rwa [honest.ballots, mem_ballotsOf]
  backed := by
    rintro a round b ⟨i, -, v, hv, hchoice⟩
    obtain ⟨rfl, rfl, hstep, rfl⟩ : v.height = height ∧ v.round = round ∧ v.step = .precommit ∧
      v.blockHash = b := by simpa [Vote.choice] using hchoice
    rw [← List.take_length (l := s.record)] at hv
    obtain ⟨earlier, -, hprecedes⟩ := h.justified.precedes hv
    exact ⟨earlier, polka_of_supported (hprecedes hstep)⟩
  binds := by
    rintro a round round' b b' time ⟨i, hi, v, hv, hchoice⟩ hb ⟨j, hj, v', hv', hchoice'⟩ hb' hlater
    obtain rfl := net.distinct i j a hi hj
    obtain ⟨rfl, rfl, hstep, rfl⟩ : v.height = height ∧ v.round = round ∧ v.step = .precommit ∧
      v.blockHash = b := by simpa [Vote.choice] using hchoice
    obtain ⟨hheight, rfl, hstep', rfl⟩ : v'.height = v.height ∧ v'.round = round' ∧
      v'.step = .prevote ∧ v'.blockHash = b' := by simpa [Vote.choice] using hchoice'
    have honest := h.node i
    have hsplit : (s.node i).disk.ballots =
        ballotsOf i (s.record.take time) ++ ballotsOf i (s.record.drop time) := by
      rw [honest.ballots, ← ballotsOf_append, List.take_append_drop]
    have hpre : .vote v ∈ (s.node i).disk.ballots := by rwa [honest.ballots, mem_ballotsOf]
    rcases honest.locking.keeps.locked_of_mem honest.ordered hsplit hpre
      (mem_ballotsOf.mpr hv') hstep hb hstep' hheight hlater with hnil | hsame | ⟨r, hr, hlock⟩
    · exact absurd hnil hb'
    · exact .inl hsame
    · obtain ⟨earlier, hearlier, hprecedes⟩ := h.justified.precedes (mem_ballotsOf.mp hlock)
      exact .inr ⟨r, hr, earlier, hearlier, polka_of_supported hprecedes⟩

/-- **Agreement.**  Honest nodes start on any stores.  Whatever is delivered to them, if no event
makes a node precommit blindly, then blocks that two of them commit at one height have the same
hash.  No block has the hash that stands for none. -/
theorem run_agrees (net : Network ι) {start : ι → Disk} (hstart : ∀ i, (start i).journal = [])
    {deliveries : List (ι × Event)}
    (hall : ∀ x ∈ Trace.along net.deliver (boot start) deliveries,
      net.Legal x.1 x.2 ∧ (net.engine x.2.1).Sighted (x.1.node x.2.1) x.2.2)
    {i j : ι} {f g : FinalizedBlock}
    (hf : f ∈ ((deliveries.foldl net.deliver (boot start)).node i).disk.committed)
    (hg : g ∈ ((deliveries.foldl net.deliver (boot start)).node j).disk.committed)
    (hheight : f.block.header.height = g.block.header.height)
    (hnef : f.block.hash ≠ nilHash) (hneg : g.block.hash ≠ nilHash) :
    f.block.hash = g.block.hash := by
  have hstep : ∀ (s : NetworkState ι) (x : ι × Event), net.Sound s →
      net.Legal s x ∧ (net.engine x.1).Sighted (s.node x.1) x.2 → net.Sound (net.deliver s x) :=
    fun _ _ h hx => h.deliver hx.1 hx.2
  have hsound := (Trace.keeps hstep (sound_boot net hstart) hall).2
  obtain ⟨r, hdecided⟩ := (hsound.node i).committed f hf
  obtain ⟨r', hdecided'⟩ := (hsound.node j).committed g hg
  rw [← hheight] at hdecided'
  exact (hsound.locks f.block.header.height).agree (decided_of_supported hdecided)
    (decided_of_supported hdecided') hnef hneg

end Network

/-! ## Four validators, of whom one is faulty -/

section

open Transparent

/-- The addresses of the four validators. -/
def fourMembers : Finset Address := ([[1], [2], [3], [4]].map address).toFinset

/-- The keys of the three nodes. -/
def honestKey : Fin 3 → Bytes
  | 0 => [1]
  | 1 => [2]
  | 2 => [4]

lemma speaks_engineOf {key : Bytes} {a : Address} : (engineOf key).Speaks a ↔ address key = a := by
  simp [ConsensusEngine.Speaks, engineOf, validatorOf]

lemma few_faulty : 3 * (fourMembers ∩ {address [3]}).card < fourMembers.card := by
  have hmembers : fourMembers.card = 4 := by decide +kernel
  have hfaulty : (fourMembers ∩ {address [3]}).card = 1 := by decide +kernel
  omega

/-- The validator with the key `3` is faulty, and the others run honest nodes. -/
def threeHonest : Network (Fin 3) where
  electorate := { members := fourMembers, faulty := {address [3]}, few := few_faulty }
  engine i := engineOf (honestKey i)
  covers := by
    have hkeys : ∀ key ∈ [[1], [2], [3], [4]], address key ≠ address [3] →
        ∃ i, address (honestKey i) = address key := by decide +kernel
    intro a ha hgood
    obtain ⟨key, hkey, rfl⟩ := List.mem_map.mp (List.mem_toFinset.mp ha)
    simp only [speaks_engineOf]
    exact hkeys key hkey fun hc => hgood (Finset.mem_singleton.mpr hc)
  seated := by
    have hmembers : ∀ i, address (honestKey i) ∈ fourMembers := by decide +kernel
    intro i a ha
    exact speaks_engineOf.mp ha ▸ hmembers i
  distinct := by
    have hkeys : ∀ i j, address (honestKey i) = address (honestKey j) → i = j := by decide +kernel
    intro i j a hi hj
    exact hkeys i j ((speaks_engineOf.mp hi).trans (speaks_engineOf.mp hj).symm)

/-- The empty block of the second validator in the first round, with the state root that its
execution yields. -/
def earlyBlock : Block :=
  sealBlock
    { emptyHeader [2] 0 with
      stateRoot := 0xd5b71418d9aa30a1fbb0f320ee3f4dd053ba1da40c292afed2a9dba6c321ba7a } [] [2]

/-- The one of the third validator in the next round. -/
def lateBlock : Block :=
  sealBlock
    { emptyHeader [3] 1 with
      stateRoot := 0x7658484696f249b4e32e5a29331b88a7d21cb2167d391025a0bd5e327b54acad } [] [3]

/-- Votes of some validators, delivered to a node. -/
def hears (i : Fin 3) (keys : List Bytes) (round : ℕ) (step : VoteStep) (block : Block) :
    List (Fin 3 × Event) :=
  keys.map fun key => (i, .vote (castVote key 1 round step block.hash))

/-- The last node hears a quorum of prevotes for the early block and never gets its proposal, but
precommits to it; so the first node commits it.  Then the other two get and commit the late
block. -/
def forkingDeliveries : List (Fin 3 × Event) :=
  [(0, .proposal ⟨1, 0, earlyBlock, address [2]⟩),
   (1, .proposal ⟨1, 0, earlyBlock, address [2]⟩)] ++
  hears 2 [[1], [2], [3]] 0 .prevote earlyBlock ++ hears 0 [[2], [3]] 0 .prevote earlyBlock ++
  hears 0 [[4], [3]] 0 .precommit earlyBlock ++
  [(1, .timeout [] 0), (2, .timeout [] 0),
   (1, .proposal ⟨1, 1, lateBlock, address [3]⟩),
   (2, .proposal ⟨1, 1, lateBlock, address [3]⟩)] ++
  hears 2 [[2], [3]] 1 .prevote lateBlock ++ hears 1 [[4], [3]] 1 .prevote lateBlock ++
  hears 1 [[4], [3]] 1 .precommit lateBlock

/-- **A fork.**  All of these deliveries are legal, and two honest nodes commit different blocks
at one height. -/
theorem forkingDeliveries_fork :
    ¬ ∀ (net : Network (Fin 3)) (start : Fin 3 → Disk) (deliveries : List (Fin 3 × Event)),
      (∀ i, (start i).journal = []) →
      (∀ x ∈ Trace.along net.deliver (Network.boot start) deliveries,
        net.Legal x.1 x.2 ∧ Roomy (x.1.node x.2.1) x.2.2) →
      ∀ (i j : Fin 3) (f g : FinalizedBlock),
        f ∈ ((deliveries.foldl net.deliver (Network.boot start)).node i).disk.committed →
        g ∈ ((deliveries.foldl net.deliver (Network.boot start)).node j).disk.committed →
        f.block.header.height = g.block.header.height →
        f.block.hash ≠ nilHash → g.block.hash ≠ nilHash → f.block.hash = g.block.hash := by
  intro h
  have hrun : (∀ x ∈ Trace.along threeHonest.deliver (Network.boot fun _ => blank) forkingDeliveries,
      threeHonest.Legal x.1 x.2 ∧ Roomy (x.1.node x.2.1) x.2.2) ∧
      ((forkingDeliveries.foldl threeHonest.deliver (Network.boot fun _ => blank)).node
        0).disk.committed.map FinalizedBlock.block = [earlyBlock] ∧
      ((forkingDeliveries.foldl threeHonest.deliver (Network.boot fun _ => blank)).node
        1).disk.committed.map FinalizedBlock.block = [lateBlock] := by decide +kernel
  obtain ⟨hall, hearly, hlate⟩ := hrun
  obtain ⟨f, hf, hfirst⟩ := List.map_eq_singleton_iff.mp hearly
  obtain ⟨g, hg, hsecond⟩ := List.map_eq_singleton_iff.mp hlate
  have hhashes : earlyBlock.hash ≠ nilHash ∧ lateBlock.hash ≠ nilHash ∧
      earlyBlock.hash ≠ lateBlock.hash := by decide +kernel
  have hsame := h threeHonest (fun _ => blank) forkingDeliveries (fun _ => rfl) hall 0 1 f g
    (hf ▸ List.mem_singleton_self f) (hg ▸ List.mem_singleton_self g)
    (by rw [hfirst, hsecond]; rfl) (by rw [hfirst]; exact hhashes.1)
    (by rw [hsecond]; exact hhashes.2.1)
  rw [hfirst, hsecond] at hsame
  exact hhashes.2.2 hsame

/-- Two nodes get the early block before its votes. -/
def agreeingDeliveries : List (Fin 3 × Event) :=
  [(0, .proposal ⟨1, 0, earlyBlock, address [2]⟩),
   (1, .proposal ⟨1, 0, earlyBlock, address [2]⟩)] ++
  hears 0 [[2], [3]] 0 .prevote earlyBlock ++ hears 1 [[1], [3]] 0 .prevote earlyBlock ++
  hears 0 [[2], [3]] 0 .precommit earlyBlock ++ hears 1 [[1], [3]] 0 .precommit earlyBlock

/-- Both nodes commit a block, and it is the same. -/
theorem agreeingDeliveries_agree :
    ∃ f ∈ ((agreeingDeliveries.foldl threeHonest.deliver (Network.boot fun _ => blank)).node
        0).disk.committed,
      ∃ g ∈ ((agreeingDeliveries.foldl threeHonest.deliver (Network.boot fun _ => blank)).node
        1).disk.committed, f.block.hash = g.block.hash := by
  have hrun : (∀ x ∈ Trace.along threeHonest.deliver (Network.boot fun _ => blank) agreeingDeliveries,
      threeHonest.Legal x.1 x.2 ∧ (threeHonest.engine x.2.1).Sighted (x.1.node x.2.1) x.2.2) ∧
      ((agreeingDeliveries.foldl threeHonest.deliver (Network.boot fun _ => blank)).node
        0).disk.committed.map FinalizedBlock.block = [earlyBlock] ∧
      ((agreeingDeliveries.foldl threeHonest.deliver (Network.boot fun _ => blank)).node
        1).disk.committed.map FinalizedBlock.block = [earlyBlock] := by decide +kernel
  obtain ⟨hall, hzero, hone⟩ := hrun
  obtain ⟨f, hf, hfirst⟩ := List.map_eq_singleton_iff.mp hzero
  obtain ⟨g, hg, hsecond⟩ := List.map_eq_singleton_iff.mp hone
  have hfmem := hf ▸ List.mem_singleton_self f
  have hgmem := hg ▸ List.mem_singleton_self g
  have hhash : earlyBlock.hash ≠ nilHash := by decide +kernel
  refine ⟨f, hfmem, g, hgmem, ?_⟩
  exact Network.run_agrees threeHonest (fun _ => rfl) hall hfmem hgmem (by rw [hfirst, hsecond])
    (by rw [hfirst]; exact hhash) (by rw [hsecond]; exact hhash)

end

end ZenoChain
