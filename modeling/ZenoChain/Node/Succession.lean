/-
# What blocks build on

A block that an engine takes as its proposal, signs or locks on follows the last block that it has
committed: it names the hash of that block, and its height is the next one.
-/
import ZenoChain.Consensus.Headers
import ZenoChain.Node.RoundSteps

namespace ZenoChain

open Word Handler

/-! ## The end of a chain -/

/-- The height that comes after a chain. -/
def heightAfter (chain : List FinalizedBlock) : ℕ :=
  (chain.getLast?.map fun f => f.block.header.height + 1).getD 1

/-- The hash that a block after a chain has to name. -/
def tipOf [Hashing] (chain : List FinalizedBlock) : Hash32 :=
  (chain.getLast?.map fun f => f.block.hash).getD 0

/-- A header continues a chain. -/
structure Continues [Hashing] (chain : List FinalizedBlock) (header : BlockHeader) : Prop where
  height : header.height = heightAfter chain
  parent : header.parentHash = tipOf chain

section

variable {chain front : List FinalizedBlock} {f : FinalizedBlock}

@[simp] lemma heightAfter_nil : heightAfter [] = 1 := rfl

@[simp] lemma heightAfter_concat : heightAfter (chain ++ [f]) = f.block.header.height + 1 := by
  rw [heightAfter, List.getLast?_concat]
  rfl

lemma heightAfter_pos (chain : List FinalizedBlock) : 0 < heightAfter chain := by
  rcases List.eq_nil_or_concat chain with rfl | ⟨front, f, rfl⟩
  · exact Nat.one_pos
  · rw [List.concat_eq_append, heightAfter_concat]
    exact Nat.succ_pos _

/-- In a chain that rises, no shorter chain has the same height after it. -/
lemma eq_of_heightAfter_eq (hrise : RisingChain chain)
    (hpositive : ∀ f ∈ chain, 0 < f.block.header.height) (hfront : front <+: chain)
    (h : heightAfter front = heightAfter chain) : front = chain := by
  obtain ⟨rest, rfl⟩ := hfront
  rcases List.eq_nil_or_concat rest with rfl | ⟨between, f, rfl⟩
  · exact (List.append_nil front).symm
  · rw [List.concat_eq_append, ← List.append_assoc] at h hrise hpositive
    rw [heightAfter_concat] at h
    rcases List.eq_nil_or_concat front with rfl | ⟨first, g, rfl⟩
    · have hpos := hpositive f (List.mem_append_right _ (List.mem_singleton_self f))
      rw [heightAfter_nil] at h
      omega
    · have hlt := hrise.lt_of_concat g (by simp)
      rw [List.concat_eq_append, heightAfter_concat] at h
      omega

variable [Hashing]

@[simp] lemma tipOf_nil : tipOf [] = 0 := rfl

@[simp] lemma tipOf_concat : tipOf (chain ++ [f]) = f.block.hash := by
  rw [tipOf, List.getLast?_concat]
  rfl

/-- A header that continues the front of a chain and has the height after all of it continues the
chain. -/
lemma Continues.of_height {header : BlockHeader} (h : Continues front header)
    (hrise : RisingChain chain) (hpositive : ∀ f ∈ chain, 0 < f.block.header.height)
    (hfront : front <+: chain) (hheight : header.height = heightAfter chain) :
    Continues chain header :=
  eq_of_heightAfter_eq hrise hpositive hfront (h.height.symm.trans hheight) ▸ h

/-- The latest block of a store that holds the end of the chain. -/
lemma Disk.KeepsRecent.latestHash {d : Disk} (h : d.KeepsRecent) :
    d.store.latestHash = tipOf d.committed := by
  obtain ⟨bound, hend, -⟩ := h
  rw [Store.latestHash, hend.latest]
  rfl

end

namespace ConsensusEngine

variable [Hashing] [Revm] {e : ConsensusEngine} {w w' w₀ : World} {event : Event}

/-! ## The height of the engine -/

omit [Hashing] [Revm] in
/-- The engine is at the height after the committed blocks. -/
structure AtTip (w : World) : Prop where
  height : w.state.height = heightAfter w.disk.committed
  positive : ∀ f ∈ w.disk.committed, 0 < f.block.header.height

/-- A move commits nothing and stays at its height, or it commits a block of this height or a later
one and goes to the height after it. -/
lemma Move.climbs (h : e.Move w₀ event w w') (haccountable : e.Accountable w)
    (hroom : Roomy w₀ event) :
    (w'.disk.committed = w.disk.committed ∧ w'.state.height = w.state.height) ∨
    ∃ f, w'.disk.committed = w.disk.committed ++ [f] ∧
      w.state.height ≤ f.block.header.height ∧
      w'.state.height = f.block.header.height + 1 := by
  have hnone : ∀ {es : List Effect}, (∀ x ∈ es, Effect.commits x = none) →
      (w.disk.recordAll es).committed = w.disk.committed := w.disk.committed_recordAll_of_none
  cases h with
  | quiet hquiet =>
    exact .inl ⟨hnone fun x hx => Effect.commits_of_isQuiet (hquiet x hx), rfl⟩
  | note | report | lock => exact .inl ⟨hnone (by simp [Effect.commits]), rfl⟩
  | @accuse item =>
    refine .inl ⟨hnone (List.forall_mem_singleton.mpr rfl), ?_⟩
    obtain ⟨_, _, heq⟩ := w.state.addEvidence_eq item
    show (w.state.addEvidence item).height = w.state.height
    rw [heq]
  | @count vote =>
    exact .inl ⟨hnone (List.forall_mem_singleton.mpr rfl), w.state.height_count vote⟩
  | @cast vote =>
    refine .inl ⟨hnone (by simp [World.castEffects, Effect.commits]), ?_⟩
    obtain ⟨_, _, hmark⟩ := w.state.markCast_eq vote.step
    show (w.state.markCast vote.step).height = w.state.height
    rw [hmark]
  | accept | nextRound => exact .inl ⟨rfl, rfl⟩
  | @finalize f _ _ _ hcertificate hvalid hcommits hsettles hbound =>
    have hheight : f.block.header.height = w.state.height := by
      rw [← (validateCommitCertificate_ok hvalid).height, hcertificate]
      rfl
    have hlast := hroom.height
    refine .inr ⟨f, hsettles.committed.trans hcommits.committed, hheight.ge, ?_⟩
    show wrappingAdd 64 w.state.height 1 = f.block.header.height + 1
    rw [hheight]
    exact Nat.mod_eq_of_lt (by omega)
  | stall _ _ _ hcommits hfails =>
    obtain ⟨staking, hok⟩ := haccountable.applies hcommits
    rw [hok] at hfails
    cases hfails
  | @adopt f _ hcause hahead hvalid hcommits =>
    refine .inr ⟨f, hcommits.committed, hahead, ?_⟩
    exact Nat.mod_eq_of_lt (hroom.commit f (by rw [hcause]; rfl))

lemma AtTip.move (h : AtTip w) (hmove : e.Move w₀ event w w') (haccountable : e.Accountable w)
    (hroom : Roomy w₀ event) : AtTip w' := by
  rcases hmove.climbs haccountable hroom with ⟨hcommitted, hheight⟩ | ⟨f, hcommitted, hle, hheight⟩
  · refine ⟨?_, ?_⟩
    · rw [hheight, hcommitted]
      exact h.height
    · rw [hcommitted]
      exact h.positive
  · rw [h.height] at hle
    have hpos := heightAfter_pos w.disk.committed
    refine ⟨?_, ?_⟩
    · rw [hheight, hcommitted, heightAfter_concat]
    · rw [hcommitted]
      exact List.forall_mem_append.mpr
        ⟨h.positive, List.forall_mem_singleton.mpr (hpos.trans_le hle)⟩

/-- A move only adds blocks. -/
lemma Move.committed_grows (h : e.Move w₀ event w w') :
    w.disk.committed <+: w'.disk.committed := by
  rcases h.committed with hsame | ⟨f, hadd, -⟩
  · rw [hsame]
  · rw [hadd]
    exact List.prefix_append _ _

end ConsensusEngine

/-! ## What a process has locked on -/

/-- The block on which an effect logs a lock. -/
def Effect.lockedBlock : Effect → Option Block
  | .write (.appendConsensusWal (.locked _ _ _ block)) => some block
  | _ => none

/-- The blocks on which a process has logged a lock, oldest first. -/
def Disk.lockedBlocks (d : Disk) : List Block := d.journal.filterMap Effect.lockedBlock

lemma Effect.lockedBlock_of_ballot {x : Effect} (h : x.ballot = none) : x.lockedBlock = none := by
  unfold lockedBlock
  split
  · cases h
  · rfl

section

variable [Hashing] (d : Disk) {es : List Effect}

lemma Disk.lockedBlocks_recordAll (es : List Effect) :
    (d.recordAll es).lockedBlocks = d.lockedBlocks ++ es.filterMap Effect.lockedBlock := by
  rw [lockedBlocks, journal_recordAll, List.filterMap_append]
  rfl

/-- Without a ballot there is no new lock. -/
lemma Disk.lockedBlocks_recordAll_of_none (h : ∀ x ∈ es, Effect.ballot x = none) :
    (d.recordAll es).lockedBlocks = d.lockedBlocks := by
  rw [lockedBlocks_recordAll,
    List.filterMap_eq_nil_iff.mpr fun x hx => Effect.lockedBlock_of_ballot (h x hx),
    List.append_nil]

variable [Revm] {d} {d' : Disk} {e : ConsensusEngine} {f : FinalizedBlock}

lemma Commits.lockedBlocks (h : Commits e f d d') : d'.lockedBlocks = d.lockedBlocks := by
  obtain ⟨es, rfl, -, hes⟩ := h.effects
  refine d.lockedBlocks_recordAll_of_none fun x hx => ?_
  rcases hes x hx with hquiet | haccounting | ⟨state, rfl⟩
  · exact Effect.ballot_of_isQuiet hquiet
  · exact Effect.ballot_of_isAccounting haccounting
  · rfl

omit [Revm] in
lemma Settles.lockedBlocks {items : List Evidence} (h : Settles e items d d') :
    d'.lockedBlocks = d.lockedBlocks := by
  cases h with
  | none => rfl
  | some => exact d.lockedBlocks_recordAll_of_none (by simp [Effect.ballot])

end

namespace ConsensusEngine

variable [Hashing] [Revm] {e : ConsensusEngine} {w w' w₀ : World} {event : Event}

omit [Revm] in
/-- The proposal continues the committed blocks, every lock was taken on a block that continued them
then, and the node precommits to blocks on which it has locked. -/
structure Anchored (w : World) : Prop where
  proposal : ∀ block ∈ w.state.proposal, Continues w.disk.committed block.header
  locks : ∀ block ∈ w.disk.lockedBlocks, ∃ front, front <+: w.disk.committed ∧
    Continues front block.header
  held : ∀ block ∈ w.state.lockedBlock, block ∈ w.disk.lockedBlocks
  precommits : ∀ vote, .vote vote ∈ w.disk.ballots → vote.step = .precommit →
    vote.blockHash ≠ nilHash → ∃ block ∈ w.disk.lockedBlocks, block.hash = vote.blockHash

omit [Revm] in
/-- What neither votes nor locks. -/
lemma Anchored.keep (h : Anchored w) (hcommitted : w.disk.committed <+: w'.disk.committed)
    (hlocked : w'.disk.lockedBlocks = w.disk.lockedBlocks)
    (hballots : w'.disk.ballots = w.disk.ballots)
    (hproposal : ∀ block ∈ w'.state.proposal, Continues w'.disk.committed block.header)
    (hheld : ∀ block ∈ w'.state.lockedBlock, block ∈ w.state.lockedBlock) : Anchored w' where
  proposal := hproposal
  locks block hblock := by
    rw [hlocked] at hblock
    obtain ⟨front, hfront, hcontinues⟩ := h.locks block hblock
    exact ⟨front, hfront.trans hcommitted, hcontinues⟩
  held block hblock := by
    rw [hlocked]
    exact h.held block (hheld block hblock)
  precommits vote hvote := by
    rw [hballots] at hvote
    rw [hlocked]
    exact h.precommits vote hvote

/-- **One move**, if a block that becomes the proposal continues the committed ones. -/
lemma Anchored.move (h : Anchored w) (hmove : e.Move w₀ event w w')
    (hsighted : ∀ vote ∈ event.vote?, ¬ e.BlindPrecommit w₀ vote)
    (haccountable : e.Accountable w)
    (hproposed : ∀ block : Block, block.header.height = w.state.height →
      e.Proposed event w block → Continues w.disk.committed block.header) : Anchored w' := by
  have hgrows := hmove.committed_grows
  have hspares : ∀ {es : List Effect}, (∀ x ∈ es, Effect.ballot x = none ∧ Effect.commits x = none) →
      ∀ s : RoundState, s.proposal = w.state.proposal → s.lockedBlock = w.state.lockedBlock →
        Anchored { disk := w.disk.recordAll es, state := s } := by
    intro es hes s hproposal hlocked
    have hcommitted : (w.disk.recordAll es).committed = w.disk.committed :=
      w.disk.committed_recordAll_of_none fun x hx => (hes x hx).2
    refine h.keep (hcommitted ▸ List.prefix_rfl)
      (w.disk.lockedBlocks_recordAll_of_none fun x hx => (hes x hx).1)
      (w.disk.ballots_recordAll_of_none fun x hx => (hes x hx).1) ?_ (fun block hb => hlocked ▸ hb)
    rw [hproposal, hcommitted]
    exact h.proposal
  cases hmove with
  | quiet hquiet =>
    exact hspares (fun x hx => ⟨Effect.ballot_of_isQuiet (hquiet x hx),
      Effect.commits_of_isQuiet (hquiet x hx)⟩) _ rfl rfl
  | note | report =>
    exact hspares (by simp [Effect.ballot, Effect.commits]) _ rfl rfl
  | accept _ hheight _ hproposal =>
    refine h.keep List.prefix_rfl rfl rfl (fun block hb => ?_) fun block hb => hb
    obtain rfl := Option.some.inj hb
    exact hproposed _ hheight hproposal
  | @accuse item =>
    obtain ⟨_, _, heq⟩ := w.state.addEvidence_eq item
    show Anchored { disk := w.disk.recordAll [.write (.appendConsensusWal (.evidenceRecorded
      item.height item.round item.validatorAddress item.reason))], state := w.state.addEvidence item }
    refine hspares (List.forall_mem_singleton.mpr ⟨rfl, rfl⟩) _ ?_ ?_ <;> rw [heq]
  | @count vote =>
    obtain ⟨_, _, heq⟩ := w.state.count_eq vote
    show Anchored { disk := w.disk.recordAll [.write (.appendConsensusWal (.voteRecorded vote.height
      vote.round vote.step vote.blockHash vote.validatorAddress))], state := w.state.count vote }
    refine hspares (List.forall_mem_singleton.mpr ⟨rfl, rfl⟩) _ ?_ ?_ <;> rw [heq]
  | @cast vote staking hmay hchooses =>
    obtain ⟨_, _, heq⟩ := w.state.markCast_eq vote.step
    have hcommitted : (w.cast vote staking).disk.committed = w.disk.committed :=
      w.disk.committed_recordAll_of_none (by simp [World.castEffects, Effect.commits])
    have hlocked : (w.cast vote staking).disk.lockedBlocks = w.disk.lockedBlocks :=
      (w.disk.lockedBlocks_recordAll _).trans (List.append_nil _)
    have hballots : (w.cast vote staking).disk.ballots = w.disk.ballots ++ [.vote vote] :=
      w.disk.ballots_recordAll _
    have hproposal : (w.cast vote staking).state.proposal = w.state.proposal := by
      rw [World.cast, heq]
    have hheld : (w.cast vote staking).state.lockedBlock = w.state.lockedBlock := by
      rw [World.cast, heq]
    refine ⟨?_, ?_, ?_, fun vote' hvote hstep hne => ?_⟩
    · rw [hproposal, hcommitted]
      exact h.proposal
    · rw [hlocked, hcommitted]
      exact h.locks
    · rw [hheld, hlocked]
      exact h.held
    · rw [hlocked]
      rw [hballots, List.mem_append, List.mem_singleton] at hvote
      rcases hvote with hold | hnew
      · exact h.precommits vote' hold hstep hne
      · -- The precommit is the new vote, and it is not a blind one.
        obtain rfl := Ballot.vote.inj hnew
        rw [hstep] at hchooses
        rcases hchooses.2 with hnil | ⟨block, -, hhash, hlocks⟩ | ⟨vote, hevent, -, hblind⟩
        · exact absurd hnil hne
        · have hlock : w.state.lockedBlock = some block :=
            (Prod.mk.inj (Prod.mk.inj hlocks).1).2
          exact ⟨block, h.held block hlock, hhash⟩
        · exact absurd hblind (hsighted vote (hevent ▸ rfl))
  | @lock block hheld hreached =>
    have hcommitted : (w.lock w.state.height w.state.round block block.hash).disk.committed =
        w.disk.committed := w.disk.committed_recordAll_of_none (by simp [Effect.commits])
    have hlocked : (w.lock w.state.height w.state.round block block.hash).disk.lockedBlocks =
        w.disk.lockedBlocks ++ [block] := w.disk.lockedBlocks_recordAll _
    have hballots : (w.lock w.state.height w.state.round block block.hash).disk.ballots =
        w.disk.ballots ++ [.lock w.state.height w.state.round block.hash] :=
      w.disk.ballots_recordAll _
    refine ⟨?_, fun block' hblock => ?_, fun block' hblock => ?_, fun vote hvote hstep hne => ?_⟩
    · rw [hcommitted]
      exact h.proposal
    · rw [hcommitted]
      rw [hlocked, List.mem_append, List.mem_singleton] at hblock
      rcases hblock with hold | rfl
      · exact h.locks block' hold
      · exact ⟨_, List.prefix_rfl, h.proposal block' hheld⟩
    · obtain rfl := Option.some.inj hblock
      rw [hlocked]
      exact List.mem_append_right _ (List.mem_singleton_self _)
    · rw [hballots, List.mem_append, List.mem_singleton] at hvote
      rcases hvote with hold | hnew
      · obtain ⟨block', hblock, hhash⟩ := h.precommits vote hold hstep hne
        exact ⟨block', hlocked ▸ List.mem_append_left _ hblock, hhash⟩
      · cases hnew
  | finalize _ _ _ hcommits hsettles =>
    exact h.keep hgrows (hsettles.lockedBlocks.trans hcommits.lockedBlocks)
      (hsettles.ballots.trans hcommits.ballots) (fun block hb => by cases hb)
      fun block hb => by cases hb
  | stall _ _ _ hcommits hfails =>
    obtain ⟨staking, hok⟩ := haccountable.applies hcommits
    rw [hok] at hfails
    cases hfails
  | adopt _ _ _ hcommits =>
    exact h.keep hgrows hcommits.lockedBlocks hcommits.ballots (fun block hb => by cases hb)
      fun block hb => by cases hb
  | nextRound =>
    refine h.keep List.prefix_rfl rfl rfl (fun block hb => ?_) fun block hb => hb
    cases hb

end ConsensusEngine

/-! ## What a process signs -/

/-- A header is signed for the block after the committed ones. -/
def Effect.SignsNext [Hashing] (before : List Effect) (x : Effect) : Prop :=
  ∀ header ∈ x.header, Continues (before.filterMap Effect.commits) header

section

variable [Hashing] {d d' : Disk}

lemma Effect.signsNext_of_guard {x : Effect} (h : x.guard = none) (before : List Effect) :
    x.SignsNext before := by
  intro header hheader
  unfold Effect.header at hheader
  split at hheader
  · cases h
  · cases hheader

lemma Silent.signsNext (h : Silent d d') (hd : Throughout Effect.SignsNext d.journal) :
    Throughout Effect.SignsNext d'.journal := by
  obtain ⟨es, hes, rfl⟩ := h
  rw [Disk.journal_recordAll]
  exact hd.append fun x hx => Effect.signsNext_of_guard (List.filterMap_eq_nil_iff.mp hes x hx)

lemma OnlyEvmWrites.spares (h : OnlyEvmWrites d d') : d.Spares d' := by
  obtain ⟨es, hes, rfl⟩ := h
  refine ⟨es, rfl, fun x hx => ?_⟩
  obtain ⟨_, _⟩ := hes x hx
  rfl

end

namespace ConsensusEngine

variable [Hashing] [Revm] {e : ConsensusEngine} {w : World}

/-- Building a block signs a header for the block after the committed ones, if the engine and the
store are at the end of the chain. -/
lemma signsNext_buildBlock (l : LocalValidator) (proposer : Address) (pending : List Transaction)
    (timestampMs : ℕ) (h : Throughout Effect.SignsNext w.disk.journal)
    (hheight : w.state.height = heightAfter w.disk.committed)
    (hlatest : w.disk.store.latestHash = tipOf w.disk.committed) :
    Throughout Effect.SignsNext
      (final (e.buildBlock l proposer pending timestampMs w)).disk.journal := by
  rw [buildBlock, bind_ok (get_run w)]
  dsimp only
  have hkeeps := ExecutionEngine.keeps_dryRunTransactions e.execution e.scheme w.state.height
    (pending.take e.params.maxTransactionsPerBlock) proposer w.disk
  rcases hdry : e.execution.dryRunTransactions e.scheme w.state.height
    (pending.take e.params.maxTransactionsPerBlock) proposer w.disk with
    ⟨⟨state, receipts⟩, d⟩ | ⟨err, d⟩
  · rw [hdry, final_ok] at hkeeps
    have hd : Throughout Effect.SignsNext d.journal := hkeeps.ordinary.silent.signsNext h
    rw [bind_ok (onDisk_ok hdry)]
    dsimp only
    rw [bind_ok (get_run _)]
    have hsigned : ∀ header : BlockHeader, header.height = w.state.height →
        header.parentHash = d.store.latestHash →
        Throughout Effect.SignsNext (d.record (.signHeader header)).journal := by
      intro header hnext hparent
      rw [Disk.journal_record]
      refine throughout_concat.mpr ⟨hd, fun other hother => ?_⟩
      obtain rfl := Option.some.inj hother
      have hcommitted : d.journal.filterMap Effect.commits = w.disk.committed :=
        hkeeps.spares.committed
      have hsame : d.store.latestHash = w.disk.store.latestHash :=
        congrArg Ledger.tip hkeeps.spares.ledger
      rw [hcommitted]
      exact ⟨hnext.trans hheight, hparent.trans (hsame.trans hlatest)⟩
    rcases hsign : signBlock e.scheme _ (pending.take e.params.maxTransactionsPerBlock)
      l.validator.publicKey l.secretKey with err | block
    · exact hd
    · dsimp only
      rw [bind_ok (emit_run _ _)]
      refine Eq.mp (congrArg (fun d : Disk => Throughout Effect.SignsNext d.journal) ?_)
        (hsigned (e.execution.buildHeader d.store proposer w.state.height w.state.round timestampMs
          (pending.take e.params.maxTransactionsPerBlock) state receipts) rfl rfl)
      split <;> rfl
  · rw [hdry, final_error] at hkeeps
    rw [bind_error (onDisk_error hdry)]
    exact hkeeps.ordinary.silent.signsNext h

/-- Proposing signs a header for the block after the committed ones. -/
lemma signsNext_maybePropose (pending : List Transaction) (timestampMs : ℕ)
    (h : Throughout Effect.SignsNext w.disk.journal)
    (hheight : w.state.height = heightAfter w.disk.committed)
    (hlatest : w.disk.store.latestHash = tipOf w.disk.committed) :
    Throughout Effect.SignsNext (final (e.maybePropose pending timestampMs w)).disk.journal := by
  rw [maybePropose, bind_ok (get_run w)]
  rcases e.localValidator with _ | l
  · exact h
  dsimp only
  split
  · exact h
  rcases e.proposerFor w.disk.store w.state.height w.state.round with err | proposer
  · exact h
  rw [ofExcept_ok, bind_ok (pure_run proposer w)]
  split
  · exact h
  split
  · exact h
  rcases protect w.disk.store l.validator.address w.state.height with _ | protection
  · exact h
  dsimp only
  rw [bind_ok (emit_run _ w)]
  set w₁ := w.emitAll [.write (.putSlashingProtection l.validator.address protection)] with hw₁
  have hspares : w.disk.Spares w₁.disk := ⟨_, rfl, by simp [Effect.sparesLedger,
    Effect.sparesAccounts, Effect.sparesBlocks]⟩
  have hmark : Throughout Effect.SignsNext w₁.disk.journal := by
    rw [hw₁, World.disk_emitAll, Disk.journal_recordAll]
    refine throughout_concat.mpr ⟨h, fun header hheader => ?_⟩
    cases hheader
  have hbuilt := signsNext_buildBlock (e := e) l proposer.address pending timestampMs hmark
    (hspares.committed ▸ hheight)
    (hspares.committed ▸ (congrArg Ledger.tip hspares.ledger).trans hlatest)
  rcases hbuild : e.buildBlock l proposer.address pending timestampMs w₁ with
    ⟨_ | block, w₂⟩ | ⟨err, w₂⟩
  · rw [hbuild] at hbuilt
    rw [bind_ok hbuild]
    exact hbuilt
  · rw [hbuild, final_ok] at hbuilt
    rw [bind_ok hbuild]
    have hannounce : KeepsSilent (e.announceBlock l proposer.address block >>= fun _ =>
        e.prevoteAndDrive) :=
      .bind (silent_of_ordinary (ordinary_announceBlock _ _ _)) fun _ => silent_prevoteAndDrive
    exact (hannounce w₂).signsNext hbuilt
  · rw [hbuild] at hbuilt
    rw [bind_error hbuild]
    exact hbuilt

/-! ## Events -/

variable {w₀ w' : World} {event : Event} {d : Disk}

lemma AtTip.moves (h : AtTip w) (hrising : e.Rising w) (hroom : Roomy w₀ event)
    (hmoves : e.Moves w₀ event w w') : e.Rising w' ∧ AtTip w' := by
  induction hmoves with
  | refl => exact ⟨hrising, h⟩
  | tail _ hmove ih =>
    exact ⟨ih.1.move hroom hmove, ih.2.move hmove ih.1.accountable hroom⟩

lemma recordAll_of_moves (h : e.Moves w₀ event w w') : ∃ es, w'.disk = w.disk.recordAll es := by
  induction h with
  | refl => exact ⟨[], rfl⟩
  | tail _ hmove ih =>
    obtain ⟨es, hes⟩ := ih
    obtain ⟨es', hes'⟩ := hmove.recordAll
    exact ⟨es ++ es', by rw [hes', hes, Disk.recordAll_append]⟩

/-- What a handler has reached when the rest of it only adds effects is what a crash would leave. -/
lemma exists_crashDisk {rest : List Effect} (hmoves : e.Moves w event w w')
    (hrest : (e.handle w event).disk = w'.disk.recordAll rest) :
    ∃ k, w'.disk = e.crashDisk w event k := by
  obtain ⟨es, hes⟩ := recordAll_of_moves hmoves
  have heffects : e.effectsOf w event = es ++ rest := by
    rw [effectsOf, hrest, hes, Disk.journal_recordAll, Disk.journal_recordAll, List.append_assoc,
      List.drop_left]
  refine ⟨es.length, ?_⟩
  rw [crashDisk, heffects, List.take_left, hes]

/-- **The handler of an event** signs headers for the block after the committed ones only. -/
lemma signsNext_handle (h : Throughout Effect.SignsNext w.disk.journal)
    (hhistoric : e.Historic d w) (htip : AtTip w) (hblank : BlankIndex d) (hnumbered : d.Numbered)
    (hroom : Roomy w event) : Throughout Effect.SignsNext (e.handle w event).disk.journal := by
  cases event with
  | start pending timestampMs =>
    have hspares : w.disk.Spares (w.emitAll
        [.write (.putConsensusSnapshot ⟨w.state.height, w.state.round⟩),
         .write (.appendConsensusWal (.snapshotPersisted w.state.height w.state.round))]).disk :=
      ⟨_, rfl, by simp [Effect.sparesLedger, Effect.sparesAccounts, Effect.sparesBlocks]⟩
    refine signsNext_maybePropose pending timestampMs ?_ (hspares.committed ▸ htip.height)
      (hspares.committed ▸ (congrArg Ledger.tip hspares.ledger).trans
        (hhistoric.keepsRecent hblank).latestHash)
    exact (silent_of_ordinary ordinary_persistSnapshot w).signsNext h
  | proposal proposal => exact ((e.silentCourse.onProposal proposal).keeps w).signsNext h
  | vote vote => exact ((e.silentCourse.handleVoteActions vote).keeps w).signsNext h
  | commit finalized => exact ((e.silentCourse.importBlock finalized).keeps w).signsNext h
  | timeout pending timestampMs =>
    have hdrive : Drives e w (.timeout pending timestampMs) w (final (e.prevoteAndDrive w)) :=
      drives_prevoteAndDrive (Nat.le_succ _)
    have hsilent := (silent_prevoteAndDrive (e := e) w).signsNext h
    have hhandle : e.handle w (.timeout pending timestampMs) =
        final ((e.prevoteAndDrive >>= fun _ => advanceRound >>= fun _ =>
          e.maybePropose pending timestampMs) w) := rfl
    rcases hrun : e.prevoteAndDrive w with ⟨_, w₁⟩ | ⟨err, w₁⟩
    · rw [hrun, final_ok] at hdrive hsilent
      obtain ⟨es, hquiet, hround⟩ := advanceRound_run w₁
      rw [bind_ok hrun, bind_ok hround] at hhandle
      -- The engine proposes at the end of the chain, in the next round.
      set w₂ : World := { disk := w₁.disk.recordAll es, state := w₁.state.toNextRound } with hw₂
      have hmoves : e.Moves w (.timeout pending timestampMs) w w₂ :=
        ((Relation.ReflTransGen.mono (fun _ _ hhears => hhears.move) _ _ hdrive.moves).tail
          (.nextRound hdrive.round)).tail (.quiet hquiet)
      obtain ⟨hrising, htip₂⟩ := htip.moves hhistoric.toRising hroom hmoves
      have hpropose : Drives e w₂ (.timeout pending timestampMs) w₂
          (final (e.maybePropose pending timestampMs w₂)) := drives_maybePropose _ _ (Nat.le_succ _)
      obtain ⟨rest, hrest⟩ := recordAll_of_moves
        (Relation.ReflTransGen.mono (fun _ _ hhears => hhears.move) _ _ hpropose.moves)
      obtain ⟨k, hcrash⟩ := exists_crashDisk hmoves (hhandle ▸ hrest)
      have hrecent : w₂.disk.KeepsRecent := by
        rw [hcrash]
        exact (hhistoric.crash hnumbered hroom k).keepsRecent hblank
      rw [hhandle]
      refine signsNext_maybePropose pending timestampMs ?_ htip₂.height hrecent.latestHash
      have hround' := silent_of_ordinary ordinary_advanceRound w₁
      rw [hround] at hround'
      exact hround'.signsNext hsilent
    · rw [hrun, final_error] at hsilent
      rw [bind_error hrun] at hhandle
      rw [hhandle]
      exact hsilent

/-! ## Runs -/

/-- A process that signs, accepts and locks on blocks at the end of its chain. -/
structure Successive (e : ConsensusEngine) (d : Disk) (w : World) : Prop
    extends e.Historic d w, AtTip w, Anchored w where
  signs : Throughout Effect.SignsNext w.disk.journal

/-- A delivered proposal changes nothing, or it is for the height of the engine and has passed the
validation on its store. -/
lemma handle_proposal_cases (e : ConsensusEngine) (w : World) (p : Proposal) :
    e.handle w (.proposal p) = w ∨
      (e.validateProposal w.disk.store p = .ok () ∧ p.height = w.state.height) := by
  rw [handle, handler, onProposal, bind_ok (get_run w)]
  rcases hvalid : e.validateProposal w.disk.store p with err | ⟨⟩
  · exact .inl rfl
  · rw [ofExcept_ok, bind_ok (pure_run () w)]
    by_cases hmatch : p.height ≠ w.state.height ∨ p.round ≠ w.state.round
    · rw [if_pos hmatch]
      exact .inl rfl
    · exact .inr ⟨rfl, not_not.mp fun hne => hmatch (.inl hne)⟩

omit [Revm] in
/-- A signed header continues the blocks that were committed before. -/
lemma continues_of_signed (hsigns : Throughout Effect.SignsNext w.disk.journal) {header : BlockHeader}
    (hsigned : .signHeader header ∈ w.disk.journal) :
    ∃ front, front <+: w.disk.committed ∧ Continues front header := by
  obtain ⟨before, after, hsplit⟩ := List.append_of_mem hsigned
  refine ⟨before.filterMap Effect.commits, ?_, hsigns before _ after hsplit header rfl⟩
  rw [Disk.committed, hsplit, List.filterMap_append]
  exact List.prefix_append _ _

/-- **One event.** -/
lemma Successive.handle (h : e.Successive d w) (hblank : BlankIndex d) (hnumbered : d.Numbered)
    (hsighted : e.Sighted w event) : e.Successive d (e.handle w event) := by
  have hsigns := signsNext_handle h.signs h.toHistoric h.toAtTip hblank hnumbered hsighted.1
  -- A proposal that is not turned away continues the chain with which it was compared.
  have hdelivered : e.handle w event = w ∨
      ∀ p, event = .proposal p → Continues w.disk.committed p.block.header := by
    cases event with
    | proposal p =>
      refine (e.handle_proposal_cases w p).imp_right ?_
      rintro ⟨hvalid, hheight⟩ p' hp
      obtain rfl := Event.proposal.inj hp
      obtain ⟨_, -, haccepts⟩ := validateProposal_ok hvalid
      exact ⟨(haccepts.height.trans hheight).trans h.height,
        haccepts.parent.trans (h.toHistoric.keepsRecent hblank).latestHash⟩
    | _ => exact .inr fun p hp => by cases hp
  rcases hdelivered with hnothing | hdelivered
  · rwa [hnothing]
  have hall : e.Rising (e.handle w event) ∧ AtTip (e.handle w event) ∧
      Anchored (e.handle w event) ∧ w.disk.committed <+: (e.handle w event).disk.committed := by
    refine invariant_of_moves_within (fun w' => e.Rising w' ∧ AtTip w' ∧ Anchored w' ∧
      w.disk.committed <+: w'.disk.committed)
      ⟨h.toRising, h.toAtTip, h.toAnchored, List.prefix_rfl⟩ ?_
    rintro w₁ w₂ es hes hdisk ⟨hrising, htip, hanchored, hgrows⟩ hmove
    refine ⟨hrising.move hsighted.1 hmove, htip.move hmove hrising.accountable hsighted.1,
      hanchored.move hmove hsighted.2 hrising.accountable ?_, hgrows.trans hmove.committed_grows⟩
    intro block hheight hproposed
    have hnext := hheight.trans htip.height
    rcases hproposed with ⟨p, rfl, rfl, -⟩ | ⟨hsigned, -⟩
    · exact (hdelivered p rfl).of_height hrising.chain htip.positive hgrows hnext
    · -- The journal until now is the first part of the one that the handler leaves.
      have hjournal : w₁.disk.journal <+: (e.handle w event).disk.journal := by
        obtain ⟨rest, hrest⟩ := hes
        rw [hdisk, disk_handle, ← hrest, Disk.journal_recordAll, Disk.journal_recordAll,
          ← List.append_assoc]
        exact List.prefix_append _ _
      obtain ⟨rest, hrest⟩ := hjournal
      rw [← hrest] at hsigns
      obtain ⟨front, hfront, hcontinues⟩ := continues_of_signed hsigns.of_append hsigned
      exact hcontinues.of_height hrising.chain htip.positive hfront hnext
  exact ⟨h.toHistoric.handle hsighted.1, hall.2.1, hall.2.2.1, hsigns⟩

end ConsensusEngine

/-! ## The beginning -/

/-- A disk on which no chain has begun. -/
structure Pristine (d : Disk) : Prop extends BlankIndex d where
  snapshot : d.store.snapshot = none
  log : d.store.consensusWal = ∅

lemma Pristine.numbered {d : Disk} (h : Pristine d) : d.Numbered := by
  intro k hk
  rw [h.log, Std.ExtTreeMap.getElem?_empty] at hk
  cases hk

lemma Pristine.successive [Hashing] [Revm] {e : ConsensusEngine} {d : Disk} (h : Pristine d) :
    e.Successive d (World.boot d) := by
  have hjournal : (World.boot d).disk.journal = [] := h.journal
  have hcommitted : (World.boot d).disk.committed = [] := by
    rw [Disk.committed, hjournal]
    rfl
  have hlocked : (World.boot d).disk.lockedBlocks = [] := by
    rw [Disk.lockedBlocks, hjournal]
    rfl
  have hballots : (World.boot d).disk.ballots = [] := by
    rw [Disk.ballots, hjournal]
    rfl
  -- Recovery finds the first height, and no lock.
  have hstate : (World.boot d).state = { height := 1, round := 0 } := by
    have hlatest : d.store.latestBlock = none := by
      obtain ⟨_, hend, -⟩ := h.toBlankIndex.keepsRecent
      have hlast := hend.latest
      rwa [show d.committed = [] from hcommitted] at hlast
    rw [World.boot, recovered, Store.startSnapshot, h.snapshot, hlatest, Store.loadConsensusWal,
      h.log]
    rfl
  refine ⟨ConsensusEngine.historic_boot h.journal, ⟨?_, ?_⟩, ⟨?_, ?_, ?_, ?_⟩, ?_⟩
  · rw [hstate, hcommitted]
    rfl
  · rw [hcommitted]
    exact List.forall_mem_nil _
  · rw [hstate]
    exact fun block hb => by cases hb
  · rw [hlocked]
    exact List.forall_mem_nil _
  · rw [hstate]
    exact fun block hb => by cases hb
  · rw [hballots]
    exact fun vote hvote => by cases hvote
  · rw [hjournal]
    exact throughout_nil

end ZenoChain
