/-
# Staking as a function of the chain

The staking state is written by the accounting of blocks, and besides by liveness notes and by
evidence that a node has come across itself.  So it is a function of the blocks, of the
validators noted in each epoch and of those punished with each block: two nodes agree on it as
long as they agree on these, in whatever order votes, proposals and duplicates have reached
them.  On the blocks alone they need not agree: a finalization punishes, an import does not.
-/
import ZenoChain.Consensus.CrashPoints
import ZenoChain.Node.QuorumSoundness
import ZenoChain.State.Roster

namespace ZenoChain

open StakingSnapshot

/-! ## Chronicles -/

/-- A committed block, with what its node had noted in the epoch and whom it punished. -/
structure Chapter where
  block : Block
  heard : Finset Address
  punished : Finset Address
deriving DecidableEq

/-- The chapters of a node, the latest first, and the validators that it has noted since the
epoch began. -/
structure Chronicle where
  past : List Chapter
  heard : Finset Address
deriving DecidableEq

namespace Chronicle

/-- A block is committed; the notes are gone where it closes the epoch. -/
def commit (economics : EconomicsParams) (c : Chronicle) (f : FinalizedBlock) : Chronicle :=
  { past := ⟨f.block, c.heard, ∅⟩ :: c.past
    heard := if ExecutionEngine.ClosesEpoch economics f.block.header.height then ∅ else c.heard }

/-- Some validators are punished with the latest block. -/
def punish (c : Chronicle) (guilty : Finset Address) : Chronicle :=
  match c.past with
  | [] => c
  | chapter :: past => { c with past := { chapter with punished := guilty } :: past }

/-- The chronicle after an effect. -/
def record (economics : EconomicsParams) (c : Chronicle) : Effect → Chronicle
  | .observe (.live a) => { c with heard := insert a c.heard }
  | .observe (.punished items) => c.punish (equivocators items)
  | .write (.atomicCommitBlock f _) => c.commit economics f
  | _ => c

lemma record_of_isQuiet (economics : EconomicsParams) (c : Chronicle) {x : Effect} (h : x.isQuiet) :
    c.record economics x = c := by
  unfold record
  split
  · cases h
  · cases h
  · cases h
  · rfl

lemma foldl_record_of_isQuiet (economics : EconomicsParams) (c : Chronicle) {es : List Effect}
    (h : ∀ x ∈ es, x.isQuiet) : es.foldl (record economics) c = c := by
  induction es with
  | nil => rfl
  | cons x es ih =>
    obtain ⟨hx, hrest⟩ := List.forall_mem_cons.mp h
    rw [List.foldl_cons, record_of_isQuiet economics c hx, ih hrest]

/-- A commit is recorded as one block. -/
lemma foldl_record_commits (economics : EconomicsParams) (c : Chronicle) {es : List Effect}
    (h : ∀ x ∈ es, x.isQuiet ∨ x.IsAccounting ∨ ∃ f state, x = .write (.atomicCommitBlock f state)) :
    es.foldl (record economics) c = (es.filterMap Effect.commits).foldl (commit economics) c := by
  induction es generalizing c with
  | nil => rfl
  | cons x es ih =>
    obtain ⟨hx, hrest⟩ := List.forall_mem_cons.mp h
    rw [List.foldl_cons, ih _ hrest]
    rcases hx with hquiet | haccounting | ⟨f, state, rfl⟩
    · have hnone : x.commits = none := by
        unfold Effect.commits
        split
        · cases hquiet
        · rfl
      rw [record_of_isQuiet economics c hquiet, List.filterMap_cons_none hnone]
    · cases haccounting <;> rfl
    · rfl

end Chronicle

/-- What a process that started on a disk has noted, committed and punished. -/
def ConsensusEngine.chronicle (e : ConsensusEngine) (start d : Disk) : Chronicle :=
  d.journal.foldl (Chronicle.record e.economics)
    { past := [], heard := (e.view start.store).seen }

/-! ## Staking and governance by the chronicle -/

namespace Economy

/-- The same roster, and the same governance state. -/
structure Alike (s t : Economy) : Prop where
  staking : s.1.Alike t.1
  governance : s.2 = t.2

/-- Some validators are noted as live. -/
def note (s : Economy) (noted : Finset Address) : Economy := (s.1.noteAll noted, s.2)

/-- Some validators are punished. -/
def convict (s : Economy) (params : EconomicsParams) (guilty : Finset Address) : Economy :=
  (s.1.convictAll params guilty, s.2)

variable {s t : Economy} {economics : EconomicsParams} {fees height : ℕ}

lemma Alike.refl (s : Economy) : Alike s s := ⟨.refl _, rfl⟩

lemma Alike.symm (h : Alike s t) : Alike t s := ⟨h.staking.symm, h.governance.symm⟩

lemma Alike.trans {u : Economy} (h : Alike s t) (h' : Alike t u) : Alike s u :=
  ⟨h.staking.trans h'.staking, h.governance.trans h'.governance⟩

lemma Alike.note (h : Alike s t) (noted : Finset Address) : Alike (s.note noted) (t.note noted) :=
  ⟨h.staking.noteAll noted, h.governance⟩

lemma Alike.convict (h : Alike s t) (params : EconomicsParams) (guilty : Finset Address) :
    Alike (s.convict params guilty) (t.convict params guilty) :=
  ⟨h.staking.convictAll params guilty, h.governance⟩

variable [Hashing]

lemma settleEpoch_of_alike {s s' t : StakingSnapshot} {g g' : GovernanceSnapshot}
    {transition : EpochTransition} (h : s.Alike t)
    (hsettle : ExecutionEngine.settleEpoch s g height = .ok (s', g', transition)) :
    ∃ t', ExecutionEngine.settleEpoch t g height = .ok (t', g', transition) ∧ s'.Alike t' := by
  rw [ExecutionEngine.settleEpoch] at hsettle ⊢
  split at hsettle
  · cases hsettle
  · rename_i s₁ hslash
    obtain ⟨t₁, ht₁, halike⟩ := h.applyDowntimeSlashing hslash
    have hsettled := alike_settleEpochRewards halike 0 0 g.economics
    cases hsettle
    rw [ht₁]
    dsimp only
    rw [← hsettled.epoch, ← hsettled.buildEpochTransition]
    exact ⟨_, rfl, hsettled⟩

/-- The end of an epoch is a matter of the roster and the governance state. -/
lemma settleEpoch_cases {s t : StakingSnapshot} (h : s.Alike t) (g : GovernanceSnapshot)
    (height amount : ℕ) :
    (∃ err err', ExecutionEngine.settleEpoch (s.fund amount) g height = .error err ∧
      ExecutionEngine.settleEpoch (t.fund amount) g height = .error err') ∨
    ∃ s' t' g' transition,
      ExecutionEngine.settleEpoch (s.fund amount) g height = .ok (s', g', transition) ∧
      ExecutionEngine.settleEpoch (t.fund amount) g height = .ok (t', g', transition) ∧
      s'.Alike t' := by
  have hfunded := h.fund amount
  rcases hs : ExecutionEngine.settleEpoch (s.fund amount) g height with err | ⟨s', g', transition⟩
  · rcases ht : ExecutionEngine.settleEpoch (t.fund amount) g height with err' | ⟨t', g', transition⟩
    · exact .inl ⟨err, err', rfl, rfl⟩
    · obtain ⟨s', hs', -⟩ := settleEpoch_of_alike hfunded.symm ht
      rw [hs] at hs'
      cases hs'
  · obtain ⟨t', ht, halike⟩ := settleEpoch_of_alike hfunded hs
    exact .inr ⟨s', t', g', transition, rfl, ht, halike⟩

lemma Alike.account (h : Alike s t) (economics : EconomicsParams) (fees height : ℕ) :
    Alike (s.account economics fees height) (t.account economics fees height) := by
  obtain ⟨s, g⟩ := s
  obtain ⟨t, g'⟩ := t
  obtain ⟨hstaking, rfl⟩ := h
  have hsettle := settleEpoch_cases hstaking g height (ExecutionEngine.treasuryCut economics fees)
  have hfunded := hstaking.fund (ExecutionEngine.treasuryCut economics fees)
  rw [StakingSnapshot.fund, StakingSnapshot.fund] at hsettle hfunded
  rw [Economy.account, Economy.account]
  dsimp only
  split_ifs
  · rcases hsettle with ⟨err, err', hs, ht⟩ | ⟨s', t', g', transition, hs, ht, halike⟩
    · rw [hs, ht]
      exact ⟨hstaking, rfl⟩
    · rw [hs, ht]
      exact ⟨halike, rfl⟩
  · exact ⟨hfunded, rfl⟩

lemma Alike.transition (h : Alike s t) (economics : EconomicsParams) (fees height : ℕ) :
    s.transition economics fees height = t.transition economics fees height := by
  obtain ⟨s, g⟩ := s
  obtain ⟨t, g'⟩ := t
  obtain ⟨hstaking, rfl⟩ := h
  have hsettle := settleEpoch_cases hstaking g height (ExecutionEngine.treasuryCut economics fees)
  rw [StakingSnapshot.fund, StakingSnapshot.fund] at hsettle
  rw [Economy.transition, Economy.transition]
  dsimp only
  split_ifs
  · rcases hsettle with ⟨err, err', hs, ht⟩ | ⟨s', t', g', transition, hs, ht, -⟩
    · rw [hs, ht]
      rfl
    · rw [hs, ht]
      rfl
  · rfl

/-- Within an epoch the accounting leaves the roster alone. -/
lemma alike_account_of_open (s : Economy) (fees : ℕ)
    (h : ¬ ExecutionEngine.ClosesEpoch economics height) :
    s.Alike (s.account economics fees height) := by
  rw [account]
  dsimp only
  rw [if_neg h]
  exact ⟨⟨rfl, rfl⟩, rfl⟩

/-- The economy after a chapter. -/
def turn (economics : EconomicsParams) (s : Economy) (chapter : Chapter) : Economy :=
  ((s.note chapter.heard).account economics
    (ExecutionEngine.collectedFees chapter.block.transactions 0)
    chapter.block.header.height).convict economics chapter.punished

/-- The economy after the chapters of the past. -/
def after (economics : EconomicsParams) (start : Economy) : List Chapter → Economy
  | [] => start
  | chapter :: past => (after economics start past).turn economics chapter

/-- The economy that a chronicle tells of. -/
def told (economics : EconomicsParams) (start : Economy) (c : Chronicle) : Economy :=
  (after economics start c.past).note c.heard

/-- What a block adds to the tale is its accounting. -/
lemma told_commit (start : Economy) (c : Chronicle) (f : FinalizedBlock) :
    Alike (told economics start (c.commit economics f)) ((told economics start c).account economics
      (ExecutionEngine.collectedFees f.block.transactions 0) f.block.header.height) := by
  set next := (told economics start c).account economics
    (ExecutionEngine.collectedFees f.block.transactions 0) f.block.header.height with hnext
  have hafter : after economics start (c.commit economics f).past = next := by
    show (next.1.convictAll economics ∅, next.2) = next
    rw [convictAll_empty]
  -- Notes of this epoch are there already.
  have hseen : next.1.Seen (c.commit economics f).heard := by
    rw [Chronicle.commit]
    dsimp only
    split_ifs with hclose
    · exact seen_empty _
    · exact (seen_noteAll (after economics start c.past).1 c.heard).of_alike
        (alike_account_of_open (told economics start c) _ hclose).staking
  rw [told, hafter, note, noteAll_of_seen hseen]
  exact .refl _

/-- What a punishment adds to the tale, as soon as there is a block. -/
lemma told_punish (start : Economy) {c : Chronicle} (hpast : c.past.head?.any fun chapter =>
    chapter.punished = ∅) (guilty : Finset Address) :
    Alike (told economics start (c.punish guilty))
      ((told economics start c).convict economics guilty) := by
  obtain ⟨_ | ⟨chapter, past⟩, heard⟩ := c
  · cases hpast
  · have hclean : chapter.punished = ∅ := of_decide_eq_true hpast
    refine ⟨?_, rfl⟩
    simp only [told, after, turn, Chronicle.punish, note, convict, hclean, convictAll_empty]
    exact (convictAll_noteAll _ _ _ _).symm

end Economy

/-! ## One move -/

namespace ConsensusEngine

variable [Hashing] {e : ConsensusEngine} {start d d' : Disk} {w₀ w w' : World} {event : Event}

/-- A disk holds the staking and governance states that its chronicle tells of. -/
def Tells (e : ConsensusEngine) (start d : Disk) : Prop :=
  (e.economy d.store).Alike
    (Economy.told e.economics (e.economy start.store) (e.chronicle start d))

omit [Hashing] in
lemma economy_congr {store store' : Store} (hstaking : store'.stakingState = store.stakingState)
    (hgovernance : store'.governanceState = store.governanceState) :
    e.economy store' = e.economy store := by
  rw [economy, economy, view_congr hstaking, GovernanceSnapshot.load, GovernanceSnapshot.load,
    hgovernance]

lemma chronicle_recordAll (e : ConsensusEngine) (start d : Disk) (es : List Effect) :
    e.chronicle start (d.recordAll es) =
      es.foldl (Chronicle.record e.economics) (e.chronicle start d) := by
  rw [chronicle, Disk.journal_recordAll, List.foldl_append]
  rfl

lemma Tells.keep (h : e.Tells start d) (heconomy : e.economy d'.store = e.economy d.store)
    (hchronicle : e.chronicle start d' = e.chronicle start d) : e.Tells start d' := by
  rw [Tells, heconomy, hchronicle]
  exact h

lemma Tells.quiet (h : e.Tells start d) {es : List Effect} (hquiet : ∀ x ∈ es, Effect.isQuiet x) :
    e.Tells start (d.recordAll es) := by
  obtain ⟨hstaking, hgovernance⟩ := recordAll_quiet hquiet d
  refine h.keep (economy_congr hstaking hgovernance) ?_
  rw [chronicle_recordAll, Chronicle.foldl_record_of_isQuiet _ _ hquiet]

/-- A note is heard and written. -/
lemma Tells.note (h : e.Tells start d) {a : Address} {staking : StakingSnapshot}
    (hnoted : e.noted d.store a = .ok staking)
    (hheard : e.chronicle start d' =
      { e.chronicle start d with heard := insert a (e.chronicle start d).heard })
    (hstaking : d'.store.stakingState = some staking)
    (hgovernance : d'.store.governanceState = d.store.governanceState) : e.Tells start d' := by
  obtain ⟨told, htold, halike⟩ := h.staking.noteLiveness hnoted
  rw [Tells, hheard]
  refine ⟨?_, ?_⟩
  · show (e.view d'.store).Alike _
    rw [view_put_noted hnoted hstaking]
    rw [noteLiveness_noteAll htold] at halike
    exact halike
  · show GovernanceSnapshot.load _ _ = _
    rw [GovernanceSnapshot.load, hgovernance]
    exact h.governance

variable [Revm] {config : NodeConfig}

/-- A committed block is a chapter in which nobody is punished yet. -/
lemma Tells.commits (h : e.Tells start d) (hbuilds : config.Builds e) {f : FinalizedBlock}
    (hcommits : Commits e f d d') :
    e.Tells start d' ∧
      (e.chronicle start d').past.head?.any fun chapter => chapter.punished = ∅ := by
  have hchronicle : e.chronicle start d' = (e.chronicle start d).commit e.economics f := by
    obtain ⟨es, rfl, hone, hes⟩ := hcommits.effects
    have hparts : ∀ x ∈ es, x.isQuiet ∨ x.IsAccounting ∨
        ∃ f state, x = .write (.atomicCommitBlock f state) :=
      fun x hx => (hes x hx).imp_right fun hx => hx.imp_right fun hx => ⟨f, hx⟩
    rw [chronicle_recordAll, Chronicle.foldl_record_commits _ _ hparts, hone]
    rfl
  rw [Tells, hchronicle, hcommits.economy hbuilds]
  exact ⟨(Economy.Alike.account h _ _ _).trans (Economy.told_commit _ _ _).symm, rfl⟩

omit [Revm] in
/-- Evidence is applied to the latest chapter. -/
lemma Tells.settles (h : e.Tells start d)
    (hclean : (e.chronicle start d).past.head?.any fun chapter => chapter.punished = ∅)
    {items : List Evidence} (hsettles : Settles e items d d') : e.Tells start d' := by
  obtain ⟨staking, happly, heconomy⟩ := hsettles.economy
  cases hsettles with
  | none => exact h
  | @some _ _ staking' =>
    have hchronicle : e.chronicle start
        (d.recordAll [.observe (.punished items), .write (.putStakingState staking')]) =
          (e.chronicle start d).punish (equivocators items) := chronicle_recordAll e start d _
    rw [Tells, hchronicle, heconomy]
    refine Economy.Alike.trans ?_ (Economy.told_punish _ hclean _).symm
    have hconvicted : Economy.Alike (staking, (e.economy d.store).2)
        ((e.economy d.store).convict e.economics (equivocators items)) :=
      ⟨alike_of_applyEvidence happly, rfl⟩
    exact hconvicted.trans (Economy.Alike.convict h _ _)

/-- **One move** keeps to the chronicle. -/
lemma Tells.move (h : e.Tells start w.disk) (hbuilds : config.Builds e)
    (hmove : e.Move w₀ event w w') : e.Tells start w'.disk := by
  cases hmove with
  | quiet hquiet => exact h.quiet hquiet
  | note hnoted => exact h.note hnoted (chronicle_recordAll e start w.disk _) rfl rfl
  | accept => exact h
  | accuse => exact h.keep (economy_congr rfl rfl) (chronicle_recordAll e start w.disk [_])
  | cast hmay => exact h.note hmay.noted (chronicle_recordAll e start w.disk _) rfl rfl
  | count => exact h.keep (economy_congr rfl rfl) (chronicle_recordAll e start w.disk [_])
  | report => exact h.keep (economy_congr rfl rfl) (chronicle_recordAll e start w.disk _)
  | lock => exact h.keep (economy_congr rfl rfl) (chronicle_recordAll e start w.disk _)
  | finalize _ _ _ hcommits hsettles =>
    obtain ⟨hcommitted, hclean⟩ := h.commits hbuilds hcommits
    exact hcommitted.settles hclean hsettles
  | stall _ _ _ hcommits => exact (h.commits hbuilds hcommits).1
  | adopt _ _ _ hcommits => exact (h.commits hbuilds hcommits).1
  | nextRound => exact h

/-! ## Two nodes -/

/-- In every run the disk holds what the chronicle tells of. -/
lemma tells_run (hbuilds : config.Builds e) (hstart : start.journal = [])
    (hrun : e.Run (fun _ _ => True) (World.boot start) w) : e.Tells start w.disk := by
  refine invariant_of_run (fun w => e.Tells start w.disk) ?_
    (fun _ _ _ _ _ h hmove => h.move hbuilds hmove) hrun
  have hseen : (e.economy start.store).note (e.view start.store).seen = e.economy start.store := by
    show (((e.view start.store).noteAll (e.view start.store).seen, _) : Economy) = _
    rw [noteAll_of_seen (seen_seen _)]
    rfl
  show (e.economy start.store).Alike (Economy.told _ _ (e.chronicle start start))
  rw [chronicle, hstart]
  show (e.economy start.store).Alike ((e.economy start.store).note (e.view start.store).seen)
  rw [hseen]
  exact .refl _

/-- **Staking is a function of the chronicle.**  Let two engines of a network start on the same
store and handle any events.  If they have committed the same blocks, with the same validators
noted before and the same ones punished after each, all validators have the same status and
stake on both; and if they have noted the same validators since, the records are equal in all,
and the next block closes the epoch with the same transition. -/
theorem staking_of_chronicles {e₁ e₂ : ConsensusEngine} (hbuilds₁ : config.Builds e₁)
    (hbuilds₂ : config.Builds e₂) (hstart : start.journal = []) {w₁ w₂ : World}
    (hrun₁ : e₁.Run (fun _ _ => True) (World.boot start) w₁)
    (hrun₂ : e₂.Run (fun _ _ => True) (World.boot start) w₂)
    (hpast : (e₁.chronicle start w₁.disk).past = (e₂.chronicle start w₂.disk).past) :
    e₁.standing w₁.disk.store = e₂.standing w₂.disk.store ∧
    ((e₁.chronicle start w₁.disk).heard = (e₂.chronicle start w₂.disk).heard →
      (e₁.view w₁.disk.store).validators = (e₂.view w₂.disk.store).validators ∧
      ∀ block p₁ p₂ d₁ d₂,
        ExecutionEngine.Prepares e₁.execution e₁.scheme block w₁.disk p₁ d₁ →
        ExecutionEngine.Prepares e₂.execution e₂.scheme block w₂.disk p₂ d₂ →
        p₁.accounting.epochTransition = p₂.accounting.epochTransition) := by
  have htells₁ := tells_run hbuilds₁ hstart hrun₁
  have htells₂ := tells_run hbuilds₂ hstart hrun₂
  have heconomics : e₂.economics = e₁.economics :=
    hbuilds₂.economics.trans hbuilds₁.economics.symm
  have hbefore : e₂.economy start.store = e₁.economy start.store := by
    rw [economy, economy, view, view, heconomics, hbuilds₁.validators, hbuilds₂.validators]
  rw [Tells, hbefore, heconomics, Economy.told, ← hpast] at htells₂
  refine ⟨?_, fun hheard => ?_⟩
  · rw [standing, standing]
    exact (htells₁.staking.standing.trans (standing_noteAll _ _)).trans
      (htells₂.staking.standing.trans (standing_noteAll _ _)).symm
  · rw [← hheard] at htells₂
    have halike := htells₁.trans htells₂.symm
    refine ⟨halike.staking.validators, fun block p₁ p₂ d₁ d₂ h₁ h₂ => ?_⟩
    rw [(accounting_of_prepares hbuilds₁ h₁).2.2, (accounting_of_prepares hbuilds₂ h₂).2.2,
      heconomics]
    exact halike.transition _ _ _

end ConsensusEngine

/-! ## An equivocator seen by one node only -/

section

open Transparent

/-- The precommit of the first block by the owner of a key. -/
def precommitFirst (key : Bytes) : Event :=
  .vote (castVote key 1 0 .precommit firstProposal.hash)

/-- The first proposal and the precommits of the others, with some events between them. -/
def finalizingEvents (between : List Event) : List Event :=
  [.proposal ⟨1, 0, firstProposal, address [2]⟩, precommitFirst [2], precommitFirst [3]] ++
    between ++ [precommitFirst [4]]

/-- A validator handles them. -/
def hearing (between : List Event) : World :=
  (finalizingEvents between).foldl (engineOf [1]).handle (World.boot blank)

/-- Another validator imports the block. -/
def importing : World := (engineOf [4]).handle (World.boot blank) (.commit firstFinalized)

/-- Both have committed the same block, but only the one that saw the second vote has jailed
its author. -/
theorem equivocator_splits_staking :
    let w := hearing [.vote (castVote [3] 1 0 .precommit 7)]
    w.disk.committed = [firstFinalized] ∧ importing.disk.committed = [firstFinalized] ∧
    ((engineOf [1]).view w.disk.store).validators[address [3]]?.map ValidatorStake.status =
      some .jailed ∧
    ((engineOf [4]).view importing.disk.store).validators[address [3]]?.map ValidatorStake.status =
      some .active := by
  decide +kernel

/-- Without the second vote, the two agree. -/
theorem staking_of_first_chronicles :
    ((engineOf [1]).view (hearing []).disk.store).validators =
      ((engineOf [4]).view importing.disk.store).validators := by
  have hplane : quorumNode.consensusPlane (some ⟨address [4], [4]⟩) = .ok (engineOf [4]) := rfl
  have hrun : (engineOf [4]).Run (fun _ _ => True) (World.boot blank) importing :=
    ConsensusEngine.run_foldl [_]
  have hsame : (engineOf [1]).chronicle blank (hearing []).disk =
      (engineOf [4]).chronicle blank importing.disk := by
    decide +kernel
  exact ((ConsensusEngine.staking_of_chronicles builds_quorumNode
    (NodeConfig.builds_of_consensusPlane hplane) rfl (ConsensusEngine.run_foldl _) hrun
    (congrArg Chronicle.past hsame)).2 (congrArg Chronicle.heard hsame)).1

end

end ZenoChain
