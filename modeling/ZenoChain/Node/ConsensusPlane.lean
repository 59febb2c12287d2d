/-
# The consensus plane of a node

A node builds its engine from the genesis and runs a validator of the genesis, if any.  All
engines of a network agree in what they are built from, so that the accounting of a block
takes staking and governance to the same state on every node that has the same state before.
-/
import ZenoChain.Consensus.Runs
import ZenoChain.Node.Runtime
import ZenoChain.State.Records

namespace ZenoChain

open Word

/-- The validator that a node is configured to run. -/
structure ValidatorConfig where
  address : Address
  secretKey : Bytes

/-- The engine of a node; its validator has to be one of the genesis. -/
def NodeConfig.consensusPlane (config : NodeConfig) (validator : Option ValidatorConfig) :
    Except String ConsensusEngine :=
  match validator with
  | none => .ok (.new config.genesis config.scheme config.engine none)
  | some validator =>
    match config.genesis.validators.find? fun entry => entry.address = validator.address with
    | none => .error "validator not present in genesis"
    | some descriptor =>
      .ok (.new config.genesis config.scheme config.engine (some ⟨descriptor, validator.secretKey⟩))

/-- What the engines of a network have in common. -/
structure NodeConfig.Builds (config : NodeConfig) (e : ConsensusEngine) : Prop where
  validators : e.validators = config.genesis.validators
  economics : e.economics = config.genesis.economics
  scheme : e.scheme = config.scheme
  execution : e.execution = config.engine
  localValidator : ∀ l ∈ e.localValidator, l.validator ∈ e.validators

lemma NodeConfig.builds_of_consensusPlane {config : NodeConfig}
    {validator : Option ValidatorConfig} {e : ConsensusEngine}
    (h : config.consensusPlane validator = .ok e) : config.Builds e := by
  rw [consensusPlane.eq_def] at h
  split at h
  · cases h
    exact ⟨rfl, rfl, rfl, rfl, nofun⟩
  · split at h
    · cases h
    · rename_i descriptor hfind
      cases h
      refine ⟨rfl, rfl, rfl, rfl, fun l hl => ?_⟩
      obtain rfl := Option.some.inj hl
      exact List.mem_of_find?_eq_some hfind

/-! ## Staking and governance after a block -/

/-- Staking and governance. -/
abbrev Economy := StakingSnapshot × GovernanceSnapshot

/-- Staking and governance as the engine reads them. -/
def ConsensusEngine.economy (e : ConsensusEngine) (store : Store) : Economy :=
  (e.view store, GovernanceSnapshot.load store e.economics)

section

variable [Hashing]

/-- Staking and governance after the accounting of a block with the given fees; an epoch that
cannot be settled is left as it is. -/
def Economy.account (s : Economy) (economics : EconomicsParams) (fees height : ℕ) : Economy :=
  let staking :=
    { s.1 with
      treasuryBalance :=
        saturatingAdd 128 s.1.treasuryBalance (ExecutionEngine.treasuryCut economics fees) }
  if ExecutionEngine.ClosesEpoch economics height then
    match ExecutionEngine.settleEpoch staking s.2 height with
    | .error _ => s
    | .ok (staking, governance, _) => (staking, governance)
  else (staking, s.2)

/-- The epoch transition of a block with the given fees, if it closes an epoch. -/
def Economy.transition (s : Economy) (economics : EconomicsParams) (fees height : ℕ) :
    Option EpochTransition :=
  let staking :=
    { s.1 with
      treasuryBalance :=
        saturatingAdd 128 s.1.treasuryBalance (ExecutionEngine.treasuryCut economics fees) }
  if ExecutionEngine.ClosesEpoch economics height then
    (ExecutionEngine.settleEpoch staking s.2 height).toOption.map fun settled => settled.2.2
  else none

lemma Economy.sameRecords_account (s : Economy) (economics : EconomicsParams) (fees height : ℕ) :
    s.1.SameRecords (s.account economics fees height).1 := by
  rw [account]
  split_ifs
  · split
    · exact .refl _
    · rename_i hsettle
      exact fun a => ExecutionEngine.sameRecords_settleEpoch hsettle a
  · exact fun _ => rfl

/-- The accounting of a block takes what it stores from the economy alone. -/
lemma applyBlockAccounting_economy {e : ExecutionEngine} {economics : EconomicsParams}
    (heconomics : e.economics = some economics) {store : Store} {state state' : StateSnapshot}
    {proposer : Address} {fees height : ℕ} {accounting : AccountingArtifacts}
    (h : e.applyBlockAccounting store state proposer fees height = .ok (state', accounting)) :
    let s : Economy := ((StakingSnapshot.load store).ensureValidators e.validators,
      GovernanceSnapshot.load store economics)
    accounting.staking = some (s.account economics fees height).1 ∧
      accounting.governance = some (s.account economics fees height).2 ∧
      accounting.epochTransition = s.transition economics fees height := by
  rw [ExecutionEngine.applyBlockAccounting, heconomics] at h
  dsimp only at h
  split_ifs at h with hclose
  · split at h
    · cases h
    · rename_i hsettle
      cases h
      simp only [Economy.account, Economy.transition]
      rw [if_pos hclose, if_pos hclose, hsettle]
      exact ⟨rfl, rfl, rfl⟩
  · cases h
    simp only [Economy.account, Economy.transition]
    rw [if_neg hclose, if_neg hclose]
    exact ⟨rfl, rfl, rfl⟩

/-- The staking and governance states on a disk after the accounting writes. -/
lemma economy_accountingWrites (p : PreparedBlock) (d : Disk) {staking : StakingSnapshot}
    {governance : GovernanceSnapshot} (hstaking : p.accounting.staking = some staking)
    (hgovernance : p.accounting.governance = some governance) :
    (d.recordAll (ExecutionEngine.accountingWrites p)).store.stakingState = some staking ∧
    (d.recordAll (ExecutionEngine.accountingWrites p)).store.governanceState = some governance := by
  rw [ExecutionEngine.accountingWrites, hstaking, hgovernance, Disk.recordAll_append,
    Disk.recordAll_append, Disk.recordAll_append]
  rcases p.accounting.epochTransition with _ | t <;> exact ⟨rfl, rfl⟩

variable [Revm]

omit [Hashing] [Revm] in
/-- A state in which the configured validators have records is read as it is. -/
lemma ConsensusEngine.view_of_sameRecords {e : ConsensusEngine} {store store' : Store}
    {staking : StakingSnapshot} (h : (e.view store).SameRecords staking)
    (hput : store'.stakingState = some staking) : e.view store' = staking := by
  rw [view, StakingSnapshot.load, hput, Option.getD_some]
  refine StakingSnapshot.ensureValidators_of_known fun v hv => (h.isSome _).mpr ?_
  exact StakingSnapshot.isSome_ensureValidators.mpr (.inl (List.mem_map_of_mem hv))

/-- The accounting of a block that an engine prepares is that of the economy it reads. -/
lemma accounting_of_prepares {config : NodeConfig} {e : ConsensusEngine}
    (hbuilds : config.Builds e) {block : Block} {d d' : Disk} {p : PreparedBlock}
    (h : ExecutionEngine.Prepares e.execution e.scheme block d p d') :
    let fees := ExecutionEngine.collectedFees block.transactions 0
    p.accounting.staking =
      some ((e.economy d.store).account e.economics fees block.header.height).1 ∧
    p.accounting.governance =
      some ((e.economy d.store).account e.economics fees block.header.height).2 ∧
    p.accounting.epochTransition =
      (e.economy d.store).transition e.economics fees block.header.height := by
  obtain ⟨state, hloop, haccounting⟩ := h.replay
  -- The replay leaves staking and governance alone, and says what the fees are.
  obtain ⟨es, hquiet, hd'⟩ := h.onlyEvmWrites.quiet
  obtain ⟨hstaking, hgovernance⟩ := recordAll_quiet hquiet d
  rw [← hd'] at hstaking hgovernance
  obtain ⟨-, results, -, hout⟩ := ExecutionEngine.applyTransactions_ok_iff.mp hloop
  obtain ⟨-, hcollected⟩ := Prod.mk.inj hout
  obtain ⟨hfees, -⟩ := Prod.mk.inj hcollected
  have heconomics : e.execution.economics = some e.economics := by
    rw [hbuilds.execution, hbuilds.economics]
    rfl
  have hvalidators : e.execution.validators = e.validators := by
    rw [hbuilds.execution, hbuilds.validators]
    rfl
  have hbefore : ((StakingSnapshot.load d'.store).ensureValidators e.execution.validators,
      GovernanceSnapshot.load d'.store e.economics) = e.economy d.store := by
    rw [hvalidators, ConsensusEngine.economy, ConsensusEngine.view, StakingSnapshot.load,
      StakingSnapshot.load, GovernanceSnapshot.load, GovernanceSnapshot.load, hstaking, hgovernance]
  have haccount := applyBlockAccounting_economy heconomics haccounting
  rwa [hbefore, hfees] at haccount

/-- **Staking and governance after a commit** are the accounting of the block, whichever way it
was committed. -/
theorem Commits.economy {config : NodeConfig} {e : ConsensusEngine} (hbuilds : config.Builds e)
    {f : FinalizedBlock} {d d' : Disk} (h : Commits e f d d') :
    e.economy d'.store = (e.economy d.store).account e.economics
      (ExecutionEngine.collectedFees f.block.transactions 0) f.block.header.height := by
  obtain ⟨d₁, p, tail, hprepares, horder⟩ := h
  obtain ⟨hs, hg, -⟩ := accounting_of_prepares hbuilds hprepares
  set after := (e.economy d.store).account e.economics
    (ExecutionEngine.collectedFees f.block.transactions 0) f.block.header.height with hafter
  -- Both orders of the writes end with the accounting in place.
  have hstored : (d₁.recordAll tail).store.stakingState = some after.1 ∧
      (d₁.recordAll tail).store.governanceState = some after.2 := by
    rcases horder with rfl | rfl
    · rw [Disk.recordAll_append]
      exact economy_accountingWrites p d₁ hs hg
    · exact economy_accountingWrites p _ hs hg
  have hrecords : (e.view d.store).SameRecords after.1 :=
    (e.economy d.store).sameRecords_account e.economics _ _
  refine Prod.ext (e.view_of_sameRecords hrecords hstored.1) ?_
  show GovernanceSnapshot.load _ _ = after.2
  rw [GovernanceSnapshot.load, hstored.2, Option.getD_some]

omit [Revm] in
/-- Staking and governance after some evidence has been applied. -/
theorem Settles.economy {e : ConsensusEngine} {items : List Evidence} {d d' : Disk}
    (h : Settles e items d d') : ∃ staking,
      (e.economy d.store).1.applyEvidence items e.economics = .ok staking ∧
      e.economy d'.store = (staking, (e.economy d.store).2) := by
  cases h with
  | none => exact ⟨_, rfl, rfl⟩
  | some _ happly =>
    refine ⟨_, happly, Prod.ext ?_ rfl⟩
    exact e.view_of_sameRecords (StakingSnapshot.sameRecords_applyEvidence happly) rfl

end

end ZenoChain
