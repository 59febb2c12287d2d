/-
# Stake and balances

The start of a node, the registration of validators, the commit of blocks and the settlement of
epochs, and the sum of all native balances, delegations and pending unbondings.  Bonding debits
nobody, at the start and in a registration alike, and a settlement drops what has matured without
crediting anybody.  So the sum is constant exactly as far as nothing is bonded and nothing matures.
-/
import ZenoChain.Base.Trace
import ZenoChain.Execution.Conservation
import ZenoChain.Node.CommittedRoot
import ZenoChain.State.Bonds

namespace ZenoChain

open Word ExecutionEngine

/-! ## The start of a node -/

/-- The self-bonds of the validators of a genesis, one after the other. -/
def bondValidators (genesis : Genesis) :
    List Validator → StakingSnapshot → Except String StakingSnapshot
  | [], staking => .ok staking
  | validator :: validators, staking =>
    let minimum := genesis.economics.minimumSelfBond
    let name := hexEncode (Codec.array32 validator.address)
    match genesis.accounts[validator.address]? with
    | none => .error ("validator " ++ name ++ " has no genesis account — cannot bootstrap")
    | some account =>
      if account.balance < minimum then
        .error ("validator " ++ name ++ " balance " ++ toString account.balance ++
          " is below minimum self-bond " ++ toString minimum)
      else
        match staking.delegate validator.address validator.address minimum true with
        | .error err => .error ("bootstrap delegation failed: " ++ err.toText)
        | .ok staking => bondValidators genesis validators staking

section

variable [Hashing]

/-- Prepares the store of a node for a genesis.  The accounts are put if no genesis was stored; the
validators bond whether it was or not. -/
def bootstrapGenesis (genesis : Genesis) (stored : Bool) : StoreM String PUnit := do
  if stored then pure ⟨⟩ else StateSnapshot.persist genesis.accounts
  let store ← readStore
  write (.putGovernanceState (GovernanceSnapshot.load store genesis.economics))
  let store ← readStore
  let staking := (StakingSnapshot.load store).ensureValidators genesis.validators
  match bondValidators genesis genesis.validators staking with
  | .error message => throw message
  | .ok staking => write (.putStakingState staking)

/-- Settles an epoch in the stored staking state. -/
def settleStored (totalFees rewardBudget : ℕ) (params : EconomicsParams) : StoreM String PUnit := do
  let store ← readStore
  write (.putStakingState
    ((StakingSnapshot.load store).settleEpochRewards totalFees rewardBudget params).2)

/-- A disk, and the genesis stored on it. -/
structure GenesisDisk where
  disk : Disk
  genesis : Option Genesis := none

/-- The operations that move stake or balances: starts of the node, registrations, commits of
blocks by replay and after local finalization, without evidence, and settlements of epochs. -/
inductive StakeEvent
  | bootstrap
  | registerValidator (request : ValidatorJoinRequest)
  | imported (finalized : FinalizedBlock)
  | finalized (block : Block) (certificate : CommitCertificate)
  | settleEpoch (totalFees rewardBudget : ℕ) (params : EconomicsParams)

/-- What an operation does to the disk. -/
def StakeEvent.run [Revm] (config : NodeConfig) (g : GenesisDisk) : StakeEvent → Disk
  | bootstrap => Handler.final (bootstrapGenesis config.genesis g.genesis.isSome g.disk)
  | registerValidator request => Handler.final (ZenoChain.registerValidator config request g.disk)
  | imported committed =>
    Handler.final (config.engine.validateAndCommitFinalizedBlock config.scheme committed g.disk)
  | finalized block certificate =>
    Handler.final (executeAndCommit config.engine config.scheme block certificate g.disk)
  | settleEpoch totalFees rewardBudget params =>
    Handler.final (settleStored totalFees rewardBudget params g.disk)

/-- The disk after an operation.  A start stores the genesis if there is none. -/
def GenesisDisk.step [Revm] (config : NodeConfig) (g : GenesisDisk) (event : StakeEvent) :
    GenesisDisk :=
  { disk := event.run config g
    genesis := match event with
      | .bootstrap => some (g.genesis.getD config.genesis)
      | _ => g.genesis }

end

/-! ## The sum -/

/-- All native balances, delegations and pending unbondings. -/
def Store.value (s : Store) : ℕ :=
  StateSnapshot.supply s.accounts + (StakingSnapshot.load s).atStake

/-- The sum at the start of a node, with the accounts of the genesis if there is none yet. -/
def GenesisDisk.endowment (config : NodeConfig) (g : GenesisDisk) : ℕ :=
  StateSnapshot.supply (if g.genesis.isSome then g.disk.store.accounts
    else Table.insertAll g.disk.store.accounts config.genesis.accounts.toList) +
  (StakingSnapshot.load g.disk.store).atStake

/-! ## Which operations keep it -/

/-- Every validator of a genesis has an account there with the minimum self-bond. -/
def Genesis.Bootable (genesis : Genesis) : Prop :=
  ∀ v ∈ genesis.validators, ∃ account, genesis.accounts[v.address]? = some account ∧
    genesis.economics.minimumSelfBond ≤ account.balance

/-- A self-bond adds nothing: it is one of nothing, or to a bond that has no room. -/
def BondsNothing (s : Store) (address : Address) (amount : ℕ) : Prop :=
  amount = 0 ∨ (StakingSnapshot.load s).bond (address, address) = maxValue 128

/-- At the end of an epoch nothing of value has matured after the downtime slashing. -/
def SettlesInFull (config : NodeConfig) (s : Store) (height : ℕ) : Prop :=
  ClosesEpoch config.genesis.economics height → ∀ slashed : StakingSnapshot,
    ((StakingSnapshot.load s).ensureValidators config.genesis.validators).applyDowntimeSlashing
        (GovernanceSnapshot.load s config.genesis.economics).economics = .ok slashed →
      slashed.SettlesInFull

/-- What keeps the sum over the commit of a block. -/
structure BlockConserves (config : NodeConfig) (s : Store) (block : Block) : Prop where
  share : treasuryCut config.genesis.economics (feeSum block.transactions) ≤
    feeSum block.transactions
  payloads : ∀ tx ∈ block.transactions, tx.body.evm.isSome → tx.body.amount = 0
  settles : SettlesInFull config s block.header.height

/-- What keeps the sum over an operation. -/
def GenesisDisk.Conserves [Hashing] [Revm] (config : NodeConfig) (g : GenesisDisk) :
    StakeEvent → Prop
  | .bootstrap => config.genesis.Bootable → ∀ v ∈ config.genesis.validators,
      BondsNothing g.disk.store v.address config.genesis.economics.minimumSelfBond
  | .registerValidator request => ∀ address,
      config.scheme.deriveAddress request.publicKey = .ok address →
      config.genesis.economics.minimumSelfBond ≤ request.selfBond →
      BondsNothing g.disk.store address request.selfBond
  | .imported finalized =>
      (∃ d', config.engine.validateAndCommitFinalizedBlock config.scheme finalized g.disk =
        .ok ⟨⟩ d') → BlockConserves config g.disk.store finalized.block
  | .finalized block certificate =>
      (∃ d', executeAndCommit config.engine config.scheme block certificate g.disk = .ok ⟨⟩ d') →
        BlockConserves config g.disk.store block
  | .settleEpoch _ _ _ => (StakingSnapshot.load g.disk.store).SettlesInFull

/-! ## Starts and registrations -/

section

lemma bondValidators_ok_iff (genesis : Genesis) (vs : List Validator) (staking : StakingSnapshot)
    (hknown : ∀ v ∈ vs, staking.validators[v.address]?.isSome) :
    (∃ staking', bondValidators genesis vs staking = .ok staking') ↔
      ∀ v ∈ vs, ∃ account, genesis.accounts[v.address]? = some account ∧
        genesis.economics.minimumSelfBond ≤ account.balance := by
  induction vs generalizing staking with
  | nil => exact iff_of_true ⟨staking, rfl⟩ nofun
  | cons v vs ih =>
    rw [List.forall_mem_cons] at hknown
    rw [bondValidators, List.forall_mem_cons]
    rcases haccount : genesis.accounts[v.address]? with _ | account
    · exact iff_of_false nofun fun h => by simp at h
    · dsimp only
      by_cases hlow : account.balance < genesis.economics.minimumSelfBond
      · rw [if_pos hlow]
        refine iff_of_false nofun fun h => ?_
        obtain ⟨_, heq, hle⟩ := h.1
        obtain rfl := Option.some.inj heq
        exact absurd hlow (not_lt.mpr hle)
      · rw [if_neg hlow]
        rcases hdelegate : staking.delegate v.address v.address genesis.economics.minimumSelfBond
          true with err | s₁
        · rw [StakingSnapshot.delegate_eq_error hdelegate] at hknown
          exact absurd hknown.1 nofun
        · have hsame := (StakingSnapshot.delegate_ok hdelegate).1
          rw [ih s₁ fun u hu => (hsame.isSome u.address).mpr (hknown.2 u hu)]
          exact (and_iff_right ⟨account, rfl, not_lt.mp hlow⟩).symm

/-- The self-bonds leave alone what is at stake exactly if each of them adds nothing. -/
lemma atStake_bondValidators {genesis : Genesis} {staking staking' : StakingSnapshot}
    {vs : List Validator} (hfit : staking.BondsFit)
    (h : bondValidators genesis vs staking = .ok staking') :
    staking.atStake ≤ staking'.atStake ∧
      (staking'.atStake = staking.atStake ↔ ∀ v ∈ vs, genesis.economics.minimumSelfBond = 0 ∨
        staking.bond (v.address, v.address) = maxValue 128) := by
  induction vs generalizing staking with
  | nil =>
    cases h
    exact ⟨le_rfl, iff_of_true rfl nofun⟩
  | cons v vs ih =>
    rw [bondValidators] at h
    split at h
    · cases h
    · split_ifs at h
      split at h
      · cases h
      · rename_i s₁ hdelegate
        obtain ⟨hle, hiff⟩ := StakingSnapshot.atStake_delegate_iff hfit hdelegate
        obtain ⟨hle', hiff'⟩ := ih (hfit.delegate hdelegate) h
        refine ⟨hle.trans hle', ?_⟩
        rw [List.forall_mem_cons, ← hiff]
        constructor
        · intro hkept
          have hfirst : s₁.atStake = staking.atStake := le_antisymm (hkept ▸ hle') hle
          refine ⟨hfirst, ?_⟩
          simpa only [StakingSnapshot.bond_delegate_of_nothing hfit hdelegate (hiff.mp hfirst)]
            using hiff'.mp (hkept.trans hfirst.symm)
        · rintro ⟨hfirst, hrest⟩
          rw [← hfirst, hiff']
          simpa only [StakingSnapshot.bond_delegate_of_nothing hfit hdelegate (hiff.mp hfirst)]
            using hrest

end

/-! ## What the writes leave of the staking state -/

section

variable [Hashing]

lemma stakingState_of_no_put {es : List Effect}
    (h : ∀ staking : StakingState, .write (.putStakingState staking) ∉ es) (d : Disk) :
    (d.recordAll es).store.stakingState = d.store.stakingState :=
  (d.stakingState_recordAll es).resolve_right fun ⟨staking, hmem, _⟩ => h staking hmem

lemma stakingState_writes (state : StateSnapshot) (d : Disk) :
    (d.recordAll state.writes).store.stakingState = d.store.stakingState := by
  refine stakingState_of_no_put (fun staking hmem => ?_) d
  obtain ⟨e, -, heq⟩ := List.mem_map.mp hmem
  cases heq

/-- The accounting of a block stores its staking state, if it has one. -/
lemma load_accountingWrites (p : PreparedBlock) (d : Disk) :
    StakingSnapshot.load (d.recordAll (accountingWrites p)).store =
      p.accounting.staking.getD (StakingSnapshot.load d.store) := by
  have hlater : ∀ d : Disk, ((d.recordAll
      (p.accounting.governance.map fun g => Effect.write (.putGovernanceState g)).toList).recordAll
      (p.accounting.epochTransition.map fun t => .write (.putEpochTransition t)).toList).store.stakingState =
      d.store.stakingState := by
    intro d
    rw [stakingState_of_no_put, stakingState_of_no_put]
    all_goals simp
  rw [accountingWrites, Disk.recordAll_append, Disk.recordAll_append, Disk.recordAll_append,
    StakingSnapshot.load, hlater]
  rcases p.accounting.staking with _ | staking
  · rw [Option.map_none, Option.toList_none, Disk.recordAll_nil, stakingState_writes]
    rfl
  · rfl

/-! ## Blocks -/

variable {e : ExecutionEngine}

/-- The staking state of a block is the stored one, with the treasury's cut; at the end of an epoch
it has been slashed and settled. -/
lemma staking_applyBlockAccounting {store : Store} {state state' : StateSnapshot}
    {proposer : Address} {fees height : ℕ} {accounting : AccountingArtifacts}
    {economics : EconomicsParams} (hec : e.economics = some economics)
    (h : e.applyBlockAccounting store state proposer fees height = .ok (state', accounting)) :
    ∃ staking, accounting.staking = some staking ∧
      if ClosesEpoch economics height then ∃ slashed : StakingSnapshot,
        ((StakingSnapshot.load store).ensureValidators e.validators).applyDowntimeSlashing
          (GovernanceSnapshot.load store economics).economics = .ok slashed ∧
        (staking.atStake = (StakingSnapshot.load store).atStake ↔ slashed.SettlesInFull) ∧
        staking.atStake ≤ (StakingSnapshot.load store).atStake
      else staking.atStake = (StakingSnapshot.load store).atStake := by
  rw [applyBlockAccounting, hec] at h
  dsimp only at h
  by_cases hcloses : ClosesEpoch economics height
  · rw [if_pos hcloses, settleEpoch] at h
    have hslashing := StakingSnapshot.applyDowntimeSlashing_fund
      ((StakingSnapshot.load store).ensureValidators e.validators)
      (GovernanceSnapshot.load store economics).economics (treasuryCut economics fees)
    rw [StakingSnapshot.fund] at hslashing
    rw [hslashing] at h
    rcases hslash : ((StakingSnapshot.load store).ensureValidators e.validators).applyDowntimeSlashing
      (GovernanceSnapshot.load store economics).economics with err | slashed
    · rw [hslash] at h
      cases h
    · rw [hslash] at h
      obtain ⟨-, rfl⟩ := Prod.mk.inj (Except.ok.inj h)
      have hsame : slashed.atStake = (StakingSnapshot.load store).atStake :=
        (StakingSnapshot.atStake_applyDowntimeSlashing hslash).trans
          (StakingSnapshot.atStake_ensureValidators _)
      have hdropped := (slashed.fund (treasuryCut economics fees)).atStake_settleEpochRewards 0 0
        (GovernanceSnapshot.load store economics).economics
      have hiff := (slashed.fund (treasuryCut economics fees)).atStake_settleEpochRewards_iff 0 0
        (GovernanceSnapshot.load store economics).economics
      rw [StakingSnapshot.atStake_fund, hsame] at hdropped hiff
      refine ⟨_, rfl, ?_⟩
      rw [if_pos hcloses]
      exact ⟨slashed, rfl, hiff, Nat.le.intro hdropped⟩
  · rw [if_neg hcloses] at h
    obtain ⟨-, rfl⟩ := Prod.mk.inj (Except.ok.inj h)
    refine ⟨_, rfl, ?_⟩
    rw [if_neg hcloses]
    rfl

/-- The store has the accounts and the staking state of a prepared block. -/
structure Settled (d : Disk) (p : PreparedBlock) (d' : Disk) : Prop where
  accounts : d'.store.accounts = p.state
  staking : StakingSnapshot.load d'.store =
    p.accounting.staking.getD (StakingSnapshot.load d.store)

lemma OnlyEvmWrites.load_staking {d d' : Disk} (h : OnlyEvmWrites d d') :
    StakingSnapshot.load d'.store = StakingSnapshot.load d.store := by
  rw [StakingSnapshot.load, h.store_eq]
  rfl

lemma OnlyEvmWrites.value {d d' : Disk} (h : OnlyEvmWrites d d') :
    d'.store.value = d.store.value := by
  rw [Store.value, Store.value, h.load_staking, h.store_eq]

variable [Revm]

lemma settled_of_validateAndCommit {scheme : SignatureScheme} {finalized : FinalizedBlock}
    {d d' : Disk} (h : e.validateAndCommitFinalizedBlock scheme finalized d = .ok ⟨⟩ d') :
    ∃ p d₁, Prepares e scheme finalized.block d p d₁ ∧ Settled d p d' := by
  obtain ⟨p, d₁, hp, -, -, rfl⟩ := validateAndCommit_ok_iff.mp h
  refine ⟨p, d₁, hp, ?_, ?_⟩
  · rw [accounts_accountingWrites]
    show Table.insertAll (Table.insertAll d₁.store.accounts p.state.toList) _ = p.state
    rw [hp.insertAll_accounts, Table.insertAll_toList_of_subset fun _ h => h]
  · rw [load_accountingWrites, ← hp.onlyEvmWrites.load_staking]
    rfl

lemma settled_of_executeAndCommit {scheme : SignatureScheme} {block : Block}
    {certificate : CommitCertificate} {d d' : Disk}
    (h : executeAndCommit e scheme block certificate d = .ok ⟨⟩ d') :
    ∃ p d₁, Prepares e scheme block d p d₁ ∧ Settled d p d' := by
  rw [executeAndCommit] at h
  obtain ⟨r, d₂, hrun, hcommit⟩ := Handler.bind_eq_ok_iff.mp h
  obtain ⟨p, d₁, hp, rfl, rfl⟩ := executeBlock_ok_iff.mp hrun
  cases hcommit
  refine ⟨p, d₁, hp, ?_, ?_⟩
  · show Table.insertAll (d₁.recordAll (accountingWrites p)).store.accounts p.state.toList = p.state
    rw [accounts_accountingWrites, hp.insertAll_accounts,
      Table.insertAll_toList_of_subset fun _ h => h]
  · rw [← hp.onlyEvmWrites.load_staking, ← load_accountingWrites]
    rfl

/-- **One block.**  Where the treasury takes no more than the fees, the sum is what it was less what
is burned and what the settlement drops. -/
lemma Settled.value_iff {config : NodeConfig} {block : Block} {d d₁ d' : Disk} {p : PreparedBlock}
    (hp : Prepares config.engine config.scheme block d p d₁) (h : Settled d p d')
    (hfits : d.store.value < 2 ^ 128)
    (hshare : treasuryCut config.genesis.economics (feeSum block.transactions) ≤
      feeSum block.transactions) :
    d'.store.value = d.store.value ↔
      (∀ tx ∈ block.transactions, tx.body.evm.isSome → tx.body.amount = 0) ∧
        SettlesInFull config d.store block.header.height := by
  obtain ⟨hsupply, -⟩ := hp.supply (lt_of_le_of_lt (Nat.le_add_right _ _) hfits) (by
    rintro _ ⟨⟩
    exact hshare)
  obtain ⟨state, -, haccounting⟩ := hp.replay
  obtain ⟨staking, hstaking, hsettles⟩ := staking_applyBlockAccounting rfl haccounting
  have hload := h.staking
  rw [hstaking, Option.getD_some] at hload
  rw [hp.onlyEvmWrites.load_staking] at hsettles
  have hgovernance : GovernanceSnapshot.load d₁.store config.genesis.economics =
      GovernanceSnapshot.load d.store config.genesis.economics := by
    rw [GovernanceSnapshot.load, hp.onlyEvmWrites.store_eq]
    rfl
  rw [hgovernance] at hsettles
  rw [← burnedBy_eq_zero_iff, Store.value, Store.value, h.accounts, hload]
  rw [StateSnapshot.load] at hsupply
  rw [SettlesInFull]
  by_cases hcloses : ClosesEpoch config.genesis.economics block.header.height
  · rw [if_pos hcloses] at hsettles
    obtain ⟨slashed, hslash, hiff, hle⟩ := hsettles
    have hfull : (ClosesEpoch config.genesis.economics block.header.height →
        ∀ slashed : StakingSnapshot,
        ((StakingSnapshot.load d.store).ensureValidators
          config.genesis.validators).applyDowntimeSlashing
            (GovernanceSnapshot.load d.store config.genesis.economics).economics = .ok slashed →
          slashed.SettlesInFull) ↔ slashed.SettlesInFull := by
      constructor
      · exact fun hall => hall hcloses slashed hslash
      · intro hall _ slashed' hslash'
        obtain rfl := Except.ok.inj (hslash.symm.trans hslash')
        exact hall
    rw [hfull, ← hiff]
    omega
  · rw [if_neg hcloses] at hsettles
    rw [hsettles, and_iff_left fun hc => absurd hc hcloses]
    omega

omit [Revm] in
/-- The disk of a start before the validators bond. -/
def prepared (genesis : Genesis) (stored : Bool) (d : Disk) : Disk :=
  let d := if stored then d else d.recordAll (StateSnapshot.writes genesis.accounts)
  d.record (.write (.putGovernanceState (GovernanceSnapshot.load d.store genesis.economics)))

omit [Revm] in
lemma prepared_store (genesis : Genesis) (stored : Bool) (d : Disk) :
    (prepared genesis stored d).store.accounts = (if stored then d.store.accounts
      else Table.insertAll d.store.accounts genesis.accounts.toList) ∧
    StakingSnapshot.load (prepared genesis stored d).store = StakingSnapshot.load d.store := by
  cases stored with
  | true => exact ⟨rfl, rfl⟩
  | false =>
    refine ⟨accounts_recordAll_writes _ d, ?_⟩
    exact congrArg (fun staking : Option StakingState => staking.getD {})
      (stakingState_writes genesis.accounts d)

omit [Revm] in
lemma bootstrapGenesis_run (genesis : Genesis) (stored : Bool) (d : Disk) :
    bootstrapGenesis genesis stored d =
      match bondValidators genesis genesis.validators
        ((StakingSnapshot.load d.store).ensureValidators genesis.validators) with
      | .error message => .error message (prepared genesis stored d)
      | .ok staking =>
        .ok ⟨⟩ ((prepared genesis stored d).record (.write (.putStakingState staking))) := by
  rw [← (prepared_store genesis stored d).2]
  have hrun : bootstrapGenesis genesis stored d =
      (match bondValidators genesis genesis.validators
        ((StakingSnapshot.load (prepared genesis stored d).store).ensureValidators
          genesis.validators) with
      | .error message => throw message
      | .ok staking => write (.putStakingState staking)) (prepared genesis stored d) := by
    cases stored <;> rfl
  rw [hrun]
  rcases bondValidators genesis genesis.validators
    ((StakingSnapshot.load (prepared genesis stored d).store).ensureValidators genesis.validators)
    with message | staking <;> rfl

/-! ## Operations -/

variable (config : NodeConfig) {g : GenesisDisk}

/-- **A start.** -/
lemma value_bootstrap_iff (hfits : g.endowment config < 2 ^ 128) :
    (g.step config .bootstrap).disk.store.value = g.endowment config ↔
      g.Conserves config .bootstrap := by
  obtain ⟨haccounts, hstaking⟩ := prepared_store config.genesis g.genesis.isSome g.disk
  have hfit : ((StakingSnapshot.load g.disk.store).ensureValidators
      config.genesis.validators).BondsFit :=
    StakingSnapshot.bondsFit_of_atStake (lt_of_le_of_lt (Nat.le_add_left _ _) hfits)
  have hbootable := bondValidators_ok_iff config.genesis config.genesis.validators
    ((StakingSnapshot.load g.disk.store).ensureValidators config.genesis.validators)
    fun v hv => StakingSnapshot.isSome_ensureValidators.mpr (.inl (List.mem_map_of_mem hv))
  show (Handler.final (bootstrapGenesis config.genesis g.genesis.isSome g.disk)).store.value = _ ↔
    (config.genesis.Bootable → _)
  rw [bootstrapGenesis_run]
  rcases hbond : bondValidators config.genesis config.genesis.validators
    ((StakingSnapshot.load g.disk.store).ensureValidators config.genesis.validators)
    with message | staking
  · refine iff_of_true ?_ fun h => ?_
    · rw [Handler.final_error, Store.value, haccounts, hstaking, GenesisDisk.endowment]
    · rw [hbond] at hbootable
      exact absurd (hbootable.mpr h) (by simp)
  · have hboots : config.genesis.Bootable := hbootable.mp ⟨staking, hbond⟩
    have hiff := (atStake_bondValidators hfit hbond).2
    rw [StakingSnapshot.atStake_ensureValidators] at hiff
    rw [Handler.final_ok, forall_prop_of_true hboots]
    show StateSnapshot.supply (prepared config.genesis g.genesis.isSome g.disk).store.accounts +
      staking.atStake = _ ↔ _
    rw [haccounts, GenesisDisk.endowment, Nat.add_left_cancel_iff, hiff]
    rfl

/-- **A registration.** -/
lemma value_registerValidator_iff (hfits : g.disk.store.value < 2 ^ 128)
    (request : ValidatorJoinRequest) :
    (g.step config (.registerValidator request)).disk.store.value = g.disk.store.value ↔
      g.Conserves config (.registerValidator request) := by
  show (Handler.final (ZenoChain.registerValidator config request g.disk)).store.value = _ ↔
    ∀ address, config.scheme.deriveAddress request.publicKey = .ok address → _
  rw [ZenoChain.registerValidator]
  rcases config.scheme.deriveAddress request.publicKey with err | address
  · exact iff_of_true rfl fun _ h => by cases h
  · dsimp only
    by_cases hlow : request.selfBond < config.genesis.economics.minimumSelfBond
    · rw [if_pos hlow]
      refine iff_of_true rfl fun address' haddress' hle => absurd hlow (not_lt.mpr hle)
    · rw [if_neg hlow, Handler.bind_ok (readStore_run g.disk)]
      rcases hdelegate : ((StakingSnapshot.load g.disk.store).ensureValidators
        [joiningValidator request address]).delegate address address request.selfBond true with
        err | staking
      · have hnone := StakingSnapshot.delegate_eq_error hdelegate
        have hsome : ((StakingSnapshot.load g.disk.store).ensureValidators
            [joiningValidator request address]).validators[address]?.isSome :=
          StakingSnapshot.isSome_ensureValidators.mpr (.inl List.mem_cons_self)
        rw [hnone] at hsome
        cases hsome
      · have hfit : ((StakingSnapshot.load g.disk.store).ensureValidators
            [joiningValidator request address]).BondsFit :=
          StakingSnapshot.bondsFit_of_atStake (lt_of_le_of_lt (Nat.le_add_left _ _) hfits)
        have hiff := (StakingSnapshot.atStake_delegate_iff hfit hdelegate).2
        rw [StakingSnapshot.atStake_ensureValidators] at hiff
        show StateSnapshot.supply g.disk.store.accounts + staking.atStake =
          StateSnapshot.supply g.disk.store.accounts + _ ↔ _
        rw [Nat.add_left_cancel_iff, hiff]
        constructor
        · rintro hnothing address' ⟨⟩ -
          exact hnothing
        · exact fun h => h address rfl (not_lt.mp hlow)

/-- **A commit**, by replay or after local finalization: a block that is refused writes EVM accounts
only, and one that is not leaves its state. -/
lemma value_commit {block : Block} {m : StoreM ExecutionError PUnit}
    (hok : ∀ d', m g.disk = .ok ⟨⟩ d' → ∃ p d₁,
      Prepares config.engine config.scheme block g.disk p d₁ ∧ Settled g.disk p d')
    (herror : ∀ err d', m g.disk = .error err d' → OnlyEvmWrites g.disk d')
    (hfits : g.disk.store.value < 2 ^ 128) :
    (((∃ d', m g.disk = .ok ⟨⟩ d') → BlockConserves config g.disk.store block) →
      (Handler.final (m g.disk)).store.value = g.disk.store.value) ∧
    (config.genesis.economics.treasuryBps ≤ 10000 →
      (Handler.final (m g.disk)).store.value = g.disk.store.value →
      (∃ d', m g.disk = .ok ⟨⟩ d') → BlockConserves config g.disk.store block) := by
  rcases hrun : m g.disk with ⟨_, d'⟩ | ⟨err, d'⟩
  · obtain ⟨p, d₁, hp, hsettled⟩ := hok d' hrun
    rw [Handler.final_ok]
    constructor
    · intro h
      obtain ⟨hshare, hpayloads, hsettles⟩ := h ⟨d', rfl⟩
      exact (hsettled.value_iff hp hfits hshare).mpr ⟨hpayloads, hsettles⟩
    · intro hbps hkept _
      have hshare := treasuryCut_le hbps (feeSum block.transactions)
      obtain ⟨hpayloads, hsettles⟩ := (hsettled.value_iff hp hfits hshare).mp hkept
      exact ⟨hshare, hpayloads, hsettles⟩
  · rw [Handler.final_error]
    refine ⟨fun _ => (herror err d' hrun).value, fun _ _ hsucceeds => ?_⟩
    obtain ⟨d'', hok'⟩ := hsucceeds
    cases hok'

/-- **One operation** of a node that has been started. -/
lemma value_step (hstarted : g.genesis.isSome) (hfits : g.disk.store.value < 2 ^ 128)
    (event : StakeEvent) :
    (g.Conserves config event → (g.step config event).disk.store.value = g.disk.store.value) ∧
    (config.genesis.economics.treasuryBps ≤ 10000 →
      (g.step config event).disk.store.value = g.disk.store.value → g.Conserves config event) := by
  have hstart : g.endowment config = g.disk.store.value := by
    rw [GenesisDisk.endowment, if_pos hstarted, Store.value]
  cases event with
  | bootstrap =>
    rw [← hstart] at hfits ⊢
    have hiff := value_bootstrap_iff config hfits
    exact ⟨hiff.mpr, fun _ => hiff.mp⟩
  | registerValidator request =>
    have hiff := value_registerValidator_iff config hfits request
    exact ⟨hiff.mpr, fun _ => hiff.mp⟩
  | imported finalized =>
    exact value_commit config (fun d' hok => settled_of_validateAndCommit hok)
      (fun err d' herror => onlyEvmWrites_of_error herror) hfits
  | finalized block certificate =>
    exact value_commit config (fun d' hok => settled_of_executeAndCommit hok)
      (fun err d' herror => onlyEvmWrites_of_executeAndCommit_error herror) hfits
  | settleEpoch totalFees rewardBudget params =>
    have hiff := (StakingSnapshot.load g.disk.store).atStake_settleEpochRewards_iff totalFees
      rewardBudget params
    rw [← Nat.add_left_cancel_iff (n := StateSnapshot.supply g.disk.store.accounts)] at hiff
    exact ⟨hiff.mpr, fun _ => hiff.mp⟩

end

/-! ## Runs -/

section

variable [Hashing] [Revm] (config : NodeConfig) {g : GenesisDisk}

lemma isSome_genesis_step (hstarted : g.genesis.isSome) (event : StakeEvent) :
    (g.step config event).genesis.isSome := by
  cases event <;> first | rfl | exact hstarted

/-- A run of a node that has been started. -/
lemma value_along {value : ℕ} (hstarted : g.genesis.isSome) (hvalue : g.disk.store.value = value)
    (hfits : value < 2 ^ 128) (events : List StakeEvent) :
    ((∀ e ∈ Trace.along (GenesisDisk.step config) g events, e.1.Conserves config e.2) →
      ∀ e ∈ Trace.along (GenesisDisk.step config) g events,
        (e.1.step config e.2).disk.store.value = value) ∧
    (config.genesis.economics.treasuryBps ≤ 10000 →
      (∀ e ∈ Trace.along (GenesisDisk.step config) g events,
        (e.1.step config e.2).disk.store.value = value) →
      ∀ e ∈ Trace.along (GenesisDisk.step config) g events, e.1.Conserves config e.2) := by
  induction events generalizing g with
  | nil =>
    exact ⟨fun _ e he => absurd he List.not_mem_nil, fun _ _ e he => absurd he List.not_mem_nil⟩
  | cons event events ih =>
    obtain ⟨hkeeps, hconserves⟩ := value_step config hstarted (hvalue ▸ hfits) event
    have hnext := isSome_genesis_step config hstarted event
    rw [Trace.along, List.forall_mem_cons, List.forall_mem_cons]
    constructor
    · rintro ⟨hfirst, hrest⟩
      have hsame := (hkeeps hfirst).trans hvalue
      exact ⟨hsame, (ih hnext hsame).1 hrest⟩
    · rintro hbps ⟨hsame, hrest⟩
      exact ⟨hconserves hbps (hsame.trans hvalue.symm), (ih hnext hsame).2 hbps hrest⟩

/-- **Stake and balances.**  In a run that begins with the start of a node, on any disk, the sum of
all native balances, delegations and pending unbondings stays what it was, if every operation
conserves it; and where the treasury's share is one, only then. -/
theorem value_run_constant (config : NodeConfig) (g : GenesisDisk)
    (hfits : g.endowment config < 2 ^ 128) (events : List StakeEvent) :
    ((∀ e ∈ Trace.along (GenesisDisk.step config) g (.bootstrap :: events),
        e.1.Conserves config e.2) →
      ∀ l m, events = l ++ m → ((StakeEvent.bootstrap :: l).foldl (GenesisDisk.step config)
        g).disk.store.value = g.endowment config) ∧
    (config.genesis.economics.treasuryBps ≤ 10000 →
      (∀ l m, events = l ++ m → ((StakeEvent.bootstrap :: l).foldl (GenesisDisk.step config)
        g).disk.store.value = g.endowment config) →
      ∀ e ∈ Trace.along (GenesisDisk.step config) g (.bootstrap :: events),
        e.1.Conserves config e.2) := by
  have hstart := value_bootstrap_iff config hfits
  have hprefixes : (∀ l m, events = l ++ m → ((StakeEvent.bootstrap :: l).foldl
      (GenesisDisk.step config) g).disk.store.value = g.endowment config) ↔
      (g.step config .bootstrap).disk.store.value = g.endowment config ∧
      ∀ e ∈ Trace.along (GenesisDisk.step config) (g.step config .bootstrap) events,
        (e.1.step config e.2).disk.store.value = g.endowment config :=
    Trace.forall_prefix_iff (P := fun n : GenesisDisk => n.disk.store.value = g.endowment config)
  rw [Trace.along, List.forall_mem_cons]
  constructor
  · rintro ⟨hbootstrap, hrest⟩
    have hvalue := hstart.mpr hbootstrap
    exact hprefixes.mpr ⟨hvalue, (value_along config rfl hvalue hfits events).1 hrest⟩
  · intro hbps hall
    obtain ⟨hvalue, hrest⟩ := hprefixes.mp hall
    exact ⟨hstart.mp hvalue, (value_along config rfl hvalue hfits events).2 hbps hrest⟩

end

/-! ## Two starts -/

section

open Transparent

/-- A node whose only validator holds a hundred units, with a given minimum self-bond. -/
def soloNode (minimumSelfBond : ℕ) : NodeConfig :=
  { chainId := "zeno", scheme
    genesis :=
      { faucetNode.genesis with
        accounts := holding [([1], 100)]
        validators := [⟨"v", 1, "", "", [1], address [1]⟩]
        economics := { faucetNode.genesis.economics with minimumSelfBond } } }

/-- A disk on which nothing is stored. -/
def emptyDisk : GenesisDisk := { disk := { store := { backend := .memory } } }

/-- The self-bond of one unit is made from nothing, and again with every start. -/
theorem bootstrap_mints : emptyDisk.endowment (soloNode 1) = 100 ∧
    ([StakeEvent.bootstrap].foldl (GenesisDisk.step (soloNode 1))
      emptyDisk).disk.store.value = 101 ∧
    ([StakeEvent.bootstrap, .bootstrap].foldl (GenesisDisk.step (soloNode 1))
      emptyDisk).disk.store.value = 102 := by
  decide +kernel

/-- Without a minimum, a start, a registration that bonds nothing and a settlement keep the
hundred units. -/
theorem bondless_run_constant :
    ([StakeEvent.bootstrap, .registerValidator ⟨[2], "", "", 0⟩,
        .settleEpoch 0 0 faucetNode.genesis.economics].foldl (GenesisDisk.step (soloNode 0))
      emptyDisk).disk.store.value = 100 := by
  have hendowment : emptyDisk.endowment (soloNode 0) = 100 := by decide +kernel
  rw [← hendowment]
  refine (value_run_constant (soloNode 0) emptyDisk (by rw [hendowment]; decide) _).1 ?_ _ []
    (List.append_nil _).symm
  simp only [Trace.along, List.forall_mem_cons]
  refine ⟨fun _ _ _ => .inl rfl, fun _ _ _ => .inl rfl, ?_,
    fun _ he => absurd he List.not_mem_nil⟩
  have hnone : (StakingSnapshot.load (((emptyDisk.step (soloNode 0) .bootstrap).step (soloNode 0)
      (.registerValidator ⟨[2], "", "", 0⟩)).disk.store)).matured = [] := by
    decide +kernel
  intro entry hentry
  rw [hnone] at hentry
  cases hentry

end

end ZenoChain
