/-
# Starting a node again

Every start of a node runs the bootstrap.  The accounts of the genesis are put once, but the genesis
validators bond with every start.  So a start changes no stake exactly if there is nothing to bond:
the genesis asks for no self-bond, or the bonds and stakes have no room left.
-/
import ZenoChain.Node.Actions
import ZenoChain.State.Delegations

namespace ZenoChain

open Word ExecutionEngine

/-! ## Self-bonds -/

namespace StakingSnapshot

/-- A validator has a record and a delegation to itself, with amounts of 128 bits. -/
def SelfBonded (s : StakingSnapshot) (a : Address) : Prop :=
  (∃ v, s.validators[a]? = some v ∧ v.selfBond ≤ maxValue 128 ∧ v.totalStake ≤ maxValue 128) ∧
    ∃ d, s.delegations[(a, a)]? = some d ∧ d.amount ≤ maxValue 128

/-- The delegation of a validator to itself, its self-bond and its stake are the largest. -/
def FullyBonded (s : StakingSnapshot) (a : Address) : Prop :=
  s.bond (a, a) = maxValue 128 ∧ ∃ v, s.validators[a]? = some v ∧
    v.selfBond = maxValue 128 ∧ v.totalStake = maxValue 128

variable {s s' : StakingSnapshot} {a b : Address} {amount : ℕ}

/-- The writes of a self-bond. -/
lemma delegate_self {v : ValidatorStake} (hv : s.validators[a]? = some v) (amount : ℕ) :
    s.delegate a a amount true = .ok { s with
      delegations := s.delegations.insert (a, a)
        { s.delegations.getD (a, a) ⟨a, a, 0⟩ with
          amount := saturatingAdd 128 (s.delegations.getD (a, a) ⟨a, a, 0⟩).amount amount }
      validators := s.validators.insert a
        { v with
          totalStake := saturatingAdd 128 v.totalStake amount
          selfBond := saturatingAdd 128 v.selfBond amount } } := by
  rw [delegate, hv]
  rfl

/-- A self-bond makes a validator self-bonded. -/
lemma selfBonded_delegate_self (h : s.delegate a a amount true = .ok s') : s'.SelfBonded a := by
  rcases hv : s.validators[a]? with _ | v
  · rw [delegate, hv] at h
    cases h
  · rw [delegate_self hv] at h
    cases h
    refine ⟨⟨_, (Table.getElem?_insert _ _ _ _).trans (if_pos rfl), ?_⟩,
      _, (Table.getElem?_insert _ _ _ _).trans (if_pos rfl), Nat.min_le_right _ _⟩
    exact ⟨Nat.min_le_right _ _, Nat.min_le_right _ _⟩

lemma SelfBonded.delegate_self (hb : s.SelfBonded b) (h : s.delegate a a amount true = .ok s') :
    s'.SelfBonded b := by
  by_cases hab : b = a
  · rw [hab]
    exact selfBonded_delegate_self h
  · obtain ⟨⟨v, hv, hfits⟩, d, hd, hamount⟩ := hb
    rcases ha : s.validators[a]? with _ | w
    · rw [delegate, ha] at h
      cases h
    · rw [StakingSnapshot.delegate_self ha] at h
      cases h
      refine ⟨⟨v, ?_, hfits⟩, d, ?_, hamount⟩
      · rw [Table.getElem?_insert, if_neg hab]
        exact hv
      · rw [Table.getElem?_insert, if_neg fun hc => hab (Prod.mk.inj hc).1]
        exact hd

lemma SelfBonded.slash (hb : s.SelfBonded b) {bps : ℕ} {reason : String} {jail : Bool}
    (h : s.slash a bps reason jail = .ok s') : s'.SelfBonded b := by
  obtain ⟨⟨v, hv, hself, htotal⟩, d, hd, hamount⟩ := hb
  rw [StakingSnapshot.slash] at h
  split at h
  · cases h
  · rename_i w hw
    cases h
    refine ⟨?_, ?_⟩
    · dsimp only
      rw [Table.getElem?_insert]
      split
      · rename_i hab
        rw [hab, hw] at hv
        cases hv
        refine ⟨_, rfl, (Nat.min_le_left _ _).trans hself, ?_⟩
        exact (Nat.sub_le _ _).trans htotal
      · exact ⟨v, hv, hself, htotal⟩
    · dsimp only
      split
      · rw [Std.ExtTreeMap.getElem?_map, hd]
        refine ⟨_, rfl, ?_⟩
        dsimp only
        split
        · exact Nat.zero_le _
        · exact hamount
      · exact ⟨d, hd, hamount⟩

/-- Self-bonded validators stay self-bonded. -/
lemma stable_selfBonded (a : Address) : Stable fun s => s.SelfBonded a where
  ensure := by
    rintro s vs ⟨⟨v, hv, hfits⟩, hbond⟩
    refine ⟨⟨v, ?_, hfits⟩, hbond⟩
    rw [getElem?_ensureValidators, hv]
    split <;> rfl
  note := by
    rintro s b s' h ⟨⟨v, hv, hfits⟩, hbond⟩
    obtain ⟨w, hw, rfl⟩ := noteLiveness_ok_iff.mp h
    refine ⟨?_, hbond⟩
    dsimp only
    rw [Table.getElem?_insert]
    split
    · rename_i hab
      rw [hab, hw] at hv
      cases hv
      exact ⟨_, rfl, hfits⟩
    · exact ⟨v, hv, hfits⟩
  slash := fun _ _ _ _ _ _ h hb => hb.slash h
  fund := fun _ _ hb => hb
  settle := by
    rintro s totalFees rewardBudget params ⟨⟨v, hv, hfits⟩, hbond⟩
    refine ⟨⟨v, ?_, hfits⟩, ?_⟩
    · rw [validators_settleEpochRewards]
      exact hv
    · rw [delegations_settleEpochRewards]
      exact hbond

/-- The delegation of a validator to itself, its self-bond and its stake. -/
def selfStake (s : StakingSnapshot) (a : Address) : ℕ × ℕ × ℕ :=
  (s.bond (a, a), (s.validators[a]?.map ValidatorStake.selfBond).getD 0,
    (s.validators[a]?.map ValidatorStake.totalStake).getD 0)

lemma selfStake_delegate_self (h : s.delegate a a amount true = .ok s') (b : Address) :
    s'.selfStake b =
      if b = a then (saturatingAdd 128 (s.selfStake a).1 amount,
        saturatingAdd 128 (s.selfStake a).2.1 amount, saturatingAdd 128 (s.selfStake a).2.2 amount)
      else s.selfStake b := by
  have hbond := (bond_delegate h).1 (b, b)
  rcases hv : s.validators[a]? with _ | v
  · rw [delegate, hv] at h
    cases h
  · rw [delegate_self hv] at h
    cases h
    simp only [selfStake, hbond, Table.getElem?_insert, Prod.mk.injEq, and_self]
    split
    · rw [hv]
      rfl
    · rfl

/-- Only a self-bond of nothing, or one without room, leaves the state as it is. -/
lemma delegate_self_eq_iff (hb : s.SelfBonded a) (h : s.delegate a a amount true = .ok s') :
    (s' = s ↔ amount = 0 ∨ s.FullyBonded a) ∧
      (s'.selfStake a = s.selfStake a → s' = s) := by
  obtain ⟨⟨v, hv, hself, htotal⟩, d, hd, hamount⟩ := hb
  have hbond : s.bond (a, a) = d.amount := by
    rw [bond, hd]
    rfl
  have hstake : s.selfStake a = (d.amount, v.selfBond, v.totalStake) := by
    rw [selfStake, hbond, hv]
    rfl
  have hwritten : saturatingAdd 128 d.amount amount = d.amount ∧
      saturatingAdd 128 v.selfBond amount = v.selfBond ∧
      saturatingAdd 128 v.totalStake amount = v.totalStake → s' = s := by
    rintro ⟨hd', hself', htotal'⟩
    have hold : s.delegations.getD (a, a) ⟨a, a, 0⟩ = d := by
      rw [Std.ExtTreeMap.getD_eq_getD_getElem?, hd]
      rfl
    rw [StakingSnapshot.delegate_self hv, hold, hd', hself', htotal'] at h
    cases h
    rw [Table.insert_of_getElem? hd, Table.insert_of_getElem? hv]
  have hmoved := selfStake_delegate_self h a
  rw [if_pos rfl, hstake] at hmoved
  dsimp only at hmoved
  refine ⟨⟨fun hsame => ?_, fun hroom => hwritten ?_⟩, fun hsame => hwritten ?_⟩
  · rw [hsame, hstake, Prod.mk.injEq, Prod.mk.injEq] at hmoved
    simp only [saturatingAdd] at hmoved
    by_cases hzero : amount = 0
    · exact .inl hzero
    · refine .inr ⟨?_, v, hv, ?_, ?_⟩ <;> omega
  · rcases hroom with rfl | ⟨hfull, w, hw, hself', htotal'⟩
    · simp only [saturatingAdd, Nat.add_zero]
      exact ⟨Nat.min_eq_left hamount, Nat.min_eq_left hself, Nat.min_eq_left htotal⟩
    · rw [hv] at hw
      cases hw
      simp only [saturatingAdd]
      omega
  · rw [hsame, hstake, Prod.mk.injEq, Prod.mk.injEq] at hmoved
    exact ⟨hmoved.1.symm, hmoved.2.1.symm, hmoved.2.2.symm⟩

/-- A self-bond lowers nobody's. -/
lemma SelfBonded.selfStake_le (hb : s.SelfBonded a) (h : s.delegate a a amount true = .ok s')
    (b : Address) : s.selfStake b ≤ s'.selfStake b := by
  rw [selfStake_delegate_self h]
  split
  · rename_i hab
    obtain ⟨⟨v, hv, hself, htotal⟩, d, hd, hamount⟩ := hb
    have hstake : s.selfStake a = (d.amount, v.selfBond, v.totalStake) := by
      rw [selfStake, bond, hd, hv]
      rfl
    rw [hab, hstake]
    exact ⟨le_min (Nat.le_add_right _ _) hamount, le_min (Nat.le_add_right _ _) hself,
      le_min (Nat.le_add_right _ _) htotal⟩
  · exact le_rfl

end StakingSnapshot

/-! ## The self-bonds of a genesis -/

section

variable {genesis : Genesis} {staking staking' : StakingSnapshot} {vs : List Validator}

/-- Who was self-bonded, and who bonds, is self-bonded. -/
lemma selfBonded_bondValidators (h : bondValidators genesis vs staking = .ok staking')
    {a : Address} (ha : staking.SelfBonded a ∨ a ∈ vs.map Validator.address) :
    staking'.SelfBonded a := by
  induction vs generalizing staking with
  | nil =>
    cases h
    exact ha.resolve_right List.not_mem_nil
  | cons v vs ih =>
    obtain ⟨s₁, hdelegate, hrest⟩ := bondValidators_cons h
    refine ih hrest ?_
    rcases ha with ha | ha
    · exact .inl (ha.delegate_self hdelegate)
    · rcases List.mem_cons.mp ha with rfl | ha
      · exact .inl (StakingSnapshot.selfBonded_delegate_self hdelegate)
      · exact .inr ha

lemma selfStake_bondValidators_le (hbonded : ∀ v ∈ vs, staking.SelfBonded v.address)
    (h : bondValidators genesis vs staking = .ok staking') (a : Address) :
    staking.selfStake a ≤ staking'.selfStake a := by
  induction vs generalizing staking with
  | nil =>
    cases h
    exact le_rfl
  | cons v vs ih =>
    obtain ⟨s₁, hdelegate, hrest⟩ := bondValidators_cons h
    refine ((hbonded v List.mem_cons_self).selfStake_le hdelegate a).trans (ih ?_ hrest)
    exact fun u hu => (hbonded u (List.mem_cons_of_mem _ hu)).delegate_self hdelegate

/-- **Bonding again** changes nothing exactly if no bond does. -/
theorem bondValidators_eq_iff (hbonded : ∀ v ∈ vs, staking.SelfBonded v.address)
    (h : bondValidators genesis vs staking = .ok staking') :
    staking' = staking ↔ ∀ v ∈ vs,
      genesis.economics.minimumSelfBond = 0 ∨ staking.FullyBonded v.address := by
  induction vs generalizing staking with
  | nil =>
    cases h
    exact iff_of_true rfl nofun
  | cons v vs ih =>
    obtain ⟨s₁, hdelegate, hrest⟩ := bondValidators_cons h
    rw [List.forall_mem_cons] at hbonded ⊢
    obtain ⟨hfirst, hstake⟩ := StakingSnapshot.delegate_self_eq_iff hbonded.1 hdelegate
    have hbonded₁ : ∀ u ∈ vs, s₁.SelfBonded u.address :=
      fun u hu => (hbonded.2 u hu).delegate_self hdelegate
    rw [← hfirst]
    constructor
    · -- Nothing is lowered in between, so the first bond has changed nothing.
      rintro rfl
      have hsame : s₁ = staking' := hstake (le_antisymm
        (selfStake_bondValidators_le hbonded₁ hrest v.address)
        (hbonded.1.selfStake_le hdelegate v.address))
      subst hsame
      exact ⟨rfl, (ih hbonded₁ hrest).mp rfl⟩
    · rintro ⟨rfl, hall⟩
      exact (ih hbonded₁ hrest).mpr hall

end

/-! ## Nodes that have been started -/

/-- The store has a staking state and a governance state. -/
def Store.Booted (s : Store) : Prop := s.stakingState.isSome ∧ s.governanceState.isSome

lemma Store.Booted.recordAll [Hashing] {d : Disk} (h : d.store.Booted) (es : List Effect) :
    (d.recordAll es).store.Booted := by
  induction es generalizing d with
  | nil => exact h
  | cons x es ih =>
    refine ih ?_
    rcases x with w | _ | _ | _ | _
    · cases w with
      | putStakingState => exact ⟨rfl, h.2⟩
      | putGovernanceState => exact ⟨h.1, rfl⟩
      | compactConsensusWal height =>
        obtain ⟨wal, heq⟩ := d.store.compactConsensusWal_eq height
        rw [Disk.store_record_write, Store.apply, heq]
        exact h
      | _ => exact h
    all_goals exact h

section

variable [Hashing] [Revm] {config : NodeConfig} {g : GenesisDisk}

/-- The disk of a node whose first start has succeeded, after any further starts, events of the
node and events of the consensus engine. -/
inductive GenesisDisk.Started (config : NodeConfig) : GenesisDisk → Prop
  | boot (g : GenesisDisk) (d' : Disk)
      (succeeds : bootstrapGenesis config.genesis g.genesis.isSome g.disk = .ok ⟨⟩ d') :
      Started config (g.step config .bootstrap)
  | again (g : GenesisDisk) (started : Started config g) :
      Started config (g.step config .bootstrap)
  | serve (g : GenesisDisk) (started : Started config g) (n : Node) (same : n.disk = g.disk)
      (event : NodeEvent) : Started config { g with disk := (n.handle config event).disk }
  | decide (g : GenesisDisk) (started : Started config g) (e : ConsensusEngine) (w : World)
      (same : w.disk = g.disk) (event : Event) :
      Started config { g with disk := (e.handle w event).disk }

/-- A staking and a governance state are stored, and the validators of the genesis are bonded. -/
structure Disk.Bonded (genesis : Genesis) (d : Disk) : Prop where
  booted : d.store.Booted
  validators : ∀ v ∈ genesis.validators, (StakingSnapshot.load d.store).SelfBonded v.address

namespace Disk.Bonded

variable {genesis : Genesis} {d d' : Disk}

omit [Revm] [Hashing] in
lemma congr (h : d.Bonded genesis) (hstaking : d'.store.stakingState = d.store.stakingState)
    (hgovernance : d'.store.governanceState = d.store.governanceState) : d'.Bonded genesis := by
  refine ⟨⟨hstaking ▸ h.booted.1, hgovernance ▸ h.booted.2⟩, fun v hv => ?_⟩
  rw [StakingSnapshot.load, hstaking]
  exact h.validators v hv

omit [Revm] [Hashing] in
lemma stakes (h : d.Bonded genesis) {v : Validator} (hv : v ∈ genesis.validators) :
    d.store.Stakes fun s => s.SelfBonded v.address := by
  obtain ⟨staking, hstored⟩ := Option.isSome_iff_exists.mp h.booted.1
  refine ⟨staking, hstored, ?_⟩
  have hbonded := h.validators v hv
  rwa [StakingSnapshot.load, hstored] at hbonded

/-- A block that is replayed and committed. -/
lemma replayed {x : ExecutionEngine} {scheme : SignatureScheme} {block : Block} {p : PreparedBlock}
    {d₁ : Disk} (h : d.Bonded genesis)
    (hprepares : Prepares x scheme block d p d₁) {f : FinalizedBlock} {tail : List Effect}
    (htail : tail = accountingWrites p ++ [.write (.atomicCommitBlock f p.state)] ∨
      tail = .write (.atomicCommitBlock f p.state) :: accountingWrites p) :
    (d₁.recordAll tail).Bonded genesis := by
  refine ⟨?_, fun v hv => ?_⟩
  · obtain ⟨es, -, rfl⟩ := hprepares.onlyEvmWrites.quiet
    rw [← Disk.recordAll_append]
    exact h.booted.recordAll _
  · refine ((h.stakes hv).replayed (StakingSnapshot.stable_selfBonded _).toSettling hprepares
      fun s hmem => ?_).load
    rcases htail with rfl | rfl
    · exact (List.mem_append.mp hmem).resolve_right (by simp)
    · exact (List.mem_cons.mp hmem).resolve_left nofun

omit [Revm] in
/-- A start whose self-bonds succeed. -/
lemma boot {g : GenesisDisk} {config : NodeConfig} {d' : Disk}
    (h : bootstrapGenesis config.genesis g.genesis.isSome g.disk = .ok ⟨⟩ d') :
    d'.Bonded config.genesis := by
  rw [bootstrapGenesis_run] at h
  split at h
  · cases h
  · rename_i staking hbond
    cases h
    exact ⟨⟨rfl, by cases g.genesis.isSome <;> rfl⟩, fun v hv =>
      selfBonded_bondValidators hbond (.inr (List.mem_map_of_mem hv))⟩

/-- A start, whether it succeeds or not. -/
lemma again {g : GenesisDisk} {config : NodeConfig} (h : g.disk.Bonded config.genesis)
    (hstored : g.genesis.isSome) : (g.step config .bootstrap).disk.Bonded config.genesis := by
  show (Handler.final (bootstrapGenesis config.genesis g.genesis.isSome g.disk)).Bonded _
  rcases hrun : bootstrapGenesis config.genesis g.genesis.isSome g.disk with ⟨⟨⟩, d'⟩ | ⟨err, d'⟩
  · exact boot hrun
  · rw [bootstrapGenesis_run] at hrun
    split at hrun
    · cases hrun
      rw [hstored, Handler.final_error]
      exact ⟨⟨h.booted.1, rfl⟩, h.validators⟩
    · cases hrun

/-- An event of the node. -/
lemma serve {config : NodeConfig} {n : Node} (h : n.disk.Bonded genesis) (event : NodeEvent) :
    (n.handle config event).disk.Bonded genesis := by
  rcases n.handle_cases config event with
    ⟨es, hes, heq⟩ | hreplays | ⟨request, address, staking, -, hdelegate, heq⟩
  · have hsame := sameStake_recordAll hes n.disk
    rw [heq]
    exact h.congr hsame.staking hsame.governance
  · generalize (n.handle config event).disk = d at hreplays
    obtain ⟨hprepares, f, htail⟩ := hreplays
    exact h.replayed hprepares htail
  · rw [heq]
    refine ⟨⟨rfl, h.booted.2⟩, fun v hv => ?_⟩
    exact ((StakingSnapshot.stable_selfBonded _).ensure _ _ (h.validators v hv)).delegate_self
      hdelegate

end Disk.Bonded

/-- **Every node that has been started** has its genesis stored and its validators bonded. -/
lemma GenesisDisk.Started.bonded (h : g.Started config) :
    g.genesis.isSome ∧ g.disk.Bonded config.genesis := by
  induction h with
  | boot g d' succeeds =>
    refine ⟨rfl, ?_⟩
    show (Handler.final (bootstrapGenesis config.genesis g.genesis.isSome g.disk)).Bonded _
    rw [succeeds]
    exact .boot succeeds
  | again g _ ih => exact ⟨rfl, ih.2.again ih.1⟩
  | serve g _ n same event ih => exact ⟨ih.1, .serve (same ▸ ih.2) event⟩
  | decide g _ e w same event ih =>
    refine ⟨ih.1, ?_, fun v hv => ?_⟩
    · rw [ConsensusEngine.disk_handle, same]
      exact ih.2.booted.recordAll _
    · have hstakes := ih.2.stakes hv
      rw [← same] at hstakes
      exact (hstakes.handle (StakingSnapshot.stable_selfBonded _) event).load

/-- The first start shows that the genesis bonds. -/
lemma GenesisDisk.Started.bootable (h : g.Started config) : config.genesis.Bootable := by
  induction h with
  | boot g d' succeeds =>
    refine (bondValidators_ok_iff config.genesis config.genesis.validators
      ((StakingSnapshot.load g.disk.store).ensureValidators config.genesis.validators)
      fun v hv => StakingSnapshot.isSome_ensureValidators.mpr
        (.inl (List.mem_map_of_mem hv))).mp ?_
    rw [bootstrapGenesis_run] at succeeds
    split at succeeds
    · cases succeeds
    · exact ⟨_, by assumption⟩
  | again _ _ ih => exact ih
  | serve _ _ _ _ _ ih => exact ih
  | decide _ _ _ _ _ _ ih => exact ih

/-- **Starting a node again** succeeds, and leaves the accounts, the staking state and the governance
state exactly if there is nothing to bond: the genesis asks for no self-bond, or its validators have
no room left. -/
theorem restart_keeps_iff (h : g.Started config) :
    (∃ d', bootstrapGenesis config.genesis g.genesis.isSome g.disk = .ok ⟨⟩ d') ∧
      (((g.step config .bootstrap).disk.store.accounts = g.disk.store.accounts ∧
        (g.step config .bootstrap).disk.store.stakingState = g.disk.store.stakingState ∧
        (g.step config .bootstrap).disk.store.governanceState = g.disk.store.governanceState) ↔
      ∀ v ∈ config.genesis.validators, config.genesis.economics.minimumSelfBond = 0 ∨
        (StakingSnapshot.load g.disk.store).FullyBonded v.address) := by
  obtain ⟨hstored, hbonded⟩ := h.bonded
  obtain ⟨staking, hstaking⟩ := Option.isSome_iff_exists.mp hbonded.booted.1
  obtain ⟨governance, hgovernance⟩ := Option.isSome_iff_exists.mp hbonded.booted.2
  have hknown : ∀ v ∈ config.genesis.validators,
      (StakingSnapshot.load g.disk.store).validators[v.address]?.isSome := by
    intro v hv
    obtain ⟨⟨record, hrecord, -⟩, -⟩ := hbonded.validators v hv
    exact Option.isSome_of_eq_some hrecord
  obtain ⟨staking', hbond⟩ := (bondValidators_ok_iff config.genesis config.genesis.validators
    (StakingSnapshot.load g.disk.store) hknown).mpr h.bootable
  have hrun := bootstrapGenesis_run config.genesis g.genesis.isSome g.disk
  rw [StakingSnapshot.ensureValidators_of_known hknown, hbond] at hrun
  refine ⟨⟨_, hrun⟩, ?_⟩
  have hdisk : (g.step config .bootstrap).disk =
      (g.disk.record (.write (.putGovernanceState governance))).record
        (.write (.putStakingState staking')) := by
    show Handler.final (bootstrapGenesis config.genesis g.genesis.isSome g.disk) = _
    rw [hrun, hstored, Handler.final_ok, prepared, if_pos rfl, GovernanceSnapshot.load, hgovernance]
    rfl
  rw [hdisk]
  refine Iff.trans ?_ (bondValidators_eq_iff hbonded.validators hbond)
  rw [StakingSnapshot.load, hstaking]
  show _ ∧ some staking' = some staking ∧ some governance = _ ↔ staking' = staking
  rw [hgovernance, Option.some_inj]
  exact ⟨fun hsame => hsame.2.1, fun hsame => ⟨rfl, hsame, rfl⟩⟩

end

/-! ## Bonding twice -/

section

open Transparent

/-- A node that asks for a self-bond of one unit bonds another one with its second start. -/
theorem second_start_bonds :
    ¬ ∀ (config : NodeConfig) (g : GenesisDisk), g.Started config →
      (g.step config .bootstrap).disk.store.accounts = g.disk.store.accounts ∧
      (g.step config .bootstrap).disk.store.stakingState = g.disk.store.stakingState ∧
      (g.step config .bootstrap).disk.store.governanceState = g.disk.store.governanceState := by
  intro hkeeps
  obtain ⟨d', hrun⟩ : ∃ d', bootstrapGenesis (soloNode 1).genesis emptyDisk.genesis.isSome
      emptyDisk.disk = .ok ⟨⟩ d' := ⟨_, rfl⟩
  have hsame := (hkeeps (soloNode 1) _ (.boot emptyDisk d' hrun)).2.1
  have hstake := congrArg (fun s : Option StakingState => StakingSnapshot.atStake (s.getD {})) hsame
  revert hstake
  decide +kernel

/-- Without a minimum, a second start leaves everything as it was. -/
theorem bondless_restart_keeps :
    let g := emptyDisk.step (soloNode 0) .bootstrap
    (g.step (soloNode 0) .bootstrap).disk.store.accounts = g.disk.store.accounts ∧
    (g.step (soloNode 0) .bootstrap).disk.store.stakingState = g.disk.store.stakingState ∧
    (g.step (soloNode 0) .bootstrap).disk.store.governanceState = g.disk.store.governanceState := by
  obtain ⟨d', hrun⟩ : ∃ d', bootstrapGenesis (soloNode 0).genesis emptyDisk.genesis.isSome
      emptyDisk.disk = .ok ⟨⟩ d' := ⟨_, rfl⟩
  exact (restart_keeps_iff (.boot emptyDisk d' hrun)).2.mpr fun _ _ => .inl rfl

end

end ZenoChain
