/-
# Known and active validators

Whoever has a record in the staking state is known, and only known validators can be noted as
live; the active ones make up the quorum.  A registration or the first vote of an epoch changes
records of known validators, and nothing in a run removes one.
-/
import ZenoChain.Base.Quorums
import ZenoChain.Consensus.Devnet
import ZenoChain.Consensus.Stable

namespace ZenoChain

namespace ConsensusEngine

/-! ## Validators with a record -/

/-- A validator has a record in the staking state as the engine reads it. -/
def Knows (e : ConsensusEngine) (store : Store) (a : Address) : Prop :=
  (e.view store).validators[a]?.isSome

variable {e : ConsensusEngine}

lemma knows_iff {store : Store} {a : Address} : e.Knows store a ↔
    a ∈ e.validators.map Validator.address ∨ (StakingSnapshot.load store).validators[a]?.isSome :=
  StakingSnapshot.isSome_ensureValidators

lemma Knows.congr {store store' : Store} {a : Address} (h : e.Knows store a)
    (hstaking : store'.stakingState = store.stakingState) : e.Knows store' a := by
  rw [Knows, view_congr hstaking]
  exact h

lemma Knows.of_standing {store store' : Store} {a : Address} (h : e.Knows store a)
    (hstanding : e.standing store' = e.standing store) : e.Knows store' a := by
  have hsome : ∀ store : Store, (e.standing store)[a]?.isSome ↔ e.Knows store a := by
    intro store
    rw [standing, StakingSnapshot.getElem?_standing, Option.isSome_map]
    rfl
  rw [← hsome, hstanding, hsome]
  exact h

/-- The active validators are among the configured ones. -/
lemma activeValidators_subset (e : ConsensusEngine) (store : Store) :
    e.activeValidators store ⊆ e.validators := by
  intro v hv
  rw [activeValidators] at hv
  dsimp only at hv
  split at hv
  · exact hv
  · obtain ⟨a, -, ha⟩ := List.mem_filterMap.mp hv
    rcases Table.mem_of_getElem?_insertAll ha with hmem | hempty
    · obtain ⟨u, hu, heq⟩ := List.mem_map.mp hmem
      cases heq
      exact hu
    · rw [Std.ExtTreeMap.getElem?_empty] at hempty
      cases hempty

/-- The proposer of a round has a record. -/
lemma knows_of_proposerFor {store store' : Store} {height round : ℕ} {v : Validator}
    (h : e.proposerFor store height round = .ok v) : e.Knows store' v.address := by
  rw [proposerFor] at h
  split at h
  · rename_i hget
    cases h
    have hactive := e.activeValidators_subset store (List.mem_of_getElem? hget)
    exact knows_iff.mpr (.inl (List.mem_map_of_mem hactive))
  · cases h

lemma stable_isSome (a : Address) :
    StakingSnapshot.Stable fun s => s.validators[a]?.isSome where
  ensure := fun _ _ h => StakingSnapshot.isSome_ensureValidators.mpr (.inr h)
  slash := fun _ _ _ _ _ _ hslash h => (StakingSnapshot.isSome_of_slash hslash).mpr h
  fund := fun _ _ h => h
  settle := fun s totalFees rewardBudget params h =>
    ((StakingSnapshot.sameRecords_settleEpochRewards s totalFees rewardBudget params).isSome a).mpr h
  note := fun _ _ _ hnote h => (StakingSnapshot.isSome_of_noteLiveness hnote).mpr h

/-- A record that is read is one of a stored state. -/
lemma stakes_of_isSome {store : Store} {a : Address} (h : (StakingSnapshot.load store).validators[a]?.isSome) :
    store.Stakes fun s => s.validators[a]?.isSome := by
  rcases hstored : store.stakingState with _ | s
  · rw [StakingSnapshot.load, hstored, Option.getD_none] at h
    simp at h
  · rw [StakingSnapshot.load, hstored] at h
    exact ⟨s, hstored, h⟩

section

variable [Hashing]

/-- Effects that store only staking states with a record of the validator keep it known. -/
lemma Knows.recordAll {a : Address} {es : List Effect} {d : Disk} (h : e.Knows d.store a)
    (hes : ∀ staking : StakingState, .write (.putStakingState staking) ∈ es →
      staking.validators[a]?.isSome) : e.Knows (d.recordAll es).store a := by
  rcases d.stakingState_recordAll es with hkept | ⟨staking, hmem, hstored⟩
  · exact h.congr hkept
  · refine knows_iff.mpr (.inr ?_)
    rw [StakingSnapshot.load, hstored]
    exact hes staking hmem

omit [Hashing] in
/-- A liveness note makes no record and removes none. -/
lemma Knows.isSome_noted {store : Store} {a b : Address} {staking : StakingSnapshot}
    (h : e.Knows store b) (hnoted : e.noted store a = .ok staking) :
    staking.validators[b]?.isSome :=
  (StakingSnapshot.isSome_of_noteLiveness hnoted).mpr h

variable [Revm] {w₀ w w' : World} {event : Event} {a : Address}

/-- A commit removes no record. -/
lemma Knows.commits {f : FinalizedBlock} {d d' : Disk} (h : e.Knows d.store a)
    (hcommits : Commits e f d d') : e.Knows d'.store a := by
  rcases knows_iff.mp h with hconfigured | hstored
  · exact knows_iff.mpr (.inl hconfigured)
  · exact knows_iff.mpr (.inr
      ((stakes_of_isSome hstored).commits (stable_isSome a).toSettling hcommits).load)

/-- Nor does any other move. -/
lemma Knows.move (h : e.Knows w.disk.store a) (hmove : e.Move w₀ event w w') :
    e.Knows w'.disk.store a := by
  rcases knows_iff.mp h with hconfigured | hstored
  · exact knows_iff.mpr (.inl hconfigured)
  · exact knows_iff.mpr (.inr ((stakes_of_isSome hstored).move (stable_isSome a) hmove).load)

omit [Revm] in
/-- Evidence is against validators with a record. -/
lemma Accusation.knows {item : Evidence} (h : e.Accusation w₀ event w item) :
    e.Knows w.disk.store item.validatorAddress := by
  cases h with
  | vote _ hknown => exact hknown
  | proposal _ _ hvalid =>
    obtain ⟨expected, hproposer, haccepts⟩ := validateProposal_ok hvalid
    rw [proposalEvidence, haccepts.validator]
    exact knows_of_proposerFor hproposer

end

/-! ## The active validators -/

/-- The configured validators with an active record and enough bond: neither jailed, nor
under-bonded, nor merely registered. -/
def sitting (e : ConsensusEngine) (store : Store) : Finset Address :=
  ((e.validators.map Validator.address).filter fun a =>
    (e.view store).isValidatorActive a e.economics).toFinset

lemma mem_sitting {store : Store} {a : Address} : a ∈ e.sitting store ↔
    a ∈ e.validators.map Validator.address ∧ (e.view store).isValidatorActive a e.economics := by
  rw [sitting, List.mem_toFinset, List.mem_filter]

lemma sitting_congr {store store' : Store} (h : e.standing store' = e.standing store) :
    e.sitting store' = e.sitting store := by
  ext a
  rw [mem_sitting, mem_sitting, StakingSnapshot.isValidatorActive_congr h]

/-- The configured validator of an address, where there is one. -/
lemma address_byAddress (vs : List Validator) (a : Address) :
    (Table.insertAll (∅ : BTreeMap Address Validator)
      (vs.map fun v => (v.address, v)))[a]?.map Validator.address =
      if a ∈ vs.map Validator.address then some a else none := by
  rcases hv : (Table.insertAll (∅ : BTreeMap Address Validator)
    (vs.map fun v => (v.address, v)))[a]? with _ | v
  · rw [hv, if_neg fun hconfigured => ?_]
    · rfl
    · have hsome := Table.isSome_getElem?_insertAll (t := (∅ : BTreeMap Address Validator))
        (l := vs.map fun v => (v.address, v)) (a := a) (.inl (by rwa [List.map_map]))
      rw [hv] at hsome
      cases hsome
  · rcases Table.mem_of_getElem?_insertAll hv with hmem | hempty
    · obtain ⟨u, hu, heq⟩ := List.mem_map.mp hmem
      cases heq
      rw [hv, if_pos (List.mem_map_of_mem hu)]
      rfl
    · rw [Std.ExtTreeMap.getElem?_empty] at hempty
      cases hempty

/-- **Who takes part in consensus**: the configured ones among the eligible, in their order, or
all configured ones if nobody is eligible. -/
lemma addresses_activeValidators (e : ConsensusEngine) (store : Store) :
    (e.activeValidators store).map Validator.address =
      if (e.view store).effectiveValidatorSet e.economics = [] then
        e.validators.map Validator.address
      else ((e.view store).effectiveValidatorSet e.economics).filter
        (· ∈ e.validators.map Validator.address) := by
  rw [activeValidators, view]
  dsimp only
  split
  · rfl
  · rw [List.map_filterMap, ← List.filterMap_eq_filter]
    refine List.filterMap_congr fun a _ => ?_
    rw [address_byAddress, Option.guard]
    simp only [decide_eq_true_eq]

/-- Sitting validators take part in consensus. -/
lemma sitting_subset {store : Store} (hkeyed : (StakingSnapshot.load store).Keyed) :
    e.sitting store ⊆ ((e.activeValidators store).map Validator.address).toFinset := by
  intro a ha
  obtain ⟨hconfigured, hactive⟩ := mem_sitting.mp ha
  have hset : a ∈ (e.view store).effectiveValidatorSet e.economics :=
    (StakingSnapshot.mem_effectiveValidatorSet (hkeyed.ensureValidators e.validators)
      e.economics).mpr hactive
  rw [List.mem_toFinset, addresses_activeValidators, if_neg (List.ne_nil_of_mem hset)]
  exact List.mem_filter.mpr ⟨hset, decide_eq_true hconfigured⟩

/-! ## How many may be faulty -/

/-- The addresses of the validators that take part in consensus. -/
def activeAddresses (e : ConsensusEngine) (store : Store) : Finset Address :=
  ((e.activeValidators store).map Validator.address).toFinset

/-- How many of the active validators may be faulty: less than a third. -/
def tolerated (e : ConsensusEngine) (store : Store) : ℕ :=
  ((e.activeValidators store).length - 1) / 3

lemma card_activeAddresses_le (e : ConsensusEngine) (store : Store) :
    (e.activeAddresses store).card ≤ (e.activeValidators store).length := by
  rw [activeAddresses, ← List.length_map Validator.address]
  exact List.toFinset_card_le _

/-- **Quorums are neither too small nor too large.**  Two of them share more validators than may be
faulty, so that one that is not is in both; and there is one without the faulty ones. -/
theorem quorum_bounds (e : ConsensusEngine) (store : Store) (h : e.activeValidators store ≠ []) :
    (∀ S T : Finset Address, S ⊆ e.activeAddresses store → T ⊆ e.activeAddresses store →
      e.quorum store ≤ S.card → e.quorum store ≤ T.card →
        e.tolerated store < (S ∩ T).card ∧
        ∀ lying : Finset Address, lying.card ≤ e.tolerated store → ∃ a ∈ S ∩ T, a ∉ lying) ∧
    e.quorum store ≤ (e.activeValidators store).length - e.tolerated store ∧
    ((e.activeAddresses store).card = (e.activeValidators store).length →
      ∀ silent : Finset Address, silent.card ≤ e.tolerated store →
        e.quorum store ≤ (e.activeAddresses store \ silent).card) := by
  have hpos : 0 < (e.activeValidators store).length := List.length_pos_iff.mpr h
  refine ⟨fun S T hS hT hcardS hcardT => ?_, two_thirds_le_sub hpos, fun hdistinct silent hsilent =>
    two_thirds_le_card_sdiff hpos hdistinct hsilent⟩
  have hshared : e.tolerated store < (S ∩ T).card :=
    lt_card_inter (card_activeAddresses_le e store) hS hT hcardS hcardT
  exact ⟨hshared, fun lying hlying =>
    Finset.exists_mem_notMem_of_card_lt_card (hlying.trans_lt hshared)⟩

open Transparent in
/-- Of four validators three make a quorum, and one may be faulty. -/
theorem quorum_bounds_four :
    (engineOf [1]).quorum blank.store = 3 ∧ (engineOf [1]).tolerated blank.store = 1 ∧
      ∀ S T : Finset Address, S ⊆ (engineOf [1]).activeAddresses blank.store →
        T ⊆ (engineOf [1]).activeAddresses blank.store → 3 ≤ S.card → 3 ≤ T.card →
          1 < (S ∩ T).card := by
  have hquorum : (engineOf [1]).quorum blank.store = 3 := by decide +kernel
  have htolerated : (engineOf [1]).tolerated blank.store = 1 := by decide +kernel
  refine ⟨hquorum, htolerated, fun S T hS hT hcardS hcardT => ?_⟩
  rw [← htolerated]
  rw [← hquorum] at hcardS hcardT
  exact ((quorum_bounds (engineOf [1]) blank.store (by decide +kernel)).1 S T hS hT hcardS hcardT).1

end ConsensusEngine

end ZenoChain
