/-
# Who proposes

The set of those who propose and vote is what the configured validators have in common with the
eligible ones; all configured ones are taken only where nobody is eligible at all.  So if the only
eligible validators have registered later, nobody is left.
-/
import ZenoChain.Consensus.Devnet
import ZenoChain.Consensus.Members
import ZenoChain.State.Delegations

namespace ZenoChain

/-! ## HasSeat -/

namespace ConsensusEngine

variable {e : ConsensusEngine} {store : Store}

/-- A configured validator is eligible, or nobody is. -/
def HasSeat (e : ConsensusEngine) (s : StakingSnapshot) : Prop :=
  (∃ v ∈ e.validators, (s.ensureValidators e.validators).isValidatorActive v.address e.economics) ∨
    ∀ a, ¬ (s.ensureValidators e.validators).isValidatorActive a e.economics

/-- Somebody takes part in consensus, and every round has a proposer. -/
def Proposes (e : ConsensusEngine) (store : Store) : Prop :=
  e.activeValidators store ≠ [] ∧
    ∀ height round, ∃ v, e.proposerFor store height round = .ok v

/-- A round has a proposer exactly if somebody takes part in consensus. -/
lemma proposerFor_ok_iff (height round : ℕ) :
    (∃ v, e.proposerFor store height round = .ok v) ↔ e.activeValidators store ≠ [] := by
  rw [proposerFor]
  split
  · rename_i validator hget
    exact iff_of_true ⟨validator, rfl⟩ (List.ne_nil_of_mem (List.mem_of_getElem? hget))
  · rename_i hget
    refine iff_of_false (by rintro ⟨_, h⟩; cases h) fun hsome => ?_
    have hpos := List.length_pos_of_ne_nil hsome
    exact absurd (List.getElem?_eq_none_iff.mp hget) (not_le.mpr (Nat.mod_lt _ hpos))

lemma proposes_iff : e.Proposes store ↔ e.activeValidators store ≠ [] :=
  and_iff_left_of_imp fun hsome _ _ => (proposerFor_ok_iff _ _).mpr hsome

/-- **Somebody takes part in consensus** exactly if there is a seat. -/
lemma activeValidators_ne_nil_iff (hconfigured : e.validators ≠ [])
    (hkeyed : (StakingSnapshot.load store).Keyed) :
    e.activeValidators store ≠ [] ↔ e.HasSeat (StakingSnapshot.load store) := by
  have hmem : ∀ a, a ∈ (e.view store).effectiveValidatorSet e.economics ↔ _ := fun a =>
    StakingSnapshot.mem_effectiveValidatorSet (a := a) (hkeyed.ensureValidators e.validators)
      e.economics
  have haddresses : e.activeValidators store ≠ [] ↔
      (e.activeValidators store).map Validator.address ≠ [] := List.map_eq_nil_iff.not.symm
  rw [haddresses, addresses_activeValidators, HasSeat]
  by_cases hnobody : (e.view store).effectiveValidatorSet e.economics = []
  · rw [if_pos hnobody]
    refine iff_of_true (by simpa using hconfigured) (.inr fun a ha => ?_)
    have hnone := (hmem a).mpr ha
    rw [hnobody] at hnone
    cases hnone
  · rw [if_neg hnobody]
    obtain ⟨b, hb⟩ := List.exists_mem_of_ne_nil _ hnobody
    constructor
    · intro hsome
      obtain ⟨a, ha⟩ := List.exists_mem_of_ne_nil _ hsome
      obtain ⟨heligible, hseat⟩ := List.mem_filter.mp ha
      obtain ⟨v, hv, rfl⟩ := List.mem_map.mp (of_decide_eq_true hseat)
      exact .inl ⟨v, hv, (hmem _).mp heligible⟩
    · rintro (⟨v, hv, hactive⟩ | hnone)
      · exact List.ne_nil_of_mem (List.mem_filter.mpr
          ⟨(hmem _).mpr hactive, decide_eq_true (List.mem_map_of_mem hv)⟩)
      · exact absurd ((hmem b).mp hb) (hnone b)

end ConsensusEngine

/-! ## Runs of the staking state -/

/-- The store with a staking state. -/
def Store.withStaking (store : Store) (s : StakingSnapshot) : Store :=
  { store with stakingState := some s }

/-- **Whether there is a proposer.**  In every staking state that registrations, delegations,
unbondings, slashes, notes and settlements reach, somebody takes part in consensus and every round
has a proposer exactly if a configured validator is eligible or nobody is. -/
theorem run_proposes_iff {e : ConsensusEngine} (hconfigured : e.validators ≠ []) (store : Store)
    (ops : List StakingOp) :
    e.Proposes (store.withStaking (ops.foldl StakingSnapshot.step {})) ↔
      e.HasSeat (ops.foldl StakingSnapshot.step {}) := by
  rw [ConsensusEngine.proposes_iff]
  refine ConsensusEngine.activeValidators_ne_nil_iff hconfigured ?_
  exact (StakingSnapshot.tidy_along StakingSnapshot.tidy_empty ops).2.keyed

section

open Transparent

/-- An engine with one configured validator, which asks for a bond of one unit. -/
def soleEngine : ConsensusEngine :=
  { engineOf [1] with
    validators := [validatorOf [1]]
    economics := { economics with minimumSelfBond := 1 } }

/-- The configured validator and a newcomer bond; then the configured one is jailed. -/
def newcomerRemains : List StakingOp :=
  [.ensureValidators [validatorOf [1]], .delegate (address [1]) (address [1]) 1 true,
    .ensureValidators [validatorOf [2]], .delegate (address [2]) (address [2]) 1 true,
    .slash (address [1]) 1000 "downtime" true]

/-- The newcomer is eligible but not configured, so that nobody takes part in consensus. -/
theorem newcomer_leaves_nobody :
    ¬ ∀ (e : ConsensusEngine) (store : Store) (ops : List StakingOp), e.validators ≠ [] →
      e.Proposes (store.withStaking (ops.foldl StakingSnapshot.step {})) := by
  intro hproposes
  have hsome := (hproposes soleEngine blank.store newcomerRemains (by decide)).1
  revert hsome
  decide +kernel

/-- Before the newcomer comes, the configured validator proposes. -/
theorem bonded_validator_proposes :
    soleEngine.Proposes (blank.store.withStaking
      ((newcomerRemains.take 2).foldl StakingSnapshot.step {})) := by
  refine (run_proposes_iff (by decide) blank.store (newcomerRemains.take 2)).mpr (.inl ?_)
  decide +kernel

end

/-! ## Runs without newcomers -/

namespace StakingSnapshot

variable {s s' : StakingSnapshot} {vs : List Validator}

/-- Only given validators have records. -/
def Confined (vs : List Validator) (s : StakingSnapshot) : Prop :=
  ∀ a, s.validators[a]?.isSome → a ∈ vs.map Validator.address

/-- Registrations are of given validators only. -/
def Admits (vs : List Validator) : StakingOp → Prop
  | .ensureValidators us => us.map Validator.address ⊆ vs.map Validator.address
  | _ => True

lemma Confined.congr (h : s.Confined vs) (hsame : SameRecords s s') : s'.Confined vs :=
  fun a ha => h a ((hsame.isSome a).mp ha)

lemma Confined.slashEach (h : s.Confined vs) (slashBps : ℕ) (l : List (Address × String)) :
    (Handler.final (slashEach slashBps l s)).Confined vs := by
  induction l generalizing s with
  | nil => exact h
  | cons e l ih =>
    rw [StakingSnapshot.slashEach]
    rcases hslash : s.slash e.1 slashBps e.2 true with err | s₁
    · rw [Handler.bind_error (inPlace_error hslash)]
      exact h
    · rw [Handler.bind_ok (inPlace_ok hslash)]
      exact ih (h.congr (sameRecords_slash hslash))

lemma Confined.step (htidy : s.Tidy) (h : s.Confined vs) {op : StakingOp}
    (hadmits : Admits vs op) : (s.step op).Confined vs := by
  cases op with
  | ensureValidators us =>
    intro a ha
    rcases isSome_ensureValidators.mp ha with hmem | hsome
    · exact hadmits hmem
    · exact h a hsome
  | delegate delegator a amount isSelfBond =>
    exact final_inPlace (f := fun s => s.delegate delegator a amount isSelfBond) h
      fun _ hok => h.congr (delegate_ok hok).1
  | beginUnbonding delegator a amount params =>
    show (Handler.final (beginUnbonding delegator a amount params s)).Confined vs
    rcases beginUnbonding_cases htidy delegator a amount params with
      hsame | ⟨d, v, w, -, -, hv, hname, -, hvalidators, -⟩
    · rw [hsame]
      exact h
    · exact h.congr (sameRecords_of_insert hv hvalidators hname)
  | slash a bps reason jail =>
    exact final_inPlace (f := fun s => s.slash a bps reason jail) h
      fun _ hok => h.congr (sameRecords_slash hok)
  | applyEvidence evidence params =>
    rw [StakingSnapshot.step, StakingOp.run, slashEquivocators_eq]
    exact h.slashEach _ _
  | applyDowntimeSlashing params => exact h.slashEach _ _
  | noteLiveness a =>
    exact final_inPlace (f := fun s => s.noteLiveness a) h
      fun _ hok => h.congr (sameRecords_noteLiveness hok)
  | settleEpochRewards totalFees rewardBudget params =>
    exact h.congr (sameRecords_settleEpochRewards s totalFees rewardBudget params)

end StakingSnapshot

/-- **Without newcomers there is a proposer.**  In every staking state that is reached with
registrations of configured validators only, every round has a proposer. -/
theorem run_proposes_of_admits {e : ConsensusEngine} (hconfigured : e.validators ≠ [])
    (store : Store) {ops : List StakingOp}
    (hadmits : ∀ op ∈ ops, StakingSnapshot.Admits e.validators op) :
    e.Proposes (store.withStaking (ops.foldl StakingSnapshot.step {})) := by
  have hconfined : (ops.foldl StakingSnapshot.step {}).Tidy ∧
      (ops.foldl StakingSnapshot.step {}).Confined e.validators := by
    have hempty : StakingSnapshot.Confined e.validators {} := fun a ha => by
      simp only [Std.ExtTreeMap.getElem?_empty] at ha
      cases ha
    have hstep : ∀ (s : StakingSnapshot) (op : StakingOp), s.Tidy ∧ s.Confined e.validators →
        StakingSnapshot.Admits e.validators op →
        (s.step op).Tidy ∧ (s.step op).Confined e.validators :=
      fun s op h hop => ⟨h.1.step op, h.2.step h.1 hop⟩
    exact (Trace.keeps hstep ⟨StakingSnapshot.tidy_empty, hempty⟩
      fun x hx => hadmits x.2 (Trace.mem_of_mem_along hx)).2
  have hkeyed : (StakingSnapshot.load
      (store.withStaking (ops.foldl StakingSnapshot.step {}))).Keyed := hconfined.1.keyed
  refine ConsensusEngine.proposes_iff.mpr
    ((ConsensusEngine.activeValidators_ne_nil_iff hconfigured hkeyed).mpr ?_)
  rw [ConsensusEngine.HasSeat, or_iff_not_imp_left]
  rintro hnone a hactive
  -- Whoever is eligible has a record, so it is a configured validator.
  refine hnone ?_
  have hrecord : ((ops.foldl StakingSnapshot.step {}).ensureValidators
      e.validators).validators[a]?.isSome := by
    rw [StakingSnapshot.isValidatorActive] at hactive
    exact Option.isSome_of_any hactive
  rcases StakingSnapshot.isSome_ensureValidators.mp hrecord with hmem | hsome
  · obtain ⟨v, hv, rfl⟩ := List.mem_map.mp hmem
    exact ⟨v, hv, hactive⟩
  · obtain ⟨v, hv, rfl⟩ := List.mem_map.mp (hconfined.2 a hsome)
    exact ⟨v, hv, hactive⟩

end ZenoChain
