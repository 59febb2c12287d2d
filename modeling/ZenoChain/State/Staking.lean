/-
# Staking and governance snapshots

The deterministic economics helpers of `zeno-state`.  A `StakingSnapshot` is a record
whose only field is the staking state, so here it is the staking state; the same goes for
a `GovernanceSnapshot`.
-/
import Mathlib.Data.List.Sort
import ZenoChain.Base.Word
import ZenoChain.Chain.Storage

namespace ZenoChain

open Word

/-- Errors raised while accessing state. -/
inductive StateError
  | storage (message : String)
  | state (message : String)
deriving DecidableEq, Repr

/-- The display text of a state error. -/
def StateError.toText : StateError → String
  | storage message => "storage error: " ++ message
  | state message => "state error: " ++ message

/-- Staking state snapshot with deterministic economics helpers. -/
abbrev StakingSnapshot := StakingState

namespace StakingSnapshot

/-- Loads staking state from storage or initializes an empty snapshot. -/
def load (store : Store) : StakingSnapshot := store.stakingState.getD {}

/-- What holds of the staking state before some effects and of those that they store. -/
lemma load_recordAll [Hashing] {P : StakingSnapshot → Prop} {d : Disk}
    {es : List Effect} (h : P (load d.store))
    (hes : ∀ s : StakingState, .write (.putStakingState s) ∈ es → P s) :
    P (load (d.recordAll es).store) := by
  rcases d.stakingState_recordAll es with hkept | ⟨s, hs, hstored⟩
  · rw [load, hkept]
    exact h
  · rw [load, hstored]
    exact hes s hs

/-- The record under which a genesis validator is seeded. -/
def seed (s : StakingSnapshot) (address : Address) : ValidatorStake :=
  { validatorAddress := address, selfBond := 0, totalStake := 0, commissionBps := 0,
    status := .active, lastLivenessEpoch := s.epoch }

/-- Seeds validators from genesis descriptors if not already present. -/
def ensureValidators (s : StakingSnapshot) (validators : List Validator) : StakingSnapshot :=
  { s with
    validators := validators.foldl (fun m v => m.insertIfNew v.address (s.seed v.address))
      s.validators }

/-- Adds or increases a delegation and updates aggregate validator stake. -/
def delegate (s : StakingSnapshot) (delegator validatorAddress : Address) (amount : ℕ)
    (isSelfBond : Bool) : Except StateError StakingSnapshot :=
  match s.validators[validatorAddress]? with
  | none => .error (.state "unknown validator")
  | some validator =>
    let delegation := s.delegations.getD (delegator, validatorAddress)
      ⟨delegator, validatorAddress, 0⟩
    .ok { s with
      delegations := s.delegations.insert (delegator, validatorAddress)
        { delegation with amount := saturatingAdd 128 delegation.amount amount }
      validators := s.validators.insert validatorAddress
        { validator with
          totalStake := saturatingAdd 128 validator.totalStake amount
          selfBond := if isSelfBond then saturatingAdd 128 validator.selfBond amount
            else validator.selfBond } }

/-- The unbonding requests made for the delegations of a jailed validator, in the order of
the delegation map. -/
def frozenDelegations (s : StakingSnapshot) (validatorAddress : Address) :
    List UnbondingDelegation :=
  ((Table.values s.delegations).filter fun d => d.validatorAddress = validatorAddress).map fun d =>
    ⟨d.delegator, validatorAddress, d.amount, saturatingAdd 64 s.epoch 1⟩

/-- Applies a slash to validator stake and records the event. -/
def slash (s : StakingSnapshot) (validatorAddress : Address) (slashBps : ℕ) (reason : String)
    (jail : Bool) : Except StateError StakingSnapshot :=
  match s.validators[validatorAddress]? with
  | none => .error (.state "unknown validator")
  | some validator =>
    let slashAmount := saturatingMul 128 validator.totalStake slashBps / 10000
    let totalStake := saturatingSub validator.totalStake slashAmount
    .ok { s with
      validators := s.validators.insert validatorAddress
        { validator with
          totalStake
          selfBond := min validator.selfBond totalStake
          status := if jail then .jailed else validator.status }
      unbonding := if jail then s.unbonding ++ s.frozenDelegations validatorAddress
        else s.unbonding
      delegations := if jail then
          s.delegations.map fun _ d =>
            if d.validatorAddress = validatorAddress then { d with amount := 0 } else d
        else s.delegations
      slashingEvents := s.slashingEvents ++ [⟨validatorAddress, s.epoch, slashBps, reason⟩] }

/-- The sum of the stakes of the active validators, as the release build adds them. -/
def totalActiveStake (s : StakingSnapshot) : ℕ :=
  (((Table.values s.validators).filter fun v => v.status = .active).map ValidatorStake.totalStake).foldl
    (wrappingAdd 128) 0

/-- The reward of one validator out of the pool. -/
def grossReward (validatorPool totalActiveStake : ℕ) (validator : ValidatorStake) : ℕ :=
  saturatingMul 128 validatorPool validator.totalStake / totalActiveStake

/-- The validators that `settle_epoch_rewards` pays, with their keys. -/
def rewarded (s : StakingSnapshot) : List (Address × ValidatorStake) :=
  s.validators.toList.filter fun e => ¬ (e.2.status ≠ .active ∨ e.2.totalStake = 0)

/-- Settles one epoch of rewards and treasury funding deterministically. -/
def settleEpochRewards (s : StakingSnapshot) (totalFees rewardBudget : ℕ)
    (params : EconomicsParams) : BTreeMap Address ℕ × StakingSnapshot :=
  let totalActiveStake := s.totalActiveStake
  if totalActiveStake = 0 then
    (∅, { s with
      treasuryBalance := saturatingAdd 128 (saturatingAdd 128 s.treasuryBalance totalFees)
        rewardBudget
      epoch := saturatingAdd 64 s.epoch 1 })
  else
    let distributable := saturatingAdd 128 totalFees rewardBudget
    let treasuryCut := saturatingMul 128 distributable params.treasuryBps / 10000
    let validatorPool := saturatingSub distributable treasuryCut
    let epoch := saturatingAdd 64 s.epoch 1
    (s.rewarded.foldl
        (fun m e => m.insert e.1 (grossReward validatorPool totalActiveStake e.2)) ∅,
      { s with
        treasuryBalance := s.rewarded.foldl
          (fun t e => saturatingAdd 128 t
            (saturatingMul 128 (grossReward validatorPool totalActiveStake e.2)
              e.2.commissionBps / 10000))
          (saturatingAdd 128 s.treasuryBalance treasuryCut)
        epoch
        unbonding := s.unbonding.filter fun entry => epoch < entry.releaseEpoch })

/-- A validator record is active under economics rules. -/
def Eligible (params : EconomicsParams) (validator : ValidatorStake) : Prop :=
  validator.status = .active ∧ params.minimumSelfBond ≤ validator.selfBond

instance (params : EconomicsParams) : DecidablePred (Eligible params) := fun _ =>
  inferInstanceAs (Decidable (_ ∧ _))

/-- The order of the validator set: more stake first, then the smaller address. -/
def Before (left right : ValidatorStake) : Prop :=
  right.totalStake < left.totalStake ∨
    (right.totalStake = left.totalStake ∧ left.validatorAddress ≤ right.validatorAddress)

instance : DecidableRel Before := fun _ _ => inferInstanceAs (Decidable (_ ∨ _))

/-- Derives the active validator set for the next deterministic boundary. -/
def effectiveValidatorSet (s : StakingSnapshot) (params : EconomicsParams) : List Address :=
  (((Table.values s.validators).filter fun v => Eligible params v).insertionSort Before).map
    ValidatorStake.validatorAddress

/-- A text contains another one. -/
def contains (text pattern : String) : Bool := decide (pattern.toList <:+: text.toList)

/-- The evidence names an equivocation. -/
def isEquivocation (item : Evidence) : Bool :=
  contains item.reason "duplicate vote" || contains item.reason "conflicting proposal"

/-- The loop of `apply_evidence`; `slashed` are the addresses slashed so far. -/
def applyEvidenceLoop (params : EconomicsParams) :
    List Evidence → List Address → StakingSnapshot → Except StateError StakingSnapshot
  | [], _, s => .ok s
  | item :: evidence, slashed, s =>
    if item.validatorAddress ∈ slashed then applyEvidenceLoop params evidence slashed s
    else if isEquivocation item then
      match slash s item.validatorAddress params.doubleSignSlashBps item.reason true with
      | .error err => .error err
      | .ok s => applyEvidenceLoop params evidence (item.validatorAddress :: slashed) s
    else applyEvidenceLoop params evidence slashed s

/-- Applies slash-and-jail handling for consensus safety evidence. -/
def applyEvidence (s : StakingSnapshot) (evidence : List Evidence) (params : EconomicsParams) :
    Except StateError StakingSnapshot :=
  applyEvidenceLoop params evidence [] s

/-- Marks a validator as live in the current epoch. -/
def noteLiveness (s : StakingSnapshot) (validatorAddress : Address) :
    Except StateError StakingSnapshot :=
  match s.validators[validatorAddress]? with
  | none => .error (.state "unknown validator")
  | some validator =>
    .ok { s with
      validators := s.validators.insert validatorAddress
        { validator with lastLivenessEpoch := s.epoch } }

/-- The active validators that were not seen in the current epoch. -/
def stale (s : StakingSnapshot) : List Address :=
  ((Table.values s.validators).filter fun v =>
    v.status = .active ∧ saturatingAdd 64 v.lastLivenessEpoch 1 < saturatingAdd 64 s.epoch 1).map
    ValidatorStake.validatorAddress

/-- Applies downtime slashing to validators that missed the current epoch. -/
def applyDowntimeSlashing (s : StakingSnapshot) (params : EconomicsParams) :
    Except StateError StakingSnapshot :=
  s.stale.foldlM (fun s address => slash s address params.downtimeSlashBps "downtime" true) s

/-- Returns whether a validator is currently active under economics rules. -/
def isValidatorActive (s : StakingSnapshot) (validatorAddress : Address)
    (params : EconomicsParams) : Bool :=
  s.validators[validatorAddress]?.any fun v => Eligible params v

/-! ## Seeding -/

@[simp] lemma epoch_ensureValidators (s : StakingSnapshot) (vs : List Validator) :
    (s.ensureValidators vs).epoch = s.epoch := rfl

lemma ensureValidators_cons (s : StakingSnapshot) (v : Validator) (vs : List Validator) :
    s.ensureValidators (v :: vs) =
      ensureValidators { s with
        validators := s.validators.insertIfNew v.address (s.seed v.address) } vs := rfl

/-- A record that is there is never touched by seeding. -/
lemma getElem?_ensureValidators (s : StakingSnapshot) (vs : List Validator) (a : Address) :
    (s.ensureValidators vs).validators[a]? =
      if a ∈ vs.map Validator.address then some (s.validators[a]?.getD (s.seed a))
      else s.validators[a]? := by
  induction vs generalizing s with
  | nil => rfl
  | cons v vs ih =>
    rw [ensureValidators_cons, ih, Table.getElem?_insertIfNew, List.map_cons]
    by_cases ha : a = v.address
    · subst ha
      simp [seed]
    · by_cases hm : a ∈ vs.map Validator.address
      · rw [if_pos hm, if_neg ha, if_pos (List.mem_cons_of_mem _ hm)]
        rfl
      · rw [if_neg hm, if_neg ha, if_neg fun hc => (List.mem_cons.mp hc).elim ha hm]

lemma isSome_ensureValidators {s : StakingSnapshot} {vs : List Validator} {a : Address} :
    (s.ensureValidators vs).validators[a]?.isSome ↔
      a ∈ vs.map Validator.address ∨ s.validators[a]?.isSome := by
  rw [getElem?_ensureValidators]
  split <;> simp_all

/-- Seeding does nothing when every validator has its record. -/
lemma ensureValidators_of_known {s : StakingSnapshot} {vs : List Validator}
    (h : ∀ v ∈ vs, s.validators[v.address]?.isSome) : s.ensureValidators vs = s := by
  induction vs with
  | nil => rfl
  | cons v vs ih =>
    rw [ensureValidators_cons, Table.insertIfNew_of_mem (h v List.mem_cons_self)]
    exact ih fun w hw => h w (List.mem_cons_of_mem _ hw)

@[simp] lemma ensureValidators_idem (s : StakingSnapshot) (vs : List Validator) :
    (s.ensureValidators vs).ensureValidators vs = s.ensureValidators vs :=
  ensureValidators_of_known fun _ hv =>
    isSome_ensureValidators.mpr (.inl (List.mem_map_of_mem hv))

/-! ## What a liveness note leaves alone

The validator set and the activity of a validator do not depend on when validators were
seen last. -/

/-- A validator record without the epoch in which the validator was seen last. -/
def forgetLiveness (v : ValidatorStake) : ValidatorStake := { v with lastLivenessEpoch := 0 }

/-- The validator records without the epochs in which the validators were seen last. -/
def standing (s : StakingSnapshot) : BTreeMap Address ValidatorStake :=
  s.validators.map fun _ v => forgetLiveness v

lemma getElem?_standing (s : StakingSnapshot) (a : Address) :
    s.standing[a]? = s.validators[a]?.map forgetLiveness := by
  rw [standing, Std.ExtTreeMap.getElem?_map]

lemma noteLiveness_of_known {s : StakingSnapshot} {a : Address} {v : ValidatorStake}
    (h : s.validators[a]? = some v) :
    s.noteLiveness a = .ok { s with
      validators := s.validators.insert a { v with lastLivenessEpoch := s.epoch } } := by
  rw [noteLiveness, h]

lemma noteLiveness_ok_iff {s s' : StakingSnapshot} {a : Address} :
    s.noteLiveness a = .ok s' ↔ ∃ v, s.validators[a]? = some v ∧
      s' = { s with validators := s.validators.insert a { v with lastLivenessEpoch := s.epoch } } := by
  rw [noteLiveness]
  split
  · rename_i h
    simp [h]
  · rename_i v h
    simp [h, eq_comm]

lemma isSome_of_noteLiveness {s s' : StakingSnapshot} {a b : Address}
    (h : s.noteLiveness a = .ok s') :
    s'.validators[b]?.isSome ↔ s.validators[b]?.isSome := by
  obtain ⟨v, hv, rfl⟩ := noteLiveness_ok_iff.mp h
  rw [Table.getElem?_insert]
  split
  · rename_i hb
    simp [hb, hv]
  · rfl

lemma standing_noteLiveness {s s' : StakingSnapshot} {a : Address}
    (h : s.noteLiveness a = .ok s') : s'.standing = s.standing := by
  obtain ⟨v, hv, rfl⟩ := noteLiveness_ok_iff.mp h
  refine Std.ExtTreeMap.ext_getElem? fun b => ?_
  rw [getElem?_standing, getElem?_standing, Table.getElem?_insert]
  by_cases hb : b = a
  · rw [if_pos hb, hb, hv]
    rfl
  · rw [if_neg hb]

/-- The validator set is that of the records without their epochs. -/
lemma effectiveValidatorSet_eq_standing (s : StakingSnapshot) (params : EconomicsParams) :
    s.effectiveValidatorSet params = (((Table.values s.standing).filter fun v =>
      Eligible params v).insertionSort Before).map ValidatorStake.validatorAddress := by
  have hvalues : Table.values s.standing = (Table.values s.validators).map forgetLiveness := by
    rw [standing, Table.values_map, Table.values, List.map_map]
    rfl
  have horder : ∀ v ∈ (Table.values s.validators).filter fun v => Eligible params v,
      ∀ w ∈ (Table.values s.validators).filter fun v => Eligible params v,
        Before v w ↔ Before (forgetLiveness v) (forgetLiveness w) := fun _ _ _ _ => Iff.rfl
  rw [hvalues, List.filter_map]
  change _ = (((((Table.values s.validators).filter fun v => Eligible params v).map
    forgetLiveness).insertionSort Before).map ValidatorStake.validatorAddress)
  rw [← List.map_insertionSort Before Before forgetLiveness _ horder, List.map_map]
  rfl

lemma effectiveValidatorSet_congr {s s' : StakingSnapshot} (h : s.standing = s'.standing)
    (params : EconomicsParams) :
    s.effectiveValidatorSet params = s'.effectiveValidatorSet params := by
  rw [effectiveValidatorSet_eq_standing, h, ← effectiveValidatorSet_eq_standing]

lemma isValidatorActive_congr {s s' : StakingSnapshot} (h : s.standing = s'.standing)
    (a : Address) (params : EconomicsParams) :
    s.isValidatorActive a params = s'.isValidatorActive a params := by
  have key : ∀ t : StakingSnapshot,
      t.isValidatorActive a params = t.standing[a]?.any fun v => Eligible params v := by
    intro t
    rw [getElem?_standing, isValidatorActive, Option.any_map]
    rfl
  rw [key, key, h]

/-! ## Slashing -/

lemma slash_ok_iff (s : StakingSnapshot) (a : Address) (bps : ℕ) (reason : String) (jail : Bool) :
    (∃ s', s.slash a bps reason jail = .ok s') ↔ s.validators[a]?.isSome := by
  rw [slash]
  split
  · rename_i h
    simp [h]
  · rename_i v h
    simp [h]

/-- A slash removes no record and makes none. -/
lemma isSome_of_slash {s s' : StakingSnapshot} {a b : Address} {bps : ℕ} {reason : String}
    {jail : Bool} (h : s.slash a bps reason jail = .ok s') :
    s'.validators[b]?.isSome ↔ s.validators[b]?.isSome := by
  rw [slash] at h
  split at h
  · cases h
  · rename_i v hv
    cases h
    dsimp only
    rw [Table.getElem?_insert]
    split
    · rename_i hb
      simp [hb, hv]
    · rfl

/-- Downtime slashing succeeds exactly if every stale record names a validator of the map. -/
lemma applyDowntimeSlashing_ok_iff (s : StakingSnapshot) (params : EconomicsParams) :
    (∃ s', s.applyDowntimeSlashing params = .ok s') ↔
      ∀ a ∈ s.stale, s.validators[a]?.isSome := by
  have key : ∀ (l : List Address) (s : StakingSnapshot),
      (∃ s', l.foldlM (fun s a => slash s a params.downtimeSlashBps "downtime" true) s =
        Except.ok s') ↔ ∀ a ∈ l, s.validators[a]?.isSome := by
    intro l
    induction l with
    | nil =>
      intro s
      exact ⟨fun _ => nofun, fun _ => ⟨s, rfl⟩⟩
    | cons a l ih =>
      intro s
      rw [List.foldlM_cons, List.forall_mem_cons]
      rcases hs : s.slash a params.downtimeSlashBps "downtime" true with err | s₁
      · have hnot : ¬ s.validators[a]?.isSome := by
          rw [← slash_ok_iff s a params.downtimeSlashBps "downtime" true, hs]
          rintro ⟨_, ⟨⟩⟩
        exact ⟨by rintro ⟨_, ⟨⟩⟩, fun h => absurd h.1 hnot⟩
      · have ha : s.validators[a]?.isSome := (slash_ok_iff s a _ _ _).mp ⟨s₁, hs⟩
        have hrest : (∀ b ∈ l, s₁.validators[b]?.isSome) ↔ ∀ b ∈ l, s.validators[b]?.isSome :=
          forall₂_congr fun b _ => isSome_of_slash hs
        show (∃ s', l.foldlM _ s₁ = Except.ok s') ↔ _
        rw [ih s₁, hrest]
        exact ⟨fun h => ⟨ha, h⟩, fun h => h.2⟩
  exact key s.stale s

end StakingSnapshot

/-- Root of an ordered validator set. -/
def validatorSetRoot [Hashing] (validators : List Address) : Hash32 :=
  merkleRoot (validators.map fun address =>
    hashBytes (Codec.str "zeno.validator_set.v1" ++ Codec.array32 address))

/-- Builds a finalized epoch transition object from current state. -/
def StakingSnapshot.buildEpochTransition [Hashing] (s : StakingSnapshot) (height : ℕ)
    (economics : EconomicsParams) : EpochTransition :=
  let validatorSet := s.effectiveValidatorSet economics
  { epoch := s.epoch, height, validatorSet, validatorSetRoot := validatorSetRoot validatorSet,
    economics }

/-! ## Governance -/

/-- Governance state snapshot and deterministic proposal activation. -/
abbrev GovernanceSnapshot := GovernanceState

namespace GovernanceSnapshot

/-- Loads governance state or initializes it from active economics. -/
def load (store : Store) (defaultEconomics : EconomicsParams) : GovernanceSnapshot :=
  store.governanceState.getD (GovernanceState.new defaultEconomics)

/-- The economics in force after a parameter update. -/
def updated : ParameterUpdate → EconomicsParams
  | .economics economics => economics

/-- Activates all proposals scheduled for the current epoch. -/
def activateReadyUpdates (g : GovernanceSnapshot) (epoch : ℕ) :
    List GovernanceProposal × GovernanceSnapshot :=
  let applied := g.pending.filter fun proposal => ¬ proposal.activationEpoch > epoch
  (applied,
    { g with
      pending := g.pending.filter fun proposal => proposal.activationEpoch > epoch
      economics := applied.foldl (fun _ proposal => updated proposal.update) g.economics })

end GovernanceSnapshot

end ZenoChain
