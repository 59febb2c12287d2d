/-
# What is at stake

The sum of all delegations and all pending unbondings.  A delegation adds to it, a slash with a
jailing only moves delegations to the unbonding list, and a settlement drops the entries that have
matured, unless no stake is active.
-/
import ZenoChain.State.Roster

namespace ZenoChain.StakingSnapshot

open Word

/-- The amount of a delegation; zero without one. -/
def bond (s : StakingSnapshot) (k : Address × Address) : ℕ :=
  (s.delegations[k]?.map Delegation.amount).getD 0

/-- All delegations and all pending unbondings. -/
def atStake (s : StakingSnapshot) : ℕ :=
  Table.total Delegation.amount s.delegations + (s.unbonding.map UnbondingDelegation.amount).sum

/-- The amounts are words of 128 bits. -/
def BondsFit (s : StakingSnapshot) : Prop := ∀ k, s.bond k < 2 ^ 128

variable {s s' : StakingSnapshot} {a : Address} {params : EconomicsParams}

lemma bond_le_atStake (s : StakingSnapshot) (k : Address × Address) : s.bond k ≤ s.atStake :=
  (Table.share_le_total Delegation.amount s.delegations k).trans (Nat.le_add_right _ _)

lemma bondsFit_of_atStake (h : s.atStake < 2 ^ 128) : s.BondsFit := fun k =>
  lt_of_le_of_lt (s.bond_le_atStake k) h

@[simp] lemma bond_ensureValidators (vs : List Validator) (k : Address × Address) :
    (s.ensureValidators vs).bond k = s.bond k := rfl

@[simp] lemma atStake_ensureValidators (vs : List Validator) :
    (s.ensureValidators vs).atStake = s.atStake := rfl

@[simp] lemma atStake_fund (amount : ℕ) : (s.fund amount).atStake = s.atStake := rfl

/-! ## Bonding -/

/-- A delegation fails for an unknown validator only. -/
lemma delegate_eq_error {delegator : Address} {amount : ℕ} {isSelfBond : Bool} {err : StateError}
    (h : s.delegate delegator a amount isSelfBond = .error err) : s.validators[a]? = none := by
  rw [delegate] at h
  split at h
  · assumption
  · cases h

/-- A delegation is written with the amount added, up to the largest one. -/
lemma delegations_delegate {delegator : Address} {amount : ℕ} {isSelfBond : Bool}
    (h : s.delegate delegator a amount isSelfBond = .ok s') :
    ∃ d : Delegation, s'.delegations = s.delegations.insert (delegator, a) d ∧
      d.amount = saturatingAdd 128 (s.bond (delegator, a)) amount ∧ s'.unbonding = s.unbonding := by
  have hold : (s.delegations.getD (delegator, a) ⟨delegator, a, 0⟩).amount =
      s.bond (delegator, a) := by
    rw [bond, Std.ExtTreeMap.getD_eq_getD_getElem?]
    rcases s.delegations[(delegator, a)]? with _ | d <;> rfl
  rw [← hold]
  rw [delegate] at h
  split at h
  · cases h
  · cases h
    exact ⟨_, rfl, rfl, rfl⟩

/-- A delegation adds to one bond and to what is at stake. -/
lemma bond_delegate {delegator : Address} {amount : ℕ} {isSelfBond : Bool}
    (h : s.delegate delegator a amount isSelfBond = .ok s') :
    (∀ k, s'.bond k =
      if k = (delegator, a) then saturatingAdd 128 (s.bond (delegator, a)) amount else s.bond k) ∧
    s'.atStake + s.bond (delegator, a) =
      s.atStake + saturatingAdd 128 (s.bond (delegator, a)) amount := by
  obtain ⟨d, hdelegations, hamount, hunbonding⟩ := delegations_delegate h
  constructor
  · intro k
    rw [bond, hdelegations, Table.getElem?_insert]
    split
    · exact hamount
    · rfl
  · have htotal := Table.total_insert Delegation.amount s.delegations (delegator, a) d
    rw [hamount] at htotal
    rw [atStake, atStake, hdelegations, hunbonding]
    rw [bond] at htotal ⊢
    omega

lemma BondsFit.delegate (h : s.BondsFit) {delegator : Address} {amount : ℕ} {isSelfBond : Bool}
    (hok : s.delegate delegator a amount isSelfBond = .ok s') : s'.BondsFit := by
  intro k
  rw [(bond_delegate hok).1 k]
  split
  · exact le_maxValue_iff.mp (Nat.min_le_right _ _)
  · exact h k

/-- Only a delegation of nothing, or one to a bond that has no room, leaves alone what is at
stake. -/
lemma atStake_delegate_iff (h : s.BondsFit) {delegator : Address} {amount : ℕ} {isSelfBond : Bool}
    (hok : s.delegate delegator a amount isSelfBond = .ok s') :
    s.atStake ≤ s'.atStake ∧
      (s'.atStake = s.atStake ↔ amount = 0 ∨ s.bond (delegator, a) = maxValue 128) := by
  have hle := le_maxValue_iff.mpr (h (delegator, a))
  have hadd := (bond_delegate hok).2
  rw [saturatingAdd] at hadd
  omega

/-- Such a delegation changes no bond. -/
lemma bond_delegate_of_nothing (h : s.BondsFit) {delegator : Address} {amount : ℕ}
    {isSelfBond : Bool} (hok : s.delegate delegator a amount isSelfBond = .ok s')
    (hnothing : amount = 0 ∨ s.bond (delegator, a) = maxValue 128) (k : Address × Address) :
    s'.bond k = s.bond k := by
  have hle := le_maxValue_iff.mpr (h (delegator, a))
  rw [(bond_delegate hok).1 k]
  split
  · rename_i hk
    rw [hk, saturatingAdd]
    omega
  · rfl

/-! ## Slashing -/

/-- A slash with a jailing moves delegations to the unbonding list. -/
lemma atStake_slash {bps : ℕ} {reason : String} {jail : Bool}
    (h : s.slash a bps reason jail = .ok s') : s'.atStake = s.atStake := by
  rw [slash] at h
  split at h
  · cases h
  · cases h
    cases jail with
    | false => rfl
    | true =>
      simp only [atStake, if_true, List.map_append, List.sum_append, frozenDelegations,
        List.map_map]
      have hmoved : ∀ l : List Delegation,
          (l.map fun d => (if d.validatorAddress = a then { d with amount := 0 } else d).amount).sum +
            ((l.filter fun d => d.validatorAddress = a).map Delegation.amount).sum =
          (l.map Delegation.amount).sum := by
        intro l
        induction l with
        | nil => rfl
        | cons d l ih =>
          by_cases hd : d.validatorAddress = a <;> simp [hd] <;> omega
      have htotal := hmoved (Table.values s.delegations)
      have hzeroed : Table.total Delegation.amount (s.delegations.map fun _ d =>
          if d.validatorAddress = a then { d with amount := 0 } else d) =
          ((Table.values s.delegations).map fun d =>
            (if d.validatorAddress = a then { d with amount := 0 } else d).amount).sum := by
        rw [Table.total, Table.values_map, List.map_map, Table.values, List.map_map]
        rfl
      rw [hzeroed, Table.total, ← htotal, Nat.add_comm (List.sum (s.unbonding.map _)),
        ← Nat.add_assoc]
      rfl

lemma atStake_applyDowntimeSlashing (h : s.applyDowntimeSlashing params = .ok s') :
    s'.atStake = s.atStake := by
  have hkept : KeptBySlashes fun s₁ => s₁.atStake = s.atStake :=
    fun _ _ _ _ _ _ hslash hs => (atStake_slash hslash).trans hs
  exact hkept.downtime h rfl

/-- The treasury has no part in a slash. -/
lemma slash_fund (amount bps : ℕ) (reason : String) (jail : Bool) :
    (s.fund amount).slash a bps reason jail =
      (s.slash a bps reason jail).map fun t => t.fund amount := by
  have hsame : (s.fund amount).validators[a]? = s.validators[a]? := rfl
  rw [slash, slash, hsame]
  rcases s.validators[a]? with _ | v <;> rfl

lemma applyDowntimeSlashing_fund (s : StakingSnapshot) (params : EconomicsParams) (amount : ℕ) :
    (s.fund amount).applyDowntimeSlashing params =
      (s.applyDowntimeSlashing params).map fun t => t.fund amount := by
  rw [applyDowntimeSlashing, applyDowntimeSlashing]
  show s.stale.foldlM _ (s.fund amount) = _
  generalize s.stale = stale
  induction stale generalizing s with
  | nil => rfl
  | cons b stale ih =>
    rw [List.foldlM_cons, List.foldlM_cons, slash_fund]
    rcases s.slash b params.downtimeSlashBps "downtime" true with err | s₁
    · rfl
    · exact ih s₁

/-! ## Settling -/

/-- The unbonding entries that the settlement of the epoch removes. -/
def matured (s : StakingSnapshot) : List UnbondingDelegation :=
  if s.totalActiveStake = 0 then []
  else s.unbonding.filter fun entry => entry.releaseEpoch ≤ saturatingAdd 64 s.epoch 1

/-- What is removed is dropped. -/
lemma atStake_settleEpochRewards (s : StakingSnapshot) (totalFees rewardBudget : ℕ)
    (params : EconomicsParams) :
    (s.settleEpochRewards totalFees rewardBudget params).2.atStake +
      (s.matured.map UnbondingDelegation.amount).sum = s.atStake := by
  rw [settleEpochRewards, matured]
  dsimp only
  split_ifs
  · rfl
  · have hsplit := ((List.filter_append_perm
      (fun entry : UnbondingDelegation => saturatingAdd 64 s.epoch 1 < entry.releaseEpoch)
      s.unbonding).map UnbondingDelegation.amount).sum_eq
    have hrest : (s.unbonding.filter fun entry =>
        !decide (saturatingAdd 64 s.epoch 1 < entry.releaseEpoch)) =
        s.unbonding.filter fun entry => entry.releaseEpoch ≤ saturatingAdd 64 s.epoch 1 := by
      refine List.filter_congr fun entry _ => ?_
      rw [← decide_not, decide_eq_decide, not_lt]
    rw [List.map_append, List.sum_append, hrest] at hsplit
    rw [atStake, atStake, ← hsplit, Nat.add_assoc]

/-- Nothing of value has matured. -/
def SettlesInFull (s : StakingSnapshot) : Prop := ∀ entry ∈ s.matured, entry.amount = 0

lemma atStake_settleEpochRewards_iff (s : StakingSnapshot) (totalFees rewardBudget : ℕ)
    (params : EconomicsParams) :
    (s.settleEpochRewards totalFees rewardBudget params).2.atStake = s.atStake ↔
      s.SettlesInFull := by
  have hdropped := atStake_settleEpochRewards s totalFees rewardBudget params
  have hzero : (s.matured.map UnbondingDelegation.amount).sum = 0 ↔ s.SettlesInFull := by
    rw [List.sum_eq_zero_iff_forall_eq_nat, List.forall_mem_map]
    rfl
  rw [← hzero]
  omega

end ZenoChain.StakingSnapshot
