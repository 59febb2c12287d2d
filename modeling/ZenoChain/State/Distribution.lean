/-
# What a slash costs and what an epoch pays

A slash lowers the stake of a validator but not what its delegators hold: with a jailing all of it
goes to the unbonding list.  The settlement of an epoch divides the pool of the validators in
proportion to their stakes and pays the shares in full; the commissions are credited to the
treasury on top of them.
-/
import ZenoChain.Base.ProRata
import ZenoChain.State.Bonds
import ZenoChain.State.Delegations

namespace ZenoChain.StakingSnapshot

open ProRata Word

variable {s s' : StakingSnapshot} {a : Address} {v : ValidatorStake}

/-! ## The cost of a slash -/

/-- What the delegators of a validator hold after a slash: their delegations, and the unbonding
entries that were not there before. -/
def heldAfter (s s' : StakingSnapshot) (a : Address) : ℕ :=
  s'.delegatedTo a +
    ((s'.unbonding.drop s.unbonding.length).map UnbondingDelegation.amount).sum

lemma sum_frozenDelegations (s : StakingSnapshot) (a : Address) :
    ((s.frozenDelegations a).map UnbondingDelegation.amount).sum = s.delegatedTo a := by
  rw [frozenDelegations, delegatedTo, Table.total, List.map_map]
  induction Table.values s.delegations with
  | nil => rfl
  | cons d l ih =>
    rw [List.filter_cons, List.map_cons, List.sum_cons, ← ih]
    by_cases hd : d.validatorAddress = a
    · simp [hd]
    · simp [hd]

/-- The delegators lose nothing. -/
lemma heldAfter_slash {bps : ℕ} {reason : String} {jail : Bool}
    (h : s.slash a bps reason jail = .ok s') : s.heldAfter s' a = s.delegatedTo a := by
  rw [heldAfter, delegatedTo_slash h]
  rcases hv : s.validators[a]? with _ | v
  · rw [slash_unknown hv] at h
    cases h
  simp only [slash, hv, Except.ok.injEq] at h
  subst h
  cases jail with
  | false => simp
  | true => simp [sum_frozenDelegations]

/-- **The cost of a slash.**  What the delegators hold is lowered by the penalty exactly if the
penalty rounds to nothing. -/
theorem heldAfter_slash_iff {bps : ℕ} {reason : String} {jail : Bool} (hbacked : s.BackedAt a)
    (h : s.slash a bps reason jail = .ok s') :
    s.heldAfter s' a = s.stakeOf a - s.stakeOf a * bps / 10000 ↔ s.stakeOf a * bps < 10000 := by
  rcases hv : s.validators[a]? with _ | v
  · rw [slash_unknown hv] at h
    cases h
  rw [heldAfter_slash h, ← hbacked v hv, stakeOf_known hv]
  have hzero : v.totalStake * bps / 10000 = 0 ↔ v.totalStake * bps < 10000 := by
    rw [Nat.div_eq_zero_iff]
    omega
  rcases Nat.eq_zero_or_pos v.totalStake with hnone | hpos
  · simp [hnone]
  · rw [← hzero]
    omega

/-- A validator with a bond of its own and a commission. -/
def bonded (amount commissionBps : ℕ) : StakingSnapshot :=
  { validators := (∅ : BTreeMap Address ValidatorStake).insert 7
      { validatorAddress := 7, selfBond := amount, totalStake := amount, commissionBps
        status := .active, lastLivenessEpoch := 0 }
    delegations := (∅ : PairMap Delegation).insert (7, 7) ⟨7, 7, amount⟩ }

lemma delegatedTo_bonded (amount commissionBps : ℕ) :
    (bonded amount commissionBps).delegatedTo 7 = amount := by
  have htotal := Table.total_insert
    (fun d : Delegation => if d.validatorAddress = 7 then d.amount else 0) (∅ : PairMap Delegation)
    ((7, 7) : Address × Address) ⟨7, 7, amount⟩
  have hempty : Table.total (fun d : Delegation => if d.validatorAddress = 7 then d.amount else 0)
      (∅ : PairMap Delegation) = 0 := rfl
  rw [hempty, Std.ExtTreeMap.getElem?_empty] at htotal
  rw [delegatedTo, bonded]
  simpa using htotal

lemma validators_bonded (amount commissionBps : ℕ) :
    (bonded amount commissionBps).validators[(7 : Address)]? =
      some { validatorAddress := 7, selfBond := amount, totalStake := amount, commissionBps
             status := .active, lastLivenessEpoch := 0 } := by
  rw [bonded, Table.getElem?_insert, if_pos rfl]

lemma backedAt_bonded (amount commissionBps : ℕ) : (bonded amount commissionBps).BackedAt 7 := by
  intro v hv
  rw [validators_bonded] at hv
  obtain rfl := Option.some.inj hv
  exact (delegatedTo_bonded amount commissionBps).symm

/-- Five percent of a hundred units are slashed, and a hundred units are unbonding. -/
theorem slash_costs_nothing : (bonded 100 0).BackedAt 7 ∧ (bonded 100 0).stakeOf 7 = 100 ∧
    ∃ s', (bonded 100 0).slash 7 500 "double sign" true = .ok s' ∧
      (bonded 100 0).heldAfter s' 7 = 100 ∧ (bonded 100 0).heldAfter s' 7 ≠ 100 - 100 * 500 / 10000 := by
  obtain ⟨s', hs'⟩ := slash_eq_ok (validators_bonded 100 0) 500 "double sign" true
  have hheld : (bonded 100 0).heldAfter s' 7 = 100 := by
    rw [heldAfter_slash hs', delegatedTo_bonded]
  exact ⟨backedAt_bonded 100 0, stakeOf_known (validators_bonded 100 0), s', hs', hheld, by
    rw [hheld]
    decide⟩

/-- A penalty of less than a unit costs nothing either, as it should. -/
theorem small_slash_costs_nothing : ∃ s', (bonded 100 0).slash 7 99 "downtime" true = .ok s' ∧
    (bonded 100 0).heldAfter s' 7 =
      (bonded 100 0).stakeOf 7 - (bonded 100 0).stakeOf 7 * 99 / 10000 := by
  obtain ⟨s', hs'⟩ := slash_eq_ok (validators_bonded 100 0) 99 "downtime" true
  refine ⟨s', hs', (heldAfter_slash_iff (backedAt_bonded 100 0) hs').mpr ?_⟩
  rw [stakeOf_known (validators_bonded 100 0)]
  decide

/-! ## The settlement of an epoch -/

/-- The stake of the active validators. -/
def activeStake (s : StakingSnapshot) : ℕ :=
  ((Table.values s.validators).filter fun v => v.status = .active).map ValidatorStake.totalStake |>.sum

/-- What the treasury takes of an amount. -/
def treasuryCut (params : EconomicsParams) (amount : ℕ) : ℕ :=
  saturatingMul 128 amount params.treasuryBps / 10000

/-- What it leaves to the validators. -/
def validatorPool (params : EconomicsParams) (amount : ℕ) : ℕ := amount - treasuryCut params amount

/-- An amount is paid out in full and not more, in proportion to the stakes: the rewards are the
shares in the pool, and what the rewards and the treasury do not get is less than a unit for each
of the validators. -/
structure Distributes (s : StakingSnapshot) (amount : ℕ) (params : EconomicsParams)
    (rewards : BTreeMap Address ℕ) (s' : StakingSnapshot) : Prop where
  le : Table.total id rewards + (s'.treasuryBalance - s.treasuryBalance) ≤ amount
  lt : amount <
    Table.total id rewards + (s'.treasuryBalance - s.treasuryBalance) + s.rewarded.length
  shares : ∀ e ∈ s.rewarded,
    rewards[e.1]? = some (share (validatorPool params amount) s.activeStake e.2.totalStake)

/-- The commission on the share of a validator. -/
def commission (s : StakingSnapshot) (pool : ℕ) (v : ValidatorStake) : ℕ :=
  saturatingMul 128 (share pool s.activeStake v.totalStake) v.commissionBps / 10000

/-- What the shares leave of a pool. -/
def remainder (s : StakingSnapshot) (pool : ℕ) : ℕ :=
  pool - (s.rewarded.map fun e => share pool s.activeStake e.2.totalStake).sum

/-- No share is cut off by the largest product, the commissions find nothing to be paid from but
the remainder, or no room, and the treasury has room for its cut. -/
structure PaysOut (s : StakingSnapshot) (amount : ℕ) (params : EconomicsParams) : Prop where
  products : ∀ e ∈ s.rewarded,
    share (validatorPool params amount) s.activeStake e.2.totalStake ≤ maxValue 128 / s.activeStake
  commissions :
    min (s.rewarded.map fun e => s.commission (validatorPool params amount) e.2).sum
        (maxValue 128 - s.treasuryBalance - treasuryCut params amount) ≤
      s.remainder (validatorPool params amount)
  treasury : treasuryCut params amount + s.remainder (validatorPool params amount) <
    maxValue 128 - s.treasuryBalance + s.rewarded.length

/-! ### Sums -/

lemma activeStake_eq (s : StakingSnapshot) :
    s.activeStake = (s.rewarded.map fun e => e.2.totalStake).sum := by
  rw [activeStake, rewarded, Table.values]
  induction s.validators.toList with
  | nil => rfl
  | cons e l ih =>
    by_cases hactive : e.2.status = .active
    · by_cases hzero : e.2.totalStake = 0
      · simpa [hactive, hzero] using ih
      · simpa [hactive, hzero] using ih
    · simpa [hactive] using ih

/-- A sum that fits is added without wrapping around. -/
lemma foldl_wrappingAdd {l : List ℕ} {n : ℕ} (h : n + l.sum < 2 ^ 128) :
    l.foldl (wrappingAdd 128) n = n + l.sum := by
  induction l generalizing n with
  | nil => rfl
  | cons a l ih =>
    rw [List.sum_cons, ← Nat.add_assoc] at h
    rw [List.foldl_cons, wrappingAdd_of_lt (by omega), ih h, List.sum_cons, Nat.add_assoc]

lemma totalActiveStake_eq (h : s.activeStake < 2 ^ 128) : s.totalActiveStake = s.activeStake := by
  have hfold := foldl_wrappingAdd (n := 0) (by rwa [Nat.zero_add])
  rw [Nat.zero_add] at hfold
  exact hfold

lemma foldl_saturatingAdd {α : Type} (f : α → ℕ) (l : List α) {n : ℕ} (h : n ≤ maxValue 128) :
    l.foldl (fun t e => saturatingAdd 128 t (f e)) n = min (n + (l.map f).sum) (maxValue 128) := by
  induction l generalizing n with
  | nil => simpa using h
  | cons e l ih =>
    have hle : saturatingAdd 128 n (f e) ≤ maxValue 128 := min_le_right _ _
    rw [List.foldl_cons, ih hle, saturatingAdd, List.map_cons, List.sum_cons]
    omega

/-- A reward is the share, as far as the largest product allows. -/
lemma grossReward_eq (pool total : ℕ) (v : ValidatorStake) :
    grossReward pool total v = min (share pool total v.totalStake) (maxValue 128 / total) := by
  rw [grossReward, saturatingMul, share]
  rcases le_total (pool * v.totalStake) (maxValue 128) with h | h
  · rw [min_eq_left h, min_eq_left (Nat.div_le_div_right h)]
  · rw [min_eq_right h, min_eq_right (Nat.div_le_div_right h)]

/-! ### The settlement -/

section

variable {totalFees rewardBudget : ℕ} {params : EconomicsParams}

lemma treasuryCut_le (hbps : params.treasuryBps ≤ 10000) (amount : ℕ) :
    treasuryCut params amount ≤ amount := by
  have hmul := (saturatingMul_le (w := 128)).trans (Nat.mul_le_mul_left amount hbps)
  rw [treasuryCut]
  omega

/-- What the settlement returns and leaves in the treasury. -/
lemma settleEpochRewards_eq (params : EconomicsParams) (hpos : 0 < s.activeStake) (hstake : s.activeStake < 2 ^ 128)
    (hamount : totalFees + rewardBudget < 2 ^ 128) :
    (s.settleEpochRewards totalFees rewardBudget params).1 =
        Table.insertAll ∅ (s.rewarded.map fun e =>
          (e.1, grossReward (validatorPool params (totalFees + rewardBudget)) s.activeStake e.2)) ∧
      (s.settleEpochRewards totalFees rewardBudget params).2.treasuryBalance =
        s.rewarded.foldl (fun t e => saturatingAdd 128 t
            (saturatingMul 128
              (grossReward (validatorPool params (totalFees + rewardBudget)) s.activeStake e.2)
              e.2.commissionBps / 10000))
          (saturatingAdd 128 s.treasuryBalance (treasuryCut params (totalFees + rewardBudget))) := by
  rw [settleEpochRewards, totalActiveStake_eq hstake, if_neg hpos.ne',
    saturatingAdd_of_lt hamount]
  refine ⟨?_, rfl⟩
  rw [Table.insertAll, List.foldl_map]
  rfl

lemma nodup_rewarded (s : StakingSnapshot) : (s.rewarded.map Prod.fst).Nodup :=
  (Table.nodup_keys s.validators).sublist (List.filter_sublist.map Prod.fst)

variable {amount pool : ℕ}

lemma getElem?_insertAll_rewarded (s : StakingSnapshot) (f : ValidatorStake → ℕ)
    {e : Address × ValidatorStake} (he : e ∈ s.rewarded) :
    (Table.insertAll (∅ : BTreeMap Address ℕ) (s.rewarded.map fun e => (e.1, f e.2)))[e.1]? =
      some (f e.2) := by
  refine (Table.getElem?_insertAll_empty_iff fun w hv hw => ?_).mpr
    (List.mem_map_of_mem (f := fun e => (e.1, f e.2)) he)
  obtain ⟨e', he', heq⟩ := List.mem_map.mp hw
  obtain ⟨hkey, rfl⟩ := Prod.mk.inj heq
  have hvalue := Table.mem_toList_iff.mp (List.mem_of_mem_filter he)
  have hvalue' := Table.mem_toList_iff.mp (List.mem_of_mem_filter he')
  rw [hkey, hvalue] at hvalue'
  rw [Option.some.inj hvalue']

/-- Where no share is cut off, the rewards are the pool without its remainder. -/
lemma total_rewards (hpos : 0 < s.activeStake) (hproducts : ∀ e ∈ s.rewarded,
      share pool s.activeStake e.2.totalStake ≤ maxValue 128 / s.activeStake) :
    Table.total id (Table.insertAll (∅ : BTreeMap Address ℕ) (s.rewarded.map fun e =>
        (e.1, grossReward pool s.activeStake e.2))) + s.remainder pool = pool ∧
      s.remainder pool < s.rewarded.length := by
  have hgross : ∀ e ∈ s.rewarded,
      grossReward pool s.activeStake e.2 = share pool s.activeStake e.2.totalStake := fun e he => by
    rw [grossReward_eq, min_eq_left (hproducts e he)]
  have htotal : Table.total id (Table.insertAll (∅ : BTreeMap Address ℕ) (s.rewarded.map fun e =>
      (e.1, grossReward pool s.activeStake e.2))) =
      (s.rewarded.map fun e => share pool s.activeStake e.2.totalStake).sum := by
    rw [Table.total_insertAll id (by rw [List.map_map]; exact nodup_rewarded s)
      fun _ _ => Std.ExtTreeMap.getElem?_empty, List.map_map]
    exact (Nat.zero_add _).trans (congrArg List.sum (List.map_congr_left hgross))
  have hweights := s.activeStake_eq
  have hsum : 0 < (s.rewarded.map fun e => e.2.totalStake).sum := hweights ▸ hpos
  have hle := sum_share_le pool hsum
  have hlt := lt_sum_share pool hsum
  rw [← hweights, List.map_map] at hle hlt
  rw [List.length_map] at hlt
  simp only [Function.comp_def] at hle hlt
  exact ⟨by rw [htotal, remainder]; omega, by rw [remainder]; omega⟩

/-- The treasury gets its cut and the commissions, as far as it has room. -/
lemma treasuryBalance_of_products (hproducts : ∀ e ∈ s.rewarded,
      share pool s.activeStake e.2.totalStake ≤ maxValue 128 / s.activeStake) (cut : ℕ) :
    s.rewarded.foldl (fun t e => saturatingAdd 128 t
        (saturatingMul 128 (grossReward pool s.activeStake e.2) e.2.commissionBps / 10000))
        (saturatingAdd 128 s.treasuryBalance cut) =
      min (s.treasuryBalance + cut + (s.rewarded.map fun e => s.commission pool e.2).sum)
        (maxValue 128) := by
  have hcommission : (s.rewarded.map fun e =>
      saturatingMul 128 (grossReward pool s.activeStake e.2) e.2.commissionBps / 10000) =
      s.rewarded.map fun e => s.commission pool e.2 := List.map_congr_left fun e he => by
    rw [grossReward_eq, min_eq_left (hproducts e he), commission]
  have hfold := foldl_saturatingAdd (fun e : Address × ValidatorStake =>
      saturatingMul 128 (grossReward pool s.activeStake e.2) e.2.commissionBps / 10000) s.rewarded
    (show saturatingAdd 128 s.treasuryBalance cut ≤ maxValue 128 from min_le_right _ _)
  rw [hfold, hcommission, saturatingAdd]
  omega

/-- What is paid, from what is in the pool, what the cut and the commissions are, and how much
room there is. -/
lemma paid_iff {cut rewards rest n balance room : ℕ} (hsplit : amount = cut + pool)
    (hrest : rewards + rest = pool) (hshort : rest < n) (hroom : balance ≤ room) (commissions : ℕ) :
    (rewards + (min (balance + cut + commissions) room - balance) ≤ amount ∧
      amount < rewards + (min (balance + cut + commissions) room - balance) + n) ↔
    min commissions (room - balance - cut) ≤ rest ∧ cut + rest < room - balance + n := by
  omega

/-- **The settlement of an epoch.**  A total that fits is distributed exactly if no share is cut
off, and the treasury gets its cut and no commission beyond the remainder of the division. -/
theorem settleEpochRewards_distributes_iff (hpos : 0 < s.activeStake)
    (hstake : s.activeStake < 2 ^ 128) (htreasury : s.treasuryBalance < 2 ^ 128)
    (hamount : totalFees + rewardBudget < 2 ^ 128) (hbps : params.treasuryBps ≤ 10000) :
    s.Distributes (totalFees + rewardBudget) params
        (s.settleEpochRewards totalFees rewardBudget params).1
        (s.settleEpochRewards totalFees rewardBudget params).2 ↔
      s.PaysOut (totalFees + rewardBudget) params := by
  obtain ⟨hrewards, hbalance⟩ := settleEpochRewards_eq params hpos hstake hamount
  have hshares : (∀ e ∈ s.rewarded, (s.settleEpochRewards totalFees rewardBudget params).1[e.1]? =
      some (share (validatorPool params (totalFees + rewardBudget)) s.activeStake e.2.totalStake)) ↔
      ∀ e ∈ s.rewarded,
        share (validatorPool params (totalFees + rewardBudget)) s.activeStake e.2.totalStake ≤
          maxValue 128 / s.activeStake := by
    refine forall₂_congr fun e he => ?_
    rw [hrewards, getElem?_insertAll_rewarded s _ he, grossReward_eq, Option.some.injEq,
      min_eq_left_iff]
  have hsplit : totalFees + rewardBudget = treasuryCut params (totalFees + rewardBudget) +
      validatorPool params (totalFees + rewardBudget) :=
    (Nat.add_sub_cancel' (treasuryCut_le hbps _)).symm
  have hroom := le_maxValue_iff.mpr htreasury
  constructor
  · rintro ⟨hle, hlt, hall⟩
    have hproducts := hshares.mp hall
    obtain ⟨hrest, hshort⟩ := total_rewards hpos hproducts
    rw [hrewards, hbalance, treasuryBalance_of_products hproducts] at hle hlt
    obtain ⟨hcommissions, hcut⟩ := (paid_iff hsplit hrest hshort hroom _).mp ⟨hle, hlt⟩
    exact ⟨hproducts, hcommissions, hcut⟩
  · rintro ⟨hproducts, hcommissions, hcut⟩
    obtain ⟨hrest, hshort⟩ := total_rewards hpos hproducts
    obtain ⟨hle, hlt⟩ := (paid_iff hsplit hrest hshort hroom _).mpr ⟨hcommissions, hcut⟩
    rw [← treasuryBalance_of_products hproducts, ← hrewards, ← hbalance] at hle hlt
    exact ⟨hle, hlt, hshares.mpr hproducts⟩

end

/-! ### One validator -/

/-- Parameters with a share of the treasury. -/
def treasuryParams (treasuryBps : ℕ) : EconomicsParams :=
  { minimumSelfBond := 1, epochLength := 1, unbondingEpochs := 7, treasuryBps
    downtimeSlashBps := 100, doubleSignSlashBps := 500 }

/-- With a commission of ten percent, eleven hundred units are paid out of a thousand; without
one, `2 ^ 64` units for a stake of `2 ^ 64` are not paid in full, as the product is cut off. -/
theorem settlement_not_distributed :
    ((bonded 100 1000).activeStake = 100 ∧
      ¬ (bonded 100 1000).Distributes 1000 (treasuryParams 0)
        ((bonded 100 1000).settleEpochRewards 1000 0 (treasuryParams 0)).1
        ((bonded 100 1000).settleEpochRewards 1000 0 (treasuryParams 0)).2) ∧
    (bonded (2 ^ 64) 0).activeStake = 2 ^ 64 ∧
      ¬ (bonded (2 ^ 64) 0).Distributes (2 ^ 64) (treasuryParams 0)
        ((bonded (2 ^ 64) 0).settleEpochRewards (2 ^ 64) 0 (treasuryParams 0)).1
        ((bonded (2 ^ 64) 0).settleEpochRewards (2 ^ 64) 0 (treasuryParams 0)).2 := by
  refine ⟨⟨by decide +kernel, fun h => absurd h.le (by decide +kernel)⟩, by decide +kernel,
    fun h => absurd h.lt (by decide +kernel)⟩

/-- A thousand units without a commission are divided between the treasury and the validator. -/
theorem settlement_distributed :
    (bonded 100 0).Distributes (1000 + 0) (treasuryParams 1000)
      ((bonded 100 0).settleEpochRewards 1000 0 (treasuryParams 1000)).1
      ((bonded 100 0).settleEpochRewards 1000 0 (treasuryParams 1000)).2 :=
  (settleEpochRewards_distributes_iff (by decide +kernel) (by decide +kernel) (by decide +kernel)
    (by decide) (by decide)).mpr
      ⟨by decide +kernel, by decide +kernel, by decide +kernel⟩

end ZenoChain.StakingSnapshot
