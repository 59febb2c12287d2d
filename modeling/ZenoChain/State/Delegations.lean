/-
# Stakes and delegations

The total stake of a validator is a field of its record, kept beside the delegations to it.
Bonding and unbonding change both.  A slash changes them apart: without a jailing it lowers the
stake and leaves the delegations, with one it moves all delegations to the unbonding list and
leaves what remains of the stake.
-/
import Mathlib.Data.List.TakeWhile
import ZenoChain.Base.Handler
import ZenoChain.Base.Trace
import ZenoChain.State.Records

namespace ZenoChain

open Word

/-- The staking operations, each with its arguments. -/
inductive StakingOp
  | ensureValidators (validators : List Validator)
  | delegate (delegator validatorAddress : Address) (amount : ℕ) (isSelfBond : Bool)
  | beginUnbonding (delegator validatorAddress : Address) (amount : ℕ) (params : EconomicsParams)
  | slash (validatorAddress : Address) (slashBps : ℕ) (reason : String) (jail : Bool)
  | applyEvidence (evidence : List Evidence) (params : EconomicsParams)
  | applyDowntimeSlashing (params : EconomicsParams)
  | noteLiveness (validatorAddress : Address)
  | settleEpochRewards (totalFees rewardBudget : ℕ) (params : EconomicsParams)

namespace StakingSnapshot

/-! ## The operations on a snapshot in place -/

/-- An operation that changes nothing when it fails. -/
def inPlace (f : StakingSnapshot → Except StateError StakingSnapshot) :
    EStateM StateError StakingSnapshot Unit := fun s =>
  match f s with
  | .ok s' => .ok () s'
  | .error e => .error e s

/-- Starts unbonding for a delegation.  The delegation is lowered before the validator is looked
up, and the stake is subtracted without a check. -/
def beginUnbonding (delegator validatorAddress : Address) (amount : ℕ) (params : EconomicsParams) :
    EStateM StateError StakingSnapshot Unit := fun s =>
  match s.delegations[(delegator, validatorAddress)]? with
  | none => .error (.state "delegation not found") s
  | some delegation =>
    if delegation.amount < amount then .error (.state "insufficient delegated amount") s
    else
      let s := { s with
        delegations := s.delegations.insert (delegator, validatorAddress)
          { delegation with amount := delegation.amount - amount } }
      match s.validators[validatorAddress]? with
      | none => .error (.state "unknown validator") s
      | some validator =>
        .ok () { s with
          validators := s.validators.insert validatorAddress
            { validator with
              totalStake := wrappingSub 128 validator.totalStake amount
              selfBond := if delegator = validatorAddress then
                  saturatingSub validator.selfBond amount
                else validator.selfBond }
          unbonding := s.unbonding ++ [⟨delegator, validatorAddress, amount,
            saturatingAdd 64 s.epoch params.unbondingEpochs⟩] }

/-- The loop of `apply_evidence` in place: what was slashed before an error stays slashed. -/
def slashEquivocators (params : EconomicsParams) :
    List Evidence → List Address → EStateM StateError StakingSnapshot Unit
  | [], _ => pure ()
  | item :: evidence, slashed =>
    if item.validatorAddress ∈ slashed then slashEquivocators params evidence slashed
    else if isEquivocation item then do
      inPlace fun s => s.slash item.validatorAddress params.doubleSignSlashBps item.reason true
      slashEquivocators params evidence (item.validatorAddress :: slashed)
    else slashEquivocators params evidence slashed

/-- Slashes and jails validators, each with the reason given, up to the first that is unknown. -/
def slashEach (slashBps : ℕ) : List (Address × String) → EStateM StateError StakingSnapshot Unit
  | [] => pure ()
  | (address, reason) :: rest => do
    inPlace fun s => s.slash address slashBps reason true
    slashEach slashBps rest

/-- Downtime slashing in place. -/
def slashStale (params : EconomicsParams) : EStateM StateError StakingSnapshot Unit := fun s =>
  slashEach params.downtimeSlashBps (s.stale.map fun address => (address, "downtime")) s

end StakingSnapshot

open StakingSnapshot in
/-- What an operation does to the snapshot. -/
def StakingOp.run : StakingOp → EStateM StateError StakingSnapshot Unit
  | ensureValidators validators => modify fun s => s.ensureValidators validators
  | delegate delegator validatorAddress amount isSelfBond =>
    inPlace fun s => s.delegate delegator validatorAddress amount isSelfBond
  | beginUnbonding delegator validatorAddress amount params =>
    StakingSnapshot.beginUnbonding delegator validatorAddress amount params
  | slash validatorAddress slashBps reason jail =>
    inPlace fun s => s.slash validatorAddress slashBps reason jail
  | applyEvidence evidence params => slashEquivocators params evidence []
  | applyDowntimeSlashing params => slashStale params
  | noteLiveness validatorAddress => inPlace fun s => s.noteLiveness validatorAddress
  | settleEpochRewards totalFees rewardBudget params =>
    modify fun s => (s.settleEpochRewards totalFees rewardBudget params).2

namespace StakingSnapshot

/-- The snapshot after an operation, successful or not. -/
def step (s : StakingSnapshot) (op : StakingOp) : StakingSnapshot := Handler.final (op.run s)

variable {s s' : StakingSnapshot} {a b : Address} {v : ValidatorStake} {params : EconomicsParams}

lemma inPlace_ok {f : StakingSnapshot → Except StateError StakingSnapshot}
    (h : f s = .ok s') : inPlace f s = .ok () s' := by
  rw [inPlace, h]

lemma inPlace_error {f : StakingSnapshot → Except StateError StakingSnapshot} {e : StateError}
    (h : f s = .error e) : inPlace f s = .error e s := by
  rw [inPlace, h]

/-! ## Stakes and the delegations behind them -/

/-- The sum of the delegations to a validator. -/
def delegatedTo (s : StakingSnapshot) (a : Address) : ℕ :=
  Table.total (fun d : Delegation => if d.validatorAddress = a then d.amount else 0) s.delegations

/-- The total stake of a validator, if it has a record, is the sum of the delegations to it. -/
def BackedAt (s : StakingSnapshot) (a : Address) : Prop :=
  ∀ v, s.validators[a]? = some v → v.totalStake = s.delegatedTo a

/-- Every total stake is the sum of the delegations. -/
def Backed (s : StakingSnapshot) : Prop := ∀ a, s.BackedAt a

/-- No subtraction of `begin_unbonding` underflows: nobody has delegated more to a validator than
its total stake. -/
def Covered (s : StakingSnapshot) : Prop :=
  ∀ (k : Address × Address) (d : Delegation) (v : ValidatorStake), s.delegations[k]? = some d →
    s.validators[k.2]? = some v → d.amount ≤ v.totalStake

/-- Records and delegations stand under the keys that they name, the delegations go to validators
with a record, and stakes are words of 128 bits. -/
structure Tidy (s : StakingSnapshot) : Prop where
  keyed : s.Keyed
  named : ∀ (k : Address × Address) (d : Delegation), s.delegations[k]? = some d →
    d.validatorAddress = k.2
  known : ∀ (k : Address × Address) (d : Delegation), s.delegations[k]? = some d →
    s.validators[k.2]?.isSome
  word : ∀ (a : Address) (v : ValidatorStake), s.validators[a]? = some v → v.totalStake < 2 ^ 128

lemma amount_le_delegatedTo (h : s.Tidy) {k : Address × Address} {d : Delegation}
    (hd : s.delegations[k]? = some d) : d.amount ≤ s.delegatedTo k.2 := by
  have hle := Table.share_le_total
    (fun d : Delegation => if d.validatorAddress = k.2 then d.amount else 0) s.delegations k
  rw [hd, Option.map_some, Option.getD_some, if_pos (h.named k d hd)] at hle
  exact hle

lemma Backed.covered (h : s.Backed) (htidy : s.Tidy) : s.Covered := by
  intro k d v hd hv
  rw [h k.2 v hv]
  exact amount_le_delegatedTo htidy hd

/-- Nobody has delegated to an address without a record. -/
lemma delegatedTo_of_unknown (h : s.Tidy) (ha : s.validators[a]? = none) : s.delegatedTo a = 0 := by
  refine List.sum_eq_zero fun x hx => ?_
  obtain ⟨d, hd, rfl⟩ := List.mem_map.mp hx
  obtain ⟨k, hk⟩ := Table.mem_values_iff.mp hd
  refine if_neg fun hname => ?_
  have hsome := h.known k d hk
  rw [← h.named k d hk, hname, ha] at hsome
  cases hsome

/-- A delegation record is replaced or added. -/
lemma delegatedTo_insert (h : s.Tidy) {k : Address × Address} {d : Delegation}
    (hd : d.validatorAddress = k.2) (a : Address) :
    delegatedTo { s with delegations := s.delegations.insert k d } a +
        (if k.2 = a then (s.delegations[k]?.map Delegation.amount).getD 0 else 0) =
      s.delegatedTo a + if k.2 = a then d.amount else 0 := by
  have htotal := Table.total_insert
    (fun d : Delegation => if d.validatorAddress = a then d.amount else 0) s.delegations k d
  rw [hd] at htotal
  rw [delegatedTo, delegatedTo, ← htotal]
  congr 1
  rcases hk : s.delegations[k]? with _ | old
  · simp
  · simp [h.named k old hk]

/-! ## Slashes -/

/-- A slash of a stake rounds to nothing. -/
def Spares (stake slashBps : ℕ) : Prop := stake * slashBps < 10000

/-- A slash takes all of a stake, and the product fits. -/
def TakesAll (stake slashBps : ℕ) : Prop :=
  (stake = 0 ∨ 10000 ≤ slashBps) ∧ stake * 10000 < 2 ^ 128

instance (stake slashBps : ℕ) : Decidable (Spares stake slashBps) := Nat.decLt _ _

instance (stake slashBps : ℕ) : Decidable (TakesAll stake slashBps) :=
  inferInstanceAs (Decidable (_ ∧ _))

/-- What a slash leaves of a stake. -/
def stakeLeft (stake slashBps : ℕ) : ℕ :=
  saturatingSub stake (saturatingMul 128 stake slashBps / 10000)

lemma stakeLeft_eq_self_iff (stake slashBps : ℕ) :
    stakeLeft stake slashBps = stake ↔ Spares stake slashBps := by
  have hdiv : saturatingMul 128 stake slashBps / 10000 = 0 ↔ stake * slashBps < 10000 := by
    rw [Nat.div_eq_zero_iff, saturatingMul, maxValue]
    omega
  rw [Spares, ← hdiv, stakeLeft, saturatingSub]
  rcases Nat.eq_zero_or_pos stake with rfl | hpos
  · simp [saturatingMul]
  · omega

lemma stakeLeft_eq_zero_iff (stake slashBps : ℕ) :
    stakeLeft stake slashBps = 0 ↔ TakesAll stake slashBps := by
  rw [stakeLeft, saturatingSub, Nat.sub_eq_zero_iff_le, Nat.le_div_iff_mul_le (by decide),
    saturatingMul, le_min_iff, TakesAll, le_maxValue_iff]
  refine and_congr_left' ?_
  rcases Nat.eq_zero_or_pos stake with rfl | hpos
  · simp
  · rw [Nat.mul_le_mul_left_iff hpos, or_iff_right (Nat.pos_iff_ne_zero.mp hpos)]

section Slash

variable {slashBps : ℕ} {reason : String} {jail : Bool}

lemma slash_eq_ok (hv : s.validators[a]? = some v) (slashBps : ℕ) (reason : String) (jail : Bool) :
    ∃ s', s.slash a slashBps reason jail = .ok s' :=
  (slash_ok_iff s a slashBps reason jail).mpr (by rw [hv]; rfl)

lemma slash_unknown (ha : s.validators[a]? = none) (slashBps : ℕ) (reason : String) (jail : Bool) :
    s.slash a slashBps reason jail = .error (.state "unknown validator") := by
  rw [slash, ha]

/-- A slash writes one record. -/
lemma getElem?_slash (hv : s.validators[a]? = some v)
    (h : s.slash a slashBps reason jail = .ok s') (b : Address) :
    s'.validators[b]? = if b = a then
      some { v with
        totalStake := stakeLeft v.totalStake slashBps
        selfBond := min v.selfBond (stakeLeft v.totalStake slashBps)
        status := if jail then .jailed else v.status }
    else s.validators[b]? := by
  simp only [slash, hv, Except.ok.injEq] at h
  subst h
  exact Table.getElem?_insert _ _ _ _

/-- A slash with a jailing takes back all delegations to the validator. -/
lemma delegatedTo_slash (h : s.slash a slashBps reason jail = .ok s') (b : Address) :
    s'.delegatedTo b = if jail = true ∧ b = a then 0 else s.delegatedTo b := by
  rcases hv : s.validators[a]? with _ | v
  · rw [slash_unknown hv] at h
    cases h
  simp only [slash, hv, Except.ok.injEq] at h
  subst h
  cases jail with
  | false => simp [delegatedTo]
  | true =>
    simp only [if_true, true_and]
    rw [delegatedTo, delegatedTo, Table.total, Table.values_map, List.map_map]
    by_cases hb : b = a
    · rw [if_pos hb]
      refine List.sum_eq_zero fun x hx => ?_
      obtain ⟨e, -, rfl⟩ := List.mem_map.mp hx
      by_cases he : e.2.validatorAddress = a
      · simp [he]
      · simp [he, hb]
    · rw [if_neg hb, Table.total, Table.values, List.map_map]
      congr 1
      refine List.map_congr_left fun e _ => ?_
      by_cases he : e.2.validatorAddress = a
      · simp [he, Ne.symm hb]
      · simp [he]

lemma Tidy.slash (h : s.Tidy) (hslash : s.slash a slashBps reason jail = .ok s') : s'.Tidy := by
  rcases hv : s.validators[a]? with _ | v
  · rw [slash_unknown hv] at hslash
    cases hslash
  have hrecords := sameRecords_slash hslash
  have hdelegations : ∀ (k : Address × Address) (d : Delegation), s'.delegations[k]? = some d →
      ∃ old, s.delegations[k]? = some old ∧ d.validatorAddress = old.validatorAddress := by
    simp only [StakingSnapshot.slash, hv, Except.ok.injEq] at hslash
    subst hslash
    intro k d hd
    cases jail with
    | false => exact ⟨d, hd, rfl⟩
    | true =>
      simp only [if_true, Std.ExtTreeMap.getElem?_map, Option.map_eq_some_iff] at hd
      obtain ⟨old, hold, rfl⟩ := hd
      refine ⟨old, hold, ?_⟩
      split <;> rfl
  refine ⟨hrecords.keyed h.keyed, fun k d hd => ?_, fun k d hd => ?_, fun b w hw => ?_⟩
  · obtain ⟨old, hold, hname⟩ := hdelegations k d hd
    rw [hname, h.named k old hold]
  · obtain ⟨old, hold, -⟩ := hdelegations k d hd
    exact (hrecords.isSome _).mpr (h.known k old hold)
  · rw [getElem?_slash hv hslash] at hw
    split at hw
    · obtain rfl := Option.some.inj hw
      exact lt_of_le_of_lt (Nat.sub_le _ _) (h.word a v hv)
    · exact h.word b w hw

lemma backedAt_slash_of_ne (h : s.slash a slashBps reason jail = .ok s') (hb : b ≠ a) :
    s'.BackedAt b ↔ s.BackedAt b := by
  rcases hv : s.validators[a]? with _ | v
  · rw [slash_unknown hv] at h
    cases h
  rw [BackedAt, BackedAt, getElem?_slash hv h, if_neg hb, delegatedTo_slash h,
    if_neg fun hc => hb hc.2]

lemma backedAt_slash_jail (hv : s.validators[a]? = some v)
    (h : s.slash a slashBps reason true = .ok s') :
    s'.BackedAt a ↔ TakesAll v.totalStake slashBps := by
  have hnone : s'.delegatedTo a = 0 := by simp [delegatedTo_slash h]
  rw [BackedAt, getElem?_slash hv h, if_pos rfl, hnone, ← stakeLeft_eq_zero_iff]
  simp

lemma backedAt_slash_keep (hv : s.validators[a]? = some v) (hbacked : s.BackedAt a)
    (h : s.slash a slashBps reason false = .ok s') :
    s'.BackedAt a ↔ Spares v.totalStake slashBps := by
  have hsame : s'.delegatedTo a = v.totalStake := by simp [delegatedTo_slash h, hbacked v hv]
  rw [BackedAt, getElem?_slash hv h, if_pos rfl, hsame, ← stakeLeft_eq_self_iff]
  simp

end Slash

/-! ## Slashing one after the other -/

/-- The stake of a validator; zero without a record. -/
def stakeOf (s : StakingSnapshot) (a : Address) : ℕ :=
  (s.validators[a]?.map ValidatorStake.totalStake).getD 0

lemma stakeOf_known (hv : s.validators[a]? = some v) : s.stakeOf a = v.totalStake := by
  rw [stakeOf, hv]
  rfl

/-- The validators that are slashed in turn: those before the first unknown one. -/
def reached (s : StakingSnapshot) (l : List (Address × String)) : List Address :=
  (l.map Prod.fst).takeWhile fun a => s.validators[a]?.isSome

lemma Tidy.slashEach (h : s.Tidy) (slashBps : ℕ) (l : List (Address × String)) :
    (Handler.final (slashEach slashBps l s)).Tidy := by
  induction l generalizing s with
  | nil => exact h
  | cons e l ih =>
    rw [StakingSnapshot.slashEach]
    rcases hslash : s.slash e.1 slashBps e.2 true with err | s₁
    · rw [Handler.bind_error (inPlace_error hslash)]
      exact h
    · rw [Handler.bind_ok (inPlace_ok hslash)]
      exact ih (h.slash hslash)

/-- Each of the slashed validators is backed afterwards exactly if the slash took all; the others
are backed as before. -/
lemma backedAt_slashEach {slashBps : ℕ} {l : List (Address × String)} (h : (l.map Prod.fst).Nodup)
    (b : Address) :
    (Handler.final (slashEach slashBps l s)).BackedAt b ↔
      if b ∈ s.reached l then TakesAll (s.stakeOf b) slashBps else s.BackedAt b := by
  induction l generalizing s with
  | nil => exact (if_neg List.not_mem_nil).symm ▸ Iff.rfl
  | cons e l ih =>
    obtain ⟨a, reason⟩ := e
    rw [List.map_cons, List.nodup_cons] at h
    rw [slashEach]
    rcases hv : s.validators[a]? with _ | v
    · rw [Handler.bind_error (inPlace_error (slash_unknown hv slashBps reason true)), reached,
        List.map_cons, List.takeWhile_cons_of_neg (by rw [hv]; simp), if_neg List.not_mem_nil]
      rfl
    · obtain ⟨s₁, hs₁⟩ := slash_eq_ok hv slashBps reason true
      have hsame : ∀ c, s₁.validators[c]?.isSome = s.validators[c]?.isSome := fun c =>
        Bool.eq_iff_iff.mpr (isSome_of_slash hs₁)
      have hreached : s.reached ((a, reason) :: l) = a :: s₁.reached l := by
        rw [reached, List.map_cons, List.takeWhile_cons_of_pos (by rw [hv]; rfl), reached]
        simp only [hsame]
      have hnot : a ∉ s₁.reached l := fun hc => h.1 (List.takeWhile_subset _ hc)
      rw [Handler.bind_ok (inPlace_ok hs₁), ih h.2]
      simp only [hreached]
      by_cases hb : b = a
      · rw [hb, if_neg hnot, if_pos List.mem_cons_self, backedAt_slash_jail hv hs₁, stakeOf, hv]
        rfl
      · have hstake : s₁.stakeOf b = s.stakeOf b := by
          rw [stakeOf, getElem?_slash hv hs₁, if_neg hb, stakeOf]
        simp only [hstake, backedAt_slash_of_ne hs₁ hb, List.mem_cons, or_iff_right hb]

lemma forall_backedAt_slashEach {slashBps : ℕ} {l : List (Address × String)}
    (h : (l.map Prod.fst).Nodup) (hbacked : s.Backed) :
    (∀ b, (Handler.final (slashEach slashBps l s)).BackedAt b) ↔
      ∀ b ∈ s.reached l, TakesAll (s.stakeOf b) slashBps := by
  refine forall_congr' fun b => ?_
  rw [backedAt_slashEach h]
  split
  · rename_i hb
    rw [forall_prop_of_true hb]
  · rename_i hb
    exact iff_of_true (hbacked b) fun hc => absurd hc hb

/-- The equivocations that are punished, one for each validator. -/
def offences : List Evidence → List Address → List (Address × String)
  | [], _ => []
  | item :: evidence, slashed =>
    if item.validatorAddress ∈ slashed then offences evidence slashed
    else if isEquivocation item then
      (item.validatorAddress, item.reason) :: offences evidence (item.validatorAddress :: slashed)
    else offences evidence slashed

lemma slashEquivocators_eq (params : EconomicsParams) (evidence : List Evidence)
    (slashed : List Address) : slashEquivocators params evidence slashed =
      slashEach params.doubleSignSlashBps (offences evidence slashed) := by
  induction evidence generalizing slashed with
  | nil => rfl
  | cons item evidence ih =>
    rw [slashEquivocators, offences]
    split
    · exact ih slashed
    · split
      · rw [slashEach]
        simp only [ih]
      · exact ih slashed

/-- Nobody is punished twice. -/
lemma nodup_offences (evidence : List Evidence) (slashed : List Address) :
    ((offences evidence slashed).map Prod.fst).Nodup ∧
      ∀ e ∈ offences evidence slashed, e.1 ∉ slashed := by
  induction evidence generalizing slashed with
  | nil => exact ⟨List.nodup_nil, nofun⟩
  | cons item evidence ih =>
    rw [offences]
    split
    · exact ih slashed
    · rename_i hnew
      split
      · obtain ⟨hnodup, hfresh⟩ := ih (item.validatorAddress :: slashed)
        refine ⟨List.nodup_cons.mpr ⟨fun hmem => ?_, hnodup⟩, fun e he => ?_⟩
        · obtain ⟨e, he, heq⟩ := List.mem_map.mp hmem
          exact hfresh e he (heq ▸ List.mem_cons_self)
        · rcases List.mem_cons.mp he with rfl | he
          · exact hnew
          · exact fun hc => hfresh e he (List.mem_cons_of_mem _ hc)
      · exact ih slashed

lemma stale_eq (h : s.Keyed) : s.stale = (s.validators.toList.filter fun e =>
    e.2.status = .active ∧
      saturatingAdd 64 e.2.lastLivenessEpoch 1 < saturatingAdd 64 s.epoch 1).map Prod.fst := by
  rw [stale, Table.values, List.filter_map, List.map_map]
  refine List.map_congr_left fun e he => ?_
  exact h e.1 e.2 (Table.mem_toList_iff.mp (List.mem_of_mem_filter he))

lemma nodup_stale (h : s.Keyed) : s.stale.Nodup := by
  rw [stale_eq h]
  refine List.Nodup.map_on (fun e he e' he' heq => ?_) ((Table.nodup_toList _).filter _)
  have hv := Table.mem_toList_iff.mp (List.mem_of_mem_filter he)
  have hv' := Table.mem_toList_iff.mp (List.mem_of_mem_filter he')
  rw [heq, hv'] at hv
  exact Prod.ext heq (Option.some.inj hv).symm

/-- Every stale validator has a record, so that all of them are slashed. -/
lemma reached_stale (h : s.Keyed) :
    s.reached (s.stale.map fun a => (a, "downtime")) = s.stale := by
  rw [reached, List.map_map]
  have hid : (Prod.fst ∘ fun a : Address => (a, "downtime")) = id := rfl
  rw [hid, List.map_id]
  refine List.takeWhile_eq_self_iff.mpr fun a ha => ?_
  rw [stale_eq h] at ha
  obtain ⟨e, he, rfl⟩ := List.mem_map.mp ha
  rw [Table.mem_toList_iff.mp (List.mem_of_mem_filter he)]
  rfl

/-! ## Bonding and unbonding -/

/-- What a delegation leaves, if the validator has a record. -/
lemma delegate_known (hv : s.validators[a]? = some v) (delegator : Address) (amount : ℕ)
    (isSelfBond : Bool) :
    ∃ s' d w, s.delegate delegator a amount isSelfBond = .ok s' ∧
      s'.delegations = s.delegations.insert (delegator, a) d ∧
      s'.validators = s.validators.insert a w ∧
      d = { s.delegations.getD (delegator, a) ⟨delegator, a, 0⟩ with
        amount := saturatingAdd 128 (s.delegations.getD (delegator, a) ⟨delegator, a, 0⟩).amount
          amount } ∧
      w.validatorAddress = v.validatorAddress ∧
      w.totalStake = saturatingAdd 128 v.totalStake amount := by
  simp only [delegate, hv]
  exact ⟨_, _, _, rfl, rfl, rfl, rfl, rfl, rfl⟩

/-- What a request for unbonding leaves: nothing is changed, or the amount is taken from the
delegation and from the stake.  That the validator is unknown does not happen. -/
lemma beginUnbonding_cases (h : s.Tidy) (delegator a : Address) (amount : ℕ)
    (params : EconomicsParams) :
    Handler.final (beginUnbonding delegator a amount params s) = s ∨
      ∃ d v w, s.delegations[(delegator, a)]? = some d ∧ amount ≤ d.amount ∧
        s.validators[a]? = some v ∧
        w.validatorAddress = v.validatorAddress ∧
        w.totalStake = wrappingSub 128 v.totalStake amount ∧
        (Handler.final (beginUnbonding delegator a amount params s)).validators =
          s.validators.insert a w ∧
        (Handler.final (beginUnbonding delegator a amount params s)).delegations =
          s.delegations.insert (delegator, a) { d with amount := d.amount - amount } := by
  rcases hd : s.delegations[(delegator, a)]? with _ | d
  · left
    simp only [beginUnbonding, hd, Handler.final_error]
  · by_cases hlt : d.amount < amount
    · left
      simp only [beginUnbonding, hd, if_pos hlt, Handler.final_error]
    · right
      obtain ⟨v, hv⟩ := Option.isSome_iff_exists.mp (h.known (delegator, a) d hd)
      simp only [beginUnbonding, hd, hv, if_neg hlt, Handler.final_ok]
      exact ⟨d, v, { v with
          totalStake := wrappingSub 128 v.totalStake amount
          selfBond := if delegator = a then saturatingSub v.selfBond amount else v.selfBond },
        rfl, Nat.not_lt.mp hlt, rfl, rfl, rfl, rfl, rfl⟩

/-- A record and a delegation to it are replaced. -/
lemma Tidy.write (h : s.Tidy) (hv : s.validators[a]? = some v) {delegator : Address} {d : Delegation}
    {w : ValidatorStake} (hd : d.validatorAddress = a) (hw : w.validatorAddress = v.validatorAddress)
    (hword : w.totalStake < 2 ^ 128) (hvalidators : s'.validators = s.validators.insert a w)
    (hdelegations : s'.delegations = s.delegations.insert (delegator, a) d) : s'.Tidy := by
  have hrecords := sameRecords_of_insert hv hvalidators hw
  refine ⟨hrecords.keyed h.keyed, fun k e he => ?_, fun k e he => ?_, fun b u hu => ?_⟩
  · rw [hdelegations, Table.getElem?_insert] at he
    split at he
    · rename_i hk
      rw [← Option.some.inj he, hk, hd]
    · exact h.named k e he
  · rw [hdelegations, Table.getElem?_insert] at he
    rw [hrecords.isSome]
    split at he
    · rename_i hk
      rw [hk, hv]
      rfl
    · exact h.known k e he
  · rw [hvalidators, Table.getElem?_insert] at hu
    split at hu
    · rw [← Option.some.inj hu]
      exact hword
    · exact h.word b u hu

/-- A stake and a delegation to it move by the same amount. -/
lemma Backed.write (hbacked : s.Backed) (h : s.Tidy) (hv : s.validators[a]? = some v)
    {delegator : Address} {d : Delegation} {w : ValidatorStake} (hd : d.validatorAddress = a)
    (hmove : w.totalStake + ((s.delegations[(delegator, a)]?.map Delegation.amount).getD 0) =
      v.totalStake + d.amount)
    (hvalidators : s'.validators = s.validators.insert a w)
    (hdelegations : s'.delegations = s.delegations.insert (delegator, a) d) : s'.Backed := by
  intro b u hu
  have hb : s'.delegatedTo b +
        (if a = b then (s.delegations[(delegator, a)]?.map Delegation.amount).getD 0 else 0) =
      s.delegatedTo b + if a = b then d.amount else 0 := by
    rw [delegatedTo, hdelegations]
    exact @delegatedTo_insert s h (delegator, a) d hd b
  rw [hvalidators, Table.getElem?_insert] at hu
  split at hu
  · rename_i heq
    have hstake := hbacked a v hv
    subst heq
    rw [if_pos rfl, if_pos rfl] at hb
    rw [← Option.some.inj hu]
    omega
  · rename_i hne
    rw [if_neg (Ne.symm hne), if_neg (Ne.symm hne)] at hb
    rw [hbacked b u hu]
    omega

/-! ## Runs -/

/-- The sum that an operation makes fits in a word. -/
def Fits (s : StakingSnapshot) : StakingOp → Prop
  | .delegate _ validatorAddress amount _ => s.stakeOf validatorAddress + amount < 2 ^ 128
  | _ => True

/-- An operation that keeps stakes and delegations together: a slash without a jailing that takes
nothing, slashes with a jailing that take all. -/
def Intact (s : StakingSnapshot) : StakingOp → Prop
  | .slash validatorAddress slashBps _ jail =>
    (s.validators[validatorAddress]?).isSome →
      if jail then TakesAll (s.stakeOf validatorAddress) slashBps
      else Spares (s.stakeOf validatorAddress) slashBps
  | .applyEvidence evidence params =>
    ∀ a ∈ s.reached (offences evidence []), TakesAll (s.stakeOf a) params.doubleSignSlashBps
  | .applyDowntimeSlashing params =>
    ∀ a ∈ s.stale, TakesAll (s.stakeOf a) params.downtimeSlashBps
  | _ => True

lemma delegations_settleEpochRewards (s : StakingSnapshot) (totalFees rewardBudget : ℕ)
    (params : EconomicsParams) :
    (s.settleEpochRewards totalFees rewardBudget params).2.delegations = s.delegations := by
  rw [settleEpochRewards]
  split <;> rfl

lemma Tidy.congr (h : s.Tidy) (hvalidators : s'.validators = s.validators)
    (hdelegations : s'.delegations = s.delegations) : s'.Tidy := by
  refine ⟨?_, ?_, ?_, ?_⟩
  · rw [Keyed, hvalidators]
    exact h.keyed
  · rw [hdelegations]
    exact h.named
  · rw [hdelegations, hvalidators]
    exact h.known
  · rw [hvalidators]
    exact h.word

lemma Backed.congr (h : s.Backed) (hvalidators : s'.validators = s.validators)
    (hdelegations : s'.delegations = s.delegations) : s'.Backed := by
  intro a v hv
  rw [hvalidators] at hv
  rw [delegatedTo, hdelegations]
  exact h a v hv

/-! ### What each operation keeps -/

lemma delegate_unknown (hv : s.validators[a]? = none) (delegator : Address) (amount : ℕ)
    (isSelfBond : Bool) :
    s.delegate delegator a amount isSelfBond = .error (.state "unknown validator") := by
  rw [delegate, hv]

lemma Tidy.ensureValidators (h : s.Tidy) (vs : List Validator) : (s.ensureValidators vs).Tidy := by
  refine ⟨h.keyed.ensureValidators vs, h.named, fun k d hd => ?_, fun a v hv => ?_⟩
  · exact isSome_ensureValidators.mpr (.inr (h.known k d hd))
  · rw [getElem?_ensureValidators] at hv
    rcases hs : s.validators[a]? with _ | w
    · rw [hs] at hv
      split at hv
      · rw [← Option.some.inj hv]
        exact Nat.two_pow_pos 128
      · cases hv
    · rw [hs, Option.getD_some, ite_self] at hv
      rw [← Option.some.inj hv]
      exact h.word a w hs

lemma Backed.ensureValidators (hbacked : s.Backed) (h : s.Tidy) (vs : List Validator) :
    (s.ensureValidators vs).Backed := by
  intro a v hv
  have hsame : (s.ensureValidators vs).delegatedTo a = s.delegatedTo a := rfl
  rw [getElem?_ensureValidators] at hv
  rw [hsame]
  rcases hs : s.validators[a]? with _ | w
  · -- A new record has no stake, and nobody can have delegated to it before.
    rw [hs] at hv
    split at hv
    · rw [delegatedTo_of_unknown h hs, ← Option.some.inj hv]
      rfl
    · cases hv
  · rw [hs, Option.getD_some, ite_self] at hv
    rw [← Option.some.inj hv]
    exact hbacked a w hs

lemma Tidy.delegate (h : s.Tidy) {delegator : Address} {amount : ℕ} {isSelfBond : Bool}
    (hok : s.delegate delegator a amount isSelfBond = .ok s') : s'.Tidy := by
  rcases hv : s.validators[a]? with _ | v
  · rw [delegate_unknown hv] at hok
    cases hok
  obtain ⟨t, d, w, ht, hdelegations, hvalidators, hd, hname, hstake⟩ :=
    delegate_known hv delegator amount isSelfBond
  obtain rfl : t = s' := Except.ok.inj (ht.symm.trans hok)
  refine h.write hv ?_ hname ?_ hvalidators hdelegations
  · rw [hd, Std.ExtTreeMap.getD_eq_getD_getElem?]
    rcases hold : s.delegations[(delegator, a)]? with _ | old
    · rfl
    · exact h.named (delegator, a) old hold
  · rw [hstake]
    exact le_maxValue_iff.mp (Nat.min_le_right _ _)

lemma Backed.delegate (hbacked : s.Backed) (h : s.Tidy) {delegator : Address} {amount : ℕ}
    {isSelfBond : Bool}
    (hfits : s.stakeOf a + amount < 2 ^ 128)
    (hok : s.delegate delegator a amount isSelfBond = .ok s') : s'.Backed := by
  rcases hv : s.validators[a]? with _ | v
  · rw [delegate_unknown hv] at hok
    cases hok
  obtain ⟨t, d, w, ht, hdelegations, hvalidators, hd, hname, hstake⟩ :=
    delegate_known hv delegator amount isSelfBond
  obtain rfl : t = s' := Except.ok.inj (ht.symm.trans hok)
  rw [stakeOf_known hv] at hfits
  rw [saturatingAdd_of_lt hfits] at hstake
  rw [Std.ExtTreeMap.getD_eq_getD_getElem?] at hd
  rcases hold : s.delegations[(delegator, a)]? with _ | old
  · have hamount : saturatingAdd 128 0 amount = 0 + amount := saturatingAdd_of_lt (by omega)
    rw [hold, Option.getD_none, hamount] at hd
    refine hbacked.write h hv (by rw [hd]) ?_ hvalidators hdelegations
    rw [hold, hd, hstake, Option.map_none, Option.getD_none]
    dsimp only
    omega
  · -- The delegation fits because it is at most the stake.
    have hle := amount_le_delegatedTo h hold
    rw [← hbacked a v hv] at hle
    have hamount : saturatingAdd 128 old.amount amount = old.amount + amount :=
      saturatingAdd_of_lt (by omega)
    rw [hold, Option.getD_some, hamount] at hd
    refine hbacked.write h hv (by rw [hd]; exact h.named _ old hold) ?_ hvalidators hdelegations
    rw [hold, hd, hstake, Option.map_some, Option.getD_some]
    dsimp only
    omega

lemma Tidy.beginUnbonding (h : s.Tidy) (delegator a : Address) (amount : ℕ)
    (params : EconomicsParams) :
    (Handler.final (beginUnbonding delegator a amount params s)).Tidy := by
  rcases beginUnbonding_cases h delegator a amount params with
    hsame | ⟨d, v, w, hd, -, hv, hname, hstake, hvalidators, hdelegations⟩
  · rw [hsame]
    exact h
  · refine h.write hv ?_ hname ?_ hvalidators hdelegations
    · exact h.named (delegator, a) d hd
    · rw [hstake]
      exact Nat.mod_lt _ (Nat.two_pow_pos 128)

lemma Backed.beginUnbonding (hbacked : s.Backed) (h : s.Tidy) (delegator a : Address) (amount : ℕ)
    (params : EconomicsParams) :
    (Handler.final (beginUnbonding delegator a amount params s)).Backed := by
  rcases beginUnbonding_cases h delegator a amount params with
    hsame | ⟨d, v, w, hd, hle, hv, hname, hstake, hvalidators, hdelegations⟩
  · rw [hsame]
    exact hbacked
  · have hcovered : d.amount ≤ v.totalStake := hbacked.covered h (delegator, a) d v hd hv
    have hname' : ({ d with amount := d.amount - amount } : Delegation).validatorAddress = a :=
      h.named (delegator, a) d hd
    refine hbacked.write h hv hname' ?_ hvalidators hdelegations
    rw [hd, hstake, wrappingSub_of_le (hle.trans hcovered) (h.word a v hv), Option.map_some,
      Option.getD_some]
    dsimp only
    omega

lemma Tidy.noteLiveness (h : s.Tidy) (hok : s.noteLiveness a = .ok s') : s'.Tidy := by
  have hrecords := sameRecords_noteLiveness hok
  obtain ⟨v, hv, rfl⟩ := noteLiveness_ok_iff.mp hok
  refine ⟨hrecords.keyed h.keyed, h.named, fun k d hd => ?_, fun b u hu => ?_⟩
  · exact (hrecords.isSome _).mpr (h.known k d hd)
  · rw [Table.getElem?_insert] at hu
    split at hu
    · rw [← Option.some.inj hu]
      exact h.word a v hv
    · exact h.word b u hu

lemma Backed.noteLiveness (hbacked : s.Backed) (hok : s.noteLiveness a = .ok s') : s'.Backed := by
  obtain ⟨v, hv, rfl⟩ := noteLiveness_ok_iff.mp hok
  intro b u hu
  rw [Table.getElem?_insert] at hu
  split at hu
  · rename_i hb
    rw [← Option.some.inj hu, hb]
    exact hbacked a v hv
  · exact hbacked b u hu

/-- A slash by hand keeps the sums exactly if it takes nothing, or all with a jailing. -/
lemma backed_slash_iff (hbacked : s.Backed) {bps : ℕ} {reason : String} {jail : Bool}
    (hok : s.slash a bps reason jail = .ok s') :
    s'.Backed ↔ if jail then TakesAll (s.stakeOf a) bps else Spares (s.stakeOf a) bps := by
  rcases hv : s.validators[a]? with _ | v
  · rw [slash_unknown hv] at hok
    cases hok
  have hall : s'.Backed ↔ s'.BackedAt a := by
    refine ⟨fun hc => hc a, fun hc b => ?_⟩
    by_cases hb : b = a
    · exact hb ▸ hc
    · exact (backedAt_slash_of_ne hok hb).mpr (hbacked b)
  rw [hall, stakeOf_known hv]
  cases jail with
  | false =>
    rw [backedAt_slash_keep hv (hbacked a) hok]
    exact Iff.rfl
  | true =>
    rw [backedAt_slash_jail hv hok]
    exact Iff.rfl

/-! ### One operation -/

/-- An operation that leaves the snapshot alone when it fails keeps what it keeps when it
succeeds. -/
lemma final_inPlace {P : StakingSnapshot → Prop}
    {f : StakingSnapshot → Except StateError StakingSnapshot} (h : P s)
    (hok : ∀ s', f s = .ok s' → P s') : P (Handler.final (inPlace f s)) := by
  rcases hf : f s with e | s'
  · rw [inPlace_error hf]
    exact h
  · rw [inPlace_ok hf]
    exact hok s' hf

lemma Tidy.step (h : s.Tidy) (op : StakingOp) : (s.step op).Tidy := by
  cases op with
  | ensureValidators vs => exact h.ensureValidators vs
  | delegate delegator a amount isSelfBond =>
    exact final_inPlace (f := fun s => s.delegate delegator a amount isSelfBond) h
      fun _ hok => h.delegate hok
  | beginUnbonding delegator a amount params => exact h.beginUnbonding delegator a amount params
  | slash a bps reason jail =>
    exact final_inPlace (f := fun s => s.slash a bps reason jail) h fun _ hok => h.slash hok
  | applyEvidence evidence params =>
    rw [StakingSnapshot.step, StakingOp.run, slashEquivocators_eq]
    exact h.slashEach _ _
  | applyDowntimeSlashing params => exact h.slashEach _ _
  | noteLiveness a =>
    exact final_inPlace (f := fun s => s.noteLiveness a) h fun _ hok => h.noteLiveness hok
  | settleEpochRewards totalFees rewardBudget params =>
    exact h.congr (validators_settleEpochRewards s totalFees rewardBudget params)
      (delegations_settleEpochRewards s totalFees rewardBudget params)

/-- **One operation.**  Where stakes and delegations agree, they agree afterwards exactly if the
operation is intact. -/
lemma backed_step_iff (h : s.Tidy) (hbacked : s.Backed) {op : StakingOp} (hfits : s.Fits op) :
    (s.step op).Backed ↔ s.Intact op := by
  cases op with
  | ensureValidators vs => exact iff_of_true (hbacked.ensureValidators h vs) trivial
  | delegate delegator a amount isSelfBond =>
    refine iff_of_true ?_ trivial
    exact final_inPlace (f := fun s => s.delegate delegator a amount isSelfBond) hbacked
      fun _ hok => hbacked.delegate h hfits hok
  | beginUnbonding delegator a amount params =>
    exact iff_of_true (hbacked.beginUnbonding h delegator a amount params) trivial
  | slash a bps reason jail =>
    rw [StakingSnapshot.step, StakingOp.run, Intact]
    rcases hslash : s.slash a bps reason jail with e | s'
    · rw [inPlace_error hslash]
      refine iff_of_true hbacked fun hknown => ?_
      obtain ⟨s', hok⟩ := (slash_ok_iff s a bps reason jail).mpr hknown
      rw [hslash] at hok
      cases hok
    · have hknown := (slash_ok_iff s a bps reason jail).mp ⟨s', hslash⟩
      rw [inPlace_ok hslash, Handler.final_ok, forall_prop_of_true hknown]
      exact backed_slash_iff hbacked hslash
  | applyEvidence evidence params =>
    rw [StakingSnapshot.step, StakingOp.run, slashEquivocators_eq, Intact, Backed]
    exact forall_backedAt_slashEach (nodup_offences evidence []).1 hbacked
  | applyDowntimeSlashing params =>
    have hnodup : ((s.stale.map fun a => (a, "downtime")).map Prod.fst).Nodup := by
      rw [List.map_map]
      exact (nodup_stale h.keyed).map fun _ _ heq => heq
    have hall : (s.step (.applyDowntimeSlashing params)).Backed ↔ _ :=
      forall_backedAt_slashEach hnodup hbacked
    rwa [reached_stale h.keyed] at hall
  | noteLiveness a =>
    refine iff_of_true ?_ trivial
    exact final_inPlace (f := fun s => s.noteLiveness a) hbacked
      fun _ hok => hbacked.noteLiveness hok
  | settleEpochRewards totalFees rewardBudget params =>
    exact iff_of_true (hbacked.congr (validators_settleEpochRewards s totalFees rewardBudget params)
      (delegations_settleEpochRewards s totalFees rewardBudget params)) trivial

lemma tidy_empty : Tidy ({} : StakingSnapshot) := by
  refine ⟨fun a v hv => ?_, fun k d hd => ?_, fun k d hd => ?_, fun a v hv => ?_⟩ <;> simp_all

lemma backed_empty : Backed ({} : StakingSnapshot) := fun a v hv => by simp_all

variable {ops : List StakingOp}

lemma tidy_along (h : s.Tidy) (ops : List StakingOp) :
    (∀ e ∈ Trace.along step s ops, e.1.Tidy) ∧ (ops.foldl step s).Tidy := by
  have hstep : ∀ (s : StakingSnapshot) (op : StakingOp), s.Tidy → True → (s.step op).Tidy :=
    fun s op htidy _ => htidy.step op
  exact Trace.keeps hstep h fun _ _ => trivial

/-- The steps of a run are intact exactly if stakes and delegations agree all along it. -/
lemma backed_along_iff (h : s.Tidy) (hbacked : s.Backed)
    (hfits : ∀ e ∈ Trace.along step s ops, e.1.Fits e.2) :
    ((∀ e ∈ Trace.along step s ops, e.1.Backed) ∧ (ops.foldl step s).Backed) ↔
      ∀ e ∈ Trace.along step s ops, e.1.Intact e.2 := by
  induction ops generalizing s with
  | nil => exact iff_of_true ⟨nofun, hbacked⟩ nofun
  | cons op ops ih =>
    rw [Trace.along, List.forall_mem_cons] at hfits
    rw [Trace.along, List.forall_mem_cons, List.forall_mem_cons, List.foldl_cons,
      ← backed_step_iff h hbacked hfits.1]
    constructor
    · rintro ⟨⟨-, hrest⟩, hend⟩
      -- The next state is the first of the rest of the run, or its end.
      have hnext : (s.step op).Backed := by
        cases ops with
        | nil => exact hend
        | cons op' ops' => exact hrest _ List.mem_cons_self
      exact ⟨hnext, (ih (h.step op) hnext hfits.2).mp ⟨hrest, hend⟩⟩
    · rintro ⟨hnext, hintact⟩
      obtain ⟨hrest, hend⟩ := (ih (h.step op) hnext hfits.2).mpr hintact
      exact ⟨⟨hbacked, hrest⟩, hend⟩

/-- **The total stake is the sum of the delegations** in every state of a run from the empty
snapshot exactly if every operation of the run is intact; then no unbonding underflows. -/
theorem run_backed_iff (ops : List StakingOp)
    (hfits : ∀ e ∈ Trace.along step {} ops, e.1.Fits e.2) :
    ((∀ e ∈ Trace.along step {} ops, e.1.Backed ∧ e.1.Covered) ∧
        (ops.foldl step {}).Backed ∧ (ops.foldl step {}).Covered) ↔
      ∀ e ∈ Trace.along step {} ops, e.1.Intact e.2 := by
  rw [← backed_along_iff tidy_empty backed_empty hfits]
  obtain ⟨htidy, hend⟩ := tidy_along tidy_empty ops
  constructor
  · rintro ⟨hall, hbacked, -⟩
    exact ⟨fun e he => (hall e he).1, hbacked⟩
  · rintro ⟨hall, hbacked⟩
    exact ⟨fun e he => ⟨hall e he, (hall e he).covered (htidy e he)⟩,
      hbacked, hbacked.covered hend⟩

/-! ### A slash without a jailing -/

lemma Backed.stakeOf_eq (h : s.Backed) (ha : s.validators[a]?.isSome) :
    s.stakeOf a = s.delegatedTo a := by
  obtain ⟨v, hv⟩ := Option.isSome_iff_exists.mp ha
  rw [stakeOf_known hv, h a v hv]

lemma Covered.amount_le (h : s.Covered) {delegator : Address} (ha : s.validators[a]?.isSome) :
    ((s.delegations[(delegator, a)]?.map Delegation.amount).getD 0) ≤ s.stakeOf a := by
  obtain ⟨v, hv⟩ := Option.isSome_iff_exists.mp ha
  rw [stakeOf_known hv]
  rcases hd : s.delegations[(delegator, a)]? with _ | d
  · exact Nat.zero_le _
  · exact h (delegator, a) d v hd hv

/-- A validator bonds a hundred units, and its stake is slashed in a given way. -/
def bondThenSlash (slashBps : ℕ) (jail : Bool) : List StakingOp :=
  [.ensureValidators [⟨"v", 1, "", "", [], 7⟩], .delegate 7 7 100 true,
    .slash 7 slashBps "downtime" jail]

/-- A request to take a hundred units out again. -/
def unbond : StakingOp := .beginUnbonding 7 7 100
  { minimumSelfBond := 1, epochLength := 1, unbondingEpochs := 7, treasuryBps := 0,
    downtimeSlashBps := 100, doubleSignSlashBps := 500 }

lemma fits_bondThenSlash (slashBps : ℕ) (jail : Bool) :
    ∀ e ∈ Trace.along step {} (bondThenSlash slashBps jail), e.1.Fits e.2 := by
  simp only [bondThenSlash, Trace.along, List.forall_mem_cons]
  refine ⟨trivial, ?_, trivial, List.forall_mem_nil _⟩
  show stakeOf _ 7 + 100 < 2 ^ 128
  decide +kernel

/-- A slash of five percent without a jailing leaves a delegation larger than the stake; the
request to unbond it takes a hundred from ninety-five. -/
theorem bondThenSlash_not_backed :
    (∀ e ∈ Trace.along step {} (bondThenSlash 500 false), e.1.Fits e.2) ∧
    ¬ ((bondThenSlash 500 false).foldl step {}).Backed ∧
    ¬ ((bondThenSlash 500 false).foldl step {}).Covered ∧
    (((bondThenSlash 500 false).foldl step {}).step unbond).stakeOf 7 = 2 ^ 128 - 5 := by
  have hknown : ((bondThenSlash 500 false).foldl step {}).validators[(7 : Address)]?.isSome := by
    decide +kernel
  refine ⟨fits_bondThenSlash 500 false, fun h => ?_, fun h => ?_, by decide +kernel⟩
  · exact absurd (h.stakeOf_eq hknown) (by decide +kernel)
  · exact absurd (@Covered.amount_le _ 7 h 7 hknown) (by decide +kernel)

/-- A slash of all with a jailing keeps stakes and delegations together. -/
theorem bondThenJail_backed :
    ((bondThenSlash 10000 true).foldl step {}).Backed ∧
    ((bondThenSlash 10000 true).foldl step {}).Covered := by
  have hintact : ∀ e ∈ Trace.along step {} (bondThenSlash 10000 true), e.1.Intact e.2 := by
    simp only [bondThenSlash, Trace.along, List.forall_mem_cons]
    exact ⟨trivial, trivial, fun _ => by decide +kernel, List.forall_mem_nil _⟩
  exact ((run_backed_iff (bondThenSlash 10000 true) (fits_bondThenSlash 10000 true)).mpr hintact).2

end StakingSnapshot

end ZenoChain
