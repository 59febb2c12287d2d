/-
# Seats

The validators that take part in consensus are the given ones that the validator set has, in its
order.  They are determined by who of them is active and who stands before whom: a change of the
records that lets nobody in, nobody out and nobody past another one leaves the seats as they are.
-/
import ZenoChain.State.Penalties
import ZenoChain.State.Roster

namespace ZenoChain.StakingSnapshot

open Word

/-- The given validators that the validator set has, in its order. -/
def seats (s : StakingSnapshot) (params : EconomicsParams) (addresses : List Address) :
    List Address :=
  (s.effectiveValidatorSet params).filter (· ∈ addresses)

/-- One validator stands before another one. -/
def Ahead (s : StakingSnapshot) (a b : Address) : Prop :=
  ∀ v w, s.validators[a]? = some v → s.validators[b]? = some w → Before v w

variable {s s' : StakingSnapshot} {params params' : EconomicsParams} {addresses : List Address}
  {a : Address}

lemma isValidatorActive_iff : s.isValidatorActive a params ↔
    ∃ v, s.validators[a]? = some v ∧ Eligible params v := by
  rw [isValidatorActive, Option.any_eq_true]
  simp only [decide_eq_true_eq]

/-! ## The order of the validator set -/

instance isTrans_before : IsTrans ValidatorStake Before :=
  ⟨fun u v w huv hvw => by unfold Before at *; bv_omega⟩

instance total_before : Std.Total Before :=
  ⟨fun v w => by unfold Before; bv_omega⟩

lemma nodup_effectiveValidatorSet (h : s.Keyed) (params : EconomicsParams) :
    (s.effectiveValidatorSet params).Nodup := by
  have hperm := List.perm_insertionSort Before
    ((Table.values s.validators).filter fun v => Eligible params v)
  refine ((hperm.map _).nodup_iff).mpr ?_
  exact (Table.nodup_map_values h).sublist (List.filter_sublist.map _)

lemma pairwise_effectiveValidatorSet (h : s.Keyed) (params : EconomicsParams) :
    (s.effectiveValidatorSet params).Pairwise s.Ahead := by
  have hkey : ∀ v ∈ ((Table.values s.validators).filter fun v => Eligible params v).insertionSort
      Before, s.validators[v.validatorAddress]? = some v := by
    intro v hv
    rw [List.mem_insertionSort, List.mem_filter] at hv
    obtain ⟨k, hk⟩ := Table.mem_values_iff.mp hv.1
    rwa [h k v hk]
  refine List.pairwise_map.mpr ((List.pairwise_insertionSort Before _).imp_of_mem ?_)
  intro v w hv hw hbefore v' w' hv' hw'
  rw [hkey v hv] at hv'
  rw [hkey w hw] at hw'
  cases hv'
  cases hw'
  exact hbefore

/-- No two validators stand before each other. -/
lemma Ahead.antisymm {b : Address} (h : s.Keyed) (ha : s.validators[a]?.isSome)
    (hb : s.validators[b]?.isSome) (hab : s.Ahead a b) (hba : s.Ahead b a) : a = b := by
  obtain ⟨v, hv⟩ := Option.isSome_iff_exists.mp ha
  obtain ⟨w, hw⟩ := Option.isSome_iff_exists.mp hb
  have hvw := hab v w hv hw
  have hwv := hba w v hw hv
  rw [← h a v hv, ← h b w hw]
  unfold Before at hvw hwv
  bv_omega

/-- **Validators in their order** are determined by who is among them. -/
lemma eq_of_ahead (h : s.Keyed) {l m : List Address} (hl : l.Nodup) (hm : m.Nodup)
    (hmem : ∀ a, a ∈ l ↔ a ∈ m) (hknown : ∀ a ∈ l, s.validators[a]?.isSome)
    (hahead : l.Pairwise s.Ahead) (hahead' : m.Pairwise s.Ahead) : l = m := by
  have hperm : l.Perm m := (List.perm_ext_iff_of_nodup hl hm).mpr hmem
  refine hperm.eq_of_pairwise (fun a b ha hb hab hba => ?_) hahead hahead'
  exact Ahead.antisymm h (hknown a ha) (hknown b ((hmem b).mpr hb)) hab hba

/-! ## Seats -/

lemma mem_seats (h : s.Keyed) :
    a ∈ s.seats params addresses ↔ s.isValidatorActive a params ∧ a ∈ addresses := by
  rw [seats, List.mem_filter, mem_effectiveValidatorSet h, decide_eq_true_eq]

lemma isSome_of_mem_seats (h : s.Keyed) (ha : a ∈ s.seats params addresses) :
    s.validators[a]?.isSome := by
  obtain ⟨v, hv, -⟩ := isValidatorActive_iff.mp ((mem_seats h).mp ha).1
  exact Option.isSome_of_eq_some hv

lemma nodup_seats (h : s.Keyed) : (s.seats params addresses).Nodup :=
  (nodup_effectiveValidatorSet h params).filter _

lemma pairwise_seats (h : s.Keyed) : (s.seats params addresses).Pairwise s.Ahead :=
  (pairwise_effectiveValidatorSet h params).filter _

lemma seats_congr (h : s.standing = s'.standing) :
    s.seats params addresses = s'.seats params addresses := by
  rw [seats, seats, effectiveValidatorSet_congr h]

/-- Where the parameters of a transition find active exactly the given validators that other ones
find active, its validator set is the seats. -/
lemma effectiveValidatorSet_eq_seats (h : s.Keyed)
    (hsame : ∀ a, s.isValidatorActive a params' ↔ s.isValidatorActive a params ∧ a ∈ addresses) :
    s.effectiveValidatorSet params' = s.seats params addresses := by
  refine eq_of_ahead h (nodup_effectiveValidatorSet h params') (nodup_seats h) (fun a => ?_)
    (fun a ha => ?_) (pairwise_effectiveValidatorSet h params') (pairwise_seats h)
  · rw [mem_effectiveValidatorSet h, mem_seats h, hsame]
  · obtain ⟨v, hv, -⟩ := isValidatorActive_iff.mp ((mem_effectiveValidatorSet h params').mp ha)
    exact Option.isSome_of_eq_some hv

/-! ## Changes of the records -/

/-- A change of the records lets none of the given validators in, none out and none past another
one. -/
def KeepsSeats (s : StakingSnapshot) (params : EconomicsParams) (addresses : List Address)
    (change : Address → ValidatorStake → ValidatorStake) : Prop :=
  ∀ a ∈ addresses, ∀ v ∈ s.validators[a]?,
    (Eligible params (change a v) ↔ Eligible params v) ∧
    ∀ b ∈ addresses, ∀ w ∈ s.validators[b]?, Eligible params v → Eligible params w →
      Before v w → Before (change a v) (change b w)

instance (s : StakingSnapshot) (params : EconomicsParams) (addresses : List Address)
    (change : Address → ValidatorStake → ValidatorStake) :
    Decidable (s.KeepsSeats params addresses change) :=
  inferInstanceAs (Decidable (∀ a ∈ addresses, ∀ v ∈ s.validators[a]?, _ ∧
    ∀ b ∈ addresses, ∀ w ∈ s.validators[b]?, _ → _ → _ → _))

/-- **Such a change keeps the seats.** -/
theorem seats_of_keepsSeats {change : Address → ValidatorStake → ValidatorStake} (hs : s.Keyed)
    (hs' : s'.Keyed)
    (hchange : ∀ a ∈ addresses, s'.validators[a]? = s.validators[a]?.map (change a))
    (hkeeps : s.KeepsSeats params addresses change) :
    s'.seats params addresses = s.seats params addresses := by
  have hmem : ∀ a, a ∈ s'.seats params addresses ↔ a ∈ s.seats params addresses := by
    intro a
    rw [mem_seats hs, mem_seats hs']
    refine and_congr_left fun ha => ?_
    rw [isValidatorActive, isValidatorActive, hchange a ha, Option.any_map]
    rcases hv : s.validators[a]? with _ | v
    · rfl
    · simp only [Option.any_some, decide_eq_true_eq]
      exact (hkeeps a ha v hv).1
  refine eq_of_ahead hs' (nodup_seats hs') (nodup_seats hs) hmem
    (fun a ha => isSome_of_mem_seats hs' ha) (pairwise_seats hs') ?_
  -- The old seats stand in the new order as well.
  refine (pairwise_seats hs).imp_of_mem ?_
  intro a b ha hb hahead v' w' hv' hw'
  obtain ⟨hactive, ha⟩ := (mem_seats hs).mp ha
  obtain ⟨hactive', hb⟩ := (mem_seats hs).mp hb
  obtain ⟨v, hv, hv_eligible⟩ := isValidatorActive_iff.mp hactive
  obtain ⟨w, hw, hw_eligible⟩ := isValidatorActive_iff.mp hactive'
  rw [hchange a ha, hv] at hv'
  rw [hchange b hb, hw] at hw'
  cases hv'
  cases hw'
  exact (hkeeps a ha v hv).2 b hb w hw hv_eligible hw_eligible (hahead v w hv hw)

/-- A change of other records. -/
lemma keepsSeats_of_unchanged {change : Address → ValidatorStake → ValidatorStake}
    (h : ∀ a ∈ addresses, ∀ v, change a v = v) : s.KeepsSeats params addresses change := by
  intro a ha v _
  refine ⟨by rw [h a ha v], fun b hb w _ _ _ hbefore => ?_⟩
  rw [h a ha v, h b hb w]
  exact hbefore

/-- The punishment of validators that are not active keeps the seats. -/
lemma keepsSeats_convict {guilty : Finset Address} (economics : EconomicsParams)
    (hguilty : ∀ a ∈ guilty, a ∈ addresses → ¬ s.isValidatorActive a params) :
    s.KeepsSeats params addresses fun a v => if a ∈ guilty then convict economics v else v := by
  have hnot : ∀ a ∈ addresses, ∀ v ∈ s.validators[a]?, Eligible params v → a ∉ guilty :=
    fun a ha v hv heligible hmem => hguilty a hmem ha (isValidatorActive_iff.mpr ⟨v, hv, heligible⟩)
  intro a ha v hv
  dsimp only
  refine ⟨?_, fun b hb w hw hv_eligible hw_eligible hbefore => ?_⟩
  · by_cases hmem : a ∈ guilty
    · rw [if_pos hmem]
      refine iff_of_false ?_ fun heligible => hnot a ha v hv heligible hmem
      rintro ⟨⟨⟩, -⟩
    · rw [if_neg hmem]
  · rw [if_neg (hnot a ha v hv hv_eligible), if_neg (hnot b hb w hw hw_eligible)]
    exact hbefore

/-! ## Bonds -/

/-- The record of a validator after a self-bond. -/
def withBond (amount : ℕ) (v : ValidatorStake) : ValidatorStake :=
  { v with
    totalStake := saturatingAdd 128 v.totalStake amount
    selfBond := saturatingAdd 128 v.selfBond amount }

lemma getElem?_delegate_self {delegator : Address} {amount : ℕ}
    (h : s.delegate delegator a amount true = .ok s') (b : Address) :
    s'.validators[b]? = s.validators[b]?.map fun v => if b = a then withBond amount v else v := by
  rw [delegate] at h
  split at h
  · cases h
  · rename_i v hv
    cases h
    rw [Table.getElem?_insert]
    by_cases hb : b = a
    · rw [if_pos hb, hb, hv, Option.map_some, if_pos rfl, if_pos rfl, withBond]
    · simp only [if_neg hb, Option.map_id']

end ZenoChain.StakingSnapshot
