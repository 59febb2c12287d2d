/-
# Who has a record

What a liveness note, a slash or the end of an epoch does to the staking state changes
records but makes none and removes none; a registration adds one.  Under the address of a
validator stands the record that names it, and the validator set consists of the validators
that are active.
-/
import ZenoChain.State.Staking

namespace ZenoChain.StakingSnapshot

open Word

/-- The same validators have records, and the records name the same addresses. -/
def SameRecords (s s' : StakingSnapshot) : Prop :=
  ∀ a : Address, s'.validators[a]?.map ValidatorStake.validatorAddress =
    s.validators[a]?.map ValidatorStake.validatorAddress

/-- Every record stands under the address that it names. -/
def Keyed (s : StakingSnapshot) : Prop :=
  ∀ (a : Address) (v : ValidatorStake), s.validators[a]? = some v → v.validatorAddress = a

variable {s s' s'' : StakingSnapshot} {a : Address} {v : ValidatorStake}

lemma SameRecords.refl (s : StakingSnapshot) : SameRecords s s := fun _ => rfl

lemma SameRecords.trans (h : SameRecords s s') (h' : SameRecords s' s'') : SameRecords s s'' :=
  fun a => (h' a).trans (h a)

lemma SameRecords.isSome (h : SameRecords s s') (a : Address) :
    s'.validators[a]?.isSome ↔ s.validators[a]?.isSome := by
  rw [← Option.isSome_map, h a, Option.isSome_map]

lemma SameRecords.keyed (h : SameRecords s s') (hs : s.Keyed) : s'.Keyed := by
  intro a v hv
  have ha := h a
  rw [hv, Option.map_some, eq_comm, Option.map_eq_some_iff] at ha
  obtain ⟨w, hw, hname⟩ := ha
  rw [← hname, hs a w hw]

/-- A record is replaced by one of the same validator. -/
lemma sameRecords_of_insert (hv : s.validators[a]? = some v) {w : ValidatorStake}
    (h : s'.validators = s.validators.insert a w)
    (hw : w.validatorAddress = v.validatorAddress) : SameRecords s s' := by
  intro b
  rw [h, Table.getElem?_insert]
  split
  · rename_i hb
    rw [hb, hv, Option.map_some, Option.map_some, hw]
  · rfl

lemma sameRecords_noteLiveness (h : s.noteLiveness a = .ok s') : SameRecords s s' := by
  obtain ⟨v, hv, rfl⟩ := noteLiveness_ok_iff.mp h
  exact sameRecords_of_insert hv rfl rfl

lemma sameRecords_slash {bps : ℕ} {reason : String} {jail : Bool}
    (h : s.slash a bps reason jail = .ok s') : SameRecords s s' := by
  rw [slash] at h
  split at h
  · cases h
  · rename_i v hv
    cases h
    exact sameRecords_of_insert hv rfl rfl

/-! ## One slash after the other -/

/-- The first slash, and those after it. -/
lemma slashes_cons {b : Address} {bps : ℕ} {reason : String} {jail : Bool} {l : List Address}
    (h : (b :: l).foldlM (fun s a => slash s a bps reason jail) s = .ok s') :
    ∃ s₁, s.slash b bps reason jail = .ok s₁ ∧
      l.foldlM (fun s a => slash s a bps reason jail) s₁ = .ok s' := by
  rw [List.foldlM_cons] at h
  rcases hslash : s.slash b bps reason jail with err | s₁
  · rw [hslash] at h
    cases h
  · rw [hslash] at h
    exact ⟨s₁, rfl, h⟩

/-- A property that a slash keeps. -/
def KeptBySlashes (P : StakingSnapshot → Prop) : Prop :=
  ∀ s a bps reason jail s', s.slash a bps reason jail = .ok s' → P s → P s'

namespace KeptBySlashes

variable {P : StakingSnapshot → Prop} {params : EconomicsParams}

lemma slashes (hP : KeptBySlashes P) {bps : ℕ} {reason : String} {jail : Bool} {l : List Address}
    (h : l.foldlM (fun s a => slash s a bps reason jail) s = .ok s') (hs : P s) : P s' := by
  induction l generalizing s with
  | nil =>
    cases h
    exact hs
  | cons b l ih =>
    obtain ⟨s₁, hslash, hrest⟩ := slashes_cons h
    exact ih hrest (hP _ _ _ _ _ _ hslash hs)

lemma downtime (hP : KeptBySlashes P) (h : s.applyDowntimeSlashing params = .ok s') (hs : P s) :
    P s' := hP.slashes h hs

lemma evidence (hP : KeptBySlashes P) {items : List Evidence}
    (h : s.applyEvidence items params = .ok s') (hs : P s) : P s' := by
  rw [applyEvidence] at h
  generalize [] = slashed at h
  induction items generalizing s slashed with
  | nil =>
    cases h
    exact hs
  | cons item items ih =>
    rw [applyEvidenceLoop] at h
    split_ifs at h
    · exact ih hs _ h
    · split at h
      · cases h
      · rename_i hslash
        exact ih (hP _ _ _ _ _ _ hslash hs) _ h
    · exact ih hs _ h

end KeptBySlashes

/-- Slashes make no record and remove none. -/
lemma keptBySlashes_sameRecords (s : StakingSnapshot) : KeptBySlashes (SameRecords s) :=
  fun _ _ _ _ _ _ hslash hs => hs.trans (sameRecords_slash hslash)

lemma sameRecords_applyDowntimeSlashing {params : EconomicsParams}
    (h : s.applyDowntimeSlashing params = .ok s') : SameRecords s s' :=
  (keptBySlashes_sameRecords s).downtime h (.refl s)

lemma validators_settleEpochRewards (s : StakingSnapshot) (totalFees rewardBudget : ℕ)
    (params : EconomicsParams) :
    (s.settleEpochRewards totalFees rewardBudget params).2.validators = s.validators := by
  simp only [settleEpochRewards]
  split <;> rfl

lemma sameRecords_settleEpochRewards (s : StakingSnapshot) (totalFees rewardBudget : ℕ)
    (params : EconomicsParams) :
    SameRecords s (s.settleEpochRewards totalFees rewardBudget params).2 := by
  intro a
  rw [validators_settleEpochRewards]

/-! ## Evidence -/

lemma sameRecords_applyEvidence {params : EconomicsParams} {evidence : List Evidence}
    (h : s.applyEvidence evidence params = .ok s') : SameRecords s s' :=
  (keptBySlashes_sameRecords s).evidence h (.refl s)

/-- Evidence against validators with a record can be applied. -/
lemma applyEvidence_of_known {params : EconomicsParams} {evidence : List Evidence}
    (h : ∀ item ∈ evidence, s.validators[item.validatorAddress]?.isSome) :
    ∃ s', s.applyEvidence evidence params = .ok s' := by
  rw [applyEvidence]
  generalize [] = slashed
  induction evidence generalizing s slashed with
  | nil => exact ⟨s, rfl⟩
  | cons item evidence ih =>
    rw [List.forall_mem_cons] at h
    rw [applyEvidenceLoop]
    split_ifs
    · exact ih h.2 slashed
    · obtain ⟨s₁, hslash⟩ := (slash_ok_iff s item.validatorAddress params.doubleSignSlashBps
        item.reason true).mpr h.1
      have hrest : ∀ item ∈ evidence, s₁.validators[item.validatorAddress]?.isSome :=
        fun item hitem => (isSome_of_slash hslash).mpr (h.2 item hitem)
      rw [hslash]
      exact ih hrest _
    · exact ih h.2 slashed

/-! ## Seeding and registration -/

lemma Keyed.ensureValidators (h : s.Keyed) (vs : List Validator) : (s.ensureValidators vs).Keyed := by
  intro a v hv
  rw [getElem?_ensureValidators] at hv
  split at hv
  · rcases hs : s.validators[a]? with _ | w
    · rw [hs] at hv
      obtain rfl := (Option.some.inj hv).symm
      rfl
    · rw [hs] at hv
      obtain rfl := (Option.some.inj hv).symm
      exact h a _ hs
  · exact h a v hv

/-- The validators stay in the set, and their records are kept or better. -/
lemma delegate_ok {delegator b : Address} {amount : ℕ} {isSelfBond : Bool}
    (h : s.delegate delegator b amount isSelfBond = .ok s') : SameRecords s s' ∧
      ∀ params : EconomicsParams, params.minimumSelfBond < 2 ^ 128 → ∀ a,
        s.isValidatorActive a params → s'.isValidatorActive a params := by
  rw [delegate] at h
  split at h
  · cases h
  · rename_i v hv
    cases h
    refine ⟨sameRecords_of_insert hv rfl rfl, fun params hparams a ha => ?_⟩
    rw [isValidatorActive] at ha ⊢
    dsimp only
    rw [Table.getElem?_insert]
    split
    · rename_i hb
      rw [hb, hv, Option.any_some, decide_eq_true_eq] at ha
      rw [Option.any_some, decide_eq_true_eq]
      refine ⟨ha.1, ?_⟩
      have hbond := ha.2
      dsimp only
      split
      · -- A saturated bond is still as large as any minimum.
        have := le_maxValue_iff.mpr hparams
        rw [saturatingAdd]
        omega
      · exact hbond
    · exact ha

/-- A validator of a list is active as soon as the list has been seeded. -/
lemma isValidatorActive_ensureValidators {vs : List Validator} (hmem : a ∈ vs.map Validator.address)
    (params : EconomicsParams) : (s.ensureValidators vs).isValidatorActive a params ↔
      Eligible params (s.validators[a]?.getD (s.seed a)) := by
  rw [isValidatorActive, getElem?_ensureValidators, if_pos hmem, Option.any_some, decide_eq_true_eq]

/-- A registration leaves the validators of a list active. -/
lemma isValidatorActive_of_delegate {joining : Validator} {vs : List Validator} {delegator b : Address}
    {amount : ℕ} {isSelfBond : Bool} {params : EconomicsParams}
    (h : (s.ensureValidators [joining]).delegate delegator b amount isSelfBond = .ok s')
    (hparams : params.minimumSelfBond < 2 ^ 128) (hmem : a ∈ vs.map Validator.address)
    (hactive : (s.ensureValidators vs).isValidatorActive a params) :
    (s'.ensureValidators vs).isValidatorActive a params := by
  obtain ⟨hrecords, hkeeps⟩ := delegate_ok h
  rw [isValidatorActive_ensureValidators hmem] at hactive ⊢
  have hseeded := getElem?_ensureValidators s [joining] a
  have hsame := hrecords.isSome a
  by_cases hsome : (s.ensureValidators [joining]).validators[a]?.isSome
  · -- There is a record after the seeding, and the delegation keeps it active.
    have hbefore : (s.ensureValidators [joining]).isValidatorActive a params := by
      rw [isValidatorActive]
      rw [hseeded] at hsome ⊢
      split at hsome
      · rw [if_pos ‹_›, Option.any_some, decide_eq_true_eq]
        exact hactive
      · obtain ⟨v, hv⟩ := Option.isSome_iff_exists.mp hsome
        rw [if_neg ‹_›, hv, Option.any_some, decide_eq_true_eq]
        rwa [hv] at hactive
    have hafter := hkeeps params hparams a hbefore
    rw [isValidatorActive] at hafter
    obtain ⟨v, hv, heligible⟩ := Option.any_eq_true _ _ |>.mp hafter
    rw [hv]
    exact of_decide_eq_true heligible
  · -- There is none, and the validator is seeded as before.
    have hnone : s.validators[a]? = none := by
      rw [hseeded] at hsome
      split at hsome
      · exact absurd rfl hsome
      · simpa using hsome
    have hnone' : s'.validators[a]? = none := by
      simpa using fun hc => hsome (hsame.mp hc)
    rw [hnone] at hactive
    rw [hnone']
    exact hactive

/-! ## The validator set -/

/-- The validator set consists of the validators that are active. -/
lemma mem_effectiveValidatorSet (h : s.Keyed) (params : EconomicsParams) :
    a ∈ s.effectiveValidatorSet params ↔ s.isValidatorActive a params := by
  rw [effectiveValidatorSet, isValidatorActive, List.mem_map]
  simp only [List.mem_insertionSort, List.mem_filter, Table.mem_values_iff, decide_eq_true_eq]
  constructor
  · rintro ⟨v, ⟨⟨b, hb⟩, heligible⟩, rfl⟩
    obtain rfl := h b v hb
    rw [hb, Option.any_some, decide_eq_true_eq]
    exact heligible
  · intro ha
    obtain ⟨v, hv, heligible⟩ := Option.any_eq_true _ _ |>.mp ha
    exact ⟨v, ⟨⟨a, hv⟩, of_decide_eq_true heligible⟩, h a v hv⟩

end ZenoChain.StakingSnapshot
