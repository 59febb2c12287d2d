/-
# The roster

Notes, slashes and the end of an epoch read of the staking state its validator records and its
epoch alone.  Notes come in any order and any number; and a finalization punishes a set of
validators, in whatever order the evidence against them has been recorded.
-/
import Mathlib.Data.Finset.Basic
import ZenoChain.State.Records

namespace ZenoChain.StakingSnapshot

open Word

/-- The same validator records in the same epoch. -/
structure Alike (s t : StakingSnapshot) : Prop where
  validators : s.validators = t.validators
  epoch : s.epoch = t.epoch

variable {s s' t : StakingSnapshot} {noted : Finset Address} {a : Address}
  {params : EconomicsParams}

lemma Alike.refl (s : StakingSnapshot) : Alike s s := ⟨rfl, rfl⟩

lemma Alike.symm (h : Alike s t) : Alike t s := ⟨h.validators.symm, h.epoch.symm⟩

lemma Alike.trans {u : StakingSnapshot} (h : Alike s t) (h' : Alike t u) : Alike s u :=
  ⟨h.validators.trans h'.validators, h.epoch.trans h'.epoch⟩

lemma Alike.standing (h : Alike s t) : s.standing = t.standing := by
  rw [StakingSnapshot.standing, StakingSnapshot.standing, h.validators]

/-- Funds for the treasury. -/
def fund (s : StakingSnapshot) (amount : ℕ) : StakingSnapshot :=
  { s with treasuryBalance := saturatingAdd 128 s.treasuryBalance amount }

lemma Alike.fund (h : Alike s t) (amount : ℕ) : Alike (s.fund amount) (t.fund amount) :=
  ⟨h.validators, h.epoch⟩

/-! ## Notes -/

/-- All validators of a set are noted as live. -/
def noteAll (s : StakingSnapshot) (noted : Finset Address) : StakingSnapshot :=
  { s with
    validators := s.validators.map fun a v =>
      if a ∈ noted then { v with lastLivenessEpoch := s.epoch } else v }

/-- The validators of a set were seen in the current epoch. -/
def Seen (s : StakingSnapshot) (noted : Finset Address) : Prop :=
  ∀ a ∈ noted, ∀ v, s.validators[a]? = some v → v.lastLivenessEpoch = s.epoch

/-- The validators that were seen in the current epoch. -/
def seen (s : StakingSnapshot) : Finset Address :=
  ((s.validators.toList.filter fun entry => entry.2.lastLivenessEpoch = s.epoch).map
    Prod.fst).toFinset

lemma seen_seen (s : StakingSnapshot) : s.Seen s.seen := by
  intro a ha v hv
  obtain ⟨entry, hentry, rfl⟩ := List.mem_map.mp (List.mem_toFinset.mp ha)
  obtain ⟨hmem, hepoch⟩ := List.mem_filter.mp hentry
  rw [Table.mem_toList_iff.mp hmem] at hv
  obtain rfl := Option.some.inj hv
  exact of_decide_eq_true hepoch

lemma seen_empty (s : StakingSnapshot) : s.Seen ∅ := fun a ha => absurd ha (Finset.notMem_empty a)

lemma Seen.of_alike (h : s.Seen noted) (halike : Alike s t) : t.Seen noted := by
  intro a ha v hv
  rw [← halike.validators] at hv
  rw [← halike.epoch]
  exact h a ha v hv

lemma getElem?_noteAll (s : StakingSnapshot) (noted : Finset Address) (a : Address) :
    (s.noteAll noted).validators[a]? = s.validators[a]?.map fun v =>
      if a ∈ noted then { v with lastLivenessEpoch := s.epoch } else v := by
  rw [noteAll, Std.ExtTreeMap.getElem?_map]

lemma noteAll_of_seen (h : s.Seen noted) : s.noteAll noted = s := by
  have hvalidators : (s.noteAll noted).validators = s.validators := by
    refine Std.ExtTreeMap.ext_getElem? fun a => ?_
    rw [getElem?_noteAll]
    rcases hv : s.validators[a]? with _ | v
    · rfl
    · rw [Option.map_some]
      split
      · rename_i ha
        rw [← h a ha v hv]
      · rfl
  exact congrArg (fun validators => { s with validators }) hvalidators

lemma seen_noteAll (s : StakingSnapshot) (noted : Finset Address) : (s.noteAll noted).Seen noted := by
  intro a ha v hv
  rw [getElem?_noteAll, Option.map_eq_some_iff] at hv
  obtain ⟨w, -, rfl⟩ := hv
  rw [if_pos ha]
  rfl

/-- Notes come in any order and any number. -/
lemma noteLiveness_noteAll (h : (s.noteAll noted).noteLiveness a = .ok s') :
    s' = s.noteAll (insert a noted) := by
  obtain ⟨v, hv, rfl⟩ := noteLiveness_ok_iff.mp h
  rw [getElem?_noteAll, Option.map_eq_some_iff] at hv
  obtain ⟨w, hw, rfl⟩ := hv
  have hvalidators : (s.noteAll noted).validators.insert a
      { (if a ∈ noted then { w with lastLivenessEpoch := s.epoch } else w) with
        lastLivenessEpoch := s.epoch } = (s.noteAll (insert a noted)).validators := by
    refine Std.ExtTreeMap.ext_getElem? fun b => ?_
    rw [Table.getElem?_insert, getElem?_noteAll, getElem?_noteAll]
    by_cases hb : b = a
    · rw [if_pos hb, hb, hw, Option.map_some, if_pos (Finset.mem_insert_self a noted)]
      split <;> rfl
    · rw [if_neg hb]
      simp only [Finset.mem_insert, hb, false_or]
  exact congrArg (fun validators => { s with validators }) hvalidators

lemma Alike.noteAll (h : Alike s t) (noted : Finset Address) :
    Alike (s.noteAll noted) (t.noteAll noted) := by
  refine ⟨?_, h.epoch⟩
  simp only [StakingSnapshot.noteAll, h.validators, h.epoch]

lemma Alike.noteLiveness (h : Alike s t) (hnote : s.noteLiveness a = .ok s') :
    ∃ t', t.noteLiveness a = .ok t' ∧ Alike s' t' := by
  obtain ⟨v, hv, rfl⟩ := noteLiveness_ok_iff.mp hnote
  rw [h.validators] at hv
  refine ⟨_, noteLiveness_of_known hv, ?_, h.epoch⟩
  rw [h.validators, h.epoch]

/-- A note changes nobody's standing. -/
lemma standing_noteAll (s : StakingSnapshot) (noted : Finset Address) :
    (s.noteAll noted).standing = s.standing := by
  refine Std.ExtTreeMap.ext_getElem? fun a => ?_
  rw [getElem?_standing, getElem?_standing, getElem?_noteAll, Option.map_map]
  refine congrFun (congrArg Option.map (funext fun v => ?_)) _
  rw [Function.comp_apply]
  split <;> rfl

/-! ## Slashes -/

lemma Alike.slash (h : Alike s t) {bps : ℕ} {reason : String} {jail : Bool}
    (hslash : s.slash a bps reason jail = .ok s') :
    ∃ t', t.slash a bps reason jail = .ok t' ∧ Alike s' t' := by
  rw [StakingSnapshot.slash] at hslash
  split at hslash
  · cases hslash
  · rename_i v hv
    cases hslash
    rw [h.validators] at hv
    rw [StakingSnapshot.slash, hv]
    refine ⟨_, rfl, ?_, h.epoch⟩
    dsimp only
    rw [h.validators]

/-- Who was missing is a matter of the roster. -/
lemma Alike.stale (h : Alike s t) : s.stale = t.stale := by
  rw [StakingSnapshot.stale, StakingSnapshot.stale, h.validators, h.epoch]

lemma Alike.applyDowntimeSlashing (h : Alike s t) (hslash : s.applyDowntimeSlashing params = .ok s') :
    ∃ t', t.applyDowntimeSlashing params = .ok t' ∧ Alike s' t' := by
  rw [StakingSnapshot.applyDowntimeSlashing] at hslash ⊢
  rw [← h.stale]
  generalize s.stale = stale at hslash ⊢
  induction stale generalizing s t with
  | nil =>
    cases hslash
    exact ⟨t, rfl, h⟩
  | cons a stale ih =>
    obtain ⟨s₁, hone, hrest⟩ := slashes_cons hslash
    obtain ⟨t₁, ht₁, halike⟩ := h.slash hone
    rw [List.foldlM_cons, ht₁]
    exact ih halike hrest

/-- The rewards of an epoch move the roster to the next epoch. -/
lemma alike_settleEpochRewards (h : Alike s t) (totalFees rewardBudget : ℕ)
    (params : EconomicsParams) :
    Alike (s.settleEpochRewards totalFees rewardBudget params).2
      (t.settleEpochRewards totalFees rewardBudget params).2 := by
  have hepoch : ∀ s : StakingSnapshot, (s.settleEpochRewards totalFees rewardBudget params).2.epoch =
      saturatingAdd 64 s.epoch 1 := by
    intro s
    simp only [settleEpochRewards]
    split <;> rfl
  refine ⟨?_, ?_⟩
  · rw [validators_settleEpochRewards, validators_settleEpochRewards, h.validators]
  · rw [hepoch, hepoch, h.epoch]

lemma Alike.buildEpochTransition [Hashing] (h : Alike s t) (height : ℕ) (params : EconomicsParams) :
    s.buildEpochTransition height params = t.buildEpochTransition height params := by
  simp only [StakingSnapshot.buildEpochTransition, effectiveValidatorSet, h.validators, h.epoch]

/-! ## Punishment -/

/-- The record of a validator that is slashed and jailed for signing twice. -/
def convict (params : EconomicsParams) (v : ValidatorStake) : ValidatorStake :=
  let totalStake := saturatingSub v.totalStake
    (saturatingMul 128 v.totalStake params.doubleSignSlashBps / 10000)
  { v with totalStake, selfBond := min v.selfBond totalStake, status := .jailed }

/-- All validators of a set are slashed and jailed. -/
def convictAll (s : StakingSnapshot) (params : EconomicsParams) (guilty : Finset Address) :
    StakingSnapshot :=
  { s with validators := s.validators.map fun a v => if a ∈ guilty then convict params v else v }

/-- The validators that some evidence shows to have signed twice. -/
def equivocators (evidence : List Evidence) : Finset Address :=
  ((evidence.filter fun item => isEquivocation item).map Evidence.validatorAddress).toFinset

lemma getElem?_convictAll (s : StakingSnapshot) (params : EconomicsParams) (guilty : Finset Address)
    (a : Address) : (s.convictAll params guilty).validators[a]? =
      s.validators[a]?.map fun v => if a ∈ guilty then convict params v else v := by
  rw [convictAll, Std.ExtTreeMap.getElem?_map]

lemma convictAll_empty (s : StakingSnapshot) (params : EconomicsParams) :
    s.convictAll params ∅ = s := by
  have hvalidators : (s.convictAll params ∅).validators = s.validators := by
    refine Std.ExtTreeMap.ext_getElem? fun a => ?_
    rw [getElem?_convictAll]
    simp
  exact congrArg (fun validators => { s with validators }) hvalidators

lemma Alike.convictAll (h : Alike s t) (params : EconomicsParams) (guilty : Finset Address) :
    Alike (s.convictAll params guilty) (t.convictAll params guilty) := by
  refine ⟨?_, h.epoch⟩
  simp only [StakingSnapshot.convictAll, h.validators]

/-- Notes and punishment touch different fields. -/
lemma convictAll_noteAll (s : StakingSnapshot) (params : EconomicsParams)
    (guilty noted : Finset Address) :
    Alike ((s.noteAll noted).convictAll params guilty) ((s.convictAll params guilty).noteAll noted) := by
  refine ⟨Std.ExtTreeMap.ext_getElem? fun a => ?_, rfl⟩
  rw [getElem?_convictAll, getElem?_noteAll, getElem?_noteAll, getElem?_convictAll, Option.map_map,
    Option.map_map]
  refine congrFun (congrArg Option.map (funext fun v => ?_)) _
  simp only [Function.comp_apply]
  split <;> split <;> rfl

/-- The first evidence against a validator slashes and jails it, and counts for all others. -/
lemma alike_convictAll_slash {slashed : List Address} {guilty : Finset Address} {reason : String}
    (hnew : a ∉ slashed) (h : s.slash a params.doubleSignSlashBps reason true = .ok s') :
    Alike (s'.convictAll params (guilty \ (a :: slashed).toFinset))
      (s.convictAll params (insert a guilty \ slashed.toFinset)) := by
  rw [slash] at h
  split at h
  · cases h
  · rename_i v hv
    cases h
    refine ⟨Std.ExtTreeMap.ext_getElem? fun b => ?_, rfl⟩
    rw [getElem?_convictAll, getElem?_convictAll, Table.getElem?_insert]
    by_cases hb : b = a
    · subst hb
      simp [hv, hnew, convict]
    · simp [hb]

lemma equivocators_of_pos {item : Evidence} (h : isEquivocation item) (evidence : List Evidence) :
    equivocators (item :: evidence) = insert item.validatorAddress (equivocators evidence) := by
  rw [equivocators, List.filter_cons_of_pos h, List.map_cons, List.toFinset_cons]
  rfl

lemma equivocators_of_neg {item : Evidence} (h : ¬ isEquivocation item) (evidence : List Evidence) :
    equivocators (item :: evidence) = equivocators evidence := by
  rw [equivocators, List.filter_cons_of_neg h]
  rfl

lemma alike_of_applyEvidenceLoop {evidence : List Evidence} {slashed : List Address}
    (h : applyEvidenceLoop params evidence slashed s = .ok s') :
    Alike s' (s.convictAll params (equivocators evidence \ slashed.toFinset)) := by
  induction evidence generalizing s slashed with
  | nil =>
    cases h
    have hnobody : equivocators [] \ slashed.toFinset = ∅ := Finset.empty_sdiff _
    rw [hnobody, convictAll_empty]
    exact .refl _
  | cons item evidence ih =>
    rw [applyEvidenceLoop] at h
    split_ifs at h with hslashed hitem
    · -- Nobody is punished twice.
      by_cases hitem : isEquivocation item
      · rw [equivocators_of_pos hitem, Finset.insert_sdiff_of_mem _ (List.mem_toFinset.mpr hslashed)]
        exact ih h
      · rw [equivocators_of_neg hitem]
        exact ih h
    · split at h
      · cases h
      · rename_i hslash
        rw [equivocators_of_pos hitem]
        exact (ih h).trans (alike_convictAll_slash hslashed hslash)
    · rw [equivocators_of_neg hitem]
      exact ih h

/-- **Punishment goes by the set of the guilty.** -/
theorem alike_of_applyEvidence {evidence : List Evidence}
    (h : s.applyEvidence evidence params = .ok s') :
    Alike s' (s.convictAll params (equivocators evidence)) := by
  have hall := alike_of_applyEvidenceLoop h
  rwa [List.toFinset_nil, Finset.sdiff_empty] at hall

end ZenoChain.StakingSnapshot
