/-
# Slashes and jails

A slash with a jailing takes a validator out of the active ones, and puts an event on record.
Nothing that happens to the staking state afterwards brings the validator back or removes the event.
-/
import ZenoChain.State.Delegations

namespace ZenoChain.StakingSnapshot

open Word

/-- A validator is jailed. -/
def IsJailed (s : StakingSnapshot) (a : Address) : Prop :=
  ∃ v, s.validators[a]? = some v ∧ v.status = .jailed

/-- A slash is on record, and its validator is jailed. -/
structure Convicted (s : StakingSnapshot) (event : SlashingEvent) : Prop where
  jailed : s.IsJailed event.validatorAddress
  recorded : event ∈ s.slashingEvents

variable {s s' : StakingSnapshot} {a b : Address} {v : ValidatorStake} {event : SlashingEvent}
  {bps : ℕ} {reason : String} {jail : Bool}

/-! ## What happens to one record -/

lemma getElem?_ensureValidators_of_some (hv : s.validators[a]? = some v) (vs : List Validator) :
    (s.ensureValidators vs).validators[a]? = some v := by
  rw [getElem?_ensureValidators, hv]
  split <;> rfl

/-- A slash changes the record of its validator, but not when it was seen last. -/
lemma slash_ok (h : s.slash a bps reason jail = .ok s') :
    ∃ v w, s.validators[a]? = some v ∧ s'.validators = s.validators.insert a w ∧
      w.status = (if jail then .jailed else v.status) ∧
      w.lastLivenessEpoch = v.lastLivenessEpoch ∧ s'.epoch = s.epoch ∧
      s'.slashingEvents = s.slashingEvents ++ [⟨a, s.epoch, bps, reason⟩] := by
  rw [slash] at h
  split at h
  · cases h
  · rename_i v hv
    cases h
    exact ⟨v, _, hv, rfl, rfl, rfl, rfl, rfl⟩

/-- A slash keeps what a record has but its stake, its bond and its place. -/
lemma record_slash (h : s.slash b bps reason jail = .ok s') (hv : s.validators[a]? = some v) :
    ∃ w, s'.validators[a]? = some w ∧ w.lastLivenessEpoch = v.lastLivenessEpoch ∧
      (v.status = .jailed → w.status = .jailed) := by
  obtain ⟨u, w, hu, hvalidators, hstatus, hlast, -, -⟩ := slash_ok h
  rw [hvalidators, Table.getElem?_insert]
  split
  · rename_i hab
    rw [hab, hu] at hv
    obtain rfl := Option.some.inj hv
    refine ⟨w, rfl, hlast, fun hjailed => ?_⟩
    rw [hstatus, hjailed]
    split <;> rfl
  · exact ⟨v, hv, rfl, id⟩

/-- A delegation changes the stake and the bond of a record only. -/
lemma record_delegate {delegator : Address} {amount : ℕ} {isSelfBond : Bool}
    (h : s.delegate delegator b amount isSelfBond = .ok s') (hv : s.validators[a]? = some v) :
    ∃ w, s'.validators[a]? = some w ∧ w.lastLivenessEpoch = v.lastLivenessEpoch ∧
      w.status = v.status := by
  rw [delegate] at h
  split at h
  · cases h
  · rename_i u hu
    cases h
    dsimp only
    rw [Table.getElem?_insert]
    split
    · rename_i hab
      rw [hab, hu] at hv
      obtain rfl := Option.some.inj hv
      exact ⟨_, rfl, rfl, rfl⟩
    · exact ⟨v, hv, rfl, rfl⟩

lemma epoch_delegate {delegator : Address} {amount : ℕ} {isSelfBond : Bool}
    (h : s.delegate delegator b amount isSelfBond = .ok s') :
    s'.epoch = s.epoch ∧ s'.slashingEvents = s.slashingEvents := by
  rw [delegate] at h
  split at h
  · cases h
  · cases h
    exact ⟨rfl, rfl⟩

/-- A settlement starts the next epoch. -/
lemma epoch_settleEpochRewards (s : StakingSnapshot) (totalFees rewardBudget : ℕ)
    (params : EconomicsParams) :
    (s.settleEpochRewards totalFees rewardBudget params).2.epoch = saturatingAdd 64 s.epoch 1 ∧
      (s.settleEpochRewards totalFees rewardBudget params).2.slashingEvents = s.slashingEvents := by
  simp only [settleEpochRewards]
  split <;> exact ⟨rfl, rfl⟩

/-! ## Convictions -/

/-- A slash with a jailing. -/
lemma convicted_of_slash (h : s.slash a bps reason true = .ok s') :
    s'.Convicted ⟨a, s.epoch, bps, reason⟩ := by
  obtain ⟨v, w, -, hvalidators, hstatus, -, -, hevents⟩ := slash_ok h
  refine ⟨⟨w, ?_, hstatus⟩, ?_⟩
  · rw [hvalidators, Table.getElem?_insert, if_pos rfl]
  · rw [hevents]
    exact List.mem_append_right _ List.mem_cons_self

lemma Convicted.slash (hc : s.Convicted event) (h : s.slash b bps reason jail = .ok s') :
    s'.Convicted event := by
  obtain ⟨v, hv, hjailed⟩ := hc.jailed
  obtain ⟨w, hw, -, hstatus⟩ := record_slash h hv
  obtain ⟨-, -, -, -, -, -, -, hevents⟩ := slash_ok h
  refine ⟨⟨w, hw, hstatus hjailed⟩, ?_⟩
  rw [hevents]
  exact List.mem_append_left _ hc.recorded

/-- Slashes belong to the current epoch. -/
lemma epoch_of_slashes {l : List Address}
    (h : l.foldlM (fun s a => slash s a bps reason jail) s = .ok s') : s'.epoch = s.epoch := by
  have hkept : KeptBySlashes fun s₁ => s₁.epoch = s.epoch := by
    intro s₁ a bps reason jail s₂ hslash hs
    obtain ⟨-, -, -, -, -, -, hepoch, -⟩ := slash_ok hslash
    exact hepoch.trans hs
  exact hkept.slashes h rfl

/-- Convictions last while others are slashed, and whoever is slashed and jailed is convicted. -/
lemma convicted_of_slashes {l : List Address}
    (h : l.foldlM (fun s a => slash s a bps reason true) s = .ok s') :
    (∀ event, s.Convicted event → s'.Convicted event) ∧
      ∀ a ∈ l, s'.Convicted ⟨a, s.epoch, bps, reason⟩ := by
  induction l generalizing s with
  | nil =>
    cases h
    exact ⟨fun _ hc => hc, nofun⟩
  | cons b l ih =>
    obtain ⟨s₁, hslash, hrest⟩ := slashes_cons h
    obtain ⟨hkeeps, hslashed⟩ := ih hrest
    obtain ⟨-, -, -, -, -, -, hepoch, -⟩ := slash_ok hslash
    rw [hepoch] at hslashed
    refine ⟨fun event hc => hkeeps event (hc.slash hslash), List.forall_mem_cons.mpr ⟨?_, hslashed⟩⟩
    exact hkeeps _ (convicted_of_slash hslash)

/-- **Downtime.**  An active validator that was not seen in the current epoch is slashed and jailed
at its end, unless the epochs have run out of numbers. -/
theorem convicted_applyDowntimeSlashing (hkeyed : s.Keyed) (hv : s.validators[a]? = some v)
    (hactive : v.status = .active) (hlast : v.lastLivenessEpoch < s.epoch)
    (hroom : s.epoch < maxValue 64) (params : EconomicsParams) :
    ∃ s', s.applyDowntimeSlashing params = .ok s' ∧
      s'.Convicted ⟨a, s.epoch, params.downtimeSlashBps, "downtime"⟩ := by
  have hstale : a ∈ s.stale := by
    rw [stale_eq hkeyed]
    have hmissed : saturatingAdd 64 v.lastLivenessEpoch 1 < saturatingAdd 64 s.epoch 1 := by
      simp only [saturatingAdd]
      omega
    exact List.mem_map.mpr ⟨(a, v), List.mem_filter.mpr
      ⟨Table.mem_toList_iff.mpr hv, decide_eq_true ⟨hactive, hmissed⟩⟩, rfl⟩
  obtain ⟨s', h⟩ := (applyDowntimeSlashing_ok_iff s params).mpr fun b hb => by
    rw [stale_eq hkeyed] at hb
    obtain ⟨entry, hentry, rfl⟩ := List.mem_map.mp hb
    rw [Table.mem_toList_iff.mp (List.mem_of_mem_filter hentry)]
    rfl
  exact ⟨s', h, (convicted_of_slashes h).2 a hstale⟩

/-! ## Evidence -/

/-- The validators slashed for evidence, with the reasons: the other slashes are for downtime. -/
def verdicts (s : StakingSnapshot) : List (Address × String) :=
  (s.slashingEvents.filter fun event => event.reason ≠ "downtime").map fun event =>
    (event.validatorAddress, event.reason)

lemma mem_verdicts {verdict : Address × String} (h : verdict ∈ s.verdicts) :
    ∃ event ∈ s.slashingEvents, event.validatorAddress = verdict.1 ∧ event.reason = verdict.2 := by
  obtain ⟨event, hevent, rfl⟩ := List.mem_map.mp h
  exact ⟨event, (List.mem_filter.mp hevent).1, rfl, rfl⟩

/-- Both kinds of evidence that the engine records are equivocations. -/
lemma isEquivocation_of_reason {item : Evidence}
    (h : item.reason = "duplicate vote" ∨ item.reason = "conflicting proposal") :
    isEquivocation item := by
  have hvote : contains "duplicate vote" "duplicate vote" = true := by decide +kernel
  have hproposal : contains "conflicting proposal" "conflicting proposal" = true := by decide +kernel
  rcases h with h | h
  · rw [isEquivocation, h, hvote, Bool.true_or]
  · rw [isEquivocation, h, hproposal, Bool.or_true]

/-- Evidence is never for downtime. -/
lemma reason_ne_of_isEquivocation {item : Evidence} (h : isEquivocation item) :
    item.reason ≠ "downtime" := by
  have hdowntime : (contains "downtime" "duplicate vote" ||
      contains "downtime" "conflicting proposal") = false := by decide +kernel
  intro heq
  rw [isEquivocation, heq, hdowntime] at h
  cases h

lemma verdicts_slash (h : s.slash a bps reason jail = .ok s') :
    s'.verdicts = s.verdicts ++ if reason ≠ "downtime" then [(a, reason)] else [] := by
  obtain ⟨-, -, -, -, -, -, -, hevents⟩ := slash_ok h
  rw [verdicts, hevents, List.filter_append, List.map_append, ← verdicts, List.append_right_inj]
  simp only [List.filter_cons, List.filter_nil, decide_eq_true_eq]
  split <;> rfl

lemma IsJailed.slash (hj : s.IsJailed b) (h : s.slash a bps reason jail = .ok s') :
    s'.IsJailed b := by
  obtain ⟨v, hv, hjailed⟩ := hj
  obtain ⟨w, hw, -, hstatus⟩ := record_slash h hv
  exact ⟨w, hw, hstatus hjailed⟩

/-- Each offence is that of a piece of evidence of its own. -/
lemma offences_eq_map (items : List Evidence) (slashed : List Address) :
    ∃ causes : List Evidence, causes.Sublist items ∧
      offences items slashed = causes.map fun cause => (cause.validatorAddress, cause.reason) := by
  induction items generalizing slashed with
  | nil => exact ⟨[], .slnil, rfl⟩
  | cons item items ih =>
    rw [offences]
    split_ifs
    · obtain ⟨causes, hcauses, heq⟩ := ih slashed
      exact ⟨causes, hcauses.cons item, heq⟩
    · obtain ⟨causes, hcauses, heq⟩ := ih (item.validatorAddress :: slashed)
      exact ⟨item :: causes, hcauses.cons_cons item, by rw [heq, List.map_cons]⟩
    · obtain ⟨causes, hcauses, heq⟩ := ih slashed
      exact ⟨causes, hcauses.cons item, heq⟩

/-- Every offender is named, for evidence against him. -/
lemma exists_offence {items : List Evidence} {slashed : List Address} {item : Evidence}
    (hitem : item ∈ items) (hequivocation : isEquivocation item)
    (hnew : item.validatorAddress ∉ slashed) :
    ∃ cause ∈ items, cause.validatorAddress = item.validatorAddress ∧
      (cause.validatorAddress, cause.reason) ∈ offences items slashed := by
  induction items generalizing slashed with
  | nil => cases hitem
  | cons first items ih =>
    rw [offences]
    rcases List.mem_cons.mp hitem with rfl | hrest
    · rw [if_neg hnew, if_pos hequivocation]
      exact ⟨item, List.mem_cons_self, rfl, List.mem_cons_self⟩
    · split_ifs with hseen hfirst
      · obtain ⟨cause, hcause, hsame, hoffence⟩ := ih hrest hnew
        exact ⟨cause, .tail _ hcause, hsame, hoffence⟩
      · by_cases hsame : item.validatorAddress = first.validatorAddress
        · exact ⟨first, List.mem_cons_self, hsame.symm, List.mem_cons_self⟩
        · obtain ⟨cause, hcause, hcauses, hoffence⟩ :=
            ih hrest (List.not_mem_cons_of_ne_of_not_mem hsame hnew)
          exact ⟨cause, .tail _ hcause, hcauses, .tail _ hoffence⟩
      · obtain ⟨cause, hcause, hsame, hoffence⟩ := ih hrest hnew
        exact ⟨cause, .tail _ hcause, hsame, hoffence⟩

/-- **What evidence does**: a slash for the first offence of each validator, and every offender is
jailed. -/
theorem applyEvidence_ok {params : EconomicsParams} {items : List Evidence}
    (h : s.applyEvidence items params = .ok s') :
    s'.verdicts = s.verdicts ++ offences items [] ∧ (∀ a, s.IsJailed a → s'.IsJailed a) ∧
      ∀ item ∈ items, isEquivocation item → s'.IsJailed item.validatorAddress := by
  have key : ∀ (items : List Evidence) (slashed : List Address) (s : StakingSnapshot),
      applyEvidenceLoop params items slashed s = .ok s' → (∀ a ∈ slashed, s.IsJailed a) →
      s'.verdicts = s.verdicts ++ offences items slashed ∧ (∀ a, s.IsJailed a → s'.IsJailed a) ∧
        ∀ item ∈ items, isEquivocation item → s'.IsJailed item.validatorAddress := by
    intro items
    induction items with
    | nil =>
      intro slashed s h _
      cases h
      exact ⟨(List.append_nil _).symm, fun _ hj => hj, List.forall_mem_nil _⟩
    | cons item items ih =>
      intro slashed s h hslashed
      rw [applyEvidenceLoop] at h
      rw [offences]
      split_ifs at h with hseen hequivocation
      · obtain ⟨hverdicts, hkeeps, hjails⟩ := ih _ _ h hslashed
        rw [if_pos hseen]
        exact ⟨hverdicts, hkeeps, List.forall_mem_cons.mpr ⟨fun _ => hkeeps _ (hslashed _ hseen),
          hjails⟩⟩
      · rw [if_neg hseen, if_pos hequivocation]
        split at h
        · cases h
        · rename_i s₁ hslash
          have hjailed := (convicted_of_slash hslash).jailed
          obtain ⟨hverdicts, hkeeps, hjails⟩ := ih _ _ h (List.forall_mem_cons.mpr
            ⟨hjailed, fun a ha => (hslashed a ha).slash hslash⟩)
          refine ⟨?_, fun a ha => hkeeps a (ha.slash hslash),
            List.forall_mem_cons.mpr ⟨fun _ => hkeeps _ hjailed, hjails⟩⟩
          rw [hverdicts, verdicts_slash hslash, if_pos (reason_ne_of_isEquivocation hequivocation),
            List.append_assoc]
          rfl
      · obtain ⟨hverdicts, hkeeps, hjails⟩ := ih _ _ h hslashed
        rw [if_neg hseen, if_neg hequivocation]
        exact ⟨hverdicts, hkeeps, List.forall_mem_cons.mpr
          ⟨fun hc => absurd hc hequivocation, hjails⟩⟩
  exact key items [] s h (List.forall_mem_nil _)

/-- What is known of the slashes for evidence: the verdicts, and some validators that are jailed. -/
structure Shows (verdicts : List (Address × String)) (guilty : Address → Prop)
    (s : StakingSnapshot) : Prop where
  verdicts : s.verdicts = verdicts
  jailed : ∀ a, guilty a → s.IsJailed a

namespace Shows

variable {verdicts : List (Address × String)} {guilty : Address → Prop}

/-- The same events, and the same records or new ones. -/
lemma congr (h : Shows verdicts guilty s) (hevents : s'.slashingEvents = s.slashingEvents)
    (hrecords : ∀ (a : Address) (v : ValidatorStake), s.validators[a]? = some v →
      s'.validators[a]? = some v) :
    Shows verdicts guilty s' where
  verdicts := by rw [StakingSnapshot.verdicts, hevents, ← h.verdicts, StakingSnapshot.verdicts]
  jailed a ha := by
    obtain ⟨v, hv, hjailed⟩ := h.jailed a ha
    exact ⟨v, hrecords a v hv, hjailed⟩

lemma ensureValidators (h : Shows verdicts guilty s) (vs : List Validator) :
    Shows verdicts guilty (s.ensureValidators vs) :=
  h.congr rfl fun _ _ hv => getElem?_ensureValidators_of_some hv vs

lemma noteLiveness (h : Shows verdicts guilty s) (hnote : s.noteLiveness b = .ok s') :
    Shows verdicts guilty s' := by
  obtain ⟨u, hu, rfl⟩ := noteLiveness_ok_iff.mp hnote
  refine ⟨h.verdicts, fun a ha => ?_⟩
  obtain ⟨v, hv, hjailed⟩ := h.jailed a ha
  rw [IsJailed, Table.getElem?_insert]
  split
  · rename_i hab
    rw [hab, hu] at hv
    obtain rfl := Option.some.inj hv
    exact ⟨_, rfl, hjailed⟩
  · exact ⟨v, hv, hjailed⟩

lemma downtime {params : EconomicsParams} (h : Shows verdicts guilty s)
    (hslashed : s.applyDowntimeSlashing params = .ok s') : Shows verdicts guilty s' := by
  have key : ∀ (l : List Address) (s : StakingSnapshot), Shows verdicts guilty s →
      l.foldlM (fun s a => slash s a params.downtimeSlashBps "downtime" true) s = .ok s' →
      Shows verdicts guilty s' := by
    intro l
    induction l with
    | nil =>
      intro s h hrun
      cases hrun
      exact h
    | cons b l ih =>
      intro s h hrun
      obtain ⟨s₁, hslash, hrest⟩ := slashes_cons hrun
      refine ih s₁ ⟨?_, fun a ha => (h.jailed a ha).slash hslash⟩ hrest
      rw [verdicts_slash hslash, if_neg (not_not.mpr rfl), List.append_nil, h.verdicts]
  exact key s.stale s h hslashed

lemma settleEpochRewards (h : Shows verdicts guilty s) (totalFees rewardBudget : ℕ)
    (params : EconomicsParams) :
    Shows verdicts guilty (s.settleEpochRewards totalFees rewardBudget params).2 := by
  refine h.congr (epoch_settleEpochRewards s totalFees rewardBudget params).2 fun a v hv => ?_
  rw [validators_settleEpochRewards]
  exact hv

/-- Evidence is applied. -/
lemma applyEvidence {params : EconomicsParams} {items : List Evidence}
    (h : Shows verdicts guilty s) (happly : s.applyEvidence items params = .ok s') :
    Shows (verdicts ++ offences items [])
      (fun a => guilty a ∨ ∃ item ∈ items, isEquivocation item ∧ item.validatorAddress = a) s' := by
  obtain ⟨hverdicts, hkeeps, hjails⟩ := applyEvidence_ok happly
  refine ⟨by rw [hverdicts, h.verdicts], ?_⟩
  rintro a (ha | ⟨item, hitem, hequivocation, rfl⟩)
  · exact hkeeps a (h.jailed a ha)
  · exact hjails item hitem hequivocation

end Shows

end ZenoChain.StakingSnapshot
