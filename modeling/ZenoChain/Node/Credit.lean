/-
# Liveness credit

Whoever is heard of in an epoch is credited with it, and whoever is active and goes without credit
is slashed at its end.  A vote is credited when it is received, before its height is looked at: so
the credit is earned as long as the votes and the height of the engine belong to the epoch of the
staking state.
-/
import ZenoChain.Consensus.Members
import ZenoChain.Node.Actions
import ZenoChain.Node.ConsensusPlane
import ZenoChain.Node.QuorumSoundness
import ZenoChain.State.Penalties

namespace ZenoChain

open Word

/-! ## Epochs and signatures -/

/-- The epoch that a height belongs to. -/
def epochOf (economics : EconomicsParams) (height : ℕ) : ℕ := (height - 1) / economics.epochLength

lemma epochOf_le (economics : EconomicsParams) (height : ℕ) : epochOf economics height ≤ height :=
  (Nat.div_le_self _ _).trans (Nat.sub_le _ _)

/-- The next epoch begins after the block that closes one. -/
lemma epochOf_succ (economics : EconomicsParams) {height : ℕ} (hpos : 0 < height) :
    epochOf economics (height + 1) = epochOf economics height +
      if ExecutionEngine.ClosesEpoch economics height then 1 else 0 := by
  obtain ⟨n, rfl⟩ := Nat.exists_eq_succ_of_ne_zero hpos.ne'
  have hcloses : ExecutionEngine.ClosesEpoch economics (n + 1) ↔ economics.epochLength ∣ n + 1 := by
    rw [ExecutionEngine.ClosesEpoch, ← Nat.dvd_iff_mod_eq_zero]
    refine and_iff_right_of_imp fun hdvd hzero => ?_
    rw [hzero, zero_dvd_iff] at hdvd
    exact Nat.succ_ne_zero n hdvd
  rw [epochOf, epochOf, Nat.add_sub_cancel, Nat.succ_eq_add_one, Nat.add_sub_cancel, Nat.succ_div]
  simp only [hcloses]

/-- The validator and the height of a signature. -/
def Effect.signature : Effect → Option (Address × ℕ)
  | .signVote vote => some (vote.validatorAddress, vote.height)
  | .signHeader header => some (header.proposer, header.height)
  | _ => none

/-- A vote or a header of a validator for a height is signed: by the node of the disk, or by
others. -/
def Disk.Signed (others : Address → ℕ → Prop) (d : Disk) (a : Address) (height : ℕ) : Prop :=
  others a height ∨ (a, height) ∈ d.journal.filterMap Effect.signature

/-- A validator has signed something for a height of an epoch. -/
def Disk.Earned (economics : EconomicsParams) (others : Address → ℕ → Prop) (d : Disk) (a : Address)
    (epoch : ℕ) : Prop :=
  ∃ height, d.Signed others a height ∧ epochOf economics height = epoch

section

variable {others : Address → ℕ → Prop} {economics : EconomicsParams} {d : Disk} {a : Address}

lemma Disk.Signed.recordAll [Hashing] {height : ℕ} (h : d.Signed others a height)
    (es : List Effect) : (d.recordAll es).Signed others a height := by
  rw [Signed, Disk.journal_recordAll, List.filterMap_append]
  exact h.imp_right (List.mem_append_left _)

lemma Disk.Earned.recordAll [Hashing] {epoch : ℕ} (h : d.Earned economics others a epoch)
    (es : List Effect) : (d.recordAll es).Earned economics others a epoch :=
  h.imp fun _ hsigned => ⟨hsigned.1.recordAll es, hsigned.2⟩

end

/-! ## Records that are credited -/

namespace StakingSnapshot

/-- The records stand under their addresses, and nobody was seen after the current epoch. -/
structure Current (s : StakingSnapshot) : Prop where
  fits : s.epoch ≤ maxValue 64
  keyed : s.Keyed
  seen : ∀ (a : Address) (v : ValidatorStake), s.validators[a]? = some v →
    v.lastLivenessEpoch ≤ s.epoch

/-- A validator has a record, and a credit for an epoch that began after a given one is earned. -/
structure Credits (earns : ℕ → Prop) (since : ℕ) (a : Address) (s : StakingSnapshot) : Prop where
  fits : s.epoch ≤ maxValue 64
  since_le : since ≤ s.epoch
  record : ∃ v, s.validators[a]? = some v ∧ v.lastLivenessEpoch ≤ s.epoch ∧
    (since < s.epoch → v.lastLivenessEpoch = s.epoch → earns s.epoch)

variable {s s' : StakingSnapshot} {a b : Address} {earns : ℕ → Prop} {since : ℕ}

lemma current_empty : Current {} where
  fits := Nat.zero_le _
  keyed := fun a v hv => by
    rw [Std.ExtTreeMap.getElem?_empty] at hv
    cases hv
  seen := fun a v hv => by
    rw [Std.ExtTreeMap.getElem?_empty] at hv
    cases hv

lemma Current.next_le (h : s.Current) : s.epoch ≤ saturatingAdd 64 s.epoch 1 :=
  le_min (Nat.le_succ _) h.fits

/-- The state stays current while every record is one from before, seen when it was. -/
lemma Current.of_records (h : s.Current) (hfits : s'.epoch ≤ maxValue 64)
    (hepoch : s.epoch ≤ s'.epoch) (hkeyed : s'.Keyed)
    (hrecords : ∀ (a : Address) (w : ValidatorStake), s'.validators[a]? = some w →
      ∃ v, s.validators[a]? = some v ∧ w.lastLivenessEpoch = v.lastLivenessEpoch) :
    s'.Current where
  fits := hfits
  keyed := hkeyed
  seen := fun a w hw => by
    obtain ⟨v, hv, hlast⟩ := hrecords a w hw
    rw [hlast]
    exact (h.seen a v hv).trans hepoch

lemma stable_current : Stable Current where
  ensure := fun s vs h => by
    refine ⟨h.fits, h.keyed.ensureValidators vs, fun a v hv => ?_⟩
    rw [getElem?_ensureValidators] at hv
    split at hv
    · rcases hs : s.validators[a]? with _ | w
      · rw [hs] at hv
        obtain rfl := Option.some.inj hv
        exact le_rfl
      · rw [hs] at hv
        obtain rfl := Option.some.inj hv
        exact h.seen a w hs
    · exact h.seen a v hv
  slash := fun s b bps reason jail s' hslash h => by
    obtain ⟨v, w, hv, hvalidators, -, hlast, hepoch, -⟩ := slash_ok hslash
    refine h.of_records (hepoch ▸ h.fits) hepoch.ge ((sameRecords_slash hslash).keyed h.keyed)
      fun a u hu => ?_
    rw [hvalidators, Table.getElem?_insert] at hu
    split at hu
    · rename_i hab
      obtain rfl := Option.some.inj hu
      exact ⟨v, hab ▸ hv, hlast⟩
    · exact ⟨u, hu, rfl⟩
  fund := fun _ _ h => ⟨h.fits, h.keyed, h.seen⟩
  settle := fun s totalFees rewardBudget params h => by
    obtain ⟨hepoch, -⟩ := epoch_settleEpochRewards s totalFees rewardBudget params
    have hsame := sameRecords_settleEpochRewards s totalFees rewardBudget params
    refine h.of_records (hepoch ▸ Nat.min_le_right _ _) (hepoch ▸ h.next_le)
      (hsame.keyed h.keyed) fun a u hu => ⟨u, ?_, rfl⟩
    rwa [validators_settleEpochRewards] at hu
  note := fun s b s' hnote h => by
    refine ⟨?_, (sameRecords_noteLiveness hnote).keyed h.keyed, fun a u hu => ?_⟩
    · obtain ⟨v, -, rfl⟩ := noteLiveness_ok_iff.mp hnote
      exact h.fits
    · obtain ⟨v, -, rfl⟩ := noteLiveness_ok_iff.mp hnote
      dsimp only at hu
      rw [Table.getElem?_insert] at hu
      split at hu
      · obtain rfl := Option.some.inj hu
        exact le_rfl
      · exact h.seen a u hu

lemma keptByBonds_current : KeptByBonds Current := by
  intro s delegator b amount isSelfBond s' hdelegate h
  obtain ⟨hepoch, -⟩ := epoch_delegate hdelegate
  refine h.of_records (hepoch ▸ h.fits) hepoch.ge ((delegate_ok hdelegate).1.keyed h.keyed)
    fun a u hu => ?_
  have hsome : s.validators[a]?.isSome :=
    ((delegate_ok hdelegate).1.isSome a).mp (Option.isSome_of_eq_some hu)
  obtain ⟨v, hv⟩ := Option.isSome_iff_exists.mp hsome
  obtain ⟨w, hw, hlast, -⟩ := record_delegate hdelegate hv
  rw [hu] at hw
  obtain rfl := Option.some.inj hw
  exact ⟨v, hv, hlast⟩

/-- Every record of a current state is credited from now on. -/
lemma Current.credits (h : s.Current) (ha : s.validators[a]?.isSome) :
    s.Credits earns s.epoch a := by
  obtain ⟨v, hv⟩ := Option.isSome_iff_exists.mp ha
  exact ⟨h.fits, le_rfl, v, hv, h.seen a v hv, fun hlt => absurd hlt (lt_irrefl _)⟩

lemma Credits.mono (h : s.Credits earns since a) {earns' : ℕ → Prop}
    (hmono : ∀ epoch, earns epoch → earns' epoch) : s.Credits earns' since a := by
  obtain ⟨hfits, hsince, v, hv, hseen, hearned⟩ := h
  exact ⟨hfits, hsince, v, hv, hseen, fun hlt hlast => hmono _ (hearned hlt hlast)⟩

/-- A record that was seen when it was is credited as it was. -/
lemma Credits.of_record (h : s.Credits earns since a) (hepoch : s'.epoch = s.epoch)
    (hrecord : ∀ v, s.validators[a]? = some v →
      ∃ w, s'.validators[a]? = some w ∧ w.lastLivenessEpoch = v.lastLivenessEpoch) :
    s'.Credits earns since a := by
  obtain ⟨hfits, hsince, v, hv, hseen, hearned⟩ := h
  obtain ⟨w, hw, hlast⟩ := hrecord v hv
  rw [← hepoch] at hfits hsince hseen hearned
  rw [← hlast] at hseen hearned
  exact ⟨hfits, hsince, w, hw, hseen, hearned⟩

/-- An epoch begins without credits. -/
lemma settling_credits (earns : ℕ → Prop) (since : ℕ) (a : Address) :
    Settling (Credits earns since a) where
  ensure := fun s vs h => h.of_record rfl fun v hv =>
    ⟨v, getElem?_ensureValidators_of_some hv vs, rfl⟩
  slash := fun s b bps reason jail s' hslash h => by
    obtain ⟨-, -, -, -, -, -, hepoch, -⟩ := slash_ok hslash
    refine h.of_record hepoch fun v hv => ?_
    obtain ⟨w, hw, hlast, -⟩ := record_slash hslash hv
    exact ⟨w, hw, hlast⟩
  fund := fun _ _ h => h.of_record rfl fun v hv => ⟨v, hv, rfl⟩
  settle := fun s totalFees rewardBudget params h => by
    obtain ⟨hfits, hsince, v, hv, hseen, hearned⟩ := h
    obtain ⟨hepoch, -⟩ := epoch_settleEpochRewards s totalFees rewardBudget params
    have hnext : s.epoch ≤ saturatingAdd 64 s.epoch 1 := le_min (Nat.le_succ _) hfits
    refine ⟨hepoch ▸ Nat.min_le_right _ _, hepoch ▸ hsince.trans hnext, v, ?_,
      hepoch ▸ hseen.trans hnext, fun hlt hlast => ?_⟩
    · rwa [validators_settleEpochRewards]
    · -- Only where the epochs have run out of numbers, the epoch stays what it was.
      have hsame : saturatingAdd 64 s.epoch 1 = s.epoch :=
        le_antisymm (hepoch ▸ hlast ▸ hseen) hnext
      rw [hepoch, hsame] at hlt hlast ⊢
      exact hearned hlt hlast

lemma keptByBonds_credits (earns : ℕ → Prop) (since : ℕ) (a : Address) :
    KeptByBonds (Credits earns since a) := by
  intro s delegator b amount isSelfBond s' hdelegate h
  obtain ⟨hepoch, -⟩ := epoch_delegate hdelegate
  refine h.of_record hepoch fun v hv => ?_
  obtain ⟨w, hw, hlast, -⟩ := record_delegate hdelegate hv
  exact ⟨w, hw, hlast⟩

/-- A note is a credit for the current epoch. -/
lemma Credits.note (h : s.Credits earns since a) (hnote : s.noteLiveness b = .ok s')
    (hearned : b = a → earns s.epoch) : s'.Credits earns since a := by
  obtain ⟨v, hv, rfl⟩ := noteLiveness_ok_iff.mp hnote
  by_cases hab : a = b
  · refine ⟨h.fits, h.since_le, _, (Table.getElem?_insert _ _ _ _).trans (if_pos hab), le_rfl, ?_⟩
    exact fun _ _ => hearned hab.symm
  · refine h.of_record rfl fun w hw => ⟨w, ?_, rfl⟩
    dsimp only
    rw [Table.getElem?_insert, if_neg hab]
    exact hw

end StakingSnapshot

/-! ## The epoch of the staking state -/

section

variable [Hashing]

/-- The accounting of a block moves on to the next epoch where the block closes one. -/
lemma ExecutionEngine.epoch_applyBlockAccounting {x : ExecutionEngine} {economics : EconomicsParams}
    (heconomics : x.economics = some economics) {store : Store} {state state' : StateSnapshot}
    {proposer : Address} {fees height : ℕ} {artifacts : AccountingArtifacts}
    (h : x.applyBlockAccounting store state proposer fees height = .ok (state', artifacts)) :
    ∃ s, artifacts.staking = some s ∧ s.epoch =
      if ClosesEpoch economics height then saturatingAdd 64 (StakingSnapshot.load store).epoch 1
      else (StakingSnapshot.load store).epoch := by
  rw [applyBlockAccounting, heconomics] at h
  dsimp only at h
  split_ifs at h ⊢
  · split at h
    · cases h
    · rename_i hsettle
      cases h
      rw [settleEpoch] at hsettle
      split at hsettle
      · cases hsettle
      · rename_i hslashed
        cases hsettle
        refine ⟨_, rfl, ?_⟩
        rw [(StakingSnapshot.epoch_settleEpochRewards _ _ _ _).1,
          StakingSnapshot.epoch_of_slashes hslashed]
        rfl
  · cases h
    exact ⟨_, rfl, rfl⟩

namespace ConsensusEngine

variable {config : NodeConfig} {e : ConsensusEngine} {w₀ w w' : World} {event : Event}

/-- The height of the engine belongs to the epoch of the staking state. -/
structure OnTime (e : ConsensusEngine) (w : World) : Prop where
  positive : 0 < w.state.height
  current : epochOf e.economics w.state.height = (StakingSnapshot.load w.disk.store).epoch

omit [Hashing] in
lemma epoch_of_noted {store : Store} {a : Address} {staking : StakingSnapshot}
    (h : e.noted store a = .ok staking) : staking.epoch = (StakingSnapshot.load store).epoch := by
  obtain ⟨v, -, rfl⟩ := StakingSnapshot.noteLiveness_ok_iff.mp h
  rfl

omit [Hashing] in
lemma OnTime.congr (h : e.OnTime w) (hheight : w'.state.height = w.state.height)
    (hepoch : (StakingSnapshot.load w'.disk.store).epoch =
      (StakingSnapshot.load w.disk.store).epoch) : e.OnTime w' :=
  ⟨hheight ▸ h.positive, by rw [hheight, hepoch, h.current]⟩

lemma epoch_of_settles {items : List Evidence} {d d' : Disk} (h : Settles e items d d') :
    (StakingSnapshot.load d'.store).epoch = (StakingSnapshot.load d.store).epoch := by
  cases h with
  | none => rfl
  | some _ happly => exact (StakingSnapshot.alike_of_applyEvidence happly).epoch

variable [Revm]

lemma epoch_of_commits (hbuilds : config.Builds e) {f : FinalizedBlock} {d d' : Disk}
    (h : Commits e f d d') : (StakingSnapshot.load d'.store).epoch =
      if ExecutionEngine.ClosesEpoch e.economics f.block.header.height then
        saturatingAdd 64 (StakingSnapshot.load d.store).epoch 1
      else (StakingSnapshot.load d.store).epoch := by
  have heconomy := congrArg (fun s : Economy => s.1.epoch) (h.economy hbuilds)
  obtain ⟨d₁, p, tail, hprepares, -⟩ := h
  obtain ⟨state, -, haccounting⟩ := hprepares.replay
  obtain ⟨es, hquiet, rfl⟩ := hprepares.onlyEvmWrites.quiet
  have heconomics : e.execution.economics = some e.economics := by
    rw [hbuilds.execution, hbuilds.economics]
    rfl
  obtain ⟨s, hs, hepoch⟩ := ExecutionEngine.epoch_applyBlockAccounting heconomics haccounting
  rw [(accounting_of_prepares hbuilds hprepares).1] at hs
  obtain rfl := Option.some.inj hs
  rw [StakingSnapshot.load, (recordAll_quiet hquiet d).1] at hepoch
  exact heconomy.trans hepoch

/-- **One move** of a handler that imports no block keeps the engine on time. -/
lemma OnTime.move (h : e.OnTime w) (hbuilds : config.Builds e) (hpending : e.Accountable w)
    (hroom : w₀.state.height + 2 < 2 ^ 64) (hlocal : ∀ f, event ≠ .commit f)
    (hmove : e.Move w₀ event w w') : e.OnTime w' := by
  cases hmove with
  | quiet hquiet =>
    refine h.congr rfl ?_
    rw [StakingSnapshot.load, World.disk_emitAll, (recordAll_quiet hquiet _).1]
    rfl
  | note hnoted => exact h.congr rfl (epoch_of_noted hnoted)
  | @accuse item => exact h.congr (stays_accuse e w item).height rfl
  | @cast vote staking hmay =>
    obtain ⟨_, _, hmark⟩ := w.state.markCast_eq vote.step
    refine h.congr ?_ (epoch_of_noted hmay.noted)
    rw [World.cast, hmark]
  | @count vote => exact h.congr (w.state.height_count vote) rfl
  | accept | report | lock | nextRound => exact h.congr rfl rfl
  | @finalize f d₁ d₂ _ hcertificate hvalid hcommits hsettles hbound =>
    have hheight : f.block.header.height = w.state.height := by
      rw [← (validateCommitCertificate_ok hvalid).height, hcertificate]
      rfl
    have hnext : wrappingAdd 64 w.state.height 1 = w.state.height + 1 :=
      wrappingAdd_of_lt (by omega)
    refine ⟨?_, ?_⟩
    · show 0 < wrappingAdd 64 w.state.height 1
      omega
    · show epochOf e.economics (wrappingAdd 64 w.state.height 1) =
        (StakingSnapshot.load d₂.store).epoch
      have hlt : epochOf e.economics (w.state.height + 1) < 2 ^ 64 :=
        lt_of_le_of_lt (epochOf_le _ _) (by omega)
      rw [hnext, epoch_of_settles hsettles, epoch_of_commits hbuilds hcommits, hheight,
        ← h.current]
      rw [epochOf_succ e.economics h.positive] at hlt ⊢
      split_ifs at hlt ⊢
      · rw [saturatingAdd, Nat.min_eq_left (le_maxValue_iff.mpr hlt)]
      · rfl
  | stall _ _ _ hcommits hfails =>
    obtain ⟨_, happlied⟩ := hpending.applies hcommits
    rw [happlied] at hfails
    cases hfails
  | adopt hcause => exact absurd hcause (hlocal _)

end ConsensusEngine

end

/-! ## Every disk in between -/

/-- Whichever of some effects a process stops after, the staking state on its disk has a property
that goes with the disk. -/
def AtAll [Hashing] (Q : Disk → StakingSnapshot → Prop) (d : Disk) (es : List Effect) : Prop :=
  ∀ es', es' <+: es → (d.recordAll es').store.Stakes (Q (d.recordAll es'))

section

variable [Hashing] {Q : Disk → StakingSnapshot → Prop} {d : Disk} {es es' : List Effect}

lemma AtAll.append (h : AtAll Q d es) (h' : AtAll Q (d.recordAll es) es') :
    AtAll Q d (es ++ es') := by
  intro front hfront
  rcases le_total front.length es.length with hle | hle
  · exact h front (List.prefix_of_prefix_length_le hfront (List.prefix_append es es') hle)
  · obtain ⟨rest, rfl⟩ :=
      List.prefix_of_prefix_length_le (List.prefix_append es es') hfront hle
    rw [Disk.recordAll_append]
    exact h' rest ((List.prefix_append_right_inj es).mp hfront)

/-- The states that are stored have the property from the start, and keep it. -/
lemma atAll_of_puts (hmono : ∀ d es s, Q d s → Q (d.recordAll es) s) (h : d.store.Stakes (Q d))
    (hes : ∀ s : StakingState, .write (.putStakingState s) ∈ es → Q d s) : AtAll Q d es := by
  intro front hfront
  obtain ⟨s, hstored, hs⟩ := h.recordAll fun s hs => hes s (hfront.subset hs)
  exact ⟨s, hstored, hmono d front s hs⟩

end

/-! ## Handlers -/

namespace ConsensusEngine

/-- The engine is at a height of the current epoch, with room for two more, and so is a vote that
the event delivers. -/
structure Timely (e : ConsensusEngine) (w : World) (event : Event) : Prop where
  room : w.state.height + 2 < 2 ^ 64
  onTime : e.OnTime w
  delivered : ∀ vote ∈ event.vote?, verifyVote e.scheme vote = .ok () →
    epochOf e.economics vote.height = (StakingSnapshot.load w.disk.store).epoch

instance (e : ConsensusEngine) (w : World) : Decidable (e.OnTime w) :=
  decidable_of_iff (_ ∧ _) ⟨fun h => ⟨h.1, h.2⟩, fun h => ⟨h.positive, h.current⟩⟩

instance (e : ConsensusEngine) (w : World) (event : Event) : Decidable (e.Timely w event) :=
  decidable_of_iff (_ ∧ _ ∧ _)
    ⟨fun h => ⟨h.1, h.2.1, h.2.2⟩, fun h => ⟨h.room, h.onTime, h.delivered⟩⟩

/-- An import notes nobody; any other event has to be timely. -/
def Prompt (e : ConsensusEngine) (w : World) : Event → Prop
  | .commit _ => True
  | event => e.Timely w event

instance (e : ConsensusEngine) (w : World) : ∀ event : Event, Decidable (e.Prompt w event)
  | .commit _ => inferInstanceAs (Decidable True)
  | .start .. | .proposal _ | .vote _ | .timeout .. => inferInstanceAs (Decidable (e.Timely w _))

/-- The signature of a delivered vote is its author's. -/
def Unforged (e : ConsensusEngine) (others : Address → ℕ → Prop) (w : World) (event : Event) :
    Prop :=
  ∀ vote ∈ event.vote?, verifyVote e.scheme vote = .ok () →
    w.disk.Signed others vote.validatorAddress vote.height

/-- The record of a validator is credited for what was signed until now. -/
def Credited (e : ConsensusEngine) (others : Address → ℕ → Prop) (since : ℕ) (a : Address)
    (d : Disk) : StakingSnapshot → Prop :=
  StakingSnapshot.Credits (d.Earned e.economics others a) since a

section

variable [Hashing] {config : NodeConfig} {e : ConsensusEngine} {w₀ w w' : World} {event : Event}
  {others : Address → ℕ → Prop} {since : ℕ} {a : Address}

lemma credited_mono (d : Disk) (es : List Effect) (s : StakingSnapshot)
    (h : e.Credited others since a d s) : e.Credited others since a (d.recordAll es) s :=
  h.mono fun _ hearned => hearned.recordAll es

omit [Hashing] in
/-- Whoever is noted has signed for the current epoch. -/
lemma earned_of_heard {b : Address} (h : e.OnTime w) (htimely : e.Timely w₀ event)
    (hunforged : e.Unforged others w₀ event) (hheard : e.Heard w₀ event w b) :
    w.disk.Earned e.economics others b (StakingSnapshot.load w.disk.store).epoch := by
  cases hheard with
  | @delivered vote hcause hstart hverified =>
    subst hstart hcause
    exact ⟨vote.height, hunforged vote rfl hverified, htimely.delivered vote rfl hverified⟩
  | @vote vote hsigned hheight =>
    rw [← h.current, ← hheight]
    exact ⟨vote.height, .inr (List.mem_filterMap.mpr ⟨_, hsigned, rfl⟩), rfl⟩
  | @header header hsigned hheight =>
    rw [← h.current, ← hheight]
    exact ⟨header.height, .inr (List.mem_filterMap.mpr ⟨_, hsigned, rfl⟩), rfl⟩

variable [Revm]

/-- **One move**, stopped anywhere, leaves earned credits only. -/
lemma credited_move (h : e.OnTime w) (htimely : e.Timely w₀ event)
    (hunforged : e.Unforged others w₀ event)
    (hw : w.disk.store.Stakes (e.Credited others since a w.disk)) (hhears : e.Hears w₀ event w w') :
    ∃ es, w'.disk = w.disk.recordAll es ∧ AtAll (e.Credited others since a) w.disk es := by
  have hnoted : ∀ {d : Disk} {b : Address} {staking : StakingSnapshot},
      d.store.Stakes (e.Credited others since a d) → e.noted d.store b = .ok staking →
      (b = a → d.Earned e.economics others a (StakingSnapshot.load d.store).epoch) →
      e.Credited others since a d staking := by
    intro d b staking hd hnote hearned
    exact ((StakingSnapshot.settling_credits _ _ _).ensure _ _ hd.load).note hnote hearned
  by_cases hcast : ∃ vote staking, e.MayCast w vote staking ∧ w' = w.cast vote staking
  · -- The vote is signed before its author is noted.
    obtain ⟨vote, staking, hmay, rfl⟩ := hcast
    have hsign : AtAll (e.Credited others since a) w.disk [.signVote vote] :=
      atAll_of_puts credited_mono hw fun s hs => by simp at hs
    have hsigned := hsign _ (List.prefix_refl _)
    refine ⟨World.castEffects vote staking, rfl,
      hsign.append (atAll_of_puts credited_mono hsigned fun s hs => ?_)⟩
    obtain rfl : s = staking := by simpa using hs
    refine hnoted hsigned hmay.noted fun hauthor =>
      ⟨vote.height, .inr (List.mem_filterMap.mpr ⟨.signVote vote, ?_, ?_⟩), hmay.height ▸ h.current⟩
    · rw [Disk.journal_recordAll]
      exact List.mem_append_right _ List.mem_cons_self
    · rw [← hauthor]
      rfl
  · have hput : ∀ b staking, e.noted w.disk.store b = .ok staking → w' = w.note b staking →
        e.Credited others since a w.disk staking := fun b staking hnote heq =>
      hnoted hw hnote fun hb =>
        hb ▸ earned_of_heard h htimely hunforged (hhears.heard b staking heq)
    obtain ⟨es, hdisk, hes⟩ := hw.move_puts_of_notes (StakingSnapshot.settling_credits _ _ _)
      hhears.move hput fun vote staking hmay heq => absurd ⟨vote, staking, hmay, heq⟩ hcast
    exact ⟨es, hdisk, atAll_of_puts credited_mono hw hes⟩

/-- **An event**, stopped anywhere, leaves earned credits only. -/
theorem credited_handle (hbuilds : config.Builds e) (hpending : e.Accountable w)
    (hprompt : e.Prompt w event) (hunforged : e.Unforged others w event)
    (hw : w.disk.store.Stakes (e.Credited others since a w.disk)) :
    AtAll (e.Credited others since a) w.disk (e.effectsOf w event) := by
  obtain ⟨es, hdisk, hes⟩ : ∃ es, (e.handle w event).disk = w.disk.recordAll es ∧
      AtAll (e.Credited others since a) w.disk es := by
    by_cases himport : ∃ f, event = .commit f
    · obtain ⟨f, rfl⟩ := himport
      show ∃ es, (Handler.final (e.importExternalFinalizedBlock f w)).disk = _ ∧ _
      rcases import_cases e f w with
        ⟨es, hquiet, hrun⟩ | ⟨es, d, es', hquiet, hquiet', -, -, hcommits, hrun⟩
      · exact ⟨es, congrArg World.disk hrun, atAll_of_puts credited_mono hw fun s hs =>
          absurd (hquiet _ hs) Bool.false_ne_true⟩
      · have hlogged : (w.emitAll es).disk.store.Stakes (e.Credited others since a w.disk) :=
          hw.recordAll fun s hs => absurd (hquiet _ hs) Bool.false_ne_true
        obtain ⟨block, rfl, hblock⟩ :=
          hlogged.commits_puts (StakingSnapshot.settling_credits _ _ _) hcommits
        refine ⟨es ++ (block ++ es'), ?_, atAll_of_puts credited_mono hw fun s hs => ?_⟩
        · rw [hrun, Disk.recordAll_append, Disk.recordAll_append]
          rfl
        · rcases List.mem_append.mp hs with hs | hs
          · exact absurd (hquiet _ hs) Bool.false_ne_true
          · exact (List.mem_append.mp hs).elim (hblock s) fun hs =>
              absurd (hquiet' _ hs) Bool.false_ne_true
    · have hlocal : ∀ f, event ≠ .commit f := fun f hf => himport ⟨f, hf⟩
      have htimely : e.Timely w event := by
        cases event with
        | commit f => exact absurd rfl (hlocal f)
        | _ => exact hprompt
      refine (invariant_of_hearings (fun w' => e.OnTime w' ∧ e.Accountable w' ∧
        ∃ es, w'.disk = w.disk.recordAll es ∧ AtAll (e.Credited others since a) w.disk es)
        ⟨htimely.onTime, hpending, [], rfl, atAll_of_puts credited_mono hw nofun⟩ ?_).2.2
      rintro w₁ w₂ - - - ⟨htime, hknown, es, hdisk, hes⟩ hhears
      refine ⟨htime.move hbuilds hknown htimely.room hlocal hhears.move, hknown.move hhears.move, ?_⟩
      have hw₁ : w₁.disk.store.Stakes (e.Credited others since a w₁.disk) := by
        rw [hdisk]
        exact hes es (List.prefix_refl es)
      obtain ⟨es', hdisk', hes'⟩ := credited_move htime htimely hunforged hw₁ hhears
      refine ⟨es ++ es', ?_, hes.append (hdisk ▸ hes')⟩
      rw [hdisk', hdisk, Disk.recordAll_append]
  have heffects : e.effectsOf w event = es := by
    rw [effectsOf, hdisk, Disk.journal_recordAll, List.drop_left]
  rwa [heffects]

/-! ## Nodes in operation -/

/-- **An action** leaves earned credits only. -/
lemma credited_act (hbuilds : config.Builds e) (hpending : e.Accountable w) {action : NodeAction}
    (hmeets : action.Meets (fun w event => e.Unforged others w event ∧ e.Prompt w event) w)
    (hw : w.disk.store.Stakes (e.Credited others since a w.disk)) :
    (e.act config w action).disk.store.Stakes
      (e.Credited others since a (e.act config w action).disk) := by
  have hsettling := StakingSnapshot.settling_credits (w.disk.Earned e.economics others a) since a
  cases action with
  | handle event =>
    obtain ⟨hunforged, hprompt⟩ := hmeets event rfl
    have hact : (e.act config w (.handle event)).disk =
        w.disk.recordAll (e.effectsOf w event) := disk_handle e w event
    rw [hact]
    exact credited_handle hbuilds hpending hprompt hunforged hw _ (List.prefix_refl _)
  | serve n event =>
    obtain ⟨es, hdisk, hes⟩ := hw.serve_puts hsettling
      (StakingSnapshot.keptByBonds_credits _ _ _) config n event
    have hact : (e.act config w (.serve n event)).disk = w.disk.recordAll es := hdisk
    rw [hact]
    exact atAll_of_puts credited_mono hw hes es (List.prefix_refl es)
  | restart event effects =>
    obtain ⟨hunforged, hprompt⟩ := hmeets event rfl
    have hcrash := credited_handle hbuilds hpending hprompt hunforged hw _
      (List.take_prefix effects _)
    obtain ⟨es, hdisk, hes⟩ := hcrash.bootstrap_puts (StakingSnapshot.settling_credits _ _ _)
      (StakingSnapshot.keptByBonds_credits _ _ _) config.genesis
    have hact : (e.act config w (.restart event effects)).disk =
        (e.crashDisk w event effects).recordAll es := hdisk
    rw [hact]
    exact atAll_of_puts credited_mono hcrash hes es (List.prefix_refl es)

/-- Liveness credit is earned on a disk, by a validator whose record was there in an earlier epoch:
a credit for the current epoch stands for a signature, and without a signature an active validator
is slashed for downtime at the end of the epoch. -/
def CreditEarned (e : ConsensusEngine) (others : Address → ℕ → Prop) (since : ℕ) (a : Address)
    (d : Disk) : Prop :=
  let s := StakingSnapshot.load d.store
  since < s.epoch → ∃ v, s.validators[a]? = some v ∧
    (v.lastLivenessEpoch = s.epoch → d.Earned e.economics others a s.epoch) ∧
    (v.status = .active → s.epoch < maxValue 64 → ¬ d.Earned e.economics others a s.epoch →
      ∀ (amount : ℕ) (params : EconomicsParams), ∃ s',
        ((e.view d.store).fund amount).applyDowntimeSlashing params = .ok s' ∧
        s'.Convicted ⟨a, s.epoch, params.downtimeSlashBps, "downtime"⟩)

omit [Hashing] [Revm] in
lemma creditEarned_of_credited {d : Disk} (hcurrent : (StakingSnapshot.load d.store).Current)
    (h : e.Credited others since a d (StakingSnapshot.load d.store)) :
    e.CreditEarned others since a d := by
  intro hlt
  obtain ⟨-, -, v, hv, hseen, hearned⟩ := h
  refine ⟨v, hv, hearned hlt, fun hactive hroom hnone amount params => ?_⟩
  have hmissed : v.lastLivenessEpoch < (StakingSnapshot.load d.store).epoch :=
    lt_of_le_of_ne hseen fun hlast => hnone (hearned hlt hlast)
  have hkeyed : ((e.view d.store).fund amount).Keyed := hcurrent.keyed.ensureValidators e.validators
  exact StakingSnapshot.convicted_applyDowntimeSlashing hkeyed
    (StakingSnapshot.getElem?_ensureValidators_of_some hv e.validators) hactive hmissed hroom params

/-- **Liveness credit is earned** in every run of a node from its genesis in which signatures are
unforgeable and the engine is prompt: whichever of the effects of an event a process stops after,
whoever had a record in an earlier epoch is credited for the current one only with a signature for
a height of it, and is slashed without. -/
theorem liveness_credit_earned (hbuilds : config.Builds e) {d₀ d : Disk}
    (hfresh : d₀.store.stakingState = none)
    (hstart : bootstrapGenesis config.genesis false d₀ = .ok ⟨⟩ d) {w₁ w₂ : World}
    (hrun₁ : e.Operates config (NodeAction.Meets fun w event =>
      e.Unforged others w event ∧ e.Prompt w event) (World.boot d) w₁)
    (hrecord : (StakingSnapshot.load w₁.disk.store).validators[a]?.isSome)
    (hrun₂ : e.Operates config (NodeAction.Meets fun w event =>
      e.Unforged others w event ∧ e.Prompt w event) w₁ w₂)
    (hunforged : e.Unforged others w₂ event) (hprompt : e.Prompt w₂ event) (effects : ℕ) :
    e.CreditEarned others (StakingSnapshot.load w₁.disk.store).epoch a
      (e.crashDisk w₂ event effects) := by
  -- The start stores a current state, in which nobody has been seen yet.
  have hboot : d.store.Stakes StakingSnapshot.Current := by
    rw [bootstrapGenesis_run] at hstart
    split at hstart
    · cases hstart
    · rename_i staking hbond
      cases hstart
      refine ⟨staking, rfl, StakingSnapshot.keptByBonds_current.bondValidators hbond ?_⟩
      refine StakingSnapshot.stable_current.ensure _ _ ?_
      rw [StakingSnapshot.load, hfresh]
      exact StakingSnapshot.current_empty
  have hacts : ∀ {w w' : World}, e.Operates config (NodeAction.Meets fun w event =>
      e.Unforged others w event ∧ e.Prompt w event) w w' →
      w.disk.store.Stakes StakingSnapshot.Current ∧ e.Accountable w →
      w'.disk.store.Stakes StakingSnapshot.Current ∧ e.Accountable w' := fun hrun hw =>
    invariant_of_operates (fun w => w.disk.store.Stakes StakingSnapshot.Current ∧ e.Accountable w)
      hw (fun _ action _ h => ⟨h.1.act StakingSnapshot.stable_current
        StakingSnapshot.keptByBonds_current action, h.2.act action⟩) hrun
  obtain ⟨hw₁, hpending₁⟩ := hacts hrun₁ ⟨hboot, List.forall_mem_nil _⟩
  obtain ⟨hw₂, -⟩ := hacts hrun₂ ⟨hw₁, hpending₁⟩
  have hfirst : w₁.disk.store.Stakes
      (e.Credited others (StakingSnapshot.load w₁.disk.store).epoch a w₁.disk) := by
    have hload := hw₁.load
    obtain ⟨s, hstored, -⟩ := hw₁
    refine ⟨s, hstored, ?_⟩
    rw [StakingSnapshot.load, hstored] at hrecord hload ⊢
    exact hload.credits hrecord
  obtain ⟨hcredited, hpending₂⟩ := invariant_of_operates (fun w => w.disk.store.Stakes
    (e.Credited others (StakingSnapshot.load w₁.disk.store).epoch a w.disk) ∧ e.Accountable w)
    ⟨hfirst, hpending₁⟩ (fun _ action hmeets h =>
      ⟨credited_act hbuilds h.2 hmeets h.1, h.2.act action⟩) hrun₂
  have hcrash := credited_handle hbuilds hpending₂ hprompt hunforged hcredited _
    (List.take_prefix effects _)
  have hcurrent : (e.crashDisk w₂ event effects).store.Stakes StakingSnapshot.Current :=
    hw₂.recordAll fun s hs =>
      hw₂.handle_puts StakingSnapshot.stable_current event s (List.mem_of_mem_take hs)
  exact creditEarned_of_credited hcurrent.load hcrash.load

end

end ConsensusEngine

/-! ## A vote from the epoch before -/

section

open Transparent ConsensusEngine

/-- A network with epochs of one block, whose validators have accounts. -/
def dailyNode : NodeConfig :=
  { quorumNode with
    genesis := { quorumNode.genesis with
      accounts := holding [([1], 0), ([2], 0), ([3], 0), ([4], 0)]
      economics := { Transparent.economics with epochLength := 1 } } }

/-- The engine of its first validator. -/
def dailyEngine : ConsensusEngine :=
  .new dailyNode.genesis scheme dailyNode.engine (some ⟨validatorOf [1], [1]⟩)

/-- The disk after the first start. -/
def dailyDisk : Disk := Handler.final (bootstrapGenesis dailyNode.genesis false blank)

/-- The first block. -/
def dailyBlock : Block := propose dailyEngine.execution dailyDisk [2] 1 0 0 []

/-- A precommit for the first block. -/
def dailyPrecommit (key : Bytes) : Event :=
  .vote (Transparent.castVote key 1 0 .precommit dailyBlock.hash)

/-- The first block is proposed and finalized. -/
def dailyEvents : List Event :=
  .proposal ⟨1, 0, dailyBlock, address [2]⟩ :: [[2], [3], [4]].map dailyPrecommit

/-- The first epoch is over. -/
def dailyWorld : World := dailyEvents.foldl dailyEngine.handle (World.boot dailyDisk)

/-- Precommits for the first block are not forged where everybody has signed for its height. -/
lemma unforged_dailyPrecommit {others : Address → ℕ → Prop} (h : ∀ a, others a 1) (key : Bytes)
    (w : World) : dailyEngine.Unforged others w (dailyPrecommit key) := by
  rintro vote ⟨⟩ -
  exact .inl (h _)

/-- Everybody has signed for the first height, and nobody for another one. -/
def firstSigned (_ : Address) (height : ℕ) : Prop := height = 1

lemma builds_dailyNode : dailyNode.Builds dailyEngine := by
  have hplane : dailyNode.consensusPlane (some ⟨address [1], [1]⟩) = .ok dailyEngine := rfl
  exact NodeConfig.builds_of_consensusPlane hplane

lemma run_dailyEvents {others : Address → ℕ → Prop} (h : ∀ a, others a 1) :
    dailyEngine.Run (fun w event => dailyEngine.Unforged others w event ∧
      dailyEngine.Prompt w event) (World.boot dailyDisk) dailyWorld := by
  have hprompt : dailyEngine.Meets dailyEngine.Prompt (World.boot dailyDisk) dailyEvents := by
    decide +kernel
  obtain ⟨hproposal, hsecond, hthird, hfourth, -⟩ := hprompt
  exact run_of_meets dailyEvents ⟨⟨nofun, hproposal⟩, ⟨unforged_dailyPrecommit h [2] _, hsecond⟩,
    ⟨unforged_dailyPrecommit h [3] _, hthird⟩, ⟨unforged_dailyPrecommit h [4] _, hfourth⟩, trivial⟩

/-- A validator that has signed for the first epoch only is credited for the second one. -/
theorem replayed_vote_credits :
    ¬ ∀ (config : NodeConfig) (e : ConsensusEngine) (others : Address → ℕ → Prop) (d₀ d : Disk)
      (w₁ w₂ : World) (a : Address) (event : Event) (effects : ℕ), config.Builds e →
      d₀.store.stakingState = none → bootstrapGenesis config.genesis false d₀ = .ok ⟨⟩ d →
      e.Operates config (NodeAction.Meets (e.Unforged others)) (World.boot d) w₁ →
      (StakingSnapshot.load w₁.disk.store).validators[a]?.isSome →
      e.Operates config (NodeAction.Meets (e.Unforged others)) w₁ w₂ →
      e.Unforged others w₂ event →
      e.CreditEarned others (StakingSnapshot.load w₁.disk.store).epoch a
        (e.crashDisk w₂ event effects) := by
  intro hearns
  have hfirst : ∀ a, firstSigned a 1 := fun _ => rfl
  have hcredit := hearns dailyNode dailyEngine firstSigned blank dailyDisk
    (World.boot dailyDisk) dailyWorld (address [3]) (dailyPrecommit [3]) 2 builds_dailyNode rfl rfl
    .refl (by decide +kernel)
    (operates_of_run (Relation.ReflTransGen.mono (fun _ _ ⟨event, hrule, heq⟩ =>
      ⟨event, hrule.1, heq⟩) _ _ (run_dailyEvents hfirst)))
    (unforged_dailyPrecommit hfirst [3] dailyWorld)
  -- The second epoch has begun, and the third validator has signed nothing for it.
  obtain ⟨hbefore, hepoch, hlast, hnone⟩ :
      (StakingSnapshot.load (World.boot dailyDisk).disk.store).epoch = 0 ∧
      (StakingSnapshot.load (dailyEngine.crashDisk dailyWorld (dailyPrecommit [3])
        2).store).epoch = 1 ∧
      (StakingSnapshot.load (dailyEngine.crashDisk dailyWorld (dailyPrecommit [3])
        2).store).validators[address [3]]?.map ValidatorStake.lastLivenessEpoch = some 1 ∧
      ∀ entry ∈ (dailyEngine.crashDisk dailyWorld (dailyPrecommit [3]) 2).journal.filterMap
        Effect.signature, entry.1 ≠ address [3] := by
    decide +kernel
  rw [CreditEarned, hbefore, hepoch] at hcredit
  obtain ⟨v, hv, hearned, -⟩ := hcredit Nat.zero_lt_one
  rw [hv, Option.map_some, Option.some_inj] at hlast
  obtain ⟨height, rfl | hsigned, hheight⟩ := hearned hlast
  · revert hheight
    decide
  · exact hnone _ hsigned rfl

/-- A vote for the second height is a credit for the second epoch. -/
theorem timely_vote_credits :
    dailyEngine.CreditEarned (fun a height => height = 1 ∨ (a = address [3] ∧ height = 2))
      (StakingSnapshot.load (World.boot dailyDisk).disk.store).epoch (address [3])
      (dailyEngine.crashDisk dailyWorld (.vote (Transparent.castVote [3] 2 0 .prevote 7)) 2) :=
  liveness_credit_earned builds_dailyNode (rfl : blank.store.stakingState = none) rfl .refl (by decide +kernel)
    (operates_of_run (run_dailyEvents fun _ => .inl rfl))
    (by
      rintro vote ⟨⟩ -
      exact .inl (.inr ⟨rfl, rfl⟩))
    (by decide +kernel) 2

end

end ZenoChain
