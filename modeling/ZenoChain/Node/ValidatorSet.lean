/-
# The validator set of an epoch

A block that ends an epoch stores a transition with the validator set of the next one.  The engine
never reads it: it takes its set from the staking state of the moment and by the parameters of the
genesis.  The two are the same as long as the transition is counted by parameters that find the same
validators active, and nothing lets a validator in, out or past another one until the next one.
-/
import ZenoChain.Base.Trace
import ZenoChain.Execution.Calendar
import ZenoChain.Node.Credit
import ZenoChain.State.Seats

namespace ZenoChain

open Word StakingSnapshot

/-! ## Staking and governance after a block -/

section

variable [Hashing]

/-- Within an epoch a block leaves everybody's standing alone; at its end it stores the transition
of the staking and governance states that it leaves. -/
lemma Economy.account_cases (s : Economy) (economics : EconomicsParams) (fees height : ℕ) :
    (s.transition economics fees height = none ∧
      (s.account economics fees height).1.standing = s.1.standing ∧
      (s.account economics fees height).1.epoch = s.1.epoch) ∨
    (s.transition economics fees height =
        some ((s.account economics fees height).1.buildEpochTransition height
          (s.account economics fees height).2.economics) ∧
      (s.account economics fees height).1.epoch = saturatingAdd 64 s.1.epoch 1) := by
  rw [account, transition]
  dsimp only
  split_ifs
  · rcases hsettle : ExecutionEngine.settleEpoch (s.1.fund
      (ExecutionEngine.treasuryCut economics fees)) s.2 height with err | ⟨staking, governance, t⟩
    · rw [StakingSnapshot.fund] at hsettle
      rw [hsettle]
      exact .inl ⟨rfl, rfl, rfl⟩
    · refine .inr ?_
      have hsettled := hsettle
      rw [StakingSnapshot.fund] at hsettle
      rw [hsettle]
      rw [ExecutionEngine.settleEpoch] at hsettled
      split at hsettled
      · cases hsettled
      · rename_i slashed hslashed
        cases hsettled
        refine ⟨rfl, ?_⟩
        have hepoch : slashed.epoch = s.1.epoch :=
          ((keptBySlashes_sameDate (s.1.fund _)).downtime hslashed ⟨rfl, rfl⟩).1
        rw [← hepoch]
        simp only [settleEpochRewards]
        split <;> rfl
  · exact .inl ⟨rfl, rfl, rfl⟩

end

/-! ## The set in force -/

/-- The effect stores a transition. -/
def Effect.opensEpoch : Effect → Bool
  | .write (.putEpochTransition _) => true
  | _ => false

/-- The evidence that is applied next. -/
def Effect.punishes : Effect → List Evidence
  | .observe (.punished items) => items
  | _ => []

/-- The effect stores neither a staking state nor a transition. -/
def Effect.leavesSet : Effect → Bool
  | .write (.putStakingState _) | .write (.putEpochTransition _) => false
  | _ => true

lemma Effect.leavesSet_of_leavesStake {x : Effect} (h : x.leavesStake) : x.leavesSet := by
  rcases x with w | _ | _ | _ | _
  · cases w <;> first | rfl | cases h
  all_goals rfl

/-- A process that stops after so many effects does not leave a transition out whose staking state
it has stored: between the two lies the governance state only. -/
def Whole (es : List Effect) (n : ℕ) : Prop := ∀ x ∈ (es.drop n).take 2, x.opensEpoch = false

instance (es : List Effect) (n : ℕ) : Decidable (Whole es n) :=
  inferInstanceAs (Decidable (∀ x ∈ _, _))

lemma whole_length (es : List Effect) : Whole es es.length := by
  rw [Whole, List.drop_length]
  exact List.forall_mem_nil _

lemma Whole.left {es es' : List Effect} {n : ℕ} (h : Whole (es ++ es') n) (hn : n ≤ es.length) :
    Whole es n := by
  intro x hx
  refine h x ?_
  rw [List.drop_append_of_le_length hn, List.take_append]
  exact List.mem_append_left _ hx

lemma Whole.right {es es' : List Effect} {n : ℕ} (h : Whole (es ++ es') (es.length + n)) :
    Whole es' n := by
  rwa [Whole, List.drop_length_add_append] at h

namespace ConsensusEngine

/-- The addresses of the configured validators. -/
def addresses (e : ConsensusEngine) : List Address := e.validators.map Validator.address

/-- The engine works with the validator set of the latest transition, if there is one. -/
def InForce (e : ConsensusEngine) (store : Store) : Prop :=
  ∀ t ∈ store.latestEpochTransition,
    (e.activeValidators store).map Validator.address = t.validatorSet

/-- The stored governance and the genesis count the same validators of the stored staking state:
among those who are not jailed, the configured ones with the minimum bond of the genesis are the
ones with the minimum bond of the governance, and there is one. -/
def CountsAlike (e : ConsensusEngine) (store : Store) : Prop :=
  let params := (GovernanceSnapshot.load store e.economics).economics
  (∀ entry ∈ (StakingSnapshot.load store).validators.toList, entry.2.status = .active →
    (params.minimumSelfBond ≤ entry.2.selfBond ↔
      e.economics.minimumSelfBond ≤ entry.2.selfBond ∧ entry.1 ∈ e.addresses)) ∧
  ∃ entry ∈ (StakingSnapshot.load store).validators.toList, Eligible params entry.2

instance (e : ConsensusEngine) (store : Store) : Decidable (e.CountsAlike store) :=
  inferInstanceAs (Decidable ((∀ entry ∈ (StakingSnapshot.load store).validators.toList,
    entry.2.status = .active → (_ ↔ _ ∧ _)) ∧
      ∃ entry ∈ (StakingSnapshot.load store).validators.toList, Eligible _ entry.2))

/-- Where the effect applies evidence after the first transition, it is against no active configured
validator; where it stores a transition, the stored governance and the genesis count the same
validators. -/
def Mild (e : ConsensusEngine) (d : Disk) (x : Effect) : Prop :=
  (d.store.latestEpochTransition.isSome → ∀ item ∈ x.punishes, isEquivocation item →
    item.validatorAddress ∈ e.addresses →
      ¬ (e.view d.store).isValidatorActive item.validatorAddress e.economics) ∧
  (x.opensEpoch → e.CountsAlike d.store)

instance (e : ConsensusEngine) (d : Disk) (x : Effect) : Decidable (e.Mild d x) :=
  inferInstanceAs (Decidable ((_ → ∀ item ∈ x.punishes, _ → _ → ¬ _) ∧ (_ → _)))

/-- What the proof of a run carries: the seats are those of the latest transition, and there is
one; transitions are numbered up to the epoch. -/
structure Governed (e : ConsensusEngine) (d : Disk) : Prop where
  seated : ∀ t ∈ d.store.latestEpochTransition,
    t.validatorSet = (e.view d.store).seats e.economics e.addresses ∧ t.validatorSet ≠ []
  numbered : ∀ n, d.store.epochTransitions[n]?.isSome → n ≤ (StakingSnapshot.load d.store).epoch
  bounded : (StakingSnapshot.load d.store).epoch ≤ maxValue 64
  keyed : (StakingSnapshot.load d.store).Keyed

variable {e : ConsensusEngine} {d : Disk}

lemma Governed.inForce (h : e.Governed d) : e.InForce d.store := by
  intro t ht
  obtain ⟨hset, hsome⟩ := h.seated t ht
  have hseats : (e.view d.store).seats e.economics e.addresses ≠ [] := hset ▸ hsome
  have heligible : (e.view d.store).effectiveValidatorSet e.economics ≠ [] := by
    intro hnone
    rw [seats, hnone] at hseats
    exact hseats rfl
  rw [addresses_activeValidators, if_neg heligible, hset]
  rfl

lemma Governed.keyed_view (h : e.Governed d) : (e.view d.store).Keyed :=
  h.keyed.ensureValidators e.validators

section

variable [Hashing]

/-- Every effect is mild where the ones before it leave the disk. -/
def Spares (e : ConsensusEngine) (d : Disk) (es : List Effect) : Prop :=
  ∀ entry ∈ Trace.along Disk.record d es, e.Mild entry.1 entry.2

instance (d : Disk) (es : List Effect) : Decidable (e.Spares d es) :=
  inferInstanceAs (Decidable (∀ entry ∈ Trace.along Disk.record d es, e.Mild entry.1 entry.2))

lemma spares_append {es es' : List Effect} :
    e.Spares d (es ++ es') ↔ e.Spares d es ∧ e.Spares (d.recordAll es) es' := by
  rw [Spares, Trace.along_append, List.forall_mem_append]
  rfl

/-! ## One effect -/

omit [Hashing] in
/-- Two stores with the same staking state and the same transitions. -/
lemma Governed.congr {d' : Disk} (h : e.Governed d)
    (hstaking : d'.store.stakingState = d.store.stakingState)
    (htransitions : d'.store.epochTransitions = d.store.epochTransitions)
    (hlatest : d'.store.latestEpochTransition = d.store.latestEpochTransition) :
    e.Governed d' := by
  have hload : StakingSnapshot.load d'.store = StakingSnapshot.load d.store := by
    rw [StakingSnapshot.load, StakingSnapshot.load, hstaking]
  refine ⟨?_, ?_, hload ▸ h.bounded, hload ▸ h.keyed⟩
  · rw [hlatest, view_congr hstaking]
    exact h.seated
  · rw [htransitions, hload]
    exact h.numbered

/-- Effects that store neither a staking state nor a transition. -/
lemma recordAll_leavesSet {es : List Effect} (hes : ∀ x ∈ es, Effect.leavesSet x) (d : Disk) :
    (d.recordAll es).store.stakingState = d.store.stakingState ∧
    (d.recordAll es).store.epochTransitions = d.store.epochTransitions ∧
    (d.recordAll es).store.latestEpochTransition = d.store.latestEpochTransition := by
  induction es generalizing d with
  | nil => exact ⟨rfl, rfl, rfl⟩
  | cons x es ih =>
    obtain ⟨hx, hrest⟩ := List.forall_mem_cons.mp hes
    obtain ⟨hstaking, htransitions, hlatest⟩ := ih hrest (d.record x)
    rw [Disk.recordAll_cons, hstaking, htransitions, hlatest]
    rcases x with w | _ | _ | _ | _
    · cases w with
      | compactConsensusWal n =>
        obtain ⟨wal, heq⟩ := d.store.compactConsensusWal_eq n
        rw [Disk.store_record_write, Store.apply, heq]
        exact ⟨rfl, rfl, rfl⟩
      | putStakingState | putEpochTransition => cases hx
      | _ => exact ⟨rfl, rfl, rfl⟩
    all_goals exact ⟨rfl, rfl, rfl⟩

lemma Governed.recordAll (h : e.Governed d) {es : List Effect}
    (hes : ∀ x ∈ es, Effect.leavesSet x) : e.Governed (d.recordAll es) := by
  obtain ⟨hstaking, htransitions, hlatest⟩ := recordAll_leavesSet hes d
  exact h.congr hstaking htransitions hlatest

lemma Governed.record (h : e.Governed d) {x : Effect} (hx : x.leavesSet) :
    e.Governed (d.record x) := by
  have hall : e.Governed (d.recordAll [x]) := h.recordAll (List.forall_mem_singleton.mpr hx)
  exact hall

/-- A staking state with the same seats is stored; before the first transition with any. -/
lemma Governed.stake (h : e.Governed d) {s : StakingState}
    (hseats : d.store.latestEpochTransition.isSome →
      (StakingSnapshot.ensureValidators s e.validators).seats e.economics e.addresses =
        (e.view d.store).seats e.economics e.addresses)
    (hepoch : (StakingSnapshot.load d.store).epoch ≤ s.epoch) (hbounded : s.epoch ≤ maxValue 64)
    (hkeyed : StakingSnapshot.Keyed s) : e.Governed (d.record (.write (.putStakingState s))) := by
  refine ⟨fun t ht => ?_, fun n hn => (h.numbered n hn).trans hepoch, hbounded, hkeyed⟩
  obtain ⟨hset, hsome⟩ := h.seated t ht
  exact ⟨hset.trans (hseats (Option.isSome_of_mem ht)).symm, hsome⟩

/-- A staking state in which all have the standing that they had is stored. -/
lemma Governed.stand (h : e.Governed d) {s : StakingState}
    (hrecords : (e.view d.store).SameRecords s)
    (hstanding : StakingSnapshot.standing s = (e.view d.store).standing)
    (hepoch : s.epoch = (StakingSnapshot.load d.store).epoch) :
    e.Governed (d.record (.write (.putStakingState s))) := by
  refine h.stake (fun _ => ?_) hepoch.ge (hepoch ▸ h.bounded) (hrecords.keyed h.keyed_view)
  have hview : e.view (d.record (.write (.putStakingState s))).store = s :=
    e.view_of_sameRecords hrecords rfl
  rw [view] at hview
  have hload : (StakingSnapshot.load (d.record (.write (.putStakingState s))).store) = s := rfl
  rw [hload] at hview
  rw [hview]
  exact seats_congr hstanding

/-- A transition is the latest one if no stored one has a higher number. -/
lemma latestEpochTransition_put {t : EpochTransition}
    (h : ∀ n, d.store.epochTransitions[n]?.isSome → n ≤ t.epoch) :
    (d.record (.write (.putEpochTransition t))).store.latestEpochTransition = some t := by
  have hlast : Table.last (d.store.epochTransitions.insert t.epoch t) = some (t.epoch, t) :=
    Table.last_insert fun n hn hne => Nat.compare_eq_lt.mpr (lt_of_le_of_ne (h n hn) hne)
  rw [Store.latestEpochTransition]
  split
  · show (Table.last (d.store.epochTransitions.insert t.epoch t)).map Prod.snd = some t
    rw [hlast]
    rfl
  · rfl

omit [Hashing] in
/-- Where governance and genesis count the same validators, the set of the one is the seats by the
other. -/
lemma CountsAlike.effectiveValidatorSet {store : Store} {s : StakingSnapshot}
    {g : GovernanceSnapshot} (h : e.CountsAlike store) (hkeyed : s.Keyed)
    (hstaking : StakingSnapshot.load store = s)
    (hgovernance : GovernanceSnapshot.load store e.economics = g) :
    s.effectiveValidatorSet g.economics = s.seats e.economics e.addresses ∧
      s.effectiveValidatorSet g.economics ≠ [] := by
  subst hstaking hgovernance
  obtain ⟨hsame, entry, hentry, heligible⟩ := h
  constructor
  · refine effectiveValidatorSet_eq_seats hkeyed fun a => ?_
    rw [isValidatorActive_iff, isValidatorActive_iff]
    constructor
    · rintro ⟨v, hv, hactive, hbond⟩
      obtain ⟨hbond', ha⟩ := (hsame (a, v) (Table.mem_toList_iff.mpr hv) hactive).mp hbond
      exact ⟨⟨v, hv, hactive, hbond'⟩, ha⟩
    · rintro ⟨⟨v, hv, hactive, hbond⟩, ha⟩
      exact ⟨v, hv, hactive, (hsame (a, v) (Table.mem_toList_iff.mpr hv) hactive).mpr ⟨hbond, ha⟩⟩
  · refine List.ne_nil_of_mem ((mem_effectiveValidatorSet (a := entry.1) hkeyed _).mpr ?_)
    exact isValidatorActive_iff.mpr ⟨entry.2, Table.mem_toList_iff.mp hentry, heligible⟩

/-- **A transition is stored** behind the staking and the governance state that it is made of. -/
lemma Governed.transition (h : e.Governed d) {s : StakingSnapshot} {g : GovernanceSnapshot}
    {height : ℕ} (hrecords : (e.view d.store).SameRecords s)
    (hepoch : s.epoch = saturatingAdd 64 (StakingSnapshot.load d.store).epoch 1)
    (hcounts : e.CountsAlike (d.recordAll [.write (.putStakingState s),
      .write (.putGovernanceState g)]).store) :
    e.Governed (d.recordAll [.write (.putStakingState s), .write (.putGovernanceState g),
      .write (.putEpochTransition (s.buildEpochTransition height g.economics))]) := by
  have hkeyed : s.Keyed := hrecords.keyed h.keyed_view
  have hnumbered : ∀ n, d.store.epochTransitions[n]?.isSome → n ≤ s.epoch := by
    intro n hn
    have hle := (h.numbered n hn).trans h.bounded
    have := h.numbered n hn
    rw [hepoch, saturatingAdd]
    omega
  refine ⟨fun t ht => ?_, fun n hn => ?_, hepoch ▸ Nat.min_le_right _ _, hkeyed⟩
  · -- No number exceeds that of the epoch.
    obtain rfl : t = s.buildEpochTransition height g.economics := by
      rw [Disk.recordAll_cons, Disk.recordAll_cons, Disk.recordAll_cons, Disk.recordAll_nil,
        latestEpochTransition_put hnumbered] at ht
      exact (Option.some.inj ht).symm
    rw [e.view_of_sameRecords hrecords rfl]
    exact hcounts.effectiveValidatorSet hkeyed rfl rfl
  · have hmem : (d.store.epochTransitions.insert s.epoch
        (s.buildEpochTransition height g.economics))[n]?.isSome := hn
    rw [Table.getElem?_insert] at hmem
    show n ≤ s.epoch
    split at hmem
    · exact le_of_eq ‹_›
    · exact hnumbered n hmem

/-! ## One effect after the other -/

/-- A process that stops after so many effects does not leave a transition out behind the first. -/
def StopsWhole (d : Disk) (es : List Effect) (n : ℕ) : Prop :=
  (d.recordAll (es.take n)).store.latestEpochTransition.isSome → Whole es n

/-- Wherever a process may stop while mild effects follow each other, the seats are those of the
latest transition, if they were before. -/
def Calm (e : ConsensusEngine) (d : Disk) (es : List Effect) : Prop :=
  e.Governed d → ∀ n, StopsWhole d es n → e.Spares d (es.take n) →
    e.Governed (d.recordAll (es.take n))

lemma Calm.recordAll {es : List Effect} (h : e.Calm d es) (hd : e.Governed d)
    (hes : e.Spares d es) : e.Governed (d.recordAll es) := by
  have hall := h hd es.length fun _ => whole_length es
  rw [List.take_length] at hall
  exact hall hes

lemma Calm.append {es es' : List Effect} (h : e.Calm d es)
    (h' : e.Calm (d.recordAll es) es') : e.Calm d (es ++ es') := by
  intro hd n hwhole hspares
  rcases Nat.le_total n es.length with hn | hn
  · rw [StopsWhole, List.take_append_of_le_length hn] at hwhole
    rw [List.take_append_of_le_length hn] at hspares ⊢
    exact h hd n (fun hlatest => (hwhole hlatest).left hn) hspares
  · obtain ⟨k, rfl⟩ := Nat.exists_eq_add_of_le hn
    rw [StopsWhole, List.take_length_add_append, Disk.recordAll_append] at hwhole
    rw [List.take_length_add_append] at hspares ⊢
    obtain ⟨hfirst, hrest⟩ := spares_append.mp hspares
    rw [Disk.recordAll_append]
    exact h' (h.recordAll hd hfirst) k (fun hlatest => (hwhole hlatest).right) hrest

/-- Effects that the process may stop between at no place but where nothing has changed. -/
lemma calm_of_end {es : List Effect} (hbetween : e.Governed d → ∀ n, 0 < n → n < es.length →
      StopsWhole d es n → e.Governed (d.recordAll (es.take n)))
    (hend : e.Governed d → e.Spares d es → e.Governed (d.recordAll es)) : e.Calm d es := by
  intro hd n hwhole hspares
  rcases Nat.eq_zero_or_pos n with rfl | hpos
  · exact hd
  · rcases Nat.lt_or_ge n es.length with hn | hn
    · exact hbetween hd n hpos hn hwhole
    · rw [List.take_of_length_le hn] at hspares ⊢
      exact hend hd hspares

lemma calm_of_leavesSet {es : List Effect} (hes : ∀ x ∈ es, Effect.leavesSet x) :
    e.Calm d es := fun hd _ _ _ =>
  hd.recordAll fun x hx => hes x (List.mem_of_mem_take hx)

lemma calm_singleton {x : Effect} (hx : e.Governed d → e.Governed (d.record x)) :
    e.Calm d [x] :=
  calm_of_end (fun _ _ hpos hn => absurd hn (not_lt.mpr hpos)) fun hd _ => hx hd

/-- **A note** changes nobody's standing. -/
lemma calm_noted {a : Address} {staking : StakingSnapshot}
    (hnoted : e.noted d.store a = .ok staking) :
    e.Calm d [.write (.putStakingState staking)] := by
  have hrecords : (e.view d.store).SameRecords staking :=
    StakingSnapshot.sameRecords_noteLiveness hnoted
  have hepoch : staking.epoch = (StakingSnapshot.load d.store).epoch := by
    obtain ⟨v, -, rfl⟩ := StakingSnapshot.noteLiveness_ok_iff.mp hnoted
    rfl
  exact calm_singleton fun hd =>
    hd.stand hrecords (StakingSnapshot.standing_noteLiveness hnoted) hepoch

/-- **Evidence** against validators that are not active takes no seat. -/
lemma calm_settles {items : List Evidence} {d' : Disk} (hsettles : Settles e items d d') :
    ∃ es, d' = d.recordAll es ∧ e.Calm d es := by
  cases hsettles with
  | none => exact ⟨[], rfl, calm_of_leavesSet (List.forall_mem_nil _)⟩
  | @some _ _ staking _ happly =>
    refine ⟨_, rfl, calm_of_end (fun hd n hpos hn _ => ?_) fun hd hspares => ?_⟩
    · obtain rfl : n = 1 := by
        simp only [List.length_cons, List.length_nil] at hn
        omega
      exact hd.record (x := .observe (.punished items)) rfl
    · have hmild : e.Mild d (.observe (.punished items)) := hspares _ List.mem_cons_self
      have halike := alike_of_applyEvidence happly
      have hrecords := StakingSnapshot.sameRecords_applyEvidence happly
      have hepoch : staking.epoch = (StakingSnapshot.load d.store).epoch := halike.epoch
      have hkeyed : staking.Keyed := hrecords.keyed hd.keyed_view
      have hview : e.view (d.record (.write (.putStakingState staking))).store = staking :=
        e.view_of_sameRecords hrecords rfl
      refine (hd.record (x := .observe (.punished items)) rfl).stake (fun hlatest => ?_) hepoch.ge
        (hepoch ▸ hd.bounded) hkeyed
      have hguilty : ∀ a ∈ equivocators items, a ∈ e.addresses →
          ¬ (e.view d.store).isValidatorActive a e.economics := by
        intro a ha hmem
        obtain ⟨item, hitem, rfl⟩ := List.mem_map.mp (List.mem_toFinset.mp ha)
        obtain ⟨hlisted, hequivocation⟩ := List.mem_filter.mp hitem
        exact hmild.1 hlatest item hlisted hequivocation hmem
      have hseats : staking.seats e.economics e.addresses =
          (e.view d.store).seats e.economics e.addresses := by
        refine seats_of_keepsSeats hd.keyed_view hkeyed (fun a _ => ?_)
          (keepsSeats_convict e.economics hguilty)
        rw [halike.validators, getElem?_convictAll]
      rw [view] at hview
      exact (congrArg (fun s => StakingSnapshot.seats s e.economics e.addresses) hview).trans hseats

/-! ## Blocks -/

/-- **The end of an epoch**: the staking and the governance state, and their transition. -/
lemma calm_transition {s : StakingSnapshot} {g : GovernanceSnapshot} {height : ℕ}
    (hrecords : (e.view d.store).SameRecords s)
    (hepoch : s.epoch = saturatingAdd 64 (StakingSnapshot.load d.store).epoch 1) :
    e.Calm d [.write (.putStakingState s), .write (.putGovernanceState g),
      .write (.putEpochTransition (s.buildEpochTransition height g.economics))] := by
  refine calm_of_end (fun hd n hpos hn hwhole => ?_) fun hd hspares => ?_
  · -- The process would stop before the transition, so it is the first one.
    have hcases : n = 1 ∨ n = 2 := by
      simp only [List.length_cons, List.length_nil] at hn
      omega
    have hfirst : ¬ d.store.latestEpochTransition.isSome := by
      intro hlatest
      rcases hcases with rfl | rfl
      · have hopens := hwhole hlatest _ (List.mem_cons_of_mem _ List.mem_cons_self)
        cases hopens
      · have hopens := hwhole hlatest _ List.mem_cons_self
        cases hopens
    have hle : (StakingSnapshot.load d.store).epoch ≤ s.epoch := by
      have := hd.bounded
      rw [hepoch, saturatingAdd]
      omega
    have hstaked : e.Governed (d.record (.write (.putStakingState s))) :=
      hd.stake (fun hlatest => absurd hlatest hfirst) hle (hepoch ▸ Nat.min_le_right _ _)
        (hrecords.keyed hd.keyed_view)
    rcases hcases with rfl | rfl
    · exact hstaked
    · exact hstaked.record (x := .write (.putGovernanceState g)) rfl
  · refine hd.transition hrecords hepoch ?_
    have hlast : e.Mild (d.recordAll [.write (.putStakingState s), .write (.putGovernanceState g)])
        (.write (.putEpochTransition (s.buildEpochTransition height g.economics))) :=
      hspares _ (List.mem_cons_of_mem _ (List.mem_cons_of_mem _ List.mem_cons_self))
    exact hlast.2 rfl

variable [Revm] {config : NodeConfig} {f : FinalizedBlock} {d' : Disk}

/-- **The accounting of a block** keeps the seats, or stores a transition with the new ones. -/
lemma calm_accounting (hbuilds : config.Builds e) {block : Block} {p : PreparedBlock}
    {d₁ d₂ : Disk} (hprepares : ExecutionEngine.Prepares e.execution e.scheme block d p d₁)
    (hstaking : d₂.store.stakingState = d.store.stakingState) :
    e.Calm d₂ (ExecutionEngine.accountingWrites p) := by
  obtain ⟨hs, hg, ht⟩ := accounting_of_prepares hbuilds hprepares
  set fees := ExecutionEngine.collectedFees block.transactions 0
  have hrecords := (e.economy d.store).sameRecords_account e.economics fees block.header.height
  have haccount := (e.economy d.store).account_cases e.economics fees block.header.height
  set after := (e.economy d.store).account e.economics fees block.header.height
  rw [ExecutionEngine.accountingWrites, hs, hg, ht, List.append_assoc, List.append_assoc]
  have hwrites : ∀ x ∈ p.state.writes, Effect.leavesSet x := by
    intro x hx
    obtain ⟨_, -, rfl⟩ := List.mem_map.mp hx
    rfl
  refine (calm_of_leavesSet hwrites).append ?_
  have hstored : (d₂.recordAll p.state.writes).store.stakingState = d.store.stakingState :=
    (stakingState_writes p.state d₂).trans hstaking
  have hview : e.view (d₂.recordAll p.state.writes).store = e.view d.store := view_congr hstored
  have hload : StakingSnapshot.load (d₂.recordAll p.state.writes).store =
      StakingSnapshot.load d.store := by
    rw [StakingSnapshot.load, StakingSnapshot.load, hstored]
  rcases haccount with ⟨hnone, hstanding, hepoch⟩ | ⟨hsome, hepoch⟩
  · rw [hnone]
    have hsame : after.1.epoch =
        (StakingSnapshot.load (d₂.recordAll p.state.writes).store).epoch := by
      rw [hload]
      exact hepoch
    have hstaked : e.Calm (d₂.recordAll p.state.writes) [.write (.putStakingState after.1)] :=
      calm_singleton fun hd => hd.stand (hview ▸ hrecords)
        (hstanding.trans (congrArg _ hview.symm)) hsame
    exact hstaked.append (calm_of_leavesSet (List.forall_mem_singleton.mpr rfl))
  · rw [hsome]
    exact calm_transition (hview ▸ hrecords) (hload ▸ hepoch)

omit [Revm] in
lemma calm_of_isQuiet {es : List Effect} (hes : ∀ x ∈ es, Effect.isQuiet x) : e.Calm d es :=
  calm_of_leavesSet fun x hx => Effect.leavesSet_of_leavesStake
    (Effect.leavesStake_of_isQuiet (hes x hx))

/-- **A replayed block** is stored with its accounting, in either order. -/
lemma calm_replay (hbuilds : config.Builds e) {p : PreparedBlock} {d₁ : Disk}
    (hprepares : ExecutionEngine.Prepares e.execution e.scheme f.block d p d₁)
    {logged tail : List Effect} (hlogged : ∀ x ∈ logged, Effect.leavesStake x)
    (horder : tail = ExecutionEngine.accountingWrites p ++
        (logged ++ [.write (.atomicCommitBlock f p.state)]) ∨
      tail = .write (.atomicCommitBlock f p.state) :: ExecutionEngine.accountingWrites p) :
    ∃ es, d₁.recordAll tail = d.recordAll es ∧ e.Calm d es := by
  obtain ⟨es, hquiet, heq⟩ := hprepares.onlyEvmWrites.quiet
  have hstaking : d₁.store.stakingState = d.store.stakingState := by
    rw [heq]
    exact (recordAll_quiet hquiet d).1
  have hcommit : ∀ d₂ : Disk, e.Calm d₂ [.write (.atomicCommitBlock f p.state)] := fun _ =>
    calm_of_leavesSet (List.forall_mem_singleton.mpr rfl)
  refine ⟨es ++ tail, by rw [heq, Disk.recordAll_append], (calm_of_isQuiet hquiet).append ?_⟩
  rw [← heq]
  rcases horder with rfl | rfl
  · refine (calm_accounting hbuilds hprepares hstaking).append (Calm.append ?_ (hcommit _))
    exact calm_of_leavesSet fun x hx => Effect.leavesSet_of_leavesStake (hlogged x hx)
  · exact (hcommit d₁).append (calm_accounting hbuilds hprepares hstaking)

lemma calm_commits (hbuilds : config.Builds e) (hcommits : Commits e f d d') :
    ∃ es, d' = d.recordAll es ∧ e.Calm d es := by
  obtain ⟨d₁, p, tail, hprepares, horder⟩ := hcommits
  exact calm_replay hbuilds hprepares (List.forall_mem_singleton.mpr rfl) horder

/-! ## Handlers -/

variable {w₀ w w' : World} {event : Event}

/-- **One move.** -/
lemma calm_move (hbuilds : config.Builds e) (hmove : e.Move w₀ event w w') :
    ∃ es, w'.disk = w.disk.recordAll es ∧ e.Calm w.disk es := by
  cases hmove with
  | @quiet es hquiet => exact ⟨es, rfl, calm_of_isQuiet hquiet⟩
  | @note a staking hnoted =>
    have hlive : e.Calm w.disk [.observe (.live a)] :=
      calm_of_leavesSet (List.forall_mem_singleton.mpr rfl)
    exact ⟨_, rfl, hlive.append (calm_noted hnoted)⟩
  | accept | nextRound => exact ⟨[], rfl, calm_of_leavesSet (List.forall_mem_nil _)⟩
  | @accuse item =>
    exact ⟨[.write (.appendConsensusWal
      (.evidenceRecorded item.height item.round item.validatorAddress item.reason))], rfl,
      calm_of_leavesSet (List.forall_mem_singleton.mpr rfl)⟩
  | @cast vote staking hmay =>
    have hsigned : e.Calm w.disk [.signVote vote, .observe (.live vote.validatorAddress)] :=
      calm_of_leavesSet (List.forall_mem_cons.mpr ⟨rfl, List.forall_mem_singleton.mpr rfl⟩)
    have hnoted : e.Calm (w.disk.recordAll [.signVote vote, .observe (.live vote.validatorAddress)])
        [.write (.putStakingState staking)] := calm_noted hmay.noted
    exact ⟨World.castEffects vote staking, rfl, hsigned.append (hnoted.append (calm_of_leavesSet
      (List.forall_mem_cons.mpr ⟨rfl, List.forall_mem_singleton.mpr rfl⟩)))⟩
  | @count vote =>
    exact ⟨[.write (.appendConsensusWal (.voteRecorded vote.height vote.round vote.step
      vote.blockHash vote.validatorAddress))], rfl,
      calm_of_leavesSet (List.forall_mem_singleton.mpr rfl)⟩
  | report => exact ⟨_, rfl, calm_of_leavesSet (List.forall_mem_singleton.mpr rfl)⟩
  | lock =>
    exact ⟨_, rfl, calm_of_leavesSet
      (List.forall_mem_cons.mpr ⟨rfl, List.forall_mem_singleton.mpr rfl⟩)⟩
  | finalize _ _ _ hcommits hsettles =>
    obtain ⟨es, rfl, hes⟩ := calm_commits hbuilds hcommits
    obtain ⟨es', heq, hes'⟩ := calm_settles hsettles
    exact ⟨es ++ es', by rw [heq, Disk.recordAll_append], hes.append hes'⟩
  | stall _ _ _ hcommits | adopt _ _ _ hcommits => exact calm_commits hbuilds hcommits

/-- **An event**, wherever its handler stops. -/
lemma calm_effectsOf (hbuilds : config.Builds e) (w : World) (event : Event) :
    e.Calm w.disk (e.effectsOf w event) := by
  have hends : ∃ es, (e.handle w event).disk = w.disk.recordAll es ∧ e.Calm w.disk es := by
    refine invariant_of_moves (fun w' => ∃ es, w'.disk = w.disk.recordAll es ∧ e.Calm w.disk es)
      ⟨[], rfl, calm_of_leavesSet (List.forall_mem_nil _)⟩ ?_
    rintro w₁ w₂ ⟨es, heq, hes⟩ hmove
    obtain ⟨es', heq', hes'⟩ := calm_move hbuilds hmove
    rw [heq] at heq' hes'
    exact ⟨es ++ es', by rw [heq', Disk.recordAll_append], hes.append hes'⟩
  obtain ⟨es, heq, hes⟩ := hends
  have heffects : e.effectsOf w event = es := by
    rw [effectsOf, heq, Disk.journal_recordAll, List.drop_left]
  rwa [heffects]

/-! ## Requests -/

/-- The effects of a request. -/
def requestEffects (config : NodeConfig) (n : Node) (event : NodeEvent) : List Effect :=
  (n.handle config event).disk.journal.drop n.disk.journal.length

omit [Hashing] [Revm] in
/-- A registration that the node accepts after the first transition lets nobody in, nobody out and
nobody past another one. -/
def Admits (e : ConsensusEngine) (store : Store) : NodeEvent → Prop
  | .registerValidator request => store.latestEpochTransition.isSome →
      ∀ address, e.scheme.deriveAddress request.publicKey = .ok address →
      e.economics.minimumSelfBond ≤ request.selfBond →
      (e.view store).KeepsSeats e.economics e.addresses fun a v =>
        if a = address then withBond request.selfBond v else v
  | _ => True

omit [Hashing] [Revm] in
/-- The records of the configured validators after a registration. -/
lemma getElem?_registered {s s' : StakingSnapshot} (joining : Validator) {amount : ℕ}
    (h : (s.ensureValidators [joining]).delegate joining.address joining.address amount true =
      .ok s') {a : Address} (ha : a ∈ e.addresses) :
    (s'.ensureValidators e.validators).validators[a]? =
      (s.ensureValidators e.validators).validators[a]?.map fun v =>
        if a = joining.address then withBond amount v else v := by
  have hepoch : s'.epoch = s.epoch := (sameDate_delegate h).1
  have hrecord := getElem?_delegate_self h a
  rw [getElem?_ensureValidators] at hrecord
  rw [addresses] at ha
  rw [getElem?_ensureValidators, getElem?_ensureValidators, if_pos ha, if_pos ha, hrecord]
  by_cases hjoins : a = joining.address
  · rw [if_pos (by simp [hjoins])]
    rfl
  · have hseed : s'.seed a = s.seed a := by rw [seed, seed, hepoch]
    simp only [List.map_cons, List.map_nil, List.mem_singleton, if_neg hjoins, Option.map_id',
      Option.map_some, hseed]

omit [Revm] in
/-- **A registration.** -/
lemma calm_registerValidator (hbuilds : config.Builds e) {request : ValidatorJoinRequest}
    (hadmits : e.Admits d.store (.registerValidator request)) :
    ∃ es, Handler.final (ZenoChain.registerValidator config request d) = d.recordAll es ∧
      e.Calm d es := by
  have hnothing : e.Calm d [] := calm_of_leavesSet (List.forall_mem_nil _)
  rw [Admits, hbuilds.scheme, hbuilds.economics] at hadmits
  rw [ZenoChain.registerValidator]
  rcases haddress : config.scheme.deriveAddress request.publicKey with err | address
  · exact ⟨[], rfl, hnothing⟩
  · dsimp only
    split_ifs with hlow
    · exact ⟨[], rfl, hnothing⟩
    · rw [Handler.bind_ok (readStore_run d)]
      rcases hdelegate : ((StakingSnapshot.load d.store).ensureValidators
        [joiningValidator request address]).delegate address address request.selfBond true with
        err | staking
      · exact ⟨[], rfl, hnothing⟩
      · refine ⟨[.write (.putStakingState staking)], rfl, calm_singleton fun hd => ?_⟩
        have hepoch : staking.epoch = (StakingSnapshot.load d.store).epoch :=
          (sameDate_delegate hdelegate).1
        have hkeyed : staking.Keyed :=
          (StakingSnapshot.delegate_ok hdelegate).1.keyed (hd.keyed.ensureValidators _)
        refine hd.stake (fun hlatest => ?_) hepoch.ge (hepoch ▸ hd.bounded) hkeyed
        have hkeeps := hadmits hlatest address haddress (not_lt.mp hlow)
        rw [← hbuilds.economics] at hkeeps
        have hchange : ∀ a ∈ e.addresses, (staking.ensureValidators e.validators).validators[a]? =
            (e.view d.store).validators[a]?.map fun v =>
              if a = address then withBond request.selfBond v else v :=
          fun a ha => getElem?_registered (joiningValidator request address) hdelegate ha
        exact seats_of_keepsSeats hd.keyed_view (hkeyed.ensureValidators _) hchange hkeeps

/-- **A request** commits a block, registers a validator, or leaves the stakes alone. -/
lemma calm_request (hbuilds : config.Builds e) (n : Node) {event : NodeEvent}
    (hadmits : e.Admits n.disk.store event) :
    ∃ es, (n.handle config event).disk = n.disk.recordAll es ∧ e.Calm n.disk es := by
  have hfailed : ∀ {d'}, OnlyEvmWrites n.disk d' →
      ∃ es, d' = n.disk.recordAll es ∧ e.Calm n.disk es := by
    intro d' honly
    obtain ⟨es, hes, heq⟩ := honly.quiet
    exact ⟨es, heq, calm_of_isQuiet hes⟩
  by_cases himported : ∃ f, event = .imported f
  · obtain ⟨f, rfl⟩ := himported
    show ∃ es, Handler.final (config.engine.validateAndCommitFinalizedBlock config.scheme f
      n.disk) = _ ∧ _
    rcases hrun : config.engine.validateAndCommitFinalizedBlock config.scheme f n.disk with
      ⟨⟨⟩, d'⟩ | ⟨err, d'⟩
    · obtain ⟨p, d₁, hprepares, -, -, rfl⟩ := ExecutionEngine.validateAndCommit_ok_iff.mp hrun
      rw [← hbuilds.execution, ← hbuilds.scheme] at hprepares
      exact calm_replay hbuilds hprepares (List.forall_mem_nil _) (.inr rfl)
    · exact hfailed (onlyEvmWrites_of_error hrun)
  by_cases hfinalized : ∃ block certificate, event = .finalized block certificate
  · obtain ⟨block, certificate, rfl⟩ := hfinalized
    show ∃ es, Handler.final (executeAndCommit config.engine config.scheme block certificate
      n.disk) = _ ∧ _
    rcases hrun : executeAndCommit config.engine config.scheme block certificate n.disk with
      ⟨⟨⟩, d'⟩ | ⟨err, d'⟩
    · rw [executeAndCommit] at hrun
      obtain ⟨r, d₂, hexecute, hcommit⟩ := Handler.bind_eq_ok_iff.mp hrun
      obtain ⟨p, d₁, hprepares, rfl, rfl⟩ := ExecutionEngine.executeBlock_ok_iff.mp hexecute
      cases hcommit
      rw [← hbuilds.execution, ← hbuilds.scheme] at hprepares
      set f : FinalizedBlock := { block, certificate, receipts := p.receipts
                                  epochTransition := p.accounting.epochTransition }
      have hcalm : ∃ es, d₁.recordAll (ExecutionEngine.accountingWrites p ++
          ([] ++ [.write (.atomicCommitBlock f p.state)])) = n.disk.recordAll es ∧
            e.Calm n.disk es :=
        calm_replay hbuilds hprepares (List.forall_mem_nil _) (.inl rfl)
      rwa [Disk.recordAll_append] at hcalm
    · exact hfailed (onlyEvmWrites_of_executeAndCommit_error hrun)
  by_cases hregisters : ∃ request, event = .registerValidator request
  · obtain ⟨request, rfl⟩ := hregisters
    exact calm_registerValidator hbuilds hadmits
  rcases Node.request_cases config n (fun f hf => himported ⟨f, hf⟩)
    (fun block certificate hf => hfinalized ⟨block, certificate, hf⟩) with
    ⟨es, hes, heq⟩ | ⟨request, -, -, hevent, -⟩
  · exact ⟨es, heq, calm_of_leavesSet fun x hx => Effect.leavesSet_of_leavesStake (hes x hx)⟩
  · exact absurd ⟨request, hevent⟩ hregisters

lemma calm_requestEffects (hbuilds : config.Builds e) (n : Node) {event : NodeEvent}
    (hadmits : e.Admits n.disk.store event) :
    (n.handle config event).disk = n.disk.recordAll (requestEffects config n event) ∧
      e.Calm n.disk (requestEffects config n event) := by
  obtain ⟨es, heq, hes⟩ := calm_request hbuilds n hadmits
  have heffects : requestEffects config n event = es := by
    rw [requestEffects, heq, Disk.journal_recordAll, List.drop_left]
  rw [heffects]
  exact ⟨heq, hes⟩

/-! ## Starts -/

omit [Hashing] [Revm] in
/-- The bonds of a start: one for every entry of the list. -/
lemma getElem?_bondValidators {genesis : Genesis} {vs : List Validator} {s s' : StakingSnapshot}
    (h : bondValidators genesis vs s = .ok s') (a : Address) :
    s'.validators[a]? = s.validators[a]?.map
      (withBond genesis.economics.minimumSelfBond)^[(vs.map Validator.address).count a] := by
  induction vs generalizing s with
  | nil =>
    cases h
    exact Option.map_id'.symm
  | cons v vs ih =>
    obtain ⟨s₁, hdelegate, hrest⟩ := bondValidators_cons h
    rw [ih hrest, getElem?_delegate_self hdelegate, Option.map_map, List.map_cons, List.count_cons]
    by_cases ha : a = v.address
    · have hcount : (v.address == a) = true := beq_iff_eq.mpr ha.symm
      rw [if_pos hcount, Function.iterate_succ]
      simp only [if_pos ha]
    · have hcount : ¬ (v.address == a) = true := fun hc => ha (beq_iff_eq.mp hc).symm
      rw [if_neg hcount, Nat.add_zero]
      simp only [if_neg ha]
      rfl

omit [Revm] in
/-- **A start**, whether it is the first one or not. -/
lemma Governed.bootstrap (h : e.Governed d) (hbuilds : config.Builds e) (stored : Bool)
    (hkeeps : d.store.latestEpochTransition.isSome → config.genesis.Bootable →
      (e.view d.store).KeepsSeats e.economics e.addresses fun a =>
        (withBond e.economics.minimumSelfBond)^[e.addresses.count a]) :
    e.Governed (Handler.final (bootstrapGenesis config.genesis stored d)) := by
  -- The accounts and the governance state that are written first change no seat.
  obtain ⟨es, hes, hprepared⟩ : ∃ es, (∀ x ∈ es, Effect.leavesSet x) ∧
      prepared config.genesis stored d = d.recordAll es := by
    cases stored with
    | true =>
      exact ⟨[.write (.putGovernanceState (GovernanceSnapshot.load d.store
        config.genesis.economics))], List.forall_mem_singleton.mpr rfl, rfl⟩
    | false =>
      refine ⟨StateSnapshot.writes config.genesis.accounts ++ [.write (.putGovernanceState
        (GovernanceSnapshot.load (d.recordAll (StateSnapshot.writes config.genesis.accounts)).store
          config.genesis.economics))], ?_, ?_⟩
      · rw [List.forall_mem_append, List.forall_mem_singleton]
        refine ⟨fun x hx => ?_, rfl⟩
        obtain ⟨_, -, rfl⟩ := List.mem_map.mp hx
        rfl
      · rw [Disk.recordAll_append]
        rfl
  obtain ⟨hstaking, -, hlatest⟩ := recordAll_leavesSet hes d
  have hbefore : e.Governed (d.recordAll es) := h.recordAll hes
  rw [bootstrapGenesis_run, hprepared]
  have hbootable := bondValidators_ok_iff config.genesis config.genesis.validators
    ((StakingSnapshot.load d.store).ensureValidators config.genesis.validators)
    fun v hv => StakingSnapshot.isSome_ensureValidators.mpr (.inl (List.mem_map_of_mem hv))
  rw [← hbuilds.validators] at hbootable ⊢
  rcases hbond : bondValidators config.genesis e.validators
    ((StakingSnapshot.load d.store).ensureValidators e.validators) with message | staking
  · exact hbefore
  · obtain ⟨hrecords, hepoch⟩ : (e.view d.store).SameRecords staking ∧
        staking.epoch = (StakingSnapshot.load d.store).epoch := by
      refine StakingSnapshot.KeptByBonds.bondValidators (P := fun s =>
        (e.view d.store).SameRecords s ∧ s.epoch = (StakingSnapshot.load d.store).epoch)
        (fun _ _ _ _ _ _ hdelegate hs => ?_) hbond ⟨.refl _, rfl⟩
      exact ⟨hs.1.trans (StakingSnapshot.delegate_ok hdelegate).1,
        (sameDate_delegate hdelegate).1.trans hs.2⟩
    have hload : StakingSnapshot.load (d.recordAll es).store = StakingSnapshot.load d.store := by
      rw [StakingSnapshot.load, StakingSnapshot.load, hstaking]
    have hkeyed : staking.Keyed := hrecords.keyed h.keyed_view
    have hview : StakingSnapshot.ensureValidators staking e.validators = staking :=
      e.view_of_sameRecords hrecords
        (rfl : (d.record (.write (.putStakingState staking))).store.stakingState = some staking)
    refine hbefore.stake (fun hsome => ?_) (hload ▸ hepoch.ge) (hepoch ▸ h.bounded) hkeyed
    rw [hlatest] at hsome
    rw [view_congr hstaking, hview]
    have hboots : config.genesis.Bootable := by
      rw [Genesis.Bootable, ← hbuilds.validators]
      exact hbootable.mp ⟨staking, hbond⟩
    refine seats_of_keepsSeats h.keyed_view hkeyed (fun a _ => ?_) (hkeeps hsome hboots)
    rw [getElem?_bondValidators hbond, hbuilds.economics]
    rfl

/-! ## Runs -/

/-- What leaves the validator set as the latest transition has it: a handler and a request have mild
effects only; a registration, and the bonds of a start, let nobody in, nobody out and nobody past
another one; and the process does not stop between a staking state and its transition. -/
def Undisturbed (e : ConsensusEngine) (config : NodeConfig) (w : World) : NodeAction → Prop
  | .handle event => e.Spares w.disk (e.effectsOf w event)
  | .serve n event =>
    e.Spares w.disk (requestEffects config { n with disk := w.disk } event) ∧
      e.Admits w.disk.store event
  | .restart event effects =>
    e.Spares w.disk ((e.effectsOf w event).take effects) ∧
      StopsWhole w.disk (e.effectsOf w event) effects ∧
      ((e.crashDisk w event effects).store.latestEpochTransition.isSome → config.genesis.Bootable →
        (e.view (e.crashDisk w event effects).store).KeepsSeats e.economics e.addresses fun a =>
          (withBond e.economics.minimumSelfBond)^[e.addresses.count a])

/-- **An action** that leaves the set alone. -/
lemma Governed.act (h : e.Governed w.disk) (hbuilds : config.Builds e) {action : NodeAction}
    (hundisturbed : e.Undisturbed config w action) : e.Governed (e.act config w action).disk := by
  cases action with
  | handle event =>
    have hcalm := calm_effectsOf hbuilds w event
    show e.Governed (e.handle w event).disk
    rw [disk_handle]
    exact hcalm.recordAll h hundisturbed
  | serve n event =>
    obtain ⟨hspares, hadmits⟩ := hundisturbed
    obtain ⟨hdisk, hcalm⟩ := calm_requestEffects hbuilds { n with disk := w.disk } hadmits
    show e.Governed (({ n with disk := w.disk } : Node).handle config event).disk
    rw [hdisk]
    exact hcalm.recordAll h hspares
  | restart event effects =>
    obtain ⟨hspares, hwhole, hkeeps⟩ := hundisturbed
    have hcrash : e.Governed (e.crashDisk w event effects) :=
      calm_effectsOf hbuilds w event h effects hwhole hspares
    exact hcrash.bootstrap hbuilds true hkeeps

omit [Hashing] [Revm] in
/-- Nothing has been staked and no transition stored. -/
lemma governed_of_blank (hstaking : d.store.stakingState = none)
    (htransitions : d.store.epochTransitions = ∅) (hlatest : d.store.epochLatest = none) :
    e.Governed d := by
  have hload : StakingSnapshot.load d.store = {} := by
    rw [StakingSnapshot.load, hstaking]
    rfl
  refine ⟨fun t ht => ?_, fun n hn => ?_, hload ▸ Nat.zero_le _, fun a v hv => ?_⟩
  · rw [Store.latestEpochTransition, htransitions, hlatest] at ht
    split at ht <;> cases ht
  · rw [htransitions, Std.ExtTreeMap.getElem?_empty] at hn
    cases hn
  · rw [hload, Std.ExtTreeMap.getElem?_empty] at hv
    cases hv

end

end ConsensusEngine

/-! ## Registrations in the second epoch -/

section

open Transparent ConsensusEngine

/-- The owner of a key registers with a bond, after the first epoch is over. -/
def dailyRegistration (key : Bytes) (selfBond : ℕ) : NodeAction :=
  .serve { disk := blank } (.registerValidator
    { publicKey := key, selfBond, p2pAddress := "", rpcAddress := "" })

/-- The node after that. -/
def dailyRegistered (key : Bytes) (selfBond : ℕ) : World :=
  dailyEngine.act dailyNode dailyWorld (dailyRegistration key selfBond)

lemma operates_dailyRegistered (key : Bytes) (selfBond : ℕ) {Cond : World → NodeAction → Prop}
    (hevents : dailyEngine.Meets (fun w event => Cond w (.handle event)) (World.boot dailyDisk)
      dailyEvents) (hregistration : Cond dailyWorld (dailyRegistration key selfBond)) :
    dailyEngine.Operates dailyNode Cond (World.boot dailyDisk) (dailyRegistered key selfBond) := by
  have hrun : dailyEngine.Operates dailyNode Cond (World.boot dailyDisk) dailyWorld := by
    refine Relation.ReflTransGen.mono ?_ _ _ (run_of_meets dailyEvents hevents)
    rintro w₁ _ ⟨event, hcond, rfl⟩
    exact ⟨.handle event, hcond, rfl⟩
  exact hrun.tail ⟨_, hregistration, rfl⟩

end

end ZenoChain
