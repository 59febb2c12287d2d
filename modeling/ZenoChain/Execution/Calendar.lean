/-
# The calendar of a chain

The staking state depends on more than the blocks: on liveness notes, on evidence, on bonds.  The
epoch, what the treasury has collected, the parameters in force and the dates of the transitions do
not.  Here they are a machine of their own that reads nothing but blocks, and the accounting of a
block is a step of it, whatever else has been written to the staking state.
-/
import ZenoChain.Execution.Replay
import ZenoChain.State.Penalties

namespace ZenoChain

open Word ExecutionEngine

/-- The epoch that begins with a transition, its height, and the parameters from then on. -/
structure Opening where
  epoch : ℕ
  height : ℕ
  economics : EconomicsParams
deriving DecidableEq

/-- A transition without its validators. -/
def EpochTransition.opening (t : EpochTransition) : Opening := ⟨t.epoch, t.height, t.economics⟩

/-- The epoch, what the treasury has collected, the governance state, and the transitions so far,
the oldest first. -/
structure Calendar where
  epoch : ℕ
  treasury : ℕ
  governance : GovernanceSnapshot
  openings : List Opening := []
deriving DecidableEq

namespace Calendar

variable (economics : EconomicsParams)

/-- The calendar after a block of a height that pays some fees. -/
def account (c : Calendar) (fees height : ℕ) : Calendar :=
  let treasury := saturatingAdd 128 c.treasury (treasuryCut economics fees)
  if ClosesEpoch economics height then
    let epoch := saturatingAdd 64 c.epoch 1
    let governance := (c.governance.activateReadyUpdates epoch).2
    { epoch, treasury, governance
      openings := c.openings ++ [⟨epoch, height, governance.economics⟩] }
  else { c with treasury }

/-- The calendar after a block. -/
def after (c : Calendar) (block : Block) : Calendar :=
  c.account economics (collectedFees block.transactions 0) block.header.height

/-- The calendar after the blocks of a list. -/
def afterAll (c : Calendar) (blocks : List Block) : Calendar := blocks.foldl (after economics) c

variable {economics} {c : Calendar} {blocks : List Block} {block : Block} {fees height : ℕ}

@[simp] lemma afterAll_concat : c.afterAll economics (blocks ++ [block]) =
    (c.afterAll economics blocks).after economics block := by
  rw [afterAll, List.foldl_append]
  rfl

/-- The numbers are words, and the transitions are from this epoch and from those before, in their
order. -/
structure Fits (c : Calendar) : Prop where
  epoch : c.epoch ≤ maxValue 64
  treasury : c.treasury ≤ maxValue 128
  past : ∀ o ∈ c.openings, o.epoch ≤ c.epoch
  sorted : c.openings.Pairwise fun o o' => o.epoch ≤ o'.epoch

lemma Fits.account (h : c.Fits) : (c.account economics fees height).Fits := by
  have hnext : c.epoch ≤ saturatingAdd 64 c.epoch 1 := le_min (Nat.le_succ _) h.epoch
  rw [Calendar.account]
  split_ifs
  · refine ⟨Nat.min_le_right _ _, Nat.min_le_right _ _, fun o ho => ?_, ?_⟩
    · rcases List.mem_append.mp ho with hold | hnew
      · exact (h.past o hold).trans hnext
      · rw [List.mem_singleton.mp hnew]
    · refine List.pairwise_append.mpr ⟨h.sorted, List.pairwise_singleton _ _, fun o ho o' ho' => ?_⟩
      rw [List.mem_singleton.mp ho']
      exact (h.past o ho).trans hnext
  · exact ⟨h.epoch, Nat.min_le_right _ _, h.past, h.sorted⟩

lemma Fits.afterAll (h : c.Fits) (blocks : List Block) : (c.afterAll economics blocks).Fits := by
  induction blocks generalizing c with
  | nil => exact h
  | cons block blocks ih => exact ih h.account

/-- The epoch counts the blocks that close one. -/
lemma epoch_afterAll (h : c.epoch ≤ maxValue 64) : (c.afterAll economics blocks).epoch =
    min (c.epoch + blocks.countP fun b => ClosesEpoch economics b.header.height) (maxValue 64) := by
  induction blocks using List.reverseRecOn with
  | nil => exact (Nat.min_eq_left h).symm
  | append_singleton blocks block ih =>
    rw [afterAll_concat, after, account, List.countP_append, List.countP_singleton]
    split_ifs with hcloses hcount hcount
    · simp only [saturatingAdd, ih]
      omega
    · exact absurd (decide_eq_true hcloses) hcount
    · exact absurd (of_decide_eq_true hcount) hcloses
    · exact ih

/-- The treasury has collected its share of the fees of every block. -/
lemma treasury_afterAll (h : c.treasury ≤ maxValue 128) : (c.afterAll economics blocks).treasury =
    min (c.treasury + (blocks.map fun b =>
      treasuryCut economics (collectedFees b.transactions 0)).sum) (maxValue 128) := by
  induction blocks using List.reverseRecOn with
  | nil => exact (Nat.min_eq_left h).symm
  | append_singleton blocks block ih =>
    have hstep : (c.afterAll economics (blocks ++ [block])).treasury =
        saturatingAdd 128 (c.afterAll economics blocks).treasury
          (treasuryCut economics (collectedFees block.transactions 0)) := by
      rw [afterAll_concat, after, account]
      split_ifs <;> rfl
    rw [hstep, ih, List.map_append, List.sum_append, List.map_singleton, List.sum_singleton,
      saturatingAdd]
    omega

end Calendar

/-! ## The accounting of a block -/

namespace StakingSnapshot

variable {s s' : StakingSnapshot}

/-- Two staking states are in the same epoch, with the same treasury. -/
def SameDate (s s' : StakingSnapshot) : Prop :=
  s'.epoch = s.epoch ∧ s'.treasuryBalance = s.treasuryBalance

lemma sameDate_slash {a : Address} {bps : ℕ} {reason : String} {jail : Bool}
    (h : s.slash a bps reason jail = .ok s') : s.SameDate s' := by
  rw [slash] at h
  split at h
  · cases h
  · cases h
    exact ⟨rfl, rfl⟩

lemma sameDate_delegate {delegator a : Address} {amount : ℕ} {isSelfBond : Bool}
    (h : s.delegate delegator a amount isSelfBond = .ok s') : s.SameDate s' := by
  rw [delegate] at h
  split at h
  · cases h
  · cases h
    exact ⟨rfl, rfl⟩

/-- Slashes move neither the epoch nor the treasury. -/
lemma keptBySlashes_sameDate (s : StakingSnapshot) : KeptBySlashes (SameDate s) := by
  intro s₁ a bps reason jail s₂ hslash hs
  obtain ⟨hepoch, htreasury⟩ := sameDate_slash hslash
  exact ⟨hepoch.trans hs.1, htreasury.trans hs.2⟩

/-- Where there is nothing to distribute, settling an epoch begins the next one. -/
lemma settleEpochRewards_nothing (params : EconomicsParams) (h : s.treasuryBalance ≤ maxValue 128) :
    (s.settleEpochRewards 0 0 params).2.epoch = saturatingAdd 64 s.epoch 1 ∧
      (s.settleEpochRewards 0 0 params).2.treasuryBalance = s.treasuryBalance := by
  have hadd : saturatingAdd 128 s.treasuryBalance 0 = s.treasuryBalance := Nat.min_eq_left h
  have hnothing : saturatingAdd 128 0 0 = 0 := by decide
  have hzero : ∀ n, saturatingMul 128 0 n = 0 := fun n => by
    rw [saturatingMul, Nat.zero_mul, Nat.zero_min]
  have hfold : ∀ l : List (Address × ValidatorStake), l.foldl (fun t e => saturatingAdd 128 t
      (saturatingMul 128 (grossReward 0 s.totalActiveStake e.2) e.2.commissionBps / 10000))
        s.treasuryBalance = s.treasuryBalance := by
    intro l
    induction l with
    | nil => rfl
    | cons e l ih =>
      rw [List.foldl_cons, grossReward, hzero, Nat.zero_div, hzero, Nat.zero_div, hadd, ih]
  simp only [settleEpochRewards]
  split_ifs
  · exact ⟨rfl, by rw [hadd, hadd]⟩
  · refine ⟨rfl, ?_⟩
    dsimp only
    rw [hnothing, hzero, Nat.zero_div, hadd]
    exact hfold _

end StakingSnapshot

/-- **The accounting of a block is a step of the calendar**, on any staking state of its epoch and
with its treasury. -/
theorem calendar_applyBlockAccounting [Hashing] {x : ExecutionEngine} {economics : EconomicsParams}
    (heconomics : x.economics = some economics) {store : Store} {state state' : StateSnapshot}
    {proposer : Address} {fees height : ℕ} {artifacts : AccountingArtifacts} {c : Calendar}
    (hepoch : (StakingSnapshot.load store).epoch = c.epoch)
    (htreasury : (StakingSnapshot.load store).treasuryBalance = c.treasury)
    (hgovernance : GovernanceSnapshot.load store economics = c.governance)
    (h : x.applyBlockAccounting store state proposer fees height = .ok (state', artifacts)) :
    ∃ staking, artifacts.staking = some staking ∧
      artifacts.governance = some (c.account economics fees height).governance ∧
      staking.epoch = (c.account economics fees height).epoch ∧
      staking.treasuryBalance = (c.account economics fees height).treasury ∧
      (c.account economics fees height).openings =
        c.openings ++ (artifacts.epochTransition.map EpochTransition.opening).toList := by
  rw [applyBlockAccounting, heconomics] at h
  dsimp only at h
  rw [Calendar.account]
  split_ifs at h ⊢
  · split at h
    · cases h
    · rename_i hsettle
      cases h
      rw [settleEpoch] at hsettle
      split at hsettle
      · cases hsettle
      · rename_i slashed hslashed
        cases hsettle
        obtain ⟨hsame, hfunds⟩ := (StakingSnapshot.keptBySlashes_sameDate _).downtime hslashed
          ⟨rfl, rfl⟩
        have hbound : slashed.treasuryBalance ≤ maxValue 128 := hfunds ▸ Nat.min_le_right _ _
        obtain ⟨hnext, hkept⟩ := StakingSnapshot.settleEpochRewards_nothing
          (GovernanceSnapshot.load store economics).economics hbound
        have hopens : (slashed.settleEpochRewards 0 0
            (GovernanceSnapshot.load store economics).economics).2.epoch =
              saturatingAdd 64 c.epoch 1 := by
          rw [hnext, hsame, ← hepoch]
          rfl
        refine ⟨_, rfl, ?_, hopens, ?_, ?_⟩
        · rw [hopens, hgovernance]
        · rw [hkept, hfunds, ← htreasury]
          rfl
        · rw [Option.map_some, Option.toList_some, EpochTransition.opening]
          simp only [StakingSnapshot.buildEpochTransition]
          rw [hopens, hgovernance]
  · cases h
    refine ⟨_, rfl, ?_, hepoch, ?_, (List.append_nil _).symm⟩
    · rw [hgovernance]
    · rw [← htreasury]
      rfl

end ZenoChain
