/-
# Catching up with governance

Pending proposals are activated at the ends of epochs, in the order in which they were queued, and
each replaces the economics.  Activating at one epoch after the other applies the same proposals as
activating once at the last of them, and leaves the same ones; but it applies them in the order in
which the activations reach them, so that the economics in force at the end may be others.
-/
import ZenoChain.Base.Instalments
import ZenoChain.State.Staking

namespace ZenoChain.GovernanceSnapshot

open Instalments Word

variable {g : GovernanceSnapshot} {epoch last : ℕ} {epochs : List ℕ}

/-- Queues a deterministic parameter update for a future epoch boundary. -/
def queueParameterUpdate (g : GovernanceSnapshot) (activationEpoch : ℕ) (update : ParameterUpdate)
    (description : String) : ℕ × GovernanceSnapshot :=
  (g.nextProposalId,
    { g with
      nextProposalId := wrappingAdd 64 g.nextProposalId 1
      pending := g.pending ++
        [{ proposalId := g.nextProposalId, activationEpoch, update, description }] })

/-- Activates the proposals at one epoch after the other. -/
def activateEach (g : GovernanceSnapshot) : List ℕ → List GovernanceProposal × GovernanceSnapshot
  | [] => ([], g)
  | epoch :: epochs =>
    let (applied, g) := g.activateReadyUpdates epoch
    let (later, g) := activateEach g epochs
    (applied ++ later, g)

/-- The economics after some proposals have been applied. -/
def afterAll (economics : EconomicsParams) (applied : List GovernanceProposal) : EconomicsParams :=
  applied.foldl (fun _ proposal => updated proposal.update) economics

lemma afterAll_append {economics : EconomicsParams} {applied later : List GovernanceProposal} :
    afterAll economics (applied ++ later) = afterAll (afterAll economics applied) later :=
  List.foldl_append

/-- The last proposal has the last word. -/
lemma afterAll_eq {economics : EconomicsParams} {applied : List GovernanceProposal} :
    afterAll economics applied =
      (applied.getLast?.map fun proposal => updated proposal.update).getD economics := by
  induction applied using List.reverseRecOn with
  | nil => rfl
  | append_singleton applied proposal => rw [afterAll_append, List.getLast?_concat]; rfl

lemma activateReadyUpdates_eq (g : GovernanceSnapshot) (epoch : ℕ) :
    g.activateReadyUpdates epoch =
      (g.pending.filter (·.activationEpoch ≤ epoch),
        { g with
          pending := g.pending.filter fun proposal => ¬ proposal.activationEpoch ≤ epoch
          economics := afterAll g.economics (g.pending.filter (·.activationEpoch ≤ epoch)) }) := by
  simp only [activateReadyUpdates, afterAll, gt_iff_lt, not_lt, not_le]

/-- **Activating step by step** settles the queue in instalments. -/
lemma activateEach_eq (g : GovernanceSnapshot) (epochs : List ℕ) :
    g.activateEach epochs =
      (settle GovernanceProposal.activationEpoch epochs g.pending,
        { g with
          pending := rest GovernanceProposal.activationEpoch epochs g.pending
          economics := afterAll g.economics
            (settle GovernanceProposal.activationEpoch epochs g.pending) }) := by
  induction epochs generalizing g with
  | nil => simp [activateEach, settle, rest, afterAll]
  | cons epoch epochs ih =>
    rw [activateEach, activateReadyUpdates_eq]
    dsimp only
    rw [ih, settle, rest_cons, afterAll_append]

/-! ## One activation at the last epoch -/

/-- Of some epochs, the last one reaches all that one of them reaches. -/
lemma exists_reaches_iff (h : ∀ e ∈ epochs, e ≤ last) {n : ℕ} :
    (∃ e ∈ epochs ++ [last], n ≤ e) ↔ n ≤ last := by
  constructor
  · rintro ⟨e, he, hn⟩
    rcases List.mem_append.mp he with hmem | hmem
    · exact hn.trans (h e hmem)
    · exact hn.trans (List.mem_singleton.mp hmem).le
  · exact fun hn => ⟨last, List.mem_append_right _ (List.mem_singleton_self _), hn⟩

lemma due_eq (h : ∀ e ∈ epochs, e ≤ last) (pending : List GovernanceProposal) :
    due GovernanceProposal.activationEpoch (epochs ++ [last]) pending =
      pending.filter (·.activationEpoch ≤ last) := by
  refine List.filter_congr fun proposal _ => ?_
  rw [decide_eq_decide, stage_lt_iff, exists_reaches_iff h]

lemma rest_eq (h : ∀ e ∈ epochs, e ≤ last) (pending : List GovernanceProposal) :
    rest GovernanceProposal.activationEpoch (epochs ++ [last]) pending =
      pending.filter fun proposal => ¬ proposal.activationEpoch ≤ last := by
  refine List.filter_congr fun proposal _ => ?_
  rw [decide_eq_decide, stage_lt_iff, exists_reaches_iff h]

/-- The proposal queued last of those due by an epoch. -/
def lastQueued (g : GovernanceSnapshot) (epoch : ℕ) : Option GovernanceProposal :=
  (g.pending.filter (·.activationEpoch ≤ epoch)).getLast?

/-- Of the proposals that the last successful one of some activations reaches, the one queued
last. -/
def lastReached (g : GovernanceSnapshot) (epochs : List ℕ) : Option GovernanceProposal :=
  (latest GovernanceProposal.activationEpoch epochs g.pending).getLast?

/-- Two proposals, or none, leave the same economics if they carry the same update. -/
lemma getD_updated_eq_iff {economics : EconomicsParams} {p q : Option GovernanceProposal}
    (h : p = none ↔ q = none) :
    (p.map fun proposal => updated proposal.update).getD economics =
        (q.map fun proposal => updated proposal.update).getD economics ↔
      p.map GovernanceProposal.update = q.map GovernanceProposal.update := by
  cases p with
  | none =>
    rw [h.mp rfl]
    exact iff_of_true rfl rfl
  | some p =>
    cases q with
    | none => exact absurd (h.mpr rfl) (Option.some_ne_none p)
    | some q =>
      simp only [Option.map_some, Option.getD_some, Option.some.injEq]
      constructor
      · intro heq
        cases hp : p.update
        cases hq : q.update
        rw [hp, hq] at heq
        exact congrArg ParameterUpdate.economics heq
      · exact congrArg updated

/-- **Catching up.**  One activation at the last of some epochs applies the same proposals, once
each, as the activations at all of them, and leaves the same ones in the same order.  The economics
in force are the same exactly if the proposal queued last of those that are due carries the same
update as the one queued last of those that the last successful activation reaches. -/
theorem activateEach_iff (g : GovernanceSnapshot) (epochs : List ℕ) (last : ℕ)
    (h : (epochs ++ [last]).Pairwise (· < ·)) :
    (g.activateEach (epochs ++ [last])).1.Perm (g.activateReadyUpdates last).1 ∧
    (g.activateReadyUpdates last).1 = g.pending.filter (·.activationEpoch ≤ last) ∧
    (g.activateEach (epochs ++ [last])).2.pending = (g.activateReadyUpdates last).2.pending ∧
    ((g.activateEach (epochs ++ [last])).2.economics =
        (g.activateReadyUpdates last).2.economics ↔
      (g.lastReached (epochs ++ [last])).map GovernanceProposal.update =
        (g.lastQueued last).map GovernanceProposal.update) := by
  have hlast : ∀ e ∈ epochs, e ≤ last := fun e he =>
    (List.pairwise_append.mp h).2.2 e he last (List.mem_singleton_self _) |>.le
  have hperm := settle_perm GovernanceProposal.activationEpoch (epochs ++ [last]) g.pending
  rw [due_eq hlast] at hperm
  rw [activateEach_eq, activateReadyUpdates_eq]
  refine ⟨hperm, rfl, rest_eq hlast _, ?_⟩
  dsimp only
  rw [afterAll_eq, afterAll_eq, getLast?_settle]
  refine getD_updated_eq_iff ?_
  rw [← getLast?_settle, List.getLast?_eq_none_iff, List.getLast?_eq_none_iff]
  constructor
  · intro hnil
    rw [hnil] at hperm
    exact hperm.symm.eq_nil
  · intro hnil
    rw [hnil] at hperm
    exact hperm.eq_nil

/-- Economics that differ in the share of the treasury. -/
def treasuryShare (treasuryBps : ℕ) : EconomicsParams :=
  { minimumSelfBond := 100, epochLength := 10, unbondingEpochs := 2, treasuryBps,
    downtimeSlashBps := 100, doubleSignSlashBps := 500 }

/-- An update for the fifth epoch was queued before one for the second epoch. -/
def overtaken : GovernanceSnapshot :=
  let queued := queueParameterUpdate (GovernanceState.new (treasuryShare 1000)) 5
    (.economics (treasuryShare 2000)) "raise"
  (queued.2.queueParameterUpdate 2 (.economics (treasuryShare 500)) "lower").2

/-- Step by step, the update for the fifth epoch comes last; at once, the one for the second epoch. -/
theorem economics_overtaken :
    ¬ ∀ (g : GovernanceSnapshot) (epochs : List ℕ) (last : ℕ),
      (epochs ++ [last]).Pairwise (· < ·) →
        (g.activateEach (epochs ++ [last])).1.Perm (g.activateReadyUpdates last).1 ∧
        (g.activateEach (epochs ++ [last])).2.pending = (g.activateReadyUpdates last).2.pending ∧
        (g.activateEach (epochs ++ [last])).2.economics =
          (g.activateReadyUpdates last).2.economics := by
  intro h
  have heq := (h overtaken [2] 5 (by decide)).2.2
  exact absurd heq (by decide)

theorem activateEach_treasuryShare :
    (overtaken.activateEach [1, 2]).2.economics = (overtaken.activateReadyUpdates 2).2.economics ∧
      (overtaken.activateEach [2, 5]).2.economics ≠
        (overtaken.activateReadyUpdates 5).2.economics :=
  ⟨(activateEach_iff overtaken [1] 2 (by decide)).2.2.2.mpr (by decide),
    fun h => absurd ((activateEach_iff overtaken [2] 5 (by decide)).2.2.2.mp h) (by decide)⟩

/-! ## Queues in the order of their epochs -/

/-- The proposals were queued in the order of their epochs. -/
def Ordered (g : GovernanceSnapshot) : Prop :=
  g.pending.Pairwise fun p q => p.activationEpoch ≤ q.activationEpoch

lemma Ordered.queueParameterUpdate (h : g.Ordered)
    (hlatest : ∀ p ∈ g.pending, p.activationEpoch ≤ epoch) (update : ParameterUpdate)
    (description : String) : (g.queueParameterUpdate epoch update description).2.Ordered := by
  refine List.pairwise_append.mpr ⟨h, List.pairwise_singleton _ _, fun p hp q hq => ?_⟩
  rw [List.mem_singleton.mp hq]
  exact hlatest p hp

lemma Ordered.activateReadyUpdates (h : g.Ordered) (epoch : ℕ) :
    (g.activateReadyUpdates epoch).2.Ordered := List.Pairwise.filter _ h

/-- **In such a queue nothing is overtaken**: one activation does all that several would do. -/
theorem Ordered.activateEach (h : g.Ordered) (hlast : ∀ e ∈ epochs, e ≤ last) :
    g.activateEach (epochs ++ [last]) = g.activateReadyUpdates last := by
  rw [activateEach_eq, activateReadyUpdates_eq, settle_eq_due _ h, due_eq hlast, rest_eq hlast]

end ZenoChain.GovernanceSnapshot
