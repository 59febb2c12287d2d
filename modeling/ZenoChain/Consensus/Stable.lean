/-
# What the changes of the staking state keep

A property that seeding, notes, slashes, funds and settlements keep is kept by all that blocks,
votes and evidence do to the staking state.
-/
import ZenoChain.Consensus.Runs
import ZenoChain.State.Bonds

namespace ZenoChain

open Word

/-- The changes of the staking state, apart from liveness notes, keep a property. -/
structure StakingSnapshot.Settling (P : StakingSnapshot → Prop) : Prop where
  ensure : ∀ s vs, P s → P (s.ensureValidators vs)
  slash : ∀ s a bps reason jail s', s.slash a bps reason jail = .ok s' → P s → P s'
  fund : ∀ s amount, P s → P (s.fund amount)
  settle : ∀ s totalFees rewardBudget params, P s →
    P (s.settleEpochRewards totalFees rewardBudget params).2

/-- The changes of the staking state keep a property. -/
structure StakingSnapshot.Stable (P : StakingSnapshot → Prop) : Prop
    extends StakingSnapshot.Settling P where
  note : ∀ s a s', s.noteLiveness a = .ok s' → P s → P s'

/-- What blocks bring to the staking state keeps a property: the seeding of validators, fees, and at
the end of an epoch the slashes for downtime and the settlement. -/
structure StakingSnapshot.KeptByBlocks (P : StakingSnapshot → Prop) : Prop where
  ensure : ∀ s vs, P s → P (s.ensureValidators vs)
  downtime : ∀ s params s', s.applyDowntimeSlashing params = .ok s' → P s → P s'
  fund : ∀ s amount, P s → P (s.fund amount)
  settle : ∀ s totalFees rewardBudget params, P s →
    P (s.settleEpochRewards totalFees rewardBudget params).2

lemma StakingSnapshot.Settling.keptByBlocks {P : StakingSnapshot → Prop} (hP : Settling P) :
    KeptByBlocks P where
  ensure := hP.ensure
  downtime := fun _ _ _ hslashed hs => KeptBySlashes.downtime hP.slash hslashed hs
  fund := hP.fund
  settle := hP.settle

namespace StakingSnapshot.KeptByBlocks

variable {P : StakingSnapshot → Prop} [Hashing]

/-- The accounting of a block. -/
lemma accounting (hP : KeptByBlocks P) {e : ExecutionEngine} {store : Store}
    {state state' : StateSnapshot} {proposer : Address} {fees height : ℕ}
    {artifacts : AccountingArtifacts}
    (h : e.applyBlockAccounting store state proposer fees height = .ok (state', artifacts))
    (hs : P (load store)) : ∀ s ∈ artifacts.staking, P s := by
  rw [ExecutionEngine.applyBlockAccounting] at h
  split at h
  · cases h
    exact fun _ h => absurd h (Option.not_mem_none _)
  · rename_i economics _
    have hseeded := hP.ensure _ e.validators hs
    have hfunded := hP.fund _ (ExecutionEngine.treasuryCut economics fees) hseeded
    dsimp only at h
    split_ifs at h
    · split at h
      · cases h
      · rename_i hsettle
        cases h
        rw [ExecutionEngine.settleEpoch] at hsettle
        split at hsettle
        · cases hsettle
        · rename_i hslashed
          cases hsettle
          rintro s ⟨⟩
          exact hP.settle _ _ _ _ (hP.downtime _ _ _ hslashed hfunded)
    · cases h
      rintro s ⟨⟩
      exact hfunded

variable [Revm] {d d' d₁ : Disk}

/-- What a replayed block stores: its accounting stores its own staking state only. -/
lemma replayed_puts (hP : KeptByBlocks P) (h : P (load d.store)) {x : ExecutionEngine}
    {scheme : SignatureScheme} {block : Block} {p : PreparedBlock}
    (hprepares : ExecutionEngine.Prepares x scheme block d p d₁) {tail : List Effect}
    (htail : ∀ s : StakingState, .write (.putStakingState s) ∈ tail →
      .write (.putStakingState s) ∈ ExecutionEngine.accountingWrites p) :
    ∃ es, d₁.recordAll tail = d.recordAll es ∧
      ∀ s : StakingState, .write (.putStakingState s) ∈ es → P s := by
  obtain ⟨es, hquiet, rfl⟩ := hprepares.onlyEvmWrites.quiet
  have hbefore : P (load (d.recordAll es).store) := by
    rw [load, (recordAll_quiet hquiet d).1]
    exact h
  obtain ⟨state, -, haccounting⟩ := hprepares.replay
  refine ⟨es ++ tail, (d.recordAll_append es tail).symm, fun s hmem => ?_⟩
  have hwrite := htail s ((List.mem_append.mp hmem).resolve_left fun hs =>
    absurd (hquiet _ hs) Bool.false_ne_true)
  refine hP.accounting haccounting hbefore s ?_
  simp only [ExecutionEngine.accountingWrites, List.mem_append, Option.mem_toList,
    Option.map_eq_some_iff, StateSnapshot.writes, List.mem_map] at hwrite
  rcases hwrite with ((⟨_, -, hc⟩ | ⟨_, hs, hc⟩) | ⟨_, -, hc⟩) | ⟨_, -, hc⟩
  · cases hc
  · cases hc
    exact hs
  · cases hc
  · cases hc

/-- What a commit stores. -/
lemma commits_puts (hP : KeptByBlocks P) (h : P (load d.store)) {e : ConsensusEngine}
    {f : FinalizedBlock} (hcommits : Commits e f d d') :
    ∃ es, d' = d.recordAll es ∧ ∀ s : StakingState, .write (.putStakingState s) ∈ es → P s := by
  obtain ⟨d₁, p, tail, hprepares, horder⟩ := hcommits
  refine hP.replayed_puts h hprepares fun s hmem => ?_
  rcases horder with rfl | rfl
  · rcases List.mem_append.mp hmem with hmem | hmem
    · exact hmem
    · simp at hmem
  · refine (List.mem_cons.mp hmem).resolve_left fun hc => ?_
    cases hc

end StakingSnapshot.KeptByBlocks

/-- The store holds a staking state with a property. -/
def Store.Stakes (P : StakingSnapshot → Prop) (store : Store) : Prop :=
  ∃ s : StakingState, store.stakingState = some s ∧ P s

namespace Store.Stakes

variable {P : StakingSnapshot → Prop} {store store' : Store}

lemma load (h : store.Stakes P) : P (StakingSnapshot.load store) := by
  obtain ⟨s, hstored, hs⟩ := h
  rw [StakingSnapshot.load, hstored]
  exact hs

lemma congr (h : store.Stakes P) (hsame : store'.stakingState = store.stakingState) :
    store'.Stakes P := by
  obtain ⟨s, hstored, hs⟩ := h
  exact ⟨s, hsame.trans hstored, hs⟩

variable [Hashing] {e : ConsensusEngine} {w₀ w w' : World} {event : Event} {d d' : Disk}

/-- Effects that store only staking states with the property. -/
lemma recordAll {es : List Effect} (h : d.store.Stakes P)
    (hes : ∀ s : StakingState, .write (.putStakingState s) ∈ es → P s) :
    (d.recordAll es).store.Stakes P := by
  rcases d.stakingState_recordAll es with hkept | ⟨s, hs, hstored⟩
  · exact h.congr hkept
  · exact ⟨s, hstored, hes s hs⟩

omit [Hashing] in
/-- A note. -/
lemma noted (h : store.Stakes P) (hP : StakingSnapshot.Stable P) {a : Address}
    {s : StakingSnapshot} (hnoted : e.noted store a = .ok s) : P s :=
  hP.note _ _ _ hnoted (hP.ensure _ _ h.load)

variable [Revm]

/-- What a replayed block stores. -/
lemma replayed_puts (h : d.store.Stakes P) (hP : StakingSnapshot.Settling P) {x : ExecutionEngine}
    {scheme : SignatureScheme} {block : Block} {p : PreparedBlock} {d₁ : Disk}
    (hprepares : ExecutionEngine.Prepares x scheme block d p d₁) {tail : List Effect}
    (htail : ∀ s : StakingState, .write (.putStakingState s) ∈ tail →
      .write (.putStakingState s) ∈ ExecutionEngine.accountingWrites p) :
    ∃ es, d₁.recordAll tail = d.recordAll es ∧
      ∀ s : StakingState, .write (.putStakingState s) ∈ es → P s :=
  hP.keptByBlocks.replayed_puts h.load hprepares htail

/-- A block that is replayed. -/
lemma replayed (h : d.store.Stakes P) (hP : StakingSnapshot.Settling P) {x : ExecutionEngine}
    {scheme : SignatureScheme} {block : Block} {p : PreparedBlock} {d₁ : Disk}
    (hprepares : ExecutionEngine.Prepares x scheme block d p d₁) {tail : List Effect}
    (htail : ∀ s : StakingState, .write (.putStakingState s) ∈ tail →
      .write (.putStakingState s) ∈ ExecutionEngine.accountingWrites p) :
    (d₁.recordAll tail).store.Stakes P := by
  obtain ⟨es, hd, hes⟩ := h.replayed_puts hP hprepares htail
  rw [hd]
  exact h.recordAll hes

/-- What a commit stores. -/
lemma commits_puts (h : d.store.Stakes P) (hP : StakingSnapshot.Settling P) {f : FinalizedBlock}
    (hcommits : Commits e f d d') :
    ∃ es, d' = d.recordAll es ∧ ∀ s : StakingState, .write (.putStakingState s) ∈ es → P s :=
  hP.keptByBlocks.commits_puts h.load hcommits

/-- A commit. -/
lemma commits (h : d.store.Stakes P) (hP : StakingSnapshot.Settling P) {f : FinalizedBlock}
    (hcommits : Commits e f d d') : d'.store.Stakes P := by
  obtain ⟨es, rfl, hes⟩ := h.commits_puts hP hcommits
  exact h.recordAll hes

omit [Revm] in
/-- What the application of evidence stores. -/
lemma settles_puts (h : d.store.Stakes P) (hP : StakingSnapshot.Settling P) {items : List Evidence}
    (hsettles : Settles e items d d') :
    ∃ es, d' = d.recordAll es ∧ ∀ s : StakingState, .write (.putStakingState s) ∈ es → P s := by
  cases hsettles with
  | none => exact ⟨[], rfl, nofun⟩
  | @some _ _ staking _ happly =>
    refine ⟨_, rfl, fun s hs => ?_⟩
    obtain rfl : s = staking := by simpa using hs
    exact StakingSnapshot.KeptBySlashes.evidence hP.slash happly (hP.ensure _ _ h.load)

omit [Revm] in
lemma settles (h : d.store.Stakes P) (hP : StakingSnapshot.Settling P) {items : List Evidence}
    (hsettles : Settles e items d d') : d'.store.Stakes P := by
  obtain ⟨es, rfl, hes⟩ := h.settles_puts hP hsettles
  exact h.recordAll hes

/-- What a move stores, if what its note or its vote stores has the property. -/
lemma move_puts_of_notes (h : w.disk.store.Stakes P) (hP : StakingSnapshot.Settling P)
    (hmove : e.Move w₀ event w w')
    (hnote : ∀ a staking, e.noted w.disk.store a = .ok staking → w' = w.note a staking → P staking)
    (hcast : ∀ vote staking, e.MayCast w vote staking → w' = w.cast vote staking → P staking) :
    ∃ es, w'.disk = w.disk.recordAll es ∧
      ∀ s : StakingState, .write (.putStakingState s) ∈ es → P s := by
  cases hmove with
  | @quiet es hquiet => exact ⟨es, rfl, fun s hs => absurd (hquiet _ hs) Bool.false_ne_true⟩
  | @note a staking hnoted =>
    refine ⟨_, rfl, fun s hs => ?_⟩
    obtain rfl : s = staking := by simpa using hs
    exact hnote a s hnoted rfl
  | accept | nextRound => exact ⟨[], rfl, nofun⟩
  | @accuse item =>
    exact ⟨[.write (.appendConsensusWal
      (.evidenceRecorded item.height item.round item.validatorAddress item.reason))], rfl,
      fun s hs => by simp at hs⟩
  | @cast vote staking hmay =>
    refine ⟨World.castEffects vote staking, rfl, fun s hs => ?_⟩
    obtain rfl : s = staking := by simpa [World.castEffects] using hs
    exact hcast vote s hmay rfl
  | @count vote =>
    exact ⟨[.write (.appendConsensusWal (.voteRecorded vote.height vote.round vote.step
      vote.blockHash vote.validatorAddress))], rfl, fun s hs => by simp at hs⟩
  | report => exact ⟨_, rfl, fun s hs => by simp at hs⟩
  | lock => exact ⟨_, rfl, fun s hs => by simp at hs⟩
  | finalize _ _ _ hcommits hsettles =>
    obtain ⟨es, rfl, hes⟩ := h.commits_puts hP hcommits
    obtain ⟨es', rfl, hes'⟩ := (h.recordAll hes).settles_puts hP hsettles
    refine ⟨es ++ es', (Disk.recordAll_append _ _ _).symm, fun s hs => ?_⟩
    exact (List.mem_append.mp hs).elim (hes s) (hes' s)
  | stall _ _ _ hcommits => exact h.commits_puts hP hcommits
  | adopt _ _ _ hcommits => exact h.commits_puts hP hcommits

/-- What a move stores. -/
lemma move_puts (h : w.disk.store.Stakes P) (hP : StakingSnapshot.Stable P)
    (hmove : e.Move w₀ event w w') :
    ∃ es, w'.disk = w.disk.recordAll es ∧
      ∀ s : StakingState, .write (.putStakingState s) ∈ es → P s :=
  h.move_puts_of_notes hP.toSettling hmove (fun _ _ hnoted _ => h.noted hP hnoted)
    fun _ _ hmay _ => h.noted hP hmay.noted

/-- A move of the consensus engine. -/
lemma move (h : w.disk.store.Stakes P) (hP : StakingSnapshot.Stable P)
    (hmove : e.Move w₀ event w w') : w'.disk.store.Stakes P := by
  obtain ⟨es, hdisk, hes⟩ := h.move_puts hP hmove
  rw [hdisk]
  exact h.recordAll hes

/-- What an event of the consensus engine stores. -/
lemma handle_puts (h : w.disk.store.Stakes P) (hP : StakingSnapshot.Stable P) (event : Event) :
    ∀ s : StakingState, .write (.putStakingState s) ∈ e.effectsOf w event → P s := by
  have hends : ∃ es, (e.handle w event).disk = w.disk.recordAll es ∧
      ∀ s : StakingState, .write (.putStakingState s) ∈ es → P s := by
    refine ConsensusEngine.invariant_of_moves (fun w' => ∃ es, w'.disk = w.disk.recordAll es ∧
      ∀ s : StakingState, .write (.putStakingState s) ∈ es → P s) ⟨[], rfl, nofun⟩ ?_
    rintro w₁ w₂ ⟨es, hdisk, hes⟩ hmove
    have hw₁ : w₁.disk.store.Stakes P := by
      rw [hdisk]
      exact h.recordAll hes
    obtain ⟨es', hdisk', hes'⟩ := hw₁.move_puts hP hmove
    refine ⟨es ++ es', ?_, fun s hs => (List.mem_append.mp hs).elim (hes s) (hes' s)⟩
    rw [hdisk', hdisk, Disk.recordAll_append]
  obtain ⟨es, hdisk, hes⟩ := hends
  have heffects : e.effectsOf w event = es := by
    rw [ConsensusEngine.effectsOf, hdisk, Disk.journal_recordAll, List.drop_left]
  rwa [heffects]

/-- **An event of the consensus engine** keeps the property. -/
lemma handle (h : w.disk.store.Stakes P) (hP : StakingSnapshot.Stable P) (event : Event) :
    (e.handle w event).disk.store.Stakes P := by
  rw [ConsensusEngine.disk_handle]
  exact h.recordAll (h.handle_puts hP event)

end Store.Stakes

end ZenoChain
