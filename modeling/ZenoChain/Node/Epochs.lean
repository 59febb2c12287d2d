/-
# Epochs follow the chain

A node notes validators, punishes them, registers new ones and bonds again with every start, so its
staking state is no function of its chain.  The calendar is one: in every run of a node its epoch,
its treasury, its parameters and the transitions that it has stored are those of the blocks that it
has committed, one after the other.
-/
import ZenoChain.Consensus.Agreement
import ZenoChain.Execution.Calendar
import ZenoChain.Node.Credit

namespace ZenoChain

open Word ExecutionEngine

/-- A store has the epoch, the treasury, the parameters and the transitions of a calendar. -/
structure Calendar.Of (economics : EconomicsParams) (c : Calendar) (store : Store) : Prop where
  epoch : (StakingSnapshot.load store).epoch = c.epoch
  treasury : (StakingSnapshot.load store).treasuryBalance = c.treasury
  governance : GovernanceSnapshot.load store economics = c.governance
  records : ∀ n, store.epochTransitions[n]?.map EpochTransition.opening =
    (c.openings.filter fun o => o.epoch = n).getLast?
  latest : store.epochLatest.map EpochTransition.opening = c.openings.getLast?

namespace Calendar

/-- What an effect stores of staking and governance is of the calendar. -/
def Allows (c : Calendar) : Effect → Prop
  | .write (.putStakingState s) => s.epoch = c.epoch ∧ s.treasuryBalance = c.treasury
  | .write (.putGovernanceState g) => g = c.governance
  | .write (.putEpochTransition _) => False
  | _ => True

lemma allows_of_leavesStake (c : Calendar) {x : Effect} (h : x.leavesStake) : c.Allows x := by
  unfold Allows
  split
  · cases h
  · cases h
  · cases h
  · trivial

lemma allows_of_isQuiet (c : Calendar) {x : Effect} (h : x.isQuiet) : c.Allows x :=
  c.allows_of_leavesStake (Effect.leavesStake_of_isQuiet h)

section

variable [Hashing] {economics : EconomicsParams} {c : Calendar} {store : Store} {d d' : Disk}

lemma Of.record (h : c.Of economics d.store) {x : Effect} (hx : c.Allows x) :
    c.Of economics (d.record x).store := by
  rcases x with w | _ | _ | _ | _
  · cases w with
    | putStakingState => exact ⟨hx.1, hx.2, h.governance, h.records, h.latest⟩
    | putGovernanceState => exact ⟨h.epoch, h.treasury, hx, h.records, h.latest⟩
    | putEpochTransition => exact hx.elim
    | compactConsensusWal n =>
      obtain ⟨wal, heq⟩ := d.store.compactConsensusWal_eq n
      rw [Disk.store_record_write, Store.apply, heq]
      exact ⟨h.epoch, h.treasury, h.governance, h.records, h.latest⟩
    | _ => exact ⟨h.epoch, h.treasury, h.governance, h.records, h.latest⟩
  all_goals exact h

lemma Of.recordAll (h : c.Of economics d.store) {es : List Effect} (hes : ∀ x ∈ es, c.Allows x) :
    c.Of economics (d.recordAll es).store := by
  induction es generalizing d with
  | nil => exact h
  | cons x es ih =>
    obtain ⟨hx, hrest⟩ := List.forall_mem_cons.mp hes
    exact ih (h.record hx) hrest

/-- A transition is stored under its number and as the latest one. -/
lemma Of.transition (h : c.Of economics d.store) (t : EpochTransition) :
    Calendar.Of economics { c with openings := c.openings ++ [t.opening] }
      (d.record (.write (.putEpochTransition t))).store where
  epoch := h.epoch
  treasury := h.treasury
  governance := h.governance
  records n := by
    show (d.store.epochTransitions.insert t.epoch t)[n]?.map _ = _
    rw [Table.getElem?_insert, List.filter_append, List.filter_cons, List.filter_nil]
    by_cases hn : n = t.epoch
    · have hnew : decide (t.opening.epoch = n) = true := decide_eq_true hn.symm
      rw [if_pos hn, if_pos hnew, List.getLast?_concat]
      rfl
    · have hold : ¬ decide (t.opening.epoch = n) = true := fun heq =>
        hn (of_decide_eq_true heq).symm
      rw [if_neg hn, if_neg hold, List.append_nil]
      exact h.records n
  latest := by
    rw [List.getLast?_concat]
    rfl

omit [Hashing] in
/-- The latest transition is the last one of the calendar, in both backends. -/
lemma Of.latestEpochTransition (h : c.Of economics store) (hfits : c.Fits) :
    store.latestEpochTransition.map EpochTransition.opening = c.openings.getLast? := by
  have hkeys : ∀ n, store.epochTransitions[n]?.isSome → ∃ o ∈ c.openings, o.epoch = n := by
    intro n hn
    rw [← Option.isSome_map (f := EpochTransition.opening), h.records n] at hn
    obtain ⟨o, ho⟩ := Option.isSome_iff_exists.mp hn
    obtain ⟨hmem, hepoch⟩ := List.mem_filter.mp (List.mem_of_getLast? ho)
    exact ⟨o, hmem, of_decide_eq_true hepoch⟩
  rw [Store.latestEpochTransition]
  split
  · rcases hlast : c.openings.getLast? with _ | o
    · have hnil := List.getLast?_eq_none_iff.mp hlast
      rcases htable : Table.last store.epochTransitions with _ | ⟨n, t⟩
      · rfl
      · obtain ⟨o, ho, -⟩ := hkeys n
          (Option.isSome_of_eq_some (Table.last_eq_some_iff.mp htable).1)
        rw [hnil] at ho
        cases ho
    · -- The last opening has the highest number.
      obtain ⟨init, hinit⟩ := List.getLast?_eq_some_iff.mp hlast
      have hrecord := h.records o.epoch
      rw [hinit, List.filter_append, List.filter_cons, List.filter_nil,
        if_pos (decide_eq_true rfl), List.getLast?_concat] at hrecord
      obtain ⟨t, ht, hopening⟩ := Option.map_eq_some_iff.mp hrecord
      have htable : Table.last store.epochTransitions = some (o.epoch, t) := by
        refine Table.last_eq_some_iff.mpr ⟨ht, fun n hn hne => ?_⟩
        obtain ⟨o', ho', rfl⟩ := hkeys n hn
        rw [hinit] at ho'
        rcases List.mem_append.mp ho' with hold | hnew
        · have hsorted := hinit ▸ hfits.sorted
          have hle := (List.pairwise_append.mp hsorted).2.2 o' hold o List.mem_cons_self
          exact Nat.compare_eq_lt.mpr (lt_of_le_of_ne hle hne)
        · exact absurd (congrArg Opening.epoch (List.mem_singleton.mp hnew)) hne
      rw [htable]
      exact congrArg some hopening
  · exact h.latest

end

/-! ## Blocks -/

variable [Hashing] [Revm] {economics : EconomicsParams} {c : Calendar} {d d₁ d₂ : Disk}

/-- **The accounting of a block** takes a store to the next calendar. -/
lemma Of.accounting {x : ExecutionEngine} (heconomics : x.economics = some economics)
    {scheme : SignatureScheme} {block : Block} {p : PreparedBlock}
    (hprepares : Prepares x scheme block d p d₁) (h : c.Of economics d.store)
    (h₂ : c.Of economics d₂.store) :
    (c.after economics block).Of economics (d₂.recordAll (accountingWrites p)).store := by
  obtain ⟨state, hloop, haccounting⟩ := hprepares.replay
  obtain ⟨es, hquiet, rfl⟩ := hprepares.onlyEvmWrites.quiet
  have h₁ := h.recordAll fun x hx => c.allows_of_isQuiet (hquiet x hx)
  obtain ⟨-, results, -, hout⟩ := applyTransactions_ok_iff.mp hloop
  obtain ⟨-, hcollected⟩ := Prod.mk.inj hout
  obtain ⟨hfees, -⟩ := Prod.mk.inj hcollected
  rw [hfees] at haccounting
  obtain ⟨staking, hstaking, hgovernance, hepoch, htreasury, hopenings⟩ :=
    calendar_applyBlockAccounting heconomics h₁.epoch h₁.treasury h₁.governance haccounting
  rw [accountingWrites, hstaking, hgovernance, Disk.recordAll_append, Disk.recordAll_append,
    Disk.recordAll_append]
  have haccounts : c.Of economics (d₂.recordAll p.state.writes).store :=
    h₂.recordAll fun x hx => by
      obtain ⟨_, -, rfl⟩ := List.mem_map.mp hx
      trivial
  set next := c.after economics block with hnext
  -- Everything but the openings is of the next calendar.
  have hstored : Calendar.Of economics { next with openings := c.openings }
      (((d₂.recordAll p.state.writes).recordAll [.write (.putStakingState staking)]).recordAll
        [.write (.putGovernanceState next.governance)]).store :=
    ⟨hepoch, htreasury, rfl, haccounts.records, haccounts.latest⟩
  rcases ht : p.accounting.epochTransition with _ | t
  · rw [ht, Option.map_none, Option.toList_none, List.append_nil] at hopenings
    have heq : { next with openings := c.openings } = next := by rw [← hopenings]; rfl
    rw [← heq]
    exact hstored
  · rw [ht, Option.map_some, Option.toList_some] at hopenings
    have heq : { next with openings := c.openings ++ [t.opening] } = next := by
      rw [← hopenings]; rfl
    rw [← heq]
    exact hstored.transition t

end Calendar

/-! ## Handlers -/

/-- An effect that a calendar allows and that commits no block. -/
def Calendar.Spares (c : Calendar) (x : Effect) : Prop := c.Allows x ∧ x.commits = none

lemma Calendar.spares_of_leavesStake (c : Calendar) {x : Effect} (h : x.leavesStake) :
    c.Spares x := by
  refine ⟨c.allows_of_leavesStake h, ?_⟩
  unfold Effect.commits
  split
  · cases h
  · rfl

/-- Bonds move neither the epoch nor the treasury. -/
lemma StakingSnapshot.keptByBonds_sameDate (s : StakingSnapshot) : KeptByBonds (SameDate s) := by
  intro s₁ delegator a amount isSelfBond s₂ hdelegate hs
  obtain ⟨hepoch, htreasury⟩ := sameDate_delegate hdelegate
  exact ⟨hepoch.trans hs.1, htreasury.trans hs.2⟩

namespace ConsensusEngine

/-- The calendar of the blocks that were committed since the journal began. -/
def calendar (e : ConsensusEngine) (start : Calendar) (d : Disk) : Calendar :=
  start.afterAll e.economics (d.committed.map (·.block))

/-- The disk has the calendar of its blocks. -/
def KeepsCalendar (e : ConsensusEngine) (start : Calendar) (d : Disk) : Prop :=
  (e.calendar start d).Of e.economics d.store

section

variable [Hashing] {e : ConsensusEngine} {start : Calendar} {d d' d₁ : Disk} {f : FinalizedBlock}

lemma calendar_recordAll {es : List Effect} (hes : ∀ x ∈ es, x.commits = none) :
    e.calendar start (d.recordAll es) = e.calendar start d := by
  rw [calendar, d.committed_recordAll_of_none hes, calendar]

lemma KeepsCalendar.spare (h : e.KeepsCalendar start d) {es : List Effect}
    (hes : ∀ x ∈ es, (e.calendar start d).Spares x) : e.KeepsCalendar start (d.recordAll es) := by
  rw [KeepsCalendar, calendar_recordAll fun x hx => (hes x hx).2]
  exact h.recordAll fun x hx => (hes x hx).1

omit [Hashing] in
/-- A staking state of the same date may be stored. -/
lemma KeepsCalendar.stake (h : e.KeepsCalendar start d) {staking : StakingSnapshot}
    (hdate : (StakingSnapshot.load d.store).SameDate staking) :
    (e.calendar start d).Spares (.write (.putStakingState staking)) :=
  ⟨⟨hdate.1.trans h.epoch, hdate.2.trans h.treasury⟩, rfl⟩

/-- Evidence moves neither the epoch nor the treasury. -/
lemma KeepsCalendar.settles_effects (h : e.KeepsCalendar start d) {items : List Evidence}
    (hsettles : Settles e items d d') : ∃ es, d' = d.recordAll es ∧
      ∀ x ∈ es, (e.calendar start d).Spares x := by
  cases hsettles with
  | none => exact ⟨[], rfl, List.forall_mem_nil _⟩
  | @some _ _ staking _ happly =>
    have hdate : (e.view d.store).SameDate staking :=
      (StakingSnapshot.keptBySlashes_sameDate _).evidence happly ⟨rfl, rfl⟩
    exact ⟨[.observe (.punished items), .write (.putStakingState staking)], rfl,
      List.forall_mem_cons.mpr ⟨⟨trivial, rfl⟩, List.forall_mem_singleton.mpr (h.stake hdate)⟩⟩

omit [Hashing] in
/-- Whoever is noted, the epoch and the treasury stay. -/
lemma KeepsCalendar.noted (h : e.KeepsCalendar start d) {a : Address} {staking : StakingSnapshot}
    (hnoted : e.noted d.store a = .ok staking) :
    (e.calendar start d).Spares (.write (.putStakingState staking)) := by
  obtain ⟨v, -, rfl⟩ := StakingSnapshot.noteLiveness_ok_iff.mp hnoted
  exact h.stake ⟨rfl, rfl⟩

variable [Revm]

/-- **A replayed block** is committed with its accounting, in either order. -/
lemma KeepsCalendar.replay (h : e.KeepsCalendar start d) {x : ExecutionEngine}
    (heconomics : x.economics = some e.economics) {scheme : SignatureScheme} {p : PreparedBlock}
    (hprepares : Prepares x scheme f.block d p d₁) {logged tail : List Effect}
    (hlogged : ∀ x ∈ logged, Effect.leavesStake x)
    (horder : tail = accountingWrites p ++ (logged ++ [.write (.atomicCommitBlock f p.state)]) ∨
      tail = .write (.atomicCommitBlock f p.state) :: accountingWrites p) :
    e.KeepsCalendar start (d₁.recordAll tail) := by
  have haccounting : ∀ x ∈ accountingWrites p, x.commits = none := by
    intro x hx
    cases isAccounting_of_mem hx <;> rfl
  have hbare : ∀ x ∈ logged, x.commits = none := fun x hx =>
    ((e.calendar start d).spares_of_leavesStake (hlogged x hx)).2
  obtain ⟨es, hquiet, rfl⟩ := hprepares.onlyEvmWrites.quiet
  have h₁ := h.recordAll fun x hx => (e.calendar start d).allows_of_isQuiet (hquiet x hx)
  have hcommitted : ((d.recordAll es).recordAll tail).committed = d.committed ++ [f] := by
    rw [Disk.committed_recordAll, d.committed_recordAll_of_none fun x hx =>
      Effect.commits_of_isQuiet (hquiet x hx)]
    rcases horder with rfl | rfl
    · rw [List.filterMap_append, List.filterMap_append, List.filterMap_eq_nil_iff.mpr haccounting,
        List.filterMap_eq_nil_iff.mpr hbare]
      rfl
    · have hblock : Effect.commits (.write (.atomicCommitBlock f p.state)) = some f := rfl
      rw [List.filterMap_cons_some hblock, List.filterMap_eq_nil_iff.mpr haccounting]
  rw [KeepsCalendar, calendar, hcommitted, List.map_append, List.map_singleton,
    Calendar.afterAll_concat]
  rcases horder with rfl | rfl
  · rw [Disk.recordAll_append]
    refine (h.accounting heconomics hprepares h₁).recordAll fun x hx => ?_
    rcases List.mem_append.mp hx with hx | hx
    · exact Calendar.allows_of_leavesStake _ (hlogged x hx)
    · rw [List.mem_singleton.mp hx]
      trivial
  · exact h.accounting heconomics hprepares (h₁.record trivial)

variable {config : NodeConfig} {w₀ w w' : World} {event : Event}

lemma KeepsCalendar.commits (h : e.KeepsCalendar start d) (hbuilds : config.Builds e)
    (hcommits : Commits e f d d') : e.KeepsCalendar start d' := by
  have heconomics : e.execution.economics = some e.economics := by
    rw [hbuilds.execution, hbuilds.economics]
    rfl
  obtain ⟨d₁, p, tail, hprepares, horder⟩ := hcommits
  exact h.replay heconomics hprepares (List.forall_mem_singleton.mpr rfl) horder

/-- **One move** commits a block and settles evidence, or leaves the calendar as it is. -/
lemma KeepsCalendar.move_cases (h : e.KeepsCalendar start w.disk) (hmove : e.Move w₀ event w w') :
    (∃ es, w'.disk = w.disk.recordAll es ∧ ∀ x ∈ es, (e.calendar start w.disk).Spares x) ∨
      ∃ f d₁ items, Commits e f w.disk d₁ ∧ Settles e items d₁ w'.disk := by
  cases hmove with
  | @quiet es hquiet =>
    exact .inl ⟨es, w.disk_emitAll es, fun x hx =>
      ⟨Calendar.allows_of_isQuiet _ (hquiet x hx), Effect.commits_of_isQuiet (hquiet x hx)⟩⟩
  | @note a staking hnoted =>
    exact .inl ⟨[.observe (.live a), .write (.putStakingState staking)], rfl,
      List.forall_mem_cons.mpr ⟨⟨trivial, rfl⟩, List.forall_mem_singleton.mpr (h.noted hnoted)⟩⟩
  | accept | nextRound => exact .inl ⟨[], rfl, List.forall_mem_nil _⟩
  | @accuse item =>
    exact .inl ⟨[.write (.appendConsensusWal
      (.evidenceRecorded item.height item.round item.validatorAddress item.reason))], rfl,
      List.forall_mem_singleton.mpr ⟨trivial, rfl⟩⟩
  | @cast vote staking hmay =>
    refine .inl ⟨World.castEffects vote staking, rfl, fun x hx => ?_⟩
    by_cases hput : x = .write (.putStakingState staking)
    · exact hput ▸ h.noted hmay.noted
    · refine Calendar.spares_of_leavesStake _ ?_
      simp only [World.castEffects, List.mem_cons, List.not_mem_nil, or_false] at hx
      rcases hx with rfl | rfl | rfl | rfl | rfl <;> first | rfl | exact absurd rfl hput
  | @count vote =>
    exact .inl ⟨[.write (.appendConsensusWal (.voteRecorded vote.height vote.round vote.step
      vote.blockHash vote.validatorAddress))], rfl, List.forall_mem_singleton.mpr ⟨trivial, rfl⟩⟩
  | report | lock =>
    refine .inl ⟨_, rfl, fun x hx => Calendar.spares_of_leavesStake _ ?_⟩
    simp only [List.mem_cons, List.not_mem_nil, or_false] at hx
    rcases hx with rfl | rfl <;> rfl
  | finalize _ _ _ hcommits hsettles => exact .inr ⟨_, _, _, hcommits, hsettles⟩
  | stall _ _ _ hcommits => exact .inr ⟨_, _, _, hcommits, .none _⟩
  | adopt _ _ _ hcommits => exact .inr ⟨_, _, _, hcommits, .none _⟩

lemma KeepsCalendar.move (h : e.KeepsCalendar start w.disk) (hbuilds : config.Builds e)
    (hmove : e.Move w₀ event w w') : e.KeepsCalendar start w'.disk := by
  rcases h.move_cases hmove with ⟨es, heq, hes⟩ | ⟨f, d₁, items, hcommits, hsettles⟩
  · rw [heq]
    exact h.spare hes
  · have h₁ := h.commits hbuilds hcommits
    obtain ⟨es, heq, hes⟩ := h₁.settles_effects hsettles
    rw [heq]
    exact h₁.spare hes

/-- **An event** that commits no block does what the calendar allows, wherever it stops. -/
lemma KeepsCalendar.effectsOf_spare (h : e.KeepsCalendar start w.disk) (hbuilds : config.Builds e)
    (hnone : ∀ x ∈ e.effectsOf w event, x.commits = none) :
    ∀ x ∈ e.effectsOf w event, (e.calendar start w.disk).Spares x := by
  have hends : e.KeepsCalendar start (e.handle w event).disk ∧
      ∃ es, (e.handle w event).disk = w.disk.recordAll es ∧
        ((∀ x ∈ es, x.commits = none) → ∀ x ∈ es, (e.calendar start w.disk).Spares x) := by
    refine invariant_of_moves (fun w' => e.KeepsCalendar start w'.disk ∧
      ∃ es, w'.disk = w.disk.recordAll es ∧
        ((∀ x ∈ es, x.commits = none) → ∀ x ∈ es, (e.calendar start w.disk).Spares x))
      ⟨h, [], rfl, fun _ => List.forall_mem_nil _⟩ ?_
    rintro w₁ w₂ ⟨h₁, es, heq, hes⟩ hmove
    refine ⟨h₁.move hbuilds hmove, ?_⟩
    rcases h₁.move_cases hmove with ⟨es', heq', hes'⟩ | ⟨f, d₁, items, hcommits, hsettles⟩
    · refine ⟨es ++ es', by rw [heq', heq, Disk.recordAll_append], fun hbare => ?_⟩
      have hold := fun x hx => hbare x (List.mem_append_left _ hx)
      rw [heq, calendar_recordAll hold] at hes'
      exact fun x hx => (List.mem_append.mp hx).elim (hes hold x) (hes' x)
    · -- A move that commits a block has it among its effects.
      obtain ⟨es', rfl, hblock, -⟩ := hcommits.effects
      obtain ⟨es'', heq'', -⟩ := (h₁.commits hbuilds hcommits).settles_effects hsettles
      refine ⟨es ++ (es' ++ es''), ?_, fun hbare => ?_⟩
      · rw [heq'', heq, Disk.recordAll_append, Disk.recordAll_append]
      · have hempty : es'.filterMap Effect.commits = [] := List.filterMap_eq_nil_iff.mpr
          fun x hx => hbare x (List.mem_append_right _ (List.mem_append_left _ hx))
        rw [hblock] at hempty
        cases hempty
  obtain ⟨-, es, heq, hes⟩ := hends
  have heffects : e.effectsOf w event = es := by
    rw [effectsOf, heq, Disk.journal_recordAll, List.drop_left]
  rw [heffects] at hnone ⊢
  exact hes hnone

/-! ## Requests and starts -/

/-- **A request** leaves the calendar as it is, or commits a block with its accounting. -/
lemma KeepsCalendar.serve (h : e.KeepsCalendar start d) (hbuilds : config.Builds e) (n : Node)
    (event : NodeEvent) :
    e.KeepsCalendar start ({ n with disk := d }.handle config event).disk := by
  have heconomics : config.engine.economics = some e.economics := by
    rw [hbuilds.economics]
    rfl
  have hfailed : ∀ {d'}, OnlyEvmWrites d d' → e.KeepsCalendar start d' := by
    intro d' honly
    obtain ⟨es, hes, rfl⟩ := honly.quiet
    exact h.spare fun x hx =>
      Calendar.spares_of_leavesStake _ (Effect.leavesStake_of_isQuiet (hes x hx))
  by_cases himported : ∃ f, event = .imported f
  · obtain ⟨f, rfl⟩ := himported
    show e.KeepsCalendar start (Handler.final
      (config.engine.validateAndCommitFinalizedBlock config.scheme f d))
    rcases hrun : config.engine.validateAndCommitFinalizedBlock config.scheme f d with
      ⟨⟨⟩, d'⟩ | ⟨err, d'⟩
    · obtain ⟨p, d₁, hprepares, -, -, rfl⟩ := validateAndCommit_ok_iff.mp hrun
      exact h.replay heconomics hprepares (List.forall_mem_nil _) (.inr rfl)
    · exact hfailed (onlyEvmWrites_of_error hrun)
  by_cases hfinalized : ∃ block certificate, event = .finalized block certificate
  · obtain ⟨block, certificate, rfl⟩ := hfinalized
    show e.KeepsCalendar start (Handler.final
      (executeAndCommit config.engine config.scheme block certificate d))
    rcases hrun : executeAndCommit config.engine config.scheme block certificate d with
      ⟨⟨⟩, d'⟩ | ⟨err, d'⟩
    · rw [executeAndCommit] at hrun
      obtain ⟨r, d₂, hexecute, hcommit⟩ := Handler.bind_eq_ok_iff.mp hrun
      obtain ⟨p, d₁, hprepares, rfl, rfl⟩ := executeBlock_ok_iff.mp hexecute
      cases hcommit
      set f : FinalizedBlock := { block, certificate, receipts := p.receipts
                                  epochTransition := p.accounting.epochTransition }
      have hkeeps : e.KeepsCalendar start (d₁.recordAll
          (accountingWrites p ++ ([] ++ [.write (.atomicCommitBlock f p.state)]))) :=
        h.replay heconomics hprepares (List.forall_mem_nil _) (.inl rfl)
      rwa [Disk.recordAll_append] at hkeeps
    · exact hfailed (onlyEvmWrites_of_executeAndCommit_error hrun)
  rcases Node.request_cases config { n with disk := d } (fun f hf => himported ⟨f, hf⟩)
    (fun block certificate hf => hfinalized ⟨block, certificate, hf⟩) with
    ⟨es, hes, heq⟩ | ⟨request, address, staking, -, hdelegate, heq⟩
  · rw [heq]
    exact h.spare fun x hx => Calendar.spares_of_leavesStake _ (hes x hx)
  · have hdate := StakingSnapshot.sameDate_delegate hdelegate
    have hbonded : e.KeepsCalendar start (d.recordAll [.write (.putStakingState staking)]) :=
      h.spare (List.forall_mem_singleton.mpr (h.stake hdate))
    rw [heq]
    exact hbonded

omit [Revm] in
/-- **A start** stores the parameters that it has read, and bonds. -/
lemma KeepsCalendar.bootstrap (h : e.KeepsCalendar start d) (hbuilds : config.Builds e) :
    e.KeepsCalendar start (Handler.final (bootstrapGenesis config.genesis true d)) := by
  have hgovernance : (e.calendar start d).Spares
      (.write (.putGovernanceState
        (GovernanceSnapshot.load d.store config.genesis.economics))) := by
    refine ⟨?_, rfl⟩
    show GovernanceSnapshot.load d.store config.genesis.economics = _
    rw [← hbuilds.economics]
    exact h.governance
  rw [bootstrapGenesis_run]
  rcases hbond : bondValidators config.genesis config.genesis.validators
    ((StakingSnapshot.load d.store).ensureValidators config.genesis.validators) with err | staking
  · have hread : e.KeepsCalendar start (d.recordAll [.write (.putGovernanceState
        (GovernanceSnapshot.load d.store config.genesis.economics))]) :=
      h.spare (List.forall_mem_singleton.mpr hgovernance)
    exact hread
  · have hdate : (StakingSnapshot.load d.store).SameDate staking :=
      (StakingSnapshot.keptByBonds_sameDate _).bondValidators hbond ⟨rfl, rfl⟩
    have hbonded : e.KeepsCalendar start (d.recordAll [.write (.putGovernanceState
        (GovernanceSnapshot.load d.store config.genesis.economics)),
        .write (.putStakingState staking)]) :=
      h.spare (List.forall_mem_cons.mpr
        ⟨hgovernance, List.forall_mem_singleton.mpr (h.stake hdate)⟩)
    exact hbonded

/-- The process stops between two events, or while it handles one that commits no block. -/
def Orderly (e : ConsensusEngine) (w : World) : NodeAction → Prop
  | .restart event effects => effects = 0 ∨ ∀ x ∈ e.effectsOf w event, x.commits = none
  | _ => True

/-- **An action** keeps the calendar that of the blocks. -/
lemma KeepsCalendar.act (h : e.KeepsCalendar start w.disk) (hbuilds : config.Builds e)
    {action : NodeAction} (horderly : e.Orderly w action) :
    e.KeepsCalendar start (e.act config w action).disk := by
  cases action with
  | handle event =>
    exact invariant_of_moves (fun w => e.KeepsCalendar start w.disk) h
      fun _ _ hw hmove => hw.move hbuilds hmove
  | serve n event => exact h.serve hbuilds n event
  | restart event effects =>
    have hstopped : e.KeepsCalendar start (e.crashDisk w event effects) := by
      rcases horderly with rfl | hnone
      · exact h
      · exact h.spare fun x hx => h.effectsOf_spare hbuilds hnone x (List.mem_of_mem_take hx)
    exact hstopped.bootstrap hbuilds

end

end ConsensusEngine

/-! ## Runs -/

/-- No block has been committed, and no transition stored. -/
structure Disk.Undated (d : Disk) : Prop where
  committed : d.committed = []
  transitions : d.store.epochTransitions = ∅
  latest : d.store.epochLatest = none
  epoch : (StakingSnapshot.load d.store).epoch ≤ maxValue 64
  treasury : (StakingSnapshot.load d.store).treasuryBalance ≤ maxValue 128

/-- The calendar of a store, from which on transitions are counted. -/
def Store.calendar (economics : EconomicsParams) (store : Store) : Calendar where
  epoch := (StakingSnapshot.load store).epoch
  treasury := (StakingSnapshot.load store).treasuryBalance
  governance := GovernanceSnapshot.load store economics

lemma Disk.Undated.fits {d : Disk} (h : d.Undated) (economics : EconomicsParams) :
    (d.store.calendar economics).Fits :=
  ⟨h.epoch, h.treasury, List.forall_mem_nil _, .nil⟩

lemma Disk.Undated.keepsCalendar {d : Disk} (h : d.Undated) (e : ConsensusEngine) :
    e.KeepsCalendar (d.store.calendar e.economics) d := by
  rw [ConsensusEngine.KeepsCalendar, ConsensusEngine.calendar, h.committed]
  refine ⟨rfl, rfl, rfl, fun n => ?_, ?_⟩
  · rw [h.transitions, Std.ExtTreeMap.getElem?_empty]
    rfl
  · rw [h.latest]
    rfl

section

variable [Hashing] [Revm] {config : NodeConfig} {e : ConsensusEngine} {start : Disk} {w : World}

/-- **Epochs follow the chain.**  Whatever events a node handles, whatever requests it serves and
however often it starts again, staking and governance have the calendar of the committed blocks:
the epoch counts the blocks that close one, the treasury adds up its share of their fees, and every
transition is stored under its number, the last one as the latest. -/
theorem epochs_follow_chain (hbuilds : config.Builds e) (hstart : start.Undated)
    (hrun : e.Operates config e.Orderly (World.boot start) w) :
    let blocks := w.disk.committed.map (·.block)
    let calendar := (start.store.calendar e.economics).afterAll e.economics blocks
    calendar.Of e.economics w.disk.store ∧
    w.disk.store.latestEpochTransition.map EpochTransition.opening = calendar.openings.getLast? ∧
    (StakingSnapshot.load w.disk.store).epoch = min ((StakingSnapshot.load start.store).epoch +
      blocks.countP fun b => ClosesEpoch e.economics b.header.height) (maxValue 64) ∧
    (StakingSnapshot.load w.disk.store).treasuryBalance =
      min ((StakingSnapshot.load start.store).treasuryBalance + (blocks.map fun b =>
        treasuryCut e.economics (collectedFees b.transactions 0)).sum) (maxValue 128) := by
  intro blocks calendar
  have hkeeps : e.KeepsCalendar (start.store.calendar e.economics) w.disk :=
    ConsensusEngine.invariant_of_operates
      (fun w => e.KeepsCalendar (start.store.calendar e.economics) w.disk) (hstart.keepsCalendar e)
      (fun _ _ horderly hw => hw.act hbuilds horderly) hrun
  have hfits := hstart.fits e.economics
  exact ⟨hkeeps, hkeeps.latestEpochTransition (hfits.afterAll blocks),
    hkeeps.epoch.trans (Calendar.epoch_afterAll hfits.epoch),
    hkeeps.treasury.trans (Calendar.treasury_afterAll hfits.treasury)⟩

end

/-! ## A crash in the second epoch -/

section

open Transparent ConsensusEngine

/-- The node has finalized the first block, stops when it has noted the author of a late vote, and
starts again. -/
def dailyRestart : World :=
  dailyEngine.act dailyNode dailyWorld (.restart (dailyPrecommit [3]) 2)

lemma undated_dailyDisk : dailyDisk.Undated :=
  ⟨rfl, rfl, rfl, by decide +kernel, by decide +kernel⟩

lemma dailyRestart_run :
    dailyEngine.Operates dailyNode dailyEngine.Orderly (World.boot dailyDisk) dailyRestart := by
  have hrun : dailyEngine.Operates dailyNode dailyEngine.Orderly (World.boot dailyDisk)
      dailyWorld := by
    have hsigned : ∀ a, firstSigned a 1 := fun _ => rfl
    refine Relation.ReflTransGen.mono ?_ _ _ (run_dailyEvents hsigned)
    rintro w₁ _ ⟨event, -, rfl⟩
    exact ⟨.handle event, trivial, rfl⟩
  have hnone : ∀ x ∈ dailyEngine.effectsOf dailyWorld (dailyPrecommit [3]), x.commits = none := by
    decide +kernel
  exact hrun.tail ⟨.restart (dailyPrecommit [3]) 2, Or.inr hnone, rfl⟩

/-- The late vote leaves the second epoch as the block has begun it. -/
theorem dailyRestart_follows_chain :
    (StakingSnapshot.load dailyRestart.disk.store).epoch = 1 ∧
      dailyRestart.disk.store.latestEpochTransition.map EpochTransition.opening =
        some ⟨1, 1, dailyNode.genesis.economics⟩ := by
  have hblocks : dailyRestart.disk.committed.map (·.block) = [dailyBlock] := by decide +kernel
  obtain ⟨-, hlatest, hepoch, -⟩ :=
    epochs_follow_chain builds_dailyNode undated_dailyDisk dailyRestart_run
  rw [hblocks] at hlatest hepoch
  refine ⟨hepoch.trans (by decide +kernel), hlatest.trans (by decide +kernel)⟩

end

end ZenoChain
