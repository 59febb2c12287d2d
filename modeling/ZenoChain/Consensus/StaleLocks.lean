/-
# Locks that outlive their round

A validator may prevote for the block on which it is locked, but a block carries the number of
its round, in its header and so in its hash, and a proposal is only accepted in the round of its
header.  So once the round of a lock is over, no proposal is ever the locked block again.
-/
import ZenoChain.Consensus.Log
import ZenoChain.Consensus.Restart

namespace ZenoChain

open Word

/-- The block of a lock record belongs to the round of the lock. -/
def ConsensusWalEntry.IsStamped : ConsensusWalEntry → Prop
  | locked _ round _ block | polkaObserved _ round _ block => block.header.round = round
  | _ => True

/-- The effect logs no lock, or one whose block belongs to its round. -/
def Effect.IsStamped : Effect → Prop
  | .write (.appendConsensusWal entry) => entry.IsStamped
  | _ => True

/-- The proposal belongs to the round, and the blocks of the locks to the rounds of the locks. -/
structure RoundState.IsStamped (s : RoundState) : Prop where
  proposal : ∀ block ∈ s.proposal, block.header.round = s.round
  locked : s.lockedRound = s.lockedBlock.map fun block => block.header.round
  valid : s.validRound = s.validBlock.map fun block => block.header.round

/-- Everything in memory, in the log and in the journal is stamped. -/
structure World.IsStamped (w : World) : Prop where
  state : w.state.IsStamped
  log : ∀ entry ∈ w.disk.store.loadConsensusWal, entry.IsStamped
  journal : ∀ x ∈ w.disk.journal, Effect.IsStamped x

/-- The hash that the locking rule lets a validator prevote for in a round in which a block is
proposed, with the locks as they are. -/
def RoundState.prevoteOn [Hashing] (s : RoundState) (round : ℕ) (block : Block) : Hash32 :=
  { s with round, proposal := some block }.prevoteChoice

lemma Effect.isStamped_of_isQuiet {x : Effect} (h : x.isQuiet) : x.IsStamped := by
  unfold IsStamped
  split
  · rename_i entry
    cases entry <;> trivial
  · trivial

lemma Effect.isStamped_of_isAccounting {x : Effect} (h : x.IsAccounting) : x.IsStamped := by
  cases h <;> trivial

/-- The locks of a state decide whether it is stamped, as far as they go. -/
lemma RoundState.IsStamped.congr {s s' : RoundState} (h : s.IsStamped)
    (hproposal : ∀ block ∈ s'.proposal, block.header.round = s'.round)
    (hlocks : s'.locks = s.locks) : s'.IsStamped := by
  obtain ⟨hlocked, hvalid⟩ := Prod.mk.inj hlocks
  obtain ⟨h₁, h₂⟩ := Prod.mk.inj hlocked
  obtain ⟨h₃, h₄⟩ := Prod.mk.inj hvalid
  exact ⟨hproposal, by rw [h₁, h₂, h.locked], by rw [h₃, h₄, h.valid]⟩

lemma RoundState.isStamped_toHeight (s : RoundState) (n : ℕ) : (s.toHeight n).IsStamped :=
  ⟨nofun, rfl, rfl⟩

/-! ## Stamps along a run -/

section

variable [Hashing] [Revm] {e : ConsensusEngine}

lemma Commits.isStamped {f : FinalizedBlock} {d d' : Disk} (h : Commits e f d d') :
    ∃ es, d' = d.recordAll es ∧ ∀ x ∈ es, Effect.IsStamped x := by
  obtain ⟨es, rfl, -, hes⟩ := h.effects
  refine ⟨es, rfl, fun x hx => ?_⟩
  rcases hes x hx with hquiet | haccounting | ⟨state, rfl⟩
  · exact Effect.isStamped_of_isQuiet hquiet
  · exact Effect.isStamped_of_isAccounting haccounting
  · trivial

omit [Revm] in
lemma Settles.isStamped {items : List Evidence} {d d' : Disk} (h : Settles e items d d') :
    ∃ es, d' = d.recordAll es ∧ ∀ x ∈ es, Effect.IsStamped x := by
  cases h with
  | none => exact ⟨[], rfl, nofun⟩
  | some => exact ⟨_, rfl, List.forall_mem_cons.mpr ⟨trivial, List.forall_mem_singleton.mpr trivial⟩⟩

end

namespace ConsensusEngine

variable [Hashing] [Revm] {e : ConsensusEngine} {w₀ w w' : World} {event : Event}

/-- A move of a stamped world has stamped effects and leaves the state stamped. -/
lemma Move.isStamped (hstate : w.state.IsStamped) (h : e.Move w₀ event w w') :
    w'.state.IsStamped ∧ ∃ es, w'.disk = w.disk.recordAll es ∧ ∀ x ∈ es, Effect.IsStamped x := by
  cases h with
  | quiet hquiet => exact ⟨hstate, _, rfl, fun x hx => Effect.isStamped_of_isQuiet (hquiet x hx)⟩
  | note => exact ⟨hstate, _, rfl, by simp [Effect.IsStamped]⟩
  | accept _ _ hround =>
    refine ⟨hstate.congr ?_ rfl, [], rfl, List.forall_mem_nil _⟩
    rintro _ ⟨⟩
    exact hround
  | @accuse item =>
    obtain ⟨processed, evidence, hitem⟩ := w.state.addEvidence_eq item
    refine ⟨?_, [.write (.appendConsensusWal (.evidenceRecorded item.height item.round
      item.validatorAddress item.reason))], rfl, List.forall_mem_singleton.mpr trivial⟩
    rw [World.accuse, hitem]
    exact hstate.congr hstate.proposal rfl
  | @cast vote =>
    obtain ⟨prevoted, precommitted, hmark⟩ := w.state.markCast_eq vote.step
    refine ⟨?_, _, rfl, ?_⟩
    · rw [World.cast, hmark]
      exact hstate.congr hstate.proposal rfl
    · simp [World.castEffects, Effect.IsStamped, ConsensusWalEntry.IsStamped]
  | @count vote =>
    obtain ⟨prevotes, precommits, hcount⟩ := w.state.count_eq vote
    refine ⟨?_, [.write (.appendConsensusWal (.voteRecorded vote.height vote.round vote.step
      vote.blockHash vote.validatorAddress))], rfl, List.forall_mem_singleton.mpr trivial⟩
    rw [World.count, hcount]
    exact hstate.congr hstate.proposal rfl
  | report => exact ⟨hstate, _, rfl, List.forall_mem_singleton.mpr trivial⟩
  | @lock block hheld =>
    -- The lock is taken on the proposal, which belongs to the current round.
    have hround := hstate.proposal block hheld
    refine ⟨⟨hstate.proposal, ?_, ?_⟩, _, rfl, ?_⟩
    · exact congrArg some hround.symm
    · exact congrArg some hround.symm
    · exact List.forall_mem_cons.mpr ⟨hround, List.forall_mem_singleton.mpr hround⟩
  | finalize _ _ _ hcommits hsettles =>
    obtain ⟨es, rfl, hes⟩ := hcommits.isStamped
    obtain ⟨es', rfl, hes'⟩ := hsettles.isStamped
    refine ⟨RoundState.isStamped_toHeight _ _, es ++ es', (Disk.recordAll_append _ _ _).symm, ?_⟩
    exact fun x hx => (List.mem_append.mp hx).elim (hes x) (hes' x)
  | stall _ _ _ hcommits => exact ⟨hstate.congr hstate.proposal rfl, hcommits.isStamped⟩
  | adopt _ _ _ hcommits => exact ⟨RoundState.isStamped_toHeight _ _, hcommits.isStamped⟩
  | nextRound => exact ⟨hstate.congr (fun _ h => by cases h) rfl, [], rfl, List.forall_mem_nil _⟩

omit [Revm] in
/-- Stamped effects keep the log and the journal stamped. -/
lemma isStamped_recordAll (h : w.IsStamped) {es : List Effect} (hes : ∀ x ∈ es, Effect.IsStamped x) :
    (∀ entry ∈ (w.disk.recordAll es).store.loadConsensusWal, entry.IsStamped) ∧
    ∀ x ∈ (w.disk.recordAll es).journal, Effect.IsStamped x := by
  constructor
  · intro entry hentry
    rcases Disk.mem_log_recordAll hentry with hbefore | happended
    · exact h.log entry hbefore
    · exact hes _ happended
  · rw [Disk.journal_recordAll]
    exact fun x hx => (List.mem_append.mp hx).elim (h.journal x) (hes x)

lemma isStamped_of_move (h : w.IsStamped) (hmove : e.Move w₀ event w w') : w'.IsStamped := by
  obtain ⟨hstate, es, hdisk, hes⟩ := hmove.isStamped h.state
  obtain ⟨hlog, hjournal⟩ := isStamped_recordAll h hes
  exact ⟨hstate, hdisk ▸ hlog, hdisk ▸ hjournal⟩

omit [Hashing] [Revm] in
/-- What is recovered from a stamped log is stamped. -/
lemma isStamped_boot {d : Disk} (hlog : ∀ entry ∈ d.store.loadConsensusWal, entry.IsStamped)
    (hjournal : ∀ x ∈ d.journal, Effect.IsStamped x) : (World.boot d).IsStamped := by
  have key : ∀ (wal : List ConsensusWalEntry) (r : RecoveredState),
      (∀ entry ∈ wal, entry.IsStamped) →
      r.lockedRound = r.lockedBlock.map (fun block => block.header.round) →
      r.validRound = r.validBlock.map (fun block => block.header.round) →
      (wal.foldl RecoveredState.replay r).lockedRound =
        (wal.foldl RecoveredState.replay r).lockedBlock.map (fun block => block.header.round) ∧
      (wal.foldl RecoveredState.replay r).validRound =
        (wal.foldl RecoveredState.replay r).validBlock.map (fun block => block.header.round) := by
    intro wal
    induction wal with
    | nil => exact fun r _ hlocked hvalid => ⟨hlocked, hvalid⟩
    | cons entry wal ih =>
      intro r hwal hlocked hvalid
      obtain ⟨hentry, hrest⟩ := List.forall_mem_cons.mp hwal
      rw [List.foldl_cons]
      refine ih _ hrest ?_ ?_
      all_goals
        cases entry with
        | heightAdvanced n =>
          rw [RecoveredState.replay, RecoveredState.toHeight]
          split <;> first | rfl | assumption
        | commitFinalized =>
          rw [RecoveredState.replay, RecoveredState.toHeight]
          split <;> first | rfl | assumption
        | locked =>
          rw [RecoveredState.replay]
          split <;> first | assumption | exact congrArg some (Eq.symm hentry)
        | polkaObserved =>
          rw [RecoveredState.replay]
          split <;> first | assumption | exact congrArg some (Eq.symm hentry)
        | snapshotPersisted =>
          rw [RecoveredState.replay]
          split <;> assumption
        | roundAdvanced =>
          rw [RecoveredState.replay]
          split <;> assumption
        | _ => assumption
  obtain ⟨hlocked, hvalid⟩ := key d.store.loadConsensusWal
    { height := d.store.startSnapshot.height, round := d.store.startSnapshot.round } hlog rfl rfl
  exact ⟨⟨fun _ h => (by cases h), hlocked, hvalid⟩, hlog, hjournal⟩

/-- One step of a process: it handles an event, or it is stopped while it handles one, after any
number of effects, and starts again. -/
inductive Goes (e : ConsensusEngine) (w : World) : World → Prop
  | handle (event : Event) : Goes e w (e.handle w event)
  | restart (event : Event) (k : ℕ) : Goes e w (World.boot (e.crashDisk w event k))

lemma isStamped_of_goes (h : w.IsStamped) (hgoes : e.Goes w w') : w'.IsStamped := by
  have hhandle : ∀ event, (e.handle w event).IsStamped := fun event =>
    invariant_of_moves World.IsStamped h fun _ _ hw hmove => isStamped_of_move hw hmove
  cases hgoes with
  | handle event => exact hhandle event
  | restart event k =>
    have hes : ∀ x ∈ (e.effectsOf w event).take k, Effect.IsStamped x := fun x hx =>
      (hhandle event).journal x (List.mem_of_mem_drop ((List.take_sublist k _).subset hx))
    obtain ⟨hlog, hjournal⟩ := isStamped_recordAll h hes
    exact isStamped_boot hlog hjournal

/-- A process that starts on a fresh store stays stamped, wherever it is stopped. -/
lemma isStamped_of_reaches {d : Disk} (hjournal : d.journal = [])
    (hlog : d.store.consensusWal = ∅) (hgoes : Relation.ReflTransGen e.Goes (World.boot d) w) :
    w.IsStamped := by
  induction hgoes with
  | refl =>
    refine isStamped_boot (fun entry hentry => ?_) (by rw [hjournal]; exact nofun)
    rw [Store.loadConsensusWal, hlog, Table.mem_values_iff] at hentry
    obtain ⟨k, hk⟩ := hentry
    rw [Std.ExtTreeMap.getElem?_empty] at hk
    cases hk
  | tail _ hstep ih => exact isStamped_of_goes ih hstep

/-! ## Proposals in later rounds -/

omit [Revm] in
/-- A proposal is accepted for a height and a round, on some store. -/
def Acceptable (e : ConsensusEngine) (height round : ℕ) (p : Proposal) : Prop :=
  p.height = height ∧ p.round = round ∧ ∃ store, e.validateProposal store p = .ok ()

omit [Revm] in
/-- A block has the hash of the locked or the valid block only if it is that block. -/
def NoCollision (s : RoundState) (block : Block) : Prop :=
  ∀ held, held ∈ s.lockedBlock ∨ held ∈ s.validBlock → held.hash = block.hash → held = block

omit [Revm] in
/-- In a round that is neither that of the lock nor that of the valid block, every proposal that
is accepted gets a prevote for nothing. -/
lemma prevoteOn_eq_nilHash {s : RoundState} (hs : s.IsStamped) {round height : ℕ} {p : Proposal}
    (hlock : s.lockedRound.isSome) (hlocked : s.lockedRound ≠ some round)
    (hvalid : s.validRound ≠ some round) (hacceptable : e.Acceptable height round p)
    (hfree : NoCollision s p.block) : s.prevoteOn round p.block = nilHash := by
  obtain ⟨-, hround, store, haccepted⟩ := hacceptable
  obtain ⟨_, _, haccepts⟩ := validateProposal_ok haccepted
  have hheader : p.block.header.round = round := haccepts.round.trans hround
  rw [hs.locked] at hlock hlocked
  rw [hs.valid] at hvalid
  -- Neither of the two blocks is the proposed one: their headers name other rounds.
  have hdiffers : ∀ held, held ∈ s.lockedBlock ∨ held ∈ s.validBlock → held.hash ≠ p.block.hash := by
    intro held hheld heq
    obtain rfl := hfree held hheld heq
    rcases hheld with hheld | hheld
    · exact hlocked (by rw [hheld, Option.map_some, hheader])
    · exact hvalid (by rw [hheld, Option.map_some, hheader])
  rcases hblock : s.lockedBlock with _ | locked
  · rw [hblock] at hlock
    cases hlock
  have hunequal := hdiffers locked (.inl hblock)
  have hunfreed : ¬ (s.validBlock.any (fun block => block.hash = p.block.hash) = true ∧
      roundLe s.lockedRound s.validRound = true) := by
    rintro ⟨hany, -⟩
    rcases hheld : s.validBlock with _ | held
    · rw [hheld] at hany
      cases hany
    · rw [hheld, Option.any_some, decide_eq_true_eq] at hany
      exact hdiffers held (.inr hheld) hany
  simp only [RoundState.prevoteOn, RoundState.prevoteChoice, hblock, if_neg hunequal, if_neg hunfreed]

/-- **A lock condemns its holder to nil.**  In every state that a process reaches from a fresh
store, with stops and restarts at any point, once a validator is locked there is no later round
of the height, except possibly that of its valid block, in which a proposal that is accepted
gets its prevote; so it is never true that every later round has such a proposal. -/
theorem lock_condemns {d : Disk} (hjournal : d.journal = []) (hlog : d.store.consensusWal = ∅)
    (hgoes : Relation.ReflTransGen e.Goes (World.boot d) w) {round : ℕ}
    (hlocked : w.state.lockedRound = some round) :
    (∀ later p, round < later → w.state.validRound ≠ some later →
      e.Acceptable w.state.height later p → NoCollision w.state p.block →
      w.state.prevoteOn later p.block = nilHash) ∧
    (round + 2 < 2 ^ 32 → ¬ ∀ later, round < later → later < 2 ^ 32 →
      ∃ p, e.Acceptable w.state.height later p ∧ NoCollision w.state p.block ∧
        w.state.prevoteOn later p.block ≠ nilHash) := by
  have hstamped : w.IsStamped := isStamped_of_reaches hjournal hlog hgoes
  have hnil : ∀ later p, round < later → w.state.validRound ≠ some later →
      e.Acceptable w.state.height later p → NoCollision w.state p.block →
      w.state.prevoteOn later p.block = nilHash := by
    intro later p hlater hvalid hacceptable hfree
    refine prevoteOn_eq_nilHash hstamped.state (hlocked ▸ rfl) ?_ hvalid hacceptable hfree
    rw [hlocked]
    exact fun h => hlater.ne (Option.some.inj h)
  refine ⟨hnil, fun hroom hall => ?_⟩
  -- One of the two next rounds is not that of the valid block.
  obtain ⟨later, hlater, hrange, hvalid⟩ :
      ∃ later, round < later ∧ later < 2 ^ 32 ∧ w.state.validRound ≠ some later := by
    by_cases hnext : w.state.validRound = some (round + 1)
    · refine ⟨round + 2, by omega, hroom, ?_⟩
      rw [hnext]
      simp
    · exact ⟨round + 1, by omega, by omega, hnext⟩
  obtain ⟨p, hacceptable, hfree, hne⟩ := hall later hlater hrange
  exact hne (hnil later p hlater hvalid hacceptable hfree)

end ConsensusEngine

/-! ## A lock in the first round -/

section

open Transparent ConsensusEngine

/-- A validator gets a proposal and the prevotes of two others for it. -/
def lockingEvents : List Event :=
  let blockHash := (emptyProposal [2] 0).block.hash
  [.proposal (emptyProposal [2] 0), .vote (Transparent.castVote [2] 1 0 .prevote blockHash),
   .vote (Transparent.castVote [3] 1 0 .prevote blockHash)]

/-- The validator after these events. -/
def lockedWorld : World := lockingEvents.foldl (engineOf [1]).handle (World.boot blank)

lemma reaches_lockedWorld : Relation.ReflTransGen (engineOf [1]).Goes (World.boot blank) lockedWorld :=
  .tail (.tail (.single (.handle _)) (.handle _)) (.handle _)

lemma lockedWorld_locks :
    lockedWorld.state.height = 1 ∧ lockedWorld.state.lockedRound = some 0 ∧
      lockedWorld.state.validRound = some 0 := by
  decide +kernel

/-- It is locked, and every proposal that is accepted in a later round gets a prevote for
nothing. -/
theorem lockedWorld_condemned :
    Relation.ReflTransGen (engineOf [1]).Goes (World.boot blank) lockedWorld ∧
    lockedWorld.state.lockedRound = some 0 ∧
    ∀ later p, 0 < later → (engineOf [1]).Acceptable 1 later p →
      NoCollision lockedWorld.state p.block → lockedWorld.state.prevoteOn later p.block = nilHash := by
  obtain ⟨-, hlocked, hvalid⟩ := lockedWorld_locks
  refine ⟨reaches_lockedWorld, hlocked, fun later p hlater hacceptable hfree => ?_⟩
  have hstamped : lockedWorld.IsStamped := isStamped_of_reaches rfl rfl reaches_lockedWorld
  have hother : ∀ r : ℕ, r = 0 → some r ≠ some later := fun r hr h =>
    hlater.ne (hr.symm.trans (Option.some.inj h))
  refine prevoteOn_eq_nilHash hstamped.state (hlocked ▸ rfl) ?_ ?_ hacceptable hfree
  · exact hlocked ▸ hother 0 rfl
  · exact hvalid ▸ hother 0 rfl

/-- The general fact for that lock. -/
theorem lock_condemns_lockedWorld : ¬ ∀ later, 0 < later → later < 2 ^ 32 →
    ∃ p, (engineOf [1]).Acceptable lockedWorld.state.height later p ∧
      NoCollision lockedWorld.state p.block ∧
      lockedWorld.state.prevoteOn later p.block ≠ nilHash :=
  (lock_condemns (d := blank) rfl rfl reaches_lockedWorld lockedWorld_locks.2.1).2 (by decide)

end

end ZenoChain
