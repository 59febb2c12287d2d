/-
# Evidence across restarts

Evidence is logged when it is recorded, and applied to the staking state when the node finalizes a
block.  What waits to be applied is kept in memory only, and recovery does not read it back from the
log, so a crash forgets it.  As long as no crash comes while evidence waits, everything that has
been logged is applied with the next finalization, and it is applied once.
-/
import ZenoChain.Consensus.CrashPoints
import ZenoChain.Consensus.Ordinary
import ZenoChain.Consensus.Tallies
import ZenoChain.Node.Actions
import ZenoChain.State.Penalties

namespace ZenoChain

open Word Handler

/-! ## Charges and batches -/

/-- The validator, the height and the round that evidence is about. -/
def Evidence.key (item : Evidence) : Address × ℕ × ℕ :=
  (item.validatorAddress, item.height, item.round)

/-- The validator, the height and the round for which an effect logs evidence. -/
def Effect.charge : Effect → Option (Address × ℕ × ℕ)
  | .write (.appendConsensusWal (.evidenceRecorded height round a _)) => some (a, height, round)
  | _ => none

/-- The evidence that is about to be applied to the staking state. -/
def Effect.batch : Effect → Option (List Evidence)
  | .observe (.punished items) => some items
  | _ => none

/-- The validators, heights and rounds for which evidence has been logged, oldest first. -/
def charges (journal : List Effect) : List (Address × ℕ × ℕ) := journal.filterMap Effect.charge

/-- The batches of evidence that have been applied, oldest first. -/
def batches (journal : List Effect) : List (List Evidence) := journal.filterMap Effect.batch

/-- The evidence that has been applied. -/
def applied (journal : List Effect) : List Evidence := (batches journal).flatten

@[simp] lemma charges_append (journal es : List Effect) :
    charges (journal ++ es) = charges journal ++ charges es := List.filterMap_append

@[simp] lemma batches_append (journal es : List Effect) :
    batches (journal ++ es) = batches journal ++ batches es := List.filterMap_append

@[simp] lemma applied_append (journal es : List Effect) :
    applied (journal ++ es) = applied journal ++ applied es := by
  rw [applied, batches_append, List.flatten_append]
  rfl

/-- The effect neither logs evidence nor applies it. -/
structure Effect.Calm (x : Effect) : Prop where
  charge : x.charge = none
  batch : x.batch = none

lemma Effect.calm_of_isQuiet {x : Effect} (h : x.isQuiet) : x.Calm := by
  constructor
  · unfold charge
    split
    · cases h
    · rfl
  · unfold batch
    split
    · cases h
    · rfl

lemma Effect.calm_of_isOrdinary {x : Effect} (h : x.isOrdinary) : x.Calm := by
  constructor
  · unfold charge
    split
    · cases h
    · rfl
  · unfold batch
    split
    · cases h
    · rfl

lemma Effect.calm_of_isAccounting {x : Effect} (h : x.IsAccounting) : x.Calm :=
  calm_of_isOrdinary h.ordinary

lemma charges_calm {es : List Effect} (h : ∀ x ∈ es, Effect.Calm x) : charges es = [] :=
  List.filterMap_eq_nil_iff.mpr fun x hx => (h x hx).charge

lemma batches_calm {es : List Effect} (h : ∀ x ∈ es, Effect.Calm x) : batches es = [] :=
  List.filterMap_eq_nil_iff.mpr fun x hx => (h x hx).batch

lemma applied_calm {es : List Effect} (h : ∀ x ∈ es, Effect.Calm x) : applied es = [] := by
  rw [applied, batches_calm h]
  rfl

/-! ## What is applied before a block is announced -/

/-- Whatever has been logged when a block is announced has been applied. -/
def Heeded (journal : List Effect) : Prop :=
  ∀ before f after, journal = before ++ .broadcast (.commit f) :: after →
    ∀ key ∈ charges before, key ∈ (applied before).map Evidence.key

lemma split_append {α : Type} {l m before after : List α} {x : α}
    (h : l ++ m = before ++ x :: after) :
    (∃ rest, l = before ++ x :: rest) ∨ ∃ rest, before = l ++ rest ∧ m = rest ++ x :: after := by
  rcases List.append_eq_append_iff.mp h with ⟨rest, hbefore, hm⟩ | ⟨rest, hl, hafter⟩
  · exact .inr ⟨rest, hbefore, hm⟩
  · rcases List.cons_eq_append_iff.mp hafter with ⟨rfl, hm⟩ | ⟨rest', rfl, -⟩
    · exact .inr ⟨[], by simpa using hl.symm, hm⟩
    · exact .inl ⟨rest', hl⟩

namespace Heeded

variable {journal es : List Effect}

/-- No block is announced. -/
lemma append (h : Heeded journal) (es : List Effect) (hes : ∀ x ∈ es, ∀ f, x ≠ .broadcast (.commit f)) :
    Heeded (journal ++ es) := by
  intro before f after hsplit
  rcases split_append hsplit with ⟨rest, hbefore⟩ | ⟨rest, -, hes'⟩
  · exact h before f rest hbefore
  · exact absurd rfl (hes _ (hes' ▸ List.mem_append_right _ List.mem_cons_self) f)

/-- Nothing waits. -/
lemma append_calm (h : Heeded journal)
    (hall : ∀ key ∈ charges journal, key ∈ (applied journal).map Evidence.key)
    (hes : ∀ x ∈ es, Effect.Calm x) : Heeded (journal ++ es) := by
  intro before f after hsplit
  rcases split_append hsplit with ⟨rest, hbefore⟩ | ⟨rest, rfl, hes'⟩
  · exact h before f rest hbefore
  · have hrest : ∀ x ∈ rest, Effect.Calm x := fun x hx =>
      hes x (hes' ▸ List.mem_append_left _ hx)
    rw [charges_append, charges_calm hrest, List.append_nil, applied_append, applied_calm hrest,
      List.append_nil]
    exact hall

lemma settles [Hashing] {e : ConsensusEngine} {items : List Evidence} {d d' : Disk}
    (h : Heeded d.journal) (hsettles : Settles e items d d') : Heeded d'.journal := by
  cases hsettles with
  | none => exact h
  | some =>
    rw [Disk.journal_recordAll]
    refine h.append _ fun x hx f heq => ?_
    rw [heq] at hx
    simp at hx

lemma of_prefix (h : Heeded (journal ++ es)) : Heeded journal := by
  rintro before f after rfl
  exact h before f (after ++ es) (by rw [List.append_assoc, List.cons_append])

end Heeded

/-! ## What waits or has been applied -/

/-- Evidence waits or has been applied. -/
def World.Holds (w : World) (key : Address × ℕ × ℕ) : Prop :=
  key ∈ (applied w.disk.journal ++ w.state.evidence).map Evidence.key

/-- Whatever has been logged waits or has been applied, and so has whatever counts as processed. -/
structure Tracked (w : World) : Prop where
  charged : ∀ key ∈ charges w.disk.journal, w.Holds key
  processed : ∀ key ∈ w.state.processedEvidence, w.Holds key

namespace RoundState

variable {s : RoundState} {item : Evidence} {key : Address × ℕ × ℕ}

lemma addEvidence_known (h : item.key ∈ s.processedEvidence) : s.addEvidence item = s := if_pos h

lemma addEvidence_new (h : item.key ∉ s.processedEvidence) :
    s.addEvidence item = { s with
      processedEvidence := insert item.key s.processedEvidence
      evidence := s.evidence ++ [item] } := if_neg h

lemma evidence_subset_addEvidence (s : RoundState) (item : Evidence) :
    s.evidence ⊆ (s.addEvidence item).evidence := by
  by_cases h : item.key ∈ s.processedEvidence
  · rw [addEvidence_known h]
    exact List.Subset.refl _
  · rw [addEvidence_new h]
    exact List.subset_append_left _ _

lemma processed_addEvidence (hkey : key ∈ (s.addEvidence item).processedEvidence) :
    key ∈ s.processedEvidence ∨ key = item.key := by
  by_cases h : item.key ∈ s.processedEvidence
  · rw [addEvidence_known h] at hkey
    exact .inl hkey
  · rw [addEvidence_new h] at hkey
    exact (Finset.mem_insert.mp hkey).symm

end RoundState

section

variable [Hashing] {e : ConsensusEngine} {w w' : World} {d d' : Disk}

lemma journal_accuse (w : World) (item : Evidence) :
    charges (w.accuse item).disk.journal = charges w.disk.journal ++ [item.key] ∧
      applied (w.accuse item).disk.journal = applied w.disk.journal := by
  rw [World.accuse, Disk.journal_record, charges_append, applied_append]
  exact ⟨rfl, List.append_nil _⟩

lemma Settles.applied {items : List Evidence} (h : Settles e items d d') :
    charges d'.journal = charges d.journal ∧
      ZenoChain.applied d'.journal = ZenoChain.applied d.journal ++ items := by
  cases h with
  | none => exact ⟨rfl, (List.append_nil _).symm⟩
  | some =>
    rw [Disk.journal_recordAll, charges_append, applied_append]
    exact ⟨List.append_nil _, congrArg _ (List.append_nil _)⟩

namespace Tracked

/-- Calm effects, and no change in the evidence. -/
lemma calm (h : Tracked w) {es : List Effect} (hes : ∀ x ∈ es, Effect.Calm x)
    (hdisk : w'.disk = w.disk.recordAll es) (hevidence : w'.state.evidence = w.state.evidence)
    (hprocessed : w'.state.processedEvidence = w.state.processedEvidence) : Tracked w' := by
  have hholds : w'.Holds = w.Holds := by
    funext key
    rw [World.Holds, World.Holds, hdisk, Disk.journal_recordAll, applied_append, applied_calm hes,
      List.append_nil, hevidence]
  refine ⟨?_, ?_⟩
  · rw [hholds, hdisk, Disk.journal_recordAll, charges_append, charges_calm hes, List.append_nil]
    exact h.charged
  · rw [hholds, hprocessed]
    exact h.processed

/-- Evidence is recorded: it waits from now on, or the like of it has been recorded before. -/
lemma accuse (h : Tracked w) (item : Evidence) : Tracked (w.accuse item) := by
  obtain ⟨hcharges, happlied⟩ := journal_accuse w item
  have hkept : ∀ key, w.Holds key → (w.accuse item).Holds key := by
    intro key hkey
    rw [World.Holds, happlied]
    rw [World.Holds, List.map_append, List.mem_append] at hkey
    rw [List.map_append, List.mem_append]
    exact hkey.imp_right fun hwaits => List.map_subset _ (w.state.evidence_subset_addEvidence item) hwaits
  have hnew : (w.accuse item).Holds item.key := by
    by_cases hknown : item.key ∈ w.state.processedEvidence
    · exact hkept _ (h.processed _ hknown)
    · have hstate : (w.accuse item).state.evidence = w.state.evidence ++ [item] := by
        rw [World.accuse, RoundState.addEvidence_new hknown]
      rw [World.Holds, hstate, ← List.append_assoc, List.map_append]
      exact List.mem_append_right _ (List.mem_singleton_self _)
  constructor
  · intro key hkey
    rw [hcharges, List.mem_append, List.mem_singleton] at hkey
    rcases hkey with hkey | rfl
    · exact hkept key (h.charged key hkey)
    · exact hnew
  · intro key hkey
    rcases RoundState.processed_addEvidence hkey with hkey | rfl
    · exact hkept key (h.processed key hkey)
    · exact hnew

/-- The evidence that waits is applied. -/
lemma settles (h : Tracked w) (hsettles : Settles e w.state.evidence d d')
    (hcharges : charges d.journal = charges w.disk.journal)
    (happlied : ZenoChain.applied d.journal = ZenoChain.applied w.disk.journal) {s : RoundState}
    (hevidence : s.evidence = []) (hprocessed : s.processedEvidence = w.state.processedEvidence) :
    Tracked ⟨d', s⟩ ∧
      ∀ key ∈ charges d'.journal, key ∈ (ZenoChain.applied d'.journal).map Evidence.key := by
  obtain ⟨hcharges', happlied'⟩ := hsettles.applied
  have hholds : ∀ key, World.Holds ⟨d', s⟩ key ↔ w.Holds key := by
    intro key
    rw [World.Holds, World.Holds, happlied', happlied, hevidence, List.append_nil]
  have hcharged : ∀ key ∈ charges d'.journal, w.Holds key := by
    rw [hcharges', hcharges]
    exact h.charged
  refine ⟨⟨fun key hkey => (hholds key).mpr (hcharged key hkey), fun key hkey =>
    (hholds key).mpr (h.processed key (hprocessed ▸ hkey))⟩, fun key hkey => ?_⟩
  rw [happlied', happlied]
  exact hcharged key hkey

end Tracked

end

/-! ## Handlers heed the evidence -/

namespace ConsensusEngine

section

variable [Hashing] {e : ConsensusEngine}

/-- What a part of a handler keeps if it ends normally. -/
def KeepsTrack (w w' : World) : Prop :=
  Tracked w ∧ Heeded w.disk.journal → Tracked w' ∧ Heeded w'.disk.journal

/-- What it keeps in any case. -/
def KeepsHeed (w w' : World) : Prop :=
  Tracked w ∧ Heeded w.disk.journal → Heeded w'.disk.journal

lemma keepsTrack_of_calm {w w' : World} {es : List Effect} (hes : ∀ x ∈ es, Effect.Calm x)
    (hcommit : ∀ x ∈ es, ∀ f, x ≠ .broadcast (.commit f)) (hdisk : w'.disk = w.disk.recordAll es)
    (hevidence : w'.state.evidence = w.state.evidence)
    (hprocessed : w'.state.processedEvidence = w.state.processedEvidence) : KeepsTrack w w' := by
  rintro ⟨htracked, hheeded⟩
  refine ⟨htracked.calm hes hdisk hevidence hprocessed, ?_⟩
  rw [hdisk, Disk.journal_recordAll]
  exact hheeded.append es hcommit

/-- The evidence that waits is applied, and then the block is announced. -/
lemma track_close (e : ConsensusEngine) (finalized : FinalizedBlock) :
    Ends KeepsTrack KeepsHeed (e.applyPendingEvidence >>= fun _ => closeHeight finalized) := by
  refine Ends.of_cases fun w => ?_
  rcases applyPendingEvidence_cases e w with ⟨d, hsettles, hok⟩ | ⟨err, -, herror⟩
  · obtain ⟨es, hquiet, -, hclose⟩ := closeHeight_run finalized ⟨d, { w.state with evidence := [] }⟩
    have hes : ∀ x ∈ es, Effect.Calm x := fun x hx => Effect.calm_of_isQuiet (hquiet x hx)
    rw [bind_ok hok, hclose]
    refine .inl ⟨_, _, rfl, ?_⟩
    rintro ⟨htracked, hheeded⟩
    obtain ⟨hsettled, hall⟩ := htracked.settles hsettles rfl rfl
      (s := { w.state with evidence := [] }) rfl rfl
    refine ⟨hsettled.calm hes rfl rfl rfl, ?_⟩
    rw [Disk.journal_recordAll]
    exact (hheeded.settles hsettles).append_calm hall hes
  · rw [bind_error herror]
    exact .inr ⟨_, _, rfl, fun h => h.2⟩

/-- The parts of the handlers keep track of the evidence. -/
lemma trackWalk : Walk KeepsTrack KeepsHeed where
  trans _ _ _ h h' hw := h' (h hw)
  stop _ _ h hw := (h hw).2
  after _ _ _ h h' hw := h' (h hw)
  ordinary w w' h := by
    obtain ⟨es, hes, hdisk⟩ := h.disk
    refine keepsTrack_of_calm (fun x hx => Effect.calm_of_isOrdinary (hes x hx)) ?_ hdisk h.evidence
      h.processed
    rintro _ hx f rfl
    cases hes _ hx
  accuse w item := by
    rintro ⟨htracked, hheeded⟩
    refine ⟨htracked.accuse item, hheeded.append [_] ?_⟩
    intro x hx f heq
    rw [List.mem_singleton.mp hx] at heq
    cases heq

/-- A block is committed. -/
lemma track_commit (w : World) (f : FinalizedBlock) (state : BTreeMap Address Account) :
    KeepsTrack w (w.emitAll [.write (.atomicCommitBlock f state)]) := by
  have hcalm : Effect.Calm (.write (.atomicCommitBlock f state)) := ⟨rfl, rfl⟩
  refine keepsTrack_of_calm (List.forall_mem_singleton.mpr hcalm) ?_ rfl rfl rfl
  intro x hx g hg
  rw [List.mem_singleton.mp hx] at hg
  cases hg

lemma trackCourse [Revm] (e : ConsensusEngine) : e.Course KeepsTrack KeepsHeed where
  toWalk := trackWalk
  finalize := trackWalk.finalize track_commit e.track_close
  importBlock := trackWalk.importExternalFinalizedBlock track_commit

/-- An effect of an own proposal. -/
lemma track_emit {x : Effect} (hx : x.Calm) (hcommit : ∀ f, x ≠ .broadcast (.commit f)) :
    Ends KeepsTrack KeepsHeed (emit x) :=
  Keeps.ends (fun _ => keepsTrack_of_calm (List.forall_mem_singleton.mpr hx)
    (List.forall_mem_singleton.mpr hcommit) rfl rfl rfl) fun _ _ h hw => (h hw).2

/-- **A handler** applies whatever has been logged before it announces a block. -/
lemma heeded_handle [Revm] {w : World} (htracked : Tracked w) (hheeded : Heeded w.disk.journal)
    (event : Event) : Heeded (e.handle w event).disk.journal :=
  e.trackCourse.handle (fun _ _ => track_emit ⟨rfl, rfl⟩ fun _ h => by cases h)
    (fun _ => track_emit ⟨rfl, rfl⟩ fun _ h => by cases h) w event ⟨htracked, hheeded⟩

end

/-! ## Moves -/

section

variable [Hashing] {e : ConsensusEngine}

/-- What a move is to the evidence: nothing, evidence that is recorded, or all that waits is
applied.  The staking states that are stored otherwise have a property. -/
inductive Pursues (e : ConsensusEngine) (P : StakingSnapshot → Prop) (w w' : World) : Prop
  | calm (es : List Effect) (calm : ∀ x ∈ es, Effect.Calm x)
      (puts : ∀ s : StakingState, .write (.putStakingState s) ∈ es → P s)
      (disk : w'.disk = w.disk.recordAll es) (evidence : w'.state.evidence = w.state.evidence)
      (processed : w'.state.processedEvidence = w.state.processedEvidence)
      (height : w.state.height ≤ w'.state.height)
  | accuse {item : Evidence} (height : item.height = w.state.height)
      (grounds : StakingSnapshot.isEquivocation item) (result : w' = w.accuse item)
  | settle (es : List Effect) (calm : ∀ x ∈ es, Effect.Calm x)
      (puts : ∀ s : StakingState, .write (.putStakingState s) ∈ es → P s)
      (settles : Settles e w.state.evidence (w.disk.recordAll es) w'.disk)
      (evidence : w'.state.evidence = [])
      (processed : w'.state.processedEvidence = w.state.processedEvidence)
      (height : w.state.height ≤ w'.state.height)

/-- The effects of a commit. -/
lemma calm_of_commits [Revm] {P : StakingSnapshot → Prop} (hP : StakingSnapshot.KeptByBlocks P)
    {f : FinalizedBlock} {d d' : Disk} (h : P (StakingSnapshot.load d.store))
    (hcommits : Commits e f d d') : ∃ es, d' = d.recordAll es ∧ (∀ x ∈ es, Effect.Calm x) ∧
      ∀ s : StakingState, .write (.putStakingState s) ∈ es → P s := by
  obtain ⟨es, rfl, hputs⟩ := hP.commits_puts h hcommits
  obtain ⟨es', hdisk, -, hes⟩ := hcommits.effects
  obtain rfl : es = es' := by
    have hjournal := congrArg Disk.journal hdisk
    rw [Disk.journal_recordAll, Disk.journal_recordAll] at hjournal
    exact List.append_cancel_left hjournal
  refine ⟨es, rfl, fun x hx => ?_, hputs⟩
  rcases hes x hx with hquiet | haccounting | ⟨state, rfl⟩
  · exact Effect.calm_of_isQuiet hquiet
  · exact Effect.calm_of_isAccounting haccounting
  · exact ⟨rfl, rfl⟩

variable [Revm] {P : StakingSnapshot → Prop} {w₀ w w' : World} {event : Event}

/-- **Every move** records evidence, applies what waits, or leaves the evidence alone. -/
lemma Move.pursues (hmove : e.Move w₀ event w w') (hP : StakingSnapshot.KeptByBlocks P)
    (hnote : ∀ s a s', s.noteLiveness a = .ok s' → P s → P s')
    (h : P (StakingSnapshot.load w.disk.store)) (hrecent : w.state.Recent)
    (hpending : e.Accountable w) (hroom : Roomy w₀ event) : Pursues e P w w' := by
  have hnoted : ∀ a staking, e.noted w.disk.store a = .ok staking → P staking :=
    fun a staking hok => hnote _ _ _ hok (hP.ensure _ _ h)
  cases hmove with
  | @quiet es hquiet =>
    exact .calm es (fun x hx => Effect.calm_of_isQuiet (hquiet x hx))
      (fun s hs => absurd (hquiet _ hs) Bool.false_ne_true) rfl rfl rfl le_rfl
  | @note a staking hok =>
    refine .calm [.observe (.live a), .write (.putStakingState staking)] ?_ (fun s hs => ?_)
      rfl rfl rfl le_rfl
    · exact List.forall_mem_cons.mpr ⟨⟨rfl, rfl⟩, List.forall_mem_singleton.mpr ⟨rfl, rfl⟩⟩
    · obtain rfl : s = staking := by simpa using hs
      exact hnoted a s hok
  | accept => exact .calm [] (List.forall_mem_nil _) (fun s hs => by cases hs) rfl rfl rfl le_rfl
  | @accuse item haccusation =>
    refine .accuse ?_ ?_ rfl
    · cases haccusation with
      | vote _ _ hconflicts =>
        simp only [RoundState.conflicts, List.any_eq_true, decide_eq_true_eq] at hconflicts
        obtain ⟨existing, hmem, hheight, -⟩ := hconflicts
        exact hheight.symm.trans (hrecent.votes existing hmem).1
      | proposal _ _ _ hheight => exact hheight
    · cases haccusation with
      | vote => exact StakingSnapshot.isEquivocation_of_reason (.inl rfl)
      | proposal => exact StakingSnapshot.isEquivocation_of_reason (.inr rfl)
  | @cast vote staking hmay =>
    obtain ⟨prevoted, precommitted, hmark⟩ := w.state.markCast_eq vote.step
    refine .calm (World.castEffects vote staking) ?_ (fun s hs => ?_) rfl ?_ ?_ ?_
    · simp only [World.castEffects, List.forall_mem_cons]
      exact ⟨⟨rfl, rfl⟩, ⟨rfl, rfl⟩, ⟨rfl, rfl⟩, ⟨rfl, rfl⟩, ⟨rfl, rfl⟩, List.forall_mem_nil _⟩
    · obtain rfl : s = staking := by simpa [World.castEffects] using hs
      exact hnoted _ s hmay.noted
    all_goals
      rw [World.cast, hmark]
      try rfl
  | @count vote =>
    obtain ⟨prevotes, precommits, hcount⟩ := w.state.count_eq vote
    refine .calm [.write (.appendConsensusWal (.voteRecorded vote.height vote.round vote.step
      vote.blockHash vote.validatorAddress))] (List.forall_mem_singleton.mpr ⟨rfl, rfl⟩)
      (fun s hs => by simp at hs) rfl ?_ ?_ ?_
    all_goals
      rw [World.count, hcount]
      try rfl
  | report =>
    exact .calm [.observe (.quorum ..)] (List.forall_mem_singleton.mpr ⟨rfl, rfl⟩)
      (fun s hs => by simp at hs) rfl rfl rfl le_rfl
  | @lock block =>
    refine .calm [.write (.appendConsensusWal (.polkaObserved ..)),
      .write (.appendConsensusWal (.locked ..))] ?_ (fun s hs => by simp at hs) rfl rfl rfl le_rfl
    exact List.forall_mem_cons.mpr ⟨⟨rfl, rfl⟩, List.forall_mem_singleton.mpr ⟨rfl, rfl⟩⟩
  | finalize _ _ _ hcommits hsettles hbound =>
    obtain ⟨es, rfl, hcalm, hputs⟩ := calm_of_commits hP h hcommits
    refine .settle es hcalm hputs hsettles rfl rfl ?_
    have := hroom.height
    show w.state.height ≤ wrappingAdd 64 w.state.height 1
    rw [wrappingAdd_of_lt (by omega)]
    omega
  | stall _ _ _ hcommits hfails =>
    obtain ⟨staking, happlied⟩ := hpending.applies hcommits
    rw [happlied] at hfails
    cases hfails
  | @adopt f _ hcause hahead _ hcommits =>
    obtain ⟨es, rfl, hcalm, hputs⟩ := calm_of_commits hP h hcommits
    refine .calm es hcalm hputs rfl rfl rfl ?_
    show w.state.height ≤ wrappingAdd 64 f.block.header.height 1
    rw [wrappingAdd_of_lt (hroom.commit f (hcause ▸ rfl))]
    omega
  | nextRound => exact .calm [] (List.forall_mem_nil _) (fun s hs => by cases hs) rfl rfl rfl le_rfl

/-- No two pieces of evidence that wait or have been applied have the same key; each key counts as
processed or belongs to an earlier height, and all of them are for equivocations. -/
structure Pursued (w : World) : Prop extends Tracked w where
  once : ((applied w.disk.journal ++ w.state.evidence).map Evidence.key).Nodup
  past : ∀ item ∈ applied w.disk.journal ++ w.state.evidence,
    item.key ∈ w.state.processedEvidence ∨ item.height < w.state.height
  grounds : ∀ item ∈ applied w.disk.journal ++ w.state.evidence,
    StakingSnapshot.isEquivocation item

omit [Revm] in
/-- **One move** keeps the evidence apart. -/
lemma Pursued.step (h : Pursued w) (hp : Pursues e P w w') : Pursued w' := by
  cases hp with
  | calm es hcalm _ hdisk hevidence hprocessed hheight =>
    have hall : applied w'.disk.journal ++ w'.state.evidence =
        applied w.disk.journal ++ w.state.evidence := by
      rw [hdisk, Disk.journal_recordAll, applied_append, applied_calm hcalm, List.append_nil,
        hevidence]
    refine ⟨h.toTracked.calm hcalm hdisk hevidence hprocessed, ?_, ?_, ?_⟩
    · rw [hall]
      exact h.once
    · rw [hall, hprocessed]
      exact fun item hitem => (h.past item hitem).imp_right fun hlt => hlt.trans_le hheight
    · rw [hall]
      exact h.grounds
  | @accuse item hheight hgrounds hresult =>
    subst hresult
    have htracked := h.toTracked.accuse item
    obtain ⟨-, happlied⟩ := journal_accuse w item
    by_cases hknown : item.key ∈ w.state.processedEvidence
    · have hstate : (w.accuse item).state = w.state := RoundState.addEvidence_known hknown
      refine ⟨htracked, ?_, ?_, ?_⟩
      · rw [happlied, hstate]
        exact h.once
      · rw [happlied, hstate]
        exact h.past
      · rw [happlied, hstate]
        exact h.grounds
    · have hstate : (w.accuse item).state = { w.state with
          processedEvidence := insert item.key w.state.processedEvidence
          evidence := w.state.evidence ++ [item] } := RoundState.addEvidence_new hknown
      -- A key of the current height that counts as unprocessed is new.
      have hfresh : item.key ∉ (applied w.disk.journal ++ w.state.evidence).map Evidence.key := by
        intro hmem
        obtain ⟨other, hother, heq⟩ := List.mem_map.mp hmem
        rcases h.past other hother with hprocessed | hlt
        · exact hknown (heq ▸ hprocessed)
        · have hsame : other.height = item.height := congrArg (fun key => key.2.1) heq
          omega
      refine ⟨htracked, ?_, ?_, ?_⟩
      · rw [happlied, hstate, ← List.append_assoc, List.map_append]
        exact h.once.append (List.nodup_singleton _)
          (List.disjoint_singleton.mpr hfresh)
      · rw [happlied, hstate, ← List.append_assoc]
        intro other hother
        rcases List.mem_append.mp hother with hother | hother
        · exact (h.past other hother).imp_left (Finset.mem_insert_of_mem ·)
        · rw [List.mem_singleton.mp hother]
          exact .inl (Finset.mem_insert_self _ _)
      · rw [happlied, hstate, ← List.append_assoc]
        exact List.forall_mem_append.mpr ⟨h.grounds, List.forall_mem_singleton.mpr hgrounds⟩
  | settle es hcalm _ hsettles hevidence hprocessed hheight =>
    have hcharges : charges (w.disk.recordAll es).journal = charges w.disk.journal := by
      rw [Disk.journal_recordAll, charges_append, charges_calm hcalm, List.append_nil]
    have happlied : applied (w.disk.recordAll es).journal = applied w.disk.journal := by
      rw [Disk.journal_recordAll, applied_append, applied_calm hcalm, List.append_nil]
    have hall : applied w'.disk.journal ++ w'.state.evidence =
        applied w.disk.journal ++ w.state.evidence := by
      rw [hsettles.applied.2, happlied, hevidence, List.append_nil]
    refine ⟨(h.toTracked.settles hsettles hcharges happlied hevidence hprocessed).1, ?_, ?_, ?_⟩
    · rw [hall]
      exact h.once
    · rw [hall, hprocessed]
      exact fun item hitem => (h.past item hitem).imp_right fun hlt => hlt.trans_le hheight
    · rw [hall]
      exact h.grounds

/-! ## What the staking state shows -/

/-- The staking state shows the slashes for the batches that have been applied, after those from the
start: one for each validator of a batch.  All validators in the batches are jailed. -/
def Sentenced (start : List (Address × String)) (journal : List Effect) : StakingSnapshot → Prop :=
  StakingSnapshot.Shows
    (start ++ (batches journal).flatMap fun items => StakingSnapshot.offences items [])
    fun a => ∃ item ∈ applied journal, StakingSnapshot.isEquivocation item ∧
      item.validatorAddress = a

/-- Wherever a process stops after some effects, its staking state shows what has been applied; it
must not stop between the announcement of a batch and the write. -/
def Serves (start : List (Address × String)) (d : Disk) (es : List Effect) : Prop :=
  ∀ first, first <+: es → (∀ x ∈ first.getLast?, x.batch = none) →
    Sentenced start (d.recordAll first).journal (StakingSnapshot.load (d.recordAll first).store)

section

variable {start : List (Address × String)} {d d' : Disk} {es es' : List Effect}

omit [Hashing] [Revm] in
lemma sentenced_append (journal : List Effect) (hes : ∀ x ∈ es, x.batch = none) :
    Sentenced start (journal ++ es) = Sentenced start journal := by
  have hnone : batches es = [] := List.filterMap_eq_nil_iff.mpr hes
  have happlied : applied es = [] := by
    rw [applied, hnone]
    rfl
  rw [Sentenced, Sentenced, batches_append, applied_append, hnone, happlied, List.append_nil,
    List.append_nil]

omit [Hashing] [Revm] in
/-- Blocks and notes keep what is shown. -/
lemma keptByBlocks_sentenced (journal : List Effect) :
    StakingSnapshot.KeptByBlocks (Sentenced start journal) where
  ensure := fun _ vs hs => hs.ensureValidators vs
  downtime := fun _ _ _ hslashed hs => hs.downtime hslashed
  fund := fun _ _ hs => hs.congr rfl fun _ _ hv => hv
  settle := fun _ totalFees rewardBudget params hs =>
    hs.settleEpochRewards totalFees rewardBudget params

omit [Revm] in
/-- Nothing is applied. -/
lemma serves_of_puts (es : List Effect)
    (h : Sentenced start d.journal (StakingSnapshot.load d.store)) (hes : ∀ x ∈ es, x.batch = none)
    (hputs : ∀ s : StakingState, .write (.putStakingState s) ∈ es → Sentenced start d.journal s) :
    Serves start d es ∧ Sentenced start (d.recordAll es).journal
      (StakingSnapshot.load (d.recordAll es).store) := by
  have hall : ∀ first, first <+: es → Sentenced start (d.recordAll first).journal
      (StakingSnapshot.load (d.recordAll first).store) := by
    intro first hfirst
    rw [Disk.journal_recordAll, sentenced_append _ fun x hx => hes x (hfirst.subset hx)]
    exact StakingSnapshot.load_recordAll h fun s hs => hputs s (hfirst.subset hs)
  exact ⟨fun first hfirst _ => hall first hfirst, hall es List.prefix_rfl⟩

omit [Revm] in
lemma Serves.append (h : Serves start d es)
    (hmid : Sentenced start (d.recordAll es).journal (StakingSnapshot.load (d.recordAll es).store))
    (h' : Serves start (d.recordAll es) es') : Serves start d (es ++ es') := by
  intro first hfirst hlast
  rcases le_total first.length es.length with hle | hle
  · exact h first (List.prefix_of_prefix_length_le hfirst (List.prefix_append es es') hle) hlast
  · obtain ⟨rest, rfl⟩ :=
      List.prefix_of_prefix_length_le (List.prefix_append es es') hfirst hle
    rw [Disk.recordAll_append]
    rcases List.eq_nil_or_concat rest with rfl | ⟨front, x, rfl⟩
    · exact hmid
    · refine h' _ ((List.prefix_append_right_inj es).mp hfirst) fun y hy => hlast y ?_
      rwa [List.concat_eq_append, ← List.append_assoc, List.getLast?_concat] at *

omit [Revm] in
/-- The evidence that waits is applied. -/
lemma serves_settles {items : List Evidence}
    (h : Sentenced start d.journal (StakingSnapshot.load d.store)) (hsettles : Settles e items d d') :
    ∃ es, d' = d.recordAll es ∧ Serves start d es ∧
      Sentenced start d'.journal (StakingSnapshot.load d'.store) := by
  cases hsettles with
  | none =>
    exact ⟨[], rfl, (serves_of_puts [] h (List.forall_mem_nil _) fun s hs => by cases hs).1, h⟩
  | @some _ _ staking hne happly =>
    have happlied : Sentenced start (d.recordAll [.observe (.punished items),
        .write (.putStakingState staking)]).journal staking := by
      have hshows := (h.ensureValidators e.validators).applyEvidence happly
      rw [Disk.journal_recordAll]
      refine ⟨hshows.verdicts.trans ?_, ?_⟩
      · rw [batches_append, List.flatMap_append, ← List.append_assoc]
        exact congrArg _ (List.append_nil _).symm
      · rintro a ⟨item, hitem, hequivocation, rfl⟩
        rw [applied_append] at hitem
        rcases List.mem_append.mp hitem with hold | hnew
        · exact hshows.jailed _ (.inl ⟨item, hold, hequivocation, rfl⟩)
        · have hwaits : item ∈ items := List.append_nil items ▸ hnew
          exact hshows.jailed _ (.inr ⟨item, hwaits, hequivocation, rfl⟩)
    refine ⟨_, rfl, fun first hfirst hlast => ?_, happlied⟩
    rcases List.prefix_cons_iff.mp hfirst with rfl | ⟨rest, rfl, hrest⟩
    · exact h
    · rcases List.prefix_cons_iff.mp hrest with rfl | ⟨rest', rfl, hrest'⟩
      · cases hlast _ rfl
      · rw [List.prefix_nil.mp hrest']
        exact happlied

omit [Revm] in
/-- **One move** that keeps to the evidence serves it. -/
lemma Pursues.serves (hp : Pursues e (Sentenced start w.disk.journal) w w')
    (h : Sentenced start w.disk.journal (StakingSnapshot.load w.disk.store)) :
    ∃ es, w'.disk = w.disk.recordAll es ∧ Serves start w.disk es ∧
      Sentenced start w'.disk.journal (StakingSnapshot.load w'.disk.store) := by
  cases hp with
  | calm es hcalm hputs hdisk =>
    obtain ⟨hserves, hend⟩ := serves_of_puts es h (fun x hx => (hcalm x hx).batch) hputs
    exact ⟨es, hdisk, hserves, hdisk ▸ hend⟩
  | @accuse item _ _ hresult =>
    obtain ⟨hserves, hend⟩ := serves_of_puts [.write (.appendConsensusWal
      (.evidenceRecorded item.height item.round item.validatorAddress item.reason))] h
        (List.forall_mem_singleton.mpr rfl) fun s hs => by simp at hs
    exact ⟨_, hresult ▸ rfl, hserves, hresult ▸ hend⟩
  | settle es hcalm hputs hsettles =>
    obtain ⟨hserves, hmid⟩ := serves_of_puts es h (fun x hx => (hcalm x hx).batch) hputs
    obtain ⟨es', hdisk, hserves', hend⟩ := serves_settles hmid hsettles
    exact ⟨es ++ es', by rw [hdisk, Disk.recordAll_append], hserves.append hmid hserves', hend⟩

/-! ## Lives -/

/-- The evidence is kept apart, recent, against known validators, and the staking state shows what
has been applied. -/
structure Lawful (e : ConsensusEngine) (start : List (Address × String)) (w : World) : Prop
    extends Pursued w where
  recent : w.state.Recent
  accountable : e.Accountable w
  sentenced : Sentenced start w.disk.journal (StakingSnapshot.load w.disk.store)

lemma Lawful.move (h : Lawful e start w) (hroom : Roomy w₀ event) (hmove : e.Move w₀ event w w') :
    Lawful e start w' ∧ ∃ es, w'.disk = w.disk.recordAll es ∧ Serves start w.disk es := by
  have hpursues : Pursues e (Sentenced start w.disk.journal) w w' :=
    hmove.pursues (keptByBlocks_sentenced _) (fun _ _ _ hok hs => hs.noteLiveness hok) h.sentenced
      h.recent h.accountable hroom
  obtain ⟨es, hdisk, hserves, hend⟩ := hpursues.serves h.sentenced
  exact ⟨⟨h.toPursued.step hpursues, recent_move h.recent hroom hmove, h.accountable.move hmove,
    hend⟩, es, hdisk, hserves⟩

/-- **An event** keeps to the law, wherever the process may stop. -/
lemma Lawful.handle (h : Lawful e start w) (hroom : Roomy w event) :
    Lawful e start (e.handle w event) ∧ Serves start w.disk (e.effectsOf w event) := by
  have hends : Lawful e start (e.handle w event) ∧
      ∃ es, (e.handle w event).disk = w.disk.recordAll es ∧ Serves start w.disk es := by
    refine invariant_of_moves (fun w' => Lawful e start w' ∧
      ∃ es, w'.disk = w.disk.recordAll es ∧ Serves start w.disk es) ?_ ?_
    · exact ⟨h, [], rfl, (serves_of_puts [] h.sentenced (List.forall_mem_nil _)
        fun s hs => by cases hs).1⟩
    · rintro w₁ w₂ ⟨h₁, es, hdisk, hserves⟩ hmove
      obtain ⟨h₂, es', hdisk', hserves'⟩ := h₁.move hroom hmove
      rw [hdisk] at hdisk' hserves'
      exact ⟨h₂, es ++ es', by rw [hdisk', Disk.recordAll_append],
        hserves.append (hdisk ▸ h₁.sentenced) hserves'⟩
  obtain ⟨hlawful, es, hdisk, hserves⟩ := hends
  have heffects : e.effectsOf w event = es := by
    rw [effectsOf, hdisk, Disk.journal_recordAll, List.drop_left]
  exact ⟨hlawful, heffects ▸ hserves⟩

/-- All evidence that has been logged has been applied, the result is written, and the node recovers
above the heights of that evidence. -/
structure Cleared (d : Disk) : Prop where
  charged : ∀ key ∈ charges d.journal, key ∈ (applied d.journal).map Evidence.key
  written : ∀ x ∈ d.journal.getLast?, x.batch = none
  ahead : ∀ item ∈ applied d.journal, item.height < (recovered d.store).height

/-- What a crash leaves of the journal is its beginning. -/
lemma journal_crashDisk (e : ConsensusEngine) (w : World) (event : Event) (k : ℕ) :
    (e.handle w event).disk.journal =
      (e.crashDisk w event k).journal ++ (e.effectsOf w event).drop k := by
  rw [disk_handle, crashDisk, Disk.journal_recordAll, Disk.journal_recordAll, List.append_assoc,
    List.take_append_drop]

instance (d : Disk) : Decidable (Cleared d) :=
  decidable_of_iff ((∀ key ∈ charges d.journal, key ∈ (applied d.journal).map Evidence.key) ∧
      (∀ x ∈ d.journal.getLast?, x.batch = none) ∧
      ∀ item ∈ applied d.journal, item.height < (recovered d.store).height)
    ⟨fun h => ⟨h.1, h.2.1, h.2.2⟩, fun h => ⟨h.charged, h.written, h.ahead⟩⟩

/-- A process that stops when nothing waits starts again lawfully. -/
lemma Lawful.restart (h : Lawful e start w) (hroom : Roomy w event) {k : ℕ}
    (hcleared : Cleared (e.crashDisk w event k)) :
    Lawful e start (World.boot (e.crashDisk w event k)) := by
  obtain ⟨hlawful, hserves⟩ := h.handle hroom
  set d := e.crashDisk w event k with hd
  have hsublist : (applied d.journal).Sublist
      (applied (e.handle w event).disk.journal ++ (e.handle w event).state.evidence) := by
    rw [journal_crashDisk e w event k, applied_append, List.append_assoc]
    exact List.sublist_append_left _ _
  -- Nothing waits in a process that has just started.
  have hnone : applied (World.boot d).disk.journal ++ (World.boot d).state.evidence =
      applied d.journal := List.append_nil _
  refine ⟨⟨⟨fun key hkey => ?_, fun key hkey => ?_⟩, ?_, fun item hitem => ?_, fun item hitem => ?_⟩,
    ⟨fun vote hvote => ?_, fun key hkey => ?_⟩, List.forall_mem_nil _, ?_⟩
  · rw [World.Holds, hnone]
    exact hcleared.charged key hkey
  · exact absurd hkey (Finset.notMem_empty key)
  · rw [hnone]
    exact hlawful.once.sublist (hsublist.map _)
  · rw [hnone] at hitem
    exact .inr (hcleared.ahead item hitem)
  · rw [hnone] at hitem
    exact hlawful.grounds item (hsublist.subset hitem)
  · cases hvote
  · exact absurd hkey (Finset.notMem_empty key)
  · refine hserves _ (List.take_prefix _ _) fun x hx => hcleared.written x ?_
    rw [hd, crashDisk, Disk.journal_recordAll, List.getLast?_append, Option.mem_def.mp hx]
    rfl

omit [Hashing] [Revm] in
/-- A process starts lawfully where nothing has happened. -/
lemma lawful_boot {d : Disk} (hstart : d.journal = []) :
    Lawful e (StakingSnapshot.load d.store).verdicts (World.boot d) := by
  have hnone : applied (World.boot d).disk.journal ++ (World.boot d).state.evidence = [] := by
    rw [World.boot, hstart]
    rfl
  refine ⟨⟨⟨fun key hkey => ?_, fun key hkey => ?_⟩, ?_, fun item hitem => ?_, fun item hitem => ?_⟩,
    ⟨fun vote hvote => ?_, fun key hkey => ?_⟩, List.forall_mem_nil _, ?_⟩
  · rw [World.boot, hstart] at hkey
    cases hkey
  · exact absurd hkey (Finset.notMem_empty key)
  · rw [hnone]
    exact List.nodup_nil
  · rw [hnone] at hitem
    cases hitem
  · rw [hnone] at hitem
    cases hitem
  · cases hvote
  · exact absurd hkey (Finset.notMem_empty key)
  · rw [World.boot, hstart]
    refine ⟨(List.append_nil _).symm, fun a ha => ?_⟩
    obtain ⟨item, hitem, -⟩ := ha
    cases hitem

/-- A step of a life whose restarts find that nothing waits. -/
lemma lawful_life (h : Lawful e start w) (hheeded : Heeded w.disk.journal)
    (hlife : Life e Cleared w w') : Lawful e start w' ∧ Heeded w'.disk.journal := by
  cases hlife with
  | @handle event hroom => exact ⟨(h.handle hroom).1, heeded_handle h.toTracked hheeded event⟩
  | @restart event k hroom hcleared =>
    have hhandled := heeded_handle (e := e) h.toTracked hheeded event
    rw [journal_crashDisk e w event k] at hhandled
    exact ⟨h.restart hroom hcleared, hhandled.of_prefix⟩

/-- Whenever a block has been announced, the validators for whom evidence had been logged are jailed,
and each of them has been slashed for evidence that was applied together with that one. -/
def Remembers (w : World) : Prop :=
  ∀ before f after, w.disk.journal = before ++ .broadcast (.commit f) :: after →
    ∀ key ∈ charges before, ∃ items ∈ batches before, key ∈ items.map Evidence.key ∧
      ∃ cause ∈ items, ∃ event, (StakingSnapshot.load w.disk.store).Convicted event ∧
        event.validatorAddress = key.1 ∧ cause.validatorAddress = key.1 ∧
        event.reason = cause.reason

/-- The slashes for evidence since the start have a cause each, and no two causes have the same
validator, height and round. -/
def SlashesOnce (start : List (Address × String)) (w : World) : Prop :=
  ∃ causes : List Evidence, causes.Sublist (applied w.disk.journal) ∧
    (causes.map Evidence.key).Nodup ∧ (StakingSnapshot.load w.disk.store).verdicts =
      start ++ causes.map fun cause => (cause.validatorAddress, cause.reason)

omit [Hashing] [Revm] in
lemma Lawful.remembers (h : Lawful e start w) (hheeded : Heeded w.disk.journal) : Remembers w := by
  intro before f after hsplit key hkey
  obtain ⟨item, hitem, rfl⟩ := List.mem_map.mp (hheeded before f after hsplit key hkey)
  obtain ⟨items, hitems, hmem⟩ := List.mem_flatten.mp hitem
  have hbatch : items ∈ batches w.disk.journal := by
    rw [hsplit, batches_append]
    exact List.mem_append_left _ hitems
  have happlied : item ∈ applied w.disk.journal := List.mem_flatten.mpr ⟨items, hbatch, hmem⟩
  have hequivocation := h.grounds item (List.mem_append_left _ happlied)
  obtain ⟨cause, hcause, hsame, hoffence⟩ :=
    StakingSnapshot.exists_offence hmem hequivocation (List.not_mem_nil (a := item.validatorAddress))
  obtain ⟨event, hevent, hvalidator, hreason⟩ := StakingSnapshot.mem_verdicts
    (h.sentenced.verdicts ▸ List.mem_append_right start (List.mem_flatMap.mpr ⟨items, hbatch, hoffence⟩))
  refine ⟨items, hitems, List.mem_map_of_mem hmem, cause, hcause, event, ⟨?_, hevent⟩,
    hvalidator.trans hsame, hsame, hreason⟩
  rw [hvalidator, hsame]
  exact h.sentenced.jailed _ ⟨item, happlied, hequivocation, rfl⟩

omit [Hashing] [Revm] in
lemma Lawful.slashesOnce (h : Lawful e start w) : SlashesOnce start w := by
  have hcauses : ∀ bs : List (List Evidence), ∃ causes : List Evidence,
      causes.Sublist bs.flatten ∧ (bs.flatMap fun items => StakingSnapshot.offences items []) =
        causes.map fun cause => (cause.validatorAddress, cause.reason) := by
    intro bs
    induction bs with
    | nil => exact ⟨[], .slnil, rfl⟩
    | cons items bs ih =>
      obtain ⟨causes, hcauses, heq⟩ := ih
      obtain ⟨first, hfirst, hoffences⟩ := StakingSnapshot.offences_eq_map items []
      exact ⟨first ++ causes, hfirst.append hcauses,
        by rw [List.flatMap_cons, hoffences, heq, List.map_append]⟩
  obtain ⟨causes, hsublist, heq⟩ := hcauses (batches w.disk.journal)
  refine ⟨causes, hsublist, ?_, h.sentenced.verdicts.trans (by rw [heq])⟩
  exact h.once.sublist ((hsublist.trans (List.sublist_append_left _ _)).map _)

/-- A run is a life without restarts. -/
lemma life_of_run (Safe : Disk → Prop) (hrun : e.Run Roomy w w') :
    Relation.ReflTransGen (Life e Safe) w w' := by
  refine Relation.ReflTransGen.mono ?_ _ _ hrun
  rintro w₁ _ ⟨event, hroom, rfl⟩
  exact .handle hroom

/-- **Recorded evidence is not forgotten, and it counts once**, in every life of a process which
stops only where all evidence in the log has been applied. -/
theorem evidence_remembered_once {d : Disk} (hstart : d.journal = [])
    (hlife : Relation.ReflTransGen (Life e Cleared) (World.boot d) w) :
    Remembers w ∧ SlashesOnce (StakingSnapshot.load d.store).verdicts w := by
  have hinv : Lawful e (StakingSnapshot.load d.store).verdicts w ∧ Heeded w.disk.journal := by
    induction hlife with
    | refl =>
      refine ⟨lawful_boot hstart, ?_⟩
      intro before f after hsplit
      rw [World.boot, hstart] at hsplit
      exact absurd hsplit.symm (List.append_ne_nil_of_right_ne_nil _ (List.cons_ne_nil _ _))
    | tail _ hstep ih => exact lawful_life ih.1 ih.2 hstep
  exact ⟨hinv.1.remembers hinv.2, hinv.1.slashesOnce⟩

end

end

end ConsensusEngine

/-! ## A double vote before the first block -/

section

open Transparent ConsensusEngine

/-- A prevote of the validator `2` for nothing. -/
def firstPrevote : Event := .vote (Transparent.castVote [2] 1 0 .prevote nilHash)

/-- A second prevote of the same validator in the same round. -/
def secondPrevote : Event := .vote (Transparent.castVote [2] 1 0 .prevote firstProposal.hash)

/-- The first block is proposed, and two other validators precommit to it. -/
def proposalAndPrecommits : List Event :=
  [.proposal ⟨1, 0, firstProposal, address [2]⟩,
   .vote (Transparent.castVote [2] 1 0 .precommit firstProposal.hash),
   .vote (Transparent.castVote [3] 1 0 .precommit firstProposal.hash)]

/-- The precommit that makes the quorum. -/
def lastPrecommit : Event := .vote (Transparent.castVote [4] 1 0 .precommit firstProposal.hash)

/-- A validator records the evidence for the double vote, crashes after its handler, starts again
and takes part in the first round. -/
def forgetful : World :=
  proposalAndPrecommits.foldl (engineOf [1]).handle (World.boot
    ((engineOf [1]).crashDisk ((engineOf [1]).handle (World.boot blank) firstPrevote)
      secondPrevote 100))

/-- The evidence is in the log; the first block is announced, and no evidence has been applied. -/
lemma forgetful_facts :
    charges forgetful.disk.journal = [(address [2], 1, 0)] ∧
    ((engineOf [1]).effectsOf forgetful lastPrecommit).filterMap announced ≠ [] ∧
    batches ((engineOf [1]).handle forgetful lastPrecommit).disk.journal = [] ∧
    Roomy forgetful lastPrecommit := by
  decide +kernel

lemma forgetful_roomy :
    Roomy (World.boot blank) firstPrevote ∧
    Roomy ((engineOf [1]).handle (World.boot blank) firstPrevote) secondPrevote ∧
    (engineOf [1]).Meets Roomy (World.boot ((engineOf [1]).crashDisk
      ((engineOf [1]).handle (World.boot blank) firstPrevote) secondPrevote 100))
      proposalAndPrecommits := by
  decide +kernel

/-- Evidence that waits when the process stops is forgotten. -/
theorem evidence_forgotten :
    ∃ w, Relation.ReflTransGen (Life (engineOf [1]) fun _ => True) (World.boot blank) w ∧
      ¬ Remembers w := by
  obtain ⟨hcharges, hannounced, hnone, hroom⟩ := forgetful_facts
  obtain ⟨hfirst, hsecond, hmeets⟩ := forgetful_roomy
  refine ⟨(engineOf [1]).handle forgetful lastPrecommit, ?_, fun hremembers => ?_⟩
  · have hrun := life_of_run (fun _ => True) (run_of_meets proposalAndPrecommits hmeets)
    exact .tail (.trans (.tail (.single (.handle hfirst)) (.restart 100 hsecond trivial)) hrun)
      (.handle hroom)
  · obtain ⟨f, hf⟩ := List.exists_mem_of_ne_nil _ hannounced
    obtain ⟨before, after, hsplit⟩ := List.mem_iff_append.mp (mem_of_announced hf)
    have hjournal : ((engineOf [1]).handle forgetful lastPrecommit).disk.journal =
        (forgetful.disk.journal ++ before) ++ .broadcast (.commit f) :: after := by
      rw [disk_handle, Disk.journal_recordAll, hsplit, List.append_assoc]
    have hkey : (address [2], 1, 0) ∈ charges (forgetful.disk.journal ++ before) := by
      rw [charges_append, hcharges]
      exact List.mem_append_left _ (List.mem_singleton_self _)
    obtain ⟨items, hitems, -⟩ := hremembers _ f after hjournal _ hkey
    rw [hjournal, batches_append] at hnone
    rw [(List.append_eq_nil_iff.mp hnone).1] at hitems
    cases hitems

/-- A validator that records the same evidence and stops after the block has been finalized. -/
def attentive : World :=
  (firstPrevote :: secondPrevote :: proposalAndPrecommits).foldl (engineOf [1]).handle
    (World.boot blank)

lemma attentive_facts :
    (engineOf [1]).Meets Roomy (World.boot blank)
      (firstPrevote :: secondPrevote :: proposalAndPrecommits) ∧
    Roomy attentive lastPrecommit ∧ Cleared ((engineOf [1]).crashDisk attentive lastPrecommit 100) := by
  decide +kernel

/-- The general fact for a validator that starts again after the first block. -/
theorem attentive_remembers_once :
    let w := World.boot ((engineOf [1]).crashDisk attentive lastPrecommit 100)
    Remembers w ∧ SlashesOnce (StakingSnapshot.load blank.store).verdicts w := by
  obtain ⟨hmeets, hroom, hcleared⟩ := attentive_facts
  have hlife := (life_of_run Cleared (run_of_meets _ hmeets)).tail
    (.restart 100 hroom hcleared)
  exact evidence_remembered_once rfl hlife

end

end ZenoChain
