/-
# The ordinary parts of the handlers

Most of what a handler does is neither about an own proposal nor about evidence, commits and
announces no block and tidies nothing up.  A relation that these parts keep holds between the worlds
before and after a whole handler as soon as recorded evidence, a finalization and an import keep it
too.
-/
import ZenoChain.Consensus.Runs

namespace ZenoChain

open Word Handler

/-! ## Ordinary effects -/

/-- The effect is no part of an own proposal, neither logs evidence nor applies it, neither commits
nor announces a block, does not compact the log and prunes no blocks. -/
def Effect.isOrdinary : Effect → Bool
  | .signHeader _ | .write (.putSlashingProtection ..) => false
  | .write (.appendConsensusWal (.evidenceRecorded ..)) | .observe (.punished _) => false
  | .write (.atomicCommitBlock ..) | .broadcast (.commit _) => false
  | .write (.compactConsensusWal _) | .write (.pruneBlocksBelow _) => false
  | _ => true

section

variable [Hashing] {d d' : Disk}

/-- One disk comes from another one by ordinary effects. -/
def OrdinaryEffects (d d' : Disk) : Prop :=
  ∃ es, (∀ x ∈ es, Effect.isOrdinary x) ∧ d' = d.recordAll es

instance : Std.Refl OrdinaryEffects := ⟨fun _ => ⟨[], List.forall_mem_nil _, rfl⟩⟩

instance : IsTrans Disk OrdinaryEffects where
  trans := by
    rintro d _ _ ⟨es, hes, rfl⟩ ⟨es', hes', rfl⟩
    exact ⟨es ++ es', List.forall_mem_append.mpr ⟨hes, hes'⟩, (d.recordAll_append es es').symm⟩

lemma ordinaryEffects_record (d : Disk) {x : Effect} (h : x.isOrdinary) :
    OrdinaryEffects d (d.record x) := ⟨[x], List.forall_mem_singleton.mpr h, rfl⟩

lemma OnlyEvmWrites.ordinary (h : OnlyEvmWrites d d') : OrdinaryEffects d d' := by
  obtain ⟨es, hes, rfl⟩ := h
  refine ⟨es, fun x hx => ?_, rfl⟩
  obtain ⟨_, _⟩ := hes x hx
  rfl

omit [Hashing] in
lemma Effect.IsAccounting.ordinary {x : Effect} (h : x.IsAccounting) : x.isOrdinary := by
  cases h <;> rfl

lemma ordinaryEffects_accounting (p : PreparedBlock) (d : Disk) :
    OrdinaryEffects d (d.recordAll (ExecutionEngine.accountingWrites p)) :=
  ⟨_, fun _ hx => (ExecutionEngine.isAccounting_of_mem hx).ordinary, rfl⟩

variable [Revm]

lemma ordinary_executeBlock (x : ExecutionEngine) (scheme : SignatureScheme) (block : Block) :
    Keeps OrdinaryEffects (x.executeBlock scheme block) := by
  refine .bind (fun d => (ExecutionEngine.keeps_prepareBlock x scheme block d).ordinary) fun p => ?_
  exact .bind (fun d => ordinaryEffects_accounting p d) fun _ => .pure _

end

namespace ConsensusEngine

variable [Hashing] {e : ConsensusEngine}

/-- Ordinary effects that leave the evidence in memory alone. -/
structure Ordinary (w w' : World) : Prop where
  disk : OrdinaryEffects w.disk w'.disk
  evidence : w'.state.evidence = w.state.evidence
  processed : w'.state.processedEvidence = w.state.processedEvidence

instance : Std.Refl Ordinary := ⟨fun w => ⟨Std.Refl.refl w.disk, rfl, rfl⟩⟩

instance : IsTrans World Ordinary where
  trans _ _ _ h h' := ⟨IsTrans.trans _ _ _ h.disk h'.disk, h'.evidence.trans h.evidence,
    h'.processed.trans h.processed⟩

/-! ## The parts of the handlers -/

lemma ordinary_emit {x : Effect} (h : x.isOrdinary) : Keeps Ordinary (emit x) :=
  fun w => ⟨ordinaryEffects_record w.disk h, rfl, rfl⟩

lemma ordinary_update {f : RoundState → RoundState} (hevidence : ∀ s, (f s).evidence = s.evidence)
    (hprocessed : ∀ s, (f s).processedEvidence = s.processedEvidence) :
    Keeps Ordinary (update f) :=
  fun w => ⟨Std.Refl.refl w.disk, hevidence w.state, hprocessed w.state⟩

lemma ordinary_onDisk {ε α : Type} {err : ε → String} {m : StoreM ε α}
    (h : Keeps OrdinaryEffects m) : Keeps Ordinary (onDisk err m) := by
  intro w
  rw [onDisk, final_zoom]
  exact ⟨h w.disk, rfl, rfl⟩

lemma ordinary_persistSnapshot : Keeps Ordinary persistSnapshot :=
  .bind .get fun _ => .bind (ordinary_emit rfl) fun _ => ordinary_emit rfl

lemma ordinary_noteValidatorLiveness (a : Address) :
    Keeps Ordinary (e.noteValidatorLiveness a) := by
  refine .bind .get fun w => ?_
  split
  · exact .throw _
  · exact .bind (ordinary_emit rfl) fun _ => ordinary_emit rfl

lemma ordinary_markCast (step : VoteStep) : Keeps Ordinary (update fun s => s.markCast step) := by
  cases step <;> exact ordinary_update (fun _ => rfl) fun _ => rfl

lemma ordinary_castVote (l : LocalValidator) (step : VoteStep) (blockHash : Hash32) :
    Keeps Ordinary (e.castVote l step blockHash) := by
  refine .bind .get fun w => ?_
  dsimp only
  split
  · exact .throw _
  · exact .bind (ordinary_emit rfl) fun _ => .bind (ordinary_noteValidatorLiveness _) fun _ =>
      .bind (ordinary_emit rfl) fun _ => .bind (ordinary_markCast step) fun _ =>
        .bind (ordinary_emit rfl) fun _ => .pure _

lemma ordinary_castOnce (step : VoteStep) (choice : RoundState → Hash32) :
    Keeps Ordinary (e.castOnce step choice) := by
  refine .bind .get fun w => ?_
  split
  · exact .pure _
  · split
    · exact .pure _
    · split
      · exact .pure _
      · exact .bind (ordinary_castVote _ _ _) fun _ => .pure _

lemma ordinary_actOnQuorum (vote : Vote) : Keeps Ordinary (actOnQuorum vote) := by
  rw [actOnQuorum]
  split
  · refine .bind (.bind .get fun w => ?_) fun _ => .pure _
    split
    · exact .pure _
    · split_ifs
      · exact .bind (ordinary_update (fun _ => rfl) fun _ => rfl) fun _ =>
          .bind (ordinary_emit rfl) fun _ => ordinary_emit rfl
      · exact .pure _
  · exact .pure _

lemma ordinary_count (vote : Vote) : Keeps Ordinary (update fun s => s.count vote) := by
  refine ordinary_update (fun s => s.evidence_count vote) fun s => ?_
  obtain ⟨p, q, hcount⟩ := s.count_eq vote
  rw [hcount]

lemma ordinary_advanceHeight (n : ℕ) : Keeps Ordinary (advanceHeight n) :=
  .bind (ordinary_update (fun _ => rfl) fun _ => rfl) fun _ =>
    .bind ordinary_persistSnapshot fun _ => ordinary_emit rfl

lemma ordinary_advanceRound : Keeps Ordinary advanceRound :=
  .bind (ordinary_update (fun _ => rfl) fun _ => rfl) fun _ =>
    .bind ordinary_persistSnapshot fun _ => .bind .get fun _ => ordinary_emit rfl

lemma ordinary_announceBlock (l : LocalValidator) (proposer : Address) (block : Block) :
    Keeps Ordinary (e.announceBlock l proposer block) :=
  .bind (ordinary_noteValidatorLiveness _) fun _ => .bind .get fun _ =>
    .bind (ordinary_emit rfl) fun _ => .bind (ordinary_update (fun _ => rfl) fun _ => rfl)
      fun _ => .bind (ordinary_emit rfl) fun _ => ordinary_emit rfl

/-! ## Whole handlers -/

/-- Two relations, for normal ends and for errors, that hold after everything a handler does but for
finalizations, imports and own proposals. -/
structure Walk (R E : World → World → Prop) : Prop extends IsTrans World R where
  stop : ∀ w w', R w w' → E w w'
  after : ∀ w₁ w₂ w₃, R w₁ w₂ → E w₂ w₃ → E w₁ w₃
  ordinary : ∀ w w', Ordinary w w' → R w w'
  accuse : ∀ (w : World) (item : Evidence), R w (w.accuse item)

namespace Walk

variable {R E : World → World → Prop} {α β : Type}

lemma keeps (h : Walk R E) {m : EngineM α} (hm : Keeps Ordinary m) : Ends R E m :=
  Keeps.ends (fun w => h.ordinary _ _ (hm w)) h.stop

lemma bind (h : Walk R E) {m : EngineM α} {f : α → EngineM β} (hm : Ends R E m)
    (hf : ∀ a, Ends R E (f a)) : Ends R E (m >>= f) :=
  have := h.toIsTrans
  hm.bind hf h.after

lemma pure (h : Walk R E) (a : α) : Ends R E (Pure.pure a : EngineM α) := h.keeps (.pure a)

lemma recordVote (h : Walk R E) (vote : Vote) : Ends R E (e.recordVote vote) := by
  refine h.bind (h.keeps (.ofExcept _)) fun _ => h.bind
    (h.keeps (ordinary_noteValidatorLiveness _)) fun _ => h.bind (h.keeps .get) fun w => ?_
  split_ifs
  · exact h.pure _
  · exact Keeps.ends (fun w => h.accuse w (voteEvidence vote)) h.stop
  · refine h.bind (h.keeps (ordinary_emit rfl)) fun _ =>
      h.bind (h.keeps (ordinary_count vote)) fun _ => h.bind (h.keeps .get) fun w => ?_
    dsimp only
    split_ifs
    · exact h.pure _
    · exact h.bind (h.keeps (ordinary_emit rfl)) fun _ => h.keeps (ordinary_actOnQuorum vote)

lemma recordConflictingProposal (h : Walk R E) (proposal : Proposal) :
    Ends R E (ConsensusEngine.recordConflictingProposal proposal) := by
  refine h.bind (h.keeps .get) fun w => ?_
  split
  · exact h.pure _
  · exact Keeps.ends (fun w => h.accuse w (proposalEvidence proposal)) h.stop

lemma answerQuorum (h : Walk R E) (shouldPrecommit : Option Hash32) :
    Ends R E (e.answerQuorum shouldPrecommit) := by
  rw [answerQuorum.eq_def]
  split
  · exact h.pure _
  · refine h.bind (h.keeps (ordinary_castOnce _ _)) fun cast => ?_
    split
    · exact h.pure _
    · exact h.bind (h.recordVote _) fun _ => h.pure _

variable [Revm]

section

variable (h : Walk R E)
  (hcommit : ∀ (w : World) (f : FinalizedBlock) (state : BTreeMap Address Account),
    R w (w.emitAll [.write (.atomicCommitBlock f state)]))

include h hcommit

/-- A block is executed and committed, if the relations hold after the commit. -/
lemma executeAndStore (block : Block) (certificate : CommitCertificate) :
    Ends R E (e.executeAndStore block certificate) :=
  h.bind (h.keeps (ordinary_onDisk (ordinary_executeBlock _ _ _))) fun _ =>
    h.bind (h.keeps (ordinary_emit rfl)) fun _ =>
      h.bind (Keeps.ends (fun w => hcommit w _ _) h.stop) fun _ => h.pure _

/-- A finalization, if the relations hold after its end, too. -/
lemma finalize (hclose : ∀ finalized : FinalizedBlock,
    Ends R E (e.applyPendingEvidence >>= fun _ => closeHeight finalized)) (blockHash : Hash32) :
    Ends R E (e.finalize blockHash) := by
  refine h.bind (h.keeps .get) fun w => ?_
  split
  · exact h.keeps (.throw _)
  · split
    · exact h.pure _
    · exact h.bind (h.keeps (.ofExcept _)) fun _ =>
        h.bind (h.executeAndStore hcommit _ _) fun finalized => hclose finalized

/-- A block is replayed and committed. -/
lemma validateAndCommit (finalized : FinalizedBlock) :
    Ends R E (onDisk ExecutionError.toText
      (e.execution.validateAndCommitFinalizedBlock e.scheme finalized)) := by
  refine Keeps.ends (fun w => ?_) h.stop
  have hdisk : Keeps (fun d d' : Disk => R { w with disk := d } { w with disk := d' })
      (e.execution.validateAndCommitFinalizedBlock e.scheme finalized) := by
    have : IsTrans Disk fun d d' => R { w with disk := d } { w with disk := d' } :=
      ⟨fun _ _ _ => h.trans _ _ _⟩
    have hordinary : ∀ d d' : Disk, OrdinaryEffects d d' →
        R { w with disk := d } { w with disk := d' } :=
      fun _ _ hd => h.ordinary _ _ ⟨hd, rfl, rfl⟩
    refine .bind (fun d => hordinary _ _ (ExecutionEngine.keeps_prepareBlock _ _ _ d).ordinary)
      fun p => ?_
    split
    · exact fun d => hordinary d d (Std.Refl.refl d)
    · split
      · exact fun d => hordinary d d (Std.Refl.refl d)
      · exact .bind (fun d => hcommit { w with disk := d } finalized p.state) fun _ d =>
          hordinary _ _ (ordinaryEffects_accounting p d)
  rw [onDisk, final_zoom]
  exact hdisk w.disk

/-- An import. -/
lemma importExternalFinalizedBlock (finalized : FinalizedBlock) :
    Ends R E (e.importExternalFinalizedBlock finalized) := by
  refine h.bind (h.keeps .get) fun w => ?_
  split
  · exact h.pure _
  · exact h.bind (h.keeps (.ofExcept _)) fun _ => h.bind (h.keeps (ordinary_emit rfl)) fun _ =>
      h.bind (h.validateAndCommit hcommit _) fun _ => h.keeps (ordinary_advanceHeight _)

end

end Walk

/-- Two relations that hold after a finalization and after an import, too. -/
structure Course [Revm] (e : ConsensusEngine) (R E : World → World → Prop) : Prop
    extends Walk R E where
  finalize : ∀ blockHash, Ends R E (e.finalize blockHash)
  importBlock : ∀ finalized, Ends R E (e.importExternalFinalizedBlock finalized)

namespace Course

variable [Revm] {R E : World → World → Prop}

lemma handleVoteActions (h : e.Course R E) (vote : Vote) : Ends R E (e.handleVoteActions vote) := by
  refine h.bind (h.recordVote _) fun _ => h.bind (h.answerQuorum _) fun _ => ?_
  split
  · exact h.pure _
  · exact h.finalize _

lemma prevoteAndDrive (h : e.Course R E) : Ends R E e.prevoteAndDrive := by
  refine h.bind (h.keeps (ordinary_castOnce _ _)) fun cast => ?_
  split
  · exact h.pure _
  · exact h.handleVoteActions _

lemma onProposal (h : e.Course R E) (proposal : Proposal) : Ends R E (e.onProposal proposal) := by
  refine h.bind (h.keeps .get) fun w => h.bind (h.keeps (.ofExcept _)) fun _ => ?_
  split
  · exact h.pure _
  · split
    · split
      · exact h.recordConflictingProposal _
      · exact h.pure _
    · exact h.bind (h.keeps (ordinary_emit rfl)) fun _ =>
        h.bind (h.keeps (ordinary_update (fun _ => rfl) fun _ => rfl)) fun _ => h.prevoteAndDrive

/-! ## With own proposals -/

section

variable (h : e.Course R E)
  (hmark : ∀ address protection,
    Ends R E (emit (.write (.putSlashingProtection address protection))))
  (hsign : ∀ header, Ends R E (emit (.signHeader header)))

include h hsign

lemma buildBlock (l : LocalValidator) (proposer : Address) (pending : List Transaction)
    (timestampMs : ℕ) : Ends R E (e.buildBlock l proposer pending timestampMs) := by
  refine h.bind (h.keeps .get) fun w => h.bind (h.keeps (ordinary_onDisk fun d =>
    (ExecutionEngine.keeps_dryRunTransactions _ _ _ _ _ d).ordinary)) fun out =>
      h.bind (h.keeps .get) fun w => ?_
  dsimp only
  split
  · exact h.keeps (.throw _)
  · refine h.bind (hsign _) fun _ => ?_
    split_ifs
    · exact h.pure _
    · exact h.pure _

include hmark

lemma maybePropose (pending : List Transaction) (timestampMs : ℕ) :
    Ends R E (e.maybePropose pending timestampMs) := by
  refine h.bind (h.keeps .get) fun w => ?_
  split
  · exact h.pure _
  · split
    · exact h.pure _
    · refine h.bind (h.keeps (.ofExcept _)) fun proposer => ?_
      split
      · exact h.pure _
      · split
        · exact h.pure _
        · split
          · exact h.pure _
          · refine h.bind (hmark _ _) fun _ => h.bind (h.buildBlock hsign _ _ _ _) fun built => ?_
            split
            · exact h.pure _
            · exact h.bind (h.keeps (ordinary_announceBlock _ _ _)) fun _ => h.prevoteAndDrive

/-- **A whole handler**, whether it ends normally or not. -/
theorem handle (w : World) (event : Event) : E w (e.handle w event) := by
  have hhandler : Ends R E (e.handler event) := by
    cases event with
    | start pending timestampMs =>
      exact h.bind (h.keeps ordinary_persistSnapshot) fun _ => h.maybePropose hmark hsign _ _
    | proposal proposal => exact h.onProposal proposal
    | vote vote => exact h.handleVoteActions vote
    | commit finalized => exact h.importBlock finalized
    | timeout pending timestampMs =>
      exact h.bind h.prevoteAndDrive fun _ => h.bind (h.keeps ordinary_advanceRound) fun _ =>
        h.maybePropose hmark hsign _ _
  exact hhandler.final h.stop w

end

end Course

end ConsensusEngine

end ZenoChain
