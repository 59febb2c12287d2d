/-
# Finalization and import, step by step

The consensus task finalizes blocks and the gossip task imports them.  They share the store and the
round state: every operation of the store is one step, and so is every access to the round state
under its lock.  Messages and the mempool are left out, neither the store nor the round state
depends on them.
-/
import ZenoChain.Base.Phases
import ZenoChain.Node.Steps

namespace ZenoChain

open Word Handler

/-! ## What is shared -/

/-- The store with the pool, and the round state. -/
structure EngineMemory where
  shared : Shared
  round : RoundState

/-- The steps: those on the store, and the accesses to the round state. -/
inductive EngineAction
  | store (x : StoreAction)
  | readState
  | takeEvidence
  | toHeight (nextHeight : ℕ)

/-- The answer to a step. -/
abbrev EngineAction.Answer : EngineAction → Type
  | store x => x.Answer
  | readState => RoundState
  | takeEvidence => List Evidence
  | toHeight _ => PUnit

variable [Hashing]

namespace EngineAction

/-- The answer to a step, from the memory. -/
def answer : (x : EngineAction) → EngineMemory → x.Answer
  | store x, m => x.answer m.shared
  | readState, m => m.round
  | takeEvidence, m => m.round.evidence
  | toHeight _, _ => ⟨⟩

/-- The memory after a step. -/
def after : EngineAction → EngineMemory → EngineMemory
  | store x, m => { m with shared := x.after m.shared }
  | readState, m => m
  | takeEvidence, m => { m with round := { m.round with evidence := [] } }
  | toHeight nextHeight, m => { m with round := m.round.toHeight nextHeight }

end EngineAction

/-- What the consensus task and the gossip task share, as a memory. -/
abbrev engineMemory : SharedMemory :=
  .whole EngineMemory EngineAction EngineAction.Answer EngineAction.answer EngineAction.after

/-- A program on the shared memory that may stop with an error. -/
abbrev HeightM (α : Type) := ExceptT String (Program engineMemory) α

namespace HeightM

variable {ε α β : Type}

/-- One step. -/
def act (x : EngineAction) : HeightM x.Answer := ExceptT.lift (.act x .done)

/-- A pure computation that may fail. -/
def ofExcept (x : Except String α) : HeightM α := ExceptT.mk (.done x)

/-- The steps of a program on the store. -/
def onStore (err : ε → String) (p : StepM ε α) : HeightM α :=
  ExceptT.mk (p.run.lift EngineAction.store (fun _ y => y) >>= fun r => .done (r.mapError err))

/-- One write to the store. -/
def write (w : Write) : HeightM PUnit := act (.store (.write w))

/-- One entry of the write-ahead log. -/
def appendWal (entry : ConsensusWalEntry) : HeightM PUnit := write (.appendConsensusWal entry)

end HeightM

open HeightM

namespace ExecutionEngine

variable [Revm] (e : ExecutionEngine) (scheme : SignatureScheme)

/-- The steps of `execute_block`. -/
def executeBlockSteps (block : Block) : StepM ExecutionError BlockExecutionResult := do
  let prepared ← prepareBlockSteps e scheme block
  writeAll (persistedWrites prepared)
  return { block, receipts := prepared.receipts
           epochTransition := prepared.accounting.epochTransition
           proposerFees := prepared.proposerFees, state := prepared.state }

end ExecutionEngine

namespace ConsensusEngine

variable (e : ConsensusEngine)

/-- The check of a certificate, against the active validators of the staking state read. -/
def validateCertificateSteps (block : Block) (certificate : CommitCertificate) : HeightM Unit := do
  let stakingState ← HeightM.act (.store .stakingState)
  HeightM.ofExcept
    (e.validateCommitCertificate { backend := .memory, stakingState } block certificate)

/-- The steps of `apply_pending_evidence`. -/
def applyPendingEvidenceSteps : HeightM PUnit := do
  let evidence ← HeightM.act .takeEvidence
  if evidence = [] then return ⟨⟩
  else
    let staking ← onStore id loadStaking
    match (staking.ensureValidators e.validators).applyEvidence evidence e.economics with
    | .error err => throw err.toText
    | .ok staking => HeightM.write (.putStakingState staking)

/-- Compaction of the log and pruning of old blocks. -/
def tidySteps (height : ℕ) : HeightM PUnit := do
  if 10 < height then HeightM.write (.compactConsensusWal (saturatingSub height 10))
  if 1000 < height then HeightM.write (.pruneBlocksBelow (saturatingSub height 1000))

/-- The steps of `advance_height`. -/
def advanceHeightSteps (nextHeight : ℕ) : HeightM PUnit := do
  HeightM.act (.toHeight nextHeight)
  let state ← HeightM.act .readState
  HeightM.write (.putConsensusSnapshot ⟨state.height, state.round⟩)
  HeightM.appendWal (.snapshotPersisted state.height state.round)
  HeightM.appendWal (.heightAdvanced nextHeight)

variable [Revm]

/-- Executes a block with its certificate and commits both. -/
def executeAndStoreSteps (block : Block) (certificate : CommitCertificate) :
    HeightM FinalizedBlock := do
  let executed ← onStore ExecutionError.toText (e.execution.executeBlockSteps e.scheme block)
  let finalized : FinalizedBlock :=
    { block := executed.block, certificate, receipts := executed.receipts
      epochTransition := executed.epochTransition }
  HeightM.appendWal
    (.commitFinalized certificate.height certificate.round certificate.blockHash)
  HeightM.write (.atomicCommitBlock finalized executed.state)
  return finalized

/-- The steps of `finalize` after the round state has been read. -/
def finalizeFrom (blockHash : Hash32) (state : RoundState) : HeightM PUnit :=
  match state.proposal with
  | none => throw "missing proposal for finalize"
  | some block =>
    if block.hash ≠ blockHash then pure ⟨⟩
    else do
      let certificate := certificateOf state blockHash
      e.validateCertificateSteps block certificate
      let _ ← e.executeAndStoreSteps block certificate
      e.applyPendingEvidenceSteps
      tidySteps state.height
      advanceHeightSteps (wrappingAdd 64 state.height 1)

/-- The steps of `finalize`. -/
def finalizeSteps (blockHash : Hash32) : HeightM PUnit := do
  let state ← HeightM.act .readState
  e.finalizeFrom blockHash state

/-- The steps of `import_external_finalized_block` after the height has been read. -/
def importFrom (finalized : FinalizedBlock) (state : RoundState) : HeightM PUnit :=
  if finalized.certificate.height < state.height then pure ⟨⟩
  else do
    e.validateCertificateSteps finalized.block finalized.certificate
    HeightM.appendWal (.commitFinalized finalized.certificate.height finalized.certificate.round
      finalized.certificate.blockHash)
    onStore ExecutionError.toText (e.execution.validateAndCommitSteps e.scheme finalized)
    advanceHeightSteps (wrappingAdd 64 finalized.block.header.height 1)

/-- The steps of `import_external_finalized_block`. -/
def importSteps (finalized : FinalizedBlock) : HeightM PUnit := do
  let state ← HeightM.act .readState
  e.importFrom finalized state

end ConsensusEngine

/-! ## Alone, the steps are the handlers -/

namespace HeightM

variable {ε α β : Type}

/-- The program run alone on the store and the round state of an engine ends like a handler. -/
def Performs (p : HeightM α) (w : World) (r : EStateM.Result String World α) : Prop :=
  ∀ zkPool, p.run.alone ⟨⟨w.disk.store, zkPool⟩, w.state⟩ =
    match r with
    | .ok a w' => (.ok a, ⟨⟨w'.disk.store, zkPool⟩, w'.state⟩)
    | .error err w' => (.error err, ⟨⟨w'.disk.store, zkPool⟩, w'.state⟩)

variable {p : HeightM α} {f : α → HeightM β} {w w' : World}

lemma Performs.pure (a : α) (w : World) : Performs (Pure.pure a : HeightM α) w (.ok a w) :=
  fun _ => rfl

lemma Performs.throw (err : String) (w : World) :
    Performs (MonadExcept.throw err : HeightM α) w (.error err w) := fun _ => rfl

lemma Performs.ofExcept (x : Except String α) (w : World) :
    Performs (HeightM.ofExcept x) w (Handler.ofExcept x w) := by
  intro zkPool
  cases x <;> rfl

lemma Performs.bind_ok {a : α} {r : EStateM.Result String World β} (h : Performs p w (.ok a w'))
    (hf : Performs (f a) w' r) : Performs (p >>= f) w r := by
  intro zkPool
  rw [ExceptT.run_bind, Program.alone_bind, h zkPool]
  exact hf zkPool

lemma Performs.bind_error {err : String} (h : Performs p w (.error err w')) :
    Performs (p >>= f) w (.error err w') := by
  intro zkPool
  rw [ExceptT.run_bind, Program.alone_bind, h zkPool]
  rfl

/-- Programs that perform alike go on alike. -/
lemma Performs.bind {m : EngineM α} {g : α → EngineM β} (h : Performs p w (m w))
    (hf : ∀ a w', m w = .ok a w' → Performs (f a) w' (g a w')) :
    Performs (p >>= f) w ((m >>= g) w) := by
  rcases hrun : m w with ⟨a, w'⟩ | ⟨err, w'⟩
  · rw [Handler.bind_ok hrun]
    rw [hrun] at h
    exact h.bind_ok (hf a w' hrun)
  · rw [Handler.bind_error hrun]
    rw [hrun] at h
    exact h.bind_error

lemma alone_lift (p : Program sharedMemory α) (m : EngineMemory) :
    (p.lift EngineAction.store (fun _ y => y) : Program engineMemory α).alone m =
      ((p.alone m.shared).1, { m with shared := (p.alone m.shared).2 }) := by
  induction p generalizing m with
  | done a => rfl
  | act x next ih => exact ih _ _

/-- The steps on the store are a handler on the disk. -/
lemma Performs.onStore {p : StepM ε α} {m : StoreM ε α} (h : StepM.Runs p w.disk (m w.disk))
    (err : ε → String) :
    Performs (HeightM.onStore err p) w (ConsensusEngine.onDisk err m w) := by
  intro zkPool
  have hrun : (HeightM.onStore err p).run =
      p.run.lift EngineAction.store (fun _ y => y) >>= fun r => .done (r.mapError err) := rfl
  rw [hrun, Program.alone_bind, alone_lift, h zkPool,
    ConsensusEngine.onDisk, zoom]
  rcases m w.disk with ⟨a, d⟩ | ⟨error, d⟩
  · rfl
  · rfl

lemma Performs.write (x : Write) (w : World) :
    Performs (HeightM.write x) w (ConsensusEngine.emit (.write x) w) := fun _ => rfl

lemma Performs.appendWal (entry : ConsensusWalEntry) (w : World) :
    Performs (HeightM.appendWal entry) w (ConsensusEngine.appendWal entry w) := fun _ => rfl

end HeightM

namespace ConsensusEngine

variable {e : ConsensusEngine} {w : World}

/-- A certificate is checked against the staking state only. -/
lemma validateCommitCertificate_stakingState (e : ConsensusEngine) (store : Store) (block : Block)
    (certificate : CommitCertificate) :
    e.validateCommitCertificate { backend := .memory, stakingState := store.stakingState } block
      certificate = e.validateCommitCertificate store block certificate := by
  have hstanding : e.standing { backend := .memory, stakingState := store.stakingState } =
      e.standing store := standing_congr rfl
  rw [validateCommitCertificate, validateCommitCertificate, quorum_congr hstanding]

lemma performs_validateCertificate (e : ConsensusEngine) (block : Block)
    (certificate : CommitCertificate) (w : World) :
    Performs (e.validateCertificateSteps block certificate) w
      (Handler.ofExcept (e.validateCommitCertificate w.disk.store block certificate) w) := by
  have hread : Performs (HeightM.act (.store .stakingState)) w (.ok w.disk.store.stakingState w) :=
    fun _ => rfl
  refine hread.bind_ok ?_
  rw [validateCommitCertificate_stakingState]
  exact .ofExcept _ w

lemma performs_applyPendingEvidence (e : ConsensusEngine) (w : World) :
    Performs e.applyPendingEvidenceSteps w (e.applyPendingEvidence w) := by
  have htake : Performs (HeightM.act .takeEvidence) w
      (.ok w.state.evidence { w with state := { w.state with evidence := [] } }) := fun _ => rfl
  refine htake.bind_ok ?_
  rw [applyPendingEvidence, bind_ok (get_run w), bind_ok (update_run _ w)]
  split_ifs
  · exact .pure _ _
  · have hload : Performs (onStore id loadStaking)
        { w with state := { w.state with evidence := [] } }
        (.ok (StakingSnapshot.load w.disk.store)
          { w with state := { w.state with evidence := [] } }) := fun _ => rfl
    refine hload.bind_ok ?_
    rcases ((StakingSnapshot.load w.disk.store).ensureValidators e.validators).applyEvidence
      w.state.evidence e.economics with err | staking
    · exact .throw _ _
    · exact .write _ _

lemma performs_tidy (height : ℕ) (w : World) : Performs (tidySteps height) w (tidy height w) := by
  rw [tidySteps, tidy]
  split_ifs
  · exact (Performs.write _ w).bind fun _ w' _ => .write _ w'
  · exact (Performs.write _ w).bind fun _ w' _ => .pure _ w'
  · exact (Performs.pure _ w).bind fun _ w' _ => .write _ w'
  · exact .pure _ w

lemma performs_advanceHeight (nextHeight : ℕ) (w : World) :
    Performs (advanceHeightSteps nextHeight) w (advanceHeight nextHeight w) := fun _ => rfl

variable [Revm]

/-- The steps of an execution are the execution. -/
lemma runs_executeBlock (e : ExecutionEngine) (scheme : SignatureScheme) (block : Block)
    (d : Disk) :
    StepM.Runs (e.executeBlockSteps scheme block) d (e.executeBlock scheme block d) := by
  refine (ExecutionEngine.runs_prepareBlock block d).bind fun prepared d' _ => ?_
  refine StepM.Runs.bind (m := ExecutionEngine.persistAccounting prepared) ?_
    fun _ d'' _ => .pure _ d''
  have hwrites := runs_writeAll (ε := ExecutionError)
    (ExecutionEngine.persistedWrites prepared) d'
  rw [← ExecutionEngine.accountingWrites_eq] at hwrites
  exact hwrites

lemma performs_executeAndStore (e : ConsensusEngine) (block : Block)
    (certificate : CommitCertificate) (w : World) :
    Performs (e.executeAndStoreSteps block certificate) w
      (e.executeAndStore block certificate w) := by
  refine (Performs.onStore (runs_executeBlock _ _ _ _) _).bind fun executed w₁ _ => ?_
  refine (Performs.appendWal _ w₁).bind fun _ w₂ _ => ?_
  exact (Performs.write _ w₂).bind fun _ w₃ _ => .pure _ w₃

/-- **The steps of a finalization**, when nothing comes in between, are the handler. -/
theorem performs_finalize (e : ConsensusEngine) (blockHash : Hash32) (w : World) :
    Performs (e.finalizeSteps blockHash) w (e.finalize blockHash w) := by
  have hread : Performs (HeightM.act .readState) w (.ok w.state w) := fun _ => rfl
  refine hread.bind_ok ?_
  rw [finalize, bind_ok (get_run w), finalizeFrom]
  rcases w.state.proposal with _ | block
  · exact .throw _ w
  · dsimp only
    split_ifs
    · exact .pure _ w
    · refine (performs_validateCertificate _ _ _ w).bind fun _ w₁ hvalid => ?_
      obtain ⟨-, rfl⟩ := ofExcept_eq_ok_iff.mp hvalid
      refine (performs_executeAndStore _ _ _ w).bind fun finalized w₂ hstored => ?_
      refine (performs_applyPendingEvidence _ w₂).bind fun _ w₃ hsettled => ?_
      have hheight : w.state.height = w₃.state.height := by
        obtain ⟨p, d₁, -, -, rfl⟩ := executeAndStore_ok_iff.mp hstored
        rcases applyPendingEvidence_cases e _ with ⟨d, -, hok⟩ | ⟨err, -, herror⟩
        · obtain rfl := (EStateM.Result.ok.inj (hok.symm.trans hsettled)).2
          rfl
        · rw [herror] at hsettled
          cases hsettled
      rw [hheight]
      rw [closeHeight, bind_ok (get_run w₃), bind_ok (emit_run _ w₃)]
      -- The message goes to the journal, which the steps do not touch.
      have hclose := (performs_tidy w₃.state.height
        { w₃ with disk := w₃.disk.record (.broadcast (.commit finalized)) }).bind
          fun _ w₄ _ => performs_advanceHeight (wrappingAdd 64 w₃.state.height 1) w₄
      exact hclose

/-- **The steps of an import**, when nothing comes in between, are the handler. -/
theorem performs_import (e : ConsensusEngine) (finalized : FinalizedBlock) (w : World) :
    Performs (e.importSteps finalized) w (e.importExternalFinalizedBlock finalized w) := by
  have hread : Performs (HeightM.act .readState) w (.ok w.state w) := fun _ => rfl
  refine hread.bind_ok ?_
  rw [importExternalFinalizedBlock, bind_ok (get_run w), importFrom]
  split_ifs
  · exact .pure _ w
  · refine (performs_validateCertificate _ _ _ w).bind fun _ w₁ _ => ?_
    refine (Performs.appendWal _ w₁).bind fun _ w₂ _ => ?_
    refine (Performs.onStore (ExecutionEngine.runs_validateAndCommit _ _) _).bind fun _ w₃ _ => ?_
    exact performs_advanceHeight _ w₃

end ConsensusEngine

end ZenoChain
