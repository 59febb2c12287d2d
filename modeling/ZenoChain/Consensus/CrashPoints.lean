/-
# A crash in the middle of a finalization

Finalizing a block is a sequence of separate writes: accounts, staking, governance, the log
record of the commit, and only then the block itself.  Recovery takes the log record for the
commit: after a crash between the two, the engine starts at the next height and drops the
block as stale, although the store does not hold it.
-/
import ZenoChain.Consensus.Log
import ZenoChain.Consensus.Devnet

namespace ZenoChain

open Word Handler

namespace ConsensusEngine

variable [Hashing] [Revm]

/-- The effects of finalizing a block, oldest first. -/
def finalizeEffects (e : ConsensusEngine) (w : World) (blockHash : Hash32) : List Effect :=
  (final (e.finalize blockHash w)).disk.journal.drop w.disk.journal.length

/-- Two stores hold the same accounts, staking and governance state, epoch transitions and
latest block. -/
structure SameOutcome (s s' : Store) : Prop where
  accounts : s.accounts = s'.accounts
  staking : s.stakingState = s'.stakingState
  governance : s.governanceState = s'.governanceState
  epochs : s.epochTransitions = s'.epochTransitions
  latest : s.latestBlock = s'.latestBlock

/-- Wherever the process stops while it finalizes a block, importing that block after a restart
succeeds and has the outcome of the finalization that was not interrupted. -/
def CrashConsistent (e : ConsensusEngine) (w : World) (f : FinalizedBlock) : Prop :=
  ∀ k, ∃ w', e.importExternalFinalizedBlock f
      (World.boot (w.disk.recordAll ((e.finalizeEffects w f.block.hash).take k))) = .ok ⟨⟩ w' ∧
    SameOutcome w'.disk.store (final (e.finalize f.block.hash w)).disk.store

variable {e : ConsensusEngine} {w w' : World}

omit [Revm] in
/-- Executing a block leaves the latest one in its place. -/
lemma latestBlock_recordAll {es : List Effect} (h : ∀ x ∈ es, x.IsEvmWrite ∨ x.IsAccounting)
    (d : Disk) : (d.recordAll es).store.latestBlock = d.store.latestBlock := by
  induction es generalizing d with
  | nil => rfl
  | cons x es ih =>
    have hone : (d.record x).store.latestBlock = d.store.latestBlock := by
      rcases h x List.mem_cons_self with hevm | haccounting
      · cases hevm
        rfl
      · cases haccounting <;> rfl
    rw [Disk.recordAll_cons, ih (fun y hy => h y (.tail _ hy)), hone]

omit [Revm] in
lemma applyPendingEvidence_ok (h : e.applyPendingEvidence w = .ok ⟨⟩ w') :
    ∃ es, w'.disk = w.disk.recordAll es := by
  rcases applyPendingEvidence_cases e w with ⟨d, hsettles, hok⟩ | ⟨err, -, herror⟩
  · obtain rfl := (EStateM.Result.ok.inj (hok.symm.trans h)).2
    exact hsettles.recordAll
  · rw [herror] at h
    cases h

omit [Revm] in
lemma closeHeight_ok {f : FinalizedBlock} (h : closeHeight f w = .ok ⟨⟩ w') :
    ∃ es, .broadcast (.commit f) ∈ es ∧ w'.disk = w.disk.recordAll es := by
  obtain ⟨es, -, hbroadcast, hok⟩ := closeHeight_run f w
  obtain rfl := (EStateM.Result.ok.inj (hok.symm.trans h)).2
  exact ⟨es, hbroadcast, rfl⟩

/-- What a finalization does in order: the writes of the execution, the log record of the
commit, the block, and what follows it. -/
lemma finalize_effects {block : Block} (hheld : w.state.proposal = some block)
    (hrun : e.finalize block.hash w = .ok ⟨⟩ w') :
    ∃ f state before after, f.block = block ∧ f.certificate = certificateOf w.state block.hash ∧
      (∀ x ∈ before, x.IsEvmWrite ∨ x.IsAccounting) ∧ .broadcast (.commit f) ∈ after ∧
      e.finalizeEffects w block.hash = before ++
        .write (.appendConsensusWal (.commitFinalized f.certificate.height f.certificate.round
          f.certificate.blockHash)) :: .write (.atomicCommitBlock f state) :: after := by
  have hfinal : final (e.finalize block.hash w) = w' := by rw [hrun]; rfl
  rw [finalizeEffects, hfinal]
  rw [finalize, bind_ok (get_run w), hheld] at hrun
  dsimp only at hrun
  rw [if_neg (not_not.mpr rfl)] at hrun
  obtain ⟨⟨⟩, w₁, hvalid, hrun⟩ := bind_eq_ok_iff.mp hrun
  obtain ⟨-, rfl⟩ := ofExcept_eq_ok_iff.mp hvalid
  obtain ⟨f, w₁, hstored, hrun⟩ := bind_eq_ok_iff.mp hrun
  obtain ⟨p, d₁, hprepares, hf, rfl⟩ := executeAndStore_ok_iff.mp hstored
  obtain ⟨evm, hevm, rfl⟩ := hprepares.onlyEvmWrites
  obtain ⟨⟨⟩, w₂, hsettled, hclosed⟩ := bind_eq_ok_iff.mp hrun
  obtain ⟨es, hes⟩ := applyPendingEvidence_ok hsettled
  obtain ⟨es', hbroadcast, hes'⟩ := closeHeight_ok hclosed
  refine ⟨f, p.state, evm ++ ExecutionEngine.accountingWrites p, es ++ es', ?_, ?_, fun x hx => ?_,
    List.mem_append_right _ hbroadcast, ?_⟩
  · rw [hf]
  · rw [hf]
  · exact (List.mem_append.mp hx).imp (hevm x) ExecutionEngine.isAccounting_of_mem
  · rw [hes', hes, Disk.journal_recordAll, Disk.journal_recordAll, Disk.journal_recordAll,
      Disk.journal_recordAll, hf]
    simp only [List.append_assoc, List.drop_left, List.cons_append, List.nil_append]

/-- **No finalization survives every crash.**  Whenever finalizing a block makes it the latest
one, a crash between the log record of the commit and the block itself leaves a store on which
importing the block changes nothing: the engine recovers to the next height and takes the block
for stale. -/
theorem finalize_not_crashConsistent {block : Block} (hheld : w.state.proposal = some block)
    (hrun : e.finalize block.hash w = .ok ⟨⟩ w') (hroom : w.state.height + 1 < 2 ^ 64)
    (hnew : w'.disk.store.latestBlock ≠ w.disk.store.latestBlock) :
    ∃ f, f.block = block ∧ .broadcast (.commit f) ∈ e.finalizeEffects w block.hash ∧
      ¬ e.CrashConsistent w f := by
  obtain ⟨f, state, before, after, rfl, hcertificate, hbefore, hbroadcast, heffects⟩ :=
    finalize_effects hheld hrun
  refine ⟨f, rfl, ?_, fun hconsistent => ?_⟩
  · rw [heffects]
    exact List.mem_append_right _ (.tail _ (.tail _ hbroadcast))
  -- The process stops when the record is in the log and the block is not in the store.
  obtain ⟨w₁, himport, houtcome⟩ := hconsistent (before.length + 1)
  rw [heffects, ← List.singleton_append, ← List.append_assoc,
    List.take_left' (by rw [List.length_append, List.length_singleton]), Disk.recordAll_append]
    at himport
  set d := w.disk.recordAll before
  set crashed := d.recordAll [.write (.appendConsensusWal (.commitFinalized f.certificate.height
    f.certificate.round f.certificate.blockHash))]
  have hlogged : .commitFinalized f.certificate.height f.certificate.round f.certificate.blockHash ∈
      crashed.store.loadConsensusWal := by
    rw [Store.loadConsensusWal, Table.mem_values_iff]
    refine ⟨d.store.consensusWalNext, ?_⟩
    show (d.store.consensusWal.insert _ _)[_]? = _
    rw [Table.getElem?_insert, if_pos rfl]
  have hcertified : f.certificate.height = w.state.height := by rw [hcertificate]; rfl
  have hstale : f.certificate.height < (World.boot crashed).state.height :=
    RecoveredState.lt_height_of_commitFinalized hlogged (hcertified ▸ hroom) _
  rw [importExternalFinalizedBlock, bind_ok (get_run _), if_pos hstale] at himport
  obtain rfl := (EStateM.Result.ok.inj himport).2
  have hlatest : crashed.store.latestBlock = w.disk.store.latestBlock :=
    latestBlock_recordAll hbefore w.disk
  have hfinal : final (e.finalize f.block.hash w) = w' := by rw [hrun]; rfl
  exact hnew (by rw [← hfinal, ← houtcome.latest]; exact hlatest)

end ConsensusEngine

/-! ## The first block of a network -/

section

open Transparent ConsensusEngine

/-- A block of the validator `2` for the first round, with the roots of its execution. -/
def firstProposal : Block := propose (engineOf [1]).execution blank [2] 1 0 0 []

/-- A validator has handled the proposal and two precommits, and has counted a third one. -/
def beforeFirst : World :=
  let precommit (key : Bytes) := Transparent.castVote key 1 0 .precommit firstProposal.hash
  final ((engineOf [1]).recordVote (precommit [4])
    ([.proposal ⟨1, 0, firstProposal, address [2]⟩, .vote (precommit [2]), .vote (precommit [3])].foldl
      (engineOf [1]).handle (World.boot blank)))

/-- The block with its certificate. -/
def firstFinalized : FinalizedBlock :=
  { block := firstProposal, certificate := certificateOf beforeFirst.state firstProposal.hash
    receipts := [], epochTransition := none }

/-- The block that an effect announces as committed. -/
def announced : Effect → Option FinalizedBlock
  | .broadcast (.commit f) => some f
  | _ => none

lemma mem_of_announced {es : List Effect} {f : FinalizedBlock} (h : f ∈ es.filterMap announced) :
    .broadcast (.commit f) ∈ es := by
  obtain ⟨x, hx, hsent⟩ := List.mem_filterMap.mp h
  unfold announced at hsent
  split at hsent
  · obtain rfl := Option.some.inj hsent
    exact hx
  · cases hsent

/-- The finalization succeeds and makes the block the latest one; after a crash before its sixth
write, the import of the block succeeds and there is still no block. -/
lemma firstFinalize_facts :
    (output ((engineOf [1]).finalize firstProposal.hash beforeFirst)).isSome = true ∧
    beforeFirst.state.proposal = some firstProposal ∧
    beforeFirst.disk.store.latestBlock = none ∧
    (final ((engineOf [1]).finalize firstProposal.hash beforeFirst)).disk.store.latestBlock =
      some firstFinalized ∧
    firstFinalized ∈
      ((engineOf [1]).finalizeEffects beforeFirst firstProposal.hash).filterMap announced ∧
    (final ((engineOf [1]).importExternalFinalizedBlock firstFinalized
      (World.boot (beforeFirst.disk.recordAll (((engineOf [1]).finalizeEffects beforeFirst
        firstProposal.hash).take 5))))).disk.store.latestBlock = none := by
  decide +kernel

/-- The import after that crash stores nothing. -/
theorem first_not_crashConsistent :
    (output ((engineOf [1]).finalize firstProposal.hash beforeFirst)).isSome = true ∧
    .broadcast (.commit firstFinalized) ∈
      (engineOf [1]).finalizeEffects beforeFirst firstProposal.hash ∧
    ¬ (engineOf [1]).CrashConsistent beforeFirst firstFinalized := by
  obtain ⟨hrun, -, -, hafter, hannounced, hcrashed⟩ := firstFinalize_facts
  refine ⟨hrun, mem_of_announced hannounced, fun hconsistent => ?_⟩
  obtain ⟨w', himport, houtcome⟩ := hconsistent 5
  have hnone : w'.disk.store.latestBlock = none := by
    have := hcrashed
    rwa [show firstProposal.hash = firstFinalized.block.hash from rfl, himport] at this
  have hsome : w'.disk.store.latestBlock = some firstFinalized := houtcome.latest.trans hafter
  rw [hnone] at hsome
  cases hsome

/-- The general fact for that block. -/
theorem first_finalize_not_crashConsistent : ∃ f, f.block = firstProposal ∧
    .broadcast (.commit f) ∈ (engineOf [1]).finalizeEffects beforeFirst firstProposal.hash ∧
    ¬ (engineOf [1]).CrashConsistent beforeFirst f := by
  obtain ⟨hrun, hheld, hbefore, hafter, -, -⟩ := firstFinalize_facts
  rcases hfinal : (engineOf [1]).finalize firstProposal.hash beforeFirst with ⟨⟨⟩, w'⟩ | ⟨err, w'⟩
  · rw [hfinal] at hafter
    refine finalize_not_crashConsistent hheld hfinal (by decide +kernel) fun heq => ?_
    have hsome : w'.disk.store.latestBlock = some firstFinalized := hafter
    rw [heq, hbefore] at hsome
    cases hsome
  · rw [hfinal] at hrun
    cases hrun

end

end ZenoChain
