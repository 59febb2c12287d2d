/-
# The order of commits

A block is committed right behind its record in the log, and a compaction comes behind the last
commit and keeps its record; blocks are pruned a thousand heights below the last commit.  So wherever the process stops, the log has the record of a commit that
is not below any block committed so far, and the engine recovers above all of them: no height is
committed twice, in however many lives.
-/
import ZenoChain.Base.Histories
import ZenoChain.Consensus.Agreement
import ZenoChain.Consensus.CrashPoints
import ZenoChain.Consensus.Ordinary
import ZenoChain.Node.Actions

namespace ZenoChain

open Word Handler

/-! ## Commits and compactions in the journal -/

/-- The heights of the certificates of committed blocks, oldest first. -/
def committedHeights (journal : List Effect) : List ℕ :=
  (journal.filterMap Effect.commits).map fun f => f.certificate.height

@[simp] lemma committedHeights_append (journal es : List Effect) :
    committedHeights (journal ++ es) = committedHeights journal ++ committedHeights es := by
  rw [committedHeights, List.filterMap_append, List.map_append]
  rfl

lemma committedHeights_of_none {es : List Effect} (h : ∀ x ∈ es, Effect.commits x = none) :
    committedHeights es = [] := by
  rw [committedHeights, List.filterMap_eq_nil_iff.mpr h]
  rfl

/-- The commit of a height has been logged, and since then the log is the same. -/
def AfterRecord (height : ℕ) (journal : List Effect) : Prop :=
  ∃ front round blockHash rest,
    journal = front ++
      .write (.appendConsensusWal (.commitFinalized height round blockHash)) :: rest ∧
    ∀ x ∈ rest, x.sparesLog

/-- The record of the last commit is the last one in the log, and its height is not below a bound. -/
def AfterCommit (bound : ℕ) (journal : List Effect) : Prop :=
  ∃ height, bound ≤ height ∧ AfterRecord height journal ∧
    (committedHeights journal).getLast? = some height

/-- The height of the last commit is not below a bound. -/
def HasReached (bound : ℕ) (journal : List Effect) : Prop :=
  ∃ height, bound ≤ height ∧ (committedHeights journal).getLast? = some height

/-- A block is committed behind its record, the log is compacted behind a commit which it keeps, and
blocks are pruned far below the last one. -/
structure Effect.InOrder (before : List Effect) (x : Effect) : Prop where
  commit : ∀ f ∈ x.commits, AfterRecord f.certificate.height before
  compact : ∀ n, x = .write (.compactConsensusWal n) → AfterCommit n before
  prune : ∀ n, x = .write (.pruneBlocksBelow n) → HasReached (n + 1000) before

lemma AfterRecord.append {height : ℕ} {journal es : List Effect} (h : AfterRecord height journal)
    (hes : ∀ x ∈ es, Effect.sparesLog x) : AfterRecord height (journal ++ es) := by
  obtain ⟨front, round, blockHash, rest, rfl, hrest⟩ := h
  exact ⟨front, round, blockHash, rest ++ es, by rw [List.append_assoc, List.cons_append],
    List.forall_mem_append.mpr ⟨hrest, hes⟩⟩

lemma AfterCommit.append {bound : ℕ} {journal es : List Effect} (h : AfterCommit bound journal)
    (hspares : ∀ x ∈ es, Effect.sparesLog x) (hnone : ∀ x ∈ es, Effect.commits x = none) :
    AfterCommit bound (journal ++ es) := by
  obtain ⟨height, hbound, hrecord, hlast⟩ := h
  refine ⟨height, hbound, hrecord.append hspares, ?_⟩
  rw [committedHeights_append, committedHeights_of_none hnone, List.append_nil, hlast]

lemma AfterCommit.mono {bound bound' : ℕ} {journal : List Effect} (h : AfterCommit bound journal)
    (hle : bound' ≤ bound) : AfterCommit bound' journal := by
  obtain ⟨height, hbound, hafter⟩ := h
  exact ⟨height, hle.trans hbound, hafter⟩

lemma AfterCommit.hasReached {bound : ℕ} {journal : List Effect} (h : AfterCommit bound journal) :
    HasReached bound journal := by
  obtain ⟨height, hbound, -, hlast⟩ := h
  exact ⟨height, hbound, hlast⟩

lemma HasReached.mono {bound bound' : ℕ} {journal : List Effect} (h : HasReached bound journal)
    (hle : bound' ≤ bound) : HasReached bound' journal := by
  obtain ⟨height, hbound, hlast⟩ := h
  exact ⟨height, hle.trans hbound, hlast⟩

lemma HasReached.append {bound : ℕ} {journal es : List Effect} (h : HasReached bound journal)
    (hnone : ∀ x ∈ es, Effect.commits x = none) : HasReached bound (journal ++ es) := by
  obtain ⟨height, hbound, hlast⟩ := h
  exact ⟨height, hbound, by
    rw [committedHeights_append, committedHeights_of_none hnone, List.append_nil, hlast]⟩

/-- The effect compacts the log or prunes blocks. -/
def Effect.tidies : Effect → Bool
  | .write (.compactConsensusWal _) | .write (.pruneBlocksBelow _) => true
  | _ => false

/-- An effect that neither commits nor tidies up may come at any time. -/
lemma Effect.inOrder_of_none {x : Effect} (hcommit : x.commits = none) (htidies : x.tidies = false)
    (before : List Effect) : x.InOrder before where
  commit f hf := by
    rw [hcommit] at hf
    cases hf
  compact n hn := by
    rw [hn] at htidies
    cases htidies
  prune n hn := by
    rw [hn] at htidies
    cases htidies

lemma Effect.commits_of_isOrdinary {x : Effect} (h : x.isOrdinary) : x.commits = none := by
  unfold commits
  split
  · cases h
  · rfl

lemma Effect.inOrder_of_isOrdinary {x : Effect} (h : x.isOrdinary) (before : List Effect) :
    x.InOrder before := by
  refine inOrder_of_none (commits_of_isOrdinary h) ?_ before
  unfold tidies
  split
  · cases h
  · cases h
  · rfl

section

variable [Hashing] {d : Disk} {journal : List Effect}

/-- The record is in the log, and a compaction that does not go beyond it keeps it. -/
lemma AfterRecord.logged {height : ℕ} (h : AfterRecord height journal) (hnumbered : d.Numbered) :
    ∃ round blockHash, .commitFinalized height round blockHash ∈
        (d.recordAll journal).store.loadConsensusWal ∧
      ∀ n ≤ height, .commitFinalized height round blockHash ∈ ((d.recordAll journal).record
        (.write (.compactConsensusWal n))).store.loadConsensusWal := by
  obtain ⟨front, round, blockHash, rest, rfl, hrest⟩ := h
  have hfront : (d.recordAll front).Numbered := hnumbered.recordAll front
  refine ⟨round, blockHash, ?_, fun n hn => ?_⟩
  · rw [Disk.recordAll_append, Disk.recordAll_cons, Store.loadConsensusWal,
      Disk.log_recordAll_sparing _ hrest, ← Store.loadConsensusWal, hfront.log_append]
    exact List.mem_append_right _ (List.mem_singleton_self _)
  · rw [Disk.recordAll_append, Disk.recordAll_cons]
    exact hfront.mem_compact hn hrest

omit [Hashing] in
/-- In a list that rises, nothing is above the last element. -/
lemma le_of_getLast? {heights : List ℕ} (h : heights.Pairwise (· < ·)) {last : ℕ}
    (hlast : heights.getLast? = some last) : ∀ height ∈ heights, height ≤ last := by
  obtain ⟨front, rfl⟩ := List.getLast?_eq_some_iff.mp hlast
  intro height hheight
  rcases List.mem_append.mp hheight with hold | hnew
  · exact ((List.pairwise_append.mp h).2.2 height hold last (List.mem_singleton_self _)).le
  · exact (List.mem_singleton.mp hnew).le

/-- Wherever the process stops, the log has the record of a commit that is not below the blocks
committed so far. -/
lemma exists_record_of_inOrder (horder : Throughout Effect.InOrder journal)
    (hrise : (committedHeights journal).Pairwise (· < ·)) (hnumbered : d.Numbered) :
    ∀ height ∈ committedHeights journal, ∃ top round blockHash, height ≤ top ∧
      .commitFinalized top round blockHash ∈ (d.recordAll journal).store.loadConsensusWal := by
  refine horder.induction (motive := fun l => (committedHeights l).Pairwise (· < ·) →
    ∀ height ∈ committedHeights l, ∃ top round blockHash, height ≤ top ∧
      .commitFinalized top round blockHash ∈ (d.recordAll l).store.loadConsensusWal)
    (fun _ => List.forall_mem_nil _) (fun l x _ hx ih hrise => ?_) hrise
  have hrecord : d.recordAll (l ++ [x]) = (d.recordAll l).record x := by
    rw [Disk.recordAll_append]
    rfl
  have hbefore : (committedHeights l).Pairwise (· < ·) := by
    rw [committedHeights_append] at hrise
    exact (List.pairwise_append.mp hrise).1
  have hsame : x.commits = none → committedHeights (l ++ [x]) = committedHeights l := by
    intro hnone
    rw [committedHeights_append, committedHeights_of_none (List.forall_mem_singleton.mpr hnone),
      List.append_nil]
  rw [hrecord]
  rcases hcommit : x.commits with _ | f
  · rw [hsame hcommit]
    by_cases hspares : x.sparesLog
    · rw [Store.loadConsensusWal, Disk.log_record_sparing _ hspares]
      exact ih hbefore
    · rcases x with w | _ | _ | _ | _
      · cases w with
        | appendConsensusWal entry =>
          rw [(hnumbered.recordAll l).log_append]
          intro height hheight
          obtain ⟨top, round, blockHash, hle, hlogged⟩ := ih hbefore height hheight
          exact ⟨top, round, blockHash, hle, List.mem_append_left _ hlogged⟩
        | compactConsensusWal n =>
          -- The record of the last commit stays.
          obtain ⟨top, hbound, hafter, hlast⟩ := hx.compact n rfl
          obtain ⟨round, blockHash, -, hkept⟩ := hafter.logged hnumbered
          exact fun height hheight =>
            ⟨top, round, blockHash, le_of_getLast? hbefore hlast height hheight, hkept n hbound⟩
        | _ => exact absurd rfl hspares
      all_goals exact absurd rfl hspares
  · -- The record of the block is there, and the earlier blocks are below it.
    obtain ⟨round, blockHash, hlogged, -⟩ := (hx.commit f hcommit).logged hnumbered
    have hspares : x.sparesLog := by
      unfold Effect.commits at hcommit
      split at hcommit
      · rfl
      · cases hcommit
    have hheights : committedHeights (l ++ [x]) =
        committedHeights l ++ [f.certificate.height] := by
      rw [committedHeights_append, committedHeights, committedHeights, List.filterMap_cons, hcommit]
      rfl
    rw [hheights] at hrise ⊢
    rw [Store.loadConsensusWal, Disk.log_record_sparing _ hspares]
    have hle : ∀ height ∈ committedHeights l ++ [f.certificate.height],
        height ≤ f.certificate.height :=
      le_of_getLast? hrise (List.getLast?_eq_some_iff.mpr ⟨_, rfl⟩)
    exact fun height hheight => ⟨_, round, blockHash, hle height hheight, hlogged⟩

end

/-! ## Handlers keep the order -/

namespace ConsensusEngine

variable [Hashing] {e : ConsensusEngine} {w w' : World}

/-- The commits and compactions of a program come in order. -/
def KeepsOrder (w w' : World) : Prop :=
  Throughout Effect.InOrder w.disk.journal → Throughout Effect.InOrder w'.disk.journal

lemma inOrder_recordAll {d : Disk} {es : List Effect} (h : Throughout Effect.InOrder d.journal)
    (hes : ∀ x ∈ es, ∀ before, Effect.InOrder before x) :
    Throughout Effect.InOrder (d.recordAll es).journal := by
  rw [Disk.journal_recordAll]
  exact h.append hes

lemma keepsOrder_of_ordinary {d d' : Disk} (h : OrdinaryEffects d d')
    (hd : Throughout Effect.InOrder d.journal) : Throughout Effect.InOrder d'.journal := by
  obtain ⟨es, hes, rfl⟩ := h
  exact inOrder_recordAll hd fun x hx => Effect.inOrder_of_isOrdinary (hes x hx)

/-- The parts of the handlers that commit nothing. -/
lemma orderWalk : Walk KeepsOrder KeepsOrder where
  trans _ _ _ h h' hw := h' (h hw)
  stop _ _ h := h
  after _ _ _ h h' hw := h' (h hw)
  ordinary _ _ h := keepsOrder_of_ordinary h.disk
  accuse _ _ hw :=
    throughout_concat.mpr ⟨hw, Effect.inOrder_of_none rfl rfl _⟩

/-- The evidence that waits is applied, and the log stays as it is. -/
lemma order_settles {items : List Evidence} {n : ℕ} {d d' : Disk} (h : Settles e items d d')
    (hd : Throughout Effect.InOrder d.journal) (hafter : AfterCommit n d.journal) :
    Throughout Effect.InOrder d'.journal ∧ AfterCommit n d'.journal := by
  cases h with
  | none => exact ⟨hd, hafter⟩
  | @some _ _ staking =>
    have hes : ∀ x ∈ ([.observe (.punished items), .write (.putStakingState staking)] : List Effect),
        x.sparesLog ∧ x.commits = none ∧ x.tidies = false := by
      intro x hx
      simp only [List.mem_cons, List.not_mem_nil, or_false] at hx
      rcases hx with rfl | rfl
      · exact ⟨rfl, rfl, rfl⟩
      · exact ⟨rfl, rfl, rfl⟩
    refine ⟨inOrder_recordAll hd fun x hx => Effect.inOrder_of_none (hes x hx).2.1 (hes x hx).2.2, ?_⟩
    rw [Disk.journal_recordAll]
    exact hafter.append (fun x hx => (hes x hx).1) fun x hx => (hes x hx).2.1

/-- The compaction comes behind the commit, and so does the pruning. -/
lemma order_tidy (height : ℕ) (hw : Throughout Effect.InOrder w.disk.journal)
    (hafter : AfterCommit height w.disk.journal) :
    ∃ w', tidy height w = .ok ⟨⟩ w' ∧ Throughout Effect.InOrder w'.disk.journal := by
  have hcompact : Throughout Effect.InOrder (w.disk.journal ++
      [.write (.compactConsensusWal (saturatingSub height 10))]) := by
    refine throughout_concat.mpr ⟨hw, ⟨(fun _ hc => by cases hc), ?_, (fun _ hc => by cases hc)⟩⟩
    rintro n ⟨⟩
    exact hafter.mono (Nat.sub_le _ _)
  have hprune : 1000 < height → Throughout Effect.InOrder (w.disk.journal ++
      [.write (.compactConsensusWal (saturatingSub height 10))] ++
      [.write (.pruneBlocksBelow (saturatingSub height 1000))]) := by
    intro hold
    refine throughout_concat.mpr ⟨hcompact, ⟨(fun _ hc => by cases hc), (fun _ hc => by cases hc), ?_⟩⟩
    intro n hn
    have hbound : saturatingSub height 1000 = n := Write.pruneBlocksBelow.inj (Effect.write.inj hn)
    refine (hafter.hasReached.append (List.forall_mem_singleton.mpr rfl)).mono ?_
    rw [← hbound, saturatingSub]
    omega
  rw [tidy]
  by_cases hlog : 10 < height
  · rw [if_pos hlog]
    by_cases hblocks : 1000 < height
    · rw [if_pos hblocks]
      exact ⟨_, rfl, hprune hblocks⟩
    · rw [if_neg hblocks]
      exact ⟨_, rfl, hcompact⟩
  · rw [if_neg hlog, if_neg (by omega)]
    exact ⟨_, rfl, hw⟩

lemma order_closeHeight (f : FinalizedBlock) (hw : Throughout Effect.InOrder w.disk.journal)
    (hafter : AfterCommit w.state.height w.disk.journal) :
    Throughout Effect.InOrder (final (closeHeight f w)).disk.journal := by
  rw [closeHeight, bind_ok (get_run w), bind_ok (emit_run _ w)]
  have hsent : Throughout Effect.InOrder (w.emitAll [.broadcast (.commit f)]).disk.journal :=
    throughout_concat.mpr ⟨hw, Effect.inOrder_of_none rfl rfl _⟩
  obtain ⟨w', htidy, hw'⟩ := order_tidy w.state.height hsent
    (hafter.append (List.forall_mem_singleton.mpr rfl) (List.forall_mem_singleton.mpr rfl))
  rw [bind_ok htidy]
  exact keepsOrder_of_ordinary (ordinary_advanceHeight _ w').disk hw'

variable [Revm]

/-- A block that is executed and stored: the record comes right before the block. -/
lemma order_executeAndStore (block : Block) (certificate : CommitCertificate) :
    Keeps KeepsOrder (e.executeAndStore block certificate) := by
  refine (orderWalk.bind (orderWalk.keeps (ordinary_onDisk (ordinary_executeBlock _ _ _)))
    fun executed => Keeps.ends (fun w hw => ?_) fun _ _ h => h).keeps
  have hrecord : Throughout Effect.InOrder (w.disk.journal ++ [.write (.appendConsensusWal
      (.commitFinalized certificate.height certificate.round certificate.blockHash))]) :=
    throughout_concat.mpr ⟨hw, Effect.inOrder_of_isOrdinary rfl _⟩
  refine throughout_concat.mpr ⟨hrecord, ⟨?_, (fun _ hc => by cases hc), (fun _ hc => by cases hc)⟩⟩
  rintro f ⟨⟩
  exact ⟨_, _, _, [], rfl, List.forall_mem_nil _⟩

lemma order_finalize (e : ConsensusEngine) (blockHash : Hash32) :
    Ends KeepsOrder KeepsOrder (e.finalize blockHash) := by
  refine Keeps.ends (fun w hw => ?_) fun _ _ h => h
  rw [finalize, bind_ok (get_run w)]
  rcases hheld : w.state.proposal with _ | block
  · exact hw
  dsimp only
  by_cases hhash : block.hash = blockHash
  · subst hhash
    rw [if_neg (not_not.mpr rfl)]
    rcases e.validateCommitCertificate w.disk.store block (certificateOf w.state block.hash) with
      err | ⟨⟩
    · exact hw
    rw [ofExcept_ok, bind_ok (pure_run () w)]
    have hstores := order_executeAndStore (e := e) block (certificateOf w.state block.hash) w hw
    rcases hrun : e.executeAndStore block (certificateOf w.state block.hash) w with
      ⟨f, w₁⟩ | ⟨err, w₁⟩
    · rw [hrun] at hstores
      rw [bind_ok hrun]
      obtain ⟨p, d₁, -, rfl, rfl⟩ := executeAndStore_ok_iff.mp hrun
      dsimp only [final_ok] at hstores
      set f : FinalizedBlock :=
        { block, certificate := certificateOf w.state block.hash, receipts := p.receipts
          epochTransition := p.accounting.epochTransition } with hf
      set d₂ := d₁.recordAll _ with hd₂
      have hjournal : d₂.journal = (d₁.recordAll (ExecutionEngine.accountingWrites p)).journal ++
          [.write (.appendConsensusWal (.commitFinalized f.certificate.height f.certificate.round
            f.certificate.blockHash)), .write (.atomicCommitBlock f p.state)] := by
        rw [hd₂, Disk.recordAll_append, Disk.journal_recordAll]
      have hafter : AfterCommit w.state.height d₂.journal := by
        refine ⟨f.certificate.height, le_rfl, ?_, ?_⟩
        · exact ⟨_, _, _, [.write (.atomicCommitBlock f p.state)], hjournal,
            List.forall_mem_singleton.mpr rfl⟩
        · rw [hjournal, committedHeights_append]
          exact List.getLast?_eq_some_iff.mpr ⟨_, rfl⟩
      rcases applyPendingEvidence_cases e { w with disk := d₂ } with
        ⟨d₃, hsettles, hevidence⟩ | ⟨err, -, hevidence⟩
      · rw [bind_ok hevidence]
        obtain ⟨horder, hafter'⟩ := order_settles hsettles hstores hafter
        exact order_closeHeight f horder hafter'
      · rw [bind_error hevidence]
        exact hstores
    · rw [hrun] at hstores
      rw [bind_error hrun]
      exact hstores
  · rw [if_pos hhash]
    exact hw

/-- The replay of an imported block comes between its record and the block. -/
lemma order_validateAndCommit (f : FinalizedBlock) :
    Ensures (fun d : Disk => Throughout Effect.InOrder d.journal ∧
        AfterRecord f.certificate.height d.journal)
      (fun d => Throughout Effect.InOrder d.journal)
      (e.execution.validateAndCommitFinalizedBlock e.scheme f) := by
  refine .bind (Q := fun d : Disk => Throughout Effect.InOrder d.journal ∧
    AfterRecord f.certificate.height d.journal) ?_ (fun p => ?_) fun _ h => h.1
  · rintro d ⟨horder, hrecord⟩
    have hkeeps := ExecutionEngine.keeps_prepareBlock e.execution e.scheme f.block d
    refine ⟨keepsOrder_of_ordinary hkeeps.ordinary horder, ?_⟩
    obtain ⟨es, hes, hd⟩ := hkeeps
    rw [hd, Disk.journal_recordAll]
    refine hrecord.append fun x hx => ?_
    obtain ⟨_, _⟩ := hes x hx
    rfl
  · split
    · exact fun _ h => h.1
    · split
      · exact fun _ h => h.1
      · rintro d ⟨horder, hrecord⟩
        have hcommit : Throughout Effect.InOrder
            (d.record (.write (.atomicCommitBlock f p.state))).journal := by
          refine throughout_concat.mpr ⟨horder, ⟨?_, (fun _ hc => by cases hc), (fun _ hc => by cases hc)⟩⟩
          rintro _ ⟨⟩
          exact hrecord
        exact keepsOrder_of_ordinary (ordinaryEffects_accounting p _) hcommit

lemma order_import (f : FinalizedBlock) :
    Ends KeepsOrder KeepsOrder (e.importExternalFinalizedBlock f) := by
  refine orderWalk.bind (orderWalk.keeps .get) fun w => ?_
  split
  · exact orderWalk.pure _
  · refine orderWalk.bind (orderWalk.keeps (.ofExcept _)) fun _ =>
      Keeps.ends (fun w hw => ?_) fun _ _ h => h
    set w₁ : World := w.emitAll [.write (.appendConsensusWal (.commitFinalized f.certificate.height
      f.certificate.round f.certificate.blockHash))] with hw₁
    have hlogged : Throughout Effect.InOrder w₁.disk.journal ∧
        AfterRecord f.certificate.height w₁.disk.journal :=
      ⟨throughout_concat.mpr ⟨hw, Effect.inOrder_of_isOrdinary rfl _⟩,
        ⟨_, _, _, [], rfl, List.forall_mem_nil _⟩⟩
    have hcommit : Throughout Effect.InOrder (final (onDisk ExecutionError.toText
        (e.execution.validateAndCommitFinalizedBlock e.scheme f) w₁)).disk.journal := by
      rw [onDisk, final_zoom]
      exact order_validateAndCommit f w₁.disk hlogged
    rw [bind_ok (appendWal_run _ w)]
    rcases hrun : onDisk ExecutionError.toText
        (e.execution.validateAndCommitFinalizedBlock e.scheme f) w₁ with ⟨⟨⟩, w₂⟩ | ⟨err, w₂⟩
    · rw [hrun] at hcommit
      rw [bind_ok hrun]
      exact keepsOrder_of_ordinary (ordinary_advanceHeight _ w₂).disk hcommit
    · rw [hrun] at hcommit
      rw [bind_error hrun]
      exact hcommit

lemma orderCourse (e : ConsensusEngine) : e.Course KeepsOrder KeepsOrder where
  toWalk := orderWalk
  finalize := e.order_finalize
  importBlock := order_import

/-- **A handler** keeps its commits and compactions in order. -/
lemma order_handle (hw : Throughout Effect.InOrder w.disk.journal) (event : Event) :
    Throughout Effect.InOrder (e.handle w event).disk.journal := by
  have hemit : ∀ x : Effect, x.commits = none → x.tidies = false →
      Ends KeepsOrder KeepsOrder (emit x) := fun x hcommit htidies =>
    Keeps.ends (fun w hw => throughout_concat.mpr ⟨hw, Effect.inOrder_of_none hcommit htidies _⟩)
      fun _ _ h => h
  exact e.orderCourse.handle (fun _ _ => hemit _ rfl rfl) (fun _ => hemit _ rfl rfl) w event hw

/-! ## Heights rise -/

/-- The committed heights rise, and the engine is above them. -/
structure Rising (e : ConsensusEngine) (w : World) : Prop where
  heights : (committedHeights w.disk.journal).Pairwise (· < ·)
  past : ∀ f ∈ w.disk.committed, f.certificate.height = f.block.header.height ∧
    f.certificate.height < w.state.height ∧ f.certificate.height + 1 < 2 ^ 64
  accountable : e.Accountable w

variable {w₀ : World} {event : Event}

omit [Hashing] [Revm] in
lemma committedHeights_journal (d : Disk) :
    committedHeights d.journal = d.committed.map fun f => f.certificate.height := rfl

omit [Hashing] [Revm] in
lemma Rising.of_committed_eq (h : e.Rising w) (hcommitted : w'.disk.committed = w.disk.committed)
    (hheight : w'.state.height = w.state.height) (haccountable : e.Accountable w') :
    e.Rising w' where
  heights := by
    rw [committedHeights_journal, hcommitted]
    exact h.heights
  past f hf := by
    rw [hheight]
    exact h.past f (hcommitted ▸ hf)
  accountable := haccountable

omit [Hashing] [Revm] in
/-- A block of the current height or a later one is committed, and the engine goes above it. -/
lemma Rising.of_commit (h : e.Rising w) {f : FinalizedBlock}
    (hcommitted : w'.disk.committed = w.disk.committed ++ [f])
    (hsealed : f.certificate.height = f.block.header.height)
    (hle : w.state.height ≤ f.certificate.height) (hlt : f.certificate.height < w'.state.height)
    (hroom : f.certificate.height + 1 < 2 ^ 64) (haccountable : e.Accountable w') :
    e.Rising w' where
  heights := by
    rw [committedHeights_journal, hcommitted, List.map_append, List.map_singleton,
      List.pairwise_append]
    refine ⟨h.heights, List.pairwise_singleton _ _, fun height hheight top htop => ?_⟩
    obtain ⟨g, hg, rfl⟩ := List.mem_map.mp hheight
    rw [List.mem_singleton.mp htop]
    exact (h.past g hg).2.1.trans_le hle
  past g hg := by
    rw [hcommitted] at hg
    rcases List.mem_append.mp hg with hold | hnew
    · obtain ⟨hgsealed, hpast, hgroom⟩ := h.past g hold
      exact ⟨hgsealed, by omega, hgroom⟩
    · rw [List.mem_singleton.mp hnew]
      exact ⟨hsealed, hlt, hroom⟩
  accountable := haccountable

/-- **One move.** -/
lemma Rising.move (h : e.Rising w) (hroom : Roomy w₀ event) (hmove : e.Move w₀ event w w') :
    e.Rising w' := by
  have haccountable := h.accountable.move hmove
  have hnone : ∀ {es : List Effect}, (∀ x ∈ es, Effect.commits x = none) →
      (w.disk.recordAll es).committed = w.disk.committed := w.disk.committed_recordAll_of_none
  cases hmove with
  | quiet hquiet =>
    exact h.of_committed_eq (hnone fun x hx => Effect.commits_of_isQuiet (hquiet x hx)) rfl
      haccountable
  | note | report | lock =>
    exact h.of_committed_eq (hnone (by simp [Effect.commits])) rfl haccountable
  | @accuse item =>
    obtain ⟨_, _, heq⟩ := w.state.addEvidence_eq item
    have hheight : (w.accuse item).state.height = w.state.height := by
      show (w.state.addEvidence item).height = w.state.height
      rw [heq]
    exact h.of_committed_eq (hnone (List.forall_mem_singleton.mpr rfl)) hheight haccountable
  | @count vote =>
    exact h.of_committed_eq (hnone (List.forall_mem_singleton.mpr rfl)) (w.state.height_count vote)
      haccountable
  | @cast vote =>
    obtain ⟨_, _, hmark⟩ := w.state.markCast_eq vote.step
    have hheight : (w.state.markCast vote.step).height = w.state.height := by rw [hmark]
    exact h.of_committed_eq (hnone (by simp [World.castEffects, Effect.commits])) hheight haccountable
  | accept | nextRound => exact h.of_committed_eq rfl rfl haccountable
  | @finalize f _ _ _ hcertificate hvalid hcommits hsettles hbound =>
    have hheight : f.certificate.height = w.state.height := by
      rw [hcertificate]
      rfl
    have hlast := hroom.height
    have hnext : wrappingAdd 64 w.state.height 1 = w.state.height + 1 :=
      Nat.mod_eq_of_lt (by omega)
    refine h.of_commit (hsettles.committed.trans hcommits.committed)
      (validateCommitCertificate_ok hvalid).height hheight.ge ?_ (by omega) haccountable
    show f.certificate.height < wrappingAdd 64 w.state.height 1
    omega
  | stall _ _ _ hcommits hfails =>
    obtain ⟨staking, hok⟩ := h.accountable.applies hcommits
    rw [hok] at hfails
    cases hfails
  | @adopt f _ hcause hahead hvalid hcommits =>
    have hsealed := (validateCommitCertificate_ok hvalid).height
    have hlast : f.block.header.height + 1 < 2 ^ 64 := hroom.commit f (by rw [hcause]; rfl)
    have hnext : wrappingAdd 64 f.block.header.height 1 = f.block.header.height + 1 :=
      Nat.mod_eq_of_lt hlast
    refine h.of_commit hcommits.committed hsealed (hsealed ▸ hahead) ?_ (hsealed ▸ hlast) haccountable
    show f.certificate.height < wrappingAdd 64 f.block.header.height 1
    omega

lemma Rising.handle (h : e.Rising w) (hroom : Roomy w event) : e.Rising (e.handle w event) :=
  invariant_of_moves e.Rising h fun _ _ hw hmove => hw.move hroom hmove

/-! ## Lives -/

/-- The history of a process on a disk: its commits and compactions are in order, and the committed
heights rise. -/
structure Historic (e : ConsensusEngine) (d : Disk) (w : World) : Prop extends e.Rising w where
  order : Throughout Effect.InOrder w.disk.journal
  disk : w.disk = d.recordAll w.disk.journal

/-- The engine recovers above all blocks committed so far, wherever the process stops. -/
lemma Historic.crash {d : Disk} (h : e.Historic d w) (hnumbered : d.Numbered)
    (hroom : Roomy w event) (k : ℕ) :
    e.Historic d (World.boot (e.crashDisk w event k)) := by
  have hhandled : e.Rising (e.handle w event) := h.toRising.handle hroom
  have horder := order_handle (e := e) h.order event
  set c := e.crashDisk w event k with hc
  have hjournal : (e.handle w event).disk.journal = c.journal ++ (e.effectsOf w event).drop k := by
    rw [disk_handle, hc, crashDisk, Disk.journal_recordAll, Disk.journal_recordAll,
      List.append_assoc, List.take_append_drop]
  have hdisk : c = d.recordAll c.journal := by
    rw [hc, crashDisk, Disk.journal_recordAll, Disk.recordAll_append, ← h.disk]
  have hheights : (committedHeights c.journal).Pairwise (· < ·) := by
    have hall := hhandled.heights
    rw [hjournal, committedHeights_append] at hall
    exact (List.pairwise_append.mp hall).1
  rw [hjournal] at horder
  refine ⟨⟨hheights, fun f hf => ?_, List.forall_mem_nil _⟩, horder.of_append, hdisk⟩
  have hcommitted : f ∈ (e.handle w event).disk.committed := by
    rw [Disk.committed, hjournal, List.filterMap_append]
    exact List.mem_append_left _ hf
  obtain ⟨hsealed, -, hlast⟩ := hhandled.past f hcommitted
  refine ⟨hsealed, ?_, hlast⟩
  obtain ⟨top, round, blockHash, hle, hlogged⟩ := exists_record_of_inOrder horder.of_append hheights
    hnumbered f.certificate.height (List.mem_map_of_mem hf)
  rw [← hdisk] at hlogged
  have habove : saturatingAdd 64 top 1 ≤ (recovered c.store).height :=
    RecoveredState.le_height_of_commitFinalized hlogged _
  refine lt_of_lt_of_le ?_ habove
  rw [saturatingAdd, maxValue]
  omega

lemma Historic.handle {d : Disk} (h : e.Historic d w) (hroom : Roomy w event) :
    e.Historic d (e.handle w event) where
  toRising := h.toRising.handle hroom
  order := order_handle h.order event
  disk := by
    rw [disk_handle, Disk.journal_recordAll, Disk.recordAll_append, ← h.disk]

omit [Revm] in
/-- A process starts where nothing has happened. -/
lemma historic_boot {d : Disk} (hstart : d.journal = []) : e.Historic d (World.boot d) := by
  have hnone : (World.boot d).disk.journal = [] := hstart
  refine ⟨⟨?_, ?_, List.forall_mem_nil _⟩, ?_, ?_⟩
  · rw [hnone]
    exact List.Pairwise.nil
  · rw [Disk.committed, hnone]
    exact List.forall_mem_nil _
  · rw [hnone]
    exact throughout_nil
  · rw [hnone]
    rfl

lemma historic_of_life {d : Disk} (hstart : d.journal = []) (hnumbered : d.Numbered)
    (hlife : Relation.ReflTransGen (Life e fun _ => True) (World.boot d) w) : e.Historic d w := by
  induction hlife with
  | refl => exact historic_boot hstart
  | tail _ hstep ih =>
    cases hstep with
    | handle hroom => exact ih.handle hroom
    | restart k hroom => exact ih.crash hnumbered hroom k

/-- **No height is committed twice**, in however many lives of a process: the heights of the blocks
that it commits rise, and wherever it stops it recovers above all of them. -/
theorem committed_heights_rise {d : Disk} (hstart : d.journal = []) (hnumbered : d.Numbered)
    (hlife : Relation.ReflTransGen (Life e fun _ => True) (World.boot d) w) :
    (w.disk.committed.map fun f => f.block.header.height).Pairwise (· < ·) ∧
    ∀ event k, Roomy w event → ∀ f ∈ (e.crashDisk w event k).committed,
      f.block.header.height < (recovered (e.crashDisk w event k).store).height := by
  have hhistoric := historic_of_life hstart hnumbered hlife
  refine ⟨?_, fun event k hroom f hf => ?_⟩
  · have hsealed : (w.disk.committed.map fun f => f.block.header.height) =
        w.disk.committed.map fun f => f.certificate.height :=
      List.map_congr_left fun f hf => (hhistoric.past f hf).1.symm
    rw [hsealed]
    exact hhistoric.heights
  · obtain ⟨hsealed, hpast, -⟩ := (hhistoric.crash hnumbered hroom k).past f hf
    exact hsealed ▸ hpast

end ConsensusEngine

/-! ## A crash behind the first block -/

section

open Transparent ConsensusEngine

/-- A validator holds the first proposal and two precommits to it. -/
def beforeQuorum : List Event :=
  [.proposal ⟨1, 0, firstProposal, address [2]⟩,
   .vote (Transparent.castVote [2] 1 0 .precommit firstProposal.hash),
   .vote (Transparent.castVote [3] 1 0 .precommit firstProposal.hash)]

/-- The precommit that makes the quorum. -/
def quorumVote : Event := .vote (Transparent.castVote [4] 1 0 .precommit firstProposal.hash)

lemma beforeQuorum_roomy :
    (engineOf [1]).Meets Roomy (World.boot blank) beforeQuorum ∧
    Roomy (beforeQuorum.foldl (engineOf [1]).handle (World.boot blank)) quorumVote := by
  decide +kernel

/-- The process crashes after it has committed the first block, and starts again. -/
def afterFirst : World :=
  World.boot ((engineOf [1]).crashDisk
    (beforeQuorum.foldl (engineOf [1]).handle (World.boot blank)) quorumVote 100)

lemma afterFirst_life :
    Relation.ReflTransGen (Life (engineOf [1]) fun _ => True) (World.boot blank) afterFirst := by
  obtain ⟨hmeets, hroom⟩ := beforeQuorum_roomy
  have hrun : Relation.ReflTransGen (Life (engineOf [1]) fun _ => True) (World.boot blank)
      (beforeQuorum.foldl (engineOf [1]).handle (World.boot blank)) := by
    refine Relation.ReflTransGen.mono ?_ _ _ (run_of_meets _ hmeets)
    rintro w₁ _ ⟨event, hevent, rfl⟩
    exact .handle hevent
  exact hrun.tail (.restart 100 hroom trivial)

lemma numbered_blank : blank.Numbered := fun k hk => by
  rw [show blank.store.consensusWal[k]? = none from Std.ExtTreeMap.getElem?_empty] at hk
  cases hk

/-- The general fact for a process that has crashed after it has committed the first block. -/
theorem first_committed_heights_rise :
    (afterFirst.disk.committed.map fun f => f.block.header.height).Pairwise (· < ·) ∧
    ∀ event k, Roomy afterFirst event → ∀ f ∈ ((engineOf [1]).crashDisk afterFirst event k).committed,
      f.block.header.height <
        (recovered ((engineOf [1]).crashDisk afterFirst event k).store).height :=
  committed_heights_rise rfl numbered_blank afterFirst_life

end

end ZenoChain
