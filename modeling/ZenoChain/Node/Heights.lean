/-
# Heights under interleaved finalizations and imports

A finalization and an import each read the height, execute their block, commit it and move to the
next height, and nothing keeps the steps of others from coming in between.  An operation that is
overtaken takes the heights back: it commits a block below the latest one, or it moves the engine
below the height that it has reached.
-/
import Mathlib.Data.List.TakeWhile
import ZenoChain.Consensus.Devnet
import ZenoChain.Node.HeaderSync
import ZenoChain.Node.HeightSteps

namespace ZenoChain

open Word

/-! ## What is said of a run -/

namespace EngineAction

/-- The height of the block that a step commits. -/
def committedHeight : EngineAction → Option ℕ
  | store (.write (.atomicCommitBlock block _)) => some block.block.header.height
  | _ => none

/-- The height that a step moves the engine to. -/
def advancedTo : EngineAction → Option ℕ
  | toHeight nextHeight => some nextHeight
  | _ => none

/-- The height below which a step removes the blocks. -/
def prunedBelow : EngineAction → Option ℕ
  | store (.write (.pruneBlocksBelow height)) => some height
  | _ => none

end EngineAction

/-- The height of the engine and the height of the latest block. -/
def EngineMemory.heights (m : EngineMemory) : ℕ × ℕ :=
  (m.round.height, m.shared.store.latestHeight)

/-- The blocks of the store stand under their heights. -/
def Store.Keyed (s : Store) : Prop :=
  ∀ (h : ℕ) (b : FinalizedBlock), s.blocksByHeight[h]? = some b → b.block.header.height = h

/-- No finalization and no import is under way: the latest block is not above the height of the
engine. -/
structure EngineMemory.AtRest (m : EngineMemory) : Prop where
  latest : m.shared.store.latestHeight ≤ m.round.height
  keyed : m.shared.store.Keyed

section

variable {J : Type} [DecidableEq J]

/-- What had happened when an operation began. -/
def before (j : J) (events : List (J × EngineAction)) : List (J × EngineAction) :=
  events.takeWhile (·.1 ≠ j)

/-- What has happened since. -/
def since (j : J) (events : List (J × EngineAction)) : List (J × EngineAction) :=
  events.dropWhile (·.1 ≠ j)

/-- A step of an operation comes with no other operation ahead of it.  If it commits a block, then
an operation that has committed a higher one had moved to its next height before this one began;
where the latest block is the one of the greatest height, this does not matter.  If it moves the
engine to a height, then no operation has moved it further since this one began. -/
structure Unovertaken (backend : Backend) (events : List (J × EngineAction))
    (e : J × EngineAction) : Prop where
  commit : backend = .rocks → ∀ h, e.2.committedHeight = some h → ∀ e' ∈ events, ∀ h',
    e'.2.committedHeight = some h' → h < h' →
      ∃ e'' ∈ before e.1 events, e''.1 = e'.1 ∧ e''.2.advancedTo.isSome
  advance : ∀ n, e.2.advancedTo = some n → ∀ e' ∈ since e.1 events, ∀ n',
    e'.2.advancedTo = some n' → n' ≤ n

end

/-- The operations. -/
inductive HeightOperation
  | finalize (blockHash : Hash32)
  | importBlock (finalized : FinalizedBlock)

section

variable [Hashing] [Revm]

/-- The steps of an operation. -/
def HeightOperation.program (e : ConsensusEngine) :
    HeightOperation → Program engineMemory (Except String PUnit)
  | finalize blockHash => (e.finalizeSteps blockHash).run
  | importBlock finalized => (e.importSteps finalized).run

/-- Operations of an engine before their first steps. -/
def ConsensusEngine.together {J : Type} (e : ConsensusEngine) (operations : J → HeightOperation)
    (m : EngineMemory) : Interleaving engineMemory J (Except String PUnit) :=
  { memory := m, rest := fun j => (operations j).program e }

end

/-! ## The phases of an operation -/

/-- The phases: an operation has not begun, has read the height, has committed a block of a height,
and has moved to the next one. -/
inductive Phase
  | fresh
  | checked (seen : ℕ)
  | stored (height : ℕ)
  | advanced (height : ℕ)

/-- What an operation knows the height of the engine to have reached. -/
def Phase.floor : Phase → ℕ
  | fresh => 0
  | checked seen => seen
  | stored height | advanced height => height

/-- A step that neither commits nor prunes nor moves to another height. -/
def EngineAction.Quiet (x : EngineAction) : Prop :=
  x.committedHeight = none ∧ x.advancedTo = none ∧ x.prunedBelow = none

/-- What an operation may do in a phase, and the phase that follows. -/
inductive Phase.Goes : Phase → (x : EngineAction) → x.Answer → Phase → Prop
  | read (state : RoundState) : Goes .fresh .readState state (.checked state.height)
  | quiet {q : Phase} {x : EngineAction} {answer : x.Answer} (hq : q ≠ .fresh) (hx : x.Quiet) :
      Goes q x answer q
  | commit {seen : ℕ} {block : FinalizedBlock} {accounts : BTreeMap Address Account}
      (h : seen ≤ block.block.header.height) (answer : PUnit) :
      Goes (.checked seen) (.store (.write (.atomicCommitBlock block accounts))) answer
        (.stored block.block.header.height)
  | prune {height bound : ℕ} (h : bound ≤ height) (answer : PUnit) :
      Goes (.stored height) (.store (.write (.pruneBlocksBelow bound))) answer (.stored height)
  | advance (height : ℕ) (answer : PUnit) :
      Goes (.stored height) (.toHeight (wrappingAdd 64 height 1)) answer (.advanced height)

/-! ## The operations go through the phases -/

namespace HeightM

open Program Phase

variable [Hashing] {ε α : Type} {q : Phase}

lemma reaches_act {x : EngineAction} {q' : Phase} (h : ∀ answer, Goes q x answer q') :
    Reaches Goes (act x) (fun _ q₁ => q₁ = q') q := Reaches.act (fun _ => q') h

/-- A step of an operation that has begun and that is not about heights. -/
lemma reaches_quiet {x : EngineAction} (hx : x.Quiet) (hq : q ≠ .fresh) :
    Reaches Goes (act x) (fun _ q' => q' = q) q := reaches_act fun _ => .quiet hq hx

lemma reaches_appendWal (entry : ConsensusWalEntry) (hq : q ≠ .fresh) :
    Reaches Goes (HeightM.appendWal entry) (fun _ q' => q' = q) q :=
  reaches_quiet ⟨rfl, rfl, rfl⟩ hq

/-- The steps of a program on the store go through the phases as the program does. -/
lemma reaches_onStore {p : StepM ε α} {post : α → Phase → Prop} (err : ε → String)
    (h : Reaches (fun q x answer q' => Goes q (.store x) answer q') p post q) :
    Reaches Goes (onStore err p) post q := by
  have hlift :
      (p.run.lift EngineAction.store fun _ y => y : Program engineMemory (Except ε α)).Obeys Goes
        (fun r q' => ∀ a, r = .ok a → post a q') q := Obeys.lift (fun _ _ _ _ hgoes => hgoes) h
  refine Obeys.bind hlift fun r q' hend => .done fun a ha => ?_
  cases r with
  | error error => cases ha
  | ok b =>
    cases ha
    exact hend a rfl

omit [Hashing] in
/-- An execution is quiet. -/
lemma quiet_of_isExecution {x : StoreAction} (hx : x.IsExecution) : (EngineAction.store x).Quiet := by
  cases x with
  | write w =>
    cases w with
    | putEvmAccount address account => exact ⟨rfl, rfl, rfl⟩
    | _ => exact hx.elim
  | _ => exact ⟨rfl, rfl, rfl⟩

lemma reaches_of_isExecution {p : StepM ε α} (hp : p.run.Only StoreAction.IsExecution)
    (hq : q ≠ .fresh) :
    Reaches (fun q x answer q' => Goes q (.store x) answer q') p (fun _ q' => q' = q) q :=
  .of_only (fun _ hx _ => .quiet hq (quiet_of_isExecution hx)) hp

/-- The writes of an accounting are quiet. -/
lemma reaches_writeAll (prepared : PreparedBlock) (hq : q ≠ .fresh) :
    Reaches (fun q x answer q' => Goes q (.store x) answer q')
      (writeAll (ExecutionEngine.persistedWrites prepared) : StepM ε PUnit)
      (fun _ q' => q' = q) q := by
  have hquiet : ∀ w ∈ ExecutionEngine.persistedWrites prepared,
      (EngineAction.store (.write w)).Quiet := by
    intro w hw
    simp only [ExecutionEngine.persistedWrites, List.mem_append, List.mem_map, Option.mem_toList,
      Option.map_eq_some_iff] at hw
    obtain ((⟨entry, -, rfl⟩ | ⟨staking, -, rfl⟩) | ⟨governance, -, rfl⟩) | ⟨epoch, -, rfl⟩ := hw
    all_goals exact ⟨rfl, rfl, rfl⟩
  generalize ExecutionEngine.persistedWrites prepared = writes at hquiet ⊢
  induction writes with
  | nil => exact .pure rfl
  | cons w writes ih =>
    rw [List.forall_mem_cons] at hquiet
    refine Reaches.bind (Reaches.act (fun _ => q) fun _ => .quiet hq hquiet.1) ?_
    rintro _ _ rfl
    exact ih hquiet.2

end HeightM

namespace ConsensusEngine

open Program Phase HeightM

variable [Hashing] {e : ConsensusEngine} {q : Phase}

/-- A certificate that passes has the height of its block. -/
lemma reaches_validateCertificate (e : ConsensusEngine) (block : Block)
    (certificate : CommitCertificate) (hq : q ≠ .fresh) :
    Reaches Phase.Goes (e.validateCertificateSteps block certificate)
      (fun _ q' => q' = q ∧ certificate.height = block.header.height) q := by
  refine Reaches.bind (reaches_quiet ⟨rfl, rfl, rfl⟩ hq) ?_
  rintro stakingState _ rfl
  refine Reaches.ofExcept fun _ hok => ⟨rfl, ?_⟩
  exact (validateCommitCertificate_ok hok).height

lemma reaches_applyPendingEvidence (e : ConsensusEngine) (hq : q ≠ .fresh) :
    Reaches Phase.Goes e.applyPendingEvidenceSteps (fun _ q' => q' = q) q := by
  refine Reaches.bind (reaches_quiet ⟨rfl, rfl, rfl⟩ hq) ?_
  rintro evidence _ rfl
  split_ifs
  · exact .pure rfl
  · have hload : (loadStaking : StepM String StakingSnapshot).run.Only
        StoreAction.IsExecution := StepM.only_bind (StepM.only_step trivial) fun _ => .done _
    refine Reaches.bind (reaches_onStore id (reaches_of_isExecution hload hq)) ?_
    rintro staking _ rfl
    split
    · exact .throw _
    · exact reaches_quiet ⟨rfl, rfl, rfl⟩ hq

/-- Blocks are removed below the height that was committed. -/
lemma reaches_tidy (height : ℕ) :
    Reaches Phase.Goes (tidySteps height) (fun _ q' => q' = .stored height) (.stored height) := by
  have hcompact : Reaches Phase.Goes
      (HeightM.write (.compactConsensusWal (saturatingSub height 10)))
      (fun _ q' => q' = .stored height) (.stored height) := reaches_quiet ⟨rfl, rfl, rfl⟩ nofun
  have hprune : Reaches Phase.Goes (HeightM.write (.pruneBlocksBelow (saturatingSub height 1000)))
      (fun _ q' => q' = .stored height) (.stored height) :=
    reaches_act fun answer => .prune (Nat.sub_le _ _) answer
  rw [tidySteps]
  split_ifs
  · refine hcompact.bind ?_
    rintro _ _ rfl
    exact hprune
  · refine hcompact.bind ?_
    rintro _ _ rfl
    exact .pure rfl
  · exact hprune
  · exact .pure rfl

/-- The engine moves to the height after the one that was committed. -/
lemma reaches_advanceHeight (height : ℕ) :
    Reaches Phase.Goes (advanceHeightSteps (wrappingAdd 64 height 1)) (fun _ _ => True)
      (.stored height) := by
  refine Reaches.bind (reaches_act fun answer => .advance height answer) ?_
  rintro _ _ rfl
  refine Reaches.bind (reaches_quiet ⟨rfl, rfl, rfl⟩ nofun) ?_
  rintro state _ rfl
  refine Reaches.bind (reaches_quiet ⟨rfl, rfl, rfl⟩ nofun) ?_
  rintro _ _ rfl
  refine Reaches.bind (reaches_appendWal _ nofun) ?_
  rintro _ _ rfl
  have hlast : Reaches Phase.Goes (HeightM.appendWal (.heightAdvanced (wrappingAdd 64 height 1)))
      (fun _ q' => q' = .advanced height) (.advanced height) := reaches_appendWal _ nofun
  exact hlast.mono fun _ _ _ => trivial

variable [Revm]

lemma reaches_executeAndStore (e : ConsensusEngine) (block : Block)
    (certificate : CommitCertificate) {seen : ℕ} (h : seen ≤ block.header.height) :
    Reaches Phase.Goes (e.executeAndStoreSteps block certificate)
      (fun _ q' => q' = .stored block.header.height) (.checked seen) := by
  have hexecute : Reaches (fun q x answer q' => Phase.Goes q (.store x) answer q')
      (e.execution.executeBlockSteps e.scheme block)
      (fun executed q' => executed.block = block ∧ q' = .checked seen) (.checked seen) := by
    refine Reaches.bind (reaches_of_isExecution (ExecutionEngine.only_prepareBlock _) nofun) ?_
    rintro prepared _ rfl
    refine Reaches.bind (reaches_writeAll prepared nofun) ?_
    rintro _ _ rfl
    exact .pure ⟨rfl, rfl⟩
  refine Reaches.bind (reaches_onStore _ hexecute) ?_
  rintro executed _ ⟨rfl, rfl⟩
  refine Reaches.bind (reaches_appendWal _ nofun) ?_
  rintro _ _ rfl
  refine Reaches.bind (reaches_act fun answer => .commit h answer) ?_
  rintro _ _ rfl
  exact .pure rfl

/-- A finalization commits the block of the height that it has read. -/
lemma reaches_finalize (e : ConsensusEngine) (blockHash : Hash32) :
    Reaches Phase.Goes (e.finalizeSteps blockHash) (fun _ _ => True) .fresh := by
  refine Reaches.bind (Reaches.act (fun state => .checked state.height) fun state => .read state) ?_
  rintro state _ rfl
  rw [finalizeFrom]
  split
  · exact .throw _
  · split_ifs
    · exact .pure trivial
    · refine Reaches.bind (reaches_validateCertificate _ _ _ Phase.noConfusion) ?_
      rintro _ _ ⟨rfl, hheight⟩
      have hheight : state.height = _ := hheight
      rw [hheight]
      refine Reaches.bind (reaches_executeAndStore _ _ _ le_rfl) ?_
      rintro finalized _ rfl
      refine Reaches.bind (reaches_applyPendingEvidence _ Phase.noConfusion) ?_
      rintro _ _ rfl
      refine Reaches.bind (reaches_tidy _) ?_
      rintro _ _ rfl
      exact reaches_advanceHeight _

/-- An import commits a block whose height is at least the one that it has read. -/
lemma reaches_import (e : ConsensusEngine) (finalized : FinalizedBlock) :
    Reaches Phase.Goes (e.importSteps finalized) (fun _ _ => True) .fresh := by
  refine Reaches.bind (Reaches.act (fun state => .checked state.height) fun state => .read state) ?_
  rintro state _ rfl
  rw [importFrom]
  split_ifs with hstale
  · exact .pure trivial
  · refine Reaches.bind (reaches_validateCertificate _ _ _ Phase.noConfusion) ?_
    rintro _ _ ⟨rfl, hheight⟩
    have hseen : state.height ≤ finalized.block.header.height := hheight ▸ Nat.le_of_not_lt hstale
    refine Reaches.bind (reaches_appendWal _ Phase.noConfusion) ?_
    rintro _ _ rfl
    have hcommit : Reaches (fun q x answer q' => Phase.Goes q (.store x) answer q')
        (e.execution.validateAndCommitSteps e.scheme finalized)
        (fun _ q' => q' = .stored finalized.block.header.height) (.checked state.height) := by
      refine Reaches.bind (reaches_of_isExecution (ExecutionEngine.only_prepareBlock _) Phase.noConfusion) ?_
      rintro prepared _ rfl
      split_ifs
      · exact .throw _
      · exact .throw _
      · refine Reaches.bind (Reaches.act (fun _ => .stored finalized.block.header.height)
          fun _ => .commit hseen _) ?_
        rintro _ _ rfl
        exact reaches_writeAll prepared Phase.noConfusion
    refine Reaches.bind (reaches_onStore _ hcommit) ?_
    rintro _ _ rfl
    exact reaches_advanceHeight _

end ConsensusEngine

/-- Every operation goes through the phases. -/
lemma HeightOperation.obeys [Hashing] [Revm] (e : ConsensusEngine) (operation : HeightOperation) :
    (operation.program e).Obeys Phase.Goes (fun _ _ => True) .fresh := by
  cases operation with
  | finalize blockHash => exact Program.Obeys.mono (e.reaches_finalize blockHash) fun _ _ _ => trivial
  | importBlock finalized => exact Program.Obeys.mono (e.reaches_import finalized) fun _ _ _ => trivial

/-! ## What a step does to the heights -/

namespace Store

variable {s : Store}

/-- In memory no block is above the latest one. -/
lemma le_latestHeight (hmemory : s.backend = .memory) (hkeyed : s.Keyed) {h : ℕ}
    {b : FinalizedBlock} (hb : s.blocksByHeight[h]? = some b) : h ≤ s.latestHeight := by
  rw [latestHeight, latestBlock, hmemory]
  dsimp only
  rcases hlast : Table.last s.blocksByHeight with _ | ⟨k, b'⟩
  · rw [Table.last, List.getLast?_eq_none_iff] at hlast
    have hmem := Std.ExtTreeMap.mem_toList_iff_getElem?_eq_some.mpr hb
    rw [hlast] at hmem
    cases hmem
  · obtain ⟨hstored, hmax⟩ := Table.last_eq_some_iff.mp hlast
    show h ≤ b'.block.header.height
    rw [hkeyed k b' hstored]
    by_cases heq : h = k
    · exact heq.le
    · exact (Nat.compare_eq_lt.mp (hmax h (by rw [hb]; rfl) heq)).le

lemma latestHeight_attained (hmemory : s.backend = .memory) (hkeyed : s.Keyed) :
    s.latestHeight = 0 ∨ ∃ b, s.blocksByHeight[s.latestHeight]? = some b := by
  rw [latestHeight, latestBlock, hmemory]
  dsimp only
  rcases hlast : Table.last s.blocksByHeight with _ | ⟨k, b⟩
  · exact .inl rfl
  · obtain ⟨hstored, -⟩ := Table.last_eq_some_iff.mp hlast
    refine .inr ⟨b, ?_⟩
    show s.blocksByHeight[b.block.header.height]? = some b
    rw [hkeyed k b hstored]
    exact hstored

end Store

namespace EngineAction

variable [Hashing] {m : EngineMemory} {x : EngineAction}

lemma height_after (x : EngineAction) (m : EngineMemory) :
    (x.after m).round.height = x.advancedTo.getD m.round.height := by
  cases x <;> rfl

/-- Only commits and prunings touch the blocks. -/
lemma blocks_after (hcommit : x.committedHeight = none) (hprune : x.prunedBelow = none) :
    (x.after m).shared.store.blocksByHeight = m.shared.store.blocksByHeight := by
  cases x with
  | store x =>
    cases x with
    | write w =>
      cases w with
      | atomicCommitBlock block accounts => cases hcommit
      | pruneBlocksBelow height => cases hprune
      | compactConsensusWal height =>
        obtain ⟨wal, heq⟩ := m.shared.store.compactConsensusWal_eq height
        show (m.shared.store.compactConsensusWal height).blocksByHeight = _
        rw [heq]
      | _ => rfl
    | _ => rfl
  | _ => rfl

lemma backend_after (x : EngineAction) (m : EngineMemory) :
    (x.after m).shared.store.backend = m.shared.store.backend := by
  cases x with
  | store x =>
    cases x with
    | write w =>
      cases w with
      | compactConsensusWal height =>
        obtain ⟨wal, heq⟩ := m.shared.store.compactConsensusWal_eq height
        show (m.shared.store.compactConsensusWal height).backend = _
        rw [heq]
      | _ => rfl
    | _ => rfl
  | _ => rfl

omit [Hashing] in
lemma eq_commit {n : ℕ} (h : x.committedHeight = some n) :
    ∃ block accounts, x = .store (.write (.atomicCommitBlock block accounts)) ∧
      block.block.header.height = n := by
  cases x with
  | store x =>
    cases x with
    | write w =>
      cases w with
      | atomicCommitBlock block accounts => exact ⟨block, accounts, rfl, Option.some.inj h⟩
      | _ => cases h
    | _ => cases h
  | _ => cases h

omit [Hashing] in
lemma eq_prune {n : ℕ} (h : x.prunedBelow = some n) :
    x = .store (.write (.pruneBlocksBelow n)) := by
  cases x with
  | store x =>
    cases x with
    | write w =>
      cases w with
      | pruneBlocksBelow height =>
        cases h
        rfl
      | _ => cases h
    | _ => cases h
  | _ => cases h

/-- In RocksDB the latest block is the one that was committed last. -/
lemma latestHeight_after_rocks (hrocks : m.shared.store.backend = .rocks) (x : EngineAction) :
    (x.after m).shared.store.latestHeight = x.committedHeight.getD m.shared.store.latestHeight := by
  rw [Store.latestHeight, Store.latestBlock, backend_after, hrocks, Store.latestHeight,
    Store.latestBlock, hrocks]
  cases x with
  | store x =>
    cases x with
    | write w =>
      cases w with
      | compactConsensusWal height =>
        obtain ⟨wal, heq⟩ := m.shared.store.compactConsensusWal_eq height
        show ((m.shared.store.compactConsensusWal height).metaLatest.map _).getD 0 = _
        rw [heq]
        rfl
      | _ => rfl
    | _ => rfl
  | _ => rfl

lemma keyed_after (hkeyed : m.shared.store.Keyed) (x : EngineAction) :
    (x.after m).shared.store.Keyed := by
  intro h b hb
  rcases hcommit : x.committedHeight with _ | n
  · rcases hprune : x.prunedBelow with _ | n
    · rw [blocks_after hcommit hprune] at hb
      exact hkeyed h b hb
    · obtain rfl := eq_prune hprune
      have hfilter : (m.shared.store.blocksByHeight.filter fun h _ => n ≤ h)[h]? = some b := hb
      rw [Std.ExtTreeMap.getElem?_filter', Option.filter_eq_some_iff] at hfilter
      exact hkeyed h b hfilter.1
  · obtain ⟨block, accounts, rfl, -⟩ := eq_commit hcommit
    have hinsert : (m.shared.store.blocksByHeight.insert block.block.header.height block)[h]? =
        some b := hb
    rw [Table.getElem?_insert] at hinsert
    split_ifs at hinsert with heq
    · cases hinsert
      exact heq.symm
    · exact hkeyed h b hinsert

/-- A committed block is not above the latest one. -/
lemma committedHeight_le (hkeyed : m.shared.store.Keyed) {h : ℕ} (hx : x.committedHeight = some h) :
    h ≤ (x.after m).shared.store.latestHeight := by
  rcases hbackend : m.shared.store.backend with _ | _
  · have hkeyed' := keyed_after hkeyed x
    obtain ⟨block, accounts, rfl, rfl⟩ := eq_commit hx
    refine Store.le_latestHeight (b := block) ((backend_after _ m).trans hbackend) hkeyed' ?_
    show (m.shared.store.blocksByHeight.insert block.block.header.height block)[_]? = some block
    rw [Table.getElem?_insert, if_pos rfl]
  · rw [latestHeight_after_rocks hbackend, hx]
    exact le_rfl

/-- The latest block does not go back, unless it is removed, or replaced in RocksDB by a lower
one. -/
lemma latestHeight_le_after (hkeyed : m.shared.store.Keyed)
    (hprune : ∀ n, x.prunedBelow = some n → n ≤ m.shared.store.latestHeight)
    (hcommit : m.shared.store.backend = .rocks → ∀ h, x.committedHeight = some h →
      m.shared.store.latestHeight ≤ h) :
    m.shared.store.latestHeight ≤ (x.after m).shared.store.latestHeight := by
  rcases hbackend : m.shared.store.backend with _ | _
  · rcases m.shared.store.latestHeight_attained hbackend hkeyed with hzero | ⟨b, hb⟩
    · rw [hzero]
      exact Nat.zero_le _
    · have hstays : ∃ b, (x.after m).shared.store.blocksByHeight[m.shared.store.latestHeight]? =
          some b := by
        rcases hc : x.committedHeight with _ | n
        · rcases hp : x.prunedBelow with _ | n
          · rw [blocks_after hc hp]
            exact ⟨b, hb⟩
          · have hbound := hprune n hp
            obtain rfl := eq_prune hp
            refine ⟨b, ?_⟩
            show (m.shared.store.blocksByHeight.filter fun h _ => n ≤ h)[_]? = some b
            rw [Std.ExtTreeMap.getElem?_filter', Option.filter_eq_some_iff]
            exact ⟨hb, decide_eq_true hbound⟩
        · obtain ⟨block, accounts, rfl, -⟩ := eq_commit hc
          show ∃ b, (m.shared.store.blocksByHeight.insert block.block.header.height block)[_]? =
            some b
          rw [Table.getElem?_insert]
          split_ifs
          · exact ⟨block, rfl⟩
          · exact ⟨b, hb⟩
      obtain ⟨b', hb'⟩ := hstays
      exact Store.le_latestHeight ((backend_after _ m).trans hbackend) (keyed_after hkeyed x) hb'
  · rw [latestHeight_after_rocks hbackend]
    rcases hc : x.committedHeight with _ | n
    · exact le_rfl
    · exact hcommit hbackend n hc

end EngineAction

/-! ## What holds of a run -/

section

variable {J : Type} [DecidableEq J]

/-- The steps of one operation. -/
def ownSteps (j : J) (events : List (J × EngineAction)) : List EngineAction :=
  (events.filter (·.1 = j)).map Prod.snd

/-- The heights of the blocks that an operation in a phase has committed. -/
def Phase.commits : Phase → List ℕ
  | fresh | checked _ => []
  | stored height | advanced height => [height]

/-- The heights that an operation in a phase has moved the engine to. -/
def Phase.advances : Phase → List ℕ
  | advanced height => [wrappingAdd 64 height 1]
  | _ => []

/-- The phase tells what the steps so far have done. -/
structure Phase.Describes (q : Phase) (own : List EngineAction) : Prop where
  begun : q = .fresh ↔ own = []
  commits : own.filterMap EngineAction.committedHeight = q.commits
  advances : own.filterMap EngineAction.advancedTo = q.advances

variable {q q' : Phase} {own : List EngineAction} {x : EngineAction} {answer : x.Answer}
  {i j : J} {events : List (J × EngineAction)} {e : J × EngineAction}

lemma Phase.Goes.ne_fresh (h : q.Goes x answer q') : q' ≠ .fresh := by
  cases h with
  | quiet hq _ => exact hq
  | _ => nofun

lemma Phase.Goes.floor_le (h : q.Goes x answer q') (hq : q ≠ .fresh) : q.floor ≤ q'.floor := by
  cases h with
  | read => exact absurd rfl hq
  | commit hle _ => exact hle
  | _ => exact le_rfl

lemma Phase.Describes.goes (h : q.Describes own) (hgoes : q.Goes x answer q') :
    q'.Describes (own ++ [x]) where
  begun := iff_of_false hgoes.ne_fresh (List.append_ne_nil_of_right_ne_nil _ nofun)
  commits := by
    rw [List.filterMap_append, h.commits]
    cases hgoes with
    | quiet _ hx => rw [List.filterMap_cons_none hx.1, List.filterMap_nil, List.append_nil]
    | _ => rfl
  advances := by
    rw [List.filterMap_append, h.advances]
    cases hgoes with
    | quiet _ hx => rw [List.filterMap_cons_none hx.2.1, List.filterMap_nil, List.append_nil]
    | _ => rfl

lemma ownSteps_concat_self (j : J) (events : List (J × EngineAction)) (x : EngineAction) :
    ownSteps j (events ++ [(j, x)]) = ownSteps j events ++ [x] := by
  rw [ownSteps, List.filter_append, List.map_append, List.filter_cons_of_pos (by simp)]
  rfl

lemma ownSteps_concat_of_ne (h : e.1 ≠ i) : ownSteps i (events ++ [e]) = ownSteps i events := by
  rw [ownSteps, List.filter_append, List.filter_cons_of_neg (by simpa using h), List.filter_nil,
    List.append_nil]
  rfl

lemma mem_ownSteps (he : e ∈ events) : e.2 ∈ ownSteps e.1 events :=
  List.mem_map_of_mem (List.mem_filter.mpr ⟨he, decide_eq_true rfl⟩)

lemma exists_of_mem_ownSteps (h : x ∈ ownSteps j events) : (j, x) ∈ events := by
  obtain ⟨e, he, rfl⟩ := List.mem_map.mp h
  obtain ⟨hmem, hj⟩ := List.mem_filter.mp he
  obtain rfl : e.1 = j := of_decide_eq_true hj
  exact hmem

/-- What had happened when an operation began does not change after its first step. -/
lemma before_concat (h : ownSteps j events ≠ []) : before j (events ++ [e]) = before j events := by
  obtain ⟨x, hx⟩ := List.exists_mem_of_ne_nil _ h
  have hmem := exists_of_mem_ownSteps hx
  rw [before, List.takeWhile_append, if_neg]
  · rfl
  · intro hlen
    have hall := List.takeWhile_eq_self_iff.mp (List.IsPrefix.eq_of_length
      (List.takeWhile_prefix _) hlen) _ hmem
    simp at hall

/-- Before its first step all that has happened is before it. -/
lemma before_first (h : ownSteps j events = []) (x : EngineAction) :
    before j (events ++ [(j, x)]) = events := by
  have hall : ∀ e ∈ events, decide (e.1 ≠ j) = true := by
    intro e he
    refine decide_eq_true fun heq => ?_
    obtain rfl := heq
    have hmem := mem_ownSteps he
    rw [h] at hmem
    cases hmem
  rw [before, List.takeWhile_append_of_pos hall, List.takeWhile_cons_of_neg (by simp),
    List.append_nil]

lemma mem_before_or_since (j : J) (he : e ∈ events) : e ∈ before j events ∨ e ∈ since j events := by
  rw [← List.mem_append, before, since, List.takeWhile_append_dropWhile]
  exact he

variable [Hashing]

/-- What holds at every time of a run in which no operation is overtaken: each operation is in a
phase that its steps describe, it knows of all that the engine had reached when it began, and the
heights come from the start or from a step, and are not below those of any step. -/
structure Rising (m₀ : EngineMemory) (c : Interleaving engineMemory J (Except String PUnit))
    (q : J → Phase) (events : List (J × EngineAction)) : Prop where
  obeys : ∀ j, (c.rest j).Obeys Phase.Goes (fun _ _ => True) (q j)
  describes : ∀ j, (q j).Describes (ownSteps j events)
  backend : c.memory.shared.store.backend = m₀.shared.store.backend
  keyed : c.memory.shared.store.Keyed
  start_le : ∀ j, q j ≠ .fresh → m₀.round.height ≤ (q j).floor
  before_le : ∀ j, q j ≠ .fresh → ∀ e ∈ before j events, ∀ n, e.2.advancedTo = some n →
    n ≤ (q j).floor
  committed_le : ∀ e ∈ events, ∀ h, e.2.committedHeight = some h →
    h ≤ c.memory.shared.store.latestHeight
  advanced_le : ∀ e ∈ events, ∀ n, e.2.advancedTo = some n → n ≤ c.memory.round.height
  above : m₀.round.height ≤ c.memory.round.height
  height : c.memory.round.height = m₀.round.height ∨
    ∃ e ∈ events, e.2.advancedTo = some c.memory.round.height
  latest : m₀.shared.store.backend = .rocks →
    c.memory.shared.store.latestHeight = m₀.shared.store.latestHeight ∨
      ∃ e ∈ events, e.2.committedHeight = some c.memory.shared.store.latestHeight

namespace Rising

variable {m₀ : EngineMemory} {c : Interleaving engineMemory J (Except String PUnit)}
  {phases : J → Phase}

/-- An operation that has moved the engine has done so after its commit. -/
lemma advancedTo_eq (h : Rising m₀ c phases events) {n height : ℕ} (he : e ∈ events)
    (hn : e.2.advancedTo = some n) (hh : height ∈ (phases e.1).commits) :
    n = wrappingAdd 64 height 1 := by
  have hadvances : n ∈ (phases e.1).advances := by
    rw [← (h.describes e.1).advances]
    exact List.mem_filterMap.mpr ⟨e.2, mem_ownSteps he, hn⟩
  cases hq : phases e.1 with
  | advanced height' =>
    rw [hq] at hadvances hh
    obtain rfl := List.mem_singleton.mp hh
    exact List.mem_singleton.mp hadvances
  | _ =>
    rw [hq] at hadvances
    cases hadvances

lemma mem_commits (h : Rising m₀ c phases events) {height : ℕ} (he : e ∈ events)
    (hh : e.2.committedHeight = some height) : height ∈ (phases e.1).commits := by
  rw [← (h.describes e.1).commits]
  exact List.mem_filterMap.mpr ⟨e.2, mem_ownSteps he, hh⟩

lemma exists_commit (h : Rising m₀ c phases events) {height : ℕ}
    (hh : height ∈ (phases j).commits) :
    ∃ e ∈ events, e.2.committedHeight = some height := by
  rw [← (h.describes j).commits] at hh
  obtain ⟨x, hx, hcommit⟩ := List.mem_filterMap.mp hh
  exact ⟨(j, x), exists_of_mem_ownSteps hx, hcommit⟩

/-- The engine does not go back. -/
lemma height_le (h : Rising m₀ c phases events) (hgoes : (phases j).Goes x answer q')
    (hfree : Unovertaken m₀.shared.store.backend events (j, x))
    (hwrap : ∀ e ∈ events, ∀ h, e.2.committedHeight = some h → h + 1 < 2 ^ 64) :
    c.memory.round.height ≤ (x.after c.memory).round.height := by
  rw [EngineAction.height_after]
  rcases hadvanced : x.advancedTo with _ | n
  · exact le_rfl
  · show c.memory.round.height ≤ n
    generalize hq : phases j = q at hgoes
    cases hgoes with
    | read => cases hadvanced
    | quiet _ hx =>
      rw [hx.2.1] at hadvanced
      cases hadvanced
    | commit => cases hadvanced
    | prune => cases hadvanced
    | advance height =>
      cases hadvanced
      have hbegun : phases j ≠ .fresh := by rw [hq]; nofun
      have hfloor : (phases j).floor = height := by rw [hq]; rfl
      have hlast : height ∈ (phases j).commits := by
        rw [hq]
        exact List.mem_singleton_self _
      obtain ⟨e, he, hcommit⟩ := h.exists_commit hlast
      have hroom : wrappingAdd 64 height 1 = height + 1 := Nat.mod_eq_of_lt (hwrap e he _ hcommit)
      rcases h.height with hheight | ⟨e', he', hheight⟩
      · rw [hheight, hroom]
        have hstart := h.start_le j hbegun
        omega
      · rcases mem_before_or_since j he' with hbefore | hsince
        · rw [hroom]
          have hle := h.before_le j hbegun e' hbefore _ hheight
          omega
        · exact hfree.advance _ rfl e' hsince _ hheight

/-- The latest block does not go back. -/
lemma latestHeight_le (h : Rising m₀ c phases events) (hrest : m₀.AtRest)
    (hgoes : (phases j).Goes x answer q')
    (hfree : Unovertaken m₀.shared.store.backend events (j, x))
    (hwrap : ∀ e ∈ events, ∀ h, e.2.committedHeight = some h → h + 1 < 2 ^ 64) :
    c.memory.shared.store.latestHeight ≤ (x.after c.memory).shared.store.latestHeight := by
  refine EngineAction.latestHeight_le_after h.keyed (fun n hprune => ?_) fun hrocks n hcommit => ?_
  · generalize hq : phases j = q at hgoes
    cases hgoes with
    | prune hbound =>
      cases hprune
      obtain ⟨e, he, hcommit⟩ := h.exists_commit (j := j)
        (by rw [hq]; exact List.mem_singleton_self _)
      exact hbound.trans (h.committed_le e he _ hcommit)
    | quiet _ hx =>
      rw [hx.2.2] at hprune
      cases hprune
    | _ => cases hprune
  · generalize hq : phases j = q at hgoes
    cases hgoes with
    | commit hseen =>
      cases hcommit
      have hbegun : phases j ≠ .fresh := by rw [hq]; nofun
      rename_i seen block accounts _
      have hfloor : (phases j).floor = seen := by rw [hq]; rfl
      rw [h.backend] at hrocks
      rcases h.latest hrocks with hlatest | ⟨e, he, hlatest⟩
      · rw [hlatest]
        have hstart := h.start_le j hbegun
        have hbelow := hrest.latest
        omega
      · by_contra hlower
        -- The operation that has committed the latest block had moved on when this one began.
        obtain ⟨e', he', hsame, hmoved⟩ := hfree.commit hrocks _ rfl e he _ hlatest
          (Nat.lt_of_not_le hlower)
        obtain ⟨n, hn⟩ := Option.isSome_iff_exists.mp hmoved
        have hcommits := h.mem_commits he hlatest
        rw [← hsame] at hcommits
        have heq := h.advancedTo_eq (List.takeWhile_subset _ he') hn hcommits
        have hroom : wrappingAdd 64 c.memory.shared.store.latestHeight 1 =
            c.memory.shared.store.latestHeight + 1 := Nat.mod_eq_of_lt (hwrap e he _ hlatest)
        have hle := h.before_le j hbegun e' he' n hn
        omega
    | quiet _ hx =>
      rw [hx.1] at hcommit
      cases hcommit
    | _ => cases hcommit

/-- One step of an operation that is not overtaken. -/
lemma step (h : Rising m₀ c phases events) (hrest : m₀.AtRest)
    (hx : (c.rest j).next? = some x) (hfree : Unovertaken m₀.shared.store.backend events (j, x))
    (hwrap : ∀ e ∈ events, ∀ h, e.2.committedHeight = some h → h + 1 < 2 ^ 64) :
    (∃ phases', Rising m₀ (c.step j) phases' (events ++ [(j, x)])) ∧
      c.memory.heights ≤ (c.step j).memory.heights := by
  obtain ⟨hmemory, q', hgoes, hobeys⟩ := Interleaving.obeys_step h.obeys hx
  have hheight : c.memory.round.height ≤ (x.after c.memory).round.height :=
    h.height_le hgoes hfree hwrap
  have hlatest : c.memory.shared.store.latestHeight ≤
      (x.after c.memory).shared.store.latestHeight := h.latestHeight_le hrest hgoes hfree hwrap
  have hmemory : (c.step j).memory = x.after c.memory := hmemory
  refine ⟨⟨Function.update phases j q', ?_⟩, ?_⟩
  · have hself : Function.update phases j q' j = q' := Function.update_self ..
    have hother : ∀ {i}, i ≠ j → Function.update phases j q' i = phases i :=
      fun hi => Function.update_of_ne hi ..
    have hfirst : phases j = .fresh → q'.floor = c.memory.round.height := by
      intro hfresh
      rw [hfresh] at hgoes
      cases hgoes with
      | read => rfl
      | quiet hq => exact absurd rfl hq
    constructor
    · exact hobeys
    · intro i
      by_cases hi : i = j
      · rw [hi, hself, ownSteps_concat_self]
        exact (h.describes j).goes hgoes
      · rw [hother hi, ownSteps_concat_of_ne (Ne.symm hi)]
        exact h.describes i
    · rw [hmemory, EngineAction.backend_after]
      exact h.backend
    · rw [hmemory]
      exact EngineAction.keyed_after h.keyed x
    · intro i hbegun
      by_cases hi : i = j
      · rw [hi, hself]
        by_cases hfresh : phases j = .fresh
        · rw [hfirst hfresh]
          exact h.above
        · exact (h.start_le j hfresh).trans (hgoes.floor_le hfresh)
      · rw [hother hi] at hbegun ⊢
        exact h.start_le i hbegun
    · intro i hbegun e he n hn
      by_cases hi : i = j
      · rw [hi] at he
        rw [hi, hself]
        by_cases hfresh : phases j = .fresh
        · rw [before_first ((h.describes j).begun.mp hfresh)] at he
          rw [hfirst hfresh]
          exact h.advanced_le e he n hn
        · rw [before_concat fun hnil => hfresh ((h.describes j).begun.mpr hnil)] at he
          exact (h.before_le j hfresh e he n hn).trans (hgoes.floor_le hfresh)
      · rw [hother hi] at hbegun ⊢
        rw [before_concat fun hnil => hbegun ((h.describes i).begun.mpr hnil)] at he
        exact h.before_le i hbegun e he n hn
    · intro e he n hn
      rw [hmemory]
      rcases List.mem_append.mp he with he | he
      · exact (h.committed_le e he n hn).trans hlatest
      · obtain rfl := List.mem_singleton.mp he
        exact EngineAction.committedHeight_le h.keyed hn
    · intro e he n hn
      rw [hmemory]
      rcases List.mem_append.mp he with he | he
      · exact (h.advanced_le e he n hn).trans hheight
      · obtain rfl := List.mem_singleton.mp he
        rw [EngineAction.height_after, show x.advancedTo = some n from hn]
        exact le_rfl
    · rw [hmemory]
      exact h.above.trans hheight
    · rw [hmemory, EngineAction.height_after]
      rcases hn : x.advancedTo with _ | n
      · exact h.height.imp id fun ⟨e, he, hn⟩ => ⟨e, List.mem_append_left _ he, hn⟩
      · exact .inr ⟨(j, x), List.mem_append_right _ (List.mem_singleton_self _), hn⟩
    · intro hrocks
      rw [hmemory, EngineAction.latestHeight_after_rocks (h.backend.trans hrocks)]
      rcases hn : x.committedHeight with _ | n
      · exact (h.latest hrocks).imp id fun ⟨e, he, hn⟩ => ⟨e, List.mem_append_left _ he, hn⟩
      · exact .inr ⟨(j, x), List.mem_append_right _ (List.mem_singleton_self _), hn⟩
  · rw [hmemory]
    exact Prod.mk_le_mk.mpr ⟨hheight, hlatest⟩

end Rising

variable [Revm]

/-- Before any step. -/
lemma Rising.start (e : ConsensusEngine) (operations : J → HeightOperation) {m : EngineMemory}
    (hrest : m.AtRest) : Rising m (e.together operations m) (fun _ => .fresh) [] where
  obeys j := (operations j).obeys e
  describes _ := ⟨iff_of_true rfl rfl, rfl, rfl⟩
  backend := rfl
  keyed := hrest.keyed
  start_le _ h := absurd rfl h
  before_le _ h := absurd rfl h
  committed_le := nofun
  advanced_le := nofun
  above := le_rfl
  height := .inl rfl
  latest _ := .inl rfl

/-- In a run in which no operation is overtaken the heights rise. -/
lemma Rising.run (e : ConsensusEngine) (operations : J → HeightOperation) {m : EngineMemory}
    (hrest : m.AtRest) {schedule : List J}
    (hwrap : ∀ ev ∈ (e.together operations m).trace schedule, ∀ h,
      ev.2.committedHeight = some h → h + 1 < 2 ^ 64)
    (hfree : ∀ earlier j x, earlier ++ [j] <+: schedule →
      (((e.together operations m).run earlier).rest j).next? = some x →
        Unovertaken m.shared.store.backend ((e.together operations m).trace earlier) (j, x)) :
    ∀ l, l <+: schedule → (∃ phases, Rising m ((e.together operations m).run l) phases
        ((e.together operations m).trace l)) ∧
      ∀ earlier later, l = earlier ++ later →
        ((e.together operations m).run earlier).memory.heights ≤
          ((e.together operations m).run l).memory.heights := by
  set c := e.together operations m
  intro l
  induction l using List.reverseRecOn with
  | nil =>
    refine fun _ => ⟨⟨_, .start e operations hrest⟩, fun earlier later h => ?_⟩
    rw [(List.append_eq_nil_iff.mp h.symm).1]
  | append_singleton l j ih =>
    intro hl
    obtain ⟨⟨phases, hrising⟩, hmono⟩ := ih ((List.prefix_append l [j]).trans hl)
    have hsub : ∀ ev ∈ c.trace l, ∀ h, ev.2.committedHeight = some h → h + 1 < 2 ^ 64 := by
      obtain ⟨rest, hrestl⟩ := (List.prefix_append l [j]).trans hl
      intro ev hev
      refine hwrap ev ?_
      rw [← hrestl, Interleaving.trace_append]
      exact List.mem_append_left _ hev
    have hone : (∃ phases', Rising m (c.run (l ++ [j])) phases' (c.trace (l ++ [j]))) ∧
        (c.run l).memory.heights ≤ (c.run (l ++ [j])).memory.heights := by
      rcases hx : ((c.run l).rest j).next? with _ | x
      · have hstill : c.run (l ++ [j]) = c.run l := by
          rw [Interleaving.run_concat, Interleaving.step_of_next?_none hx]
        have hnone : c.trace (l ++ [j]) = c.trace l := by
          rw [Interleaving.trace_append, Interleaving.trace, hx]
          exact List.append_nil _
        rw [hstill, hnone]
        exact ⟨⟨phases, hrising⟩, le_rfl⟩
      · rw [Interleaving.run_concat, Interleaving.trace_concat_of_some hx]
        exact hrising.step hrest hx (hfree l j x hl hx) hsub
    refine ⟨hone.1, fun earlier later h => ?_⟩
    rcases List.eq_nil_or_concat' later with rfl | ⟨later, i, rfl⟩
    · rw [List.append_nil] at h
      rw [h]
    · rw [← List.append_assoc] at h
      obtain ⟨hl, -⟩ := List.append_inj' h rfl
      exact (hmono earlier later hl).trans hone.2

lemma backend_run (e : ConsensusEngine) (operations : J → HeightOperation) (m : EngineMemory)
    (l : List J) : ((e.together operations m).run l).memory.shared.store.backend =
      m.shared.store.backend := by
  induction l using List.reverseRecOn with
  | nil => rfl
  | append_singleton l j ih =>
    rw [Interleaving.run_concat]
    rcases hrest : ((e.together operations m).run l).rest j with a | ⟨x, next⟩
    · rw [Interleaving.step_of_done hrest]
      exact ih
    · rw [Interleaving.step_of_act hrest]
      exact (EngineAction.backend_after x _).trans ih

omit [Revm] in
/-- The memory after one more step. -/
lemma memory_concat {c : Interleaving engineMemory J (Except String PUnit)} {l : List J}
    {x : EngineAction} (hx : ((c.run l).rest j).next? = some x) :
    (c.run (l ++ [j])).memory = x.after (c.run l).memory := by
  rw [Interleaving.run_concat]
  rcases hrest : (c.run l).rest j with a | ⟨y, next⟩
  · rw [hrest] at hx
    cases hx
  · rw [hrest] at hx
    cases hx
    rw [Interleaving.step_of_act hrest]

/-- **Heights.**  Take any number of finalizations and imports of an engine, any order of their
steps, and no block at the last height.  In all states of the run neither the height of the engine
nor that of the latest block is below what it was before, exactly if no step comes from an operation
that has been overtaken. -/
theorem heights_rise_iff (e : ConsensusEngine) (operations : J → HeightOperation) (m : EngineMemory)
    (hrest : m.AtRest) (schedule : List J)
    (hwrap : ∀ ev ∈ (e.together operations m).trace schedule, ∀ h,
      ev.2.committedHeight = some h → h + 1 < 2 ^ 64) :
    (∀ earlier later, earlier ++ later <+: schedule →
      ((e.together operations m).run earlier).memory.heights ≤
        ((e.together operations m).run (earlier ++ later)).memory.heights) ↔
    ∀ earlier j x, earlier ++ [j] <+: schedule →
      (((e.together operations m).run earlier).rest j).next? = some x →
        Unovertaken m.shared.store.backend ((e.together operations m).trace earlier) (j, x) := by
  constructor
  · intro hmono earlier j x hprefix hx
    have hstep := hmono earlier [j] hprefix
    rw [memory_concat hx] at hstep
    obtain ⟨hheight, hlatest⟩ := Prod.mk_le_mk.mp hstep
    rw [EngineAction.height_after] at hheight
    constructor
    · intro hrocks h hcommit e' he' h' hcommit' hlt
      obtain ⟨first, second, rfl, hnext⟩ := Interleaving.exists_of_mem_trace he'
      have hbackend : ∀ l, ((e.together operations m).run l).memory.shared.store.backend =
          .rocks := fun l => (backend_run e operations m l).trans hrocks
      -- The higher block was the latest one, and this step would put the lower one in its place.
      have hhigh := hmono (first ++ [e'.1]) second (by
        rw [List.append_assoc]
        exact (List.prefix_append _ [j]).trans hprefix)
      rw [memory_concat hnext, List.append_assoc, List.singleton_append] at hhigh
      obtain ⟨-, hhigh⟩ := Prod.mk_le_mk.mp hhigh
      rw [EngineAction.latestHeight_after_rocks (hbackend _), hcommit'] at hhigh
      rw [EngineAction.latestHeight_after_rocks (hbackend _),
        show x.committedHeight = some h from hcommit] at hlatest
      exact absurd hlt (Nat.not_lt.mpr (hhigh.trans hlatest))
    · intro n hn e' he' n' hn'
      have hmem : e' ∈ (e.together operations m).trace earlier :=
        (List.dropWhile_sublist _).subset he'
      obtain ⟨first, second, rfl, hnext⟩ := Interleaving.exists_of_mem_trace hmem
      have hhigh := hmono (first ++ [e'.1]) second (by
        rw [List.append_assoc]
        exact (List.prefix_append _ [j]).trans hprefix)
      rw [memory_concat hnext, List.append_assoc, List.singleton_append] at hhigh
      obtain ⟨hhigh, -⟩ := Prod.mk_le_mk.mp hhigh
      rw [EngineAction.height_after, hn'] at hhigh
      rw [show x.advancedTo = some n from hn] at hheight
      exact hhigh.trans hheight
  · intro hfree earlier later hprefix
    exact (Rising.run e operations hrest hwrap hfree _ hprefix).2 earlier later rfl

end

/-! ## A race -/

section

open Transparent

/-- The engine of a single validator. -/
def soloEngine : ConsensusEngine :=
  { engineOf [1] with validators := [validatorOf [1]], execution := devnet }

/-- A disk of RocksDB without history. -/
def rocksBlank : Disk := { store := { backend := .rocks } }

/-- A block with the precommit of the validator. -/
def certifiedBySolo (block : Block) : FinalizedBlock :=
  { block, receipts := [], epochTransition := none
    certificate :=
      { blockHash := block.hash, height := block.header.height, round := block.header.round
        votes := [castVote [1] block.header.height block.header.round .precommit block.hash] } }

/-- The first block, and the block after it. -/
def soloFirst : FinalizedBlock := certifiedBySolo (propose devnet rocksBlank [1] 1 0 0 [])

def soloSecond : FinalizedBlock :=
  certifiedBySolo (propose devnet (rocksBlank.record (.write (.atomicCommitBlock soloFirst ∅)))
    [1] 2 0 0 [])

/-- The engine holds the first block as the proposal, with the precommit for it. -/
def soloMemory : EngineMemory where
  shared := { store := rocksBlank.store, zkPool := {} }
  round := { proposal := some soloFirst.block, votes := soloFirst.certificate.votes }

/-- The first block is finalized, and both blocks are imported. -/
def soloOperations : Fin 3 → HeightOperation
  | 0 => .finalize soloFirst.block.hash
  | 1 => .importBlock soloFirst
  | 2 => .importBlock soloSecond

/-- The operations before their first steps. -/
def soloTogether : Interleaving engineMemory (Fin 3) (Except String PUnit) :=
  soloEngine.together soloOperations soloMemory

local instance neZero_three : NeZero 3 := ⟨by decide⟩

/-- Both imports come between the execution of the finalized block and its commit. -/
def importsAhead : List (Fin 3) :=
  List.replicate 5 0 ++ List.replicate 12 1 ++ List.replicate 12 2 ++ List.replicate 4 0

lemma importsAhead_heights :
    (soloTogether.run (importsAhead.take 30)).memory.heights = (3, 2) ∧
    (soloTogether.run (importsAhead.take 31)).memory.heights = (3, 1) ∧
    (soloTogether.run importsAhead).memory.heights = (2, 1) := by
  decide +kernel

/-- The finalization puts its block in the place of the latest one, which is higher, and then takes
the engine back by one height. -/
theorem overtaken_heights_fall :
    (¬ ∀ earlier later, earlier ++ later <+: importsAhead →
      (soloTogether.run earlier).memory.shared.store.latestHeight ≤
        (soloTogether.run (earlier ++ later)).memory.shared.store.latestHeight) ∧
    ¬ ∀ earlier later, earlier ++ later <+: importsAhead →
      (soloTogether.run earlier).memory.round.height ≤
        (soloTogether.run (earlier ++ later)).memory.round.height := by
  obtain ⟨hbefore, hcommitted, hadvanced⟩ := importsAhead_heights
  have hbefore := Prod.mk.inj hbefore
  have hcommitted := Prod.mk.inj hcommitted
  have hadvanced := Prod.mk.inj hadvanced
  constructor
  · intro h
    have hle := h (importsAhead.take 30) [0] (by decide)
    rw [show importsAhead.take 30 ++ [0] = importsAhead.take 31 by decide] at hle
    omega
  · intro h
    have hle := h (importsAhead.take 30) [0, 0, 0] (by decide)
    rw [show importsAhead.take 30 ++ [0, 0, 0] = importsAhead by decide] at hle
    omega

/-- No block of the run is at the last height. -/
lemma importsAhead_fits : ∀ ev ∈ soloTogether.trace importsAhead, ∀ h,
    ev.2.committedHeight = some h → h + 1 < 2 ^ 64 := by
  have hall : (soloTogether.trace importsAhead).all
      (fun ev => ev.2.committedHeight.all fun h => h + 1 < 2 ^ 64) = true := by
    decide +kernel
  intro ev hev h hcommit
  have hone := List.all_eq_true.mp hall ev hev
  rw [hcommit] at hone
  exact of_decide_eq_true hone

/-- In this run an operation is overtaken. -/
theorem importsAhead_overtakes :
    ¬ ∀ earlier j x, earlier ++ [j] <+: importsAhead →
      ((soloTogether.run earlier).rest j).next? = some x →
        Unovertaken .rocks (soloTogether.trace earlier) (j, x) := by
  have hrest : soloMemory.AtRest := by
    refine ⟨by decide, fun h b hb => ?_⟩
    have hnone : (∅ : BTreeMap ℕ FinalizedBlock)[h]? = some b := hb
    rw [Std.ExtTreeMap.getElem?_empty] at hnone
    cases hnone
  intro hfree
  have hmono := (heights_rise_iff soloEngine soloOperations soloMemory hrest importsAhead
    importsAhead_fits).mpr hfree
  have hle := hmono (importsAhead.take 30) [0] (by decide)
  rw [show importsAhead.take 30 ++ [0] = importsAhead.take 31 by decide] at hle
  have hbefore : (soloTogether.run (importsAhead.take 30)).memory.heights = (3, 2) :=
    importsAhead_heights.1
  have hafter : (soloTogether.run (importsAhead.take 31)).memory.heights = (3, 1) :=
    importsAhead_heights.2.1
  have hpair : ((3, 2) : ℕ × ℕ) ≤ (3, 1) := hbefore ▸ hafter ▸ hle
  exact absurd hpair (by decide)

end

end ZenoChain
