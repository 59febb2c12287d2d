/-
# The stored chain

What a commit does to the accounts and to the block index of a store, and the chain that a
sequence of commits builds.  The replay of a block compares its parent hash with the latest
stored block; it does not look at the chain id or at the height of the header.
-/
import Mathlib.Logic.Relation
import ZenoChain.Execution.Replay
import ZenoChain.Execution.Transparent

namespace ZenoChain

open Word ExecutionEngine

/-! ## Accounts and block index after a commit -/

/-- The writes of the accounting leave the block index alone. -/
inductive Effect.IsAccounting : Effect → Prop
  | account (address : Address) (account : Account) :
      IsAccounting (.write (.putAccount address account))
  | staking (state : StakingState) : IsAccounting (.write (.putStakingState state))
  | governance (state : GovernanceState) : IsAccounting (.write (.putGovernanceState state))
  | epoch (transition : EpochTransition) : IsAccounting (.write (.putEpochTransition transition))

namespace ExecutionEngine

/-- Accounts are written, never removed, by a debit, a credit or the accounting. -/
def Grows (state state' : StateSnapshot) : Prop :=
  ∀ a : Address, state'[a]? = none → state[a]? = none

lemma grows_putAccount (state : StateSnapshot) (a : Address) (account : Account) :
    Grows state (state.putAccount a account) := by
  intro b hb
  rw [StateSnapshot.putAccount, Table.getElem?_insert] at hb
  split at hb
  · cases hb
  · exact hb

lemma Grows.trans {s₁ s₂ s₃ : StateSnapshot} (h : Grows s₁ s₂) (h' : Grows s₂ s₃) : Grows s₁ s₃ :=
  fun a ha => h a (h' a ha)

lemma grows_afterDebit {state debited : StateSnapshot} {tx : Transaction}
    (h : debitSender state tx.body = .ok debited) : Grows state (afterDebit debited tx) := by
  obtain ⟨-, -, -, rfl⟩ := debitSender_ok_iff.mp h
  rw [afterDebit]
  split
  · exact (grows_putAccount _ _ _).trans (grows_putAccount _ _ _)
  · exact grows_putAccount _ _ _

lemma isAccounting_of_mem {p : PreparedBlock} {effect : Effect}
    (h : effect ∈ accountingWrites p) : effect.IsAccounting := by
  rw [accountingWrites] at h
  simp only [List.mem_append, StateSnapshot.writes, List.mem_map, Option.mem_toList,
    Option.map_eq_some_iff] at h
  rcases h with ((⟨e, -, rfl⟩ | ⟨s, -, rfl⟩) | ⟨g, -, rfl⟩) | ⟨t, -, rfl⟩
  · exact .account _ _
  · exact .staking _
  · exact .governance _
  · exact .epoch _

variable [Hashing]

/-- Accounting writes commit no block and keep the index of blocks. -/
lemma index_recordAll {es : List Effect} (h : ∀ e ∈ es, e.IsAccounting) (d : Disk) :
    (d.recordAll es).committed = d.committed ∧
    (d.recordAll es).store.backend = d.store.backend ∧
    (d.recordAll es).store.blocksByHeight = d.store.blocksByHeight ∧
    (d.recordAll es).store.metaLatest = d.store.metaLatest := by
  induction es generalizing d with
  | nil => exact ⟨rfl, rfl, rfl, rfl⟩
  | cons e es ih =>
    obtain ⟨h₁, h₂, h₃, h₄⟩ := ih (fun e he => h e (List.mem_cons_of_mem _ he)) (d.record e)
    rw [Disk.recordAll_cons, h₁, h₂, h₃, h₄]
    have hcommitted : (d.record e).committed = d.committed ++ (Effect.commits e).toList := by
      rw [Disk.committed, Disk.journal_record, List.filterMap_append]
      rfl
    rw [hcommitted]
    cases h e List.mem_cons_self <;> exact ⟨List.append_nil _, rfl, rfl, rfl⟩

/-- Writing a snapshot puts its accounts over the stored ones. -/
lemma accounts_recordAll_writes (l : List (Address × Account)) (d : Disk) :
    (d.recordAll (l.map fun e => .write (.putAccount e.1 e.2))).store.accounts =
      Table.insertAll d.store.accounts l := by
  induction l generalizing d with
  | nil => rfl
  | cons e l ih =>
    rw [List.map_cons, Disk.recordAll_cons, ih]
    rfl

lemma accounts_accountingWrites (p : PreparedBlock) (d : Disk) :
    (d.recordAll (accountingWrites p)).store.accounts =
      Table.insertAll d.store.accounts p.state.toList := by
  rw [accountingWrites, Disk.recordAll_append, Disk.recordAll_append, Disk.recordAll_append]
  have key : ∀ (o : Option Effect) (d : Disk), (∀ e ∈ o, ∀ d : Disk,
      (d.record e).store.accounts = d.store.accounts) →
      (d.recordAll o.toList).store.accounts = d.store.accounts := by
    rintro (_ | e) d h
    · rfl
    · exact h e rfl d
  rw [key, key, key]
  · exact accounts_recordAll_writes _ _
  all_goals
    intro e he d
    obtain ⟨_, -, rfl⟩ := Option.map_eq_some_iff.mp he
    rfl

variable {e : ExecutionEngine}

lemma grows_applyBlockAccounting {store : Store} {state state' : StateSnapshot}
    {proposer : Address} {fees height : ℕ} {accounting : AccountingArtifacts}
    (h : e.applyBlockAccounting store state proposer fees height = .ok (state', accounting)) :
    Grows state state' := by
  rw [applyBlockAccounting] at h
  split at h
  · obtain ⟨rfl, -⟩ := Prod.mk.inj (Except.ok.inj h)
    exact grows_putAccount _ _ _
  · dsimp only at h
    split at h
    · split at h
      · cases h
      · obtain ⟨rfl, -⟩ := Prod.mk.inj (Except.ok.inj h)
        exact (grows_putAccount _ _ _).trans (grows_putAccount _ _ _)
    · obtain ⟨rfl, -⟩ := Prod.mk.inj (Except.ok.inj h)
      exact (grows_putAccount _ _ _).trans (grows_putAccount _ _ _)

variable [Revm] {scheme : SignatureScheme}

lemma grows_applyTransactions {height : ℕ} {txs : List Transaction} {state : StateSnapshot}
    {fees : ℕ} {receipts : List Receipt} {d d' : Disk} {out : StateSnapshot × ℕ × List Receipt}
    (h : e.applyTransactions scheme height txs state fees receipts d = .ok out d') :
    Grows state out.1 := by
  induction txs generalizing state fees receipts d with
  | nil =>
    cases h
    exact fun _ ha => ha
  | cons tx txs ih =>
    obtain ⟨state₁, receipt, d₁, htx, hrest⟩ := applyTransactions_cons_ok_iff.mp h
    obtain ⟨-, debited, result, hdebit, -, rfl, -⟩ := applyTransaction_ok_iff.mp htx
    exact (grows_afterDebit hdebit).trans (ih hrest)

lemma Prepares.grows {block : Block} {d d' : Disk} {p : PreparedBlock}
    (h : Prepares e scheme block d p d') : Grows d.store.accounts p.state := by
  obtain ⟨state, hloop, haccounting⟩ := h.replay
  exact (grows_applyTransactions hloop).trans (grows_applyBlockAccounting haccounting)

lemma Prepares.onlyEvmWrites {block : Block} {d d' : Disk} {p : PreparedBlock}
    (h : Prepares e scheme block d p d') : OnlyEvmWrites d d' := by
  have hkeeps := keeps_prepareBlock e scheme block d
  rwa [prepareBlock_ok_iff.mpr h] at hkeeps

/-- The records of validators stay under their addresses through the accounting of a block. -/
lemma Prepares.keyed {block : Block} {d d' : Disk} {p : PreparedBlock}
    (h : Prepares e scheme block d p d') (hkeyed : (StakingSnapshot.load d.store).Keyed) :
    (StakingSnapshot.load d'.store).Keyed ∧ ∀ staking ∈ p.accounting.staking, staking.Keyed := by
  have hload : StakingSnapshot.load d'.store = StakingSnapshot.load d.store := by
    rw [StakingSnapshot.load, h.onlyEvmWrites.store_eq]
    rfl
  obtain ⟨_, -, haccounting⟩ := h.replay
  refine ⟨hload ▸ hkeyed, fun staking hstaking => ?_⟩
  refine (sameRecords_applyBlockAccounting haccounting hstaking).keyed ?_
  rw [hload]
  exact hkeyed.ensureValidators _

omit [Revm] in
lemma keyed_accountingWrites {p : PreparedBlock} {d : Disk}
    (hkeyed : (StakingSnapshot.load d.store).Keyed)
    (hstaking : ∀ staking ∈ p.accounting.staking, staking.Keyed) :
    (StakingSnapshot.load (d.recordAll (accountingWrites p)).store).Keyed := by
  refine StakingSnapshot.load_recordAll hkeyed fun staking hmem => hstaking staking ?_
  simp only [accountingWrites, StateSnapshot.writes, List.mem_append, List.mem_map,
    Option.mem_toList] at hmem
  simpa using hmem

end ExecutionEngine

/-- What a store holds after a block has been committed to it. -/
structure CommitsTo [Hashing] (d : Disk) (finalized : FinalizedBlock) (state : StateSnapshot)
    (d' : Disk) : Prop where
  committed : d'.committed = d.committed ++ [finalized]
  backend : d'.store.backend = d.store.backend
  byHeight : d'.store.blocksByHeight =
    d.store.blocksByHeight.insert finalized.block.header.height finalized
  metaLatest : d'.store.metaLatest = some finalized
  accounts : d'.store.accounts = state

/-- EVM writes keep everything that a commit is about. -/
lemma OnlyEvmWrites.index [Hashing] {d d' : Disk} (h : OnlyEvmWrites d d') :
    d'.committed = d.committed ∧ d'.store.backend = d.store.backend ∧
    d'.store.blocksByHeight = d.store.blocksByHeight ∧
    d'.store.metaLatest = d.store.metaLatest ∧ d'.store.accounts = d.store.accounts := by
  have hstore := h.store_eq
  obtain ⟨es, hes, hjournal⟩ := h.journal
  refine ⟨?_, by rw [hstore], by rw [hstore], by rw [hstore], by rw [hstore]⟩
  have hnone : es.filterMap Effect.commits = [] := by
    refine List.filterMap_eq_nil_iff.mpr fun e he => ?_
    obtain ⟨a, acc⟩ := hes e he
    rfl
  rw [Disk.committed, hjournal, List.filterMap_append, hnone, List.append_nil]
  rfl

/-- The accounts of a prepared block stand over all stored ones. -/
lemma ExecutionEngine.Prepares.insertAll_accounts [Hashing] [Revm] {e : ExecutionEngine}
    {scheme : SignatureScheme} {block : Block} {d d' : Disk} {p : PreparedBlock}
    (h : Prepares e scheme block d p d') :
    Table.insertAll d'.store.accounts p.state.toList = p.state := by
  obtain ⟨-, -, -, -, haccounts⟩ := h.onlyEvmWrites.index
  refine Table.insertAll_toList_of_subset fun a ha => ?_
  rw [haccounts]
  exact h.grows a ha

section

variable [Hashing] {e : ExecutionEngine}

/-! ## The chain that is built -/

/-- A block extends the chain whose last block is `latest`: it names the engine's chain, has
the next height and links to the last block by hash. -/
structure Follows (e : ExecutionEngine) (latest : Option FinalizedBlock) (block : Block) : Prop where
  chainId : block.header.chainId = e.chainId
  height : block.header.height = (latest.map fun f => f.block.header.height + 1).getD 1
  parent : block.header.parentHash = (latest.map fun f => f.block.hash).getD 0

/-- A header names the engine's chain and the next height. -/
def Addressed (e : ExecutionEngine) (latest : Option FinalizedBlock) (header : BlockHeader) : Prop :=
  header.chainId = e.chainId ∧
  header.height = (latest.map fun f => f.block.header.height + 1).getD 1

/-- A sequence of finalized blocks, oldest first, in which every block follows the one
before it. -/
inductive ValidChain (e : ExecutionEngine) : List FinalizedBlock → Prop
  | nil : ValidChain e []
  | snoc {chain : List FinalizedBlock} {finalized : FinalizedBlock} :
      ValidChain e chain → Follows e chain.getLast? finalized.block →
      ValidChain e (chain ++ [finalized])

/-- A valid chain skips no height: its last block has the height of its length. -/
lemma ValidChain.height_getLast {chain : List FinalizedBlock} (h : ValidChain e chain) :
    (chain.getLast?.map fun f => f.block.header.height + 1).getD 1 = chain.length + 1 := by
  induction h with
  | nil => rfl
  | snoc hchain hfollows ih =>
    rw [List.getLast?_concat, Option.map_some, Option.getD_some, hfollows.height, ih,
      List.length_append]
    rfl

/-- A store with no block and a process with no history. -/
structure Fresh (d : Disk) : Prop where
  journal : d.journal = []
  byHeight : d.store.blocksByHeight = ∅
  metaLatest : d.store.metaLatest = none

/-- The store holds a valid chain: what was committed, indexed by height, with its last block
as the latest one. -/
structure HoldsChain (e : ExecutionEngine) (d : Disk) : Prop where
  valid : ValidChain e d.committed
  latest : d.store.latestBlock = d.committed.getLast?
  byHeight : ∀ height, d.store.blocksByHeight[height]? =
    if height = 0 then none else d.committed[height - 1]?

lemma Fresh.holdsChain {d : Disk} (h : Fresh d) : HoldsChain e d := by
  have hcommitted : d.committed = [] := by rw [Disk.committed, h.journal]; rfl
  refine ⟨hcommitted ▸ .nil, ?_, fun height => ?_⟩
  · rw [hcommitted, Store.latestBlock]
    split
    · rw [h.byHeight]
      rfl
    · rw [h.metaLatest]
      rfl
  · rw [hcommitted, h.byHeight]
    simp

/-- A block that follows the last one extends the chain that the store holds. -/
lemma HoldsChain.commit {d d' : Disk} {finalized : FinalizedBlock} {state : StateSnapshot}
    (h : HoldsChain e d) (hc : CommitsTo d finalized state d')
    (hfollows : Follows e d.committed.getLast? finalized.block) : HoldsChain e d' := by
  have hheight : finalized.block.header.height = d.committed.length + 1 := by
    rw [hfollows.height, h.valid.height_getLast]
  have hindex : ∀ height, d'.store.blocksByHeight[height]? =
      if height = 0 then none else d'.committed[height - 1]? := by
    intro height
    rw [hc.byHeight, Table.getElem?_insert, h.byHeight, hc.committed, hheight]
    by_cases hnew : height = d.committed.length + 1
    · subst hnew
      simp
    · rw [if_neg hnew]
      by_cases hzero : height = 0
      · rw [if_pos hzero, if_pos hzero]
      · rw [if_neg hzero, if_neg hzero]
        by_cases hlt : height - 1 < d.committed.length
        · rw [List.getElem?_append_left hlt]
        · rw [List.getElem?_eq_none (by omega), List.getElem?_eq_none (by
            rw [List.length_append, List.length_singleton]
            omega)]
  refine ⟨hc.committed ▸ .snoc h.valid hfollows, ?_, hindex⟩
  rw [hc.committed, List.getLast?_concat, Store.latestBlock]
  split
  · rw [hc.byHeight, Table.last_insert]
    · rfl
    · intro height hsome hne
      rw [h.byHeight] at hsome
      have hlt : height - 1 < d.committed.length := by
        by_contra hge
        rw [List.getElem?_eq_none (by omega)] at hsome
        simp at hsome
      exact Nat.compare_eq_lt.mpr (by omega)
  · exact hc.metaLatest

/-! ## Runs of commits -/

variable [Revm] {scheme : SignatureScheme}

/-- A block committed by replay leaves its own state behind. -/
lemma commitsTo_of_validateAndCommit {finalized : FinalizedBlock} {d d' : Disk}
    (h : e.validateAndCommitFinalizedBlock scheme finalized d = .ok ⟨⟩ d') :
    ∃ p d₁, Prepares e scheme finalized.block d p d₁ ∧ CommitsTo d finalized p.state d' := by
  obtain ⟨p, d₁, hp, -, -, rfl⟩ := validateAndCommit_ok_iff.mp h
  obtain ⟨h₁, h₂, h₃, -, -⟩ := hp.onlyEvmWrites.index
  obtain ⟨i₁, i₂, i₃, i₄⟩ := index_recordAll (fun _ he => isAccounting_of_mem he)
    (d₁.record (.write (.atomicCommitBlock finalized p.state)))
  refine ⟨p, d₁, hp, ?_, ?_, ?_, ?_, ?_⟩
  · rw [i₁, ← h₁, Disk.committed, Disk.journal_record, List.filterMap_append]
    rfl
  · rw [i₂, ← h₂]
    rfl
  · rw [i₃, ← h₃]
    rfl
  · rw [i₄]
    rfl
  · rw [accounts_accountingWrites]
    show Table.insertAll (Table.insertAll d₁.store.accounts p.state.toList) _ = p.state
    rw [hp.insertAll_accounts, Table.insertAll_toList_of_subset fun _ h => h]

/-- A commit of a block addressed to the chain, or a rejected one. -/
inductive CommitStep (e : ExecutionEngine) (scheme : SignatureScheme) (d : Disk) : Disk → Prop
  | accepted {finalized : FinalizedBlock} {d' : Disk} :
      e.validateAndCommitFinalizedBlock scheme finalized d = .ok ⟨⟩ d' →
      Addressed e d.store.latestBlock finalized.block.header → CommitStep e scheme d d'
  | rejected {finalized : FinalizedBlock} {err : ExecutionError} {d' : Disk} :
      e.validateAndCommitFinalizedBlock scheme finalized d = .error err d' →
      CommitStep e scheme d d'

/-- A refused block leaves EVM writes at most. -/
lemma onlyEvmWrites_of_error {finalized : FinalizedBlock} {d d' : Disk} {err : ExecutionError}
    (h : e.validateAndCommitFinalizedBlock scheme finalized d = .error err d') :
    OnlyEvmWrites d d' := by
  rw [validateAndCommitFinalizedBlock] at h
  rcases hp : e.prepareBlock scheme finalized.block d with ⟨p, d₁⟩ | ⟨err', d₁⟩
  · rw [Handler.bind_ok hp] at h
    have hd : OnlyEvmWrites d d₁ := (prepareBlock_ok_iff.mp hp).onlyEvmWrites
    split at h
    · cases h
      exact hd
    · split at h
      · cases h
        exact hd
      · cases h
  · rw [Handler.bind_error hp] at h
    cases h
    have hd := keeps_prepareBlock e scheme finalized.block d
    rwa [hp] at hd

/-- One step keeps the chain. -/
lemma HoldsChain.step {d d' : Disk} (h : HoldsChain e d) (hstep : CommitStep e scheme d d') :
    HoldsChain e d' := by
  cases hstep with
  | accepted hrun haddressed =>
    obtain ⟨p, d₁, hp, hc⟩ := commitsTo_of_validateAndCommit hrun
    rw [h.latest] at haddressed
    refine h.commit hc ⟨haddressed.1, haddressed.2, ?_⟩
    rw [hp.parent, Store.latestHash, h.latest]
  | rejected hrun =>
    obtain ⟨h₁, h₂, h₃, h₄, -⟩ := (onlyEvmWrites_of_error hrun).index
    refine ⟨h₁ ▸ h.valid, ?_, fun height => ?_⟩
    · rw [h₁, ← h.latest, Store.latestBlock, Store.latestBlock, h₂, h₃, h₄]
    · rw [h₃, h₁, h.byHeight]

/-- **Chain validity.**  A block that is committed follows the latest stored one exactly if
its header names the engine's chain and the next height, since only the parent hash is
compared; and a store reached from a fresh one by commits of such blocks holds a chain that
is linked by hashes, belongs to the engine's chain and skips no height. -/
theorem commits_hold_chain (e : ExecutionEngine) (scheme : SignatureScheme) :
    (∀ (d d' : Disk) (finalized : FinalizedBlock),
      e.validateAndCommitFinalizedBlock scheme finalized d = .ok ⟨⟩ d' →
      (Follows e d.store.latestBlock finalized.block ↔
        Addressed e d.store.latestBlock finalized.block.header)) ∧
    ∀ d₀ d : Disk, Fresh d₀ → Relation.ReflTransGen (CommitStep e scheme) d₀ d →
      HoldsChain e d := by
  constructor
  · intro d d' finalized hrun
    obtain ⟨p, d₁, hp, -⟩ := commitsTo_of_validateAndCommit hrun
    constructor
    · intro h
      exact ⟨h.chainId, h.height⟩
    · intro h
      exact ⟨h.1, h.2, hp.parent⟩
  · intro d₀ d hfresh hrun
    induction hrun with
    | refl => exact hfresh.holdsChain
    | tail _ hstep ih => exact ih.step hstep

end

/-! ## Two commits -/

section

open Transparent

/-- A block of another chain, seven blocks ahead. -/
def foreign : FinalizedBlock :=
  uncertified (propose { devnet with chainId := "other" } funded [2] 7 0 0 []) []

/-- The first block of the chain. -/
def firstBlock : FinalizedBlock := uncertified (propose devnet funded [2] 1 0 0 []) []

/-- The engine commits the block of the other chain to an empty store. -/
theorem foreign_committed : ∃ d',
    devnet.validateAndCommitFinalizedBlock scheme foreign funded = .ok ⟨⟩ d' ∧
    ¬ Follows devnet funded.store.latestBlock foreign.block := by
  obtain ⟨_, d', hrun, -⟩ := Handler.exists_of_output_map (b := ())
    (r := devnet.validateAndCommitFinalizedBlock scheme foreign funded) (f := fun _ => ())
    (by decide +kernel)
  refine ⟨d', hrun, fun h => ?_⟩
  have hheight : foreign.block.header.height ≠ 1 := by decide +kernel
  exact hheight h.height

/-- After the commit of the first block the store holds a chain. -/
theorem firstBlock_committed : ∃ d',
    devnet.validateAndCommitFinalizedBlock scheme firstBlock funded = .ok ⟨⟩ d' ∧
    Follows devnet funded.store.latestBlock firstBlock.block ∧ HoldsChain devnet d' := by
  obtain ⟨_, d', hrun, -⟩ := Handler.exists_of_output_map (b := ())
    (r := devnet.validateAndCommitFinalizedBlock scheme firstBlock funded) (f := fun _ => ())
    (by decide +kernel)
  have haddressed : Addressed devnet funded.store.latestBlock firstBlock.block.header := by
    exact ⟨by decide +kernel, by decide +kernel⟩
  exact ⟨d', hrun, ((commits_hold_chain devnet scheme).1 funded d' firstBlock hrun).mpr haddressed,
    (commits_hold_chain devnet scheme).2 funded d' ⟨rfl, rfl, rfl⟩
      (.single (.accepted hrun haddressed))⟩

end

end ZenoChain
