/-
# Storage backends

The two backends of `ChainStore` hold the same collections, so one record models both; the
field `backend` selects the behaviour where they differ: the latest block is the one of
the greatest height in memory and the last one committed in RocksDB, and log compaction
filters entries in memory but deletes by position in RocksDB.  No store operation fails.

The writes of a process are kept, together with its signatures and its messages, in a
journal: the effects of a process in the order in which they happened.
-/
import ZenoChain.Base.Handler
import ZenoChain.Base.Table
import ZenoChain.Chain.Hash

namespace ZenoChain

/-- The two store backends. -/
inductive Backend
  | memory
  | rocks
deriving DecidableEq, Repr

/-- The contents of a chain store. -/
structure Store where
  backend : Backend
  accounts : BTreeMap Address Account := ∅
  evmAccounts : BTreeMap EvmAddress EvmAccountState := ∅
  blocksByHeight : BTreeMap ℕ FinalizedBlock := ∅
  blocksByHash : BTreeMap Hash32 FinalizedBlock := ∅
  /-- The value under `meta:latest`, read by the RocksDB backend only. -/
  metaLatest : Option FinalizedBlock := none
  receipts : BTreeMap Hash32 Receipt := ∅
  snapshot : Option ConsensusSnapshot := none
  /-- The log entries under their index, and the next free index. -/
  consensusWal : BTreeMap ℕ ConsensusWalEntry := ∅
  consensusWalNext : ℕ := 0
  stakingState : Option StakingState := none
  governanceState : Option GovernanceState := none
  epochTransitions : BTreeMap ℕ EpochTransition := ∅
  /-- The value under `meta:epoch-latest`, read by the RocksDB backend only. -/
  epochLatest : Option EpochTransition := none
  slashingProtection : BTreeMap Address SlashingProtection := ∅

namespace Store

/-- Returns the latest finalized block. -/
def latestBlock (s : Store) : Option FinalizedBlock :=
  match s.backend with
  | .memory => (Table.last s.blocksByHeight).map Prod.snd
  | .rocks => s.metaLatest

/-- Loads the consensus WAL. -/
def loadConsensusWal (s : Store) : List ConsensusWalEntry := Table.values s.consensusWal

/-- Loads the latest epoch transition. -/
def latestEpochTransition (s : Store) : Option EpochTransition :=
  match s.backend with
  | .memory => (Table.last s.epochTransitions).map Prod.snd
  | .rocks => s.epochLatest

end Store

/-- The writing operations of `ChainStore`. -/
inductive Write
  | putAccount (address : Address) (account : Account)
  | putEvmAccount (address : EvmAddress) (account : EvmAccountState)
  | putStakingState (state : StakingState)
  | putGovernanceState (state : GovernanceState)
  | putEpochTransition (transition : EpochTransition)
  | atomicCommitBlock (block : FinalizedBlock) (accounts : BTreeMap Address Account)
  | putConsensusSnapshot (snapshot : ConsensusSnapshot)
  | appendConsensusWal (entry : ConsensusWalEntry)
  | compactConsensusWal (belowHeight : ℕ)
  | pruneBlocksBelow (height : ℕ)
  | putSlashingProtection (address : Address) (protection : SlashingProtection)

namespace Store

variable [Hashing]

/-- Writes a finalized block with all its receipts and accounts in one batch. -/
def atomicCommitBlock (s : Store) (block : FinalizedBlock) (accounts : BTreeMap Address Account) :
    Store :=
  { s with
    accounts := Table.insertAll s.accounts accounts.toList
    receipts := block.receipts.foldl (fun m r => m.insert r.txHash r) s.receipts
    blocksByHash := s.blocksByHash.insert block.block.hash block
    blocksByHeight := s.blocksByHeight.insert block.block.header.height block
    metaLatest := some block }

/-- Removes the log entries below a height.  The RocksDB backend deletes the key made from
an entry's position among the loaded entries. -/
def compactConsensusWal (s : Store) (belowHeight : ℕ) : Store :=
  match s.backend with
  | .memory =>
      { s with consensusWal := s.consensusWal.filter fun _ e => belowHeight ≤ e.height }
  | .rocks =>
      { s with
        consensusWal := s.loadConsensusWal.zipIdx.foldl
          (fun m e => if e.1.height < belowHeight then m.erase e.2 else m) s.consensusWal }

/-- Prunes the block data below a height. -/
def pruneBlocksBelow (s : Store) (height : ℕ) : Store :=
  { s with
    blocksByHeight := s.blocksByHeight.filter fun h _ => height ≤ h
    blocksByHash := s.blocksByHeight.toList.foldl
      (fun m e => if e.1 < height then m.erase e.2.block.hash else m) s.blocksByHash }

/-- The store after a write. -/
def apply (s : Store) : Write → Store
  | .putAccount a acc => { s with accounts := s.accounts.insert a acc }
  | .putEvmAccount a acc => { s with evmAccounts := s.evmAccounts.insert a acc }
  | .putStakingState st => { s with stakingState := some st }
  | .putGovernanceState g => { s with governanceState := some g }
  | .putEpochTransition t =>
      { s with epochTransitions := s.epochTransitions.insert t.epoch t, epochLatest := some t }
  | .atomicCommitBlock b accounts => s.atomicCommitBlock b accounts
  | .putConsensusSnapshot snap => { s with snapshot := some snap }
  | .appendConsensusWal e =>
      { s with
        consensusWal := s.consensusWal.insert s.consensusWalNext e
        consensusWalNext := s.consensusWalNext + 1 }
  | .compactConsensusWal h => s.compactConsensusWal h
  | .pruneBlocksBelow h => s.pruneBlocksBelow h
  | .putSlashingProtection a p =>
      { s with slashingProtection := s.slashingProtection.insert a p }

omit [Hashing] in
/-- A compaction touches the log only. -/
lemma compactConsensusWal_eq (s : Store) (height : ℕ) :
    ∃ wal, s.compactConsensusWal height = { s with consensusWal := wal } := by
  rw [compactConsensusWal]
  split <;> exact ⟨_, rfl⟩

omit [Hashing] in
/-- In memory the log is filtered. -/
lemma loadConsensusWal_compact {s : Store} (h : s.backend = .memory) (belowHeight : ℕ) :
    (s.compactConsensusWal belowHeight).loadConsensusWal =
      s.loadConsensusWal.filter fun entry => belowHeight ≤ entry.height := by
  rw [compactConsensusWal, h, loadConsensusWal, loadConsensusWal, Table.values, Table.values,
    Std.ExtTreeMap.toList_filter, List.filter_map]
  rfl

end Store

/-! ## The journal of a process -/

/-- What the consensus engine decides along the way: whom it notes as live, which quorums it
reports among which validators, and which evidence it acts on. -/
inductive Observation
  | live (address : Address)
  | quorum (step : VoteStep) (blockHash : Hash32) (voters : Finset Address)
      (members : List Validator)
  | punished (evidence : List Evidence)
deriving DecidableEq

/-- What a process does: it writes to its store, signs, and sends.  Its observations are kept
between these, in order; they touch nothing outside the journal. -/
inductive Effect
  | write (w : Write)
  | signVote (vote : Vote)
  | signHeader (header : BlockHeader)
  | broadcast (message : NetworkMessage)
  | observe (observation : Observation)

/-- The store of a process and the effects it has had so far, oldest first. -/
structure Disk where
  store : Store
  journal : List Effect := []

namespace Disk

variable [Hashing]

/-- The disk after one more effect. -/
def record (d : Disk) (e : Effect) : Disk :=
  { store := match e with
      | .write w => d.store.apply w
      | _ => d.store
    journal := d.journal ++ [e] }

@[simp] lemma journal_record (d : Disk) (e : Effect) :
    (d.record e).journal = d.journal ++ [e] := rfl

@[simp] lemma store_record_write (d : Disk) (w : Write) :
    (d.record (.write w)).store = d.store.apply w := rfl

@[simp] lemma store_record_signVote (d : Disk) (v : Vote) :
    (d.record (.signVote v)).store = d.store := rfl

@[simp] lemma store_record_signHeader (d : Disk) (h : BlockHeader) :
    (d.record (.signHeader h)).store = d.store := rfl

@[simp] lemma store_record_broadcast (d : Disk) (m : NetworkMessage) :
    (d.record (.broadcast m)).store = d.store := rfl

@[simp] lemma store_record_observe (d : Disk) (o : Observation) :
    (d.record (.observe o)).store = d.store := rfl

/-- The disk after a sequence of effects. -/
def recordAll (d : Disk) (es : List Effect) : Disk := es.foldl record d

@[simp] lemma recordAll_nil (d : Disk) : d.recordAll [] = d := rfl

@[simp] lemma recordAll_cons (d : Disk) (e : Effect) (es : List Effect) :
    d.recordAll (e :: es) = (d.record e).recordAll es := rfl

lemma recordAll_append (d : Disk) (es es' : List Effect) :
    d.recordAll (es ++ es') = (d.recordAll es).recordAll es' := List.foldl_append

lemma journal_recordAll (d : Disk) (es : List Effect) :
    (d.recordAll es).journal = d.journal ++ es := by
  induction es generalizing d with
  | nil => simp
  | cons e es ih => simp [ih]

/-- The staking state after some effects is the one before them, or one of them has stored it. -/
lemma stakingState_recordAll (d : Disk) (es : List Effect) :
    (d.recordAll es).store.stakingState = d.store.stakingState ∨
      ∃ s : StakingState, .write (.putStakingState s) ∈ es ∧
        (d.recordAll es).store.stakingState = some s := by
  induction es generalizing d with
  | nil => exact .inl rfl
  | cons x es ih =>
    rcases ih (d.record x) with hkept | ⟨s, hs, hstored⟩
    · rw [Disk.recordAll_cons, hkept]
      rcases x with w | _ | _ | _ | _
      · cases w with
        | putStakingState s => exact .inr ⟨s, List.mem_cons_self, rfl⟩
        | compactConsensusWal height =>
          obtain ⟨wal, heq⟩ := d.store.compactConsensusWal_eq height
          rw [Disk.store_record_write, Store.apply, heq]
          exact .inl rfl
        | _ => exact .inl rfl
      all_goals exact .inl rfl
    · exact .inr ⟨s, List.mem_cons_of_mem _ hs, hstored⟩

end Disk

/-- The finalized block that an effect commits. -/
def Effect.commits : Effect → Option FinalizedBlock
  | .write (.atomicCommitBlock block _) => some block
  | _ => none

/-- The finalized blocks that a process has committed, oldest first. -/
def Disk.committed (d : Disk) : List FinalizedBlock := d.journal.filterMap Effect.commits

lemma Disk.committed_recordAll [Hashing] (d : Disk) (es : List Effect) :
    (d.recordAll es).committed = d.committed ++ es.filterMap Effect.commits := by
  rw [committed, journal_recordAll, List.filterMap_append]
  rfl

/-- A program that reads and writes the store of a process. -/
abbrev StoreM (ε α : Type) := EStateM ε Disk α

section

variable {ε : Type}

/-- Reads the store. -/
def readStore : StoreM ε Store := fun d => .ok d.store d

@[simp] lemma readStore_run (d : Disk) : (readStore : StoreM ε Store) d = .ok d.store d := rfl

variable [Hashing]

/-- Has one effect. -/
def perform (e : Effect) : StoreM ε PUnit := modify fun d => d.record e

/-- Writes to the store. -/
def write (w : Write) : StoreM ε PUnit := perform (.write w)

@[simp] lemma perform_run (e : Effect) (d : Disk) :
    (perform e : StoreM ε PUnit) d = .ok ⟨⟩ (d.record e) := rfl

@[simp] lemma write_run (w : Write) (d : Disk) :
    (write w : StoreM ε PUnit) d = .ok ⟨⟩ (d.record (.write w)) := rfl

end

end ZenoChain
