/-
# The operations of the backends

All writes and reads of `ChainStore`, on the collections of a store and on the flat database.  The
database shows the collections of a RocksDB store: under every key outside the consensus log stands
what the collections hold, and every write keeps it so.
-/
import ZenoChain.Base.Positions
import ZenoChain.Base.Word
import ZenoChain.Chain.Rocks
import ZenoChain.Chain.Storage

namespace ZenoChain

open Codec Word

/-- The writing operations of `ChainStore`: those of a running node and the others. -/
inductive StoreCall
  | write (w : Write)
  | putGenesis (genesis : Genesis)
  | putFinalizedBlock (block : FinalizedBlock)
  | putReceipt (receipt : Receipt)
  | putGasPricing (state : GasPricingState)
  | putEvmLogs (height : ℕ) (logs : List EvmLog)

/-- The reading operations of `ChainStore` outside the consensus log. -/
inductive StoreQuery
  | genesis
  | account (address : Address)
  | accounts
  | evmAccount (address : EvmAddress)
  | evmAccounts
  | blockByHeight (height : ℕ)
  | blockByHash (hash : Hash32)
  | latestBlock
  | receipt (txHash : Hash32)
  | consensusSnapshot
  | stakingState
  | governanceState
  | latestEpochTransition
  | slashingProtection (address : Address)
  | gasPricing
  | evmLogsByHeight (height : ℕ)
  | evmLogsRange (fromHeight toHeight : ℕ)

/-- What a read returns. -/
def StoreQuery.Answer : StoreQuery → Type
  | genesis => Option Genesis
  | account _ => Option Account
  | accounts => BTreeMap Address Account
  | evmAccount _ => Option EvmAccountState
  | evmAccounts => BTreeMap EvmAddress EvmAccountState
  | blockByHeight _ | blockByHash _ | latestBlock => Option FinalizedBlock
  | receipt _ => Option Receipt
  | consensusSnapshot => Option ConsensusSnapshot
  | stakingState => Option StakingState
  | governanceState => Option GovernanceState
  | latestEpochTransition => Option EpochTransition
  | slashingProtection _ => Option SlashingProtection
  | gasPricing => Option GasPricingState
  | evmLogsByHeight _ => List EvmLog
  | evmLogsRange _ _ => List (ℕ × EvmLog)

/-- The heights, bounds and epochs in a write are words of 64 bits. -/
def StoreCall.Fits : StoreCall → Prop
  | .write (.atomicCommitBlock block _) | .putFinalizedBlock block => block.block.header.height < 2 ^ 64
  | .write (.putEpochTransition transition) => transition.epoch < 2 ^ 64
  | .write (.pruneBlocksBelow height) => height < 2 ^ 64
  | .putEvmLogs height _ => height < 2 ^ 64
  | _ => True

/-- The heights in a read are words of 64 bits. -/
def StoreQuery.Fits : StoreQuery → Prop
  | .blockByHeight height | .evmLogsByHeight height => height < 2 ^ 64
  | .evmLogsRange _ toHeight => toHeight < 2 ^ 64
  | _ => True

/-! ## The collections -/

/-- The contents of a chain store with the collections that a running node does not write. -/
structure ChainStore where
  store : Store
  genesis : Option Genesis := none
  gasPricing : Option GasPricingState := none
  evmLogs : BTreeMap ℕ (List EvmLog) := ∅

namespace ChainStore

variable [Hashing]

/-- Stores a finalized block. -/
def putFinalizedBlock (s : ChainStore) (block : FinalizedBlock) : ChainStore :=
  { s with
    store := { s.store with
      blocksByHash := s.store.blocksByHash.insert block.block.hash block
      blocksByHeight := s.store.blocksByHeight.insert block.block.header.height block
      metaLatest := some block } }

/-- The store after a write. -/
def apply (s : ChainStore) : StoreCall → ChainStore
  | .write w => { s with store := s.store.apply w }
  | .putGenesis genesis => { s with genesis := some genesis }
  | .putFinalizedBlock block => s.putFinalizedBlock block
  | .putReceipt receipt =>
    { s with store := { s.store with receipts := s.store.receipts.insert receipt.txHash receipt } }
  | .putGasPricing state => { s with gasPricing := some state }
  | .putEvmLogs height logs => { s with evmLogs := s.evmLogs.insert height logs }

/-- The number that a write returns; zero for one that returns none.  The RocksDB backend counts
the log entries below the bound, the memory backend those that are gone. -/
def count (s : ChainStore) : StoreCall → ℕ
  | .write (.compactConsensusWal belowHeight) =>
    match s.store.backend with
    | .memory =>
      s.store.loadConsensusWal.length -
        (s.store.compactConsensusWal belowHeight).loadConsensusWal.length
    | .rocks => (s.store.loadConsensusWal.filter fun e => e.height < belowHeight).length
  | .write (.pruneBlocksBelow height) =>
    (s.store.blocksByHeight.toList.filter fun e => e.1 < height).length
  | _ => 0

/-- The EVM logs of a range of heights, in the order of the heights. -/
def logsBetween (s : ChainStore) (fromHeight toHeight : ℕ) : List (ℕ × EvmLog) :=
  (s.evmLogs.toList.filter fun e => fromHeight ≤ e.1 ∧ e.1 ≤ toHeight).flatMap fun e =>
    e.2.map fun log => (e.1, log)

omit [Hashing] in
/-- The answer to a read.  In memory the range of an ordered map panics if it ends before it starts,
except that it is empty in a map without a root: one into which nothing was ever put, and no logs are
removed.  The loop of the RocksDB backend is empty then. -/
def answer (s : ChainStore) : (q : StoreQuery) → Outcome StorageError q.Answer
  | .genesis => .ok s.genesis
  | .account a => .ok s.store.accounts[a]?
  | .accounts => .ok s.store.accounts
  | .evmAccount a => .ok s.store.evmAccounts[a]?
  | .evmAccounts => .ok s.store.evmAccounts
  | .blockByHeight h => .ok s.store.blocksByHeight[h]?
  | .blockByHash hash => .ok s.store.blocksByHash[hash]?
  | .latestBlock => .ok s.store.latestBlock
  | .receipt h => .ok s.store.receipts[h]?
  | .consensusSnapshot => .ok s.store.snapshot
  | .stakingState => .ok s.store.stakingState
  | .governanceState => .ok s.store.governanceState
  | .latestEpochTransition => .ok s.store.latestEpochTransition
  | .slashingProtection a => .ok s.store.slashingProtection[a]?
  | .gasPricing => .ok s.gasPricing
  | .evmLogsByHeight h => .ok (s.evmLogs[h]?.getD [])
  | .evmLogsRange fromHeight toHeight =>
    if s.store.backend = .memory ∧ toHeight < fromHeight ∧ ¬ s.evmLogs.isEmpty then .panic
    else .ok (s.logsBetween fromHeight toHeight)

end ChainStore

/-! ## The flat database -/

namespace RocksStore

/-- The 32-byte address in the key of an account. -/
def readAddress (b : Bytes) : Outcome StorageError Address := do
  let raw ← slice b 5 37
  return BitVec.ofNat 256 (Digits.ofBe raw)

/-- The 20-byte address in the key of an EVM account. -/
def readEvmAddress (b : Bytes) : Outcome StorageError EvmAddress := do
  let raw ← slice b 9 29
  return BitVec.ofNat 160 (Digits.ofBe raw)

/-- The index in the key of a log entry; here the range is checked. -/
def readIndex (b : Bytes) : Outcome StorageError ℕ :=
  if 22 ≤ b.length then .ok (Digits.ofLe ((b.drop 14).take 8))
  else .error (.backend "malformed consensus wal index")

/-- Iterates all accounts. -/
def accounts (r : RocksStore) : Outcome StorageError (BTreeMap Address Account) :=
  r.collect .acct readAddress

/-- Iterates all EVM accounts. -/
def evmAccounts (r : RocksStore) : Outcome StorageError (BTreeMap EvmAddress EvmAccountState) :=
  r.collect .evmAcct readEvmAddress

/-- The log entries under their indexes. -/
def consensusWal (r : RocksStore) : Outcome StorageError (BTreeMap ℕ ConsensusWalEntry) :=
  r.collect .consensusWal readIndex

/-- Loads the consensus WAL. -/
def loadConsensusWal (r : RocksStore) : Outcome StorageError (List ConsensusWalEntry) := do
  let entries ← r.consensusWal
  return Table.values entries

/-- Appends a consensus WAL entry under the next index. -/
def appendConsensusWal (r : RocksStore) (entry : ConsensusWalEntry) :
    Outcome StorageError RocksStore := do
  let stored ← r.getValue ℕ (metaKey .consensusWalNext)
  let nextIndex := stored.getD 0
  let r := r.putValue (key .consensusWal (u64 nextIndex)) entry
  return r.putValue (metaKey .consensusWalNext) (wrappingAdd 64 nextIndex 1)

/-- Compacts the consensus WAL: deletes the keys made from the positions of the loaded entries
below the height. -/
def compactConsensusWal (r : RocksStore) (belowHeight : ℕ) :
    Outcome StorageError (ℕ × RocksStore) := do
  let entries ← r.loadConsensusWal
  let below := entries.zipIdx.filter fun e => e.1.height < belowHeight
  return (below.length,
    r.write (below.map fun e => .delete (key .consensusWal (u64 e.2))))

/-- Writes an epoch transition under its epoch and as the latest one. -/
def putEpochTransition (r : RocksStore) (transition : EpochTransition) : RocksStore :=
  (r.putValue (key .epoch (u64 transition.epoch)) transition).putValue (metaKey .epochLatest)
    transition

variable [Hashing]

/-- Stores a finalized block under its height, under its hash and as the latest one. -/
def putFinalizedBlock (r : RocksStore) (block : FinalizedBlock) : RocksStore :=
  ((r.putValue (key .blockH (u64 block.block.header.height)) block).putValue
    (key .blockB (array32 block.block.hash)) block).putValue (metaKey .latest) block

/-- Writes a finalized block with all its receipts and accounts in one batch. -/
def atomicCommitBlock (r : RocksStore) (block : FinalizedBlock)
    (accounts : BTreeMap Address Account) : RocksStore :=
  r.write ((accounts.toList.map fun e => .put (key .acct (array32 e.1)) (encode e.2)) ++
    (block.receipts.map fun receipt => .put (key .rcpt (array32 receipt.txHash)) (encode receipt)) ++
    [.put (key .blockH (u64 block.block.header.height)) (encode block),
      .put (key .blockB (array32 block.block.hash)) (encode block),
      .put (metaKey .latest) (encode block)])

/-- What pruning deletes for one height. -/
def pruneOne (r : RocksStore) (h : ℕ) : List BatchOp :=
  match r.db[key .blockH (u64 h)]? with
  | none => []
  | some bytes =>
    (match (decode bytes : Option FinalizedBlock) with
      | some block => [.delete (key .blockB (array32 block.block.hash))]
      | none => []) ++ [.delete (key .blockH (u64 h))]

/-- Prunes the block data below a height, with the number of blocks found. -/
def pruneBlocksBelow (r : RocksStore) (height : ℕ) : ℕ × RocksStore :=
  (((List.range height).filter fun h => (r.db[key .blockH (u64 h)]?).isSome).length,
    r.write ((List.range height).flatMap r.pruneOne))

/-- A write, with the number that it returns. -/
def call (r : RocksStore) : StoreCall → Outcome StorageError (ℕ × RocksStore)
  | .write (.putAccount a account) => .ok (0, r.putValue (key .acct (array32 a)) account)
  | .write (.putEvmAccount a account) => .ok (0, r.putValue (key .evmAcct (array20 a)) account)
  | .write (.putStakingState state) => .ok (0, r.putValue (metaKey .staking) state)
  | .write (.putGovernanceState state) => .ok (0, r.putValue (metaKey .governance) state)
  | .write (.putEpochTransition transition) => .ok (0, r.putEpochTransition transition)
  | .write (.atomicCommitBlock block accounts) => .ok (0, r.atomicCommitBlock block accounts)
  | .write (.putConsensusSnapshot snapshot) => .ok (0, r.putValue (metaKey .consensus) snapshot)
  | .write (.appendConsensusWal entry) => do
    let r ← r.appendConsensusWal entry
    return (0, r)
  | .write (.compactConsensusWal belowHeight) => r.compactConsensusWal belowHeight
  | .write (.pruneBlocksBelow height) => .ok (r.pruneBlocksBelow height)
  | .write (.putSlashingProtection a protection) =>
    .ok (0, r.putValue (key .slashProt (array32 a)) protection)
  | .putGenesis genesis => .ok (0, r.putValue (metaKey .genesis) genesis)
  | .putFinalizedBlock block => .ok (0, r.putFinalizedBlock block)
  | .putReceipt receipt => .ok (0, r.putValue (key .rcpt (array32 receipt.txHash)) receipt)
  | .putGasPricing state => .ok (0, r.putValue (metaKey .gasPricing) state)
  | .putEvmLogs height logs => .ok (0, r.putValue (key .evmLogs (u64 height)) logs)

omit [Hashing]

/-- The EVM logs of a height. -/
def evmLogsByHeight (r : RocksStore) (height : ℕ) : Outcome StorageError (List EvmLog) := do
  let logs ← r.getValue (List EvmLog) (key .evmLogs (u64 height))
  return logs.getD []

/-- The EVM logs of a range of heights, height by height. -/
def evmLogsRange (r : RocksStore) (fromHeight toHeight : ℕ) :
    Outcome StorageError (List (ℕ × EvmLog)) :=
  (List.range' fromHeight (toHeight + 1 - fromHeight)).foldlM (fun result height => do
    let logs ← r.evmLogsByHeight height
    return result ++ logs.map fun log => (height, log)) []

/-- The answer to a read. -/
def answer (r : RocksStore) : (q : StoreQuery) → Outcome StorageError q.Answer
  | .genesis => r.getValue Genesis (metaKey .genesis)
  | .account a => r.getValue Account (key .acct (array32 a))
  | .accounts => r.accounts
  | .evmAccount a => r.getValue EvmAccountState (key .evmAcct (array20 a))
  | .evmAccounts => r.evmAccounts
  | .blockByHeight h => r.getValue FinalizedBlock (key .blockH (u64 h))
  | .blockByHash hash => r.getValue FinalizedBlock (key .blockB (array32 hash))
  | .latestBlock => r.getValue FinalizedBlock (metaKey .latest)
  | .receipt h => r.getValue Receipt (key .rcpt (array32 h))
  | .consensusSnapshot => r.getValue ConsensusSnapshot (metaKey .consensus)
  | .stakingState => r.getValue StakingState (metaKey .staking)
  | .governanceState => r.getValue GovernanceState (metaKey .governance)
  | .latestEpochTransition => r.getValue EpochTransition (metaKey .epochLatest)
  | .slashingProtection a => r.getValue SlashingProtection (key .slashProt (array32 a))
  | .gasPricing => r.getValue GasPricingState (metaKey .gasPricing)
  | .evmLogsByHeight h => r.evmLogsByHeight h
  | .evmLogsRange fromHeight toHeight => r.evmLogsRange fromHeight toHeight

end RocksStore

/-! ## The database shows the collections -/

/-- What stands under a key outside the consensus log. -/
def ChainStore.view (s : ChainStore) : RocksKey → Option RocksValue
  | .acct a => s.store.accounts[a]?.map encode
  | .evmAcct a => s.store.evmAccounts[a]?.map encode
  | .blockH h => s.store.blocksByHeight[h]?.map encode
  | .blockB hash => s.store.blocksByHash[hash]?.map encode
  | .rcpt h => s.store.receipts[h]?.map encode
  | .epoch e => s.store.epochTransitions[e]?.map encode
  | .slashProt a => s.store.slashingProtection[a]?.map encode
  | .evmLogs h => s.evmLogs[h]?.map encode
  | .metadata .genesis => s.genesis.map encode
  | .metadata .latest => s.store.metaLatest.map encode
  | .metadata .consensus => s.store.snapshot.map encode
  | .metadata .staking => s.store.stakingState.map encode
  | .metadata .governance => s.store.governanceState.map encode
  | .metadata .epochLatest => s.store.epochLatest.map encode
  | .metadata .gasPricing => s.gasPricing.map encode
  | .consensusWal _ | .metadata .consensusWalNext => none

/-- A key outside the consensus log. -/
def RocksKey.Outside (k : RocksKey) : Prop :=
  k.space ≠ .consensusWal ∧ k ≠ .metadata .consensusWalNext

/-- The database shows the collections: all its keys are in order, and under each key outside the
log stands what the collections hold.  Heights are words. -/
structure RocksStore.Shows (r : RocksStore) (s : ChainStore) : Prop where
  wellFormed : r.WellFormed
  view : ∀ k : RocksKey, k.Fits → k.Outside → r.read k = s.view k
  heights : ∀ h : ℕ, s.store.blocksByHeight[h]?.isSome → h < 2 ^ 64
  logHeights : ∀ h : ℕ, s.evmLogs[h]?.isSome → h < 2 ^ 64

/-! ### Writes that put -/

variable [Hashing]

/-- What a write puts under which keys, in order; nothing for pruning and for the log. -/
def StoreCall.entries : StoreCall → List (RocksKey × RocksValue)
  | .write (.putAccount a account) => [(.acct a, encode account)]
  | .write (.putEvmAccount a account) => [(.evmAcct a, encode account)]
  | .write (.putStakingState state) => [(.metadata .staking, encode state)]
  | .write (.putGovernanceState state) => [(.metadata .governance, encode state)]
  | .write (.putEpochTransition transition) =>
    [(.epoch transition.epoch, encode transition), (.metadata .epochLatest, encode transition)]
  | .write (.atomicCommitBlock block accounts) =>
    (accounts.toList.map fun e => (.acct e.1, encode e.2)) ++
      (block.receipts.map fun receipt => (.rcpt receipt.txHash, encode receipt)) ++
      [(.blockH block.block.header.height, encode block),
        (.blockB block.block.hash, encode block), (.metadata .latest, encode block)]
  | .write (.putConsensusSnapshot snapshot) => [(.metadata .consensus, encode snapshot)]
  | .write (.putSlashingProtection a protection) => [(.slashProt a, encode protection)]
  | .putGenesis genesis => [(.metadata .genesis, encode genesis)]
  | .putFinalizedBlock block =>
    [(.blockH block.block.header.height, encode block), (.blockB block.block.hash, encode block),
      (.metadata .latest, encode block)]
  | .putReceipt receipt => [(.rcpt receipt.txHash, encode receipt)]
  | .putGasPricing state => [(.metadata .gasPricing, encode state)]
  | .putEvmLogs height logs => [(.evmLogs height, encode logs)]
  | .write (.appendConsensusWal _) | .write (.compactConsensusWal _) | .write (.pruneBlocksBelow _) =>
    []

/-- A write that only puts. -/
def StoreCall.Puts : StoreCall → Prop
  | .write (.appendConsensusWal _) | .write (.compactConsensusWal _) | .write (.pruneBlocksBelow _) =>
    False
  | _ => True

/-- A view after some entries have been put. -/
def putEntries (view : RocksKey → Option RocksValue) (entries : List (RocksKey × RocksValue)) :
    RocksKey → Option RocksValue :=
  entries.foldl (fun view e => Function.update view e.1 (some e.2)) view

omit [Hashing] in
lemma putEntries_append (view : RocksKey → Option RocksValue) (l m : List (RocksKey × RocksValue)) :
    putEntries view (l ++ m) = putEntries (putEntries view l) m := List.foldl_append

variable {r : RocksStore} {s : ChainStore} {c : StoreCall}

/-- The database after a write that only puts. -/
lemma RocksStore.call_puts (h : c.Puts) :
    r.call c = .ok (0, r.write (c.entries.map fun e => .put e.1.bytes e.2)) := by
  cases c with
  | write w =>
    cases w with
    | atomicCommitBlock block accounts =>
      simp only [call, atomicCommitBlock, StoreCall.entries, List.map_append, List.map_map]
      rfl
    | appendConsensusWal | compactConsensusWal | pruneBlocksBelow => exact h.elim
    | _ => rfl
  | _ => rfl

omit [Hashing] in
lemma RocksStore.WellFormed.writeEntries (h : r.WellFormed) {entries : List (RocksKey × RocksValue)}
    (hentries : ∀ e ∈ entries, e.1.Fits ∧ Holds e.1 e.2) :
    (r.write (entries.map fun e => .put e.1.bytes e.2)).WellFormed := by
  induction entries generalizing r with
  | nil => exact h
  | cons e entries ih =>
    obtain ⟨he, hrest⟩ := List.forall_mem_cons.mp hentries
    exact ih (h.insert he.1 he.2) hrest

omit [Hashing] in
lemma RocksStore.read_writeEntries {entries : List (RocksKey × RocksValue)}
    (hentries : ∀ e ∈ entries, e.1.Fits ∧ Holds e.1 e.2) {k : RocksKey} (hk : k.Fits)
    {view : RocksKey → Option RocksValue} (hview : r.read k = view k) :
    (r.write (entries.map fun e => .put e.1.bytes e.2)).read k = putEntries view entries k := by
  induction entries generalizing r view with
  | nil => exact hview
  | cons e entries ih =>
    obtain ⟨he, hrest⟩ := List.forall_mem_cons.mp hentries
    refine ih hrest ?_
    show RocksStore.read ⟨r.db.insert e.1.bytes e.2⟩ k = _
    rw [read_insert he.1 hk, hview]
    exact (Function.update_apply view e.1 (some e.2) k).symm

lemma StoreCall.Fits.entries (h : c.Fits) : ∀ e ∈ c.entries, e.1.Fits ∧ RocksStore.Holds e.1 e.2 := by
  cases c with
  | write w =>
    cases w with
    | atomicCommitBlock block accounts =>
      intro e he
      simp only [StoreCall.entries, List.mem_append, List.mem_map, List.mem_cons,
        List.not_mem_nil, or_false] at he
      rw [Fits] at h
      rcases he with (⟨_, -, rfl⟩ | ⟨_, -, rfl⟩) | rfl | rfl | rfl
      · exact ⟨trivial, trivial⟩
      · exact ⟨trivial, trivial⟩
      · exact ⟨RocksKey.fits_blockH h, trivial⟩
      · exact ⟨trivial, trivial⟩
      · exact ⟨trivial, trivial⟩
    | putEpochTransition transition =>
      rw [Fits] at h
      exact List.forall_mem_cons.mpr ⟨⟨RocksKey.fits_epoch h, trivial⟩,
        List.forall_mem_singleton.mpr ⟨trivial, trivial⟩⟩
    | appendConsensusWal | compactConsensusWal | pruneBlocksBelow =>
      exact fun e he => (List.not_mem_nil he).elim
    | _ => exact List.forall_mem_singleton.mpr ⟨trivial, trivial⟩
  | putFinalizedBlock block =>
    rw [Fits] at h
    exact List.forall_mem_cons.mpr ⟨⟨RocksKey.fits_blockH h, trivial⟩,
      List.forall_mem_cons.mpr ⟨⟨trivial, trivial⟩, List.forall_mem_singleton.mpr ⟨trivial, trivial⟩⟩⟩
  | putEvmLogs height logs =>
    rw [Fits] at h
    exact List.forall_mem_singleton.mpr ⟨RocksKey.fits_evmLogs h, trivial⟩
  | _ => exact List.forall_mem_singleton.mpr ⟨trivial, trivial⟩

section

variable {κ ν : Type} [Ord κ] [Std.TransOrd κ] [Std.LawfulEqOrd κ] [DecidableEq κ] [Stored ν]

omit [Hashing] in
/-- A collection after a write, as it is shown. -/
lemma view_insert (t : BTreeMap κ ν) (a b : κ) (x : ν) :
    (t.insert a x)[b]?.map encode = if b = a then some (encode x) else t[b]?.map encode := by
  rw [Table.getElem?_insert]
  split <;> rfl

end

namespace ChainStore

omit [Hashing] in
lemma view_putAccount (s : ChainStore) (a : Address) (account : Account) :
    ChainStore.view { s with
        store := { s.store with accounts := s.store.accounts.insert a account } } =
      Function.update s.view (.acct a) (some (encode account)) := by
  funext k
  cases k with
  | acct b => simp only [view, view_insert, Function.update_apply, RocksKey.acct.injEq]
  | metadata name => cases name <;> rfl
  | _ => rfl

omit [Hashing] in
lemma view_putReceipt (s : ChainStore) (receipt : Receipt) :
    ChainStore.view { s with
        store := { s.store with receipts := s.store.receipts.insert receipt.txHash receipt } } =
      Function.update s.view (.rcpt receipt.txHash) (some (encode receipt)) := by
  funext k
  cases k with
  | rcpt b => simp only [view, view_insert, Function.update_apply, RocksKey.rcpt.injEq]
  | metadata name => cases name <;> rfl
  | _ => rfl

omit [Hashing] in
lemma view_putAccounts (s : ChainStore) (l : List (Address × Account)) :
    ChainStore.view { s with
        store := { s.store with accounts := Table.insertAll s.store.accounts l } } =
      putEntries s.view (l.map fun e => (.acct e.1, encode e.2)) := by
  induction l generalizing s with
  | nil => rfl
  | cons e l ih =>
    show _ = putEntries (Function.update s.view (.acct e.1) (some (encode e.2))) _
    rw [← view_putAccount]
    exact ih { s with store := { s.store with accounts := s.store.accounts.insert e.1 e.2 } }

omit [Hashing] in
lemma view_putReceipts (s : ChainStore) (l : List Receipt) :
    ChainStore.view { s with
        store := { s.store with
          receipts := l.foldl (fun m receipt => m.insert receipt.txHash receipt) s.store.receipts } } =
      putEntries s.view (l.map fun receipt => (.rcpt receipt.txHash, encode receipt)) := by
  induction l generalizing s with
  | nil => rfl
  | cons receipt l ih =>
    show _ = putEntries (Function.update s.view (.rcpt receipt.txHash) (some (encode receipt))) _
    rw [← view_putReceipt]
    exact ih { s with
      store := { s.store with receipts := s.store.receipts.insert receipt.txHash receipt } }

/-- A block under its height, under its hash and as the latest one. -/
lemma view_putFinalizedBlock (s : ChainStore) (block : FinalizedBlock) :
    (s.putFinalizedBlock block).view = putEntries s.view
      [(.blockH block.block.header.height, encode block), (.blockB block.block.hash, encode block),
        (.metadata .latest, encode block)] := by
  funext k
  simp only [putEntries, List.foldl_cons, List.foldl_nil, Function.update_apply]
  cases k with
  | blockH h => simp [view, putFinalizedBlock, view_insert]
  | blockB hash => simp [view, putFinalizedBlock, view_insert]
  | metadata name => cases name <;> rfl
  | _ => rfl

/-- **A write that puts** changes what the collections show by its entries. -/
lemma view_apply (s : ChainStore) {c : StoreCall} (h : c.Puts) :
    (s.apply c).view = putEntries s.view c.entries := by
  cases c with
  | write w =>
    cases w with
    | putAccount a account => exact view_putAccount s a account
    | putEvmAccount a account =>
      funext k
      simp only [apply, Store.apply, StoreCall.entries, putEntries, List.foldl_cons, List.foldl_nil,
        Function.update_apply]
      cases k with
      | evmAcct b => simp [view, view_insert]
      | metadata name => cases name <;> rfl
      | _ => rfl
    | putSlashingProtection a protection =>
      funext k
      simp only [apply, Store.apply, StoreCall.entries, putEntries, List.foldl_cons, List.foldl_nil,
        Function.update_apply]
      cases k with
      | slashProt b => simp [view, view_insert]
      | metadata name => cases name <;> rfl
      | _ => rfl
    | putEpochTransition transition =>
      funext k
      simp only [apply, Store.apply, StoreCall.entries, putEntries, List.foldl_cons, List.foldl_nil,
        Function.update_apply]
      cases k with
      | epoch e => simp [view, view_insert]
      | metadata name => cases name <;> rfl
      | _ => rfl
    | atomicCommitBlock block accounts =>
      have haccounts := view_putAccounts s accounts.toList
      have hreceipts := view_putReceipts { s with
        store := { s.store with
          accounts := Table.insertAll s.store.accounts accounts.toList } } block.receipts
      rw [StoreCall.entries, putEntries_append, putEntries_append, ← haccounts, ← hreceipts,
        ← view_putFinalizedBlock]
      rfl
    | putStakingState | putGovernanceState | putConsensusSnapshot =>
      funext k
      simp only [StoreCall.entries, putEntries, List.foldl_cons, List.foldl_nil,
        Function.update_apply]
      cases k with
      | metadata name => cases name <;> rfl
      | _ => rfl
    | appendConsensusWal | compactConsensusWal | pruneBlocksBelow => exact h.elim
  | putFinalizedBlock block => exact view_putFinalizedBlock s block
  | putReceipt receipt => exact view_putReceipt s receipt
  | putEvmLogs height logs =>
    funext k
    simp only [apply, StoreCall.entries, putEntries, List.foldl_cons, List.foldl_nil,
      Function.update_apply]
    cases k with
    | evmLogs b => simp [view, view_insert]
    | metadata name => cases name <;> rfl
    | _ => rfl
  | putGenesis | putGasPricing =>
    funext k
    simp only [StoreCall.entries, putEntries, List.foldl_cons, List.foldl_nil,
      Function.update_apply]
    cases k with
    | metadata name => cases name <;> rfl
    | _ => rfl

end ChainStore

/-! ### Pruning -/

lemma getElem?_blocksByHeight_prune (s : Store) (height n : ℕ) :
    (s.pruneBlocksBelow height).blocksByHeight[n]? =
      if n < height then none else s.blocksByHeight[n]? := by
  rw [Store.pruneBlocksBelow, Std.ExtTreeMap.getElem?_filter']
  rcases s.blocksByHeight[n]? with _ | block
  · rw [ite_self, Option.filter_none]
  · by_cases hn : n < height
    · simp [Option.filter, hn]
    · simp [Option.filter, hn, Nat.not_lt.mp hn]

lemma getElem?_blocksByHash_prune (s : Store) (height : ℕ) (hash : Hash32) :
    (s.pruneBlocksBelow height).blocksByHash[hash]? =
      if ∃ e ∈ s.blocksByHeight.toList, e.1 < height ∧ e.2.block.hash = hash then none
      else s.blocksByHash[hash]? :=
  Table.getElem?_foldl_erase (fun e : ℕ × FinalizedBlock => e.1 < height)
    (fun e => e.2.block.hash) _ _ _

omit [Hashing] in
/-- The keys of a table below a bound, counted by trying all numbers and by listing the table. -/
lemma length_filter_range {ν : Type} (t : BTreeMap ℕ ν) (n : ℕ) :
    ((List.range n).filter fun h => t[h]?.isSome).length =
      (t.toList.filter fun e => e.1 < n).length := by
  have hkeys : (t.toList.filter fun e => e.1 < n).length =
      ((t.toList.filter fun e => e.1 < n).map Prod.fst).length := (List.length_map _).symm
  rw [hkeys]
  refine List.Perm.length_eq ((List.perm_ext_iff_of_nodup (List.nodup_range.filter _) ?_).mpr ?_)
  · refine (((Std.ExtTreeMap.ordered_keys_toList (t := t)).filter _).map Prod.fst fun a b hab => ?_)
    exact (Nat.compare_eq_lt.mp hab).ne
  · intro h
    simp only [List.mem_filter, List.mem_range, List.mem_map, decide_eq_true_eq]
    constructor
    · rintro ⟨hlt, hsome⟩
      obtain ⟨v, hv⟩ := Option.isSome_iff_exists.mp hsome
      exact ⟨(h, v), ⟨Table.mem_toList_iff.mpr hv, hlt⟩, rfl⟩
    · rintro ⟨e, ⟨he, hlt⟩, rfl⟩
      rw [Table.mem_toList_iff.mp he]
      exact ⟨hlt, rfl⟩

/-! ### Every write is shown -/

namespace RocksStore

omit [Hashing] in
/-- A batch of deletions. -/
lemma read_deletes (h : r.WellFormed) {ks : List RocksKey} (hks : ∀ k ∈ ks, k.Fits) :
    (r.write (ks.map fun k => .delete k.bytes)).WellFormed ∧
      ∀ k : RocksKey, k.Fits →
        (r.write (ks.map fun k => .delete k.bytes)).read k = if k ∈ ks then none else r.read k := by
  induction ks generalizing r with
  | nil => exact ⟨h, fun k _ => (if_neg List.not_mem_nil).symm⟩
  | cons k₀ ks ih =>
    obtain ⟨hk₀, hrest⟩ := List.forall_mem_cons.mp hks
    obtain ⟨hwell, hread⟩ := @ih ⟨r.db.erase k₀.bytes⟩ (h.erase k₀.bytes) hrest
    refine ⟨hwell, fun k hk => ?_⟩
    refine (hread k hk).trans ?_
    rw [read_erase hk₀ hk]
    by_cases hmem : k ∈ ks
    · rw [if_pos hmem, if_pos (List.mem_cons_of_mem _ hmem)]
    · by_cases heq : k = k₀
      · rw [if_neg hmem, if_pos heq, if_pos (heq ▸ List.mem_cons_self)]
      · rw [if_neg hmem, if_neg heq, if_neg fun hc => (List.mem_cons.mp hc).elim heq hmem]

/-- The keys that pruning deletes for one height. -/
def prunedKeys (s : ChainStore) (h : ℕ) : List RocksKey :=
  match s.store.blocksByHeight[h]? with
  | none => []
  | some block => [.blockB block.block.hash, .blockH h]

omit [Hashing] in
lemma outside_blockH (n : ℕ) : RocksKey.Outside (.blockH n) := ⟨nofun, nofun⟩

lemma mem_prunedKeys_iff {k : RocksKey} {n : ℕ} : k ∈ prunedKeys s n ↔
    ∃ block, s.store.blocksByHeight[n]? = some block ∧
      (k = .blockB block.block.hash ∨ k = .blockH n) := by
  rw [prunedKeys]
  rcases s.store.blocksByHeight[n]? with _ | block
  · simp
  · simp

lemma Shows.pruneOne (h : r.Shows s) {n : ℕ} (hn : n < 2 ^ 64) :
    r.pruneOne n = (prunedKeys s n).map fun k => .delete k.bytes := by
  have hread : r.db[key .blockH (u64 n)]? = _ :=
    h.view (.blockH n) (RocksKey.fits_blockH hn) (outside_blockH n)
  rw [RocksStore.pruneOne, prunedKeys, hread, ChainStore.view]
  rcases s.store.blocksByHeight[n]? with _ | block
  · rfl
  · simp only [Option.map_some, Stored.decode_encode]
    rfl

/-- After pruning, the database shows the collections after pruning. -/
lemma Shows.pruneBlocksBelow (h : r.Shows s) {height : ℕ} (hheight : height < 2 ^ 64) :
    (r.pruneBlocksBelow height).2.Shows (s.apply (.write (.pruneBlocksBelow height))) ∧
      (r.pruneBlocksBelow height).1 = s.count (.write (.pruneBlocksBelow height)) := by
  have hlt : ∀ n ∈ List.range height, n < 2 ^ 64 :=
    fun n hn => (List.mem_range.mp hn).trans hheight
  have hbatch : (List.range height).flatMap r.pruneOne =
      ((List.range height).flatMap (prunedKeys s)).map fun k => .delete k.bytes := by
    rw [List.map_flatMap, List.flatMap_congr fun n hn => h.pruneOne (hlt n hn)]
  have hmem : ∀ k : RocksKey, k ∈ (List.range height).flatMap (prunedKeys s) ↔
      ∃ n block, n < height ∧ s.store.blocksByHeight[n]? = some block ∧
        (k = .blockB block.block.hash ∨ k = .blockH n) := by
    intro k
    simp only [List.mem_flatMap, List.mem_range, mem_prunedKeys_iff]
    constructor
    · rintro ⟨n, hn, block, hblock, hk⟩
      exact ⟨n, block, hn, hblock, hk⟩
    · rintro ⟨n, block, hn, hblock, hk⟩
      exact ⟨n, hn, block, hblock, hk⟩
  have hfits : ∀ k ∈ (List.range height).flatMap (prunedKeys s), k.Fits := by
    intro k hk
    obtain ⟨n, block, hn, -, rfl | rfl⟩ := (hmem k).mp hk
    · trivial
    · exact RocksKey.fits_blockH (hn.trans hheight)
  obtain ⟨hwell, hread⟩ := read_deletes h.wellFormed hfits
  rw [← hbatch] at hwell hread
  refine ⟨⟨hwell, fun k hk houtside => ?_, fun n hn => ?_, h.logHeights⟩, ?_⟩
  · refine (hread k hk).trans ?_
    classical
    rw [h.view k hk houtside, if_congr (hmem k) rfl rfl]
    cases k with
    | blockH n =>
      rw [ChainStore.view, ChainStore.apply, ChainStore.view, Store.apply,
        getElem?_blocksByHeight_prune]
      by_cases hn : n < height
      · rw [if_pos hn]
        rcases hblock : s.store.blocksByHeight[n]? with _ | block
        · rw [Option.map_none, ite_self]
        · exact if_pos ⟨n, block, hn, hblock, .inr rfl⟩
      · rw [if_neg hn, if_neg]
        rintro ⟨m, block, hm, -, hkey | hkey⟩
        · cases hkey
        · exact hn (RocksKey.blockH.inj hkey ▸ hm)
    | blockB hash =>
      rw [ChainStore.view, ChainStore.apply, ChainStore.view, Store.apply,
        getElem?_blocksByHash_prune]
      have hiff : (∃ n block, n < height ∧ s.store.blocksByHeight[n]? = some block ∧
          (RocksKey.blockB hash = .blockB block.block.hash ∨ RocksKey.blockB hash = .blockH n)) ↔
          ∃ e ∈ s.store.blocksByHeight.toList, e.1 < height ∧ e.2.block.hash = hash := by
        constructor
        · rintro ⟨n, block, hn, hblock, hkey | hkey⟩
          · exact ⟨(n, block), Table.mem_toList_iff.mpr hblock, hn, (RocksKey.blockB.inj hkey).symm⟩
          · cases hkey
        · rintro ⟨e, he, hlt, rfl⟩
          exact ⟨e.1, e.2, hlt, Table.mem_toList_iff.mp he, .inl rfl⟩
      rw [apply_ite (Option.map encode)]
      exact if_congr hiff rfl rfl
    | metadata name =>
      refine (if_neg ?_).trans (by cases name <;> rfl)
      rintro ⟨m, block, -, -, hkey | hkey⟩ <;> cases hkey
    | _ =>
      refine (if_neg ?_).trans rfl
      rintro ⟨m, block, -, -, hkey | hkey⟩ <;> cases hkey
  · refine h.heights n ?_
    rw [ChainStore.apply, Store.apply, getElem?_blocksByHeight_prune] at hn
    split at hn
    · cases hn
    · exact hn
  · rw [RocksStore.pruneBlocksBelow, ChainStore.count, ← length_filter_range]
    refine congrArg List.length (List.filter_congr fun n hn => ?_)
    have hread : r.db[key .blockH (u64 n)]? = _ :=
      h.view (.blockH n) (RocksKey.fits_blockH (hlt n hn)) (outside_blockH n)
    rw [hread, ChainStore.view, Option.isSome_map]

omit [Hashing] in
/-- A put under a key of the log shows nothing. -/
lemma Shows.insert_inside (h : r.Shows s) {k : RocksKey} {value : RocksValue} (hk : k.Fits)
    (hvalue : Holds k value) (hinside : ¬ k.Outside) : Shows ⟨r.db.insert k.bytes value⟩ s := by
  refine ⟨h.wellFormed.insert hk hvalue, fun k' hk' houtside => ?_, h.heights, h.logHeights⟩
  have hne : k' ≠ k := by
    rintro rfl
    exact hinside houtside
  rw [read_insert hk hk', if_neg hne, h.view k' hk' houtside]

omit [Hashing] in
lemma nextIndex (h : r.WellFormed) : ∃ stored, r.getValue ℕ (metaKey .consensusWalNext) = .ok stored ∧
    r.read (.metadata .consensusWalNext) = stored.map encode ∧ stored.getD 0 < 2 ^ 64 := by
  have hread : r.db[metaKey .consensusWalNext]? = r.read (.metadata .consensusWalNext) := rfl
  rcases hv : r.read (.metadata .consensusWalNext) with _ | v
  · refine ⟨none, ?_, rfl, Nat.two_pow_pos 64⟩
    rw [getValue, hread, hv]
  · obtain ⟨k, hk, hbytes, hholds⟩ := h _ v hv
    have hkey : k = .metadata .consensusWalNext := RocksKey.bytes_inj hk trivial hbytes
    subst hkey
    cases v with
    | index n =>
      refine ⟨some n, ?_, rfl, hholds⟩
      rw [getValue, hread, hv]
      rfl
    | _ => exact hholds.elim

omit [Hashing] in
/-- What an append to the log does to the database. -/
lemma appendConsensusWal_ok (h : r.WellFormed) (entry : ConsensusWalEntry) :
    ∃ n, n < 2 ^ 64 ∧
      (r.read (.metadata .consensusWalNext) = some (encode n) ∨
        r.read (.metadata .consensusWalNext) = none ∧ n = 0) ∧
      r.appendConsensusWal entry = .ok ((r.putValue (key .consensusWal (u64 n)) entry).putValue
        (metaKey .consensusWalNext) (wrappingAdd 64 n 1)) := by
  obtain ⟨stored, hget, hread, hlt⟩ := nextIndex h
  refine ⟨stored.getD 0, hlt, ?_, ?_⟩
  · rw [hread]
    cases stored with
    | none => exact .inr ⟨rfl, rfl⟩
    | some n => exact .inl rfl
  · rw [appendConsensusWal, hget]
    rfl

/-! ### Reading keys back -/

omit [Hashing] in
lemma readIndex_bytes {i : ℕ} (hi : i < 2 ^ 64) :
    readIndex (RocksKey.consensusWal i).bytes = .ok i := by
  have hstart : Namespace.consensusWal.start.length = 14 := by decide +kernel
  have hlength : (RocksKey.consensusWal i).bytes.length = 22 := by
    rw [RocksKey.bytes, key, List.length_append, RocksKey.space, hstart, RocksKey.suffix, u64,
      length_leBytes]
  rw [readIndex, if_pos hlength.ge, RocksKey.bytes, key, RocksKey.space, List.drop_left' hstart,
    RocksKey.suffix, u64, List.take_of_length_le (length_leBytes 8 i).le, ofLe_leBytes hi]

omit [Hashing] in
lemma slice_bytes {n : Namespace} {suffix : Bytes} {i j : ℕ} (hi : n.start.length = i)
    (hj : i + suffix.length = j) : slice (key n suffix) i j = .ok suffix := by
  have hlength : (key n suffix).length = j := by rw [key, List.length_append, hi, hj]
  have htake : j - i = suffix.length := by omega
  rw [slice, if_pos hlength.ge, key, List.drop_left' hi, htake, List.take_length]

omit [Hashing] in
lemma readAddress_bytes (a : Address) : readAddress (RocksKey.acct a).bytes = .ok a := by
  have hstart : Namespace.acct.start.length = 5 := by decide +kernel
  have hslice : slice (RocksKey.acct a).bytes 5 37 = .ok (array32 a) :=
    slice_bytes hstart (by rw [RocksKey.suffix, length_array32])
  rw [readAddress, hslice, Outcome.ok_bind, array32, ofBe_beBytes (by exact a.isLt),
    BitVec.ofNat_toNat, BitVec.setWidth_eq]
  rfl

omit [Hashing] in
lemma readEvmAddress_bytes (a : EvmAddress) : readEvmAddress (RocksKey.evmAcct a).bytes = .ok a := by
  have hstart : Namespace.evmAcct.start.length = 9 := by decide +kernel
  have hslice : slice (RocksKey.evmAcct a).bytes 9 29 = .ok (array20 a) :=
    slice_bytes hstart (by rw [RocksKey.suffix, array20, beBytes, List.length_reverse, length_leBytes])
  rw [readEvmAddress, hslice, Outcome.ok_bind, array20, ofBe_beBytes (by exact a.isLt),
    BitVec.ofNat_toNat, BitVec.setWidth_eq]
  rfl

omit [Hashing] in
/-- The log entries of the database are those under the keys of the log. -/
lemma consensusWal_ok (h : r.WellFormed) : ∃ t, r.consensusWal = .ok t ∧
    (∀ i, i < 2 ^ 64 → t[i]?.map encode = r.read (.consensusWal i)) ∧
      ∀ i, ¬ i < 2 ^ 64 → t[i]? = none := by
  have hname : ∀ a, (RocksKey.consensusWal a).space = .consensusWal := fun _ => rfl
  have hspace : ∀ k : RocksKey, k.space = .consensusWal → ∃ a, RocksKey.consensusWal a = k := by
    intro k hk
    cases k with
    | consensusWal a => exact ⟨a, rfl⟩
    | _ => cases hk
  have hread : ∀ i, (RocksKey.consensusWal i).Fits →
      readIndex (RocksKey.consensusWal i).bytes = .ok i := by
    intro i hi
    rw [RocksKey.Fits] at hi
    exact readIndex_bytes hi
  have hvalue : ∀ i w, Holds (.consensusWal i) w → ∃ x : ConsensusWalEntry, w = encode x := by
    intro i w hw
    cases w with
    | walEntry x => exact ⟨x, rfl⟩
    | _ => exact hw.elim
  obtain ⟨t, hok, hfits, hnot⟩ := collect_ok h hname hspace hread hvalue
  refine ⟨t, hok, fun i hi => hfits i (RocksKey.fits_consensusWal hi), fun i hi => hnot i ?_⟩
  rwa [RocksKey.Fits]

omit [Hashing] in
/-- All accounts are iterated. -/
lemma Shows.accounts (h : r.Shows s) : r.accounts = .ok s.store.accounts := by
  have hname : ∀ a, (RocksKey.acct a).space = .acct := fun _ => rfl
  have hspace : ∀ k : RocksKey, k.space = .acct → ∃ a, RocksKey.acct a = k := by
    intro k hk
    cases k with
    | acct a => exact ⟨a, rfl⟩
    | _ => cases hk
  have hvalue : ∀ a w, Holds (.acct a) w → ∃ x : Account, w = encode x := by
    intro a w hw
    cases w with
    | account x => exact ⟨x, rfl⟩
    | _ => exact hw.elim
  obtain ⟨t, hok, hfits, -⟩ := collect_ok h.wellFormed hname hspace
    (fun a _ => readAddress_bytes a) hvalue
  rw [RocksStore.accounts, hok]
  refine congrArg _ (Std.ExtTreeMap.ext_getElem? fun a => ?_)
  refine Option.map_injective (fun _ _ => encode_inj) ?_
  rw [hfits a trivial, h.view (.acct a) trivial ⟨nofun, nofun⟩, ChainStore.view]

omit [Hashing] in
/-- All EVM accounts are iterated. -/
lemma Shows.evmAccounts (h : r.Shows s) : r.evmAccounts = .ok s.store.evmAccounts := by
  have hname : ∀ a, (RocksKey.evmAcct a).space = .evmAcct := fun _ => rfl
  have hspace : ∀ k : RocksKey, k.space = .evmAcct → ∃ a, RocksKey.evmAcct a = k := by
    intro k hk
    cases k with
    | evmAcct a => exact ⟨a, rfl⟩
    | _ => cases hk
  have hvalue : ∀ a w, Holds (.evmAcct a) w → ∃ x : EvmAccountState, w = encode x := by
    intro a w hw
    cases w with
    | evmAccount x => exact ⟨x, rfl⟩
    | _ => exact hw.elim
  obtain ⟨t, hok, hfits, -⟩ := collect_ok h.wellFormed hname hspace
    (fun a _ => readEvmAddress_bytes a) hvalue
  rw [RocksStore.evmAccounts, hok]
  refine congrArg _ (Std.ExtTreeMap.ext_getElem? fun a => ?_)
  refine Option.map_injective (fun _ _ => encode_inj) ?_
  rw [hfits a trivial, h.view (.evmAcct a) trivial ⟨nofun, nofun⟩, ChainStore.view]

/-! ### The log -/

/-- The entries that a compaction is to remove. -/
def below (belowHeight : ℕ) (entry : ConsensusWalEntry) : Bool := entry.height < belowHeight

omit [Hashing] in
lemma ordered_toList {ν : Type} (t : BTreeMap ℕ ν) : t.toList.Pairwise fun a b => a.1 < b.1 :=
  Std.ExtTreeMap.ordered_keys_toList.imp fun hab => Nat.compare_eq_lt.mp hab

omit [Hashing] in
/-- What a compaction does to the database: the keys made from the positions of the entries below
the height are deleted. -/
lemma compactConsensusWal_ok (h : r.WellFormed) {t : BTreeMap ℕ ConsensusWalEntry}
    (ht : r.consensusWal = .ok t) (hnot : ∀ i, ¬ i < 2 ^ 64 → t[i]? = none) (belowHeight : ℕ) :
    ∃ r', r.compactConsensusWal belowHeight =
        .ok (((Table.values t).filter (below belowHeight)).length, r') ∧ r'.WellFormed ∧
      ∀ k : RocksKey, k.Fits → (r'.read k = none ∧
          ∃ i, k = .consensusWal i ∧ Positions.hit (below belowHeight) t.toList i = true) ∨
        (r'.read k = r.read k ∧
          ∀ i, k = .consensusWal i → Positions.hit (below belowHeight) t.toList i = false) := by
  have hmem : ∀ i, i ∈ (((Table.values t).zipIdx.filter fun e => e.1.height < belowHeight).map
      Prod.snd) ↔ Positions.hit (below belowHeight) t.toList i = true := by
    intro i
    simp only [List.mem_map, List.mem_filter, decide_eq_true_eq, Prod.exists, exists_eq_right,
      List.mem_zipIdx_iff_getElem?, Positions.hit_iff, Table.values, List.getElem?_map,
      Option.map_eq_some_iff, below]
    constructor
    · rintro ⟨x, ⟨j, he⟩, hx⟩
      exact ⟨j, x, he, hx⟩
    · rintro ⟨j, x, he, hx⟩
      exact ⟨x, ⟨j, he⟩, hx⟩
  -- A position is at most the key of its entry, so it fits in a word.
  have hlt : ∀ i, Positions.hit (below belowHeight) t.toList i = true → i < 2 ^ 64 := by
    intro i hi
    obtain ⟨e, he, -⟩ := Positions.hit_iff.mp hi
    have hle := Positions.le_key (ordered_toList t) he
    have hkey := Table.mem_toList_iff.mp (List.mem_of_getElem? he)
    by_contra hnlt
    rw [hnot e.1 (by omega)] at hkey
    cases hkey
  have hfits : ∀ k ∈ (((Table.values t).zipIdx.filter fun e => e.1.height < belowHeight).map
      Prod.snd).map RocksKey.consensusWal, k.Fits := by
    intro k hk
    obtain ⟨i, hi, rfl⟩ := List.mem_map.mp hk
    exact RocksKey.fits_consensusWal (hlt i ((hmem i).mp hi))
  obtain ⟨hwell, hread⟩ := read_deletes h hfits
  refine ⟨_, ?_, hwell, fun k hk => ?_⟩
  · rw [compactConsensusWal, loadConsensusWal, ht]
    simp only [Outcome.ok_bind, Outcome.pure_eq, List.map_map]
    refine congrArg Outcome.ok (Prod.ext ?_ rfl)
    have hfst : ((Table.values t).zipIdx.map Prod.fst).filter (below belowHeight) =
        ((Table.values t).zipIdx.filter fun e => e.1.height < belowHeight).map Prod.fst :=
      List.filter_map
    rw [List.zipIdx_map_fst] at hfst
    rw [hfst, List.length_map]
  · rw [hread k hk]
    by_cases hin : k ∈ (((Table.values t).zipIdx.filter fun e => e.1.height < belowHeight).map
        Prod.snd).map RocksKey.consensusWal
    · obtain ⟨i, hi, rfl⟩ := List.mem_map.mp hin
      exact .inl ⟨if_pos hin, i, rfl, (hmem i).mp hi⟩
    · refine .inr ⟨if_neg hin, ?_⟩
      rintro i rfl
      rw [Bool.eq_false_iff, Ne, ← hmem i]
      exact fun hi => hin (List.mem_map_of_mem hi)

omit [Hashing] in
/-- An entry of a view is put, or it was there. -/
lemma putEntries_cases (view : RocksKey → Option RocksValue) (entries : List (RocksKey × RocksValue))
    (k : RocksKey) : putEntries view entries k = view k ∨ k ∈ entries.map Prod.fst := by
  induction entries generalizing view with
  | nil => exact .inl rfl
  | cons e entries ih =>
    rcases ih (Function.update view e.1 (some e.2)) with hview | hmem
    · by_cases hk : k = e.1
      · exact .inr (hk ▸ List.mem_cons_self)
      · exact .inl (hview.trans (Function.update_of_ne hk _ _))
    · exact .inr (List.mem_cons_of_mem _ hmem)

/-- A write that puts is shown. -/
lemma Shows.puts (h : r.Shows s) (hputs : c.Puts) (hfits : c.Fits) :
    (r.write (c.entries.map fun e => .put e.1.bytes e.2)).Shows (s.apply c) := by
  have hview := s.view_apply hputs
  have hold : ∀ k : RocksKey, ((s.apply c).view k).isSome → k.Fits ∨ (s.view k).isSome := by
    intro k hk
    rw [hview] at hk
    rcases putEntries_cases s.view c.entries k with hsame | hmem
    · rw [hsame] at hk
      exact .inr hk
    · obtain ⟨e, he, rfl⟩ := List.mem_map.mp hmem
      exact .inl (hfits.entries e he).1
  refine ⟨h.wellFormed.writeEntries hfits.entries, fun k hk houtside => ?_, fun n hn => ?_,
    fun n hn => ?_⟩
  · rw [hview]
    exact read_writeEntries hfits.entries hk (h.view k hk houtside)
  · have hsome : ((s.apply c).view (.blockH n)).isSome := by rwa [ChainStore.view, Option.isSome_map]
    rcases hold _ hsome with hk | hk
    · rwa [RocksKey.Fits] at hk
    · rw [ChainStore.view, Option.isSome_map] at hk
      exact h.heights n hk
  · have hsome : ((s.apply c).view (.evmLogs n)).isSome := by rwa [ChainStore.view, Option.isSome_map]
    rcases hold _ hsome with hk | hk
    · rwa [RocksKey.Fits] at hk
    · rw [ChainStore.view, Option.isSome_map] at hk
      exact h.logHeights n hk

omit [Hashing] in
/-- The view does not show the log. -/
lemma Shows.of_log (h : r.Shows s) (wal : BTreeMap ℕ ConsensusWalEntry) (next : ℕ) :
    r.Shows { s with store := { s.store with consensusWal := wal, consensusWalNext := next } } := by
  refine ⟨h.wellFormed, fun k hk houtside => ?_, h.heights, h.logHeights⟩
  rw [h.view k hk houtside]
  cases k with
  | metadata name => cases name <;> rfl
  | _ => rfl

/-- **Every write is shown**, and its count is that of the collections, except for the log. -/
theorem Shows.call (h : r.Shows s) (hfits : c.Fits) :
    ∃ n r', r.call c = .ok (n, r') ∧ r'.Shows (s.apply c) ∧
      ((∀ belowHeight, c ≠ .write (.compactConsensusWal belowHeight)) → n = s.count c) := by
  by_cases hputs : c.Puts
  · refine ⟨0, _, call_puts hputs, h.puts hputs hfits, fun _ => ?_⟩
    cases c with
    | write w =>
      cases w with
      | appendConsensusWal | compactConsensusWal | pruneBlocksBelow => exact hputs.elim
      | _ => rfl
    | _ => rfl
  · cases c with
    | write w =>
      cases w with
      | appendConsensusWal entry =>
        obtain ⟨n, hn, -, hok⟩ := appendConsensusWal_ok h.wellFormed entry
        have hentry : (r.putValue (key .consensusWal (u64 n)) entry).Shows s :=
          h.insert_inside (k := .consensusWal n) (RocksKey.fits_consensusWal hn) trivial
            fun houtside => houtside.1 rfl
        have hword : Holds (.metadata .consensusWalNext) (encode (wrappingAdd 64 n 1)) :=
          Nat.mod_lt _ (Nat.two_pow_pos 64)
        have hnext := hentry.insert_inside (k := .metadata .consensusWalNext) trivial hword
          fun houtside => houtside.2 rfl
        refine ⟨0, _, ?_, hnext.of_log _ _, fun _ => rfl⟩
        rw [RocksStore.call, hok]
        rfl
      | compactConsensusWal belowHeight =>
        obtain ⟨t, ht, -, hnot⟩ := consensusWal_ok h.wellFormed
        obtain ⟨r', hok, hwell, hread⟩ := compactConsensusWal_ok h.wellFormed ht hnot belowHeight
        have hshows : r'.Shows s := by
          refine ⟨hwell, fun k hk houtside => ?_, h.heights, h.logHeights⟩
          rcases hread k hk with ⟨-, i, rfl, -⟩ | ⟨hsame, -⟩
          · exact absurd rfl houtside.1
          · rw [hsame, h.view k hk houtside]
        refine ⟨_, r', hok, ?_, fun hne => absurd rfl (hne belowHeight)⟩
        obtain ⟨wal, hwal⟩ := s.store.compactConsensusWal_eq belowHeight
        have hsame : s.apply (.write (.compactConsensusWal belowHeight)) =
            { s with store := { s.store with consensusWal := wal } } :=
          congrArg (fun store => { s with store := store }) hwal
        rw [hsame]
        exact hshows.of_log wal s.store.consensusWalNext
      | pruneBlocksBelow height =>
        rw [StoreCall.Fits] at hfits
        obtain ⟨hshows, hcount⟩ := h.pruneBlocksBelow hfits
        exact ⟨_, _, rfl, hshows, fun _ => hcount⟩
      | _ => exact absurd trivial hputs
    | _ => exact absurd trivial hputs

/-! ### Every read is answered alike -/

omit [Hashing] in
/-- The logs of a range, height by height and by listing the table. -/
lemma flatMap_range_logs (t : BTreeMap ℕ (List EvmLog)) (a b : ℕ) :
    ((List.range' a (b + 1 - a)).flatMap fun h => (t[h]?.getD []).map fun log => (h, log)) =
      (t.toList.filter fun e => a ≤ e.1 ∧ e.1 ≤ b).flatMap fun e => e.2.map fun log => (e.1, log) := by
  -- The entries of the table in the range, found by trying all heights.
  have htry : (List.range' a (b + 1 - a)).filterMap (fun h => t[h]?.map fun logs => (h, logs)) =
      t.toList.filter fun e => a ≤ e.1 ∧ e.1 ≤ b := by
    have hordered : ((List.range' a (b + 1 - a)).filterMap fun h =>
        t[h]?.map fun logs => (h, logs)).Pairwise fun e e' => e.1 < e'.1 := by
      refine List.Pairwise.filterMap _ (fun h h' hlt e he e' he' => ?_) List.pairwise_lt_range'
      obtain ⟨_, -, rfl⟩ := Option.map_eq_some_iff.mp he
      obtain ⟨_, -, rfl⟩ := Option.map_eq_some_iff.mp he'
      exact hlt
    have hordered' := (ordered_toList t).filter fun e => decide (a ≤ e.1 ∧ e.1 ≤ b)
    refine List.Perm.eq_of_pairwise (fun e e' _ _ hlt hgt => absurd hlt (Nat.lt_asymm hgt)) hordered
      hordered' ((List.perm_ext_iff_of_nodup (hordered.imp fun hlt heq => ?_)
        (hordered'.imp fun hlt heq => ?_)).mpr fun e => ?_)
    · exact absurd (congrArg Prod.fst heq) hlt.ne
    · exact absurd (congrArg Prod.fst heq) hlt.ne
    · simp only [List.mem_filterMap, List.mem_range'_1, List.mem_filter, decide_eq_true_eq,
        Option.map_eq_some_iff]
      constructor
      · rintro ⟨h, hrange, logs, hlogs, rfl⟩
        exact ⟨Table.mem_toList_iff.mpr hlogs, by omega⟩
      · rintro ⟨he, hrange⟩
        exact ⟨e.1, by omega, e.2, Table.mem_toList_iff.mp he, rfl⟩
  rw [← htry]
  generalize List.range' a (b + 1 - a) = l
  induction l with
  | nil => rfl
  | cons h l ih =>
    rw [List.flatMap_cons, ih]
    rcases ht : t[h]? with _ | logs
    · rw [List.filterMap_cons_none (by rw [ht]; rfl)]
      rfl
    · rw [List.filterMap_cons_some (by rw [ht]; rfl), List.flatMap_cons]
      rfl

omit [Hashing] in
lemma Shows.evmLogsByHeight (h : r.Shows s) {n : ℕ} (hn : n < 2 ^ 64) :
    r.evmLogsByHeight n = .ok (s.evmLogs[n]?.getD []) := by
  have hget : r.getValue (List EvmLog) (key .evmLogs (u64 n)) = .ok s.evmLogs[n]? :=
    getValue_of_read (h.view (.evmLogs n) (RocksKey.fits_evmLogs hn) ⟨nofun, nofun⟩)
  rw [RocksStore.evmLogsByHeight, hget]
  rfl

omit [Hashing] in
lemma Shows.evmLogsRange (h : r.Shows s) {a b : ℕ} (hb : b < 2 ^ 64) :
    r.evmLogsRange a b = .ok (s.logsBetween a b) := by
  have hfold : ∀ (l : List ℕ) (result : List (ℕ × EvmLog)), (∀ n ∈ l, n < 2 ^ 64) →
      l.foldlM (fun result height => do
        let logs ← r.evmLogsByHeight height
        return result ++ logs.map fun log => (height, log)) result =
      Outcome.ok (result ++ l.flatMap fun n => (s.evmLogs[n]?.getD []).map fun log => (n, log)) := by
    intro l
    induction l with
    | nil => exact fun result _ => by rw [List.flatMap_nil, List.append_nil]; rfl
    | cons n l ih =>
      intro result hl
      obtain ⟨hn, hrest⟩ := List.forall_mem_cons.mp hl
      rw [List.foldlM_cons, h.evmLogsByHeight hn, Outcome.ok_bind, Outcome.pure_eq, Outcome.ok_bind,
        ih _ hrest, List.flatMap_cons, List.append_assoc]
  rw [RocksStore.evmLogsRange, hfold _ [] fun n hn => ?_, List.nil_append, flatMap_range_logs]
  · rfl
  · have := List.mem_range'_1.mp hn
    omega

omit [Hashing] in
lemma Shows.get {α : Type} [Stored α] (h : r.Shows s) (k : RocksKey) (a : Option α) (hk : k.Fits)
    (houtside : k.Outside) (hview : s.view k = a.map encode) : r.getValue α k.bytes = .ok a := by
  refine getValue_of_read ?_
  rw [h.view k hk houtside, hview]

omit [Hashing] in
/-- **Every read of the database** outside the log answers what the collections of a RocksDB store
answer. -/
theorem Shows.answer (h : r.Shows s) (hbackend : s.store.backend = .rocks) {q : StoreQuery}
    (hfits : q.Fits) : r.answer q = s.answer q := by
  cases q with
  | genesis => exact h.get (.metadata .genesis) s.genesis trivial ⟨nofun, nofun⟩ rfl
  | account a => exact h.get (.acct a) s.store.accounts[a]? trivial ⟨nofun, nofun⟩ rfl
  | accounts => exact h.accounts
  | evmAccount a => exact h.get (.evmAcct a) s.store.evmAccounts[a]? trivial ⟨nofun, nofun⟩ rfl
  | evmAccounts => exact h.evmAccounts
  | blockByHeight n =>
    rw [StoreQuery.Fits] at hfits
    exact h.get (.blockH n) s.store.blocksByHeight[n]? (RocksKey.fits_blockH hfits)
      (outside_blockH n) rfl
  | blockByHash hash =>
    exact h.get (.blockB hash) s.store.blocksByHash[hash]? trivial ⟨nofun, nofun⟩ rfl
  | latestBlock =>
    rw [ChainStore.answer, Store.latestBlock, hbackend]
    exact h.get (.metadata .latest) s.store.metaLatest trivial ⟨nofun, nofun⟩ rfl
  | receipt x => exact h.get (.rcpt x) s.store.receipts[x]? trivial ⟨nofun, nofun⟩ rfl
  | consensusSnapshot =>
    exact h.get (.metadata .consensus) s.store.snapshot trivial ⟨nofun, nofun⟩ rfl
  | stakingState => exact h.get (.metadata .staking) s.store.stakingState trivial ⟨nofun, nofun⟩ rfl
  | governanceState =>
    exact h.get (.metadata .governance) s.store.governanceState trivial ⟨nofun, nofun⟩ rfl
  | latestEpochTransition =>
    rw [ChainStore.answer, Store.latestEpochTransition, hbackend]
    exact h.get (.metadata .epochLatest) s.store.epochLatest trivial ⟨nofun, nofun⟩ rfl
  | slashingProtection a =>
    exact h.get (.slashProt a) s.store.slashingProtection[a]? trivial ⟨nofun, nofun⟩ rfl
  | gasPricing => exact h.get (.metadata .gasPricing) s.gasPricing trivial ⟨nofun, nofun⟩ rfl
  | evmLogsByHeight n =>
    rw [StoreQuery.Fits] at hfits
    exact h.evmLogsByHeight hfits
  | evmLogsRange a b =>
    rw [StoreQuery.Fits] at hfits
    rw [ChainStore.answer, if_neg fun hc => by rw [hbackend] at hc; cases hc.1]
    exact h.evmLogsRange hfits

end RocksStore

end ZenoChain
