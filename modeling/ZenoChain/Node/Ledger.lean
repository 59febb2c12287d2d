/-
# The ledger

What a chain of blocks says: the native accounts after each block, and the hash of the last one.  A
block extends a ledger if it is signed, names the hash of the last block, its transactions are valid
and can be paid one after the other, and its header names the roots of what comes out.  The accounts
that an engine stores are those of the ledger that the committed blocks make, whatever else it has
handled, and each committed block extends the ledger before it.
-/
import ZenoChain.Node.BlockIndex

namespace ZenoChain

open Word Handler ExecutionEngine

/-- The native accounts and the hash of the last block. -/
structure Ledger where
  accounts : StateSnapshot
  tip : Hash32

/-- The ledger of a store. -/
def Store.ledger [Hashing] (store : Store) : Ledger := ⟨store.accounts, store.latestHash⟩

namespace Ledger

variable [Hashing] (e : ExecutionEngine) (scheme : SignatureScheme)

/-- The ledger after a block: its transactions are replayed and its fees paid out. -/
def after (l : Ledger) (block : Block) : Ledger where
  accounts := e.payFees (replayNative block.transactions l.accounts) block.header.proposer
    (collectedFees block.transactions 0)
  tip := block.hash

/-- The ledger after the blocks of a list. -/
def afterAll (l : Ledger) (blocks : List Block) : Ledger := blocks.foldl (after e) l

/-- A block extends a ledger. -/
structure Extends (l : Ledger) (block : Block) : Prop where
  verified : verifyBlock scheme block = .ok ()
  parent : block.header.parentHash = l.tip
  admits : Admits e scheme block.header.height block.transactions l.accounts
  txRoot : block.header.txRoot = transactionRoot block.transactions
  stateRoot : block.header.stateRoot = (l.after e block).accounts.stateRoot

/-- Every block of a list extends the ledger of those before it. -/
def Carries : Ledger → List Block → Prop
  | _, [] => True
  | l, block :: blocks => l.Extends e scheme block ∧ Carries (l.after e block) blocks

variable {e scheme} {l : Ledger} {blocks : List Block} {block : Block}

@[simp] lemma afterAll_concat :
    l.afterAll e (blocks ++ [block]) = (l.afterAll e blocks).after e block := by
  rw [afterAll, List.foldl_append]
  rfl

lemma carries_append {rest : List Block} : l.Carries e scheme (blocks ++ rest) ↔
    l.Carries e scheme blocks ∧ (l.afterAll e blocks).Carries e scheme rest := by
  induction blocks generalizing l with
  | nil => exact ⟨fun h => ⟨trivial, h⟩, fun h => h.2⟩
  | cons first blocks ih =>
    rw [List.cons_append, Carries, Carries, ih, and_assoc]
    rfl

lemma carries_concat : l.Carries e scheme (blocks ++ [block]) ↔
    l.Carries e scheme blocks ∧ (l.afterAll e blocks).Extends e scheme block := by
  rw [carries_append, Carries, Carries, and_true]

end Ledger

/-! ## What an engine stores -/

section

variable [Hashing]

/-- The effect writes no account. -/
def Effect.sparesAccounts : Effect → Bool
  | .write (.putAccount ..) | .write (.atomicCommitBlock ..) => false
  | _ => true

omit [Hashing] in
lemma Effect.sparesAccounts_of_isQuiet {x : Effect} (h : x.isQuiet) : x.sparesAccounts := by
  unfold sparesAccounts
  split
  · cases h
  · cases h
  · rfl

lemma accounts_recordAll_sparing {es : List Effect} (h : ∀ x ∈ es, Effect.sparesAccounts x)
    (d : Disk) : (d.recordAll es).store.accounts = d.store.accounts := by
  induction es generalizing d with
  | nil => rfl
  | cons x es ih =>
    obtain ⟨hx, hrest⟩ := List.forall_mem_cons.mp h
    rw [Disk.recordAll_cons, ih hrest]
    rcases x with w | _ | _ | _ | _
    · cases w with
      | putAccount | atomicCommitBlock => cases hx
      | compactConsensusWal n =>
        obtain ⟨wal, heq⟩ := d.store.compactConsensusWal_eq n
        rw [Disk.store_record_write, Store.apply, heq]
      | _ => rfl
    all_goals rfl

variable [Revm]

/-- A prepared block extends the ledger of the store, and its accounts are those of the ledger after
it. -/
lemma Ledger.extends_of_prepares {e : ExecutionEngine} {scheme : SignatureScheme} {block : Block}
    {d d' : Disk} {p : PreparedBlock} (h : Prepares e scheme block d p d') :
    d.store.ledger.Extends e scheme block ∧ p.state = (d.store.ledger.after e block).accounts := by
  obtain ⟨state, hloop, haccounting⟩ := h.replay
  obtain ⟨hadmits, results, -, heq⟩ := applyTransactions_ok_iff.mp hloop
  obtain ⟨rfl, hrest⟩ := Prod.mk.inj heq
  have hstate : p.state = (d.store.ledger.after e block).accounts := by
    rw [(applyBlockAccounting_ok _ _ _ _ _).1 _ _ haccounting, (Prod.mk.inj hrest).1]
    rfl
  exact ⟨⟨h.verified, h.parent, hadmits, h.txRoot, hstate ▸ h.stateRoot⟩, hstate⟩

variable {e : ConsensusEngine} {f : FinalizedBlock} {d d' : Disk}

/-- A commit stores the accounts of the ledger after the block. -/
lemma Commits.ledger (h : Commits e f d d') :
    d.store.ledger.Extends e.execution e.scheme f.block ∧
      d'.store.accounts = (d.store.ledger.after e.execution f.block).accounts := by
  obtain ⟨d₁, p, tail, hprepares, horder⟩ := h
  obtain ⟨hextends, hstate⟩ := Ledger.extends_of_prepares hprepares
  refine ⟨hextends, hstate ▸ ?_⟩
  rcases horder with rfl | rfl
  · rw [Disk.recordAll_append]
    show Table.insertAll (d₁.recordAll (accountingWrites p)).store.accounts p.state.toList = p.state
    rw [accounts_accountingWrites, hprepares.insertAll_accounts,
      Table.insertAll_toList_of_subset fun _ ha => ha]
  · rw [Disk.recordAll_cons, accounts_accountingWrites]
    show Table.insertAll (Table.insertAll d₁.store.accounts p.state.toList) _ = p.state
    rw [hprepares.insertAll_accounts, Table.insertAll_toList_of_subset fun _ ha => ha]

omit [Revm] in
lemma Settles.accounts {items : List Evidence} (h : Settles e items d d') :
    d'.store.accounts = d.store.accounts := by
  cases h with
  | none => rfl
  | some => rfl

namespace ConsensusEngine

variable {w₀ w w' : World} {event : Event}

/-- A move keeps the accounts and commits nothing, or it commits a block. -/
lemma Move.ledger (h : e.Move w₀ event w w') :
    (w'.disk.committed = w.disk.committed ∧ w'.disk.store.accounts = w.disk.store.accounts) ∨
    ∃ f, w'.disk.committed = w.disk.committed ++ [f] ∧
      w.disk.store.ledger.Extends e.execution e.scheme f.block ∧
      w'.disk.store.accounts = (w.disk.store.ledger.after e.execution f.block).accounts := by
  have hspares : ∀ {es : List Effect},
      (∀ x ∈ es, Effect.commits x = none ∧ Effect.sparesAccounts x) →
      (w.disk.recordAll es).committed = w.disk.committed ∧
        (w.disk.recordAll es).store.accounts = w.disk.store.accounts := fun hes =>
    ⟨w.disk.committed_recordAll_of_none fun x hx => (hes x hx).1,
      accounts_recordAll_sparing (fun x hx => (hes x hx).2) _⟩
  cases h with
  | quiet hquiet =>
    exact .inl (hspares fun x hx => ⟨Effect.commits_of_isQuiet (hquiet x hx),
      Effect.sparesAccounts_of_isQuiet (hquiet x hx)⟩)
  | note | report | lock => exact .inl (hspares (by simp [Effect.commits, Effect.sparesAccounts]))
  | accuse | count => exact .inl (hspares (List.forall_mem_singleton.mpr ⟨rfl, rfl⟩))
  | cast =>
    exact .inl (hspares (by simp [World.castEffects, Effect.commits, Effect.sparesAccounts]))
  | accept | nextRound => exact .inl ⟨rfl, rfl⟩
  | finalize _ _ _ hcommits hsettles =>
    obtain ⟨hextends, haccounts⟩ := hcommits.ledger
    exact .inr ⟨_, hsettles.committed.trans hcommits.committed, hextends,
      hsettles.accounts.trans haccounts⟩
  | stall _ _ _ hcommits | adopt _ _ _ hcommits =>
    obtain ⟨hextends, haccounts⟩ := hcommits.ledger
    exact .inr ⟨_, hcommits.committed, hextends, haccounts⟩

/-! ## Runs with restarts -/

/-- A process handles an event, or it stops before the event arrives and starts again. -/
inductive Resumes (e : ConsensusEngine) : World → World → Prop
  | handle {w : World} {event : Event} (roomy : Roomy w event) : Resumes e w (e.handle w event)
  | restart {w : World} {event : Event} (roomy : Roomy w event) : Resumes e w (World.boot w.disk)

variable {genesis : Ledger}

/-- The committed blocks extend the ledger of the beginning one after the other, and the stored
accounts are those of the ledger after them. -/
structure KeepsLedger (e : ConsensusEngine) (genesis : Ledger) (d : Disk) : Prop where
  carries : genesis.Carries e.execution e.scheme (d.committed.map (·.block))
  accounts : d.store.accounts =
    (genesis.afterAll e.execution (d.committed.map (·.block))).accounts

omit [Revm] in
/-- The latest block of the store is the last one of the ledger. -/
lemma KeepsLedger.ledger (h : e.KeepsLedger genesis d) (hgenesis : genesis.tip = 0)
    (hrecent : d.KeepsRecent) :
    d.store.ledger = genesis.afterAll e.execution (d.committed.map (·.block)) := by
  obtain ⟨bound, hend, -⟩ := hrecent
  have htip : d.store.latestHash =
      (genesis.afterAll e.execution (d.committed.map (·.block))).tip := by
    rw [Store.latestHash, hend.latest]
    rcases List.eq_nil_or_concat d.committed with hnone | ⟨front, last, hconcat⟩
    · rw [hnone]
      exact hgenesis.symm
    · rw [hconcat, List.concat_eq_append, List.map_append, List.map_singleton,
        Ledger.afterAll_concat, List.getLast?_concat]
      rfl
  rw [Store.ledger, htip, h.accounts]

/-- One move, from a disk whose latest block is the last one committed. -/
lemma KeepsLedger.move (h : e.KeepsLedger genesis w.disk) (hgenesis : genesis.tip = 0)
    (hrecent : w.disk.KeepsRecent) (hmove : e.Move w₀ event w w') :
    e.KeepsLedger genesis w'.disk := by
  rcases hmove.ledger with ⟨hcommitted, haccounts⟩ | ⟨f, hcommitted, hextends, haccounts⟩
  · refine ⟨?_, ?_⟩
    · rw [hcommitted]
      exact h.carries
    · rw [haccounts, hcommitted]
      exact h.accounts
  · rw [h.ledger hgenesis hrecent] at hextends haccounts
    refine ⟨?_, ?_⟩
    · rw [hcommitted, List.map_append, List.map_singleton, Ledger.carries_concat]
      exact ⟨h.carries, hextends⟩
    · rw [hcommitted, List.map_append, List.map_singleton, Ledger.afterAll_concat]
      exact haccounts

/-- An event. -/
lemma KeepsLedger.handle (h : e.KeepsLedger genesis w.disk) (hgenesis : genesis.tip = 0)
    (hhistoric : e.Historic d w) (hblank : BlankIndex d) (hnumbered : d.Numbered)
    (hroom : Roomy w event) : e.KeepsLedger genesis (e.handle w event).disk := by
  refine invariant_of_moves_within (fun w' => e.KeepsLedger genesis w'.disk) h
    fun w₁ w₂ es hes hdisk hw hmove => hw.move hgenesis ?_ hmove
  -- The disk in between is the one that a crash would leave.
  have hcrash : w₁.disk = (World.boot (e.crashDisk w event es.length)).disk := by
    rw [World.boot, crashDisk, ← List.prefix_iff_eq_take.mp hes, hdisk]
  rw [hcrash]
  exact (hhistoric.crash hnumbered hroom _).keepsRecent hblank

lemma Historic.resumes {d : Disk} (h : e.Historic d w) (hnumbered : d.Numbered)
    (hstep : e.Resumes w w') : e.Historic d w' := by
  cases hstep with
  | handle hroom => exact h.handle hroom
  | restart hroom => exact h.crash hnumbered hroom 0

/-- A run with restarts. -/
lemma keepsLedger_of_run {d : Disk} (hblank : BlankIndex d) (hnumbered : d.Numbered)
    (hrun : Relation.ReflTransGen e.Resumes (World.boot d) w) :
    e.Historic d w ∧ e.KeepsLedger ⟨d.store.accounts, 0⟩ w.disk := by
  induction hrun with
  | refl =>
    have hnone : (World.boot d).disk.committed = [] := by
      rw [Disk.committed, show (World.boot d).disk.journal = [] from hblank.journal]
      rfl
    refine ⟨historic_boot hblank.journal, ?_, ?_⟩
    · rw [hnone]
      trivial
    · rw [hnone]
      rfl
  | tail _ hstep ih =>
    refine ⟨ih.1.resumes hnumbered hstep, ?_⟩
    cases hstep with
    | handle hroom => exact ih.2.handle rfl ih.1 hblank hnumbered hroom
    | restart => exact ih.2

/-- **The ledger.**  In every run of a process on a blank disk, with any restarts between the events,
each committed block extends the ledger of the blocks before it, and the store has the accounts and
the last block of the ledger that all committed blocks make from the first accounts. -/
theorem accounts_follow_chain {d : Disk} (hblank : BlankIndex d) (hnumbered : d.Numbered)
    (hrun : Relation.ReflTransGen e.Resumes (World.boot d) w) :
    (⟨d.store.accounts, 0⟩ : Ledger).Carries e.execution e.scheme
        (w.disk.committed.map (·.block)) ∧
    w.disk.store.ledger = (⟨d.store.accounts, 0⟩ : Ledger).afterAll e.execution
        (w.disk.committed.map (·.block)) := by
  obtain ⟨hhistoric, hkeeps⟩ := keepsLedger_of_run hblank hnumbered hrun
  exact ⟨hkeeps.carries, hkeeps.ledger rfl (hhistoric.keepsRecent hblank)⟩

end ConsensusEngine

end

/-! ## The first block -/

section

open Transparent ConsensusEngine

/-- A validator has committed the first block. -/
def afterQuorum : World :=
  (beforeQuorum ++ [quorumVote]).foldl (engineOf [1]).handle (World.boot blank)

lemma afterQuorum_run :
    Relation.ReflTransGen (engineOf [1]).Resumes (World.boot blank) afterQuorum := by
  have hmeets : (engineOf [1]).Meets Roomy (World.boot blank) (beforeQuorum ++ [quorumVote]) := by
    decide +kernel
  refine Relation.ReflTransGen.mono ?_ _ _ (run_of_meets _ hmeets)
  rintro w₁ _ ⟨event, hevent, rfl⟩
  exact .handle hevent

/-- The general fact for that validator after a restart. -/
theorem first_accounts_follow_chain :
    (⟨blank.store.accounts, 0⟩ : Ledger).Carries (engineOf [1]).execution scheme
        (afterQuorum.disk.committed.map (·.block)) ∧
    (World.boot afterQuorum.disk).disk.store.ledger =
      (⟨blank.store.accounts, 0⟩ : Ledger).afterAll (engineOf [1]).execution
        (afterQuorum.disk.committed.map (·.block)) := by
  have hroom : Roomy afterQuorum quorumVote := by decide +kernel
  exact accounts_follow_chain (w := World.boot afterQuorum.disk) ⟨rfl, rfl, rfl, rfl⟩ numbered_blank
    (afterQuorum_run.tail (.restart hroom))

end

end ZenoChain
