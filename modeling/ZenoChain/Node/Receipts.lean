/-
# The status of a transaction

The receipts of a block stand in the store under the hashes of its transactions.  A chain executes
no transaction twice, as the nonces of a sender go up; so the status of a transaction is settled by
the one block that it is in, and a transaction that is finalized stays so, with the same receipt.
-/
import ZenoChain.Execution.Nonces
import ZenoChain.Execution.Payloads
import ZenoChain.Node.CatchUp

namespace ZenoChain

open Word Handler ExecutionEngine

/-- RPC response status for a transaction. -/
inductive TransactionStatus
  | unknown
  | pending
  | finalized (receipt : Receipt)
deriving DecidableEq

/-- What `get_tx_status` answers. -/
def getTxStatus (store : Store) (mempool : Mempool) (hash : Hash32) : TransactionStatus :=
  match store.receipts[hash]? with
  | some receipt => .finalized receipt
  | none => if mempool.byHash[hash]?.isSome then .pending else .unknown

lemma getTxStatus_eq_finalized_iff {store : Store} {mempool : Mempool} {hash : Hash32}
    {receipt : Receipt} :
    getTxStatus store mempool hash = .finalized receipt ↔ store.receipts[hash]? = some receipt := by
  rw [getTxStatus]
  split
  · rename_i heq
    rw [heq, TransactionStatus.finalized.injEq, Option.some.injEq]
  · rename_i heq
    rw [heq]
    split
    · exact iff_of_false (fun h => by cases h) fun h => by cases h
    · exact iff_of_false (fun h => by cases h) fun h => by cases h

/-! ## The receipts of a chain -/

/-- The transactions of a chain. -/
def chainTransactions (chain : List FinalizedBlock) : List Transaction :=
  (chain.map (·.block)).flatMap Block.transactions

/-- The transactions of a chain, each with its receipt. -/
def chainReceipts (chain : List FinalizedBlock) : List (Transaction × Receipt) :=
  chain.flatMap fun f => f.block.transactions.zip f.receipts

/-- Different transactions of a chain have different hashes. -/
def DistinctIds [Hashing] (chain : List FinalizedBlock) : Prop :=
  ∀ tx ∈ chainTransactions chain, ∀ tx' ∈ chainTransactions chain, tx.id = tx'.id → tx = tx'

instance [Hashing] (chain : List FinalizedBlock) : Decidable (DistinctIds chain) :=
  inferInstanceAs (Decidable (∀ tx ∈ chainTransactions chain, ∀ tx' ∈ chainTransactions chain,
    tx.id = tx'.id → tx = tx'))

section

variable [Hashing]

/-- A block has one receipt for each transaction, with its hash, its fee and the height. -/
structure Itemized (f : FinalizedBlock) : Prop where
  length : f.receipts.length = f.block.transactions.length
  items : ∀ x ∈ f.block.transactions.zip f.receipts, x.2.txHash = x.1.id ∧
    x.2.height = f.block.header.height ∧ x.2.feeCharged = x.1.body.fee

lemma chainReceipts_fst {chain : List FinalizedBlock} (h : ∀ f ∈ chain, Itemized f) :
    (chainReceipts chain).map Prod.fst = chainTransactions chain := by
  induction chain with
  | nil => rfl
  | cons f chain ih =>
    obtain ⟨hf, hrest⟩ := List.forall_mem_cons.mp h
    have hcons : chainReceipts (f :: chain) =
        f.block.transactions.zip f.receipts ++ chainReceipts chain := List.flatMap_cons
    rw [hcons, List.map_append, List.map_fst_zip hf.length.ge, ih hrest, chainTransactions,
      chainTransactions, List.map_cons, List.flatMap_cons]

/-- The receipts that a chain files. -/
lemma flatMap_receipts {chain : List FinalizedBlock} (h : ∀ f ∈ chain, Itemized f) :
    (chain.flatMap fun f => f.receipts.map fun r => (r.txHash, r)) =
      (chainReceipts chain).map fun x => (x.1.id, x.2) := by
  induction chain with
  | nil => rfl
  | cons f chain ih =>
    obtain ⟨hf, hrest⟩ := List.forall_mem_cons.mp h
    have hcons : chainReceipts (f :: chain) =
        f.block.transactions.zip f.receipts ++ chainReceipts chain := List.flatMap_cons
    rw [List.flatMap_cons, ih hrest, hcons, List.map_append]
    congr 1
    have hfile : (f.block.transactions.zip f.receipts).map (fun x => (x.1.id, x.2)) =
        (f.block.transactions.zip f.receipts).map fun x => (x.2.txHash, x.2) :=
      List.map_congr_left fun x hx => by rw [(hf.items x hx).1]
    have hzip : (f.block.transactions.zip f.receipts).map Prod.snd = f.receipts :=
      List.map_snd_zip hf.length.le
    rw [hfile]
    nth_rewrite 1 [← hzip]
    rw [List.map_map]
    rfl

/-- A commit files its receipts, and nothing else touches the receipts. -/
lemma receipts_recordAll (d : Disk) (es : List Effect) :
    (d.recordAll es).store.receipts = Table.insertAll d.store.receipts
      ((es.filterMap Effect.commits).flatMap fun f => f.receipts.map fun r => (r.txHash, r)) := by
  induction es generalizing d with
  | nil => rfl
  | cons x es ih =>
    rw [Disk.recordAll_cons, ih]
    rcases x with w | _ | _ | _ | _
    · cases w with
      | atomicCommitBlock f accounts =>
        have hhead : (Effect.write (.atomicCommitBlock f accounts)).commits = some f := rfl
        have hstored : (d.record (.write (.atomicCommitBlock f accounts))).store.receipts =
            Table.insertAll d.store.receipts (f.receipts.map fun r => (r.txHash, r)) := by
          rw [Table.insertAll, List.foldl_map]
          rfl
        rw [List.filterMap_cons_some hhead, List.flatMap_cons, hstored, Table.insertAll,
          Table.insertAll, ← List.foldl_append]
        rfl
      | compactConsensusWal n =>
        obtain ⟨wal, heq⟩ := d.store.compactConsensusWal_eq n
        rw [Disk.store_record_write, Store.apply, heq]
        rfl
      | _ => rfl
    all_goals rfl

/-- **What is filed under a hash**: the receipt of the transaction with that hash. -/
lemma getElem?_receipts_iff {d d' : Disk} {journal : List Effect} (hblank : BlankIndex d)
    (hnone : d.store.receipts = ∅) (hdisk : d' = d.recordAll journal)
    (hitemized : ∀ f ∈ d'.committed, Itemized f)
    (hnodup : (chainTransactions d'.committed).Nodup) (hids : DistinctIds d'.committed)
    {hash : Hash32} {r : Receipt} : d'.store.receipts[hash]? = some r ↔
      ∃ tx, (tx, r) ∈ chainReceipts d'.committed ∧ tx.id = hash := by
  have hcommitted : d'.committed = journal.filterMap Effect.commits := by
    rw [hdisk, Disk.committed_recordAll, Disk.committed, hblank.journal]
    rfl
  have hmem : ∀ tx r', (tx, r') ∈ chainReceipts d'.committed →
      tx ∈ chainTransactions d'.committed := by
    intro tx r' hx
    rw [← chainReceipts_fst hitemized]
    exact List.mem_map_of_mem (f := Prod.fst) hx
  have hfiled : d'.store.receipts =
      Table.insertAll ∅ ((chainReceipts d'.committed).map fun x => (x.1.id, x.2)) := by
    rw [← flatMap_receipts hitemized, hcommitted, hdisk, receipts_recordAll, hnone]
  rw [hfiled, Table.getElem?_insertAll_empty_iff]
  · simp only [List.mem_map, Prod.mk.injEq, Prod.exists]
    constructor
    · rintro ⟨tx, r', hx, hid, rfl⟩
      exact ⟨tx, hx, hid⟩
    · rintro ⟨tx, hx, hid⟩
      exact ⟨tx, r, hx, hid, rfl⟩
  · -- Two receipts under one hash belong to one transaction, which is there once.
    intro r' h h'
    simp only [List.mem_map, Prod.mk.injEq, Prod.exists] at h h'
    obtain ⟨tx, _, hx, hid, rfl⟩ := h
    obtain ⟨tx', _, hx', hid', rfl⟩ := h'
    obtain rfl := hids tx (hmem _ _ hx) tx' (hmem _ _ hx') (hid.trans hid'.symm)
    rw [← chainReceipts_fst hitemized] at hnodup
    exact (Prod.mk.inj (List.inj_on_of_nodup_map hnodup hx hx' rfl)).2

variable [Revm]

/-- What a replay gives is itemized. -/
lemma ConsensusEngine.Bundles.itemized {e : ConsensusEngine} {f : FinalizedBlock}
    (h : e.Bundles f) : Itemized f := by
  obtain ⟨d, p, d', hprepares, hreceipts, -⟩ := h
  obtain ⟨state, hloop, -⟩ := hprepares.replay
  obtain ⟨-, results, hpayloads, heq⟩ := applyTransactions_ok_iff.mp hloop
  have hitems : f.receipts =
      receiptsOf f.block.header.height f.block.transactions results := by
    rw [hreceipts]
    exact (Prod.mk.inj (Prod.mk.inj heq).2).2
  have hlength : results.length = f.block.transactions.length := hpayloads.length
  refine ⟨?_, ?_⟩
  · rw [hitems, receiptsOf, List.length_zipWith, hlength, min_self]
  · intro x hx
    rw [hitems, receiptsOf] at hx
    obtain ⟨n, hn, rfl⟩ := List.mem_iff_getElem.mp hx
    rw [List.getElem_zip, List.getElem_zipWith]
    exact ⟨rfl, rfl, rfl⟩

omit [Revm] in
/-- A ledger executes no transaction twice. -/
lemma Ledger.Carries.countsSent {e : ExecutionEngine} {scheme : SignatureScheme} {l : Ledger}
    {blocks : List Block} (h : l.Carries e scheme blocks) :
    CountsSent l.accounts (blocks.flatMap Block.transactions) (l.afterAll e blocks).accounts := by
  induction blocks generalizing l with
  | nil => exact fun a => ⟨rfl, rfl⟩
  | cons block blocks ih =>
    obtain ⟨hextends, hrest⟩ := h
    have hone : CountsSent l.accounts block.transactions (l.after e block).accounts := by
      intro a
      rw [Ledger.after, nonce_payFees]
      exact countsSent_replayNative hextends.admits a
    rw [List.flatMap_cons]
    exact hone.trans (ih hrest)

omit [Revm] in
lemma Ledger.Carries.nodup {e : ExecutionEngine} {scheme : SignatureScheme} {l : Ledger}
    {blocks : List Block} (h : l.Carries e scheme blocks) :
    (blocks.flatMap Block.transactions).Nodup := by
  have hkeys := nodup_keys fun a => by
    rw [(h.countsSent a).2]
    exact List.nodup_range'
  exact hkeys.of_map

namespace ConsensusEngine

variable {e : ConsensusEngine} {d : Disk} {w w' : World}

/-- The committed blocks of a run are itemized, and no transaction is in them twice. -/
lemma itemized_of_run (hblank : BlankIndex d) (hnumbered : d.Numbered)
    (hrun : Relation.ReflTransGen e.Resumes (World.boot d) w) :
    (∀ f ∈ w.disk.committed, Itemized f) ∧ (chainTransactions w.disk.committed).Nodup := by
  refine ⟨fun f hf => ?_, ?_⟩
  · obtain ⟨hbundles, -⟩ := committed_of_run hblank hrun f hf
    exact hbundles.itemized
  · obtain ⟨-, hkeeps⟩ := keepsLedger_of_run hblank hnumbered hrun
    exact hkeeps.carries.nodup

/-- The receipts of a run are those of its committed blocks. -/
lemma receipts_of_run (hblank : BlankIndex d) (hnone : d.store.receipts = ∅)
    (hnumbered : d.Numbered) (hrun : Relation.ReflTransGen e.Resumes (World.boot d) w)
    (hids : DistinctIds w.disk.committed) {mempool : Mempool} {hash : Hash32} {r : Receipt} :
    getTxStatus w.disk.store mempool hash = .finalized r ↔
      ∃ tx, (tx, r) ∈ chainReceipts w.disk.committed ∧ tx.id = hash := by
  obtain ⟨hitemized, hnodup⟩ := itemized_of_run hblank hnumbered hrun
  obtain ⟨hhistoric, -⟩ := keepsLedger_of_run hblank hnumbered hrun
  rw [getTxStatus_eq_finalized_iff]
  exact getElem?_receipts_iff hblank hnone hhistoric.disk hitemized hnodup hids

/-- A run only adds blocks. -/
lemma committed_of_resumes (hrun : Relation.ReflTransGen e.Resumes w w') :
    w.disk.committed <+: w'.disk.committed := by
  induction hrun with
  | refl => exact List.prefix_rfl
  | tail _ hstep ih =>
    refine ih.trans ?_
    cases hstep with
    | @handle w₁ event =>
      rw [disk_handle, Disk.committed_recordAll]
      exact List.prefix_append ..
    | restart => exact List.prefix_rfl

/-- **Finality.**  At any point of a run a transaction is finalized exactly if a committed block has
it, with the receipt that the block has for it, as it has one for each of its transactions; and then
it stays finalized with this receipt, at every later point of the run and whatever the mempool
holds. -/
theorem finalized_transactions_stay (hblank : BlankIndex d) (hnone : d.store.receipts = ∅)
    (hnumbered : d.Numbered) (hrun : Relation.ReflTransGen e.Resumes (World.boot d) w)
    (hlater : Relation.ReflTransGen e.Resumes w w') (hids : DistinctIds w'.disk.committed) :
    (chainTransactions w.disk.committed).Nodup ∧
    (∀ f ∈ w.disk.committed, f.receipts.length = f.block.transactions.length) ∧
    (∀ (mempool : Mempool) (hash : Hash32),
      (∃ r, getTxStatus w.disk.store mempool hash = .finalized r) ↔
        ∃ tx ∈ chainTransactions w.disk.committed, tx.id = hash) ∧
    ∀ (mempool : Mempool) (hash : Hash32) (r : Receipt),
      (getTxStatus w.disk.store mempool hash = .finalized r ↔
        ∃ f ∈ w.disk.committed, ∃ tx, (tx, r) ∈ f.block.transactions.zip f.receipts ∧
          tx.id = hash ∧ r.txHash = hash ∧ r.height = f.block.header.height ∧
          r.feeCharged = tx.body.fee) ∧
      (getTxStatus w.disk.store mempool hash = .finalized r →
        ∀ mempool', getTxStatus w'.disk.store mempool' hash = .finalized r) := by
  obtain ⟨hitemized, hnodup⟩ := itemized_of_run hblank hnumbered hrun
  obtain ⟨blocks, hgrows⟩ := committed_of_resumes hlater
  have htransactions : chainTransactions w.disk.committed ⊆ chainTransactions w'.disk.committed := by
    rw [← hgrows, chainTransactions, chainTransactions, List.map_append, List.flatMap_append]
    exact List.subset_append_left ..
  have hreceipts : chainReceipts w.disk.committed ⊆ chainReceipts w'.disk.committed := by
    rw [← hgrows, chainReceipts, chainReceipts, List.flatMap_append]
    exact List.subset_append_left ..
  have hids₁ : DistinctIds w.disk.committed := fun tx htx tx' htx' =>
    hids tx (htransactions htx) tx' (htransactions htx')
  refine ⟨hnodup, fun f hf => (hitemized f hf).length, fun mempool hash => ?_,
    fun mempool hash r => ⟨?_, fun hfinal mempool' => ?_⟩⟩
  · simp only [receipts_of_run hblank hnone hnumbered hrun hids₁]
    rw [← chainReceipts_fst hitemized]
    constructor
    · rintro ⟨r, tx, htx, hid⟩
      exact ⟨tx, List.mem_map_of_mem (f := Prod.fst) htx, hid⟩
    · rintro ⟨tx, htx, hid⟩
      obtain ⟨⟨_, r⟩, hx, rfl⟩ := List.mem_map.mp htx
      exact ⟨r, _, hx, hid⟩
  · rw [receipts_of_run hblank hnone hnumbered hrun hids₁]
    constructor
    · rintro ⟨tx, htx, rfl⟩
      obtain ⟨f, hf, hx⟩ := List.mem_flatMap.mp htx
      obtain ⟨hhash, hheight, hfee⟩ := (hitemized f hf).items _ hx
      exact ⟨f, hf, tx, hx, rfl, hhash, hheight, hfee⟩
    · rintro ⟨f, hf, tx, hx, hid, -⟩
      exact ⟨tx, List.mem_flatMap.mpr ⟨f, hf, hx⟩, hid⟩
  · rw [receipts_of_run hblank hnone hnumbered hrun hids₁] at hfinal
    obtain ⟨tx, htx, hid⟩ := hfinal
    exact (receipts_of_run hblank hnone hnumbered (hrun.trans hlater) hids).mpr
      ⟨tx, hreceipts htx, hid⟩

end ConsensusEngine

end

/-! ## The first payment -/

section

open Transparent ConsensusEngine

def firstPayment : Transaction := payment [1] (address [2]) 5 0 10 none

/-- The events in which a validator commits a block with one payment. -/
def paymentEvents : List Event :=
  let block := propose (engineOf [1]).execution funded [2] 1 0 0 [firstPayment]
  let precommit (key : Bytes) := Event.vote (Transparent.castVote key 1 0 .precommit block.hash)
  [.proposal ⟨1, 0, block, address [2]⟩, precommit [2], precommit [3], precommit [4]]

def afterPayment : World := paymentEvents.foldl (engineOf [1]).handle (World.boot funded)

lemma paymentEvents_facts :
    (engineOf [1]).Meets Roomy (World.boot funded) paymentEvents ∧
    Roomy afterPayment (.timeout [] 0) ∧ DistinctIds afterPayment.disk.committed ∧
    (afterPayment.disk.store.receipts[firstPayment.id]?).map Receipt.feeCharged = some 10 := by
  decide +kernel

/-- The general fact for the payment: it is final when the process starts again. -/
theorem first_payment_stays :
    ∃ r, r.feeCharged = 10 ∧
      getTxStatus afterPayment.disk.store {} firstPayment.id = .finalized r ∧
      ∀ mempool, getTxStatus (World.boot afterPayment.disk).disk.store mempool firstPayment.id =
        .finalized r := by
  obtain ⟨hmeets, hroom, hids, hread⟩ := paymentEvents_facts
  have hfunded : funded.Numbered := fun k hk => by
    rw [show funded.store.consensusWal[k]? = none from Std.ExtTreeMap.getElem?_empty] at hk
    cases hk
  have hrun : Relation.ReflTransGen (engineOf [1]).Resumes (World.boot funded) afterPayment := by
    refine Relation.ReflTransGen.mono ?_ _ _ (run_of_meets _ hmeets)
    rintro w₁ _ ⟨event, hevent, rfl⟩
    exact .handle hevent
  obtain ⟨-, -, -, hstatus⟩ := finalized_transactions_stay ⟨rfl, rfl, rfl, rfl⟩ rfl hfunded hrun
    (.single (.restart (w := afterPayment) hroom)) hids
  obtain ⟨r, hr, hfee⟩ := Option.map_eq_some_iff.mp hread
  have hfinal : getTxStatus afterPayment.disk.store {} firstPayment.id = .finalized r :=
    getTxStatus_eq_finalized_iff.mpr hr
  exact ⟨r, hfee, hfinal, (hstatus {} firstPayment.id r).2 hfinal⟩

end

end ZenoChain
