/-
# What a replay does

Inversion and frame lemmas for the execution engine: what a successful transaction, a
successful loop and a prepared block are made of, and which effects they have on the store.
-/
import ZenoChain.Execution.Engine
import ZenoChain.State.Records

namespace ZenoChain

open Word

namespace ExecutionEngine

/-! ## Debits and credits -/

lemma debitSender_ok_iff {state state' : StateSnapshot} {body : TransactionBody} :
    debitSender state body = .ok state' ↔
      body.amount + body.fee < 2 ^ 128 ∧
      body.amount + body.fee ≤ (state.account body.sender).balance ∧
      (state.account body.sender).nonce + 1 < 2 ^ 64 ∧
      state' = state.putAccount body.sender
        { nonce := (state.account body.sender).nonce + 1
          balance := (state.account body.sender).balance - (body.amount + body.fee) } := by
  rw [debitSender]
  by_cases h₁ : body.amount + body.fee < 2 ^ 128
  · rw [checkedAdd_of_lt h₁]
    dsimp only
    by_cases h₂ : body.amount + body.fee ≤ (state.account body.sender).balance
    · rw [checkedSub_of_le h₂]
      dsimp only
      by_cases h₃ : (state.account body.sender).nonce + 1 < 2 ^ 64
      · rw [checkedAdd_of_lt h₃]
        constructor
        · rintro ⟨⟩
          exact ⟨h₁, h₂, h₃, rfl⟩
        · rintro ⟨-, -, -, rfl⟩
          rfl
      · rw [checkedAdd_of_not_lt h₃]
        exact iff_of_false (by intro h; cases h) fun h => h₃ h.2.2.1
    · rw [checkedSub, if_neg h₂]
      exact iff_of_false (by intro h; cases h) fun h => h₂ h.2.1
  · rw [checkedAdd_of_not_lt h₁]
    exact iff_of_false (by intro h; cases h) fun h => h₁ h.1

/-- A valid transaction names the nonce of its sender. -/
lemma nonce_of_validateTransaction {e : ExecutionEngine} {scheme : SignatureScheme}
    {state : StateSnapshot} {height : ℕ} {tx : Transaction}
    (h : e.validateTransaction scheme state height tx = .ok ()) :
    (state.account tx.body.sender).nonce = tx.body.nonce := by
  rw [validateTransaction] at h
  rcases hv : verifyTransaction scheme e.chainId tx height with err | bytes
  · rw [hv] at h
    cases h
  · rw [hv] at h
    by_contra hne
    simp only [bind, Except.bind] at h
    rw [if_pos hne] at h
    cases h

/-- The native state after a transaction whose sender was debited. -/
def afterDebit (state : StateSnapshot) (tx : Transaction) : StateSnapshot :=
  if tx.body.evm.isNone then creditRecipient state tx.body else state

/-- The native state after the transactions of a list, up to the first that fails. -/
def replayNative : List Transaction → StateSnapshot → StateSnapshot
  | [], state => state
  | tx :: txs, state =>
    match debitSender state tx.body with
    | .error _ => state
    | .ok debited => replayNative txs (afterDebit debited tx)

section

variable [Hashing]

lemma checkRoots_ok_iff {block : Block} {state : StateSnapshot} {receipts : List Receipt} :
    checkRoots block state receipts = .ok () ↔
      block.header.txRoot = transactionRoot block.transactions ∧
      block.header.receiptRoot = receiptRoot receipts ∧
      block.header.stateRoot = state.stateRoot := by
  rw [checkRoots]
  split_ifs <;> simp_all

variable [Revm] {e : ExecutionEngine} {scheme : SignatureScheme}

/-! ## One transaction -/

/-- The executor accepts the payload of a transaction, with its result and the disk after
it; nothing happens for a native transaction. -/
def Executes (e : ExecutionEngine) (tx : Transaction) (d : Disk) (result : Option EvmCallResult)
    (d' : Disk) : Prop :=
  match tx.body.evm with
  | none => result = none ∧ d' = d
  | some evmTx => ∃ evmChainId r, e.evmChainId = some evmChainId ∧ result = some r ∧
      executeEvm evmChainId (last20 tx.body.sender) evmTx d = .ok r d'

lemma applyTransaction_ok_iff {state state' : StateSnapshot} {height : ℕ} {tx : Transaction}
    {receipt : Receipt} {d d' : Disk} :
    e.applyTransaction scheme state height tx d = .ok (state', receipt) d' ↔
      e.validateTransaction scheme state height tx = .ok () ∧
      ∃ debited result, debitSender state tx.body = .ok debited ∧ Executes e tx d result d' ∧
        state' = afterDebit debited tx ∧ receipt = receiptOf tx height result := by
  rw [applyTransaction]
  rcases hv : e.validateTransaction scheme state height tx with err | ⟨⟩
  · simp
  · rcases hd : debitSender state tx.body with message | debited
    · simp
    · rcases hevm : tx.body.evm with _ | evmTx
      · simp only [afterDebit, Executes, hevm]
        constructor
        · rintro ⟨⟩
          exact ⟨trivial, debited, none, rfl, ⟨rfl, rfl⟩, rfl, rfl⟩
        · rintro ⟨-, debited', result, hdeb, ⟨rfl, rfl⟩, rfl, rfl⟩
          cases hdeb
          rfl
      · rcases hid : e.evmChainId with _ | evmChainId
        · simp [Executes, hevm, hid]
        · simp only [afterDebit, Executes, hevm, hid]
          rw [Handler.bind_eq_ok_iff]
          constructor
          · rintro ⟨result, d₁, hrun, hret⟩
            cases hret
            exact ⟨trivial, _, some result, rfl, ⟨evmChainId, result, rfl, rfl, hrun⟩, rfl, rfl⟩
          · rintro ⟨-, debited', result, hdeb, ⟨id, r, hid', rfl, hrun⟩, rfl, rfl⟩
            cases hdeb
            cases hid'
            exact ⟨r, d', hrun, rfl⟩

lemma keeps_executeEvm (evmChainId : ℕ) (caller : EvmAddress) (tx : EvmTransaction) :
    Handler.Keeps OnlyEvmWrites (executeEvm evmChainId caller tx) := by
  intro d
  rw [executeEvm, Handler.final_zoom]
  exact EvmExecutor.keeps_execute evmChainId caller tx d

lemma keeps_applyTransaction (state : StateSnapshot) (height : ℕ) (tx : Transaction) :
    Handler.Keeps OnlyEvmWrites (e.applyTransaction scheme state height tx) := by
  rw [applyTransaction]
  split
  · exact .throw _
  · split
    · exact .throw _
    · split
      · exact .pure _
      · split
        · exact .throw _
        · exact .bind (keeps_executeEvm _ _ _) fun _ => .pure _

/-! ## The transaction loop -/

lemma applyTransactions_cons_ok_iff {height : ℕ} {tx : Transaction} {txs : List Transaction}
    {state : StateSnapshot} {fees : ℕ} {receipts : List Receipt} {d d' : Disk}
    {out : StateSnapshot × ℕ × List Receipt} :
    e.applyTransactions scheme height (tx :: txs) state fees receipts d = .ok out d' ↔
      ∃ state₁ receipt d₁, e.applyTransaction scheme state height tx d = .ok (state₁, receipt) d₁ ∧
        e.applyTransactions scheme height txs state₁ (wrappingAdd 128 fees tx.body.fee)
          (receipts ++ [receipt]) d₁ = .ok out d' := by
  rw [applyTransactions, Handler.bind_eq_ok_iff]
  constructor
  · rintro ⟨⟨state₁, receipt⟩, d₁, hrun, hrest⟩
    have hfee : receipt.feeCharged = tx.body.fee := by
      obtain ⟨-, -, -, -, -, -, rfl⟩ := applyTransaction_ok_iff.mp hrun
      rfl
    dsimp only at hrest
    rw [hfee] at hrest
    exact ⟨state₁, receipt, d₁, hrun, hrest⟩
  · rintro ⟨state₁, receipt, d₁, hrun, hrest⟩
    have hfee : receipt.feeCharged = tx.body.fee := by
      obtain ⟨-, -, -, -, -, -, rfl⟩ := applyTransaction_ok_iff.mp hrun
      rfl
    refine ⟨(state₁, receipt), d₁, hrun, ?_⟩
    dsimp only
    rw [hfee]
    exact hrest

lemma keeps_applyTransactions (height : ℕ) (txs : List Transaction) (state : StateSnapshot)
    (fees : ℕ) (receipts : List Receipt) :
    Handler.Keeps OnlyEvmWrites (e.applyTransactions scheme height txs state fees receipts) := by
  induction txs generalizing state fees receipts with
  | nil => exact .pure _
  | cons tx txs ih => exact .bind (keeps_applyTransaction _ _ _) fun _ => ih _ _ _

/-- Every transaction of a list is valid and can be debited when its turn comes. -/
def Admits (e : ExecutionEngine) (scheme : SignatureScheme) (height : ℕ) :
    List Transaction → StateSnapshot → Prop
  | [], _ => True
  | tx :: txs, state =>
    e.validateTransaction scheme state height tx = .ok () ∧
    ∃ debited, debitSender state tx.body = .ok debited ∧
      Admits e scheme height txs (afterDebit debited tx)

/-- The executor accepts the payloads of a list in order, with their results. -/
def RunsPayloads (e : ExecutionEngine) :
    List Transaction → Disk → List (Option EvmCallResult) → Disk → Prop
  | [], d, results, d' => results = [] ∧ d' = d
  | tx :: txs, d, results, d' => ∃ result d₁ rest, Executes e tx d result d₁ ∧
      RunsPayloads e txs d₁ rest d' ∧ results = result :: rest

/-- The receipts of a list of transactions with the results of their payloads. -/
def receiptsOf (height : ℕ) (txs : List Transaction) (results : List (Option EvmCallResult)) :
    List Receipt :=
  List.zipWith (fun tx result => receiptOf tx height result) txs results

omit [Hashing] [Revm] in
/-- The fees of a list of transactions, as the loop adds them up. -/
def collectedFees (txs : List Transaction) (fees : ℕ) : ℕ :=
  txs.foldl (fun fees tx => wrappingAdd 128 fees tx.body.fee) fees

/-- **The successful runs of the transaction loop**: validity and debits, which depend on the
native state only, and the payloads, which depend on the disk only. -/
theorem applyTransactions_ok_iff {height : ℕ} {txs : List Transaction} {state : StateSnapshot}
    {fees : ℕ} {receipts : List Receipt} {d d' : Disk} {out : StateSnapshot × ℕ × List Receipt} :
    e.applyTransactions scheme height txs state fees receipts d = .ok out d' ↔
      Admits e scheme height txs state ∧ ∃ results, RunsPayloads e txs d results d' ∧
        out = (replayNative txs state, collectedFees txs fees,
          receipts ++ receiptsOf height txs results) := by
  induction txs generalizing state fees receipts d with
  | nil =>
    constructor
    · rintro ⟨⟩
      exact ⟨trivial, [], ⟨rfl, rfl⟩, by rw [receiptsOf, List.zipWith_nil_left, List.append_nil]; rfl⟩
    · rintro ⟨-, results, ⟨-, rfl⟩, rfl⟩
      rw [receiptsOf, List.zipWith_nil_left, List.append_nil]
      rfl
  | cons tx txs ih =>
    rw [applyTransactions_cons_ok_iff]
    constructor
    · rintro ⟨state₁, receipt, d₁, htx, hrest⟩
      obtain ⟨hvalid, debited, result, hdebit, hexec, rfl, rfl⟩ := applyTransaction_ok_iff.mp htx
      obtain ⟨hadmits, results, hpayloads, rfl⟩ := ih.mp hrest
      refine ⟨⟨hvalid, debited, hdebit, hadmits⟩, result :: results,
        ⟨result, d₁, results, hexec, hpayloads, rfl⟩, ?_⟩
      rw [replayNative, hdebit, List.append_assoc]
      rfl
    · rintro ⟨⟨hvalid, debited, hdebit, hadmits⟩, _, ⟨result, d₁, rest, hexec, hpayloads, rfl⟩, rfl⟩
      refine ⟨_, _, d₁, applyTransaction_ok_iff.mpr
        ⟨hvalid, debited, result, hdebit, hexec, rfl, rfl⟩, ?_⟩
      refine ih.mpr ⟨hadmits, rest, hpayloads, ?_⟩
      rw [replayNative, hdebit, List.append_assoc]
      rfl

lemma onlyEvmWrites_of_executes {tx : Transaction} {d d' : Disk} {result : Option EvmCallResult}
    (h : Executes e tx d result d') : OnlyEvmWrites d d' := by
  rw [Executes] at h
  split at h
  · rw [h.2]
    exact Std.Refl.refl d
  · obtain ⟨evmChainId, r, -, -, hrun⟩ := h
    have hkeeps := keeps_executeEvm evmChainId (last20 tx.body.sender) (by assumption) d
    rwa [hrun] at hkeeps

lemma onlyEvmWrites_of_runsPayloads {txs : List Transaction} {d d' : Disk}
    {results : List (Option EvmCallResult)} (h : RunsPayloads e txs d results d') :
    OnlyEvmWrites d d' := by
  induction txs generalizing d results with
  | nil =>
    rw [h.2]
    exact Std.Refl.refl d
  | cons tx txs ih =>
    obtain ⟨result, d₁, rest, hexec, hrest, -⟩ := h
    exact IsTrans.trans _ _ _ (onlyEvmWrites_of_executes hexec) (ih hrest)

/-! ## The accounting of a block -/

omit [Revm] in
/-- The accounts after the fees have been paid out. -/
def payFees (e : ExecutionEngine) (state : StateSnapshot) (proposer : Address) (fees : ℕ) :
    StateSnapshot :=
  match e.economics with
  | none =>
    state.putAccount proposer
      { state.account proposer with
        balance := wrappingAdd 128 (state.account proposer).balance fees }
  | some economics =>
    credit (credit state proposer (fees - treasuryCut economics fees)) treasuryAddress
      (treasuryCut economics fees)

/-- At the end of an epoch, every stale record names a validator of the map. -/
def CanSettle (e : ExecutionEngine) (store : Store) (height : ℕ) : Prop :=
  ∀ economics, e.economics = some economics → ClosesEpoch economics height →
    ∀ a ∈ ((StakingSnapshot.load store).ensureValidators e.validators).stale,
      ((StakingSnapshot.load store).ensureValidators e.validators).validators[a]?.isSome

omit [Revm] in
/-- The accounting pays the fees, and it fails only in the settlement of an epoch. -/
lemma applyBlockAccounting_ok (store : Store) (state : StateSnapshot) (proposer : Address)
    (fees height : ℕ) :
    (∀ state' accounting,
      e.applyBlockAccounting store state proposer fees height = .ok (state', accounting) →
      state' = e.payFees state proposer fees) ∧
    ((∃ out, e.applyBlockAccounting store state proposer fees height = .ok out) ↔
      CanSettle e store height) := by
  rw [applyBlockAccounting, payFees, CanSettle]
  rcases hec : e.economics with _ | economics
  · exact ⟨fun _ _ h => (Prod.mk.inj (Except.ok.inj h)).1.symm, fun _ => nofun, fun _ => ⟨_, rfl⟩⟩
  · dsimp only
    by_cases hclose : ClosesEpoch economics height
    · rw [if_pos hclose, settleEpoch]
      set staking := (StakingSnapshot.load store).ensureValidators e.validators
      have hiff := StakingSnapshot.applyDowntimeSlashing_ok_iff
        { staking with
          treasuryBalance :=
            saturatingAdd 128 staking.treasuryBalance (treasuryCut economics fees) }
        (GovernanceSnapshot.load store economics).economics
      split
      · rename_i err herr
        split at herr
        · rename_i hslash
          rw [hslash] at hiff
          refine ⟨nofun, by rintro ⟨_, ⟨⟩⟩, fun h => ?_⟩
          obtain ⟨_, hc⟩ := hiff.mpr (h economics rfl hclose)
          cases hc
        · cases herr
      · rename_i herr
        split at herr
        · cases herr
        · rename_i hslash
          refine ⟨fun _ _ h => (Prod.mk.inj (Except.ok.inj h)).1.symm, fun _ => ?_,
            fun _ => ⟨_, rfl⟩⟩
          rintro _ ⟨⟩ -
          exact hiff.mp ⟨_, hslash⟩
    · rw [if_neg hclose]
      exact ⟨fun _ _ h => (Prod.mk.inj (Except.ok.inj h)).1.symm,
        fun _ _ h hc => absurd hc (Option.some.inj h ▸ hclose), fun _ => ⟨_, rfl⟩⟩

omit [Revm] in
lemma canSettle_congr {d d' : Disk} (h : OnlyEvmWrites d d') (height : ℕ) :
    CanSettle e d'.store height ↔ CanSettle e d.store height := by
  have hload : StakingSnapshot.load d'.store = StakingSnapshot.load d.store := by
    rw [StakingSnapshot.load, h.store_eq]
    rfl
  rw [CanSettle, CanSettle, hload]

omit [Revm] in
/-- Settling an epoch makes no record of a validator and removes none. -/
lemma sameRecords_settleEpoch {staking staking' : StakingSnapshot}
    {governance governance' : GovernanceSnapshot} {height : ℕ} {t : EpochTransition}
    (h : settleEpoch staking governance height = .ok (staking', governance', t)) :
    staking.SameRecords staking' := by
  rw [settleEpoch] at h
  split at h
  · cases h
  · rename_i s hslash
    cases h
    exact (StakingSnapshot.sameRecords_applyDowntimeSlashing hslash).trans
      (StakingSnapshot.sameRecords_settleEpochRewards _ _ _ _)

omit [Revm] in
/-- Nor does the accounting of a block. -/
lemma sameRecords_applyBlockAccounting {store : Store} {state state' : StateSnapshot}
    {proposer : Address} {fees height : ℕ} {accounting : AccountingArtifacts}
    {staking : StakingSnapshot}
    (h : e.applyBlockAccounting store state proposer fees height = .ok (state', accounting))
    (hstaking : accounting.staking = some staking) :
    ((StakingSnapshot.load store).ensureValidators e.validators).SameRecords staking := by
  rw [applyBlockAccounting] at h
  rcases heconomics : e.economics with _ | economics
  · rw [heconomics] at h
    cases h
    cases hstaking
  · rw [heconomics] at h
    dsimp only at h
    split_ifs at h
    · split at h
      · cases h
      · rename_i hsettle
        cases h
        obtain rfl := Option.some.inj hstaking
        exact fun a => sameRecords_settleEpoch hsettle a
    · cases h
      obtain rfl := Option.some.inj hstaking
      exact fun _ => rfl

/-! ## A prepared block -/

/-- What a prepared block is made of. -/
structure Prepares (e : ExecutionEngine) (scheme : SignatureScheme) (block : Block) (d : Disk)
    (p : PreparedBlock) (d' : Disk) : Prop where
  verified : verifyBlock scheme block = .ok ()
  parent : block.header.parentHash = d.store.latestHash
  replay : ∃ state, e.applyTransactions scheme block.header.height block.transactions
      (StateSnapshot.load d.store) 0 [] d = .ok (state, p.proposerFees, p.receipts) d' ∧
    e.applyBlockAccounting d'.store state block.header.proposer p.proposerFees
      block.header.height = .ok (p.state, p.accounting)
  txRoot : block.header.txRoot = transactionRoot block.transactions
  receiptRoot : block.header.receiptRoot = ZenoChain.receiptRoot p.receipts
  stateRoot : block.header.stateRoot = p.state.stateRoot

/-- **The successful runs of `prepare_block`.** -/
theorem prepareBlock_ok_iff {block : Block} {d d' : Disk} {p : PreparedBlock} :
    e.prepareBlock scheme block d = .ok p d' ↔ Prepares e scheme block d p d' := by
  rw [prepareBlock, Handler.bind_eq_ok_iff]
  constructor
  · rintro ⟨_, _, hv, h⟩
    obtain ⟨hverify, rfl⟩ := Handler.ofExcept_eq_ok_iff.mp hv
    rw [Handler.bind_ok (readStore_run d)] at h
    split at h
    · cases h
    · rename_i hparent
      obtain ⟨⟨state, fees, receipts⟩, d₁, hrun, h⟩ := Handler.bind_eq_ok_iff.mp h
      dsimp only at h
      rw [Handler.bind_ok (readStore_run d₁)] at h
      obtain ⟨⟨state', accounting⟩, d₂, hacc, h⟩ := Handler.bind_eq_ok_iff.mp h
      obtain ⟨haccount, rfl⟩ := Handler.ofExcept_eq_ok_iff.mp hacc
      dsimp only at h
      obtain ⟨_, d₃, hroots, h⟩ := Handler.bind_eq_ok_iff.mp h
      obtain ⟨hcheck, rfl⟩ := Handler.ofExcept_eq_ok_iff.mp hroots
      obtain ⟨h₁, h₂, h₃⟩ := checkRoots_ok_iff.mp hcheck
      cases h
      exact ⟨Handler.mapError_eq_ok_iff.mp hverify, not_not.mp hparent,
        ⟨state, hrun, Handler.mapError_eq_ok_iff.mp haccount⟩, h₁, h₂, h₃⟩
  · rintro ⟨hv, hparent, ⟨state, hrun, hacc⟩, h₁, h₂, h₃⟩
    refine ⟨(), d, Handler.ofExcept_eq_ok_iff.mpr ⟨Handler.mapError_eq_ok_iff.mpr hv, rfl⟩, ?_⟩
    rw [Handler.bind_ok (readStore_run d), if_neg (not_not.mpr hparent), Handler.bind_ok hrun]
    dsimp only
    rw [Handler.bind_ok (readStore_run d'), Handler.bind_ok (Handler.ofExcept_eq_ok_iff.mpr
      ⟨Handler.mapError_eq_ok_iff.mpr hacc, rfl⟩)]
    dsimp only
    rw [Handler.bind_ok (Handler.ofExcept_eq_ok_iff.mpr ⟨checkRoots_ok_iff.mpr ⟨h₁, h₂, h₃⟩, rfl⟩)]
    rfl

variable (e scheme) in
lemma keeps_prepareBlock (block : Block) :
    Handler.Keeps OnlyEvmWrites (e.prepareBlock scheme block) := by
  refine .bind (.ofExcept _) fun _ => .bind (fun d => Std.Refl.refl d) fun store => ?_
  split
  · exact .throw _
  · refine .bind (keeps_applyTransactions _ _ _ _ _) fun _ => .bind (fun d => Std.Refl.refl d)
      fun _ => .bind (.ofExcept _) fun _ => .bind (.ofExcept _) fun _ => .pure _

variable (e scheme) in
/-- A dry run writes EVM accounts only. -/
lemma keeps_dryRunTransactions (height : ℕ) (txs : List Transaction) (proposer : Address) :
    Handler.Keeps OnlyEvmWrites (e.dryRunTransactions scheme height txs proposer) := by
  refine .bind (fun d => Std.Refl.refl d) fun store => .bind (fun d => ?_) fun _ =>
    .bind (fun d => Std.Refl.refl d) fun _ => .bind (.ofExcept _) fun _ => .pure _
  rw [Handler.final_zoom]
  exact keeps_applyTransactions _ _ _ _ _ d

/-- **The successful runs of `execute_block`.** -/
theorem executeBlock_ok_iff {block : Block} {d d' : Disk} {r : BlockExecutionResult} :
    e.executeBlock scheme block d = .ok r d' ↔
      ∃ p d₁, Prepares e scheme block d p d₁ ∧ d' = d₁.recordAll (accountingWrites p) ∧
        r = { block, receipts := p.receipts, epochTransition := p.accounting.epochTransition,
              proposerFees := p.proposerFees, state := p.state } := by
  rw [executeBlock, Handler.bind_eq_ok_iff]
  constructor
  · rintro ⟨p, d₁, hp, h⟩
    cases h
    exact ⟨p, d₁, prepareBlock_ok_iff.mp hp, rfl, rfl⟩
  · rintro ⟨p, d₁, hp, rfl, rfl⟩
    exact ⟨p, d₁, prepareBlock_ok_iff.mpr hp, rfl⟩

/-- **The successful runs of `validate_and_commit_finalized_block`.** -/
theorem validateAndCommit_ok_iff {finalized : FinalizedBlock} {d d' : Disk} :
    e.validateAndCommitFinalizedBlock scheme finalized d = .ok ⟨⟩ d' ↔
      ∃ p d₁, Prepares e scheme finalized.block d p d₁ ∧ p.receipts = finalized.receipts ∧
        p.accounting.epochTransition = finalized.epochTransition ∧
        d' = (d₁.record (.write (.atomicCommitBlock finalized p.state))).recordAll
          (accountingWrites p) := by
  rw [validateAndCommitFinalizedBlock, Handler.bind_eq_ok_iff]
  constructor
  · rintro ⟨p, d₁, hp, h⟩
    split at h
    · cases h
    · rename_i hr
      split at h
      · cases h
      · rename_i ht
        cases h
        exact ⟨p, d₁, prepareBlock_ok_iff.mp hp, not_not.mp hr, not_not.mp ht, rfl⟩
  · rintro ⟨p, d₁, hp, hr, ht, rfl⟩
    refine ⟨p, d₁, prepareBlock_ok_iff.mpr hp, ?_⟩
    rw [if_neg (not_not.mpr hr), if_neg (not_not.mpr ht)]
    rfl

end

end ExecutionEngine

end ZenoChain
