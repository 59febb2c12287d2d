/-
# What payloads leave behind

The executor writes the accounts of its interpreter straight into the store, while the native
state of a block is kept aside until the block is committed.  So a rejected block may leave EVM
accounts, and so may the dry run of a proposal, which is then executed again on them.
-/
import ZenoChain.Execution.Conservation

namespace ZenoChain

namespace ExecutionEngine

variable [Hashing] [Revm]

/-- A payload is given to the interpreter, not to a precompile of the chain. -/
def Interpreted (tx : EvmTransaction) : Prop :=
  match tx.kind with
  | .create _ => True
  | .call contract input => EvmExecutor.precompile contract input = none

/-- A precompile leaves the disk alone. -/
lemma executeEvm_of_not_interpreted {tx : EvmTransaction} (h : ¬ Interpreted tx) (evmChainId : ℕ)
    (caller : EvmAddress) : ∃ result, ∀ d, executeEvm evmChainId caller tx d = .ok result d := by
  rw [Interpreted] at h
  split at h
  · exact absurd trivial h
  · rename_i contract input hkind
    obtain ⟨result, hresult⟩ := Option.ne_none_iff_exists'.mp h
    refine ⟨result, fun d => Handler.zoom_ok ?_⟩
    rw [EvmExecutor.execute, hkind]
    dsimp only
    rw [hresult]
    rfl

variable (e : ExecutionEngine) (scheme : SignatureScheme)

/-- The payloads of a list of transactions, each with its chain id and its caller, up to the
first transaction that is not valid, cannot be debited or needs an executor that is not there. -/
def payloads (height : ℕ) : List Transaction → StateSnapshot → List (ℕ × EvmAddress × EvmTransaction)
  | [], _ => []
  | tx :: txs, state =>
    match e.validateTransaction scheme state height tx, debitSender state tx.body with
    | .ok (), .ok debited =>
      match tx.body.evm, e.evmChainId with
      | none, _ => payloads height txs (afterDebit debited tx)
      | some _, none => []
      | some evmTx, some evmChainId =>
        (evmChainId, last20 tx.body.sender, evmTx) :: payloads height txs (afterDebit debited tx)
    | _, _ => []

/-- Runs payloads one after the other, up to the first that fails. -/
def runPayloads : List (ℕ × EvmAddress × EvmTransaction) → StoreM ExecutionError PUnit
  | [] => pure ⟨⟩
  | (evmChainId, caller, tx) :: rest => do
    let _ ← executeEvm evmChainId caller tx
    runPayloads rest

variable {e scheme}

/-- The transaction loop touches the disk by its payloads only. -/
lemma final_applyTransactions (height : ℕ) (txs : List Transaction) (state : StateSnapshot)
    (fees : ℕ) (receipts : List Receipt) (d : Disk) :
    Handler.final (e.applyTransactions scheme height txs state fees receipts d) =
      Handler.final (runPayloads (payloads e scheme height txs state) d) := by
  induction txs generalizing state fees receipts d with
  | nil => rfl
  | cons tx txs ih =>
    rw [applyTransactions, payloads]
    rcases hvalid : e.validateTransaction scheme state height tx with err | ⟨⟩
    · obtain ⟨err', herror⟩ : ∃ err', e.applyTransaction scheme state height tx d = .error err' d :=
        ⟨_, by rw [applyTransaction, hvalid]; rfl⟩
      rw [Handler.bind_error herror]
      rfl
    rcases hdebit : debitSender state tx.body with message | debited
    · obtain ⟨err', herror⟩ : ∃ err', e.applyTransaction scheme state height tx d = .error err' d :=
        ⟨_, by rw [applyTransaction, hvalid, hdebit]; rfl⟩
      rw [Handler.bind_error herror]
      rfl
    dsimp only
    rcases hevm : tx.body.evm with _ | evmTx
    · have hone : e.applyTransaction scheme state height tx d =
          .ok (afterDebit debited tx, receiptOf tx height none) d :=
        applyTransaction_ok_iff.mpr ⟨hvalid, debited, none, hdebit, by rw [Executes, hevm]; exact ⟨rfl, rfl⟩,
          rfl, rfl⟩
      rw [Handler.bind_ok hone]
      exact ih _ _ _ d
    rcases hid : e.evmChainId with _ | evmChainId
    · obtain ⟨err', herror⟩ : ∃ err', e.applyTransaction scheme state height tx d = .error err' d :=
        ⟨_, by rw [applyTransaction, hvalid, hdebit]; dsimp only; rw [hevm, hid]; rfl⟩
      rw [Handler.bind_error herror]
      rfl
    dsimp only
    rw [runPayloads]
    rcases hrun : executeEvm evmChainId (last20 tx.body.sender) evmTx d with ⟨result, d₁⟩ | ⟨err, d₁⟩
    · have hone : e.applyTransaction scheme state height tx d =
          .ok (afterDebit debited tx, receiptOf tx height (some result)) d₁ := by
        refine applyTransaction_ok_iff.mpr ⟨hvalid, debited, some result, hdebit, ?_, rfl, rfl⟩
        rw [Executes, hevm]
        exact ⟨evmChainId, result, hid, rfl, hrun⟩
      rw [Handler.bind_ok hone, Handler.bind_ok hrun]
      exact ih _ _ _ d₁
    · have hone : e.applyTransaction scheme state height tx d = .error err d₁ := by
        rw [applyTransaction, hvalid, hdebit]
        dsimp only
        rw [hevm, hid]
        exact Handler.bind_error hrun
      rw [Handler.bind_error hone, Handler.bind_error hrun]
      rfl

/-! ## Rejected blocks -/

/-- The disk after the replay of a block, whether it fails or not. -/
lemma final_prepareBlock {block : Block} {d : Disk} :
    Handler.final (e.prepareBlock scheme block d) =
      if verifyBlock scheme block = .ok () ∧ block.header.parentHash = d.store.latestHash then
        Handler.final (runPayloads (payloads e scheme block.header.height block.transactions
          (StateSnapshot.load d.store)) d)
      else d := by
  by_cases hverify : verifyBlock scheme block = .ok ()
  · rw [prepareBlock, Handler.bind_ok (Handler.ofExcept_eq_ok_iff.mpr
      ⟨Handler.mapError_eq_ok_iff.mpr hverify, rfl⟩), Handler.bind_ok (readStore_run d)]
    by_cases hparent : block.header.parentHash = d.store.latestHash
    · rw [if_neg (not_not.mpr hparent), if_pos ⟨hverify, hparent⟩,
        ← final_applyTransactions _ _ _ 0 []]
      -- What follows the loop only reads the store.
      rcases hloop : e.applyTransactions scheme block.header.height block.transactions
          (StateSnapshot.load d.store) 0 [] d with ⟨⟨state, fees, receipts⟩, d₁⟩ | ⟨err, d₁⟩
      · rw [Handler.bind_ok hloop]
        refine Eq.symm ((?_ : Handler.Keeps Eq _) d₁)
        exact .bind (fun _ => rfl) fun _ => .bind (.ofExcept _) fun _ => .bind (.ofExcept _) fun _ =>
          .pure _
      · rw [Handler.bind_error hloop]
        rfl
    · rw [if_pos hparent, if_neg fun h => hparent h.2]
      rfl
  · rw [if_neg fun h => hverify h.1, prepareBlock]
    rcases hresult : verifyBlock scheme block with message | ⟨⟩
    · rfl
    · exact absurd hresult hverify

lemma final_of_rejected {finalized : FinalizedBlock} {d d' : Disk} {err : ExecutionError}
    (h : e.validateAndCommitFinalizedBlock scheme finalized d = .error err d') :
    d' = Handler.final (e.prepareBlock scheme finalized.block d) := by
  rw [validateAndCommitFinalizedBlock] at h
  rcases hp : e.prepareBlock scheme finalized.block d with ⟨p, d₁⟩ | ⟨err', d₁⟩
  · rw [Handler.bind_ok hp] at h
    split at h
    · cases h
      rfl
    · split at h
      · cases h
        rfl
      · cases h
  · rw [Handler.bind_error hp] at h
    cases h
    rfl

/-- If the signature and the parent of a block are right, the payloads that are reached leave
the EVM accounts, taken together, as they are. -/
def LeavesEvm (e : ExecutionEngine) (scheme : SignatureScheme) (block : Block) (d : Disk) : Prop :=
  verifyBlock scheme block = .ok () → block.header.parentHash = d.store.latestHash →
    (Handler.final (runPayloads (payloads e scheme block.header.height block.transactions
      (StateSnapshot.load d.store)) d)).store.evmAccounts = d.store.evmAccounts

/-- Payloads of precompiles leave everything as it is. -/
lemma final_runPayloads {l : List (ℕ × EvmAddress × EvmTransaction)}
    (h : ∀ x ∈ l, ¬ Interpreted x.2.2) (d : Disk) : runPayloads l d = .ok ⟨⟩ d := by
  induction l with
  | nil => rfl
  | cons x l ih =>
    obtain ⟨hx, hl⟩ := List.forall_mem_cons.mp h
    obtain ⟨result, hresult⟩ := executeEvm_of_not_interpreted hx x.1 x.2.1
    rw [runPayloads, Handler.bind_ok (hresult d)]
    exact ih hl

lemma leavesEvm_of_precompiles {block : Block} {d : Disk}
    (h : ∀ x ∈ payloads e scheme block.header.height block.transactions (StateSnapshot.load d.store),
      ¬ Interpreted x.2.2) : LeavesEvm e scheme block d := by
  intro _ _
  rw [final_runPayloads h]
  rfl

lemma onlyEvmWrites_runPayloads (l : List (ℕ × EvmAddress × EvmTransaction)) :
    Handler.Keeps OnlyEvmWrites (runPayloads l) := by
  induction l with
  | nil => exact .pure _
  | cons x l ih => exact .bind (keeps_executeEvm _ _ _) fun _ => ih

/-- **Rejected blocks.**  A block that is rejected leaves no trace in the store exactly if the
payloads that were run before the failing check leave the EVM accounts as they are: nothing
undoes what the executor has written. -/
theorem rejected_traceless_iff {finalized : FinalizedBlock} {d d' : Disk} {err : ExecutionError}
    (h : e.validateAndCommitFinalizedBlock scheme finalized d = .error err d') :
    d'.store = d.store ↔ LeavesEvm e scheme finalized.block d := by
  rw [final_of_rejected h, final_prepareBlock, LeavesEvm]
  split
  · rename_i hchecks
    have hstore := (onlyEvmWrites_runPayloads (payloads e scheme finalized.block.header.height
      finalized.block.transactions (StateSnapshot.load d.store)) d).store_eq
    constructor
    · exact fun heq _ _ => congrArg Store.evmAccounts heq
    · intro hleaves
      rw [hstore, hleaves hchecks.1 hchecks.2]
  · rename_i hchecks
    exact ⟨fun _ hverify hparent => absurd ⟨hverify, hparent⟩ hchecks, fun _ => rfl⟩

end ExecutionEngine

/-! ## A contract that is created and rejected -/

section

open Transparent

namespace Creating

/-- An interpreter that creates contracts without code: the address of a contract depends on the
nonce of its creator, which goes up by one. -/
scoped instance interpreter : Revm :=
  { transactCommit := fun _ db caller _ =>
      let account := (db[caller]?).getD { nonce := 0, balance := 0, code := [], storage := ∅ }
      .ok (.success 53000 [] (some (BitVec.ofNat 160 (account.nonce + 1))) [],
        (db.insert caller { account with nonce := account.nonce + 1 }).toList)
    defaultScheme := scheme }

/-- An engine with EVM support. -/
def creator : ExecutionEngine := { devnet with evmChainId := some 7 }

/-- The creation of a contract. -/
def creation : Transaction :=
  payment [1] 0 0 0 10 (some { kind := .create [], gasLimit := 100000, gasPrice := 0, value := 0 })

/-- A block with the creation and without roots. -/
def unbacked : FinalizedBlock :=
  uncertified (sealBlock
    { height := 1, round := 0, chainId := "zeno", parentHash := 0, txRoot := 0, stateRoot := 0
      receiptRoot := 0, proposer := address [2], timestampMs := 0 } [creation] [2]) []

/-- The block is rejected, and its creator has become an EVM account. -/
theorem unbacked_leaves_account : ∃ d',
    creator.validateAndCommitFinalizedBlock scheme unbacked funded =
      .error (.block "tx root mismatch") d' ∧
    funded.store.evmAccounts.size = 0 ∧ d'.store.evmAccounts.size = 1 := by
  rcases hrun : creator.validateAndCommitFinalizedBlock scheme unbacked funded with ⟨_, d'⟩ | ⟨err, d'⟩
  all_goals
    have hkey : (match creator.validateAndCommitFinalizedBlock scheme unbacked funded with
        | .ok _ _ => none
        | .error err d' => some (err, d'.store.evmAccounts.size)) =
        some (.block "tx root mismatch", 1) := by decide +kernel
    rw [hrun] at hkey
  · cases hkey
  · obtain ⟨rfl, hsize⟩ := Prod.mk.inj (Option.some.inj hkey)
    exact ⟨d', rfl, by decide +kernel, hsize⟩

/-- The same block with a call of a precompile in the place of the creation. -/
def calling : FinalizedBlock :=
  { unbacked with
    block :=
      { unbacked.block with
        transactions := [payment [1] 0 5 0 10
          (some { kind := .call identityPrecompile [], gasLimit := 30000, gasPrice := 0, value := 0 })] } }

/-- It is rejected as well, and leaves nothing. -/
theorem calling_leaves_nothing : ∃ d',
    creator.validateAndCommitFinalizedBlock scheme calling funded =
      .error (.block "tx root mismatch") d' ∧ d'.store = funded.store := by
  rcases hrun : creator.validateAndCommitFinalizedBlock scheme calling funded with ⟨_, d'⟩ | ⟨err, d'⟩
  all_goals
    have hkey : (match creator.validateAndCommitFinalizedBlock scheme calling funded with
        | .ok _ _ => none
        | .error err _ => some err) = some (.block "tx root mismatch") := by decide +kernel
    rw [hrun] at hkey
  · cases hkey
  · obtain rfl := Option.some.inj hkey
    refine ⟨d', rfl, (ExecutionEngine.rejected_traceless_iff hrun).mpr
      (ExecutionEngine.leavesEvm_of_precompiles fun x hx => ?_)⟩
    have hpayloads : ExecutionEngine.payloads creator scheme calling.block.header.height
        calling.block.transactions (StateSnapshot.load funded.store) =
        [(7, last20 (address [1]),
          { kind := .call identityPrecompile [], gasLimit := 30000, gasPrice := 0, value := 0 })] := by
      decide +kernel
    rw [hpayloads, List.mem_singleton] at hx
    subst hx
    exact Option.some_ne_none _

end Creating

end

namespace ExecutionEngine

variable [Hashing] [Revm] {e : ExecutionEngine} {scheme : SignatureScheme}

/-! ## Dry runs -/

omit [Revm] in
/-- The successful runs of the accounting on stores that differ in EVM accounts only. -/
lemma applyBlockAccounting_congr {d d' : Disk} (h : OnlyEvmWrites d d') (state : StateSnapshot)
    (proposer : Address) (fees height : ℕ) :
    e.applyBlockAccounting d'.store state proposer fees height =
      e.applyBlockAccounting d.store state proposer fees height := by
  rw [h.store_eq]
  rfl

lemma dryRunTransactions_ok_iff {height : ℕ} {txs : List Transaction} {proposer : Address}
    {d d' : Disk} {state : StateSnapshot} {receipts : List Receipt} :
    e.dryRunTransactions scheme height txs proposer d = .ok (state, receipts) d' ↔
      Admits e scheme height txs (StateSnapshot.load d.store) ∧
      ∃ results accounting, RunsPayloads e txs d results d' ∧
        receipts = receiptsOf height txs results ∧
        e.applyBlockAccounting d'.store (replayNative txs (StateSnapshot.load d.store)) proposer
          (collectedFees txs 0) height = .ok (state, accounting) := by
  rw [dryRunTransactions, Handler.bind_ok (readStore_run d)]
  constructor
  · intro h
    obtain ⟨⟨replayed, fees, collected⟩, d₁, hloop, h⟩ := Handler.bind_eq_ok_iff.mp h
    dsimp only at h
    rw [Handler.bind_ok (readStore_run d₁)] at h
    obtain ⟨⟨paid, accounting⟩, d₂, hacc, h⟩ := Handler.bind_eq_ok_iff.mp h
    obtain ⟨haccounting, rfl⟩ := Handler.ofExcept_eq_ok_iff.mp hacc
    cases h
    obtain ⟨_, hrun, rfl⟩ := Handler.zoom_eq_ok_iff.mp hloop
    obtain ⟨hadmits, results, hpayloads, hout⟩ := applyTransactions_ok_iff.mp hrun
    obtain ⟨rfl, hcollected⟩ := Prod.mk.inj hout
    obtain ⟨rfl, rfl⟩ := Prod.mk.inj hcollected
    exact ⟨hadmits, results, accounting, hpayloads, rfl, haccounting⟩
  · rintro ⟨hadmits, results, accounting, hpayloads, rfl, haccounting⟩
    have hloop : e.applyTransactions scheme height txs (StateSnapshot.load d.store) 0 [] d =
        .ok (replayNative txs (StateSnapshot.load d.store), collectedFees txs 0,
          [] ++ receiptsOf height txs results) d' :=
      applyTransactions_ok_iff.mpr ⟨hadmits, results, hpayloads, rfl⟩
    rw [Handler.bind_ok (Handler.zoom_ok hloop)]
    dsimp only
    rw [Handler.bind_ok (readStore_run d'),
      Handler.bind_ok (Handler.ofExcept_eq_ok_iff.mpr ⟨haccounting, rfl⟩)]
    rfl

/-- A disk determines the results of the payloads. -/
lemma RunsPayloads.unique {txs : List Transaction} {d d₁ d₂ : Disk}
    {results results' : List (Option EvmCallResult)} (h : RunsPayloads e txs d results d₁)
    (h' : RunsPayloads e txs d results' d₂) : results = results' ∧ d₁ = d₂ := by
  induction txs generalizing d results results' with
  | nil => exact ⟨h.1.trans h'.1.symm, h.2.trans h'.2.symm⟩
  | cons tx txs ih =>
    obtain ⟨result, d₃, rest, hexec, hrest, rfl⟩ := h
    obtain ⟨result', d₃', rest', hexec', hrest', rfl⟩ := h'
    have hone : result = result' ∧ d₃ = d₃' := by
      rw [Executes] at hexec hexec'
      rcases hevm : tx.body.evm with _ | evmTx
      · rw [hevm] at hexec hexec'
        exact ⟨hexec.1.trans hexec'.1.symm, hexec.2.trans hexec'.2.symm⟩
      · rw [hevm] at hexec hexec'
        obtain ⟨evmChainId, r, hid, rfl, hrun⟩ := hexec
        obtain ⟨evmChainId', r', hid', rfl, hrun'⟩ := hexec'
        obtain rfl := Option.some.inj (hid.symm.trans hid')
        rw [hrun] at hrun'
        cases hrun'
        exact ⟨rfl, rfl⟩
    obtain ⟨rfl, rfl⟩ := hone
    obtain ⟨rfl, rfl⟩ := ih hrest hrest'
    exact ⟨rfl, rfl⟩

lemma RunsPayloads.length {txs : List Transaction} {d d' : Disk}
    {results : List (Option EvmCallResult)} (h : RunsPayloads e txs d results d') :
    results.length = txs.length := by
  induction txs generalizing d results with
  | nil =>
    rw [h.1]
    rfl
  | cons tx txs ih =>
    obtain ⟨_, _, _, -, hrest, rfl⟩ := h
    rw [List.length_cons, List.length_cons, ih hrest]

omit [Revm] in
/-- Receipts tell the results of the payloads. -/
lemma receiptsOf_inj {height : ℕ} {txs : List Transaction} {results results' : List (Option EvmCallResult)}
    (hlength : results.length = txs.length) (hlength' : results'.length = txs.length)
    (h : receiptsOf height txs results = receiptsOf height txs results') : results = results' := by
  have hevm : ∀ l : List (Option EvmCallResult), l.length = txs.length →
      (receiptsOf height txs l).map Receipt.evm = l := by
    intro l hl
    rw [receiptsOf, List.map_zipWith]
    have hsnd : (List.zip txs l).map Prod.snd = l := List.map_snd_zip (Nat.le_of_eq hl)
    rwa [List.map_zip_eq_zipWith] at hsnd
  rw [← hevm results hlength, h, hevm results' hlength']

/-! ## A proposal is executed again -/

/-- A key pair with its address: what the secret key signs verifies under the public one. -/
structure KeyPair (scheme : SignatureScheme) (publicKey secretKey : Bytes) (address : Address) :
    Prop where
  derives : scheme.deriveAddress publicKey = .ok address
  signs : ∀ message signature, scheme.sign .blockProposal message secretKey = .ok signature →
    scheme.verify .blockProposal message publicKey signature = .ok ()

omit [Hashing] [Revm] in
/-- A block that is signed with the keys of its proposer verifies. -/
lemma verifyBlock_signBlock {publicKey secretKey : Bytes} {header : BlockHeader}
    {txs : List Transaction} {block : Block}
    (hkeys : KeyPair scheme publicKey secretKey header.proposer)
    (h : signBlock scheme header txs publicKey secretKey = .ok block) :
    verifyBlock scheme block = .ok () := by
  rw [signBlock] at h
  split at h
  · rename_i signature hsign
    obtain rfl := Except.ok.inj h
    have hderived : senderFromPublicKey scheme publicKey = .ok header.proposer := by
      rw [senderFromPublicKey, hkeys.derives]
    simp only [verifyBlock, hderived, hkeys.signs _ _ hsign]
    simp [Handler.mapError_ok, bind, Except.bind]
  · cases h

/-- The payloads give the same results when they are run again on what they have left. -/
def Repeats (e : ExecutionEngine) (txs : List Transaction) (d : Disk) : Prop :=
  ∃ results d₁ d₂, RunsPayloads e txs d results d₁ ∧ RunsPayloads e txs d₁ results d₂

/-- **An honest proposal.**  The block that a proposer builds and signs from a dry run is
executed on the store that the dry run has left, with the same receipts and the same state,
exactly if the payloads give the same results when they are run for a second time. -/
theorem honestProposal_executes_iff {publicKey secretKey : Bytes} {proposer : Address}
    {height round timestampMs : ℕ} {txs : List Transaction} {d d₁ : Disk} {state : StateSnapshot}
    {receipts : List Receipt} {block : Block}
    (hkeys : KeyPair scheme publicKey secretKey proposer)
    (hdry : e.dryRunTransactions scheme height txs proposer d = .ok (state, receipts) d₁)
    (hsign : signBlock scheme (e.buildHeader d₁.store proposer height round timestampMs txs state
      receipts) txs publicKey secretKey = .ok block) :
    (∃ r d₂, e.executeBlock scheme block d₁ = .ok r d₂ ∧ r.receipts = receipts ∧ r.state = state) ↔
      Repeats e txs d := by
  obtain ⟨hadmits, results, accounting, hpayloads, rfl, haccounting⟩ :=
    dryRunTransactions_ok_iff.mp hdry
  obtain ⟨hheader, htxs, -⟩ := signBlock_ok hsign
  have hevm := onlyEvmWrites_of_runsPayloads hpayloads
  have haccounts : StateSnapshot.load d₁.store = StateSnapshot.load d.store := by
    rw [StateSnapshot.load, hevm.store_eq]
    rfl
  constructor
  · rintro ⟨r, d₂, hrun, hreceipts, -⟩
    obtain ⟨p, d₃, hp, -, rfl⟩ := executeBlock_ok_iff.mp hrun
    obtain ⟨replayed, hloop, -⟩ := hp.replay
    obtain ⟨-, results', hpayloads', hout⟩ := applyTransactions_ok_iff.mp hloop
    obtain ⟨-, hcollected⟩ := Prod.mk.inj hout
    obtain ⟨-, hcollected⟩ := Prod.mk.inj hcollected
    rw [htxs] at hpayloads'
    have hsame : receiptsOf height txs results' = receiptsOf height txs results := by
      rw [← hreceipts]
      show _ = p.receipts
      rw [hcollected, hheader, htxs, List.nil_append]
      rfl
    obtain rfl := receiptsOf_inj hpayloads'.length hpayloads.length hsame
    exact ⟨results', d₁, d₃, hpayloads, hpayloads'⟩
  · rintro ⟨results', d₁', d₂, hfirst, hsecond⟩
    obtain ⟨rfl, rfl⟩ := hpayloads.unique hfirst
    have hpaid : e.applyBlockAccounting d₂.store (replayNative txs (StateSnapshot.load d.store))
        proposer (collectedFees txs 0) height = .ok (state, accounting) := by
      rw [applyBlockAccounting_congr (onlyEvmWrites_of_runsPayloads hsecond), haccounting]
    have hp : Prepares e scheme block d₁
        { state, receipts := receiptsOf height txs results, proposerFees := collectedFees txs 0,
          accounting } d₂ := by
      have hverify : verifyBlock scheme block = .ok () := by
        refine verifyBlock_signBlock ?_ hsign
        exact hkeys
      refine ⟨hverify, ?_,
        ⟨replayNative txs (StateSnapshot.load d.store), ?_, ?_⟩, ?_, ?_, ?_⟩
      · rw [hheader]
        rfl
      · rw [hheader, htxs, haccounts]
        exact applyTransactions_ok_iff.mpr ⟨hadmits, results, hsecond, rfl⟩
      · rw [hheader]
        exact hpaid
      · rw [hheader, htxs]
        rfl
      · rw [hheader]
        rfl
      · rw [hheader]
        rfl
    exact ⟨_, _, executeBlock_ok_iff.mpr ⟨_, d₂, hp, rfl, rfl⟩, rfl, rfl⟩

/-- Payloads of precompiles give the same results again. -/
lemma repeats_of_precompiles {txs : List Transaction} {d d' : Disk}
    {results : List (Option EvmCallResult)} (h : RunsPayloads e txs d results d')
    (hquiet : ∀ tx ∈ txs, ∀ evmTx ∈ tx.body.evm, ¬ Interpreted evmTx) : Repeats e txs d := by
  have hsame : d' = d := by
    induction txs generalizing d results with
    | nil => exact h.2
    | cons tx txs ih =>
      obtain ⟨result, d₁, rest, hexec, hrest, -⟩ := h
      obtain ⟨htx, htxs⟩ := List.forall_mem_cons.mp hquiet
      have hone : d₁ = d := by
        rw [Executes] at hexec
        rcases hevm : tx.body.evm with _ | evmTx
        · rw [hevm] at hexec
          exact hexec.2
        · rw [hevm] at hexec
          obtain ⟨evmChainId, r, -, -, hrun⟩ := hexec
          obtain ⟨r', hr'⟩ := executeEvm_of_not_interpreted (htx evmTx hevm) evmChainId
            (last20 tx.body.sender)
          rw [hr'] at hrun
          cases hrun
          rfl
      exact (ih hrest htxs).trans hone
  subst hsame
  exact ⟨results, d', d', h, h⟩

end ExecutionEngine

/-! ## A contract that is created twice -/

section

open Transparent ExecutionEngine

namespace Creating

/-- The keys of the proposer. -/
lemma proposer_keyPair : KeyPair scheme [2] [2] (address [2]) := by
  refine ⟨rfl, fun message signature hsign => ?_⟩
  obtain rfl := Except.ok.inj hsign
  exact verify_ok_iff.mpr rfl

/-- What becomes of the proposal with some transactions on the node of its proposer: the disk
after the dry run, the state and the receipts of the dry run, the signed block. -/
def proposalOf (txs : List Transaction) : Option (Disk × StateSnapshot × List Receipt × Block) :=
  match creator.dryRunTransactions scheme 1 txs (address [2]) funded with
  | .error _ _ => none
  | .ok (state, receipts) d =>
    match signBlock scheme (creator.buildHeader d.store (address [2]) 1 0 0 txs state receipts) txs
        [2] [2] with
    | .error _ => none
    | .ok block => some (d, state, receipts, block)

lemma proposalOf_eq_some {txs : List Transaction} {d : Disk} {state : StateSnapshot}
    {receipts : List Receipt} {block : Block}
    (h : proposalOf txs = some (d, state, receipts, block)) :
    creator.dryRunTransactions scheme 1 txs (address [2]) funded = .ok (state, receipts) d ∧
    signBlock scheme (creator.buildHeader d.store (address [2]) 1 0 0 txs state receipts) txs
      [2] [2] = .ok block := by
  rw [proposalOf] at h
  split at h
  · cases h
  · rename_i hdry
    split at h
    · cases h
    · rename_i hsign
      cases h
      exact ⟨hdry, hsign⟩

/-- The proposer's own block with the creation is rejected on its own node. -/
theorem creation_rejected : KeyPair scheme [2] [2] (address [2]) ∧
    ∃ d state receipts block,
      creator.dryRunTransactions scheme 1 [creation] (address [2]) funded = .ok (state, receipts) d ∧
      signBlock scheme (creator.buildHeader d.store (address [2]) 1 0 0 [creation] state receipts)
        [creation] [2] [2] = .ok block ∧
      ∀ r d', creator.executeBlock scheme block d ≠ .ok r d' := by
  refine ⟨proposer_keyPair, ?_⟩
  have hkey : (proposalOf [creation]).map (fun x =>
      (Handler.output (creator.executeBlock scheme x.2.2.2 x.1)).isSome) = some false := by
    decide +kernel
  obtain ⟨⟨d, state, receipts, block⟩, hproposal, hout⟩ := Option.map_eq_some_iff.mp hkey
  obtain ⟨hdry, hsign⟩ := proposalOf_eq_some hproposal
  refine ⟨d, state, receipts, block, hdry, hsign, fun r d' hrun => ?_⟩
  rw [hrun] at hout
  cases hout

/-- A transfer and a call of a precompile. -/
def plain : List Transaction := [payment [1] (address [3]) 5 0 10 none,
  payment [1] 0 5 1 10
    (some { kind := .call identityPrecompile [], gasLimit := 30000, gasPrice := 0, value := 0 })]

/-- The proposer's own block with these is executed as the dry run was. -/
theorem plain_executes : ∃ d state receipts block,
    creator.dryRunTransactions scheme 1 plain (address [2]) funded = .ok (state, receipts) d ∧
    ∃ r d', creator.executeBlock scheme block d = .ok r d' ∧ r.receipts = receipts ∧
      r.state = state := by
  have hkey : (proposalOf plain).map (fun _ => ()) = some () := by decide +kernel
  obtain ⟨⟨d, state, receipts, block⟩, hproposal, -⟩ := Option.map_eq_some_iff.mp hkey
  obtain ⟨hdry, hsign⟩ := proposalOf_eq_some hproposal
  obtain ⟨-, results, accounting, hpayloads, -⟩ := dryRunTransactions_ok_iff.mp hdry
  have hquiet : ∀ tx ∈ plain, ∀ evmTx ∈ tx.body.evm, ¬ Interpreted evmTx := by
    intro tx htx
    rcases List.mem_cons.mp htx with rfl | htx
    · rintro _ ⟨⟩
    · rw [List.mem_singleton] at htx
      subst htx
      rintro _ ⟨⟩
      exact Option.some_ne_none _
  exact ⟨d, state, receipts, block, hdry, (honestProposal_executes_iff proposer_keyPair hdry
    hsign).mpr (repeats_of_precompiles hpayloads hquiet)⟩

end Creating

end

end ZenoChain
