/-
# Calls that change nothing

`eth_call` against the executor, for calls without value and gas price.  The executor answers five
precompiles itself, `eth_call` only one of them; and it reports a reverted call as an output, where
`eth_call` reports an error.  So `eth_call` predicts the executor for the other classes of targets
only.  The account that the executor sets for an unknown caller makes no difference: it is not seen.
-/
import ZenoChain.Evm.RawTransactions

namespace ZenoChain

/-- Read-only request. -/
structure EvmCallRequest where
  sender : Option EvmAddress
  recipient : EvmAddress
  data : Bytes
  gasLimit : Option ℕ
  value : Option ℕ

/-- The caller of a request; by default the zero address. -/
def EvmCallRequest.caller (request : EvmCallRequest) : EvmAddress := request.sender.getD 0

/-- The transaction of a request, with the default gas limit and value. -/
def EvmCallRequest.transaction (request : EvmCallRequest) : EvmTransaction :=
  { kind := .call request.recipient request.data, value := request.value.getD 0
    gasLimit := request.gasLimit.getD 5000000, gasPrice := 0 }

/-- The rest of the third-party interpreter. -/
class RevmCall where
  /-- Runs a transaction of a caller on a database without committing it. -/
  transact : ℕ → BTreeMap EvmAddress RevmAccount → EvmAddress → EvmTransaction →
    Except String ExecutionResult
  /-- The hash of the standard precompile. -/
  sha256 : Bytes → Bytes
  /-- A caller at whose address there is this code may not send. -/
  rejectsCaller : Bytes → Bool

/-- The code of an account in a database. -/
def codeIn (db : BTreeMap EvmAddress RevmAccount) (a : EvmAddress) : Bytes :=
  (db[a]?.map RevmAccount.code).getD []

/-- The gas that a call costs before code is run: for the transaction, its data and the standard
precompiles that are compared here. -/
def callGas (contract : EvmAddress) (input : Bytes) : ℕ :=
  21000 + (input.map fun x => if x = 0 then 4 else 16).sum +
    if contract = sha256Precompile then 60 + 12 * ((input.length + 31) / 32)
    else if contract = identityPrecompile then 15 + 3 * ((input.length + 31) / 32)
    else 0

/-- A call without value and gas price. -/
def freeCall (contract : EvmAddress) (input : Bytes) (gasLimit : ℕ) : EvmTransaction :=
  { kind := .call contract input, value := 0, gasLimit, gasPrice := 0 }

/-- The run ends in a success with an output. -/
def ReturnsOutput (run : Except String ExecutionResult) (output : Bytes) : Prop :=
  ∃ gasUsed contractAddress logs, run = .ok (.success gasUsed output contractAddress logs)

lemma ReturnsOutput.unique {run : Except String ExecutionResult} {output output' : Bytes}
    (h : ReturnsOutput run output) (h' : ReturnsOutput run output') : output = output' := by
  obtain ⟨gasUsed, a, logs, rfl⟩ := h
  obtain ⟨gasUsed', a', logs', heq⟩ := h'
  cases heq
  rfl

/-- What the interpreter does with calls without value and gas price: the same whether they are
committed or not; callers with certain code are refused; the standard precompiles are at their
addresses, the first ten; and there is no output of accounts without code. -/
structure Revm.Standard [Revm] [RevmCall] (evmChainId : ℕ) : Prop where
  transact_eq : ∀ db caller tx, RevmCall.transact evmChainId db caller tx =
    (Revm.transactCommit evmChainId db caller tx).map Prod.fst
  rejected : ∀ {db caller}, RevmCall.rejectsCaller (codeIn db caller) = true → ∀ tx,
    ∃ message, RevmCall.transact evmChainId db caller tx = .error message
  sha256 : ∀ {db caller}, RevmCall.rejectsCaller (codeIn db caller) = false →
    ∀ {input gasLimit}, callGas sha256Precompile input ≤ gasLimit →
    ReturnsOutput (RevmCall.transact evmChainId db caller (freeCall sha256Precompile input gasLimit))
      (RevmCall.sha256 input)
  identity : ∀ {db caller}, RevmCall.rejectsCaller (codeIn db caller) = false →
    ∀ {input gasLimit}, callGas identityPrecompile input ≤ gasLimit →
    ReturnsOutput (RevmCall.transact evmChainId db caller (freeCall identityPrecompile input gasLimit))
      input
  codeless : ∀ {db caller}, RevmCall.rejectsCaller (codeIn db caller) = false →
    ∀ {contract : EvmAddress}, codeIn db contract = [] → (contract = 0 ∨ 10 < contract) →
    ∀ {input gasLimit}, callGas contract input ≤ gasLimit →
    ReturnsOutput (RevmCall.transact evmChainId db caller (freeCall contract input gasLimit)) []

namespace EvmExecutor

section

variable [Hashing] [Revm]

/-- The executor answers with what the interpreter has committed. -/
lemma interpret_ok_iff {evmChainId : ℕ} {caller : EvmAddress} {tx : EvmTransaction} {d : Disk}
    {r : EvmCallResult} : (∃ d', interpret evmChainId caller tx d = .ok r d') ↔
    ∃ result accounts, Revm.transactCommit evmChainId (loadDb d.store).existing caller tx =
      .ok (result, accounts) ∧ Storable accounts ∧ r = decodeResult result := by
  rw [interpret_eq]
  rcases Revm.transactCommit evmChainId (loadDb d.store).existing caller tx with
    message | ⟨result, accounts⟩
  · exact iff_of_false (by rintro ⟨_, h⟩; cases h) (by rintro ⟨_, _, h, -⟩; cases h)
  · constructor
    · rintro ⟨d', hok⟩
      obtain ⟨_, d₁, hpersist, hpure⟩ := Handler.bind_eq_ok_iff.mp hok
      refine ⟨result, accounts, rfl, (persistDb_ok_iff accounts d).mp ⟨d₁, hpersist⟩, ?_⟩
      cases hpure
      rfl
    · rintro ⟨result', accounts', heq, hstorable, rfl⟩
      obtain ⟨rfl, rfl⟩ := Prod.mk.inj (Except.ok.inj heq)
      obtain ⟨d', hok⟩ := (persistDb_ok_iff accounts d).mpr hstorable
      refine ⟨d', ?_⟩
      dsimp only
      rw [Handler.bind_ok hok]
      rfl

/-- Executes a read-only request. -/
def ethCall [RevmCall] (evmChainId : ℕ) (request : EvmCallRequest) (s : Store) :
    Except EvmError Bytes :=
  if request.recipient = mlDsaVerifyPrecompile then .ok (pqVerifyPrecompile request.data)
  else match RevmCall.transact evmChainId (loadDb s).existing request.caller request.transaction with
    | .error message => .error (.execution message)
    | .ok (.success _ output _ _) => .ok output
    | .ok (.other debug) => .error (.execution debug)

/-- Every answer of the executor to the transaction of a request is the answer to the request. -/
def Predicts [RevmCall] (evmChainId : ℕ) (request : EvmCallRequest) (d : Disk) : Prop :=
  ∀ result d', execute evmChainId request.caller request.transaction d = .ok result d' →
    ethCall evmChainId request d.store = .ok result.output

/-! ## The classes of targets -/

section

variable [RevmCall]

omit [Hashing] in
/-- The caller of a request has no code that keeps it from sending. -/
def Accepted (request : EvmCallRequest) (s : Store) : Prop :=
  RevmCall.rejectsCaller (codeIn (loadDb s).existing request.caller) = false

omit [Hashing] in
/-- There is code at the target, and run on the stored accounts it returns an output. -/
def CodeReturns (evmChainId : ℕ) (request : EvmCallRequest) (s : Store) (output : Bytes) : Prop :=
  codeIn (loadDb s).existing request.recipient ≠ [] ∧
    ReturnsOutput
      (RevmCall.transact evmChainId (loadDb s).existing request.caller request.transaction) output

omit [Hashing] [RevmCall] in
/-- Where the interpreter commits the call and the balances can be stored, the call is a success. -/
def RunReturns (evmChainId : ℕ) (request : EvmCallRequest) (s : Store) : Prop :=
  ∀ result accounts,
    Revm.transactCommit evmChainId (loadDb s).existing request.caller request.transaction =
      .ok (result, accounts) → Storable accounts → ∃ output, ReturnsOutput (.ok result) output

/-- What has to hold for each class of targets so that `eth_call` predicts the executor. -/
def Predictable (evmChainId : ℕ) (request : EvmCallRequest) (s : Store) : Prop :=
  if request.recipient = mlDsaVerifyPrecompile then True
  else if request.recipient = sha256Precompile then
    Accepted request s ∧ Codec.array32 (sha3Hash request.data) = RevmCall.sha256 request.data
  else if request.recipient = identityPrecompile then Accepted request s
  else if request.recipient = blake3Precompile then
    CodeReturns evmChainId request s (Codec.array32 (hashBytes request.data))
  else if request.recipient = zkVerifyPrecompileAddress then
    CodeReturns evmChainId request s (zkVerifyPrecompile request.data)
  else RunReturns evmChainId request s

variable {evmChainId : ℕ} {request : EvmCallRequest} {d : Disk} {s : Store}

omit [Hashing] in
lemma ethCall_eq_ok_iff (h : request.recipient ≠ mlDsaVerifyPrecompile) {output : Bytes} :
    ethCall evmChainId request s = .ok output ↔
      ReturnsOutput
        (RevmCall.transact evmChainId (loadDb s).existing request.caller request.transaction)
        output := by
  rw [ethCall, if_neg h, ReturnsOutput]
  rcases RevmCall.transact evmChainId (loadDb s).existing request.caller request.transaction with
    message | ⟨gasUsed, result, a, logs⟩ | debug
  · exact iff_of_false nofun nofun
  · constructor
    · intro heq
      cases heq
      exact ⟨gasUsed, a, logs, rfl⟩
    · rintro ⟨gasUsed', a', logs', heq⟩
      cases heq
      rfl
  · exact iff_of_false nofun nofun

/-- Of a call that the executor answers itself there is one answer. -/
lemma predicts_iff_of_precompile {result : EvmCallResult}
    (h : precompile request.recipient request.data = some result) :
    Predicts evmChainId request d ↔ ethCall evmChainId request d.store = .ok result.output := by
  have hrun : execute evmChainId request.caller request.transaction d = .ok result d := by
    rw [execute, EvmCallRequest.transaction]
    dsimp only
    rw [h]
    rfl
  constructor
  · exact fun hpredicts => hpredicts result d hrun
  · intro hcall result' d' hrun'
    rw [hrun] at hrun'
    cases hrun'
    exact hcall

/-- All other calls are interpreted. -/
lemma predicts_iff_of_interpreted (h : request.recipient ∉ interceptedPrecompiles) :
    Predicts evmChainId request d ↔ ∀ result accounts,
      Revm.transactCommit evmChainId (loadDb d.store).existing request.caller request.transaction =
        .ok (result, accounts) → Storable accounts →
      ReturnsOutput
        (RevmCall.transact evmChainId (loadDb d.store).existing request.caller request.transaction)
        (decodeResult result).output := by
  have hnone : precompile request.recipient request.data = none := by
    rw [← Option.not_isSome_iff_eq_none, isSome_precompile]
    exact h
  have hrun : execute evmChainId request.caller request.transaction =
      interpret evmChainId request.caller request.transaction := by
    rw [execute, EvmCallRequest.transaction]
    dsimp only
    rw [hnone]
  have hother : request.recipient ≠ mlDsaVerifyPrecompile := by
    intro heq
    rw [heq] at h
    exact h (by decide)
  simp only [Predicts, hrun, ethCall_eq_ok_iff hother]
  constructor
  · intro hpredicts result accounts hcommit hstorable
    obtain ⟨d', hok⟩ := interpret_ok_iff.mpr ⟨result, accounts, hcommit, hstorable, rfl⟩
    exact hpredicts _ d' hok
  · intro hall r d' hok
    obtain ⟨result, accounts, hcommit, hstorable, rfl⟩ := interpret_ok_iff.mp ⟨d', hok⟩
    exact hall result accounts hcommit hstorable

omit [Hashing] in
/-- A caller whose call returns something may send. -/
lemma Accepted.of_returns (hrevm : Revm.Standard evmChainId) {output : Bytes}
    (h : ReturnsOutput
      (RevmCall.transact evmChainId (loadDb s).existing request.caller request.transaction) output) :
    Accepted request s := by
  refine Bool.eq_false_iff.mpr fun hrejects => ?_
  obtain ⟨message, herror⟩ := hrevm.rejected hrejects request.transaction
  obtain ⟨gasUsed, a, logs, hok⟩ := h
  rw [herror] at hok
  cases hok

omit [Hashing] [Revm] [RevmCall] in
lemma transaction_eq (hvalue : request.value.getD 0 = 0) : request.transaction =
    freeCall request.recipient request.data (request.gasLimit.getD 5000000) := by
  rw [EvmCallRequest.transaction, hvalue, freeCall]

omit [Hashing] in
/-- An address without code outside the standard precompiles returns nothing. -/
lemma CodeReturns.of_returns (hrevm : Revm.Standard evmChainId)
    (hvalue : request.value.getD 0 = 0)
    (hgas : callGas request.recipient request.data ≤ request.gasLimit.getD 5000000)
    (houtside : 10 < request.recipient) {output : Bytes} (hne : output ≠ [])
    (h : ReturnsOutput
      (RevmCall.transact evmChainId (loadDb s).existing request.caller request.transaction) output) :
    CodeReturns evmChainId request s output := by
  refine ⟨fun hcodeless => hne ?_, h⟩
  have hempty := hrevm.codeless (Accepted.of_returns hrevm h) hcodeless (.inr houtside) hgas
  rw [← transaction_eq hvalue] at hempty
  exact h.unique hempty

omit [Hashing] in
/-- A committed call predicts its output if it is a success. -/
lemma returnsOutput_decodeResult_iff (hrevm : Revm.Standard evmChainId) {result : ExecutionResult}
    {accounts : List (EvmAddress × RevmAccount)}
    (hcommit : Revm.transactCommit evmChainId (loadDb s).existing request.caller request.transaction =
      .ok (result, accounts)) :
    ReturnsOutput
      (RevmCall.transact evmChainId (loadDb s).existing request.caller request.transaction)
      (decodeResult result).output ↔ ∃ output, ReturnsOutput (.ok result) output := by
  rw [hrevm.transact_eq, hcommit]
  constructor
  · exact fun hreturns => ⟨_, hreturns⟩
  · rintro ⟨output, gasUsed, a, logs, heq⟩
    cases heq
    exact ⟨gasUsed, a, logs, rfl⟩

/-- Calls of addresses without code outside the precompiles are predicted. -/
lemma predictable_of_codeless (hrevm : Revm.Standard evmChainId)
    (hvalue : request.value.getD 0 = 0)
    (hgas : callGas request.recipient request.data ≤ request.gasLimit.getD 5000000)
    (hcodeless : codeIn (loadDb s).existing request.recipient = [])
    (houtside : request.recipient = 0 ∨ 10 < request.recipient)
    (hnot : request.recipient ∉ interceptedPrecompiles) : Predictable evmChainId request s := by
  simp only [interceptedPrecompiles, List.mem_cons, List.not_mem_nil, or_false, not_or] at hnot
  obtain ⟨hmlDsa, hsha256, hidentity, hblake3, hzk⟩ := hnot
  rw [Predictable, if_neg hmlDsa, if_neg hsha256, if_neg hidentity, if_neg hblake3, if_neg hzk]
  intro result accounts hcommit _
  have hrun : RevmCall.transact evmChainId (loadDb s).existing request.caller request.transaction =
      .ok result := by
    rw [hrevm.transact_eq, hcommit]
    rfl
  have haccepted : Accepted request s := by
    refine Bool.eq_false_iff.mpr fun hrejects => ?_
    obtain ⟨message, herror⟩ := hrevm.rejected hrejects request.transaction
    rw [hrun] at herror
    cases herror
  have hempty := hrevm.codeless haccepted hcodeless houtside hgas
  rw [← transaction_eq hvalue, hrun] at hempty
  exact ⟨[], hempty⟩

end

end

end EvmExecutor

open EvmExecutor in
/-- **When `eth_call` predicts the executor.**  For every store and every request without value and
with enough gas, the answer to the request is that of every successful execution exactly if the
condition for the class of the target holds. -/
theorem ethCall_predicts_iff [Hashing] [Revm] [RevmCall] {evmChainId : ℕ}
    (hrevm : Revm.Standard evmChainId) (request : EvmCallRequest) (d : Disk)
    (hvalue : request.value.getD 0 = 0)
    (hgas : callGas request.recipient request.data ≤ request.gasLimit.getD 5000000) :
    Predicts evmChainId request d ↔ Predictable evmChainId request d.store := by
  rw [Predictable]
  split_ifs with hmlDsa hsha256 hidentity hblake3 hzk
  · refine iff_of_true ?_ trivial
    rw [predicts_iff_of_precompile (by rw [precompile, if_pos hmlDsa]), ethCall, if_pos hmlDsa]
  · rw [predicts_iff_of_precompile (by rw [precompile, if_neg hmlDsa, if_pos hsha256]),
      ethCall_eq_ok_iff hmlDsa]
    dsimp only
    constructor
    · intro hreturns
      have haccepted := Accepted.of_returns hrevm hreturns
      rw [hsha256] at hgas
      have hrun := hrevm.sha256 haccepted hgas
      rw [← hsha256, ← transaction_eq hvalue] at hrun
      exact ⟨haccepted, hreturns.unique hrun⟩
    · rintro ⟨haccepted, heq⟩
      rw [hsha256] at hgas
      have hrun := hrevm.sha256 haccepted hgas
      rwa [← hsha256, ← transaction_eq hvalue, ← heq] at hrun
  · rw [predicts_iff_of_precompile
        (by rw [precompile, if_neg hmlDsa, if_neg hsha256, if_pos hidentity]),
      ethCall_eq_ok_iff hmlDsa]
    refine ⟨Accepted.of_returns hrevm, fun haccepted => ?_⟩
    rw [hidentity] at hgas
    have hrun := hrevm.identity haccepted hgas
    rwa [← hidentity, ← transaction_eq hvalue] at hrun
  · rw [predicts_iff_of_precompile (by
        rw [precompile, if_neg hmlDsa, if_neg hsha256, if_neg hidentity, if_pos hblake3]),
      ethCall_eq_ok_iff hmlDsa]
    refine ⟨CodeReturns.of_returns hrevm hvalue hgas (by rw [hblake3]; decide) ?_, fun h => h.2⟩
    exact List.ne_nil_of_length_pos (by rw [Codec.length_array32]; decide)
  · rw [predicts_iff_of_precompile (by
        rw [precompile, if_neg hmlDsa, if_neg hsha256, if_neg hidentity, if_neg hblake3, if_pos hzk]),
      ethCall_eq_ok_iff hmlDsa]
    refine ⟨CodeReturns.of_returns hrevm hvalue hgas (by rw [hzk]; decide) ?_, fun h => h.2⟩
    exact List.append_ne_nil_of_right_ne_nil _ (List.cons_ne_nil _ _)
  · rw [predicts_iff_of_interpreted (by
      simp [interceptedPrecompiles, hmlDsa, hsha256, hidentity, hblake3, hzk]), RunReturns]
    exact forall₂_congr fun result accounts => forall₂_congr fun hcommit _ =>
      returnsOutput_decodeResult_iff hrevm hcommit

/-! ## Calls of addresses without code -/

namespace PlainCalls

open TransferOnly

/-- The hash of the precompile at `0x02`; only its length is right. -/
def sha256 (_ : Bytes) : Bytes := List.replicate 32 0

/-- An interpreter for calls without value and gas price that run no code; it refuses everything
else. -/
def transact (db : BTreeMap EvmAddress RevmAccount) (caller : EvmAddress) (tx : EvmTransaction) :
    Except String ExecutionResult :=
  match tx.kind with
  | .create _ => .error "no code is run"
  | .call contract input =>
    if codeIn db caller ≠ [] ∨ tx.value ≠ 0 ∨ tx.gasPrice ≠ 0 ∨
        tx.gasLimit < callGas contract input then
      .error "refused"
    else if contract = sha256Precompile then
      .ok (.success (callGas contract input) (sha256 input) none [])
    else if contract = identityPrecompile then .ok (.success (callGas contract input) input none [])
    else if (contract ≠ 0 ∧ contract ≤ 10) ∨ codeIn db contract ≠ [] then .error "no code is run"
    else .ok (.success (callGas contract input) [] none [])

/-- The accounts after a call: the nonce of the caller is raised, the target and the zero address
are touched. -/
def accountsAfter (db : BTreeMap EvmAddress RevmAccount) (caller : EvmAddress) (tx : EvmTransaction) :
    List (EvmAddress × RevmAccount) :=
  match tx.kind with
  | .create _ => db.toList
  | .call contract _ => (credit (credit (charge db caller 0) contract 0) 0 0).toList

scoped instance (priority := 2000) revm : Revm :=
  { transactCommit := fun _ db caller tx =>
      (transact db caller tx).map fun result => (result, accountsAfter db caller tx)
    defaultScheme := Transparent.scheme }

scoped instance revmCall : RevmCall :=
  { transact := fun _ => transact, sha256, rejectsCaller := fun code => code ≠ [] }

lemma transact_freeCall {db : BTreeMap EvmAddress RevmAccount} {caller contract : EvmAddress}
    {input : Bytes} {gasLimit : ℕ} (hcaller : RevmCall.rejectsCaller (codeIn db caller) = false)
    (hgas : callGas contract input ≤ gasLimit) : transact db caller (freeCall contract input gasLimit) =
      if contract = sha256Precompile then
        .ok (.success (callGas contract input) (sha256 input) none [])
      else if contract = identityPrecompile then .ok (.success (callGas contract input) input none [])
      else if (contract ≠ 0 ∧ contract ≤ 10) ∨ codeIn db contract ≠ [] then .error "no code is run"
      else .ok (.success (callGas contract input) [] none []) := by
  have hcode : codeIn db caller = [] := by simpa [RevmCall.rejectsCaller] using hcaller
  rw [transact, freeCall]
  dsimp only
  rw [if_neg]
  simpa [hcode] using hgas

lemma standard (evmChainId : ℕ) : Revm.Standard evmChainId := by
  constructor
  · intro db caller tx
    change transact db caller tx = Except.map Prod.fst (Except.map _ (transact db caller tx))
    rcases transact db caller tx with message | result <;> rfl
  · intro db caller hrejects tx
    have hcode : codeIn db caller ≠ [] := by simpa [RevmCall.rejectsCaller] using hrejects
    change ∃ message, transact db caller tx = .error message
    rw [transact]
    split
    · exact ⟨_, rfl⟩
    · rw [if_pos (.inl hcode)]
      exact ⟨_, rfl⟩
  · intro db caller hcaller input gasLimit hgas
    change ReturnsOutput (transact db caller _) _
    rw [transact_freeCall hcaller hgas, if_pos rfl]
    exact ⟨_, _, _, rfl⟩
  · intro db caller hcaller input gasLimit hgas
    change ReturnsOutput (transact db caller _) _
    rw [transact_freeCall hcaller hgas, if_neg (by decide), if_pos rfl]
    exact ⟨_, _, _, rfl⟩
  · intro db caller hcaller contract hcodeless houtside input gasLimit hgas
    have hsha256 : contract ≠ sha256Precompile := by
      rintro rfl
      exact absurd houtside (by decide)
    have hidentity : contract ≠ identityPrecompile := by
      rintro rfl
      exact absurd houtside (by decide)
    have hstandard : ¬ ((contract ≠ 0 ∧ contract ≤ 10) ∨ codeIn db contract ≠ []) := by
      rintro (⟨hne, hle⟩ | hcode)
      · exact houtside.elim hne (BitVec.not_lt.mpr hle)
      · exact hcode hcodeless
    change ReturnsOutput (transact db caller _) _
    rw [transact_freeCall hcaller hgas, if_neg hsha256, if_neg hidentity, if_neg hstandard]
    exact ⟨_, _, _, rfl⟩

end PlainCalls

section

open Transparent PlainCalls EvmExecutor

/-- A disk without accounts. -/
def blankDisk : Disk := { store := { backend := .memory } }

/-- A call of an address by a caller whom the store does not know, with the default gas limit and
without data. -/
def plainRequest (recipient : EvmAddress) : EvmCallRequest :=
  { sender := some 7, recipient, data := [], gasLimit := none, value := none }

/-- The executor returns the hash of the empty string, `eth_call` nothing. -/
theorem blake3Request_not_predicted : Revm.Standard 1 ∧
    ¬ Predicts 1 (plainRequest blake3Precompile) blankDisk := by
  refine ⟨standard 1, fun hpredicts => ?_⟩
  have hcall : ethCall 1 (plainRequest blake3Precompile) blankDisk.store = .ok [] := by
    decide +kernel
  have hsame := (hpredicts _ _ rfl).symm.trans hcall
  exact absurd (Except.ok.inj hsame) (by decide)

/-- A call of an address without code is predicted. -/
theorem plainRequest_predicted : Predicts 1 (plainRequest 0x2000) blankDisk :=
  (ethCall_predicts_iff (standard 1) (plainRequest 0x2000) blankDisk rfl (by decide)).mpr
    (predictable_of_codeless (standard 1) rfl (by decide) (by decide +kernel) (.inr (by decide))
      (by decide))

end

end ZenoChain
