/-
# Raw transactions sent to a node

`execute_raw_ethereum_tx` over runs of calls.  The decoded nonce is passed on to nobody: neither the
executor nor the interpreter, in whose environment no nonce is set, compares it with that of the
sender, and calls of the precompiles that the executor answers itself leave all nonces alone.  So
replays are kept out exactly as far as the calls that are not refused carry the nonces of their
senders and call no such precompile.
-/
import ZenoChain.Base.Trace
import ZenoChain.Evm.Encodings

namespace ZenoChain

/-! ## Nonces -/

/-- The nonce of an account in a database of the interpreter. -/
def nonceIn (db : BTreeMap EvmAddress RevmAccount) (a : EvmAddress) : ℕ :=
  (db[a]?.map RevmAccount.nonce).getD 0

/-- The stored nonce of an EVM account. -/
def Store.evmNonce (s : Store) (a : EvmAddress) : ℕ :=
  (s.evmAccounts[a]?.map EvmAccountState.nonce).getD 0

/-- What the interpreter does to nonces, which are words of 64 bits: a transaction that is not
refused raises that of its caller, as far as possible, and lowers none.  Every account of the
database is listed once. -/
structure Revm.CountsNonces [Revm] (evmChainId : ℕ) : Prop where
  distinct : ∀ {db caller tx result accounts},
    Revm.transactCommit evmChainId db caller tx = .ok (result, accounts) →
    (accounts.map Prod.fst).Nodup
  keeps : ∀ {db caller tx result accounts},
    Revm.transactCommit evmChainId db caller tx = .ok (result, accounts) →
    ∀ e ∈ accounts, nonceIn db e.1 ≤ e.2.nonce
  raises : ∀ {db caller tx result accounts},
    Revm.transactCommit evmChainId db caller tx = .ok (result, accounts) →
    ∃ account, (caller, account) ∈ accounts ∧
      account.nonce =
        if nonceIn db caller + 1 < 2 ^ 64 then nonceIn db caller + 1 else nonceIn db caller

/-- The precompiles that the executor answers itself. -/
def interceptedPrecompiles : List EvmAddress :=
  [mlDsaVerifyPrecompile, sha256Precompile, identityPrecompile, blake3Precompile,
    zkVerifyPrecompileAddress]

namespace EvmExecutor

section

variable [Hashing]

lemma isSome_precompile [Revm] (contract : EvmAddress) (input : Bytes) :
    (precompile contract input).isSome ↔ contract ∈ interceptedPrecompiles := by
  simp only [precompile, interceptedPrecompiles, List.mem_cons, List.not_mem_nil, or_false]
  split_ifs <;> simp_all

lemma evmNonce_put (d : Disk) (a : EvmAddress) (account : EvmAccountState) (b : EvmAddress) :
    (d.record (.write (.putEvmAccount a account))).store.evmNonce b =
      if b = a then account.nonce else d.store.evmNonce b := by
  rw [Store.evmNonce, Disk.store_record_write, Store.apply, Table.getElem?_insert]
  split <;> rfl

/-- Accounts that are not written back keep their nonces. -/
lemma evmNonce_persistDb_of_not_mem {accounts : List (EvmAddress × RevmAccount)} {d : Disk}
    {a : EvmAddress} (ha : a ∉ accounts.map Prod.fst) :
    (Handler.final (persistDb accounts d)).store.evmNonce a = d.store.evmNonce a := by
  induction accounts generalizing d with
  | nil => rfl
  | cons entry accounts ih =>
    rw [List.map_cons, List.mem_cons, not_or] at ha
    rw [persistDb]
    split
    · rw [Handler.bind_ok (write_run _ d), ih ha.2, evmNonce_put, if_neg ha.1]
    · rfl

/-- All balances go into the stored records. -/
def Storable (accounts : List (EvmAddress × RevmAccount)) : Prop :=
  ∀ e ∈ accounts, e.2.balance < 2 ^ 128

/-- The accounts are written back if all of them can be stored. -/
lemma persistDb_ok_iff (accounts : List (EvmAddress × RevmAccount)) (d : Disk) :
    (∃ d', persistDb accounts d = .ok ⟨⟩ d') ↔ Storable accounts := by
  induction accounts generalizing d with
  | nil => exact iff_of_true ⟨d, rfl⟩ (List.forall_mem_nil _)
  | cons entry accounts ih =>
    rw [persistDb, Storable, List.forall_mem_cons]
    by_cases hbalance : entry.2.balance < 2 ^ 128
    · rw [if_pos hbalance, Handler.bind_ok (write_run _ d), ih]
      exact (and_iff_right hbalance).symm
    · rw [if_neg hbalance]
      exact iff_of_false (by rintro ⟨_, h⟩; cases h) fun h => hbalance h.1

/-- Accounts with nonces that are not lower lower no stored nonce. -/
lemma evmNonce_le_persistDb {accounts : List (EvmAddress × RevmAccount)} {d : Disk}
    (hdistinct : (accounts.map Prod.fst).Nodup)
    (hkeeps : ∀ e ∈ accounts, d.store.evmNonce e.1 ≤ e.2.nonce) (a : EvmAddress) :
    d.store.evmNonce a ≤ (Handler.final (persistDb accounts d)).store.evmNonce a := by
  induction accounts generalizing d with
  | nil => exact le_rfl
  | cons entry accounts ih =>
    obtain ⟨b, account⟩ := entry
    rw [List.map_cons, List.nodup_cons] at hdistinct
    rw [List.forall_mem_cons] at hkeeps
    rw [persistDb]
    split
    · rw [Handler.bind_ok (write_run _ d)]
      have hnonce := evmNonce_put d b
        { nonce := account.nonce, balance := account.balance, code := account.code,
          storage := account.storage }
      refine le_trans ?_ (ih hdistinct.2 fun e he => ?_)
      · rw [hnonce]
        split
        · rename_i ha
          rw [ha]
          exact hkeeps.1
        · exact le_rfl
      · -- The accounts are distinct, so that those after the first one are as before.
        have hother : e.1 ≠ b := by
          have hmem := List.mem_map_of_mem (f := Prod.fst) he
          exact fun heq => hdistinct.1 (heq ▸ hmem)
        rw [hnonce, if_neg hother]
        exact hkeeps.2 e he
    · exact le_rfl

/-- The stored nonces are those of the accounts that have been written back. -/
lemma evmNonce_of_persistDb {accounts : List (EvmAddress × RevmAccount)} {d d' : Disk}
    (hdistinct : (accounts.map Prod.fst).Nodup) (h : persistDb accounts d = .ok ⟨⟩ d') :
    ∀ e ∈ accounts, d'.store.evmNonce e.1 = e.2.nonce := by
  induction accounts generalizing d with
  | nil => exact nofun
  | cons entry accounts ih =>
    obtain ⟨a, account⟩ := entry
    rw [List.map_cons, List.nodup_cons] at hdistinct
    rw [persistDb] at h
    split at h
    · rw [Handler.bind_ok (write_run _ d)] at h
      refine List.forall_mem_cons.mpr ⟨?_, ih hdistinct.2 h⟩
      have hrest := evmNonce_persistDb_of_not_mem (d := d.record (.write (.putEvmAccount a
        { nonce := account.nonce, balance := account.balance, code := account.code,
          storage := account.storage }))) hdistinct.1
      rwa [h, Handler.final_ok, evmNonce_put, if_pos rfl] at hrest
    · cases h

omit [Hashing] in
/-- The database that a transaction meets has the stored nonces. -/
lemma nonceIn_loadDb (s : Store) (a : EvmAddress) : nonceIn (loadDb s).existing a = s.evmNonce a := by
  rw [nonceIn, getElem?_existing_loadDb, Option.map_map, Store.evmNonce]
  rfl

/-! ## One call -/

variable [Revm] [EthLibrary]

/-- A decoded transaction as the executor takes it. -/
def rawEvmTransaction (tx : DecodedEthTx) : EvmTransaction :=
  { kind := match tx.recipient with
      | some contract => .call contract tx.data
      | none => .create tx.data
    value := tx.value, gasLimit := tx.gasLimit, gasPrice := tx.gasPrice }

/-- Decodes and executes a raw Ethereum transaction, with its hash. -/
def executeRawEthereumTx (build : EthTx.Build) (evmChainId : ℕ) (rawHex : String) (d : Disk) :
    Outcome EvmError (Hash32 × EvmCallResult) × Disk :=
  match EthTx.decodeRawTx build rawHex with
  | .panic => (.panic, d)
  | .error e => (.error (.execution ("tx decode failed: " ++ e)), d)
  | .ok decoded =>
    if decoded.chainId ≠ evmChainId then
      (.error (.execution ("chain id mismatch: expected " ++ toString evmChainId ++ ", got " ++
        toString decoded.chainId)), d)
    else match execute evmChainId decoded.sender (rawEvmTransaction decoded) d with
      | .ok result d' => (.ok (decoded.txHash, result), d')
      | .error e d' => (.error e, d')

omit [Hashing] [Revm] [EthLibrary] in
/-- The executor answers the call itself. -/
def Intercepted (tx : DecodedEthTx) : Prop := ∃ contract ∈ interceptedPrecompiles,
  tx.recipient = some contract

omit [Hashing] [EthLibrary] in
/-- The interpreter refuses the transaction, or it leaves a balance that cannot be stored. -/
def Refuses (evmChainId : ℕ) (s : Store) (tx : DecodedEthTx) : Prop :=
  ¬ Intercepted tx ∧ ∀ result accounts,
    Revm.transactCommit evmChainId (loadDb s).existing tx.sender (rawEvmTransaction tx) =
      .ok (result, accounts) → ∃ e ∈ accounts, ¬ e.2.balance < 2 ^ 128

omit [EthLibrary] in
lemma execute_of_intercepted {tx : DecodedEthTx} (h : Intercepted tx) (evmChainId : ℕ) (d : Disk) :
    ∃ result, execute evmChainId tx.sender (rawEvmTransaction tx) d = .ok result d := by
  obtain ⟨contract, hmem, hrecipient⟩ := h
  obtain ⟨result, hresult⟩ :=
    Option.isSome_iff_exists.mp ((isSome_precompile contract tx.data).mpr hmem)
  refine ⟨result, ?_⟩
  rw [execute, rawEvmTransaction, hrecipient]
  dsimp only
  rw [hresult]
  rfl

omit [EthLibrary] in
lemma execute_of_not_intercepted {tx : DecodedEthTx} (h : ¬ Intercepted tx) (evmChainId : ℕ) :
    execute evmChainId tx.sender (rawEvmTransaction tx) =
      interpret evmChainId tx.sender (rawEvmTransaction tx) := by
  rw [execute]
  rcases hrecipient : tx.recipient with _ | contract
  · rw [rawEvmTransaction, hrecipient]
  · have hnone : precompile contract tx.data = none := by
      refine Option.not_isSome_iff_eq_none.mp fun hsome => h ⟨contract, ?_, hrecipient⟩
      exact (isSome_precompile contract tx.data).mp hsome
    rw [rawEvmTransaction, hrecipient]
    dsimp only
    rw [hnone]

omit [EthLibrary] in
/-- **One execution.**  A call of an intercepted precompile succeeds and changes nothing; a refused
transaction fails and lowers no nonce; any other one succeeds, lowers no nonce and raises that of its
sender. -/
lemma execute_cases {evmChainId : ℕ} (hrevm : Revm.CountsNonces evmChainId) (tx : DecodedEthTx)
    (d : Disk) :
    (Intercepted tx ∧
      ∃ result, execute evmChainId tx.sender (rawEvmTransaction tx) d = .ok result d) ∨
    (Refuses evmChainId d.store tx ∧ ∃ e d',
      execute evmChainId tx.sender (rawEvmTransaction tx) d = .error e d' ∧
        ∀ a, d.store.evmNonce a ≤ d'.store.evmNonce a) ∨
    (¬ Intercepted tx ∧ ¬ Refuses evmChainId d.store tx ∧ ∃ result d',
      execute evmChainId tx.sender (rawEvmTransaction tx) d = .ok result d' ∧
        (∀ a, d.store.evmNonce a ≤ d'.store.evmNonce a) ∧
        d'.store.evmNonce tx.sender = if d.store.evmNonce tx.sender + 1 < 2 ^ 64 then
          d.store.evmNonce tx.sender + 1 else d.store.evmNonce tx.sender) := by
  by_cases hintercepted : Intercepted tx
  · exact .inl ⟨hintercepted, execute_of_intercepted hintercepted evmChainId d⟩
  · refine .inr ?_
    rw [execute_of_not_intercepted hintercepted]
    rcases hcommit : Revm.transactCommit evmChainId (loadDb d.store).existing tx.sender
        (rawEvmTransaction tx) with message | ⟨result, accounts⟩
    · refine .inl ⟨⟨hintercepted, fun result accounts hok => ?_⟩, .execution message, d, ?_,
        fun a => le_rfl⟩
      · rw [hcommit] at hok
        cases hok
      · rw [interpret_eq, hcommit]
    · have hrun : interpret evmChainId tx.sender (rawEvmTransaction tx) d =
          (persistDb accounts >>= fun _ => pure (decodeResult result)) d := by
        rw [interpret_eq, hcommit]
      have hkeeps := hrevm.keeps hcommit
      simp only [nonceIn_loadDb] at hkeeps
      have hdistinct := hrevm.distinct hcommit
      have hmono := evmNonce_le_persistDb hdistinct hkeeps
      rcases hpersist : persistDb accounts d with ⟨⟨⟩, d'⟩ | ⟨e, d'⟩
      · have hall : Storable accounts := (persistDb_ok_iff accounts d).mp ⟨d', hpersist⟩
        rw [hpersist, Handler.final_ok] at hmono
        refine .inr ⟨hintercepted, fun hrefuses => ?_, decodeResult result, d', ?_, hmono, ?_⟩
        · obtain ⟨e, he, hbig⟩ := hrefuses.2 result accounts hcommit
          exact hbig (hall e he)
        · rw [hrun, Handler.bind_ok hpersist]
          rfl
        · obtain ⟨account, hmem, hnonce⟩ := hrevm.raises hcommit
          rw [nonceIn_loadDb] at hnonce
          exact (evmNonce_of_persistDb hdistinct hpersist _ hmem).trans hnonce
      · have hlarge : ¬ Storable accounts := by
          rw [← persistDb_ok_iff accounts d, hpersist]
          rintro ⟨_, hok⟩
          cases hok
        rw [hpersist, Handler.final_error] at hmono
        refine .inl ⟨⟨hintercepted, fun result' accounts' hok => ?_⟩, e, d', ?_, hmono⟩
        · rw [hcommit] at hok
          obtain ⟨rfl, rfl⟩ := Prod.mk.inj (Except.ok.inj hok)
          simpa [Storable] using hlarge
        · rw [hrun, Handler.bind_error hpersist]

/-! ## Runs of calls -/

section

variable (build : EthTx.Build) (evmChainId : ℕ)

/-- The disk after a call. -/
def sendRaw (d : Disk) (rawHex : String) : Disk := (executeRawEthereumTx build evmChainId rawHex d).2

/-- The transaction is executed. -/
def Executes (d : Disk) (rawHex : String) : Prop :=
  ∃ r, (executeRawEthereumTx build evmChainId rawHex d).1 = .ok r

omit [Hashing] [Revm] in
/-- The sender and the nonce of a raw transaction. -/
def sentBy (rawHex : String) : Option (EvmAddress × ℕ) :=
  (EthTx.decodeRawTx build rawHex).value?.map fun tx => (tx.sender, tx.nonce)

/-- If the transaction is executed, it carries the stored nonce of its sender, which has grown
afterwards. -/
def Guarded (d : Disk) (rawHex : String) : Prop :=
  Executes build evmChainId d rawHex → ∀ tx, EthTx.decodeRawTx build rawHex = .ok tx →
    tx.nonce = d.store.evmNonce tx.sender ∧
      d.store.evmNonce tx.sender < (sendRaw build evmChainId d rawHex).store.evmNonce tx.sender

omit [Hashing] in
/-- A transaction for the chain is refused by the interpreter, or it calls no intercepted precompile
and carries the stored nonce of its sender, which is not the greatest one. -/
def Regular (d : Disk) (rawHex : String) : Prop :=
  ∀ tx, EthTx.decodeRawTx build rawHex = .ok tx → tx.chainId = evmChainId →
    Refuses evmChainId d.store tx ∨
      (¬ Intercepted tx ∧ tx.nonce = d.store.evmNonce tx.sender ∧ tx.nonce + 1 < 2 ^ 64)

end

variable {build : EthTx.Build} {evmChainId : ℕ} {d : Disk} {rawHex : String}

/-- A call that decodes for the chain does what the executor does. -/
lemma executeRawEthereumTx_eq {tx : DecodedEthTx} (htx : EthTx.decodeRawTx build rawHex = .ok tx)
    (hchain : tx.chainId = evmChainId) : executeRawEthereumTx build evmChainId rawHex d =
      match execute evmChainId tx.sender (rawEvmTransaction tx) d with
      | .ok result d' => (.ok (tx.txHash, result), d')
      | .error e d' => (.error e, d') := by
  rw [executeRawEthereumTx, htx]
  dsimp only
  rw [if_neg (not_not.mpr hchain)]

/-- A call that does not decode for the chain is an error and changes nothing. -/
lemma executeRawEthereumTx_refused (h : ∀ tx, EthTx.decodeRawTx build rawHex = .ok tx →
    tx.chainId ≠ evmChainId) :
    (executeRawEthereumTx build evmChainId rawHex d).2 = d ∧ ¬ Executes build evmChainId d rawHex := by
  rw [Executes, executeRawEthereumTx]
  rcases htx : EthTx.decodeRawTx build rawHex with tx | e | _
  · dsimp only
    rw [if_pos (h tx htx)]
    exact ⟨rfl, nofun⟩
  · exact ⟨rfl, nofun⟩
  · exact ⟨rfl, nofun⟩

/-- The transaction that an executed call has decoded. -/
lemma Executes.decoded (h : Executes build evmChainId d rawHex) :
    ∃ tx, EthTx.decodeRawTx build rawHex = .ok tx ∧ tx.chainId = evmChainId ∧
      ∃ result d', execute evmChainId tx.sender (rawEvmTransaction tx) d = .ok result d' ∧
        sendRaw build evmChainId d rawHex = d' := by
  by_contra hnot
  by_cases hrefused : ∀ tx, EthTx.decodeRawTx build rawHex = .ok tx → tx.chainId ≠ evmChainId
  · exact (executeRawEthereumTx_refused hrefused).2 h
  · push Not at hrefused
    obtain ⟨tx, htx, hchain⟩ := hrefused
    obtain ⟨r, hr⟩ := h
    have heq := executeRawEthereumTx_eq (d := d) htx hchain
    rcases hrun : execute evmChainId tx.sender (rawEvmTransaction tx) d with ⟨result, d'⟩ | ⟨e, d'⟩
    · rw [hrun] at heq
      exact hnot ⟨tx, htx, hchain, result, d', hrun, congrArg Prod.snd heq⟩
    · rw [heq, hrun] at hr
      cases hr

/-- No call lowers a nonce. -/
lemma evmNonce_le_sendRaw (hrevm : Revm.CountsNonces evmChainId) (d : Disk) (rawHex : String)
    (a : EvmAddress) : d.store.evmNonce a ≤ (sendRaw build evmChainId d rawHex).store.evmNonce a := by
  by_cases hrefused : ∀ tx, EthTx.decodeRawTx build rawHex = .ok tx → tx.chainId ≠ evmChainId
  · rw [sendRaw, (executeRawEthereumTx_refused hrefused).1]
  · push Not at hrefused
    obtain ⟨tx, htx, hchain⟩ := hrefused
    rw [sendRaw, executeRawEthereumTx_eq htx hchain]
    rcases execute_cases hrevm tx d with ⟨-, result, hok⟩ | ⟨-, e, d', herror, hmono⟩ |
      ⟨-, -, result, d', hok, hmono, -⟩
    · rw [hok]
    · rw [herror]
      exact hmono a
    · rw [hok]
      exact hmono a

/-- **One call.**  The nonce is checked and advanced exactly if the call is regular. -/
lemma guarded_iff (hrevm : Revm.CountsNonces evmChainId) (d : Disk) (rawHex : String) :
    Guarded build evmChainId d rawHex ↔ Regular build evmChainId d rawHex := by
  constructor
  · intro hguarded tx htx hchain
    have heq := executeRawEthereumTx_eq (d := d) htx hchain
    rcases execute_cases hrevm tx d with ⟨-, result, hok⟩ | ⟨hrefuses, -⟩ |
      ⟨hnot, -, result, d', hok, -, hnonce⟩
    · -- The nonce has not grown.
      rw [hok] at heq
      have hgrown := (hguarded ⟨_, congrArg Prod.fst heq⟩ tx htx).2
      rw [sendRaw, heq] at hgrown
      exact absurd hgrown (lt_irrefl _)
    · exact .inl hrefuses
    · rw [hok] at heq
      obtain ⟨hcarried, hgrown⟩ := hguarded ⟨_, congrArg Prod.fst heq⟩ tx htx
      rw [sendRaw, heq, hnonce] at hgrown
      refine .inr ⟨hnot, hcarried, ?_⟩
      rw [hcarried]
      by_contra hlast
      rw [if_neg hlast] at hgrown
      exact lt_irrefl _ hgrown
  · intro hregular hexecutes tx htx
    obtain ⟨tx', htx', hchain, result, d', hok, hsend⟩ := hexecutes.decoded
    obtain rfl := Outcome.ok.inj (htx'.symm.trans htx)
    rw [hsend]
    rcases execute_cases hrevm tx' d with ⟨hintercepted, -⟩ | ⟨-, e, d'', herror, -⟩ |
      ⟨-, hnot, result', d'', hok', -, hnonce⟩
    · rcases hregular tx' htx hchain with hrefuses | ⟨hnot, -⟩
      · exact absurd hintercepted hrefuses.1
      · exact absurd hintercepted hnot
    · rw [hok] at herror
      cases herror
    · rcases hregular tx' htx hchain with hrefuses | ⟨-, hcarried, hlast⟩
      · exact absurd hrefuses hnot
      · rw [hok] at hok'
        cases hok'
        rw [hcarried] at hlast
        rw [hnonce, if_pos hlast]
        exact ⟨hcarried, Nat.lt_succ_self _⟩

/-- The call succeeds. -/
def succeeds (build : EthTx.Build) (evmChainId : ℕ) (e : Disk × String) : Bool :=
  match (executeRawEthereumTx build evmChainId e.2 e.1).1 with
  | .ok _ => true
  | _ => false

lemma succeeds_iff {e : Disk × String} :
    succeeds build evmChainId e = true ↔ Executes build evmChainId e.1 e.2 := by
  rw [succeeds, Executes]
  rcases (executeRawEthereumTx build evmChainId e.2 e.1).1 with r | _ | _
  · exact iff_of_true rfl ⟨r, rfl⟩
  · exact iff_of_false nofun nofun
  · exact iff_of_false nofun nofun

/-- The raw transactions that are executed in a run of calls, in order. -/
def ran (build : EthTx.Build) (evmChainId : ℕ) (d : Disk) (raws : List String) : List String :=
  ((Trace.along (sendRaw build evmChainId) d raws).filter (succeeds build evmChainId)).map Prod.snd

lemma ran_cons_of_executes (h : Executes build evmChainId d rawHex) (raws : List String) :
    ran build evmChainId d (rawHex :: raws) =
      rawHex :: ran build evmChainId (sendRaw build evmChainId d rawHex) raws := by
  have hsucceeds : succeeds build evmChainId (d, rawHex) = true := succeeds_iff.mpr h
  rw [ran, Trace.along, List.filter_cons_of_pos hsucceeds, List.map_cons, ran]

lemma ran_cons_of_not_executes (h : ¬ Executes build evmChainId d rawHex) (raws : List String) :
    ran build evmChainId d (rawHex :: raws) =
      ran build evmChainId (sendRaw build evmChainId d rawHex) raws := by
  have hsucceeds : ¬ succeeds build evmChainId (d, rawHex) = true := by
    rw [succeeds_iff]
    exact h
  rw [ran, Trace.along, List.filter_cons_of_neg hsucceeds, ran]

/-- In a guarded run an executed transaction does not carry a nonce below the one that its sender
starts with, so none is executed twice. -/
lemma nodup_ran (hrevm : Revm.CountsNonces evmChainId) {raws : List String}
    (hguarded : ∀ e ∈ Trace.along (sendRaw build evmChainId) d raws,
      Guarded build evmChainId e.1 e.2) :
    (∀ rawHex ∈ ran build evmChainId d raws, ∃ a n, sentBy build rawHex = some (a, n) ∧
      d.store.evmNonce a ≤ n) ∧
    ((ran build evmChainId d raws).map (sentBy build)).Nodup := by
  induction raws generalizing d with
  | nil => exact ⟨fun rawHex h => (List.not_mem_nil h).elim, List.nodup_nil⟩
  | cons rawHex raws ih =>
    rw [Trace.along, List.forall_mem_cons] at hguarded
    obtain ⟨(hfirst : Guarded build evmChainId d rawHex), hrest⟩ := hguarded
    obtain ⟨hlow, hnodup⟩ := ih hrest
    have hlater : ∀ rawHex' ∈ ran build evmChainId (sendRaw build evmChainId d rawHex) raws,
        ∃ a n, sentBy build rawHex' = some (a, n) ∧ d.store.evmNonce a ≤ n := by
      intro rawHex' h'
      obtain ⟨a, n, hsent, hle⟩ := hlow rawHex' h'
      exact ⟨a, n, hsent, (evmNonce_le_sendRaw hrevm d rawHex a).trans hle⟩
    by_cases hexecutes : Executes build evmChainId d rawHex
    · obtain ⟨tx, htx, -, -⟩ := hexecutes.decoded
      obtain ⟨hcarried, hgrown⟩ := hfirst hexecutes tx htx
      have hsent : sentBy build rawHex = some (tx.sender, tx.nonce) := by
        rw [sentBy, htx]
        rfl
      rw [ran_cons_of_executes hexecutes]
      refine ⟨List.forall_mem_cons.mpr ⟨⟨_, _, hsent, hcarried.ge⟩, hlater⟩, ?_⟩
      rw [List.map_cons, List.nodup_cons]
      refine ⟨fun hmem => ?_, hnodup⟩
      obtain ⟨rawHex', h', hsame⟩ := List.mem_map.mp hmem
      obtain ⟨a, n, hsent', hle⟩ := hlow rawHex' h'
      rw [hsent', hsent] at hsame
      obtain ⟨rfl, rfl⟩ := Prod.mk.inj (Option.some.inj hsame)
      omega
    · rw [ran_cons_of_not_executes hexecutes]
      exact ⟨hlater, hnodup⟩

end

end EvmExecutor

/-- **When raw transactions are executed once.**  In a run of calls from any store, every executed
transaction carries the stored nonce of its sender and raises it, and no two executed transactions
have the same sender and nonce, exactly if every call is regular. -/
theorem sendRaw_once_iff [Hashing] [Revm] [EthLibrary] (build : EthTx.Build) {evmChainId : ℕ}
    (hrevm : Revm.CountsNonces evmChainId) (d : Disk) (raws : List String) :
    ((∀ e ∈ Trace.along (EvmExecutor.sendRaw build evmChainId) d raws,
        EvmExecutor.Guarded build evmChainId e.1 e.2) ∧
      ((EvmExecutor.ran build evmChainId d raws).map (EvmExecutor.sentBy build)).Nodup ∧
      (EvmExecutor.ran build evmChainId d raws).Nodup) ↔
    ∀ e ∈ Trace.along (EvmExecutor.sendRaw build evmChainId) d raws,
      EvmExecutor.Regular build evmChainId e.1 e.2 := by
  have hiff : (∀ e ∈ Trace.along (EvmExecutor.sendRaw build evmChainId) d raws,
        EvmExecutor.Guarded build evmChainId e.1 e.2) ↔
      ∀ e ∈ Trace.along (EvmExecutor.sendRaw build evmChainId) d raws,
        EvmExecutor.Regular build evmChainId e.1 e.2 :=
    forall₂_congr fun e _ => EvmExecutor.guarded_iff hrevm e.1 e.2
  rw [← hiff]
  constructor
  · exact fun h => h.1
  · intro hguarded
    obtain ⟨-, hnodup⟩ := EvmExecutor.nodup_ran hrevm hguarded
    exact ⟨hguarded, hnodup, hnodup.of_map _⟩

/-! ## A payment sent twice -/

namespace TransferOnly

/-- An account of a database; an empty one if there is none. -/
def accountOf (db : BTreeMap EvmAddress RevmAccount) (a : EvmAddress) : RevmAccount :=
  db[a]?.getD { nonce := 0, balance := 0, code := [], storage := ∅ }

/-- Adds to the balance of an account. -/
def credit (db : BTreeMap EvmAddress RevmAccount) (a : EvmAddress) (amount : ℕ) :
    BTreeMap EvmAddress RevmAccount :=
  db.insert a { accountOf db a with balance := (accountOf db a).balance + amount }

/-- Takes the costs of a transaction from its caller and raises the nonce of the caller. -/
def charge (db : BTreeMap EvmAddress RevmAccount) (caller : EvmAddress) (cost : ℕ) :
    BTreeMap EvmAddress RevmAccount :=
  let account := accountOf db caller
  db.insert caller { account with
    nonce := if account.nonce + 1 < 2 ^ 64 then account.nonce + 1 else account.nonce
    balance := account.balance - cost }

/-- An interpreter for payments without data to accounts without code; it refuses everything
else.  Fees go to the zero address. -/
def transactCommit (db : BTreeMap EvmAddress RevmAccount) (caller : EvmAddress) (tx : EvmTransaction) :
    Except String (ExecutionResult × List (EvmAddress × RevmAccount)) :=
  match tx.kind with
  | .create _ => .error "no code is run"
  | .call contract input =>
    let fee := 21000 * tx.gasPrice
    if input ≠ [] ∨ (accountOf db contract).code ≠ [] ∨ (accountOf db caller).code ≠ [] ∨
        tx.gasLimit < 21000 ∨ (accountOf db caller).balance < tx.value + fee then
      .error "refused"
    else .ok (.success 21000 [] none [],
      (credit (credit (charge db caller (tx.value + fee)) contract tx.value) 0 fee).toList)

scoped instance (priority := 2000) revm : Revm :=
  { transactCommit := fun _ => transactCommit, defaultScheme := Transparent.scheme }

lemma nonceIn_credit (db : BTreeMap EvmAddress RevmAccount) (a b : EvmAddress) (amount : ℕ) :
    nonceIn (credit db a amount) b = nonceIn db b := by
  rw [nonceIn, credit, Table.getElem?_insert, nonceIn]
  split
  · rename_i hb
    rw [hb, accountOf]
    rcases db[a]? with _ | account <;> rfl
  · rfl

lemma nonceIn_charge (db : BTreeMap EvmAddress RevmAccount) (caller b : EvmAddress) (cost : ℕ) :
    nonceIn (charge db caller cost) b = if b = caller then
      if nonceIn db caller + 1 < 2 ^ 64 then nonceIn db caller + 1 else nonceIn db caller
    else nonceIn db b := by
  have hnonce : (accountOf db caller).nonce = nonceIn db caller := by
    rw [accountOf, nonceIn]
    rcases db[caller]? with _ | account <;> rfl
  rw [nonceIn, charge, Table.getElem?_insert]
  split
  · rw [Option.map_some, Option.getD_some, hnonce]
  · rfl

lemma countsNonces (evmChainId : ℕ) : Revm.CountsNonces evmChainId := by
  -- The accounts are the entries of a table; only the nonce of the caller is another one.
  have hcommit : ∀ {db caller tx result accounts},
      Revm.transactCommit evmChainId db caller tx = .ok (result, accounts) →
      ∃ t : BTreeMap EvmAddress RevmAccount, accounts = t.toList ∧ t[caller]?.isSome ∧ ∀ b,
        nonceIn t b = if b = caller then
          if nonceIn db caller + 1 < 2 ^ 64 then nonceIn db caller + 1 else nonceIn db caller
        else nonceIn db b := by
    intro db caller tx result accounts hok
    replace hok : transactCommit db caller tx = .ok (result, accounts) := hok
    rw [transactCommit] at hok
    split at hok
    · cases hok
    · dsimp only at hok
      split at hok
      · cases hok
      · obtain ⟨-, rfl⟩ := Prod.mk.inj (Except.ok.inj hok)
        refine ⟨_, rfl, ?_, fun b => ?_⟩
        · rw [credit, Table.getElem?_insert]
          split
          · rfl
          · rw [credit, Table.getElem?_insert]
            split
            · rfl
            · rw [charge, Table.getElem?_insert, if_pos rfl]
              rfl
        · rw [nonceIn_credit, nonceIn_credit, nonceIn_charge]
  have hentry : ∀ {t : BTreeMap EvmAddress RevmAccount} {a account}, t[a]? = some account →
      account.nonce = nonceIn t a := by
    intro t a account h
    rw [nonceIn, h]
    rfl
  constructor
  · intro db caller tx result accounts hok
    obtain ⟨t, rfl, -⟩ := hcommit hok
    rw [Std.ExtTreeMap.map_fst_toList_eq_keys]
    exact Std.ExtTreeMap.nodup_keys
  · intro db caller tx result accounts hok e he
    obtain ⟨t, rfl, -, hnonce⟩ := hcommit hok
    rw [hentry (Table.mem_toList_iff.mp he), hnonce]
    split
    · rename_i hcaller
      rw [hcaller]
      split <;> omega
    · exact le_rfl
  · intro db caller tx result accounts hok
    obtain ⟨t, rfl, hsome, hnonce⟩ := hcommit hok
    obtain ⟨account, haccount⟩ := Option.isSome_iff_exists.mp hsome
    refine ⟨account, Table.mem_toList_iff.mpr haccount, ?_⟩
    rw [hentry haccount, hnonce, if_pos rfl]

end TransferOnly

section

open Transparent TransferOnly EthTx

/-- The raw string of a payment with the nonce 0. -/
def rawPayment : String := hexEncode (legacyPayment.signed plainSignature)

/-- A disk on which the sender of the payment has money and the nonce 0. -/
def payerDisk : Disk :=
  { store :=
      { backend := .memory
        evmAccounts := (∅ : BTreeMap EvmAddress EvmAccountState).insert decodedPayment.sender
          { nonce := 0, balance := 1000000, code := [], storage := ∅ } } }

/-- Sent twice, the payment is executed twice. -/
theorem rawPayment_twice :
    EvmExecutor.ran .checked 1 payerDisk [rawPayment, rawPayment] = [rawPayment, rawPayment] := by
  decide +kernel

/-- Sent once, the payment is executed once. -/
theorem rawPayment_once : (EvmExecutor.ran .checked 1 payerDisk [rawPayment]).Nodup := by
  have hregular : ∀ e ∈ Trace.along (EvmExecutor.sendRaw .checked 1) payerDisk [rawPayment],
      EvmExecutor.Regular .checked 1 e.1 e.2 := by
    rw [Trace.along, Trace.along, List.forall_mem_singleton]
    have hdecoded : decodeRawTx .checked rawPayment = .ok decodedPayment := by decide +kernel
    intro tx htx _
    obtain rfl := Outcome.ok.inj (hdecoded.symm.trans htx)
    refine .inr ⟨?_, rfl, Nat.one_lt_two_pow (by decide)⟩
    rintro ⟨contract, hmem, hrecipient⟩
    rw [← Option.some.inj hrecipient] at hmem
    exact absurd hmem (by decide)
  exact ((sendRaw_once_iff .checked (countsNonces 1) payerDisk [rawPayment]).mpr hregular).2.2

end

end ZenoChain
