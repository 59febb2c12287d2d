/-
# Embedded EVM executor

`EvmExecutor::execute` with the precompiles of the chain.  The interpreter itself, `revm`,
and the default signature scheme behind the signature precompile are third-party code,
given by the class `Revm`; what is loaded into the interpreter and what is written back is
as in the source.  The database between them is the in-memory one of `revm`, as far as the
executor uses it: it remembers which accounts were asked for in vain, and an account that is set
after that stays unseen.
-/
import ZenoChain.Chain.Primitives
import ZenoChain.Zk.Pool

namespace ZenoChain

/-- An account in the database of the interpreter; balances have 256 bits. -/
structure RevmAccount where
  nonce : ℕ
  balance : ℕ
  code : Bytes
  storage : BTreeMap Hash32 Hash32

/-- An entry of the in-memory database. -/
structure DbAccount where
  info : RevmAccount
  /-- The account was looked up before anything was known of it. -/
  notExisting : Bool

/-- The in-memory database of the interpreter. -/
structure InMemoryDb where
  accounts : BTreeMap EvmAddress DbAccount

/-- The outcome of a committed transaction: a success, or the debug text of another outcome. -/
inductive ExecutionResult
  | success (gasUsed : ℕ) (output : Bytes) (contractAddress : Option EvmAddress)
      (logs : List EvmLog)
  | other (debug : String)

/-- The third-party code behind the executor. -/
class Revm where
  /-- Runs a transaction of a caller on the accounts that exist in a database, under a chain id;
  gives back the accounts of the database afterwards in the order in which they are iterated. -/
  transactCommit : ℕ → BTreeMap EvmAddress RevmAccount → EvmAddress → EvmTransaction →
    Except String (ExecutionResult × List (EvmAddress × RevmAccount))
  /-- The default signature scheme. -/
  defaultScheme : SignatureScheme

/-- EVM execution errors. -/
inductive EvmError
  | contractNotFound
  | execution (message : String)
deriving DecidableEq, Repr

/-- The display text of an EVM error. -/
def EvmError.toText : EvmError → String
  | contractNotFound => "contract not found"
  | execution message => "evm execution failed: " ++ message

/-- Reserved address of the signature verification precompile. -/
def mlDsaVerifyPrecompile : EvmAddress := 0x1001

/-- SHA-256 precompile. -/
def sha256Precompile : EvmAddress := 0x02

/-- Identity precompile. -/
def identityPrecompile : EvmAddress := 0x04

/-- BLAKE3 hash precompile. -/
def blake3Precompile : EvmAddress := 0x1002

/-- ZK proof verification precompile. -/
def zkVerifyPrecompileAddress : EvmAddress := 0x1003

/-- Reads the low eight bytes of a 32-byte word. -/
def readU256Word (word : Bytes) : Option ℕ :=
  if 32 ≤ word.length then some (natOfBytes ((word.drop 24).take 8)) else none

/-- A slice of the input, where it has one. -/
def slice (input : Bytes) (start len : ℕ) : Option Bytes :=
  if start + len ≤ input.length then some ((input.drop start).take len) else none

/-- Reads a byte string that is preceded by its length. -/
def readDynamicBytes (input : Bytes) (offset : ℕ) : Option Bytes := do
  let len ← readU256Word (← slice input offset 32)
  slice input (offset + 32) len

/-- Decodes three ABI-encoded byte strings. -/
def decodeAbiBytes3 (input : Bytes) : Option (Bytes × Bytes × Bytes) := do
  if input.length < 96 then none
  else
    let first ← readU256Word (input.take 32)
    let second ← readU256Word ((input.drop 32).take 32)
    let third ← readU256Word ((input.drop 64).take 32)
    return (← readDynamicBytes input first, ← readDynamicBytes input second,
      ← readDynamicBytes input third)

/-- The lower-case hexadecimal digits of a byte string. -/
def hexEncode (b : Bytes) : String :=
  String.ofList (b.flatMap fun x => [Nat.digitChar (x.toNat / 16), Nat.digitChar (x.toNat % 16)])

/-- Decodes the outcome of a committed transaction. -/
def decodeResult : ExecutionResult → EvmCallResult
  | .success gasUsed output contractAddress logs => { contractAddress, output, gasUsed, logs }
  | .other debug =>
    { contractAddress := none, output := textBytes debug, gasUsed := 0, logs := [] }

namespace InMemoryDb

/-- What the database tells of an entry. -/
def seen (account : DbAccount) : Option RevmAccount :=
  if account.notExisting then none else some account.info

/-- Looks an account up.  One that is missing is entered as not existing. -/
def basic (db : InMemoryDb) (a : EvmAddress) : Option RevmAccount × InMemoryDb :=
  match db.accounts[a]? with
  | some account => (seen account, db)
  | none =>
    let account : DbAccount :=
      { info := { nonce := 0, balance := 0, code := [], storage := ∅ }, notExisting := true }
    (none, { accounts := db.accounts.insert a account })

/-- Sets the information on an account.  Its storage stays, and so does the mark. -/
def insertAccountInfo (db : InMemoryDb) (a : EvmAddress) (info : RevmAccount) : InMemoryDb :=
  { accounts := db.accounts.insert a <|
      match db.accounts[a]? with
      | some account => { account with info := { info with storage := account.info.storage } }
      | none => { info, notExisting := false } }

/-- The accounts that a transaction finds in the database. -/
def existing (db : InMemoryDb) : BTreeMap EvmAddress RevmAccount :=
  db.accounts.filterMap fun _ account => seen account

lemma getElem?_existing (db : InMemoryDb) (a : EvmAddress) :
    db.existing[a]? = db.accounts[a]?.bind seen :=
  Std.ExtTreeMap.getElem?_filterMap'

/-- A lookup shows no other accounts, and marks what it does not find. -/
lemma basic_cases (db : InMemoryDb) (a : EvmAddress) :
    (∃ info, db.basic a = (some info, db)) ∨
    ∃ db' info, db.basic a = (none, db') ∧ db'.accounts[a]? = some { info, notExisting := true } ∧
      db'.existing = db.existing := by
  rw [basic]
  rcases ha : db.accounts[a]? with _ | ⟨info, _ | _⟩
  · refine .inr ⟨_, _, rfl, Std.ExtTreeMap.getElem?_insert_self, ?_⟩
    refine Std.ExtTreeMap.ext_getElem? fun b => ?_
    rw [getElem?_existing, getElem?_existing, Table.getElem?_insert]
    split
    · rename_i hb
      rw [hb, ha]
      rfl
    · rfl
  · exact .inl ⟨info, rfl⟩
  · exact .inr ⟨db, info, rfl, ha, rfl⟩

/-- Setting an account that is marked does not show it. -/
lemma existing_insertAccountInfo {db : InMemoryDb} {a : EvmAddress} {info : RevmAccount}
    (h : db.accounts[a]? = some { info, notExisting := true }) (info' : RevmAccount) :
    (db.insertAccountInfo a info').existing = db.existing := by
  refine Std.ExtTreeMap.ext_getElem? fun b => ?_
  rw [getElem?_existing, getElem?_existing, insertAccountInfo, h, Table.getElem?_insert]
  split
  · rename_i hb
    rw [hb, h]
    rfl
  · rfl

end InMemoryDb

namespace EvmExecutor

/-- An account as the interpreter loads it. -/
def loadAccount (account : EvmAccountState) : RevmAccount :=
  { nonce := account.nonce, balance := account.balance, code := account.code,
    storage := account.storage }

/-- Loads accounts into a database. -/
def loadAccounts (accounts : BTreeMap EvmAddress EvmAccountState) : InMemoryDb :=
  { accounts := accounts.map fun _ account => { info := loadAccount account, notExisting := false } }

/-- Loads the stored accounts into a database. -/
def loadDb (store : Store) : InMemoryDb := loadAccounts store.evmAccounts

/-- The account that is set for a caller whom the database does not know. -/
def freshCaller : RevmAccount :=
  { nonce := 0, balance := 1000000000, code := [], storage := ∅ }

/-- Looks the caller up, and sets an account for a caller who is not known. -/
def callerDb (db : InMemoryDb) (caller : EvmAddress) : InMemoryDb :=
  match db.basic caller with
  | (some _, db) => db
  | (none, db) => db.insertAccountInfo caller freshCaller

lemma getElem?_existing_loadDb (store : Store) (a : EvmAddress) :
    (loadDb store).existing[a]? = store.evmAccounts[a]?.map loadAccount := by
  rw [InMemoryDb.getElem?_existing, loadDb, loadAccounts, Std.ExtTreeMap.getElem?_map]
  rcases store.evmAccounts[a]? with _ | account <;> rfl

/-- **The account that is set for an unknown caller is never seen**: the lookup before it has marked
the caller as not existing. -/
lemma existing_callerDb (db : InMemoryDb) (caller : EvmAddress) :
    (callerDb db caller).existing = db.existing := by
  rw [callerDb]
  rcases db.basic_cases caller with ⟨info, hbasic⟩ | ⟨db', info, hbasic, hmarked, hexisting⟩
  · rw [hbasic]
  · rw [hbasic, ← hexisting]
    exact InMemoryDb.existing_insertAccountInfo hmarked freshCaller

/-- The message for a balance that does not fit into the stored record. -/
def balanceTooLarge (address : EvmAddress) : String :=
  "EVM account 0x" ++ hexEncode (Codec.array20 address) ++
    " balance exceeds u128::MAX — refusing to persist"

section

variable [Hashing]

/-- Writes the accounts of a database back, one after the other. -/
def persistDb : List (EvmAddress × RevmAccount) → StoreM EvmError PUnit
  | [] => pure ⟨⟩
  | (address, account) :: accounts => do
    if account.balance < 2 ^ 128 then
      write (.putEvmAccount address
        { nonce := account.nonce, balance := account.balance, code := account.code,
          storage := account.storage })
      persistDb accounts
    else throw (.execution (balanceTooLarge address))

variable [Revm]

/-- Verifies a signature from ABI-like encoded input. -/
def pqVerifyPrecompile (input : Bytes) : Bytes :=
  paddedBool <|
    match decodeAbiBytes3 input with
    | none => false
    | some (publicKey, message, signature) =>
      (Revm.defaultScheme.verify .transaction message publicKey signature).toBool

/-- The result of a call to one of the chain's own precompiles. -/
def precompile (contract : EvmAddress) (input : Bytes) : Option EvmCallResult :=
  let result (output : Bytes) (gasUsed : ℕ) : EvmCallResult :=
    { contractAddress := none, output, gasUsed, logs := [] }
  if contract = mlDsaVerifyPrecompile then some (result (pqVerifyPrecompile input) 5000)
  else if contract = sha256Precompile then
    some (result (Codec.array32 (sha3Hash input)) (60 + input.length / 32 * 12))
  else if contract = identityPrecompile then some (result input (15 + input.length / 32 * 3))
  else if contract = blake3Precompile then
    some (result (Codec.array32 (hashBytes input)) (50 + input.length / 32 * 6))
  else if contract = zkVerifyPrecompileAddress then some (result (zkVerifyPrecompile input) 100000)
  else none

/-- Runs a transaction in the interpreter and writes its database back. -/
def interpret (evmChainId : ℕ) (caller : EvmAddress) (tx : EvmTransaction) :
    StoreM EvmError EvmCallResult := do
  let store ← readStore
  let db := callerDb (loadDb store) caller
  match Revm.transactCommit evmChainId db.existing caller tx with
  | .error message => throw (.execution message)
  | .ok (result, accounts) =>
    persistDb accounts
    return decodeResult result

/-- The interpreter finds the stored accounts, and no others. -/
lemma interpret_eq (evmChainId : ℕ) (caller : EvmAddress) (tx : EvmTransaction) (d : Disk) :
    interpret evmChainId caller tx d =
      match Revm.transactCommit evmChainId (loadDb d.store).existing caller tx with
      | .error message => .error (.execution message) d
      | .ok (result, accounts) => (persistDb accounts >>= fun _ => pure (decodeResult result)) d := by
  rw [interpret, Handler.bind_ok (readStore_run d), existing_callerDb]
  rcases Revm.transactCommit evmChainId (loadDb d.store).existing caller tx with _ | _ <;> rfl

/-- Executes a state-changing EVM transaction. -/
def execute (evmChainId : ℕ) (caller : EvmAddress) (tx : EvmTransaction) :
    StoreM EvmError EvmCallResult :=
  match tx.kind with
  | .create _ => interpret evmChainId caller tx
  | .call contract input =>
    match precompile contract input with
    | some result => pure result
    | none => interpret evmChainId caller tx

end

end EvmExecutor

/-! ## The executor writes EVM accounts only -/

/-- The effect writes an EVM account. -/
inductive Effect.IsEvmWrite : Effect → Prop
  | intro (address : EvmAddress) (account : EvmAccountState) :
      IsEvmWrite (.write (.putEvmAccount address account))

section

variable [Hashing]

/-- One disk comes from another by writing EVM accounts. -/
def OnlyEvmWrites (d d' : Disk) : Prop :=
  ∃ es : List Effect, (∀ e ∈ es, e.IsEvmWrite) ∧ d' = d.recordAll es

instance : Std.Refl OnlyEvmWrites := ⟨fun _ => ⟨[], fun _ h => absurd h List.not_mem_nil, rfl⟩⟩

instance : IsTrans Disk OnlyEvmWrites where
  trans := by
    rintro d₁ _ _ ⟨es, hes, rfl⟩ ⟨es', hes', rfl⟩
    refine ⟨es ++ es', fun e he => ?_, (d₁.recordAll_append es es').symm⟩
    exact (List.mem_append.mp he).elim (hes e) (hes' e)

/-- What EVM writes leave alone in a store. -/
lemma OnlyEvmWrites.store_eq {d d' : Disk} (h : OnlyEvmWrites d d') :
    d'.store = { d.store with evmAccounts := d'.store.evmAccounts } := by
  obtain ⟨es, hes, rfl⟩ := h
  induction es generalizing d with
  | nil => rfl
  | cons e es ih =>
    obtain ⟨a, acc⟩ := hes e List.mem_cons_self
    have h := @ih (d.record (.write (.putEvmAccount a acc)))
      fun e he => hes e (List.mem_cons_of_mem _ he)
    rw [Disk.recordAll_cons, h]
    rfl

lemma OnlyEvmWrites.journal {d d' : Disk} (h : OnlyEvmWrites d d') :
    ∃ es : List Effect, (∀ e ∈ es, e.IsEvmWrite) ∧ d'.journal = d.journal ++ es := by
  obtain ⟨es, hes, rfl⟩ := h
  exact ⟨es, hes, d.journal_recordAll es⟩

lemma onlyEvmWrites_put (d : Disk) (a : EvmAddress) (acc : EvmAccountState) :
    OnlyEvmWrites d (d.record (.write (.putEvmAccount a acc))) := by
  refine ⟨[.write (.putEvmAccount a acc)], fun e he => ?_, rfl⟩
  rw [List.mem_singleton.mp he]
  exact ⟨a, acc⟩

namespace EvmExecutor

lemma keeps_persistDb (accounts : List (EvmAddress × RevmAccount)) :
    Handler.Keeps OnlyEvmWrites (persistDb accounts) := by
  induction accounts with
  | nil => exact .pure _
  | cons entry accounts ih =>
    rw [persistDb]
    split
    · exact .bind (fun d => onlyEvmWrites_put d _ _) fun _ => ih
    · exact .throw _

variable [Revm]

lemma keeps_interpret (evmChainId : ℕ) (caller : EvmAddress) (tx : EvmTransaction) :
    Handler.Keeps OnlyEvmWrites (interpret evmChainId caller tx) := by
  refine .bind (fun d => Std.Refl.refl d) fun store => ?_
  dsimp only
  split
  · exact .throw _
  · exact .bind (keeps_persistDb _) fun _ => .pure _

/-- **The executor writes EVM accounts and nothing else, whether it succeeds or not.** -/
theorem keeps_execute (evmChainId : ℕ) (caller : EvmAddress) (tx : EvmTransaction) :
    Handler.Keeps OnlyEvmWrites (execute evmChainId caller tx) := by
  rw [execute]
  split
  · exact keeps_interpret _ _ _
  · split
    · exact .pure _
    · exact keeps_interpret _ _ _

end EvmExecutor

end

end ZenoChain
