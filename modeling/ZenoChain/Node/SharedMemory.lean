/-
# What the tasks of a node share

The tasks of a node share its store and its shielded pool.  Every read and every write of the
store is one step, and so is a withdrawal from the pool, which happens under a lock.
-/
import ZenoChain.Base.Interleaving
import ZenoChain.State.Staking
import ZenoChain.Zk.Pool

namespace ZenoChain

open Word

/-! ## What is shared -/

/-- What the tasks of a node share. -/
structure Shared where
  store : Store
  zkPool : ShieldedPool

/-- The records of a node: the accounts, the staking state, the shielded pool, and the rest of
the store. -/
inductive SharedRecord
  | account (a : Address)
  | staking
  | pool
  | chain
deriving DecidableEq

/-- What a record contains. -/
abbrev SharedRecord.Content : SharedRecord → Type
  | account _ => Option Account
  | staking => Option StakingState
  | pool => ShieldedPool
  | chain => Store

/-- The store without its accounts and its staking state. -/
def Store.chainOnly (s : Store) : Store := { s with accounts := ∅, stakingState := none }

/-- The content of a record. -/
def Shared.content (s : Shared) : (r : SharedRecord) → r.Content
  | .account a => s.store.accounts[a]?
  | .staking => s.store.stakingState
  | .pool => s.zkPool
  | .chain => s.store.chainOnly

/-- The steps of the operations: reads and writes of the store, and withdrawals. -/
inductive StoreAction
  | latestBlock
  | accounts
  | account (a : Address)
  | stakingState
  | governanceState
  | evmAccounts
  | write (w : Write)
  | unshield (request : UnshieldRequest)

/-- A step of an execution: it reads, or it writes an account of the EVM. -/
def StoreAction.IsExecution : StoreAction → Prop
  | write (.putEvmAccount _ _) => True
  | write _ | unshield _ => False
  | _ => True

/-- The answer to a step. -/
abbrev StoreAction.Answer : StoreAction → Type
  | latestBlock => Option FinalizedBlock
  | accounts => BTreeMap Address Account
  | account _ => Option Account
  | stakingState => Option StakingState
  | governanceState => Option GovernanceState
  | evmAccounts => BTreeMap EvmAddress EvmAccountState
  | write _ => PUnit
  | unshield _ => Except ZkError PUnit

/-- The records that a write changes. -/
def Write.records : Write → Set SharedRecord
  | .putAccount a _ => {.account a}
  | .putStakingState _ => {.staking}
  | .atomicCommitBlock _ accounts => {r | r = .chain ∨ ∃ a ∈ accounts, r = .account a}
  | _ => {.chain}

/-- The records that a step changes. -/
def StoreAction.writes : StoreAction → Set SharedRecord
  | write w => w.records
  | unshield _ => {.pool}
  | _ => ∅

/-- The records that a step depends on.  A write replaces an account or the staking state, and
changes the rest of the store in place. -/
def StoreAction.reads : StoreAction → Set SharedRecord
  | latestBlock | governanceState | evmAccounts => {.chain}
  | accounts => {r | ∃ a, r = .account a}
  | account a => {.account a}
  | stakingState => {.staking}
  | write w => {r | r = .chain ∧ r ∈ w.records}
  | unshield _ => {.pool}

section

variable [Hashing]

/-- The answer to a step, from what is shared. -/
def StoreAction.answer : (x : StoreAction) → Shared → x.Answer
  | latestBlock, s => s.store.latestBlock
  | accounts, s => s.store.accounts
  | account a, s => s.store.accounts[a]?
  | stakingState, s => s.store.stakingState
  | governanceState, s => s.store.governanceState
  | evmAccounts, s => s.store.evmAccounts
  | write _, _ => ⟨⟩
  | unshield request, s =>
    match ShieldedPool.unshield request s.zkPool with
    | .ok _ _ => .ok ⟨⟩
    | .error err _ => .error err

/-- What is shared after a step. -/
def StoreAction.after : StoreAction → Shared → Shared
  | write w, s => { s with store := s.store.apply w }
  | unshield request, s =>
    { s with zkPool := Handler.final (ShieldedPool.unshield request s.zkPool) }
  | _, s => s

omit [Hashing] in
/-- A store is its accounts, its staking state and the rest of it. -/
lemma Store.eq_of_parts {s s' : Store} (haccounts : s.accounts = s'.accounts)
    (hstaking : s.stakingState = s'.stakingState) (hchain : s.chainOnly = s'.chainOnly) :
    s = s' := by
  have hparts : ∀ s : Store, s = { s.chainOnly with
      accounts := s.accounts, stakingState := s.stakingState } := fun _ => rfl
  rw [hparts s, hparts s', haccounts, hstaking, hchain]

/-- Accounts and staking state do not matter to what else is written. -/
lemma chainOnly_apply (s : Store) (w : Write) :
    (s.apply w).chainOnly = (s.chainOnly.apply w).chainOnly := by
  cases w with
  | compactConsensusWal h =>
    show (s.compactConsensusWal h).chainOnly = (s.chainOnly.compactConsensusWal h).chainOnly
    have hbackend : s.chainOnly.backend = s.backend := rfl
    rw [Store.compactConsensusWal, Store.compactConsensusWal, hbackend]
    split <;> rfl
  | _ => rfl

lemma chainOnly_apply_of_notMem {w : Write} (h : SharedRecord.chain ∉ w.records) (s : Store) :
    (s.apply w).chainOnly = s.chainOnly := by
  cases w with
  | putAccount a account => rfl
  | putStakingState state => rfl
  | atomicCommitBlock block accounts => exact absurd (.inl rfl) h
  | _ => exact absurd rfl h

/-- What a write puts into an account does not depend on the store. -/
lemma getElem?_accounts_apply (s s' : Store) {w : Write} {a : Address}
    (h : SharedRecord.account a ∈ w.records) :
    (s.apply w).accounts[a]? = (s'.apply w).accounts[a]? := by
  cases w with
  | putAccount b account =>
    cases h
    show (s.accounts.insert a account)[a]? = (s'.accounts.insert a account)[a]?
    rw [Table.getElem?_insert, Table.getElem?_insert, if_pos rfl, if_pos rfl]
  | atomicCommitBlock block accounts =>
    obtain hc | ⟨b, hb, heq⟩ := h
    · cases hc
    · cases heq
      show (Table.insertAll s.accounts accounts.toList)[a]? =
        (Table.insertAll s'.accounts accounts.toList)[a]?
      rw [Table.getElem?_insertAll_toList, Table.getElem?_insertAll_toList,
        Std.ExtTreeMap.getElem?_eq_some_getElem hb]
      rfl
  | _ => cases h

lemma getElem?_accounts_apply_of_notMem (s : Store) {w : Write} {a : Address}
    (h : SharedRecord.account a ∉ w.records) :
    (s.apply w).accounts[a]? = s.accounts[a]? := by
  cases w with
  | putAccount b account =>
    show (s.accounts.insert b account)[a]? = s.accounts[a]?
    rw [Table.getElem?_insert, if_neg fun hb => h (congrArg _ hb)]
  | atomicCommitBlock block accounts =>
    show (Table.insertAll s.accounts accounts.toList)[a]? = s.accounts[a]?
    have hnot : accounts[a]? = none :=
      Std.ExtTreeMap.getElem?_eq_none fun ha => h (.inr ⟨a, ha, rfl⟩)
    rw [Table.getElem?_insertAll_toList, hnot, Option.none_or]
  | compactConsensusWal height =>
    obtain ⟨wal, heq⟩ := s.compactConsensusWal_eq height
    show (s.compactConsensusWal height).accounts[a]? = s.accounts[a]?
    rw [heq]
  | _ => rfl

lemma stakingState_apply_of_notMem (s : Store) {w : Write}
    (h : SharedRecord.staking ∉ w.records) : (s.apply w).stakingState = s.stakingState := by
  cases w with
  | putStakingState state => exact absurd rfl h
  | compactConsensusWal height =>
    obtain ⟨wal, heq⟩ := s.compactConsensusWal_eq height
    show (s.compactConsensusWal height).stakingState = s.stakingState
    rw [heq]
  | _ => rfl

omit [Hashing] in
lemma pool_notMem_records (w : Write) : SharedRecord.pool ∉ w.records := by
  cases w with
  | atomicCommitBlock block accounts =>
    rintro (hc | ⟨_, _, hc⟩)
    · cases hc
    · cases hc
  | _ => exact nofun

/-- A write puts the same into its records, wherever the rest of the store is the same. -/
lemma content_write_congr {s s' : Shared} {w : Write} {r : SharedRecord} (hr : r ∈ w.records)
    (h : SharedRecord.chain ∈ w.records → s.store.chainOnly = s'.store.chainOnly) :
    ((StoreAction.write w).after s).content r = ((StoreAction.write w).after s').content r := by
  cases r with
  | account a => exact getElem?_accounts_apply s.store s'.store hr
  | staking =>
    cases w with
    | putStakingState state => rfl
    | atomicCommitBlock block accounts =>
      obtain hc | ⟨_, _, hc⟩ := hr
      · cases hc
      · cases hc
    | _ => cases hr
  | pool => exact absurd hr (pool_notMem_records w)
  | chain =>
    show (s.store.apply w).chainOnly = (s'.store.apply w).chainOnly
    rw [chainOnly_apply s.store, chainOnly_apply s'.store, h hr]

lemma content_write_of_notMem {s : Shared} {w : Write} {r : SharedRecord} (hr : r ∉ w.records) :
    ((StoreAction.write w).after s).content r = s.content r := by
  cases r with
  | account a => exact getElem?_accounts_apply_of_notMem s.store hr
  | staking => exact stakingState_apply_of_notMem s.store hr
  | pool => rfl
  | chain => exact chainOnly_apply_of_notMem hr s.store

/-- What the tasks of a node share, as a memory. -/
abbrev sharedMemory : SharedMemory where
  State := Shared
  Record := SharedRecord
  Content := SharedRecord.Content
  content := Shared.content
  Action := StoreAction
  Answer := StoreAction.Answer
  answer := StoreAction.answer
  after := StoreAction.after
  reads := StoreAction.reads
  writes := StoreAction.writes
  ext s s' h := by
    have hstore : s.store = s'.store :=
      Store.eq_of_parts (Std.ExtTreeMap.ext_getElem? fun a => h (.account a)) (h .staking) (h .chain)
    have hpool : s.zkPool = s'.zkPool := h .pool
    cases s
    cases s'
    cases hstore
    cases hpool
    rfl
  answer_congr x s s' h := by
    have hchain : SharedRecord.chain ∈ x.reads → s.store.chainOnly = s'.store.chainOnly := h .chain
    cases x with
    | latestBlock =>
      have hlatest := congrArg Store.latestBlock (hchain rfl)
      exact hlatest
    | accounts => exact Std.ExtTreeMap.ext_getElem? fun a => h (.account a) ⟨a, rfl⟩
    | account a => exact h (.account a) rfl
    | stakingState => exact h .staking rfl
    | governanceState =>
      have hgovernance := congrArg Store.governanceState (hchain rfl)
      exact hgovernance
    | evmAccounts =>
      have hevm := congrArg Store.evmAccounts (hchain rfl)
      exact hevm
    | write w => rfl
    | unshield request =>
      have hpool : s.zkPool = s'.zkPool := h .pool rfl
      rw [StoreAction.answer, hpool, StoreAction.answer]
  after_congr x s s' h r hr := by
    cases x with
    | write w => exact content_write_congr hr fun hchain => h .chain ⟨rfl, hchain⟩
    | unshield request =>
      cases hr
      have hpool : s.zkPool = s'.zkPool := h .pool rfl
      show Handler.final (ShieldedPool.unshield request s.zkPool) =
        Handler.final (ShieldedPool.unshield request s'.zkPool)
      rw [hpool]
    | _ => cases hr
  after_frame x s r hr := by
    cases x with
    | write w => exact content_write_of_notMem hr
    | unshield request =>
      cases r with
      | pool => exact absurd rfl hr
      | _ => rfl
    | _ => rfl

/-! ## Programs that may fail -/

/-- A program that goes step by step and may stop with an error. -/
abbrev StepM (ε α : Type) := ExceptT ε (Program sharedMemory) α

variable {ε ε' α β : Type}

namespace StepM

/-- One step. -/
def step (x : StoreAction) : StepM ε x.Answer := ExceptT.lift (.act x .done)

/-- A pure computation that may fail. -/
def ofExcept (x : Except ε α) : StepM ε α := ExceptT.mk (.done x)

/-- The program run alone on the store of a disk ends like a run of the runtime. -/
def Runs (p : StepM ε α) (d : Disk) (r : EStateM.Result ε Disk α) : Prop :=
  ∀ zkPool, p.run.alone ⟨d.store, zkPool⟩ =
    match r with
    | .ok a d' => (.ok a, ⟨d'.store, zkPool⟩)
    | .error err d' => (.error err, ⟨d'.store, zkPool⟩)

variable {p : StepM ε α} {f : α → StepM ε β} {d d' : Disk}

lemma Runs.pure (a : α) (d : Disk) : Runs (Pure.pure a : StepM ε α) d (.ok a d) := fun _ => rfl

lemma Runs.throw (err : ε) (d : Disk) :
    Runs (MonadExcept.throw err : StepM ε α) d (.error err d) := fun _ => rfl

lemma Runs.ofExcept (x : Except ε α) (d : Disk) :
    Runs (StepM.ofExcept x) d (Handler.ofExcept x d) := by
  intro zkPool
  cases x <;> rfl

lemma Runs.bind_ok {a : α} {r : EStateM.Result ε Disk β} (h : Runs p d (.ok a d'))
    (hf : Runs (f a) d' r) : Runs (p >>= f) d r := by
  intro zkPool
  rw [ExceptT.run_bind, Program.alone_bind, h zkPool]
  exact hf zkPool

lemma Runs.bind_error {err : ε} (h : Runs p d (.error err d')) :
    Runs (p >>= f) d (.error err d') := by
  intro zkPool
  rw [ExceptT.run_bind, Program.alone_bind, h zkPool]
  rfl

/-- Programs that run alike go on alike. -/
lemma Runs.bind {m : StoreM ε α} {g : α → StoreM ε β} (h : Runs p d (m d))
    (hf : ∀ a d', m d = .ok a d' → Runs (f a) d' (g a d')) : Runs (p >>= f) d ((m >>= g) d) := by
  rcases hrun : m d with ⟨a, d'⟩ | ⟨err, d'⟩
  · rw [Handler.bind_ok hrun]
    rw [hrun] at h
    exact h.bind_ok (hf a d' hrun)
  · rw [Handler.bind_error hrun]
    rw [hrun] at h
    exact h.bind_error

/-- A program with its errors translated. -/
def adaptError (f : ε → ε') (p : StepM ε α) : StepM ε' α := ExceptT.adapt f p

lemma Runs.adaptError {m : StoreM ε α} (h : Runs p d (m d)) (f : ε → ε') :
    Runs (StepM.adaptError f p) d (Handler.zoom id (fun d _ => d) f m d) := by
  intro zkPool
  have hrun : (StepM.adaptError f p).run = p.run >>= fun r => .done (r.mapError f) := rfl
  rw [hrun, Program.alone_bind, h zkPool, Handler.zoom]
  show Program.alone (.done _) _ = _
  dsimp only [id]
  rcases m d with ⟨a, d'⟩ | ⟨err, d'⟩
  · rfl
  · rfl

/-- A write is recorded on the disk. -/
lemma Runs.write (w : Write) (d : Disk) :
    Runs (step (.write w) : StepM ε PUnit) d (.ok ⟨⟩ (d.record (.write w))) := fun _ => rfl

/-! ## Rules for what the steps of a program do -/

section

variable {A : StoreAction → Prop} {R : (r : SharedRecord) → r.Content → r.Content → Prop}
  {s : Shared}

lemma only_bind (hp : p.run.Only A) (hf : ∀ a, (f a).run.Only A) : (p >>= f).run.Only A := by
  rw [ExceptT.run_bind]
  refine hp.bind fun result => ?_
  rcases result with err | a
  · exact .done _
  · exact hf a

lemma only_adaptError {g : ε → ε'} (hp : p.run.Only A) : (adaptError g p).run.Only A :=
  hp.bind fun _ => .done _

lemma only_step {x : StoreAction} (hx : A x) : (step x : StepM ε _).run.Only A :=
  .act hx fun _ => .done _

lemma along_bind (hp : p.run.Along R s)
    (hf : ∀ a s', p.run.alone s = (.ok a, s') → (f a).run.Along R s') :
    (p >>= f).run.Along R s := by
  rw [ExceptT.run_bind]
  refine hp.bind ?_
  rcases hrun : p.run.alone s with ⟨err | a, s'⟩
  · exact .done _ _
  · exact hf a s' hrun

lemma along_step {x : StoreAction} (hx : ∀ r, R r (s.content r) ((x.after s).content r)) :
    (step x : StepM ε _).run.Along R s := .act hx (.done _ _)

/-- A step that changes nothing. -/
lemma along_read (hrefl : ∀ r x, R r x x) {x : StoreAction} (hx : x.writes = ∅) :
    (step x : StepM ε _).run.Along R s := by
  refine along_step fun r => ?_
  have hsame : sharedMemory.content (sharedMemory.after x s) r = sharedMemory.content s r :=
    sharedMemory.after_frame x s r (by rw [show sharedMemory.writes x = ∅ from hx]; exact nofun)
  show R r (s.content r) (sharedMemory.content (sharedMemory.after x s) r)
  rw [hsame]
  exact hrefl r _

/-- A write has to be looked at where it changes something. -/
lemma along_write (hrefl : ∀ r x, R r x x) {w : Write}
    (h : ∀ r ∈ w.records, R r (s.content r) (((StoreAction.write w).after s).content r)) :
    (step (.write w) : StepM ε _).run.Along R s := by
  refine along_step fun r => ?_
  by_cases hr : r ∈ w.records
  · exact h r hr
  · have hsame := content_write_of_notMem (s := s) hr
    rw [hsame]
    exact hrefl r _

end

end StepM

end

end ZenoChain
