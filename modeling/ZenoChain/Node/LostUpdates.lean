/-
# Lost updates

The RPC calls, the notes of liveness and the commits of a node read a whole account or the whole
staking state and write it back later, and nothing keeps the others from writing in between.  As
long as the conflicting steps of a run can be ordered, nothing is lost.
-/
import Mathlib.Data.Set.Lattice
import Mathlib.Order.CompletePartialOrder
import ZenoChain.Node.BlockBuilding
import ZenoChain.Node.Steps

namespace ZenoChain

open Word

/-! ## What is kept of the stakes -/

/-- Registered validators stay, and unless an epoch is settled, they and their delegators keep
what they have bonded, up to the largest value. -/
structure StakeKept (settles : Prop) (s s' : StakingState) : Prop where
  validators : ∀ (a : Address) (v : ValidatorStake), s.validators[a]? = some v →
    ∃ v', s'.validators[a]? = some v' ∧
      (¬ settles → min v.selfBond (maxValue 128) ≤ v'.selfBond ∧
        min v.totalStake (maxValue 128) ≤ v'.totalStake)
  delegations : ¬ settles → ∀ (k : Address × Address) (d : Delegation),
    s.delegations[k]? = some d →
      ∃ d', s'.delegations[k]? = some d' ∧ min d.amount (maxValue 128) ≤ d'.amount

namespace StakeKept

variable {settles : Prop} {s s' s'' : StakingState}

lemma refl (settles : Prop) (s : StakingState) : StakeKept settles s s where
  validators _ v hv := ⟨v, hv, fun _ => ⟨min_le_left _ _, min_le_left _ _⟩⟩
  delegations _ _ d hd := ⟨d, hd, min_le_left _ _⟩

lemma trans (h : StakeKept settles s s') (h' : StakeKept settles s' s'') :
    StakeKept settles s s'' where
  validators a v hv := by
    obtain ⟨v', hv', hle⟩ := h.validators a v hv
    obtain ⟨v'', hv'', hle'⟩ := h'.validators a v' hv'
    refine ⟨v'', hv'', fun hnot => ?_⟩
    obtain ⟨h₁, h₂⟩ := hle hnot
    obtain ⟨h₁', h₂'⟩ := hle' hnot
    exact ⟨by omega, by omega⟩
  delegations hnot k d hd := by
    obtain ⟨d', hd', hle⟩ := h.delegations hnot k d hd
    obtain ⟨d'', hd'', hle'⟩ := h'.delegations hnot k d' hd'
    exact ⟨d'', hd'', by omega⟩

/-- Seeding touches no record that is there. -/
lemma ensureValidators (settles : Prop) (s : StakingState) (vs : List Validator) :
    StakeKept settles s (StakingSnapshot.ensureValidators s vs) where
  validators a v hv := by
    refine ⟨v, ?_, fun _ => ⟨min_le_left _ _, min_le_left _ _⟩⟩
    rw [StakingSnapshot.getElem?_ensureValidators, hv]
    split <;> rfl
  delegations _ _ d hd := ⟨d, hd, min_le_left _ _⟩

lemma le_saturatingAdd {n : ℕ} (amount : ℕ) : min n (maxValue 128) ≤ saturatingAdd 128 n amount :=
  le_min ((min_le_left _ _).trans (Nat.le_add_right _ _)) (min_le_right _ _)

lemma delegate {delegator a : Address} {amount : ℕ} {isSelfBond : Bool}
    (h : StakingSnapshot.delegate s delegator a amount isSelfBond = .ok s') :
    StakeKept settles s s' := by
  rw [StakingSnapshot.delegate] at h
  split at h
  · cases h
  · rename_i w hw
    cases h
    refine ⟨fun b v hv => ?_, fun _ k d hd => ?_⟩
    · dsimp only
      rw [Table.getElem?_insert]
      split
      · rename_i hb
        obtain rfl := Option.some.inj (hw.symm.trans (hb ▸ hv))
        refine ⟨_, rfl, fun _ => ⟨?_, le_saturatingAdd amount⟩⟩
        dsimp only
        split
        · exact le_saturatingAdd amount
        · exact min_le_left _ _
      · exact ⟨v, hv, fun _ => ⟨min_le_left _ _, min_le_left _ _⟩⟩
    · dsimp only
      rw [Table.getElem?_insert]
      split
      · rename_i hk
        refine ⟨_, rfl, ?_⟩
        have hsame : s.delegations.getD (delegator, a) ⟨delegator, a, 0⟩ = d := by
          rw [Std.ExtTreeMap.getD_eq_getD_getElem?, ← hk, hd, Option.getD_some]
        dsimp only
        rw [hsame]
        exact le_saturatingAdd amount
      · exact ⟨d, hd, min_le_left _ _⟩

lemma noteLiveness {a : Address} (h : StakingSnapshot.noteLiveness s a = .ok s') :
    StakeKept settles s s' := by
  obtain ⟨w, hw, rfl⟩ := StakingSnapshot.noteLiveness_ok_iff.mp h
  refine ⟨fun b v hv => ?_, fun _ k d hd => ⟨d, hd, min_le_left _ _⟩⟩
  dsimp only
  rw [Table.getElem?_insert]
  split
  · rename_i hb
    obtain rfl := Option.some.inj (hw.symm.trans (hb ▸ hv))
    exact ⟨_, rfl, fun _ => ⟨min_le_left _ _, min_le_left _ _⟩⟩
  · exact ⟨v, hv, fun _ => ⟨min_le_left _ _, min_le_left _ _⟩⟩

end StakeKept

/-! ## What an operation may change -/

namespace Operation

/-- The operation takes from an account: the faucet pays, or a block has a transaction of it. -/
def Spends (operation : Operation) (a : Address) : Prop :=
  match operation with
  | faucetSend (some (.ok faucetAddress)) _ _ => faucetAddress = a
  | importBlock finalized => ∃ tx ∈ finalized.block.transactions, tx.body.sender = a
  | finalizeBlock block _ => ∃ tx ∈ block.transactions, tx.body.sender = a
  | _ => False

/-- The operation commits the last block of an epoch. -/
def Settles (config : NodeConfig) (operation : Operation) : Prop :=
  match operation with
  | importBlock finalized =>
    ExecutionEngine.ClosesEpoch config.genesis.economics finalized.block.header.height
  | finalizeBlock block _ =>
    ExecutionEngine.ClosesEpoch config.genesis.economics block.header.height
  | _ => False

/-- An update of an operation loses nothing: nonces do not decrease, balances only if the operation
spends them, and stakes are kept. -/
def LosesNothing (config : NodeConfig) (operation : Operation) :
    (r : SharedRecord) → r.Content → r.Content → Prop
  | .account a, old, new =>
    (old.getD {}).nonce ≤ (new.getD {}).nonce ∧
      (¬ operation.Spends a → min (old.getD {}).balance (maxValue 128) ≤ (new.getD {}).balance)
  | .staking, old, new => StakeKept (operation.Settles config) (old.getD {}) (new.getD {})
  | .pool, _, _ | .chain, _, _ => True

lemma LosesNothing.refl (config : NodeConfig) (operation : Operation) (r : SharedRecord)
    (x : r.Content) : operation.LosesNothing config r x x := by
  cases r with
  | account a => exact ⟨le_rfl, fun _ => min_le_left _ _⟩
  | staking => exact StakeKept.refl _ _
  | _ => trivial

end Operation

section

variable [Hashing] {config : NodeConfig} {operation : Operation} {s : Shared} {ε α : Type}

open StepM

/-- What is done to the result of a program is no step. -/
lemma along_succeeds {R : (r : SharedRecord) → r.Content → r.Content → Prop} {p : StepM ε α}
    (h : p.run.Along R s) : p.succeeds.Along R s := h.bind (.done _ _)

/-! ## The RPC calls -/

lemma along_getAccount (a : Address) (s : Shared) :
    (getAccount a : StepM ε Account).run.Along (operation.LosesNothing config) s :=
  along_bind (along_read (.refl config operation) rfl) fun _ _ _ => .done _ _

lemma along_loadStaking (s : Shared) :
    (loadStaking : StepM ε StakingSnapshot).run.Along (operation.LosesNothing config) s :=
  along_bind (along_read (.refl config operation) rfl) fun _ _ _ => .done _ _

lemma along_putAccount {a : Address} {account : Account}
    (h : operation.LosesNothing config (.account a) s.store.accounts[a]? (some account)) :
    (putAccount a account : StepM ε PUnit).run.Along (operation.LosesNothing config) s := by
  refine along_write (.refl config operation) fun r hr => ?_
  obtain rfl := Set.mem_singleton_iff.mp hr
  have hnew : (s.store.accounts.insert a account)[a]? = some account := by
    rw [Table.getElem?_insert, if_pos rfl]
  show operation.LosesNothing config (.account a) s.store.accounts[a]?
    (s.store.accounts.insert a account)[a]?
  rw [hnew]
  exact h

lemma along_putStakingState {staking : StakingState}
    (h : StakeKept (operation.Settles config) (StakingSnapshot.load s.store) staking) :
    (step (.write (.putStakingState staking)) : StepM ε PUnit).run.Along
      (operation.LosesNothing config) s := by
  refine along_write (.refl config operation) fun r hr => ?_
  obtain rfl := Set.mem_singleton_iff.mp hr
  exact h

lemma along_creditStored (recipient : Address) (amount : ℕ) (s : Shared) :
    (creditStoredSteps recipient amount : StepM ε PUnit).run.Along
      (operation.LosesNothing config) s := by
  refine along_bind (along_getAccount recipient s) ?_
  rintro account s' ⟨⟩
  exact along_putAccount ⟨le_rfl, fun _ => StakeKept.le_saturatingAdd amount⟩

lemma along_faucetSend (faucet : Option (Except String Address)) (recipient : Address)
    (amount : ℕ) (s : Shared) :
    (faucetSendSteps faucet recipient amount).run.Along
      (Operation.LosesNothing config (.faucetSend faucet recipient amount)) s := by
  rw [faucetSendSteps.eq_def]
  split_ifs
  · exact .done _ _
  · exact .done _ _
  · rcases faucet with _ | (err | faucetAddress)
    · exact along_creditStored recipient amount s
    · exact .done _ _
    · refine along_bind (along_getAccount faucetAddress s) ?_
      rintro account s' ⟨⟩
      split_ifs
      · exact .done _ _
      · refine along_bind (along_putAccount ⟨le_rfl, fun hnot => absurd rfl hnot⟩) ?_
        rintro _ s'' ⟨⟩
        exact along_creditStored recipient amount _

lemma along_zkUnshield (request : UnshieldRequest) (s : Shared) :
    (zkUnshieldSteps request).run.Along
      (Operation.LosesNothing config (.zkUnshield request)) s := by
  refine along_bind (along_step fun r => ?_) fun result s' _ => ?_
  · cases r with
    | pool => trivial
    | chain => trivial
    | account a => exact .refl config _ (.account a) _
    | staking => exact .refl config _ .staking _
  · rcases result with err | ⟨⟩
    · exact .done _ _
    · exact along_creditStored request.recipient request.value s'

lemma along_registerValidator (request : ValidatorJoinRequest) (s : Shared) :
    (registerValidatorSteps config request).run.Along
      (Operation.LosesNothing config (.registerValidator request)) s := by
  rw [registerValidatorSteps]
  rcases config.scheme.deriveAddress request.publicKey with err | address
  · exact .done _ _
  · dsimp only
    split_ifs
    · exact .done _ _
    · refine along_bind (along_loadStaking s) ?_
      rintro staking s' ⟨⟩
      split
      · exact .done _ _
      · rename_i hdelegate
        exact along_putStakingState ((StakeKept.ensureValidators _ _ _).trans (.delegate hdelegate))

lemma along_noteValidatorLiveness (address : Address) (s : Shared) :
    (noteValidatorLivenessSteps config.genesis.validators address).run.Along
      (Operation.LosesNothing config (.noteValidatorLiveness address)) s := by
  refine along_bind (along_loadStaking s) ?_
  rintro staking s' ⟨⟩
  split
  · exact .done _ _
  · rename_i hnoted
    exact along_putStakingState ((StakeKept.ensureValidators _ _ _).trans (.noteLiveness hnoted))

/-! ## The commits -/

/-- A step that changes neither accounts nor the staking state nor the pool. -/
def ChangesChainOnly (x : StoreAction) : Prop := ∀ r ∈ x.writes, r = .chain

lemma along_of_changesChainOnly {p : StepM ε α} (h : p.run.Only ChangesChainOnly) (s : Shared) :
    p.run.Along (operation.LosesNothing config) s := by
  refine h.along (fun x hx s r => ?_) s
  by_cases hr : r = .chain
  · obtain rfl := hr
    trivial
  · have hsame : sharedMemory.content (sharedMemory.after x s) r = sharedMemory.content s r :=
      sharedMemory.after_frame x s r fun hc => hr (hx r hc)
    rw [hsame]
    exact .refl config operation r _

lemma along_of_isExecution {p : StepM ε α} (h : p.run.Only StoreAction.IsExecution) (s : Shared) :
    p.run.Along (operation.LosesNothing config) s := by
  refine along_of_changesChainOnly (h.mono fun x hx r hr => ?_) s
  cases x with
  | write w =>
    cases w with
    | putEvmAccount address account => exact hr
    | _ => exact hx.elim
  | unshield request => exact hx.elim
  | _ => exact hr.elim

/-- What is shared stands between what was read and what is to be written. -/
def Between (old target : (r : SharedRecord) → r.Content) (s : Shared) : Prop :=
  ∀ r ≠ .chain, s.content r = old r ∨ s.content r = target r

/-- The write puts what is to be written into the records that it changes. -/
def Toward (target : (r : SharedRecord) → r.Content) (w : Write) : Prop :=
  ∀ (s : Shared), ∀ r ∈ w.records, r ≠ .chain →
    ((StoreAction.write w).after s).content r = target r

section

variable {old target : (r : SharedRecord) → r.Content}

lemma Between.write (h : Between old target s) {w : Write} (hw : Toward target w) :
    Between old target ((StoreAction.write w).after s) := by
  intro r hr
  by_cases hmem : r ∈ w.records
  · exact .inr (hw s r hmem hr)
  · rw [content_write_of_notMem hmem]
    exact h r hr

lemma along_write_toward (h : Between old target s) {w : Write} (hw : Toward target w)
    (hloses : ∀ r, operation.LosesNothing config r (old r) (target r)) :
    (step (.write w) : StepM ε PUnit).run.Along (operation.LosesNothing config) s := by
  refine along_write (.refl config operation) fun r hr => ?_
  by_cases hchain : r = .chain
  · obtain rfl := hchain
    trivial
  · rw [hw s r hr hchain]
    rcases h r hchain with heq | heq
    · rw [heq]
      exact hloses r
    · rw [heq]
      exact .refl config operation r _

/-- Writes that lead from what was read to what is to be written lose nothing if the two lose
nothing. -/
lemma along_writeAll {writes : List Write} (h : Between old target s)
    (hw : ∀ w ∈ writes, Toward target w)
    (hloses : ∀ r, operation.LosesNothing config r (old r) (target r)) :
    (writeAll writes : StepM ε PUnit).run.Along (operation.LosesNothing config) s ∧
      ∀ result s', (writeAll writes : StepM ε PUnit).run.alone s = (result, s') →
        Between old target s' := by
  induction writes generalizing s with
  | nil =>
    refine ⟨.done _ _, ?_⟩
    rintro result s' ⟨⟩
    exact h
  | cons w writes ih =>
    obtain ⟨hhead, htail⟩ := List.forall_mem_cons.mp hw
    obtain ⟨halong, hend⟩ := ih (h.write hhead) htail
    refine ⟨along_bind (along_write_toward h hhead hloses) ?_, hend⟩
    rintro _ s' ⟨⟩
    exact halong

end

variable [Revm] {e : ExecutionEngine} {scheme : SignatureScheme} {block : Block} {p : PreparedBlock}

/-- What a block that was replayed leads to. -/
def committed (p : PreparedBlock) (s : Shared) : (r : SharedRecord) → r.Content
  | .account a => p.state[a]?
  | .staking => p.accounting.staking.or s.store.stakingState
  | .pool => s.zkPool
  | .chain => s.store.chainOnly

omit [Revm] in
lemma toward_committed_atomicCommitBlock (p : PreparedBlock) (s : Shared)
    (finalized : FinalizedBlock) : Toward (committed p s) (.atomicCommitBlock finalized p.state) := by
  rintro s' r (rfl | ⟨a, ha, rfl⟩) hchain
  · exact absurd rfl hchain
  · show (Table.insertAll s'.store.accounts p.state.toList)[a]? = p.state[a]?
    rw [Table.getElem?_insertAll_toList, Std.ExtTreeMap.getElem?_eq_some_getElem ha]
    rfl

omit [Revm] in
lemma toward_committed_persistedWrites (p : PreparedBlock) (s : Shared) :
    ∀ w ∈ ExecutionEngine.persistedWrites p, Toward (committed p s) w := by
  intro w hw s' r hr hchain
  rw [ExecutionEngine.persistedWrites, List.mem_append, List.mem_append, List.mem_append] at hw
  rcases hw with ((hw | hw) | hw) | hw
  · obtain ⟨⟨a, account⟩, hmem, rfl⟩ := List.mem_map.mp hw
    obtain rfl := Set.mem_singleton_iff.mp hr
    show (s'.store.accounts.insert a account)[a]? = p.state[a]?
    rw [Table.getElem?_insert, if_pos rfl, Table.mem_toList_iff.mp hmem]
  · obtain ⟨staking, hstaking, rfl⟩ := Option.map_eq_some_iff.mp (Option.mem_toList.mp hw)
    obtain rfl := Set.mem_singleton_iff.mp hr
    show some staking = p.accounting.staking.or s.store.stakingState
    rw [hstaking]
    rfl
  · obtain ⟨governance, -, rfl⟩ := Option.map_eq_some_iff.mp (Option.mem_toList.mp hw)
    exact absurd (Set.mem_singleton_iff.mp hr) hchain
  · obtain ⟨transition, -, rfl⟩ := Option.map_eq_some_iff.mp (Option.mem_toList.mp hw)
    exact absurd (Set.mem_singleton_iff.mp hr) hchain

omit [Revm] in
/-- The accounting of a block keeps the stakes. -/
lemma stakeKept_applyBlockAccounting {economics : EconomicsParams}
    (heconomics : e.economics = some economics) {store : Store} {state state' : StateSnapshot}
    {proposer : Address} {fees height : ℕ} {accounting : AccountingArtifacts}
    (h : e.applyBlockAccounting store state proposer fees height = .ok (state', accounting))
    {settles : Prop} (hsettles : ExecutionEngine.ClosesEpoch economics height → settles) :
    StakeKept settles (StakingSnapshot.load store)
      ((accounting.staking.or store.stakingState).getD {}) := by
  by_cases hclose : ExecutionEngine.ClosesEpoch economics height
  · have hsettled := hsettles hclose
    rcases hstaking : accounting.staking with _ | staking
    · exact .refl settles _
    · -- The settlement of an epoch makes no record and removes none.
      have hrecords := ExecutionEngine.sameRecords_applyBlockAccounting h hstaking
      refine ⟨fun a v hv => ?_, fun hnot => absurd hsettled hnot⟩
      have hsome : ((StakingSnapshot.load store).ensureValidators
          e.validators).validators[a]?.isSome :=
        StakingSnapshot.isSome_ensureValidators.mpr (.inr (by rw [hv]; rfl))
      obtain ⟨v', hv'⟩ := Option.isSome_iff_exists.mp ((hrecords.isSome a).mpr hsome)
      exact ⟨v', hv', fun hnot => absurd hsettled hnot⟩
  · rw [ExecutionEngine.applyBlockAccounting, heconomics] at h
    dsimp only at h
    rw [if_neg hclose] at h
    cases h
    have hensure := StakeKept.ensureValidators settles (StakingSnapshot.load store) e.validators
    exact ⟨hensure.validators, hensure.delegations⟩

/-- The accounts after a block are those of the replay with the fees paid. -/
lemma ExecutionEngine.Prepares.state_eq {d d' : Disk} (h : Prepares e scheme block d p d') :
    p.state = e.payFees (replayNative block.transactions (StateSnapshot.load d.store))
      block.header.proposer p.proposerFees := by
  obtain ⟨state, hloop, haccounting⟩ := h.replay
  obtain ⟨-, results, -, hout⟩ := applyTransactions_ok_iff.mp hloop
  obtain ⟨rfl, -⟩ := Prod.mk.inj hout
  exact (applyBlockAccounting_ok _ _ _ _ _).1 _ _ haccounting

/-- A replayed block loses nothing of what it was replayed on. -/
lemma losesNothing_committed {d' : Disk}
    (h : ExecutionEngine.Prepares config.engine config.scheme block { store := s.store } p d')
    (hspends : ∀ tx ∈ block.transactions, operation.Spends tx.body.sender)
    (hsettles : ExecutionEngine.ClosesEpoch config.genesis.economics block.header.height →
      operation.Settles config) (r : SharedRecord) :
    operation.LosesNothing config r (s.content r) (committed p s r) := by
  cases r with
  | account a =>
    refine ⟨?_, fun hnot => ?_⟩
    · have hcounts := ExecutionEngine.countsSent_prepareBlock
        (ExecutionEngine.prepareBlock_ok_iff.mpr h) a
      show (StateSnapshot.account s.store.accounts a).nonce ≤ (p.state.account a).nonce
      rw [hcounts.1]
      exact Nat.le_add_right _ _
    · have hothers : ∀ tx ∈ block.transactions, tx.body.sender ≠ a :=
        fun tx htx heq => hnot (heq ▸ hspends tx htx)
      have hfits : min (StateSnapshot.account s.store.accounts a).balance (maxValue 128) < 2 ^ 128 :=
        le_maxValue_iff.mp (min_le_right _ _)
      have hkept := ExecutionEngine.le_balance_replayNative hothers
        (min_le_left (StateSnapshot.account s.store.accounts a).balance (maxValue 128)) hfits
      have hpaid := ExecutionEngine.le_balance_payFees (e := config.engine) rfl hkept hfits
        block.header.proposer p.proposerFees
      show min _ _ ≤ (p.state.account a).balance
      rw [h.state_eq]
      exact hpaid
  | staking =>
    obtain ⟨state, hloop, haccounting⟩ := h.replay
    have hkept := stakeKept_applyBlockAccounting rfl haccounting hsettles
    have hstaking : d'.store.stakingState = s.store.stakingState := by
      rw [h.onlyEvmWrites.store_eq]
    rw [StakingSnapshot.load, hstaking] at hkept
    exact hkept
  | _ => trivial

/-- A replay leaves accounts and staking state as they were. -/
lemma between_committed {d' : Disk}
    (h : ExecutionEngine.Prepares config.engine config.scheme block { store := s.store } p d') :
    Between s.content (committed p s) ⟨d'.store, s.zkPool⟩ := by
  intro r hr
  have hstore := h.onlyEvmWrites.store_eq
  refine .inl ?_
  cases r with
  | account a =>
    show d'.store.accounts[a]? = s.store.accounts[a]?
    rw [hstore]
  | staking =>
    show d'.store.stakingState = s.store.stakingState
    rw [hstore]
  | pool => rfl
  | chain => exact absurd rfl hr

/-- What a replay that has run alone has found. -/
lemma prepares_of_alone {s' : Shared}
    (h : (ExecutionEngine.prepareBlockSteps e scheme block).run.alone s = (.ok p, s')) :
    ∃ d', ExecutionEngine.Prepares e scheme block { store := s.store } p d' ∧
      s' = ⟨d'.store, s.zkPool⟩ := by
  have hruns : StepM.Runs (ExecutionEngine.prepareBlockSteps e scheme block) { store := s.store }
      (e.prepareBlock scheme block { store := s.store }) :=
    ExecutionEngine.runs_prepareBlock block _
  have halone := hruns s.zkPool
  rcases hprepare : e.prepareBlock scheme block { store := s.store } with ⟨p', d'⟩ | ⟨err, d'⟩
  · rw [hprepare] at halone
    obtain ⟨hp, rfl⟩ := Prod.mk.inj (h.symm.trans halone)
    obtain rfl := Except.ok.inj hp
    exact ⟨d', ExecutionEngine.prepareBlock_ok_iff.mp hprepare, rfl⟩
  · rw [hprepare] at halone
    cases (Prod.mk.inj (h.symm.trans halone)).1

lemma along_importBlock (finalized : FinalizedBlock) (s : Shared) :
    (config.engine.validateAndCommitSteps config.scheme finalized).run.Along
      (Operation.LosesNothing config (.importBlock finalized)) s := by
  refine along_bind (along_of_isExecution (ExecutionEngine.only_prepareBlock _) s) ?_
  intro p s' hrun
  obtain ⟨d', hp, rfl⟩ := prepares_of_alone hrun
  have hloses : ∀ r, (Operation.importBlock finalized).LosesNothing config r (s.content r)
      (committed p s r) := losesNothing_committed hp (fun tx htx => ⟨tx, htx, rfl⟩) id
  have hbetween := between_committed hp
  have hcommit := toward_committed_atomicCommitBlock p s finalized
  split_ifs
  · exact .done _ _
  · exact .done _ _
  · refine along_bind (along_write_toward hbetween hcommit hloses) ?_
    rintro _ s'' ⟨⟩
    exact (along_writeAll (hbetween.write hcommit) (toward_committed_persistedWrites p s) hloses).1

lemma along_finalizeBlock (block : Block) (certificate : CommitCertificate) (s : Shared) :
    (config.engine.executeAndCommitSteps config.scheme block certificate).run.Along
      (Operation.LosesNothing config (.finalizeBlock block certificate)) s := by
  refine along_bind (along_of_isExecution (ExecutionEngine.only_prepareBlock _) s) ?_
  intro p s' hrun
  obtain ⟨d', hp, rfl⟩ := prepares_of_alone hrun
  have hloses : ∀ r, (Operation.finalizeBlock block certificate).LosesNothing config r
      (s.content r) (committed p s r) :=
    losesNothing_committed hp (fun tx htx => ⟨tx, htx, rfl⟩) id
  obtain ⟨halong, hend⟩ := along_writeAll (between_committed hp)
    (toward_committed_persistedWrites p s) hloses
  refine along_bind halong ?_
  intro _ s'' hwrites
  exact along_write_toward (hend _ _ hwrites) (toward_committed_atomicCommitBlock p s _) hloses

/-- Run alone, no operation loses anything. -/
lemma along_program (config : NodeConfig) (operation : Operation) (s : Shared) :
    (operation.program config).Along (operation.LosesNothing config) s := by
  cases operation with
  | faucetSend faucet recipient amount => exact along_succeeds (along_faucetSend _ _ _ s)
  | zkUnshield request => exact along_succeeds (along_zkUnshield request s)
  | registerValidator request => exact along_succeeds (along_registerValidator request s)
  | noteValidatorLiveness address => exact along_succeeds (along_noteValidatorLiveness address s)
  | importBlock finalized => exact along_succeeds (along_importBlock finalized s)
  | finalizeBlock block certificate => exact along_succeeds (along_finalizeBlock _ _ s)

/-! ## Runs -/

/-- The operations of some tasks before their first steps. -/
def concurrently {J : Type} (config : NodeConfig) (operations : J → Operation) (s : Shared) :
    Interleaving sharedMemory J Bool :=
  { memory := s, rest := fun j => (operations j).program config }

/-- **Lost updates.**  Take a run of any number of operations whose conflicts can be ordered: of
two steps of different operations that touch a common record which one of them writes, the earlier
one belongs to the operation that comes first.  Then no step of the run loses anything, and if the
operations come to their end, what they leave behind and whether they have succeeded is as if they
had run one after the other in that order. -/
theorem run_losesNothing {J : Type} [DecidableEq J] (config : NodeConfig)
    (operations : J → Operation) (s : Shared) {schedule order : List J} (hnodup : order.Nodup)
    (hmem : ∀ j ∈ schedule, j ∈ order)
    (hordered : Interleaving.Ordered order
      ((concurrently config operations s).trace schedule)) :
    (∀ earlier j later, schedule = earlier ++ j :: later → ∀ r,
      (operations j).LosesNothing config r
        (((concurrently config operations s).run earlier).memory.content r)
        (((concurrently config operations s).run (earlier ++ [j])).memory.content r)) ∧
    ((∀ j ∈ order, ∃ succeeded,
        ((concurrently config operations s).run schedule).rest j = .done succeeded) →
      (concurrently config operations s).run schedule =
        (concurrently config operations s).serially order) := by
  refine ⟨?_, fun hdone => ?_⟩
  · rintro earlier j later rfl r
    have hearlier : Interleaving.Ordered order
        ((concurrently config operations s).trace (earlier ++ [j])) := by
      rw [List.append_cons, Interleaving.trace_append] at hordered
      exact (List.pairwise_append.mp hordered).1
    rw [Interleaving.run_append]
    exact Interleaving.step_along (fun j r x => .refl config (operations j) r x)
      (fun j s => along_program config (operations j) s) hearlier r
  · exact Interleaving.run_eq_serially hnodup
      (fun e he => hmem _ (Interleaving.mem_of_mem_trace he)) hdone hordered

end

/-! ## Operations on different records -/

section

variable [Hashing] {ε : Type}

open StepM

/-- A step that touches nothing but some records. -/
def TouchesOnly (records : Set SharedRecord) (x : StoreAction) : Prop :=
  ∀ r, r ∈ x.reads ∨ r ∈ x.writes → r ∈ records

lemma not_conflict_of_touchesOnly {records records' : Set SharedRecord} {x y : StoreAction}
    (hx : TouchesOnly records x) (hy : TouchesOnly records' y) (h : Disjoint records records') :
    ¬ sharedMemory.Conflict x y := by
  rintro ⟨r, ⟨hrx, hry⟩ | ⟨hrx, hry⟩ | ⟨hrx, hry⟩⟩
  · exact Set.disjoint_left.mp h (hx r (.inr hrx)) (hy r (.inr hry))
  · exact Set.disjoint_left.mp h (hx r (.inr hrx)) (hy r (.inl hry))
  · exact Set.disjoint_left.mp h (hx r (.inl hrx)) (hy r (.inr hry))

omit [Hashing] in
lemma touchesOnly_putStakingState (staking : StakingState) :
    TouchesOnly {.staking} (.write (.putStakingState staking)) := by
  rintro r (⟨-, hr⟩ | hr)
  · exact hr
  · exact hr

lemma only_creditStored (recipient : Address) (amount : ℕ) :
    (creditStoredSteps recipient amount : StepM ε PUnit).run.Only
      (TouchesOnly {.account recipient}) := by
  refine only_bind (only_bind (only_step ?_) fun _ => .done _) fun account => only_step ?_
  · rintro r (hr | hr)
    · exact hr
    · exact hr.elim
  · rintro r (⟨-, hr⟩ | hr)
    · exact hr
    · exact hr

/-- A registration touches the staking state only. -/
lemma only_registerValidator (config : NodeConfig) (request : ValidatorJoinRequest) :
    (registerValidatorSteps config request).run.Only (TouchesOnly {.staking}) := by
  rw [registerValidatorSteps]
  rcases config.scheme.deriveAddress request.publicKey with err | address
  · exact .done _
  · dsimp only
    split_ifs
    · exact .done _
    · refine only_bind (only_bind (only_step ?_) fun _ => .done _) fun staking => ?_
      · rintro r (hr | hr)
        · exact hr
        · exact hr.elim
      · split
        · exact .done _
        · exact only_step (touchesOnly_putStakingState _)

end

/-! ## A race -/

section

open Transparent ExecutionEngine

/-- A block with a payment of the account of the key `1`. -/
def paidBlock : FinalizedBlock :=
  uncertified (propose faucetNode.engine funded [2] 1 0 0 [payment [1] (address [9]) 5 0 10 none])
    (receiptsOf 1 [payment [1] (address [9]) 5 0 10 none] [none])

/-- A validator that joins with a key. -/
def registration (key : Bytes) : Operation :=
  .registerValidator { publicKey := key, p2pAddress := "", rpcAddress := "", selfBond := 7 }

/-- A faucet request for the account races with the block. -/
def faucetAndBlock : Interleaving sharedMemory Bool Bool :=
  concurrently faucetNode
    (fun j => if j then .faucetSend none (address [1]) 1000 else .importBlock paidBlock)
    ⟨funded.store, {}⟩

/-- Two registrations race. -/
def twoRegistrations : Interleaving sharedMemory Bool Bool :=
  concurrently faucetNode (fun j => if j then registration [3] else registration [4]) ⟨funded.store, {}⟩

/-- All steps of the second operation come between the first and the second step of the first. -/
def overtaking : List Bool := true :: (List.replicate 12 false ++ [true])

/-- The nonce of the account that pays, and the balance of the account that is paid. -/
def paidState (s : Shared) : ℕ × ℕ :=
  ((StateSnapshot.account s.store.accounts (address [1])).nonce,
    (StateSnapshot.account s.store.accounts (address [9])).balance)

/-- The number of the registered validators. -/
def registered (s : Shared) : ℕ := (StakingSnapshot.load s.store).validators.size

/-- The faucet writes back the account as it was before the block, so that the payment is there and
its nonce is not; and of two registrations one disappears.  Neither happens in any order of the
operations. -/
theorem overtaken_updates_lost :
    (∀ j, (faucetAndBlock.run overtaking).rest j = .done true) ∧
    paidState (faucetAndBlock.run overtaking.dropLast).memory = (1, 5) ∧
    paidState (faucetAndBlock.run overtaking).memory = (0, 5) ∧
    (∀ first, (faucetAndBlock.run overtaking).memory.store.accounts ≠
      (faucetAndBlock.serially [first, !first]).memory.store.accounts) ∧
    (∀ j, (twoRegistrations.run overtaking).rest j = .done true) ∧
    (∀ first, (twoRegistrations.run overtaking).memory.store.stakingState ≠
      (twoRegistrations.serially [first, !first]).memory.store.stakingState) := by
  obtain ⟨hdone, hbefore, hpaid, hserial⟩ :
      (∀ j, ((faucetAndBlock.run overtaking).rest j).result? = some true) ∧
      paidState (faucetAndBlock.run overtaking.dropLast).memory = (1, 5) ∧
      paidState (faucetAndBlock.run overtaking).memory = (0, 5) ∧
      ∀ first, paidState (faucetAndBlock.serially [first, !first]).memory ≠ (0, 5) := by
    decide +kernel
  have hone : registered (twoRegistrations.run overtaking).memory = 1 := by decide +kernel
  have htwo : ∀ first, registered (twoRegistrations.serially [first, !first]).memory = 2 := by
    decide +kernel
  have hdone' : ∀ j, ((twoRegistrations.run overtaking).rest j).result? = some true := by
    decide +kernel
  refine ⟨fun j => Program.eq_done_of_result? (hdone j), hbefore, hpaid,
    fun first hsame => ?_, fun j => Program.eq_done_of_result? (hdone' j), fun first hsame => ?_⟩
  · refine hserial first ?_
    rw [← hpaid, paidState, paidState, hsame]
  · have hsize : registered (twoRegistrations.run overtaking).memory =
        registered (twoRegistrations.serially [first, !first]).memory := by
      rw [registered, registered, StakingSnapshot.load, StakingSnapshot.load, hsame]
    rw [hone, htwo first] at hsize
    cases hsize

/-- A faucet request and a registration race. -/
def faucetAndRegistration : Interleaving sharedMemory Bool Bool :=
  concurrently faucetNode
    (fun j => if j then .faucetSend none (address [1]) 1000 else registration [3]) ⟨funded.store, {}⟩

/-- The record that each of the two touches. -/
def raced : Bool → Set SharedRecord
  | true => {.account (address [1])}
  | false => {.staking}

/-- The two touch different records, so that they may interleave. -/
theorem faucet_and_registration_serial :
    faucetAndRegistration.run [true, false, true, false] =
      faucetAndRegistration.serially [true, false] := by
  have honly : ∀ j, (faucetAndRegistration.rest j).Only (TouchesOnly (raced j)) := by
    intro j
    cases j with
    | true => exact (only_creditStored (address [1]) 1000).bind fun _ => .done _
    | false => exact (only_registerValidator faucetNode _).bind fun _ => .done _
  have hdisjoint : ∀ i j, i ≠ j → Disjoint (raced i) (raced j) := by
    intro i j hne
    rw [Set.disjoint_left]
    rintro r hi hj
    cases i <;> cases j <;> first | exact hne rfl | (cases hi; cases hj)
  have hordered : Interleaving.Ordered [true, false]
      (faucetAndRegistration.trace [true, false, true, false]) :=
    Interleaving.ordered_of_only honly
      (fun i j _ _ hne hx hy => not_conflict_of_touchesOnly hx hy (hdisjoint i j hne)) _ _
  have hdone : ∀ j, ((faucetAndRegistration.run [true, false, true, false]).rest j).result? =
      some true := by
    decide +kernel
  exact (run_losesNothing faucetNode _ _ (by decide) (by decide) hordered).2 fun j _ =>
    ⟨true, Program.eq_done_of_result? (hdone j)⟩

end

end ZenoChain
