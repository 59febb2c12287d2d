/-
# Committed state against committed root

Every commit leaves the accounts whose root its header names.  The faucet and the
withdrawal from the shielded pool write accounts outside of any block.
-/
import ZenoChain.Node.Runtime

namespace ZenoChain

open Word ExecutionEngine

/-- The stored accounts have the root that the latest stored block names. -/
def RootMatches [Hashing] (store : Store) : Prop :=
  ∀ latest, store.latestBlock = some latest →
    (StateSnapshot.load store).stateRoot = latest.block.header.stateRoot

/-- In memory, where the latest block is the one of the greatest height, no stored height is
above the given one. -/
def NotBelowLatest (store : Store) (height : ℕ) : Prop :=
  store.backend = .memory → ∀ h : ℕ, store.blocksByHeight[h]?.isSome → h ≤ height

/-- A faucet request that is refused, or that gives back what it takes. -/
def FaucetHarmless (store : Store) (faucet : Option (Except String Address)) (recipient : Address)
    (amount : ℕ) : Prop :=
  maxFaucetAmount < amount ∨ amount = 0 ∨
  match faucet with
  | none =>
    store.accounts[recipient]?.isSome ∧
    saturatingAdd 128 (StateSnapshot.account store.accounts recipient).balance amount =
      (StateSnapshot.account store.accounts recipient).balance
  | some (.error _) => True
  | some (.ok faucetAddress) =>
    (StateSnapshot.account store.accounts faucetAddress).balance < amount ∨
    (recipient = faucetAddress ∧
      (StateSnapshot.account store.accounts faucetAddress).balance < 2 ^ 128)

/-- A withdrawal that is refused, or that adds nothing to a stored account. -/
def UnshieldHarmless [Hashing] (n : Node) (request : UnshieldRequest) : Prop :=
  n.zkPool.nullifiers.contains request.nullifier ∨ request.merkleRoot ≠ n.zkPool.tree.root ∨
  ¬ verifyCommitmentProof request.merkleProof n.zkPool.tree.root ∨
  (n.disk.store.accounts[request.recipient]?.isSome ∧
    saturatingAdd 128 (StateSnapshot.account n.disk.store.accounts request.recipient).balance
      request.value = (StateSnapshot.account n.disk.store.accounts request.recipient).balance)

/-- An event that keeps stored accounts and latest block together: a commit that is not below
the latest block, or an RPC call that changes no account once a block is stored. -/
def Harmless [Hashing] (n : Node) : NodeEvent → Prop
  | .imported finalized => NotBelowLatest n.disk.store finalized.block.header.height
  | .finalized block _ => NotBelowLatest n.disk.store block.header.height
  | .faucetSend faucet recipient amount =>
    n.disk.store.latestBlock = none ∨ FaucetHarmless n.disk.store faucet recipient amount
  | .zkUnshield request => n.disk.store.latestBlock = none ∨ UnshieldHarmless n request
  | .zkShield _ | .registerValidator _ | .submitTx _ => True

/-! ## Steps that keep accounts and latest block -/

section

variable [Hashing]

/-- Two stores with the same accounts and the same latest block. -/
def SameAccountsAndLatest (s s' : Store) : Prop :=
  s'.accounts = s.accounts ∧ s'.latestBlock = s.latestBlock

omit [Hashing] in
lemma SameAccountsAndLatest.rfl {s : Store} : SameAccountsAndLatest s s := ⟨Eq.refl _, Eq.refl _⟩

lemma RootMatches.of_same {s s' : Store} (h : RootMatches s) (hs : SameAccountsAndLatest s s') :
    RootMatches s' := by
  intro latest hlatest
  rw [hs.2] at hlatest
  rw [StateSnapshot.load, hs.1]
  exact h latest hlatest

lemma OnlyEvmWrites.same {d d' : Disk} (h : OnlyEvmWrites d d') :
    SameAccountsAndLatest d.store d'.store := by
  rw [h.store_eq]
  exact ⟨Eq.refl _, Eq.refl _⟩

omit [Hashing] in
/-- Writing back the account that is stored changes nothing. -/
lemma insert_same {accounts : StateSnapshot} {a : Address} {account : Account}
    (hsome : accounts[a]?.isSome) (h : account = StateSnapshot.account accounts a) :
    accounts.insert a account = accounts := by
  refine Std.ExtTreeMap.ext_getElem? fun b => ?_
  obtain ⟨stored, hstored⟩ := Option.isSome_iff_exists.mp hsome
  rw [Table.getElem?_insert]
  by_cases hb : b = a
  · rw [if_pos hb, hb, hstored, h, StateSnapshot.account, hstored, Option.getD_some]
  · rw [if_neg hb]

lemma creditStored_run (recipient : Address) (amount : ℕ) (d : Disk) :
    creditStored recipient amount d = .ok ⟨⟩ (d.record (.write (.putAccount recipient
      { StateSnapshot.account d.store.accounts recipient with
        balance := saturatingAdd 128
          (StateSnapshot.account d.store.accounts recipient).balance amount }))) := rfl

/-- A credit that a saturated account does not take changes nothing. -/
lemma creditStored_same {recipient : Address} {amount : ℕ} {d : Disk}
    (hsome : d.store.accounts[recipient]?.isSome)
    (h : saturatingAdd 128 (StateSnapshot.account d.store.accounts recipient).balance amount =
      (StateSnapshot.account d.store.accounts recipient).balance) :
    SameAccountsAndLatest d.store (Handler.final (creditStored recipient amount d)).store := by
  rw [creditStored_run, h]
  exact ⟨insert_same hsome (Eq.refl _), Eq.refl _⟩

omit [Hashing] in
/-- What the faucet does to the accounts when it takes from an address and gives to it. -/
lemma faucet_round_trip {accounts : StateSnapshot} {a : Address} {amount : ℕ}
    (hle : amount ≤ (accounts.account a).balance) (hpos : 0 < amount)
    (hfits : (accounts.account a).balance < 2 ^ 128) :
    (accounts.insert a { accounts.account a with
        balance := saturatingSub (accounts.account a).balance amount }).insert a
      { nonce := (accounts.account a).nonce
        balance := saturatingAdd 128 (saturatingSub (accounts.account a).balance amount) amount } =
      accounts := by
  have hback : saturatingSub (accounts.account a).balance amount + amount =
      (accounts.account a).balance := Nat.sub_add_cancel hle
  have hsome : accounts[a]?.isSome := by
    rcases hnone : accounts[a]? with _ | account
    · rw [StateSnapshot.account, hnone] at hle
      exact absurd hle (by simpa using hpos.ne')
    · rfl
  have hadd : saturatingAdd 128 (saturatingSub (accounts.account a).balance amount) amount =
      (accounts.account a).balance := by
    rw [saturatingAdd_of_lt (by rw [hback]; exact hfits), hback]
  rw [hadd]
  refine Std.ExtTreeMap.ext_getElem? fun b => ?_
  obtain ⟨stored, hstored⟩ := Option.isSome_iff_exists.mp hsome
  rw [Table.getElem?_insert, Table.getElem?_insert]
  by_cases hb : b = a
  · rw [if_pos hb, hb, hstored, StateSnapshot.account, hstored]
    rfl
  · rw [if_neg hb, if_neg hb]

lemma faucetSend_same {faucet : Option (Except String Address)} {recipient : Address} {amount : ℕ}
    {d : Disk} (h : FaucetHarmless d.store faucet recipient amount) :
    SameAccountsAndLatest d.store (Handler.final (faucetSend faucet recipient amount d)).store := by
  rw [faucetSend.eq_def]
  split_ifs with hmax hzero
  · exact .rfl
  · exact .rfl
  · replace h := (h.resolve_left hmax).resolve_left hzero
    rcases faucet with _ | (err | faucetAddress)
    · exact creditStored_same h.1 h.2
    · exact .rfl
    · dsimp only at h ⊢
      rw [Handler.bind_ok (readStore_run d)]
      split_ifs with hempty
      · exact .rfl
      · rcases h with hlt | ⟨rfl, hfits⟩
        · exact absurd hlt hempty
        · rw [Handler.bind_ok (write_run _ d), creditStored_run]
          refine ⟨?_, Eq.refl _⟩
          have hround := faucet_round_trip (not_lt.mp hempty) (Nat.pos_of_ne_zero hzero) hfits
          simp only [Handler.final_ok, Disk.store_record_write, Store.apply, StateSnapshot.account,
            Table.getElem?_insert, if_true, Option.getD_some]
          exact hround

/-- The faucet stores no block. -/
lemma latestBlock_faucetSend (faucet : Option (Except String Address)) (recipient : Address)
    (amount : ℕ) (d : Disk) :
    (Handler.final (faucetSend faucet recipient amount d)).store.latestBlock =
      d.store.latestBlock := by
  rw [faucetSend.eq_def]
  split_ifs
  · rfl
  · rfl
  · rcases faucet with _ | (err | faucetAddress)
    · rfl
    · rfl
    · dsimp only
      rw [Handler.bind_ok (readStore_run d)]
      split_ifs <;> rfl

lemma registerValidator_same {config : NodeConfig} {request : ValidatorJoinRequest} {d : Disk} :
    SameAccountsAndLatest d.store (Handler.final (registerValidator config request d)).store := by
  rcases registerValidator_cases config request d with heq | ⟨_, _, -, heq⟩
  · rw [heq]
    exact .rfl
  · rw [heq]
    exact ⟨Eq.refl _, Eq.refl _⟩

/-! ## Commits -/

/-- After a commit that is not below the latest block, the committed block is the latest. -/
lemma CommitsTo.latestBlock {d d' : Disk} {finalized : FinalizedBlock} {state : StateSnapshot}
    (hc : CommitsTo d finalized state d')
    (habove : NotBelowLatest d.store finalized.block.header.height) :
    d'.store.latestBlock = some finalized := by
  rw [Store.latestBlock]
  split
  · rename_i hmemory
    rw [hc.byHeight, Table.last_insert]
    · rfl
    · intro h hsome hne
      have hle := habove (hc.backend ▸ hmemory) h hsome
      exact Nat.compare_eq_lt.mpr (by omega)
  · exact hc.metaLatest

variable [Revm] {e : ExecutionEngine} {scheme : SignatureScheme}

/-- A block that was executed and committed leaves its own state behind. -/
lemma commitsTo_of_executeAndCommit {block : Block} {certificate : CommitCertificate} {d d' : Disk}
    (h : executeAndCommit e scheme block certificate d = .ok ⟨⟩ d') :
    ∃ p d₁ finalized, Prepares e scheme block d p d₁ ∧ finalized.block = block ∧
      CommitsTo d finalized p.state d' := by
  rw [executeAndCommit] at h
  obtain ⟨r, d₂, hrun, hcommit⟩ := Handler.bind_eq_ok_iff.mp h
  obtain ⟨p, d₁, hp, rfl, rfl⟩ := executeBlock_ok_iff.mp hrun
  cases hcommit
  obtain ⟨h₁, h₂, h₃, -, -⟩ := hp.onlyEvmWrites.index
  obtain ⟨i₁, i₂, i₃, i₄⟩ := index_recordAll (fun _ he => isAccounting_of_mem he) d₁
  refine ⟨p, d₁, _, hp, rfl, ?_, i₂.trans h₂, ?_, rfl, ?_⟩
  · rw [Disk.committed, Disk.journal_record, List.filterMap_append]
    exact congrArg (· ++ _) (i₁.trans h₁)
  · show Std.ExtTreeMap.insert (d₁.recordAll (accountingWrites p)).store.blocksByHeight _ _ = _
    rw [i₃, h₃]
  · show Table.insertAll (d₁.recordAll (accountingWrites p)).store.accounts p.state.toList = p.state
    rw [accounts_accountingWrites, hp.insertAll_accounts, Table.insertAll_toList_of_subset fun _ h => h]

/-- A commit keeps the root: a rejected block touches no account, and an accepted one is the
latest block and leaves the accounts whose root it names. -/
lemma RootMatches.of_commit {d d' : Disk} {block : Block} {p : PreparedBlock} {d₁ : Disk}
    {finalized : FinalizedBlock} (hp : Prepares e scheme block d p d₁)
    (hblock : finalized.block = block) (hc : CommitsTo d finalized p.state d')
    (habove : NotBelowLatest d.store block.header.height) : RootMatches d'.store := by
  intro latest hlatest
  rw [hc.latestBlock (hblock ▸ habove)] at hlatest
  obtain rfl := Option.some.inj hlatest
  rw [StateSnapshot.load, hc.accounts, hblock, hp.stateRoot]

lemma onlyEvmWrites_of_executeBlock_error {block : Block} {d d' : Disk} {err : ExecutionError}
    (h : e.executeBlock scheme block d = .error err d') : OnlyEvmWrites d d' := by
  rw [executeBlock] at h
  rcases hp : e.prepareBlock scheme block d with ⟨p, d₁⟩ | ⟨err', d₁⟩
  · rw [Handler.bind_ok hp] at h
    cases h
  · rw [Handler.bind_error hp] at h
    cases h
    have hd := keeps_prepareBlock e scheme block d
    rwa [hp] at hd

lemma onlyEvmWrites_of_executeAndCommit_error {block : Block}
    {certificate : CommitCertificate} {d d' : Disk} {err : ExecutionError}
    (h : executeAndCommit e scheme block certificate d = .error err d') : OnlyEvmWrites d d' := by
  rw [executeAndCommit] at h
  rcases hexec : e.executeBlock scheme block d with ⟨r, d₁⟩ | ⟨err', d₁⟩
  · rw [Handler.bind_ok hexec] at h
    cases h
  · rw [Handler.bind_error hexec] at h
    cases h
    exact onlyEvmWrites_of_executeBlock_error hexec

/-! ## Runs of a node -/

/-- One harmless event keeps the root. -/
lemma RootMatches.handle {config : NodeConfig} {n : Node} {event : NodeEvent}
    (h : RootMatches n.disk.store) (hevent : Harmless n event) :
    RootMatches (n.handle config event).disk.store := by
  have hvacuous : ∀ {s' : Store}, n.disk.store.latestBlock = none →
      s'.latestBlock = n.disk.store.latestBlock → RootMatches s' := by
    intro s' hnone hsame latest hlatest
    rw [hsame, hnone] at hlatest
    cases hlatest
  cases event with
  | imported finalized =>
    show RootMatches (Handler.final (config.engine.validateAndCommitFinalizedBlock config.scheme
      finalized n.disk)).store
    rcases hrun : config.engine.validateAndCommitFinalizedBlock config.scheme finalized n.disk with
      ⟨⟨⟩, d'⟩ | ⟨err, d'⟩
    · obtain ⟨p, d₁, hp, hc⟩ := commitsTo_of_validateAndCommit hrun
      exact .of_commit hp rfl hc hevent
    · exact h.of_same (onlyEvmWrites_of_error hrun).same
  | finalized block certificate =>
    show RootMatches (Handler.final (executeAndCommit config.engine config.scheme block certificate
      n.disk)).store
    rcases hrun : executeAndCommit config.engine config.scheme block certificate n.disk with
      ⟨⟨⟩, d'⟩ | ⟨err, d'⟩
    · obtain ⟨p, d₁, finalized, hp, hblock, hc⟩ := commitsTo_of_executeAndCommit hrun
      exact .of_commit hp hblock hc hevent
    · exact h.of_same (onlyEvmWrites_of_executeAndCommit_error hrun).same
  | faucetSend faucet recipient amount =>
    rcases hevent with hnone | hharmless
    · exact hvacuous hnone (latestBlock_faucetSend faucet recipient amount n.disk)
    · exact h.of_same (faucetSend_same hharmless)
  | zkShield request => exact h
  | zkUnshield request =>
    rcases hrun : ShieldedPool.unshield request n.zkPool with ⟨⟨⟩, zkPool⟩ | ⟨err, zkPool⟩
    · rw [Node.handle, hrun]
      rcases hevent with hnone | hharmless
      · exact hvacuous hnone rfl
      · rw [ShieldedPool.unshield] at hrun
        obtain ⟨_, pool, hspend, -⟩ := Handler.bind_eq_ok_iff.mp hrun
        obtain ⟨hspent, hroot, hproof, -⟩ := ShieldedPool.spend_ok hspend
        rcases hharmless with hc | hc | hc | ⟨hsome, hsame⟩
        · exact absurd hc hspent
        · exact absurd hroot hc
        · exact absurd hproof hc
        · exact h.of_same (creditStored_same hsome hsame)
    · rw [Node.handle, hrun]
      exact h
  | registerValidator request => exact h.of_same registerValidator_same
  | submitTx tx =>
    rw [Node.handle]
    split
    · exact h
    · split
      · exact h
      · exact h

/-- Every event of a sequence is harmless in the state in which it happens. -/
def HarmlessRun (config : NodeConfig) : Node → List NodeEvent → Prop
  | _, [] => True
  | n, event :: events => Harmless n event ∧ HarmlessRun config (n.handle config event) events

/-- **Committed state against committed root.**  In every state that a node reaches from a
store without blocks by commits that are not below the latest block and by RPC calls that
change no account once a block is stored, the stored accounts have the root that the latest
stored block names. -/
theorem run_rootMatches (config : NodeConfig) {n : Node} {events : List NodeEvent}
    (hempty : n.disk.store.latestBlock = none) (hrun : HarmlessRun config n events) :
    RootMatches (n.run config events).disk.store := by
  have key : ∀ (events : List NodeEvent) (n : Node), RootMatches n.disk.store →
      HarmlessRun config n events → RootMatches (n.run config events).disk.store := by
    intro events
    induction events with
    | nil => exact fun _ h _ => h
    | cons event events ih => exact fun n h hrun => ih _ (h.handle hrun.1) hrun.2
  refine key events n (fun latest hlatest => ?_) hrun
  rw [hempty] at hlatest
  cases hlatest

end

/-! ## The faucet after a block -/

section

open Transparent

/-- A node of the chain `zeno` without validators. -/
def faucetNode : NodeConfig :=
  { chainId := "zeno", scheme
    genesis :=
      { chainId := "zeno", evmChainId := none, accounts := ∅, validators := []
        consensus :=
          { proposalTimeoutMs := 1000, voteTimeoutMs := 1000, maxTransactionsPerBlock := 10
            maxBlockBytes := 100000 }
        economics :=
          { minimumSelfBond := 1, epochLength := 0, unbondingEpochs := 1, treasuryBps := 1000
            downtimeSlashBps := 100, doubleSignSlashBps := 500 } } }

/-- The first block of the node's chain. -/
def emptyBlock : FinalizedBlock := uncertified (propose faucetNode.engine funded [2] 1 0 0 []) []

/-- After a block and a faucet request without a faucet key, the accounts no longer have the
root of the block. -/
theorem faucet_breaks_root : funded.store.latestBlock = none ∧
    ¬ RootMatches (Node.run faucetNode { disk := funded }
      [.imported emptyBlock, .faucetSend none (address [9]) 1000]).disk.store := by
  refine ⟨by decide +kernel, fun h => ?_⟩
  have hbroken : (Node.run faucetNode { disk := funded }
      [.imported emptyBlock, .faucetSend none (address [9]) 1000]).disk.store.latestBlock.any
      (fun latest => (StateSnapshot.load (Node.run faucetNode { disk := funded }
        [.imported emptyBlock, .faucetSend none (address [9]) 1000]).disk.store).stateRoot ≠
          latest.block.header.stateRoot) := by
    decide +kernel
  obtain ⟨latest, hlatest, hne⟩ := (Option.any_eq_true _ _).mp hbroken
  exact of_decide_eq_true hne (h latest hlatest)

/-- A refused faucet request leaves the root of the block in place. -/
theorem refused_faucet_keeps_root : RootMatches (Node.run faucetNode { disk := funded }
    [.imported emptyBlock, .faucetSend none (address [9]) 0]).disk.store := by
  refine run_rootMatches faucetNode (by decide +kernel) ⟨fun _ h hsome => ?_, .inr (.inr (.inl rfl)),
    trivial⟩
  have hnone : funded.store.blocksByHeight[h]? = none := rfl
  rw [hnone] at hsome
  cases hsome

end

end ZenoChain
