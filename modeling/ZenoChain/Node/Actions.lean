/-
# Nodes in operation

A validator node handles the events of its engine and serves requests, and its process may stop at
any point of a handler and start again; every start runs the bootstrap.  Apart from liveness notes,
it is blocks, evidence and bonds that change the staking state.
-/
import ZenoChain.Consensus.Members
import ZenoChain.Consensus.Restart
import ZenoChain.Consensus.Stable
import ZenoChain.Node.Backing

namespace ZenoChain

open Word ExecutionEngine

/-! ## Requests -/

/-- The effect leaves staking and governance alone, and commits no block. -/
def Effect.leavesStake : Effect → Bool
  | .write (.putStakingState _) | .write (.putGovernanceState _) | .write (.putEpochTransition _)
  | .write (.atomicCommitBlock ..) => false
  | _ => true

lemma Effect.leavesStake_of_isQuiet {x : Effect} (h : x.isQuiet) : x.leavesStake := by
  rcases x with w | _ | _ | _ | _
  · cases w <;> first | rfl | cases h
  all_goals rfl

/-- Staking, governance and epoch transitions are the same. -/
structure SameStake (s s' : Store) : Prop where
  backend : s'.backend = s.backend
  staking : s'.stakingState = s.stakingState
  governance : s'.governanceState = s.governanceState
  transitions : s'.epochTransitions = s.epochTransitions
  latest : s'.epochLatest = s.epochLatest

lemma SameStake.trans {s s' s'' : Store} (h : SameStake s s') (h' : SameStake s' s'') :
    SameStake s s'' where
  backend := h'.backend.trans h.backend
  staking := h'.staking.trans h.staking
  governance := h'.governance.trans h.governance
  transitions := h'.transitions.trans h.transitions
  latest := h'.latest.trans h.latest

section

variable [Hashing]

lemma sameStake_record (d : Disk) {x : Effect} (h : x.leavesStake) :
    SameStake d.store (d.record x).store := by
  rcases x with w | _ | _ | _ | _
  · cases w with
    | compactConsensusWal height =>
      obtain ⟨wal, heq⟩ := d.store.compactConsensusWal_eq height
      rw [Disk.store_record_write, Store.apply, heq]
      exact ⟨rfl, rfl, rfl, rfl, rfl⟩
    | putStakingState | putGovernanceState | putEpochTransition | atomicCommitBlock => cases h
    | _ => exact ⟨rfl, rfl, rfl, rfl, rfl⟩
  all_goals exact ⟨rfl, rfl, rfl, rfl, rfl⟩

lemma sameStake_recordAll {es : List Effect} (h : ∀ x ∈ es, Effect.leavesStake x) (d : Disk) :
    SameStake d.store (d.recordAll es).store := by
  induction es generalizing d with
  | nil => exact ⟨rfl, rfl, rfl, rfl, rfl⟩
  | cons x es ih =>
    obtain ⟨hx, hrest⟩ := List.forall_mem_cons.mp h
    exact (sameStake_record d hx).trans (ih hrest (d.record x))

lemma effects_creditStored (recipient : Address) (amount : ℕ) (d : Disk) :
    ∃ es, (∀ x ∈ es, Effect.leavesStake x) ∧
      Handler.final (creditStored recipient amount d) = d.recordAll es :=
  ⟨[.write (.putAccount recipient { StateSnapshot.account d.store.accounts recipient with
    balance := saturatingAdd 128 (StateSnapshot.account d.store.accounts recipient).balance
      amount })], List.forall_mem_singleton.mpr rfl, rfl⟩

/-- The faucet moves no stake. -/
lemma effects_faucetSend (faucet : Option (Except String Address)) (recipient : Address)
    (amount : ℕ) (d : Disk) :
    ∃ es, (∀ x ∈ es, Effect.leavesStake x) ∧
      Handler.final (faucetSend faucet recipient amount d) = d.recordAll es := by
  rw [faucetSend.eq_def]
  split_ifs
  · exact ⟨[], List.forall_mem_nil _, rfl⟩
  · exact ⟨[], List.forall_mem_nil _, rfl⟩
  · rcases faucet with _ | (err | faucetAddress)
    · exact effects_creditStored recipient amount d
    · exact ⟨[], List.forall_mem_nil _, rfl⟩
    · dsimp only
      rw [Handler.bind_ok (readStore_run d)]
      split_ifs
      · exact ⟨[], List.forall_mem_nil _, rfl⟩
      · obtain ⟨es, hes, heq⟩ := effects_creditStored recipient amount (d.record (.write
          (.putAccount faucetAddress { StateSnapshot.account d.store.accounts faucetAddress with
            balance := saturatingSub
              (StateSnapshot.account d.store.accounts faucetAddress).balance amount })))
        exact ⟨_ :: es, List.forall_mem_cons.mpr ⟨rfl, hes⟩, heq⟩

variable [Revm] {config : NodeConfig}

/-- A replayed block is committed to a disk: its accounting and the block, in either order. -/
inductive Replays (config : NodeConfig) (d : Disk) : Disk → Prop
  | intro {block : Block} {p : PreparedBlock} {d₁ : Disk} {tail : List Effect}
      (prepares : Prepares config.engine config.scheme block d p d₁) (f : FinalizedBlock)
      (order : tail = accountingWrites p ++ [.write (.atomicCommitBlock f p.state)] ∨
        tail = .write (.atomicCommitBlock f p.state) :: accountingWrites p) :
      Replays config d (d₁.recordAll tail)

/-- A request that commits no block leaves the stakes alone, or a validator registers. -/
lemma Node.request_cases (config : NodeConfig) (n : Node) {event : NodeEvent}
    (himported : ∀ finalized, event ≠ .imported finalized)
    (hfinalized : ∀ block certificate, event ≠ .finalized block certificate) :
    (∃ es, (∀ x ∈ es, Effect.leavesStake x) ∧
      (n.handle config event).disk = n.disk.recordAll es) ∨
    ∃ request address staking, event = .registerValidator request ∧
      ((StakingSnapshot.load n.disk.store).ensureValidators
        [joiningValidator request address]).delegate address address request.selfBond true =
          .ok staking ∧
      (n.handle config event).disk = n.disk.record (.write (.putStakingState staking)) := by
  cases event with
  | imported finalized => exact absurd rfl (himported finalized)
  | finalized block certificate => exact absurd rfl (hfinalized block certificate)
  | faucetSend faucet recipient amount => exact .inl (effects_faucetSend faucet recipient amount _)
  | zkShield request => exact .inl ⟨[], List.forall_mem_nil _, rfl⟩
  | zkUnshield request =>
    left
    rcases hrun : ShieldedPool.unshield request n.zkPool with ⟨⟨⟩, zkPool⟩ | ⟨err, zkPool⟩
    · obtain ⟨es, hes, heq⟩ := effects_creditStored request.recipient request.value n.disk
      exact ⟨es, hes, by rw [Node.handle, hrun]; exact heq⟩
    · exact ⟨[], List.forall_mem_nil _, by rw [Node.handle, hrun]; rfl⟩
  | registerValidator request =>
    rcases registerValidator_cases config request n.disk with
      heq | ⟨address, staking, hdelegate, heq⟩
    · exact .inl ⟨[], List.forall_mem_nil _, heq⟩
    · exact .inr ⟨request, address, staking, rfl, hdelegate, heq⟩
  | submitTx tx =>
    left
    rw [Node.handle]
    split
    · exact ⟨[], List.forall_mem_nil _, rfl⟩
    · split
      · exact ⟨[], List.forall_mem_nil _, rfl⟩
      · exact ⟨[.broadcast (.transaction tx)], List.forall_mem_singleton.mpr rfl, rfl⟩

/-- **What a request does to the stakes**: nothing, or it commits a block, or a validator registers. -/
theorem Node.handle_cases (config : NodeConfig) (n : Node) (event : NodeEvent) :
    (∃ es, (∀ x ∈ es, Effect.leavesStake x) ∧
      (n.handle config event).disk = n.disk.recordAll es) ∨
    Replays config n.disk (n.handle config event).disk ∨
    ∃ request address staking, event = .registerValidator request ∧
      ((StakingSnapshot.load n.disk.store).ensureValidators
        [joiningValidator request address]).delegate address address request.selfBond true =
          .ok staking ∧
      (n.handle config event).disk = n.disk.record (.write (.putStakingState staking)) := by
  have hquiet : ∀ {d : Disk}, OnlyEvmWrites n.disk d → ∃ es, (∀ x ∈ es, Effect.leavesStake x) ∧
      d = n.disk.recordAll es := by
    intro d honly
    obtain ⟨es, hes, heq⟩ := honly.quiet
    exact ⟨es, fun x hx => Effect.leavesStake_of_isQuiet (hes x hx), heq⟩
  cases event with
  | imported finalized =>
    show (∃ es, _ ∧ Handler.final (config.engine.validateAndCommitFinalizedBlock config.scheme
      finalized n.disk) = _) ∨ Replays config n.disk (Handler.final _) ∨ _
    rcases hrun : config.engine.validateAndCommitFinalizedBlock config.scheme finalized n.disk with
      ⟨⟨⟩, d'⟩ | ⟨err, d'⟩
    · obtain ⟨p, d₁, hprepares, -, -, rfl⟩ := validateAndCommit_ok_iff.mp hrun
      have hreplays := Replays.intro hprepares finalized (.inr rfl)
      exact .inr (.inl hreplays)
    · exact .inl (hquiet (onlyEvmWrites_of_error hrun))
  | finalized block certificate =>
    show (∃ es, _ ∧ Handler.final (executeAndCommit config.engine config.scheme block certificate
      n.disk) = _) ∨ Replays config n.disk (Handler.final _) ∨ _
    rcases hrun : executeAndCommit config.engine config.scheme block certificate n.disk with
      ⟨⟨⟩, d'⟩ | ⟨err, d'⟩
    · rw [executeAndCommit] at hrun
      obtain ⟨r, d₂, hexecute, hcommit⟩ := Handler.bind_eq_ok_iff.mp hrun
      obtain ⟨p, d₁, hprepares, rfl, rfl⟩ := executeBlock_ok_iff.mp hexecute
      cases hcommit
      have hreplays := Replays.intro hprepares
        { block, certificate, receipts := p.receipts
          epochTransition := p.accounting.epochTransition } (.inl rfl)
      rw [Disk.recordAll_append] at hreplays
      exact .inr (.inl hreplays)
    · exact .inl (hquiet (onlyEvmWrites_of_executeAndCommit_error hrun))
  | _ => exact (n.request_cases config (by simp) (by simp)).imp id .inr

end

/-! ## Actions -/

/-- What a validator node does: its engine handles an event, the node serves a request or commits a
block besides its engine, or its process stops after some effects of a handler and starts again. -/
inductive NodeAction
  | handle (event : Event)
  | serve (n : Node) (event : NodeEvent)
  | restart (event : Event) (effects : ℕ)

/-- The event of the engine in an action. -/
def NodeAction.event? : NodeAction → Option Event
  | handle event | restart event _ => some event
  | serve .. => none

/-- The event of the engine in an action, if there is one, meets a condition. -/
def NodeAction.Meets (Cond : World → Event → Prop) (w : World) (action : NodeAction) : Prop :=
  ∀ event ∈ action.event?, Cond w event

section

variable [Hashing] [Revm] {config : NodeConfig} {e : ConsensusEngine}

/-- The node after an action.  Requests are served on the disk of the engine. -/
def ConsensusEngine.act (e : ConsensusEngine) (config : NodeConfig) (w : World) :
    NodeAction → World
  | .handle event => e.handle w event
  | .serve n event => { w with disk := ({ n with disk := w.disk }.handle config event).disk }
  | .restart event effects =>
    World.boot (Handler.final (bootstrapGenesis config.genesis true (e.crashDisk w event effects)))

/-- A node takes an action that meets a condition. -/
def ConsensusEngine.Acts (e : ConsensusEngine) (config : NodeConfig)
    (Cond : World → NodeAction → Prop) (w w' : World) : Prop :=
  ∃ action, Cond w action ∧ w' = e.act config w action

/-- A node takes any number of actions, each of which meets a condition. -/
abbrev ConsensusEngine.Operates (e : ConsensusEngine) (config : NodeConfig)
    (Cond : World → NodeAction → Prop) : World → World → Prop :=
  Relation.ReflTransGen (e.Acts config Cond)

/-- A run of the engine is one of the node. -/
lemma ConsensusEngine.operates_of_run {Cond : World → Event → Prop} {w w' : World}
    (hrun : e.Run Cond w w') : e.Operates config (NodeAction.Meets Cond) w w' := by
  refine Relation.ReflTransGen.mono ?_ _ _ hrun
  rintro w₁ _ ⟨event, hcond, rfl⟩
  refine ⟨.handle event, ?_, rfl⟩
  rintro _ ⟨⟩
  exact hcond

/-- What every action keeps that meets a condition holds throughout every run. -/
theorem ConsensusEngine.invariant_of_operates {Cond : World → NodeAction → Prop}
    (Inv : World → Prop) {w w' : World} (hinv : Inv w)
    (hact : ∀ w action, Cond w action → Inv w → Inv (e.act config w action))
    (hrun : e.Operates config Cond w w') : Inv w' := by
  induction hrun with
  | refl => exact hinv
  | tail _ hstep ih =>
    obtain ⟨action, hcond, rfl⟩ := hstep
    exact hact _ action hcond ih

/-! ## What requests and starts do to the staking state -/

/-- Delegations keep a property of the staking state. -/
def StakingSnapshot.KeptByBonds (P : StakingSnapshot → Prop) : Prop :=
  ∀ s delegator a amount isSelfBond s',
    s.delegate delegator a amount isSelfBond = .ok s' → P s → P s'

variable {P : StakingSnapshot → Prop} {d : Disk}

/-- What a request stores. -/
lemma Store.Stakes.serve_puts (h : d.store.Stakes P) (hP : StakingSnapshot.Settling P)
    (hbonds : StakingSnapshot.KeptByBonds P) (config : NodeConfig) (n : Node) (event : NodeEvent) :
    ∃ es, ({ n with disk := d }.handle config event).disk = d.recordAll es ∧
      ∀ s : StakingState, .write (.putStakingState s) ∈ es → P s := by
  rcases Node.handle_cases config { n with disk := d } event with
    ⟨es, hes, heq⟩ | hreplays | ⟨request, address, staking, -, hdelegate, heq⟩
  · refine ⟨es, heq, fun s hs => ?_⟩
    have hput : Effect.leavesStake (.write (.putStakingState s)) := hes _ hs
    cases hput
  · generalize ({ n with disk := d }.handle config event).disk = d' at hreplays
    obtain ⟨hprepares, f, horder⟩ := hreplays
    refine h.replayed_puts hP hprepares fun s hmem => ?_
    rcases horder with rfl | rfl
    · exact (List.mem_append.mp hmem).resolve_right (by simp)
    · exact (List.mem_cons.mp hmem).resolve_left nofun
  · refine ⟨[.write (.putStakingState staking)], heq, fun s hs => ?_⟩
    cases List.mem_singleton.mp hs
    exact hbonds _ _ _ _ _ _ hdelegate (hP.ensure _ _ h.load)

omit [Hashing] [Revm] in
/-- The first self-bond, and those after it. -/
lemma bondValidators_cons {genesis : Genesis} {staking staking' : StakingSnapshot}
    {vs : List Validator} {v : Validator}
    (h : bondValidators genesis (v :: vs) staking = .ok staking') :
    ∃ s₁, staking.delegate v.address v.address genesis.economics.minimumSelfBond true = .ok s₁ ∧
      bondValidators genesis vs s₁ = .ok staking' := by
  rw [bondValidators] at h
  split at h
  · cases h
  · split_ifs at h
    split at h
    · cases h
    · exact ⟨_, by assumption, h⟩

omit [Hashing] [Revm] in
lemma StakingSnapshot.KeptByBonds.bondValidators (hbonds : StakingSnapshot.KeptByBonds P)
    {genesis : Genesis} {staking staking' : StakingSnapshot} {vs : List Validator}
    (h : bondValidators genesis vs staking = .ok staking') (hP : P staking) : P staking' := by
  induction vs generalizing staking with
  | nil =>
    cases h
    exact hP
  | cons v vs ih =>
    obtain ⟨s₁, hdelegate, hrest⟩ := bondValidators_cons h
    exact ih hrest (hbonds _ _ _ _ _ _ hdelegate hP)

omit [Revm] in
/-- What a start after the first one stores. -/
lemma Store.Stakes.bootstrap_puts (h : d.store.Stakes P) (hP : StakingSnapshot.Settling P)
    (hbonds : StakingSnapshot.KeptByBonds P) (genesis : Genesis) :
    ∃ es, Handler.final (bootstrapGenesis genesis true d) = d.recordAll es ∧
      ∀ s : StakingState, .write (.putStakingState s) ∈ es → P s := by
  rw [bootstrapGenesis_run]
  rcases hbond : bondValidators genesis genesis.validators
    ((StakingSnapshot.load d.store).ensureValidators genesis.validators) with err | staking
  · exact ⟨[_], rfl, fun s hs => by simp at hs⟩
  · refine ⟨[_, .write (.putStakingState staking)], rfl, fun s hs => ?_⟩
    obtain rfl : s = staking := by simpa using hs
    exact hbonds.bondValidators hbond (hP.ensure _ _ h.load)

/-- **An action** keeps a property of the staking state that notes keep as well. -/
lemma Store.Stakes.act {w : World} (h : w.disk.store.Stakes P) (hP : StakingSnapshot.Stable P)
    (hbonds : StakingSnapshot.KeptByBonds P) (action : NodeAction) :
    (e.act config w action).disk.store.Stakes P := by
  cases action with
  | handle event => exact h.handle hP event
  | serve n event =>
    obtain ⟨es, hdisk, hes⟩ := h.serve_puts hP.toSettling hbonds config n event
    have hact : (e.act config w (.serve n event)).disk = w.disk.recordAll es := hdisk
    exact hact ▸ h.recordAll hes
  | restart event effects =>
    have hcrash : (e.crashDisk w event effects).store.Stakes P :=
      h.recordAll fun s hs => h.handle_puts hP event s (List.mem_of_mem_take hs)
    obtain ⟨es, hdisk, hes⟩ := hcrash.bootstrap_puts hP.toSettling hbonds config.genesis
    have hact : (e.act config w (.restart event effects)).disk =
        (e.crashDisk w event effects).recordAll es := hdisk
    rw [hact]
    exact hcrash.recordAll hes

end

/-! ## Evidence that waits for a block -/

namespace ConsensusEngine

section

variable {e : ConsensusEngine} {a : Address}

lemma keptByBonds_isSome (a : Address) :
    StakingSnapshot.KeptByBonds fun s => s.validators[a]?.isSome :=
  fun _ _ _ _ _ _ hdelegate h => ((StakingSnapshot.delegate_ok hdelegate).1.isSome a).mpr h

/-- The pending evidence is against validators with a record. -/
def Accountable (e : ConsensusEngine) (w : World) : Prop :=
  ∀ item ∈ w.state.evidence, e.Knows w.disk.store item.validatorAddress

variable [Hashing] [Revm] {config : NodeConfig} {w₀ w w' : World} {event : Event}

lemma Knows.act (h : e.Knows w.disk.store a) (action : NodeAction) :
    e.Knows (e.act config w action).disk.store a := by
  rcases knows_iff.mp h with hconfigured | hstored
  · exact knows_iff.mpr (.inl hconfigured)
  · exact knows_iff.mpr (.inr ((stakes_of_isSome hstored).act (stable_isSome a)
      (keptByBonds_isSome a) action).load)

/-- **One move** records evidence against known validators only. -/
lemma Accountable.move (h : e.Accountable w) (hmove : e.Move w₀ event w w') : e.Accountable w' := by
  have hkeeps : ∀ item : Evidence, item ∈ w.state.evidence → e.Knows w'.disk.store
      item.validatorAddress := fun item hitem => (h item hitem).move hmove
  have hmoved := hmove
  cases hmove with
  | accuse haccusation =>
    intro item hitem
    rcases List.mem_append.mp (w.state.evidence_addEvidence_subset _ hitem) with hold | hnew
    · exact hkeeps item hold
    · obtain rfl := List.mem_singleton.mp hnew
      exact haccusation.knows.move hmoved
  | @cast vote =>
    obtain ⟨_, _, hmark⟩ := w.state.markCast_eq vote.step
    intro item hitem
    rw [World.cast, hmark] at hitem
    exact hkeeps item hitem
  | @count vote =>
    intro item hitem
    exact hkeeps item (w.state.evidence_count vote ▸ hitem)
  | finalize | stall => exact List.forall_mem_nil _
  | _ => exact hkeeps

/-- Pending evidence can be applied after the block is committed. -/
lemma Accountable.applies (h : e.Accountable w) {f : FinalizedBlock} {d : Disk}
    (hcommits : Commits e f w.disk d) :
    ∃ staking, (e.view d.store).applyEvidence w.state.evidence e.economics = .ok staking :=
  StakingSnapshot.applyEvidence_of_known fun item hitem => (h item hitem).commits hcommits

/-- **An action** keeps the pending evidence against known validators. -/
lemma Accountable.act (h : e.Accountable w) (action : NodeAction) :
    e.Accountable (e.act config w action) := by
  cases action with
  | handle event => exact invariant_of_moves e.Accountable h fun _ _ hw hmove => hw.move hmove
  | serve n event => exact fun item hitem => (h item hitem).act (.serve n event)
  | restart event effects => exact List.forall_mem_nil _

end

end ConsensusEngine

end ZenoChain
