/-
# Catching up

A finalized block carries what its replay gives: its receipts, the transition of an epoch that it
closes, and a certificate that has been checked.  So a node that is behind another one imports what
the other one has committed, and has the same ledger then.
-/
import ZenoChain.Node.ConsensusPlane
import ZenoChain.Node.Ledger
import ZenoChain.Node.QuorumSoundness

namespace ZenoChain

open Word Handler ExecutionEngine

/-! ## What finalized blocks carry -/

section

variable [Hashing] [Revm]

/-- A finalized block carries the receipts and the transition of a replay. -/
def ConsensusEngine.Bundles (e : ConsensusEngine) (f : FinalizedBlock) : Prop :=
  ∃ d p d', Prepares e.execution e.scheme f.block d p d' ∧ f.receipts = p.receipts ∧
    f.epochTransition = p.accounting.epochTransition

namespace ConsensusEngine

variable {e : ConsensusEngine} {w w' : World}

/-- The committed blocks carry what their replays gave, if those before did. -/
def KeepsBundles (e : ConsensusEngine) (w w' : World) : Prop :=
  (∀ f ∈ w.disk.committed, e.Bundles f) → ∀ f ∈ w'.disk.committed, e.Bundles f

lemma keepsBundles_of_none {d d' : Disk} (es : List Effect) (hd : d' = d.recordAll es)
    (hes : ∀ x ∈ es, Effect.commits x = none) (h : ∀ f ∈ d.committed, e.Bundles f) :
    ∀ f ∈ d'.committed, e.Bundles f := by
  rw [hd, d.committed_recordAll_of_none hes]
  exact h

lemma bundleWalk : Walk e.KeepsBundles e.KeepsBundles where
  trans _ _ _ h h' hw := h' (h hw)
  stop _ _ h := h
  after _ _ _ h h' hw := h' (h hw)
  ordinary _ _ h := by
    obtain ⟨es, hes, hd⟩ := h.disk
    exact keepsBundles_of_none es hd fun x hx => Effect.commits_of_isOrdinary (hes x hx)
  accuse _ item := keepsBundles_of_none [.write (.appendConsensusWal (.evidenceRecorded item.height
    item.round item.validatorAddress item.reason))] rfl (List.forall_mem_singleton.mpr rfl)

lemma bundle_executeAndStore (block : Block) (certificate : CommitCertificate) :
    Ends e.KeepsBundles e.KeepsBundles (e.executeAndStore block certificate) := by
  refine Keeps.ends (fun w hw => ?_) fun _ _ h => h
  rcases executeAndStore_cases e block certificate w with
    ⟨err, es, hquiet, hrun⟩ | ⟨f, d, -, -, hcommits, hrun⟩
  · rw [hrun]
    exact keepsBundles_of_none es rfl
      (fun x hx => Effect.commits_of_isQuiet (hquiet x hx)) hw
  · obtain ⟨p, d₁, hprepares, rfl, -⟩ := executeAndStore_ok_iff.mp hrun
    rw [hrun, final_ok]
    intro g hg
    rw [hcommits.committed] at hg
    rcases List.mem_append.mp hg with hold | hnew
    · exact hw g hold
    · rw [List.mem_singleton.mp hnew]
      exact ⟨_, p, d₁, hprepares, rfl, rfl⟩

/-- What comes behind the commit of a finalization commits nothing. -/
lemma bundle_close (f : FinalizedBlock) :
    Ends e.KeepsBundles e.KeepsBundles (e.applyPendingEvidence >>= fun _ => closeHeight f) := by
  refine Keeps.ends (fun w hw => ?_) fun _ _ h => h
  rcases applyPendingEvidence_cases e w with ⟨d, hsettles, hok⟩ | ⟨err, -, herror⟩
  · obtain ⟨es, hquiet, -, hclose⟩ := closeHeight_run f ⟨d, { w.state with evidence := [] }⟩
    rw [bind_ok hok, hclose]
    refine keepsBundles_of_none es rfl (fun x hx => Effect.commits_of_isQuiet (hquiet x hx)) ?_
    show ∀ g ∈ d.committed, e.Bundles g
    rw [hsettles.committed]
    exact hw
  · rw [bind_error herror]
    exact hw

lemma bundle_finalize (e : ConsensusEngine) (blockHash : Hash32) :
    Ends e.KeepsBundles e.KeepsBundles (e.finalize blockHash) := by
  refine bundleWalk.bind (bundleWalk.keeps .get) fun w => ?_
  split
  · exact bundleWalk.keeps (.throw _)
  · split
    · exact bundleWalk.pure _
    · exact bundleWalk.bind (bundleWalk.keeps (.ofExcept _)) fun _ =>
        bundleWalk.bind (bundle_executeAndStore _ _) bundle_close

lemma bundle_import (f : FinalizedBlock) :
    Ends e.KeepsBundles e.KeepsBundles (e.importExternalFinalizedBlock f) := by
  refine bundleWalk.bind (bundleWalk.keeps .get) fun w => ?_
  split
  · exact bundleWalk.pure _
  · refine bundleWalk.bind (bundleWalk.keeps (.ofExcept _)) fun _ =>
      bundleWalk.bind (bundleWalk.keeps (ordinary_emit rfl)) fun _ =>
        bundleWalk.bind (Keeps.ends (fun w hw => ?_) fun _ _ h => h) fun _ =>
          bundleWalk.keeps (ordinary_advanceHeight _)
    rw [onDisk, final_zoom]
    rcases hrun : e.execution.validateAndCommitFinalizedBlock e.scheme f w.disk with
      ⟨⟨⟩, d⟩ | ⟨err, d⟩
    · obtain ⟨p, d₁, hprepares, hreceipts, htransition, -⟩ := validateAndCommit_ok_iff.mp hrun
      obtain ⟨_, _, -, hcommits⟩ := commitsTo_of_validateAndCommit hrun
      intro g hg
      rw [final_ok, hcommits.committed] at hg
      rcases List.mem_append.mp hg with hold | hnew
      · exact hw g hold
      · rw [List.mem_singleton.mp hnew]
        exact ⟨_, p, d₁, hprepares, hreceipts.symm, htransition.symm⟩
    · obtain ⟨es, hquiet, rfl⟩ := (onlyEvmWrites_of_error hrun).quiet
      exact keepsBundles_of_none es rfl
        (fun x hx => Effect.commits_of_isQuiet (hquiet x hx)) hw

lemma bundleCourse (e : ConsensusEngine) : e.Course e.KeepsBundles e.KeepsBundles where
  toWalk := bundleWalk
  finalize := e.bundle_finalize
  importBlock := bundle_import

/-- A handler. -/
lemma bundle_handle (h : ∀ f ∈ w.disk.committed, e.Bundles f) (event : Event) :
    ∀ f ∈ (e.handle w event).disk.committed, e.Bundles f := by
  have hemit : ∀ x : Effect, x.commits = none →
      Ends e.KeepsBundles e.KeepsBundles (emit x) := fun x hx =>
    Keeps.ends (fun w hw =>
      keepsBundles_of_none [x] rfl (List.forall_mem_singleton.mpr hx) hw) fun _ _ h => h
  exact e.bundleCourse.handle (fun _ _ => hemit _ rfl) (fun _ => hemit _ rfl) w event h

end ConsensusEngine

/-! ## Plain blocks -/

/-- A block without EVM transactions that closes no epoch. -/
structure IsPlain (e : ExecutionEngine) (block : Block) : Prop where
  native : ∀ tx ∈ block.transactions, tx.body.evm = none
  keepsEpoch : ∀ economics, e.economics = some economics → ¬ ClosesEpoch economics block.header.height

namespace IsPlain

variable {e : ExecutionEngine} {scheme : SignatureScheme} {block : Block} {d d' : Disk}
  {p : PreparedBlock}

/-- Native transactions have no payloads to run. -/
lemma runsPayloads_iff {txs : List Transaction} (h : ∀ tx ∈ txs, tx.body.evm = none)
    {results : List (Option EvmCallResult)} :
    RunsPayloads e txs d results d' ↔ results = txs.map (fun _ => none) ∧ d' = d := by
  induction txs generalizing d results with
  | nil => exact Iff.rfl
  | cons tx txs ih =>
    obtain ⟨htx, hrest⟩ := List.forall_mem_cons.mp h
    rw [RunsPayloads]
    constructor
    · rintro ⟨result, d₁, rest, hexecutes, hpayloads, rfl⟩
      rw [Executes, htx] at hexecutes
      obtain ⟨rfl, rfl⟩ := hexecutes
      obtain ⟨rfl, rfl⟩ := (ih hrest).mp hpayloads
      exact ⟨rfl, rfl⟩
    · rintro ⟨rfl, rfl⟩
      refine ⟨none, d', txs.map fun _ => none, ?_, (ih hrest).mpr ⟨rfl, rfl⟩, rfl⟩
      rw [Executes, htx]
      exact ⟨rfl, rfl⟩

omit [Revm] in
/-- The accounting of a block that closes no epoch keeps the records of the validators and makes no
transition. -/
lemma accounting (h : IsPlain e block) (store : Store) (state : StateSnapshot) (fees : ℕ) :
    ∃ accounting, e.applyBlockAccounting store state block.header.proposer fees
        block.header.height = .ok (e.payFees state block.header.proposer fees, accounting) ∧
      accounting.epochTransition = none ∧ ∀ s ∈ accounting.staking, s.validators =
        ((StakingSnapshot.load store).ensureValidators e.validators).validators := by
  rw [applyBlockAccounting, payFees]
  rcases heconomics : e.economics with _ | economics
  · exact ⟨_, rfl, rfl, fun _ hs => absurd hs (Option.not_mem_none _)⟩
  · dsimp only
    rw [if_neg (h.keepsEpoch economics heconomics)]
    refine ⟨_, rfl, rfl, ?_⟩
    rintro s ⟨⟩
    rfl

/-- The receipts of a plain block. -/
def receipts (block : Block) : List Receipt :=
  receiptsOf block.header.height block.transactions (block.transactions.map fun _ => none)

lemma receipts_of_prepares (h : IsPlain e block) (hprepares : Prepares e scheme block d p d') :
    p.receipts = receipts block ∧ p.accounting.epochTransition = none := by
  obtain ⟨state, hloop, haccounting⟩ := hprepares.replay
  obtain ⟨-, results, hpayloads, heq⟩ := applyTransactions_ok_iff.mp hloop
  obtain ⟨rfl, rfl⟩ := (runsPayloads_iff h.native).mp hpayloads
  obtain ⟨accounting, hrun, hnone, -⟩ := h.accounting d'.store state p.proposerFees
  rw [hrun] at haccounting
  obtain ⟨-, rfl⟩ := Prod.mk.inj (Except.ok.inj haccounting)
  exact ⟨(Prod.mk.inj (Prod.mk.inj heq).2).2, hnone⟩

/-- A plain block that extends the ledger of a store is replayed on it, and touches nothing. -/
lemma prepares (h : IsPlain e block) (hextends : d.store.ledger.Extends e scheme block)
    (hroot : block.header.receiptRoot = receiptRoot (receipts block)) :
    ∃ p, Prepares e scheme block d p d ∧ ∀ s ∈ p.accounting.staking, s.validators =
      ((StakingSnapshot.load d.store).ensureValidators e.validators).validators := by
  obtain ⟨accounting, hrun, -, hstaking⟩ := h.accounting d.store
    (replayNative block.transactions d.store.accounts) (collectedFees block.transactions 0)
  refine ⟨{ state := (d.store.ledger.after e block).accounts, receipts := receipts block
            proposerFees := collectedFees block.transactions 0, accounting }, ?_, hstaking⟩
  refine ⟨hextends.verified, hextends.parent, ⟨_, applyTransactions_ok_iff.mpr
    ⟨hextends.admits, _, (runsPayloads_iff h.native).mpr ⟨rfl, rfl⟩, rfl⟩, hrun⟩,
    hextends.txRoot, hroot, hextends.stateRoot⟩

end IsPlain

namespace ConsensusEngine

variable {e : ConsensusEngine}

omit [Hashing] [Revm] in
lemma forM_ok_of_forall {α ε : Type} {check : α → Except ε Unit} {l : List α}
    (h : ∀ a ∈ l, check a = .ok ()) : l.forM check = .ok () := by
  induction l with
  | nil => rfl
  | cons a l ih =>
    obtain ⟨ha, hl⟩ := List.forall_mem_cons.mp h
    change (check a >>= fun _ => l.forM check) = .ok ()
    rw [ha]
    exact ih hl

omit [Revm] in
/-- A certificate with the right votes is accepted. -/
lemma Certifies.validate {store : Store} {block : Block} {certificate : CommitCertificate}
    (h : Certifies e store block certificate) :
    e.validateCommitCertificate store block certificate = .ok () := by
  have hvotes : certificate.votes.forM (e.checkCertificateVote certificate) = .ok () := by
    refine forM_ok_of_forall fun vote hvote => ?_
    obtain ⟨hverify, hheight, hround, hstep, hhash⟩ := h.votes vote hvote
    rw [checkCertificateVote, hverify]
    simp only [bind, Except.bind]
    rw [if_neg (not_or.mpr ⟨not_not.mpr hheight, not_not.mpr hround⟩), if_neg (not_not.mpr hstep),
      if_neg (not_not.mpr hhash)]
    rfl
  rw [validateCommitCertificate, if_neg (not_not.mpr h.blockHash), if_neg (not_not.mpr h.height),
    if_neg (not_not.mpr h.round), hvotes]
  simp only [bind, Except.bind]
  rw [if_neg (not_lt.mpr h.quorum)]
  rfl

omit [Revm] in
/-- Staking states with the same records leave the standing of the validators. -/
lemma standing_of_puts {d : Disk} {es : List Effect}
    (h : ∀ s : StakingState, .write (.putStakingState s) ∈ es →
      s.validators = (e.view d.store).validators) :
    e.standing (d.recordAll es).store = e.standing d.store := by
  rcases d.stakingState_recordAll es with hkept | ⟨s, hmem, hstored⟩
  · exact standing_congr hkept
  · have hview : e.view (d.recordAll es).store = s := by
      rw [view, StakingSnapshot.load, hstored]
      refine StakingSnapshot.ensureValidators_of_known fun v hv => ?_
      rw [Option.getD_some, h s hmem]
      exact StakingSnapshot.isSome_ensureValidators.mpr (.inl (List.mem_map_of_mem hv))
    rw [standing, hview, standing, StakingSnapshot.standing, StakingSnapshot.standing, h s hmem]

/-! ## One block imported -/

/-- **An import.**  A plain block that extends the ledger of the store, is not behind and has a
certificate with enough votes is committed, and the standing of the validators stays as it is. -/
lemma imports {v : World} {f : FinalizedBlock} (hvalidators : e.execution.validators = e.validators)
    (hplain : IsPlain e.execution f.block)
    (hextends : v.disk.store.ledger.Extends e.execution e.scheme f.block) (hbundle : e.Bundles f)
    (hcertifies : Certifies e v.disk.store f.block f.certificate)
    (hahead : v.state.height ≤ f.block.header.height) :
    (e.handle v (.commit f)).disk.committed = v.disk.committed ++ [f] ∧
    (e.handle v (.commit f)).state = v.state.toHeight (wrappingAdd 64 f.block.header.height 1) ∧
    e.standing (e.handle v (.commit f)).disk.store = e.standing v.disk.store := by
  obtain ⟨d₀, p₀, d₀', hreplayed, hreceipts, htransition⟩ := hbundle
  obtain ⟨hreceipts₀, htransition₀⟩ := hplain.receipts_of_prepares hreplayed
  have hroot : f.block.header.receiptRoot = receiptRoot (IsPlain.receipts f.block) :=
    hreceipts₀ ▸ hreplayed.receiptRoot
  set record : Effect := .write (.appendConsensusWal (.commitFinalized f.certificate.height
    f.certificate.round f.certificate.blockHash)) with hrecord
  set v₁ : World := v.emitAll [record] with hv₁
  obtain ⟨p, hprepares, hstaking⟩ := hplain.prepares (d := v₁.disk) hextends hroot
  obtain ⟨hsame, hnone⟩ := hplain.receipts_of_prepares hprepares
  set d : Disk := (v₁.disk.record (.write (.atomicCommitBlock f p.state))).recordAll
    (accountingWrites p) with hd
  have hrun : e.execution.validateAndCommitFinalizedBlock e.scheme f v₁.disk = .ok ⟨⟩ d :=
    validateAndCommit_ok_iff.mpr ⟨p, v₁.disk, hprepares,
      by rw [hsame, hreceipts, hreceipts₀], by rw [hnone, htransition, htransition₀], rfl⟩
  obtain ⟨es, hquiet, hadvance⟩ :=
    advanceHeight_run (wrappingAdd 64 f.block.header.height 1) { v₁ with disk := d }
  have himport : e.importExternalFinalizedBlock f v = .ok ⟨⟩
      { disk := d.recordAll es, state := v.state.toHeight (wrappingAdd 64 f.block.header.height 1) } := by
    rw [importExternalFinalizedBlock, bind_ok (get_run v),
      if_neg (not_lt.mpr (hcertifies.height ▸ hahead)), hcertifies.validate, ofExcept_ok,
      bind_ok (pure_run () v), bind_ok (appendWal_run _ v), bind_ok (onDisk_ok hrun)]
    exact hadvance
  have hhandle : e.handle v (.commit f) =
      { disk := d.recordAll es, state := v.state.toHeight (wrappingAdd 64 f.block.header.height 1) } := by
    show final (e.importExternalFinalizedBlock f v) = _
    rw [himport]
    rfl
  rw [hhandle]
  refine ⟨?_, rfl, ?_⟩
  · obtain ⟨_, _, -, hcommits⟩ := commitsTo_of_validateAndCommit hrun
    rw [d.committed_recordAll_of_none fun x hx => Effect.commits_of_isQuiet (hquiet x hx),
      hcommits.committed]
    exact congrArg (· ++ [f]) (v.disk.committed_recordAll_of_none (List.forall_mem_singleton.mpr rfl))
  · have hall : d.recordAll es = v.disk.recordAll
        ([record, .write (.atomicCommitBlock f p.state)] ++ accountingWrites p ++ es) := by
      rw [Disk.recordAll_append, Disk.recordAll_append]
      rfl
    rw [hall]
    refine standing_of_puts fun s hs => ?_
    rcases List.mem_append.mp hs with hs | hs
    · rcases List.mem_append.mp hs with hs | hs
      · simp [hrecord] at hs
      · have hmem : s ∈ p.accounting.staking := by
          simp only [accountingWrites, List.mem_append, Option.mem_toList, Option.map_eq_some_iff,
            StateSnapshot.writes, List.mem_map] at hs
          rcases hs with ((⟨_, -, hc⟩ | ⟨_, hs, hc⟩) | ⟨_, -, hc⟩) | ⟨_, -, hc⟩
          · cases hc
          · cases hc
            exact hs
          · cases hc
          · cases hc
        rw [hstaking s hmem, hvalidators]
        rfl
    · exact absurd (hquiet _ hs) Bool.false_ne_true

/-! ## All that is missing -/

variable {e' : ConsensusEngine} {config : NodeConfig} {d : Disk} {w v : World}

/-- What a process has committed carries its replays, and certificates that were accepted. -/
lemma committed_of_run (hblank : BlankIndex d)
    (hrun : Relation.ReflTransGen e.Resumes (World.boot d) w) :
    ∀ f ∈ w.disk.committed, e.Bundles f ∧
      ∃ store, Certifies e store f.block f.certificate := by
  have hnone : (World.boot d).disk.committed = [] := by
    rw [Disk.committed, show (World.boot d).disk.journal = [] from hblank.journal]
    rfl
  induction hrun with
  | refl =>
    rw [hnone]
    exact List.forall_mem_nil _
  | tail _ hstep ih =>
    cases hstep with
    | restart => exact ih
    | @handle event _ =>
      refine fun f hf => ⟨bundle_handle (fun g hg => (ih g hg).1) event f hf, ?_⟩
      refine invariant_of_moves (fun w' => ∀ f ∈ w'.disk.committed,
        ∃ store, Certifies e store f.block f.certificate) (fun g hg => (ih g hg).2) ?_ f hf
      intro w₁ w₂ hw hmove
      rcases hmove.committed with hsame | ⟨g, hmore, hcertifies, -⟩
      · rw [hsame]
        exact hw
      · rw [hmore]
        exact List.forall_mem_append.mpr ⟨hw, List.forall_mem_singleton.mpr ⟨_, hcertifies⟩⟩

/-- What a node can import in its state: a plain block that comes with its replay and has a
certificate with enough votes. -/
structure CanImport (e : ConsensusEngine) (v : World) (f : FinalizedBlock) : Prop where
  plain : IsPlain e.execution f.block
  bundle : e.Bundles f
  certifies : Certifies e v.disk.store f.block f.certificate
  ahead : v.state.height ≤ f.block.header.height
  room : f.block.header.height + 3 < 2 ^ 64

omit [Revm] in
lemma Certifies.congr {store store' : Store} {block : Block} {certificate : CommitCertificate}
    (h : Certifies e store block certificate) (hstanding : e.standing store' = e.standing store) :
    Certifies e store' block certificate :=
  { h with quorum := quorum_congr hstanding ▸ h.quorum }

/-- The blocks of a list are imported one after the other. -/
lemma imports_all (hvalidators : e.execution.validators = e.validators) (hblank : BlankIndex d)
    (hnumbered : d.Numbered) {fs : List FinalizedBlock} {v : World}
    (hrun : Relation.ReflTransGen e.Resumes (World.boot d) v)
    (hcarries : ((⟨d.store.accounts, 0⟩ : Ledger).afterAll e.execution
      (v.disk.committed.map (·.block))).Carries e.execution e.scheme (fs.map (·.block)))
    (hrise : (fs.map fun f => f.block.header.height).Pairwise (· < ·))
    (hround : v.state.round + 1 < 2 ^ 32) (hcan : ∀ f ∈ fs, e.CanImport v f) :
    Relation.ReflTransGen e.Resumes (World.boot d) ((fs.map Event.commit).foldl e.handle v) ∧
      ((fs.map Event.commit).foldl e.handle v).disk.committed = v.disk.committed ++ fs := by
  induction fs generalizing v with
  | nil => exact ⟨hrun, (List.append_nil _).symm⟩
  | cons f fs ih =>
    obtain ⟨hf, hrest⟩ := List.forall_mem_cons.mp hcan
    obtain ⟨hextends, hlater⟩ := hcarries
    obtain ⟨habove, hrise⟩ := List.pairwise_cons.mp hrise
    obtain ⟨hhistoric, hkeeps⟩ := keepsLedger_of_run hblank hnumbered hrun
    have hledger := hkeeps.ledger rfl (hhistoric.keepsRecent hblank)
    have hahead := hf.ahead
    have hroom := hf.room
    rw [← hledger] at hextends
    obtain ⟨hcommitted, hstate, hstanding⟩ :=
      imports hvalidators hf.plain hextends hf.bundle hf.certifies hf.ahead
    set v₁ : World := e.handle v (.commit f) with hv₁
    have hroomy : Roomy v (.commit f) := by
      refine ⟨by omega, hround, fun g hg => ?_⟩
      obtain rfl := Option.some.inj hg
      omega
    have hnext : wrappingAdd 64 f.block.header.height 1 = f.block.header.height + 1 :=
      Nat.mod_eq_of_lt (by omega)
    have hheight : v₁.state.height = f.block.header.height + 1 := by
      rw [hstate, hnext]
      rfl
    have hzero : v₁.state.round + 1 < 2 ^ 32 := by
      rw [hstate]
      exact Nat.one_lt_two_pow (by decide)
    have hcarries₁ : ((⟨d.store.accounts, 0⟩ : Ledger).afterAll e.execution
        (v₁.disk.committed.map (·.block))).Carries e.execution e.scheme (fs.map (·.block)) := by
      rw [hcommitted, List.map_append, List.map_singleton, Ledger.afterAll_concat]
      exact hlater
    have hcan₁ : ∀ g ∈ fs, e.CanImport v₁ g := by
      intro g hg
      have hg' := hrest g hg
      exact { hg' with
        certifies := hg'.certifies.congr hstanding
        ahead := hheight ▸ habove _ (List.mem_map_of_mem hg) }
    obtain ⟨hreached, hall⟩ :=
      ih (hrun.tail (.handle hroomy)) hcarries₁ hrise hzero hcan₁
    refine ⟨hreached, hall.trans ?_⟩
    rw [hcommitted, List.append_assoc]
    rfl

/-- **Catching up.**  A node has committed the blocks that another node of its network has committed,
but for the last ones.  It imports the finalized blocks that it lacks, if they are native and close no
epoch and their certificates have the votes of a quorum of its validators, and has the same ledger
then. -/
theorem behind_catches_up (he : config.Builds e) (he' : config.Builds e') {d' : Disk}
    (hblank : BlankIndex d) (hnumbered : d.Numbered) (hblank' : BlankIndex d')
    (hnumbered' : d'.Numbered) (haccounts : d'.store.accounts = d.store.accounts)
    (hrun : Relation.ReflTransGen e.Resumes (World.boot d) w)
    (hrun' : Relation.ReflTransGen e'.Resumes (World.boot d') v) {fs : List FinalizedBlock}
    (hbehind : w.disk.committed = v.disk.committed ++ fs)
    (hnative : ∀ f ∈ fs, ∀ tx ∈ f.block.transactions, tx.body.evm = none)
    (hopen : ∀ f ∈ fs, ¬ ClosesEpoch config.genesis.economics f.block.header.height)
    (hquorum : ∀ f ∈ fs, e'.quorum v.disk.store ≤ (certificateAuthors f.certificate).card)
    (hahead : ∀ f ∈ fs, v.state.height ≤ f.block.header.height)
    (hround : v.state.round + 1 < 2 ^ 32) (hroom : ∀ f ∈ fs, f.block.header.height + 3 < 2 ^ 64) :
    ((fs.map Event.commit).foldl e'.handle v).disk.committed = w.disk.committed ∧
    ((fs.map Event.commit).foldl e'.handle v).disk.store.ledger = w.disk.store.ledger := by
  have hexecution : e'.execution = e.execution := he'.execution.trans he.execution.symm
  have hscheme : e'.scheme = e.scheme := he'.scheme.trans he.scheme.symm
  obtain ⟨hhistoric, hkeeps⟩ := keepsLedger_of_run hblank hnumbered hrun
  have hcarries := hkeeps.carries
  rw [hbehind, List.map_append, Ledger.carries_append, ← hexecution, ← hscheme, ← haccounts]
    at hcarries
  have hrise := hhistoric.toRising.chain.heights
  rw [hbehind, List.map_append] at hrise
  have hvalidators : e'.execution.validators = e'.validators := by
    rw [he'.execution, he'.validators]
    rfl
  have hcan : ∀ f ∈ fs, e'.CanImport v f := by
    intro f hf
    obtain ⟨hbundle, store, hcertifies⟩ :=
      committed_of_run hblank hrun f (hbehind ▸ List.mem_append_right _ hf)
    refine ⟨⟨hnative f hf, fun economics heconomics => ?_⟩, ?_, ?_, hahead f hf, hroom f hf⟩
    · rw [he'.execution] at heconomics
      obtain rfl := Option.some.inj heconomics
      exact hopen f hf
    · rw [Bundles, hexecution, hscheme]
      exact hbundle
    · refine { hcertifies with votes := ?_, quorum := hquorum f hf }
      rw [hscheme]
      exact hcertifies.votes
  obtain ⟨hreached, hcommitted⟩ := imports_all hvalidators hblank' hnumbered' hrun' hcarries.2
    (List.pairwise_append.mp hrise).2.1 hround hcan
  have hsame := hcommitted.trans hbehind.symm
  obtain ⟨hhistoric', hkeeps'⟩ := keepsLedger_of_run hblank' hnumbered' hreached
  refine ⟨hsame, ?_⟩
  rw [hkeeps'.ledger rfl (hhistoric'.keepsRecent hblank'), hsame, haccounts, hexecution,
    hkeeps.ledger rfl (hhistoric.keepsRecent hblank)]

end ConsensusEngine

end

/-! ## The first block -/

section

open Transparent ConsensusEngine

lemma builds_second : quorumNode.Builds (engineOf [2]) := by
  have hplane : quorumNode.consensusPlane (some ⟨address [2], [2]⟩) = .ok (engineOf [2]) := rfl
  exact NodeConfig.builds_of_consensusPlane hplane

/-- The general fact for a validator that has heard nothing and imports the first block. -/
theorem first_behind_catches_up :
    let v := (afterQuorum.disk.committed.map Event.commit).foldl (engineOf [2]).handle
      (World.boot blank)
    afterQuorum.disk.committed.length = 1 ∧ v.disk.committed = afterQuorum.disk.committed ∧
      v.disk.store.ledger = afterQuorum.disk.store.ledger := by
  have hfacts : afterQuorum.disk.committed.length = 1 ∧
      (∀ f ∈ afterQuorum.disk.committed, ∀ tx ∈ f.block.transactions, tx.body.evm = none) ∧
      (∀ f ∈ afterQuorum.disk.committed,
        ¬ ClosesEpoch quorumNode.genesis.economics f.block.header.height) ∧
      (∀ f ∈ afterQuorum.disk.committed,
        (engineOf [2]).quorum blank.store ≤ (certificateAuthors f.certificate).card) ∧
      ∀ f ∈ afterQuorum.disk.committed, f.block.header.height = 1 := by
    decide +kernel
  obtain ⟨hlength, hnative, hopen, hquorum, hheight⟩ := hfacts
  refine ⟨hlength, behind_catches_up builds_quorumNode builds_second ⟨rfl, rfl, rfl, rfl⟩
    numbered_blank ⟨rfl, rfl, rfl, rfl⟩ numbered_blank rfl afterQuorum_run .refl rfl hnative hopen
    hquorum (fun f hf => ?_) (by decide +kernel) fun f hf => ?_⟩
  · rw [hheight f hf]
    decide +kernel
  · rw [hheight f hf]
    decide

end

end ZenoChain
