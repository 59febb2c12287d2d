/-
# Recovery between events

The log is written beside the round state, by every handler on every path.  Between two events
what recovery makes of the snapshot and the log is the height, the round and the locks in
memory, as long as no block was delivered whose certificate is accepted and whose execution
fails: the import logs a commit before it executes the block.
-/
import ZenoChain.Consensus.Ballots
import ZenoChain.Consensus.Devnet
import ZenoChain.Consensus.Log
import ZenoChain.Consensus.Members

namespace ZenoChain

open Word Handler

/-- The part of a round state that recovery has to give back. -/
def RoundState.lasting (s : RoundState) : RecoveredState :=
  { height := s.height, round := s.round, lockedRound := s.lockedRound, lockedBlock := s.lockedBlock
    validRound := s.validRound, validBlock := s.validBlock }

/-- What recovery makes of a disk. -/
def Disk.recover (d : Disk) : RecoveredState :=
  recoverSnapshot d.store.startSnapshot d.store.loadConsensusWal

namespace ConsensusEngine

variable {e : ConsensusEngine}

/-! ## Log and memory in step -/

/-- Log and memory are in step: the snapshot is that of the round, the log is no further, its
locks are those in memory, and the recorded evidence is against validators with a record. -/
structure Logged (e : ConsensusEngine) (w : World) : Prop where
  numbered : w.disk.Numbered
  snapshot : w.disk.store.startSnapshot = ⟨w.state.height, w.state.round⟩
  past : ∀ entry ∈ w.disk.store.loadConsensusWal, entry.Past w.state.height w.state.round
  recovers : w.disk.store.loadConsensusWal.foldl RecoveredState.replay
    { height := w.state.height, round := w.state.round } = w.state.lasting
  known : ∀ item ∈ w.state.evidence, e.Knows w.disk.store item.validatorAddress

lemma Logged.recover {w : World} (h : Logged e w) : w.disk.recover = w.state.lasting := by
  rw [Disk.recover, recoverSnapshot, h.snapshot]
  exact h.recovers

/-- An engine that starts with an empty log recovers nothing but its snapshot. -/
lemma logged_boot {d : Disk} (hlog : d.store.consensusWal = ∅) : Logged e (World.boot d) := by
  have hempty : d.store.loadConsensusWal = [] := by
    rw [Store.loadConsensusWal, hlog]
    rfl
  have hstate : (World.boot d).state =
      { height := d.store.startSnapshot.height, round := d.store.startSnapshot.round } := by
    rw [World.boot, recovered, hempty]
    rfl
  refine ⟨fun k hk => ?_, ?_, ?_, ?_, ?_⟩
  · change (d.store.consensusWal[k]?).isSome at hk
    rw [hlog, Std.ExtTreeMap.getElem?_empty] at hk
    cases hk
  · rw [hstate]
    rfl
  · intro entry hentry
    change entry ∈ d.store.loadConsensusWal at hentry
    rw [hempty] at hentry
    cases hentry
  · change d.store.loadConsensusWal.foldl _ _ = _
    rw [hempty, hstate]
    rfl
  · rw [hstate]
    exact List.forall_mem_nil _

variable {w : World}

/-- A change of what recovery need not give back. -/
lemma Logged.withState (h : Logged e w) {s : RoundState} (hlasting : s.lasting = w.state.lasting)
    (hknown : ∀ item ∈ s.evidence, e.Knows w.disk.store item.validatorAddress) :
    Logged e { w with state := s } := by
  have hheight : s.height = w.state.height := congrArg RecoveredState.height hlasting
  have hround : s.round = w.state.round := congrArg RecoveredState.round hlasting
  refine ⟨h.numbered, ?_, ?_, ?_, hknown⟩
  all_goals
    dsimp only
    rw [hheight, hround]
  · exact h.snapshot
  · exact h.past
  · exact h.recovers.trans hlasting.symm

variable [Hashing]

/-- Effects beside the log that take no validator its record. -/
lemma Logged.emitAll (h : Logged e w) {es : List Effect} (hlog : ∀ x ∈ es, x.LeavesLog)
    (hstaking : ∀ staking : StakingState, .write (.putStakingState staking) ∈ es →
      ∀ a, e.Knows w.disk.store a → staking.validators[a]?.isSome) : Logged e (w.emitAll es) := by
  obtain ⟨hwal, hsnapshot⟩ := Disk.recordAll_leavesLog hlog w.disk
  refine ⟨h.numbered.recordAll es, hsnapshot.trans h.snapshot, ?_, ?_, fun item hitem => ?_⟩
  · exact hwal ▸ h.past
  · exact hwal ▸ h.recovers
  · exact (h.known item hitem).recordAll fun staking hmem => hstaking staking hmem _ (h.known item hitem)

lemma Logged.note (h : Logged e w) {a : Address} {staking : StakingSnapshot}
    (hnoted : e.noted w.disk.store a = .ok staking) : Logged e (w.note a staking) := by
  refine h.emitAll (by simp [Effect.LeavesLog]) fun staking' hmem b hb => ?_
  obtain rfl : staking' = staking := by simpa using hmem
  exact hb.isSome_noted hnoted

lemma Logged.send (h : Logged e w) (message : NetworkMessage) :
    Logged e (w.emitAll [.broadcast message]) :=
  h.emitAll (by simp [Effect.LeavesLog]) (by simp)

/-- An entry of the current height and round is appended, and memory takes the locks it names. -/
lemma Logged.append (h : Logged e w) {entry : ConsensusWalEntry} {s : RoundState}
    (hpast : entry.Past w.state.height w.state.round)
    (hreplay : w.state.lasting.replay entry = s.lasting)
    (hevidence : s.evidence = w.state.evidence) :
    Logged e { disk := w.disk.record (.write (.appendConsensusWal entry)), state := s } := by
  obtain ⟨hsame, hsame', -⟩ :=
    RecoveredState.replay_of_past (show entry.Past w.state.lasting.height w.state.lasting.round
      from hpast) le_rfl
  rw [hreplay] at hsame hsame'
  have hheight : s.height = w.state.height := hsame
  have hround : s.round = w.state.round := hsame'
  have hwal := h.numbered.log_append entry
  refine ⟨h.numbered.record _, ?_, ?_, ?_, ?_⟩
  · dsimp only
    rw [hheight, hround]
    exact h.snapshot
  · dsimp only
    rw [hwal, hheight, hround, List.forall_mem_append]
    exact ⟨h.past, List.forall_mem_singleton.mpr hpast⟩
  · dsimp only
    rw [hwal, hheight, hround, List.foldl_append, h.recovers]
    exact hreplay
  · dsimp only
    rw [hevidence]
    exact fun item hitem => (h.known item hitem).congr rfl

/-- An entry that recovery passes over. -/
lemma Logged.remark (h : Logged e w) {entry : ConsensusWalEntry}
    (hpast : entry.Past w.state.height w.state.round)
    (hreplay : ∀ r : RecoveredState, r.replay entry = r) :
    Logged e (w.emitAll [.write (.appendConsensusWal entry)]) :=
  h.append hpast (hreplay _) rfl

lemma Logged.cast (h : Logged e w) {vote : Vote} {staking : StakingSnapshot}
    (hmay : e.MayCast w vote staking) : Logged e (w.cast vote staking) := by
  have hsigned : Logged e (w.emitAll [.signVote vote]) :=
    h.emitAll (by simp [Effect.LeavesLog]) (by simp)
  have hlogged : Logged e
      (((w.emitAll [.signVote vote]).note vote.validatorAddress staking).emitAll
        [.write (.appendConsensusWal (.voteBroadcast vote.height vote.round vote.step
          vote.blockHash vote.validatorAddress))]) :=
    (hsigned.note hmay.noted).remark hmay.height.le fun _ => rfl
  have hsent : Logged e { w with disk := w.disk.recordAll (World.castEffects vote staking) } :=
    hlogged.send (.vote vote)
  obtain ⟨prevoted, precommitted, hmark⟩ := w.state.markCast_eq vote.step
  refine hsent.withState ?_ ?_
  · rw [hmark]
    rfl
  · rw [hmark]
    exact hsent.known

lemma Logged.count (h : Logged e w) {vote : Vote} (hheight : vote.height = w.state.height) :
    Logged e (w.count vote) := by
  obtain ⟨prevotes, precommits, hcount⟩ := w.state.count_eq vote
  have hlogged : Logged e (w.emitAll [.write (.appendConsensusWal
      (.voteRecorded vote.height vote.round vote.step vote.blockHash vote.validatorAddress))]) :=
    h.remark hheight.le fun _ => rfl
  refine hlogged.withState ?_ ?_
  · rw [hcount]
    rfl
  · rw [hcount]
    exact hlogged.known

lemma Logged.accuse (h : Logged e w) {item : Evidence} (hheight : item.height = w.state.height)
    (hknown : e.Knows w.disk.store item.validatorAddress) : Logged e (w.accuse item) := by
  obtain ⟨processed, evidence, hitem⟩ := w.state.addEvidence_eq item
  have hlogged : Logged e (w.emitAll [.write (.appendConsensusWal
      (.evidenceRecorded item.height item.round item.validatorAddress item.reason))]) :=
    h.remark hheight.le fun _ => rfl
  refine hlogged.withState ?_ fun other hother => ?_
  · rw [hitem]
    rfl
  · rcases List.mem_append.mp (w.state.evidence_addEvidence_subset item hother) with hbefore | hnew
    · exact hlogged.known other hbefore
    · rw [List.mem_singleton.mp hnew]
      exact hknown.congr rfl

lemma Logged.lock (h : Logged e w) {height round : ℕ} {block : Block} {blockHash : Hash32}
    (hheight : height = w.state.height) :
    Logged e (w.lock height round block blockHash) := by
  subst hheight
  have hpolka : Logged e
      { disk := w.disk.record (.write (.appendConsensusWal
          (.polkaObserved w.state.height round blockHash block)))
        state := { w.state with validRound := some round, validBlock := some block } } :=
    h.append (le_refl w.state.height) (if_pos rfl) rfl
  exact hpolka.append (le_refl w.state.height) (if_pos rfl) rfl

/-! ## New rounds and heights -/

/-- Persisting the height and the round brings the snapshot in step, if nothing in the log is
further and its locks are those in memory. -/
lemma logged_persistSnapshot (hnumbered : w.disk.Numbered)
    (hpast : ∀ entry ∈ w.disk.store.loadConsensusWal, entry.Past w.state.height w.state.round)
    (hrecovers : w.disk.store.loadConsensusWal.foldl RecoveredState.replay
      { height := w.state.height, round := w.state.round } = w.state.lasting)
    (hknown : ∀ item ∈ w.state.evidence, e.Knows w.disk.store item.validatorAddress) :
    Logged e (final (persistSnapshot w)) := by
  have hput : Logged e
      (w.emitAll [.write (.putConsensusSnapshot ⟨w.state.height, w.state.round⟩)]) :=
    ⟨hnumbered.recordAll _, rfl, hpast, hrecovers, fun item hitem => (hknown item hitem).congr rfl⟩
  have hnow : w.state.height < w.state.height ∨
      (w.state.height = w.state.height ∧ w.state.round ≤ w.state.round) := .inr ⟨rfl, le_rfl⟩
  exact hput.append hnow (RecoveredState.replay_snapshotPersisted_of_past hnow) rfl

/-- A new height comes after everything in the log. -/
lemma logged_advanceHeight {n : ℕ} (hnumbered : w.disk.Numbered)
    (hlog : ∀ entry ∈ w.disk.store.loadConsensusWal, entry.height < n)
    (hknown : ∀ item ∈ w.state.evidence, e.Knows w.disk.store item.validatorAddress) :
    Logged e (final (advanceHeight n w)) ∧
      (final (advanceHeight n w)).state = w.state.toHeight n := by
  have hpersisted : Logged e
      (final (persistSnapshot { w with state := w.state.toHeight n })) := by
    refine logged_persistSnapshot hnumbered ?_ ?_ hknown
    · exact fun entry hentry => ConsensusWalEntry.past_of_height_lt (hlog entry hentry)
    · exact RecoveredState.foldl_replay_of_height_lt hlog
  exact ⟨hpersisted.append (le_refl n)
    (RecoveredState.replay_heightAdvanced_of_past (le_refl n)) rfl, rfl⟩

/-- The next round comes after everything in the log, and it keeps the locks. -/
lemma logged_advanceRound (h : Logged e w) (hroom : w.state.round + 1 < 2 ^ 32) :
    Logged e (final (advanceRound w)) := by
  have hnext : w.state.toNextRound.round = w.state.round + 1 := wrappingAdd_of_lt hroom
  have hlater : w.state.round ≤ w.state.toNextRound.round := hnext ▸ Nat.le_succ _
  have hpersisted : Logged e
      (final (persistSnapshot { w with state := w.state.toNextRound })) := by
    refine logged_persistSnapshot h.numbered ?_ ?_ h.known
    · exact fun entry hentry => (h.past entry hentry).mono hlater
    · have hfold := RecoveredState.foldl_replay_of_past
        (r := { height := w.state.height, round := w.state.round }) h.past hlater
      rw [h.recovers] at hfold
      exact hfold
  have hnow : w.state.height < w.state.height ∨ (w.state.height = w.state.height ∧
      w.state.toNextRound.round ≤ w.state.toNextRound.round) := .inr ⟨rfl, le_rfl⟩
  exact hpersisted.append hnow (RecoveredState.replay_roundAdvanced_of_past hnow) rfl

/-! ## Handlers keep log and memory in step -/

/-- Log and memory are in step, and the height and the round are within bounds. -/
structure LoggedWithin (e : ConsensusEngine) (height round : ℕ) (w : World) : Prop
    extends Logged e w where
  heightLe : w.state.height ≤ height
  roundLe : w.state.round ≤ round

omit [Hashing] in
lemma LoggedWithin.next {height round : ℕ} (h : LoggedWithin e height round w) :
    LoggedWithin e (height + 1) round w :=
  ⟨h.toLogged, Nat.le_succ_of_le h.heightLe, h.roundLe⟩

variable {vote : Vote} {out : Option Hash32 × Option Hash32} {w' : World} {height round : ℕ}

/-- What follows a vote once its author has been noted keeps log and memory in step. -/
lemma Recorded.logged (h : Recorded e vote w out w') (hw : Logged e w)
    (hknown : e.Knows w.disk.store vote.validatorAddress) : Logged e w' := by
  cases h with
  | stale => exact hw
  | conflict hheight => exact hw.accuse hheight hknown
  | few hheight => exact hw.count hheight
  | reached hheight hround hagrees hreached hacted =>
    have hreport : Logged e (World.report e (w.count vote) vote.step vote.blockHash) :=
      (hw.count hheight).emitAll (by simp [Effect.LeavesLog]) (by simp)
    cases hacted with
    | prevotes | precommits => exact hreport
    | polka =>
      refine hreport.lock ?_
      rw [hheight]
      exact (w.state.height_count vote).symm

lemma ensures_recordVote (vote : Vote) :
    Ensures (LoggedWithin e height round) (LoggedWithin e height round) (e.recordVote vote) := by
  intro w hw
  rcases recordVote_cases e vote w with ⟨err, hrun⟩ | ⟨staking, out, w', -, hnoted, hrun, hrec⟩
  · rw [hrun]
    exact hw
  · rw [hrun, final_ok]
    have hauthor : e.Knows (w.note vote.validatorAddress staking).disk.store vote.validatorAddress :=
      known_of_noted hnoted rfl
    have hstays := (stays_note hnoted).trans hrec.stays
    exact ⟨hrec.logged (hw.toLogged.note hnoted) hauthor, hstays.height ▸ hw.heightLe,
      hstays.round ▸ hw.roundLe⟩

lemma ensures_castOnce (step : VoteStep) (choice : RoundState → Hash32) :
    Ensures (LoggedWithin e height round) (LoggedWithin e height round) (e.castOnce step choice) := by
  intro w hw
  rcases castOnce_cases e step choice w with
    hrun | ⟨err, hrun⟩ | ⟨vote, staking, hmay, -, -, hrun⟩
  · rw [hrun]
    exact hw
  · rw [hrun]
    exact hw
  · rw [hrun, final_ok]
    have hlogged : Logged e (w.cast vote staking) := hw.toLogged.cast hmay
    obtain ⟨prevoted, precommitted, hmark⟩ := w.state.markCast_eq vote.step
    have hstate : (w.cast vote staking).state =
      { w.state with prevoted := prevoted, precommitted := precommitted } := hmark
    refine ⟨hlogged, ?_, ?_⟩
    · rw [hstate]
      exact hw.heightLe
    · rw [hstate]
      exact hw.roundLe

lemma ensures_answerQuorum (polka : Option Hash32) :
    Ensures (LoggedWithin e height round) (LoggedWithin e height round) (e.answerQuorum polka) := by
  cases polka with
  | none => exact .pure (fun _ h => h) _
  | some blockHash =>
    refine .bind (ensures_castOnce _ _) (fun cast => ?_) fun _ h => h
    cases cast with
    | none => exact .pure (fun _ h => h) _
    | some vote => exact .bind (ensures_recordVote vote) (fun _ => .pure (fun _ h => h) _) fun _ h => h

variable [Revm]

/-- A block that cannot be executed leaves writes of the EVM. -/
lemma executeAndStore_error {block : Block} {certificate : CommitCertificate} {err : String}
    (h : e.executeAndStore block certificate w = .error err w') :
    ∃ es, (∀ x ∈ es, Effect.IsEvmWrite x) ∧ w' = w.emitAll es := by
  rw [executeAndStore] at h
  rcases hrun : e.execution.executeBlock e.scheme block w.disk with ⟨r, d⟩ | ⟨error, d⟩
  · rw [bind_ok (onDisk_ok hrun)] at h
    cases h
  · rw [bind_error (onDisk_error hrun)] at h
    cases h
    obtain ⟨es, hes, rfl⟩ := executeBlock_onlyEvmWrites hrun
    exact ⟨es, hes, rfl⟩

/-- A block that is executed and stored is committed, and the log says so and nothing else. -/
lemma executeAndStore_logs {block : Block} {certificate : CommitCertificate} {f : FinalizedBlock}
    (h : e.executeAndStore block certificate w = .ok f w') :
    ∃ es, w' = w.emitAll es ∧ Commits e f w.disk (w.disk.recordAll es) ∧
      ∀ entry, .write (.appendConsensusWal entry) ∈ es → entry =
        .commitFinalized certificate.height certificate.round certificate.blockHash := by
  obtain ⟨p, d₁, hprepares, hf, rfl⟩ := executeAndStore_ok_iff.mp h
  have hblock : f.block = block := by rw [hf]
  have hcertificate : f.certificate = certificate := by rw [hf]
  subst hblock hcertificate
  have hcommits : Commits e f w.disk _ := .intro d₁ p _ hprepares (.inl rfl)
  obtain ⟨es, hes, rfl⟩ := hprepares.onlyEvmWrites
  refine ⟨es ++ (ExecutionEngine.accountingWrites p ++ [.write (.appendConsensusWal
    (.commitFinalized f.certificate.height f.certificate.round f.certificate.blockHash)),
    .write (.atomicCommitBlock f p.state)]), ?_, ?_, fun entry hmem => ?_⟩
  · rw [World.emitAll, w.disk.recordAll_append es]
  · rw [w.disk.recordAll_append es]
    exact hcommits
  · rcases List.mem_append.mp hmem with hevm | hmem
    · cases hes _ hevm
    rcases List.mem_append.mp hmem with haccounting | hmem
    · cases ExecutionEngine.isAccounting_of_mem haccounting
    · simpa using hmem

omit [Revm] in
lemma leavesLog_of_settles {items : List Evidence} {d d' : Disk} (h : Settles e items d d') :
    ∃ es, d' = d.recordAll es ∧ ∀ x ∈ es, Effect.LeavesLog x := by
  cases h with
  | none => exact ⟨[], rfl, nofun⟩
  | some => exact ⟨_, rfl, by simp [Effect.LeavesLog]⟩

omit [Revm] in
lemma Logged.emitEvm (h : Logged e w) {es : List Effect} (hes : ∀ x ∈ es, Effect.IsEvmWrite x) :
    Logged e (w.emitAll es) := by
  refine h.emitAll (fun x hx => ?_) fun staking hmem => ?_
  · cases hes x hx
    trivial
  · cases hes _ hmem

omit [Revm] in
/-- Closing a height in step with a log that is no further. -/
lemma logged_closeHeight (f : FinalizedBlock) {d : Disk} {s : RoundState} (hnumbered : d.Numbered)
    (hlog : ∀ entry ∈ d.store.loadConsensusWal, entry.height ≤ s.height)
    (hevidence : s.evidence = []) (hroom : s.height + 1 < 2 ^ 64) :
    LoggedWithin e (s.height + 1) 0 (final (closeHeight f ⟨d, s⟩)) := by
  obtain ⟨es, hes, htidy⟩ := tidy_run s.height (World.emitAll ⟨d, s⟩ [.broadcast (.commit f)])
  rw [closeHeight, bind_ok (get_run _), bind_ok (emit_run _ _), bind_ok htidy,
    wrappingAdd_of_lt hroom]
  set w := (World.emitAll ⟨d, s⟩ [.broadcast (.commit f)]).emitAll es
  have hadvanced : Logged e (final (advanceHeight (s.height + 1) w)) ∧
      (final (advanceHeight (s.height + 1) w)).state = s.toHeight (s.height + 1) := by
    refine logged_advanceHeight ((hnumbered.recordAll _).recordAll es) (fun entry hentry => ?_) ?_
    · -- Compaction only takes entries away.
      rcases Disk.mem_log_recordAll hentry with hbefore | happended
      · exact Nat.lt_succ_of_le (hlog entry hbefore)
      · obtain ⟨n, hc | hc⟩ := hes _ happended <;> cases hc
    · change ∀ item ∈ s.evidence, _
      rw [hevidence]
      exact List.forall_mem_nil _
  obtain ⟨hlogged, hstate⟩ := hadvanced
  refine ⟨hlogged, ?_, ?_⟩
  · rw [hstate]
    exact le_rfl
  · rw [hstate]
    exact le_rfl

/-- Finalizing a block keeps log and memory in step. -/
lemma ensures_finalize (blockHash : Hash32) (hroom : height + 1 < 2 ^ 64) :
    Ensures (LoggedWithin e height round) (LoggedWithin e (height + 1) round)
      (e.finalize blockHash) := by
  intro w hw
  have hstay := hw.next
  rw [finalize, bind_ok (get_run w)]
  rcases hheld : w.state.proposal with _ | block
  · exact hstay
  dsimp only
  by_cases hhash : block.hash ≠ blockHash
  · rw [if_pos hhash]
    exact hstay
  rw [if_neg hhash]
  rcases hvalid : e.validateCommitCertificate w.disk.store block (certificateOf w.state blockHash)
    with err | ⟨⟩
  · exact hstay
  rw [ofExcept_ok, bind_ok (pure_run () w)]
  rcases hstored : e.executeAndStore block (certificateOf w.state blockHash) w with
    ⟨f, w₁⟩ | ⟨err, w₁⟩
  swap
  · rw [bind_error hstored]
    obtain ⟨es, hes, rfl⟩ := executeAndStore_error hstored
    exact ⟨hstay.toLogged.emitEvm hes, hstay.heightLe, hstay.roundLe⟩
  rw [bind_ok hstored]
  obtain ⟨es, rfl, hcommits, hlogs⟩ := executeAndStore_logs hstored
  have hlog : ∀ entry ∈ (w.disk.recordAll es).store.loadConsensusWal,
      entry.height ≤ w.state.height := by
    intro entry hentry
    rcases Disk.mem_log_recordAll hentry with hbefore | happended
    · exact (hw.past entry hbefore).height_le
    · rw [hlogs entry happended]
      exact le_rfl
  have hnumbered : (w.disk.recordAll es).Numbered := hw.numbered.recordAll es
  have hbound : w.state.height + 1 < 2 ^ 64 :=
    lt_of_le_of_lt (Nat.succ_le_succ hw.heightLe) hroom
  rcases applyPendingEvidence_cases e (w.emitAll es) with
    ⟨d₂, hsettles, hevidence⟩ | ⟨err, hfails, -⟩
  · rw [bind_ok hevidence]
    obtain ⟨es', rfl, hleaves⟩ := leavesLog_of_settles hsettles
    have hlog' : ∀ entry ∈ ((w.disk.recordAll es).recordAll es').store.loadConsensusWal,
        entry.height ≤ w.state.height := by
      rw [(Disk.recordAll_leavesLog hleaves _).1]
      exact hlog
    have hclosed := logged_closeHeight (e := e) f (s := { w.state with evidence := [] })
      (hnumbered.recordAll es') hlog' rfl hbound
    exact ⟨hclosed.toLogged, hclosed.heightLe.trans (Nat.succ_le_succ hw.heightLe),
      hclosed.roundLe.trans (Nat.zero_le _)⟩
  · -- The evidence is against validators with a record, so that it can be applied.
    obtain ⟨_, happlied⟩ : ∃ staking, (e.view (w.disk.recordAll es).store).applyEvidence
        w.state.evidence e.economics = .ok staking :=
      StakingSnapshot.applyEvidence_of_known fun item hitem => (hw.known item hitem).commits hcommits
    rw [World.disk_emitAll, World.state_emitAll, happlied] at hfails
    cases hfails

lemma ensures_handleVoteActions (vote : Vote) (hroom : height + 1 < 2 ^ 64) :
    Ensures (LoggedWithin e height round) (LoggedWithin e (height + 1) round)
      (e.handleVoteActions vote) := by
  refine .bind (ensures_recordVote vote) (fun out => ?_) fun _ h => h.next
  refine .bind (ensures_answerQuorum out.1) (fun localFinalize => ?_) fun _ h => h.next
  rcases out.2.or localFinalize with _ | blockHash
  · exact .pure (fun _ h => h.next) _
  · exact ensures_finalize blockHash hroom

lemma ensures_prevoteAndDrive (hroom : height + 1 < 2 ^ 64) :
    Ensures (LoggedWithin e height round) (LoggedWithin e (height + 1) round) e.prevoteAndDrive := by
  refine .bind (ensures_castOnce _ _) (fun cast => ?_) fun _ h => h.next
  cases cast with
  | none => exact .pure (fun _ h => h.next) _
  | some vote => exact ensures_handleVoteActions vote hroom

lemma ensures_onProposal (proposal : Proposal) (hroom : height + 1 < 2 ^ 64) :
    Ensures (LoggedWithin e height round) (LoggedWithin e (height + 1) round)
      (e.onProposal proposal) := by
  intro w hw
  have hstay := hw.next
  rw [onProposal, bind_ok (get_run w)]
  rcases hvalid : e.validateProposal w.disk.store proposal with err | ⟨⟩
  · exact hstay
  rw [ofExcept_ok, bind_ok (pure_run () w)]
  by_cases hmatch : proposal.height ≠ w.state.height ∨ proposal.round ≠ w.state.round
  · rw [if_pos hmatch]
    exact hstay
  rw [if_neg hmatch]
  have hheight : proposal.height = w.state.height := not_not.mp (not_or.mp hmatch).1
  rcases hheld : w.state.proposal with _ | existing
  · have hlogged : Logged e (w.emitAll [.write (.appendConsensusWal (.proposalAccepted
        proposal.height proposal.round proposal.block.hash))]) :=
      hw.toLogged.remark hheight.le fun _ => rfl
    exact ensures_prevoteAndDrive hroom _ ⟨hlogged.withState rfl hlogged.known, hw.heightLe, hw.roundLe⟩
  · dsimp only
    by_cases hdiffers : existing.hash ≠ proposal.block.hash
    · rw [if_pos hdiffers, recordConflictingProposal, bind_ok (get_run w)]
      by_cases hrecorded : (proposal.validatorAddress, proposal.height, proposal.round) ∈
          w.state.processedEvidence
      · rw [if_pos hrecorded]
        exact hstay
      · rw [if_neg hrecorded]
        obtain ⟨expected, hexpected, haccepts⟩ := validateProposal_ok hvalid
        have hknown : e.Knows w.disk.store (proposalEvidence proposal).validatorAddress := by
          change e.Knows w.disk.store proposal.validatorAddress
          rw [haccepts.validator]
          exact knows_of_proposerFor hexpected
        have hstays := stays_accuse e w (proposalEvidence proposal)
        exact ⟨hw.toLogged.accuse hheight hknown, hstays.height ▸ hstay.heightLe,
          hstays.round ▸ hstay.roundLe⟩
    · rw [if_neg hdiffers]
      exact hstay

/-- Building a block writes at most EVM accounts, and signs a header. -/
lemma ensures_buildBlock (l : LocalValidator) (proposer : Address) (pending : List Transaction)
    (timestampMs : ℕ) :
    Ensures (LoggedWithin e height round) (LoggedWithin e height round)
      (e.buildBlock l proposer pending timestampMs) := by
  intro w hw
  rw [buildBlock, bind_ok (get_run w)]
  dsimp only
  have hkeeps := ExecutionEngine.keeps_dryRunTransactions e.execution e.scheme w.state.height
    (pending.take e.params.maxTransactionsPerBlock) proposer w.disk
  rcases hdry : e.execution.dryRunTransactions e.scheme w.state.height
    (pending.take e.params.maxTransactionsPerBlock) proposer w.disk with
    ⟨⟨state, receipts⟩, d⟩ | ⟨err, d⟩
  all_goals
    rw [hdry] at hkeeps
    obtain ⟨es, hes, rfl⟩ := hkeeps
    have hwritten : LoggedWithin e height round (w.emitAll es) :=
      ⟨hw.toLogged.emitEvm hes, hw.heightLe, hw.roundLe⟩
  · rw [bind_ok (onDisk_ok hdry)]
    dsimp only
    rw [bind_ok (get_run _)]
    rcases signBlock e.scheme _ (pending.take e.params.maxTransactionsPerBlock)
      l.validator.publicKey l.secretKey with err | block
    · exact hwritten
    · dsimp only
      rw [bind_ok (emit_run _ _)]
      have hsigned : ∀ header, LoggedWithin e height round
          ((w.emitAll es).emitAll [.signHeader header]) := fun header =>
        ⟨hwritten.toLogged.emitAll (by simp [Effect.LeavesLog]) (by simp), hwritten.heightLe,
          hwritten.roundLe⟩
      split <;> exact hsigned _
  · rw [bind_error (onDisk_error hdry)]
    exact hwritten

omit [Revm] in
/-- Announcing a block logs that it is accepted and sent, and takes it as the proposal. -/
lemma ensures_announceBlock (l : LocalValidator) (proposer : Address) (block : Block) :
    Ensures (LoggedWithin e height round) (LoggedWithin e height round)
      (e.announceBlock l proposer block) := by
  intro w hw
  rw [announceBlock]
  rcases hnoted : e.noted w.disk.store l.validator.address with err | staking
  · rw [bind_error (noteValidatorLiveness_error hnoted)]
    exact hw
  rw [bind_ok (noteValidatorLiveness_ok hnoted), bind_ok (get_run _), bind_ok (appendWal_run _ _),
    bind_ok (update_run _ _), bind_ok (appendWal_run _ _), emit_run, final_ok]
  set w₁ := w.note l.validator.address staking
  have haccepted : Logged e (w₁.emitAll [.write (.appendConsensusWal
      (.proposalAccepted w₁.state.height w₁.state.round block.hash))]) :=
    (hw.toLogged.note hnoted).remark (le_refl w₁.state.height) fun _ => rfl
  let w₂ : World :=
    { disk := w₁.disk.recordAll [.write (.appendConsensusWal
        (.proposalAccepted w₁.state.height w₁.state.round block.hash))]
      state := { w₁.state with proposal := some block } }
  have hheld : Logged e w₂ := haccepted.withState rfl haccepted.known
  have hlogged : Logged e (w₂.emitAll [.write (.appendConsensusWal
      (.proposalBroadcast w₁.state.height w₁.state.round block.hash))]) :=
    hheld.remark (le_refl w₁.state.height) fun _ => rfl
  exact ⟨hlogged.send _, hw.heightLe, hw.roundLe⟩

lemma ensures_maybePropose (pending : List Transaction) (timestampMs : ℕ)
    (hroom : height + 1 < 2 ^ 64) :
    Ensures (LoggedWithin e height round) (LoggedWithin e (height + 1) round)
      (e.maybePropose pending timestampMs) := by
  intro w hw
  have hstay := hw.next
  rw [maybePropose, bind_ok (get_run w)]
  rcases e.localValidator with _ | l
  · exact hstay
  dsimp only
  by_cases hactive : e.localValidatorActive w.disk.store
  swap
  · rw [if_pos hactive]
    exact hstay
  rw [if_neg (not_not.mpr hactive)]
  rcases e.proposerFor w.disk.store w.state.height w.state.round with err | proposer
  · exact hstay
  rw [ofExcept_ok, bind_ok (pure_run proposer w)]
  split
  · exact hstay
  split
  · exact hstay
  rcases protect w.disk.store l.validator.address w.state.height with _ | protection
  · exact hstay
  dsimp only
  rw [bind_ok (emit_run _ w)]
  have hprotected : LoggedWithin e height round (w.emitAll
      [.write (.putSlashingProtection l.validator.address protection)]) :=
    ⟨hw.toLogged.emitAll (by simp [Effect.LeavesLog]) (by simp), hw.heightLe, hw.roundLe⟩
  refine Ensures.bind (ensures_buildBlock l proposer.address pending timestampMs) (fun built => ?_)
    (fun _ h => h.next) _ hprotected
  cases built with
  | none => exact .pure (fun _ h => h.next) _
  | some block =>
    exact .bind (ensures_announceBlock l proposer.address block)
      (fun _ => ensures_prevoteAndDrive hroom) fun _ h => h.next

/-! ## Events -/

lemma logged_onTimeout (pending : List Transaction) (timestampMs : ℕ) (hw : Logged e w)
    (hheight : w.state.height + 2 < 2 ^ 64) (hround : w.state.round + 1 < 2 ^ 32) :
    Logged e (final (e.onTimeout pending timestampMs w)) := by
  have hadvance : Ensures (LoggedWithin e (w.state.height + 1) w.state.round)
      (LoggedWithin e (w.state.height + 1) (w.state.round + 1)) advanceRound := by
    intro w₁ hw₁
    have hroom : w₁.state.round + 1 < 2 ^ 32 :=
      lt_of_le_of_lt (Nat.succ_le_succ hw₁.roundLe) hround
    refine ⟨logged_advanceRound hw₁.toLogged hroom, hw₁.heightLe, ?_⟩
    change wrappingAdd 32 w₁.state.round 1 ≤ _
    rw [wrappingAdd_of_lt hroom]
    exact Nat.succ_le_succ hw₁.roundLe
  have hall : Ensures (LoggedWithin e w.state.height w.state.round)
      (LoggedWithin e (w.state.height + 2) (w.state.round + 1)) (e.onTimeout pending timestampMs) :=
    .bind (ensures_prevoteAndDrive (by omega))
      (fun _ => .bind hadvance (fun _ => ensures_maybePropose pending timestampMs hheight)
        fun _ h => h.next)
      fun _ h => ⟨h.toLogged, Nat.le_succ_of_le h.heightLe, Nat.le_succ_of_le h.roundLe⟩
  exact (hall w ⟨hw, le_rfl, le_rfl⟩).toLogged

lemma logged_onStart (pending : List Transaction) (timestampMs : ℕ) (hw : Logged e w)
    (hheight : w.state.height + 1 < 2 ^ 64) :
    Logged e (final (e.onStart pending timestampMs w)) := by
  have hpersist : Ensures (LoggedWithin e w.state.height w.state.round)
      (LoggedWithin e w.state.height w.state.round) persistSnapshot := fun w₁ hw₁ =>
    ⟨logged_persistSnapshot hw₁.numbered hw₁.past hw₁.recovers hw₁.known, hw₁.heightLe, hw₁.roundLe⟩
  have hall : Ensures (LoggedWithin e w.state.height w.state.round)
      (LoggedWithin e (w.state.height + 1) w.state.round) (e.onStart pending timestampMs) :=
    .bind hpersist (fun _ => ensures_maybePropose pending timestampMs hheight) fun _ h => h.next
  exact (hall w ⟨hw, le_rfl, le_rfl⟩).toLogged

/-- A delivered block whose certificate is accepted is executed, on the disk that the import
hands to the execution, without an error. -/
def Importable (e : ConsensusEngine) (w : World) (f : FinalizedBlock) : Prop :=
  w.state.height ≤ f.certificate.height →
  e.validateCommitCertificate w.disk.store f.block f.certificate = .ok () →
  (output (e.execution.validateAndCommitFinalizedBlock e.scheme f
    (w.disk.record (.write (.appendConsensusWal (.commitFinalized f.certificate.height
      f.certificate.round f.certificate.blockHash)))))).isSome

instance (e : ConsensusEngine) (w : World) (f : FinalizedBlock) : Decidable (e.Importable w f) :=
  inferInstanceAs (Decidable (_ → _ → _))

lemma logged_import {f : FinalizedBlock} (hw : Logged e w) (himportable : e.Importable w f)
    (hroom : f.block.header.height + 1 < 2 ^ 64) :
    Logged e (final (e.importExternalFinalizedBlock f w)) := by
  rw [importExternalFinalizedBlock, bind_ok (get_run w)]
  by_cases hpast : f.certificate.height < w.state.height
  · rw [if_pos hpast]
    exact hw
  rw [if_neg hpast]
  rcases hvalid : e.validateCommitCertificate w.disk.store f.block f.certificate with err | ⟨⟩
  · exact hw
  rw [ofExcept_ok, bind_ok (pure_run () w), bind_ok (appendWal_run _ w)]
  have hexecutes := himportable (not_lt.mp hpast) hvalid
  set d := w.disk.record (.write (.appendConsensusWal (.commitFinalized f.certificate.height
    f.certificate.round f.certificate.blockHash)))
  rcases hrun : e.execution.validateAndCommitFinalizedBlock e.scheme f d with ⟨_, d₁⟩ | ⟨err, d₁⟩
  swap
  · rw [hrun] at hexecutes
    cases hexecutes
  obtain ⟨p, d₂, hprepares, -, -, hd₁⟩ := ExecutionEngine.validateAndCommit_ok_iff.mp hrun
  have hcommits : Commits e f d d₁ := hd₁ ▸ .intro d₂ p _ hprepares (.inr rfl)
  have hcertified := (validateCommitCertificate_ok hvalid).height
  obtain ⟨es, hes, rfl⟩ := hprepares.onlyEvmWrites
  -- The execution appends nothing to the log, where the commit is the last entry.
  have hlog : ∀ entry ∈ d₁.store.loadConsensusWal, entry.height ≤ f.block.header.height := by
    intro entry hentry
    have hbefore : entry ∈ d.store.loadConsensusWal := by
      rw [hd₁] at hentry
      rcases Disk.mem_log_recordAll hentry with hentry | haccounting
      · rcases Disk.mem_log_record hentry with hentry | hc
        · exact (Disk.mem_log_recordAll hentry).resolve_right fun hevm => by cases hes _ hevm
        · cases hc
      · cases ExecutionEngine.isAccounting_of_mem haccounting
    rw [← hcertified]
    rcases Disk.mem_log_record hbefore with hbefore | happended
    · exact (hw.past entry hbefore).height_le.trans (not_lt.mp hpast)
    · cases happended
      exact le_rfl
  have hnumbered : d₁.Numbered := hd₁ ▸ (((hw.numbered.record _).recordAll es).record _).recordAll _
  rw [bind_ok (onDisk_ok hrun), wrappingAdd_of_lt hroom]
  refine (logged_advanceHeight hnumbered (fun entry hentry => Nat.lt_succ_of_le (hlog entry hentry))
    fun item hitem => ?_).1
  have hknown : e.Knows d.store item.validatorAddress := (hw.known item hitem).congr rfl
  exact hknown.commits hcommits

/-- What an event must be for recovery to be faithful after it: no counter runs out of its range,
and a delivered block can be imported or is refused for its certificate. -/
def Recoverable (e : ConsensusEngine) (w : World) (event : Event) : Prop :=
  Roomy w event ∧ ∀ f ∈ event.commit?, e.Importable w f

instance (e : ConsensusEngine) (w : World) (event : Event) : Decidable (e.Recoverable w event) :=
  inferInstanceAs (Decidable (_ ∧ _))

/-- Every event keeps log and memory in step. -/
lemma Logged.handle {event : Event} (hw : Logged e w) (h : e.Recoverable w event) :
    Logged e (e.handle w event) := by
  obtain ⟨hroom, himportable⟩ := h
  have hheight : w.state.height + 1 < 2 ^ 64 := Nat.lt_of_succ_lt hroom.height
  have hwithin : LoggedWithin e w.state.height w.state.round w := ⟨hw, le_rfl, le_rfl⟩
  cases event with
  | start pending timestampMs => exact logged_onStart pending timestampMs hw hheight
  | proposal proposal => exact (ensures_onProposal proposal hheight w hwithin).toLogged
  | vote vote => exact (ensures_handleVoteActions vote hheight w hwithin).toLogged
  | commit f => exact logged_import hw (himportable f rfl) (hroom.commit f rfl)
  | timeout pending timestampMs =>
    exact logged_onTimeout pending timestampMs hw hroom.height hroom.round

/-- **Recovery is faithful between events.**  Whatever a process handles after it has started
with an empty log, recovery gives back the height, the round, the lock and the valid block in
memory, as long as every delivered block whose certificate is accepted is executed without an
error. -/
theorem run_recovers {d : Disk} (hlog : d.store.consensusWal = ∅)
    (hrun : e.Run e.Recoverable (World.boot d) w) : w.disk.recover = w.state.lasting := by
  have hlogged : Logged e w := by
    induction hrun with
    | refl => exact logged_boot hlog
    | tail _ hstep ih =>
      obtain ⟨event, hrecoverable, rfl⟩ := hstep
      exact ih.handle hrecoverable
  exact hlogged.recover

end ConsensusEngine

/-! ## A commit that is logged and not executed -/

section

open Transparent ConsensusEngine

/-- A block of the first round with the precommits of three validators. -/
def certified (block : Block) : FinalizedBlock :=
  { block
    certificate :=
      { blockHash := block.hash, height := 1, round := 0
        votes := [[2], [3], [4]].map fun key =>
          Transparent.castVote key 1 0 .precommit block.hash }
    receipts := [], epochTransition := none }

/-- A validator starts and gets a certified block whose roots are not those of its execution. -/
def misled : World :=
  [.start [] 0, .commit (certified (emptyProposal [2] 0).block)].foldl (engineOf [1]).handle
    (World.boot blank)

/-- It stays in the first height, and recovery says that it is in the second one. -/
theorem misled_recovers_elsewhere :
    Relation.ReflTransGen ((engineOf [1]).Handles fun _ _ => True) (World.boot blank) misled ∧
    misled.state.lasting.height = 1 ∧ misled.disk.recover.height = 2 ∧
    misled.disk.recover ≠ misled.state.lasting := by
  have hheights : misled.state.lasting.height = 1 ∧ misled.disk.recover.height = 2 := by
    decide +kernel
  refine ⟨.tail (.single ⟨_, trivial, rfl⟩) ⟨_, trivial, rfl⟩, hheights.1, hheights.2, fun h => ?_⟩
  rw [h, hheights.1] at hheights
  exact absurd hheights.2 (by decide)

/-- A validator locks on a proposal, goes to the next round, and imports another block. -/
def recoverableEvents : List Event :=
  let blockHash := (emptyProposal [2] 0).block.hash
  [.start [] 0, .proposal (emptyProposal [2] 0),
   .vote (Transparent.castVote [2] 1 0 .prevote blockHash),
   .vote (Transparent.castVote [3] 1 0 .prevote blockHash), .timeout [] 0,
   .commit (certified (propose (engineOf [1]).execution blank [2] 1 0 0 []))]

/-- The general fact for that validator. -/
theorem run_recovers_devnet :
    let w := recoverableEvents.foldl (engineOf [1]).handle (World.boot blank)
    w.disk.recover = w.state.lasting :=
  run_recovers (d := blank) rfl (run_of_meets _ (by decide +kernel))

end

end ZenoChain
