/-
# One header for each height

Before a validator signs a header, it puts the height into its slashing protection, and it does not
begin where the protection has this height or a later one.  The protection survives a crash, so
the heights of the signed headers increase over all restarts, wherever a crash cuts a handler.
-/
import ZenoChain.Consensus.Ordinary
import ZenoChain.Consensus.Restart

namespace ZenoChain

open Word Handler

/-! ## Marks and signatures -/

/-- What a validator does about its own proposals: it marks a height as signed, or signs a
header. -/
inductive Guard
  | mark (address : Address) (height : ℕ)
  | sign (height : ℕ)
deriving DecidableEq

/-- What an effect does about the own proposals. -/
def Effect.guard : Effect → Option Guard
  | .write (.putSlashingProtection address protection) =>
    some (.mark address protection.lastSignedProposalHeight)
  | .signHeader header => some (.sign header.height)
  | _ => none

/-- The header that an effect signs. -/
def Effect.header : Effect → Option BlockHeader
  | .signHeader header => some header
  | _ => none

/-- The headers that a process has signed, oldest first. -/
def Disk.headers (d : Disk) : List BlockHeader := d.journal.filterMap Effect.header

/-- The last height that the slashing protection of a validator has. -/
def Store.marked (s : Store) (address : Address) : ℕ :=
  (s.slashingProtection[address]?.getD {}).lastSignedProposalHeight

/-- The height of a signature. -/
def Guard.signed : Guard → Option ℕ
  | .mark .. => none
  | .sign height => some height

/-- The mark of a validator after one more step. -/
def Guard.remark (address : Address) (marked : ℕ) : Guard → ℕ
  | .mark a height => if address = a then height else marked
  | .sign _ => marked

section

variable [Hashing] {d d' : Disk}

lemma headers_recordAll (d : Disk) (es : List Effect) :
    (d.recordAll es).headers.map BlockHeader.height =
      d.headers.map BlockHeader.height ++ (es.filterMap Effect.guard).filterMap Guard.signed := by
  rw [Disk.headers, Disk.journal_recordAll, List.filterMap_append, List.map_append, Disk.headers,
    List.append_right_inj, List.map_filterMap, List.filterMap_filterMap]
  refine List.filterMap_congr fun x _ => ?_
  rcases x with w | _ | _ | _ | _
  · cases w <;> rfl
  all_goals rfl

/-- Only a mark changes a mark. -/
lemma marked_recordAll (d : Disk) (es : List Effect) (a : Address) :
    (d.recordAll es).store.marked a =
      (es.filterMap Effect.guard).foldl (Guard.remark a) (d.store.marked a) := by
  induction es generalizing d with
  | nil => rfl
  | cons x es ih =>
    rw [Disk.recordAll_cons, ih]
    rcases x with w | _ | _ | _ | _
    · cases w with
      | putSlashingProtection b protection =>
        have hmark : (Effect.write (.putSlashingProtection b protection)).guard =
            some (.mark b protection.lastSignedProposalHeight) := rfl
        rw [List.filterMap_cons_some hmark, List.foldl_cons]
        congr 1
        simp only [Store.marked, Disk.store_record_write, Store.apply, Table.getElem?_insert,
          Guard.remark]
        split <;> rfl
      | compactConsensusWal height =>
        obtain ⟨wal, heq⟩ := d.store.compactConsensusWal_eq height
        rw [List.filterMap_cons_none rfl, Disk.store_record_write, Store.apply, heq]
        rfl
      | _ => rfl
    all_goals rfl

/-! ## Programs that neither mark nor sign -/

/-- One disk comes from another one by effects without marks and signatures. -/
def Silent (d d' : Disk) : Prop :=
  ∃ es : List Effect, es.filterMap Effect.guard = [] ∧ d' = d.recordAll es

instance : Std.Refl Silent := ⟨fun _ => ⟨[], rfl, rfl⟩⟩

instance : IsTrans Disk Silent where
  trans := by
    rintro d _ _ ⟨es, hes, rfl⟩ ⟨es', hes', rfl⟩
    refine ⟨es ++ es', ?_, (d.recordAll_append es es').symm⟩
    rw [List.filterMap_append, hes, hes', List.append_nil]

omit [Hashing] in
lemma Effect.guard_of_isOrdinary {x : Effect} (h : x.isOrdinary) : x.guard = none := by
  unfold guard
  split
  · cases h
  · cases h
  · rfl

lemma OrdinaryEffects.silent (h : OrdinaryEffects d d') : Silent d d' := by
  obtain ⟨es, hes, rfl⟩ := h
  exact ⟨es, List.filterMap_eq_nil_iff.mpr fun x hx => Effect.guard_of_isOrdinary (hes x hx), rfl⟩

lemma silent_record (d : Disk) {x : Effect} (h : x.guard = none) : Silent d (d.record x) :=
  ⟨[x], List.filterMap_cons_none h, rfl⟩

end

namespace ConsensusEngine

variable [Hashing] {e : ConsensusEngine}

/-- A program of the engine that neither marks nor signs. -/
abbrev KeepsSilent {α : Type} (m : EngineM α) : Prop :=
  Keeps (fun w w' : World => Silent w.disk w'.disk) m

instance : Std.Refl fun w w' : World => Silent w.disk w'.disk := ⟨fun w => Std.Refl.refl w.disk⟩

instance : IsTrans World fun w w' => Silent w.disk w'.disk :=
  ⟨fun _ _ _ h h' => IsTrans.trans _ _ _ h h'⟩

lemma silent_of_ordinary {α : Type} {m : EngineM α} (h : Keeps Ordinary m) : KeepsSilent m :=
  fun w => (h w).disk.silent

lemma silent_emit {x : Effect} (h : x.guard = none) : KeepsSilent (emit x) :=
  fun w => silent_record w.disk h

lemma silent_applyPendingEvidence : KeepsSilent e.applyPendingEvidence := by
  refine .bind .get fun w => .bind (fun w => Std.Refl.refl w.disk) fun _ => ?_
  split_ifs
  · exact .pure _
  · split
    · exact .throw _
    · exact .bind (silent_emit rfl) fun _ => silent_emit rfl

lemma silent_tidy (height : ℕ) : KeepsSilent (tidy height) := by
  intro w
  obtain ⟨es, hes, hrun⟩ := tidy_run height w
  rw [hrun]
  refine ⟨es, List.filterMap_eq_nil_iff.mpr fun x hx => ?_, rfl⟩
  obtain ⟨n, rfl | rfl⟩ := hes x hx <;> rfl

lemma silent_closeHeight (finalized : FinalizedBlock) : KeepsSilent (closeHeight finalized) :=
  .bind .get fun _ => .bind (silent_emit rfl) fun _ => .bind (silent_tidy _) fun _ =>
    silent_of_ordinary (ordinary_advanceHeight _)

/-- Handlers are silent but for own proposals. -/
lemma silentWalk : Walk
    (fun w w' : World => Silent w.disk w'.disk) fun w w' : World => Silent w.disk w'.disk where
  trans _ _ _ h h' := IsTrans.trans _ _ _ h h'
  stop _ _ h := h
  after _ _ _ h h' := IsTrans.trans _ _ _ h h'
  ordinary _ _ h := h.disk.silent
  accuse w item := silent_record (x := .write (.appendConsensusWal (.evidenceRecorded item.height
    item.round item.validatorAddress item.reason))) w.disk rfl

lemma silent_commit (w : World) (f : FinalizedBlock) (state : BTreeMap Address Account) :
    Silent w.disk (w.emitAll [.write (.atomicCommitBlock f state)]).disk :=
  silent_record (x := .write (.atomicCommitBlock f state)) w.disk rfl

variable [Revm]

lemma silentCourse (e : ConsensusEngine) : e.Course
    (fun w w' : World => Silent w.disk w'.disk) fun w w' : World => Silent w.disk w'.disk where
  toWalk := silentWalk
  finalize := silentWalk.finalize silent_commit fun finalized =>
    Keeps.ends (Keeps.bind silent_applyPendingEvidence fun _ => silent_closeHeight finalized)
      fun _ _ h => h
  importBlock := silentWalk.importExternalFinalizedBlock silent_commit

lemma silent_prevoteAndDrive : KeepsSilent e.prevoteAndDrive := e.silentCourse.prevoteAndDrive.keeps

/-! ## Own proposals -/

/-- What a handler does about own proposals: nothing, or it marks a height above the mark, and then
it may sign one header of this height. -/
def Guards (e : ConsensusEngine) (d : Disk) (gs : List Guard) : Prop :=
  gs = [] ∨ ∃ l, e.localValidator = some l ∧ ∃ height,
    d.store.marked l.validator.address < height ∧
      (gs = [.mark l.validator.address height] ∨
        gs = [.mark l.validator.address height, .sign height])

/-- A program signs one header of the current height at most. -/
lemma sign_buildBlock (l : LocalValidator) (proposer : Address) (pending : List Transaction)
    (timestampMs : ℕ) (w : World) :
    ∃ es, (final (e.buildBlock l proposer pending timestampMs w)).disk = w.disk.recordAll es ∧
      (es.filterMap Effect.guard = [] ∨ es.filterMap Effect.guard = [.sign w.state.height]) := by
  rw [buildBlock, bind_ok (get_run w)]
  dsimp only
  have hkeeps := (ExecutionEngine.keeps_dryRunTransactions e.execution e.scheme w.state.height
    (pending.take e.params.maxTransactionsPerBlock) proposer w.disk).ordinary.silent
  rcases hdry : e.execution.dryRunTransactions e.scheme w.state.height
    (pending.take e.params.maxTransactionsPerBlock) proposer w.disk with
    ⟨⟨state, receipts⟩, d⟩ | ⟨err, d⟩
  · rw [hdry] at hkeeps
    obtain ⟨es, hsilent, rfl⟩ := hkeeps
    rw [bind_ok (onDisk_ok hdry)]
    dsimp only
    rw [bind_ok (get_run _)]
    rcases hsign : signBlock e.scheme _ (pending.take e.params.maxTransactionsPerBlock)
      l.validator.publicKey l.secretKey with err | block
    · exact ⟨es, rfl, .inl hsilent⟩
    · have hsigned : ∀ header : BlockHeader, header.height = w.state.height →
          ∃ es', (w.disk.recordAll es).record (.signHeader header) = w.disk.recordAll es' ∧
            es'.filterMap Effect.guard = [.sign w.state.height] := by
        intro header hheight
        refine ⟨es ++ [.signHeader header], ?_, ?_⟩
        · rw [Disk.recordAll_append]
          rfl
        · rw [List.filterMap_append, hsilent, ← hheight]
          rfl
      dsimp only
      rw [bind_ok (emit_run _ _)]
      obtain ⟨es', hdisk, hguard⟩ := hsigned (e.execution.buildHeader _ proposer w.state.height _ _ _ _ _) rfl
      refine ⟨es', Eq.trans ?_ hdisk, .inr hguard⟩
      split <;> rfl
  · rw [hdry] at hkeeps
    obtain ⟨es, hsilent, rfl⟩ := hkeeps
    rw [bind_error (onDisk_error hdry)]
    exact ⟨es, rfl, .inl hsilent⟩

omit [Revm] in
/-- What is silent leaves the marks as they are. -/
lemma Guards.of_silent {d d₁ : Disk} {gs : List Guard} (hsilent : Silent d d₁)
    (h : e.Guards d₁ gs) : e.Guards d gs := by
  obtain ⟨es, hes, rfl⟩ := hsilent
  refine h.imp_right ?_
  rintro ⟨l, hl, height, hlt, hgs⟩
  rw [marked_recordAll, hes] at hlt
  exact ⟨l, hl, height, hlt, hgs⟩

omit [Revm] in
/-- Silent effects before and after. -/
lemma guards_between {d d₁ d₂ d₃ : Disk} {es : List Effect} (hbefore : Silent d d₁)
    (hguards : d₂ = d₁.recordAll es ∧ e.Guards d₁ (es.filterMap Effect.guard))
    (hafter : Silent d₂ d₃) :
    ∃ es, d₃ = d.recordAll es ∧ e.Guards d (es.filterMap Effect.guard) := by
  obtain ⟨hd₂, hgs⟩ := hguards
  replace hgs := hgs.of_silent hbefore
  obtain ⟨es₁, hes₁, rfl⟩ := hbefore
  obtain ⟨es₃, hes₃, rfl⟩ := hafter
  refine ⟨es₁ ++ es ++ es₃, ?_, ?_⟩
  · rw [hd₂, Disk.recordAll_append, Disk.recordAll_append]
  · rwa [List.filterMap_append, List.filterMap_append, hes₁, hes₃, List.nil_append,
      List.append_nil]

omit [Hashing] [Revm] in
/-- The protection is granted for heights above the mark only. -/
lemma marked_lt_of_protect {store : Store} {a : Address} {height : ℕ}
    {protection : SlashingProtection} (h : protect store a height = some protection) :
    store.marked a < height ∧ protection.lastSignedProposalHeight = height := by
  rw [protect] at h
  split_ifs at h with hle
  cases h
  exact ⟨not_le.mp hle, rfl⟩

/-- **Proposing** marks the height before it signs the header. -/
lemma guards_maybePropose (pending : List Transaction) (timestampMs : ℕ) (w : World) :
    ∃ es, (final (e.maybePropose pending timestampMs w)).disk = w.disk.recordAll es ∧
      e.Guards w.disk (es.filterMap Effect.guard) := by
  have hnothing : ∃ es, w.disk = w.disk.recordAll es ∧
      e.Guards w.disk (es.filterMap Effect.guard) := ⟨[], rfl, .inl rfl⟩
  rw [maybePropose, bind_ok (get_run w)]
  rcases hlocal : e.localValidator with _ | l
  · exact hnothing
  dsimp only
  split
  · exact hnothing
  rcases e.proposerFor w.disk.store w.state.height w.state.round with err | proposer
  · exact hnothing
  rw [ofExcept_ok, bind_ok (pure_run proposer w)]
  split
  · exact hnothing
  split
  · exact hnothing
  rcases hprotect : protect w.disk.store l.validator.address w.state.height with _ | protection
  · exact hnothing
  dsimp only
  obtain ⟨hlt, hheight⟩ := marked_lt_of_protect hprotect
  rw [bind_ok (emit_run _ w)]
  -- Building the block comes after the mark, and everything that follows is silent.
  obtain ⟨es, hdisk, hsign⟩ := sign_buildBlock (e := e) l proposer.address pending timestampMs
    (w.emitAll [.write (.putSlashingProtection l.validator.address protection)])
  have hguards : ∀ d, d = (w.emitAll
        [.write (.putSlashingProtection l.validator.address protection)]).disk.recordAll es →
      d = w.disk.recordAll
          (.write (.putSlashingProtection l.validator.address protection) :: es) ∧
        e.Guards w.disk ((.write (.putSlashingProtection l.validator.address protection) ::
          es).filterMap Effect.guard) := by
    rintro d rfl
    refine ⟨rfl, .inr ⟨l, hlocal, w.state.height, hlt, ?_⟩⟩
    have hmark : (Effect.write (.putSlashingProtection l.validator.address protection)).guard =
        some (.mark l.validator.address w.state.height) := by
      rw [← hheight]
      rfl
    rw [List.filterMap_cons_some hmark]
    rcases hsign with hsign | hsign
    · rw [hsign]
      exact .inl rfl
    · rw [hsign]
      exact .inr rfl
  rcases hbuild : e.buildBlock l proposer.address pending timestampMs
    (w.emitAll [.write (.putSlashingProtection l.validator.address protection)]) with
    ⟨_ | block, w'⟩ | ⟨err, w'⟩
  · rw [hbuild] at hdisk
    rw [bind_ok hbuild]
    exact guards_between (Std.Refl.refl _) (hguards _ hdisk) (Std.Refl.refl _)
  · rw [hbuild] at hdisk
    rw [bind_ok hbuild]
    refine guards_between (Std.Refl.refl _) (hguards _ hdisk) ?_
    have hannounce : KeepsSilent (e.announceBlock l proposer.address block >>= fun _ =>
        e.prevoteAndDrive) :=
      .bind (silent_of_ordinary (ordinary_announceBlock _ _ _)) fun _ => silent_prevoteAndDrive
    exact hannounce w'
  · rw [hbuild] at hdisk
    rw [bind_error hbuild]
    exact guards_between (Std.Refl.refl _) (hguards _ hdisk) (Std.Refl.refl _)

/-- A silent program, and then a proposal. -/
lemma guards_bind_maybePropose {m : EngineM PUnit} (hm : KeepsSilent m)
    (pending : List Transaction) (timestampMs : ℕ) (w : World) :
    ∃ es, (final ((m >>= fun _ => e.maybePropose pending timestampMs) w)).disk =
      w.disk.recordAll es ∧ e.Guards w.disk (es.filterMap Effect.guard) := by
  have hsilent := hm w
  rcases hrun : m w with ⟨⟨⟩, w₁⟩ | ⟨err, w₁⟩
  · rw [hrun] at hsilent
    rw [bind_ok hrun]
    obtain ⟨es, hes⟩ := guards_maybePropose (e := e) pending timestampMs w₁
    exact guards_between hsilent hes (Std.Refl.refl _)
  · rw [hrun] at hsilent
    rw [bind_error hrun]
    obtain ⟨es, hes, hdisk⟩ := hsilent
    exact ⟨es, hdisk, .inl hes⟩

/-- **The handler of an event** marks before it signs, and signs once at most. -/
lemma guards_handle (w : World) (event : Event) :
    e.Guards w.disk ((e.effectsOf w event).filterMap Effect.guard) := by
  have hsilent : ∀ m : EngineM PUnit, KeepsSilent m → ∃ es, (final (m w)).disk =
      w.disk.recordAll es ∧ e.Guards w.disk (es.filterMap Effect.guard) := by
    intro m hm
    obtain ⟨es, hes, hdisk⟩ := hm w
    exact ⟨es, hdisk, .inl hes⟩
  have hhandle : ∃ es, (e.handle w event).disk = w.disk.recordAll es ∧
      e.Guards w.disk (es.filterMap Effect.guard) := by
    cases event with
    | start pending timestampMs =>
      exact guards_bind_maybePropose (silent_of_ordinary ordinary_persistSnapshot) pending
        timestampMs w
    | proposal proposal => exact hsilent _ (e.silentCourse.onProposal proposal).keeps
    | vote vote => exact hsilent _ (e.silentCourse.handleVoteActions vote).keeps
    | commit finalized =>
      exact hsilent _ (e.silentCourse.importBlock finalized).keeps
    | timeout pending timestampMs =>
      have hbefore : KeepsSilent (e.prevoteAndDrive >>= fun _ => advanceRound) :=
        .bind silent_prevoteAndDrive fun _ => silent_of_ordinary ordinary_advanceRound
      have hguards := guards_bind_maybePropose (e := e) hbefore pending timestampMs w
      rwa [bind_assoc] at hguards
  obtain ⟨es, hdisk, hes⟩ := hhandle
  have heffects : e.effectsOf w event = es := by
    rw [effectsOf, hdisk, Disk.journal_recordAll, List.drop_left]
  rwa [heffects]

/-! ## Lives -/

/-- The heights of the signed headers increase, and none is above the mark. -/
structure Dated (e : ConsensusEngine) (d : Disk) : Prop where
  increase : (d.headers.map BlockHeader.height).Pairwise (· < ·)
  marked : ∀ l ∈ e.localValidator, ∀ height ∈ d.headers.map BlockHeader.height,
    height ≤ d.store.marked l.validator.address

omit [Revm] in
/-- The first ones of the effects of a handler. -/
lemma Dated.recordAll {d : Disk} (h : Dated e d) {es : List Effect} {gs : List Guard}
    (hguards : e.Guards d gs) (hfirst : es.filterMap Effect.guard <+: gs) :
    Dated e (d.recordAll es) := by
  have hnothing : es.filterMap Effect.guard = [] → Dated e (d.recordAll es) := by
    intro hnone
    refine ⟨?_, fun l hl height hheight => ?_⟩
    · rw [headers_recordAll, hnone, List.filterMap_nil, List.append_nil]
      exact h.increase
    · rw [headers_recordAll, hnone, List.filterMap_nil, List.append_nil] at hheight
      rw [marked_recordAll, hnone]
      exact h.marked l hl height hheight
  rcases hguards with rfl | ⟨l, hl, height, hlt, hgs⟩
  · exact hnothing (List.prefix_nil.mp hfirst)
  have hbelow : ∀ n ∈ d.headers.map BlockHeader.height, n < height :=
    fun n hn => (h.marked l hl n hn).trans_lt hlt
  have hmark : es.filterMap Effect.guard = [.mark l.validator.address height] →
      Dated e (d.recordAll es) := by
    intro hes
    have hheights : (d.recordAll es).headers.map BlockHeader.height =
        d.headers.map BlockHeader.height := by
      rw [headers_recordAll, hes]
      exact List.append_nil _
    refine ⟨hheights ▸ h.increase, fun l' hl' n hn => ?_⟩
    · rw [hheights] at hn
      rw [hl] at hl'
      cases hl'
      rw [marked_recordAll, hes]
      show n ≤ if _ then height else _
      rw [if_pos rfl]
      exact (hbelow n hn).le
  have hsign : es.filterMap Effect.guard = [.mark l.validator.address height, .sign height] →
      Dated e (d.recordAll es) := by
    intro hes
    have hheights : (d.recordAll es).headers.map BlockHeader.height =
        d.headers.map BlockHeader.height ++ [height] := by
      rw [headers_recordAll, hes]
      rfl
    refine ⟨?_, fun l' hl' n hn => ?_⟩
    · rw [hheights, List.pairwise_append]
      refine ⟨h.increase, List.pairwise_singleton _ _, fun n hn m hm => ?_⟩
      rw [List.mem_singleton.mp hm]
      exact hbelow n hn
    · rw [hheights, List.mem_append, List.mem_singleton] at hn
      rw [hl] at hl'
      cases hl'
      rw [marked_recordAll, hes]
      show n ≤ if _ then height else _
      rw [if_pos rfl]
      exact hn.elim (fun hn => (hbelow n hn).le) le_of_eq
  rcases hgs with rfl | rfl
  · rcases List.prefix_cons_iff.mp hfirst with hnone | ⟨t, hes, ht⟩
    · exact hnothing hnone
    · exact hmark (by rw [hes, List.prefix_nil.mp ht])
  · rcases List.prefix_cons_iff.mp hfirst with hnone | ⟨t, hes, ht⟩
    · exact hnothing hnone
    · rcases List.prefix_cons_iff.mp ht with rfl | ⟨u, rfl, hu⟩
      · exact hmark hes
      · exact hsign (by rw [hes, List.prefix_nil.mp hu])

/-- A step in the life of a process: it handles an event, or it crashes after the first effects of
the handler and starts again on its disk. -/
inductive LifeEvent
  | handle (event : Event)
  | crash (event : Event) (effects : ℕ)

/-- The world after a step. -/
def live (e : ConsensusEngine) (w : World) : LifeEvent → World
  | .handle event => e.handle w event
  | .crash event effects => World.boot (e.crashDisk w event effects)

/-- A step of a life. -/
lemma Dated.live {w : World} (h : Dated e w.disk) (step : LifeEvent) :
    Dated e (e.live w step).disk := by
  cases step with
  | handle event =>
    rw [ConsensusEngine.live, disk_handle]
    exact h.recordAll (guards_handle w event) List.prefix_rfl
  | crash event effects =>
    exact h.recordAll (guards_handle w event) ((List.take_prefix _ _).filterMap _)

/-- **One header for each height.**  Whatever events a validator handles, and however often it
crashes, at whatever point of a handler, the heights of the headers that it signs increase; so it
signs no two headers of one height. -/
theorem signed_heights_increase (e : ConsensusEngine) (store : Store) (life : List LifeEvent) :
    ((life.foldl e.live (World.boot { store })).disk.headers.map BlockHeader.height).Pairwise
      (· < ·) ∧
    ((life.foldl e.live (World.boot { store })).disk.headers.map BlockHeader.height).Nodup := by
  have hdated : ∀ (life : List LifeEvent) (w : World), Dated e w.disk →
      Dated e (life.foldl e.live w).disk := by
    intro life
    induction life with
    | nil => exact fun _ h => h
    | cons step life ih => exact fun _ h => ih _ (h.live step)
  have hincrease := (hdated life (World.boot { store }) ⟨.nil, nofun⟩).increase
  exact ⟨hincrease, hincrease.imp ne_of_lt⟩

end ConsensusEngine

end ZenoChain
