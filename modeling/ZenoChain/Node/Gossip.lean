/-
# The gossip task

The loop of a node over the messages of its peers.  While a message is handled other tasks run as
well, wherever the handler waits or takes a lock and before every step of an import, and change
whatever they like.  The loop ends with the first error, and two kinds of messages cause one:
headers that fail their check, and a block that the consensus engine refuses, if they answer the
outstanding request.
-/
import ZenoChain.Consensus.Devnet
import ZenoChain.Node.HeightSteps
import ZenoChain.Node.Mempool
import ZenoChain.Node.SyncMachine

namespace ZenoChain

open Word

/-- The network envelope: the messages of the consensus engine, and those between nodes. -/
inductive PeerMessage
  | gossip (message : NetworkMessage)
  | handshake
  | status
  | ping (nonce : ℕ)
  | pong (nonce : ℕ)
  | syncRequest (requestId : ℕ) (request : SyncRequest)
  | syncResponse (requestId : ℕ) (response : SyncResponse)
deriving DecidableEq, Repr

/-- What the gossip task reads and writes; the outbound channel keeps what is sent. -/
structure Gossiper where
  memory : EngineMemory
  mempool : Mempool := {}
  syncer : Syncer := {}
  sent : List (String × PeerMessage) := []

/-- The parts of an import, in order. -/
inductive ImportPart
  | height
  | certificate
  | log
  | execution
  | mempool
  | advance
deriving DecidableEq, Repr

/-- Where the handling of a message can be interrupted; an import before each of its steps. -/
inductive Pause
  | beforeMessage
  | beforeHeaders
  | duringImport (part : ImportPart) (step : ℕ)
  | beforeSync
  | beforeRequest
deriving DecidableEq, Repr

/-- A message of a peer, with the clock while it is handled and with what the other tasks do at
each point where its handler can be interrupted. -/
structure Inbound where
  peer : String
  message : PeerMessage
  nowMs : ℕ → ℕ
  others : Pause → Gossiper → Gossiper

namespace Gossiper

/-- The store of the node. -/
def store (g : Gossiper) : Store := g.memory.shared.store

/-- The node with another memory. -/
def remember (memory : EngineMemory) (g : Gossiper) : Gossiper := { g with memory }

/-- Sends a message to a peer. -/
def send (peer : String) (message : PeerMessage) : EStateM String Gossiper PUnit :=
  modify fun g => { g with sent := g.sent ++ [(peer, message)] }

/-- Runs a section of the sync machine. -/
def onSyncer {α : Type} (m : EStateM String Syncer α) : EStateM String Gossiper α :=
  Handler.zoom Gossiper.syncer (fun syncer g => { g with syncer }) id m

lemma onSyncer_ok {α : Type} {m : EStateM String Syncer α} {g : Gossiper} {a : α} {s' : Syncer}
    (h : m g.syncer = .ok a s') : onSyncer m g = .ok a { g with syncer := s' } :=
  Handler.zoom_ok h

lemma onSyncer_error {α : Type} {m : EStateM String Syncer α} {g : Gossiper} {err : String}
    {s' : Syncer} (h : m g.syncer = .error err s') :
    onSyncer m g = .error err { g with syncer := s' } :=
  Handler.zoom_error h

/-- Lets the other tasks run. -/
def interrupt (m : Inbound) (pause : Pause) : EStateM String Gossiper PUnit :=
  modify (m.others pause)

/-- Goes on with the sync: `continue_sync`. -/
def continueSync (m : Inbound) : EStateM String Gossiper PUnit := do
  interrupt m .beforeSync
  let g ← get
  let localHeight := g.store.latestHeight
  interrupt m .beforeRequest
  match ← onSyncer (Syncer.continueSync localHeight m.peer) with
  | none => return ⟨⟩
  | some (requestId, request) => send m.peer (.syncRequest requestId request)

section

variable [Hashing]

/-- Runs steps of the engine; the other tasks run before each of them. -/
def amid {α : Type} (m : Inbound) (part : ImportPart) (p : HeightM α) :
    EStateM String Gossiper α := fun g =>
  match p.run.amid Gossiper.memory remember (fun k => m.others (.duringImport part k)) g with
  | (.ok a, g') => .ok a g'
  | (.error err, g') => .error err g'

variable [Revm] (e : ConsensusEngine)

/-- Writes a block to the log, executes it and commits it. -/
def executeImport (m : Inbound) (finalized : FinalizedBlock) : EStateM String Gossiper PUnit := do
  amid m .log (HeightM.appendWal (.commitFinalized finalized.certificate.height
    finalized.certificate.round finalized.certificate.blockHash))
  amid m .execution (HeightM.onStore ExecutionError.toText
    (e.execution.validateAndCommitSteps e.scheme finalized))

/-- Imports a block: `import_external_finalized_block`. -/
def importBlock (m : Inbound) (finalized : FinalizedBlock) : EStateM String Gossiper PUnit := do
  let state ← amid m .height (HeightM.act .readState)
  if finalized.certificate.height < state.height then return ⟨⟩
  else
    amid m .certificate (e.validateCertificateSteps finalized.block finalized.certificate)
    executeImport e m finalized
    interrupt m (.duringImport .mempool 0)
    modify fun g => { g with mempool := g.mempool.removeCommitted finalized.block.transactions }
    amid m .advance (ConsensusEngine.advanceHeightSteps
      (wrappingAdd 64 finalized.block.header.height 1))

/-- Handles a sync response. -/
def handleSyncResponse (m : Inbound) (requestId : ℕ) :
    SyncResponse → EStateM String Gossiper PUnit
  | .headers headers => do
    let g ← get
    let localHeight := g.store.latestHeight
    interrupt m .beforeHeaders
    let g ← get
    let view : SyncView := ⟨e.chainId, g.store, m.nowMs, localHeight⟩
    if ← onSyncer (Syncer.answerHeaders view m.peer requestId headers) then continueSync m
    else return ⟨⟩
  | .block block => do
    match ← onSyncer (Syncer.answerBlock m.peer requestId) with
    | none => return ⟨⟩
    | some expectedHeight =>
      match block with
      | none => continueSync m
      | some block =>
        if block.block.header.height ≠ expectedHeight then return ⟨⟩
        else
          importBlock e m block
          continueSync m
  | .notFound => return ⟨⟩

/-- Handles a message of a peer. -/
def handleMessage (m : Inbound) : EStateM String Gossiper PUnit := do
  interrupt m .beforeMessage
  match m.message with
  | .gossip (.transaction tx) =>
    modify fun g =>
      match g.mempool.insert tx with
      | .ok mempool => { g with mempool }
      | .error _ => g
  | .syncRequest requestId request =>
    let g ← get
    send m.peer (.syncResponse requestId (g.store.buildSyncResponse request))
  | .ping nonce => send m.peer (.pong nonce)
  | .syncResponse requestId response => handleSyncResponse e m requestId response
  | .gossip _ | .handshake | .status | .pong _ => return ⟨⟩

/-- The loop of the gossip task over the messages that it receives. -/
def gossipLoop : List Inbound → EStateM String Gossiper PUnit
  | [] => return ⟨⟩
  | m :: messages => do
    handleMessage e m
    gossipLoop messages

/-! ## Imports while no other task runs -/

omit [Hashing] [Revm] in
/-- The node with the store and the round state of an engine. -/
def holding (g : Gossiper) (w : World) : Gossiper :=
  remember ⟨⟨w.disk.store, g.memory.shared.zkPool⟩, w.state⟩ g

omit [Hashing] [Revm] in
/-- What a handler of the engine leaves on a node, which is another one if it succeeds. -/
def outcome {α : Type} (g g' : Gossiper) :
    EStateM.Result String World α → EStateM.Result String Gossiper α
  | .ok a w => .ok a (g'.holding w)
  | .error err w => .error err (g.holding w)

omit [Revm] in
/-- While no other task runs, steps of the engine do what its handler does. -/
lemma amid_of_performs {α : Type} {m : Inbound} (hm : ∀ pause, m.others pause = id) (part : ImportPart)
    {p : HeightM α} {w : World} {r : EStateM.Result String World α} (h : p.Performs w r)
    (g : Gossiper) : amid m part p (g.holding w) = outcome g g r := by
  have hothers : (fun k => m.others (.duringImport part k)) = fun _ => id := funext fun k => hm _
  have hpart : ∀ (memory : engineMemory.State) g, Gossiper.memory (remember memory g) = memory :=
    fun _ _ => rfl
  have hsteps := Program.amid_id hpart (fun _ => rfl) (fun _ _ _ => rfl) p.run (g.holding w)
  have halone : p.run.alone (g.holding w).memory = _ := h g.memory.shared.zkPool
  rw [halone] at hsteps
  rw [amid, hothers, hsteps]
  rcases r with ⟨a, w'⟩ | ⟨err, w'⟩
  · rfl
  · rfl

omit [Revm] in
lemma bind_of_performs {α β : Type} {m : Inbound} (hm : ∀ pause, m.others pause = id)
    (part : ImportPart) {p : HeightM α} {q : EngineM α} {w : World} (h : p.Performs w (q w))
    {g g' : Gossiper} {f : α → EStateM String Gossiper β} {f' : α → EngineM β}
    (hf : ∀ a w', f a (g.holding w') = outcome g g' (f' a w')) :
    (amid m part p >>= f) (g.holding w) = outcome g g' ((q >>= f') w) := by
  have hsteps := amid_of_performs hm part h g
  rcases hrun : q w with ⟨a, w'⟩ | ⟨err, w'⟩
  · rw [hrun] at hsteps
    rw [Handler.bind_ok hsteps, Handler.bind_ok hrun]
    exact hf a w'
  · rw [hrun] at hsteps
    rw [Handler.bind_error hsteps, Handler.bind_error hrun]
    rfl

/-- **An import into which nothing comes** is the handler of the engine; after it the transactions
of the block leave the mempool. -/
theorem importBlock_alone (e : ConsensusEngine) {m : Inbound} (hm : ∀ pause, m.others pause = id)
    (finalized : FinalizedBlock) (w : World) (g : Gossiper) :
    importBlock e m finalized (g.holding w) =
      outcome g
        { g with
          mempool :=
            if finalized.certificate.height < w.state.height then g.mempool
            else g.mempool.removeCommitted finalized.block.transactions }
        (e.importExternalFinalizedBlock finalized w) := by
  have hread : HeightM.Performs (HeightM.act .readState) w (.ok w.state w) := fun _ => rfl
  rw [importBlock, Handler.bind_ok (amid_of_performs hm .height hread g),
    ConsensusEngine.importExternalFinalizedBlock, Handler.bind_ok (Handler.get_run w)]
  split_ifs with hpast
  · rfl
  refine bind_of_performs hm .certificate (ConsensusEngine.performs_validateCertificate _ _ _ w)
    fun _ w₁ => ?_
  rw [executeImport, bind_assoc]
  refine bind_of_performs hm .log (HeightM.Performs.appendWal _ w₁) fun _ w₂ => ?_
  refine bind_of_performs hm .execution
    (HeightM.Performs.onStore (ExecutionEngine.runs_validateAndCommit _ _) _) fun _ w₃ => ?_
  rw [interrupt, hm, Handler.bind_ok (Handler.modify_run _ _), Handler.bind_ok (Handler.modify_run _ _)]
  have hadvance := amid_of_performs hm .advance (ConsensusEngine.performs_advanceHeight
    (wrappingAdd 64 finalized.block.header.height 1) w₃)
    { g with mempool := g.mempool.removeCommitted finalized.block.transactions }
  obtain ⟨es, -, hrun⟩ := ConsensusEngine.advanceHeight_run
    (wrappingAdd 64 finalized.block.header.height 1) w₃
  rw [hrun] at hadvance ⊢
  exact hadvance
/-! ## Blocks that are refused -/

/-- The engine refuses to import a block.  It is not past when the height is read, and either its
certificate is not valid when the staking state is read, or its execution, amid what the others do,
fails or leads elsewhere. -/
def Refuses (m : Inbound) (finalized : FinalizedBlock) (g : Gossiper) : Prop :=
  let g₁ := m.others (.duringImport .height 0) g
  let g₂ := m.others (.duringImport .certificate 0) g₁
  g₁.memory.round.height ≤ finalized.certificate.height ∧
    ((∃ err, e.validateCommitCertificate g₂.store finalized.block finalized.certificate =
        .error err) ∨ ∃ err g', executeImport e m finalized g₂ = .error err g')

/-- The handler ends without an error. -/
def Completes (h : EStateM String Gossiper PUnit) (g : Gossiper) : Prop := ∃ g', h g = .ok ⟨⟩ g'

variable {e}

omit [Revm] in
/-- The certificate is checked against the staking state at the moment it is read. -/
lemma amid_validateCertificate (m : Inbound) (block : Block) (certificate : CommitCertificate)
    (g : Gossiper) : amid m .certificate (e.validateCertificateSteps block certificate) g =
      Handler.ofExcept (e.validateCommitCertificate
        (m.others (.duringImport .certificate 0) g).store block certificate)
        (m.others (.duringImport .certificate 0) g) := by
  set g' := m.others (.duringImport .certificate 0) g
  have hsteps : (e.validateCertificateSteps block certificate).run.amid Gossiper.memory remember
      (fun k => m.others (.duringImport .certificate k)) g =
      (e.validateCommitCertificate
        { backend := .memory, stakingState := g'.store.stakingState } block certificate, g') := rfl
  rw [amid, hsteps, ConsensusEngine.validateCommitCertificate_stakingState]
  rcases e.validateCommitCertificate g'.store block certificate with err | ⟨⟩
  · rfl
  · rfl

omit [Revm] in
/-- The end of an import never fails. -/
lemma amid_advanceHeight_completes (m : Inbound) (nextHeight : ℕ) (g : Gossiper) :
    Completes (amid m .advance (ConsensusEngine.advanceHeightSteps nextHeight)) g := ⟨_, rfl⟩

/-- An import fails exactly if the block is refused. -/
lemma importBlock_cases (m : Inbound) (finalized : FinalizedBlock) (g : Gossiper) :
    (¬ Refuses e m finalized g ∧ Completes (importBlock e m finalized) g) ∨
      (Refuses e m finalized g ∧ ∃ err g', importBlock e m finalized g = .error err g') := by
  have hread : amid m .height (HeightM.act .readState) g =
      .ok (m.others (.duringImport .height 0) g).memory.round
        (m.others (.duringImport .height 0) g) := rfl
  rw [Completes, importBlock, Handler.bind_ok hread]
  set g₁ := m.others (.duringImport .height 0) g
  set g₂ := m.others (.duringImport .certificate 0) g₁ with hg₂
  have hrefuses : Refuses e m finalized g ↔ g₁.memory.round.height ≤ finalized.certificate.height ∧
      ((∃ err, e.validateCommitCertificate g₂.store finalized.block finalized.certificate =
        .error err) ∨ ∃ err g', executeImport e m finalized g₂ = .error err g') := Iff.rfl
  rw [hrefuses]
  by_cases hpast : finalized.certificate.height < g₁.memory.round.height
  · rw [if_pos hpast]
    exact .inl ⟨fun h => absurd h.1 (Nat.not_le.mpr hpast), g₁, rfl⟩
  rw [if_neg hpast]
  have hahead := Nat.not_lt.mp hpast
  have hcheck := amid_validateCertificate (e := e) m finalized.block finalized.certificate g₁
  rw [← hg₂] at hcheck
  rcases hvalid : e.validateCommitCertificate g₂.store finalized.block finalized.certificate with
    err | ⟨⟩
  · rw [hvalid] at hcheck
    exact .inr ⟨⟨hahead, .inl ⟨err, rfl⟩⟩, err, g₂, Handler.bind_error hcheck⟩
  rw [hvalid] at hcheck
  rw [Handler.bind_ok hcheck]
  rcases hrun : executeImport e m finalized g₂ with ⟨⟨⟩, g₃⟩ | ⟨err, g₃⟩
  · refine .inl ⟨?_, ?_⟩
    · rintro ⟨-, ⟨err, herror⟩ | ⟨err, g', herror⟩⟩
      · cases herror
      · cases herror
    · rw [Handler.bind_ok hrun, interrupt, Handler.bind_ok (Handler.modify_run _ _),
        Handler.bind_ok (Handler.modify_run _ _)]
      exact amid_advanceHeight_completes m _ _
  · exact .inr ⟨⟨hahead, .inr ⟨err, g₃, rfl⟩⟩, err, g₃, Handler.bind_error hrun⟩

/-! ## Messages that end the loop -/

variable (e) in
/-- A message that ends the loop: headers of the followed peer that answer the outstanding request
and fail their check, or such a block that is refused. -/
def Fatal (m : Inbound) (g : Gossiper) : Prop :=
  let g₀ := m.others .beforeMessage g
  match m.message with
  | .syncResponse requestId (.headers headers) =>
    let g₁ := m.others .beforeHeaders g₀
    g₁.syncer.sync.activePeer = some m.peer ∧
    ∃ pending ∈ g₁.syncer.sync.pendingHeaders, pending.requestId = requestId ∧
      ∃ err, validateHeaderBatch e.chainId g₁.store m.nowMs g₀.store.latestHeight headers pending =
        .error err
  | .syncResponse requestId (.block (some block)) =>
    g₀.syncer.sync.activePeer = some m.peer ∧
    g₀.syncer.sync.pendingBlock = some ⟨requestId, block.block.header.height⟩ ∧
    Refuses e m block
      { g₀ with syncer := { g₀.syncer with sync := { g₀.syncer.sync with pendingBlock := none } } }
  | _ => False

omit [Hashing] [Revm] in
/-- Going on never fails. -/
lemma continueSync_completes (m : Inbound) (g : Gossiper) : Completes (continueSync m) g := by
  rw [Completes, continueSync, interrupt, Handler.bind_ok (Handler.modify_run _ _),
    Handler.bind_ok (Handler.get_run _), interrupt, Handler.bind_ok (Handler.modify_run _ _)]
  rcases Syncer.continueSync_cases (m.others .beforeSync g).store.latestHeight m.peer
    (m.others .beforeRequest (m.others .beforeSync g)).syncer with hrun | ⟨-, -, request, s', hrun, -⟩
  · rw [Handler.bind_ok (onSyncer_ok hrun)]
    exact ⟨_, rfl⟩
  · rw [Handler.bind_ok (onSyncer_ok hrun)]
    exact ⟨_, rfl⟩

/-- The handler of a message ends with an error exactly if the message is fatal. -/
lemma handleMessage_cases (m : Inbound) (g : Gossiper) :
    (¬ Fatal e m g ∧ Completes (handleMessage e m) g) ∨
      (Fatal e m g ∧ ∃ err g', handleMessage e m g = .error err g') := by
  rw [Completes, handleMessage, Fatal, interrupt, Handler.bind_ok (Handler.modify_run _ g)]
  set g₀ := m.others .beforeMessage g
  rcases m.message with message | _ | _ | nonce | nonce | ⟨requestId, request⟩ |
    ⟨requestId, response⟩
  · rcases message with tx | _ | _ | _ <;> exact .inl ⟨id, _, rfl⟩
  · exact .inl ⟨id, _, rfl⟩
  · exact .inl ⟨id, _, rfl⟩
  · exact .inl ⟨id, _, rfl⟩
  · exact .inl ⟨id, _, rfl⟩
  · exact .inl ⟨id, _, rfl⟩
  rcases response with headers | block | _
  · -- Headers: the section fails exactly if it checks them and they do not pass.
    dsimp only
    rw [handleSyncResponse, Handler.bind_ok (Handler.get_run _), interrupt,
      Handler.bind_ok (Handler.modify_run _ _), Handler.bind_ok (Handler.get_run _)]
    set g₁ := m.others .beforeHeaders g₀
    rcases Syncer.answerHeaders_run
        ⟨e.chainId, g₁.store, m.nowMs, g₀.store.latestHeight⟩ m.peer requestId headers g₁.syncer with
      ⟨pending, hpeer, hpending, hid, ⟨err, hcheck, hrun⟩ | ⟨heights, hcheck, hrun⟩⟩ |
        ⟨hother, hrun⟩
    · exact .inr ⟨⟨hpeer, pending, hpending, hid, err, hcheck⟩, err, _,
        Handler.bind_error (onSyncer_error hrun)⟩
    · refine .inl ⟨?_, ?_⟩
      · rintro ⟨-, pending', hpending', -, err, herror⟩
        obtain rfl := Option.some.inj (hpending.symm.trans hpending')
        rw [hcheck] at herror
        cases herror
      · rw [Handler.bind_ok (onSyncer_ok hrun)]
        exact continueSync_completes m _
    · refine .inl ⟨?_, ?_⟩
      · rintro ⟨hpeer, pending, hpending, hid, -⟩
        exact hother pending hpeer hpending hid
      · rw [Handler.bind_ok (onSyncer_ok hrun)]
        exact ⟨_, rfl⟩
  · -- A block: the import fails exactly if the block is the expected one and is refused.
    dsimp only
    rw [handleSyncResponse]
    rcases Syncer.answerBlock_run m.peer requestId g₀.syncer with
      ⟨pending, hpeer, hpending, hid, hrun⟩ | ⟨hother, hrun⟩
    · rw [Handler.bind_ok (onSyncer_ok hrun)]
      rcases block with _ | block
      · exact .inl ⟨id, continueSync_completes m _⟩
      dsimp only
      by_cases hheight : block.block.header.height ≠ pending.height
      · rw [if_pos hheight]
        refine .inl ⟨?_, _, rfl⟩
        rintro ⟨-, hexpected, -⟩
        obtain rfl := Option.some.inj (hpending.symm.trans hexpected)
        exact hheight rfl
      · rw [if_neg hheight]
        rw [not_not] at hheight
        have hexpected : g₀.syncer.sync.pendingBlock =
            some ⟨requestId, block.block.header.height⟩ := by
          rw [hpending, hheight, ← hid]
        rcases importBlock_cases (e := e) m block { g₀ with syncer := { g₀.syncer with
            sync := { g₀.syncer.sync with pendingBlock := none } } } with
          ⟨htaken, g', hrun'⟩ | ⟨hrefused, err, g', hrun'⟩
        · refine .inl ⟨fun h => htaken h.2.2, ?_⟩
          rw [Handler.bind_ok hrun']
          exact continueSync_completes m _
        · exact .inr ⟨⟨hpeer, hexpected, hrefused⟩, err, g', Handler.bind_error hrun'⟩
    · rw [Handler.bind_ok (onSyncer_ok hrun)]
      rcases block with _ | block
      · exact .inl ⟨id, _, rfl⟩
      · refine .inl ⟨?_, _, rfl⟩
        rintro ⟨hpeer, hexpected, -⟩
        exact hother _ hpeer hexpected rfl
  · exact .inl ⟨id, _, rfl⟩

variable (e) in
/-- The state after a message. -/
def after (g : Gossiper) (m : Inbound) : Gossiper := Handler.final (handleMessage e m g)

/-- **Which messages stop the gossip task.**  The loop handles all messages that it receives, from
whatever state and whatever the other tasks do, exactly if none of them is fatal when it comes. -/
theorem gossipLoop_completes_iff (e : ConsensusEngine) (messages : List Inbound) (g : Gossiper) :
    (∃ g', gossipLoop e messages g = .ok ⟨⟩ g') ↔
      ∀ x ∈ Trace.along (after e) g messages, ¬ Fatal e x.2 x.1 := by
  induction messages generalizing g with
  | nil => exact iff_of_true ⟨g, rfl⟩ fun x hx => (List.not_mem_nil hx).elim
  | cons m messages ih =>
    rw [Trace.along, List.forall_mem_cons, ← ih, gossipLoop]
    rcases handleMessage_cases (e := e) m g with ⟨hharmless, g', hrun⟩ | ⟨hfatal, err, g', hrun⟩
    · rw [Handler.bind_ok hrun, after, hrun, and_iff_right hharmless]
      rfl
    · rw [Handler.bind_error hrun]
      refine iff_of_false ?_ fun h => h.1 hfatal
      rintro ⟨g', hok⟩
      cases hok

end

end Gossiper

/-! ## A peer that stops the task -/

section

open Transparent

/-- A message that comes while no other task runs. -/
def Inbound.alone (peer : String) (message : PeerMessage) : Inbound :=
  { peer, message, nowMs := fun _ => 0, others := fun _ g => g }

/-- A node without blocks that has asked a peer for headers. -/
def askingNode : Gossiper :=
  { memory := { shared := { store := blank.store, zkPool := {} }, round := {} }
    syncer := askedPeer }

/-- A node without blocks that has asked a peer for the first block. -/
def fetchingNode : Gossiper :=
  { memory := { shared := { store := blank.store, zkPool := {} }, round := {} }
    syncer := { sync := { activePeer := some "peer", targetHeight := 5, pendingBlock := some ⟨2, 1⟩ }
                requestIds := 3 } }

/-- The header of another chain. -/
def strangeHeader : BlockHeader := { emptyHeader [1] 0 with chainId := "other" }

/-- A block whose certificate is for another one. -/
def strangeBlock : FinalizedBlock :=
  { block := (emptyProposal [1] 0).block, receipts := [], epochTransition := none
    certificate := { blockHash := 0, height := 1, round := 0, votes := [] } }

/-- The header of another chain ends the loop, and so does a block with a foreign certificate. -/
theorem bad_answers_stop_gossip :
    (∃ err g', Gossiper.gossipLoop (engineOf [1])
      [.alone "peer" (.syncResponse 1 (.headers [strangeHeader]))] askingNode = .error err g') ∧
    ∃ err g', Gossiper.gossipLoop (engineOf [1])
      [.alone "peer" (.syncResponse 2 (.block (some strangeBlock)))] fetchingNode =
        .error err g' := by
  have hstops : ∀ (m : Inbound) (g : Gossiper), Gossiper.Fatal (engineOf [1]) m g →
      ∃ err g', Gossiper.gossipLoop (engineOf [1]) [m] g = .error err g' := by
    intro m g hfatal
    rcases Gossiper.handleMessage_cases (e := engineOf [1]) m g with
      ⟨hharmless, -⟩ | ⟨-, err, g', hrun⟩
    · exact absurd hfatal hharmless
    · exact ⟨err, g', Handler.bind_error hrun⟩
  constructor
  · refine hstops _ _ ⟨rfl, ⟨1, 1, 5⟩, rfl, rfl, "sync header chain id mismatch", ?_⟩
    decide +kernel
  · refine hstops _ _ ⟨rfl, rfl, le_rfl, .inl ⟨"certificate block hash mismatch", ?_⟩⟩
    decide +kernel

end

end ZenoChain
