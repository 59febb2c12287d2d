/-
# The sync machine

What a node remembers of its sync: the peer that it follows, the request that it waits for, and
the heights whose blocks it has still to ask for.  The sync task and the gossip task change it
under a lock, one section at a time; in between, the local height moves on.
-/
import ZenoChain.Base.Trace
import ZenoChain.Node.HeaderSync

namespace ZenoChain

open Word

/-- A request for a block that waits for its answer. -/
structure PendingBlockRequest where
  requestId : ℕ
  height : ℕ
deriving DecidableEq, Repr

/-- The state of the sync. -/
structure SyncState where
  activePeer : Option String := none
  targetHeight : ℕ := 0
  pendingHeaders : Option PendingHeadersRequest := none
  pendingBlock : Option PendingBlockRequest := none
  queuedHeights : List ℕ := []
deriving DecidableEq, Repr

/-- The identifier of the request that waits for its answer. -/
def SyncState.outstanding (s : SyncState) : Option ℕ :=
  (s.pendingHeaders.map PendingHeadersRequest.requestId).or
    (s.pendingBlock.map PendingBlockRequest.requestId)

/-- What the header check reads besides the headers. -/
structure SyncView where
  chainId : ChainId
  store : Store
  nowMs : ℕ → ℕ
  localHeight : ℕ

/-- The sync state with the counter of request identifiers. -/
structure Syncer where
  sync : SyncState := {}
  requestIds : ℕ := 1
deriving DecidableEq, Repr

namespace Syncer

/-- Follows the best peer: the section of `sync_with_best_peer`. -/
def pickPeer (peer : String) (bestHeight : ℕ) (s : Syncer) : Syncer :=
  if s.sync.activePeer ≠ some peer then
    { s with sync := { activePeer := some peer, targetHeight := bestHeight } }
  else { s with sync := { s.sync with targetHeight := max s.sync.targetHeight bestHeight } }

/-- Takes the next request to a peer, if nothing is outstanding: the section of `continue_sync`. -/
def continueSync (localHeight : ℕ) (peer : String) :
    EStateM String Syncer (Option (ℕ × SyncRequest)) := do
  let s ← get
  if s.sync.activePeer ≠ some peer then return none
  else if s.sync.pendingHeaders.isSome ∨ s.sync.pendingBlock.isSome then return none
  else
    match s.sync.queuedHeights with
    | height :: heights =>
      set
        { sync := { s.sync with queuedHeights := heights, pendingBlock := some ⟨s.requestIds, height⟩ }
          requestIds := wrappingAdd 64 s.requestIds 1 : Syncer }
      return some (s.requestIds, .blockByHeight height)
    | [] =>
      if localHeight < s.sync.targetHeight then
        let startHeight := saturatingAdd 64 localHeight 1
        let limit := min (s.sync.targetHeight - localHeight) 32
        set
          { sync := { s.sync with pendingHeaders := some ⟨s.requestIds, startHeight, limit⟩ }
            requestIds := wrappingAdd 64 s.requestIds 1 : Syncer }
        return some (s.requestIds, .headers startHeight limit)
      else return none

/-- The section of `handle_sync_response` for block responses: takes the request out, and gives
back the height that was asked for. -/
def answerBlock (peer : String) (requestId : ℕ) : EStateM String Syncer (Option ℕ) := do
  let s ← get
  if s.sync.activePeer ≠ some peer then return none
  else
    match s.sync.pendingBlock with
    | none => return none
    | some pending =>
      -- A request with another identifier is put back.
      if pending.requestId ≠ requestId then return none
      else
        set { s with sync := { s.sync with pendingBlock := none } }
        return some pending.height

section

variable [Hashing]

/-- The section of `handle_sync_response` for header responses: takes the request out, checks the
headers and queues their heights.  Gives back whether to go on. -/
def answerHeaders (view : SyncView) (peer : String) (requestId : ℕ) (headers : List BlockHeader) :
    EStateM String Syncer Bool := do
  let s ← get
  if s.sync.activePeer ≠ some peer then return false
  else
    match s.sync.pendingHeaders with
    | none => return false
    | some pending =>
      if pending.requestId ≠ requestId then return false
      else
        set { s with sync := { s.sync with pendingHeaders := none } }
        let heights ← Handler.ofExcept (validateHeaderBatch view.chainId view.store view.nowMs
          view.localHeight headers pending)
        modify fun s =>
          { s with sync := { s.sync with queuedHeights := s.sync.queuedHeights ++ heights } }
        return true

end

end Syncer

/-- A step of the sync machine: a peer is picked, the sync goes on with a peer, or a response of a
peer is received. -/
inductive SyncStep
  | picked (peer : String) (bestHeight : ℕ)
  | continued (localHeight : ℕ) (peer : String)
  | received (view : SyncView) (peer : String) (requestId : ℕ) (response : SyncResponse)

namespace Syncer

/-- The response is of the kind that the outstanding request asks for. -/
def Fits (s : Syncer) : SyncResponse → Prop
  | .headers _ => s.sync.pendingHeaders.isSome
  | .block _ => s.sync.pendingBlock.isSome
  | .notFound => False

section

variable [Hashing]

/-- The machine after a step. -/
def step (s : Syncer) : SyncStep → Syncer
  | .picked peer bestHeight => s.pickPeer peer bestHeight
  | .continued localHeight peer => Handler.final (continueSync localHeight peer s)
  | .received view peer requestId (.headers headers) =>
    Handler.final (answerHeaders view peer requestId headers s)
  | .received _ peer requestId (.block _) => Handler.final (answerBlock peer requestId s)
  | .received _ _ _ .notFound => s

end

/-! ## What the sections do -/

variable {s : Syncer} {peer : String}

/-- A section of `continue_sync` leaves the machine alone, or it finds nothing outstanding and
takes a request out. -/
lemma continueSync_cases (localHeight : ℕ) (peer : String) (s : Syncer) :
    continueSync localHeight peer s = .ok none s ∨
    (s.sync.pendingHeaders = none ∧ s.sync.pendingBlock = none ∧
      ∃ request s', continueSync localHeight peer s = .ok (some request) s' ∧
        ((∃ heights pending, s'.sync =
            { s.sync with queuedHeights := heights, pendingBlock := some pending }) ∨
          ∃ pending, s'.sync = { s.sync with pendingHeaders := some pending })) := by
  rw [continueSync, Handler.bind_ok (Handler.get_run s)]
  by_cases hpeer : s.sync.activePeer ≠ some peer
  · rw [if_pos hpeer]
    exact .inl rfl
  · rw [if_neg hpeer]
    by_cases hpending : s.sync.pendingHeaders.isSome ∨ s.sync.pendingBlock.isSome
    · rw [if_pos hpending]
      exact .inl rfl
    · rw [if_neg hpending]
      rw [not_or, Option.not_isSome_iff_eq_none, Option.not_isSome_iff_eq_none] at hpending
      rcases s.sync.queuedHeights with _ | ⟨height, heights⟩
      · dsimp only
        by_cases hbehind : localHeight < s.sync.targetHeight
        · rw [if_pos hbehind]
          exact .inr ⟨hpending.1, hpending.2, _, _, rfl, .inr ⟨_, rfl⟩⟩
        · rw [if_neg hbehind]
          exact .inl rfl
      · exact .inr ⟨hpending.1, hpending.2, _, _, rfl, .inl ⟨_, _, rfl⟩⟩

/-- With nothing outstanding, a peer that is ahead gets a request. -/
lemma continueSync_idle (hpeer : s.sync.activePeer = some peer)
    (hidle : s.sync.outstanding = none) {localHeight : ℕ}
    (hbehind : localHeight < s.sync.targetHeight) :
    ∃ request s', continueSync localHeight peer s = .ok (some request) s' := by
  rw [SyncState.outstanding, Option.or_eq_none_iff, Option.map_eq_none_iff,
    Option.map_eq_none_iff] at hidle
  rw [continueSync, Handler.bind_ok (Handler.get_run s), if_neg (not_not.mpr hpeer),
    if_neg (by simp [hidle.1, hidle.2])]
  rcases s.sync.queuedHeights with _ | ⟨height, heights⟩
  · dsimp only
    rw [if_pos hbehind]
    exact ⟨_, _, rfl⟩
  · exact ⟨_, _, rfl⟩

/-- A block response of the active peer to the outstanding block request takes it out; any other
leaves the machine alone. -/
lemma answerBlock_run (peer : String) (requestId : ℕ) (s : Syncer) :
    (∃ pending, s.sync.activePeer = some peer ∧ s.sync.pendingBlock = some pending ∧
      pending.requestId = requestId ∧
      answerBlock peer requestId s =
        .ok (some pending.height) { s with sync := { s.sync with pendingBlock := none } }) ∨
    ((∀ pending, s.sync.activePeer = some peer → s.sync.pendingBlock = some pending →
        pending.requestId ≠ requestId) ∧
      answerBlock peer requestId s = .ok none s) := by
  rw [answerBlock, Handler.bind_ok (Handler.get_run s)]
  by_cases hpeer : s.sync.activePeer ≠ some peer
  · rw [if_pos hpeer]
    exact .inr ⟨fun pending h => absurd h hpeer, rfl⟩
  · rw [if_neg hpeer, not_not] at *
    rcases hpending : s.sync.pendingBlock with _ | pending
    · exact .inr ⟨fun pending _ h => by (cases h), rfl⟩
    · dsimp only
      by_cases hid : pending.requestId ≠ requestId
      · rw [if_pos hid]
        refine .inr ⟨fun pending' _ h => ?_, rfl⟩
        rwa [← Option.some.inj h]
      · rw [if_neg hid]
        exact .inl ⟨pending, hpeer, rfl, not_not.mp hid, rfl⟩

section

variable [Hashing]

/-- A header response of the active peer to the outstanding header request takes it out, whether
the headers are accepted or not; any other leaves the machine alone. -/
lemma answerHeaders_run (view : SyncView) (peer : String) (requestId : ℕ)
    (headers : List BlockHeader) (s : Syncer) :
    (∃ pending, s.sync.activePeer = some peer ∧ s.sync.pendingHeaders = some pending ∧
      pending.requestId = requestId ∧
      ((∃ err, validateHeaderBatch view.chainId view.store view.nowMs view.localHeight headers
            pending = .error err ∧
          answerHeaders view peer requestId headers s =
            .error err { s with sync := { s.sync with pendingHeaders := none } }) ∨
        ∃ heights, validateHeaderBatch view.chainId view.store view.nowMs view.localHeight headers
            pending = .ok heights ∧
          answerHeaders view peer requestId headers s = .ok true
            { s with sync := { s.sync with
              pendingHeaders := none, queuedHeights := s.sync.queuedHeights ++ heights } })) ∨
    ((∀ pending, s.sync.activePeer = some peer → s.sync.pendingHeaders = some pending →
        pending.requestId ≠ requestId) ∧
      answerHeaders view peer requestId headers s = .ok false s) := by
  rw [answerHeaders, Handler.bind_ok (Handler.get_run s)]
  by_cases hpeer : s.sync.activePeer ≠ some peer
  · rw [if_pos hpeer]
    exact .inr ⟨fun pending h => absurd h hpeer, rfl⟩
  · rw [if_neg hpeer]
    rw [not_not] at hpeer
    rcases hpending : s.sync.pendingHeaders with _ | pending
    · exact .inr ⟨fun pending _ h => by (cases h), rfl⟩
    · dsimp only
      by_cases hid : pending.requestId ≠ requestId
      · rw [if_pos hid]
        refine .inr ⟨fun pending' _ h => ?_, rfl⟩
        rwa [← Option.some.inj h]
      · rw [if_neg hid]
        refine .inl ⟨pending, hpeer, rfl, not_not.mp hid, ?_⟩
        rcases hcheck : validateHeaderBatch view.chainId view.store view.nowMs view.localHeight
          headers pending with err | heights
        · exact .inl ⟨err, rfl, rfl⟩
        · exact .inr ⟨heights, rfl, rfl⟩

/-! ## Requests are released -/

/-- At most one request waits for its answer. -/
def OneOutstanding (s : Syncer) : Prop :=
  s.sync.pendingHeaders = none ∨ s.sync.pendingBlock = none

lemma OneOutstanding.step (h : s.OneOutstanding) (event : SyncStep) :
    (s.step event).OneOutstanding := by
  cases event with
  | picked peer bestHeight =>
    rw [Syncer.step, pickPeer]
    split
    · exact .inl rfl
    · exact h
  | continued localHeight peer =>
    rw [Syncer.step]
    rcases continueSync_cases localHeight peer s with
      hrun | ⟨hheaders, hblock, request, s', hrun, ⟨heights, pending, hs'⟩ | ⟨pending, hs'⟩⟩
    · rw [hrun]
      exact h
    · rw [hrun, Handler.final_ok, OneOutstanding, hs']
      exact .inl hheaders
    · rw [hrun, Handler.final_ok, OneOutstanding, hs']
      exact .inr hblock
  | received view peer requestId response =>
    cases response with
    | headers headers =>
      rw [Syncer.step]
      rcases answerHeaders_run view peer requestId headers s with
        ⟨pending, -, -, -, ⟨err, -, hrun⟩ | ⟨heights, -, hrun⟩⟩ | ⟨-, hrun⟩
      · rw [hrun]
        exact .inl rfl
      · rw [hrun]
        exact .inl rfl
      · rw [hrun]
        exact h
    | block block =>
      rw [Syncer.step]
      rcases answerBlock_run peer requestId s with ⟨pending, -, -, -, hrun⟩ | ⟨-, hrun⟩
      · rw [hrun]
        exact .inr rfl
      · rw [hrun]
        exact h
    | notFound => exact h

omit [Hashing] in
/-- What waits for its answer waits for headers or for a block. -/
lemma OneOutstanding.outstanding_eq_some (h : s.OneOutstanding) {requestId : ℕ}
    (hout : s.sync.outstanding = some requestId) :
    (∃ pending, s.sync.pendingHeaders = some pending ∧ s.sync.pendingBlock = none ∧
      pending.requestId = requestId) ∨
    ∃ pending, s.sync.pendingHeaders = none ∧ s.sync.pendingBlock = some pending ∧
      pending.requestId = requestId := by
  rw [SyncState.outstanding] at hout
  rcases h with h | h
  · rw [h] at hout
    obtain ⟨pending, hpending, hid⟩ := Option.map_eq_some_iff.mp hout
    exact .inr ⟨pending, h, hpending, hid⟩
  · rw [h, Option.map_none, Option.or_none] at hout
    obtain ⟨pending, hpending, hid⟩ := Option.map_eq_some_iff.mp hout
    exact .inl ⟨pending, hpending, h, hid⟩

/-- A response leaves the followed peer and the target height alone. -/
lemma received_keeps (view : SyncView) (peer : String) (requestId : ℕ) (response : SyncResponse)
    (s : Syncer) :
    (s.step (.received view peer requestId response)).sync.activePeer = s.sync.activePeer ∧
    (s.step (.received view peer requestId response)).sync.targetHeight = s.sync.targetHeight := by
  cases response with
  | headers headers =>
    rw [Syncer.step]
    rcases answerHeaders_run view peer requestId headers s with
      ⟨pending, -, -, -, ⟨err, -, hrun⟩ | ⟨heights, -, hrun⟩⟩ | ⟨-, hrun⟩ <;> rw [hrun] <;>
      exact ⟨rfl, rfl⟩
  | block block =>
    rw [Syncer.step]
    rcases answerBlock_run peer requestId s with ⟨pending, -, -, -, hrun⟩ | ⟨-, hrun⟩ <;>
      rw [hrun] <;> exact ⟨rfl, rfl⟩
  | notFound => exact ⟨rfl, rfl⟩

/-- A response to the outstanding request takes it out exactly if it is of its kind. -/
lemma OneOutstanding.released_iff (h : s.OneOutstanding) {peer : String} {requestId : ℕ}
    (hpeer : s.sync.activePeer = some peer) (hout : s.sync.outstanding = some requestId)
    (view : SyncView) (response : SyncResponse) :
    (s.step (.received view peer requestId response)).sync.outstanding = none ↔
      s.Fits response := by
  have hstays : ∀ s' : Syncer, s' = s → s'.sync.outstanding ≠ none := by
    rintro s' rfl hnone
    rw [hout] at hnone
    cases hnone
  cases response with
  | headers headers =>
    rw [Syncer.step, Fits]
    rcases h.outstanding_eq_some hout with
      ⟨pending, hheaders, hblock, hid⟩ | ⟨pending, hheaders, hblock, hid⟩
    · refine iff_of_true ?_ (by rw [hheaders]; rfl)
      rcases answerHeaders_run view peer requestId headers s with
        ⟨_, -, -, -, ⟨err, -, hrun⟩ | ⟨heights, -, hrun⟩⟩ | ⟨hother, -⟩
      · rw [hrun, Handler.final_error, SyncState.outstanding, hblock]
        rfl
      · rw [hrun, Handler.final_ok, SyncState.outstanding, hblock]
        rfl
      · exact absurd hid (hother pending hpeer hheaders)
    · -- The node waits for a block.
      refine iff_of_false (hstays _ ?_) (by simp [hheaders])
      rcases answerHeaders_run view peer requestId headers s with
        ⟨_, -, hsome, -⟩ | ⟨-, hrun⟩
      · rw [hheaders] at hsome
        cases hsome
      · rw [hrun, Handler.final_ok]
  | block block =>
    rw [Syncer.step, Fits]
    rcases h.outstanding_eq_some hout with
      ⟨pending, hheaders, hblock, hid⟩ | ⟨pending, hheaders, hblock, hid⟩
    · -- The node waits for headers.
      refine iff_of_false (hstays _ ?_) (by simp [hblock])
      rcases answerBlock_run peer requestId s with ⟨_, -, hsome, -⟩ | ⟨-, hrun⟩
      · rw [hblock] at hsome
        cases hsome
      · rw [hrun, Handler.final_ok]
    · refine iff_of_true ?_ (by rw [hblock]; rfl)
      rcases answerBlock_run peer requestId s with ⟨_, -, -, -, hrun⟩ | ⟨hother, -⟩
      · rw [hrun, Handler.final_ok, SyncState.outstanding, hheaders]
        rfl
      · exact absurd hid (hother pending hpeer hblock)
  | notFound => exact iff_of_false (hstays _ rfl) id

/-- **One request at a time, released by a fitting answer.**  In every state that the machine
reaches at most one request is outstanding, and a response of the active peer to it releases it,
so that the next section of `continue_sync` can ask again while the target is above the local
height, exactly if it is of the kind that was asked for. -/
theorem released_iff_fits (events : List SyncStep) {s : Syncer}
    (hs : events.foldl step {} = s) :
    s.OneOutstanding ∧
    ∀ (view : SyncView) (peer : String) (requestId : ℕ) (response : SyncResponse),
      s.sync.activePeer = some peer → s.sync.outstanding = some requestId →
      (((s.step (.received view peer requestId response)).sync.outstanding = none ∧
        ∀ localHeight < s.sync.targetHeight, ∃ request s',
          continueSync localHeight peer (s.step (.received view peer requestId response)) =
            .ok (some request) s') ↔ s.Fits response) := by
  have hone : s.OneOutstanding := by
    have hstep : ∀ (s : Syncer) (event : SyncStep), s.OneOutstanding → True →
        (s.step event).OneOutstanding := fun s event h _ => h.step event
    have hstart : OneOutstanding {} := .inl rfl
    rw [← hs]
    exact (Trace.keeps hstep hstart fun e (_ : e ∈ Trace.along step {} events) => trivial).2
  refine ⟨hone, fun view peer requestId response hpeer hout => ?_⟩
  rw [← hone.released_iff hpeer hout view response, and_iff_left_iff_imp]
  intro hidle localHeight hbehind
  obtain ⟨hpeer', htarget⟩ := received_keeps view peer requestId response s
  exact continueSync_idle (hpeer'.trans hpeer) hidle (htarget ▸ hbehind)

end

end Syncer

/-! ## A peer that has nothing -/

section

open Transparent

/-- A machine that has picked a peer and asked it for headers. -/
def askedPeer : Syncer :=
  [SyncStep.picked "peer" 5, .continued 0 "peer"].foldl Syncer.step {}

/-- What a node without blocks sees. -/
def emptyView : SyncView :=
  { chainId := "zeno", store := { backend := .rocks }, nowMs := fun _ => 0, localHeight := 0 }

/-- After the answer that the request could not be served, or with a block in place of headers,
the request still waits, and the sync does not go on. -/
theorem unfitting_answer_wedges :
    askedPeer.sync.activePeer = some "peer" ∧ askedPeer.sync.outstanding = some 1 ∧
    0 < askedPeer.sync.targetHeight ∧
    ∀ response ∈ [SyncResponse.notFound, .block none],
      (askedPeer.step (.received emptyView "peer" 1 response)).sync.outstanding = some 1 ∧
      Syncer.continueSync 0 "peer" (askedPeer.step (.received emptyView "peer" 1 response)) =
        .ok none (askedPeer.step (.received emptyView "peer" 1 response)) := by
  refine ⟨rfl, rfl, by decide, fun response h => ?_⟩
  rcases List.mem_pair.mp h with rfl | rfl
  · exact ⟨rfl, rfl⟩
  · exact ⟨rfl, rfl⟩

/-- After an empty list of headers, the machine can ask again. -/
theorem empty_headers_release :
    (askedPeer.step (.received emptyView "peer" 1 (.headers []))).sync.outstanding = none ∧
    ∀ localHeight < 5, ∃ request s', Syncer.continueSync localHeight "peer"
      (askedPeer.step (.received emptyView "peer" 1 (.headers []))) = .ok (some request) s' :=
  ((Syncer.released_iff_fits [.picked "peer" 5, .continued 0 "peer"] (s := askedPeer) rfl).2
    emptyView "peer" 1 (.headers []) rfl rfl).mpr rfl

end

end ZenoChain
