/-
# The connections of a node

Every connection has a task of its own: it waits for the handshake, enters the peer into the table
that all tasks share, and then goes through its loop, message by message.  A step of a task goes
through one lock, or takes what has arrived; between two steps the other tasks run.  The normal end
of the loop removes the peer from the table, and an error ends the task on the spot.  A peer that
hangs up does not end the loop: the task waits on for messages of the node.
-/
import ZenoChain.Base.Table
import ZenoChain.Base.Word
import ZenoChain.Chain.Hash
import ZenoChain.Node.HeaderSync

namespace ZenoChain

open Word

/-! ## Messages -/

/-- Handshake payload. -/
structure Handshake where
  chainId : ChainId
  nodeId : String
  bestHeight : ℕ
deriving DecidableEq, Repr

/-- Human-facing network metadata. -/
structure NetworkMetadata where
  networkName : String
  ticker : String
  rpcUrls : List String
  blockExplorerUrl : String
  metamaskCompatible : Bool
  metamaskSnapCompatible : Bool
  smartContractsSupported : Bool
  evmChainId : Option ℕ
deriving DecidableEq, Repr

/-- Status payload. -/
structure ChainStatus where
  metadata : NetworkMetadata
  chainId : ChainId
  latestHeight : ℕ
  latestHash : Hash32
  nodeId : String
  peers : List String
deriving DecidableEq, Repr

/-- The network envelope with all payloads, as it is on the wire. -/
inductive WireMessage
  | handshake (payload : Handshake)
  | transaction (tx : Transaction)
  | proposal (proposal : Proposal)
  | vote (vote : Vote)
  | commit (finalized : FinalizedBlock)
  | status (status : ChainStatus)
  | syncRequest (requestId : ℕ) (request : SyncRequest)
  | syncResponse (requestId : ℕ) (response : SyncResponse)
  | ping (nonce : ℕ)
  | pong (nonce : ℕ)
deriving DecidableEq, Repr

/-- The third-party serializer of messages. -/
class Wire where
  encode : WireMessage → Bytes

/-- The identifier of a message. -/
def messageId [Hashing] [Wire] (message : WireMessage) : Hash32 := hashBytes (Wire.encode message)

/-! ## The table of peers -/

/-- Scoring constants for peer reputation. -/
def scoreInitial : ℤ := 10
def scoreValidMessage : ℤ := 1
def scoreDuplicateMessage : ℤ := -2
def scoreUsefulBlock : ℤ := 5

/-- Score at or below which a peer is banned. -/
def scoreBanThreshold : ℤ := -50

/-- Maximum peer score. -/
def scoreMax : ℤ := 100

/-- Maximum number of inbound connections. -/
def maxInboundConnections : ℕ := 50

/-- Ban duration in milliseconds (5 minutes). -/
def banDurationMs : ℕ := 300000

/-- Runtime peer reputation and sync metadata. -/
structure PeerState where
  score : ℤ
  bestHeight : ℕ
  connectedAt : ℕ
  lastMessageAt : ℕ
  messagesReceived : ℕ
  isOutbound : Bool
  bannedUntil : Option ℕ
  nodeId : String
deriving DecidableEq, Repr

/-- The peers by their addresses. -/
abbrev Peers := BTreeMap String PeerState

namespace PeerState

/-- The entry of a peer whose handshake was accepted. -/
def admitted (payload : Handshake) (inboundOnly : Bool) (now : ℕ) : PeerState :=
  { score := scoreInitial, bestHeight := payload.bestHeight, connectedAt := now, lastMessageAt := now
    messagesReceived := 0, isOutbound := !inboundOnly, bannedUntil := none
    nodeId := payload.nodeId }

/-- Notes that a message has come in, and what it says about the height of the peer. -/
def note (now : ℕ) (message : WireMessage) (s : PeerState) : PeerState :=
  let s := { s with lastMessageAt := now, messagesReceived := s.messagesReceived + 1 }
  match message with
  | .status status => { s with bestHeight := max s.bestHeight status.latestHeight }
  | .commit finalized =>
    if s.bestHeight < finalized.block.header.height then
      { s with bestHeight := finalized.block.header.height
               score := min (s.score + scoreUsefulBlock) scoreMax }
    else s
  | _ => s

/-- Rewards a valid new message, or penalizes a duplicate. -/
def judge (fresh : Bool) (s : PeerState) : PeerState :=
  if fresh then { s with score := min (s.score + scoreValidMessage) scoreMax }
  else { s with score := s.score + scoreDuplicateMessage }

/-- Bans the peer for a while. -/
def ban (now durationMs : ℕ) (s : PeerState) : PeerState :=
  { s with bannedUntil := some (saturatingAdd 64 now durationMs) }

/-- The ban of a node is in force. -/
def bans (now : ℕ) (nodeId : String) (s : PeerState) : Bool :=
  s.nodeId = nodeId ∧ s.bannedUntil.any (now < ·)

end PeerState

namespace Peers

/-- Changes the entry of a peer, if it has one. -/
def update (peers : Peers) (peer : String) (f : PeerState → PeerState) : Peers :=
  match peers[peer]? with
  | some s => peers.insert peer (f s)
  | none => peers

lemma update_id (peers : Peers) (peer : String) : peers.update peer id = peers := by
  rw [update]
  split
  · rename_i s hs
    exact Table.insert_of_getElem? hs
  · rfl

/-- The number of inbound connections in the table. -/
def inboundCount (peers : Peers) : ℕ := ((Table.values peers).filter fun s => !s.isOutbound).length

/-- Whether a node is banned, at whatever address. -/
def isNodeBanned (peers : Peers) (now : ℕ) (nodeId : String) : Bool :=
  (Table.values peers).any (PeerState.bans now nodeId)

end Peers

/-! ## Duplicates -/

/-- The messages that a connection has seen last. -/
structure RecentMessages where
  seen : Finset Hash32 := ∅
  order : List Hash32 := []

namespace RecentMessages

def maxRecent : ℕ := 2048

/-- Forgets the oldest messages until few enough are left. -/
def evict (seen : Finset Hash32) : List Hash32 → RecentMessages
  | [] => ⟨seen, []⟩
  | oldest :: order =>
    if maxRecent < (oldest :: order).length then evict (seen.erase oldest) order
    else ⟨seen, oldest :: order⟩

/-- Remembers a message, and tells whether it is new. -/
def remember (recent : RecentMessages) (id : Hash32) : Bool × RecentMessages :=
  if id ∈ recent.seen then (false, recent)
  else (true, evict (insert id recent.seen) (recent.order ++ [id]))

end RecentMessages

/-! ## The task of a connection -/

/-- Where the task of a connection stands: it waits for its peer, stands before a lock, or has
ended.  A parked task waits for messages of the node only, its peer has hung up; the end of the loop
tells whether it was parked. -/
inductive Stage
  | greeting
  | counting (remote : WireMessage)
  | screening (payload : Handshake)
  | joining (payload : Handshake)
  | waiting
  | parked
  | noting (message : WireMessage)
  | remembering (message : WireMessage)
  | scoring (message : WireMessage) (fresh : Bool)
  | checking
  | banning
  | leaving (parked : Bool)
  | ended (result : Except String PUnit)

/-- What may arrive while a task waits: a frame, decoded or not; the outcome of sending a message of
the node; the end of the stream, because the peer hangs up; or the end of the channel of messages to
send, because its sender is gone.  A task before a lock goes on without any of them. -/
inductive Arrival
  | nothing
  | frame (message : Except String WireMessage)
  | outgoing (sent : Except String PUnit)
  | hangUp
  | channelEnd

/-- A connection with its task, whether its channel of messages to send has ended, the messages that
it has seen and those that it has passed on. -/
structure Connection where
  peer : String
  inboundOnly : Bool
  stage : Stage := .greeting
  muted : Bool := false
  recent : RecentMessages := {}
  delivered : List WireMessage := []

namespace Connection

/-- The task goes on. -/
def enter (c : Connection) (stage : Stage) : Connection := { c with stage }

@[simp] lemma enter_peer (c : Connection) (stage : Stage) : (c.enter stage).peer = c.peer := rfl

@[simp] lemma enter_inboundOnly (c : Connection) (stage : Stage) :
    (c.enter stage).inboundOnly = c.inboundOnly := rfl

@[simp] lemma enter_stage (c : Connection) (stage : Stage) : (c.enter stage).stage = stage := rfl

/-- The task ends with an error. -/
def fail (c : Connection) (err : String) : Connection := c.enter (.ended (.error err))

/-- What makes a waiting task stop serving its peer without leaving the loop: an error, or the end of
the stream while there may still be messages to send. -/
def abandons (c : Connection) : Arrival → Bool
  | .frame (.error _) => true
  | .outgoing (.error _) => !c.muted
  | .hangUp => !c.muted
  | _ => false

/-- The first message of the peer must be a handshake for the same chain. -/
def greet (c : Connection) (chainId : ChainId) : WireMessage → Connection
  | .handshake payload =>
    if payload.chainId = chainId then c.enter (.screening payload)
    else c.fail ("chain id mismatch local=" ++ chainId ++ " remote=" ++ payload.chainId)
  | _ => c.fail "expected handshake"

/-- One step of the task, with what it makes of the table. -/
def step [Hashing] [Wire] (chainId : ChainId) (now : ℕ) (arrival : Arrival) (peers : Peers)
    (c : Connection) : Peers × Connection :=
  match c.stage with
  | .greeting =>
    match arrival with
    | .nothing | .channelEnd => (peers, c)
    | .outgoing (.ok ()) => (peers, c)
    | .outgoing (.error err) => (peers, c.fail err)
    | .hangUp => (peers, c.fail "missing handshake")
    | .frame (.error err) => (peers, c.fail err)
    | .frame (.ok remote) =>
      if c.inboundOnly then (peers, c.enter (.counting remote)) else (peers, c.greet chainId remote)
  | .counting remote =>
    if maxInboundConnections ≤ peers.inboundCount then
      (peers, c.fail "inbound connection limit reached")
    else (peers, c.greet chainId remote)
  | .screening payload =>
    if peers.isNodeBanned now payload.nodeId then
      (peers, c.fail ("node " ++ payload.nodeId ++ " is banned"))
    else (peers, c.enter (.joining payload))
  | .joining payload =>
    (peers.insert c.peer (.admitted payload c.inboundOnly now), c.enter .waiting)
  | .waiting =>
    match arrival with
    | .nothing => (peers, c)
    | .outgoing (.ok ()) => (peers, c)
    -- Nothing comes out of a channel that has ended.
    | .outgoing (.error err) => if c.muted then (peers, c) else (peers, c.fail err)
    | .frame (.error err) => (peers, c.fail err)
    | .frame (.ok message) => (peers, c.enter (.noting message))
    -- A branch of `select!` that has ended is disabled; the loop ends when both are.
    | .hangUp => if c.muted then (peers, c.enter (.leaving false)) else (peers, c.enter .parked)
    | .channelEnd => (peers, { c with muted := true })
  | .parked =>
    match arrival with
    | .outgoing (.error err) => (peers, c.fail err)
    | .channelEnd => (peers, c.enter (.leaving true))
    | _ => (peers, c)
  | .noting message => (peers.update c.peer (.note now message), c.enter (.remembering message))
  | .remembering message =>
    let (fresh, recent) := c.recent.remember (messageId message)
    (peers, { c with recent, stage := .scoring message fresh })
  | .scoring message fresh =>
    let delivered := if fresh then c.delivered ++ [message] else c.delivered
    (peers.update c.peer (.judge fresh), { c with delivered, stage := .checking })
  | .checking =>
    if peers[c.peer]?.any (·.score ≤ scoreBanThreshold) then (peers, c.enter .banning)
    else (peers, c.enter .waiting)
  | .banning => (peers.update c.peer (.ban now banDurationMs), c.enter (.leaving false))
  | .leaving _ => (peers.erase c.peer, c.enter (.ended (.ok ())))
  | .ended _ => (peers, c)

end Connection

/-! ### What a step does -/

namespace Stage

/-- The handshake was accepted and the connection is still running: its task has not ended, nor does
it only wait for messages to a peer that has hung up. -/
def Joined : Stage → Prop
  | .waiting | .noting _ | .remembering _ | .scoring _ _ | .checking | .banning | .leaving false =>
    True
  | _ => False

/-- The task is in its loop, and no ban is due. -/
def Looping : Stage → Prop
  | .waiting | .noting _ | .remembering _ | .scoring _ _ | .checking => True
  | _ => False

instance : DecidablePred Joined
  | .waiting | .noting _ | .remembering _ | .scoring _ _ | .checking | .banning | .leaving false =>
    isTrue trivial
  | .greeting | .counting _ | .screening _ | .joining _ | .parked | .leaving true | .ended _ =>
    isFalse id

lemma Looping.joined {stage : Stage} (h : stage.Looping) : stage.Joined := by
  cases stage <;> trivial

end Stage

namespace PeerState

/-- Two entries with the same direction, the same node and the same ban. -/
structure Same (s t : PeerState) : Prop where
  isOutbound : t.isOutbound = s.isOutbound
  nodeId : t.nodeId = s.nodeId
  bannedUntil : t.bannedUntil = s.bannedUntil

lemma same_note (now : ℕ) (message : WireMessage) (s : PeerState) : s.Same (s.note now message) := by
  cases message with
  | commit finalized =>
    rw [note]
    dsimp only
    split <;> exact ⟨rfl, rfl, rfl⟩
  | _ => exact ⟨rfl, rfl, rfl⟩

lemma same_judge (fresh : Bool) (s : PeerState) : s.Same (s.judge fresh) := by
  cases fresh <;> exact ⟨rfl, rfl, rfl⟩

end PeerState

namespace Connection

/-- A step that neither enters the peer into the table nor takes it out, nor stops serving it. -/
def Ordinary (c : Connection) (arrival : Arrival) : Prop :=
  match c.stage with
  | .joining _ | .leaving _ => False
  | .waiting => c.abandons arrival = false
  | _ => True

/-- What a step of a task may do to it and to the table. -/
inductive Goes (chainId : ChainId) (now : ℕ) (arrival : Arrival) (peers : Peers) (c : Connection) :
    Peers → Connection → Prop
  | idle (ordinary : c.Ordinary arrival) : Goes chainId now arrival peers c peers c
  | refused (ordinary : c.Ordinary arrival) (outside : ¬ c.stage.Joined) (err : String) :
      Goes chainId now arrival peers c peers (c.fail err)
  | greeted (here : c.stage = .greeting) (remote : WireMessage) :
      Goes chainId now arrival peers c peers (c.enter (.counting remote))
  | dialed (here : c.stage = .greeting) (dials : c.inboundOnly = false) (payload : Handshake) :
      Goes chainId now arrival peers c peers (c.enter (.screening payload))
  | counted {remote : WireMessage} (here : c.stage = .counting remote)
      (few : peers.inboundCount < maxInboundConnections) (payload : Handshake) :
      Goes chainId now arrival peers c peers (c.enter (.screening payload))
  | screened {payload : Handshake} (here : c.stage = .screening payload)
      (free : peers.isNodeBanned now payload.nodeId = false) :
      Goes chainId now arrival peers c peers (c.enter (.joining payload))
  | joined {payload : Handshake} (here : c.stage = .joining payload) :
      Goes chainId now arrival peers c
        (peers.insert c.peer (.admitted payload c.inboundOnly now)) (c.enter .waiting)
  | looped {f : PeerState → PeerState} {c' : Connection} (ordinary : c.Ordinary arrival)
      (here : c.stage.Looping) (there : c'.stage.Looping) (peer : c'.peer = c.peer)
      (inboundOnly : c'.inboundOnly = c.inboundOnly) (same : ∀ s : PeerState, s.Same (f s)) :
      Goes chainId now arrival peers c (peers.update c.peer f) c'
  | abandoned (here : c.stage = .waiting) (abandons : c.abandons arrival) {stage : Stage}
      (outside : stage = .parked ∨ ∃ result, stage = .ended result) :
      Goes chainId now arrival peers c peers (c.enter stage)
  | hungUp (here : c.stage = .waiting) (served : c.abandons arrival = false) :
      Goes chainId now arrival peers c peers (c.enter (.leaving false))
  | gaveUp (here : c.stage = .parked) :
      Goes chainId now arrival peers c peers (c.enter (.leaving true))
  | found {s : PeerState} (here : c.stage = .checking) (entry : peers[c.peer]? = some s)
      (low : s.score ≤ scoreBanThreshold) :
      Goes chainId now arrival peers c peers (c.enter .banning)
  | banned (here : c.stage = .banning) :
      Goes chainId now arrival peers c (peers.update c.peer (.ban now banDurationMs))
        (c.enter (.leaving false))
  | left {parked : Bool} (here : c.stage = .leaving parked) :
      Goes chainId now arrival peers c (peers.erase c.peer) (c.enter (.ended (.ok ())))

variable {chainId : ChainId} {now : ℕ} {arrival : Arrival} {peers : Peers} {c : Connection}

/-- A step of the loop that leaves the table alone. -/
lemma Goes.quiet {c' : Connection} (ordinary : c.Ordinary arrival) (here : c.stage.Looping)
    (there : c'.stage.Looping) (peer : c'.peer = c.peer)
    (inboundOnly : c'.inboundOnly = c.inboundOnly) : Goes chainId now arrival peers c peers c' := by
  have h : Goes chainId now arrival peers c (peers.update c.peer id) c' :=
    .looped ordinary here there peer inboundOnly fun s => ⟨rfl, rfl, rfl⟩
  rwa [Peers.update_id] at h

/-- The first message of the peer either lets it on or ends the task. -/
lemma goes_greet (remote : WireMessage) (ordinary : c.Ordinary arrival) (outside : ¬ c.stage.Joined)
    (h : ∀ payload, Goes chainId now arrival peers c peers (c.enter (.screening payload))) :
    Goes chainId now arrival peers c peers (c.greet chainId remote) := by
  cases remote with
  | handshake payload =>
    rw [greet]
    split
    · exact h payload
    · exact .refused ordinary outside _
  | _ => exact .refused ordinary outside _

/-- **What a step does.** -/
theorem step_goes [Hashing] [Wire] : Goes chainId now arrival peers c
    (c.step chainId now arrival peers).1 (c.step chainId now arrival peers).2 := by
  have hordinary : ∀ {stage : Stage}, c.stage = stage → (c.enter stage).Ordinary arrival →
      c.Ordinary arrival := by
    rintro _ rfl h
    exact h
  unfold step
  rcases hstage : c.stage with _ | remote | payload | payload | _ | _ | message | message |
    ⟨message, fresh⟩ | _ | _ | parked | result
  · have outside : ¬ c.stage.Joined := hstage ▸ id
    replace hordinary : c.Ordinary arrival := hordinary hstage trivial
    rcases arrival with _ | (err | remote) | (err | ⟨⟩) | _ | _
    · exact .idle hordinary
    · exact .refused hordinary outside err
    · dsimp only
      split
      · exact .greeted hstage remote
      · rename_i hdials
        exact goes_greet remote hordinary outside (.dialed hstage (by simpa using hdials))
    · exact .refused hordinary outside err
    · exact .idle hordinary
    · exact .refused hordinary outside _
    · exact .idle hordinary
  · have outside : ¬ c.stage.Joined := hstage ▸ id
    replace hordinary : c.Ordinary arrival := hordinary hstage trivial
    dsimp only
    split
    · exact .refused hordinary outside _
    · rename_i hfew
      exact goes_greet remote hordinary outside (.counted hstage (not_le.mp hfew))
  · dsimp only
    split
    · exact .refused (hordinary hstage trivial) (hstage ▸ id) _
    · rename_i hfree
      exact .screened hstage (by simpa using hfree)
  · exact .joined hstage
  · replace hordinary : c.abandons arrival = false → c.Ordinary arrival := hordinary hstage
    have hloops : c.stage.Looping := hstage ▸ trivial
    rcases arrival with _ | (err | message) | (err | ⟨⟩) | _ | _
    · exact .idle (hordinary rfl)
    · exact .abandoned hstage rfl (.inr ⟨_, rfl⟩)
    · exact .quiet (hordinary rfl) hloops trivial rfl rfl
    · dsimp only
      split
      · rename_i hmuted
        exact .idle (hordinary (by simp [abandons, hmuted]))
      · rename_i hopen
        exact .abandoned hstage (by simp [abandons, hopen]) (.inr ⟨_, rfl⟩)
    · exact .idle (hordinary rfl)
    · dsimp only
      split
      · rename_i hmuted
        exact .hungUp hstage (by simp [abandons, hmuted])
      · rename_i hopen
        exact .abandoned hstage (by simp [abandons, hopen]) (.inl rfl)
    · exact .quiet (hordinary rfl) hloops trivial rfl rfl
  · replace hordinary : c.Ordinary arrival := hordinary hstage trivial
    rcases arrival with _ | (err | message) | (err | ⟨⟩) | _ | _
    · exact .idle hordinary
    · exact .idle hordinary
    · exact .idle hordinary
    · exact .refused hordinary (hstage ▸ id) err
    · exact .idle hordinary
    · exact .idle hordinary
    · exact .gaveUp hstage
  · exact .looped (hordinary hstage trivial) (hstage ▸ trivial) trivial rfl rfl
      (PeerState.same_note now message)
  · exact .quiet (hordinary hstage trivial) (hstage ▸ trivial) trivial rfl rfl
  · exact .looped (hordinary hstage trivial) (hstage ▸ trivial) trivial rfl rfl
      (PeerState.same_judge fresh)
  · dsimp only
    split
    · rename_i hlow
      obtain ⟨s, hs, hscore⟩ := (Option.any_eq_true _ _).mp hlow
      exact .found hstage hs (of_decide_eq_true hscore)
    · exact .quiet (hordinary hstage trivial) (hstage ▸ trivial) trivial rfl rfl
  · exact .banned hstage
  · exact .left hstage
  · exact .idle (hordinary hstage trivial)

end Connection

/-! ## All connections -/

/-- The table of peers and the connections, in the order in which they were made. -/
structure PeerNetwork where
  peers : Peers := ∅
  connections : List Connection := []

/-- What may happen: a connection is made, in or out; the task of a connection makes a step; or the
node bans a peer. -/
inductive PeerAction
  | connect (peer : String) (inboundOnly : Bool)
  | advance (i : ℕ) (arrival : Arrival)
  | banPeer (peer : String) (durationMs : ℕ)

/-- Something that happens at a time. -/
structure PeerEvent where
  now : ℕ
  action : PeerAction

namespace PeerNetwork

/-- The node bans a peer. -/
def banPeer (net : PeerNetwork) (now : ℕ) (peer : String) (durationMs : ℕ) : PeerNetwork :=
  { net with
    peers := net.peers.update peer fun s => { s.ban now durationMs with score := scoreBanThreshold } }

/-- Something happens. -/
def step [Hashing] [Wire] (chainId : ChainId) (net : PeerNetwork) (event : PeerEvent) :
    PeerNetwork :=
  match event.action with
  | .connect peer inboundOnly =>
    { net with connections := net.connections ++ [{ peer, inboundOnly }] }
  | .advance i arrival =>
    match net.connections[i]? with
    | some c =>
      { peers := (c.step chainId event.now arrival net.peers).1
        connections := net.connections.set i (c.step chainId event.now arrival net.peers).2 }
    | none => net
  | .banPeer peer durationMs => net.banPeer event.now peer durationMs

end PeerNetwork

end ZenoChain
