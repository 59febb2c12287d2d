/-
# The table of peers and the live connections

The table has an entry for exactly the addresses for which a connection has joined and is running.
A task that ends with an error leaves its entry behind, and so does one whose peer hangs up; a task
that leaves its loop removes the entry of its address, whoever else runs under it; and a peer may
join when the limit has been reached since it was checked.  Without these steps the table is exact,
and each of them spoils it.
-/
import ZenoChain.Base.Trace
import ZenoChain.Execution.Transparent
import ZenoChain.Peers.Connections

namespace ZenoChain

namespace Peers

variable {peers : Peers} {peer : String}

/-! ## The number of inbound entries -/

lemma inboundCount_eq_total (peers : Peers) :
    peers.inboundCount = Table.total (fun s => if s.isOutbound then 0 else 1) peers := by
  rw [inboundCount, Table.total]
  induction Table.values peers with
  | nil => rfl
  | cons s l ih =>
    rw [List.map_cons, List.sum_cons, ← ih]
    cases hs : s.isOutbound <;> simp [hs, Nat.add_comm]

lemma getElem?_update (f : PeerState → PeerState) (a : String) :
    (peers.update peer f)[a]? = if a = peer then peers[a]?.map f else peers[a]? := by
  rw [update]
  split
  · rename_i s hs
    rw [Table.getElem?_insert]
    split
    · rename_i ha
      rw [ha, hs, Option.map_some]
    · rfl
  · rename_i hs
    split
    · rename_i ha
      rw [ha, hs, Option.map_none]
    · rfl

lemma isSome_update (f : PeerState → PeerState) (a : String) :
    (peers.update peer f)[a]?.isSome = peers[a]?.isSome := by
  rw [getElem?_update]
  split
  · rw [Option.isSome_map]
  · rfl

/-- Changes that keep the direction of the entry do not change the number. -/
lemma inboundCount_update {f : PeerState → PeerState} (hf : ∀ s, (f s).isOutbound = s.isOutbound) :
    (peers.update peer f).inboundCount = peers.inboundCount := by
  rw [update]
  split
  · rename_i s hs
    have htotal := Table.total_insert (fun s => if s.isOutbound then 0 else 1) peers peer (f s)
    rw [hs, Option.map_some, Option.getD_some, hf] at htotal
    rw [inboundCount_eq_total, inboundCount_eq_total]
    exact Nat.add_right_cancel htotal
  · rfl

/-- An inbound entry counts for one, in addition to those at other addresses. -/
lemma inboundCount_insert (peers : Peers) (peer : String) (s : PeerState) :
    inboundCount (peers.insert peer s) =
      inboundCount (peers.erase peer) + if s.isOutbound then 0 else 1 := by
  have hinsert := Table.total_insert (fun s => if s.isOutbound then 0 else 1) peers peer s
  have hshare := Table.total_eq_share (fun s => if s.isOutbound then 0 else 1) peers peer
  rw [inboundCount_eq_total, inboundCount_eq_total]
  omega

lemma inboundCount_erase_le : inboundCount (peers.erase peer) ≤ peers.inboundCount := by
  have htotal := Table.total_eq_share (fun s => if s.isOutbound then 0 else 1) peers peer
  rw [inboundCount_eq_total, inboundCount_eq_total]
  omega

end Peers

namespace PeerNetwork

variable {chainId : ChainId} {net : PeerNetwork} {event : PeerEvent} {i j : ℕ}
  {c c' d : Connection} {peers : Peers} {peer : String}

/-! ## Orderly steps -/

/-- A connection is running for the peer. -/
def Serves (connections : List Connection) (peer : String) : Prop :=
  ∃ c ∈ connections, c.peer = peer ∧ c.stage.Joined

instance (connections : List Connection) (peer : String) : Decidable (Serves connections peer) :=
  inferInstanceAs (Decidable (∃ c ∈ connections, _))

/-- The table has an entry for exactly the peers for which a connection is running, and keeps the
limit of inbound connections. -/
structure Exact (net : PeerNetwork) : Prop where
  entry_iff : ∀ peer : String, net.peers[peer]?.isSome ↔ Serves net.connections peer
  limit : net.peers.inboundCount ≤ maxInboundConnections

/-- The step of a task goes as it should: an inbound peer joins while there is room beside the entries
of the other addresses; a task stops serving its peer without removing the entry only if another
connection is running for that peer; and it removes the entry only if none is. -/
def Orderly (net : PeerNetwork) (event : PeerEvent) : Prop :=
  match event.action with
  | .advance i arrival =>
    match net.connections[i]? with
    | some c =>
      match c.stage with
      | .joining _ =>
        c.inboundOnly → Peers.inboundCount (net.peers.erase c.peer) < maxInboundConnections
      | .waiting => c.abandons arrival → Serves (net.connections.eraseIdx i) c.peer
      | .leaving _ => ¬ Serves (net.connections.eraseIdx i) c.peer
      | _ => True
    | none => True
  | _ => True

instance (net : PeerNetwork) (event : PeerEvent) : Decidable (net.Orderly event) := by
  unfold Orderly
  repeat' split
  all_goals infer_instance

/-- A connection of the network, at its place. -/
def At (net : PeerNetwork) (i : ℕ) (c : Connection) : Prop := net.connections[i]? = some c

lemma At.mem (h : net.At i c) : c ∈ net.connections := List.mem_of_getElem? h

/-- The connections after a step of one task. -/
lemma at_set (h : net.At i c) :
    At ⟨peers, net.connections.set i c'⟩ j d ↔ (j = i ∧ d = c') ∨ (j ≠ i ∧ net.At j d) := by
  obtain ⟨hlt, -⟩ := List.getElem?_eq_some_iff.mp h
  rw [At, List.getElem?_set]
  by_cases hj : i = j
  · subst hj
    rw [if_pos rfl, if_pos hlt, Option.some.injEq]
    simp [eq_comm]
  · simp [hj, Ne.symm hj, At]

/-! ## One step -/

/-- A peer is served by one connection or by the others. -/
lemma serves_set_iff (h : net.At i c) : Serves (net.connections.set i c') peer ↔
    (c'.peer = peer ∧ c'.stage.Joined) ∨ Serves (net.connections.eraseIdx i) peer := by
  obtain ⟨hlt, -⟩ := List.getElem?_eq_some_iff.mp h
  have hmem : ∀ d, d ∈ net.connections.set i c' ↔ d = c' ∨ d ∈ net.connections.eraseIdx i := by
    intro d
    rw [(List.set_perm_cons_eraseIdx hlt c').mem_iff, List.mem_cons]
  simp only [Serves, hmem, or_and_right, exists_or, exists_eq_left]

lemma serves_iff (h : net.At i c) : Serves net.connections peer ↔
    (c.peer = peer ∧ c.stage.Joined) ∨ Serves (net.connections.eraseIdx i) peer := by
  obtain ⟨hlt, hget⟩ := List.getElem?_eq_some_iff.mp h
  rw [← serves_set_iff h, ← hget, List.set_getElem_self]

/-- Behind a connection that is not running, a peer is served by the others. -/
lemma serves_set_of_out (h : net.At i c) (hout : ¬ c'.stage.Joined) :
    Serves (net.connections.set i c') peer ↔ Serves (net.connections.eraseIdx i) peer := by
  rw [serves_set_iff h, or_iff_right fun hc' => hout hc'.2]

/-- Steps that keep the addresses in the table and the connections that are running. -/
lemma Exact.same (h : net.Exact) {net' : PeerNetwork}
    (hkeys : ∀ a : String, net'.peers[a]?.isSome = net.peers[a]?.isSome)
    (hcount : net'.peers.inboundCount = net.peers.inboundCount)
    (hserves : ∀ a, Serves net'.connections a ↔ Serves net.connections a) : net'.Exact where
  entry_iff a := by rw [hkeys, hserves, h.entry_iff]
  limit := hcount ▸ h.limit

/-- A step after which a connection is running as before, and the others stay where they are. -/
lemma Exact.same_set (h : net.Exact) (hc : net.At i c) (hpeer : c'.peer = c.peer)
    (hjoined : c'.stage.Joined ↔ c.stage.Joined)
    (hkeys : ∀ a : String, peers[a]?.isSome = net.peers[a]?.isSome)
    (hcount : peers.inboundCount = net.peers.inboundCount) :
    Exact ⟨peers, net.connections.set i c'⟩ :=
  h.same hkeys hcount fun a => by rw [serves_set_iff hc, serves_iff hc, hpeer, hjoined]

/-- A connection that was running is not any more, with its entry still there. -/
lemma Exact.abandoned_iff (h : net.Exact) (hc : net.At i c) (hjoined : c.stage.Joined)
    (hout : ¬ c'.stage.Joined) :
    Exact ⟨net.peers, net.connections.set i c'⟩ ↔ Serves (net.connections.eraseIdx i) c.peer := by
  constructor
  · intro hexact
    rw [← serves_set_of_out hc hout, ← hexact.entry_iff, h.entry_iff, serves_iff hc]
    exact .inl ⟨rfl, hjoined⟩
  · refine fun hother => ⟨fun a => ?_, h.limit⟩
    rw [serves_set_of_out hc hout, h.entry_iff, serves_iff hc]
    refine ⟨?_, .inr⟩
    rintro (⟨rfl, -⟩ | hserved)
    · exact hother
    · exact hserved

/-- A connection enters the table. -/
lemma Exact.joined_iff (h : net.Exact) (hc : net.At i c) (hjoined : c'.stage.Joined)
    (hpeer : c'.peer = c.peer) {s : PeerState} (hs : s.isOutbound = !c.inboundOnly)
    (hout : ¬ c.stage.Joined) :
    Exact ⟨net.peers.insert c.peer s, net.connections.set i c'⟩ ↔
      (c.inboundOnly → Peers.inboundCount (net.peers.erase c.peer) < maxInboundConnections) := by
  have hcount := Peers.inboundCount_insert net.peers c.peer s
  have herase : Peers.inboundCount (net.peers.erase c.peer) ≤ maxInboundConnections :=
    Peers.inboundCount_erase_le.trans h.limit
  rw [hs] at hcount
  constructor
  · intro hexact hin
    have hlimit := hexact.limit
    dsimp only at hlimit
    rw [hcount, hin] at hlimit
    exact hlimit
  · refine fun hroom => ⟨fun a => ?_, ?_⟩
    · rw [serves_set_iff hc, hpeer, Table.getElem?_insert]
      split
      · rename_i ha
        exact iff_of_true rfl (.inl ⟨ha.symm, hjoined⟩)
      · rename_i hne
        rw [or_iff_right fun hc' => hne hc'.1.symm, h.entry_iff, serves_iff hc,
          or_iff_right fun hc' => hout hc'.2]
    · dsimp only
      rw [hcount]
      cases hin : c.inboundOnly
      · exact herase
      · exact hroom hin

/-- A connection takes its entry out of the table at its end. -/
lemma Exact.left_iff (h : net.Exact) (hc : net.At i c) (hout : ¬ c'.stage.Joined) :
    Exact ⟨net.peers.erase c.peer, net.connections.set i c'⟩ ↔
      ¬ Serves (net.connections.eraseIdx i) c.peer := by
  constructor
  · intro hexact
    rw [← serves_set_of_out hc hout, ← hexact.entry_iff, Table.getElem?_erase, if_pos rfl]
    exact Bool.false_ne_true
  · refine fun hnone => ⟨fun a => ?_, Peers.inboundCount_erase_le.trans h.limit⟩
    rw [serves_set_of_out hc hout, Table.getElem?_erase]
    split
    · rename_i ha
      rw [ha]
      exact iff_of_false Bool.false_ne_true hnone
    · rename_i hne
      rw [h.entry_iff, serves_iff hc, or_iff_right fun hc' => hne hc'.1.symm]

/-- What an orderly step is at each stage. -/
lemma orderly_advance_iff {now : ℕ} {arrival : Arrival} (hc : net.At i c) :
    net.Orderly ⟨now, .advance i arrival⟩ ↔
      match c.stage with
      | .joining _ =>
        c.inboundOnly → Peers.inboundCount (net.peers.erase c.peer) < maxInboundConnections
      | .waiting => c.abandons arrival → Serves (net.connections.eraseIdx i) c.peer
      | .leaving _ => ¬ Serves (net.connections.eraseIdx i) c.peer
      | _ => True := by
  rw [At] at hc
  rw [Orderly]
  dsimp only
  rw [hc]

/-- An ordinary step is orderly. -/
lemma orderly_of_ordinary {now : ℕ} {arrival : Arrival} (hc : net.At i c)
    (hordinary : c.Ordinary arrival) : net.Orderly ⟨now, .advance i arrival⟩ := by
  rw [orderly_advance_iff hc]
  rw [Connection.Ordinary] at hordinary
  split
  · rename_i hhere
    rw [hhere] at hordinary
    exact hordinary.elim
  · rename_i hhere
    rw [hhere] at hordinary
    exact fun habandons => absurd habandons (Bool.eq_false_iff.mp hordinary)
  · rename_i hhere
    rw [hhere] at hordinary
    exact hordinary.elim
  · trivial

/-- A step of a task keeps the table exact if and only if it is orderly. -/
lemma Exact.advance_iff {now : ℕ} {arrival : Arrival} (h : net.Exact) (hc : net.At i c)
    (hgoes : c.Goes chainId now arrival net.peers peers c') :
    Exact ⟨peers, net.connections.set i c'⟩ ↔ net.Orderly ⟨now, .advance i arrival⟩ := by
  -- Most steps leave the connection running, or not running, as it was.
  have hkeeps : ∀ {c'' : Connection}, c''.peer = c.peer → (c''.stage.Joined ↔ c.stage.Joined) →
      Exact ⟨net.peers, net.connections.set i c''⟩ :=
    fun hpeer hjoined => h.same_set hc hpeer hjoined (fun _ => rfl) rfl
  cases hgoes with
  | idle hordinary => exact iff_of_true (hkeeps rfl Iff.rfl) (orderly_of_ordinary hc hordinary)
  | refused hordinary houtside err =>
    exact iff_of_true (hkeeps rfl (iff_of_false id houtside)) (orderly_of_ordinary hc hordinary)
  | greeted hhere remote =>
    rw [orderly_advance_iff hc, hhere]
    exact iff_of_true (hkeeps rfl (hhere ▸ Iff.rfl)) trivial
  | dialed hhere hdials payload =>
    rw [orderly_advance_iff hc, hhere]
    exact iff_of_true (hkeeps rfl (hhere ▸ Iff.rfl)) trivial
  | counted hhere hfew payload =>
    rw [orderly_advance_iff hc, hhere]
    exact iff_of_true (hkeeps rfl (hhere ▸ Iff.rfl)) trivial
  | screened hhere hfree =>
    rw [orderly_advance_iff hc, hhere]
    exact iff_of_true (hkeeps rfl (hhere ▸ Iff.rfl)) trivial
  | joined hhere =>
    rw [orderly_advance_iff hc, hhere]
    have hjoined : (c.enter .waiting).stage.Joined := trivial
    exact h.joined_iff hc hjoined rfl rfl (hhere ▸ id)
  | looped hordinary hhere hthere hpeer hinboundOnly hsame =>
    exact iff_of_true (h.same_set hc hpeer (iff_of_true hthere.joined hhere.joined)
      (Peers.isSome_update _) (Peers.inboundCount_update fun s => (hsame s).isOutbound))
      (orderly_of_ordinary hc hordinary)
  | @abandoned hhere habandons stage houtside =>
    rw [orderly_advance_iff hc, hhere]
    dsimp only
    rw [forall_prop_of_true habandons]
    have hout : ¬ (c.enter stage).stage.Joined := by
      rcases houtside with rfl | ⟨result, rfl⟩ <;> exact id
    exact h.abandoned_iff hc (hhere ▸ trivial) hout
  | hungUp hhere hserved =>
    rw [orderly_advance_iff hc, hhere]
    exact iff_of_true (hkeeps rfl (hhere ▸ Iff.rfl))
      fun habandons => absurd habandons (Bool.eq_false_iff.mp hserved)
  | gaveUp hhere =>
    rw [orderly_advance_iff hc, hhere]
    exact iff_of_true (hkeeps rfl (hhere ▸ Iff.rfl)) trivial
  | found hhere hentry hlow =>
    rw [orderly_advance_iff hc, hhere]
    exact iff_of_true (hkeeps rfl (hhere ▸ Iff.rfl)) trivial
  | banned hhere =>
    rw [orderly_advance_iff hc, hhere]
    exact iff_of_true (h.same_set hc rfl (hhere ▸ Iff.rfl) (Peers.isSome_update _)
      (Peers.inboundCount_update fun s => rfl)) trivial
  | left hhere =>
    rw [orderly_advance_iff hc, hhere]
    exact h.left_iff hc id

/-- A new connection waits for its handshake. -/
lemma Exact.connect (h : net.Exact) (peer : String) (inboundOnly : Bool) :
    Exact { net with connections := net.connections ++ [{ peer, inboundOnly }] } := by
  refine h.same (fun _ => rfl) rfl fun a => ?_
  simp [Serves, Stage.Joined, or_and_right, exists_or]

/-- **A step keeps the table exact** if and only if it is orderly. -/
theorem Exact.step_iff [Hashing] [Wire] (h : net.Exact) :
    (net.step chainId event).Exact ↔ net.Orderly event := by
  obtain ⟨now, action⟩ := event
  rw [PeerNetwork.step]
  cases action with
  | connect peer inboundOnly => exact iff_of_true (h.connect peer inboundOnly) trivial
  | advance i arrival =>
    dsimp only
    split
    · rename_i c hc
      exact h.advance_iff hc Connection.step_goes
    · rename_i hnone
      refine iff_of_true h ?_
      rw [Orderly]
      dsimp only
      rw [hnone]
      trivial
  | banPeer peer durationMs =>
    refine iff_of_true (h.same (Peers.isSome_update _) (Peers.inboundCount_update fun s => rfl) ?_)
      trivial
    exact fun a => Iff.rfl

lemma exact_empty : ({} : PeerNetwork).Exact where
  entry_iff _ := iff_of_false Bool.false_ne_true fun h => List.not_mem_nil h.choose_spec.1
  limit := Nat.zero_le _

/-- **The table of peers is exactly that of the live connections** in all states of a run, and the
number of inbound entries keeps its limit, if and only if every step of the run is orderly. -/
theorem run_exact_iff [Hashing] [Wire] (chainId : ChainId) (events : List PeerEvent) :
    (∀ l m, events = l ++ m → (l.foldl (step chainId) {}).Exact) ↔
      ∀ e ∈ Trace.along (step chainId) {} events, Orderly e.1 e.2 :=
  Trace.forall_prefix_iff_of_step (fun _ _ h => h.step_iff) exact_empty

end PeerNetwork

/-- The third-party serializer, as far as it writes pings. -/
scoped instance Transparent.wire : Wire where
  encode
    | .ping nonce => Codec.u32 8 ++ Codec.u64 nonce
    | _ => []

namespace PeerEvent

/-- A step of the task of a connection. -/
def task (now i : ℕ) (arrival : Arrival) : PeerEvent := ⟨now, .advance i arrival⟩

/-- A node connects as the next connection, and its task goes as far as the ban check. -/
def greeted (now i : ℕ) (peer nodeId : String) : List PeerEvent :=
  [⟨now, .connect peer true⟩, task now i (.frame (.ok (.handshake ⟨"zeno", nodeId, 0⟩))),
    task now i .nothing, task now i .nothing]

end PeerEvent

/-! ## A malformed frame -/

section

open Transparent PeerNetwork

/-- A node joins. -/
def newPeer : List PeerEvent := PeerEvent.greeted 0 0 "a" "n" ++ [.task 0 0 .nothing]

/-- The peer sends a frame that cannot be decoded. -/
def malformedFrame : List PeerEvent := newPeer ++ [.task 0 0 (.frame (.error "decode failed"))]

/-- Its entry stays, but nothing runs any more. -/
theorem malformedFrame_stays : (malformedFrame.foldl (step "zeno") {}).peers["a"]?.isSome ∧
    ¬ ∃ c ∈ (malformedFrame.foldl (step "zeno") {}).connections, c.peer = "a" ∧ c.stage.Joined := by
  decide +kernel

/-- The entry of a peer that hangs up stays as well, however often the node sends to it, until the
channel ends. -/
example :
    let hungUp := newPeer ++ [.task 0 0 .hangUp, .task 0 0 (.outgoing (.ok ()))]
    let gone := hungUp ++ [.task 0 0 .channelEnd, .task 0 0 .nothing]
    (hungUp.foldl (step "zeno") {}).peers["a"]?.isSome ∧
      ¬ Serves (hungUp.foldl (step "zeno") {}).connections "a" ∧
      (gone.foldl (step "zeno") {}).peers["a"]? = none := by
  decide +kernel

end

end ZenoChain
