/-
# Bans

A ban is a mark on the entry of a peer, and a handshake is refused if any entry of its node has one
in force.  The task that sets the mark goes on to remove the entry, so a ban holds only while that
task is held up: as long as no entry with a ban in force is removed or replaced, no ban is cut
short, and no handshake slips in between the check of the score and the mark.
-/
import ZenoChain.Peers.LiveTable

namespace ZenoChain

open Word

namespace Stage

/-- The task is about to set a ban. -/
def Bans : Stage → Prop
  | .banning => True
  | _ => False

/-- The handshake of a node has passed the ban check. -/
def Joins (node : String) : Stage → Prop
  | .joining payload => payload.nodeId = node
  | _ => False

instance : DecidablePred Bans
  | .banning => isTrue trivial
  | .greeting | .counting _ | .screening _ | .joining _ | .waiting | .parked | .noting _
  | .remembering _ | .scoring _ _ | .checking | .leaving _ | .ended _ => isFalse id

instance (node : String) : DecidablePred (Joins node)
  | .joining payload => decEq payload.nodeId node
  | .greeting | .counting _ | .screening _ | .waiting | .parked | .noting _ | .remembering _
  | .scoring _ _ | .checking | .banning | .leaving _ | .ended _ => isFalse id

variable {stage : Stage} {node : String}

lemma Bans.joined (h : stage.Bans) : stage.Joined := by
  cases stage <;> first | exact h.elim | trivial

lemma Looping.not_bans (h : stage.Looping) : ¬ stage.Bans := by
  cases stage <;> first | exact h.elim | exact not_false

lemma Looping.not_joins (h : stage.Looping) : ¬ stage.Joins node := by
  cases stage <;> first | exact h.elim | exact not_false

end Stage

namespace PeerNetwork

variable {chainId : ChainId} {net net' : PeerNetwork} {event : PeerEvent} {i j : ℕ}
  {c c' d : Connection} {peers : Peers} {node peer : String} {now since : ℕ}

/-! ## What a ban promises -/

/-- The node whose score the check of a connection finds at or below the threshold. -/
def due (net : PeerNetwork) (event : PeerEvent) : Option String :=
  match event.action with
  | .advance i _ =>
    match net.connections[i]? with
    | some c =>
      match c.stage with
      | .checking =>
        (net.peers[c.peer]?.filter (·.score ≤ scoreBanThreshold)).map PeerState.nodeId
      | _ => none
    | none => none
  | _ => none

/-- The node whose handshake is accepted. -/
def admitted (net : PeerNetwork) (event : PeerEvent) : Option String :=
  match event.action with
  | .advance i _ =>
    match net.connections[i]? with
    | some c =>
      match c.stage with
      | .joining payload => some payload.nodeId
      | _ => none
    | none => none
  | _ => none

/-- After the one step the other one does not accept the same node before the ban is over. -/
def BanHolds (e e' : PeerNetwork × PeerEvent) : Prop :=
  ∀ node ∈ due e.1 e.2, node ∈ admitted e'.1 e'.2 →
    saturatingAdd 64 e.2.now banDurationMs ≤ e'.2.now

/-! ## Steps that keep bans -/

/-- The entry at an address has a ban in force, or is about to have one. -/
def Barred (net : PeerNetwork) (now : ℕ) (peer : String) : Prop :=
  (∃ s ∈ net.peers[peer]?, ∃ deadline ∈ s.bannedUntil, now < deadline) ∨
    ∃ c ∈ net.connections, c.stage.Bans ∧ c.peer = peer

instance (net : PeerNetwork) (now : ℕ) (peer : String) : Decidable (net.Barred now peer) := by
  unfold Barred
  infer_instance

/-- The step does not break a ban: it does not remove or replace a barred entry; the node does not
cut a ban short; and from the check of a score to the mark, no handshake of the same node has passed
the ban check or passes it. -/
def KeepsBans (net : PeerNetwork) (event : PeerEvent) : Prop :=
  match event.action with
  | .connect _ _ => True
  | .banPeer peer durationMs => ∀ s ∈ net.peers[peer]?, ∀ deadline ∈ s.bannedUntil,
      deadline ≤ event.now ∨ deadline ≤ saturatingAdd 64 event.now durationMs
  | .advance i _ =>
    match net.connections[i]? with
    | some c =>
      match c.stage with
      | .screening payload => ∀ d ∈ net.connections, d.stage.Bans →
          ∀ s ∈ net.peers[d.peer]?, s.nodeId ≠ payload.nodeId
      | .joining _ => ¬ net.Barred event.now c.peer
      | .checking => ∀ s ∈ net.peers[c.peer]?, s.score ≤ scoreBanThreshold →
          ∀ d ∈ net.connections, ¬ d.stage.Joins s.nodeId
      | .leaving _ => ¬ net.Barred event.now c.peer
      | _ => True
    | none => True

instance (net : PeerNetwork) (event : PeerEvent) : Decidable (net.KeepsBans event) := by
  obtain ⟨now, action⟩ := event
  unfold KeepsBans
  match action with
  | .connect _ _ => exact isTrue trivial
  | .banPeer _ _ => infer_instance
  | .advance i _ =>
    dsimp only
    match net.connections[i]? with
    | none => exact isTrue trivial
    | some c =>
      dsimp only
      match c.stage with
      | .screening _ | .joining _ | .checking | .leaving _ => infer_instance
      | .greeting | .counting _ | .waiting | .parked | .noting _ | .remembering _ | .scoring _ _
      | .banning | .ended _ => exact isTrue trivial

/-! ## What keeps a node out -/

/-- A node is kept out until a deadline: no handshake of it has passed the ban check, and an entry
of it is banned for long enough or about to be banned. -/
structure KeptOut (net : PeerNetwork) (node : String) (deadline : ℕ) : Prop where
  joins : ∀ {i c}, net.At i c → ¬ c.stage.Joins node
  held : (∃ (a : String) (s : PeerState) (u : ℕ), net.peers[a]? = some s ∧ s.nodeId = node ∧
      s.bannedUntil = some u ∧
      deadline ≤ u) ∨
    ∃ (i : ℕ) (c : Connection) (s : PeerState), net.At i c ∧ c.stage.Bans ∧
      net.peers[c.peer]? = some s ∧ s.nodeId = node

variable {deadline : ℕ}

lemma KeptOut.not_admitted (h : net.KeptOut node deadline) : node ∉ admitted net event := by
  intro hadmitted
  rw [admitted] at hadmitted
  split at hadmitted
  · split at hadmitted
    · rename_i c hc
      split at hadmitted
      · rename_i payload hhere
        have hout := h.joins hc
        rw [hhere] at hout
        exact hout (Option.some.inj hadmitted)
      · cases hadmitted
    · cases hadmitted
  · cases hadmitted

/-- The table keeps the entries at barred addresses, and the tasks that are about to set a ban stay. -/
lemma KeptOut.follow (h : net.KeptOut node deadline) (hnow : now < deadline)
    (hjoins : ∀ {j d}, net'.At j d → ¬ d.stage.Joins node)
    (hentries : ∀ {a : String} {s : PeerState}, net.peers[a]? = some s → net.Barred now a →
      ∃ s', net'.peers[a]? = some s' ∧ s'.nodeId = s.nodeId ∧
        ∀ u ∈ s.bannedUntil, deadline ≤ u → ∃ u' ∈ s'.bannedUntil, deadline ≤ u')
    (hbans : ∀ {j d}, net.At j d → d.stage.Bans →
      ∃ d', net'.At j d' ∧ d'.stage.Bans ∧ d'.peer = d.peer) : net'.KeptOut node deadline := by
  refine ⟨hjoins, ?_⟩
  rcases h.held with ⟨a, s, u, hs, hnode, hu, hle⟩ | ⟨j, d, s, hd, hd', hs, hnode⟩
  · obtain ⟨s', hs', hnode', hban⟩ :=
      hentries hs (.inl ⟨s, hs, u, hu, hnow.trans_le hle⟩)
    obtain ⟨u', hu', hle'⟩ := hban u hu hle
    exact .inl ⟨a, s', u', hs', hnode'.trans hnode, hu', hle'⟩
  · obtain ⟨s', hs', hnode', -⟩ := hentries hs (.inr ⟨d, hd.mem, hd', rfl⟩)
    obtain ⟨d', hd'', hbans', hpeer⟩ := hbans hd hd'
    exact .inr ⟨j, d', s', hd'', hbans', hpeer ▸ hs', hnode'.trans hnode⟩

/-- A step of a task that is not about to set a ban. -/
lemma KeptOut.follow_set (h : net.KeptOut node deadline) (hnow : now < deadline) (hc : net.At i c)
    (hout : ¬ c.stage.Bans) (hjoins : ¬ c'.stage.Joins node)
    (hentries : ∀ {a : String} {s : PeerState}, net.peers[a]? = some s → net.Barred now a →
      ∃ s', peers[a]? = some s' ∧ s'.nodeId = s.nodeId ∧ s'.bannedUntil = s.bannedUntil) :
    KeptOut ⟨peers, net.connections.set i c'⟩ node deadline := by
  refine h.follow hnow (fun {j d} hd => ?_) (fun {a s} hs hbarred => ?_) (fun {j d} hd hbans => ?_)
  · rcases (at_set hc).mp hd with ⟨-, rfl⟩ | ⟨-, hd⟩
    · exact hjoins
    · exact h.joins hd
  · obtain ⟨s', hs', hnode, hban⟩ := hentries hs hbarred
    exact ⟨s', hs', hnode, fun u hu hle => ⟨u, hban ▸ hu, hle⟩⟩
  · refine ⟨d, (at_set hc).mpr (.inr ⟨?_, hd⟩), hbans, rfl⟩
    rintro rfl
    obtain rfl : c = d := Option.some.inj (hc.symm.trans hd)
    exact hout hbans

/-- A change of one entry that keeps its node and, unless it is the mark of a ban, its ban. -/
lemma exists_update (peer : String) (f : PeerState → PeerState) {a : String} {s : PeerState}
    (hs : net.peers[a]? = some s) :
    (a = peer ∧ (net.peers.update peer f)[a]? = some (f s)) ∨
      (a ≠ peer ∧ (net.peers.update peer f)[a]? = some s) := by
  rw [Peers.getElem?_update, hs]
  by_cases ha : a = peer
  · rw [if_pos ha]
    exact .inl ⟨ha, rfl⟩
  · rw [if_neg ha]
    exact .inr ⟨ha, rfl⟩

/-- The mark is set. -/
lemma KeptOut.banned (h : net.KeptOut node (saturatingAdd 64 since banDurationMs)) (hsince : since ≤ now)
    (hc : net.At i c) :
    KeptOut ⟨net.peers.update c.peer (.ban now banDurationMs),
      net.connections.set i (c.enter (.leaving false))⟩
      node (saturatingAdd 64 since banDurationMs) := by
  have hlong : saturatingAdd 64 since banDurationMs ≤ saturatingAdd 64 now banDurationMs :=
    min_le_min_right _ (Nat.add_le_add_right hsince _)
  refine ⟨fun {j d} hd => ?_, ?_⟩
  · rcases (at_set hc).mp hd with ⟨-, rfl⟩ | ⟨-, hd⟩
    · exact id
    · exact h.joins hd
  · rcases h.held with ⟨a, s, u, hs, hnode, hu, hle⟩ | ⟨j, d, s, hd, hbans, hs, hnode⟩
    · rcases exists_update c.peer (.ban now banDurationMs) hs with ⟨-, hs'⟩ | ⟨-, hs'⟩
      · exact .inl ⟨a, _, _, hs', hnode, rfl, hlong⟩
      · exact .inl ⟨a, s, u, hs', hnode, hu, hle⟩
    · rcases exists_update c.peer (.ban now banDurationMs) hs with ⟨-, hs'⟩ | ⟨hne, hs'⟩
      · exact .inl ⟨d.peer, _, _, hs', hnode, rfl, hlong⟩
      · refine .inr ⟨j, d, s, (at_set hc).mpr (.inr ⟨?_, hd⟩), hbans, hs', hnode⟩
        rintro rfl
        obtain rfl : c = d := Option.some.inj (hc.symm.trans hd)
        exact hne rfl

/-- A step that leaves the table alone. -/
lemma KeptOut.read (h : net.KeptOut node deadline) (hnow : now < deadline) (hc : net.At i c)
    (hout : ¬ c.stage.Bans) (hjoins : ¬ c'.stage.Joins node) :
    KeptOut ⟨net.peers, net.connections.set i c'⟩ node deadline :=
  h.follow_set hnow hc hout hjoins fun {_ s} hs _ => ⟨s, hs, rfl, rfl⟩

/-- A ban in force is seen by the ban check. -/
lemma KeptOut.isNodeBanned (h : net.KeptOut node deadline) (hnow : now < deadline)
    (hset : ∀ d ∈ net.connections, d.stage.Bans →
      ∀ s ∈ net.peers[d.peer]?, s.nodeId ≠ node) : net.peers.isNodeBanned now node = true := by
  rcases h.held with ⟨a, s, u, hs, hnode, hu, hle⟩ | ⟨j, d, s, hd, hbans, hs, hnode⟩
  · rw [Peers.isNodeBanned, List.any_eq_true]
    refine ⟨s, Table.mem_values_iff.mpr ⟨a, hs⟩, ?_⟩
    rw [PeerState.bans, hu]
    exact decide_eq_true ⟨hnode, decide_eq_true (hnow.trans_le hle)⟩
  · exact absurd hnode (hset d hd.mem hbans s hs)

/-- A step of a task that keeps bans. -/
lemma KeptOut.advance {arrival : Arrival}
    (h : net.KeptOut node (saturatingAdd 64 since banDurationMs)) (hsince : since ≤ now)
    (hnow : now < saturatingAdd 64 since banDurationMs) (hc : net.At i c)
    (hgoes : c.Goes chainId now arrival net.peers peers c')
    (hkeeps : net.KeepsBans ⟨now, .advance i arrival⟩) :
    KeptOut ⟨peers, net.connections.set i c'⟩ node (saturatingAdd 64 since banDurationMs) := by
  rw [At] at hc
  simp only [KeepsBans, hc] at hkeeps
  have hnot : ∀ {stage : Stage}, c.stage = stage → ¬ stage.Bans → ¬ c.stage.Bans :=
    fun heq hstage => heq ▸ hstage
  cases hgoes with
  | idle hordinary =>
    obtain ⟨hlt, hget⟩ := List.getElem?_eq_some_iff.mp hc
    rw [← hget, List.set_getElem_self]
    exact h
  | refused hordinary hout err => exact h.read hnow hc (fun hbans => hout hbans.joined) id
  | greeted hhere remote => exact h.read hnow hc (hnot hhere id) id
  | dialed hhere hdials payload => exact h.read hnow hc (hnot hhere id) id
  | counted hhere hfew payload => exact h.read hnow hc (hnot hhere id) id
  | @screened payload hhere hfree =>
    refine h.read hnow hc (hnot hhere id) fun (hnode : payload.nodeId = node) => ?_
    simp only [hhere] at hkeeps
    rw [hnode] at hkeeps hfree
    rw [h.isNodeBanned hnow hkeeps] at hfree
    cases hfree
  | joined hhere =>
    simp only [hhere] at hkeeps
    refine h.follow_set hnow hc (hnot hhere id) id fun {a s} hs hbarred => ⟨s, ?_, rfl, rfl⟩
    rw [Table.getElem?_insert, if_neg]
    · exact hs
    · rintro rfl
      exact hkeeps hbarred
  | @looped f _ hordinary hhere hthere hpeer hinboundOnly hsame =>
    refine h.follow_set hnow hc hhere.not_bans hthere.not_joins fun {a s} hs hbarred => ?_
    rcases exists_update c.peer f hs with ⟨-, hs'⟩ | ⟨-, hs'⟩
    · exact ⟨f s, hs', (hsame s).nodeId, (hsame s).bannedUntil⟩
    · exact ⟨s, hs', rfl, rfl⟩
  | @abandoned hhere habandons stage houtside =>
    refine h.read hnow hc (hnot hhere id) ?_
    rcases houtside with rfl | ⟨result, rfl⟩ <;> exact id
  | hungUp hhere hserved => exact h.read hnow hc (hnot hhere id) id
  | gaveUp hhere => exact h.read hnow hc (hnot hhere id) id
  | found hhere hentry hlow => exact h.read hnow hc (hnot hhere id) id
  | banned hhere => exact h.banned hsince hc
  | left hhere =>
    simp only [hhere] at hkeeps
    refine h.follow_set hnow hc (hnot hhere id) id fun {a s} hs hbarred => ⟨s, ?_, rfl, rfl⟩
    rw [Table.getElem?_erase, if_neg]
    · exact hs
    · rintro rfl
      exact hkeeps hbarred

/-- A step that keeps bans keeps a node out. -/
lemma keptOut_step [Hashing] [Wire]
    (h : net.KeptOut node (saturatingAdd 64 since banDurationMs)) (hsince : since ≤ event.now)
    (hnow : event.now < saturatingAdd 64 since banDurationMs) (hkeeps : net.KeepsBans event) :
    (net.step chainId event).KeptOut node (saturatingAdd 64 since banDurationMs) := by
  obtain ⟨now, action⟩ := event
  rw [PeerNetwork.step]
  cases action with
  | connect peer inboundOnly =>
    refine h.follow hnow (fun {j d} hd => ?_)
      (fun {a s} hs _ => ⟨s, hs, rfl, fun u hu hle => ⟨u, hu, hle⟩⟩)
      fun {j d} hd hbans => ⟨d, ?_, hbans, rfl⟩
    · rw [At, List.getElem?_append] at hd
      split at hd
      · exact h.joins hd
      · obtain rfl := List.mem_singleton.mp (List.mem_of_getElem? hd)
        exact id
    · obtain ⟨hlt, -⟩ := List.getElem?_eq_some_iff.mp hd
      exact (List.getElem?_append_left hlt).trans hd
  | advance i arrival =>
    dsimp only
    split
    · rename_i c hc
      exact h.advance hsince hnow hc Connection.step_goes hkeeps
    · exact h
  | banPeer peer durationMs =>
    refine h.follow hnow h.joins (fun {a s} hs hbarred => ?_) fun {j d} hd hbans => ⟨d, hd, hbans, rfl⟩
    rcases exists_update peer _ hs with ⟨rfl, hs'⟩ | ⟨-, hs'⟩
    · refine ⟨_, hs', rfl, fun u hu hle => ⟨_, rfl, ?_⟩⟩
      rcases hkeeps s hs u hu with hover | hlonger
      · exact absurd (hle.trans hover) (not_le.mpr hnow)
      · exact hle.trans hlonger
    · exact ⟨s, hs', rfl, fun u hu hle => ⟨u, hu, hle⟩⟩

/-! ## Runs -/

section

variable [Hashing] [Wire] {events : List PeerEvent}

/-- A node that is kept out is not accepted before the deadline. -/
lemma not_admitted_along (h : net.KeptOut node (saturatingAdd 64 since banDurationMs))
    (hsince : ∀ event ∈ events, since ≤ event.now)
    (hclock : (events.map PeerEvent.now).Pairwise (· ≤ ·))
    (hkeeps : ∀ e ∈ Trace.along (step chainId) net events, KeepsBans e.1 e.2) :
    ∀ e ∈ Trace.along (step chainId) net events, node ∈ admitted e.1 e.2 →
      saturatingAdd 64 since banDurationMs ≤ e.2.now := by
  induction events generalizing net with
  | nil => nofun
  | cons event events ih =>
    rw [List.forall_mem_cons] at hsince
    rw [Trace.along, List.forall_mem_cons] at hkeeps
    rw [List.map_cons, List.pairwise_cons] at hclock
    rw [Trace.along, List.forall_mem_cons]
    refine ⟨fun hadmitted => absurd hadmitted h.not_admitted, fun e he hadmitted => ?_⟩
    by_cases hnow : event.now < saturatingAdd 64 since banDurationMs
    · exact ih (keptOut_step h hsince.1 hnow hkeeps.1) hsince.2 hclock.2 hkeeps.2 e he hadmitted
    · exact (not_lt.mp hnow).trans (hclock.1 _ (List.mem_map_of_mem (Trace.mem_of_mem_along he)))

/-- The check that finds the score too low keeps the node out. -/
lemma keptOut_of_due (hkeeps : net.KeepsBans event) (hdue : node ∈ due net event) (deadline : ℕ) :
    (net.step chainId event).KeptOut node deadline := by
  obtain ⟨now, action⟩ := event
  rw [due] at hdue
  split at hdue
  · rename_i i arrival haction
    obtain rfl : action = .advance i arrival := haction
    split at hdue
    · rename_i c hc
      split at hdue
      · rename_i hhere
        obtain ⟨s, hfilter, rfl⟩ := Option.map_eq_some_iff.mp hdue
        obtain ⟨hs, hlow⟩ := Option.filter_eq_some_iff.mp hfilter
        simp only [KeepsBans, hc, hhere] at hkeeps
        have hstep : c.step chainId now arrival net.peers = (net.peers, c.enter .banning) := by
          unfold Connection.step
          rw [hhere]
          dsimp only
          rw [if_pos]
          rw [hs, Option.any_some]
          exact hlow
        rw [PeerNetwork.step]
        dsimp only
        rw [hc]
        dsimp only
        rw [hstep]
        refine ⟨fun {j d} hd => ?_, .inr ⟨i, _, s, (at_set hc).mpr (.inl ⟨rfl, rfl⟩), trivial, hs, rfl⟩⟩
        rcases (at_set hc).mp hd with ⟨-, rfl⟩ | ⟨-, hd⟩
        · exact id
        · exact hkeeps s hs (of_decide_eq_true hlow) d hd.mem
      · cases hdue
    · cases hdue
  · cases hdue

/-- **Bans hold**, in every run whose steps keep them: once a check has found the score of a node too
low, no handshake of that node is accepted before the ban is over. -/
theorem run_banHolds (hclock : (events.map PeerEvent.now).Pairwise (· ≤ ·))
    (hkeeps : ∀ e ∈ Trace.along (step chainId) {} events, KeepsBans e.1 e.2) :
    (Trace.along (step chainId) {} events).Pairwise BanHolds := by
  generalize ({} : PeerNetwork) = net at hkeeps ⊢
  induction events generalizing net with
  | nil => exact .nil
  | cons event events ih =>
    rw [Trace.along, List.forall_mem_cons] at hkeeps
    rw [List.map_cons, List.pairwise_cons] at hclock
    rw [Trace.along, List.pairwise_cons]
    refine ⟨fun e he node hdue hadmitted => ?_, ih hclock.2 _ hkeeps.2⟩
    have hsince : ∀ event' ∈ events, event.now ≤ event'.now :=
      fun event' h => hclock.1 _ (List.mem_map_of_mem h)
    exact not_admitted_along (keptOut_of_due hkeeps.1 hdue _) hsince hclock.2 hkeeps.2 e he hadmitted

end

end PeerNetwork

/-! ## A peer that repeats itself -/

section

open Transparent PeerNetwork

/-- A message is received, and its task goes as far as the check of the score. -/
def PeerEvent.received (now i : ℕ) (message : WireMessage) : List PeerEvent :=
  .task now i (.frame (.ok message)) :: List.replicate 3 (.task now i .nothing)

/-- A peer joins and sends the same ping until its score is too low. -/
def repeatedPings : List PeerEvent :=
  PeerEvent.greeted 0 0 "a" "n" ++ [.task 0 0 .nothing] ++
    (List.replicate 31 (PeerEvent.received 0 0 (.ping 0) ++ [.task 0 0 .nothing])).flatten ++
    PeerEvent.received 0 0 (.ping 0)

/-- The check finds the score too low, the ban is set, and then the entry is removed; the node
connects again under another address. -/
def comesBack : List PeerEvent :=
  [.task 0 0 .nothing, .task 0 0 .nothing, .task 0 0 .nothing] ++ PeerEvent.greeted 1 1 "b" "n"

/-- It is accepted one millisecond after its ban. -/
theorem comesBack_admitted :
    due (repeatedPings.foldl (step "zeno") {}) (.task 0 0 .nothing) = some "n" ∧
    admitted ((repeatedPings ++ comesBack).foldl (step "zeno") {}) (.task 1 1 .nothing) = some "n" ∧
    1 < saturatingAdd 64 0 banDurationMs := by
  decide +kernel

/-- The node connects again before the entry is removed, and is refused; it is accepted after the
ban. -/
def comesBackLater : List PeerEvent :=
  repeatedPings ++ [.task 0 0 .nothing, .task 0 0 .nothing] ++ PeerEvent.greeted 1 1 "b" "n" ++
    [.task 1 1 .nothing, .task 300000 0 .nothing] ++ PeerEvent.greeted 300000 2 "c" "n" ++
    [.task 300000 2 .nothing]

/-- The ban holds meanwhile. -/
theorem comesBackLater_holds :
    (Trace.along (step "zeno") {} comesBackLater).Pairwise BanHolds :=
  run_banHolds (by decide +kernel) (by decide +kernel)

end

end ZenoChain
