/-
# Every block that is heard in time is committed

The proposal of a round reaches all honest nodes before the votes of the round do, and all that
these nodes send reaches all of them.  Then each of them commits the block, in whatever order the
messages arrive, and whatever faulty validators send in between.
-/
import ZenoChain.Node.CommitOrder
import ZenoChain.Node.RoundEvents

namespace ZenoChain

open Word Handler

/-! ## Runs of a round -/

section

variable {ι : Type} [DecidableEq ι]

/-- What is delivered to a node, in its order. -/
def inbox (i : ι) (deliveries : List (ι × Event)) : List Event :=
  deliveries.filterMap fun x => if x.1 = i then some x.2 else none

lemma inbox_append (i : ι) (l m : List (ι × Event)) : inbox i (l ++ m) = inbox i l ++ inbox i m :=
  List.filterMap_append

lemma inbox_cons_self (i : ι) (event : Event) (rest : List (ι × Event)) :
    inbox i ((i, event) :: rest) = event :: inbox i rest := by
  simp [inbox]

lemma inbox_self (i : ι) (event : Event) : inbox i [(i, event)] = [event] :=
  inbox_cons_self i event []

lemma inbox_ne {i j : ι} (h : j ≠ i) (event : Event) : inbox i [(j, event)] = [] := by
  simp [inbox, h]

/-- A vote that is not against a block: in the round of the block it is for the block, and a precommit
of the height is for the block or for none. -/
def Vote.Leaves [Hashing] (block : Block) (v : Vote) : Prop :=
  v.height = block.header.height →
    (v.round = block.header.round → v.blockHash = block.hash) ∧
    (v.step = .precommit → v.blockHash = block.hash ∨ v.blockHash = nilHash)

end

namespace Network

variable {ι : Type} [DecidableEq ι] [Hashing] [Revm] {net : Network ι} {block : Block}
  {s s' : NetworkState ι}

/-- The state of a run in which the round of a block is under way: no honest vote is against the
block, and each node that has been told anything waits in the round or has committed the block. -/
structure Underway (net : Network ι) (block : Block) (s : NetworkState ι)
    (past : List (ι × Event)) (s' : NetworkState ι) : Prop where
  ballots : ∀ i, (s'.node i).disk.ballots = ballotsOf i s'.record
  leaves : ∀ i v, (i, .vote v) ∈ s'.record → v.Leaves block
  idle : ∀ i, inbox i past = [] → s'.node i = s.node i
  phase : ∀ i, inbox i past ≠ [] →
    (net.engine i).Waits net.electorate block (s.node i).disk.committed (inbox i past).tail
      (s'.node i) ∨
    (net.engine i).Finished net.electorate block (s.node i).disk.committed (s'.node i)

namespace Underway

variable {past : List (ι × Event)} {i : ι} {event : Event}

omit [DecidableEq ι] [Revm] in
/-- A vote of an honest node in the record. -/
lemma leaves_of_heard (hleaves : ∀ i v, (i, .vote v) ∈ s'.record → v.Leaves block) {v : Vote}
    (hheard : net.Heard s'.record v.choice v.validatorAddress)
    (hgood : v.validatorAddress ∉ net.electorate.faulty) : v.Leaves block := by
  obtain ⟨i, hspeaks⟩ := net.covers _ hheard.1 hgood
  obtain ⟨v', hmem, hchoice⟩ := hheard.2 i hspeaks
  have hsame := hleaves i v' hmem
  obtain ⟨hheight, hround, hstep, hhash⟩ : v'.height = v.height ∧ v'.round = v.round ∧
    v'.step = v.step ∧ v'.blockHash = v.blockHash := by simpa [Vote.choice] using hchoice
  rwa [Vote.Leaves, hheight, hround, hstep, hhash] at hsame

lemma truthful (h : net.Underway block s past s') {v : Vote}
    (hheard : net.Heard s'.record v.choice v.validatorAddress) :
    ConsensusEngine.Truthful net.electorate block v :=
  ⟨hheard.1, fun hgood hheight => (leaves_of_heard h.leaves hheard hgood hheight).1⟩

/-- A certificate of the height is for the block. -/
lemma certified (h : net.Underway block s past s') {f : FinalizedBlock} {store : Store}
    (hmembers : (net.engine i).HasMembers store net.electorate.members)
    (hcertifies : (net.engine i).Certifies store f.block f.certificate)
    (hheight : f.block.header.height = block.header.height)
    (hgenuine : ∀ v ∈ f.certificate.votes, verifyVote (net.engine i).scheme v = .ok () →
      net.Heard s'.record v.choice v.validatorAddress) :
    f.block.hash = block.hash ∨ f.block.hash = nilHash := by
  have hquorum : net.electorate.IsQuorum (ConsensusEngine.certificateAuthors f.certificate) := by
    refine ⟨fun a ha => ?_, ?_⟩
    · obtain ⟨v, hv, rfl⟩ := List.mem_map.mp (List.mem_toFinset.mp ha)
      exact (hgenuine v hv (hcertifies.votes v hv).1).1
    · have hreached := hcertifies.quorum
      rwa [ConsensusEngine.quorum, hmembers.2] at hreached
  obtain ⟨a, ha, -, hgood⟩ := hquorum.exists_common hquorum
  obtain ⟨v, hv, rfl⟩ := List.mem_map.mp (List.mem_toFinset.mp ha)
  obtain ⟨hverify, hvheight, -, hstep, hhash⟩ := hcertifies.votes v hv
  have hleaves := leaves_of_heard h.leaves (hgenuine v hv hverify) hgood
    (hvheight.trans (hcertifies.height.trans hheight))
  rw [← hcertifies.blockHash, ← hhash]
  exact hleaves.2 hstep

/-- **One delivery.** -/
lemma deliver (h : net.Underway block s past s')
    (hcan : (net.engine i).CanCommit net.electorate block)
    (hopens : inbox i past = [] → (net.engine i).Opens net.electorate block (s.node i) event)
    (htimely : inbox i past ≠ [] → event.UpTo block.header.height)
    (hgenuine : ∀ v ∈ event.votes, verifyVote (net.engine i).scheme v = .ok () →
      net.Heard s'.record v.choice v.validatorAddress)
    (hdistinct : ∀ f, event = .commit f →
      f.block.hash ≠ nilHash ∧ (f.block.hash = block.hash → f.block = block)) :
    net.Underway block s (past ++ [(i, event)]) (net.deliver s' (i, event)) := by
  have hgoes : ConsensusEngine.SignsFor block (s'.node i).disk
        ((net.engine i).handle (s'.node i) event).disk ∧
      ((net.engine i).Waits net.electorate block (s.node i).disk.committed
          (inbox i (past ++ [(i, event)])).tail ((net.engine i).handle (s'.node i) event) ∨
        (net.engine i).Finished net.electorate block (s.node i).disk.committed
          ((net.engine i).handle (s'.node i) event)) := by
    rw [inbox_append, inbox_self]
    by_cases hnew : inbox i past = []
    · rw [hnew, h.idle i hnew]
      exact (hopens hnew).goes hcan
    rw [List.tail_append_of_ne_nil hnew]
    rcases h.phase i hnew with hwaits | hfinished
    · refine hwaits.goes hcan (htimely hnew) (fun v hv hverify => ?_) fun f hf hcertifies hheight => ?_
      · subst hv
        exact h.truthful (hgenuine v List.mem_cons_self hverify)
      · subst hf
        obtain ⟨hnil, hsame⟩ := hdistinct f rfl
        exact hsame ((h.certified hwaits.members hcertifies hheight hgenuine).resolve_right hnil)
    · obtain ⟨hfinished', hsigns⟩ := hfinished.handle (htimely hnew)
      exact ⟨hsigns, .inr hfinished'⟩
  obtain ⟨⟨new, hballots, hnew⟩, hphase⟩ := hgoes
  have heffects : ((net.engine i).effectsOf (s'.node i) event).filterMap Effect.ballot = new := by
    rw [ConsensusEngine.disk_handle, Disk.ballots_recordAll] at hballots
    exact List.append_cancel_left hballots
  have hdeliver : net.deliver s' (i, event) =
      { node := Function.update s'.node i ((net.engine i).handle (s'.node i) event)
        record := s'.record ++ new.map (Prod.mk i) } := by
    rw [Network.deliver, heffects]
  rw [hdeliver]
  refine ⟨fun j => ?_, fun j v hv => ?_, fun j hnone => ?_, fun j hsome => ?_⟩
  · dsimp only
    rw [ballotsOf_append]
    rcases eq_or_ne j i with rfl | hne
    · rw [Function.update_self, hballots, ballotsOf_map_self, h.ballots]
    · rw [Function.update_of_ne hne, ballotsOf_map_ne hne.symm, List.append_nil, h.ballots]
  · rcases List.mem_append.mp hv with hold | hmem
    · exact h.leaves j v hold
    · obtain ⟨ballot, hballot, heq⟩ := List.mem_map.mp hmem
      cases heq
      obtain ⟨-, -, hhash⟩ := hnew v hballot
      exact fun _ => ⟨fun _ => hhash, fun _ => .inl hhash⟩
  · dsimp only
    rw [inbox_append] at hnone
    obtain ⟨hpast, hlast⟩ := List.append_eq_nil_iff.mp hnone
    rcases eq_or_ne j i with rfl | hne
    · rw [inbox_self] at hlast
      cases hlast
    · rw [Function.update_of_ne hne]
      exact h.idle j hpast
  · dsimp only
    rcases eq_or_ne j i with rfl | hne
    · rw [Function.update_self]
      exact hphase
    · rw [inbox_append, inbox_ne hne.symm, List.append_nil] at hsome ⊢
      rw [Function.update_of_ne hne]
      exact h.phase j hsome

end Underway

/-- The conditions under which a round of a block is heard: the nodes can commit the block and share
their scheme and their execution, no honest vote so far is against it, what comes first to each node
opens the round, and afterwards come genuine messages about the height, whose blocks have the hash of
this block only if they are this block. -/
structure InTime (net : Network ι) (block : Block) (s : NetworkState ι)
    (deliveries : List (ι × Event)) : Prop where
  can : ∀ i, (net.engine i).CanCommit net.electorate block
  scheme : ∀ i j, (net.engine i).scheme = (net.engine j).scheme
  execution : ∀ i j, (net.engine i).execution = (net.engine j).execution
  ballots : ∀ i, (s.node i).disk.ballots = ballotsOf i s.record
  leaves : ∀ i v, (i, .vote v) ∈ s.record → v.Leaves block
  opened : ∀ i, ∃ opening rest, inbox i deliveries = opening :: rest ∧
    (net.engine i).Opens net.electorate block (s.node i) opening ∧
    ∀ event ∈ rest, event.UpTo block.header.height
  genuine : ∀ x ∈ Trace.along net.deliver s deliveries, ∀ v ∈ x.2.2.votes,
    verifyVote (net.engine x.2.1).scheme v = .ok () → net.Heard x.1.record v.choice v.validatorAddress
  distinct : ∀ i f, (i, .commit f) ∈ deliveries →
    f.block.hash ≠ nilHash ∧ (f.block.hash = block.hash → f.block = block)

/-- **The round is under way** at every point of the run. -/
lemma InTime.underway {deliveries : List (ι × Event)} (h : net.InTime block s deliveries)
    {past rest : List (ι × Event)} (hsplit : deliveries = past ++ rest) :
    net.Underway block s past (past.foldl net.deliver s) := by
  induction past using List.reverseRecOn generalizing rest with
  | nil => exact ⟨h.ballots, h.leaves, fun _ _ => rfl, fun _ hc => absurd rfl hc⟩
  | append_singleton past x ih =>
    obtain ⟨i, event⟩ := x
    rw [List.append_assoc, List.singleton_append] at hsplit
    have halong : (past.foldl net.deliver s, (i, event)) ∈ Trace.along net.deliver s deliveries := by
      rw [hsplit, Trace.along_append]
      exact List.mem_append_right _ List.mem_cons_self
    have hmem : (i, event) ∈ deliveries := Trace.mem_of_mem_along halong
    obtain ⟨opening, later, hinbox, hopens, htimely⟩ := h.opened i
    have hsame : inbox i past ++ event :: inbox i rest = opening :: later := by
      rw [← hinbox, hsplit, inbox_append, inbox_cons_self]
    rw [List.foldl_append]
    refine (ih hsplit).deliver (h.can i) (fun hnone => ?_) (fun hsome => ?_)
      (h.genuine _ halong) fun f hf => h.distinct i f (hf ▸ hmem)
    · rw [hnone] at hsame
      exact (List.cons.inj hsame).1 ▸ hopens
    · obtain ⟨first, told, hpast⟩ := List.exists_cons_of_ne_nil hsome
      rw [hpast, List.cons_append] at hsame
      refine htimely event ?_
      rw [← (List.cons.inj hsame).2]
      exact List.mem_append_right _ List.mem_cons_self

/-- All votes and all commits of the round reach all nodes. -/
structure Relayed (net : Network ι) (block : Block) (s : NetworkState ι)
    (deliveries : List (ι × Event)) : Prop where
  votes : ∀ i j v, i ≠ j → (i, .vote v) ∈ (deliveries.foldl net.deliver s).record →
    v.height = block.header.height → v.round = block.header.round →
    .vote v ∈ (inbox j deliveries).tail
  commits : ∀ i j f, i ≠ j → f ∈ ((deliveries.foldl net.deliver s).node i).disk.committed →
    f.block = block → .commit f ∈ (inbox j deliveries).tail

/-- Where all nodes wait and have voted in a phase, all of them have counted a quorum. -/
lemma Underway.reached {deliveries : List (ι × Event)}
    (h : net.Underway block s deliveries (deliveries.foldl net.deliver s))
    (htime : net.InTime block s deliveries) (hrelayed : net.Relayed block s deliveries)
    (hwaits : ∀ i, (net.engine i).Waits net.electorate block (s.node i).disk.committed
      (inbox i deliveries).tail ((deliveries.foldl net.deliver s).node i)) {step : VoteStep}
    (hvoted : ∀ i, (net.engine i).HasVoted block ((deliveries.foldl net.deliver s).node i) step)
    (i : ι) : ConsensusEngine.Reached net.electorate block
      ((deliveries.foldl net.deliver s).node i) step := by
  refine Electorate.isQuorum_of_good ((hwaits i).voters_subset step block.hash)
    fun a ha hgood => ?_
  obtain ⟨j, hspeaks⟩ := net.covers a ha hgood
  rcases eq_or_ne j i with rfl | hne
  · exact (hvoted j).counted a hspeaks
  · obtain ⟨v, hmem, hverify, hchoice, hown⟩ := (hvoted j).signed
    obtain rfl : v.validatorAddress = a := Option.some.inj (hown.symm.trans hspeaks)
    obtain ⟨hheight, hround, rfl, -⟩ : v.height = block.header.height ∧
      v.round = block.header.round ∧ v.step = step ∧ v.blockHash = block.hash := by
        simpa [Vote.choice] using hchoice
    rw [h.ballots, mem_ballotsOf] at hmem
    exact (hwaits i).counted v (hrelayed.votes j i v hne hmem hheight hround)
      (htime.scheme j i ▸ hverify) hgood hheight hround

end Network

/-! ## The first round -/

section

open Transparent ConsensusEngine ExecutionEngine

local instance neZero_nodes : NeZero 3 := ⟨by decide⟩

/-- The proposer starts, and the other two are sent its proposal. -/
def firstOpening : Fin 3 → Event
  | 1 => .start [] 0
  | _ => .proposal ⟨1, 0, firstProposal, address [2]⟩

def firstOpenings : List (Fin 3 × Event) := [1, 0, 2].map fun i => (i, firstOpening i)

/-- The votes of the three nodes, and one of the faulty validator. -/
def firstVotes : List (Fin 3 × Event) :=
  hears 0 [[2]] 0 .prevote firstProposal ++
  [(0, .vote (Transparent.castVote [3] 1 0 .prevote nilHash))] ++
  hears 0 [[4]] 0 .prevote firstProposal ++ hears 1 [[4], [1]] 0 .prevote firstProposal ++
  hears 2 [[1], [2]] 0 .prevote firstProposal ++ hears 1 [[1], [4]] 0 .precommit firstProposal ++
  hears 0 [[2], [4]] 0 .precommit firstProposal ++ hears 2 [[2], [1]] 0 .precommit firstProposal

/-- What the nodes commit by then is sent to the others. -/
def firstCommits : List (Fin 3 × Event) :=
  (List.finRange 3).flatMap fun i => ((firstOpenings ++ firstVotes).foldl threeHonest.deliver
    (Network.boot fun _ => blank) |>.node i).disk.committed.flatMap fun f =>
      ((List.finRange 3).filter (· ≠ i)).map fun j => (j, .commit f)

def firstRound : List (Fin 3 × Event) := firstOpenings ++ (firstVotes ++ firstCommits)

lemma firstRound_facts :
    let last := firstRound.foldl threeHonest.deliver (Network.boot fun _ => blank)
    (∀ x ∈ Trace.along threeHonest.deliver (Network.boot fun _ => blank) firstRound,
      ∀ v ∈ x.2.2.votes, verifyVote (threeHonest.engine x.2.1).scheme v = .ok () →
        threeHonest.Heard x.1.record v.choice v.validatorAddress) ∧
    (∀ i, ∀ event ∈ inbox i (firstVotes ++ firstCommits), event.UpTo 1) ∧
    (∀ x ∈ firstRound, ∀ f ∈ x.2.commit?.toList, f.block = firstProposal) ∧
    (∀ i j, i ≠ j → ∀ ballot ∈ ballotsOf i last.record,
      ballot = .lock 1 0 firstProposal.hash ∨
        ballot ∈ ((inbox j (firstVotes ++ firstCommits)).filterMap Event.vote?).map .vote) ∧
    ∀ i j, i ≠ j → ∀ f ∈ (last.node i).disk.committed,
      f ∈ (inbox j (firstVotes ++ firstCommits)).filterMap Event.commit? := by
  decide +kernel

lemma canSign_engineOf (key : Bytes) : (engineOf key).CanSign ⟨validatorOf key, key⟩ := by
  intro vote hauthor hkey
  refine ⟨{ vote with signature := signatureOf .consensusVote vote.signedBytes key }, rfl, ?_⟩
  have hsigner : (BitVec.ofNat 256 (number vote.publicKey) : Address) = vote.validatorAddress := by
    rw [hkey, hauthor]
    rfl
  have hverify : scheme.verify .consensusVote vote.signedBytes vote.publicKey
      (signatureOf .consensusVote vote.signedBytes key) = .ok () :=
    verify_ok_iff.mpr (by rw [hkey]; rfl)
  show verifyVote scheme _ = .ok ()
  rw [verifyVote]
  show (if (BitVec.ofNat 256 (number vote.publicKey) : Address) ≠ vote.validatorAddress then _
    else _) = _
  rw [if_neg (not_not.mpr hsigner)]
  exact congrArg (fun r => r.mapError CryptoError.toText) hverify

/-- What the three nodes need for the first round. -/
lemma first_facts :
    firstProposal.header.height = 1 ∧ firstProposal.header.round = 0 ∧
    firstProposal.hash ≠ nilHash ∧ firstProposal.transactions = [] ∧
    ¬ ClosesEpoch economics firstProposal.header.height ∧
    firstProposal.header.receiptRoot = receiptRoot (IsPlain.receipts firstProposal) ∧
    verifyBlock scheme firstProposal = .ok () ∧
    firstProposal.header.parentHash = blank.store.latestHash ∧
    firstProposal.header.txRoot = transactionRoot firstProposal.transactions ∧
    firstProposal.header.stateRoot =
      (blank.store.ledger.after (engineOf [1]).execution firstProposal).accounts.stateRoot ∧
    (∀ i, address (honestKey i) ∈ fourMembers ∧ address (honestKey i) ≠ address [3] ∧
      (engineOf (honestKey i)).HasMembers blank.store fourMembers ∧
      (engineOf (honestKey i)).localValidatorActive blank.store ∧
      (engineOf (honestKey i)).validateProposal blank.store
        ⟨1, 0, firstProposal, address [2]⟩ = .ok ()) := by
  decide +kernel

lemma first_canCommit (i : Fin 3) :
    (threeHonest.engine i).CanCommit threeHonest.electorate firstProposal := by
  obtain ⟨hheight, -, hhash, htransactions, hopen, hroot, -, -, -, -, hnodes⟩ := first_facts
  obtain ⟨hmember, hgood, -⟩ := hnodes i
  refine ⟨rfl, ⟨fun tx htx => ?_, fun params hparams => ?_⟩, hroot, hhash, ?_,
    ⟨validatorOf (honestKey i), honestKey i⟩, rfl, hmember, ?_, canSign_engineOf _⟩
  · rw [htransactions] at htx
    cases htx
  · obtain rfl := Option.some.inj hparams
    exact hopen
  · rw [hheight]
    decide
  · exact fun hc => hgood (Finset.mem_singleton.mp hc)

lemma first_poised (i : Fin 3) : (threeHonest.engine i).Poised threeHonest.electorate firstProposal
    (World.boot blank) := by
  obtain ⟨hheight, hround, -, htransactions, -, -, hverify, hparent, htx, hstate, hnodes⟩ :=
    first_facts
  obtain ⟨-, -, hmembers, hactive, -⟩ := hnodes i
  refine ⟨hheight.symm, hround.symm, rfl, rfl, fun step _ => ?_, fun step => ?_, rfl, hmembers,
    hactive, ⟨hverify, hparent, ?_, htx, hstate⟩, List.forall_mem_nil _⟩
  · cases step <;> rfl
  · cases step <;> rfl
  · rw [htransactions]
    trivial

/-- The proposer builds the block when it starts. -/
lemma first_builds :
    (engineOf [2]).proposerFor blank.store 1 0 = .ok (validatorOf [2]) ∧
    protect blank.store (address [2]) 1 = some { lastSignedProposalHeight := 1 } ∧
    (output ((engineOf [2]).buildBlock ⟨validatorOf [2], [2]⟩ (address [2]) [] 0
      ((World.boot blank).emitAll [.write (.putConsensusSnapshot ⟨1, 0⟩),
        .write (.appendConsensusWal (.snapshotPersisted 1 0)),
        .write (.putSlashingProtection (address [2]) { lastSignedProposalHeight := 1 })]))).map id =
      some (some firstProposal) := by
  decide +kernel

/-- What comes first to each of the three nodes. -/
lemma inbox_firstOpenings (i : Fin 3) : inbox i firstOpenings = [firstOpening i] := by
  match i with
  | 0 | 1 | 2 => simp [inbox, firstOpenings]

lemma first_sent (i : Fin 3) : (threeHonest.engine i).Opens threeHonest.electorate firstProposal
    (World.boot blank) (.proposal ⟨1, 0, firstProposal, address [2]⟩) := by
  obtain ⟨-, -, -, -, -, -, -, -, -, -, hnodes⟩ := first_facts
  exact opens_proposal (first_poised i) rfl (hnodes i).2.2.2.2

lemma first_started : (threeHonest.engine 1).Opens threeHonest.electorate firstProposal
    (World.boot blank) (.start [] 0) := by
  obtain ⟨hproposer, hprotect, hbuilt⟩ := first_builds
  obtain ⟨_, w₂, hbuild, rfl⟩ := exists_of_output_map hbuilt
  exact opens_start (l := ⟨validatorOf [2], [2]⟩) (first_poised 1) rfl hproposer rfl hprotect hbuild

lemma first_opens (i : Fin 3) : (threeHonest.engine i).Opens threeHonest.electorate firstProposal
    (World.boot blank) (firstOpening i) := by
  match i with
  | 0 => exact first_sent 0
  | 1 => exact first_started
  | 2 => exact first_sent 2

lemma first_inTime :
    threeHonest.InTime firstProposal (Network.boot fun _ => blank) firstRound := by
  obtain ⟨hgenuine, htimely, hblocks, -, -⟩ := firstRound_facts
  obtain ⟨hheight, -, hhash, -⟩ := first_facts
  refine ⟨first_canCommit, fun _ _ => rfl, fun _ _ => rfl, fun _ => rfl,
    fun _ _ hv => absurd hv List.not_mem_nil, fun i => ?_, hgenuine, fun i f hf => ?_⟩
  · refine ⟨firstOpening i, inbox i (firstVotes ++ firstCommits), ?_, first_opens i,
      hheight ▸ htimely i⟩
    rw [firstRound, inbox_append, inbox_firstOpenings]
    rfl
  · have hblock := hblocks _ hf f (by simp [Event.commit?])
    exact ⟨hblock ▸ hhash, fun _ => hblock⟩

lemma first_relayed :
    threeHonest.Relayed firstProposal (Network.boot fun _ => blank) firstRound := by
  obtain ⟨-, -, -, hvotes, hcommits⟩ := firstRound_facts
  have htail : ∀ i, (inbox i firstRound).tail = inbox i (firstVotes ++ firstCommits) := by
    intro i
    rw [firstRound, inbox_append, inbox_firstOpenings]
    rfl
  refine ⟨fun i j v hne hv _ _ => ?_, fun i j f hne hf _ => ?_⟩
  · rcases hvotes i j hne _ (mem_ballotsOf.mpr hv) with hlock | hmem
    · cases hlock
    · obtain ⟨v', hv', heq⟩ := List.mem_map.mp hmem
      cases heq
      obtain ⟨event, hevent, hsome⟩ := List.mem_filterMap.mp hv'
      cases event <;> cases hsome
      exact htail j ▸ hevent
  · obtain ⟨event, hevent, hsome⟩ := List.mem_filterMap.mp (hcommits i j hne f hf)
    cases event <;> cases hsome
    exact htail j ▸ hevent

end

end ZenoChain
