/-
# Who can be accused

Evidence is recorded for two votes of one phase with different hashes, and for two proposals
of one round whose blocks have different hashes.  A vote is signed as a whole; of a block
only the header is signed, while its hash covers the transactions and the signature too.  So
the evidence for votes is sound, and the evidence for proposals is as long as the two headers
differ and name the same proposer.
-/
import ZenoChain.Consensus.Devnet
import ZenoChain.Consensus.Runs

namespace ZenoChain

/-- Who has signed which headers and which votes. -/
structure Signatures where
  header : Address → BlockHeader → Prop
  vote : Address → ℕ → ℕ → VoteStep → Hash32 → Prop

namespace Signatures

/-- The validator has signed at most one header in a round and one hash in a phase. -/
def SignsOnce (σ : Signatures) (a : Address) : Prop :=
  (∀ header header', σ.header a header → σ.header a header' → header.height = header'.height →
    header.round = header'.round → header = header') ∧
  ∀ height round step blockHash blockHash', σ.vote a height round step blockHash →
    σ.vote a height round step blockHash' → blockHash = blockHash'

/-- The author of a vote has signed it. -/
def HasVote (σ : Signatures) (v : Vote) : Prop :=
  σ.vote v.validatorAddress v.height v.round v.step v.blockHash

/-- The proposer of a header has signed it. -/
def HasHeader (σ : Signatures) (header : BlockHeader) : Prop := σ.header header.proposer header

/-- If an effect signs a vote or a header, it is among the signatures. -/
def Records (σ : Signatures) : Effect → Prop
  | .signVote v => σ.HasVote v
  | .signHeader header => σ.HasHeader header
  | _ => True

/-- What a process has signed itself is among the signatures. -/
def Includes (σ : Signatures) (journal : List Effect) : Prop := ∀ x ∈ journal, σ.Records x

/-- Signatures cannot be forged: what an event delivers and verifies has been signed. -/
def Covers (σ : Signatures) (scheme : SignatureScheme) (event : Event) : Prop :=
  (∀ v ∈ event.vote?, verifyVote scheme v = .ok () → σ.HasVote v) ∧
  ∀ p ∈ event.proposal?, verifyBlock scheme p.block = .ok () → σ.HasHeader p.block.header

end Signatures

/-- The validator that an effect logs evidence against. -/
def Effect.accuses : Effect → Option Address
  | .write (.appendConsensusWal (.evidenceRecorded _ _ a _)) => some a
  | _ => none

/-- The validators that a process has recorded evidence against, in the log or in memory. -/
def World.accused (w : World) : List Address :=
  w.disk.journal.filterMap Effect.accuses ++ w.state.evidence.map Evidence.validatorAddress

lemma Effect.accuses_of_isQuiet {x : Effect} (h : x.isQuiet) : x.accuses = none := by
  unfold accuses
  split
  · cases h
  · rfl

lemma Effect.accuses_of_isAccounting {x : Effect} (h : x.IsAccounting) : x.accuses = none := by
  cases h <;> rfl

namespace ConsensusEngine

variable [Hashing] {e : ConsensusEngine} {w₀ w w' : World} {event : Event} {σ : Signatures}

/-- An accepted second proposal of the round, if its block has another hash than the first,
has another header with the same proposer. -/
def HeadersTell (e : ConsensusEngine) (w : World) (event : Event) : Prop :=
  ∀ p ∈ event.proposal?, ∀ existing ∈ w.state.proposal,
    e.validateProposal w.disk.store p = .ok () → p.height = w.state.height →
    p.round = w.state.round → existing.hash ≠ p.block.hash →
    existing.header ≠ p.block.header ∧ existing.header.proposer = p.block.header.proposer

instance (e : ConsensusEngine) (w : World) (event : Event) : Decidable (e.HeadersTell w event) :=
  inferInstanceAs (Decidable (∀ p ∈ event.proposal?, ∀ existing ∈ w.state.proposal, _))

/-- Everything that a node holds against validators is backed by signatures: its votes and its
proposal were signed, and the accused have signed twice. -/
structure Backed (σ : Signatures) (w : World) : Prop where
  guilty : ∀ a ∈ w.accused, ¬ σ.SignsOnce a
  votes : ∀ v ∈ w.state.votes, σ.HasVote v
  proposal : ∀ block ∈ w.state.proposal, σ.HasHeader block.header ∧
    block.header.height = w.state.height ∧ block.header.round = w.state.round

omit [Hashing] in
lemma accused_of_none {es : List Effect} (h : ∀ x ∈ es, x.accuses = none)
    (hjournal : w'.disk.journal = w.disk.journal ++ es)
    (hevidence : w'.state.evidence ⊆ w.state.evidence) : w'.accused ⊆ w.accused := by
  rw [World.accused, hjournal, List.filterMap_append, List.filterMap_eq_nil_iff.mpr h,
    List.append_nil]
  exact List.append_subset.mpr ⟨List.subset_append_left _ _,
    List.subset_append_of_subset_right _ (List.map_subset _ hevidence)⟩

omit [Hashing] in
/-- A conflicting vote in the records names the same phase and another hash. -/
lemma exists_of_conflicts {s : RoundState} {vote : Vote} (h : s.conflicts vote) :
    ∃ v ∈ s.votes, v.height = vote.height ∧ v.round = vote.round ∧ v.step = vote.step ∧
      v.validatorAddress = vote.validatorAddress ∧ v.blockHash ≠ vote.blockHash := by
  obtain ⟨v, hv, hsame⟩ := List.any_eq_true.mp h
  exact ⟨v, hv, by simpa using hsame⟩

omit [Hashing] in
/-- A recorded vote has been signed by its author. -/
lemma Sourced.hasVote {vote : Vote} (h : e.Sourced w₀ event w vote)
    (verified : verifyVote e.scheme vote = .ok ()) (covers : σ.Covers e.scheme event)
    (own : σ.Includes w.disk.journal) : σ.HasVote vote := by
  rcases h with ⟨rfl, -⟩ | ⟨hsigned, -⟩
  · exact covers.1 vote rfl verified
  · exact own _ hsigned

/-- Evidence is recorded against validators only that have signed twice. -/
lemma Accusation.guilty {item : Evidence} (h : e.Accusation w₀ event w item) (hw : Backed σ w)
    (covers : σ.Covers e.scheme event) (own : σ.Includes w.disk.journal)
    (tell : e.HeadersTell w₀ event) : ¬ σ.SignsOnce item.validatorAddress := by
  cases h with
  | vote verified known conflicts sourced =>
    obtain ⟨v, hv, hheight, hround, hstep, hauthor, hne⟩ := exists_of_conflicts conflicts
    have hold := hw.votes v hv
    have hnew := sourced.hasVote verified covers own
    rw [Signatures.HasVote, hheight, hround, hstep, hauthor] at hold
    exact fun honce => hne (honce.2 _ _ _ _ _ hold hnew)
  | @proposal p existing cause start valid height round held differs =>
    subst cause start
    obtain ⟨_, -, haccepts⟩ := validateProposal_ok valid
    obtain ⟨hheaders, hproposer⟩ := tell p rfl existing held valid height round differs
    obtain ⟨hold, hheight, hround⟩ := hw.proposal existing held
    have hnew := covers.2 p rfl haccepts.verified
    rw [Signatures.HasHeader, hproposer] at hold
    have hauthor : p.validatorAddress = p.block.header.proposer := by
      rw [haccepts.validator, haccepts.proposer]
    rw [proposalEvidence, hauthor]
    refine fun honce => hheaders (honce.1 _ _ hold hnew ?_ ?_)
    · rw [hheight, haccepts.height, height]
    · rw [hround, haccepts.round, round]

variable [Revm]

lemma accuses_of_commits {f : FinalizedBlock} {d d' : Disk} (h : Commits e f d d') :
    ∃ es, d'.journal = d.journal ++ es ∧ ∀ x ∈ es, Effect.accuses x = none := by
  obtain ⟨es, rfl, -, hes⟩ := h.effects
  refine ⟨es, d.journal_recordAll es, fun x hx => ?_⟩
  rcases hes x hx with hquiet | haccounting | ⟨state, rfl⟩
  · exact Effect.accuses_of_isQuiet hquiet
  · exact Effect.accuses_of_isAccounting haccounting
  · rfl

omit [Revm] in
lemma accuses_of_settles {items : List Evidence} {d d' : Disk} (h : Settles e items d d') :
    ∃ es, d'.journal = d.journal ++ es ∧ ∀ x ∈ es, Effect.accuses x = none := by
  cases h with
  | none => exact ⟨[], (List.append_nil _).symm, by simp⟩
  | some => exact ⟨_, d.journal_recordAll _, by simp [Effect.accuses]⟩

omit [Hashing] [Revm] in
/-- What touches neither the evidence, nor the votes, nor the proposal stays backed. -/
lemma Backed.keep (h : Backed σ w) {es : List Effect} (hes : ∀ x ∈ es, x.accuses = none)
    (hjournal : w'.disk.journal = w.disk.journal ++ es) (hevidence : w'.state.evidence ⊆ w.state.evidence)
    (hvotes : w'.state.votes = w.state.votes) (hproposal : w'.state.proposal = w.state.proposal)
    (hheight : w'.state.height = w.state.height) (hround : w'.state.round = w.state.round) :
    Backed σ w' := by
  refine ⟨fun a ha => h.guilty a (accused_of_none hes hjournal hevidence ha), ?_, ?_⟩
  · rw [hvotes]
    exact h.votes
  · rw [hproposal, hheight, hround]
    exact h.proposal

omit [Hashing] [Revm] in
/-- A new round or height has no votes and no proposal. -/
lemma Backed.clear (h : Backed σ w) {es : List Effect} (hes : ∀ x ∈ es, x.accuses = none)
    (hjournal : w'.disk.journal = w.disk.journal ++ es) (hevidence : w'.state.evidence ⊆ w.state.evidence)
    (hvotes : w'.state.votes = []) (hproposal : w'.state.proposal = none) : Backed σ w' := by
  refine ⟨fun a ha => h.guilty a (accused_of_none hes hjournal hevidence ha), ?_, ?_⟩
  · simp [hvotes]
  · simp [hproposal]

/-- One move keeps what a node holds against validators backed by signatures. -/
lemma Backed.move (h : Backed σ w) (hmove : e.Move w₀ event w w') (covers : σ.Covers e.scheme event)
    (own : σ.Includes w.disk.journal) (tell : e.HeadersTell w₀ event) : Backed σ w' := by
  cases hmove with
  | quiet hquiet =>
    exact h.keep (fun x hx => Effect.accuses_of_isQuiet (hquiet x hx)) (w.disk.journal_recordAll _)
      (List.Subset.refl _) rfl rfl rfl rfl
  | note =>
    exact h.keep (by simp [Effect.accuses]) (w.disk.journal_recordAll _) (List.Subset.refl _)
      rfl rfl rfl rfl
  | @accept block _ hheight hround hproposed =>
    refine ⟨h.guilty, h.votes, fun block' hblock' => ?_⟩
    obtain rfl := Option.some.inj hblock'
    refine ⟨?_, hheight, hround⟩
    rcases hproposed with ⟨p, hevent, rfl, hverified⟩ | ⟨hsigned, -⟩
    · exact covers.2 p (hevent ▸ rfl) hverified
    · exact own _ hsigned
  | @accuse item haccusation =>
    have hguilty := haccusation.guilty h covers own tell
    have haccused : (w.accuse item).accused ⊆ w.accused ++ [item.validatorAddress] := by
      have hevidence := List.map_subset Evidence.validatorAddress
        (w.state.evidence_addEvidence_subset item)
      rw [List.map_append] at hevidence
      intro a ha
      have := @hevidence a
      simp only [World.accused, World.accuse, Disk.journal_record, List.filterMap_append,
        List.mem_append, List.map_cons, List.map_nil, List.filterMap_cons, List.filterMap_nil,
        Effect.accuses] at ha this ⊢
      tauto
    obtain ⟨processed, evidence, hstate⟩ := w.state.addEvidence_eq item
    refine ⟨fun a ha => ?_, ?_, ?_⟩
    · rcases List.mem_append.mp (haccused ha) with hold | hnew
      · exact h.guilty a hold
      · rwa [List.mem_singleton.mp hnew]
    · rw [World.accuse, hstate]
      exact h.votes
    · rw [World.accuse, hstate]
      exact h.proposal
  | @cast vote =>
    obtain ⟨prevoted, precommitted, hmark⟩ := w.state.markCast_eq vote.step
    refine h.keep ?_ (w.disk.journal_recordAll _) ?_ ?_ ?_ ?_ ?_
    · simp [World.castEffects, Effect.accuses]
    all_goals simp [World.cast, hmark]
  | @count vote hverified hheight hround _ hsourced =>
    have hvote := hsourced.hasVote hverified covers own
    have hstays := stays_count e w vote
    have haccused : (w.count vote).accused ⊆ w.accused :=
      accused_of_none (List.forall_mem_singleton.mpr rfl) rfl (by simp [World.count])
    refine ⟨fun a ha => h.guilty a (haccused ha), fun v hv => ?_, ?_⟩
    · rw [World.count, RoundState.votes_count] at hv
      rcases List.mem_append.mp hv with hold | hnew
      · exact h.votes v hold
      · rwa [List.mem_singleton.mp hnew]
    · rw [hstays.proposal, hstays.height, hstays.round]
      exact h.proposal
  | report =>
    exact h.keep (by simp [Effect.accuses]) (w.disk.journal_recordAll _) (List.Subset.refl _)
      rfl rfl rfl rfl
  | lock =>
    exact h.keep (by simp [Effect.accuses]) (w.disk.journal_recordAll _) (List.Subset.refl _)
      rfl rfl rfl rfl
  | finalize _ _ _ hcommits hsettles =>
    obtain ⟨es, hes, hnone⟩ := accuses_of_commits hcommits
    obtain ⟨es', hes', hnone'⟩ := accuses_of_settles hsettles
    refine h.clear (List.forall_mem_append.mpr ⟨hnone, hnone'⟩) ?_ (List.nil_subset _) rfl rfl
    rw [hes', hes, List.append_assoc]
  | stall _ _ _ hcommits =>
    obtain ⟨es, hes, hnone⟩ := accuses_of_commits hcommits
    exact h.keep hnone hes (List.nil_subset _) rfl rfl rfl rfl
  | adopt _ _ _ hcommits =>
    obtain ⟨es, hes, hnone⟩ := accuses_of_commits hcommits
    exact h.clear hnone hes (List.Subset.refl _) rfl rfl
  | nextRound =>
    exact h.clear (by simp) (List.append_nil _).symm (List.Subset.refl _) rfl rfl

/-- **No framing.**  A process starts on any store, no delivered signature is forged, and the
headers of two proposals of a round tell them apart: then it records evidence only against
validators that have signed two headers in a round or two hashes in a phase. -/
theorem run_noFraming {d : Disk} (hstart : d.journal = [])
    (hrun : e.Run (fun w event => σ.Covers e.scheme event ∧ e.HeadersTell w event) (World.boot d) w)
    (own : σ.Includes w.disk.journal) {a : Address} (ha : a ∈ w.accused) : ¬ σ.SignsOnce a := by
  have hinit : Backed σ (World.boot d) := by
    refine ⟨fun a ha => ?_, nofun, nofun⟩
    rw [World.accused, World.boot, hstart] at ha
    cases ha
  -- What the process signs later is included at the end, so that it is included all along.
  have hbacked : σ.Includes w.disk.journal → Backed σ w := by
    refine invariant_of_run (fun w => σ.Includes w.disk.journal → Backed σ w) (fun _ => hinit)
      (fun w₀ event hcond w w' h hmove hown => ?_) hrun
    obtain ⟨es, hes⟩ := hmove.recordAll
    have hsub : w.disk.journal ⊆ w'.disk.journal := by
      rw [hes, Disk.journal_recordAll]
      exact List.subset_append_left _ _
    have hbefore : σ.Includes w.disk.journal := fun x hx => hown x (hsub hx)
    exact (h hbefore).move hmove hcond.1 hbefore hcond.2
  exact (hbacked own).guilty a ha

end ConsensusEngine

/-! ## An altered copy of a proposal -/

section

open Transparent

/-- The signatures of some headers and votes. -/
def signaturesOf (headers : List BlockHeader) (votes : List Vote) : Signatures :=
  { header := fun a header => header ∈ headers ∧ header.proposer = a
    vote := fun a height round step blockHash => ∃ v ∈ votes, v.validatorAddress = a ∧
      v.height = height ∧ v.round = round ∧ v.step = step ∧ v.blockHash = blockHash }

variable {headers : List BlockHeader} {votes : List Vote}

instance (v : Vote) : Decidable ((signaturesOf headers votes).HasVote v) :=
  inferInstanceAs (Decidable (∃ v' ∈ votes, _))

instance (header : BlockHeader) : Decidable ((signaturesOf headers votes).HasHeader header) :=
  inferInstanceAs (Decidable (header ∈ headers ∧ _))

instance : ∀ x, Decidable ((signaturesOf headers votes).Records x)
  | .signVote v => inferInstanceAs (Decidable ((signaturesOf headers votes).HasVote v))
  | .signHeader header =>
    inferInstanceAs (Decidable ((signaturesOf headers votes).HasHeader header))
  | .write _ | .broadcast _ | .observe _ => inferInstanceAs (Decidable True)

instance (journal : List Effect) : Decidable ((signaturesOf headers votes).Includes journal) :=
  inferInstanceAs (Decidable (∀ x ∈ journal, (signaturesOf headers votes).Records x))

instance (scheme : SignatureScheme) (event : Event) :
    Decidable ((signaturesOf headers votes).Covers scheme event) :=
  inferInstanceAs (Decidable (_ ∧ _))

/-- An empty block, and a copy of it with a transfer that its proposer never put there; the
header and its signature are the same. -/
def alteredEvents : List Event :=
  [.proposal (emptyProposal [2] 0),
   .proposal ⟨1, 0, sealBlock (emptyHeader [2] 0) [payment [1] (address [9]) 5 0 10 none] [2],
     address [2]⟩]

/-- The proposer has signed one header, and it is accused of having signed two. -/
theorem alteredEvents_frame :
    ∃ (σ : Signatures) (w : World), (engineOf [1]).Run (fun _ event => σ.Covers scheme event) (World.boot funded) w ∧
      σ.Includes w.disk.journal ∧ ∃ a ∈ w.accused, σ.SignsOnce a := by
  refine ⟨signaturesOf [emptyHeader [2] 0]
    [castVote [1] 1 0 .prevote (emptyProposal [2] 0).block.hash], _,
    ConsensusEngine.run_of_meets alteredEvents (by decide +kernel), by decide +kernel,
    address [2], by decide +kernel, ?_, ?_⟩
  · rintro header header' ⟨hheader, -⟩ ⟨hheader', -⟩ - -
    rw [List.mem_singleton.mp hheader, List.mem_singleton.mp hheader']
  · rintro height round step blockHash blockHash' ⟨v, hv, -, -, -, -, rfl⟩ ⟨v', hv', -, -, -, -, rfl⟩
    rw [List.mem_singleton.mp hv, List.mem_singleton.mp hv']

/-- Another header of the same proposer in the same round. -/
def secondHeader : BlockHeader := { emptyHeader [2] 0 with timestampMs := 5 }

/-- A proposer that signs two headers for one round, and a validator that prevotes twice. -/
def doubleEvents : List Event :=
  [.proposal (emptyProposal [2] 0), .proposal ⟨1, 0, sealBlock secondHeader [] [2], address [2]⟩,
   .vote (castVote [3] 1 0 .prevote 7), .vote (castVote [3] 1 0 .prevote 8)]

/-- Both are accused, and rightly. -/
theorem doubleEvents_accuse :
    let σ := signaturesOf [emptyHeader [2] 0, secondHeader]
      [castVote [1] 1 0 .prevote (emptyProposal [2] 0).block.hash,
       castVote [3] 1 0 .prevote 7, castVote [3] 1 0 .prevote 8]
    let w := doubleEvents.foldl (engineOf [1]).handle (World.boot blank)
    w.accused = [address [2], address [3], address [2], address [3]] ∧
      ∀ a ∈ w.accused, ¬ σ.SignsOnce a :=
  ⟨by decide +kernel, fun _ ha => ConsensusEngine.run_noFraming rfl
    (ConsensusEngine.run_of_meets doubleEvents (by decide +kernel)) (by decide +kernel) ha⟩

end

end ZenoChain
