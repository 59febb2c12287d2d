/-
# A network of validators

Honest nodes run the engine, and what they are told is out of their hands: proposals, votes,
commits and timeouts come in any order, late, twice or never.  A delivered vote that verifies is one
of an active validator, and if its author runs on an honest node, that node has signed it before.
-/
import Mathlib.Data.Fintype.Basic
import Mathlib.Data.List.Infix
import ZenoChain.Base.Quorums
import ZenoChain.Base.Trace
import ZenoChain.Consensus.Locking

namespace ZenoChain

/-- What a vote is for: a height, a round, a phase and a hash. -/
abbrev Choice := ℕ × ℕ × VoteStep × Hash32

/-- The choice of a vote. -/
def Vote.choice (v : Vote) : Choice := (v.height, v.round, v.step, v.blockHash)

/-- The votes that an event delivers, alone or in a certificate. -/
def Event.votes : Event → List Vote
  | .vote v => [v]
  | .commit f => f.certificate.votes
  | _ => []

/-- The engine votes under an address. -/
def ConsensusEngine.Speaks (e : ConsensusEngine) (a : Address) : Prop :=
  e.localValidator.map (fun l => l.validator.address) = some a

instance (e : ConsensusEngine) (a : Address) : Decidable (e.Speaks a) :=
  inferInstanceAs (Decidable (_ = some a))

/-- The active validators on a store are some members. -/
def ConsensusEngine.HasMembers (e : ConsensusEngine) (store : Store) (members : Finset Address) :
    Prop :=
  ((e.activeValidators store).map Validator.address).toFinset = members ∧
    (e.activeValidators store).length = members.card

instance (e : ConsensusEngine) (store : Store) (members : Finset Address) :
    Decidable (e.HasMembers store members) := inferInstanceAs (Decidable (_ ∧ _))

/-- The honest nodes of a network.  Each member that is not faulty votes on one of them. -/
structure Network (ι : Type) where
  electorate : Electorate Address
  engine : ι → ConsensusEngine
  covers : ∀ a ∈ electorate.members, a ∉ electorate.faulty → ∃ i, (engine i).Speaks a
  seated : ∀ i a, (engine i).Speaks a → a ∈ electorate.members
  distinct : ∀ i j a, (engine i).Speaks a → (engine j).Speaks a → i = j

/-- The states of the honest nodes, and their votes and locks so far, oldest first. -/
structure NetworkState (ι : Type) where
  node : ι → World
  record : List (ι × Ballot)

namespace Network

variable {ι : Type}

/-- As far as honest nodes are concerned, a member has made a choice: if it votes on an honest node,
the node has signed such a vote. -/
def Heard (net : Network ι) (record : List (ι × Ballot)) (choice : Choice) (a : Address) : Prop :=
  a ∈ net.electorate.members ∧
    ∀ i, (net.engine i).Speaks a → ∃ v : Vote, (i, .vote v) ∈ record ∧ v.choice = choice

/-- A quorum has made a choice. -/
def Supported (net : Network ι) (record : List (ι × Ballot)) (choice : Choice) : Prop :=
  ∃ S, net.electorate.IsQuorum S ∧ ∀ a ∈ S, net.Heard record choice a

variable [Hashing] [Revm]

/-- The nodes start on their disks. -/
def boot (start : ι → Disk) : NetworkState ι := { node := fun i => World.boot (start i), record := [] }

/-- An event is delivered to a node. -/
def deliver [DecidableEq ι] (net : Network ι) (s : NetworkState ι) (x : ι × Event) :
    NetworkState ι :=
  { node := Function.update s.node x.1 ((net.engine x.1).handle (s.node x.1) x.2)
    record := s.record ++
      (((net.engine x.1).effectsOf (s.node x.1) x.2).filterMap Effect.ballot).map (Prod.mk x.1) }

/-- The delivered votes that verify have been made, and while the event is handled the active
validators are the members. -/
structure Legal (net : Network ι) (s : NetworkState ι) (x : ι × Event) : Prop where
  genuine : ∀ v ∈ x.2.votes, verifyVote (net.engine x.1).scheme v = .ok () →
    net.Heard s.record v.choice v.validatorAddress
  fixed : ∀ es ∈ ((net.engine x.1).effectsOf (s.node x.1) x.2).inits,
    (net.engine x.1).HasMembers ((s.node x.1).disk.recordAll es).store net.electorate.members

end Network

/-- The ballot is a vote for a choice. -/
def Ballot.IsFor (choice : Choice) : Ballot → Prop
  | .vote v => v.choice = choice
  | .lock .. => False

instance (choice : Choice) : DecidablePred (Ballot.IsFor choice)
  | .vote v => inferInstanceAs (Decidable (v.choice = choice))
  | .lock .. => isFalse id

namespace Network

variable {ι : Type} [Fintype ι] [DecidableEq ι]

omit [Fintype ι] [DecidableEq ι] in
lemma heard_iff {net : Network ι} {record : List (ι × Ballot)} {choice : Choice} {a : Address} :
    net.Heard record choice a ↔ a ∈ net.electorate.members ∧ ∀ i, (net.engine i).Speaks a →
      ∃ x ∈ record, x.1 = i ∧ x.2.IsFor choice := by
  refine and_congr_right' (forall₂_congr fun i _ => ?_)
  constructor
  · rintro ⟨v, hmem, hchoice⟩
    exact ⟨_, hmem, rfl, hchoice⟩
  · rintro ⟨⟨j, ballot⟩, hmem, rfl, hballot⟩
    cases ballot with
    | vote v => exact ⟨v, hmem, hballot⟩
    | lock => cases hballot

instance (net : Network ι) (record : List (ι × Ballot)) (choice : Choice) (a : Address) :
    Decidable (net.Heard record choice a) := decidable_of_iff _ heard_iff.symm

instance [Hashing] [Revm] (net : Network ι) (s : NetworkState ι) (x : ι × Event) :
    Decidable (net.Legal s x) :=
  decidable_of_iff ((∀ v ∈ x.2.votes, verifyVote (net.engine x.1).scheme v = .ok () →
      net.Heard s.record v.choice v.validatorAddress) ∧
    ∀ es ∈ ((net.engine x.1).effectsOf (s.node x.1) x.2).inits,
      (net.engine x.1).HasMembers ((s.node x.1).disk.recordAll es).store net.electorate.members)
    ⟨fun h => ⟨h.1, h.2⟩, fun h => ⟨h.genuine, h.fixed⟩⟩

end Network

/-! ## The record of the network -/

section

variable {ι : Type} [DecidableEq ι]

/-- The votes and locks of a node in a record. -/
def ballotsOf (i : ι) (record : List (ι × Ballot)) : List Ballot :=
  record.filterMap fun x => if x.1 = i then some x.2 else none

lemma ballotsOf_append (i : ι) (l m : List (ι × Ballot)) :
    ballotsOf i (l ++ m) = ballotsOf i l ++ ballotsOf i m := List.filterMap_append

lemma mem_ballotsOf {i : ι} {record : List (ι × Ballot)} {ballot : Ballot} :
    ballot ∈ ballotsOf i record ↔ (i, ballot) ∈ record := by
  rw [ballotsOf, List.mem_filterMap]
  constructor
  · rintro ⟨⟨j, b⟩, hmem, hsome⟩
    rw [Option.ite_none_right_eq_some] at hsome
    obtain ⟨rfl, hb⟩ := hsome
    obtain rfl := Option.some.inj hb
    exact hmem
  · intro hmem
    exact ⟨_, hmem, if_pos rfl⟩

lemma ballotsOf_map_self (i : ι) (ballots : List Ballot) :
    ballotsOf i (ballots.map (Prod.mk i)) = ballots := by
  rw [ballotsOf, List.filterMap_map]
  simp

lemma ballotsOf_map_ne {i j : ι} (h : j ≠ i) (ballots : List Ballot) :
    ballotsOf i (ballots.map (Prod.mk j)) = [] := by
  rw [ballotsOf, List.filterMap_map]
  simp [h]

end

namespace Network

variable {ι : Type} {net : Network ι} {record record' : List (ι × Ballot)} {choice : Choice}

lemma Heard.mono {a : Address} (h : net.Heard record choice a) (hsub : record ⊆ record') :
    net.Heard record' choice a :=
  ⟨h.1, fun i hi => (h.2 i hi).imp fun _ hv => ⟨hsub hv.1, hv.2⟩⟩

lemma Supported.mono (h : net.Supported record choice) (hsub : record ⊆ record') :
    net.Supported record' choice :=
  h.imp fun _ hS => ⟨hS.1, fun a ha => (hS.2 a ha).mono hsub⟩

/-- What precedes a vote or a lock of an honest node: a quorum of prevotes for the hash, unless it
is a prevote. -/
def Precedes (net : Network ι) (record : List (ι × Ballot)) : Ballot → Prop
  | .vote v => v.step = .precommit → net.Supported record (v.height, v.round, .prevote, v.blockHash)
  | .lock height round blockHash => net.Supported record (height, round, .prevote, blockHash)

/-- Each precommit and each lock of the record has a quorum of prevotes before it. -/
def Justified (net : Network ι) (record : List (ι × Ballot)) : Prop :=
  ∀ before i ballot after, record = before ++ (i, ballot) :: after → net.Precedes before ballot

lemma justified_nil : net.Justified [] := by
  intro before i ballot after hsplit
  simp at hsplit

lemma Justified.concat (h : net.Justified record) {i : ι} {ballot : Ballot}
    (hlast : net.Precedes record ballot) : net.Justified (record ++ [(i, ballot)]) := by
  intro before j ballot' after hsplit
  rcases Trace.concat_eq_append_cons hsplit with ⟨after', hrecord, -⟩ | ⟨rfl, hballot, -⟩
  · exact h before j ballot' after' hrecord
  · obtain ⟨-, rfl⟩ := Prod.mk.inj hballot
    exact hlast

end Network

end ZenoChain
