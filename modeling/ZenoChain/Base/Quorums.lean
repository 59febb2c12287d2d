/-
# Quorums and locks

Voters decide by quorums of more than two thirds, of whom less than a third is faulty.  Two
quorums share a voter that is not faulty; so if such voters precommit to one value in a round, and
later prevote for another one only after a quorum of a later round has done so, then no two
different values are ever decided.
-/
import Mathlib.Data.Finset.Card
import Mathlib.Order.WellFounded

namespace ZenoChain

/-! ## Counting -/

section

variable {ν : Type} [DecidableEq ν] {U S T F : Finset ν} {n : ℕ}

/-- Two parts of more than two thirds each share more than a third, up to rounding. -/
lemma lt_card_inter (hU : U.card ≤ n) (hS : S ⊆ U) (hT : T ⊆ U)
    (hcardS : n * 2 / 3 + 1 ≤ S.card) (hcardT : n * 2 / 3 + 1 ≤ T.card) :
    (n - 1) / 3 < (S ∩ T).card := by
  have hunion : (S ∪ T).card ≤ n := (Finset.card_le_card (Finset.union_subset hS hT)).trans hU
  have hcount := Finset.card_union_add_card_inter S T
  omega

/-- More than two thirds are left without a third of all. -/
lemma two_thirds_le_sub (hn : 0 < n) : n * 2 / 3 + 1 ≤ n - (n - 1) / 3 := by omega

/-- What is left without less than a third is more than two thirds. -/
lemma two_thirds_le_card_sdiff (hn : 0 < n) (hU : U.card = n) (hF : F.card ≤ (n - 1) / 3) :
    n * 2 / 3 + 1 ≤ (U \ F).card := by
  have hleft := Finset.le_card_sdiff F U
  omega

end

/-! ## Electorates -/

/-- Members of whom less than a third is faulty. -/
structure Electorate (ν : Type) [DecidableEq ν] where
  members : Finset ν
  faulty : Finset ν
  few : 3 * (members ∩ faulty).card < members.card

namespace Electorate

variable {ν β τ : Type} [DecidableEq ν] {E : Electorate ν} {S T : Finset ν}

/-- Members that are more than two thirds. -/
structure IsQuorum (E : Electorate ν) (S : Finset ν) : Prop where
  subset : S ⊆ E.members
  enough : E.members.card * 2 / 3 + 1 ≤ S.card

/-- **Quorums intersect** in a voter that is not faulty. -/
lemma IsQuorum.exists_common (hS : E.IsQuorum S) (hT : E.IsQuorum T) :
    ∃ a ∈ S, a ∈ T ∧ a ∉ E.faulty := by
  have hshared := lt_card_inter le_rfl hS.subset hT.subset hS.enough hT.enough
  have hfew : (E.members ∩ E.faulty).card < (S ∩ T).card := by
    have := E.few
    omega
  obtain ⟨a, ha, hgood⟩ := Finset.exists_mem_notMem_of_card_lt_card hfew
  have haS := Finset.mem_of_mem_inter_left ha
  exact ⟨a, haS, Finset.mem_of_mem_inter_right ha, fun hbad =>
    hgood (Finset.mem_inter.mpr ⟨hS.subset haS, hbad⟩)⟩

/-- All voters that are not faulty make a quorum. -/
lemma isQuorum_of_good (hS : S ⊆ E.members) (hgood : ∀ a ∈ E.members, a ∉ E.faulty → a ∈ S) :
    E.IsQuorum S := by
  refine ⟨hS, ?_⟩
  have hsub : E.members \ E.faulty ⊆ S := fun a ha =>
    hgood a (Finset.mem_sdiff.mp ha).1 (Finset.mem_sdiff.mp ha).2
  have hcard := Finset.card_le_card hsub
  have hcount := Finset.card_sdiff_add_card_inter E.members E.faulty
  have hfew := E.few
  omega

section

variable (E) (prevoted : ν → ℕ → β → τ → Prop) (precommitted : ν → ℕ → β → Prop)

/-- By the time, a quorum has prevoted for a value in a round, as far as its voters are not
faulty. -/
def Polka (round : ℕ) (b : β) (t : τ) : Prop :=
  ∃ S, E.IsQuorum S ∧ ∀ a ∈ S, a ∉ E.faulty → prevoted a round b t

/-- A quorum precommits to a value in a round, as far as its voters are not faulty. -/
def Decided (round : ℕ) (b : β) : Prop :=
  ∃ S, E.IsQuorum S ∧ ∀ a ∈ S, a ∉ E.faulty → precommitted a round b

/-- The locking rule: a voter precommits once in a round, and for a value for which it has seen a
quorum of prevotes; later it prevotes for this value or for none, unless a quorum of a later round
has prevoted for the other value before. -/
structure Locks [LT τ] (none : β) : Prop where
  once {a : ν} {round : ℕ} {b b' : β} (h : precommitted a round b)
    (h' : precommitted a round b') : b = b'
  backed {a : ν} {round : ℕ} {b : β} (h : precommitted a round b) :
    ∃ t, E.Polka prevoted round b t
  binds {a : ν} {round round' : ℕ} {b b' : β} {t : τ} (h : precommitted a round b) (hb : b ≠ none)
    (h' : prevoted a round' b' t) (hb' : b' ≠ none) (hlater : round < round') :
    b' = b ∨ ∃ r > round, ∃ s < t, E.Polka prevoted r b' s

end

variable [LT τ] [WellFoundedLT τ] {prevoted : ν → ℕ → β → τ → Prop}
  {precommitted : ν → ℕ → β → Prop} {none : β} {round round' : ℕ} {b b' : β}

/-- After a value has been decided, no quorum prevotes for another one. -/
lemma Locks.polka_eq (h : E.Locks prevoted precommitted none)
    (hdecided : E.Decided precommitted round b) (hb : b ≠ none) (hb' : b' ≠ none) {t : τ}
    (hpolka : E.Polka prevoted round' b' t) (hlater : round < round') : b' = b := by
  -- The first quorum for another value would have to follow an earlier one.
  induction t using WellFoundedLT.induction generalizing round' with
  | ind t ih =>
    obtain ⟨S, hS, hprecommit⟩ := hdecided
    obtain ⟨T, hT, hprevote⟩ := hpolka
    obtain ⟨a, haS, haT, hgood⟩ := hS.exists_common hT
    rcases h.binds (hprecommit a haS hgood) hb (hprevote a haT hgood) hb' hlater with
      hsame | ⟨r, hr, s, hs, hearlier⟩
    · exact hsame
    · exact ih s hs hearlier hr

/-- **Agreement.**  Voters that keep the locking rule decide one value at most. -/
theorem Locks.agree (h : E.Locks prevoted precommitted none)
    (hdecided : E.Decided precommitted round b) (hdecided' : E.Decided precommitted round' b')
    (hb : b ≠ none) (hb' : b' ≠ none) : b = b' := by
  -- A decision in the later round goes back to a quorum of prevotes.
  have hlater : ∀ {r r' : ℕ} {c c' : β}, E.Decided precommitted r c →
      E.Decided precommitted r' c' → c ≠ none → c' ≠ none → r < r' → c' = c := by
    intro r r' c c' hc hc' hne hne' hlt
    obtain ⟨S, hS, hprecommit⟩ := hc'
    obtain ⟨a, haS, -, hgood⟩ := hS.exists_common hS
    obtain ⟨t, hpolka⟩ := h.backed (hprecommit a haS hgood)
    exact h.polka_eq hc hne hne' hpolka hlt
  rcases lt_trichotomy round round' with hlt | rfl | hlt
  · exact (hlater hdecided hdecided' hb hb' hlt).symm
  · obtain ⟨S, hS, hprecommit⟩ := hdecided
    obtain ⟨T, hT, hprecommit'⟩ := hdecided'
    obtain ⟨a, haS, haT, hgood⟩ := hS.exists_common hT
    exact h.once (hprecommit a haS hgood) (hprecommit' a haT hgood)
  · exact hlater hdecided' hdecided hb' hb hlt

end Electorate

end ZenoChain
