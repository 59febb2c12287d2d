/-
# First choices

Ballots name a choice under a key, and only the first one under a key counts.  A key under which
two ballots differ is split; under the other keys neither order nor repetition matters.
-/
import Mathlib.Data.List.Basic

namespace ZenoChain

variable {α κ γ : Type} [DecidableEq κ] (key : α → κ) (choice : α → γ)

/-- The choice of the first ballot under a key. -/
def firstChoice (l : List α) (k : κ) : Option γ := (l.find? fun x => key x = k).map choice

omit [DecidableEq κ] in
/-- Two ballots under a key differ. -/
def Splits (l : List α) (k : κ) : Prop :=
  ∃ x ∈ l, ∃ y ∈ l, key x = k ∧ key y = k ∧ choice x ≠ choice y

variable {key choice} {l l' : List α} {k : κ} {c : γ} {x : α}

@[simp] lemma firstChoice_nil : firstChoice key choice [] k = none := rfl

/-- One more ballot counts only if it is the first one under its key. -/
lemma firstChoice_concat :
    firstChoice key choice (l ++ [x]) k =
      (firstChoice key choice l k).or (if key x = k then some (choice x) else none) := by
  rw [firstChoice, firstChoice, List.find?_append]
  rcases l.find? fun x => key x = k with _ | y
  · by_cases hx : key x = k <;> simp [hx]
  · rfl

lemma exists_of_firstChoice (h : firstChoice key choice l k = some c) :
    ∃ x ∈ l, key x = k ∧ choice x = c := by
  obtain ⟨x, hx, hc⟩ := Option.map_eq_some_iff.mp h
  exact ⟨x, List.mem_of_find?_eq_some hx, by simpa using List.find?_some hx, hc⟩

lemma isSome_firstChoice (choice : α → γ) (hx : x ∈ l) (hk : key x = k) :
    ∃ c, firstChoice key choice l k = some c := by
  have hsome : (l.find? fun x => key x = k).isSome :=
    List.find?_isSome.mpr ⟨x, hx, by simpa using hk⟩
  obtain ⟨y, hy⟩ := Option.isSome_iff_exists.mp hsome
  exact ⟨choice y, by rw [firstChoice, hy]; rfl⟩

/-- Under a key that is not split every ballot names the first choice. -/
lemma firstChoice_eq_some_iff (h : ¬ Splits key choice l k) :
    firstChoice key choice l k = some c ↔ ∃ x ∈ l, key x = k ∧ choice x = c := by
  refine ⟨exists_of_firstChoice, ?_⟩
  rintro ⟨x, hx, hk, rfl⟩
  obtain ⟨c, hc⟩ := isSome_firstChoice choice hx hk
  obtain ⟨y, hy, hyk, rfl⟩ := exists_of_firstChoice hc
  rw [hc, Option.some_inj]
  by_contra hne
  exact h ⟨y, hy, x, hx, hyk, hk, hne⟩

/-- A key becomes split with the first ballot that differs from the first choice. -/
lemma splits_concat_iff :
    Splits key choice (l ++ [x]) k ↔ Splits key choice l k ∨
      (key x = k ∧ ∃ c, firstChoice key choice l k = some c ∧ c ≠ choice x) := by
  constructor
  · rintro ⟨y, hy, z, hz, hyk, hzk, hne⟩
    rw [List.mem_append, List.mem_singleton] at hy hz
    rcases hy with hy | rfl <;> rcases hz with hz | rfl
    · exact .inl ⟨y, hy, z, hz, hyk, hzk, hne⟩
    · by_cases hsplit : Splits key choice l k
      · exact .inl hsplit
      · exact .inr ⟨hzk, choice y, (firstChoice_eq_some_iff hsplit).mpr ⟨y, hy, hyk, rfl⟩, hne⟩
    · by_cases hsplit : Splits key choice l k
      · exact .inl hsplit
      · exact .inr ⟨hyk, choice z, (firstChoice_eq_some_iff hsplit).mpr ⟨z, hz, hzk, rfl⟩,
          hne.symm⟩
    · exact absurd rfl hne
  · rintro (⟨y, hy, z, hz, hrest⟩ | ⟨hk, c, hc, hne⟩)
    · exact ⟨y, List.mem_append_left _ hy, z, List.mem_append_left _ hz, hrest⟩
    · obtain ⟨y, hy, hyk, rfl⟩ := exists_of_firstChoice hc
      exact ⟨y, List.mem_append_left _ hy, x, List.mem_append_right _ List.mem_cons_self, hyk, hk,
        hne⟩

omit [DecidableEq κ] in
/-- Whether a key is split depends on the choices under it only. -/
lemma splits_congr (h : ∀ c, (∃ x ∈ l, key x = k ∧ choice x = c) ↔
    ∃ x ∈ l', key x = k ∧ choice x = c) : Splits key choice l k ↔ Splits key choice l' k := by
  have hsplits : ∀ l : List α, Splits key choice l k ↔ ∃ c c', c ≠ c' ∧
      (∃ x ∈ l, key x = k ∧ choice x = c) ∧ ∃ x ∈ l, key x = k ∧ choice x = c' := by
    intro l
    constructor
    · rintro ⟨x, hx, y, hy, hxk, hyk, hne⟩
      exact ⟨_, _, hne, ⟨x, hx, hxk, rfl⟩, y, hy, hyk, rfl⟩
    · rintro ⟨_, _, hne, ⟨x, hx, hxk, rfl⟩, y, hy, hyk, rfl⟩
      exact ⟨x, hx, y, hy, hxk, hyk, hne⟩
  simp only [hsplits, h]

/-- **Neither order nor repetition matters** under a key that is not split. -/
theorem firstChoice_congr (hsplit : ¬ Splits key choice l k)
    (h : ∀ c, (∃ x ∈ l, key x = k ∧ choice x = c) ↔ ∃ x ∈ l', key x = k ∧ choice x = c) :
    firstChoice key choice l' k = firstChoice key choice l k := by
  have hsplit' : ¬ Splits key choice l' k := (splits_congr h).not.mp hsplit
  refine Option.ext fun c => ?_
  rw [firstChoice_eq_some_iff hsplit, firstChoice_eq_some_iff hsplit', h]

end ZenoChain
