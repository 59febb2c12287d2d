/-
# Programs with a state and an early exit

A handler is a program of `EStateM`: it reads and writes a state and may stop with an
error, in which case the state keeps what was written before.  This file has the rules
by which such programs are run symbolically, one bind at a time, and the rules by which a
reflexive and transitive relation between the states before and after is established for
a whole program from its parts.
-/
import Mathlib.Logic.Relation

namespace ZenoChain

universe u

namespace Handler

variable {ε ε' σ τ α β : Type u}

/-- The state in which a program ends, normally or with an error. -/
def final : EStateM.Result ε σ α → σ
  | .ok _ s => s
  | .error _ s => s

@[simp] lemma final_ok (a : α) (s : σ) : final (.ok a s : EStateM.Result ε σ α) = s := rfl

@[simp] lemma final_error (e : ε) (s : σ) : final (.error e s : EStateM.Result ε σ α) = s := rfl

/-- What a program returns, if it ends normally. -/
def output : EStateM.Result ε σ α → Option α
  | .ok a _ => some a
  | .error _ _ => none

lemma exists_of_output_map {r : EStateM.Result ε σ α} {f : α → β} {b : β}
    (h : (output r).map f = some b) : ∃ a s, r = .ok a s ∧ f a = b := by
  rcases r with ⟨a, s⟩ | ⟨e, s⟩
  · exact ⟨a, s, rfl, Option.some.inj h⟩
  · cases h

/-! ## Running a program one bind at a time -/

lemma bind_ok {m : EStateM ε σ α} {f : α → EStateM ε σ β} {s s' : σ} {a : α}
    (h : m s = .ok a s') : (m >>= f) s = f a s' := by
  simp only [bind, EStateM.bind, h]

lemma bind_error {m : EStateM ε σ α} {f : α → EStateM ε σ β} {s s' : σ} {e : ε}
    (h : m s = .error e s') : (m >>= f) s = .error e s' := by
  simp only [bind, EStateM.bind, h]

lemma bind_eq_ok_iff {m : EStateM ε σ α} {f : α → EStateM ε σ β} {s s' : σ} {b : β} :
    (m >>= f) s = .ok b s' ↔ ∃ a s₁, m s = .ok a s₁ ∧ f a s₁ = .ok b s' := by
  rcases h : m s with ⟨a, s₁⟩ | ⟨e, s₁⟩
  · rw [bind_ok h]
    constructor
    · intro hf
      exact ⟨a, s₁, rfl, hf⟩
    · rintro ⟨a', s₁', heq, hf⟩
      cases heq
      exact hf
  · rw [bind_error h]
    simp

@[simp] lemma pure_run (a : α) (s : σ) : (pure a : EStateM ε σ α) s = .ok a s := rfl

@[simp] lemma get_run (s : σ) : (get : EStateM ε σ σ) s = .ok s s := rfl

@[simp] lemma modify_run (f : σ → σ) (s : σ) :
    (modify f : EStateM ε σ PUnit) s = .ok ⟨⟩ (f s) := rfl

@[simp] lemma throw_run (e : ε) (s : σ) : (throw e : EStateM ε σ α) s = .error e s := rfl

/-- A pure computation that may fail, as a program that leaves the state alone. -/
def ofExcept : Except ε α → EStateM ε σ α
  | .ok a => pure a
  | .error e => throw e

@[simp] lemma ofExcept_ok (a : α) : (ofExcept (.ok a) : EStateM ε σ α) = pure a := rfl

@[simp] lemma ofExcept_error (e : ε) : (ofExcept (.error e) : EStateM ε σ α) = throw e := rfl

lemma final_ofExcept (x : Except ε α) (s : σ) : final ((ofExcept x : EStateM ε σ α) s) = s := by
  cases x <;> rfl

lemma ofExcept_eq_ok_iff {x : Except ε α} {a : α} {s s' : σ} :
    (ofExcept x : EStateM ε σ α) s = .ok a s' ↔ x = .ok a ∧ s = s' := by
  cases x <;> simp

@[simp] lemma mapError_ok {f : ε → ε'} {a : α} :
    (Except.ok a : Except ε α).mapError f = .ok a := rfl

@[simp] lemma mapError_error {f : ε → ε'} {e : ε} :
    (Except.error e : Except ε α).mapError f = .error (f e) := rfl

lemma mapError_eq_ok_iff {x : Except ε α} {f : ε → ε'} {a : α} :
    x.mapError f = .ok a ↔ x = .ok a := by
  cases x <;> simp

/-- A program on one component of the state, with its errors translated. -/
def zoom (get : σ → τ) (set : τ → σ → σ) (err : ε' → ε) (m : EStateM ε' τ α) :
    EStateM ε σ α := fun s =>
  match m (get s) with
  | .ok a t => .ok a (set t s)
  | .error e t => .error (err e) (set t s)

lemma zoom_ok {get : σ → τ} {set : τ → σ → σ} {err : ε' → ε} {m : EStateM ε' τ α} {s : σ} {a : α}
    {t : τ} (h : m (get s) = .ok a t) : zoom get set err m s = .ok a (set t s) := by
  simp only [zoom, h]

lemma zoom_error {get : σ → τ} {set : τ → σ → σ} {err : ε' → ε} {m : EStateM ε' τ α} {s : σ}
    {e : ε'} {t : τ} (h : m (get s) = .error e t) :
    zoom get set err m s = .error (err e) (set t s) := by
  simp only [zoom, h]

lemma zoom_eq_ok_iff {get : σ → τ} {set : τ → σ → σ} {err : ε' → ε} {m : EStateM ε' τ α} {s s' : σ}
    {a : α} : zoom get set err m s = .ok a s' ↔ ∃ t, m (get s) = .ok a t ∧ s' = set t s := by
  rcases h : m (get s) with ⟨b, t⟩ | ⟨e, t⟩
  · rw [zoom_ok h]
    constructor
    · rintro ⟨⟩
      exact ⟨t, rfl, rfl⟩
    · rintro ⟨t', heq, rfl⟩
      cases heq
      rfl
  · rw [zoom_error h]
    simp

lemma final_zoom (get : σ → τ) (set : τ → σ → σ) (err : ε' → ε) (m : EStateM ε' τ α) (s : σ) :
    final (zoom get set err m s) = set (final (m (get s))) s := by
  rw [zoom]
  split <;> simp_all

/-! ## Relations kept by a program -/

/-- Every run of the program ends in a state related to the one it starts in. -/
def Keeps (R : σ → σ → Prop) (m : EStateM ε σ α) : Prop := ∀ s, R s (final (m s))

section Keeps

variable {R : σ → σ → Prop}

lemma Keeps.pure [Std.Refl R] (a : α) : Keeps R (Pure.pure a : EStateM ε σ α) :=
  fun s => Std.Refl.refl s

lemma Keeps.throw [Std.Refl R] (e : ε) : Keeps R (MonadExcept.throw e : EStateM ε σ α) :=
  fun s => Std.Refl.refl s

lemma Keeps.get [Std.Refl R] : Keeps R (MonadState.get : EStateM ε σ σ) :=
  fun s => Std.Refl.refl s

lemma Keeps.ofExcept [Std.Refl R] (x : Except ε α) : Keeps R (Handler.ofExcept x : EStateM ε σ α) := by
  intro s
  rw [final_ofExcept]
  exact Std.Refl.refl s

lemma Keeps.modify {f : σ → σ} (h : ∀ s, R s (f s)) :
    Keeps R (modify f : EStateM ε σ PUnit) := h

lemma Keeps.bind [IsTrans σ R] {m : EStateM ε σ α} {f : α → EStateM ε σ β} (hm : Keeps R m)
    (hf : ∀ a, Keeps R (f a)) : Keeps R (m >>= f) := by
  intro s
  have hs := hm s
  rcases h : m s with ⟨a, s₁⟩ | ⟨e, s₁⟩
  · rw [bind_ok h]
    rw [h] at hs
    exact IsTrans.trans _ _ _ hs (hf a s₁)
  · rw [bind_error h]
    rw [h] at hs
    exact hs

end Keeps

/-! ## Errors apart -/

/-- Every run of the program that ends normally ends in a state related to the first one by `R`, and
every run that stops with an error in one related by `E`. -/
structure Ends (R E : σ → σ → Prop) (m : EStateM ε σ α) : Prop where
  ok : ∀ {s s' : σ} {a : α}, m s = .ok a s' → R s s'
  error : ∀ {s s' : σ} {e : ε}, m s = .error e s' → E s s'

section Ends

variable {R E : σ → σ → Prop} {m : EStateM ε σ α} {f : α → EStateM ε σ β}

lemma Ends.of_cases (h : ∀ s, (∃ a s', m s = .ok a s' ∧ R s s') ∨ ∃ e s', m s = .error e s' ∧ E s s') :
    Ends R E m where
  ok {s} _ _ hrun := by
    rcases h s with ⟨_, _, hok, hs⟩ | ⟨_, _, herror, -⟩
    · rw [hrun] at hok
      cases hok
      exact hs
    · rw [hrun] at herror
      cases herror
  error {s} _ _ hrun := by
    rcases h s with ⟨_, _, hok, -⟩ | ⟨_, _, herror, hs⟩
    · rw [hrun] at hok
      cases hok
    · rw [hrun] at herror
      cases herror
      exact hs

lemma Keeps.ends (h : Keeps R m) (hstop : ∀ s s', R s s' → E s s') : Ends R E m where
  ok {s} _ _ hrun := by
    have hs := h s
    rwa [hrun] at hs
  error {s} _ _ hrun := by
    have hs := h s
    rw [hrun] at hs
    exact hstop _ _ hs

lemma Ends.final (h : Ends R E m) (hstop : ∀ s s', R s s' → E s s') (s : σ) :
    E s (Handler.final (m s)) := by
  rcases hrun : m s with ⟨a, s'⟩ | ⟨e, s'⟩
  · exact hstop _ _ (h.ok hrun)
  · exact h.error hrun

lemma Ends.keeps (h : Ends R R m) : Keeps R m := h.final fun _ _ hs => hs

lemma Ends.bind [IsTrans σ R] (hm : Ends R E m) (hf : ∀ a, Ends R E (f a))
    (hafter : ∀ s₁ s₂ s₃, R s₁ s₂ → E s₂ s₃ → E s₁ s₃) : Ends R E (m >>= f) where
  ok hrun := by
    obtain ⟨a, s₁, hfirst, hrest⟩ := bind_eq_ok_iff.mp hrun
    exact IsTrans.trans _ _ _ (hm.ok hfirst) ((hf a).ok hrest)
  error {s} _ _ hrun := by
    rcases hfirst : m s with ⟨a, s₁⟩ | ⟨e, s₁⟩
    · rw [bind_ok hfirst] at hrun
      exact hafter _ _ _ (hm.ok hfirst) ((hf a).error hrun)
    · rw [bind_error hfirst] at hrun
      obtain ⟨rfl, rfl⟩ := EStateM.Result.error.inj hrun
      exact hm.error hfirst

end Ends

/-! ## Pre- and postconditions -/

/-- From every state with the precondition the program ends, normally or with an error, in a
state with the postcondition. -/
def Ensures (P Q : σ → Prop) (m : EStateM ε σ α) : Prop := ∀ s, P s → Q (final (m s))

section Ensures

variable {P Q R : σ → Prop} {m : EStateM ε σ α} {f : α → EStateM ε σ β}

lemma Ensures.pure (h : ∀ s, P s → Q s) (a : α) : Ensures P Q (Pure.pure a : EStateM ε σ α) := h

/-- A sequence of two programs; an error of the first one ends it. -/
lemma Ensures.bind (hm : Ensures P Q m) (hf : ∀ a, Ensures Q R (f a)) (herror : ∀ s, Q s → R s) :
    Ensures P R (m >>= f) := by
  intro s hs
  have hmid := hm s hs
  rcases h : m s with ⟨a, s₁⟩ | ⟨e, s₁⟩
  · rw [bind_ok h]
    rw [h] at hmid
    exact hf a s₁ hmid
  · rw [bind_error h]
    rw [h] at hmid
    exact herror s₁ hmid

end Ensures

end Handler

end ZenoChain
