/-
# Runs of a step function

A run folds a step function over its events.  The trace of a run has each event with the state
that it meets, so that a property of single steps can be asked of all steps of a run.
-/
import Mathlib.Data.Nat.Notation

namespace ZenoChain.Trace

/-- A list with one more entry is split at an entry before the last one, or at that one. -/
lemma concat_eq_append_cons {α : Type} {l before after : List α} {x a : α}
    (h : l ++ [x] = before ++ a :: after) :
    (∃ after', l = before ++ a :: after' ∧ after = after' ++ [x]) ∨
      l = before ∧ x = a ∧ after = [] := by
  rcases List.append_eq_append_iff.mp h with ⟨rest, rfl, hlast⟩ | ⟨rest, rfl, hrest⟩
  · obtain ⟨rfl, hx⟩ := List.append_eq_singleton_iff.mp hlast.symm |>.resolve_right fun hc =>
      List.cons_ne_nil _ _ hc.2
    obtain ⟨rfl, rfl⟩ := List.cons.inj hx
    exact .inr ⟨(List.append_nil _).symm, rfl, rfl⟩
  · cases rest with
    | nil =>
      obtain ⟨rfl, rfl⟩ := List.cons.inj hrest
      exact .inr ⟨List.append_nil _, rfl, rfl⟩
    | cons b after' =>
      obtain ⟨rfl, rfl⟩ := List.cons.inj hrest
      exact .inl ⟨after', rfl, rfl⟩

variable {σ ε : Type} (step : σ → ε → σ)

/-- The events of a run, each with the state that it meets. -/
def along : σ → List ε → List (σ × ε)
  | _, [] => []
  | s, event :: events => (s, event) :: along (step s event) events

variable {step}

lemma along_append (s : σ) (l m : List ε) :
    along step s (l ++ m) = along step s l ++ along step (l.foldl step s) m := by
  induction l generalizing s with
  | nil => rfl
  | cons event l ih => rw [List.cons_append, along, ih, along, List.foldl_cons, List.cons_append]

/-- The events of a trace are those of the run. -/
lemma mem_of_mem_along {s : σ} {events : List ε} {e : σ × ε} (he : e ∈ along step s events) :
    e.2 ∈ events := by
  induction events generalizing s with
  | nil => cases he
  | cons event events ih =>
    rcases List.mem_cons.mp he with rfl | he
    · exact List.mem_cons_self
    · exact List.mem_cons_of_mem _ (ih he)

/-- What each step keeps, under a condition on the step, holds all along a run. -/
lemma keeps {I : σ → Prop} {C : σ → ε → Prop} {s : σ} {events : List ε}
    (hstep : ∀ s event, I s → C s event → I (step s event)) (h : I s)
    (hall : ∀ e ∈ along step s events, C e.1 e.2) :
    (∀ e ∈ along step s events, I e.1) ∧ I (events.foldl step s) := by
  induction events generalizing s with
  | nil => exact ⟨fun e he => (List.not_mem_nil he).elim, h⟩
  | cons event events ih =>
    rw [along, List.forall_mem_cons] at hall
    obtain ⟨hrest, hend⟩ := ih (hstep s event h hall.1) hall.2
    exact ⟨List.forall_mem_cons.mpr ⟨h, hrest⟩, hend⟩

/-- What no step lowers is highest at the end of a run. -/
lemma le_foldl {f : σ → ℕ} (hstep : ∀ s event, f s ≤ f (step s event)) (s : σ) (events : List ε) :
    f s ≤ f (events.foldl step s) := by
  induction events generalizing s with
  | nil => exact Nat.le_refl _
  | cons event events ih => exact Nat.le_trans (hstep s event) (ih _)

lemma le_foldl_of_mem {f : σ → ℕ} (hstep : ∀ s event, f s ≤ f (step s event)) {s : σ}
    {events : List ε} {e : σ × ε} (he : e ∈ along step s events) :
    f (step e.1 e.2) ≤ f (events.foldl step s) := by
  induction events generalizing s with
  | nil => cases he
  | cons event events ih =>
    rcases List.mem_cons.mp he with rfl | he
    · exact le_foldl hstep _ _
    · exact ih he

/-- What is read off a run follows another run, in all prefixes, exactly if it does so in each
step. -/
lemma follows_iff {β : Type} {f : σ → β} {g : β → ε → β} {s : σ} {events : List ε} :
    (∀ l m, events = l ++ m → f (l.foldl step s) = l.foldl g (f s)) ↔
      ∀ e ∈ along step s events, f (step e.1 e.2) = g (f e.1) e.2 := by
  induction events generalizing s with
  | nil =>
    refine iff_of_true (fun l m h => ?_) nofun
    rw [(List.append_eq_nil_iff.mp h.symm).1]
    rfl
  | cons event events ih =>
    rw [along, List.forall_mem_cons, ← ih]
    constructor
    · intro h
      have hfirst : f (step s event) = g (f s) event := h [event] events rfl
      refine ⟨hfirst, fun l m hl => ?_⟩
      rw [hfirst]
      exact h (event :: l) m (congrArg (event :: ·) hl)
    · rintro ⟨hfirst, hrest⟩ l m hl
      cases l with
      | nil => rfl
      | cons event' l =>
        obtain ⟨rfl, htail⟩ := List.cons.inj hl
        rw [List.foldl_cons, List.foldl_cons, ← hfirst]
        exact hrest l m htail

/-- A property of all states of a run is one of its first state and of the state after each step. -/
lemma forall_prefix_iff {P : σ → Prop} {s : σ} {events : List ε} :
    (∀ l m, events = l ++ m → P (l.foldl step s)) ↔
      P s ∧ ∀ e ∈ along step s events, P (step e.1 e.2) := by
  induction events generalizing s with
  | nil =>
    refine ⟨fun h => ⟨h [] [] rfl, nofun⟩, fun h l m hl => ?_⟩
    rw [(List.append_eq_nil_iff.mp hl.symm).1]
    exact h.1
  | cons event events ih =>
    rw [along, List.forall_mem_cons, ← ih]
    constructor
    · exact fun h => ⟨h [] _ rfl, fun l m hl => h (event :: l) m (congrArg (event :: ·) hl)⟩
    · rintro ⟨hfirst, hrest⟩ l m hl
      cases l with
      | nil => exact hfirst
      | cons event' l =>
        obtain ⟨rfl, htail⟩ := List.cons.inj hl
        exact hrest l m htail

/-- What a step keeps exactly under a condition holds all along a run exactly if every step meets
the condition. -/
lemma forall_prefix_iff_of_step {P : σ → Prop} {C : σ → ε → Prop} {s : σ} {events : List ε}
    (hstep : ∀ s event, P s → (P (step s event) ↔ C s event)) (h : P s) :
    (∀ l m, events = l ++ m → P (l.foldl step s)) ↔ ∀ e ∈ along step s events, C e.1 e.2 := by
  rw [forall_prefix_iff]
  constructor
  · rintro ⟨-, hafter⟩ e he
    have hbefore : P e.1 :=
      (keeps (C := fun s event => P (step s event)) (fun _ _ _ hc => hc) h hafter).1 e he
    exact (hstep _ _ hbefore).mp (hafter e he)
  · intro hall
    have hbefore := (keeps (fun s event hs hc => (hstep s event hs).mpr hc) h hall).1
    exact ⟨h, fun e he => (hstep _ _ (hbefore e he)).mpr (hall e he)⟩

end ZenoChain.Trace
