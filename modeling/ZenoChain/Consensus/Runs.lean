/-
# Runs of the engine

A run handles one event after the other.  What every move keeps holds throughout every run;
and a handler only adds effects to the journal.
-/
import ZenoChain.Consensus.Handlers

namespace ZenoChain

namespace ConsensusEngine

variable [Hashing] [Revm] {e : ConsensusEngine} {w₀ w w' : World} {event : Event}

/-- A process handles an event that meets a condition. -/
def Handles (e : ConsensusEngine) (Cond : World → Event → Prop) (w w' : World) : Prop :=
  ∃ event, Cond w event ∧ w' = e.handle w event

/-- A process handles any number of events, each of which meets a condition. -/
abbrev Run (e : ConsensusEngine) (Cond : World → Event → Prop) : World → World → Prop :=
  Relation.ReflTransGen (e.Handles Cond)

/-- Every event of a sequence, handled one after the other, meets a condition. -/
def Meets (e : ConsensusEngine) (Cond : World → Event → Prop) : World → List Event → Prop
  | _, [] => True
  | w, event :: events => Cond w event ∧ Meets e Cond (e.handle w event) events

instance decidableMeets (e : ConsensusEngine) (Cond : World → Event → Prop)
    [∀ w event, Decidable (Cond w event)] :
    ∀ (w : World) (events : List Event), Decidable (Meets e Cond w events)
  | _, [] => inferInstanceAs (Decidable True)
  | w, event :: events =>
    have := decidableMeets e Cond (e.handle w event) events
    inferInstanceAs (Decidable (Cond w event ∧ Meets e Cond (e.handle w event) events))

/-- A sequence of events makes a run. -/
lemma run_of_meets {Cond : World → Event → Prop} (events : List Event)
    (h : e.Meets Cond w events) : e.Run Cond w (events.foldl e.handle w) := by
  induction events generalizing w with
  | nil => exact .refl
  | cons event events ih => exact .head ⟨event, h.1, rfl⟩ (ih h.2)

/-- Any sequence of events makes a run over any events. -/
lemma run_foldl (events : List Event) :
    e.Run (fun _ _ => True) w (events.foldl e.handle w) := by
  induction events generalizing w with
  | nil => exact .refl
  | cons event events ih => exact .head ⟨event, trivial, rfl⟩ ih

/-- What every move keeps, the handler of an event keeps. -/
theorem invariant_of_moves (Inv : World → Prop) (hinv : Inv w₀)
    (hmove : ∀ w w', Inv w → e.Move w₀ event w w' → Inv w') : Inv (e.handle w₀ event) := by
  have key : ∀ w, e.Moves w₀ event w₀ w → Inv w := by
    intro w hmoves
    induction hmoves with
    | refl => exact hinv
    | tail _ hstep ih => exact hmove _ _ ih hstep
  exact key _ (moves_handle e w₀ event)

/-- What every move keeps while events meet a condition holds throughout every run. -/
theorem invariant_of_run {Cond : World → Event → Prop} (Inv : World → Prop) (hinv : Inv w)
    (hmove : ∀ w₀ event, Cond w₀ event → ∀ w w', Inv w → e.Move w₀ event w w' → Inv w')
    (hrun : e.Run Cond w w') : Inv w' := by
  induction hrun with
  | refl => exact hinv
  | tail _ hstep ih =>
    obtain ⟨event, hcond, rfl⟩ := hstep
    exact invariant_of_moves Inv ih (hmove _ event hcond)

/-! ## Handlers only append to the journal -/

/-- The effects that handling an event has. -/
def effectsOf (e : ConsensusEngine) (w : World) (event : Event) : List Effect :=
  (e.handle w event).disk.journal.drop w.disk.journal.length

/-- A move has some effects, one after the other. -/
lemma Move.recordAll (h : e.Move w₀ event w w') : ∃ es, w'.disk = w.disk.recordAll es := by
  cases h with
  | quiet => exact ⟨_, rfl⟩
  | note => exact ⟨_, rfl⟩
  | accept => exact ⟨[], rfl⟩
  | @accuse item =>
    exact ⟨[.write (.appendConsensusWal
      (.evidenceRecorded item.height item.round item.validatorAddress item.reason))], rfl⟩
  | cast => exact ⟨_, rfl⟩
  | @count vote =>
    exact ⟨[.write (.appendConsensusWal (.voteRecorded vote.height vote.round vote.step
      vote.blockHash vote.validatorAddress))], rfl⟩
  | report => exact ⟨_, rfl⟩
  | lock => exact ⟨_, rfl⟩
  | finalize _ _ _ hcommits hsettles =>
    obtain ⟨es, rfl, -⟩ := hcommits.effects
    obtain ⟨es', rfl⟩ := hsettles.recordAll
    exact ⟨es ++ es', (Disk.recordAll_append _ _ _).symm⟩
  | stall _ _ _ hcommits | adopt _ _ _ hcommits =>
    obtain ⟨es, hd, -⟩ := hcommits.effects
    exact ⟨es, hd⟩
  | nextRound => exact ⟨[], rfl⟩

/-- The disk after an event is the one before it with the effects of the handler. -/
theorem disk_handle (e : ConsensusEngine) (w : World) (event : Event) :
    (e.handle w event).disk = w.disk.recordAll (e.effectsOf w event) := by
  have key : ∃ es, (e.handle w event).disk = w.disk.recordAll es := by
    refine invariant_of_moves (fun w' => ∃ es, w'.disk = w.disk.recordAll es) ⟨[], rfl⟩ ?_
    rintro w₁ w₂ ⟨es, hes⟩ hmove
    obtain ⟨es', hes'⟩ := hmove.recordAll
    exact ⟨es ++ es', by rw [hes', hes, Disk.recordAll_append]⟩
  obtain ⟨es, hes⟩ := key
  have heffects : e.effectsOf w event = es := by
    rw [effectsOf, hes, Disk.journal_recordAll, List.drop_left]
  rw [heffects, hes]

/-- What every move keeps, the handler of an event keeps.  The disk in between has some of the
effects of the handler, the first ones, and every note has its reason. -/
theorem invariant_of_hearings (Inv : World → Prop) (hinv : Inv w₀)
    (hmove : ∀ w w' es, es <+: e.effectsOf w₀ event → w.disk = w₀.disk.recordAll es → Inv w →
      e.Hears w₀ event w w' → Inv w') : Inv (e.handle w₀ event) := by
  have key : ∀ w, e.Hearings w₀ event w (e.handle w₀ event) →
      (∃ rest, (e.handle w₀ event).disk = w.disk.recordAll rest) ∧
      ∀ es, w.disk = w₀.disk.recordAll es → Inv w → Inv (e.handle w₀ event) := by
    intro w hmoves
    induction hmoves using Relation.ReflTransGen.head_induction_on with
    | refl => exact ⟨⟨[], rfl⟩, fun _ _ h => h⟩
    | @head w w' hfirst _ ih =>
      obtain ⟨new, hnew⟩ := hfirst.move.recordAll
      obtain ⟨⟨rest, hrest⟩, hend⟩ := ih
      have hall : (e.handle w₀ event).disk = w.disk.recordAll (new ++ rest) := by
        rw [hrest, hnew, Disk.recordAll_append]
      refine ⟨⟨_, hall⟩, fun es hes h => ?_⟩
      -- The effects until now are the first ones of the handler.
      have heffects : e.effectsOf w₀ event = es ++ (new ++ rest) := by
        rw [effectsOf, hall, hes, Disk.journal_recordAll, Disk.journal_recordAll,
          List.append_assoc, List.drop_left]
      refine hend (es ++ new) (by rw [hnew, hes, Disk.recordAll_append]) ?_
      exact hmove w w' es (heffects ▸ List.prefix_append _ _) hes h hfirst
  exact (key w₀ (hearings_handle e w₀ event)).2 [] rfl hinv

/-- What every move keeps, the handler of an event keeps; the disk in between has some of the
effects of the handler, the first ones. -/
theorem invariant_of_moves_within (Inv : World → Prop) (hinv : Inv w₀)
    (hmove : ∀ w w' es, es <+: e.effectsOf w₀ event → w.disk = w₀.disk.recordAll es → Inv w →
      e.Move w₀ event w w' → Inv w') : Inv (e.handle w₀ event) :=
  invariant_of_hearings Inv hinv fun w w' es hes hw h hhears => hmove w w' es hes hw h hhears.move

end ConsensusEngine

end ZenoChain
