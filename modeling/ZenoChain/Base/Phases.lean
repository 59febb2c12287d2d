/-
# Programs that go through phases

A program goes through phases if each of its actions is allowed in the phase that it is in and
leads, with the answer, to the next phase.  Programs of a run keep going through their phases,
whatever the actions of the others do to the memory.
-/
import ZenoChain.Base.Interleaving

namespace ZenoChain

/-- A memory that is one record: any two actions on it conflict. -/
abbrev SharedMemory.whole (State Action : Type) (Answer : Action → Type)
    (answer : (x : Action) → State → Answer x) (after : Action → State → State) :
    SharedMemory where
  State := State
  Record := Unit
  Content _ := State
  content s _ := s
  Action := Action
  Answer := Answer
  answer := answer
  after := after
  reads _ := Set.univ
  writes _ := Set.univ
  ext _ _ h := h ()
  answer_congr x _ _ h := congrArg (answer x) (h () trivial)
  after_congr x _ _ h _ _ := congrArg (after x) (h () trivial)
  after_frame _ _ _ hr := absurd trivial hr

variable {M : SharedMemory} {α β ε Q : Type}

namespace Program

/-- The program goes through phases, from one phase on, and ends as the last argument says: what it
does in a phase is allowed there. -/
inductive Obeys (R : Q → (x : M.Action) → M.Answer x → Q → Prop) (post : α → Q → Prop) :
    Q → Program M α → Prop
  | done {q : Q} {a : α} (h : post a q) : Obeys R post q (.done a)
  | act {q : Q} {x : M.Action} {next : M.Answer x → Program M α} (q' : M.Answer x → Q)
      (here : ∀ answer, R q x answer (q' answer))
      (rest : ∀ answer, Obeys R post (q' answer) (next answer)) : Obeys R post q (.act x next)

variable {R : Q → (x : M.Action) → M.Answer x → Q → Prop} {A : M.Action → Prop} {q : Q}
  {p : Program M α} {f : α → Program M β} {post : α → Q → Prop} {post' : β → Q → Prop}

lemma Obeys.bind (hp : p.Obeys R post q) (hf : ∀ a q', post a q' → (f a).Obeys R post' q') :
    (p >>= f).Obeys R post' q := by
  induction hp with
  | done h => exact hf _ _ h
  | act q' here _ ih => exact .act q' here fun answer => ih answer

lemma Obeys.mono {weaker : α → Q → Prop} (hp : p.Obeys R post q)
    (h : ∀ a q', post a q' → weaker a q') : p.Obeys R weaker q := by
  induction hp with
  | done hend => exact .done (h _ _ hend)
  | act q' here _ ih => exact .act q' here ih

/-- Actions that do not end a phase. -/
lemma Only.obeys (hA : ∀ x, A x → ∀ answer, R q x answer q) (hp : p.Only A) :
    p.Obeys R (fun _ q' => q' = q) q := by
  induction hp with
  | done a => exact .done rfl
  | act here _ ih => exact .act (fun _ => q) (hA _ here) ih

/-- The program runs as a program on a memory with more actions. -/
def lift {M' : SharedMemory} (action : M.Action → M'.Action)
    (answer : (x : M.Action) → M'.Answer (action x) → M.Answer x) :
    Program M α → Program M' α
  | done a => done a
  | act x next => act (action x) fun y => (next (answer x y)).lift action answer

lemma Obeys.lift {M' : SharedMemory} {action : M.Action → M'.Action}
    {answer : (x : M.Action) → M'.Answer (action x) → M.Answer x}
    {R' : Q → (x : M'.Action) → M'.Answer x → Q → Prop}
    (hR : ∀ q x y q', R q x (answer x y) q' → R' q (action x) y q') (hp : p.Obeys R post q) :
    (p.lift action answer).Obeys R' post q := by
  induction hp with
  | done h => exact .done h
  | act q' here _ ih =>
    exact .act (fun y => q' (answer _ y)) (fun y => hR _ _ _ _ (here _)) fun y => ih _

/-- A program that may fail goes through phases, and what it returns, if it returns something, goes
with the phase that it ends in. -/
def Reaches (R : Q → (x : M.Action) → M.Answer x → Q → Prop) (p : ExceptT ε (Program M) α)
    (post : α → Q → Prop) (q : Q) : Prop :=
  p.run.Obeys R (fun r q' => ∀ a, r = .ok a → post a q') q

section

variable {p : ExceptT ε (Program M) α} {f : α → ExceptT ε (Program M) β}

lemma Reaches.pure {a : α} (h : post a q) :
    Reaches R (Pure.pure a : ExceptT ε (Program M) α) post q := by
  refine Obeys.done fun b hb => ?_
  cases hb
  exact h

lemma Reaches.throw (err : ε) :
    Reaches R (MonadExcept.throw err : ExceptT ε (Program M) α) post q :=
  Obeys.done nofun

lemma Reaches.ofExcept {x : Except ε α} (h : ∀ a, x = .ok a → post a q) :
    Reaches R (ExceptT.mk (.done x)) post q := Obeys.done h

lemma Reaches.bind (hp : Reaches R p post q) (hf : ∀ a q', post a q' → Reaches R (f a) post' q') :
    Reaches R (p >>= f) post' q := by
  rw [Reaches, ExceptT.run_bind]
  refine Obeys.bind hp fun r q' hend => ?_
  rcases r with err | a
  · exact .done nofun
  · exact hf a q' (hend a rfl)

lemma Reaches.mono {weaker : α → Q → Prop} (hp : Reaches R p post q)
    (h : ∀ a q', post a q' → weaker a q') : Reaches R p weaker q :=
  Obeys.mono hp fun _ _ hend a ha => h _ _ (hend a ha)

/-- One action. -/
lemma Reaches.act {x : M.Action} (q' : M.Answer x → Q) (h : ∀ answer, R q x answer (q' answer)) :
    Reaches R (ExceptT.lift (.act x .done) : ExceptT ε (Program M) (M.Answer x))
      (fun answer q₁ => q₁ = q' answer) q := by
  refine Obeys.act q' h fun answer => .done fun a ha => ?_
  cases ha
  rfl

lemma Reaches.of_only (hA : ∀ x, A x → ∀ answer, R q x answer q) (hp : p.run.Only A) :
    Reaches R p (fun _ q' => q' = q) q :=
  (hp.obeys hA).mono fun _ _ hend _ _ => hend

end

end Program

namespace Interleaving

variable {J : Type} [DecidableEq J] {c : Interleaving M J α} {j : J}
  {R : Q → (x : M.Action) → M.Answer x → Q → Prop} {post : α → Q → Prop} {q : J → Q}

/-- An action takes its program to the next phase and leaves the others in theirs. -/
lemma obeys_step (h : ∀ i, (c.rest i).Obeys R post (q i)) {x : M.Action}
    (hx : (c.rest j).next? = some x) :
    (c.step j).memory = M.after x c.memory ∧ ∃ q', R (q j) x (M.answer x c.memory) q' ∧
      ∀ i, ((c.step j).rest i).Obeys R post (Function.update q j q' i) := by
  have hj := h j
  rcases hrest : c.rest j with a | ⟨y, next⟩
  · rw [hrest] at hx
    cases hx
  · rw [hrest] at hx hj
    cases hx
    cases hj with
    | act q' here rest =>
      rw [step_of_act hrest]
      refine ⟨rfl, q' _, here _, fun i => ?_⟩
      dsimp only
      by_cases hi : i = j
      · obtain rfl := hi
        rw [Function.update_self, Function.update_self]
        exact rest _
      · rw [Function.update_of_ne hi, Function.update_of_ne hi]
        exact h i

/-- A program without a next action stands still. -/
lemma step_of_next?_none (h : (c.rest j).next? = none) : c.step j = c := by
  rcases hrest : c.rest j with a | ⟨x, next⟩
  · exact step_of_done hrest
  · rw [hrest] at h
    cases h

/-- Every action of a trace was the next one of its program at some time. -/
lemma exists_of_mem_trace {l : List J} {e : J × M.Action} (he : e ∈ c.trace l) :
    ∃ earlier later, l = earlier ++ e.1 :: later ∧
      ((c.run earlier).rest e.1).next? = some e.2 := by
  induction l generalizing c with
  | nil => cases he
  | cons j l ih =>
    rcases List.mem_append.mp he with he | he
    · obtain ⟨x, hx, rfl⟩ := Option.map_eq_some_iff.mp (Option.mem_toList.mp he)
      exact ⟨[], l, rfl, hx⟩
    · obtain ⟨earlier, later, rfl, hnext⟩ := ih he
      exact ⟨j :: earlier, later, rfl, hnext⟩

lemma trace_concat_of_some {l : List J} {x : M.Action}
    (hx : ((c.run l).rest j).next? = some x) : c.trace (l ++ [j]) = c.trace l ++ [(j, x)] := by
  rw [trace_append, trace, hx]
  rfl

lemma run_concat (l : List J) : c.run (l ++ [j]) = (c.run l).step j := by
  rw [run_append]
  rfl

end Interleaving

end ZenoChain
