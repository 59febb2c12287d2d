/-
# Interleaved programs

Programs act on a shared memory one action at a time, and a schedule says whose action is next.
Two actions conflict if they touch a common record that one of them writes.  If the programs of a
run can be ordered such that of two conflicting actions the earlier one belongs to the program
that comes first, then the run does the same as the programs one after the other in that order.
-/
import Mathlib.Data.List.Basic
import Mathlib.Data.Set.Insert
import Mathlib.Logic.Function.Basic
import Mathlib.Tactic.Set

namespace ZenoChain

/-- A shared memory: its records with their contents, and the actions on it with the records
that they read and write. -/
structure SharedMemory where
  State : Type
  Record : Type
  Content : Record → Type
  content : State → (r : Record) → Content r
  Action : Type
  Answer : Action → Type
  answer : (x : Action) → State → Answer x
  after : Action → State → State
  reads : Action → Set Record
  writes : Action → Set Record
  /-- A state is what its records contain. -/
  ext : ∀ s s', (∀ r, content s r = content s' r) → s = s'
  /-- Answers come from the records that are read. -/
  answer_congr : ∀ x s s', (∀ r ∈ reads x, content s r = content s' r) → answer x s = answer x s'
  /-- So does what is written. -/
  after_congr : ∀ x s s', (∀ r ∈ reads x, content s r = content s' r) →
    ∀ r ∈ writes x, content (after x s) r = content (after x s') r
  /-- Other records are left alone. -/
  after_frame : ∀ x s, ∀ r ∉ writes x, content (after x s) r = content s r

namespace SharedMemory

variable {M : SharedMemory} {x y : M.Action}

/-- Two actions touch a common record that one of them writes. -/
def Conflict (x y : M.Action) : Prop :=
  ∃ r, (r ∈ M.writes x ∧ r ∈ M.writes y) ∨ (r ∈ M.writes x ∧ r ∈ M.reads y) ∨
    (r ∈ M.reads x ∧ r ∈ M.writes y)

lemma Conflict.symm (h : M.Conflict x y) : M.Conflict y x := by
  obtain ⟨r, ⟨hx, hy⟩ | ⟨hx, hy⟩ | ⟨hx, hy⟩⟩ := h
  · exact ⟨r, .inl ⟨hy, hx⟩⟩
  · exact ⟨r, .inr (.inr ⟨hy, hx⟩)⟩
  · exact ⟨r, .inr (.inl ⟨hy, hx⟩)⟩

/-- What one action reads is not changed by another one that does not conflict. -/
lemma content_after_of_reads (h : ¬ M.Conflict x y) (s : M.State) :
    ∀ r ∈ M.reads y, M.content (M.after x s) r = M.content s r :=
  fun r hr => M.after_frame x s r fun hx => h ⟨r, .inr (.inl ⟨hx, hr⟩)⟩

lemma answer_after (h : ¬ M.Conflict x y) (s : M.State) :
    M.answer y (M.after x s) = M.answer y s :=
  M.answer_congr y _ _ (content_after_of_reads h s)

/-- Actions that do not conflict commute. -/
lemma after_comm (h : ¬ M.Conflict x y) (s : M.State) :
    M.after y (M.after x s) = M.after x (M.after y s) := by
  have h' : ¬ M.Conflict y x := fun hc => h hc.symm
  refine M.ext _ _ fun r => ?_
  by_cases hx : r ∈ M.writes x
  · have hy : r ∉ M.writes y := fun hy => h ⟨r, .inl ⟨hx, hy⟩⟩
    rw [M.after_frame y _ r hy]
    exact (M.after_congr x _ _ (content_after_of_reads h' s) r hx).symm
  · rw [M.after_frame x _ r hx]
    by_cases hy : r ∈ M.writes y
    · exact M.after_congr y _ _ (content_after_of_reads h s) r hy
    · rw [M.after_frame y _ r hy, M.after_frame x _ r hx, M.after_frame y _ r hy]

end SharedMemory

/-! ## Programs -/

/-- A program on a shared memory: it is done, or it acts and goes on with the answer. -/
inductive Program (M : SharedMemory) (α : Type) : Type
  | done (result : α)
  | act (x : M.Action) (next : M.Answer x → Program M α)

namespace Program

variable {M : SharedMemory} {α β : Type}

/-- One program after the other. -/
def bind : Program M α → (α → Program M β) → Program M β
  | done a, f => f a
  | act x next, f => act x fun answer => (next answer).bind f

instance : Monad (Program M) where
  pure := done
  bind := bind

/-- The action that a program does next. -/
def next? : Program M α → Option M.Action
  | done _ => none
  | act x _ => some x

/-- The result of a program that is done. -/
def result? : Program M α → Option α
  | done a => some a
  | act _ _ => none

lemma eq_done_of_result? {p : Program M α} {a : α} (h : p.result? = some a) : p = .done a := by
  cases p with
  | done b => exact congrArg _ (Option.some.inj h)
  | act x next => cases h

/-- What a program returns and leaves behind when nothing comes in between. -/
def alone : Program M α → M.State → α × M.State
  | done a, s => (a, s)
  | act x next, s => (next (M.answer x s)).alone (M.after x s)

@[simp] lemma alone_pure (a : α) (s : M.State) : alone (pure a : Program M α) s = (a, s) := rfl

lemma alone_bind (p : Program M α) (f : α → Program M β) (s : M.State) :
    (p >>= f).alone s = (f (p.alone s).1).alone (p.alone s).2 := by
  induction p generalizing s with
  | done a => rfl
  | act x next ih => exact ih _ _

/-- What a program returns and leaves behind when its memory is part of a larger state, which others
change before each of its actions. -/
def amid {S : Type} (part : S → M.State) (put : M.State → S → S) :
    Program M α → (ℕ → S → S) → S → α × S
  | done a, _, s => (a, s)
  | act x next, others, s =>
    (next (M.answer x (part (others 0 s)))).amid part put (fun k => others (k + 1))
      (put (M.after x (part (others 0 s))) (others 0 s))

/-- If the others change nothing, the program is alone on its part of the state. -/
lemma amid_id {S : Type} {part : S → M.State} {put : M.State → S → S}
    (hpart : ∀ m s, part (put m s) = m) (hput : ∀ s, put (part s) s = s)
    (htwice : ∀ m m' s, put m (put m' s) = put m s) (p : Program M α) (s : S) :
    p.amid part put (fun _ => id) s = ((p.alone (part s)).1, put (p.alone (part s)).2 s) := by
  induction p generalizing s with
  | done a => exact congrArg _ (hput s).symm
  | act x next ih =>
    refine (ih _ (put (M.after x (part s)) s)).trans ?_
    rw [hpart, htwice]
    rfl

/-- Every action of the program relates what the records contain before and after it, when
nothing comes in between. -/
inductive Along (R : (r : M.Record) → M.Content r → M.Content r → Prop) :
    Program M α → M.State → Prop
  | done (a : α) (s : M.State) : Along R (.done a) s
  | act {x : M.Action} {next : M.Answer x → Program M α} {s : M.State}
      (here : ∀ r, R r (M.content s r) (M.content (M.after x s) r))
      (rest : Along R (next (M.answer x s)) (M.after x s)) : Along R (.act x next) s

/-- Every action that the program may do is of a kind. -/
inductive Only (A : M.Action → Prop) : Program M α → Prop
  | done (a : α) : Only A (.done a)
  | act {x : M.Action} {next : M.Answer x → Program M α} (here : A x)
      (rest : ∀ answer, Only A (next answer)) : Only A (.act x next)

variable {R : (r : M.Record) → M.Content r → M.Content r → Prop} {A : M.Action → Prop}
  {p : Program M α} {f : α → Program M β} {s : M.State}

lemma Along.bind (hp : p.Along R s) (hf : (f (p.alone s).1).Along R (p.alone s).2) :
    (p >>= f).Along R s := by
  induction hp with
  | done a s => exact hf
  | act here _ ih => exact .act here (ih hf)

lemma Only.bind (hp : p.Only A) (hf : ∀ a, (f a).Only A) : (p >>= f).Only A := by
  induction hp with
  | done a => exact hf a
  | act here _ ih => exact .act here fun answer => ih answer

lemma Only.mono {B : M.Action → Prop} (hAB : ∀ x, A x → B x) (hp : p.Only A) : p.Only B := by
  induction hp with
  | done a => exact .done a
  | act here _ ih => exact .act (hAB _ here) ih

/-- What every action of a kind does, the actions of the program do. -/
lemma Only.along (hA : ∀ x, A x → ∀ s r, R r (M.content s r) (M.content (M.after x s) r))
    (hp : p.Only A) (s : M.State) : p.Along R s := by
  induction hp generalizing s with
  | done a => exact .done a s
  | act here _ ih => exact .act (hA _ here s) (ih _ _)

end Program

/-! ## Interleavings -/

/-- Programs in the middle of a run: the memory, and what is left of each of them. -/
structure Interleaving (M : SharedMemory) (J α : Type) where
  memory : M.State
  rest : J → Program M α

namespace Interleaving

variable {M : SharedMemory} {J α : Type} [DecidableEq J]

/-- The next action of one program. -/
def step (c : Interleaving M J α) (j : J) : Interleaving M J α :=
  match c.rest j with
  | .done _ => c
  | .act x next =>
    { memory := M.after x c.memory
      rest := Function.update c.rest j (next (M.answer x c.memory)) }

/-- A run along a schedule. -/
def run (c : Interleaving M J α) (schedule : List J) : Interleaving M J α := schedule.foldl step c

/-- The actions of a run, each with the program that it belongs to. -/
def trace : Interleaving M J α → List J → List (J × M.Action)
  | _, [] => []
  | c, j :: schedule => ((c.rest j).next?.map (j, ·)).toList ++ trace (c.step j) schedule

/-- One program runs to its end. -/
def finish (c : Interleaving M J α) (j : J) : Interleaving M J α :=
  { memory := ((c.rest j).alone c.memory).2
    rest := Function.update c.rest j (.done ((c.rest j).alone c.memory).1) }

/-- The programs run one after the other. -/
def serially (c : Interleaving M J α) (order : List J) : Interleaving M J α := order.foldl finish c

variable {c : Interleaving M J α} {i j : J}

lemma run_cons (c : Interleaving M J α) (j : J) (schedule : List J) :
    c.run (j :: schedule) = (c.step j).run schedule := rfl

lemma run_append (c : Interleaving M J α) (l m : List J) : c.run (l ++ m) = (c.run l).run m :=
  List.foldl_append

lemma trace_append (c : Interleaving M J α) (l m : List J) :
    c.trace (l ++ m) = c.trace l ++ (c.run l).trace m := by
  induction l generalizing c with
  | nil => rfl
  | cons j l ih => rw [List.cons_append, trace, ih, trace, run_cons, List.append_assoc]

lemma step_of_act {x : M.Action} {next : M.Answer x → Program M α} (h : c.rest j = .act x next) :
    c.step j = { memory := M.after x c.memory
                 rest := Function.update c.rest j (next (M.answer x c.memory)) } := by
  rw [step, h]

lemma step_of_done {a : α} (h : c.rest j = .done a) : c.step j = c := by
  rw [step, h]

lemma rest_step_of_ne (h : i ≠ j) : (c.step j).rest i = c.rest i := by
  rw [step]
  split
  · rfl
  · exact Function.update_of_ne h _ _

lemma rest_run_of_notMem {l : List J} (h : i ∉ l) : (c.run l).rest i = c.rest i := by
  induction l generalizing c with
  | nil => rfl
  | cons j l ih =>
    obtain ⟨hj, hl⟩ := List.ne_and_not_mem_of_not_mem_cons h
    rw [run_cons, ih hl, rest_step_of_ne hj]

lemma mem_of_mem_trace {l : List J} {e : J × M.Action} (he : e ∈ c.trace l) : e.1 ∈ l := by
  induction l generalizing c with
  | nil => cases he
  | cons j l ih =>
    rcases List.mem_append.mp he with he | he
    · obtain ⟨x, -, rfl⟩ := Option.map_eq_some_iff.mp (Option.mem_toList.mp he)
      exact List.mem_cons_self
    · exact List.mem_cons_of_mem _ (ih he)

/-- A record that no action writes is left alone. -/
lemma content_run {r : M.Record} {l : List J} (h : ∀ e ∈ c.trace l, r ∉ M.writes e.2) :
    M.content (c.run l).memory r = M.content c.memory r := by
  induction l generalizing c with
  | nil => rfl
  | cons j l ih =>
    rw [run_cons, ih fun e he => h e (List.mem_append_right _ he)]
    rcases hrest : c.rest j with a | ⟨x, next⟩
    · rw [step_of_done hrest]
    · rw [step_of_act hrest]
      refine M.after_frame x _ r (h (j, x) (List.mem_append_left _ ?_))
      rw [hrest]
      exact List.mem_singleton_self _

/-! ## Moving actions that do not conflict -/

/-- Two programs whose next actions do not conflict may act in either order. -/
lemma step_comm (hne : i ≠ j) (h : ∀ x y, (c.rest i).next? = some x → (c.rest j).next? = some y →
    ¬ M.Conflict x y) : (c.step i).step j = (c.step j).step i := by
  have hi : (c.step j).rest i = c.rest i := rest_step_of_ne hne
  have hj : (c.step i).rest j = c.rest j := rest_step_of_ne hne.symm
  rcases hresti : c.rest i with a | ⟨x, next⟩
  · rw [step_of_done hresti, step_of_done (hi.trans hresti)]
  · rcases hrestj : c.rest j with a | ⟨y, next'⟩
    · rw [step_of_done hrestj, step_of_done (hj.trans hrestj)]
    · have hxy := h x y (by rw [hresti]; rfl) (by rw [hrestj]; rfl)
      have hyx : ¬ M.Conflict y x := fun hc => hxy hc.symm
      rw [step_of_act (hj.trans hrestj), step_of_act (hi.trans hresti), step_of_act hresti,
        step_of_act hrestj]
      dsimp only
      rw [SharedMemory.answer_after hxy, SharedMemory.answer_after hyx,
        SharedMemory.after_comm hxy, Function.update_comm hne]

/-- An action moves behind the actions of other programs that it does not conflict with. -/
lemma run_step_comm {l : List J} (hl : j ∉ l)
    (h : ∀ x, (c.rest j).next? = some x → ∀ e ∈ (c.step j).trace l, ¬ M.Conflict x e.2) :
    (c.step j).run l = (c.run l).step j ∧ (c.step j).trace l = c.trace l := by
  induction l generalizing c with
  | nil => exact ⟨rfl, rfl⟩
  | cons i l ih =>
    obtain ⟨hi, hl⟩ := List.ne_and_not_mem_of_not_mem_cons hl
    have hsame : (c.step j).rest i = c.rest i := rest_step_of_ne (Ne.symm hi)
    have hcomm : (c.step j).step i = (c.step i).step j := by
      refine step_comm hi fun x y hx hy => h x hx (i, y) (List.mem_append_left _ ?_)
      rw [hsame, hy]
      exact List.mem_singleton_self _
    obtain ⟨hrun, htrace⟩ := ih (c := c.step i) hl fun x hx e he => by
      rw [rest_step_of_ne hi] at hx
      rw [← hcomm] at he
      exact h x hx e (List.mem_append_right _ he)
    refine ⟨?_, ?_⟩
    · rw [run_cons, hcomm, hrun, run_cons]
    · rw [trace, hsame, hcomm, htrace, trace]

/-- If no other action conflicts with a later one of some programs, then these programs might as
well have run first. -/
lemma run_front (P : J → Prop) [DecidablePred P] {l : List J}
    (h : (c.trace l).Pairwise fun e e' => ¬ P e.1 → P e'.1 → ¬ M.Conflict e.2 e'.2) :
    c.run l = (c.run (l.filter (P ·))).run (l.filter (¬ P ·)) ∧
    c.trace (l.filter (P ·)) = (c.trace l).filter (P ·.1) ∧
    (c.run (l.filter (P ·))).trace (l.filter (¬ P ·)) = (c.trace l).filter (¬ P ·.1) := by
  induction l generalizing c with
  | nil => exact ⟨rfl, rfl, rfl⟩
  | cons j l ih =>
    rw [trace, List.pairwise_append] at h
    obtain ⟨hrun, hfront, hback⟩ := ih h.2.1
    by_cases hj : P j
    · have hfilter : (j :: l).filter (P ·) = j :: l.filter (P ·) :=
        List.filter_cons_of_pos (by simpa using hj)
      have hfilter' : (j :: l).filter (¬ P ·) = l.filter (¬ P ·) :=
        List.filter_cons_of_neg (by simpa using hj)
      have hhead : ((c.rest j).next?.map (j, ·)).toList.filter (P ·.1) =
          ((c.rest j).next?.map (j, ·)).toList := by
        cases (c.rest j).next? <;> simp [hj]
      have hhead' : ((c.rest j).next?.map (j, ·)).toList.filter (¬ P ·.1) = [] := by
        cases (c.rest j).next? <;> simp [hj]
      rw [hfilter, hfilter', run_cons, run_cons, trace, trace, List.filter_append,
        List.filter_append, hhead, hhead', hrun, hfront, hback]
      exact ⟨rfl, rfl, rfl⟩
    · have hfilter : (j :: l).filter (P ·) = l.filter (P ·) :=
        List.filter_cons_of_neg (by simpa using hj)
      have hfilter' : (j :: l).filter (¬ P ·) = j :: l.filter (¬ P ·) :=
        List.filter_cons_of_pos (by simpa using hj)
      have hhead : ((c.rest j).next?.map (j, ·)).toList.filter (P ·.1) = [] := by
        cases (c.rest j).next? <;> simp [hj]
      have hhead' : ((c.rest j).next?.map (j, ·)).toList.filter (¬ P ·.1) =
          ((c.rest j).next?.map (j, ·)).toList := by
        cases (c.rest j).next? <;> simp [hj]
      have hout : j ∉ l.filter (P ·) := fun hmem => hj (of_decide_eq_true (List.mem_filter.mp hmem).2)
      -- The action of `j` moves behind those of the programs that are to run first.
      obtain ⟨hmoved, hsame⟩ := run_step_comm (c := c) hout fun x hx e he => by
        rw [hfront] at he
        obtain ⟨he, hPe⟩ := List.mem_filter.mp he
        refine h.2.2 (j, x) ?_ e he hj (of_decide_eq_true hPe)
        rw [hx]
        exact List.mem_singleton_self _
      rw [hfilter, hfilter', run_cons, run_cons, trace, trace, List.filter_append,
        List.filter_append, hhead, hhead', rest_run_of_notMem hout, ← hmoved, hback, ← hsame, hfront,
        ← hrun]
      exact ⟨rfl, rfl, rfl⟩

/-! ## Runs whose conflicts can be ordered -/

/-- Of two conflicting actions of different programs, the earlier one belongs to the program that
comes first in the order. -/
def Ordered (order : List J) (events : List (J × M.Action)) : Prop :=
  events.Pairwise fun e e' => e.1 ≠ e'.1 → M.Conflict e.2 e'.2 →
    order.idxOf e.1 < order.idxOf e'.1

lemma run_of_trace_nil {l : List J} (h : c.trace l = []) : c.run l = c := by
  induction l generalizing c with
  | nil => rfl
  | cons j l ih =>
    obtain ⟨hhead, htail⟩ := List.append_eq_nil_iff.mp h
    have hstep : c.step j = c := by
      rcases hrest : c.rest j with a | ⟨x, next⟩
      · exact step_of_done hrest
      · rw [hrest] at hhead
        cases hhead
    rw [run_cons, ih htail, hstep]

/-- A program that is done after some of its actions has run to its end. -/
lemma run_eq_finish {l : List J} (hl : ∀ i ∈ l, i = j) {a : α} (h : (c.run l).rest j = .done a) :
    c.run l = c.finish j := by
  induction l generalizing c with
  | nil =>
    have hrest : c.rest j = .done a := h
    rw [finish, hrest]
    show c = { memory := c.memory, rest := Function.update c.rest j (.done a) }
    rw [← hrest, Function.update_eq_self]
  | cons i l ih =>
    obtain ⟨rfl, hl⟩ := List.forall_mem_cons.mp hl
    rw [run_cons] at h ⊢
    rw [ih hl h]
    rcases hrest : c.rest i with b | ⟨x, next⟩
    · rw [step_of_done hrest]
    · rw [step_of_act hrest, finish, finish, hrest]
      dsimp only
      rw [Function.update_self, Function.update_idem]
      rfl

/-- **Serializability.**  A run whose conflicts can be ordered, and in which the programs of the
order come to their end, does the same as these programs one after the other. -/
theorem run_eq_serially {order : List J} {l : List J} (hnodup : order.Nodup)
    (hmem : ∀ e ∈ c.trace l, e.1 ∈ order) (hdone : ∀ j ∈ order, ∃ a, (c.run l).rest j = .done a)
    (hordered : Ordered order (c.trace l)) : c.run l = c.serially order := by
  induction order generalizing c l with
  | nil =>
    refine run_of_trace_nil (List.eq_nil_iff_forall_not_mem.mpr fun e he => ?_)
    exact List.not_mem_nil (hmem e he)
  | cons p order ih =>
    obtain ⟨hp, hnodup⟩ := List.nodup_cons.mp hnodup
    obtain ⟨hrun, -, hback⟩ := run_front (c := c) (· = p) (l := l) <|
      hordered.imp fun {e e'} h hne heq hc => by
        have hlt := h (fun hsame => hne (hsame.trans heq)) hc
        rw [heq, List.idxOf_cons_self] at hlt
        exact Nat.not_lt_zero _ hlt
    set own := l.filter (· = p)
    set others := l.filter (¬ · = p)
    have hout : p ∉ others := fun hmem => of_decide_eq_true (List.mem_filter.mp hmem).2 rfl
    have hown : ∀ i ∈ own, i = p := fun i hi => of_decide_eq_true (List.mem_filter.mp hi).2
    have hfinish : c.run own = c.finish p := by
      obtain ⟨a, ha⟩ := hdone p List.mem_cons_self
      rw [hrun, rest_run_of_notMem hout] at ha
      exact run_eq_finish hown ha
    rw [hrun, hfinish]
    rw [hfinish] at hrun hback
    refine ih hnodup (fun e he => ?_) (fun j hj => ?_) ?_
    · rw [hback] at he
      obtain ⟨he, hne⟩ := List.mem_filter.mp he
      exact (List.mem_cons.mp (hmem e he)).resolve_left (of_decide_eq_true hne)
    · rw [← hrun]
      exact hdone j (List.mem_cons_of_mem _ hj)
    · rw [hback, Ordered, List.pairwise_filter]
      refine hordered.imp fun {e e'} h he he' hne hc => ?_
      have hlt := h hne hc
      rw [List.idxOf_cons_ne _ (Ne.symm (of_decide_eq_true he)),
        List.idxOf_cons_ne _ (Ne.symm (of_decide_eq_true he'))] at hlt
      exact Nat.lt_of_succ_lt_succ hlt

/-- The actions of a run are of the kinds that the programs allow. -/
lemma forall_mem_trace {A : J → M.Action → Prop} (h : ∀ j, (c.rest j).Only (A j)) (l : List J) :
    ∀ e ∈ c.trace l, A e.1 e.2 := by
  induction l generalizing c with
  | nil => exact fun e he => (List.not_mem_nil he).elim
  | cons j l ih =>
    intro e he
    have hj := h j
    rcases hrest : c.rest j with a | ⟨x, next⟩
    · rw [trace, step_of_done hrest, hrest] at he
      exact ih h e he
    · rw [trace, hrest] at he
      rw [hrest] at hj
      cases hj with
      | act here rest =>
        rcases List.mem_cons.mp he with rfl | he
        · exact here
        · refine ih (fun i => ?_) e he
          rw [step_of_act hrest]
          dsimp only
          by_cases hi : i = j
          · obtain rfl := hi
            rw [Function.update_self]
            exact rest _
          · rw [Function.update_of_ne hi]
            exact h i

/-- Programs that act on different records have no conflicts. -/
lemma ordered_of_only {A : J → M.Action → Prop} (h : ∀ j, (c.rest j).Only (A j))
    (hA : ∀ i j x y, i ≠ j → A i x → A j y → ¬ M.Conflict x y) (order l : List J) :
    Ordered order (c.trace l) := by
  refine List.pairwise_of_forall_mem_list fun e he e' he' hne hc => absurd hc ?_
  exact hA _ _ _ _ hne (forall_mem_trace h l e he) (forall_mem_trace h l e' he')

/-! ## What holds of every action of a run -/

section

variable {R : J → (r : M.Record) → M.Content r → M.Content r → Prop}

lemma along_run {l : List J} (hl : ∀ i ∈ l, i = j) (h : (c.rest j).Along (R j) c.memory) :
    ((c.run l).rest j).Along (R j) (c.run l).memory := by
  induction l generalizing c with
  | nil => exact h
  | cons i l ih =>
    obtain ⟨rfl, hl⟩ := List.forall_mem_cons.mp hl
    refine ih hl ?_
    rcases hrest : c.rest i with a | ⟨x, next⟩
    · rw [step_of_done hrest]
      exact h
    · rw [step_of_act hrest]
      rw [hrest] at h
      dsimp only
      rw [Function.update_self]
      cases h with
      | act _ rest => exact rest

/-- Where the conflicts can be ordered, the actions of one program might have followed those of
the programs before it, with no action of another program among them. -/
lemma run_split {order : List J} {l : List J} (hordered : Ordered order (c.trace l)) (p : J) :
    ∃ before own behind, p ∉ before ∧ (∀ i ∈ own, i = p) ∧ p ∉ behind ∧
      c.run l = ((c.run before).run own).run behind ∧
      ∀ e ∈ ((c.run before).run own).trace behind, e ∈ c.trace l ∧ e.1 ≠ p ∧
        ¬ order.idxOf e.1 < order.idxOf p := by
  obtain ⟨hrun, -, hback⟩ := run_front (c := c) (order.idxOf · < order.idxOf p) (l := l) <|
    hordered.imp fun {e e'} h hnot hlt hc =>
      hnot ((h (fun hsame => hnot (hsame ▸ hlt)) hc).trans hlt)
  set before := l.filter (order.idxOf · < order.idxOf p)
  set later := l.filter (¬ order.idxOf · < order.idxOf p)
  have hlater : Ordered order ((c.run before).trace later) := by
    rw [hback]
    exact hordered.filter _
  obtain ⟨hrun', -, hback'⟩ := run_front (c := c.run before) (· = p) (l := later) <|
    hlater.imp_of_mem fun {e e'} he _ h hne heq hc => by
      rw [hback] at he
      have hlt := h (fun hsame => hne (hsame.trans heq)) hc
      rw [heq] at hlt
      exact of_decide_eq_true (List.mem_filter.mp he).2 hlt
  refine ⟨before, later.filter (· = p), later.filter (¬ · = p), fun hp => ?_, fun i hi => ?_,
    fun hp => ?_, hrun.trans hrun', fun e he => ?_⟩
  · exact lt_irrefl _ (of_decide_eq_true (List.mem_filter.mp hp).2)
  · exact of_decide_eq_true (List.mem_filter.mp hi).2
  · exact of_decide_eq_true (List.mem_filter.mp hp).2 rfl
  · rw [hback', hback] at he
    obtain ⟨he, hne⟩ := List.mem_filter.mp he
    obtain ⟨he, hnot⟩ := List.mem_filter.mp he
    exact ⟨he, of_decide_eq_true hne, of_decide_eq_true hnot⟩

/-- **What a run keeps.**  If the actions of each program, when nothing comes in between, relate
what the records contain before and after them, then so do the actions of every run whose conflicts
can be ordered. -/
theorem step_along (hrefl : ∀ j r x, R j r x x) (halong : ∀ j s, (c.rest j).Along (R j) s)
    {order : List J} {l : List J} {p : J} (hordered : Ordered order (c.trace (l ++ [p])))
    (r : M.Record) : R p r (M.content (c.run l).memory r) (M.content ((c.run l).step p).memory r) := by
  rw [trace_append] at hordered
  obtain ⟨hearlier, -, hlast⟩ := List.pairwise_append.mp hordered
  obtain ⟨before, own, behind, hbefore, hown, hbehind, hrun, hevents⟩ := run_split hearlier p
  set c₂ := (c.run before).run own
  have hsame : (c.run l).rest p = c₂.rest p := by
    rw [hrun, rest_run_of_notMem hbehind]
  have hlone : (c₂.rest p).Along (R p) c₂.memory := by
    refine along_run hown ?_
    rw [rest_run_of_notMem hbefore]
    exact halong p _
  rcases hrest : c₂.rest p with a | ⟨x, next⟩
  · rw [step_of_done (hsame.trans hrest)]
    exact hrefl p r _
  · rw [step_of_act (hsame.trans hrest)]
    rw [hrest] at hlone
    have hhere : ∀ r, R p r (M.content c₂.memory r) (M.content (M.after x c₂.memory) r) := by
      cases hlone with
      | act here _ => exact here
    -- What the action touches was not written by the programs behind it.
    have hkept : ∀ r, r ∈ M.reads x ∨ r ∈ M.writes x →
        M.content (c.run l).memory r = M.content c₂.memory r := by
      intro r hr
      rw [hrun]
      refine content_run fun e he hwrites => ?_
      obtain ⟨he, hne, hnot⟩ := hevents e he
      refine hnot (hlast e he (p, x) ?_ hne ?_)
      · rw [trace, hsame, hrest]
        exact List.mem_append_left _ (List.mem_singleton_self _)
      · exact hr.elim (fun hr => ⟨r, .inr (.inl ⟨hwrites, hr⟩)⟩) fun hr => ⟨r, .inl ⟨hwrites, hr⟩⟩
    by_cases hr : r ∈ M.writes x
    · have hafter := M.after_congr x (c.run l).memory c₂.memory (fun r hr => hkept r (.inl hr)) r hr
      rw [hkept r (.inr hr), hafter]
      exact hhere r
    · rw [M.after_frame x _ r hr]
      exact hrefl p r _

end

end Interleaving

end ZenoChain
