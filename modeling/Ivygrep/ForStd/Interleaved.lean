import Mathlib

/-!
# Programs that share a state with an environment

A program is a sequence of atomic actions on a shared state. Before each action the environment
may change the state. The run logs, for each action, the state it met and an event. Triples
relate what holds of a run before and after a program, for every environment that keeps to a
relation.
-/

namespace ForStd

variable {σ ε : Type}

/-- An action returns a value and the next state; its event depends on the value. -/
inductive Program (σ ε α : Type) : Type 1 where
  | ret (value : α)
  | act {β : Type} (event : β → ε) (action : σ → β × σ) (next : β → Program σ ε α)

namespace Program

variable {α β : Type}

def bind : Program σ ε α → (α → Program σ ε β) → Program σ ε β
  | ret value, next => next value
  | act event action rest, next => act event action fun value => (rest value).bind next

instance : Monad (Program σ ε) where
  pure := ret
  bind := bind

/-- One atomic action. -/
def atomic (event : α → ε) (action : σ → α × σ) : Program σ ε α := act event action ret

end Program

/-- The state of a run, the number of its actions, and its log. -/
structure Progress (σ ε : Type) where
  shared : σ
  actions : Nat
  log : List (σ × ε)

namespace Progress

/-- An action on a state that the environment has left. -/
def after {β : Type} (progress : Progress σ ε) (met : σ) (event : β → ε) (action : σ → β × σ) :
    Progress σ ε :=
  ⟨(action met).2, progress.actions + 1, progress.log ++ [(met, event (action met).1)]⟩

end Progress

namespace Program

variable {α β : Type}

/-- The environment is asked before every action. -/
def run (env : Nat → σ → σ) : Program σ ε α → Progress σ ε → α × Progress σ ε
  | ret value, progress => (value, progress)
  | act event action next, progress =>
    let met := env progress.actions progress.shared
    (next (action met).1).run env (progress.after met event action)

theorem run_bind (env : Nat → σ → σ) (program : Program σ ε α) (next : α → Program σ ε β)
    (progress : Progress σ ε) :
    (program.bind next).run env progress =
      (next (program.run env progress).1).run env (program.run env progress).2 := by
  induction program generalizing progress with
  | ret value => rfl
  | act event action rest ih => exact ih _ _

/-- A run only appends to the log. -/
theorem log_prefix (env : Nat → σ → σ) (program : Program σ ε α) (progress : Progress σ ε) :
    progress.log <+: (program.run env progress).2.log := by
  induction program generalizing progress with
  | ret value => exact List.prefix_refl _
  | act event action rest ih =>
    have hrest := ih (action (env progress.actions progress.shared)).1
      (progress.after (env progress.actions progress.shared) event action)
    exact (List.prefix_append _ _).trans hrest

end Program

/-- Every step of the environment is one that the relation allows. -/
def Obeys (rely : σ → σ → Prop) (env : Nat → σ → σ) : Prop := ∀ n state, rely state (env n state)

/-- What a run that satisfies `pre` satisfies after the program, in every environment. -/
structure Triple {α : Type} (rely : σ → σ → Prop) (pre : Progress σ ε → Prop)
    (program : Program σ ε α) (post : α → Progress σ ε → Prop) : Prop where
  holds : ∀ env, Obeys rely env → ∀ progress, pre progress →
    post (program.run env progress).1 (program.run env progress).2

namespace Triple

variable {α β : Type} {rely : σ → σ → Prop} {pre : Progress σ ε → Prop}
  {program : Program σ ε α} {post : α → Progress σ ε → Prop}

theorem ret {value : α} (h : ∀ progress, pre progress → post value progress) :
    Triple rely pre (pure value) post where
  holds _ _ progress hpre := h progress hpre

theorem bind {next : α → Program σ ε β} {last : β → Progress σ ε → Prop}
    (h : Triple rely pre program post) (hnext : ∀ value, Triple rely (post value) (next value) last) :
    Triple rely pre (program >>= next) last where
  holds := by
    intro env henv progress hpre
    show last ((program.bind next).run env progress).1 ((program.bind next).run env progress).2
    rw [Program.run_bind]
    exact (hnext _).holds env henv _ (h.holds env henv progress hpre)

/-- An action meets any state that the environment can make of the one before. -/
theorem atomic {event : α → ε} {action : σ → α × σ}
    (h : ∀ progress met, pre progress → rely progress.shared met →
      post (action met).1 (progress.after met event action)) :
    Triple rely pre (Program.atomic event action) post where
  holds _ henv progress hpre := h progress _ hpre (henv _ _)

theorem conseq {pre' : Progress σ ε → Prop} {post' : α → Progress σ ε → Prop}
    (h : Triple rely pre program post) (hpre : ∀ progress, pre' progress → pre progress)
    (hpost : ∀ value progress, post value progress → post' value progress) :
    Triple rely pre' program post' where
  holds env henv progress hprogress :=
    hpost _ _ (h.holds env henv progress (hpre progress hprogress))

/-- What is said of the log alone, and survives more of it, is kept. -/
theorem frame {kept : List (σ × ε) → Prop}
    (hkept : ∀ log log', log <+: log' → kept log → kept log')
    (h : Triple rely pre program post) :
    Triple rely (fun progress => pre progress ∧ kept progress.log) program
      fun value progress => post value progress ∧ kept progress.log where
  holds := by
    intro env henv progress hpre
    constructor
    · exact h.holds env henv progress hpre.1
    · exact hkept _ _ (program.log_prefix env progress) hpre.2

/-- A fact about no run at all can be used as a hypothesis. -/
theorem of_fact {fact : Prop} (h : fact → Triple rely pre program post) :
    Triple rely (fun progress => fact ∧ pre progress) program post where
  holds env henv progress hpre := (h hpre.1).holds env henv progress hpre.2

/-- What the assertion only says to exist is a parameter of the program's triple. -/
theorem exists_pre {ι : Type} {pre : ι → Progress σ ε → Prop}
    (h : ∀ i, Triple rely (pre i) program post) :
    Triple rely (fun progress => ∃ i, pre i progress) program post where
  holds := by
    intro env henv progress hpre
    obtain ⟨i, hpre⟩ := hpre
    exact (h i).holds env henv progress hpre

end Triple

end ForStd
