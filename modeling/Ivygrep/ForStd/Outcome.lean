import Mathlib

/-!
# Outcomes of stateful programs

Rules of pre- and postconditions for `EStateM`, where a program that throws keeps the
state it has reached. `Ends x s ok err` says that `x`, started in `s`, either returns
with `ok` or throws with `err`; there is one rule for each way to build a program.
-/

namespace ForStd

variable {ε σ α β : Type}

/-- `x` started in `s` returns in a state with `ok`, or throws in a state with `err`. -/
def Ends (x : EStateM ε σ α) (s : σ) (ok : α → σ → Prop) (err : ε → σ → Prop) : Prop :=
  match x s with
  | .ok a s' => ok a s'
  | .error e s' => err e s'

/-- Runs `x` and returns its result as a value. -/
def attempt (x : EStateM ε σ α) : EStateM ε σ (Except ε α) := fun s =>
  match x s with
  | .ok a s' => .ok (.ok a) s'
  | .error e s' => .ok (.error e) s'

namespace Ends

variable {x : EStateM ε σ α} {s : σ} {ok : α → σ → Prop} {err : ε → σ → Prop}

theorem pure {a : α} (h : ok a s) : Ends (Pure.pure a) s ok err := h

theorem throw {e : ε} (h : err e s) : Ends (MonadExcept.throw e : EStateM ε σ α) s ok err := h

theorem mono {ok' : α → σ → Prop} {err' : ε → σ → Prop} (h : Ends x s ok err)
    (hok : ∀ a s', ok a s' → ok' a s') (herr : ∀ e s', err e s' → err' e s') :
    Ends x s ok' err' := by
  unfold Ends at h ⊢
  cases hx : x s with
  | ok a s' =>
    simp only [hx] at h ⊢
    exact hok a s' h
  | error e s' =>
    simp only [hx] at h ⊢
    exact herr e s' h

theorem bind {f : α → EStateM ε σ β} {ok' : β → σ → Prop} (ok : α → σ → Prop)
    (h : Ends x s ok err) (hf : ∀ a s', ok a s' → Ends (f a) s' ok' err) :
    Ends (x >>= f) s ok' err := by
  show Ends (EStateM.bind x f) s ok' err
  unfold Ends EStateM.bind
  unfold Ends at h
  cases hx : x s with
  | ok a s' =>
    simp only [hx] at h ⊢
    exact hf a s' h
  | error e s' =>
    simp only [hx] at h ⊢
    exact h

/-- A program that is attempted does not throw: what it threw is its value. -/
theorem attempt {err' : ε → σ → Prop} (h : Ends x s ok err) :
    Ends (ForStd.attempt x) s
      (fun result s' => (∃ a, result = .ok a ∧ ok a s') ∨ ∃ e, result = .error e ∧ err e s')
      err' := by
  unfold Ends ForStd.attempt
  unfold Ends at h
  cases hx : x s with
  | ok a s' =>
    simp only [hx] at h ⊢
    exact .inl ⟨a, rfl, h⟩
  | error e s' =>
    simp only [hx] at h ⊢
    exact .inr ⟨e, rfl, h⟩

theorem of_ok {a : α} {s' : σ} (h : Ends x s ok err) (hx : x s = .ok a s') : ok a s' := by
  unfold Ends at h
  simpa only [hx] using h

theorem of_error {e : ε} {s' : σ} (h : Ends x s ok err) (hx : x s = .error e s') :
    err e s' := by
  unfold Ends at h
  simpa only [hx] using h

end Ends

end ForStd
