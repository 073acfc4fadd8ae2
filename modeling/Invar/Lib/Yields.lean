/-!
# What a fallible computation yields

`Yields P r` is partial correctness for `Except`: if `r` ends with a value, the value
meets `P`. The rules follow the ways a `do` block is put together.
-/

namespace Fallible

variable {ε α β : Type} {P : α → Prop} {Q : β → Prop} {r : Except ε α}

def Yields (P : α → Prop) (r : Except ε α) : Prop := ∀ a, r = .ok a → P a

variable {a : α}

theorem yields_pure (h : P a) : Yields P (pure a : Except ε α) := by
  rintro _ ⟨⟩
  exact h

theorem yields_ok (h : P a) : Yields P (.ok a : Except ε α) := yields_pure h

theorem yields_error (e : ε) : Yields P (.error e : Except ε α) := by
  intro a h
  cases h

theorem Yields.bind {f : α → Except ε β} (h : Yields P r) (hf : ∀ a, P a → Yields Q (f a)) :
    Yields Q (r >>= f) := by
  intro b hb
  cases r with
  | error e => cases hb
  | ok a => exact hf a (h a rfl) b hb

theorem yields_bind {f : α → Except ε β} (h : ∀ a, Yields Q (f a)) : Yields Q (r >>= f) :=
  Yields.bind (P := fun _ => True) (fun _ _ => trivial) fun a _ => h a

theorem Yields.map {f : α → β} (h : Yields P r) (hf : ∀ a, P a → Q (f a)) : Yields Q (r.map f) := by
  intro b hb
  cases r with
  | error e => cases hb
  | ok a =>
    cases hb
    exact hf a (h a rfl)

/-- A function of the value in two steps. -/
theorem map_eq_map_map {γ : Type} {f : α → γ} {g : α → β} {h : β → γ} (hf : ∀ a, f a = h (g a)) :
    r.map f = (r.map g).map h := by
  cases r with
  | error e => rfl
  | ok a => exact congrArg _ (hf a)

/-- The value is only known to be the result. -/
theorem yields_self (r : Except ε α) : Yields (fun a => r = .ok a) r := fun _ h => h

end Fallible
