import Invar.Lib.Reach
import Mathlib.Logic.Function.Basic

/-!
# Threads over a shared state

Threads with local states of type `l` take turns on a shared state of type `γ`.
An action names the thread that acts. The rule `inv_of_threads` splits an
invariant into a part about the shared state and a part for each thread: a step
has to restore the shared part and its own, and to leave the parts of the other
threads alone.
-/

namespace Interleaving

open Transition

structure State (γ l : Type) where
  shared : γ
  threads : Nat → l

variable {γ l α : Type}

/-- One step of thread `ia.1`. -/
def act (step : Nat → γ → l → α → Option (γ × l)) (st : State γ l) (ia : Nat × α) :
    Option (State γ l) :=
  (step ia.1 st.shared (st.threads ia.1) ia.2).map fun r =>
    { shared := r.1, threads := Function.update st.threads ia.1 r.2 }

theorem act_eq_some {step : Nat → γ → l → α → Option (γ × l)} {st st' : State γ l}
    {ia : Nat × α} (h : act step st ia = some st') :
    step ia.1 st.shared (st.threads ia.1) ia.2 = some (st'.shared, st'.threads ia.1) ∧
      ∀ j, j ≠ ia.1 → st'.threads j = st.threads j := by
  simp only [act, Option.map_eq_some_iff] at h
  obtain ⟨⟨g, t⟩, hstep, rfl⟩ := h
  refine ⟨by simpa using hstep, fun j hj => ?_⟩
  exact Function.update_of_ne hj _ _

/-- A run leaves the threads that take no step in it as they are. -/
theorem run_threads_of_notMem {step : Nat → γ → l → α → Option (γ × l)} {as : List (Nat × α)}
    {st st' : State γ l} (h : run (act step) st as = some st') {j : Nat}
    (hj : j ∉ as.map Prod.fst) : st'.threads j = st.threads j := by
  induction as generalizing st with
  | nil =>
    cases h
    rfl
  | cons ia rest ih =>
    simp only [run, Option.bind_eq_some_iff] at h
    obtain ⟨mid, hmid, hrest⟩ := h
    simp only [List.map_cons, List.mem_cons, not_or] at hj
    rw [ih hrest hj.2, (act_eq_some hmid).2 j hj.1]

/-- An invariant made of a shared part and one part for each thread. -/
structure Holds (G : γ → Prop) (L : Nat → γ → l → Prop) (st : State γ l) : Prop where
  shared : G st.shared
  thread : ∀ i, L i st.shared (st.threads i)

variable {step : Nat → γ → l → α → Option (γ × l)} {ok : State γ l → Nat × α → Prop}
  {init : State γ l} {G : γ → Prop} {L : Nat → γ → l → Prop}

/-- The rule, with an invariant of the whole that is already known. -/
theorem inv_of_threads_with {J : State γ l → Prop} (hJ : ∀ st, Reach (act step) ok init st → J st)
    (h0 : Holds G L init) (hown : ∀ st i a g t, J st → Holds G L st → ok st (i, a) →
      step i st.shared (st.threads i) a = some (g, t) → G g ∧ L i g t)
    (hother : ∀ st i a g t, J st → Holds G L st → ok st (i, a) →
      step i st.shared (st.threads i) a = some (g, t) → ∀ j, j ≠ i → L j g (st.threads j))
    {st : State γ l} (h : Reach (act step) ok init st) : Holds G L st := by
  refine Reach.inv_with hJ h0 (fun st ia st' hj hinv hok hact => ?_) h
  obtain ⟨hstep, hsame⟩ := act_eq_some hact
  obtain ⟨hG, hL⟩ := hown st ia.1 ia.2 _ _ hj hinv hok hstep
  refine ⟨hG, fun j => ?_⟩
  by_cases hj' : j = ia.1
  · exact hj' ▸ hL
  · rw [hsame j hj']
    exact hother st ia.1 ia.2 _ _ hj hinv hok hstep j hj'

theorem inv_of_threads (h0 : Holds G L init) (hown : ∀ st i a g t, Holds G L st → ok st (i, a) →
      step i st.shared (st.threads i) a = some (g, t) → G g ∧ L i g t)
    (hother : ∀ st i a g t, Holds G L st → ok st (i, a) →
      step i st.shared (st.threads i) a = some (g, t) → ∀ j, j ≠ i → L j g (st.threads j))
    {st : State γ l} (h : Reach (act step) ok init st) : Holds G L st :=
  inv_of_threads_with (fun _ _ => trivial) h0
    (fun st i a g t _ => hown st i a g t) (fun st i a g t _ => hother st i a g t) h

/-- An invariant of one thread that does not look at what is shared: only the steps of
that thread matter. -/
theorem thread_inv {i : Nat} {P : l → Prop} (h0 : P (init.threads i))
    (hown : ∀ st a g t, ok st (i, a) → P (st.threads i) →
      step i st.shared (st.threads i) a = some (g, t) → P t)
    {st : State γ l} (h : Reach (act step) ok init st) : P (st.threads i) := by
  refine h.inv (I := fun st => P (st.threads i)) h0 fun st ia st' hP hok hact => ?_
  obtain ⟨hstep, hsame⟩ := act_eq_some hact
  by_cases hi : i = ia.1
  · subst hi
    exact hown st ia.2 _ _ hok hP hstep
  · rw [hsame i hi]
    exact hP

end Interleaving
