/-!
# Reachability under a condition on the steps

A machine is a partial function `step : σ → α → Option σ`. `Reach step ok init`
holds of the states that a run from `init` reaches when every step of the run
meets `ok` in the state before it. A plain run is the case where `ok` is
always true.
-/

namespace Transition

/-- States reached from `init` by steps that all meet `ok`. -/
inductive Reach {σ α : Type} (step : σ → α → Option σ) (ok : σ → α → Prop) (init : σ) :
    σ → Prop
  | start : Reach step ok init init
  | next {s s' : σ} {a : α} :
      Reach step ok init s → ok s a → step s a = some s' → Reach step ok init s'

/-- Execute the actions of a list in order. -/
def run {σ α : Type} (step : σ → α → Option σ) : σ → List α → Option σ
  | s, [] => some s
  | s, a :: rest => (step s a).bind (run step · rest)

variable {σ α : Type} {step : σ → α → Option σ} {ok : σ → α → Prop} {init : σ}

variable {I : σ → Prop} {s s' : σ}

/-- The invariant rule: what holds at the start and is kept by every step that
meets the condition holds in every state reached. -/
theorem Reach.inv (h0 : I init) (hs : ∀ s a s', I s → ok s a → step s a = some s' → I s')
    (h : Reach step ok init s) : I s := by
  induction h with
  | start => exact h0
  | next _ ha hstep ih => exact hs _ _ _ ih ha hstep

/-- The invariant rule with an invariant that is already known to hold. -/
theorem Reach.inv_with {J : σ → Prop} (hJ : ∀ s, Reach step ok init s → J s) (h0 : I init)
    (hs : ∀ s a s', J s → I s → ok s a → step s a = some s' → I s')
    (h : Reach step ok init s) : I s := by
  induction h with
  | start => exact h0
  | next hr ha hstep ih => exact hs _ _ _ (hJ _ hr) ih ha hstep

/-- A run that can be evaluated has a last state. -/
theorem exists_of_run_any {P : σ → Bool} {as : List α}
    (h : (run step s as).any P = true) : ∃ s', run step s as = some s' ∧ P s' = true := by
  cases hr : run step s as with
  | none => simp [hr] at h
  | some s' => exact ⟨s', rfl, by simpa [hr] using h⟩

/-- The machine that refuses the steps that do not meet the condition. -/
def guarded (step : σ → α → Option σ) (ok : σ → α → Bool) (s : σ) (a : α) : Option σ :=
  if ok s a then step s a else none

/-- A run of the guarded machine is a run whose steps all meet what the guard checks. -/
theorem reach_of_guarded {guard : σ → α → Bool} (as : List α)
    (hguard : ∀ s, ∀ a ∈ as, guard s a = true → ok s a) (hs : Reach step ok init s)
    (h : run (guarded step guard) s as = some s') :
    run step s as = some s' ∧ Reach step ok init s' := by
  induction as generalizing s with
  | nil =>
    cases h
    exact ⟨rfl, hs⟩
  | cons a rest ih =>
    obtain ⟨t, ht, hrest⟩ := Option.bind_eq_some_iff.mp h
    obtain ⟨hok, hstep⟩ := Option.ite_none_right_eq_some.mp ht
    have hreach := Reach.next hs (hguard s a List.mem_cons_self hok) hstep
    obtain ⟨hrun, hend⟩ := ih (fun s a ha => hguard s a (List.mem_cons_of_mem _ ha)) hreach hrest
    exact ⟨by rw [run, hstep, Option.bind_some, hrun], hend⟩

theorem reach_of_run {ok : σ → α → Bool} (as : List α)
    (hs : Reach step (fun s a => ok s a = true) init s) (h : run (guarded step ok) s as = some s') :
    Reach step (fun s a => ok s a = true) init s' :=
  (reach_of_guarded as (fun _ _ _ hok => hok) hs h).2

/-- A run with no condition on its steps. -/
theorem reach_of_any_run (as : List α) (hs : Reach step (fun _ _ => True) init s)
    (h : run step s as = some s') : Reach step (fun _ _ => True) init s' :=
  (reach_of_guarded as (fun _ _ _ (_ : true = true) => trivial) hs h).2

/-- A guarded run that can be evaluated. -/
theorem exists_reach (step : σ → α → Option σ) (ok : σ → α → Prop) (init : σ) (as : List α)
    (guard : σ → α → Bool) (P : σ → Bool) (h : (run (guarded step guard) init as).any P = true)
    (hguard : ∀ s, ∀ a ∈ as, guard s a = true → ok s a) :
    ∃ s, run step init as = some s ∧ Reach step ok init s ∧ P s = true := by
  obtain ⟨s, hrun, hP⟩ := exists_of_run_any h
  obtain ⟨hrun, hreach⟩ := reach_of_guarded as hguard .start hrun
  exact ⟨s, hrun, hreach, hP⟩

end Transition
