import Invar.Lib.StoreProg

/-!
# Preconditions of store programs

`wp A p Q E t` holds when `p`, run in the transaction `t`, ends with a result and
a transaction that satisfy `Q`, or with an error and a transaction that satisfy
`E`, whatever its environment answers within `A`. It is defined by recursion on
the program, so that a proof about a program follows the program's text.
-/

namespace StoreProg

variable {κ ρ τ ε α β : Type} [Ord κ] [Std.TransOrd κ] [DecidableEq κ]

def wp (A : τ → Prop) : Prog κ ρ τ ε α → (α → Txn κ ρ → Prop) → (ε → Txn κ ρ → Prop) →
    Txn κ ρ → Prop
  | .pure a, Q, _, t => Q a t
  | .fail e, _, E, t => E e t
  | .get k next, Q, E, t => wp A (next t.view[k]?) Q E (t.noteRead (isKey k))
  | .scan p next, Q, E, t => wp A (next (rowsOf t.view p)) Q E (t.noteRead p)
  | .put k r next, Q, E, t => wp A next Q E (t.put k r)
  | .del k next, Q, E, t => wp A next Q E (t.del k)
  | .ask next, Q, E, t => ∀ x, A x → wp A (next x) Q E t

variable {A : τ → Prop} {p : Prog κ ρ τ ε α} {f : α → Prog κ ρ τ ε β} {t : Txn κ ρ}
  {Q Q' : α → Txn κ ρ → Prop} {E E' : ε → Txn κ ρ → Prop} {R : β → Txn κ ρ → Prop}

theorem wp_bind : wp A (p.bind f) R E t ↔ wp A p (fun a t' => wp A (f a) R E t') E t := by
  induction p generalizing t with
  | pure a => rfl
  | fail e => rfl
  | get k next ih => exact ih _
  | scan q next ih => exact ih _
  | put k r next ih => exact ih
  | del k next ih => exact ih
  | ask next ih => exact forall_congr' fun x => imp_congr_right fun _ => ih x

/-- The rule for a step of a `do` block. -/
theorem wp_seq : wp A (p >>= f) R E t ↔ wp A p (fun a t' => wp A (f a) R E t') E t := wp_bind

theorem wp_mono (h : wp A p Q E t) (hQ : ∀ a t', Q a t' → Q' a t')
    (hE : ∀ e t', E e t' → E' e t') : wp A p Q' E' t := by
  induction p generalizing t with
  | pure a => exact hQ a t h
  | fail e => exact hE e t h
  | get k next ih => exact ih _ h
  | scan q next ih => exact ih _ h
  | put k r next ih => exact ih h
  | del k next ih => exact ih h
  | ask next ih => exact fun x hx => ih x (h x hx)

theorem wp_post (h : wp A p Q E t) (hQ : ∀ a t', Q a t' → Q' a t') : wp A p Q' E t :=
  wp_mono h hQ fun _ _ he => he

/-- Nothing has to be known about a program whose end does not matter. -/
theorem wp_any (hQ : ∀ a t', Q a t') (hE : ∀ e t', E e t') : wp A p Q E t := by
  induction p generalizing t with
  | pure a => exact hQ a t
  | fail e => exact hE e t
  | get k next ih => exact ih _
  | scan q next ih => exact ih _
  | put k r next ih => exact ih
  | del k next ih => exact ih
  | ask next ih => exact fun x _ => ih x

/-- What remains of the environment after a run was in it before. -/
theorem exec_env (p : Prog κ ρ τ ε α) (env : Nat → τ) (t : Txn κ ρ) (n : Nat) :
    ∃ m, (exec p env t).env n = env m := by
  induction p generalizing env t with
  | pure a => exact ⟨n, rfl⟩
  | fail e => exact ⟨n, rfl⟩
  | get k next ih => exact ih _ _ _
  | scan q next ih => exact ih _ _ _
  | put k r next ih => exact ih _ _
  | del k next ih => exact ih _ _
  | ask next ih =>
    obtain ⟨m, hm⟩ := ih (env 0) (fun n => env (n + 1)) t
    exact ⟨m + 1, hm⟩

/-- **A run ends as its precondition says.** -/
theorem exec_of_wp (h : wp A p Q E t) {env : Nat → τ} (henv : ∀ n, A (env n)) :
    (∀ a, (exec p env t).out = .ok a → Q a (exec p env t).txn) ∧
      ∀ e, (exec p env t).out = .error e → E e (exec p env t).txn := by
  induction p generalizing env t with
  | pure a =>
    refine ⟨fun b hb => ?_, fun e he => nomatch he⟩
    cases hb
    exact h
  | fail e =>
    refine ⟨fun b hb => (nomatch hb), fun e' he => ?_⟩
    cases he
    exact h
  | get k next ih => exact ih _ h henv
  | scan q next ih => exact ih _ h henv
  | put k r next ih => exact ih h henv
  | del k next ih => exact ih h henv
  | ask next ih => exact ih _ (h _ (henv 0)) fun n => henv (n + 1)

/-- A program that cannot fail ends with a result. -/
theorem exec_ok_of_wp (h : wp A p Q (fun _ _ => False) t) (env : Nat → τ) (henv : ∀ n, A (env n)) :
    ∃ a, (exec p env t).out = .ok a ∧ Q a (exec p env t).txn := by
  have hend := exec_of_wp h henv
  cases hout : (exec p env t).out with
  | ok a => exact ⟨a, rfl, hend.1 a hout⟩
  | error e => exact (hend.2 e hout).elim

theorem exec_out_of_wp {a : α} (h : wp A p (fun b _ => b = a) (fun _ _ => False) t)
    (env : Nat → τ) (henv : ∀ n, A (env n)) : (exec p env t).out = .ok a := by
  obtain ⟨_, hout, rfl⟩ := exec_ok_of_wp h env henv
  exact hout

end StoreProg
