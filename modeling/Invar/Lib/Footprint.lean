import Invar.Lib.StoreLogic

/-!
# Footprints

`Confined W p` says of the text of a program that whatever it reads, it stores under
a key `k` only rows `r` with `W k (some r)`, and deletes `k` only if `W k none`. It is
the part of a program's effect that does not depend on the store, and is proved by
going through the program; `exec_confined` is what it means for a run. `ReadOnly` is
the case of no writes at all.
-/

namespace StoreProg

variable {κ ρ τ ε α β : Type}

def Confined (W : κ → Option ρ → Prop) : Prog κ ρ τ ε α → Prop
  | .pure _ => True
  | .fail _ => True
  | .get _ next => ∀ r, Confined W (next r)
  | .scan q next => ∀ rows, (∀ kr ∈ rows, q kr.1 = true) → Confined W (next rows)
  | .put k r next => W k (some r) ∧ Confined W next
  | .del k next => W k none ∧ Confined W next
  | .ask next => ∀ x, Confined W (next x)

/-- The program writes nothing. -/
def ReadOnly (p : Prog κ ρ τ ε α) : Prop := Confined (fun _ _ => False) p

variable {W W' : κ → Option ρ → Prop} {p : Prog κ ρ τ ε α} {f : α → Prog κ ρ τ ε β}

theorem Confined.bind (hp : Confined W p) (hf : ∀ a, Confined W (f a)) : Confined W (p.bind f) := by
  induction p with
  | pure a => exact hf a
  | fail e => trivial
  | get k next ih => exact fun r => ih r (hp r)
  | scan q next ih => exact fun rows hrows => ih rows (hp rows hrows)
  | put k r next ih => exact ⟨hp.1, ih hp.2⟩
  | del k next ih => exact ⟨hp.1, ih hp.2⟩
  | ask next ih => exact fun x => ih x (hp x)

theorem ReadOnly.bind (hp : ReadOnly p) (hf : ∀ a, ReadOnly (f a)) : ReadOnly (p.bind f) :=
  Confined.bind hp hf

theorem ReadOnly.ite {q : Prog κ ρ τ ε α} {c : Prop} [Decidable c] (hp : ReadOnly p)
    (hq : ReadOnly q) : ReadOnly (if c then p else q) := by
  split
  · exact hp
  · exact hq

variable [Ord κ] [Std.TransOrd κ] [DecidableEq κ] [Std.LawfulEqOrd κ]

/-- A program that writes nothing leaves the view as it is. -/
theorem exec_readOnly (h : ReadOnly p) (env : Nat → τ) (t : Txn κ ρ) :
    (exec p env t).txn.view = t.view := by
  induction p generalizing env t with
  | pure a => rfl
  | fail e => rfl
  | get k' next ih => exact ih _ (h _) env (t.noteRead (isKey k'))
  | scan q next ih => exact ih _ (h _ fun _ hkr => (mem_rowsOf.mp hkr).2) env (t.noteRead q)
  | put k' r next ih => exact h.1.elim
  | del k' next ih => exact h.1.elim
  | ask next ih => exact ih _ (h _) _ t

variable {t : Txn κ ρ}

theorem wp_of_readOnly (h : ReadOnly p) {A : τ → Prop} {Q : α → Txn κ ρ → Prop}
    {E : ε → Txn κ ρ → Prop} (hQ : ∀ a t', t'.view = t.view → Q a t')
    (hE : ∀ e t', t'.view = t.view → E e t') : wp A p Q E t := by
  induction p generalizing t with
  | pure a => exact hQ a t rfl
  | fail e => exact hE e t rfl
  | get k' next ih => exact ih _ (h _) hQ hE
  | scan q next ih => exact ih _ (h _ fun _ hkr => (mem_rowsOf.mp hkr).2) hQ hE
  | put k' r next ih => exact h.1.elim
  | del k' next ih => exact h.1.elim
  | ask next ih => exact fun x _ => ih x (h x) hQ hE

/-- What follows a program that has only read runs on the same store. -/
theorem exec_bind_of_readOnly (h : ReadOnly p) (f : α → Prog κ ρ τ ε β) {env : Nat → τ} {a : α}
    (hout : (exec p env t).out = .ok a) : ∃ env' t', exec (p.bind f) env t = exec (f a) env' t' ∧
      t'.view = t.view ∧ ∀ n, ∃ m, env m = env' n := by
  have hwp : wp (fun _ => True) p (fun _ t' => t'.view = t.view) (fun _ _ => True) t :=
    wp_of_readOnly h (fun _ _ hview => hview) fun _ _ _ => trivial
  refine ⟨(exec p env t).env, (exec p env t).txn, ?_, (exec_of_wp hwp fun _ => trivial).1 a hout,
    fun n => (exec_env p env t n).imp fun _ hm => hm.symm⟩
  rw [exec_bind, Run.andThen, hout]

end StoreProg
