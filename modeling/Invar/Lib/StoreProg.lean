import Std.Data.ExtTreeMap
import Mathlib.Data.List.Basic

/-!
# Programs over a transactional key-value store

`Prog κ ρ τ ε α` is a program that reads and writes rows `ρ` under keys `κ`,
asks its environment for values `τ` (a clock, random numbers) and ends with a
result or an error `ε`. `exec` runs it inside a transaction, which sees a
snapshot of the store and its own writes, and records what it read and wrote.
An error does not undo what the program wrote before it.

The fact about `exec` that everything else rests on is that it changes the view
only under the keys it records as written (`exec_frame`).
-/

namespace StoreProg

variable {κ ρ τ ε α β : Type}

inductive Prog (κ ρ τ ε α : Type) : Type where
  | pure (a : α)
  | fail (e : ε)
  | get (k : κ) (next : Option ρ → Prog κ ρ τ ε α)
  | scan (p : κ → Bool) (next : List (κ × ρ) → Prog κ ρ τ ε α)
  | put (k : κ) (r : ρ) (next : Prog κ ρ τ ε α)
  | del (k : κ) (next : Prog κ ρ τ ε α)
  | ask (next : τ → Prog κ ρ τ ε α)

namespace Prog

def bind : Prog κ ρ τ ε α → (α → Prog κ ρ τ ε β) → Prog κ ρ τ ε β
  | .pure a, f => f a
  | .fail e, _ => .fail e
  | .get k next, f => .get k fun r => (next r).bind f
  | .scan p next, f => .scan p fun rs => (next rs).bind f
  | .put k r next, f => .put k r (next.bind f)
  | .del k next, f => .del k (next.bind f)
  | .ask next, f => .ask fun t => (next t).bind f

instance : Monad (Prog κ ρ τ ε) where
  pure := .pure
  bind := .bind

@[simp] theorem pure_eq (a : α) : (Pure.pure a : Prog κ ρ τ ε α) = .pure a := rfl

@[simp] theorem bind_eq (p : Prog κ ρ τ ε α) (f : α → Prog κ ρ τ ε β) : p >>= f = p.bind f := rfl

theorem bind_assoc {γ : Type} (p : Prog κ ρ τ ε α) (f : α → Prog κ ρ τ ε β)
    (g : β → Prog κ ρ τ ε γ) : (p.bind f).bind g = p.bind fun a => (f a).bind g := by
  induction p with
  | pure a => rfl
  | fail e => rfl
  | get k next ih => exact congrArg (Prog.get k) (funext ih)
  | scan q next ih => exact congrArg (Prog.scan q) (funext ih)
  | put k r next ih => exact congrArg (Prog.put k r) ih
  | del k next ih => exact congrArg (Prog.del k) ih
  | ask next ih => exact congrArg Prog.ask (funext ih)

theorem bind_pure (p : Prog κ ρ τ ε α) : p.bind .pure = p := by
  induction p with
  | pure a => rfl
  | fail e => rfl
  | get k next ih => exact congrArg (Prog.get k) (funext ih)
  | scan q next ih => exact congrArg (Prog.scan q) (funext ih)
  | put k r next ih => exact congrArg (Prog.put k r) ih
  | del k next ih => exact congrArg (Prog.del k) ih
  | ask next ih => exact congrArg Prog.ask (funext ih)

end Prog

/-! ## Transactions -/

abbrev Store (κ ρ : Type) [Ord κ] := Std.ExtTreeMap κ ρ

/-- `reads` holds one predicate for each read: which keys it looked at. -/
structure Txn (κ ρ : Type) [Ord κ] where
  view : Store κ ρ
  written : List κ := []
  reads : List (κ → Bool) := []

/-- Outcome, transaction and environment after a program. -/
structure Run (κ ρ τ ε α : Type) [Ord κ] where
  out : Except ε α
  txn : Txn κ ρ
  env : Nat → τ

variable [Ord κ] [Std.TransOrd κ]

def Txn.put (t : Txn κ ρ) (k : κ) (r : ρ) : Txn κ ρ :=
  { t with view := t.view.insert k r, written := k :: t.written }

def Txn.del (t : Txn κ ρ) (k : κ) : Txn κ ρ :=
  { t with view := t.view.erase k, written := k :: t.written }

def Txn.noteRead (t : Txn κ ρ) (p : κ → Bool) : Txn κ ρ := { t with reads := p :: t.reads }

/-- The rows under the keys of `p`, in key order. -/
def rowsOf (s : Store κ ρ) (p : κ → Bool) : List (κ × ρ) := s.toList.filter fun kr => p kr.1

/-- `t'` is `t` after further reads, and writes under the keys `new`. -/
structure Txn.After (t : Txn κ ρ) (new : List κ) (looked : List (κ → Bool)) (t' : Txn κ ρ) :
    Prop where
  written : t'.written = new ++ t.written
  reads : t'.reads = looked ++ t.reads
  view : ∀ k, k ∉ new → t'.view[k]? = t.view[k]?

theorem Txn.After.refl (t : Txn κ ρ) : t.After [] [] t := ⟨rfl, rfl, fun _ _ => rfl⟩

variable {t : Txn κ ρ}

theorem Txn.After.trans {t' t'' : Txn κ ρ} {new new' : List κ}
    {looked looked' : List (κ → Bool)} (h : t.After new looked t')
    (h' : t'.After new' looked' t'') : t.After (new' ++ new) (looked' ++ looked) t'' where
  written := by rw [h'.written, h.written, List.append_assoc]
  reads := by rw [h'.reads, h.reads, List.append_assoc]
  view k hk := by
    rw [List.mem_append, not_or] at hk
    rw [h'.view k hk.1, h.view k hk.2]

theorem Txn.after_noteRead (t : Txn κ ρ) (p : κ → Bool) : t.After [] [p] (t.noteRead p) :=
  ⟨rfl, rfl, fun _ _ => rfl⟩

section

variable [Std.LawfulEqOrd κ]

theorem mem_rowsOf {s : Store κ ρ} {p : κ → Bool} {k : κ} {r : ρ} :
    (k, r) ∈ rowsOf s p ↔ s[k]? = some r ∧ p k = true := by
  rw [rowsOf, List.mem_filter, Std.ExtTreeMap.mem_toList_iff_getElem?_eq_some]

end

variable [DecidableEq κ]

/-- The keys that reading `k` looks at. -/
def isKey (k : κ) : κ → Bool := fun k' => decide (k' = k)

def exec : Prog κ ρ τ ε α → (Nat → τ) → Txn κ ρ → Run κ ρ τ ε α
  | .pure a, env, t => ⟨.ok a, t, env⟩
  | .fail e, env, t => ⟨.error e, t, env⟩
  | .get k next, env, t => exec (next t.view[k]?) env (t.noteRead (isKey k))
  | .scan p next, env, t => exec (next (rowsOf t.view p)) env (t.noteRead p)
  | .put k r next, env, t => exec next env (t.put k r)
  | .del k next, env, t => exec next env (t.del k)
  | .ask next, env, t => exec (next (env 0)) (fun n => env (n + 1)) t

def Run.andThen (r : Run κ ρ τ ε α) (f : α → Prog κ ρ τ ε β) : Run κ ρ τ ε β :=
  match r.out with
  | .ok a => exec (f a) r.env r.txn
  | .error e => ⟨.error e, r.txn, r.env⟩

theorem exec_bind (p : Prog κ ρ τ ε α) (f : α → Prog κ ρ τ ε β) (env : Nat → τ)
    (t : Txn κ ρ) : exec (p.bind f) env t = (exec p env t).andThen f := by
  induction p generalizing env t with
  | pure a => rfl
  | fail e => rfl
  | get k next ih => exact ih _ _ _
  | scan p next ih => exact ih _ _ _
  | put k r next ih => exact ih _ _
  | del k next ih => exact ih _ _
  | ask next ih => exact ih _ _ _

/-- A program that ends with a result has ended its first part with one. -/
theorem exec_bind_ok {p : Prog κ ρ τ ε α} {f : α → Prog κ ρ τ ε β} {env : Nat → τ}
    {b : β} (h : (exec (p.bind f) env t).out = .ok b) : ∃ a, (exec p env t).out = .ok a ∧
      exec (p.bind f) env t = exec (f a) (exec p env t).env (exec p env t).txn := by
  rw [exec_bind, Run.andThen] at h ⊢
  cases hp : (exec p env t).out with
  | ok a => exact ⟨a, rfl, rfl⟩
  | error e =>
    rw [hp] at h
    cases h

/-! ## Committing -/

/-- Bring one row of `s` to its state in `view`. -/
def copyRow (view : Store κ ρ) (s : Store κ ρ) (k : κ) : Store κ ρ :=
  match view[k]? with
  | some r => s.insert k r
  | none => s.erase k

/-- The store after the writes of a transaction. -/
def Txn.applyTo (t : Txn κ ρ) (s : Store κ ρ) : Store κ ρ := t.written.foldl (copyRow t.view) s

/-! ## What a program leaves alone, and what it depends on -/

variable [Std.LawfulEqOrd κ]

theorem getElem?_copyRow (view s : Store κ ρ) (k k' : κ) :
    (copyRow view s k)[k']? = if k' = k then view[k]? else s[k']? := by
  simp only [eq_comm (a := k')]
  unfold copyRow
  split <;> rename_i h
  · simp only [Std.ExtTreeMap.getElem?_insert, Std.LawfulEqOrd.compare_eq_iff_eq, h]
  · simp only [Std.ExtTreeMap.getElem?_erase, Std.LawfulEqOrd.compare_eq_iff_eq, h]

theorem Txn.getElem?_applyTo (t : Txn κ ρ) (s : Store κ ρ) (k : κ) :
    (t.applyTo s)[k]? = if k ∈ t.written then t.view[k]? else s[k]? := by
  have hfold : ∀ (ks : List κ) (s : Store κ ρ),
      (ks.foldl (copyRow t.view) s)[k]? = if k ∈ ks then t.view[k]? else s[k]? := by
    intro ks
    induction ks with
    | nil => intro s; simp
    | cons k' ks ih =>
      intro s
      rw [List.foldl_cons, ih, getElem?_copyRow]
      by_cases hk : k ∈ ks
      · simp [hk]
      · by_cases hkk : k = k' <;> simp [hk, hkk]
  exact hfold t.written s

theorem Txn.view_put (t : Txn κ ρ) (k : κ) (r : ρ) (k' : κ) :
    (t.put k r).view[k']? = if k' = k then some r else t.view[k']? := by
  simp only [Txn.put, Std.ExtTreeMap.getElem?_insert, Std.LawfulEqOrd.compare_eq_iff_eq]
  by_cases h : k' = k
  · simp [h]
  · simp [h, Ne.symm h]

theorem Txn.view_del (t : Txn κ ρ) (k k' : κ) :
    (t.del k).view[k']? = if k' = k then none else t.view[k']? := by
  simp only [Txn.del, Std.ExtTreeMap.getElem?_erase, Std.LawfulEqOrd.compare_eq_iff_eq]
  by_cases h : k' = k
  · simp [h]
  · simp [h, Ne.symm h]

theorem Txn.after_put (t : Txn κ ρ) (k : κ) (r : ρ) : t.After [k] [] (t.put k r) where
  written := rfl
  reads := rfl
  view k' hk' := by rw [view_put, if_neg (by simpa using hk')]

theorem Txn.after_del (t : Txn κ ρ) (k : κ) : t.After [k] [] (t.del k) where
  written := rfl
  reads := rfl
  view k' hk' := by rw [view_del, if_neg (by simpa using hk')]

/-- **A program changes the view only under the keys it records as written.** -/
theorem exec_frame (p : Prog κ ρ τ ε α) (env : Nat → τ) (t : Txn κ ρ) :
    ∃ new looked, t.After new looked (exec p env t).txn := by
  induction p generalizing env t with
  | pure a => exact ⟨[], [], .refl t⟩
  | fail e => exact ⟨[], [], .refl t⟩
  | get k next ih =>
    obtain ⟨new, looked, h⟩ := ih t.view[k]? env (t.noteRead (isKey k))
    exact ⟨_, _, (t.after_noteRead _).trans h⟩
  | scan p next ih =>
    obtain ⟨new, looked, h⟩ := ih (rowsOf t.view p) env (t.noteRead p)
    exact ⟨_, _, (t.after_noteRead _).trans h⟩
  | put k r next ih =>
    obtain ⟨new, looked, h⟩ := ih env (t.put k r)
    exact ⟨_, _, (t.after_put k r).trans h⟩
  | del k next ih =>
    obtain ⟨new, looked, h⟩ := ih env (t.del k)
    exact ⟨_, _, (t.after_del k).trans h⟩
  | ask next ih => exact ih (env 0) (fun n => env (n + 1)) t

end StoreProg
