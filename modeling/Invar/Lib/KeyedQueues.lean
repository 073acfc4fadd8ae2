import Mathlib.Logic.Function.Basic
import Mathlib.Data.List.Nodup

/-!
# Queues under keys

A family of FIFO queues, one for each key, in which one element may stand in
several queues at once. The operations act on a list of keys, one key after the
other, so a key that the list repeats is served as often as it occurs.
-/

namespace KeyedQueues

variable {κ α : Type} [DecidableEq κ]

/-- Append `a` to the queue of every key of `ks`. -/
def pushBack (q : κ → List α) (ks : List κ) (a : α) : κ → List α :=
  ks.foldl (fun q k => Function.update q k (q k ++ [a])) q

/-- Put `a` at the front of the queue of every key of `ks`. -/
def pushFront (q : κ → List α) (ks : List κ) (a : α) : κ → List α :=
  ks.foldl (fun q k => Function.update q k (a :: q k)) q

/-- Keep, in the queue of every key of `ks`, the elements that satisfy `p`. -/
def retain (q : κ → List α) (ks : List κ) (p : α → Bool) : κ → List α :=
  ks.foldl (fun q k => Function.update q k ((q k).filter p)) q

theorem pushBack_apply (q : κ → List α) (ks : List κ) (a : α) (k : κ) :
    pushBack q ks a k = q k ++ List.replicate (ks.count k) a := by
  unfold pushBack
  induction ks generalizing q with
  | nil => simp
  | cons k' ks ih =>
    rw [List.foldl_cons, ih]
    by_cases h : k' = k
    · subst h
      simp [List.replicate_succ]
    · simp [Ne.symm h, h]

theorem pushFront_apply (q : κ → List α) (ks : List κ) (a : α) (k : κ) :
    pushFront q ks a k = List.replicate (ks.count k) a ++ q k := by
  unfold pushFront
  induction ks generalizing q with
  | nil => simp
  | cons k' ks ih =>
    rw [List.foldl_cons, ih]
    by_cases h : k' = k
    · subst h
      simp [List.replicate_succ']
    · simp [Ne.symm h, h]

theorem retain_apply (q : κ → List α) (ks : List κ) (p : α → Bool) (k : κ) :
    retain q ks p k = if k ∈ ks then (q k).filter p else q k := by
  unfold retain
  induction ks generalizing q with
  | nil => simp
  | cons k' ks ih =>
    rw [List.foldl_cons, ih]
    by_cases h : k' = k
    · subst h
      simp
    · simp [Ne.symm h]

/-! ## Keys that occur once -/

variable {ks : List κ} {a b : α} {k : κ} {q : κ → List α}

theorem pushBack_of_nodup (h : ks.Nodup) (q : κ → List α) (a : α) (k : κ) :
    pushBack q ks a k = if k ∈ ks then q k ++ [a] else q k := by
  rw [pushBack_apply]
  by_cases hk : k ∈ ks
  · simp [hk, List.count_eq_one_of_mem h hk]
  · simp [hk, List.count_eq_zero_of_not_mem hk]

theorem pushFront_of_nodup (h : ks.Nodup) (q : κ → List α) (a : α) (k : κ) :
    pushFront q ks a k = if k ∈ ks then a :: q k else q k := by
  rw [pushFront_apply]
  by_cases hk : k ∈ ks
  · simp [hk, List.count_eq_one_of_mem h hk]
  · simp [hk, List.count_eq_zero_of_not_mem hk]

/-! ## Membership, whatever the keys -/

theorem mem_pushBack : b ∈ pushBack q ks a k ↔ b ∈ q k ∨ k ∈ ks ∧ b = a := by
  rw [pushBack_apply, List.mem_append, List.mem_replicate, ← Nat.pos_iff_ne_zero,
    List.count_pos_iff]

theorem mem_pushFront : b ∈ pushFront q ks a k ↔ k ∈ ks ∧ b = a ∨ b ∈ q k := by
  rw [pushFront_apply, List.mem_append, List.mem_replicate, ← Nat.pos_iff_ne_zero,
    List.count_pos_iff]

theorem mem_retain {p : α → Bool} : b ∈ retain q ks p k ↔ b ∈ q k ∧ (k ∈ ks → p b = true) := by
  rw [retain_apply]
  by_cases hk : k ∈ ks <;> simp [hk]

end KeyedQueues
