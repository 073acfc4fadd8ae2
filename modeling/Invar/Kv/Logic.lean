import Invar.Common.Namespace
import Invar.Lib.Footprint

/-!
# Preconditions of the calls of a transaction

One rule for each of the calls that commands are made of, in the logic of
`Lib/StoreLogic`, and which of them write nothing.
-/

namespace Invar.TxProg

open StoreProg

variable {α : Type} {A : Tick → Prop} {E : Post DbError} {t : Txn Bytes Row}

theorem wp_now {Q : Post Int} : wp A now Q E t ↔ ∀ x, A x → Q x.now t := Iff.rfl

variable {k : Bytes} {Q : Post Unit} {n : Nat} {β : Type}

theorem wp_get {Q : Post (Option Row)} : wp A (get k) Q E t ↔
      ∀ x, A x → Q (t.view[k]?.filter fun row => !row.expired x.now) (t.noteRead (isKey k)) :=
  Iff.rfl

/-- What each `get` of the key finds. -/
def Finds (A : Tick → Prop) (s : Store) (k : Bytes) (o : Option Row) : Prop :=
  ∀ x, A x → (s[k]?.filter fun row => !row.expired x.now) = o

theorem wp_get_finds {o : Option Row} {Q : Post (Option Row)}
    (h : Finds A t.view k o) (hQ : Q o (t.noteRead (isKey k))) : wp A (get k) Q E t := by
  rw [wp_get]
  intro x hx
  rw [h x hx]
  exact hQ

theorem wp_set {e : Entry} :
    wp A (set e) Q E t ↔ ∀ x, A x → Q () (t.put e.key (e.row x.now)) := Iff.rfl

theorem wp_delete : wp A (delete k) Q E t ↔ Q () (t.del k) := Iff.rfl

theorem wp_scan {p : Bytes → Bool} {Q : Post (List (Bytes × Row))} :
    wp A (scan p) Q E t ↔ ∀ x, A x →
      Q ((rowsOf t.view p).filter fun kr => x.listsExpired || !kr.2.expired x.now)
        (t.noteRead p) := Iff.rfl

theorem wp_randIndex {Q : Post Nat} :
    wp A (randIndex n) Q E t ↔ ∀ x, A x → Q (x.rand % n) t := Iff.rfl

/-- The keys are gone, and nothing else has changed. -/
theorem wp_deleteAll {ks : List Bytes}
    (h : ∀ t', (∀ k, t'.view[k]? = if k ∈ ks then none else t.view[k]?) → Q () t') :
    wp A (deleteAll ks) Q E t := by
  induction ks generalizing t with
  | nil => exact h t fun _ => by simp
  | cons k ks ih =>
    unfold deleteAll
    rw [wp_seq, wp_delete]
    refine ih fun t' ht' => h t' fun k' => ?_
    rw [ht', Txn.view_del]
    by_cases hk : k' = k <;> simp [hk]

theorem wp_ofExcept {r : Except DbError α} {Q : Post α} :
    wp A (ofExcept r) Q E t ↔ (∀ a, r = .ok a → Q a t) ∧ ∀ e, r = .error e → E e t := by
  cases r with
  | ok a =>
    refine ⟨fun h => ⟨fun b hb => ?_, nofun⟩, fun h => h.1 a rfl⟩
    cases hb
    exact h
  | error e =>
    refine ⟨fun h => ⟨nofun, fun e' he => ?_⟩, fun h => h.2 e rfl⟩
    cases he
    exact h

theorem wp_ofExcept_ok {a : α} {Q : Post α} : wp A (ofExcept (.ok a)) Q E t ↔ Q a t := Iff.rfl

theorem toList_swapIfInBounds_perm (xs : Array β) (i j : Nat) :
    (xs.swapIfInBounds i j).toList.Perm xs.toList := by
  unfold Array.swapIfInBounds
  split
  · split
    · exact Array.perm_iff_toList_perm.mp (Array.swap_perm _ _)
    · exact .refl _
  · exact .refl _

theorem wp_shuffle [Inhabited β] {i : Nat} {xs : Array β}
    {Q : Post (Array β)} (h : ∀ ys : Array β, ys.toList.Perm xs.toList → Q ys t) :
    wp A (shuffle i xs) Q E t := by
  induction i generalizing xs with
  | zero => exact h xs (.refl _)
  | succ i ih =>
    intro x _
    exact ih fun ys hys => h ys (hys.trans (toList_swapIfInBounds_perm _ _ _))

/-- The positions, in some order. -/
theorem wp_randPerm {Q : Post (List Nat)}
    (h : ∀ perm : List Nat, perm.Perm (List.range n) → Q perm t) : wp A (randPerm n) Q E t := by
  unfold randPerm
  rw [wp_seq]
  refine wp_shuffle fun ys hys => h _ ?_
  rwa [Array.toList_range] at hys

/-! ## Calls that write nothing -/

theorem readOnly_pure (a : α) : ReadOnly (pure a : TxProg α) := trivial

theorem readOnly_fail (e : DbError) : ReadOnly (fail e : TxProg α) := trivial

theorem readOnly_get (k : Bytes) : ReadOnly (get k) := fun _ _ => trivial

theorem readOnly_scan (p : Bytes → Bool) : ReadOnly (scan p) := fun _ _ _ => trivial

theorem readOnly_randIndex (n : Nat) : ReadOnly (randIndex n) := fun _ => trivial

theorem readOnly_shuffle [Inhabited β] (i : Nat) (xs : Array β) : ReadOnly (shuffle i xs) := by
  induction i generalizing xs with
  | zero => exact readOnly_pure _
  | succ i ih => exact (readOnly_randIndex _).bind fun _ => ih _

theorem readOnly_randPerm (n : Nat) : ReadOnly (randPerm n) :=
  (readOnly_shuffle _ _).bind fun _ => readOnly_pure _

theorem readOnly_ofExcept (r : Except DbError α) : ReadOnly (ofExcept r) := by
  cases r <;> trivial

theorem readOnly_resolvePrefix (publicKey legacy : Bytes) :
    ReadOnly (resolvePrefix publicKey legacy) := by
  refine (readOnly_get publicKey).bind fun item => ?_
  cases item with
  | none => exact readOnly_pure _
  | some item => exact readOnly_ofExcept _

end Invar.TxProg
