import Mathlib.Data.List.Perm.Basic
import Mathlib.Data.List.Nodup
import Std.Data.ExtTreeMap

/-!
# Lists in the order of a comparison

`rank cmp l` has the elements of `l` in the order of `cmp`. If `cmp` separates different
elements and none occurs twice, it is the only such list (`eq_rank`), so that two ways to
produce a list in order need only be compared by their elements.
-/

namespace Ranking

variable {α : Type} {cmp : α → α → Ordering} {l xs : List α}

def rank (cmp : α → α → Ordering) (l : List α) : List α := l.mergeSort fun a b => (cmp a b).isLE

/-- Strictly ascending. -/
def Ranked (cmp : α → α → Ordering) (l : List α) : Prop := l.Pairwise fun a b => cmp a b = .lt

theorem rank_perm (cmp : α → α → Ordering) (l : List α) : (rank cmp l).Perm l :=
  List.mergeSort_perm _ _

theorem mem_rank {a : α} : a ∈ rank cmp l ↔ a ∈ l := (rank_perm cmp l).mem_iff

@[simp] theorem length_rank (cmp : α → α → Ordering) (l : List α) :
    (rank cmp l).length = l.length :=
  List.length_mergeSort _

/-- A sort by a test that is the comparison on the elements of the list. -/
theorem mergeSort_eq_rank {le : α → α → Bool} (h : ∀ a ∈ l, ∀ b ∈ l, le a b = (cmp a b).isLE) :
    l.mergeSort le = rank cmp l := by
  have hmap := List.map_mergeSort (f := id) (s := fun a b => (cmp a b).isLE) h
  rwa [List.map_id, List.map_id] at hmap

theorem Ranked.sublist (h : Ranked cmp l) (hsub : xs.Sublist l) :
    Ranked cmp xs := List.Pairwise.sublist hsub h

variable [Std.TransCmp cmp]

theorem Ranked.nodup (h : Ranked cmp l) : l.Nodup :=
  h.imp fun {a b} hlt heq => by
    have hself : cmp b b = .eq := Std.ReflCmp.compare_self
    rw [heq, hself] at hlt
    cases hlt

variable [Std.LawfulEqCmp cmp]

theorem ranked_rank (h : l.Nodup) : Ranked cmp (rank cmp l) := by
  have hsorted : (rank cmp l).Pairwise fun a b => (cmp a b).isLE = true :=
    List.pairwise_mergeSort (fun _ _ _ => Std.TransCmp.isLE_trans)
      (fun a b => by
        have hswap : cmp b a = (cmp a b).swap := Std.OrientedCmp.eq_swap
        rw [hswap]
        cases cmp a b <;> rfl) l
  have hnodup : (rank cmp l).Nodup := (rank_perm cmp l).nodup_iff.mpr h
  refine hsorted.imp₂ (fun a b hle hne => ?_) hnodup
  cases hcmp : cmp a b with
  | lt => rfl
  | eq => exact absurd (Std.LawfulEqCmp.eq_of_compare hcmp) hne
  | gt =>
    rw [hcmp] at hle
    cases hle

omit [Std.LawfulEqCmp cmp] in
/-- **Two lists of the same elements in ascending order are one list.** -/
theorem Ranked.eq_of_perm (hl : Ranked cmp l) (hxs : Ranked cmp xs) (hperm : xs.Perm l) :
    xs = l := by
  refine hperm.eq_of_pairwise (fun a b _ _ hab hba => ?_) hxs hl
  rw [Std.OrientedCmp.gt_of_lt hab] at hba
  cases hba

theorem eq_rank (hxs : Ranked cmp xs) (hperm : xs.Perm l) : xs = rank cmp l :=
  (ranked_rank (hperm.nodup_iff.mp hxs.nodup)).eq_of_perm hxs (hperm.trans (rank_perm cmp l).symm)

end Ranking
