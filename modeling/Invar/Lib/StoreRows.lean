import Invar.Lib.StoreProg
import Mathlib.Data.List.Nodup
import Mathlib.Data.List.Perm.Basic

/-!
# The keys of a part of a store

`keysOf s p` lists the keys of `s` with `p`, in order. It is determined by which
keys there are (`keysOf_eq_of_sorted`), so that what a scan returns after some writes
follows from what each write does to single keys.
-/

namespace StoreProg

variable {κ ρ : Type} [Ord κ] [Std.TransOrd κ] [Std.LawfulEqOrd κ] {s s' : Store κ ρ} {p : κ → Bool}

def keysOf (s : Store κ ρ) (p : κ → Bool) : List κ := (rowsOf s p).map (·.1)

theorem mem_keysOf {k : κ} : k ∈ keysOf s p ↔ s[k]?.isSome = true ∧ p k = true := by
  simp only [keysOf, List.mem_map, Prod.exists, exists_and_right, exists_eq_right, mem_rowsOf,
    Option.isSome_iff_exists]

omit [Std.LawfulEqOrd κ] in
theorem sorted_keysOf (s : Store κ ρ) (p : κ → Bool) :
    (keysOf s p).Pairwise fun a b => compare a b = .lt :=
  List.pairwise_map.mpr (Std.ExtTreeMap.ordered_keys_toList.filter _)

omit [Std.LawfulEqOrd κ] in
theorem nodup_keysOf (s : Store κ ρ) (p : κ → Bool) : (keysOf s p).Nodup :=
  (sorted_keysOf s p).imp fun hlt heq => by simp [heq, Std.ReflCmp.compare_self] at hlt

/-- **Two lists of the same keys, both in order, are one list.** -/
theorem keysOf_eq_of_sorted {ks : List κ} (hs : ks.Pairwise fun a b => compare a b = .lt)
    (h : ∀ k, k ∈ ks ↔ s[k]?.isSome = true ∧ p k = true) : keysOf s p = ks := by
  have hnodup : ks.Nodup :=
    hs.imp fun hlt heq => by simp [heq, Std.ReflCmp.compare_self] at hlt
  have hperm : (keysOf s p).Perm ks :=
    (List.perm_ext_iff_of_nodup (nodup_keysOf s p) hnodup).mpr fun k => by rw [mem_keysOf, h]
  refine hperm.eq_of_pairwise (fun a b _ _ hab hba => ?_) (sorted_keysOf s p) hs
  rw [Std.OrientedCmp.gt_of_lt hab] at hba
  cases hba

/-- The same with the rows. -/
theorem rowsOf_eq_of_sorted {rows : List (κ × ρ)}
    (hs : rows.Pairwise fun a b => compare a.1 b.1 = .lt)
    (h : ∀ k r, (k, r) ∈ rows ↔ s[k]? = some r ∧ p k = true) : rowsOf s p = rows := by
  have hsorted : (rowsOf s p).Pairwise fun a b => compare a.1 b.1 = .lt :=
    List.pairwise_map.mp (sorted_keysOf s p)
  have hnodup : ∀ {l : List (κ × ρ)}, (l.Pairwise fun a b => compare a.1 b.1 = .lt) → l.Nodup :=
    fun hl => hl.imp fun hlt heq => by simp [heq, Std.ReflCmp.compare_self] at hlt
  have hperm : (rowsOf s p).Perm rows :=
    (List.perm_ext_iff_of_nodup (hnodup hsorted) (hnodup hs)).mpr fun kr => by
      rw [mem_rowsOf, h]
  refine hperm.eq_of_pairwise (fun a b _ _ hab hba => ?_) hsorted hs
  rw [Std.OrientedCmp.gt_of_lt hab] at hba
  cases hba

theorem keysOf_congr (h : ∀ k, p k = true → s[k]?.isSome = s'[k]?.isSome) :
    keysOf s p = keysOf s' p :=
  keysOf_eq_of_sorted (sorted_keysOf s' p) fun k => by
    rw [mem_keysOf]
    constructor
    · exact fun ⟨hs, hp⟩ => ⟨(h k hp).trans hs, hp⟩
    · exact fun ⟨hs, hp⟩ => ⟨(h k hp).symm.trans hs, hp⟩

omit [Std.LawfulEqOrd κ] in
theorem length_keysOf (s : Store κ ρ) (p : κ → Bool) : (keysOf s p).length = (rowsOf s p).length :=
  List.length_map _

end StoreProg
