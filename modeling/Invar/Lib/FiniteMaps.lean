import Std.Data.ExtTreeMap
import Mathlib.Data.List.Nodup

/-!
# Insertions into a finite map, and its size

What one insertion or removal does to the number of keys, and lists of them.
-/

namespace FiniteMap

variable {κ β : Type} [Ord κ] [Std.TransOrd κ] {m : Std.ExtTreeMap κ β} {k : κ} {v : β}

/-- The pairs are inserted one after the other. -/
def insertAll (pairs : List (κ × β)) (m : Std.ExtTreeMap κ β) : Std.ExtTreeMap κ β :=
  pairs.foldl (fun m kv => m.insert kv.1 kv.2) m

def eraseAll (ks : List κ) (m : Std.ExtTreeMap κ β) : Std.ExtTreeMap κ β :=
  ks.foldl Std.ExtTreeMap.erase m

theorem nodup_keys (m : Std.ExtTreeMap κ β) : (m.toList.map (·.1)).Nodup := by
  rw [Std.ExtTreeMap.map_fst_toList_eq_keys]
  exact Std.ExtTreeMap.nodup_keys

theorem contains_iff : m.contains k = true ↔ (m[k]?).isSome = true := by
  rw [← Std.ExtTreeMap.mem_iff_contains, Std.ExtTreeMap.mem_iff_isSome_getElem?]

theorem size_insert_of_none (h : m[k]? = none) (v : β) : (m.insert k v).size = m.size + 1 := by
  rw [Std.ExtTreeMap.size_insert, if_neg (by rw [contains_iff, h]; simp)]

theorem size_insert_of_some {v' : β} (h : m[k]? = some v') (v : β) :
    (m.insert k v).size = m.size := by
  rw [Std.ExtTreeMap.size_insert, if_pos (contains_iff.mpr (by rw [h]; rfl))]

theorem size_insert_le (m : Std.ExtTreeMap κ β) (k : κ) (v : β) :
    m.size ≤ (m.insert k v).size ∧ (m.insert k v).size ≤ m.size + 1 := by
  rw [Std.ExtTreeMap.size_insert]
  split <;> omega

theorem size_insertAll_le (pairs : List (κ × β)) (m : Std.ExtTreeMap κ β) :
    m.size ≤ (insertAll pairs m).size ∧ (insertAll pairs m).size ≤ m.size + pairs.length := by
  induction pairs generalizing m with
  | nil => exact ⟨Nat.le_refl _, Nat.le_refl _⟩
  | cons kv pairs ih =>
    have hone := size_insert_le m kv.1 kv.2
    have hrest := ih (m.insert kv.1 kv.2)
    rw [insertAll, List.foldl_cons, List.length_cons]
    rw [insertAll] at hrest
    omega

theorem size_pos_of_some (h : m[k]? = some v) : 0 < m.size := by
  refine Nat.pos_of_ne_zero fun hzero => ?_
  rw [Std.ExtTreeMap.eq_empty_iff_size_eq_zero.mpr hzero] at h
  simp at h

theorem size_insert_pos (m : Std.ExtTreeMap κ β) (k : κ) (v : β) : 0 < (m.insert k v).size :=
  size_pos_of_some (k := k) (v := v) (by simp)

variable {pairs : List (κ × β)}

theorem size_insertAll_pos (h : pairs ≠ []) (m : Std.ExtTreeMap κ β) :
    0 < (insertAll pairs m).size := by
  cases pairs with
  | nil => exact absurd rfl h
  | cons kv pairs =>
    exact Nat.lt_of_lt_of_le (size_insert_pos m kv.1 kv.2) (size_insertAll_le pairs _).1

theorem size_erase_of_some (h : m[k]? = some v) : (m.erase k).size = m.size - 1 := by
  rw [Std.ExtTreeMap.size_erase, if_pos (contains_iff.mpr (by rw [h]; rfl))]

theorem size_eraseAll_le (ks : List κ) (m : Std.ExtTreeMap κ β) :
    (eraseAll ks m).size ≤ m.size := by
  induction ks generalizing m with
  | nil => exact Nat.le_refl _
  | cons k ks ih =>
    refine Nat.le_trans (ih (m.erase k)) ?_
    rw [Std.ExtTreeMap.size_erase]
    split <;> omega

variable [Std.LawfulEqOrd κ]

theorem erase_of_none (h : m[k]? = none) : m.erase k = m := by
  refine Std.ExtTreeMap.ext_getElem? fun k' => ?_
  rw [Std.ExtTreeMap.getElem?_erase]
  split
  · rename_i heq
    rw [← Std.LawfulEqCmp.eq_of_compare heq, h]
  · rfl

theorem eraseAll_empty (ks : List κ) : eraseAll ks (∅ : Std.ExtTreeMap κ β) = ∅ := by
  induction ks with
  | nil => rfl
  | cons k ks ih =>
    rw [eraseAll, List.foldl_cons, erase_of_none (by simp)]
    exact ih

variable [DecidableEq κ]

theorem getElem?_insert_eq (m : Std.ExtTreeMap κ β) (k : κ) (v : β) (k' : κ) :
    (m.insert k v)[k']? = if k' = k then some v else m[k']? := by
  rw [Std.ExtTreeMap.getElem?_insert]
  simp only [Std.LawfulEqOrd.compare_eq_iff_eq, eq_comm (a := k)]

theorem getElem?_erase_eq (m : Std.ExtTreeMap κ β) (k k' : κ) :
    (m.erase k)[k']? = if k' = k then none else m[k']? := by
  rw [Std.ExtTreeMap.getElem?_erase]
  simp only [Std.LawfulEqOrd.compare_eq_iff_eq, eq_comm (a := k)]

theorem getElem?_insertAll_of_notMem (h : k ∉ pairs.map (·.1))
    (m : Std.ExtTreeMap κ β) : (insertAll pairs m)[k]? = m[k]? := by
  induction pairs generalizing m with
  | nil => rfl
  | cons kv pairs ih =>
    rw [List.map_cons, List.mem_cons, not_or] at h
    rw [insertAll, List.foldl_cons]
    refine (ih h.2 _).trans ?_
    rw [getElem?_insert_eq, if_neg h.1]

theorem getElem?_insertAll_of_mem (hnodup : (pairs.map (·.1)).Nodup)
    (h : (k, v) ∈ pairs) (m : Std.ExtTreeMap κ β) : (insertAll pairs m)[k]? = some v := by
  induction pairs generalizing m with
  | nil => cases h
  | cons kv pairs ih =>
    rw [List.map_cons, List.nodup_cons] at hnodup
    rw [insertAll, List.foldl_cons]
    rcases List.mem_cons.mp h with rfl | h
    · refine (getElem?_insertAll_of_notMem hnodup.1 _).trans ?_
      rw [getElem?_insert_eq, if_pos rfl]
    · exact ih hnodup.2 h _

/-- A map is made from its pairs. -/
theorem insertAll_eq (hnodup : (pairs.map (·.1)).Nodup)
    (h : ∀ k v, (k, v) ∈ pairs ↔ m[k]? = some v) : insertAll pairs ∅ = m := by
  refine Std.ExtTreeMap.ext_getElem? fun k => ?_
  cases hk : m[k]? with
  | some v => exact getElem?_insertAll_of_mem hnodup ((h k v).mpr hk) ∅
  | none =>
    rw [getElem?_insertAll_of_notMem fun hmem => ?_]
    · simp
    · obtain ⟨⟨k', v⟩, hkv, rfl⟩ := List.mem_map.mp hmem
      rw [(h k' v).mp hkv] at hk
      cases hk

theorem getElem?_eraseAll (ks : List κ) (m : Std.ExtTreeMap κ β) (k : κ) :
    (eraseAll ks m)[k]? = if k ∈ ks then none else m[k]? := by
  induction ks generalizing m with
  | nil => simp [eraseAll]
  | cons k' ks ih =>
    rw [eraseAll, List.foldl_cons]
    refine (ih (m.erase k')).trans ?_
    rw [getElem?_erase_eq]
    by_cases hk : k = k' <;> simp [hk]

/-- Keys that are all there and different are all removed. -/
theorem size_eraseAll {ks : List κ} (hnodup : ks.Nodup) (m : Std.ExtTreeMap κ β)
    (hmem : ∀ k ∈ ks, (m[k]?).isSome = true) : (eraseAll ks m).size = m.size - ks.length := by
  induction ks generalizing m with
  | nil => rfl
  | cons k ks ih =>
    rw [List.nodup_cons] at hnodup
    rw [List.forall_mem_cons] at hmem
    obtain ⟨v, hv⟩ := Option.isSome_iff_exists.mp hmem.1
    have hrest : ∀ k' ∈ ks, ((m.erase k)[k']?).isSome = true := fun k' hk' => by
      rw [getElem?_erase_eq, if_neg fun (heq : k' = k) => hnodup.1 (heq ▸ hk')]
      exact hmem.2 k' hk'
    rw [eraseAll, List.foldl_cons, List.length_cons]
    refine (ih hnodup.2 (m.erase k) hrest).trans ?_
    rw [size_erase_of_some hv]
    omega

/-- Keys that are all new and different are all counted. -/
theorem size_insertAll (hnodup : (pairs.map (·.1)).Nodup)
    (m : Std.ExtTreeMap κ β) (hnew : ∀ kv ∈ pairs, m[kv.1]? = none) :
    (insertAll pairs m).size = m.size + pairs.length := by
  induction pairs generalizing m with
  | nil => rfl
  | cons kv pairs ih =>
    rw [List.map_cons, List.nodup_cons] at hnodup
    rw [List.forall_mem_cons] at hnew
    have hrest : ∀ kv' ∈ pairs, (m.insert kv.1 kv.2)[kv'.1]? = none := fun kv' hkv' => by
      rw [getElem?_insert_eq, if_neg fun (heq : kv'.1 = kv.1) =>
        hnodup.1 (heq ▸ List.mem_map_of_mem hkv')]
      exact hnew.2 kv' hkv'
    rw [insertAll, List.foldl_cons, List.length_cons]
    refine (ih hnodup.2 _ hrest).trans ?_
    rw [size_insert_of_none hnew.1]
    omega

/-! ## Maps gathered -/

/-- A value is added at the end of the list of its key. -/
def append (kv : κ × β) (lists : Std.ExtTreeMap κ (List β)) : Std.ExtTreeMap κ (List β) :=
  lists.insert kv.1 ((lists[kv.1]?).getD [] ++ [kv.2])

/-- The values of each key, in the order of the maps. -/
def gather (maps : List (Std.ExtTreeMap κ β)) : Std.ExtTreeMap κ (List β) :=
  maps.foldl (fun lists m => m.toList.foldl (fun lists kv => append kv lists) lists) ∅

/-- A list with something in it. -/
def ofList : List β → Option (List β)
  | [] => none
  | vs => some vs

theorem getElem?_append (kv : κ × β) (lists : Std.ExtTreeMap κ (List β)) (k : κ) :
    (append kv lists)[k]? =
      if k = kv.1 then some ((lists[k]?).getD [] ++ [kv.2]) else lists[k]? := by
  unfold append
  rw [getElem?_insert_eq]
  by_cases hk : k = kv.1
  · rw [if_pos hk, if_pos hk, hk]
  · rw [if_neg hk, if_neg hk]

/-- Each key occurs once, so that its list grows by one value. -/
theorem getElem?_foldl_append (hnodup : (pairs.map (·.1)).Nodup)
    (lists : Std.ExtTreeMap κ (List β)) (k : κ) : (k ∉ pairs.map (·.1) →
      (pairs.foldl (fun lists kv => append kv lists) lists)[k]? = lists[k]?) ∧
    ∀ v, (k, v) ∈ pairs → (pairs.foldl (fun lists kv => append kv lists) lists)[k]? =
      some ((lists[k]?).getD [] ++ [v]) := by
  induction pairs generalizing lists with
  | nil => exact ⟨fun _ => rfl, fun v hv => absurd hv List.not_mem_nil⟩
  | cons kv pairs ih =>
    rw [List.map_cons, List.nodup_cons] at hnodup
    obtain ⟨hother, hown⟩ := ih hnodup.2 (append kv lists)
    rw [List.foldl_cons]
    constructor
    · intro hk
      rw [List.map_cons, List.mem_cons, not_or] at hk
      rw [hother hk.2, getElem?_append, if_neg hk.1]
    · intro v hv
      rcases List.mem_cons.mp hv with rfl | hv
      · rw [hother hnodup.1, getElem?_append, if_pos rfl]
      · have hne : k ≠ kv.1 := fun heq => hnodup.1 (heq ▸ List.mem_map_of_mem hv)
        rw [hown v hv, getElem?_append, if_neg hne]

theorem getElem?_gather_from (maps : List (Std.ExtTreeMap κ β)) (lists : Std.ExtTreeMap κ (List β))
    (k : κ) (hlists : lists[k]? = ofList ((lists[k]?).getD [])) :
    (maps.foldl (fun lists m => m.toList.foldl (fun lists kv => append kv lists) lists) lists)[k]? =
      ofList ((lists[k]?).getD [] ++ maps.filterMap (·[k]?)) := by
  induction maps generalizing lists with
  | nil => rw [List.foldl_nil, List.filterMap_nil, List.append_nil, ← hlists]
  | cons m maps ih =>
    obtain ⟨hother, hown⟩ := getElem?_foldl_append (nodup_keys m) lists k
    rw [List.foldl_cons]
    cases hk : m[k]? with
    | none =>
      have hstep := hother fun hmem => by
        obtain ⟨⟨k', v⟩, hkv, rfl⟩ := List.mem_map.mp hmem
        rw [Std.ExtTreeMap.mem_toList_iff_getElem?_eq_some.mp hkv] at hk
        cases hk
      rw [ih _ (by rw [hstep, ← hlists]), hstep, List.filterMap_cons, hk]
    | some v =>
      have hstep := hown v (Std.ExtTreeMap.mem_toList_iff_getElem?_eq_some.mpr hk)
      have hne : (lists[k]?).getD [] ++ [v] ≠ [] := by simp
      rw [ih _ ?_, hstep, List.filterMap_cons, hk, Option.getD_some, List.append_assoc]
      · rfl
      · rw [hstep, Option.getD_some]
        cases hvs : (lists[k]?).getD [] ++ [v] with
        | nil => exact absurd hvs hne
        | cons w ws => rfl

/-- **The values of a key** are those that the maps have for it. -/
theorem getElem?_gather (maps : List (Std.ExtTreeMap κ β)) (k : κ) :
    (gather maps)[k]? = ofList (maps.filterMap (·[k]?)) := by
  have hempty : (∅ : Std.ExtTreeMap κ (List β))[k]? = none := Std.ExtTreeMap.getElem?_empty
  refine (getElem?_gather_from maps ∅ k (by rw [hempty]; rfl)).trans ?_
  rw [hempty]
  rfl

end FiniteMap
