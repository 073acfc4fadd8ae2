import Mathlib.Data.List.Basic
import Mathlib.Data.List.Perm.Subperm
import Mathlib.Order.Basic

/-!
# Paging through a changing set

A walk returns the elements of an ordered set in pages. A page starts after the last
element of the page before, and has every wanted element up to its own last one, or
all of them if it is the last page. Between two pages the set may change. At page `i`
the elements `live i` have to be returned, and those of `listed i` may be.

Where a page starts at an index instead, an element is returned only if those at the indexes
before it stay: then it cannot move to an index that was passed (`SliceWalk.complete`).
-/

namespace Paging

variable {ι α : Type} [Ord α]

def Before (a b : α) : Prop := compare a b = .lt

structure IsPage (live listed : α → Prop) (after : Option α) (keys : List α) (next : Option α) :
    Prop where
  sorted : keys.Pairwise Before
  fresh : ∀ k ∈ keys, ∀ c ∈ after, Before c k
  sound : ∀ k ∈ keys, listed k
  complete : ∀ k, live k → (∀ c ∈ after, Before c k) → (∀ c ∈ next, ¬ Before c k) → k ∈ keys
  last : ∀ c ∈ next, keys.getLast? = some c

/-- A walk from after an element to the end, with the pages that it took. -/
inductive Walk (live listed : ι → α → Prop) : Option α → List ι → List α → Prop
  | last {after : Option α} {i : ι} {keys : List α} :
      IsPage (live i) (listed i) after keys none → Walk live listed after [i] keys
  | more {after : Option α} {i : ι} {is : List ι} {keys rest : List α} {c : α} :
      IsPage (live i) (listed i) after keys (some c) → Walk live listed (some c) is rest →
        Walk live listed after (i :: is) (keys ++ rest)

variable {live listed : ι → α → Prop} {after : Option α} {is : List ι} {keys : List α}

variable {a b c k : α} {n : Nat} {xs ys : List α}

theorem Before.trans [Std.TransOrd α] (h : Before a b) (h' : Before b c) : Before a c :=
  Std.TransCmp.lt_trans h h'

theorem not_before_self [Std.ReflOrd α] (a : α) : ¬ Before a a := by
  simp [Before, Std.ReflCmp.compare_self]

/-- Everything on a page is at or before its last element. -/
theorem not_before_of_getLast? (hs : keys.Pairwise Before)
    (hlast : keys.getLast? = some c) (hk : k ∈ keys) : k = c ∨ Before k c := by
  obtain ⟨init, rfl⟩ := List.getLast?_eq_some_iff.mp hlast
  rcases List.mem_append.mp hk with hk | hk
  · exact .inr ((List.pairwise_append.mp hs).2.2 k hk c (List.mem_singleton_self c))
  · exact .inl (List.mem_singleton.mp hk)

theorem Walk.fresh [Std.TransOrd α] (h : Walk live listed after is keys) :
    ∀ k ∈ keys, ∀ c ∈ after, Before c k := by
  induction h with
  | last hp => exact hp.fresh
  | more hp _ ih =>
    intro k hk c hc
    rcases List.mem_append.mp hk with hk | hk
    · exact hp.fresh k hk c hc
    · have hlast := List.mem_of_getLast? (hp.last _ rfl)
      exact (hp.fresh _ hlast c hc).trans (ih k hk _ rfl)

/-- **No element is returned twice**, whatever happens between the pages. -/
theorem Walk.sorted [Std.TransOrd α] (h : Walk live listed after is keys) :
    keys.Pairwise Before := by
  induction h with
  | last hp => exact hp.sorted
  | more hp hrest ih =>
    refine List.pairwise_append.mpr ⟨hp.sorted, ih, fun a ha b hb => ?_⟩
    have hb' := hrest.fresh b hb _ rfl
    rcases not_before_of_getLast? hp.sorted (hp.last _ rfl) ha with rfl | hlt
    · exact hb'
    · exact hlt.trans hb'

theorem Walk.sound (h : Walk live listed after is keys) : ∀ k ∈ keys, ∃ i ∈ is, listed i k := by
  induction h with
  | last hp => exact fun k hk => ⟨_, List.mem_singleton_self _, hp.sound k hk⟩
  | more hp _ ih =>
    intro k hk
    rcases List.mem_append.mp hk with hk | hk
    · exact ⟨_, List.mem_cons_self, hp.sound k hk⟩
    · obtain ⟨i, hi, hl⟩ := ih k hk
      exact ⟨i, List.mem_cons_of_mem _ hi, hl⟩

/-- **An element that is there all the time is returned.** -/
theorem Walk.complete (h : Walk live listed after is keys) (hlive : ∀ i ∈ is, live i k)
    (hafter : ∀ c ∈ after, Before c k) : k ∈ keys := by
  induction h with
  | last hp => exact hp.complete k (hlive _ (List.mem_singleton_self _)) hafter nofun
  | @more _ _ _ _ _ c hp _ ih =>
    by_cases hc : Before c k
    · refine List.mem_append_right _ (ih (fun i hi => hlive i (List.mem_cons_of_mem _ hi)) ?_)
      rintro _ ⟨⟩
      exact hc
    · refine List.mem_append_left _ (hp.complete k (hlive _ List.mem_cons_self) hafter ?_)
      rintro _ ⟨⟩
      exact hc

theorem nodup_of_sorted [Std.ReflOrd α] (h : keys.Pairwise Before) : keys.Nodup := by
  refine h.imp fun {a b} hab => ?_
  rintro rfl
  exact not_before_self a hab

/-! ## Pages by index -/

omit [Ord α] in
theorem mem_take_or_drop (h : k ∈ xs) (n : Nat) : k ∈ xs.take n ∨ k ∈ xs.drop n := by
  rw [← List.mem_append, List.take_append_drop]
  exact h

theorem before_of_take_drop (hs : xs.Pairwise Before)
    (ha : a ∈ xs.take n) (hb : b ∈ xs.drop n) : Before a b := by
  rw [← List.take_append_drop n xs] at hs
  exact (List.pairwise_append.mp hs).2.2 a ha b hb

/-- As many elements as were passed are still there. -/
theorem length_le_of_kept [Std.ReflOrd α] (hxs : xs.Pairwise Before)
    (hn : n ≤ xs.length) (hkept : ∀ k ∈ xs.take n, k ∈ ys) : n ≤ ys.length := by
  have hnodup := nodup_of_sorted (hxs.sublist (List.take_sublist n xs))
  have hle := (List.subperm_of_subset hnodup hkept).length_le
  rwa [List.length_take, Nat.min_eq_left hn] at hle

/-- **What was not passed stays ahead**, if all that was passed is still there. -/
theorem mem_drop_of_kept [Std.TransOrd α] [Std.ReflOrd α]
    (hxs : xs.Pairwise Before) (hys : ys.Pairwise Before) (hn : n ≤ xs.length)
    (hkept : ∀ k ∈ xs.take n, k ∈ ys) (hx : k ∈ xs.drop n) (hy : k ∈ ys) : k ∈ ys.drop n := by
  refine (mem_take_or_drop hy n).resolve_left fun hk => ?_
  -- the passed elements come before `k`, so there would be one too many before index `n`
  have hbefore : ∀ a ∈ xs.take n, Before a k := fun a ha => before_of_take_drop hxs ha hx
  have hnodup : (k :: xs.take n).Nodup := by
    refine List.nodup_cons.mpr ⟨fun hmem => not_before_self k (hbefore k hmem), ?_⟩
    exact nodup_of_sorted (hxs.sublist (List.take_sublist n xs))
  have hsubset : k :: xs.take n ⊆ ys.take n := by
    intro a ha
    rcases List.mem_cons.mp ha with rfl | ha
    · exact hk
    · refine (mem_take_or_drop (hkept a ha) n).resolve_right fun hdrop => ?_
      exact not_before_self a ((hbefore a ha).trans (before_of_take_drop hys hk hdrop))
  have hle := (List.subperm_of_subset hnodup hsubset).length_le
  rw [List.length_cons, List.length_take, List.length_take, Nat.min_eq_left hn] at hle
  omega

/-- A walk by index, with the list that each page sees. -/
inductive SliceWalk : (start : Nat) → List (List α) → List α → Prop
  | last {start : Nat} {xs : List α} {rest : List (List α)} :
      SliceWalk start (xs :: rest) (xs.drop start)
  | more {start stop : Nat} {xs ys keys : List α} {rest : List (List α)} :
      stop ≤ xs.length → (∀ k ∈ xs.take stop, k ∈ ys) → SliceWalk stop (ys :: rest) keys →
        SliceWalk start (xs :: ys :: rest) ((xs.take stop).drop start ++ keys)

theorem SliceWalk.complete [Std.TransOrd α] [Std.ReflOrd α] {start : Nat} {lists : List (List α)}
    (h : SliceWalk start lists keys) (hsorted : ∀ xs ∈ lists, xs.Pairwise Before)
    (hk : ∀ xs ∈ lists, k ∈ xs) (hstart : ∀ xs ∈ lists.head?, k ∈ xs.drop start) : k ∈ keys := by
  induction h with
  | last => exact hstart _ rfl
  | @more start stop xs ys keys rest hstop hkept _ ih =>
    have hdrop := hstart xs rfl
    by_cases htake : k ∈ xs.take stop
    · refine List.mem_append_left _ ?_
      refine (mem_take_or_drop htake start).resolve_left fun hbefore => ?_
      refine not_before_self k (before_of_take_drop (hsorted xs List.mem_cons_self) ?_ hdrop)
      rw [List.take_take, Nat.min_comm, ← List.take_take] at hbefore
      exact List.mem_of_mem_take hbefore
    · refine List.mem_append_right _ ?_
      have hahead := (mem_take_or_drop (hk xs List.mem_cons_self) stop).resolve_left htake
      refine ih (fun zs hzs => hsorted zs (List.mem_cons_of_mem _ hzs))
        (fun zs hzs => hk zs (List.mem_cons_of_mem _ hzs)) ?_
      rintro _ ⟨⟩
      exact mem_drop_of_kept (hsorted xs List.mem_cons_self)
        (hsorted ys (List.mem_cons_of_mem _ List.mem_cons_self)) hstop hkept hahead
        (hk ys (List.mem_cons_of_mem _ List.mem_cons_self))

end Paging
