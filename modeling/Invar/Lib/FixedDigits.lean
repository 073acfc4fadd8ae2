import Mathlib.Algebra.Group.Nat.Defs
import Mathlib.Order.Compare

/-!
# Numbers written with a fixed number of digits

`digits b digit width n` writes the last `width` digits of `n` in base `b`. As long
as the numbers fit, their digit strings compare as the numbers do (`compare_digits`),
so that keys built from them are in the order of the numbers.
-/

namespace FixedDigits

variable {α : Type}

def digits (b : Nat) (digit : Nat → α) : (width : Nat) → Nat → List α
  | 0, _ => []
  | width + 1, n => digits b digit width (n / b) ++ [digit (n % b)]

variable {b n width : Nat} {digit : Nat → α} {x : List α}

@[simp] theorem length_digits (b : Nat) (digit : Nat → α) (width n : Nat) :
    (digits b digit width n).length = width := by
  induction width generalizing n with
  | zero => rfl
  | succ width ih => simp [digits, ih]

theorem mem_digits {a : α} (hb : 0 < b)
    (h : a ∈ digits b digit width n) : ∃ d, d < b ∧ digit d = a := by
  induction width generalizing n with
  | zero => cases h
  | succ width ih =>
    rcases List.mem_append.mp h with h | h
    · exact ih h
    · exact ⟨n % b, Nat.mod_lt _ hb, (List.mem_singleton.mp h).symm⟩

/-! ## Comparing strings piece by piece -/

variable [Ord α]

theorem compare_append_of_length {y x' y' : List α} (h : x.length = y.length) :
    compare (x ++ x') (y ++ y') = (compare x y).then (compare x' y') := by
  induction x generalizing y with
  | nil =>
    rw [List.length_nil, eq_comm, List.length_eq_zero_iff] at h
    subst h
    rfl
  | cons a x ih =>
    cases y with
    | nil => cases h
    | cons b y =>
      have ih := ih (Nat.succ.inj h)
      simp only [List.compare_eq_compareLex] at ih ⊢
      rw [List.cons_append, List.cons_append, List.compareLex_cons_cons,
        List.compareLex_cons_cons, ih, Ordering.then_assoc]

theorem compare_append_left [Std.ReflOrd α] (p x y : List α) :
    compare (p ++ x) (p ++ y) = compare x y := by
  induction p with
  | nil => rfl
  | cons a p ih =>
    simp only [List.compare_eq_compareLex] at ih ⊢
    rw [List.cons_append, List.cons_append, List.compareLex_cons_cons, ih]
    simp [Std.ReflOrd.compare_self]

/-- A string comes before its extensions. -/
theorem isLE_compare_append [Std.ReflOrd α] (p x : List α) : (compare p (p ++ x)).isLE = true := by
  have h := compare_append_left p [] x
  rw [List.append_nil] at h
  rw [h, List.compare_eq_compareLex]
  exact List.isLE_compareLex_nil_left

/-- The extensions of a string are next to each other. -/
theorem prefix_of_between [Std.OrientedOrd α] [Std.LawfulEqOrd α] {p k : List α}
    (hlo : (compare p k).isLE = true) (hhi : compare k (p ++ x) = .lt) : p <+: k := by
  induction p generalizing k with
  | nil => exact List.nil_prefix
  | cons a p ih =>
    cases k with
    | nil => simp at hlo
    | cons b k =>
      simp only [List.compare_eq_compareLex, List.cons_append, List.compareLex_cons_cons] at *
      have hab : a = b := by
        refine Std.LawfulEqOrd.compare_eq_iff_eq.mp ?_
        cases h : compare a b with
        | eq => rfl
        | lt => simp [Std.OrientedOrd.eq_swap (b := a), h] at hhi
        | gt => simp [h] at hlo
      subst hab
      simp only [Std.ReflCmp.compare_self, Ordering.then] at hlo hhi
      exact List.cons_prefix_cons.mpr ⟨rfl, ih hlo hhi⟩

theorem compare_div_mod (b m n : Nat) :
    compare m n = (compare (m / b) (n / b)).then (compare (m % b) (n % b)) := by
  have hm := Nat.div_add_mod m b
  have hn := Nat.div_add_mod n b
  rcases Nat.lt_trichotomy (m / b) (n / b) with h | h | h
  · rw [Nat.compare_eq_lt.mpr h, Nat.compare_eq_lt.mpr (Nat.lt_of_div_lt_div h)]
    rfl
  · rw [h, Nat.compare_eq_eq.mpr rfl]
    rw [h] at hm
    rcases Nat.lt_trichotomy (m % b) (n % b) with h' | h' | h'
    · rw [Nat.compare_eq_lt.mpr h', Nat.compare_eq_lt.mpr (by omega)]
      rfl
    · rw [h', Nat.compare_eq_eq.mpr rfl, Nat.compare_eq_eq.mpr (by omega)]
      rfl
    · rw [Nat.compare_eq_gt.mpr h', Nat.compare_eq_gt.mpr (by omega)]
      rfl
  · rw [Nat.compare_eq_gt.mpr h, Nat.compare_eq_gt.mpr (Nat.lt_of_div_lt_div h)]
    rfl

/-- **Digit strings of one width compare as the numbers.** -/
theorem compare_digits (hb : 0 < b)
    (hd : ∀ c d, c < b → d < b → compare (digit c) (digit d) = compare c d) {m : Nat}
    (hm : m < b ^ width) (hn : n < b ^ width) :
    compare (digits b digit width m) (digits b digit width n) = compare m n := by
  induction width generalizing m n with
  | zero =>
    rw [Nat.pow_zero, Nat.lt_one_iff] at hm hn
    subst hm hn
    rfl
  | succ width ih =>
    have hlast : compare [digit (m % b)] [digit (n % b)] = compare (m % b) (n % b) := by
      rw [List.compare_eq_compareLex, List.compareLex_cons_cons,
        hd _ _ (Nat.mod_lt m hb) (Nat.mod_lt n hb), List.compareLex_nil_nil, Ordering.then_eq]
    rw [digits, digits, compare_append_of_length (by simp), hlast,
      ih (Nat.div_lt_of_lt_mul (Nat.mul_comm _ b ▸ hm))
        (Nat.div_lt_of_lt_mul (Nat.mul_comm _ b ▸ hn)), ← compare_div_mod b m n]

end FixedDigits
