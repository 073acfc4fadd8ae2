import Invar.Basic
import Mathlib.Data.Nat.Digits.Defs
import Mathlib.Tactic.IntervalCases

/-!
# Decimal texts

The digits that `to_string` prints, most significant first.
-/

namespace Invar

variable {d n max : Nat} {b : UInt8} {bs : Bytes}

theorem digitByte (h : d < 10) : UInt8.ofNat (Nat.digitChar d).toNat = UInt8.ofNat (48 + d) := by
  interval_cases d <;> rfl

theorem decimal_of_lt (h : n < 10) : decimal n = [UInt8.ofNat (48 + n)] := by
  rw [decimal, Nat.toDigits_of_lt_base h, List.map_singleton, digitByte h]

theorem decimal_of_le (h : 10 ≤ n) :
    decimal n = decimal (n / 10) ++ [UInt8.ofNat (48 + n % 10)] := by
  rw [decimal, Nat.toDigits_of_base_le (by decide) h, List.map_append, List.map_singleton,
    digitByte (Nat.mod_lt _ (by decide)), decimal]

theorem decimal_ne_nil (n : Nat) : decimal n ≠ [] := by
  simp [decimal, Nat.toDigits_ne_nil]

theorem isAsciiDigit_ofNat (h : d < 10) : isAsciiDigit (UInt8.ofNat (48 + d)) = true := by
  interval_cases d <;> rfl

theorem isAsciiDigit_of_mem_decimal (h : b ∈ decimal n) : isAsciiDigit b = true := by
  induction n using Nat.strongRecOn with
  | ind n ih =>
    by_cases hn : n < 10
    · rw [decimal_of_lt hn, List.mem_singleton] at h
      rw [h, isAsciiDigit_ofNat hn]
    · rw [decimal_of_le (by omega), List.mem_append, List.mem_singleton] at h
      rcases h with h | h
      · exact ih _ (by omega) h
      · rw [h, isAsciiDigit_ofNat (Nat.mod_lt _ (by decide))]

theorem length_decimal_le {k : Nat} (hk : 0 < k) (h : n < 10 ^ k) : (decimal n).length ≤ k := by
  rw [decimal, List.length_map]
  exact Nat.toDigits_length 10 n k hk h

theorem digit_toNat (h : d < 10) : (UInt8.ofNat (48 + d)).toNat - 48 = d := by
  interval_cases d <;> rfl

/-- The value of a digit string, as the parsers add it up. -/
def digitsValue (ds : Bytes) : Nat := ds.foldl (fun n b => n * 10 + (b.toNat - 48)) 0

theorem digitsValue_decimal (n : Nat) : digitsValue (decimal n) = n := by
  induction n using Nat.strongRecOn with
  | ind n ih =>
    by_cases hn : n < 10
    · rw [decimal_of_lt hn, digitsValue]
      simp only [List.foldl_cons, List.foldl_nil, digit_toNat hn]
      omega
    · have hmod := Nat.mod_lt n (by decide : 0 < 10)
      have ih := ih (n / 10) (by omega)
      rw [decimal_of_le (by omega), digitsValue, List.foldl_append]
      rw [digitsValue] at ih
      simp only [ih, List.foldl_cons, List.foldl_nil, digit_toNat hmod]
      omega

theorem decimal_inj {m : Nat} (h : decimal m = decimal n) : m = n := by
  rw [← digitsValue_decimal m, h, digitsValue_decimal]

theorem head_decimal (hb : isAsciiDigit b = false) : (decimal n).head? ≠ some b := by
  intro h
  have hdigit := isAsciiDigit_of_mem_decimal (List.mem_of_mem_head? h)
  rw [hb] at hdigit
  cases hdigit

theorem intText_inj {m n : Int} (h : intText m = intText n) : m = n := by
  have hsign : ∀ k : Nat, ∀ ds : Bytes, (45 : UInt8) :: ds ≠ decimal k := fun k ds heq =>
    head_decimal (n := k) (b := 45) rfl (heq ▸ rfl)
  unfold intText at h
  split at h <;> split at h
  · have := decimal_inj (List.cons.inj h).2
    omega
  · exact absurd h (hsign _ _)
  · exact absurd h.symm (hsign _ _)
  · have := decimal_inj h
    omega

theorem parseUnsigned_decimal (h : n ≤ max) : parseUnsigned max (decimal n) = some n := by
  have hall : (decimal n).all isAsciiDigit = true :=
    List.all_eq_true.mpr fun _ => isAsciiDigit_of_mem_decimal
  have hvalue := digitsValue_decimal n
  rw [digitsValue] at hvalue
  simp only [parseUnsigned, head_decimal (b := 43) rfl, if_false, hall, hvalue, h, if_true,
    Bool.not_true, Bool.or_false, List.isEmpty_iff, decimal_ne_nil]

theorem parseI64_decimal (h : n < 2 ^ 63) : parseI64 (decimal n) = some (n : Int) := by
  unfold parseI64
  split
  · rename_i ds heq
    exact absurd (heq ▸ rfl) (head_decimal (n := n) (b := 45) rfl)
  · rw [parseUnsigned_decimal (by omega)]
    rfl

/-- What `to_string` prints of an `i64` is parsed back. -/
theorem parseI64_intText {n : Int} (hmin : -2 ^ 63 ≤ n) (hmax : n < 2 ^ 63) :
    parseI64 (intText n) = some n := by
  unfold intText
  split
  · unfold parseI64
    split
    · rename_i ds heq
      obtain rfl : decimal n.natAbs = ds := (List.cons.inj heq).2
      rw [if_neg (head_decimal rfl), parseUnsigned_decimal (by omega)]
      exact congrArg some (show -(n.natAbs : Int) = n by omega)
    · rename_i hne
      exact absurd rfl (hne _)
  · rw [parseI64_decimal (by omega)]
    exact congrArg some (by omega)

/-! ## 64-bit numbers -/

/-- The number fits 64 bits. -/
def IsI64 (n : Int) : Prop := -2 ^ 63 ≤ n ∧ n < 2 ^ 63

instance (n : Int) : Decidable (IsI64 n) := inferInstanceAs (Decidable (_ ∧ _))

theorem wrapI64_of_isI64 {n : Int} (h : IsI64 n) : wrapI64 n = n := by
  obtain ⟨hmin, hmax⟩ := h
  unfold wrapI64
  rw [Int.bmod_eq_of_le (by omega) (by omega)]

theorem parseUnsigned_le (h : parseUnsigned max bs = some n) : n ≤ max := by
  unfold parseUnsigned at h
  dsimp only at h
  repeat' split at h
  all_goals
    cases h
    try assumption

end Invar
