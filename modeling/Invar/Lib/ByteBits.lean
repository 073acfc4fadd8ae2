import Mathlib.Data.Nat.Bitwise

/-!
# Bits of byte strings

Bit `i` of a byte string is bit `i % 8` of its byte `i / 8`, counted from the least
significant one. Programs test and set it with the mask `1 <<< (i % 8)`.
-/

namespace ByteBits

def bitAt (bs : List UInt8) (i : Nat) : Bool := (bs.getD (i / 8) 0).toNat.testBit (i % 8)

def mask (i : Nat) : UInt8 := 1 <<< UInt8.ofNat (i % 8)

theorem toNat_mask (i : Nat) : (mask i).toNat = 2 ^ (i % 8) := by
  have hall : ∀ a < 8, ((1 : UInt8) <<< UInt8.ofNat a).toNat = 2 ^ a := by decide
  exact hall (i % 8) (Nat.mod_lt i (by decide))

/-- Testing with the mask. -/
theorem and_mask (b : UInt8) (i : Nat) : (b &&& mask i != 0) = b.toNat.testBit (i % 8) := by
  have hzero : (b &&& mask i = 0) ↔ b.toNat &&& 2 ^ (i % 8) = 0 := by
    rw [← UInt8.toNat_inj, UInt8.toNat_and, toNat_mask]
    rfl
  rw [Nat.and_two_pow] at hzero
  cases hbit : b.toNat.testBit (i % 8) <;> simp [hbit] at hzero ⊢ <;> exact hzero

/-- Setting with the mask. -/
theorem testBit_or_mask (b : UInt8) (i a : Nat) :
    (b ||| mask i).toNat.testBit a = (b.toNat.testBit a || decide (i % 8 = a)) := by
  rw [UInt8.toNat_or, toNat_mask, Nat.testBit_or, Nat.testBit_two_pow]

theorem bitAt_set {bs : List UInt8} {i : Nat} (h : i / 8 < bs.length) (j : Nat) :
    bitAt (bs.set (i / 8) (bs.getD (i / 8) 0 ||| mask i)) j = (bitAt bs j || decide (i = j)) := by
  unfold bitAt
  by_cases hbyte : i / 8 = j / 8
  · have hbit : decide (i % 8 = j % 8) = decide (i = j) := by
      congr 1
      apply propext
      omega
    rw [← hbyte, List.getD_eq_getElem?_getD, List.getElem?_set_self h, Option.getD_some,
      testBit_or_mask, hbit]
  · have hne : i ≠ j := fun hij => hbyte (by rw [hij])
    rw [List.getD_eq_getElem?_getD, List.getElem?_set_ne hbyte, ← List.getD_eq_getElem?_getD]
    simp [hne]

theorem bitAt_replicate (n i : Nat) : bitAt (List.replicate n 0) i = false := by
  unfold bitAt
  rw [List.getD_eq_getElem?_getD, List.getElem?_replicate]
  split <;> exact Nat.zero_testBit _

end ByteBits
