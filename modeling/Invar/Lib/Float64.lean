import Mathlib.Algebra.Group.Int.Defs
import Mathlib.Algebra.Group.Nat.Defs

/-!
# Binary64 numbers as bit patterns

The part of IEEE 754 that a program storing scores needs: classification, the
order, round-to-nearest-even of a rational, addition and multiplication, and the
decimal texts that Rust's `f64::from_str` reads. Everything computes on natural
numbers, so closed terms evaluate.
-/

namespace Ieee754

structure F64 where
  bits : UInt64
deriving DecidableEq, Repr, Inhabited

namespace F64

def signBit (x : F64) : Bool := x.bits >>> 63 == 1

/-- The bit pattern without the sign. -/
def magnitude (x : F64) : Nat := x.bits.toNat % 2 ^ 63

def infMagnitude : Nat := 0x7ff0000000000000

def make (sign : Bool) (magnitude : Nat) : F64 :=
  ⟨UInt64.ofNat (magnitude + if sign then 2 ^ 63 else 0)⟩

def zero : F64 := make false 0

def infinity (sign : Bool) : F64 := make sign infMagnitude

def nan : F64 := ⟨0x7ff8000000000000⟩

def isNan (x : F64) : Bool := infMagnitude < x.magnitude

def isInfinite (x : F64) : Bool := x.magnitude == infMagnitude

def isFinite (x : F64) : Bool := x.magnitude < infMagnitude

def neg (x : F64) : F64 := ⟨x.bits ^^^ 0x8000000000000000⟩

/-- Orders the numbers that are not NaN; both zeros have key 0. -/
def orderKey (x : F64) : Int := if x.signBit then -x.magnitude else x.magnitude

/-- `f64::partial_cmp`. -/
def partialCmp (x y : F64) : Option Ordering :=
  if x.isNan || y.isNan then none else some (compare x.orderKey y.orderKey)

/-- The `<` of `f64`. -/
def lt (x y : F64) : Bool := x.partialCmp y == some .lt

/-- The `<=` of `f64`. -/
def le (x y : F64) : Bool := x.lt y || x.partialCmp y == some .eq

/-- The `==` of `f64`, which is not equality of bits. -/
def numEq (x y : F64) : Bool := x.partialCmp y == some .eq

/-- `f64::min`: a NaN gives way to the other number. -/
protected def min (x y : F64) : F64 := if x.isNan then y else if y.lt x then y else x

/-- `f64::max`. -/
protected def max (x y : F64) : F64 := if x.isNan then y else if x.lt y then y else x

/-! ## Rounding -/

def floorLog2 (n d : Nat) : Int :=
  if n * 2 ^ d.log2 < d * 2 ^ n.log2 then (n.log2 : Int) - d.log2 - 1
  else (n.log2 : Int) - d.log2

def roundHalfEven (n d : Nat) : Nat :=
  let q := n / d
  let r := n % d
  if 2 * r < d then q
  else if 2 * r = d then q + q % 2
  else q + 1

/-- The magnitude nearest to `n / d`, ties to even. The exponent of the last
place is at least that of the subnormals; a carry out of the significand moves
into the exponent field by itself. -/
def roundRat (n d : Nat) : Nat :=
  if n = 0 then 0
  else
    let q := max (floorLog2 n d) (-1022) - 52
    let m := if 0 ≤ q then roundHalfEven n (d * 2 ^ q.toNat)
      else roundHalfEven (n * 2 ^ (-q).toNat) d
    min (m + (q + 1074).toNat * 2 ^ 52) infMagnitude

/-- A finite magnitude as `significand * 2 ^ exponent`. -/
def decode (magnitude : Nat) : Nat × Int :=
  let e : Nat := magnitude / 2 ^ 52
  let f : Nat := magnitude % 2 ^ 52
  if e = 0 then (f, -1074) else (f + 2 ^ 52, (e : Int) - 1075)

/-- Rounds `m * 2 ^ e`. -/
def ofDyadic (sign : Bool) (m : Nat) (e : Int) : F64 :=
  make sign (if 0 ≤ e then roundRat (m * 2 ^ e.toNat) 1 else roundRat m (2 ^ (-e).toNat))

def add (x y : F64) : F64 :=
  if x.isNan || y.isNan then nan
  else if x.isInfinite then
    if y.isInfinite && x.signBit != y.signBit then nan else x
  else if y.isInfinite then y
  else
    let (m, e) := decode x.magnitude
    let (m', e') := decode y.magnitude
    let low := min e e'
    let signed (s : Bool) (n : Nat) : Int := if s then -n else n
    let sum := signed x.signBit (m * 2 ^ (e - low).toNat) +
      signed y.signBit (m' * 2 ^ (e' - low).toNat)
    if sum = 0 then make (x.signBit && y.signBit) 0
    else ofDyadic (sum < 0) sum.natAbs low

def mul (x y : F64) : F64 :=
  let sign := x.signBit != y.signBit
  if x.isNan || y.isNan then nan
  else if x.isInfinite || y.isInfinite then
    if x.magnitude = 0 || y.magnitude = 0 then nan else infinity sign
  else
    let (m, e) := decode x.magnitude
    let (m', e') := decode y.magnitude
    ofDyadic sign (m * m') (e + e')

/-- The number nearest to an integer. -/
def ofInt (n : Int) : F64 := ofDyadic (n < 0) n.natAbs 0

def sub (x y : F64) : F64 := x.add y.neg

/-- The magnitude of a finite number as a fraction. -/
def fraction (x : F64) : Nat × Nat :=
  let (m, e) := decode x.magnitude
  if 0 ≤ e then (m * 2 ^ e.toNat, 1) else (m, 2 ^ (-e).toNat)

def div (x y : F64) : F64 :=
  let sign := x.signBit != y.signBit
  if x.isNan || y.isNan || (x.isInfinite && y.isInfinite) then nan
  else if x.isInfinite then infinity sign
  else if y.isInfinite then make sign 0
  else if y.magnitude = 0 then if x.magnitude = 0 then nan else infinity sign
  else
    let (n, d) := x.fraction
    let (n', d') := y.fraction
    make sign (roundRat (n * d') (d * n'))

/-- The root of `n / d` to 128 more binary places than needed, with a last digit that
records whether it is exact. -/
def sqrt (x : F64) : F64 :=
  if x.isNan || x.magnitude = 0 then x
  else if x.signBit then nan
  else if x.isInfinite then x
  else
    let (n, d) := x.fraction
    let scaled := n * d * 2 ^ 256
    let root := scaled.sqrt
    let digit := if root * root = scaled then 0 else 1
    make false (roundRat (2 * root + digit) (2 * d * 2 ^ 128))

/-- `f64::powi`: by repeated squaring, and the inverse for a negative exponent. -/
def powi (x : F64) (n : Int) : F64 :=
  let r := go (ofInt 1) x n.natAbs n.natAbs
  if n < 0 then (ofInt 1).div r else r
where
  go (acc base : F64) (n : Nat) : (fuel : Nat) → F64
    | 0 => acc
    | fuel + 1 =>
      let acc := if n % 2 = 1 then acc.mul base else acc
      if n / 2 = 0 then acc else go acc (base.mul base) (n / 2) fuel

def ceil (x : F64) : F64 :=
  if !x.isFinite then x
  else
    let (n, d) := x.fraction
    if x.signBit then (ofInt (n / d)).neg else ofInt ((n + d - 1) / d)

/-- `f64::round`: ties away from zero. -/
def round (x : F64) : F64 :=
  if !x.isFinite then x
  else
    let (n, d) := x.fraction
    let r := ofInt ((2 * n + d) / (2 * d))
    if x.signBit then r.neg else r

/-- The cast to an unsigned integer: saturating, 0 for a NaN. -/
def toUnsigned (max : Nat) (x : F64) : Nat :=
  if x.isNan || x.signBit then 0
  else if x.isInfinite then max
  else
    let (n, d) := x.fraction
    min (n / d) max

/-! ## Decimal texts -/

def isDigit (b : UInt8) : Bool := 48 ≤ b && b ≤ 57

def digitsValue (ds : List UInt8) : Nat := ds.foldl (fun n b => n * 10 + (b.toNat - 48)) 0

def toLower (b : UInt8) : UInt8 := if 65 ≤ b && b ≤ 90 then b + 32 else b

/-- Removes an optional sign. -/
def splitSign : List UInt8 → Bool × List UInt8
  | 45 :: rest => (true, rest)
  | 43 :: rest => (false, rest)
  | s => (false, s)

/-- The value of the optional exponent that ends a number. -/
def parseExponent : List UInt8 → Option Int
  | [] => some 0
  | b :: rest =>
    if toLower b = 101 then
      let (sign, ds) := splitSign rest
      if ds.isEmpty || !ds.all isDigit then none
      else some (if sign then -digitsValue ds else digitsValue ds)
    else none

/-- Rounds `m * 10 ^ e`, where `m` has `len` digits. Far outside the range of the
format the result is known without computing the power. -/
def ofDecimal (sign : Bool) (m len : Nat) (e : Int) : F64 :=
  if m = 0 then make sign 0
  else if 310 < e then infinity sign
  else if e + len < -400 then make sign 0
  else if 0 ≤ e then make sign (roundRat (m * 10 ^ e.toNat) 1)
  else make sign (roundRat m (10 ^ (-e).toNat))

/-- `str::parse::<f64>`. -/
def parse (s : List UInt8) : Option F64 :=
  let (sign, body) := splitSign s
  let lower := body.map toLower
  if lower = [105, 110, 102] || lower = [105, 110, 102, 105, 110, 105, 116, 121] then
    some (infinity sign)
  else if lower = [110, 97, 110] then some (if sign then nan.neg else nan)
  else
    let whole := body.takeWhile isDigit
    let afterWhole := body.dropWhile isDigit
    let (frac, rest) :=
      match afterWhole with
      | 46 :: tail => (tail.takeWhile isDigit, tail.dropWhile isDigit)
      | tail => ([], tail)
    let ds := whole ++ frac
    if ds.isEmpty then none
    else (parseExponent rest).map fun e =>
      ofDecimal sign (digitsValue ds) ds.length (e - frac.length)

/-! ## Printing -/

/-- `floor (log10 (n / d))` for `n / d` not below `10 ^ (-fuel)`. -/
def floorLog10 (n d : Nat) : Nat → Int
  | 0 => 0
  | fuel + 1 =>
    if d ≤ n then ((Nat.toDigits 10 (n / d)).length : Int) - 1
    else floorLog10 (n * 10) d fuel - 1

/-- The `k`-digit decimal significands next to `n / d = s * 10 ^ (e10 - k + 1)`,
the nearer one first. -/
def candidates (n d : Nat) (e10 : Int) (k : Nat) : List Nat :=
  let shift := e10 - k + 1
  let num := if 0 ≤ shift then n else n * 10 ^ (-shift).toNat
  let den := if 0 ≤ shift then d * 10 ^ shift.toNat else d
  let q := num / den
  if 2 * (num % den) ≤ den then [q, q + 1] else [q + 1, q]

/-- Magnitude of `s * 10 ^ e`. -/
def decimalMagnitude (s : Nat) (e : Int) : Nat :=
  if 0 ≤ e then roundRat (s * 10 ^ e.toNat) 1 else roundRat s (10 ^ (-e).toNat)

/-- The shortest digits, from `k` up, that read back as the magnitude. -/
def shortest (magnitude n d : Nat) (e10 : Int) (k : Nat) : Nat → Nat × Int
  | 0 => (0, 0)
  | fuel + 1 =>
    match (candidates n d e10 k).find? fun s =>
        decimalMagnitude s (e10 - k + 1) == magnitude with
    | some s => (s, e10 - k + 1)
    | none => shortest magnitude n d e10 (k + 1) fuel

def digitBytes (n : Nat) : List UInt8 := (Nat.toDigits 10 n).map fun c => UInt8.ofNat c.toNat

/-- Digits `s * 10 ^ e` without an exponent. -/
def placePoint (s : Nat) (e : Int) : List UInt8 :=
  let ds := digitBytes s
  if 0 ≤ e then ds ++ List.replicate e.toNat 48
  else
    let frac := (-e).toNat
    let whole := ds.length - frac
    let padded := List.replicate (frac - ds.length) 48 ++ ds.drop whole
    let trimmed := (padded.reverse.dropWhile (· = 48)).reverse
    (if whole = 0 then [48] else ds.take whole) ++
      if trimmed.isEmpty then [] else 46 :: trimmed

/-- The shortest digits `s * 10 ^ e` of a finite number that is not zero. -/
def shortestDigits (x : F64) : Nat × Int :=
  let (m, e) := decode x.magnitude
  let n := if 0 ≤ e then m * 2 ^ e.toNat else m
  let d := if 0 ≤ e then 1 else 2 ^ (-e).toNat
  shortest x.magnitude n d (floorLog10 n d 400) 1 17

/-- The text of a number, given that of the digits of a finite one. -/
def withSign (x : F64) (digits : List UInt8) : List UInt8 :=
  if x.isNan then [78, 97, 78]
  else
    (if x.signBit then ([45] : List UInt8) else []) ++
      if x.isInfinite then [105, 110, 102] else digits

/-- `format!` of an `f64` with an empty format specification. -/
def display (x : F64) : List UInt8 :=
  x.withSign <|
    if x.magnitude = 0 then [48]
    else
      let (s, e) := x.shortestDigits
      placePoint s e

/-- `format!` of an `f64` with `:e`. -/
def lowerExp (x : F64) : List UInt8 :=
  x.withSign <|
    if x.magnitude = 0 then [48, 101, 48]
    else
      let (s, e) := x.shortestDigits
      let ds := digitBytes s
      let exp := e + ds.length - 1
      ds.take 1 ++ (if 1 < ds.length then 46 :: ds.drop 1 else []) ++ 101 ::
        (if exp < 0 then 45 :: digitBytes exp.natAbs else digitBytes exp.natAbs)

/-! ## Casts of numbers from 1 on -/

variable {x : F64} {max : Nat}

/-- The bits of a number that is not below 1. -/
theorem magnitude_of_not_lt_one (hnan : x.isNan = false)
    (h : x.lt (ofInt 1) = false) : x.signBit = false ∧ 0x3ff0000000000000 ≤ x.magnitude := by
  have hone : (ofInt 1).orderKey = 0x3ff0000000000000 := by decide
  have hlt : ¬x.orderKey < 0x3ff0000000000000 := by
    intro hlt
    have hcmp : compare x.orderKey (ofInt 1).orderKey = .lt := by
      rw [hone, Int.compare_eq_lt]
      exact hlt
    rw [lt, partialCmp, hnan, hcmp] at h
    exact absurd h (by decide)
  unfold orderKey at hlt
  cases hsign : x.signBit with
  | true =>
    rw [hsign, if_pos rfl] at hlt
    omega
  | false =>
    exact ⟨rfl, by omega⟩

theorem one_le_fraction (h : 0x3ff0000000000000 ≤ x.magnitude) :
    1 ≤ x.fraction.1 / x.fraction.2 := by
  have hne : x.magnitude / 2 ^ 52 ≠ 0 := by omega
  unfold fraction decode
  simp only [hne, if_false]
  split
  · rw [Nat.div_one]
    exact Nat.mul_pos (by omega) (Nat.two_pow_pos _)
  · rw [Nat.le_div_iff_mul_le (Nat.two_pow_pos _), Nat.one_mul]
    have hexp : (-((x.magnitude / 2 ^ 52 : Nat) - 1075 : Int)).toNat ≤ 52 := by omega
    exact Nat.le_trans (Nat.pow_le_pow_right (by decide) hexp) (Nat.le_add_left _ _)

theorem one_le_toUnsigned (hmax : 1 ≤ max) (hnan : x.isNan = false)
    (hsign : x.signBit = false) (h : 0x3ff0000000000000 ≤ x.magnitude) : 1 ≤ x.toUnsigned max := by
  unfold toUnsigned
  rw [hnan, hsign]
  cases x.isInfinite with
  | true => exact hmax
  | false => exact Nat.le_min.mpr ⟨one_le_fraction h, hmax⟩

theorem one_le_toUnsigned_max (hmax : 1 ≤ max) (x : F64) :
    1 ≤ (F64.max x (ofInt 1)).toUnsigned max := by
  have hone : 1 ≤ (ofInt 1).toUnsigned max :=
    one_le_toUnsigned hmax (by decide) (by decide) (by decide)
  unfold F64.max
  cases hnan : x.isNan with
  | true => exact hone
  | false =>
    cases hlt : x.lt (ofInt 1) with
    | true => exact hone
    | false =>
      obtain ⟨hsign, hmag⟩ := magnitude_of_not_lt_one hnan hlt
      exact one_le_toUnsigned hmax hnan hsign hmag

theorem toUnsigned_le (max : Nat) (x : F64) : x.toUnsigned max ≤ max := by
  unfold toUnsigned
  split
  · exact Nat.zero_le _
  · split
    · exact Nat.le_refl _
    · exact Nat.min_le_right _ _

theorem one_le_toUnsigned_min {y : F64} (hx : 1 ≤ x.toUnsigned max)
    (hy : 1 ≤ y.toUnsigned max) : 1 ≤ (F64.min x y).toUnsigned max := by
  unfold F64.min
  split
  · exact hy
  · split
    · exact hy
    · exact hx

theorem mul_one_one : (ofInt 1).mul (ofInt 1) = ofInt 1 := by decide

theorem powi_one (n : Int) : (ofInt 1).powi n = ofInt 1 := by
  have hgo : ∀ (fuel n : Nat), powi.go (ofInt 1) (ofInt 1) n fuel = ofInt 1 := by
    intro fuel
    induction fuel with
    | zero => intro n; rfl
    | succ fuel ih =>
      intro n
      rw [powi.go, mul_one_one, ite_self]
      split
      · rfl
      · exact ih _
  unfold powi
  rw [hgo]
  split
  · decide
  · rfl

/-! ## Which operations give a NaN -/

theorem isNan_make {sign : Bool} {n : Nat} (h : n ≤ infMagnitude) :
    (make sign n).isNan = false := by
  have hn : n < 2 ^ 63 := Nat.lt_of_le_of_lt h (by decide)
  have hmag : (make sign n).magnitude = n := by
    unfold magnitude make
    rw [UInt64.toNat_ofNat']
    cases sign
    · simp only [Bool.false_eq_true, if_false]
      omega
    · simp only [if_true]
      omega
  rw [isNan, hmag, decide_eq_false_iff_not, Nat.not_lt]
  exact h

theorem isNan_ofDyadic (sign : Bool) (m : Nat) (e : Int) : (ofDyadic sign m e).isNan = false := by
  have hround (n d : Nat) : roundRat n d ≤ infMagnitude := by
    unfold roundRat
    split
    · exact Nat.zero_le _
    · exact Nat.min_le_right _ _
  refine isNan_make ?_
  split
  · exact hround _ _
  · exact hround _ _

/-- A sum of two infinities with different signs is invalid. -/
def AddInvalid (x y : F64) : Prop :=
  x.isInfinite = true ∧ y.isInfinite = true ∧ x.signBit ≠ y.signBit

/-- A product of a zero and an infinity is invalid. -/
def MulInvalid (x y : F64) : Prop :=
  x.isInfinite = true ∧ y.magnitude = 0 ∨ y.isInfinite = true ∧ x.magnitude = 0

theorem isNan_add {x y : F64} (hx : x.isNan = false) (hy : y.isNan = false)
    (h : ¬AddInvalid x y) : (x.add y).isNan = false := by
  unfold add
  rw [hx, hy, Bool.or_false, if_neg Bool.false_ne_true]
  split
  · rename_i hinf
    split
    · rename_i hboth
      rw [Bool.and_eq_true, bne_iff_ne] at hboth
      exact absurd ⟨hinf, hboth⟩ h
    · exact hx
  · split
    · exact hy
    · rcases decode x.magnitude with ⟨m, e⟩
      rcases decode y.magnitude with ⟨m', e'⟩
      rw [apply_ite isNan, isNan_make (Nat.zero_le _), isNan_ofDyadic, ite_self]

theorem isNan_mul {x y : F64} (hx : x.isNan = false) (hy : y.isNan = false)
    (h : ¬MulInvalid x y) : (x.mul y).isNan = false := by
  unfold mul
  rw [hx, hy, Bool.or_false]
  rw [if_neg Bool.false_ne_true]
  split
  · rename_i hinf
    split
    · rename_i hzero
      have hfinite {z : F64} (hz : z.magnitude = 0) : z.isInfinite = false := by
        rw [isInfinite, hz]
        rfl
      simp only [Bool.or_eq_true, decide_eq_true_eq] at hinf hzero
      rcases hzero with hzero | hzero
      · rw [hfinite hzero] at hinf
        exact absurd (.inr ⟨by simpa using hinf, hzero⟩) h
      · rw [hfinite hzero] at hinf
        exact absurd (.inl ⟨by simpa using hinf, hzero⟩) h
    · exact isNan_make (Nat.le_refl _)
  · exact isNan_ofDyadic _ _ _

theorem isNan_min {x y : F64} (hx : x.isNan = false) (hy : y.isNan = false) :
    (F64.min x y).isNan = false := by
  unfold F64.min
  split
  · exact hy
  · split
    · exact hy
    · exact hx

theorem isNan_max {x y : F64} (hx : x.isNan = false) (hy : y.isNan = false) :
    (F64.max x y).isNan = false := by
  unfold F64.max
  split
  · exact hy
  · split
    · exact hy
    · exact hx

end F64

end Ieee754
