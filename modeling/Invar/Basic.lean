import Invar.Lib.Float64

/-!
# Shared data types

Byte strings are lists of bytes; a Rust `String` that holds user data is the byte
string of its UTF-8 encoding. A double is kept as its IEEE 754 bit pattern, so
that equality of modelled values is equality of what is stored and sent.
-/

namespace Invar

abbrev Bytes := List UInt8

instance : LawfulBEq Bytes := inferInstance

/-- A Rust `f64`. -/
abbrev F64 := Ieee754.F64

/-- The bytes of an ASCII text. -/
def ascii (s : String) : Bytes := s.toList.map fun c => UInt8.ofNat c.toNat

/-- `to_be_bytes` of an unsigned integer of `width` bytes. -/
def beBytes : (width : Nat) → Nat → Bytes
  | 0, _ => []
  | width + 1, n => UInt8.ofNat (n / 256 ^ width) :: beBytes width n

/-- `from_be_bytes`. -/
def ofBeBytes (bs : Bytes) : Nat := bs.foldl (fun n b => n * 256 + b.toNat) 0

/-- `to_le_bytes`. -/
def leBytes (width n : Nat) : Bytes := (beBytes width n).reverse

/-- `from_le_bytes`. -/
def ofLeBytes (bs : Bytes) : Nat := ofBeBytes bs.reverse

/-- The decimal digits that `to_string` prints. -/
def decimal (n : Nat) : Bytes := (Nat.toDigits 10 n).map fun c => UInt8.ofNat c.toNat

/-- `to_string` of a signed integer. -/
def intText (n : Int) : Bytes := if n < 0 then 45 :: decimal n.natAbs else decimal n.natAbs

/-- `u8::to_ascii_lowercase`. -/
def lowerByte (b : UInt8) : UInt8 := if 65 ≤ b && b ≤ 90 then b + 32 else b

def lower (bs : Bytes) : Bytes := bs.map lowerByte

def isAsciiDigit (b : UInt8) : Bool := 48 ≤ b && b ≤ 57

/-- `parse::<uN>` with the largest value `max`: digits after an optional `+`. -/
def parseUnsigned (max : Nat) (bs : Bytes) : Option Nat :=
  let ds := if bs.head? = some 43 then bs.drop 1 else bs
  if ds.isEmpty || !ds.all isAsciiDigit then none
  else
    let n := ds.foldl (fun n b => n * 10 + (b.toNat - 48)) 0
    if n ≤ max then some n else none

def parseU64 : Bytes → Option Nat := parseUnsigned (2 ^ 64 - 1)

/-- `parse::<i64>`: digits after an optional sign. -/
def parseI64 (bs : Bytes) : Option Int :=
  match bs with
  | 45 :: ds =>
    if ds.head? = some 43 then none else (parseUnsigned (2 ^ 63) ds).map fun n => -(n : Int)
  | ds => (parseUnsigned (2 ^ 63 - 1) ds).map fun n => (n : Int)

/-- The result of `i64` arithmetic, which wraps around. -/
def wrapI64 (n : Int) : Int := Int.bmod n (2 ^ 64)

/-- The value of a cast to `i32`. -/
def asI32 (n : Int) : Int := Int.bmod n (2 ^ 32)

/-! ## `String::from_utf8_lossy` -/

def isContinuation (b : UInt8) : Bool := 0x80 ≤ b && b ≤ 0xBF

/-- How many bytes a UTF-8 sequence with this first byte has; 0 for none. -/
def utf8Width (lead : UInt8) : Nat :=
  if lead < 0x80 then 1
  else if 0xC2 ≤ lead && lead ≤ 0xDF then 2
  else if 0xE0 ≤ lead && lead ≤ 0xEF then 3
  else if 0xF0 ≤ lead && lead ≤ 0xF4 then 4
  else 0

/-- Which second bytes a three or four byte sequence may have. -/
def utf8Second (lead b : UInt8) : Bool :=
  if lead = 0xE0 then 0xA0 ≤ b && b ≤ 0xBF
  else if lead = 0xED then 0x80 ≤ b && b ≤ 0x9F
  else if lead = 0xF0 then 0x90 ≤ b && b ≤ 0xBF
  else if lead = 0xF4 then 0x80 ≤ b && b ≤ 0x8F
  else isContinuation b

/-- The length of the next sequence and whether it is well formed; the length of
a malformed one is that of its longest valid start. -/
def utf8Next (lead : UInt8) (rest : Bytes) : Nat × Bool :=
  let cont (i : Nat) : Bool := (rest[i]?).any isContinuation
  match utf8Width lead with
  | 1 => (1, true)
  | 2 => if cont 0 then (2, true) else (1, false)
  | 3 =>
    if !(rest[0]?).any (utf8Second lead) then (1, false)
    else if cont 1 then (3, true) else (2, false)
  | 4 =>
    if !(rest[0]?).any (utf8Second lead) then (1, false)
    else if !cont 1 then (2, false)
    else if cont 2 then (4, true) else (3, false)
  | _ => (1, false)

def replacementChar : Bytes := [0xEF, 0xBF, 0xBD]

def utf8LossyFrom : (fuel : Nat) → Bytes → Bytes
  | 0, _ => []
  | _, [] => []
  | fuel + 1, lead :: rest =>
    let (n, valid) := utf8Next lead rest
    (if valid then (lead :: rest).take n else replacementChar) ++
      utf8LossyFrom fuel (rest.drop (n - 1))

/-- Malformed parts become U+FFFD. -/
def fromUtf8Lossy (bs : Bytes) : Bytes := utf8LossyFrom bs.length bs

end Invar
