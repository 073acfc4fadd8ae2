import Mathlib.Algebra.GroupWithZero.Nat
import Invar.Common.Namespace
import Invar.Common.Op

/-!
# Bitmaps (`redis/bitmap.rs`)

A bitmap is a string whose bits are numbered from the most significant bit of the
first byte. No command looks at the type of what it reads.
-/

namespace Invar.Bitmap

open StoreProg TxProg

def typeString : UInt8 := ValueType.string.byte

inductive BitOpType where
  | and | or | xor | not | diff | diff1 | andOr | one
deriving DecidableEq, Repr

def bitOpNames : List (String × BitOpType) :=
  [("and", .and), ("or", .or), ("xor", .xor), ("not", .not), ("diff", .diff), ("diff1", .diff1),
    ("andor", .andOr), ("one", .one)]

def parseBitOp (op : Bytes) : Option BitOpType :=
  (bitOpNames.find? fun t => ascii t.1 = lower op).map (·.2)

/-- The mask of a bit within its byte. -/
def bitMask (i : Nat) : UInt8 := 1 <<< UInt8.ofNat (7 - i % 8)

/-- Bit `i`; zero past the end. -/
def bitAt (data : Bytes) (i : Nat) : Bool := (data.getD (i / 8) 0) &&& bitMask i != 0

def bitReply (b : Bool) : RespValue := .integer (if b then 1 else 0)

/-- `data` with zeros up to byte `i`. -/
def extended (data : Bytes) (i : Nat) : Bytes := data ++ List.replicate (i + 1 - data.length) 0

def setBit (key : Bytes) (offset : Nat) (value : Bool) : TxProg RespValue := do
  let old := ((← get key).map (·.value)).getD []
  let i := offset / 8
  let data := extended old i
  let byte := data.getD i 0
  let byte := if value then byte ||| bitMask offset else byte &&& ~~~(bitMask offset)
  setKeepingTtl { key, value := data.set i byte, metadata := typeString }
  return bitReply (bitAt data offset)

def getBit (key : Bytes) (offset : Nat) : TxProg RespValue := do
  match ← get key with
  | none => return .integer 0
  | some item => return bitReply (bitAt item.value offset)

/-- A range with both ends, in bits or in bytes. -/
structure Range where
  start : Int
  stop : Int
  useBit : Bool
deriving DecidableEq, Repr

/-- The ends of a range over `n` positions. -/
def Range.clamp (r : Range) (n : Int) : Int × Int :=
  let start := if r.start < 0 then r.start + n else r.start
  let stop := if r.stop < 0 then r.stop + n else r.stop
  (max start 0, if n ≤ stop then n - 1 else stop)

/-- The first and the last bit of a range over a string; `none` if it is empty. -/
def Range.bits (r : Range) (len : Nat) : Option (Nat × Nat) :=
  let (start, stop) := r.clamp (if r.useBit then len * 8 else len)
  if stop < start then none
  else if r.useBit then some (start.toNat, stop.toNat)
  else some (start.toNat * 8, min (stop.toNat * 8 + 7) (len * 8 - 1))

/-- `u8::count_ones`. -/
def countOnes (b : UInt8) : Nat := (List.range 8).countP fun i => b &&& bitMask i != 0

/-- What `BITCOUNT` counts: by bytes, unless the range is one of bits. -/
def onesIn (data : Bytes) : Option Range → Nat
  | none => (data.map countOnes).sum
  | some r =>
    let n : Int := if r.useBit then data.length * 8 else data.length
    let (start, stop) := r.clamp n
    if stop < start || n ≤ start then 0
    else
      let positions := List.range' start.toNat (stop.toNat + 1 - start.toNat)
      if r.useBit then positions.countP (bitAt data)
      else (positions.map fun i => countOnes (data.getD i 0)).sum

def bitCount (key : Bytes) (range : Option Range) : TxProg RespValue := do
  match ← get key with
  | none => return .integer 0
  | some item => return .integer (onesIn item.value range)

/-- The inner loop of `bit_pos_in_range`, over `steps` bits of a byte. -/
def bitPosInByte (b : UInt8) (bit : Bool) : (pos steps : Nat) → Option Nat
  | _, 0 => none
  | pos, steps + 1 =>
    if (b &&& bitMask pos != 0) = bit then some pos else bitPosInByte b bit (pos + 1) steps

/-- The outer loop of `bit_pos_in_range`, from byte `i` on. -/
def bitPosLoop (lo hi : Nat) (bit : Bool) : (i : Nat) → Bytes → Option Nat
  | _, [] => none
  | i, b :: rest =>
    if hi / 8 < i then none
    else
      let bitStart := if i = lo / 8 then lo % 8 else 0
      let bitEnd := if i = hi / 8 then hi % 8 else 7
      match bitPosInByte b bit bitStart (bitEnd + 1 - bitStart) with
      | some pos => some (i * 8 + pos)
      | none => bitPosLoop lo hi bit (i + 1) rest

/-- `bit_pos_in_range`: the first bit equal to `bit`, not past the end of the string. -/
def bitPosInRange (data : Bytes) (lo hi : Nat) (bit : Bool) : Option Nat :=
  bitPosLoop lo hi bit (lo / 8) (data.drop (lo / 8))

def posReply : Option Nat → RespValue
  | some pos => .integer pos
  | none => .integer (-1)

/-- What `BITPOS` finds; without a range, zero bits are there past the end. -/
def posIn (data : Bytes) (bit : Bool) : Option Range → Option Nat
  | none =>
    (bitPosInRange data 0 (data.length * 8 - 1) bit).or
      (if bit then none else some (data.length * 8))
  | some r => (r.bits data.length).bind fun ends => bitPosInRange data ends.1 ends.2 bit

def bitPos (key : Bytes) (bit : Bool) (range : Option Range) : TxProg RespValue := do
  match ← get key with
  | none => return .integer (if bit then -1 else 0)
  | some item => return posReply (posIn item.value bit range)

/-! ## `BITOP` -/

/-- The bytes of the sources at position `j`; `none` for a missing key or a short one. -/
def column (sources : List (Option Bytes)) (j : Nat) : List (Option UInt8) :=
  sources.map fun s => s.bind (·[j]?)

def orAll (bytes : List UInt8) : UInt8 := bytes.foldl (· ||| ·) 0

/-- The bits that are set in exactly one of the bytes. -/
def exactlyOne (bytes : List UInt8) : UInt8 :=
  orAll ((List.range 8).filterMap fun i =>
    if bytes.countP (· &&& bitMask i != 0) = 1 then some (bitMask i) else none)

/-- One byte of the result. `DIFF1` and `ANDOR` are zero if all other keys are missing. -/
def BitOpType.byte (op : BitOpType) (sources : List (Option Bytes)) (j : Nat) : UInt8 :=
  let col := column sources j
  let first := (col.head?.join).getD 0
  let others := col.tail
  let noOthers := sources.tail.all (·.isNone)
  match op with
  | .and => col.foldl (fun acc b => acc &&& b.getD 0) 0xFF
  | .or => orAll (col.filterMap id)
  | .xor => (col.filterMap id).foldl (· ^^^ ·) 0
  | .not => ~~~first
  | .diff => (others.filterMap id).foldl (fun acc b => acc &&& ~~~b) first
  | .diff1 =>
    if noOthers then 0
    else (sources.tail.filterMap id).foldl (fun acc s => acc &&& s.getD j 0) (~~~first)
  | .andOr => if noOthers then 0 else first &&& orAll (others.filterMap id)
  | .one => exactlyOne (col.filterMap id)

def maxLength (sources : List (Option Bytes)) : Nat :=
  (sources.filterMap id).foldl (fun n s => max n s.length) 0

def getSources : List Bytes → TxProg (List (Option Bytes))
  | [] => return []
  | key :: rest => do
    let item ← get key
    return item.map (·.value) :: (← getSources rest)

/-- The destination loses its expiry, whatever it held. -/
def bitOp (dest : Bytes) (op : BitOpType) (srcKeys : List Bytes) : TxProg RespValue := do
  let sources ← getSources srcKeys
  let len := maxLength sources
  set { key := dest, value := (List.range len).map (op.byte sources), metadata := typeString }
  return .integer len

/-! ## The bitmap commands of one key -/

inductive Op where
  | setBit (offset : Nat) (value : Bool)
  | getBit (offset : Nat)
  | bitCount (range : Option Range)
  | bitPos (bit : Bool) (range : Option Range)

def Op.run (key : Bytes) : Op → TxProg RespValue
  | .setBit offset value => Bitmap.setBit key offset value
  | .getBit offset => Bitmap.getBit key offset
  | .bitCount range => Bitmap.bitCount key range
  | .bitPos bit range => Bitmap.bitPos key bit range

end Invar.Bitmap
