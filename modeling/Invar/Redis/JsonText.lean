import Invar.Basic

/-!
# JSON texts (`redis/json.rs`, with the parser of `serde_json`)

A document is parsed by `serde_json` in its default configuration and written
back in the format of Go's encoder. A `String` is the byte string of its UTF-8
encoding; an object is its list of members in ascending order of the keys.
-/

namespace Invar.Json

open Ieee754

inductive JValue where
  | null
  | bool (b : Bool)
  | number (f : F64)
  | str (s : Bytes)
  | arr (items : List JValue)
  | obj (members : List (Bytes × JValue))
deriving Repr, Inhabited

/-- `BTreeMap::insert`. -/
def insertMember (k : Bytes) (v : JValue) : List (Bytes × JValue) → List (Bytes × JValue)
  | [] => [(k, v)]
  | (k', v') :: rest =>
    match compare k k' with
    | .lt => (k, v) :: (k', v') :: rest
    | .eq => (k, v) :: rest
    | .gt => (k', v') :: insertMember k v rest

/-! ## Numbers -/

def u64Max : Nat := 2 ^ 64 - 1

def i32Max : Nat := 2 ^ 31 - 1

/-- `f64_from_parts`; `none` is a number out of range. -/
def f64FromParts (positive : Bool) (significand : Nat) (exponent : Int) : Option F64 :=
  let signed (f : F64) : F64 := if positive then f else f.neg
  (scale (F64.ofInt significand) exponent (exponent.natAbs / 308 + 1)).map signed
where
  /-- A step for each 308 of an exponent far below zero. -/
  scale (f : F64) (exponent : Int) : (fuel : Nat) → Option F64
    | 0 => some f
    | fuel + 1 =>
      if exponent.natAbs ≤ 308 then
        let pow := F64.ofDecimal false 1 1 exponent.natAbs
        if 0 ≤ exponent then
          let f := f.mul pow
          if f.isInfinite then none else some f
        else some (f.div pow)
      else if f.numEq .zero then some f
      else if 0 ≤ exponent then none
      else scale (f.div (F64.ofDecimal false 1 1 308)) (exponent + 308) fuel

/-- The digits that still fit, their number, and what follows: the significand stops
growing at the first digit that would overflow. -/
def takeDigits (limit : Nat) : Bytes → Nat → Nat → Nat × Nat × Bytes
  | b :: rest, n, count =>
    if isAsciiDigit b && n * 10 + (b.toNat - 48) ≤ limit then
      takeDigits limit rest (n * 10 + (b.toNat - 48)) (count + 1)
    else (n, count, b :: rest)
  | [], n, count => (n, count, [])

def skipDigits (bs : Bytes) : Bytes := bs.dropWhile isAsciiDigit

def isExponentMark (b : UInt8) : Bool := b = 101 || b = 69

/-- `parse_exponent`, after its mark. -/
def parseExponent (positive : Bool) (significand : Nat) (starting : Int) (bs : Bytes) :
    Option (F64 × Bytes) :=
  let (positiveExp, bs) :=
    match bs with
    | 43 :: rest => (true, rest)
    | 45 :: rest => (false, rest)
    | rest => (true, rest)
  let (exp, count, rest) := takeDigits i32Max bs 0 0
  if count = 0 then none
  else if rest.head?.any isAsciiDigit then
    -- the exponent overflows
    if significand ≠ 0 && positiveExp then none
    else some (if positive then .zero else F64.zero.neg, skipDigits rest)
  else
    let final := if positiveExp then starting + exp else starting - exp
    (f64FromParts positive significand final).map (·, rest)

/-- What may follow the digits of a number. -/
def parseTail (positive : Bool) (significand : Nat) (exponent : Int) :
    Bytes → Option (F64 × Bytes)
  | b :: rest =>
    if isExponentMark b then parseExponent positive significand exponent rest
    else (f64FromParts positive significand exponent).map (·, b :: rest)
  | [] => (f64FromParts positive significand exponent).map (·, [])

/-- `parse_decimal`, after the point. -/
def parseDecimal (positive : Bool) (significand : Nat) (before : Int) (bs : Bytes) :
    Option (F64 × Bytes) :=
  let (significand, count, rest) := takeDigits u64Max bs significand 0
  if rest.head?.any isAsciiDigit then
    parseTail positive significand (before - count) (skipDigits rest)
  else if count = 0 then none
  else parseTail positive significand (before - count) rest

/-- `parse_number`: an integer is converted to a double. -/
def parseNumber (positive : Bool) (significand : Nat) : Bytes → Option (F64 × Bytes)
  | 46 :: rest => parseDecimal positive significand 0 rest
  | rest =>
    if rest.head?.any isExponentMark then parseTail positive significand 0 rest
    else
      let f := F64.ofInt significand
      some (if positive then f else f.neg, rest)

/-- `parse_long_integer`: the digits past the 64 bits only count. -/
def parseLongInteger (positive : Bool) (significand : Nat) (bs : Bytes) : Option (F64 × Bytes) :=
  let rest := skipDigits bs
  let exponent : Int := bs.length - rest.length
  match rest with
  | 46 :: tail => parseDecimal positive significand exponent tail
  | tail => parseTail positive significand exponent tail

/-- `parse_integer`. -/
def parseInteger (positive : Bool) (bs : Bytes) : Option (F64 × Bytes) :=
  match bs with
  | [] => none
  | b :: rest =>
    if b = 48 then
      if rest.head?.any isAsciiDigit then none else parseNumber positive 0 rest
    else if isAsciiDigit b then
      let (significand, _, rest) := takeDigits u64Max (b :: rest) 0 0
      if rest.head?.any isAsciiDigit then parseLongInteger positive significand rest
      else parseNumber positive significand rest
    else none

/-! ## Strings -/

def hexDigit (b : UInt8) : Option Nat :=
  if isAsciiDigit b then some (b.toNat - 48)
  else if 97 ≤ b && b ≤ 102 then some (b.toNat - 87)
  else if 65 ≤ b && b ≤ 70 then some (b.toNat - 55)
  else none

def hexQuad : Bytes → Option (Nat × Bytes)
  | a :: b :: c :: d :: rest => do
    return ((((← hexDigit a) * 16 + (← hexDigit b)) * 16 + (← hexDigit c)) * 16 + (← hexDigit d),
      rest)
  | _ => none

/-- The UTF-8 bytes of a code point. -/
def utf8Encode (n : Nat) : Bytes :=
  let tail (shift : Nat) : UInt8 := UInt8.ofNat (0x80 + n / 64 ^ shift % 64)
  if n < 0x80 then [UInt8.ofNat n]
  else if n < 0x800 then [UInt8.ofNat (0xC0 + n / 64), tail 0]
  else if n < 0x10000 then [UInt8.ofNat (0xE0 + n / 64 ^ 2), tail 1, tail 0]
  else [UInt8.ofNat (0xF0 + n / 64 ^ 3), tail 2, tail 1, tail 0]

/-- A `\u` escape: a pair of surrogates is one code point, half a pair an error. -/
def unicodeEscape (bs : Bytes) : Option (Bytes × Bytes) := do
  let (n, rest) ← hexQuad bs
  if 0xDC00 ≤ n && n ≤ 0xDFFF then none
  else if 0xD800 ≤ n && n ≤ 0xDBFF then
    match rest with
    | 92 :: 117 :: rest =>
      let (low, rest) ← hexQuad rest
      if low < 0xDC00 || 0xDFFF < low then none
      else return (utf8Encode (0x10000 + (n - 0xD800) * 0x400 + (low - 0xDC00)), rest)
    | _ => none
  else return (utf8Encode n, rest)

def simpleEscape (b : UInt8) : Option UInt8 :=
  [(34, 34), (92, 92), (47, 47), (98, 8), (102, 12), (110, 10), (114, 13), (116, 9)].lookup b

/-- The rest of a string, after its opening quote. -/
def parseString : (fuel : Nat) → Bytes → Option (Bytes × Bytes)
  | 0, _ => none
  | _, [] => none
  | fuel + 1, b :: rest =>
    if b = 34 then some ([], rest)
    else if b = 92 then
      match rest with
      | 117 :: rest => do
        let (c, rest) ← unicodeEscape rest
        let (s, rest) ← parseString fuel rest
        return (c ++ s, rest)
      | e :: rest => do
        let c ← simpleEscape e
        let (s, rest) ← parseString fuel rest
        return (c :: s, rest)
      | [] => none
    else if b < 0x20 then none
    else
      let (n, valid) := utf8Next b rest
      if valid then do
        let (s, after) ← parseString fuel (rest.drop (n - 1))
        return ((b :: rest).take n ++ s, after)
      else none

/-! ## Values -/

def isSpace (b : UInt8) : Bool := b = 32 || b = 10 || b = 9 || b = 13

def skipSpace (bs : Bytes) : Bytes := bs.dropWhile isSpace

/-- Arrays and objects may be nested to 127 levels. -/
def recursionLimit : Nat := 128

mutual

/-- The value at the start of a text. `depth` is what is left of the recursion limit. -/
def parseValue (depth : Nat) : (fuel : Nat) → Bytes → Option (JValue × Bytes)
  | 0, _ => none
  | fuel + 1, bs =>
    match skipSpace bs with
    | [] => none
    | b :: rest =>
      if b = 110 then (literal "ull" rest).map (.null, ·)
      else if b = 116 then (literal "rue" rest).map (.bool true, ·)
      else if b = 102 then (literal "alse" rest).map (.bool false, ·)
      else if b = 45 then (parseInteger false rest).map fun fr => (.number fr.1, fr.2)
      else if isAsciiDigit b then (parseInteger true (b :: rest)).map fun fr => (.number fr.1, fr.2)
      else if b = 34 then (parseString (rest.length + 1) rest).map fun sr => (.str sr.1, sr.2)
      else if depth ≤ 1 then none
      else if b = 91 then
        match skipSpace rest with
        | 93 :: rest => some (.arr [], rest)
        | rest => (parseItems (depth - 1) fuel rest).map fun xr => (.arr xr.1, xr.2)
      else if b = 123 then
        match skipSpace rest with
        | 125 :: rest => some (.obj [], rest)
        | rest => (parseMembers (depth - 1) fuel rest []).map fun mr => (.obj mr.1, mr.2)
      else none
where
  literal (text : String) (bs : Bytes) : Option Bytes :=
    if (ascii text).isPrefixOf bs then some (bs.drop text.length) else none

/-- The items of an array, from one of them on. -/
def parseItems (depth : Nat) : (fuel : Nat) → Bytes → Option (List JValue × Bytes)
  | 0, _ => none
  | fuel + 1, bs => do
    let (v, rest) ← parseValue depth fuel bs
    match skipSpace rest with
    | 44 :: rest =>
      let (vs, rest) ← parseItems depth fuel rest
      return (v :: vs, rest)
    | 93 :: rest => return ([v], rest)
    | _ => none

/-- The members of an object, from one of them on. The last one of a key stays. -/
def parseMembers (depth : Nat) : (fuel : Nat) → Bytes → List (Bytes × JValue) →
    Option (List (Bytes × JValue) × Bytes)
  | 0, _, _ => none
  | fuel + 1, bs, acc => do
    match skipSpace bs with
    | 34 :: rest =>
      let (k, rest) ← parseString (rest.length + 1) rest
      match skipSpace rest with
      | 58 :: rest =>
        let (v, rest) ← parseValue depth fuel rest
        let acc := insertMember k v acc
        match skipSpace rest with
        | 44 :: rest => parseMembers depth fuel rest acc
        | 125 :: rest => return (acc, rest)
        | _ => none
      | _ => none
    | _ => none

end

/-- `parse_json`: one value, and nothing but spaces after it. -/
def parseJson (bs : Bytes) : Option JValue := do
  let (v, rest) ← parseValue recursionLimit (2 * bs.length + 1) bs
  if (skipSpace rest).isEmpty then return v else none

def parseJsonString (bs : Bytes) : Option Bytes := do
  match ← parseJson bs with
  | .str s => return s
  | _ => none

/-! ## Writing -/

/-- The number `s * 10 ^ e`. -/
def decimalF64 (s : Nat) (e : Int) : F64 := F64.ofDecimal false s (decimal s).length e

/-- Fixed notation for zero and from `1e-6` up to `1e21`, else an exponent with a sign. -/
def goJsonNumber (f : F64) : Bytes :=
  let abs := F64.make false f.magnitude
  if f.magnitude = 0 || ((decimalF64 1 (-6)).le abs && abs.lt (decimalF64 1 21)) then f.display
  else
    let s := f.lowerExp
    if 101 ∈ s then
      let mant := s.takeWhile (· ≠ 101)
      let exp := (s.dropWhile (· ≠ 101)).drop 1
      mant ++ 101 :: ((if exp.head? = some 45 then [] else [43]) ++ exp)
    else s

/-- `\u00` and two digits. -/
def controlEscape (b : UInt8) : Bytes :=
  let hex (n : Nat) : UInt8 := UInt8.ofNat (if n < 10 then 48 + n else 87 + n)
  ascii "\\u00" ++ [hex (b.toNat / 16), hex (b.toNat % 16)]

/-- The characters of a string, escaped as Go does: also `<`, `>`, `&` and the separators
U+2028 and U+2029. -/
def escapeChars : Bytes → Bytes
  | 0xE2 :: 0x80 :: 0xA8 :: rest => ascii "\\u2028" ++ escapeChars rest
  | 0xE2 :: 0x80 :: 0xA9 :: rest => ascii "\\u2029" ++ escapeChars rest
  | b :: rest =>
    (if b = 34 then ascii "\\\""
      else if b = 92 then ascii "\\\\"
      else if b = 10 then ascii "\\n"
      else if b = 13 then ascii "\\r"
      else if b = 9 then ascii "\\t"
      else if b < 0x20 || b = 60 || b = 62 || b = 38 then controlEscape b
      else [b]) ++ escapeChars rest
  | [] => []

def quote (s : Bytes) : Bytes := 34 :: escapeChars s ++ [34]

mutual

/-- `serialize_value`. -/
def serialize : JValue → Bytes
  | .null => ascii "null"
  | .bool true => ascii "true"
  | .bool false => ascii "false"
  | .number f => goJsonNumber f
  | .str s => quote s
  | .arr items => 91 :: serializeItems items ++ [93]
  | .obj members => 123 :: serializeMembers members ++ [125]

def serializeItems : List JValue → Bytes
  | [] => []
  | [v] => serialize v
  | v :: rest => serialize v ++ 44 :: serializeItems rest

def serializeMembers : List (Bytes × JValue) → Bytes
  | [] => []
  | [(k, v)] => quote k ++ 58 :: serialize v
  | (k, v) :: rest => quote k ++ 58 :: serialize v ++ 44 :: serializeMembers rest

end

/-- `format_float`. -/
def formatFloat (v : F64) : Bytes := v.display

def typeName : JValue → Bytes
  | .null => ascii "null"
  | .bool _ => ascii "boolean"
  | .number _ => ascii "number"
  | .str _ => ascii "string"
  | .arr _ => ascii "array"
  | .obj _ => ascii "object"

end Invar.Json
