import Invar.Common.Namespace
import Invar.Common.Op

/-!
# Strings (`redis/strings.rs`)

A string is one row under the public key. Durations are whole milliseconds; the
dispatcher turns the expiry options of `SET` into a duration when the command
arrives, `GETEX` parses its own when it runs.
-/

namespace Invar.Strings

open StoreProg TxProg Ieee754

def typeString : UInt8 := ValueType.string.byte

def formatFloat (v : F64) : Bytes :=
  if v.isInfinite then if v.signBit then ascii "-inf" else ascii "inf"
  else v.display

def stringEntry (key value : Bytes) : Entry := { key, value, metadata := typeString }

/-- `none` is a missing key. -/
def readString (key : Bytes) : TxProg (Option Bytes) := do
  let some item ← get key | return none
  if item.metadata ≠ typeString then fail .wrongType
  return some item.value

inductive SetMode where
  | none | nx | xx
deriving DecidableEq, Repr

def SetMode.allows (mode : SetMode) (existing : Option Row) : Bool :=
  match mode with
  | .none => true
  | .nx => existing.isNone
  | .xx => existing.isSome

structure SetOp where
  value : Bytes
  ttl : Option Nat := none
  mode : SetMode := .none
  get : Bool := false
  keepttl : Bool := false

/-- `KEEPTTL` unwraps the existing item, which panics if there is none. -/
def SetOp.effectiveTtl (op : SetOp) (existing : Option Row) : TxProg (Option Nat) :=
  if op.keepttl then
    match existing with
    | some item => do return item.ttl (← now)
    | none => fail .panic
  else return op.ttl

def SetOp.run (key : Bytes) (op : SetOp) : TxProg RespValue := do
  let existing ← TxProg.get key
  if op.get && existing.any (·.metadata ≠ typeString) then fail .wrongType
  let allowed := op.mode.allows existing
  if allowed then
    let ttl ← op.effectiveTtl existing
    set { stringEntry key op.value with ttl := ttl.getD 0 }
  if op.get then return .bulkString (existing.map (·.value))
  else if allowed then return .ok
  else return .nullBulk

/-- `Duration::from_secs`, zero for a negative number. -/
def secsTtl (seconds : Int) : Nat := seconds.toNat * 1000

/-- `set_ex`. -/
def setEx (key value : Bytes) (seconds : Int) : TxProg RespValue :=
  SetOp.run key { value, ttl := some (secsTtl seconds) }

/-- `pset_ex`. -/
def psetEx (key value : Bytes) (ms : Int) : TxProg RespValue :=
  SetOp.run key { value, ttl := some ms.toNat }

def getOp (key : Bytes) : TxProg RespValue := do
  return .bulkString (← readString key)

/-- The old value is returned whatever its type. -/
def getSet (key value : Bytes) : TxProg RespValue := do
  let old ← get key
  set (stringEntry key value)
  return .bulkString (old.map (·.value))

def getDel (key : Bytes) : TxProg RespValue := do
  match ← readString key with
  | none => return .nullBulk
  | some val =>
    delete key
    return .bulk val

def strlen (key : Bytes) : TxProg RespValue := do
  return .integer ((← readString key).getD []).length

/-- The positions that `SUBSTR` returns; `i64` sums wrap around. -/
def slice (val : Bytes) (start stop : Int) : Bytes :=
  let n : Int := val.length
  let start := if start < 0 then start + n else start
  let stop := if stop < 0 then stop + n else stop
  let start := max start 0
  let stop := if n ≤ stop then n - 1 else stop
  if stop < start || n ≤ start then []
  else (val.take (stop.toNat + 1)).drop start.toNat

def substr (key : Bytes) (start stop : Int) : TxProg RespValue := do
  return .bulk (slice ((← readString key).getD []) start stop)

def setNx (key value : Bytes) : TxProg RespValue := do
  match ← get key with
  | some _ => return .integer 0
  | none =>
    set (stringEntry key value)
    return .integer 1

def append (key value : Bytes) : TxProg RespValue := do
  let newVal := (← readString key).getD [] ++ value
  setKeepingTtl (stringEntry key newVal)
  return .integer newVal.length

/-! ## `GETEX` -/

structure GetExOptions where
  exSec : Option Int := none
  pxMs : Option Int := none
  exatSec : Option Int := none
  pxatMs : Option Int := none
  persist : Bool := false
deriving Repr

def syntaxError : DbError := .redis "syntax error"

def notAnInteger : DbError := .redis "value is not an integer or out of range"

/-- The option loop of `GetExOp::run`. -/
def parseGetEx (o : GetExOptions) : List Bytes → Except DbError GetExOptions
  | [] => .ok o
  | opt :: rest =>
    let opt := lower opt
    if opt = ascii "persist" then parseGetEx { o with persist := true } rest
    else if opt = ascii "ex" || opt = ascii "px" || opt = ascii "exat" || opt = ascii "pxat" then
      match rest with
      | [] => .error syntaxError
      | arg :: rest =>
        match parseI64 arg with
        | none => .error notAnInteger
        | some v =>
          if opt = ascii "ex" then parseGetEx { o with exSec := some v } rest
          else if opt = ascii "px" then parseGetEx { o with pxMs := some v } rest
          else if opt = ascii "exat" then parseGetEx { o with exatSec := some v } rest
          else parseGetEx { o with pxatMs := some v } rest
    else .error syntaxError

def saturatingMul (a b : Int) : Int := max (-2 ^ 63) (min (a * b) (2 ^ 63 - 1))

def saturatingSub (a b : Int) : Int := max (-2 ^ 63) (min (a - b) (2 ^ 63 - 1))

/-- `u64::try_from`. -/
def tryU64 (n : Int) : Option Nat := if n < 0 then none else some n.toNat

/-- The TTL to write, in milliseconds; 0 removes it. -/
def GetExOptions.ttl (o : GetExOptions) (now : Int) : Option Nat :=
  if o.persist then some 0
  else
    match o.exSec, o.pxMs, o.exatSec, o.pxatMs with
    | some secs, _, _, _ => (tryU64 secs).map (· * 1000)
    | none, some ms, _, _ => tryU64 ms
    | none, none, some secs, _ => some (saturatingSub (saturatingMul secs 1000) now).toNat
    | none, none, none, some ms => some (saturatingSub ms now).toNat
    | none, none, none, none => none

def getEx (key : Bytes) (args : List Bytes) : TxProg RespValue := do
  let o ← ofExcept (parseGetEx {} args)
  let some item ← get key | return .nullBulk
  if item.metadata ≠ typeString then fail .wrongType
  match o.ttl (← now) with
  | some ttl => set { stringEntry key item.value with ttl }
  | none => pure ()
  return .bulk item.value

/-! ## Numbers -/

def incrByFloat (key : Bytes) (amount : F64) : TxProg RespValue := do
  if amount.isNan then fail (.redis "value is not a valid float")
  match ← readString key with
  | none =>
    set (stringEntry key (formatFloat amount))
    return .bulk (formatFloat amount)
  | some val =>
    match F64.parse val with
    | none => fail (.redis "value is not a float")
    | some current =>
      if current.isInfinite then fail (.redis "value is not a float")
      let result := current.add amount
      if result.isInfinite then
        return .bulk (if result.signBit then ascii "-inf" else ascii "inf")
      setKeepingTtl (stringEntry key (formatFloat result))
      return .bulk (formatFloat result)

/-- The type byte of the old value is kept, whatever it is. -/
def increment (key : Bytes) (amount : Int) : TxProg RespValue := do
  match ← get key with
  | none =>
    set (stringEntry key (intText amount))
    return .integer amount
  | some item =>
    match parseI64 item.value with
    | none => fail notAnInteger
    | some current =>
      let newValue := wrapI64 (current + amount)
      let entry : Entry := { key, value := intText newValue, metadata := item.metadata }
      set (entry.keepTtlOf item (← now))
      return .integer newValue

def zeros (n : Nat) : Bytes := List.replicate n 0

/-- `old` with `value` over it from `offset` on, padded with zeros. -/
def overwrite (old value : Bytes) (offset : Nat) : Bytes :=
  (old ++ zeros (offset - old.length)).take offset ++ value ++ old.drop (offset + value.length)

/-- A length that does not fit `isize` makes the allocation panic. -/
def setRange (key : Bytes) (offset : Int) (value : Bytes) : TxProg RespValue := do
  let old := (← readString key).getD []
  if 2 ^ 63 ≤ offset.toNat + value.length then fail .panic
  let newVal := overwrite old value offset.toNat
  setKeepingTtl (stringEntry key newVal)
  return .integer newVal.length

/-! ## Several keys -/

def mset (pairs : List (Bytes × Bytes)) : TxProg RespValue := do
  setAll (pairs.map fun kv => stringEntry kv.1 kv.2)
  return .ok

def anyExists : List Bytes → TxProg Bool
  | [] => return false
  | key :: rest => do
    match ← get key with
    | some _ => return true
    | none => anyExists rest

def msetNx (pairs : List (Bytes × Bytes)) : TxProg RespValue := do
  if ← anyExists (pairs.map (·.1)) then return .integer 0
  setAll (pairs.map fun kv => stringEntry kv.1 kv.2)
  return .integer 1

/-! ## All string commands of one key -/

inductive Op where
  | set (op : SetOp)
  | get
  | setEx (value : Bytes) (seconds : Int)
  | psetEx (value : Bytes) (ms : Int)
  | getSet (value : Bytes)
  | getDel
  | strlen
  | substr (start stop : Int)
  | setNx (value : Bytes)
  | append (value : Bytes)
  | getEx (args : List Bytes)
  | incrByFloat (amount : F64)
  | setRange (offset : Int) (value : Bytes)
  | increment (amount : Int)

def Op.run (key : Bytes) : Op → TxProg RespValue
  | .set op => op.run key
  | .get => Strings.getOp key
  | .setEx value seconds => Strings.setEx key value seconds
  | .psetEx value ms => Strings.psetEx key value ms
  | .getSet value => Strings.getSet key value
  | .getDel => Strings.getDel key
  | .strlen => Strings.strlen key
  | .substr start stop => Strings.substr key start stop
  | .setNx value => Strings.setNx key value
  | .append value => Strings.append key value
  | .getEx args => Strings.getEx key args
  | .incrByFloat amount => Strings.incrByFloat key amount
  | .setRange offset value => Strings.setRange key offset value
  | .increment amount => Strings.increment key amount

end Invar.Strings
