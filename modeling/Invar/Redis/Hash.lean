import Invar.Common.Namespace
import Invar.Common.Op
import Invar.Redis.Pattern

/-!
# Hashes (`redis/hash.rs`)

A hash is a sentinel under the public key, holding the number of fields, and one
row `<prefix>\0<field>` for each field.
-/

namespace Invar.Hash

open StoreProg TxProg Ieee754

def typeHash : UInt8 := ValueType.hash.byte

/-! ## Storage layout -/

def fieldKey (nodePrefix field : Bytes) : Bytes := nodePrefix ++ 0 :: field

def fieldsPrefix (nodePrefix : Bytes) : Bytes := nodePrefix ++ [0]

/-- What follows the last NUL byte. -/
def fieldFromInternalKey (key : Bytes) : Bytes :=
  if 0 ∈ key then (key.reverse.takeWhile (· ≠ 0)).reverse else []

def readSentinel (publicKey : Bytes) : TxProg (Option UInt32) := sentinelCount typeHash publicKey

def writeSentinel (publicKey : Bytes) (count : UInt32) (p : ElementPrefix) : TxProg Unit :=
  Invar.writeSentinel publicKey (beBytes 4 count.toNat) typeHash p

def formatFloat (v : F64) : Bytes :=
  if v.isInfinite then if v.signBit then ascii "-inf" else ascii "inf"
  else v.display

def fieldEntry (key value : Bytes) : Entry := { key, value, metadata := typeHash }

/-! ## Writes -/

/-- The loop of `HSetOp::run`: the count and the number of new fields. -/
def setFields (p : ElementPrefix) : List Bytes → UInt32 → Int → TxProg (UInt32 × Int)
  | field :: value :: rest, count, added => do
    let fk := fieldKey p.bytes field
    let old ← get fk
    set (fieldEntry fk value)
    if old.isSome then setFields p rest count added else setFields p rest (count + 1) (added + 1)
  | _, count, added => return (count, added)

/-- `HSetOp::run`: the number of new fields. -/
def setAll (publicKey : Bytes) (fieldValues : List Bytes) : TxProg Int := do
  let p ← resolvePrefixForWrite publicKey (privateKey publicKey)
  let count := (← readSentinel publicKey).getD 0
  let (count, added) ← setFields p fieldValues count 0
  writeSentinel publicKey count p
  return added

def hset (publicKey : Bytes) (fieldValues : List Bytes) : TxProg RespValue := do
  return .integer (← setAll publicKey fieldValues)

def hmset (publicKey : Bytes) (fieldValues : List Bytes) : TxProg RespValue := do
  let _ ← setAll publicKey fieldValues
  return .ok

/-- The end of the ops that may add one field: the sentinel is read after the write. -/
def countNewField (publicKey : Bytes) (p : ElementPrefix) : TxProg Unit := do
  let count := (← readSentinel publicKey).getD 0
  writeSentinel publicKey (count + 1) p

/-- The type of the value under the public key is not looked at before the write. -/
def hsetnx (publicKey field value : Bytes) : TxProg RespValue := do
  let p ← resolvePrefixForWrite publicKey (privateKey publicKey)
  let fk := fieldKey p.bytes field
  match ← get fk with
  | some _ => return .integer 0
  | none =>
    set (fieldEntry fk value)
    countNewField publicKey p
    return .integer 1

/-- The loop of `HDelOp::run`. -/
def delFields (p : ElementPrefix) : List Bytes → UInt32 → Int → TxProg (UInt32 × Int)
  | [], count, removed => return (count, removed)
  | field :: rest, count, removed => do
    let fk := fieldKey p.bytes field
    match ← get fk with
    | some _ =>
      delete fk
      delFields p rest (count - 1) (removed + 1)
    | none => delFields p rest count removed

def hdel (publicKey : Bytes) (fields : List Bytes) : TxProg RespValue := do
  let p ← resolvePrefix publicKey (privateKey publicKey)
  let some count ← readSentinel publicKey | return .integer 0
  let (count, removed) ← delFields p fields count 0
  if count = 0 then delete publicKey else writeSentinel publicKey count p
  return .integer removed

/-- The number in a field, and whether the field is there. -/
def fieldNumber {α : Type} (parse : Bytes → Option α) (zero : α) (err : String) (fk : Bytes) :
    TxProg (α × Bool) := do
  match ← get fk with
  | some item =>
    match parse item.value with
    | some n => return (n, true)
    | none => fail (.redis err)
  | none => return (zero, false)

def hincrby (publicKey field : Bytes) (amount : Int) : TxProg RespValue := do
  let p ← resolvePrefixForWrite publicKey (privateKey publicKey)
  let fk := fieldKey p.bytes field
  let (current, existed) ← fieldNumber parseI64 0 "hash value is not an integer" fk
  let newVal := wrapI64 (current + amount)
  set (fieldEntry fk (intText newVal))
  if !existed then countNewField publicKey p
  return .integer newVal

def hincrbyfloat (publicKey field : Bytes) (amount : F64) : TxProg RespValue := do
  let p ← resolvePrefixForWrite publicKey (privateKey publicKey)
  if amount.isNan then fail (.redis "value is not a valid float")
  let fk := fieldKey p.bytes field
  let (current, existed) ← fieldNumber F64.parse .zero "hash value is not a float" fk
  let newStr := formatFloat (current.add amount)
  set (fieldEntry fk newStr)
  if !existed then countNewField publicKey p
  return .bulk newStr

/-! ## Reads -/

/-- The row of one field, whatever the value under the public key is. -/
def fieldRow (publicKey field : Bytes) : TxProg (Option Row) := do
  let p ← resolvePrefix publicKey (privateKey publicKey)
  get (fieldKey p.bytes field)

def hget (publicKey field : Bytes) : TxProg RespValue := do
  return .bulkString ((← fieldRow publicKey field).map (·.value))

def hexists (publicKey field : Bytes) : TxProg RespValue := do
  return .integer (if (← fieldRow publicKey field).isSome then 1 else 0)

def hstrlen (publicKey field : Bytes) : TxProg RespValue := do
  return .integer (((← fieldRow publicKey field).map (·.value.length)).getD 0)

def getFields (p : ElementPrefix) : List Bytes → TxProg (List RespValue)
  | [] => return []
  | field :: rest => do
    let row ← get (fieldKey p.bytes field)
    return .bulkString (row.map (·.value)) :: (← getFields p rest)

def hmget (publicKey : Bytes) (fields : List Bytes) : TxProg RespValue := do
  let p ← resolvePrefix publicKey (privateKey publicKey)
  return .array (some (← getFields p fields))

def hlen (publicKey : Bytes) : TxProg RespValue := do
  return .integer ((← readSentinel publicKey).getD 0).toNat

/-- The fields and values under the prefix of a key that is there, whatever its type. -/
def loadAll (publicKey : Bytes) : TxProg (Option (List (Bytes × Bytes))) := do
  let p ← resolvePrefix publicKey (privateKey publicKey)
  match ← get publicKey with
  | none => return none
  | some _ =>
    let rows ← scanUnder (fieldsPrefix p.bytes)
    return some (rows.map fun kr => (fieldFromInternalKey kr.1, kr.2.value))

def hkeys (publicKey : Bytes) : TxProg RespValue := do
  return .bulks (((← loadAll publicKey).getD []).map (·.1))

def hvals (publicKey : Bytes) : TxProg RespValue := do
  return .bulks (((← loadAll publicKey).getD []).map (·.2))

/-- Fields and values in turn. -/
def flatten (pairs : List (Bytes × Bytes)) : List Bytes := pairs.flatMap fun fv => [fv.1, fv.2]

def hgetall (publicKey : Bytes) : TxProg RespValue := do
  return .bulks (flatten ((← loadAll publicKey).getD []))

def hrandfield (publicKey : Bytes) (count : Int) (withValues : Bool) : TxProg RespValue := do
  match ← loadAll publicKey with
  | none => return .nullBulk
  | some pairs =>
    let picked ← randSample pairs count
    let items := if withValues then flatten picked else picked.map (·.1)
    match items with
    | first :: _ => if count = 1 then return .bulk first else return .bulks items
    | [] => return .bulks []

/-- The reply of `HSCAN` and `SSCAN`. -/
def scanReply (cursor : Bytes) (items : List Bytes) : RespValue :=
  .array (some [.bulk (if cursor.isEmpty then ascii "0" else cursor), .bulks items])

/-- A page of the matching fields. The slice panics when the cursor is past the end. -/
def hscan (publicKey cursor pattern : Bytes) (count : Int) : TxProg RespValue := do
  match ← loadAll publicKey with
  | none => return scanReply [] []
  | some all =>
    let start := (parseU64 cursor).getD 0
    let pairs := all.filter fun fv => pattern.isEmpty || Pattern.keyspaceMatch pattern fv.1
    let count := count.toNat
    let stop := if 0 < count then min ((start + count) % 2 ^ 64) pairs.length else pairs.length
    let from_ := start * 2 % 2 ^ 64
    if stop * 2 < from_ then fail .panic
    let page := ((flatten pairs).take (stop * 2)).drop from_
    return scanReply (if stop < pairs.length then decimal stop else []) page

/-! ## All hash commands -/

inductive Op where
  | hset (fieldValues : List Bytes)
  | hmset (fieldValues : List Bytes)
  | hsetnx (field value : Bytes)
  | hget (field : Bytes)
  | hmget (fields : List Bytes)
  | hdel (fields : List Bytes)
  | hexists (field : Bytes)
  | hlen
  | hkeys
  | hvals
  | hgetall
  | hincrby (field : Bytes) (amount : Int)
  | hincrbyfloat (field : Bytes) (amount : F64)
  | hrandfield (count : Int) (withValues : Bool)
  | hstrlen (field : Bytes)
  | hscan (cursor pattern : Bytes) (count : Int)

def Op.run (publicKey : Bytes) : Op → TxProg RespValue
  | .hset fieldValues => Hash.hset publicKey fieldValues
  | .hmset fieldValues => Hash.hmset publicKey fieldValues
  | .hsetnx field value => Hash.hsetnx publicKey field value
  | .hget field => Hash.hget publicKey field
  | .hmget fields => Hash.hmget publicKey fields
  | .hdel fields => Hash.hdel publicKey fields
  | .hexists field => Hash.hexists publicKey field
  | .hlen => Hash.hlen publicKey
  | .hkeys => Hash.hkeys publicKey
  | .hvals => Hash.hvals publicKey
  | .hgetall => Hash.hgetall publicKey
  | .hincrby field amount => Hash.hincrby publicKey field amount
  | .hincrbyfloat field amount => Hash.hincrbyfloat publicKey field amount
  | .hrandfield count withValues => Hash.hrandfield publicKey count withValues
  | .hstrlen field => Hash.hstrlen publicKey field
  | .hscan cursor pattern count => Hash.hscan publicKey cursor pattern count

def Op.isMutating : Op → Bool
  | .hset _ | .hmset _ | .hsetnx .. | .hdel _ | .hincrby .. | .hincrbyfloat .. => true
  | _ => false

end Invar.Hash
