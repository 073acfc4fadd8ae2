import Invar.Redis.ListType
import Invar.Redis.Pattern

/-!
# The keyspace (`redis/keys.rs`)

Commands on keys of any type. `DEL` and `RENAME` clear the elements of what they
remove, `MOVE` rewrites the elements under the prefix of the target db, `RENAME`
leaves them where they are and records their prefix.
-/

namespace Invar.Keys

open StoreProg TxProg

/-! ## Elements of compound values -/

/-- Whether values of this type keep element rows. -/
def hasElements (base : UInt8) : Bool :=
  [ValueType.list, .set, .sortedSet, .hash, .stream, .bloom].any (·.byte = base)

/-- Each row under `from_` is written under `to_` and deleted. -/
def moveRows (from_ to_ : Bytes) : List (Bytes × Row) → TxProg Unit
  | [] => return ()
  | (key, row) :: rest => do
    set { key := to_ ++ key.drop from_.length, value := row.value, metadata := row.metadata }
    delete key
    moveRows from_ to_ rest

def movePrefix (from_ to_ : Bytes) : TxProg Unit := do
  moveRows from_ to_ (← scanUnder from_)

def movePrefixes : List (Bytes × Bytes) → TxProg Unit
  | [] => return ()
  | (from_, to_) :: rest => do
    movePrefix from_ to_
    movePrefixes rest

def moveElements (publicKey : Bytes) (base : UInt8) (from_ to_ : Bytes) : TxProg Unit :=
  if base = ValueType.list.byte then ListType.moveNodes publicKey from_ to_
  else movePrefixes ((elementPrefixes base from_).zip (elementPrefixes base to_))

def clearPrefixes : List Bytes → TxProg Unit
  | [] => return ()
  | p :: rest => do
    deleteAll ((← scanUnder p).map (·.1))
    clearPrefixes rest

def clearCompoundEntries (publicKey nodePrefix : Bytes) (metadata : UInt8) : TxProg Unit :=
  if baseType metadata = ValueType.list.byte then ListType.deleteNodes publicKey nodePrefix
  else clearPrefixes (elementPrefixes (baseType metadata) nodePrefix)

/-! ## Reads -/

def countKeys : List Bytes → TxProg Int
  | [] => return 0
  | key :: rest => do
    let here := (← get key).isSome
    return (if here then 1 else 0) + (← countKeys rest)

def exists_ (keys : List Bytes) : TxProg RespValue := do
  return .integer (← countKeys keys)

def getValues : List Bytes → TxProg (List RespValue)
  | [] => return []
  | key :: rest => do
    let item ← get key
    return .bulkString (item.map (·.value)) :: (← getValues rest)

/-- The raw bytes of whatever is stored. -/
def mget (keys : List Bytes) : TxProg RespValue := do
  return .array (some (← getValues keys))

/-- `ttl_value`, in milliseconds. -/
def ttlValue (key : Bytes) (inUnit : Nat → Nat) : TxProg RespValue := do
  match ← get key with
  | none => return .integer (-2)
  | some item =>
    match item.ttl (← now) with
    | some ms => return .integer (inUnit ms)
    | none => return .integer (-1)

def ttl (key : Bytes) : TxProg RespValue := ttlValue key (· / 1000)

def pttl (key : Bytes) : TxProg RespValue := ttlValue key id

def typeNames : List (ValueType × String) :=
  [(.string, "string"), (.list, "list"), (.set, "set"), (.sortedSet, "zset"), (.hash, "hash"),
    (.stream, "stream"), (.vectorSet, "vectorset"), (.bloom, "bloom"), (.json, "json")]

def typeName (base : UInt8) : String :=
  ((typeNames.find? (·.1.byte = base)).map (·.2)).getD "unknown"

def typeByte (name : Bytes) : Option UInt8 :=
  (typeNames.find? fun t => ascii t.2 = name).map (·.1.byte)

def keyType (key : Bytes) : TxProg RespValue := do
  match ← get key with
  | some item => return .simpleString (ascii (typeName (baseType item.metadata)))
  | none => return .simpleString (ascii "none")

/-- The names in a db that match. -/
def keys (dbPrefix pattern : Bytes) : TxProg RespValue := do
  let rows ← scanUnder dbPrefix
  let now ← now
  let names := (rows.filter fun kr => !kr.2.expired now).map (·.1.drop dbPrefix.length)
  return .bulks (names.filter (Pattern.keyspaceMatch pattern))

structure ScanOp where
  dbPrefix : Bytes
  cursor : Bytes
  count : Nat
  pattern : Option Bytes
  typeFilter : Option UInt8

structure ScanPage where
  keys : List Bytes := []
  lastSeen : Bytes := []
  exhausted : Bool := false
  rest : List (Bytes × Row) := []

/-- The loop of `ScanOp::run` over the rows of the iterator. -/
def scanLoop (op : ScanOp) (count : Nat) : List (Bytes × Row) → ScanPage → ScanPage
  | [], page => if page.keys.length < count then { page with exhausted := true } else page
  | (full, row) :: rest, page =>
    if count ≤ page.keys.length then { page with rest := (full, row) :: rest }
    else if !op.dbPrefix.isPrefixOf full then { page with exhausted := true }
    else
      let name := full.drop op.dbPrefix.length
      let page := { page with lastSeen := name }
      if op.pattern.any (!Pattern.keyspaceMatch · name) ||
          op.typeFilter.any (· ≠ baseType row.metadata) then scanLoop op count rest page
      else scanLoop op count rest { page with keys := page.keys ++ [name] }

def ScanPage.finished (page : ScanPage) (op : ScanOp) : Bool :=
  page.exhausted || !page.rest.head?.any fun kr => op.dbPrefix.isPrefixOf kr.1

def ScanOp.run (op : ScanOp) : TxProg RespValue := do
  let cursor := if op.cursor = ascii "0" then [] else op.cursor
  let start := if cursor.isEmpty then Bound.included op.dbPrefix
    else Bound.excluded (op.dbPrefix ++ cursor)
  let rows ← scan (inRange start .unbounded)
  let page := scanLoop op (max op.count 1) rows {}
  let cursor := if page.finished op then [] else page.keys.getLast?.getD page.lastSeen
  return .array (some [.bulk (if cursor.isEmpty then ascii "0" else cursor), .bulks page.keys])

/-! ## Expiry -/

/-- `Duration` of a number of units, zero if it is negative. -/
def rewrite (key : Bytes) (item : Row) (ttl : Nat) : TxProg RespValue := do
  set { key, value := item.value, metadata := item.metadata, ttl }
  return .integer 1

def expireIn (key : Bytes) (ms : Nat) : TxProg RespValue := do
  let some item ← get key | return .integer 0
  rewrite key item ms

def expire (key : Bytes) (seconds : Int) : TxProg RespValue := expireIn key (seconds.toNat * 1000)

def pexpire (key : Bytes) (milliseconds : Int) : TxProg RespValue :=
  expireIn key milliseconds.toNat

def persist (key : Bytes) : TxProg RespValue := do
  let some item ← get key | return .integer 0
  if item.ttl (← now) = some 0 then return .integer 0
  rewrite key item 0

/-! ## Deleting and moving -/

def delKeys : List Bytes → Int → TxProg Int
  | [], count => return count
  | publicKey :: rest, count => do
    match ← get publicKey with
    | none => delKeys rest count
    | some item =>
      let p ← ofExcept (prefixOf item (privateKey publicKey))
      clearCompoundEntries publicKey p.bytes item.metadata
      delete publicKey
      delKeys rest (count + 1)

def del (keys : List Bytes) : TxProg RespValue := do
  return .integer (← delKeys keys 0)

/-- Where the elements of a moved value go: the db in a recorded prefix is replaced, a
name-derived prefix becomes that of the target. -/
def movedPrefix (target : Bytes) (targetDb : Int) (from_ : ElementPrefix) :
    Except DbError ElementPrefix :=
  if from_.explicit then
    match withDb from_.bytes targetDb with
    | .ok (some bytes) => .ok (.recorded bytes)
    | .ok none => .error corruptPrefix
    | .error e => .error e
  else .ok (.legacy (privateKey target))

/-- The public entry of a moved value. -/
def movedEntry (target : Bytes) (item : Row) (to_ : ElementPrefix) : Except DbError Entry :=
  if to_.explicit then
    (payload item).map fun content =>
      let (value, metadata) := encodeSentinel content (baseType item.metadata) to_
      { key := target, value, metadata }
  else .ok { key := target, value := item.value, metadata := item.metadata }

/-- `MoveOp::run`, for a key that is `source` in the session's db and `target` in the
other one. -/
def move (source target : Bytes) (targetDb : Int) (sameDb : Bool) : TxProg RespValue := do
  if sameDb then fail (.redis "source and destination objects are the same")
  let some item ← get source | return .integer 0
  if (← get target).isSome then return .integer 0
  let from_ ← ofExcept (prefixOf item (privateKey source))
  let to_ ← ofExcept (movedPrefix target targetDb from_)
  moveElements source (baseType item.metadata) from_.bytes to_.bytes
  let entry ← ofExcept (movedEntry target item to_)
  set (entry.keepTtlOf item (← now))
  delete source
  return .integer 1

/-- The value and type byte under which a renamed value is stored: a name-derived prefix
is recorded. -/
def renamedSentinel (item : Row) (source : ElementPrefix) : Bytes × UInt8 :=
  if source.explicit || !hasElements (baseType item.metadata) then (item.value, item.metadata)
  else encodeSentinel item.value item.metadata (.recorded source.bytes)

def renameEntry (old new : Bytes) (item : Row) : TxProg Unit := do
  if old = new then return ()
  match ← get new with
  | some existing =>
    let p ← ofExcept (prefixOf existing (privateKey new))
    clearCompoundEntries new p.bytes existing.metadata
  | none => pure ()
  let source ← ofExcept (prefixOf item (privateKey old))
  let (value, metadata) := renamedSentinel item source
  let entry : Entry := { key := new, value, metadata }
  set (entry.keepTtlOf item (← now))
  delete old

def rename (old new : Bytes) : TxProg RespValue := do
  match ← get old with
  | none => return .error (ascii "ERR no such key")
  | some item =>
    renameEntry old new item
    return .ok

def renameNx (old new : Bytes) : TxProg RespValue := do
  if (← get new).isSome then return .integer 0
  match ← get old with
  | none => return .error (ascii "no such key")
  | some item =>
    renameEntry old new item
    return .integer 1

end Invar.Keys
