import Invar.Common.Namespace
import Invar.Common.Op
import Invar.Redis.Pattern

/-!
# Sets (`redis/set.rs`)

A set is a sentinel under the public key, holding the number of members, and one
row `<prefix>\0<member>` for each member, whose value is the member again.

A `HashSet` is a list without repetitions; the order in which the source iterates
over one is not specified, here it is the order of insertion.
-/

namespace Invar.Set

open StoreProg TxProg

def typeSet : UInt8 := ValueType.set.byte

/-! ## Storage layout -/

def internalMemberKey (nodePrefix member : Bytes) : Bytes := nodePrefix ++ 0 :: member

def membersPrefix (nodePrefix : Bytes) : Bytes := nodePrefix ++ [0]

/-- What follows the last NUL byte. -/
def memberFromInternalKey (key : Bytes) : Bytes :=
  if 0 ∈ key then (key.reverse.takeWhile (· ≠ 0)).reverse else []

def setCount (publicKey : Bytes) : TxProg (Option UInt32) := sentinelCount typeSet publicKey

def writeSentinel (publicKey : Bytes) (count : UInt32) (p : ElementPrefix) : TxProg Unit :=
  Invar.writeSentinel publicKey (beBytes 4 count.toNat) typeSet p

def memberEntry (key member : Bytes) : Entry := { key, value := member, metadata := typeSet }

/-- The values of the rows under the members' prefix. -/
def memberValues (nodePrefix : Bytes) : TxProg (List Bytes) := do
  return (← scanUnder (membersPrefix nodePrefix)).map (·.2.value)

def loadSetMembers (publicKey nodePrefix : Bytes) : TxProg (List Bytes) := do
  match ← setCount publicKey with
  | none => return []
  | some _ =>
    let p ← resolvePrefix publicKey nodePrefix
    return (← memberValues p.bytes).dedup

/-- The rows under the prefix that the key resolves to are deleted whatever the key
holds; a key that is not there resolves to its name-derived prefix. -/
def clearSet (publicKey nodePrefix : Bytes) : TxProg Unit := do
  let p ← resolvePrefix publicKey nodePrefix
  deleteAll ((← scanUnder (membersPrefix p.bytes)).map (·.1))
  delete publicKey

def storeSetResult (publicKey nodePrefix : Bytes) (members : List Bytes) : TxProg Int := do
  clearSet publicKey nodePrefix
  let p ← newNamespace nodePrefix
  setAll (members.map fun member => memberEntry (internalMemberKey p.bytes member) member)
  writeSentinel publicKey (UInt32.ofNat members.length) p
  return members.length

/-! ## Writes -/

/-- The loop of `SAddOp::run`: the count and the number of new members. -/
def addMembers (p : ElementPrefix) : List Bytes → UInt32 → Int → TxProg (UInt32 × Int)
  | [], count, added => return (count, added)
  | member :: rest, count, added => do
    let internal := internalMemberKey p.bytes member
    match ← get internal with
    | some _ => addMembers p rest count added
    | none =>
      set (memberEntry internal member)
      addMembers p rest (count + 1) (added + 1)

def sadd (publicKey : Bytes) (members : List Bytes) : TxProg RespValue := do
  let p ← resolvePrefixForWrite publicKey (privateKey publicKey)
  let count := (← setCount publicKey).getD 0
  let (count, added) ← addMembers p members count 0
  writeSentinel publicKey count p
  return .integer added

/-- The loop of `SRemOp::run`. -/
def removeMembers (p : ElementPrefix) : List Bytes → UInt32 → Int → TxProg (UInt32 × Int)
  | [], count, removed => return (count, removed)
  | member :: rest, count, removed => do
    let internal := internalMemberKey p.bytes member
    match ← get internal with
    | some _ =>
      delete internal
      removeMembers p rest (count - 1) (removed + 1)
    | none => removeMembers p rest count removed

/-- The sentinel of a set that has lost members. -/
def writeCount (publicKey : Bytes) (count : UInt32) (p : ElementPrefix) : TxProg Unit :=
  if count = 0 then delete publicKey else writeSentinel publicKey count p

def srem (publicKey : Bytes) (members : List Bytes) : TxProg RespValue := do
  let p ← resolvePrefix publicKey (privateKey publicKey)
  let some count ← setCount publicKey | return .integer 0
  let (count, removed) ← removeMembers p members count 0
  writeCount publicKey count p
  return .integer removed

def spop (publicKey : Bytes) : TxProg RespValue := do
  let p ← resolvePrefix publicKey (privateKey publicKey)
  let some count ← setCount publicKey | return .nullBulk
  let i ← randIndex count.toNat
  let rows ← scanUnder (membersPrefix p.bytes)
  match rows[i]? with
  | none => return .nullBulk
  | some (internal, _) =>
    delete internal
    writeCount publicKey (count - 1) p
    return .bulk (memberFromInternalKey internal)

def boolReply (b : Bool) : RespValue := .integer (if b then 1 else 0)

/-- The source is written before the type of the destination is looked at. -/
def smove (src dst member : Bytes) : TxProg RespValue := do
  if src = dst then
    let some _ ← setCount src | return boolReply false
    let p ← resolvePrefix src (privateKey src)
    return boolReply (← get (internalMemberKey p.bytes member)).isSome
  else
    let some srcCount ← setCount src | return boolReply false
    let srcPrefix ← resolvePrefix src (privateKey src)
    let srcInternal := internalMemberKey srcPrefix.bytes member
    match ← get srcInternal with
    | none => return boolReply false
    | some _ =>
      delete srcInternal
      writeCount src (srcCount - 1) srcPrefix
      let dstPrefix ← resolvePrefixForWrite dst (privateKey dst)
      let dstInternal := internalMemberKey dstPrefix.bytes member
      match ← get dstInternal with
      | some _ => return boolReply true
      | none =>
        set (memberEntry dstInternal member)
        let dstCount := (← setCount dst).getD 0
        writeSentinel dst (dstCount + 1) dstPrefix
        return boolReply true

/-! ## Reads -/

def scard (publicKey : Bytes) : TxProg RespValue := do
  return .integer ((← setCount publicKey).getD 0).toNat

/-- The prefix is resolved before and inside `load_set_members`. -/
def allMembers (publicKey : Bytes) : TxProg (List Bytes) := do
  let p ← resolvePrefix publicKey (privateKey publicKey)
  loadSetMembers publicKey p.bytes

def smembers (publicKey : Bytes) : TxProg RespValue := do
  return .bulks (← allMembers publicKey)

def sismember (publicKey member : Bytes) : TxProg RespValue := do
  let p ← resolvePrefix publicKey (privateKey publicKey)
  let some _ ← setCount publicKey | return boolReply false
  return boolReply (← get (internalMemberKey p.bytes member)).isSome

def srandmember (publicKey : Bytes) (count : Int) : TxProg RespValue := do
  let picked ← randSample (← allMembers publicKey) count
  if count = 1 then return .bulkString picked.head?
  else return .bulks picked

inductive BinarySetOpKind where
  | diff | inter | union
deriving DecidableEq, Repr

def BinarySetOpKind.combine (result other : List Bytes) : BinarySetOpKind → List Bytes
  | .diff => result.filter (· ∉ other)
  | .inter => result.filter (· ∈ other)
  | .union => result ++ other.filter (· ∉ result)

def combineRest (kind : BinarySetOpKind) : List Bytes → List Bytes → TxProg (List Bytes)
  | [], result => return result
  | key :: rest, result => do
    combineRest kind rest (kind.combine result (← loadSetMembers key (privateKey key)))

/-- The result of `SDIFF`, `SINTER` and `SUNION`. -/
def combineSets (kind : BinarySetOpKind) : List Bytes → TxProg (List Bytes)
  | [] => return []
  | first :: rest => do combineRest kind rest (← loadSetMembers first (privateKey first))

def binarySetOp (kind : BinarySetOpKind) (keys : List Bytes) : TxProg RespValue := do
  return .bulks (← combineSets kind keys)

def storeOp (kind : BinarySetOpKind) (dest : Bytes) (keys : List Bytes) : TxProg RespValue := do
  let members ← combineSets kind keys
  return .integer (← storeSetResult dest (privateKey dest) members)

/-- The reply of `SSCAN`, whose empty cursor is sent as 0. -/
def scanReply (cursor : Bytes) (items : List Bytes) : RespValue :=
  .array (some [.bulk (if cursor.isEmpty then ascii "0" else cursor), .bulks items])

/-- A page of the matching members. The slice panics when the cursor is past the end. -/
def sscan (publicKey cursor : Bytes) (count : Nat) (pattern : Option Bytes) :
    TxProg RespValue := do
  let p ← resolvePrefix publicKey (privateKey publicKey)
  let some _ ← setCount publicKey | return scanReply [] []
  let all ← memberValues p.bytes
  let start := if cursor.isEmpty || cursor = ascii "0" then 0 else (parseU64 cursor).getD 0
  let filtered := all.filter fun m => pattern.all (Pattern.keyspaceMatch · m)
  let stop := min ((start + max count 1) % 2 ^ 64) filtered.length
  if stop < start then fail .panic
  let page := (filtered.take stop).drop start
  return scanReply (if stop < filtered.length then decimal stop else []) page

/-! ## All set commands of one key -/

inductive Op where
  | sadd (members : List Bytes)
  | srem (members : List Bytes)
  | scard
  | smembers
  | sismember (member : Bytes)
  | spop
  | srandmember (count : Int)
  | sscan (cursor : Bytes) (count : Nat) (pattern : Option Bytes)

def Op.run (publicKey : Bytes) : Op → TxProg RespValue
  | .sadd members => Set.sadd publicKey members
  | .srem members => Set.srem publicKey members
  | .scard => Set.scard publicKey
  | .smembers => Set.smembers publicKey
  | .sismember member => Set.sismember publicKey member
  | .spop => Set.spop publicKey
  | .srandmember count => Set.srandmember publicKey count
  | .sscan cursor count pattern => Set.sscan publicKey cursor count pattern

def Op.isMutating : Op → Bool
  | .sadd _ | .srem _ | .spop => true
  | _ => false

end Invar.Set
