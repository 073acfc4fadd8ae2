import Invar.Redis.Stream

/-!
# The commands on one stream (`redis/stream.rs`)

All but `XADD` and `XREAD`, which meet the registry of waiters.
-/

namespace Invar.Stream

open StoreProg TxProg

def xlen (publicKey : Bytes) : TxProg RespValue := do
  let count := ((← readSentinel publicKey).map (·.count)).getD 0
  return .integer (asI64 count)

/-- `XRANGE`, and `XREVRANGE` with `reverse`: the same entries the other way round. -/
def xrange (publicKey : Bytes) (start stop : Option StreamEntryId) (count : Nat)
    (reverse : Bool) : TxProg RespValue := do
  let p ← resolvePrefix publicKey (privateKey publicKey)
  let some m ← readSentinel publicKey | return .array (some [])
  let entries ← scanEntries p.bytes m.version start stop count
  let entries := if reverse then entries.reverse else entries
  return .array (some (entries.map entryResp))

/-- The count and the greatest deleted id after the removal of one entry. -/
def StreamMeta.withoutEntry (m : StreamMeta) (id : StreamEntryId) : StreamMeta :=
  { m with
    count := m.count - 1
    maxDeletedId := if m.maxDeletedId.lt id then id else m.maxDeletedId }

/-- The loop of `XDelOp::run`. -/
def deleteEntries (p : ElementPrefix) : List StreamEntryId → StreamMeta → Int →
    TxProg (StreamMeta × Int)
  | [], m, deleted => return (m, deleted)
  | id :: rest, m, deleted => do
    let key := entryKey p.bytes m.version id
    match ← get key with
    | some _ =>
      delete key
      deleteEntries p rest (m.withoutEntry id) (deleted + 1)
    | none => deleteEntries p rest m deleted

/-- The stream stays, also when its last entry goes. -/
def xdel (publicKey : Bytes) (ids : List StreamEntryId) : TxProg RespValue := do
  let p ← resolvePrefix publicKey (privateKey publicKey)
  let some m ← readSentinel publicKey | return .integer 0
  let (m, deleted) ← deleteEntries p ids m 0
  writeSentinel publicKey m.emptied p
  return .integer deleted

def xtrim (publicKey : Bytes) (maxLen : Option Nat) (minId : Option StreamEntryId) :
    TxProg RespValue := do
  let p ← resolvePrefix publicKey (privateKey publicKey)
  let some m ← readSentinel publicKey | return .integer 0
  let trimmed ← doTrim p.bytes m maxLen minId
  writeSentinel publicKey trimmed p
  return .integer (asI64 (m.count - trimmed.count))

/-- The id is taken as it is, whatever the stream holds. -/
def xsetid (publicKey : Bytes) (lastId : StreamEntryId) : TxProg RespValue := do
  let p ← resolvePrefixForWrite publicKey (privateKey publicKey)
  let m := (← readSentinel publicKey).getD StreamMeta.new
  writeSentinel publicKey { m with lastId } p
  return .ok

def StreamMeta.infoReply (m : StreamMeta) : RespValue :=
  let name (s : String) : RespValue := .bulk (ascii s)
  .array (some [name "length", .integer (asI64 m.count),
    name "radix-tree-keys", .integer 0,
    name "radix-tree-nodes", .integer 0,
    name "groups", .integer 0,
    name "last-generated-id", .bulk m.lastId.display,
    name "max-deleted-entry-id", .bulk m.maxDeletedId.display,
    name "entries-added", .integer (asI64 m.entriesAdded),
    name "recorded-first-entry-id", .bulk m.firstId.display,
    name "first-entry-id", .bulk m.firstId.display,
    name "last-accessed-entry-id", .bulk m.lastId.display])

def xinfoStream (publicKey : Bytes) : TxProg RespValue := do
  match ← readSentinel publicKey with
  | none => fail (.kv .keyNotFound)
  | some m => return m.infoReply

/-! ## All stream commands of one key but `XADD` -/

inductive Op where
  | xlen
  | xrange (start stop : Option StreamEntryId) (count : Nat) (reverse : Bool)
  | xdel (ids : List StreamEntryId)
  | xtrim (maxLen : Option Nat) (minId : Option StreamEntryId)
  | xsetid (lastId : StreamEntryId)
  | xinfoStream

def Op.run (publicKey : Bytes) : Op → TxProg RespValue
  | .xlen => Stream.xlen publicKey
  | .xrange start stop count reverse => Stream.xrange publicKey start stop count reverse
  | .xdel ids => Stream.xdel publicKey ids
  | .xtrim maxLen minId => Stream.xtrim publicKey maxLen minId
  | .xsetid lastId => Stream.xsetid publicKey lastId
  | .xinfoStream => Stream.xinfoStream publicKey

def Op.isMutating : Op → Bool
  | .xdel _ | .xtrim .. | .xsetid _ => true
  | _ => false

end Invar.Stream
