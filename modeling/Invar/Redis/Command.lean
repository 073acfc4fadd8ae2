import Invar.Redis.Bitmap
import Invar.Redis.Bloom
import Invar.Redis.Hash
import Invar.Redis.Hll
import Invar.Redis.Json
import Invar.Redis.Keys
import Invar.Redis.Set
import Invar.Redis.StreamOps
import Invar.Redis.Strings
import Invar.Redis.ZsetOps

/-!
# The commands on data

A `DataCommand` is a command whose database half works on the transaction of the
dispatcher, with the public keys that its arguments name. `BZPOPMIN`, `BZPOPMAX`
and `XREAD` are here as what they do when they do not block.
-/

namespace Invar

open StoreProg TxProg

inductive DataCommand where
  | string (key : Bytes) (op : Strings.Op)
  | mset (pairs : List (Bytes × Bytes))
  | msetNx (pairs : List (Bytes × Bytes))
  | bitmap (key : Bytes) (op : Bitmap.Op)
  | bitOp (dest : Bytes) (op : Bitmap.BitOpType) (sources : List Bytes)
  | pfadd (key : Bytes) (elements : List Bytes)
  | pfcount (keys : List Bytes)
  | pfmerge (dest : Bytes) (sources : List Bytes)
  | list (key : Bytes) (op : ListType.Op)
  | rpoplpush (src dst : Bytes)
  | set (key : Bytes) (op : Set.Op)
  | smove (src dst member : Bytes)
  | setOp (kind : Set.BinarySetOpKind) (keys : List Bytes)
  | setStore (kind : Set.BinarySetOpKind) (dest : Bytes) (keys : List Bytes)
  | zset (key : Bytes) (op : Zset.Op)
  | zadd (key rawKey : Bytes) (args : List Bytes)
  /-- The public keys, each with the name that the client gave. -/
  | bzpop (keys : List (Bytes × Bytes)) (wantMin : Bool)
  | zsetOp (kind : Zset.SetOpKind) (aggregate : Bytes) (weights : List F64) (keys : List Bytes)
      (withScores : Bool)
  | zsetStore (kind : Zset.SetOpKind) (dest aggregate : Bytes) (weights : List F64)
      (keys : List Bytes)
  | zrangestore (dest src : Bytes) (start stop : Int)
  | hash (key : Bytes) (op : Hash.Op)
  | stream (key : Bytes) (op : Stream.Op)
  | xadd (key : Bytes) (nomkstream : Bool) (maxLen : Option Nat)
      (minId explicitId : Option Stream.StreamEntryId) (fieldValues : List Bytes)
  | xread (streams : List (Bytes × Bytes)) (ids : List (Option Stream.StreamEntryId)) (count : Nat)
  | bloom (key : Bytes) (op : Bloom.Op)
  | json (key : Bytes) (op : Json.Op)
  | jsonMget (keys : List Bytes) (path : Bytes)
  | exists_ (keys : List Bytes)
  | mget (keys : List Bytes)
  | ttl (key : Bytes)
  | pttl (key : Bytes)
  | keyType (key : Bytes)
  | keysOp (dbPrefix pattern : Bytes)
  | scan (op : Keys.ScanOp)
  | dbsize (dbPrefix : Bytes)
  | expire (key : Bytes) (seconds : Int)
  | pexpire (key : Bytes) (milliseconds : Int)
  | persist (key : Bytes)
  | del (keys : List Bytes)
  | move (source target : Bytes) (targetDb : Int) (sameDb : Bool)
  | rename (old new : Bytes)
  | renameNx (old new : Bytes)

/-- `bzpop_reply_value`, nil without a result. -/
def popReply : Option PopResult → RespValue
  | some p => .array (some [.bulk p.key, .bulk p.member, .bulk p.score.display])
  | none => .nullBulk

/-- `ZAddOp::run`. A waiter that the registry hands out (`some` of which end it wants) gets
a member from the same transaction. -/
def Zset.ZAddOp.run (op : Zset.ZAddOp) (waiter : Option Bool) : TxProg RespValue := do
  let written ← op.write
  if let (true, some wantMin) := (written.added, waiter) then
    let _ ← Zset.popOne wantMin written.node
  return .integer written.reply

/-- A stream of an `XREAD`, given as public key and name. -/
def Stream.XReadStream.ofKey (kn : Bytes × Bytes) : Stream.XReadStream where
  publicKey := kn.1
  nodePrefix := privateKey kn.1
  name := kn.2
  derived := rfl

/-- `XReadOp::run` without blocking. -/
def Stream.xreadNow (streams : List (Bytes × Bytes)) (ids : List (Option Stream.StreamEntryId))
    (count : Nat) : TxProg RespValue := do
  let streams := streams.map Stream.XReadStream.ofKey
  let ids ← Stream.resolveReadIds (streams.zip ids)
  return Stream.xreadReply (← Stream.readStreams count (streams.zip ids))

/-- `DbSizeOp::run`: the rows that the iterator lists. -/
def Keys.dbsize (dbPrefix : Bytes) : TxProg RespValue := do
  return .integer (← scanUnder dbPrefix).length

namespace DataCommand

/-- What the command does. `ln` is the natural logarithm of the platform, `waiter` the
waiter that a `ZADD` finds. -/
def run (ln : F64 → F64) (waiter : Option Bool) : DataCommand → TxProg RespValue
  | .string key op => op.run key
  | .mset pairs => Strings.mset pairs
  | .msetNx pairs => Strings.msetNx pairs
  | .bitmap key op => op.run key
  | .bitOp dest op sources => Bitmap.bitOp dest op sources
  | .pfadd key elements => Hll.pfadd key elements
  | .pfcount keys => Hll.pfcount keys
  | .pfmerge dest sources => Hll.pfmerge dest sources
  | .list key op => op.run key
  | .rpoplpush src dst => ListType.rpoplpush src dst
  | .set key op => op.run key
  | .smove src dst member => Set.smove src dst member
  | .setOp kind keys => Set.binarySetOp kind keys
  | .setStore kind dest keys => Set.storeOp kind dest keys
  | .zset key op => op.run key
  | .zadd key rawKey args => Zset.ZAddOp.run { node := .new key, rawKey, args } waiter
  | .bzpop keys wantMin => do
    return popReply (← Zset.tryPop wantMin (keys.map fun kn => (.new kn.1, kn.2)))
  | .zsetOp kind aggregate weights keys withScores =>
    Zset.SetOp.run { nodes := keys.map .new, aggregate, weights, kind } withScores
  | .zsetStore kind dest aggregate weights keys =>
    Zset.SetOp.store { nodes := keys.map .new, aggregate, weights, kind } (.new dest)
  | .zrangestore dest src start stop => Zset.zrangestore (.new dest) (.new src) start stop
  | .hash key op => op.run key
  | .stream key op => op.run key
  | .xadd key nomkstream maxLen minId explicitId fieldValues => do
    let op : Stream.XAddOp :=
      { publicKey := key, nodePrefix := privateKey key, nomkstream, maxLen, minId, explicitId
        fieldValues }
    return .bulk (← op.write).display
  | .xread streams ids count => Stream.xreadNow streams ids count
  | .bloom key op => op.run ln key
  | .json key op => op.run key
  | .jsonMget keys path => Json.mget keys path
  | .exists_ keys => Keys.exists_ keys
  | .mget keys => Keys.mget keys
  | .ttl key => Keys.ttl key
  | .pttl key => Keys.pttl key
  | .keyType key => Keys.keyType key
  | .keysOp dbPrefix pattern => Keys.keys dbPrefix pattern
  | .scan op => op.run
  | .dbsize dbPrefix => Keys.dbsize dbPrefix
  | .expire key seconds => Keys.expire key seconds
  | .pexpire key milliseconds => Keys.pexpire key milliseconds
  | .persist key => Keys.persist key
  | .del keys => Keys.del keys
  | .move source target targetDb sameDb => Keys.move source target targetDb sameDb
  | .rename old new => Keys.rename old new
  | .renameNx old new => Keys.renameNx old new

/-- The public keys that the arguments name. -/
def names : DataCommand → List Bytes
  | .string key _ | .bitmap key _ | .pfadd key _ | .list key _ | .set key _ | .zset key _
  | .zadd key _ _ | .hash key _ | .stream key _ | .xadd key _ _ _ _ _ | .bloom key _
  | .json key _ | .ttl key | .pttl key | .keyType key | .expire key _ | .pexpire key _
  | .persist key => [key]
  | .mset pairs | .msetNx pairs | .bzpop pairs _ | .xread pairs _ _ => pairs.map (·.1)
  | .pfcount keys | .setOp _ keys | .zsetOp _ _ _ keys _ | .jsonMget keys _ | .exists_ keys
  | .mget keys | .del keys => keys
  | .bitOp dest _ keys | .pfmerge dest keys | .setStore _ dest keys
  | .zsetStore _ dest _ _ keys => dest :: keys
  | .rpoplpush src dst | .smove src dst _ | .zrangestore dst src _ _ | .move src dst _ _
  | .rename src dst | .renameNx src dst => [src, dst]
  | .keysOp _ _ | .scan _ | .dbsize _ => []

/-- The keys that `QueuedOp::keys` holds, before the conversion to text; `MOVE` leaves out
its target. -/
def announced : DataCommand → Option (List Bytes)
  | .keysOp _ _ | .scan _ | .dbsize _ => none
  | .move source _ _ _ => some [source]
  | c => some c.names

/-- How the wire half renders an error. -/
def onError : DataCommand → DbError → RespValue
  | .list _ op => op.onError
  | .dbsize _ => fun e => .error (ascii ("ERR: " ++ e.toText))
  | _ => errResp

end DataCommand

end Invar
