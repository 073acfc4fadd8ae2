import Invar.Redis.Zset

/-!
# The commands on sorted sets (`redis/zset.rs`)

All but `ZADD` and the blocking pops, which meet the registry of waiters. A
`HashMap` from members to scores is an ordered map here; the source sorts what it
takes from one.
-/

namespace Invar.Zset

open StoreProg TxProg Ieee754

/-! ## Ranges -/

/-- `range_indexes`: the first and the last position; `none` for an empty range. -/
def rangeIndexes (n start stop : Int) : Option (Nat × Nat) :=
  let start := if start < 0 then start + n else start
  let stop := if stop < 0 then stop + n else stop
  let start := max start 0
  let stop := if n ≤ stop then n - 1 else stop
  if stop < start || n ≤ start then none else some (start.toNat, stop.toNat)

/-- The elements from `lo` to `hi`. -/
def slice {α : Type} (xs : List α) (lo hi : Nat) : List α := (xs.take (hi + 1)).drop lo

def notAFloatBound : DbError := .redis "min or max is not a float"

structure ScoreBound where
  value : F64
  exclusive : Bool

def parseFloatBound (s : Bytes) : Except DbError ScoreBound :=
  if s = ascii "+inf" || s = ascii "inf" then .ok ⟨.infinity false, false⟩
  else if s = ascii "-inf" then .ok ⟨.infinity true, false⟩
  else
    let exclusive := s.head? == some 40
    match F64.parse (if exclusive then s.drop 1 else s) with
    | some value => .ok { value, exclusive }
    | none => .error notAFloatBound

structure ScoreRange where
  min : ScoreBound
  max : ScoreBound

def parseScoreRange (minStr maxStr : Bytes) : Except DbError ScoreRange := do
  let min ← parseFloatBound minStr
  let max ← parseFloatBound maxStr
  return { min, max }

/-- A score is skipped if it is on the wrong side of a bound. -/
def ScoreRange.contains (r : ScoreRange) (score : F64) : Bool :=
  !(if r.min.exclusive then score.le r.min.value else score.lt r.min.value) &&
    !(if r.max.exclusive then r.max.value.le score else r.max.value.lt score)

structure LexBound where
  /-- `none` for `+` and `-`, whichever end they stand at. -/
  value : Option Bytes
  exclusive : Bool

def parseLexBound (s : Bytes) : Except DbError LexBound :=
  if s = ascii "+" || s = ascii "-" then .ok ⟨none, false⟩
  else
    match s with
    | 40 :: rest => .ok ⟨some rest, true⟩
    | 91 :: rest => .ok ⟨some rest, false⟩
    | _ => .error (.redis "min or max not valid string range item")

def LexBound.below (b : LexBound) (m : Bytes) : Bool :=
  b.value.any fun v => if b.exclusive then compare m v != .gt else compare m v == .lt

def LexBound.above (b : LexBound) (m : Bytes) : Bool :=
  b.value.any fun v => if b.exclusive then compare m v != .lt else compare m v == .gt

def filterLexRange (members : List Bytes) (minStr maxStr : Bytes) :
    Except DbError (List Bytes) := do
  let min ← parseLexBound minStr
  let max ← parseLexBound maxStr
  return members.filter fun m => !min.below m && !max.above m

/-- `LIMIT offset count`: a negative offset selects nothing, a negative count all. -/
def applyLimit {α : Type} (limit : Option (Int × Int)) (xs : List α) : List α :=
  match limit with
  | none => xs
  | some (offset, count) =>
    if offset < 0 || xs.length ≤ offset then []
    else
      let rest := xs.drop offset.toNat
      if count < 0 then rest else rest.take count.toNat

/-! ## Replies -/

def flattenMembers (members : List MemberScore) (withScores : Bool) : List Bytes :=
  if withScores then members.flatMap fun e => [e.member, e.score.display]
  else members.map (·.member)

def membersReply (members : List MemberScore) (withScores : Bool) : RespValue :=
  .bulks (flattenMembers members withScores)

def scoreReply (score : Option F64) : RespValue := .bulkString (score.map (·.display))

/-! ## Single members -/

def zcard (node : NodeRef) : TxProg RespValue := do
  return .integer ((← zsetCount node.publicKey).getD 0)

/-- The score in the member index; a value that is too short is an error. -/
def memberScore (node : NodeRef) (member : Bytes) : TxProg (Option F64) := do
  match ← get (node.memberKey member) with
  | none => return none
  | some item =>
    if item.value.length < 8 then fail (.kv .keyNotFound)
    else return some (scoreOfBytes item.value)

def zscore (node : NodeRef) (member : Bytes) : TxProg RespValue := do
  let node ← node.resolved
  match ← zsetCount node.publicKey with
  | none => return scoreReply none
  | some _ => return scoreReply (← memberScore node member)

def memberScores (node : NodeRef) : List Bytes → TxProg (List RespValue)
  | [] => return []
  | m :: ms => do
    let score ← memberScore node m
    return scoreReply score :: (← memberScores node ms)

def zmscore (node : NodeRef) (members : List Bytes) : TxProg RespValue := do
  let node ← node.resolved
  match ← zsetCount node.publicKey with
  | none => return .array (some (members.map fun _ => scoreReply none))
  | some _ => return .array (some (← memberScores node members))

/-- `count - 1` of a `u32`. -/
def countDown (count : Nat) : Nat := (count + (2 ^ 32 - 1)) % 2 ^ 32

/-- The loop of `ZRemOp::run`. A member whose row is too short ends it with an error,
after the writes for the members before it. -/
def removeAll (node : NodeRef) : List Bytes → Nat → Int → TxProg (Nat × Int)
  | [], count, removed => return (count, removed)
  | member :: rest, count, removed => do
    match ← memberScore node member with
    | none => removeAll node rest count removed
    | some score =>
      delete (node.memberKey member)
      delete (node.scoreKey score member)
      removeAll node rest (countDown count) (removed + 1)

/-- The sentinel of a sorted set that has lost members. -/
def writeCount (node : NodeRef) (count : Nat) : TxProg Unit :=
  if count = 0 then delete node.publicKey else writeSentinel node.publicKey count node.nodePrefix

def zrem (node : NodeRef) (members : List Bytes) : TxProg RespValue := do
  let node ← node.resolved
  match ← zsetCount node.publicKey with
  | none => return .integer 0
  | some count =>
    let (count, removed) ← removeAll node members count 0
    writeCount node count
    return .integer removed

def invalidScore : DbError := .redis "resulting score is not a valid float"

/-- The rows of one member. -/
def memberEntries (node : NodeRef) (e : MemberScore) : List Entry :=
  [{ key := node.scoreKey e.score e.member, value := [] },
    { key := node.memberKey e.member, value := scoreBytes e.score }]

def zincrby (node : NodeRef) (increment : F64) (member : Bytes) : TxProg RespValue := do
  let node ← node.resolvedForWrite
  let count ← zsetCount node.publicKey
  match ← memberScore node member with
  | none =>
    if increment.isNan then fail invalidScore
    setAll (memberEntries node ⟨member, increment⟩)
    writeSentinel node.publicKey ((count.map (· + 1)).getD 1) node.nodePrefix
    return .bulk increment.display
  | some score =>
    let newScore := score.add increment
    if newScore.isNan then fail invalidScore
    delete (node.scoreKey score member)
    setAll (memberEntries node ⟨member, newScore⟩)
    return .bulk newScore.display

/-! ## Reads of ranges -/

def rangeByRank (node : NodeRef) (start stop : Int) (withScores reverse : Bool) :
    TxProg RespValue := do
  let node ← node.resolved
  let entries ← loadAllMembers node
  match rangeIndexes entries.length start stop with
  | none => return .bulks []
  | some (lo, hi) =>
    let entries := if reverse then entries.reverse else entries
    return membersReply (slice entries lo hi) withScores

def rank (node : NodeRef) (member : Bytes) (reverse : Bool) : TxProg RespValue := do
  let node ← node.resolved
  let entries ← loadAllMembers node
  match entries.findIdx? (·.member = member) with
  | none => return .nullBulk
  | some i => return .integer (if reverse then entries.length - 1 - i else i : Nat)

def zcount (node : NodeRef) (minStr maxStr : Bytes) : TxProg RespValue := do
  let node ← node.resolved
  let entries ← loadAllMembers node
  let range ← ofExcept (parseScoreRange minStr maxStr)
  return .integer (entries.countP fun e => range.contains e.score)

def rangeByScore (node : NodeRef) (minStr maxStr : Bytes) (withScores : Bool)
    (limit : Option (Int × Int)) (reverse : Bool) : TxProg RespValue := do
  let node ← node.resolved
  let entries ← loadAllMembers node
  let range ← ofExcept (parseScoreRange minStr maxStr)
  let filtered := entries.filter fun e => range.contains e.score
  let filtered := if reverse then filtered.reverse else filtered
  return membersReply (applyLimit limit filtered) withScores

def rangeByLex (node : NodeRef) (minStr maxStr : Bytes) (limit : Option (Int × Int))
    (reverse : Bool) : TxProg RespValue := do
  let node ← node.resolved
  let entries ← loadAllMembers node
  let result ← ofExcept (filterLexRange (entries.map (·.member)) minStr maxStr)
  let result := if reverse then result.reverse else result
  return .bulks (applyLimit limit result)

def lexCount (node : NodeRef) (minStr maxStr : Bytes) : TxProg RespValue := do
  let node ← node.resolved
  let entries ← loadAllMembers node
  let result ← ofExcept (filterLexRange (entries.map (·.member)) minStr maxStr)
  return .integer result.length

/-- A count of `i64::MIN` cannot be negated, and its allocation panics. -/
def zrandmember (node : NodeRef) (count : Int) : TxProg RespValue := do
  let node ← node.resolved
  let entries ← loadAllMembers node
  if count = 0 || entries.isEmpty then return .bulks []
  if count = -2 ^ 63 then fail .panic
  let perm ← randPerm entries.length
  let picked := (perm.take count.natAbs).filterMap (entries[·]?)
  return membersReply picked (count < 0)

/-! ## Removal of ranges -/

def memberKeys (node : NodeRef) (es : List MemberScore) : List Bytes :=
  es.flatMap fun e => [node.memberKey e.member, node.scoreKey e.score e.member]

def remRangeByRank (node : NodeRef) (start stop : Int) : TxProg RespValue := do
  let node ← node.resolved
  let entries ← loadAllMembers node
  match rangeIndexes entries.length start stop with
  | none => return .integer 0
  | some (lo, hi) =>
    let gone := slice entries lo hi
    deleteAll (memberKeys node gone)
    writeCount node (entries.length - gone.length)
    return .integer gone.length

/-- The end of `ZREMRANGEBYSCORE` and `ZREMRANGEBYLEX`: the new count is the recorded one
less what was removed, as a `u32`. -/
def removeEntries (node : NodeRef) (gone : List MemberScore) : TxProg RespValue := do
  deleteAll (memberKeys node gone)
  if gone.isEmpty then return .integer 0
  match ← zsetCount node.publicKey with
  | none => fail (.kv .keyNotFound)
  | some count =>
    if count = gone.length then delete node.publicKey
    else writeSentinel node.publicKey (((count : Int) - gone.length) % 2 ^ 32).toNat node.nodePrefix
    return .integer gone.length

def remRangeByScore (node : NodeRef) (minStr maxStr : Bytes) : TxProg RespValue := do
  let node ← node.resolved
  let entries ← loadAllMembers node
  let range ← ofExcept (parseScoreRange minStr maxStr)
  removeEntries node (entries.filter fun e => range.contains e.score)

def remRangeByLex (node : NodeRef) (minStr maxStr : Bytes) : TxProg RespValue := do
  let node ← node.resolved
  let entries ← loadAllMembers node
  let gone ← ofExcept (filterLexRange (entries.map (·.member)) minStr maxStr)
  removeEntries node (entries.filter (·.member ∈ gone))

/-- The sentinel is rewritten, or the key deleted, even if nothing was popped. -/
def zpop (node : NodeRef) (count : Nat) (wantMin : Bool) : TxProg RespValue := do
  let node ← node.resolved
  let entries ← loadAllMembers node
  let count := min count entries.length
  let popped := if wantMin then entries.take count else entries.drop (entries.length - count)
  deleteAll (memberKeys node popped)
  writeCount node (entries.length - count)
  return membersReply popped true

/-! ## Set algebra -/

abbrev ScoreMap := Std.ExtTreeMap Bytes F64

def loadZsetMap (node : NodeRef) : TxProg ScoreMap := do
  let node ← node.resolved
  return (← loadAllMembers node).foldl (fun map e => map.insert e.member e.score) ∅

def memberLe (a b : MemberScore) : Bool :=
  match a.score.partialCmp b.score with
  | some .lt => true
  | some .gt => false
  | _ => (compare a.member b.member).isLE

/-- `zset_to_slice`: ascending by score, then by member. -/
def zsetToSlice (map : ScoreMap) : List MemberScore :=
  (map.toList.map fun ms => { member := ms.1, score := ms.2 }).mergeSort memberLe

/-- `sum` starts from negative zero. -/
def aggregateScores (aggregate : Bytes) (scores : List F64) : F64 :=
  if lower aggregate = ascii "sum" then scores.foldl F64.add F64.zero.neg
  else if lower aggregate = ascii "min" then scores.foldl F64.min (.infinity false)
  else if lower aggregate = ascii "max" then scores.foldl F64.max (.infinity true)
  else scores.head?.getD .zero

/-- Every score is multiplied by the first weight. -/
def applyWeights (weights : List F64) (map : ScoreMap) : ScoreMap :=
  match weights with
  | [] => map
  | w :: _ => map.map fun _ score => score.mul w

def loadMaps : List NodeRef → TxProg (List ScoreMap)
  | [] => return []
  | node :: rest => do
    let map ← loadZsetMap node
    return map :: (← loadMaps rest)

def zdiffMap (nodes : List NodeRef) : TxProg ScoreMap := do
  match ← loadMaps nodes with
  | [] => return ∅
  | first :: others => return first.filter fun m _ => !others.any (·.contains m)

def intersectScores (aggregate : Bytes) : List ScoreMap → ScoreMap
  | [] => ∅
  | first :: others =>
    first.filterMap fun m _ =>
      ((first :: others).mapM fun map => map[m]?).map (aggregateScores aggregate)

def zinterMap (aggregate : Bytes) (weights : List F64) (nodes : List NodeRef) :
    TxProg ScoreMap := do
  return applyWeights weights (intersectScores aggregate (← loadMaps nodes))

/-- The scores of each member, in the order of the sources. -/
def gatherScores (maps : List ScoreMap) : Std.ExtTreeMap Bytes (List F64) :=
  maps.foldl (fun sources map => map.toList.foldl
    (fun sources ms => sources.insert ms.1 ((sources[ms.1]?).getD [] ++ [ms.2])) sources) ∅

def unionScores (aggregate : Bytes) (maps : List ScoreMap) : ScoreMap :=
  (gatherScores maps).map fun _ scores =>
    match scores with
    | [score] => score
    | scores => aggregateScores aggregate scores

def zunionMap (aggregate : Bytes) (weights : List F64) (nodes : List NodeRef) :
    TxProg ScoreMap := do
  return applyWeights weights (unionScores aggregate (← loadMaps nodes))

inductive SetOpKind where
  | diff | inter | union
deriving DecidableEq, Repr

structure SetOp where
  nodes : List NodeRef
  aggregate : Bytes
  weights : List F64
  kind : SetOpKind

def SetOp.map (op : SetOp) : TxProg ScoreMap :=
  match op.kind with
  | .diff => zdiffMap op.nodes
  | .inter => zinterMap op.aggregate op.weights op.nodes
  | .union => zunionMap op.aggregate op.weights op.nodes

def SetOp.run (op : SetOp) (withScores : Bool) : TxProg RespValue := do
  return membersReply (zsetToSlice (← op.map)) withScores

/-- The rows under the prefix that the key resolves to are deleted whatever the key
holds; a key that is not there resolves to its name-derived prefix. -/
def clearInternalKeys (node : NodeRef) : TxProg Unit := do
  let node ← node.resolved
  let scoreRows ← scanUnder node.scorePrefix
  let memberRows ← scanUnder node.memberPrefix
  deleteAll (scoreRows.map (·.1))
  deleteAll (memberRows.map (·.1))
  delete node.publicKey

def storeZsetResult (dest : NodeRef) (members : List MemberScore) : TxProg RespValue := do
  clearInternalKeys dest
  let dest := { dest with nodePrefix := ← newNamespace dest.nodePrefix.bytes }
  setAll (members.flatMap (memberEntries dest))
  writeSentinel dest.publicKey members.length dest.nodePrefix
  return .integer members.length

def SetOp.store (op : SetOp) (dest : NodeRef) : TxProg RespValue := do
  storeZsetResult dest (zsetToSlice (← op.map))

def zrangestore (dest src : NodeRef) (start stop : Int) : TxProg RespValue := do
  let entries ← loadAllMembers src
  match rangeIndexes entries.length start stop with
  | some (lo, hi) => storeZsetResult dest (slice entries lo hi)
  | none => storeZsetResult dest []

/-! ## All commands of one sorted set but `ZADD` -/

inductive Op where
  | zcard
  | zscore (member : Bytes)
  | zmscore (members : List Bytes)
  | zrem (members : List Bytes)
  | zincrby (increment : F64) (member : Bytes)
  | rangeByRank (start stop : Int) (withScores reverse : Bool)
  | rank (member : Bytes) (reverse : Bool)
  | zcount (minStr maxStr : Bytes)
  | rangeByScore (minStr maxStr : Bytes) (withScores : Bool) (limit : Option (Int × Int))
      (reverse : Bool)
  | rangeByLex (minStr maxStr : Bytes) (limit : Option (Int × Int)) (reverse : Bool)
  | lexCount (minStr maxStr : Bytes)
  | zrandmember (count : Int)
  | remRangeByRank (start stop : Int)
  | remRangeByScore (minStr maxStr : Bytes)
  | remRangeByLex (minStr maxStr : Bytes)
  | zpop (count : Nat) (wantMin : Bool)

def Op.run (publicKey : Bytes) (op : Op) : TxProg RespValue :=
  let node := NodeRef.new publicKey
  match op with
  | .zcard => Zset.zcard node
  | .zscore member => Zset.zscore node member
  | .zmscore members => Zset.zmscore node members
  | .zrem members => Zset.zrem node members
  | .zincrby increment member => Zset.zincrby node increment member
  | .rangeByRank start stop withScores reverse =>
    Zset.rangeByRank node start stop withScores reverse
  | .rank member reverse => Zset.rank node member reverse
  | .zcount minStr maxStr => Zset.zcount node minStr maxStr
  | .rangeByScore minStr maxStr withScores limit reverse =>
    Zset.rangeByScore node minStr maxStr withScores limit reverse
  | .rangeByLex minStr maxStr limit reverse => Zset.rangeByLex node minStr maxStr limit reverse
  | .lexCount minStr maxStr => Zset.lexCount node minStr maxStr
  | .zrandmember count => Zset.zrandmember node count
  | .remRangeByRank start stop => Zset.remRangeByRank node start stop
  | .remRangeByScore minStr maxStr => Zset.remRangeByScore node minStr maxStr
  | .remRangeByLex minStr maxStr => Zset.remRangeByLex node minStr maxStr
  | .zpop count wantMin => Zset.zpop node count wantMin

end Invar.Zset
