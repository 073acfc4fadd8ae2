import Invar.Common.Namespace
import Invar.Common.Op
import Invar.Lib.FixedDigits

/-!
# Streams (`redis/stream.rs`)

A stream is a sentinel under the public key, holding counters and ids, and one
row for each entry under `<prefix>\0<version>:<ms>-<seq>`, both numbers padded to
20 digits so that key order is id order.

`u64` values are natural numbers; where the code can overflow, the sum is taken
modulo `2 ^ 64`.
-/

namespace Invar.Stream

open StoreProg TxProg

structure StreamEntryId where
  ms : Nat
  seq : Nat
deriving DecidableEq, Repr

namespace StreamEntryId

def zero : StreamEntryId := ⟨0, 0⟩

/-- The derived order: by `ms`, then by `seq`. -/
def lt (a b : StreamEntryId) : Bool := a.ms < b.ms || (a.ms = b.ms && a.seq < b.seq)

def width : Nat := 20

/-- Zero padded to 20 decimal digits; a `u64` never has more. -/
def pad (n : Nat) : Bytes := FixedDigits.digits 10 (fun d => UInt8.ofNat (48 + d)) width n

def keyPart (id : StreamEntryId) : Bytes := pad id.ms ++ 45 :: pad id.seq

def display (id : StreamEntryId) : Bytes := decimal id.ms ++ 45 :: decimal id.seq

/-- The next id (`bump_seq`). -/
def bumpSeq (id : StreamEntryId) : StreamEntryId :=
  if id.seq < 2 ^ 64 - 1 then ⟨id.ms, id.seq + 1⟩ else ⟨(id.ms + 1) % 2 ^ 64, 0⟩

end StreamEntryId

open StreamEntryId

structure StreamMeta where
  version : Nat
  count : Nat
  lastId : StreamEntryId
  firstId : StreamEntryId
  maxDeletedId : StreamEntryId
  entriesAdded : Nat
deriving DecidableEq, Repr

namespace StreamMeta

def new : StreamMeta := ⟨1, 0, zero, zero, zero, 0⟩

def sentinelSize : Nat := 9 * 8

def encode (m : StreamMeta) : Bytes :=
  [m.version, m.count, m.lastId.ms, m.lastId.seq, m.firstId.ms, m.firstId.seq,
    m.maxDeletedId.ms, m.maxDeletedId.seq, m.entriesAdded].flatMap (beBytes 8)

/-- The `i`-th of the numbers of an encoded sentinel. -/
def field (data : Bytes) (i : Nat) : Nat := ofBeBytes ((data.drop (8 * i)).take 8)

def decode (data : Bytes) : Option StreamMeta :=
  if data.length < sentinelSize then none
  else some
    { version := field data 0
      count := field data 1
      lastId := ⟨field data 2, field data 3⟩
      firstId := ⟨field data 4, field data 5⟩
      maxDeletedId := ⟨field data 6, field data 7⟩
      entriesAdded := field data 8 }

end StreamMeta

/-! ## Keys, sentinel and entries -/

def entryPrefix (nodePrefix : Bytes) (version : Nat) : Bytes :=
  nodePrefix ++ 0 :: decimal version ++ [58]

def entryKey (nodePrefix : Bytes) (version : Nat) (id : StreamEntryId) : Bytes :=
  entryPrefix nodePrefix version ++ id.keyPart

/-- A number of an entry key: `trim_start_matches('0')`, then `parse::<u64>`. -/
def unpad (digits : Bytes) : Nat := (parseU64 (digits.dropWhile (· = 48))).getD 0

/-- The id in an entry key; `none` also where `split_once` finds no dash, which
panics in the code. -/
def entryIdFromKey (key : Bytes) (prefixLen : Nat) : Option StreamEntryId :=
  let suffix := key.drop prefixLen
  if 45 ∈ suffix then
    let dash := suffix.idxOf 45
    some ⟨unpad (suffix.take dash), unpad (suffix.drop (dash + 1))⟩
  else none

def rangeStartBound (nodePrefix : Bytes) (version : Nat) (id : Option StreamEntryId) : Bound :=
  match id with
  | some id => .included (entryKey nodePrefix version id)
  | none => .included (entryPrefix nodePrefix version)

def rangeEndBound (nodePrefix : Bytes) (version : Nat) (id : Option StreamEntryId) : Bound :=
  match id with
  | some id => .included (entryKey nodePrefix version id)
  | none => .unbounded

/-- `none` for a missing key and for a value that is no sentinel (`KeyNotFound`). -/
def readSentinel (publicKey : Bytes) : TxProg (Option StreamMeta) := do
  match ← get publicKey with
  | none => return none
  | some item =>
    if baseType item.metadata ≠ ValueType.stream.byte then fail .wrongType
    else return StreamMeta.decode (← ofExcept (payload item))

def writeSentinel (publicKey : Bytes) (m : StreamMeta) (p : ElementPrefix) : TxProg Unit :=
  Invar.writeSentinel publicKey m.encode ValueType.stream.byte p

abbrev Fields := List (Bytes × Bytes)

def encodeEntryValue (fields : Fields) : Bytes :=
  fields.flatMap fun fv =>
    beBytes 4 fv.1.length ++ fv.1 ++ beBytes 4 fv.2.length ++ fv.2

/-- A length-prefixed string and what follows it. -/
def takeField (data : Bytes) (reserve : Nat) : Option (Bytes × Bytes) :=
  let len := ofBeBytes (data.take 4)
  let rest := data.drop 4
  if rest.length < len + reserve then none else some (rest.take len, rest.drop len)

/-- `decode_entry_value`; each round consumes at least eight bytes. -/
def decodeEntryValue : (fuel : Nat) → Bytes → Option Fields
  | 0, _ => some []
  | fuel + 1, data =>
    if data.length < 4 then some []
    else do
      let (field, rest) ← takeField data 4
      let (value, rest) ← takeField rest 0
      return (field, value) :: (← decodeEntryValue fuel rest)

structure StreamEntry where
  id : StreamEntryId
  fields : Fields
deriving DecidableEq, Repr

def entryOfRow (prefixLen : Nat) (kr : Bytes × Row) : Option StreamEntry :=
  (entryIdFromKey kr.1 prefixLen).map fun id =>
    { id, fields := (decodeEntryValue kr.2.value.length kr.2.value).getD [] }

/-- `scan_entries`: the loop leaves the range at the first key outside the
prefix, and stops once it holds `count` entries (at least one). -/
def scanEntries (nodePrefix : Bytes) (version : Nat) (start stop : Option StreamEntryId)
    (count : Nat) : TxProg (List StreamEntry) := do
  let p := entryPrefix nodePrefix version
  let rows ← scan fun k =>
    inRange (rangeStartBound nodePrefix version start) (rangeEndBound nodePrefix version stop) k &&
      p.isPrefixOf k
  return (rows.filterMap (entryOfRow p.length)).take (max count 1)

/-! ## Trimming and `XADD` -/

def StreamMeta.emptied (m : StreamMeta) : StreamMeta :=
  if m.count = 0 then { m with firstId := zero, lastId := zero } else m

/-- The `MAXLEN` part of `do_trim`: the oldest entries go. -/
def trimMaxLen (nodePrefix : Bytes) (m : StreamMeta) (limit : Nat) : TxProg StreamMeta := do
  let toRemove := m.count - limit
  let p := entryPrefix nodePrefix m.version
  let rows ← scanUnder p
  let kept := (rows.drop toRemove).map (·.1)
  deleteAll ((rows.take toRemove).map (·.1))
  let m := { m with count := m.count - toRemove }
  let firstKept := kept.findSome? (entryIdFromKey · p.length)
  return { m with firstId := firstKept.getD m.firstId }.emptied

/-- The `MINID` part of `do_trim`: the entries below the id go. -/
def trimMinId (nodePrefix : Bytes) (m : StreamMeta) (min : StreamEntryId) :
    TxProg StreamMeta := do
  let rows ← scan (inRange (.included (entryPrefix nodePrefix m.version))
    (.excluded (entryKey nodePrefix m.version min)))
  deleteAll (rows.map (·.1))
  let m := { m with count := m.count - rows.length }
  let m := if m.count = 0 then m.emptied
    else if 0 < rows.length then { m with firstId := min } else m
  return if m.maxDeletedId.lt min then { m with maxDeletedId := min } else m

def doTrim (nodePrefix : Bytes) (m : StreamMeta) (maxLen : Option Nat)
    (minId : Option StreamEntryId) : TxProg StreamMeta := do
  if m.count = 0 then return m
  else
    match maxLen with
    | some limit =>
      if m.count ≤ limit then return m
      else trimFrom (← trimMaxLen nodePrefix m limit)
    | none => trimFrom m
where
  trimFrom (m : StreamMeta) : TxProg StreamMeta :=
    match minId with
    | some min => if m.count = 0 then return m else trimMinId nodePrefix m min
    | none => return m

structure XAddOp where
  publicKey : Bytes
  nodePrefix : Bytes
  nomkstream : Bool := false
  maxLen : Option Nat := none
  minId : Option StreamEntryId := none
  explicitId : Option StreamEntryId := none
  fieldValues : List Bytes
deriving DecidableEq, Repr

/-- The id of the new entry. The check of an explicit id compares the two parts
one by one, so it is not a check of the order of ids. -/
def nextId (explicit : Option StreamEntryId) (last : StreamEntryId) (now : Int) :
    Except DbError StreamEntryId :=
  match explicit with
  | some id =>
    if id.ms ≤ last.ms && id.seq ≤ last.seq && !(id = zero && last = zero) then
      .error (.redis ("ERR The ID specified in XADD is equal or smaller than " ++
        "the target stream top item"))
    else if id = zero then
      .error (.redis "ERR The ID specified in XADD must be greater than 0-0")
    else .ok id
  | none =>
    if (last.ms : Int) < now then .ok ⟨now.toNat, 0⟩
    else .ok ⟨last.ms, (last.seq + 1) % 2 ^ 64⟩

def pairUp : List Bytes → Fields
  | f :: v :: rest => (f, v) :: pairUp rest
  | _ => []

def StreamMeta.withEntry (m : StreamMeta) (id : StreamEntryId) : StreamMeta :=
  { m with
    count := m.count + 1
    entriesAdded := m.entriesAdded + 1
    lastId := id
    firstId := if m.count = 0 then id else m.firstId }

/-- `XAddOp::run`; the notification that it returns is made by the caller. -/
def XAddOp.write (op : XAddOp) : TxProg StreamEntryId := do
  let nodePrefix ← resolvePrefixForWrite op.publicKey op.nodePrefix
  match ← readSentinel op.publicKey with
  | none =>
    if op.nomkstream then fail (.redis "no such key")
    else append nodePrefix StreamMeta.new
  | some m => append nodePrefix m
where
  append (nodePrefix : ElementPrefix) (m : StreamMeta) : TxProg StreamEntryId := do
    let id ← ofExcept (nextId op.explicitId m.lastId (← now))
    if op.fieldValues.length % 2 ≠ 0 then
      fail (.redis "ERR wrong number of arguments for XADD")
    else
      set { key := entryKey nodePrefix.bytes m.version id
            value := encodeEntryValue (pairUp op.fieldValues)
            metadata := ValueType.stream.byte }
      let m := m.withEntry id
      writeSentinel op.publicKey m nodePrefix
      if op.maxLen.isSome || op.minId.isSome then
        let m ← doTrim nodePrefix.bytes m op.maxLen op.minId
        writeSentinel op.publicKey m nodePrefix
      return id

/-! ## `XREAD` -/

/-- The prefix is the name-derived one of the public key. -/
structure XReadStream where
  publicKey : Bytes
  nodePrefix : Bytes
  name : Bytes
  derived : nodePrefix = privateKey publicKey
deriving DecidableEq, Repr

/-- `timeout` is the time to block for; `none` is for ever. -/
structure XReadOp where
  streams : List XReadStream
  ids : List (Option StreamEntryId)
  count : Nat
  timeout : Option Nat
  block : Bool
deriving DecidableEq, Repr

/-- Each `$` (`none`) becomes the stream's last id; `none` again where there is
no stream. -/
def resolveReadIds : List (XReadStream × Option StreamEntryId) →
    TxProg (List (Option StreamEntryId))
  | [] => return []
  | (_, some id) :: rest => return some id :: (← resolveReadIds rest)
  | (stream, none) :: rest => do
    let last := (← readSentinel stream.publicKey).map (·.lastId)
    return last :: (← resolveReadIds rest)

/-- One stream of `read_streams`: the entries after the id. -/
def readStream (stream : XReadStream) (id : Option StreamEntryId) (count : Nat) :
    TxProg (List StreamEntry) := do
  match ← readSentinel stream.publicKey with
  | none => return []
  | some m =>
    let nodePrefix ← resolvePrefix stream.publicKey stream.nodePrefix
    scanEntries nodePrefix.bytes m.version (id.map bumpSeq) none count

def readStreams (count : Nat) : List (XReadStream × Option StreamEntryId) →
    TxProg (List (Bytes × List StreamEntry))
  | [] => return []
  | (stream, id) :: rest => do
    let entries ← readStream stream id count
    return (stream.name, entries) :: (← readStreams count rest)

def entryResp (e : StreamEntry) : RespValue :=
  .array (some [.bulkString (some e.id.display),
    .array (some (e.fields.flatMap fun fv =>
      [.bulkString (some fv.1), .bulkString (some fv.2)]))])

/-- `XReadWire::reply`: nil when no stream has entries. -/
def xreadReply (streams : List (Bytes × List StreamEntry)) : RespValue :=
  if streams.any fun s => !s.2.isEmpty then
    .array (some (streams.map fun s =>
      .array (some [.bulkString (some s.1), .array (some (s.2.map entryResp))])))
  else .nullArray

end Invar.Stream
