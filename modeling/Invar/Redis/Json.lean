import Invar.Common.Namespace
import Invar.Common.Op
import Invar.Redis.JsonText

/-!
# JSON documents (`redis/json.rs`)

A document is one row under the public key. A command parses it, changes it in
memory and writes it back without its expiry. Paths are UTF-8 texts.
-/

namespace Invar.Json

open StoreProg TxProg Ieee754

def typeJson : UInt8 := ValueType.json.byte

/-! ## Paths -/

inductive Part where
  | key (k : Bytes)
  | index (i : Int)
  | wildcard
  | recursive
deriving DecidableEq, Repr

/-- The text of a message that quotes part of a path. -/
def textOf (bs : Bytes) : String := String.ofList (bs.map fun b => Char.ofNat b.toNat)

def endsKey (b : UInt8) : Bool := b = 46 || b = 91 || b = 42

/-- The bytes up to the closing quote of a key in brackets, where a backslash hides the
byte after it, and what follows the quote. -/
def quotedKey : Bytes → Option (Bytes × Bytes)
  | [] => none
  | [92] => none
  | 92 :: b :: rest => (quotedKey rest).map fun kr => (92 :: b :: kr.1, kr.2)
  | b :: rest => if b = 34 then some ([], rest) else (quotedKey rest).map fun kr =>
    (b :: kr.1, kr.2)

/-- The loop of `parse_path`; each round consumes a byte. -/
def parseParts : (fuel : Nat) → Bytes → Except String (List Part)
  | _, [] => .ok []
  | 0, _ => .ok []
  | fuel + 1, 46 :: 46 :: rest =>
    match rest with
    | 42 :: rest => do return .recursive :: .wildcard :: (← parseParts fuel rest)
    | rest => do
      let k := rest.takeWhile (!endsKey ·)
      let parts ← parseParts fuel (rest.drop k.length)
      return .recursive :: (if k.isEmpty then parts else .key k :: parts)
  | fuel + 1, 46 :: 42 :: rest => do return .wildcard :: (← parseParts fuel rest)
  | fuel + 1, 46 :: rest =>
    let k := rest.takeWhile (!endsKey ·)
    if k.isEmpty then .error "err empty key in path"
    else do return .key k :: (← parseParts fuel (rest.drop k.length))
  | fuel + 1, 91 :: 42 :: rest =>
    match rest with
    | 93 :: rest => do return .wildcard :: (← parseParts fuel rest)
    | _ => .error "err invalid path"
  | fuel + 1, 91 :: 34 :: rest =>
    match quotedKey rest with
    | none => .error "err unclosed string in path"
    | some (k, 93 :: rest) => do return .key k :: (← parseParts fuel rest)
    | some _ => .error "err expected ] after string key"
  | fuel + 1, 91 :: rest =>
    let digits := rest.takeWhile (· ≠ 93)
    if 93 ∉ rest then .error "err unclosed bracket in path"
    else if digits.isEmpty then .error "err empty brackets in path"
    else
      match parseI64 digits with
      | none => .error ("err invalid array index: " ++ textOf digits)
      | some i => do return .index i :: (← parseParts fuel (rest.drop (digits.length + 1)))
  | fuel + 1, 42 :: rest => do return .wildcard :: (← parseParts fuel rest)
  | _, b :: _ =>
    .error ("err unexpected character '" ++ textOf (utf8Encode b.toNat) ++ "' in path")

/-- `parse_path`, without the root that all paths start with. -/
def parsePath (s : Bytes) : Except String (List Part) :=
  match s with
  | [] => .error "err path cannot be empty"
  | b :: rest =>
    if b = 36 then parseParts (rest.length + 1) rest
    else if b = 46 || b = 91 then parseParts (s.length + 1) s
    else .error "err path must start with $"

/-- The position of an index, which counts from the end if it is negative. -/
def position (i : Int) (len : Nat) : Option Nat :=
  let i := if i < 0 then i + len else i
  if i < 0 || (len : Int) ≤ i then none else some i.toNat

def outOfRange : String := "err index out of range"

def notAnArray : String := "err not an array"

def noPath : String := "err path does not exist"

def wrongType : String := "err existing key has wrong type"

/-! ## Queries -/

mutual

/-- `f` on a value and on all values below it, in document order. -/
def descend (f : JValue → Except String (List JValue)) : JValue → Except String (List JValue)
  | .arr items => do return (← f (.arr items)) ++ (← descendItems f items)
  | .obj members => do return (← f (.obj members)) ++ (← descendMembers f members)
  | v => f v

def descendItems (f : JValue → Except String (List JValue)) :
    List JValue → Except String (List JValue)
  | [] => return []
  | v :: rest => do return (← descend f v) ++ (← descendItems f rest)

def descendMembers (f : JValue → Except String (List JValue)) :
    List (Bytes × JValue) → Except String (List JValue)
  | [] => return []
  | (_, v) :: rest => do return (← descend f v) ++ (← descendMembers f rest)

end

def resolveAll (f : JValue → Except String (List JValue)) :
    List JValue → Except String (List JValue)
  | [] => return []
  | v :: rest => do return (← f v) ++ (← resolveAll f rest)

/-- `resolve_recursive`. -/
def resolve : List Part → JValue → Except String (List JValue)
  | [], data => .ok [data]
  | .recursive :: rest, data => descend (resolve rest) data
  | .wildcard :: rest, .obj members => resolveAll (resolve rest) (members.map (·.2))
  | .wildcard :: rest, .arr items => resolveAll (resolve rest) items
  | .wildcard :: _, _ => .error "err cannot wildcard on scalar value"
  | .key k :: rest, .obj members =>
    match members.lookup k with
    | some v => resolve rest v
    | none => .error noPath
  | .key _ :: _, _ => .error noPath
  | .index i :: rest, .arr items =>
    match position i items.length with
    | some n => resolve rest (items.getD n .null)
    | none => .error outOfRange
  | .index _ :: _, _ => .error notAnArray

/-- `JsonDocument::get`. -/
def getPath (root : JValue) (path : Bytes) : Except String JValue := do
  match ← parsePath path with
  | [] => return root
  | parts =>
    match ← resolve parts root with
    | [] => .error noPath
    | [v] => return v
    | vs => return .arr vs

/-! ## Updates -/

/-- `f` at the container that `parts` lead to; objects on the way are created. -/
def updateParent {α : Type} (f : JValue → Except String (JValue × α)) :
    List Part → JValue → Except String (JValue × α)
  | [], data => f data
  | .key k :: rest, .obj members => do
    let (child, a) ← updateParent f rest ((members.lookup k).getD (.obj []))
    return (.obj (insertMember k child members), a)
  | .key _ :: _, _ => .error wrongType
  | .index i :: rest, .arr items =>
    match position i items.length with
    | none => .error outOfRange
    | some n => do
      let (child, a) ← updateParent f rest (items.getD n .null)
      return (.arr (items.set n child), a)
  | .index _ :: _, _ => .error notAnArray
  | _, _ => .error "err wildcard/recursive paths not supported for set"

def unexpectedPart : String := "err unexpected path part"

/-- The assignment of the last part of a path, in its container. -/
def assign (last : Part) (value : JValue) : JValue → Except String (JValue × Unit)
  | .obj members =>
    match last with
    | .key k => .ok (.obj (insertMember k value members), ())
    | .index _ => .error notAnArray
    | _ => .error unexpectedPart
  | .arr items =>
    match last with
    | .key _ => .error wrongType
    | .index i =>
      match position i items.length with
      | some n => .ok (.arr (items.set n value), ())
      | none => .error outOfRange
    | _ => .error unexpectedPart
  | _ =>
    match last with
    | .key _ => .error wrongType
    | .index _ => .error notAnArray
    | _ => .error unexpectedPart

def isDirect (p : Part) : Bool :=
  match p with
  | .key _ | .index _ => true
  | _ => false

/-- `set_array_result`, on a path that is already parsed. -/
def replaceAt (parts : List Part) (value root : JValue) : Except String JValue :=
  match parts.getLast? with
  | none => .ok value
  | some last => (updateParent (assign last value) parts.dropLast root).map (·.1)

/-- `set_at_parts`. -/
def setAtParts (parts : List Part) (value root : JValue) : Except String JValue :=
  if parts.all isDirect then replaceAt parts value root
  else .error "err wildcard/recursive paths not supported for set"

/-- `JsonDocument::set`. -/
def setPath (root : JValue) (path : Bytes) (value : JValue) : Except String JValue := do
  setAtParts (← parsePath path) value root

def setArrayResult (root : JValue) (path : Bytes) (items : List JValue) :
    Except String JValue := do
  replaceAt (← parsePath path) (.arr items) root

def removeKey (k : Bytes) : JValue → Except String (JValue × Unit)
  | .obj members =>
    if (members.lookup k).isSome then .ok (.obj (members.filter (·.1 ≠ k)), ())
    else .error noPath
  | _ => .error wrongType

def resolveSingle (root : JValue) (parts : List Part) : Except String JValue := do
  match ← resolve parts root with
  | [v] => return v
  | _ => .error "err ambiguous path"

/-- `JsonDocument::delete`; the root becomes null. -/
def deletePath (root : JValue) (path : Bytes) : Except String JValue := do
  let parts ← parsePath path
  match parts.getLast? with
  | none => return .null
  | some last =>
    if !parts.all isDirect then .error "err wildcard/recursive paths not supported for delete"
    else
      match last with
      | .key k => return (← updateParent (removeKey k) parts.dropLast root).1
      | .index i =>
        match ← resolveSingle root parts.dropLast with
        | .arr items =>
          match position i items.length with
          | none => .error outOfRange
          | some n => setAtParts parts.dropLast (.arr (items.eraseIdx n)) root
        | _ => .error notAnArray
      | _ => .error unexpectedPart

/-- `arr_append` in the container of the array: the new length. -/
def appendAt (last : Part) (values : List JValue) : JValue → Except String (JValue × Nat)
  | .obj members =>
    match last with
    | .key k =>
      match members.lookup k with
      | none => .ok (.obj (insertMember k (.arr values) members), values.length)
      | some (.arr items) =>
        .ok (.obj (insertMember k (.arr (items ++ values)) members), items.length + values.length)
      | some _ => .error wrongType
    | .index _ => .error notAnArray
    | _ => .error unexpectedPart
  | .arr items =>
    match last with
    | .key _ => .error wrongType
    | .index i =>
      match position i items.length with
      | none => .error outOfRange
      | some n =>
        match items.getD n .null with
        | .arr inner =>
          .ok (.arr (items.set n (.arr (inner ++ values))), inner.length + values.length)
        | _ => .error wrongType
    | _ => .error unexpectedPart
  | _ =>
    match last with
    | .key _ => .error wrongType
    | .index _ => .error notAnArray
    | _ => .error unexpectedPart

def arrAppendPath (root : JValue) (path : Bytes) (values : List JValue) :
    Except String (JValue × Nat) := do
  let parts ← parsePath path
  match parts.getLast? with
  | none => .error "err cannot append to root document"
  | some last =>
    if !parts.all isDirect then .error "err wildcard/recursive paths not supported"
    else updateParent (appendAt last values) parts.dropLast root

def itemsAt (root : JValue) (path : Bytes) : Except String (List JValue) := do
  match ← getPath root path with
  | .arr items => return items
  | _ => .error notAnArray

def numberAt (root : JValue) (path : Bytes) : Except String F64 := do
  match ← getPath root path with
  | .number n => return n
  | _ => .error wrongType

/-- A path that leads nowhere counts as zero. -/
def numIncrByPath (root : JValue) (path : Bytes) (delta : F64) : Except String (JValue × F64) := do
  if (← parsePath path).isEmpty then .error "err cannot operate on root document"
  let current ←
    match getPath root path with
    | .error _ => .ok .zero
    | .ok (.number n) => .ok n
    | .ok _ => .error wrongType
  let value := F64.add current delta
  return (← setPath root path (.number value), value)

def numMultByPath (root : JValue) (path : Bytes) (factor : F64) : Except String (JValue × F64) := do
  let value := (← numberAt root path).mul factor
  return (← setPath root path (.number value), value)

def strAppendPath (root : JValue) (path suffix : Bytes) : Except String (JValue × Nat) := do
  match ← getPath root path with
  | .str s => return (← setPath root path (.str (s ++ suffix)), s.length + suffix.length)
  | _ => .error wrongType

/-! ## Replies -/

def valueReply : JValue → RespValue
  | .null => .nullBulk
  | v => .bulk (serialize v)

mutual

/-- `to_resp_value`. -/
def toRespValue : JValue → RespValue
  | .null => .nullBulk
  | .bool b => .integer (if b then 1 else 0)
  | .number f => .bulk (formatFloat f)
  | .str s => .bulk s
  | .arr items => .array (some (itemsToResp items))
  | .obj members => .array (some (membersToResp members))

def itemsToResp : List JValue → List RespValue
  | [] => []
  | v :: rest => toRespValue v :: itemsToResp rest

def membersToResp : List (Bytes × JValue) → List RespValue
  | [] => []
  | (k, v) :: rest => .bulk k :: toRespValue v :: membersToResp rest

end

/-! ## Storage -/

inductive Loaded where
  | missing
  | wrongType
  | doc (root : JValue)

/-- The error of a document that does not parse; the source adds what the parser says. -/
def invalidDocument : DbError := .redis "invalid JSON document: "

def loadDoc (key : Bytes) : TxProg Loaded := do
  match ← get key with
  | none => return .missing
  | some item =>
    if item.metadata ≠ typeJson then return .wrongType
    else
      match parseJson item.value with
      | some root => return .doc root
      | none => fail invalidDocument

/-- The document is written without an expiry. -/
def writeDoc (key : Bytes) (root : JValue) : TxProg Unit :=
  set { key, value := serialize root, metadata := typeJson }

def ofResult {α : Type} : Except String α → TxProg α
  | .ok a => return a
  | .error msg => fail (.redis msg)

/-- The reply for a missing document, or what is done with one. -/
def withDoc (key : Bytes) (missing : RespValue) (f : JValue → TxProg RespValue) :
    TxProg RespValue := do
  match ← loadDoc key with
  | .missing => return missing
  | .wrongType => fail .wrongType
  | .doc root => f root

/-- A query: the reply is nil if it fails. -/
def query (key : Bytes) (f : JValue → Except String RespValue) : TxProg RespValue :=
  withDoc key .nullBulk fun root =>
    match f root with
    | .ok reply => return reply
    | .error _ => return .nullBulk

/-- An update: nothing is written if it fails. -/
def update {α : Type} (key : Bytes) (f : JValue → Except String (JValue × α))
    (reply : α → RespValue) : TxProg RespValue :=
  withDoc key .nullBulk fun root => do
    let (root, a) ← ofResult (f root)
    writeDoc key root
    return reply a

/-! ## Commands -/

def isRootPath (path : Bytes) : Bool := path = ascii "$" || path = ascii "."

/-- `NX` and `XX` look at the key for a root path, else at the path. -/
def setOp (key path : Bytes) (value : JValue) (nx xx : Bool) : TxProg RespValue := do
  let loaded ← loadDoc key
  let (exists_, root) ←
    match loaded with
    | .missing => pure (false, JValue.obj [])
    | .doc root => pure (true, root)
    | .wrongType => fail .wrongType
  let here := if isRootPath path then exists_ else (getPath root path).isOk
  if nx && here || xx && !here then return .nullBulk
  let root ← if isRootPath path then pure value else ofResult (setPath root path value)
  writeDoc key root
  return .ok

/-- One value per path: null where there is none. -/
def collect (root : JValue) (paths : List Bytes) : JValue :=
  .obj (paths.foldl (fun m p => insertMember p ((getPath root p).toOption.getD .null) m) [])

def getOp (key : Bytes) (paths : List Bytes) : TxProg RespValue :=
  query key fun root =>
    match paths with
    | [] => .ok (valueReply root)
    | [path] => (getPath root path).map valueReply
    | paths => .ok (valueReply (collect root paths))

/-- The loop of `DelOp::run`. -/
def deletePaths : List Bytes → JValue → Nat → JValue × Nat
  | [], root, deleted => (root, deleted)
  | path :: rest, root, deleted =>
    match (getPath root path).bind fun _ => deletePath root path with
    | .ok root => deletePaths rest root (deleted + 1)
    | .error _ => deletePaths rest root deleted

/-- Without a path the key is deleted, and a missing one counts too. -/
def delOp (key : Bytes) (paths : List Bytes) : TxProg RespValue := do
  if paths.isEmpty then
    match ← get key with
    | none => return .integer 1
    | some item =>
      if item.metadata ≠ typeJson then fail .wrongType
      delete key
      return .integer 1
  else
    withDoc key (.integer 0) fun root => do
      let (root, deleted) := deletePaths paths root 0
      if 0 < deleted then writeDoc key root
      return .integer deleted

def isWholePath (path : Bytes) : Bool := isRootPath path || path.isEmpty

def typeOp (key path : Bytes) : TxProg RespValue :=
  query key fun root =>
    (if isWholePath path then .ok root else getPath root path).map fun v => .bulk (typeName v)

def arrAppend (key path : Bytes) (values : List JValue) : TxProg RespValue :=
  update key (arrAppendPath · path values) fun len => .integer len

/-- Values are compared by their texts. -/
def indexOf (items : List JValue) (value : JValue) : Int :=
  match items.findIdx? fun v => serialize v = serialize value with
  | some i => i
  | none => -1

def arrIndex (key path : Bytes) (value : JValue) : TxProg RespValue :=
  withDoc key .nullBulk fun root =>
    match itemsAt root path with
    | .ok items => return .integer (indexOf items value)
    | .error _ => return .integer (-1)

def arrLen (key path : Bytes) : TxProg RespValue :=
  query key fun root =>
    match if isWholePath path then .ok root else getPath root path with
    | .ok (.arr items) => .ok (.integer items.length)
    | .ok _ => .error notAnArray
    | .error e => .error e

def numIncrBy (key path : Bytes) (delta : F64) : TxProg RespValue :=
  update key (numIncrByPath · path delta) fun v => .bulk (formatFloat v)

def numMultBy (key path : Bytes) (factor : F64) : TxProg RespValue :=
  update key (numMultByPath · path factor) fun v => .bulk (formatFloat v)

def membersAt (root : JValue) (path : Bytes) : Except String (List (Bytes × JValue)) := do
  match ← getPath root path with
  | .obj members => return members
  | _ => .error "err not an object"

def objKeys (key path : Bytes) : TxProg RespValue :=
  query key fun root => (membersAt root path).map fun m => .bulks (m.map (·.1))

def objLen (key path : Bytes) : TxProg RespValue :=
  query key fun root => (membersAt root path).map fun m => .integer m.length

def strAppend (key path suffix : Bytes) : TxProg RespValue :=
  update key (strAppendPath · path suffix) fun len => .integer len

def strLen (key path : Bytes) : TxProg RespValue :=
  query key fun root =>
    match getPath root path with
    | .ok (.str s) => .ok (.integer s.length)
    | .ok _ => .error wrongType
    | .error e => .error e

def respOp (key path : Bytes) : TxProg RespValue :=
  query key fun root =>
    (if path.isEmpty then .ok root else getPath root path).map toRespValue

/-- What `JSON.CLEAR` puts in the place of a value; `none` for an empty container. -/
def cleared : JValue → Option JValue
  | .arr [] => none
  | .obj [] => none
  | .arr _ => some (.arr [])
  | _ => some (.obj [])

def clear (key path : Bytes) : TxProg RespValue :=
  withDoc key (.integer 0) fun root => do
    if isRootPath path then
      writeDoc key (.obj [])
      return .integer 1
    else
      match getPath root path with
      | .error _ => return .integer 0
      | .ok v =>
        match cleared v with
        | none => return .integer 0
        | some empty =>
          writeDoc key (← ofResult (setPath root path empty))
          return .integer 1

/-- The array at a path, for the commands that rewrite one. -/
def arrayFor (root : JValue) (path : Bytes) : Except String (List JValue) :=
  match getPath root path with
  | .ok (.arr items) => .ok items
  | .ok _ => .error notAnArray
  | .error _ => .error noPath

def arrPop (key path : Bytes) (idx : Int) : TxProg RespValue :=
  withDoc key .nullBulk fun root => do
    let items ← ofResult (arrayFor root path)
    if items.isEmpty then return .nullBulk
    match position idx items.length with
    | none => fail (.redis outOfRange)
    | some n =>
      writeDoc key (← ofResult (setArrayResult root path (items.eraseIdx n)))
      return valueReply (items.getD n .null)

/-- The items from `start` to `stop`; `i64` sums stay in range. -/
def trimmed (items : List JValue) (start stop : Int) : List JValue :=
  let len : Int := items.length
  let s := max (if start < 0 then len + start else start) 0
  let e := if stop < 0 then len + stop else stop
  let e := if len ≤ e then len - 1 else e
  if e < s || len ≤ s then [] else (items.take (e.toNat + 1)).drop s.toNat

def arrTrim (key path : Bytes) (start stop : Int) : TxProg RespValue :=
  update key
    (fun root => do
      let items := trimmed (← arrayFor root path) start stop
      return (← setArrayResult root path items, items.length))
    fun len => .integer len

def arrInsert (key path : Bytes) (index : Int) (values : List JValue) : TxProg RespValue :=
  update key
    (fun root => do
      let items ← arrayFor root path
      if index < 0 || (items.length : Int) < index then .error outOfRange
      let items := items.take index.toNat ++ values ++ items.drop index.toNat
      return (← setArrayResult root path items, items.length))
    fun len => .integer len

/-- A key of another type counts as missing. -/
def getEach (path : Bytes) : List Bytes → TxProg (List RespValue)
  | [] => return []
  | key :: rest => do
    let reply : RespValue :=
      match ← loadDoc key with
      | .doc root => ((getPath root path).toOption.map valueReply).getD .nullBulk
      | _ => .nullBulk
    return reply :: (← getEach path rest)

def mget (keys : List Bytes) (path : Bytes) : TxProg RespValue := do
  return .array (some (← getEach path keys))

/-! ## The commands on one document -/

inductive Op where
  | set (path : Bytes) (value : JValue) (nx xx : Bool)
  | get (paths : List Bytes)
  | del (paths : List Bytes)
  | type (path : Bytes)
  | arrAppend (path : Bytes) (values : List JValue)
  | arrIndex (path : Bytes) (value : JValue)
  | arrLen (path : Bytes)
  | numIncrBy (path : Bytes) (delta : F64)
  | numMultBy (path : Bytes) (factor : F64)
  | objKeys (path : Bytes)
  | objLen (path : Bytes)
  | strAppend (path suffix : Bytes)
  | strLen (path : Bytes)
  | resp (path : Bytes)
  | clear (path : Bytes)
  | arrPop (path : Bytes) (idx : Int)
  | arrTrim (path : Bytes) (start stop : Int)
  | arrInsert (path : Bytes) (index : Int) (values : List JValue)

def Op.run (key : Bytes) : Op → TxProg RespValue
  | .set path value nx xx => Json.setOp key path value nx xx
  | .get paths => Json.getOp key paths
  | .del paths => Json.delOp key paths
  | .type path => Json.typeOp key path
  | .arrAppend path values => Json.arrAppend key path values
  | .arrIndex path value => Json.arrIndex key path value
  | .arrLen path => Json.arrLen key path
  | .numIncrBy path delta => Json.numIncrBy key path delta
  | .numMultBy path factor => Json.numMultBy key path factor
  | .objKeys path => Json.objKeys key path
  | .objLen path => Json.objLen key path
  | .strAppend path suffix => Json.strAppend key path suffix
  | .strLen path => Json.strLen key path
  | .resp path => Json.respOp key path
  | .clear path => Json.clear key path
  | .arrPop path idx => Json.arrPop key path idx
  | .arrTrim path start stop => Json.arrTrim key path start stop
  | .arrInsert path index values => Json.arrInsert key path index values

end Invar.Json
