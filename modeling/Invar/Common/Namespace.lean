import Invar.Kv.Program

/-!
# Physical namespaces of compound values (`redis/common/namespace.rs`)

A compound value is a sentinel under its public key and elements under
`<prefix><suffix>`. The sentinel may record the prefix (a namespace, flagged in
the type byte and stored in a trailer of the value); else the prefix is derived
from the key's name.
-/

namespace Invar

open StoreProg TxProg

/-- `ValueType` (`redis/common/mod.rs`). -/
inductive ValueType where
  | string | list | set | sortedSet | hash | stream | vectorSet | bloom | json
deriving DecidableEq, Repr

def ValueType.byte : ValueType → UInt8
  | .string => 0
  | .list => 1
  | .set => 2
  | .sortedSet => 3
  | .hash => 4
  | .stream => 5
  | .vectorSet => 6
  | .bloom => 7
  | .json => 8

def namespaceFlag : UInt8 := 0x80

def trailerLenSize : Nat := 4

def baseType (metadata : UInt8) : UInt8 := metadata &&& ~~~namespaceFlag

def isNamespaced (metadata : UInt8) : Bool := metadata &&& namespaceFlag != 0

/-- The prefix of a value's elements, and whether the sentinel records it. -/
structure ElementPrefix where
  bytes : Bytes
  explicit : Bool
deriving DecidableEq, Repr

namespace ElementPrefix

def legacy (bytes : Bytes) : ElementPrefix := { bytes, explicit := false }

def recorded (bytes : Bytes) : ElementPrefix := { bytes, explicit := true }

end ElementPrefix

def corrupt : DbError := .redis "internal error: corrupt namespace trailer"

/-- Splits the value of a namespaced sentinel into payload and prefix. -/
def splitTrailer (value : Bytes) : Except DbError (Bytes × Bytes) :=
  if value.length < trailerLenSize then .error corrupt
  else
    let lenAt := value.length - trailerLenSize
    let len := ofBeBytes (value.drop lenAt)
    if lenAt < len then .error corrupt
    else .ok (value.take (lenAt - len), (value.take lenAt).drop (lenAt - len))

def payload (item : Row) : Except DbError Bytes :=
  if isNamespaced item.metadata then (splitTrailer item.value).map Prod.fst
  else .ok item.value

def prefixOf (item : Row) (legacy : Bytes) : Except DbError ElementPrefix :=
  if isNamespaced item.metadata then
    (splitTrailer item.value).map fun parts => .recorded parts.2
  else .ok (.legacy legacy)

/-- The same prefix in another db: prefixes have the form `<kind><db>:<rest>`. -/
def withDb (nodePrefix : Bytes) (db : Int) : Except DbError (Option Bytes) :=
  match nodePrefix with
  | [] => .ok none
  | kind :: _ =>
    if 58 ∈ nodePrefix then
      let colon := nodePrefix.idxOf 58
      -- the slice `prefix[1..colon]`
      if colon < 1 then .error .panic
      else
        let digits := (nodePrefix.take colon).drop 1
        if digits.isEmpty || !digits.all isAsciiDigit then .ok none
        else .ok (some (kind :: intText db ++ nodePrefix.drop colon))
    else .ok none

def namespaceIdLen : Nat := 16

def corruptPrefix : DbError := .redis "internal error: malformed element prefix"

/-- A fresh namespace: `+<db>:` and 16 random bytes, the db taken from the
name-derived prefix `-<db>:<name>`. -/
def newNamespace (legacy : Bytes) : TxProg ElementPrefix :=
  if 58 ∈ legacy then
    let colon := legacy.idxOf 58
    let db := (legacy.take colon).drop 1
    if db.isEmpty || !db.all isAsciiDigit then fail corruptPrefix
    else do
      let t ← tick
      return .recorded (43 :: db ++ 58 :: beBytes namespaceIdLen t.rand)
  else fail corruptPrefix

def ofExcept {α : Type} : Except DbError α → TxProg α
  | .ok a => .pure a
  | .error e => .fail e

def resolvePrefixForWrite (publicKey legacy : Bytes) : TxProg ElementPrefix := do
  match ← get publicKey with
  | some item => ofExcept (prefixOf item legacy)
  | none => newNamespace legacy

def resolvePrefix (publicKey legacy : Bytes) : TxProg ElementPrefix := do
  match ← get publicKey with
  | some item => ofExcept (prefixOf item legacy)
  | none => return .legacy legacy

/-- The value and the type byte of a sentinel. -/
def encodeSentinel (content : Bytes) (typeByte : UInt8) (p : ElementPrefix) : Bytes × UInt8 :=
  if p.explicit then
    (content ++ p.bytes ++ beBytes trailerLenSize p.bytes.length, typeByte ||| namespaceFlag)
  else (content, typeByte)

def lostNamespace : DbError :=
  .redis "internal error: namespaced sentinel rewritten without its namespace"

/-- Writes a sentinel, keeping the key's TTL. A sentinel that records a namespace
is not rewritten without one. -/
def writeSentinel (publicKey content : Bytes) (typeByte : UInt8) (p : ElementPrefix) :
    TxProg Unit := do
  let existing ← get publicKey
  let (value, metadata) := encodeSentinel content typeByte p
  let entry : Entry := { key := publicKey, value, metadata }
  match existing with
  | some item =>
    if isNamespaced item.metadata && !p.explicit then fail lostNamespace
    else set (entry.keepTtlOf item (← now))
  | none => set entry

/-- `set_count` and the `read_sentinel` of hashes: the number of elements; `none` is
`KeyNotFound`. -/
def sentinelCount (typeByte : UInt8) (publicKey : Bytes) : TxProg (Option UInt32) := do
  let some item ← get publicKey | return none
  if baseType item.metadata ≠ typeByte then fail .wrongType
  let val ← ofExcept (payload item)
  if val.length < 4 then return none
  return some (UInt32.ofNat (ofBeBytes (val.take 4)))

/-- The storage key of a user key in a db (`Session::public_key_for_db`). -/
def publicKey (db : Int) (key : Bytes) : Bytes := intText db ++ 58 :: key

/-- The text that `QueuedOp::keys` and the version map hold for a key (`key_sv`). -/
def keySv (db : Int) (key : Bytes) : Bytes := fromUtf8Lossy (publicKey db key)

/-- The name-derived prefix of a public key `<db>:<name>` is `-<db>:<name>`
(`Session::private_key`). -/
def privateKey (publicKey : Bytes) : Bytes := 45 :: publicKey

/-! ## Which rows belong to a key -/

/-- The prefixes of the element rows of a value (`element_prefixes`,
`redis/keys.rs`); lists are not covered there. -/
def elementPrefixes (base : UInt8) (nodePrefix : Bytes) : List Bytes :=
  if base = ValueType.set.byte || base = ValueType.hash.byte ||
      base = ValueType.stream.byte || base = ValueType.bloom.byte then
    [nodePrefix ++ [0]]
  else if base = ValueType.sortedSet.byte then
    [nodePrefix ++ ascii ":score:", nodePrefix ++ ascii ":member:"]
  else []

/-- The same with the nodes of a list (`node_key`, `redis/list.rs`). -/
def rowPrefixes (base : UInt8) (nodePrefix : Bytes) : List Bytes :=
  if base = ValueType.list.byte then [nodePrefix ++ [58]] else elementPrefixes base nodePrefix

/-- Row `x` is part of the value that `s` holds under the public key `k`. -/
def ownsRow (s : Store) (k x : Bytes) : Bool :=
  x = k ||
    match s[k]? with
    | none => false
    | some item =>
      match prefixOf item (privateKey k) with
      | .ok p => (rowPrefixes (baseType item.metadata) p.bytes).any (·.isPrefixOf x)
      | .error _ => false

end Invar
