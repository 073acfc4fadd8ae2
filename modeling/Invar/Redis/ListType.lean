import Invar.Common.Namespace
import Invar.Common.Op

/-!
# Lists (`redis/list.rs`)

A list is a sentinel under the public key, holding the size and the keys of the
first and the last node, and one row `<prefix>:<node key>` for each node: its
value, and the keys of its neighbours. Commands load the whole chain, change it in
memory and write it back.

A chain that closes on itself would make some loops of the source run for ever;
here they end in `panic`.
-/

namespace Invar.ListType

open StoreProg TxProg

def keyLength : Nat := 16

def sentinelLength : Nat := 36

def typeList : UInt8 := ValueType.list.byte

def isZeroKey (key : Bytes) : Bool := key.all (· = 0)

def zeroKey : Bytes := List.replicate keyLength 0

def toOptKey (bytes : Bytes) : Option Bytes := if isZeroKey bytes then none else some bytes

/-- `random_key`: 16 random bytes, not all zero. -/
def randomKey : TxProg Bytes := do
  let key := beBytes keyLength (← tick).rand
  return if isZeroKey key then 1 :: key.drop 1 else key

structure ListNode where
  value : Bytes
  prev : Option Bytes
  next : Option Bytes

/-- The chain in memory; `removed` are the nodes taken out since it was loaded. -/
structure Linked where
  size : UInt32 := 0
  head : Option Bytes := none
  tail : Option Bytes := none
  nodes : Std.ExtTreeMap Bytes ListNode := ∅
  removed : List Bytes := []

namespace Linked

/-- `nodes.get_mut`. -/
def update (ll : Linked) (key : Option Bytes) (f : ListNode → ListNode) : Linked :=
  match key with
  | none => ll
  | some k =>
    match ll.nodes[k]? with
    | none => ll
    | some n => { ll with nodes := ll.nodes.insert k (f n) }

def next (ll : Linked) (k : Bytes) : Option Bytes := (ll.nodes[k]?).bind (·.next)

/-- The keys from `cur` on, unless there are more than `fuel`. -/
def chainFrom (ll : Linked) : (fuel : Nat) → (cur : Option Bytes) → Option (List Bytes)
  | _, none => some []
  | 0, some _ => none
  | fuel + 1, some k => (ll.chainFrom fuel (ll.next k)).map (k :: ·)

/-- `ordered_keys`: the keys from head to tail. -/
def orderedKeys (ll : Linked) : TxProg (List Bytes) :=
  match ll.chainFrom (ll.nodes.size + 1) ll.head with
  | some keys => return keys
  | none => fail .panic

def addFirst (ll : Linked) (value : Bytes) : TxProg Linked := do
  let key ← randomKey
  let next := ll.head
  let ll := ll.update next fun n => { n with prev := some key }
  return { ll with
    tail := if next.isNone then some key else ll.tail
    nodes := ll.nodes.insert key { value, prev := none, next }
    head := some key
    size := ll.size + 1 }

def addLast (ll : Linked) (value : Bytes) : TxProg Linked := do
  let key ← randomKey
  let prev := ll.tail
  let ll := ll.update prev fun n => { n with next := some key }
  return { ll with
    head := if prev.isNone then some key else ll.head
    nodes := ll.nodes.insert key { value, prev, next := none }
    tail := some key
    size := ll.size + 1 }

/-- `saturating_sub(1)`. -/
def pred (n : UInt32) : UInt32 := if n = 0 then 0 else n - 1

/-- Takes a node out of the map. -/
def drop (ll : Linked) (k : Bytes) : Linked :=
  { ll with nodes := ll.nodes.erase k, removed := ll.removed ++ [k] }

def removeFirst (ll : Linked) : Option (Bytes × Linked) := do
  let head ← ll.head
  let node ← ll.nodes[head]?
  let ll := (ll.drop head).update node.next fun n => { n with prev := none }
  return (node.value, { ll with
    head := node.next
    tail := if node.next.isNone then none else ll.tail
    size := pred ll.size })

def removeLast (ll : Linked) : Option (Bytes × Linked) := do
  let tail ← ll.tail
  let node ← ll.nodes[tail]?
  let ll := (ll.drop tail).update node.prev fun n => { n with next := none }
  return (node.value, { ll with
    tail := node.prev
    head := if node.prev.isNone then none else ll.head
    size := pred ll.size })

/-- Takes a node out of the chain between `prev` and `next`. -/
def unlink (ll : Linked) (k : Bytes) (prev next : Option Bytes) : Linked :=
  let ll := ll.update prev fun n => { n with next }
  let ll := ll.update next fun n => { n with prev }
  let ll := ll.drop k
  { ll with size := pred ll.size }

/-- The loop of `remove_matching`, over the chain as it was at the start. It does not
change a link before it has read it. -/
def removeMatchingFrom (count : Int) (value : Bytes) :
    List Bytes → (newHead prev : Option Bytes) → (removed : Int) → Linked → Int × Linked
  | [], newHead, prev, removed, ll => (removed, { ll with head := newHead, tail := prev })
  | k :: rest, newHead, prev, removed, ll =>
    if (ll.nodes[k]?).any (·.value = value) && (count = 0 || removed < count) then
      removeMatchingFrom count value rest newHead prev (removed + 1)
        (ll.unlink k prev (ll.next k))
    else removeMatchingFrom count value rest (newHead.or (some k)) (some k) removed ll

def removeMatching (ll : Linked) (count : Int) (value : Bytes) : TxProg (Int × Linked) := do
  return removeMatchingFrom count value (← ll.orderedKeys) none none 0 ll

/-- The loop of `remove_matching_from_tail`, over the keys from the tail. -/
def removeLastMatching (value : Bytes) :
    (target : Nat) → List Bytes → (removed : Nat) → Linked → Nat × Linked
  | _, [], removed, ll => (removed, ll)
  | target, k :: rest, removed, ll =>
    if target ≤ removed then (removed, ll)
    else
      match ll.nodes[k]? with
      | none => removeLastMatching value target rest removed ll
      | some n =>
        if n.value ≠ value then removeLastMatching value target rest removed ll
        else removeLastMatching value target rest (removed + 1) (ll.unlink k n.prev n.next)

def removeMatchingFromTail (ll : Linked) (count : Int) (value : Bytes) :
    TxProg (Int × Linked) := do
  let keys ← ll.orderedKeys
  let (removed, ll) := removeLastMatching value count.natAbs keys.reverse 0 ll
  return (removed, { ll with
    head := keys.find? (ll.nodes.contains ·)
    tail := keys.reverse.find? (ll.nodes.contains ·) })

/-- The loop of `trim_to` over the chain, from index `i` on. -/
def trimFrom (start stop : Nat) :
    List Bytes → (i : Nat) → (newHead prev : Option Bytes) → Linked → Linked
  | [], _, newHead, prev, ll => { ll with head := newHead, tail := prev }
  | k :: rest, i, newHead, prev, ll =>
    if i < start || stop < i then trimFrom start stop rest (i + 1) newHead prev (ll.drop k)
    else
      let ll := ll.update (some k) fun n => { n with prev, next := none }
      let ll := ll.update prev fun n => { n with next := some k }
      trimFrom start stop rest (i + 1) (newHead.or (some k)) (some k) ll

def trimTo (ll : Linked) (start stop : Nat) : TxProg Linked := do
  let ll := trimFrom start stop (← ll.orderedKeys) 0 none none ll
  return { ll with size := UInt32.ofNat (stop - start + 1) }

/-- `insert`; `none` if the pivot is not there. -/
def insert (ll : Linked) (before : Bool) (pivot value : Bytes) : TxProg (Option Linked) := do
  let keys ← ll.orderedKeys
  match keys.find? fun k => (ll.nodes[k]?).any (·.value = pivot) with
  | none => return none
  | some pivotKey =>
    let prev := (ll.nodes[pivotKey]?).bind (·.prev)
    let next := ll.next pivotKey
    let key ← randomKey
    if before then
      let node := { value, prev, next := some pivotKey }
      let ll := { ll with nodes := ll.nodes.insert key node }
      let ll := ll.update prev fun n => { n with next := some key }
      let ll := { ll with head := if prev.isNone then some key else ll.head }
      let ll := ll.update (some pivotKey) fun n => { n with prev := some key }
      return some { ll with size := ll.size + 1 }
    else
      let node := { value, prev := some pivotKey, next }
      let ll := { ll with nodes := ll.nodes.insert key node }
      let ll := ll.update next fun n => { n with prev := some key }
      let ll := { ll with tail := if next.isNone then some key else ll.tail }
      let ll := ll.update (some pivotKey) fun n => { n with next := some key }
      return some { ll with size := ll.size + 1 }

/-- The key `n` links after the head. -/
def keyAt (ll : Linked) : Nat → Option Bytes
  | 0 => ll.head
  | n + 1 => (ll.keyAt n).bind ll.next

end Linked

/-! ## Storage layout -/

def nodeKey (nodePrefix key : Bytes) : Bytes := nodePrefix ++ 58 :: key

structure Sentinel where
  size : UInt32
  head : Bytes
  tail : Bytes

/-- `none` is `KeyNotFound`. -/
def readSentinel (publicKey : Bytes) : TxProg (Option Sentinel) := do
  let some item ← get publicKey | return none
  if baseType item.metadata ≠ typeList then fail .wrongType
  let val ← ofExcept (payload item)
  if val.length < sentinelLength then return none
  return some {
    size := UInt32.ofNat (ofBeBytes (val.take 4))
    head := (val.drop 4).take keyLength
    tail := (val.drop 20).take keyLength }

def writeSentinel (publicKey : Bytes) (head tail : Option Bytes) (size : UInt32)
    (p : ElementPrefix) : TxProg Unit :=
  Invar.writeSentinel publicKey
    (beBytes 4 size.toNat ++ head.getD zeroKey ++ tail.getD zeroKey) typeList p

/-- A node as it is stored: value, previous key, next key. -/
def decodeNode (val : Bytes) : Option ListNode :=
  if val.length < 2 * keyLength then none
  else
    let split := val.length - 2 * keyLength
    some {
      value := val.take split
      prev := toOptKey ((val.drop split).take keyLength)
      next := toOptKey (val.drop (split + keyLength)) }

def encodeNode (n : ListNode) : Bytes := n.value ++ n.prev.getD zeroKey ++ n.next.getD zeroKey

/-- The walk of `load_list` along the next links, until a link is zero or leads back.
Node keys have 16 bytes, which bounds the fuel. -/
def loadNodes (nodePrefix : Bytes) : (fuel : Nat) → (current : Bytes) →
    Std.ExtTreeMap Bytes ListNode → TxProg (Option (Std.ExtTreeMap Bytes ListNode))
  | 0, _, nodes => return some nodes
  | fuel + 1, current, nodes =>
    if isZeroKey current || nodes.contains current then return some nodes
    else do
      let some item ← get (nodeKey nodePrefix current) | return none
      match decodeNode item.value with
      | none => return none
      | some node =>
        let nodes := nodes.insert current node
        match node.next with
        | none => return some nodes
        | some next => loadNodes nodePrefix fuel next nodes

/-- The links that lead to nodes of the chain. -/
def resolveLinks (nodes : Std.ExtTreeMap Bytes ListNode) : Std.ExtTreeMap Bytes ListNode :=
  nodes.map fun _ n =>
    { n with prev := n.prev.filter (nodes.contains ·), next := n.next.filter (nodes.contains ·) }

/-- `load_list`; `none` is `KeyNotFound`, of the key or of a node. -/
def loadList (publicKey nodePrefix : Bytes) : TxProg (Option Linked) := do
  let some s ← readSentinel publicKey | return none
  let some nodes ← loadNodes nodePrefix (256 ^ keyLength + 1) s.head ∅ | return none
  return some {
    size := s.size
    head := if nodes.contains s.head then some s.head else none
    tail := if nodes.contains s.tail then some s.tail else none
    nodes := resolveLinks nodes }

def deleteRemovedNodes (nodePrefix : Bytes) (ll : Linked) : TxProg Unit :=
  deleteAll (ll.removed.map (nodeKey nodePrefix))

def deleteAllNodes (nodePrefix : Bytes) (ll : Linked) : TxProg Unit := do
  deleteRemovedNodes nodePrefix ll
  deleteAll (ll.nodes.keys.map (nodeKey nodePrefix))

def nodeEntry (nodePrefix : Bytes) (kn : Bytes × ListNode) : Entry where
  key := nodeKey nodePrefix kn.1
  value := encodeNode kn.2
  metadata := typeList

def persistList (publicKey : Bytes) (p : ElementPrefix) (ll : Linked) : TxProg Unit := do
  writeSentinel publicKey ll.head ll.tail ll.size p
  deleteRemovedNodes p.bytes ll
  setAll (ll.nodes.toList.map (nodeEntry p.bytes))

/-- The walk of `move_nodes` and `delete_nodes`, with what is written under `to_`. -/
def walkNodes (nodePrefix : Bytes) (to_ : Option Bytes) : (steps : Nat) → Bytes → TxProg Unit
  | 0, _ => return ()
  | steps + 1, current =>
    if current = zeroKey then return ()
    else do
      let key := nodeKey nodePrefix current
      let some item ← get key | fail (.kv .keyNotFound)
      if item.value.length < 2 * keyLength then fail (.kv .keyNotFound)
      match to_ with
      | some to_ =>
        set { key := nodeKey to_ current, value := item.value, metadata := item.metadata }
      | none => pure ()
      delete key
      walkNodes nodePrefix to_ steps (item.value.drop (item.value.length - keyLength))

def moveNodes (publicKey fromPrefix toPrefix : Bytes) : TxProg Unit := do
  match ← readSentinel publicKey with
  | none => fail (.kv .keyNotFound)
  | some s => walkNodes fromPrefix (some toPrefix) s.size.toNat s.head

def deleteNodes (publicKey nodePrefix : Bytes) : TxProg Unit := do
  match ← readSentinel publicKey with
  | none => fail (.kv .keyNotFound)
  | some s => walkNodes nodePrefix none s.size.toNat s.head

/-! ## Commands -/

def addAll (atTail : Bool) : List Bytes → Linked → TxProg Linked
  | [], ll => return ll
  | v :: vs, ll => do addAll atTail vs (← if atTail then ll.addLast v else ll.addFirst v)

def pushOp (publicKey : Bytes) (values : List Bytes) (atTail onlyIfExists : Bool) :
    TxProg RespValue := do
  let p ← resolvePrefixForWrite publicKey (privateKey publicKey)
  let loaded ← loadList publicKey p.bytes
  if loaded.isNone && onlyIfExists then return .integer 0
  let ll ← addAll atTail values (loaded.getD {})
  persistList publicKey p ll
  return .integer ll.size.toNat

/-- What is written back after elements were removed. -/
def saveShrunk (publicKey : Bytes) (p : ElementPrefix) (ll : Linked) : TxProg Unit := do
  if ll.size = 0 then
    deleteRemovedNodes p.bytes ll
    delete publicKey
  else persistList publicKey p ll

def popOp (publicKey : Bytes) (fromTail : Bool) : TxProg RespValue := do
  let p ← resolvePrefix publicKey (privateKey publicKey)
  let some ll ← loadList publicKey p.bytes | return .nullBulk
  match if fromTail then ll.removeLast else ll.removeFirst with
  | none =>
    saveShrunk publicKey p ll
    return .nullBulk
  | some (value, ll) =>
    saveShrunk publicKey p ll
    return .bulk value

def llen (publicKey : Bytes) : TxProg RespValue := do
  let size := (← readSentinel publicKey).map (·.size.toNat)
  return .integer (size.getD 0)

/-- The normalised bounds of `LRANGE` and `LTRIM`; `none` if they select nothing. -/
def indexRange (size start stop : Int) : Option (Nat × Nat) :=
  let start := if start < 0 then start + size else start
  let stop := if stop < 0 then stop + size else stop
  let start := max start 0
  let stop := if size ≤ stop then size - 1 else stop
  if stop < start || size ≤ start then none else some (start.toNat, stop.toNat)

def lrange (publicKey : Bytes) (start stop : Int) : TxProg RespValue := do
  let p ← resolvePrefix publicKey (privateKey publicKey)
  let some ll ← loadList publicKey p.bytes | return .bulks []
  match indexRange ll.size.toNat start stop with
  | none => return .bulks []
  | some (start, stop) =>
    let keys ← ll.orderedKeys
    let picked := (keys.take (stop + 1)).drop start
    return .bulks (picked.filterMap fun k => (ll.nodes[k]?).map (·.value))

/-- An index counted from the end if negative; `none` if it is out of range. -/
def indexOf (size index : Int) : Option Nat :=
  let index := if index < 0 then index + size else index
  if index < 0 || size ≤ index then none else some index.toNat

def lindex (publicKey : Bytes) (index : Int) : TxProg RespValue := do
  let p ← resolvePrefix publicKey (privateKey publicKey)
  let some ll ← loadList publicKey p.bytes | return .nullBulk
  let value := (indexOf ll.size.toNat index).bind fun i =>
    (ll.keyAt i).bind fun k => (ll.nodes[k]?).map (·.value)
  return .bulkString value

def lset (publicKey : Bytes) (index : Int) (value : Bytes) : TxProg RespValue := do
  let p ← resolvePrefix publicKey (privateKey publicKey)
  let some ll ← loadList publicKey p.bytes | fail (.kv .keyNotFound)
  match (indexOf ll.size.toNat index).bind ll.keyAt with
  | none => fail (.kv .keyNotFound)
  | some k =>
    if !ll.nodes.contains k then fail .panic
    persistList publicKey p (ll.update (some k) fun n => { n with value })
    return .ok

def lrem (publicKey : Bytes) (count : Int) (value : Bytes) : TxProg RespValue := do
  let p ← resolvePrefix publicKey (privateKey publicKey)
  let some ll ← loadList publicKey p.bytes | return .integer 0
  let (removed, ll) ← if count < 0 then ll.removeMatchingFromTail count value
    else ll.removeMatching count value
  saveShrunk publicKey p ll
  return .integer removed

def ltrim (publicKey : Bytes) (start stop : Int) : TxProg RespValue := do
  let p ← resolvePrefix publicKey (privateKey publicKey)
  let some ll ← loadList publicKey p.bytes | return .ok
  match indexRange ll.size.toNat start stop with
  | none =>
    deleteAllNodes p.bytes ll
    delete publicKey
    return .ok
  | some (start, stop) =>
    persistList publicKey p (← ll.trimTo start stop)
    return .ok

def linsert (publicKey : Bytes) (before : Bool) (pivot value : Bytes) : TxProg RespValue := do
  let p ← resolvePrefix publicKey (privateKey publicKey)
  let some ll ← loadList publicKey p.bytes | return .integer (-1)
  let some ll ← ll.insert before pivot value | return .integer (-1)
  persistList publicKey p ll
  return .integer ll.size.toNat

/-- The first position of `element` among the nodes of `keys`. -/
def position (ll : Linked) (element : Bytes) (keys : List Bytes) : Option Nat :=
  keys.findIdx? fun k => (ll.nodes[k]?).any (·.value = element)

def lpos (publicKey element : Bytes) : TxProg RespValue := do
  let p ← resolvePrefix publicKey (privateKey publicKey)
  if (← get publicKey).any fun item => baseType item.metadata ≠ typeList then fail .wrongType
  let some ll ← loadList publicKey p.bytes | return .nullBulk
  match position ll element (← ll.orderedKeys) with
  | some i => return .integer i
  | none => return .nullBulk

/-- The source is written before the type of the destination is looked at. -/
def rpoplpush (src dst : Bytes) : TxProg RespValue := do
  let srcPrefix ← resolvePrefix src (privateKey src)
  let some srcList ← loadList src srcPrefix.bytes | return .nullBulk
  match srcList.removeLast with
  | none => return .nullBulk
  | some (value, srcList) =>
    saveShrunk src srcPrefix srcList
    let dstPrefix ← resolvePrefixForWrite dst (privateKey dst)
    let dstList := (← loadList dst dstPrefix.bytes).getD {}
    persistList dst dstPrefix (← dstList.addFirst value)
    return .bulk value

/-! ## All list commands of one key -/

inductive Op where
  | push (values : List Bytes) (atTail onlyIfExists : Bool)
  | pop (fromTail : Bool)
  | llen
  | lrange (start stop : Int)
  | lindex (index : Int)
  | lset (index : Int) (value : Bytes)
  | lrem (count : Int) (value : Bytes)
  | ltrim (start stop : Int)
  | linsert (before : Bool) (pivot value : Bytes)
  | lpos (element : Bytes)

def Op.run (publicKey : Bytes) : Op → TxProg RespValue
  | .push values atTail onlyIfExists => ListType.pushOp publicKey values atTail onlyIfExists
  | .pop fromTail => ListType.popOp publicKey fromTail
  | .llen => ListType.llen publicKey
  | .lrange start stop => ListType.lrange publicKey start stop
  | .lindex index => ListType.lindex publicKey index
  | .lset index value => ListType.lset publicKey index value
  | .lrem count value => ListType.lrem publicKey count value
  | .ltrim start stop => ListType.ltrim publicKey start stop
  | .linsert before pivot value => ListType.linsert publicKey before pivot value
  | .lpos element => ListType.lpos publicKey element

/-- `LSetWire` has its own text for a missing key. -/
def Op.onError : Op → DbError → RespValue
  | .lset .., .kv .keyNotFound => .error (ascii "ERR no such key")
  | _, e => errResp e

end Invar.ListType
