import Invar.Common.Namespace
import Invar.Lib.StoreLogic
import Invar.Common.Op

/-!
# Sorted sets (`redis/zset.rs`)

A sorted set is a sentinel under the public key, holding the cardinality, and two
rows for each member: `<prefix>:score:<encoded score>:<member>` with an empty
value and `<prefix>:member:<member>` with the score's bits.

`ZADD` is here up to the point where it claims a waiter; the claim itself needs
the registry and is made where ops are run.
-/

namespace Invar.Zset

open StoreProg TxProg Ieee754

def signMask : UInt64 := 0x8000000000000000

/-- The 8-byte encoding whose byte order is the order of the scores. -/
def encodeScore (score : F64) : Bytes :=
  let bits := if score.signBit then ~~~score.bits else score.bits ^^^ signMask
  beBytes 8 bits.toNat

def decodeScore (bytes : Bytes) : F64 :=
  let bits := UInt64.ofNat (ofBeBytes bytes)
  ⟨if bits &&& signMask != 0 then bits ^^^ signMask else ~~~bits⟩

def scoreBytes (score : F64) : Bytes := beBytes 8 score.bits.toNat

/-- `f64::from_bits` of the first eight bytes. -/
def scoreOfBytes (value : Bytes) : F64 := ⟨UInt64.ofNat (ofBeBytes (value.take 8))⟩

/-! ## Storage layout -/

structure NodeRef where
  publicKey : Bytes
  nodePrefix : ElementPrefix
deriving DecidableEq, Repr

namespace NodeRef

/-- The handle with the name-derived prefix. -/
def new (publicKey : Bytes) : NodeRef where
  publicKey
  nodePrefix := .legacy (privateKey publicKey)

def resolved (node : NodeRef) : TxProg NodeRef := do
  if node.nodePrefix.explicit then return node
  return { node with nodePrefix := ← resolvePrefix node.publicKey node.nodePrefix.bytes }

def resolvedForWrite (node : NodeRef) : TxProg NodeRef := do
  if node.nodePrefix.explicit then return node
  return { node with nodePrefix := ← resolvePrefixForWrite node.publicKey node.nodePrefix.bytes }

def scorePrefix (node : NodeRef) : Bytes := node.nodePrefix.bytes ++ ascii ":score:"

def memberPrefix (node : NodeRef) : Bytes := node.nodePrefix.bytes ++ ascii ":member:"

def scoreKey (node : NodeRef) (score : F64) (member : Bytes) : Bytes :=
  node.scorePrefix ++ encodeScore score ++ 58 :: member

def memberKey (node : NodeRef) (member : Bytes) : Bytes := node.memberPrefix ++ member

end NodeRef

structure MemberScore where
  member : Bytes
  score : F64
deriving DecidableEq, Repr

/-- The cardinality that the sentinel records; `none` for a missing key and for a
value too short to hold a count (`read_sentinel`'s `KeyNotFound`). -/
def zsetCount (publicKey : Bytes) : TxProg (Option Nat) := do
  match ← get publicKey with
  | none => return none
  | some item =>
    if baseType item.metadata ≠ ValueType.sortedSet.byte then fail .wrongType
    else
      let val ← ofExcept (payload item)
      return if val.length < 4 then none else some (ofBeBytes (val.take 4))

def writeSentinel (publicKey : Bytes) (count : Nat) (p : ElementPrefix) : TxProg Unit :=
  Invar.writeSentinel publicKey (beBytes 4 count) ValueType.sortedSet.byte p

/-- The member and score that a key of the score index holds after its first
`skip` bytes. -/
def memberOfKey (skip : Nat) (key : Bytes) : MemberScore where
  member := key.drop (skip + 9)
  score := decodeScore ((key.drop skip).take 8)

def loadAllMembers (node : NodeRef) : TxProg (List MemberScore) := do
  let node ← node.resolved
  match ← zsetCount node.publicKey with
  | none => return []
  | some _ =>
    let rows ← scanUnder node.scorePrefix
    -- the slices of a key that is too short panic
    if rows.any fun kr => kr.1.length < node.scorePrefix.length + 9 then fail .panic
    return rows.map fun kr => memberOfKey node.scorePrefix.length kr.1

/-- Removes one member of a loaded sorted set. -/
def removeMember (node : NodeRef) (entries : Nat) (e : MemberScore) : TxProg Unit := do
  delete (node.memberKey e.member)
  delete (node.scoreKey e.score e.member)
  if entries - 1 = 0 then delete node.publicKey
  else writeSentinel node.publicKey (entries - 1) node.nodePrefix

/-- `pop_one_min` and `pop_one_max`: the two differ in the end they take. -/
def popOne (wantMin : Bool) (node : NodeRef) : TxProg (Option MemberScore) := do
  let node ← node.resolved
  let entries ← loadAllMembers node
  match if wantMin then entries.head? else entries.getLast? with
  | none => return none
  | some e =>
    removeMember node entries.length e
    return some e

def popOneMin : NodeRef → TxProg (Option MemberScore) := popOne true

def popOneMax : NodeRef → TxProg (Option MemberScore) := popOne false

/-- The first key that holds a member gives one up (`try_pop`). -/
def tryPop (wantMin : Bool) : List (NodeRef × Bytes) → TxProg (Option PopResult)
  | [] => return none
  | (node, rawKey) :: rest => do
    match ← if wantMin then popOneMin node else popOneMax node with
    | some p => return some { key := rawKey, member := p.member, score := p.score }
    | none => tryPop wantMin rest

/-! ## `ZADD` -/

structure ZAddOp where
  node : NodeRef
  rawKey : Bytes
  args : List Bytes
deriving DecidableEq, Repr

structure ZAddFlags where
  nx : Bool := false
  xx : Bool := false
  ch : Bool := false
  gt : Bool := false
  lt : Bool := false
deriving DecidableEq, Repr

/-- The leading flags and the arguments that follow them. -/
def parseFlags (f : ZAddFlags) : List Bytes → ZAddFlags × List Bytes
  | [] => (f, [])
  | arg :: rest =>
    let a := lower arg
    if a = ascii "nx" then parseFlags { f with nx := true } rest
    else if a = ascii "xx" then parseFlags { f with xx := true } rest
    else if a = ascii "ch" then parseFlags { f with ch := true } rest
    else if a = ascii "gt" then parseFlags { f with gt := true } rest
    else if a = ascii "lt" then parseFlags { f with lt := true } rest
    else (f, arg :: rest)

def zaddArity : DbError := .redis "wrong number of arguments for 'zadd' command"

def notAFloat : DbError := .redis "value is not a valid float"

/-- The checks on the flags, in the order of the source. -/
def ZAddFlags.check (f : ZAddFlags) : Except DbError Unit :=
  let incompatible : DbError :=
    .redis "XX and NX, XX and GT/LT, NX and GT/LT options are not compatible"
  if f.nx && f.xx then .error incompatible
  else if f.nx && (f.gt || f.lt) then .error incompatible
  else if f.xx && (f.gt || f.lt) then .error incompatible
  else if f.gt && f.lt then .error (.redis "GT and LT options are not compatible")
  else .ok ()

/-- The running totals of the loop over the pairs. -/
structure Tally where
  count : Nat
  added : Nat := 0
  changed : Nat := 0
deriving DecidableEq, Repr

def parseScore (arg : Bytes) : Option F64 := (F64.parse arg).filter fun s => !s.isNan

/-- Writes both rows of a member that counts as new. -/
def addMember (node : NodeRef) (score : F64) (member : Bytes) (t : Tally) : TxProg Tally := do
  set { key := node.scoreKey score member, value := [] }
  set { key := node.memberKey member, value := scoreBytes score }
  return { t with count := t.count + 1, added := t.added + 1 }

/-- Whether `GT` or `LT` keeps the old score. -/
def ZAddFlags.keepsOld (f : ZAddFlags) (old new : F64) : Bool :=
  (f.gt && new.partialCmp old != some .gt) || (f.lt && new.partialCmp old != some .lt)

/-- One `score member` pair. A member row under a key without a sentinel is an
orphan of a deleted set: its score row is dropped and the member added anew. -/
def addPair (node : NodeRef) (f : ZAddFlags) (isNewKey : Bool) (score member : Bytes)
    (t : Tally) : TxProg Tally := do
  match parseScore score with
  | none => fail notAFloat
  | some score =>
    match ← get (node.memberKey member) with
    | none => if f.xx then return t else addMember node score member t
    | some item =>
      if isNewKey then
        if 8 ≤ item.value.length then delete (node.scoreKey (scoreOfBytes item.value) member)
        if f.xx then return t else addMember node score member t
      else if f.nx then return t
      else if item.value.length < 8 then fail (.kv .keyNotFound)
      else
        let old := scoreOfBytes item.value
        if f.keepsOld old score then return t
        else if old.numEq score then return t
        else
          delete (node.scoreKey old member)
          set { key := node.scoreKey score member, value := [] }
          set { key := node.memberKey member, value := scoreBytes score }
          return { t with changed := t.changed + 1 }

def addPairs (node : NodeRef) (f : ZAddFlags) (isNewKey : Bool) :
    List Bytes → Tally → TxProg Tally
  | score :: member :: rest, t => do
    let t ← addPair node f isNewKey score member t
    addPairs node f isNewKey rest t
  | _, t => return t

/-- What `ZADD` hands on once it has written: the handle it wrote through, whether
it added a member, and the number it replies. -/
structure ZAddWritten where
  node : NodeRef
  added : Bool
  reply : Nat
deriving DecidableEq, Repr

/-- `ZAddOp::run` before the claim. -/
def ZAddOp.write (op : ZAddOp) : TxProg ZAddWritten := do
  let node ← op.node.resolvedForWrite
  if op.args.isEmpty then fail zaddArity
  else
    let (f, remaining) := parseFlags {} op.args
    ofExcept f.check
    if remaining.isEmpty || remaining.length % 2 ≠ 0 then fail zaddArity
    else
      match ← zsetCount node.publicKey with
      | none =>
        if f.xx then return { node, added := false, reply := 0 }
        else finish node f (← addPairs node f true remaining { count := 0 })
      | some count => finish node f (← addPairs node f false remaining { count })
where
  finish (node : NodeRef) (f : ZAddFlags) (t : Tally) : TxProg ZAddWritten := do
    if 0 < t.added || 0 < t.changed then writeSentinel node.publicKey t.count node.nodePrefix
    return { node, added := 0 < t.added, reply := if f.ch then t.changed + t.added else t.added }

/-! ## What `ZADD` writes through -/

theorem NodeRef.wp_resolvedForWrite (node : NodeRef) (t : Txn Bytes Row) :
    wp (fun _ => True) node.resolvedForWrite (fun n _ => n.publicKey = node.publicKey)
      (fun _ _ => True) t := by
  unfold resolvedForWrite
  split
  · rfl
  · rw [wp_seq]
    exact wp_any (fun _ _ => rfl) fun _ _ => trivial

theorem ZAddOp.wp_finish (node : NodeRef) (f : ZAddFlags) (tally : Tally) (t : Txn Bytes Row) :
    wp (fun _ => True) (ZAddOp.write.finish node f tally)
      (fun w _ => w.node = node) (fun _ _ => True) t := by
  unfold ZAddOp.write.finish
  dsimp only
  split
  · rw [wp_seq]
    exact wp_any (fun _ _ => rfl) fun _ _ => trivial
  · rfl

/-- `ZADD` keeps to the key that it was given. -/
theorem ZAddOp.write_publicKey {op : ZAddOp} {env : Nat → Tick} {t : Txn Bytes Row}
    {w : ZAddWritten} (h : (exec op.write env t).out = .ok w) :
    w.node.publicKey = op.node.publicKey := by
  refine (exec_of_wp (A := fun _ => True) (E := fun _ _ => True)
    (Q := fun w _ => w.node.publicKey = op.node.publicKey) ?_ fun _ => trivial).1 w h
  unfold write
  rw [wp_seq]
  refine wp_post (op.node.wp_resolvedForWrite t) fun node t hnode => ?_
  have written (f : ZAddFlags) (p : TxProg Tally) (t : Txn Bytes Row) :
      wp (fun _ => True) (p.bind (write.finish node f))
        (fun w _ => w.node.publicKey = op.node.publicKey) (fun _ _ => True) t := by
    rw [wp_bind]
    refine wp_any (fun tally t => ?_) fun _ _ => trivial
    exact wp_post (wp_finish node f tally t) fun w _ hw => hw ▸ hnode
  split
  · trivial
  · rw [wp_seq]
    refine wp_any (fun _ t => ?_) fun _ _ => trivial
    split
    · trivial
    · rw [wp_seq]
      refine wp_any (fun count t => ?_) fun _ _ => trivial
      cases count with
      | none =>
        dsimp only
        split
        · exact hnode
        · exact written _ _ t
      | some count => exact written _ _ t

end Invar.Zset
