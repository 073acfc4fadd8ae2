import Invar.Basic
import Invar.Lib.StoreProg

/-!
# The key-value layer (`kv/kv.rs`, `kv/fjall.rs`, `kv/slate.rs`)

What the `Tx` of a command can do, as programs over a transactional store. Rows
are what the backends store under a key: value, metadata byte and absolute
expiry. A row past its expiry is absent for `get`; the iterator of Fjall skips
it too, the one of SlateDB does not, so each tick of the environment says which
backend it is.

A call inside an open transaction is taken to succeed: only `begin` and `commit`
can fail, in the model of the dispatcher. Durations are whole milliseconds.
-/

namespace Invar

open StoreProg

/-- `kv::Error`. -/
inductive KvError where
  | keyNotFound
  | conflict
  | dbClosed
  | undefined
deriving DecidableEq, Repr

/-- `DbError` (`redis/common/op.rs`). -/
inductive DbError where
  | kv (e : KvError)
  | wrongType
  | keyExists
  | redis (msg : String)
  /-- Not a value of the source: the op panics, and its transaction is dropped. -/
  | panic
deriving DecidableEq, Repr

structure Row where
  value : Bytes
  metadata : UInt8 := 0
  expireTs : Option Int := none
deriving DecidableEq, Repr

/-- What the environment supplies to one call: the clock (Unix milliseconds),
random bits, and whether iterators list rows past their expiry. -/
structure Tick where
  now : Int
  rand : Nat := 0
  listsExpired : Bool := false
deriving Repr

namespace Row

def expired (r : Row) (now : Int) : Bool := r.expireTs.any fun ts => decide (ts ≤ now)

/-- `Item::ttl`: the remaining time, zero when it has elapsed. -/
def ttl (r : Row) (now : Int) : Option Nat := r.expireTs.map fun ts => (ts - now).toNat

end Row

/-- The value of a cast to `i64`. -/
def asI64 (n : Nat) : Int := Int.bmod n (2 ^ 64)

def saturatingAdd (a b : Int) : Int := max (-2 ^ 63) (min (a + b) (2 ^ 63 - 1))

structure Entry where
  key : Bytes
  value : Bytes
  metadata : UInt8 := 0
  ttl : Nat := 0
deriving DecidableEq, Repr

namespace Entry

/-- The row that writing the entry at `now` stores. -/
def row (e : Entry) (now : Int) : Row where
  value := e.value
  metadata := e.metadata
  expireTs :=
    if e.ttl = 0 then none
    else
      let ts := saturatingAdd now (asI64 e.ttl)
      -- stored as 0, which reads back as no expiry
      if ts = 0 then none else some ts

/-- `Entry::keep_ttl_of`. -/
def keepTtlOf (e : Entry) (item : Row) (now : Int) : Entry :=
  match item.ttl now with
  | some remaining => { e with ttl := remaining }
  | none => e

end Entry

abbrev Store := StoreProg.Store Bytes Row

abbrev TxProg := Prog Bytes Row Tick DbError

/-- A condition on the result of a program and the transaction that it leaves. -/
abbrev Post (α : Type) := α → Txn Bytes Row → Prop

/-- The start or the end of a key range (`std::ops::Bound`). -/
inductive Bound where
  | unbounded
  | included (k : Bytes)
  | excluded (k : Bytes)

/-- The keys of `new_range_iterator`. -/
def inRange (start stop : Bound) (k : Bytes) : Bool :=
  (match start with
    | .unbounded => true
    | .included lo => (compare lo k).isLE
    | .excluded lo => compare lo k == .lt) &&
  (match stop with
    | .unbounded => true
    | .included hi => (compare k hi).isLE
    | .excluded hi => compare k hi == .lt)

namespace TxProg

def fail {α : Type} (e : DbError) : TxProg α := Prog.fail e

def tick : TxProg Tick := Prog.ask Prog.pure

def now : TxProg Int := do return (← tick).now

/-- `Tx::get`; `none` is `KeyNotFound`. -/
def get (k : Bytes) : TxProg (Option Row) :=
  Prog.get k fun r => do
    let now ← now
    return r.filter fun row => !row.expired now

def set (e : Entry) : TxProg Unit := do
  let now ← now
  Prog.put e.key (e.row now) (.pure ())

def delete (k : Bytes) : TxProg Unit := Prog.del k (.pure ())

def deleteAll : List Bytes → TxProg Unit
  | [] => return ()
  | k :: ks => do
    delete k
    deleteAll ks

def setAll : List Entry → TxProg Unit
  | [] => return ()
  | e :: es => do
    set e
    setAll es

/-- All rows that an iterator over the keys `p` returns, in key order. -/
def scan (p : Bytes → Bool) : TxProg (List (Bytes × Row)) :=
  Prog.scan p fun rows => do
    let t ← tick
    return rows.filter fun kr => t.listsExpired || !kr.2.expired t.now

/-- `Tx::new_prefix_iterator`. -/
def scanUnder (nodePrefix : Bytes) : TxProg (List (Bytes × Row)) :=
  scan fun k => nodePrefix.isPrefixOf k

/-- `rand_index`: any index below `n`, 0 if there is none. -/
def randIndex (n : Nat) : TxProg Nat := do return (← tick).rand % n

/-- The swaps of `rand_perm` at the positions up to `i`, from the last one down. -/
def shuffle {α : Type} [Inhabited α] : Nat → Array α → TxProg (Array α)
  | 0, xs => return xs
  | i + 1, xs => do
    let j ← randIndex (i + 2)
    shuffle i (xs.swapIfInBounds (i + 1) j)

/-- `rand_perm`. -/
def randPerm (n : Nat) : TxProg (List Nat) := do
  return (← shuffle (n - 1) (Array.range n)).toList

def randPicks {α : Type} (items : List α) : Nat → TxProg (List α)
  | 0 => return []
  | n + 1 => do
    let i ← randIndex items.length
    return items[i]?.toList ++ (← randPicks items n)

/-- What `SRANDMEMBER` and `HRANDFIELD` pick: a negative count picks with replacement. -/
def randSample {α : Type} (items : List α) (count : Int) : TxProg (List α) :=
  if count = 0 || items.isEmpty then return []
  else if 0 < count then
    if items.length ≤ count.toNat then return items
    else do
      let perm ← randPerm items.length
      return (perm.take count.toNat).filterMap (items[·]?)
  else randPicks items count.natAbs

/-- `set_keeping_ttl` (`redis/common/mod.rs`). -/
def setKeepingTtl (e : Entry) : TxProg Unit := do
  match ← get e.key with
  | some existing => set (e.keepTtlOf existing (← now))
  | none => set e

end TxProg

/-- `err_resp` renders an error for the client; these are its texts. -/
def KvError.message : KvError → String
  | .keyNotFound => "Key not found"
  | .conflict => "Conflict"
  | .dbClosed => "Closed"
  | .undefined => "Undefined"

end Invar
