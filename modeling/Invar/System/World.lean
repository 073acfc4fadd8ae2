import Invar.Lib.Interleaving
import Invar.Redis.Zset
import Invar.Redis.Stream

/-!
# Sessions, commands and what they share

The state of a server: the store with its history of commits, the waiter
registry, and for each session the fields of `Session` (`redis/common/session.rs`)
with the point that its current command has reached.

Some fields are history. No step reads them; they are there to state properties
of runs: the commit log beyond what conflict detection needs, `firstWatch`,
`holder`, `wakes`, and the `pops`, `adds` and `trace` of a transaction.
-/

namespace Invar

open StoreProg

/-! ## Commands -/

inductive TxIsolation where
  | snapshot
  | serializableSnapshot
deriving DecidableEq, Repr

/-- An op whose whole run is one step of the machine: it works on the
dispatcher's transaction and touches the registry at one point at most. -/
inductive AtomicOp where
  | plain (run : TxProg RespValue)
  | zadd (op : Zset.ZAddOp)
  | xadd (op : Stream.XAddOp)

/-- `BzpopOp`; `timeout` is `none` for a client that waits for ever. -/
structure BzpopOp where
  nodes : List (Zset.NodeRef × Bytes)
  timeout : Option Nat
  wantMin : Bool
deriving DecidableEq, Repr

def BzpopOp.publicKeys (op : BzpopOp) : List Bytes := op.nodes.map (·.1.publicKey)

/-- What one call of `FlushAllOp` or `FlushDbOp` removes from the store. -/
inductive FlushTarget where
  | everything
  | under (nodePrefix : Bytes)
deriving DecidableEq, Repr

def FlushTarget.matches : FlushTarget → Bytes → Bool
  | .everything, _ => true
  | .under p, k => p.isPrefixOf k

/-- The fields of a `QueuedOp` beside its two halves, and how its wire half
renders an error. -/
structure CommandInfo where
  isMutating : Bool := false
  allowedInTx : Bool := true
  abortInTx : Bool := false
  keys : Option (List Bytes) := none
  onError : DbError → RespValue := errResp

mutual

inductive Command where
  | mk (info : CommandInfo) (body : Body)

inductive Body where
  | atomic (op : AtomicOp)
  | bzpop (op : BzpopOp) (canBlock : Bool)
  | xread (op : Stream.XReadOp) (canBlock : Bool)
  | flush (targets : List FlushTarget)
  | eval (script : Script)

/-- A Lua script, as what it does next: return, raise, or issue a command
through `redis.call` and go on with the reply. An error reply is raised in Lua,
where the script may catch it, so `next` decides what follows. -/
inductive Script where
  | done (reply : RespValue)
  | fail (msg : String)
  | call (c : Command) (next : RespValue → Script)

end

namespace Command

def info : Command → CommandInfo
  | .mk info _ => info

def body : Command → Body
  | .mk _ body => body

/-- What `dispatch_command` takes from the session: whether a blocking command
may block. A blocking pop that may is not a mutating op. -/
def prepare (shouldBlock : Bool) : Command → Command
  | .mk info (.bzpop op _) => .mk { info with isMutating := !shouldBlock } (.bzpop op shouldBlock)
  | .mk info (.xread op _) => .mk info (.xread op (shouldBlock && op.block))
  | c => c

def isFlush (c : Command) : Bool :=
  match c.body with
  | .flush _ => true
  | _ => false

/-- `release_claims` and the wake of the wire half see the claims of a result;
`defer_claims` takes them out for the script. `ZADD` leaves none behind, `XADD`
leaves a placeholder that is a notification again, no other op defers any. -/
def deferClaims (c : Command) (r : DbResult) : List Claim × List Claim :=
  match c.body with
  | .atomic (.zadd _) => ([], r.claims)
  | .atomic (.xadd _) => (r.claims, r.claims)
  | _ => (r.claims, [])

/-! The functions that build these commands, for a session in `db`. -/

/-- `zset::zadd`. -/
def zadd (db : Int) (key : Bytes) (args : List Bytes) : Command :=
  .mk { isMutating := true, keys := some [keySv db key] }
    (.atomic (.zadd { node := .new (Invar.publicKey db key), rawKey := key, args }))

/-- `stream::xadd`. -/
def xadd (db : Int) (key : Bytes) (explicitId : Option Stream.StreamEntryId)
    (fieldValues : List Bytes) (nomkstream : Bool := false) (maxLen : Option Nat := none)
    (minId : Option Stream.StreamEntryId := none) : Command :=
  let publicKey := Invar.publicKey db key
  .mk { isMutating := true, keys := some [keySv db key] }
    (.atomic (.xadd { publicKey, nodePrefix := privateKey publicKey, nomkstream, maxLen, minId
                      explicitId, fieldValues }))

/-- `zset::bzpop`; `prepare` sets what depends on the session. -/
def bzpop (db : Int) (keys : List Bytes) (timeout : Option Nat) (wantMin : Bool) : Command :=
  .mk { keys := some (keys.map (keySv db)) }
    (.bzpop { nodes := keys.map fun k => (.new (Invar.publicKey db k), k), timeout, wantMin } true)

/-- `stream::xread`. -/
def xread (db : Int) (streams : List (Bytes × Option Stream.StreamEntryId)) (count : Nat)
    (block : Bool) (timeout : Option Nat) : Command :=
  .mk { keys := some (streams.map fun s => keySv db s.1) }
    (.xread
      { streams := streams.map fun s =>
          { publicKey := Invar.publicKey db s.1
            nodePrefix := privateKey (Invar.publicKey db s.1), name := s.1, derived := rfl }
        ids := streams.map (·.2), count, timeout, block } true)

/-- `script::eval`. -/
def eval (script : Script) : Command := .mk { isMutating := true } (.eval script)

/-- `server::flushall`. -/
def flushAll : Command :=
  .mk { allowedInTx := false, onError := plainErrResp } (.flush [.everything])

end Command

/-! ## Transactions and commits -/

/-- A member that `ZADD` removed for a waiter it had claimed. -/
structure Pop where
  waiter : Waiter
  publicKey : Bytes
  result : PopResult
deriving DecidableEq, Repr

/-- One op that a transaction ran. -/
structure Ran where
  op : AtomicOp
  env : Nat → Tick
  outcome : Outcome

/-- An open transaction. `start` is the number of commits its snapshot has. -/
structure Tx where
  id : Nat
  start : Nat
  isolation : TxIsolation
  txn : Txn Bytes Row
  pops : List Pop := []
  adds : List Bytes := []
  trace : List Ran := []

inductive CommitKind where
  | batch
  | own
  | flush
deriving DecidableEq, Repr

/-- A commit. `wrote k` says that it wrote a row of the public key `k`, `covers k`
that the version bump (or the epoch bump) due after it is seen by a session that
watches `k`, and `announced` that this bump has happened. `watch` holds, for an
`EXEC`, the watched keys with the number of commits there were when each was
first watched. -/
structure Commit where
  session : Nat
  tx : Nat
  start : Nat
  kind : CommitKind
  written : List Bytes
  wrote : Bytes → Bool
  covers : Bytes → Bool
  announced : Bool := false
  pops : List Pop := []
  adds : List Bytes := []
  trace : List Ran := []
  watch : List (Bytes × Nat) := []

/-- A call of `Claim::wake`, with whether the claim's transaction had committed. -/
structure Wake where
  claim : Claim
  committed : Bool

/-- `holder` gives the session that holds the claim of a waiter. -/
structure Shared where
  store : Store
  log : List Commit
  registry : WatchRegistry
  nextTx : Nat
  clock : Int
  holder : Nat → Option Nat
  wakes : List Wake

namespace Shared

def init : Shared where
  store := ∅
  log := []
  registry := .new
  nextTx := 1
  clock := 0
  holder := fun _ => none
  wakes := []

def committed (sh : Shared) (tx : Nat) : Bool := sh.log.any (·.tx == tx)

/-- `store.begin`. -/
def begin (sh : Shared) (isolation : TxIsolation) : Tx × Shared :=
  ({ id := sh.nextTx, start := sh.log.length, isolation, txn := { view := sh.store } },
    { sh with nextTx := sh.nextTx + 1 })

/-- The guarantee of the store: a transaction commits only if no commit since its
snapshot wrote a key that it wrote or, under SSI, a key that it read. -/
def canCommit (sh : Shared) (tx : Tx) : Bool :=
  (sh.log.drop tx.start).all fun c => c.written.all fun k =>
    !tx.txn.written.contains k &&
      (tx.isolation == .snapshot || tx.txn.written.isEmpty || !tx.txn.reads.any (· k))

/-- Some row that the transaction wrote is part of the value of `k`, before its commit
or after. -/
def writes (sh : Shared) (tx : Tx) (k : Bytes) : Bool :=
  tx.txn.written.any fun x => ownsRow sh.store k x || ownsRow (tx.txn.applyTo sh.store) k x

/-- The entry of the log for the commit of a transaction. -/
def record (sh : Shared) (i : Nat) (tx : Tx) (kind : CommitKind) (covers : Bytes → Bool)
    (watch : List (Bytes × Nat)) : Commit where
  session := i
  tx := tx.id
  start := tx.start
  kind
  written := tx.txn.written
  wrote := sh.writes tx
  covers
  pops := tx.pops
  adds := tx.adds
  trace := tx.trace
  watch

/-- The store and the log after a commit. -/
def commit (sh : Shared) (i : Nat) (tx : Tx) (kind : CommitKind) (covers : Bytes → Bool)
    (watch : List (Bytes × Nat)) : Shared :=
  { sh with
    store := tx.txn.applyTo sh.store
    log := sh.log ++ [sh.record i tx kind covers watch] }

/-- A flush removes rows outside any transaction. -/
def flushRows (sh : Shared) (i : Nat) (removed : List Bytes) : Shared :=
  let after := removed.foldl (fun s k => s.erase k) sh.store
  { sh with
    store := after
    log := sh.log ++
      [{ session := i, tx := 0, start := sh.log.length, kind := .flush, written := removed
         wrote := fun k => removed.any (ownsRow sh.store k)
         covers := fun _ => true }] }

def announce (sh : Shared) (p : Nat → Commit → Bool) : Shared :=
  { sh with log := sh.log.mapIdx fun n c => if p n c then { c with announced := true } else c }

/-- `Claim::wake`. -/
def wake (sh : Shared) (c : Claim) : Shared :=
  { sh with
    registry := sh.registry.wake c
    holder := if c.notify then sh.holder else Function.update sh.holder c.waiter.id none
    wakes := { claim := c, committed := sh.committed c.origin } :: sh.wakes }

def releaseFront (sh : Shared) (c : Claim) : Shared :=
  { sh with
    registry := sh.registry.releaseFront c
    holder := if c.notify then sh.holder else Function.update sh.holder c.waiter.id none }

end Shared

/-! ## Sessions -/

/-- A script that waits for a command it issued through `redis.call`. -/
structure Frame where
  cmd : Command
  next : RespValue → Script
  deferred : List Claim

/-- How far an `XREAD` that blocks has come in its loop; `ids` once resolved. -/
structure XReadLoop where
  op : Stream.XReadOp
  ids : Option (List (Option Stream.StreamEntryId))
  announced : Bool

/-- Where the run of the current command is. -/
inductive Stage where
  | start
  /-- `EvalOp::run` at a point of its script, with the deferred claims. -/
  | script (s : Script) (deferred : List Claim)
  /-- The wire half of a command of a script, with the claims it has left to
  wake before the script goes on. -/
  | wire (claims : List Claim) (s : Script) (deferred : List Claim)
  /-- `run_script` after a failure, giving back the deferred claims. -/
  | giveBack (claims : List Claim) (e : DbError)
  | bzpopBegin (op : BzpopOp)
  | bzpopPop (op : BzpopOp) (own : Tx)
  | bzpopCommit (own : Tx) (result : PopResult)
  | bzpopRegister (op : BzpopOp)
  | bzpopParked (op : BzpopOp) (w : Waiter)
  | xreadRegister (x : XReadLoop)
  | xreadBegin (x : XReadLoop) (w : Waiter)
  | xreadRead (x : XReadLoop) (w : Waiter) (snapshot : Store)
  | xreadParked (x : XReadLoop) (w : Waiter)
  | flush (todo : List FlushTarget)

/-- The parameters of one call of `dispatch_pending_ops`, with the conflict
retries made so far. -/
structure Dispatch where
  batch : Bool
  isolation : TxIsolation
  retries : Nat := 0
  flush : Bool := false
deriving DecidableEq, Repr

/-- A dispatch that runs its ops: the transaction, the outcomes so far, the
command that runs now, and the scripts around it. -/
structure OpRun where
  dispatch : Dispatch
  tx : Tx
  outcomes : List Outcome
  cmd : Command
  frames : List Frame

structure WatchedKey where
  key : Bytes
  version : Nat
  existed : Bool
deriving DecidableEq, Repr

inductive AfterRelease where
  | idle
  | retry (d : Dispatch)

inductive Phase where
  | idle
  | closed
  | watchBegin (keys : List Bytes)
  | watchKeys (snapshot : Option Store) (keys : List Bytes)
  | begin (d : Dispatch)
  | checkEpoch (d : Dispatch) (tx : Tx)
  | checkKeys (d : Dispatch) (tx : Tx) (todo : List WatchedKey)
  | ops (r : OpRun) (stage : Stage)
  | commit (d : Dispatch) (tx : Tx) (outcomes : List Outcome)
  | release (claims : List Claim) (after : AfterRelease)
  /-- Between the commit, which is number `n` of the log, and its bump. -/
  | bump (d : Dispatch) (n : Nat) (outcomes : List Outcome)
  | reply (d : Dispatch) (claims : List Claim)
  | bumpEpoch

/-- `watched` is the map of `watched_keys`: no key occurs twice in it. -/
structure Session where
  queue : List Command := []
  inMulti : Bool := false
  dirtyExec : Bool := false
  watched : List WatchedKey := []
  watchFlushEpoch : Nat := 0
  conflictRetryCount : Nat := 16
  phase : Phase := .idle
  firstWatch : List (Bytes × Nat) := []

/-- The server: what is shared, and the sessions. -/
abbrev World := Interleaving.State Shared Session

/-- An empty store, and sessions with the configured number of retries. -/
def World.init (retryCount : Nat) : World where
  shared := .init
  threads := fun _ => { conflictRetryCount := retryCount }

end Invar
