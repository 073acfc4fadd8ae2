import Invar.Redis.Dispatch
import Invar.System.World

/-!
# One connection, request by request

`enqueue_command`, `dispatch_noscript` and `dispatch_command` (`redis/commands.rs`)
with `dispatch_pending_ops` (`redis/common/session.rs`), for one connection and
from the arguments of each request on. A request is handled in one go: what the
store and the registry answer while it is handled is given as a list of `CommitTry`s,
one for each round of the commit loop.

Beside its fields the session has the selected database, which the machine of
`System/World` leaves to the commands. Of the server this model has the store and
the calls of `publish`; waiters and versions are left out. `System/Step` translates
`dispatch_pending_ops` and the run of a script too, for commands that are already
parsed and many connections that interleave step by step; `System/ConnectionRuns`
connects the two.
-/

namespace Invar

open StoreProg Dispatch

/-! ## Commands and sessions -/

/-- A `QueuedOp`, as what its two halves do. -/
inductive Cmd where
  | data (c : DataCommand)
  | bzpop (keys : List (Bytes × Bytes)) (wantMin canBlock : Bool)
  | xread (c : DataCommand)
  /-- No database half, and a fixed reply. -/
  | reply (r : RespValue)
  /-- `conn::ok_op`. -/
  | okOp
  /-- `error_op`. -/
  | error (msg : Bytes)
  | publish (channel payload : Bytes)
  /-- No database half; the reply shows the state of the process. -/
  | report
  /-- `SYNC`, `WAIT` and `SAVE`: nothing is written. -/
  | durability
  | flush (targets : List FlushTarget)
  | eval (script : Bytes) (keys argv : List Bytes) (db : Int)

namespace Cmd

def allowedInTx : Cmd → Bool
  | .durability | .flush _ => false
  | _ => true

/-- The texts of `QueuedOp::keys`. -/
def keys : Cmd → Option (List Bytes)
  | .data c | .xread c => c.announced.map (·.map fromUtf8Lossy)
  | .bzpop ks _ _ => some (ks.map fun kn => fromUtf8Lossy kn.1)
  | _ => none

end Cmd

/-- The fields of a `Session` that the dispatcher reads or changes. Of `watched_keys` only the
keys are here; whether they have changed is in the attempts. -/
structure Conn where
  db : Int := 0
  inMulti : Bool := false
  dirtyExec : Bool := false
  queue : List Cmd := []
  watched : List Bytes := []
  shouldClose : Bool := false
  clientName : Bytes := []
  libName : Bytes := []
  libVer : Bytes := []
  conflictRetryCount : Nat := 16

namespace Conn

/-- `mark_dirty`. -/
def markDirty (s : Conn) : Conn := { s with dirtyExec := s.dirtyExec || s.inMulti }

def shouldBlock (s : Conn) : Bool := !s.inMulti

def ctx (s : Conn) (now : Int) : Ctx := { db := s.db, now }

end Conn

/-! ## `dispatch_command` -/

/-- A branch that may change the session; `none` if the number of arguments is wrong. -/
abbrev ServerBranch := Conn → List Bytes → Option (Conn × Parse Cmd)

/-- A branch that only reads the session. -/
def ServerBranch.ofPure (f : Conn → List Bytes → Option (Parse Cmd)) : ServerBranch :=
  fun s args => (f s args).map fun cmd => (s, cmd)

/-- `SELECT` switches at once, also inside `MULTI`; the index is narrowed to 32 bits. -/
def selectBranch : ServerBranch
  | s, [db] =>
    match parseI64 db with
    | some db =>
      if 0 ≤ db then
        some ({ s with db := asI32 db }, .ok (if s.inMulti then .okOp else .reply .ok))
      else some (s, reject "ERR invalid DB index")
    | none => some (s, reject "ERR invalid DB index")
  | _, _ => none

def fixed (msg : String) : Parse Cmd := .ok (.reply (.error (ascii msg)))

/-- `client_reply`. Its errors are plain replies. -/
def clientBranch : ServerBranch := fun s args =>
  let unknown (pre post : String) (arg : Bytes) : Parse Cmd :=
    .ok (.reply (.error (ascii pre ++ fromUtf8Lossy arg ++ ascii post)))
  some <|
    match args with
    | [] => (s, fixed "ERR wrong number of arguments for 'client' command")
    | sub :: args =>
      if isWord "id" sub || isWord "info" sub || isWord "list" sub then (s, .ok .report)
      else if isWord "setname" sub then
        match args with
        | [name] =>
          let name := fromUtf8Lossy name
          if name.any fun b => b = 32 || b = 10 || b = 13 then
            (s, fixed ("ERR Client names cannot contain spaces, newlines or special " ++
              "characters."))
          else ({ s with clientName := name }, .ok (.reply .ok))
        | _ => (s, fixed "ERR wrong number of arguments for 'client|setname' command")
      else if isWord "getname" sub then
        (s, .ok (.reply (if s.clientName.isEmpty then .nullBulk else .bulk s.clientName)))
      else if isWord "setinfo" sub then
        match args with
        | [attr, value] =>
          if isWord "lib-name" attr then
            ({ s with libName := fromUtf8Lossy value }, .ok (.reply .ok))
          else if isWord "lib-ver" attr then
            ({ s with libVer := fromUtf8Lossy value }, .ok (.reply .ok))
          else (s, unknown "ERR Unrecognized option '" "'" attr)
        | _ => (s, fixed "ERR wrong number of arguments for 'client|setinfo' command")
      else if isWord "getinfo" sub then
        match args with
        | [attr] =>
          if isWord "lib-name" attr then (s, .ok (.reply (.bulk s.libName)))
          else if isWord "lib-ver" attr then (s, .ok (.reply (.bulk s.libVer)))
          else (s, unknown "ERR Unrecognized option '" "'" attr)
        | _ => (s, fixed "ERR wrong number of arguments for 'client|getinfo' command")
      else (s, unknown "ERR unknown subcommand '" "'. Try CLIENT HELP." sub)

/-- The loop of `hello_reply`: the client name, and the reply if it is an error. -/
def helloArgs (name : Bytes) (proto : Int) : List Bytes → Bytes × Option String
  | [] => (name, if proto = 2 then none else some "NOPROTO unsupported protocol version")
  | token :: rest =>
    if isWord "auth" token then
      match rest with
      | _ :: _ :: rest => helloArgs name proto rest
      | _ => (name, some "ERR wrong number of arguments for 'hello' command")
    else if isWord "setname" token then
      match rest with
      | arg :: rest => helloArgs (fromUtf8Lossy arg) proto rest
      | [] => (name, some "ERR wrong number of arguments for 'hello' command")
    else
      match parseI64 token with
      | some v => helloArgs name v rest
      | none => (name, some "ERR syntax error in 'hello' command")

def helloBranch : ServerBranch := fun s args =>
  let (name, err) := helloArgs s.clientName 2 args
  some ({ s with clientName := name },
    match err with
    | some msg => fixed msg
    | none => .ok .report)

def quitBranch : ServerBranch := fun s _ => some ({ s with shouldClose := true }, .ok (.reply .ok))

/-- `EVAL` and `EVALSHA`; `lookup` gives the script of the first argument. -/
def evalBranch (name : String) (lookup : Bytes → Option Bytes) : ServerBranch :=
  .ofPure fun s args =>
    match args with
    | script :: n :: rest => some do
      let n ← int n
      rejectIf (n < 0) (reject "ERR number of keys can't be negative")
      rejectIf (rest.length < n.toNat) (wrongArity name)
      match lookup script with
      | some script => return .eval script (rest.take n.toNat) (rest.drop n.toNat) s.db
      | none => return .reply (.error (ascii "NOSCRIPT No matching script. Use EVAL."))
    | _ => none

def waitBranch : ServerBranch :=
  .ofPure fun _ args =>
    match args with
    | [numreplicas, timeout] => some do
      let numreplicas ← int numreplicas
      rejectIf (numreplicas < 0) (reject "ERR numreplicas should be greater or equal to 0")
      let timeout ← int timeout
      rejectIf (timeout < 0) (reject "ERR timeout is negative")
      return .durability
    | _ => none

def bzpopBranch (wantMin : Bool) : ServerBranch :=
  .ofPure fun s args =>
    if args.length < 2 then none
    else some do
      let timeout ← float (args.getLast?.getD []) "ERR timeout is not a float or out of range"
      rejectIf (timeout.lt .zero) (reject "ERR timeout is not a float or out of range")
      return .bzpop (args.dropLast.map fun k => (publicKey s.db k, k)) wantMin s.shouldBlock

def pubsubBranch : ServerBranch :=
  .ofPure fun _ args =>
    match args with
    | [] => none
    | sub :: _ =>
      if ["channels", "numsub", "numpat", "help"].any (isWord · sub) then some (.ok .report)
      else some (.error (.error (ascii "ERR unknown subcommand '" ++ fromUtf8Lossy (lower sub) ++
        ascii "'. Try PUBSUB HELP.")))

def publishBranch : ServerBranch :=
  .ofPure fun _ args =>
    match args with
    | [channel, payload] => some (.ok (.publish channel payload))
    | _ => none

def moduleReply : List Bytes → RespValue
  | [] => .error (arityText (ascii "module"))
  | sub :: _ =>
    if isWord "list" sub then .array (some []) else .error (ascii "ERR unknown subcommand")

def always (cmd : Cmd) : ServerBranch := .ofPure fun _ _ => some (.ok cmd)

/-- The rows of `FLUSHDB`. -/
def flushDbTargets (db : Int) : List FlushTarget :=
  let dbPrefix := intText db ++ [58]
  [.under dbPrefix, .under (45 :: dbPrefix), .under (43 :: dbPrefix)]

/-- The branches that are not about data. `scripts` is the cache of `EVALSHA`. -/
def serverTable (scripts : Bytes → Option Bytes) : List (String × ServerBranch) :=
  [("ping", .ofPure fun _ args =>
      match args with
      | [] => some (.ok (.reply (.simpleString (ascii "PONG"))))
      | [msg] => some (.ok (.reply (.bulk msg)))
      | _ => none),
    ("echo", .ofPure fun _ args =>
      match args with
      | [msg] => some (.ok (.reply (.bulk msg)))
      | _ => none),
    ("eval", evalBranch "eval" some),
    ("evalsha", evalBranch "evalsha" scripts),
    ("select", selectBranch),
    ("client", clientBranch),
    ("info", always .report),
    ("hello", helloBranch),
    ("sync", always .durability),
    ("psync", always .durability),
    ("wait", waitBranch),
    ("lolwut", always .report),
    ("time", always .report),
    ("module", .ofPure fun _ args => some (.ok (.reply (moduleReply args)))),
    ("save", always .durability),
    ("bgsave", always (.reply .ok)),
    ("quit", quitBranch),
    ("flushall", always (.flush [.everything])),
    ("flushdb", .ofPure fun s _ => some (.ok (.flush (flushDbTargets s.db)))),
    ("bzpopmin", bzpopBranch true),
    ("bzpopmax", bzpopBranch false),
    ("xread", .ofPure fun s args =>
      if args.length < 3 then none
      else some do return .xread (← xread (s.ctx 0) args).1),
    ("object", .ofPure fun _ args =>
      if args.length < 2 then none else some (.ok (.reply .nullBulk))),
    ("publish", publishBranch),
    ("spublish", publishBranch),
    ("pubsub", pubsubBranch)]

def subscribeNames : List String :=
  ["subscribe", "psubscribe", "ssubscribe", "unsubscribe", "punsubscribe", "sunsubscribe"]

namespace Conn

/-- `error_op`. -/
def errorOp (s : Conn) (msg : Bytes) : Conn × Cmd := (s.markDirty, .error msg)

/-- The end of a branch. -/
def finish (s : Conn) (name : Bytes) : Option (Parse Cmd) → Option (Conn × Cmd)
  | some (.ok cmd) => some (s, cmd)
  | some (.error (.error msg)) => some (s.errorOp msg)
  | some (.error .panic) => none
  | none => some (s.errorOp (arityText name))

/-- `dispatch_command`; `none` if it panics. -/
def dispatch (scripts : Bytes → Option Bytes) (now : Int) (s : Conn) :
    List Bytes → Option (Conn × Cmd)
  | [] => some (s.errorOp (ascii "ERR empty command"))
  | name :: args =>
    let name := lower name
    match (serverTable scripts).find? fun row => ascii row.1 = name with
    | some (_, branch) =>
      match branch s args with
      | some (s, cmd) => s.finish name (some cmd)
      | none => s.finish name none
    | none =>
      match dataTable.find? fun row => ascii row.1 = name with
      | some (_, branch) =>
        s.finish name ((branch (s.ctx now) args).map fun c => Cmd.data <$> c)
      | none =>
        if subscribeNames.any (ascii · = name) then
          some (s.errorOp (ascii "ERR Command not allowed inside a transaction"))
        else some (s.errorOp (ascii "ERR unknown command '" ++ fromUtf8Lossy name ++ ascii "'"))

end Conn

/-! ## Running commands -/

/-- A Lua script, as what it does next: return, raise an error, or issue a command through
`redis.call` and go on with the reply. An error reply is raised in Lua, where the script
may catch it, so `next` decides what follows. -/
inductive Lua where
  | done (reply : RespValue)
  | raise (msg : String)
  | call (args : List Bytes) (next : RespValue → Lua)

/-- What is not modelled of the process: the logarithm, what scripts do, how deep they can be
nested until the stack is used up, the cache of `EVALSHA`, and which waiter a `ZADD` finds. -/
structure Platform where
  ln : F64 → F64
  lua : (script : Bytes) → (keys argv : List Bytes) → Lua
  scriptDepth : Nat
  scripts : Bytes → Option Bytes
  waiter : DataCommand → Option Bool

structure Server where
  store : Store
  /-- The calls of `PubSubRegistry::publish`, the first one first. -/
  published : List (Bytes × Bytes) := []

/-- What a command works on: the open transaction, the server, and the answers of the
environment that are still to come. -/
structure Machine where
  txn : Txn Bytes Row
  server : Server
  env : Nat → Tick

abbrev CmdOutcome := Except DbError RespValue

/-- The store without the rows that a flush removes. -/
def Server.flush (v : Server) (targets : List FlushTarget) : Server :=
  { v with store := v.store.filter fun k _ => !targets.any (·.matches k) }

/-- A blocking pop works on a transaction of its own, whose commit is taken to succeed. When
nothing is there it waits, and what it is handed then was taken by the transaction that
hands it out. -/
def Machine.popAlone (m : Machine) (keys : List (Bytes × Bytes)) (wantMin : Bool) :
    CmdOutcome × Machine :=
  let nodes := keys.map fun kn => (Zset.NodeRef.new kn.1, kn.2)
  let r := exec (Zset.tryPop wantMin nodes) m.env { view := m.server.store }
  match r.out with
  | .error e => (.error e, { m with env := r.env })
  | .ok none => (.ok (popReply none), { m with env := r.env })
  | .ok (some p) =>
    (.ok (popReply (some p)),
      { m with env := r.env, server := { m.server with store := r.txn.view } })

/-- The reply that the wire half makes of an outcome. -/
def Cmd.render (cmd : Cmd) : CmdOutcome → RespValue
  | .ok r => r
  | .error e =>
    match cmd with
    | .data c => c.onError e
    | .flush _ => plainErrResp e
    | _ => errResp e

/-- Run a script; `call` handles a command that it issues. -/
def Lua.run (call : List Bytes → Machine → RespValue × Machine) :
    Lua → Machine → CmdOutcome × Machine
  | .done r, m => (.ok r, m)
  | .raise msg, m => (.error (.redis msg), m)
  | .call args next, m =>
    let (r, m) := call args m
    (next r).run call m

/-- The database half of a command. The commands of a script are dispatched in a new session
of its own, which may block; nobody has subscribed to the registry of that session, so what
they publish reaches no one. `depth` bounds how deep scripts are nested. -/
def Cmd.run (P : Platform) : (depth : Nat) → Cmd → Machine → CmdOutcome × Machine
  | _, .data c, m =>
    let r := exec (c.run P.ln (P.waiter c)) m.env m.txn
    (r.out, { m with txn := r.txn, env := r.env })
  | _, .xread c, m =>
    let r := exec (c.run P.ln none) m.env m.txn
    (r.out, { m with txn := r.txn, env := r.env })
  | _, .bzpop keys wantMin true, m => m.popAlone keys wantMin
  | _, .bzpop keys wantMin false, m =>
    let r := exec (DataCommand.run P.ln none (.bzpop keys wantMin)) m.env m.txn
    (r.out, { m with txn := r.txn, env := r.env })
  | _, .reply r, m => (.ok r, m)
  | _, .okOp, m => (.ok .ok, m)
  | _, .error msg, m => (.ok (.error msg), m)
  | _, .publish .., m => (.ok (.integer 0), m)
  | _, .report, m => (.ok .nullBulk, m)
  | _, .durability, m => (.ok .ok, m)
  | _, .flush targets, m => (.ok .ok, { m with server := m.server.flush targets })
  | 0, .eval .., m => (.error (.redis "script nesting"), m)
  | depth + 1, .eval script keys argv db, m =>
    let call (args : List Bytes) (m : Machine) : RespValue × Machine :=
      match Conn.dispatch P.scripts (m.env 0).now { db } args with
      | none => (errResp .panic, m)
      | some (_, cmd) =>
        let (out, m) := Cmd.run P depth cmd m
        (cmd.render out, m)
    (P.lua script keys argv).run call m

/-- The effect of the wire half: only `PUBLISH` has one. -/
def Cmd.deliver (v : Server) : Cmd → Server
  | .publish channel payload => { v with published := v.published ++ [(channel, payload)] }
  | _ => v

/-! ## `dispatch_pending_ops` -/

inductive CommitAnswer where
  | ok
  | conflict
  | failed (e : KvError)
deriving DecidableEq, Repr

/-- What the store and the registry answer in one round: an error of `begin`, whether the
watched keys are as they were, the answers to the commands, and the commit. -/
structure CommitTry where
  beginError : Option KvError := none
  watchHolds : Bool := true
  env : Nat → Tick
  commit : CommitAnswer := .ok

/-- `needs_ssi`. -/
def Conn.needsSsi (s : Conn) : Bool :=
  s.queue.any fun cmd => (cmd.keys.getD []).any (· ∈ s.watched)

def commitError : RespValue := .error (ascii "ERR Couldn't commit transaction")

def execAbort : RespValue :=
  .error (ascii "EXECABORT Transaction discarded because of previous errors.")

def kvErrorReply (e : KvError) : RespValue := .error (ascii ("ERR " ++ e.message))

/-- How the loop over the queue ends: all commands ran, one of them met a conflict, or one
failed outside `EXEC`. -/
inductive QueueEnd where
  | ran (outcomes : List CmdOutcome)
  | conflict
  | failed (reply : RespValue)
  | panicked

def runQueue (P : Platform) (batch : Bool) : List Cmd → List CmdOutcome → Machine →
    QueueEnd × Machine
  | [], outcomes, m => (.ran outcomes, m)
  | cmd :: rest, outcomes, m =>
    let (out, m) := cmd.run P P.scriptDepth m
    match out with
    | .error (.kv .conflict) => (.conflict, m)
    | .error .panic => (.panicked, m)
    | .error e =>
      if batch then runQueue P batch rest (outcomes ++ [.error e]) m
      else (.failed (cmd.render (.error e)), m)
    | .ok r => runQueue P batch rest (outcomes ++ [.ok r]) m

namespace Conn

def clearQueue (s : Conn) : Conn := { s with queue := [] }

def unwatch (s : Conn) : Conn := { s with watched := [] }

/-- The abort of an `EXEC` whose watched keys have changed. -/
def abortNil (s : Conn) : Conn × List RespValue := (s.clearQueue.unwatch, [.nullArray])

/-- After the commit: the replies, with their deliveries. -/
def replyAll (s : Conn) (batch : Bool) (outcomes : List CmdOutcome) (v : Server) :
    Conn × Server × List RespValue :=
  let replies := (s.queue.zip outcomes).map fun co => co.1.render co.2
  let v := s.queue.foldl Cmd.deliver v
  if batch then (s.clearQueue.unwatch, v, [.array (some replies)])
  else (s.clearQueue, v, replies)

/-- The commit loop, with `retries` left; `none` if the attempts run out or a command
panics. -/
def commitLoop (P : Platform) (s : Conn) (batch : Bool) :
    (retries : Nat) → List CommitTry → Server → Option (Conn × Server × List RespValue)
  | _, [], _ => none
  | retries, a :: rest, v =>
    let done (v : Server) (r : Conn × List RespValue) : Option (Conn × Server × List RespValue) :=
      some (r.1, v, r.2)
    -- a conflict: nil under SSI, another attempt otherwise
    let retry (v : Server) : Option (Conn × Server × List RespValue) :=
      if s.needsSsi then done v s.abortNil
      else
        match retries with
        | 0 => done v (s.clearQueue, [commitError])
        | retries + 1 => commitLoop P s batch retries rest v
    match a.beginError with
    | some e => done v (s.clearQueue, [kvErrorReply e])
    | none =>
      if batch && !s.watched.isEmpty && !a.watchHolds then done v s.abortNil
      else
        let (ended, m) := runQueue P batch s.queue []
          { txn := { view := v.store }, server := v, env := a.env }
        match ended with
        | .panicked => none
        | .failed reply => done m.server (s.clearQueue, [reply])
        | .conflict => retry m.server
        | .ran outcomes =>
          match a.commit with
          | .ok => some (s.replyAll batch outcomes
              { m.server with store := m.txn.applyTo m.server.store })
          | .conflict => retry m.server
          | .failed e => done m.server (s.clearQueue, [kvErrorReply e])

/-- The server before or after the commands of a round. -/
def Ran (P : Platform) (s : Conn) (batch : Bool) (v v' : Server) : Prop :=
  v' = v ∨ ∃ env, v' = (runQueue P batch s.queue [] ⟨{ view := v.store }, v, env⟩).2.server

/-- The commit loop, round by round: it stops, it commits or it goes on. -/
theorem commitLoop_induction {P : Platform} {s : Conn} {batch : Bool}
    {M : Server → Conn × Server × List RespValue → Prop}
    (stop : ∀ v v' c replies, s.Ran P batch v v' → c = s.clearQueue ∨ c = s.clearQueue.unwatch →
      M v (c, v', replies))
    (commit : ∀ v env outcomes m,
      runQueue P batch s.queue [] ⟨{ view := v.store }, v, env⟩ = (.ran outcomes, m) →
      M v (s.replyAll batch outcomes { m.server with store := m.txn.applyTo m.server.store }))
    (again : ∀ v v' r, s.Ran P batch v v' → M v' r → M v r)
    {retries : Nat} {attempts : List CommitTry} {v : Server}
    {r : Conn × Server × List RespValue}
    (hrun : s.commitLoop P batch retries attempts v = some r) : M v r := by
  induction attempts generalizing retries v with
  | nil => simp [commitLoop] at hrun
  | cons a rest ih =>
    rw [commitLoop] at hrun
    split at hrun
    · cases hrun
      exact stop _ _ _ _ (.inl rfl) (.inl rfl)
    split at hrun
    · cases hrun
      exact stop _ _ _ _ (.inl rfl) (.inr rfl)
    have hran : s.Ran P batch v _ := .inr ⟨a.env, rfl⟩
    have hcommit := commit v a.env
    generalize runQueue P batch s.queue [] _ = q at hrun hran hcommit
    obtain ⟨ended, m⟩ := q
    dsimp only at hrun hran
    -- a conflict ends with nil, with an error or with another round
    repeat' split at hrun
    all_goals
      first
      | exact again _ _ _ hran (ih hrun)
      | exact Option.some.inj hrun ▸ hcommit _ m rfl
      | cases hrun
    all_goals
      first
      | exact stop _ _ _ _ hran (.inl rfl)
      | exact stop _ _ _ _ hran (.inr rfl)

def dispatchPendingOps (P : Platform) (s : Conn) (batch : Bool) (attempts : List CommitTry)
    (v : Server) : Option (Conn × Server × List RespValue) :=
  if s.inMulti then some (s, v, [])
  else if batch && s.dirtyExec then
    some ({ s.clearQueue.unwatch with dirtyExec := false }, v, [execAbort])
  else if s.queue.isEmpty then some (s, v, if batch then [.array (some [])] else [])
  else s.commitLoop P batch s.conflictRetryCount attempts v

/-! ## `enqueue_command` -/

/-- `exit_multi`, inside a `MULTI` block. -/
def exitMulti (s : Conn) (discard : Bool) : Conn :=
  if discard then { s.clearQueue.unwatch with inMulti := false, dirtyExec := false }
  else { s with inMulti := false }

def errorReply (s : Conn) (v : Server) (msg : String) : Option (Conn × Server × List RespValue) :=
  some (s.markDirty, v, [.error (ascii msg)])

/-- `dispatch_noscript`: the commands that a script cannot issue. The outer `none` says that the
request is none of them. -/
def dispatchNoscript (P : Platform) (s : Conn) (attempts : List CommitTry) (v : Server)
    (name : Bytes) (args : List Bytes) : Option (Option (Conn × Server × List RespValue)) :=
  if name = ascii "multi" then
    if s.inMulti then some (some (s, v, [.error (ascii "ERR MULTI calls can not be nested")]))
    else some (some ({ s with inMulti := true, dirtyExec := false }, v, [.ok]))
  else if name = ascii "exec" then
    if s.inMulti then some ((s.exitMulti false).dispatchPendingOps P true attempts v)
    else some (s.errorReply v "ERR EXEC without MULTI")
  else if name = ascii "discard" then
    if s.inMulti then some (some (s.exitMulti true, v, [.ok]))
    else some (s.errorReply v "DISCARD without MULTI")
  else if name = ascii "watch" then
    if args.isEmpty then
      some (s.errorReply v "ERR wrong number of arguments for 'watch' command")
    else if s.inMulti then
      some (some (s, v, [.error (ascii "ERR WATCH inside MULTI is not allowed")]))
    else some (some ({ s with watched := s.watched ++ args.map (keySv s.db) }, v, [.ok]))
  else if name = ascii "unwatch" then some (some (s.unwatch, v, [.ok]))
  else none

/-- The part of `enqueue_command` after the dispatch. -/
def enqueue (P : Platform) (s : Conn) (cmd : Cmd) (attempts : List CommitTry) (v : Server) :
    Option (Conn × Server × List RespValue) :=
  let queued : Conn := { s with queue := s.queue ++ [cmd] }
  if s.inMulti then
    match cmd with
    -- the only ops with `abort_in_tx`
    | .error msg => some (s, v, [.error msg])
    | _ =>
      if cmd.allowedInTx then some (queued, v, [.simpleString (ascii "QUEUED")])
      else s.errorReply v "Command not allowed inside a transaction"
  else queued.dispatchPendingOps P false attempts v

end Conn

/-- A request with the clock and the answers while it is handled. -/
structure Request where
  args : List Bytes
  now : Int := 0
  attempts : List CommitTry := []

/-- The lower-case name of a request. -/
def Request.name (r : Request) : Bytes := lower (r.args.head?.getD [])

/-- `enqueue_command`. -/
def Conn.receive (P : Platform) (s : Conn) (v : Server) (r : Request) :
    Option (Conn × Server × List RespValue) :=
  match r.args with
  | [] => s.errorReply v "ERR empty command"
  | _ :: args =>
    match s.dispatchNoscript P r.attempts v r.name args with
    | some answer => answer
    | none =>
      match s.dispatch P.scripts r.now r.args with
      | some (s, cmd) => s.enqueue P cmd r.attempts v
      | none => none

/-- A sequence of requests, with all replies. -/
def Conn.receiveAll (P : Platform) : List Request → Conn → Server →
    Option (Conn × Server × List (List RespValue))
  | [], s, v => some (s, v, [])
  | r :: rest, s, v => do
    let (s, v, replies) ← s.receive P v r
    let (s, v, more) ← Conn.receiveAll P rest s v
    return (s, v, replies :: more)

end Invar
