import Invar.System.World

/-!
# The steps of a session

`dispatch_pending_ops`, `snapshot_and_watch`, the ops that a command runs and the
scripts around them, cut where they touch what sessions share: the store (begin,
commit, flush) and the registry (each method takes its mutex once). Between two
such points a session works on its own transaction and its own fields, and that
work is part of a step.

`begin` and `commit` may fail with any error at any time; a commit that succeeds
obeys `Shared.canCommit`. What the code reads from the clock and from the random
source comes with the step.
-/

namespace Invar

open StoreProg

/-! ## Running an op on the dispatcher's transaction -/

def Tx.withTxn (tx : Tx) (txn : Txn Bytes Row) : Tx := { tx with txn }

def Tx.ran (tx : Tx) (op : AtomicOp) (env : Nat → Tick) (outcome : Outcome) : Tx :=
  { tx with trace := tx.trace ++ [{ op, env, outcome }] }

/-- What the claimed waiter of a `ZADD` gets. -/
def Zset.ZAddOp.popResult (op : Zset.ZAddOp) (m : Zset.MemberScore) : PopResult :=
  { key := op.rawKey, member := m.member, score := m.score }

/-- The claim of `ZAddOp::run`: the front waiter of the key, whatever it waits
for, gets one member. A failed pop gives the claim back in the same step. -/
def zaddClaim (i : Nat) (op : Zset.ZAddOp) (w : Zset.ZAddWritten) (env : Nat → Tick) (tx : Tx)
    (sh : Shared) : Outcome × Tx × Shared :=
  let reply := RespValue.integer w.reply
  match sh.registry.tryClaim w.node.publicKey with
  | none => (.ok { reply }, tx, sh)
  | some (c, registry) =>
    let pop := exec (Zset.popOne c.wantMin w.node) env tx.txn
    let tx := tx.withTxn pop.txn
    match pop.out with
    | .error e => (.error e, tx, { sh with registry := registry.releaseFront c })
    | .ok m =>
      let result := m.map op.popResult
      let taken := result.map fun r =>
        { waiter := c.waiter, publicKey := w.node.publicKey, result := r : Pop }
      (.ok { reply, claims := [{ c with result := result.map .pop, origin := tx.id }] },
        { tx with pops := taken.toList ++ tx.pops },
        { sh with registry, holder := Function.update sh.holder c.waiter.id (some i) })

/-- `DbOp::run` of an op that is one step. -/
def AtomicOp.perform (i : Nat) (env : Nat → Tick) (tx : Tx) (sh : Shared) :
    AtomicOp → Outcome × Tx × Shared
  | .plain p =>
    let r := exec p env tx.txn
    (r.out.map fun reply => { reply }, tx.withTxn r.txn, sh)
  | .zadd op =>
    let r := exec op.write env tx.txn
    let tx := tx.withTxn r.txn
    match r.out with
    | .error e => (.error e, tx, sh)
    | .ok w =>
      if w.added then zaddClaim i op w r.env tx sh
      else (.ok { reply := .integer w.reply }, tx, sh)
  | .xadd op =>
    let r := exec op.write env tx.txn
    let tx := tx.withTxn r.txn
    match r.out with
    | .error e => (.error e, tx, sh)
    | .ok id =>
      let note := { WatchRegistry.streamNotification op.publicKey with origin := tx.id }
      (.ok { reply := .bulkString (some id.display), claims := [note] },
        { tx with adds := op.publicKey :: tx.adds }, sh)

def AtomicOp.run (i : Nat) (env : Nat → Tick) (tx : Tx) (sh : Shared) (op : AtomicOp) :
    Outcome × Tx × Shared :=
  let (outcome, tx, sh) := op.perform i env tx sh
  (outcome, tx.ran op env outcome, sh)

/-- The writes of a `ZADD` add a member, so that it looks for a waiter. -/
def Zset.ZAddOp.adds (op : Zset.ZAddOp) (env : Nat → Tick) (tx : Tx) : Bool :=
  match (exec op.write env tx.txn).out with
  | .ok w => w.added
  | .error _ => false

/-- `bzpop_reply_value`, nil without a result. -/
def bzpopReply : Option PopResult → RespValue
  | some p => .array (some [.bulkString (some p.key), .bulkString (some p.member),
      .bulkString (some p.score.display)])
  | none => .bulkString none

/-- The op that the start of a command performs in one step, if it does. -/
def Command.atomicOp? (cmd : Command) : Option AtomicOp :=
  match cmd.body with
  | .atomic op => some op
  | .bzpop op false => some (.plain (bzpopReply <$> Zset.tryPop op.wantMin op.nodes))
  | .xread op false =>
    some (.plain do
      let ids ← Stream.resolveReadIds (op.streams.zip op.ids)
      return Stream.xreadReply (← Stream.readStreams op.count (op.streams.zip ids)))
  | _ => none

/-- The stage that the start of any other command leads to. -/
def Command.firstStage? (cmd : Command) : Option Stage :=
  match cmd.body with
  | .bzpop op true => some (.bzpopBegin op)
  | .xread op true => some (.xreadRegister { op, ids := none, announced := false })
  | .flush targets => some (.flush targets)
  | .eval script => some (.script script [])
  | _ => none

def XReadLoop.publicKeys (x : XReadLoop) : List Bytes := x.op.streams.map (·.publicKey)

/-- The registration that a waiting command holds, once the client can be seen
hanging up. -/
def Stage.cancelled : Stage → Option Waiter
  | .bzpopParked _ w => some w
  | .xreadParked _ w => some w
  | .xreadBegin x w => if x.announced then some w else none
  | .xreadRead x w _ => if x.announced then some w else none
  | _ => none

/-! ## Moving a session on -/

namespace Session

/-- The end of a dispatch; `clearWatch` on the paths that clear `watched_keys`. -/
def finish (s : Session) (batch clearWatch : Bool) : Session :=
  { s with
    queue := []
    watched := if clearWatch then [] else s.watched
    firstWatch := if batch then [] else s.firstWatch
    phase := .idle }

/-- The end of a dispatch that does not commit, with the claims to give back. -/
def abandon (s : Session) (d : Dispatch) (clearWatch : Bool) (claims : List Claim) : Session :=
  { s.finish d.batch clearWatch with phase := .release claims .idle }

/-- A conflict, of an op or of the commit: nil under SSI, else a retry while
there are any left. -/
def conflicted (s : Session) (d : Dispatch) (claims : List Claim) : Session :=
  if d.isolation = .serializableSnapshot then s.abandon d true claims
  else if d.retries < s.conflictRetryCount then
    { s with phase := .release claims (.retry { d with retries := d.retries + 1 }) }
  else s.abandon d false claims

/-- The next op of the queue, or the commit. -/
def nextOp (s : Session) (d : Dispatch) (tx : Tx) (outcomes : List Outcome) : Session :=
  match s.queue[outcomes.length]? with
  | some cmd => { s with phase := .ops ⟨d, tx, outcomes, cmd, []⟩ .start }
  | none => { s with phase := .commit d tx outcomes }

/-- What follows the run of an op of the queue. -/
def completeOp (s : Session) (r : OpRun) (out : Outcome) : Session :=
  let claims := r.outcomes.flatMap Outcome.claims
  if out.isRetryableConflict then s.conflicted r.dispatch claims
  else
    match out with
    | .error _ =>
      if r.dispatch.batch then s.nextOp r.dispatch r.tx (r.outcomes ++ [out])
      else s.abandon r.dispatch false claims
    | .ok _ => s.nextOp r.dispatch r.tx (r.outcomes ++ [out])

/-- What follows the run of a command of a script: the claims that
`defer_claims` takes are kept for later, then the wire half renders the result,
waking the claims that are still in it. -/
def completeCall (s : Session) (r : OpRun) (f : Frame) (frames : List Frame) (out : Outcome) :
    Session :=
  let back := { r with cmd := f.cmd, frames }
  match out with
  | .ok res =>
    let (kept, taken) := r.cmd.deferClaims res
    { s with phase := .ops back (.wire kept (f.next res.reply) (f.deferred ++ taken)) }
  | .error e => { s with phase := .ops back (.script (f.next (r.cmd.info.onError e)) f.deferred) }

/-- The current command has run. -/
def complete (s : Session) (r : OpRun) (out : Outcome) : Session :=
  match r.frames with
  | [] => s.completeOp r out
  | f :: frames => s.completeCall r f frames out

/-- `needs_ssi`. -/
def needsSsi (s : Session) : Bool :=
  s.queue.any fun c => (c.info.keys.getD []).any fun k => s.watched.any (·.key == k)

/-- `dispatch_pending_ops` up to its loop. -/
def dispatch (s : Session) (batch flush : Bool) : Session :=
  if batch && s.dirtyExec then { s.finish true true with dirtyExec := false }
  else if s.queue.isEmpty then s.finish batch false
  else
    let isolation := if s.needsSsi then TxIsolation.serializableSnapshot else .snapshot
    { s with phase := .begin { batch, isolation, flush } }

/-- The keys of the mutating ops, which are bumped after a commit. -/
def changedKeys (s : Session) : List Bytes :=
  (s.queue.filter (·.info.isMutating)).flatMap fun c => c.info.keys.getD []

/-- `watched_keys.insert`. -/
def recordWatch (s : Session) (e : WatchedKey) : Session :=
  { s with watched := e :: s.watched.filter (·.key ≠ e.key) }

end Session

/-! ## The steps -/

/-- What the session's side of a step does, beside the pieces of op runs. -/
inductive Action where
  | multi
  | discard
  | unwatch
  | watch (keys : List Bytes)
  | watchBegin (ok : Bool)
  | watchKey
  | submit (c : Command)
  | exec
  | begin (err : Option KvError)
  | checkEpoch
  | checkKey (key : Bytes)
  | run
  | deadline
  | beginOwn (err : Option KvError)
  | commitOwn (err : Option KvError)
  | flushRows (removed : List Bytes)
  | flushNext (err : Option KvError)
  | receive
  | timeout
  | hangUp
  | commit (err : Option KvError)
  | bump
  | reply
  | release
  | bumpEpoch

namespace Session

/-! ### Commands of the client -/

def stepMulti (s : Session) : Option Session :=
  match s.phase with
  | .idle => some (if s.inMulti then s else { s with inMulti := true, dirtyExec := false })
  | _ => none

def stepDiscard (s : Session) : Option Session :=
  match s.phase with
  | .idle =>
    some (if s.inMulti then
      { s.finish true true with inMulti := false, dirtyExec := false } else s)
  | _ => none

def stepUnwatch (s : Session) : Option Session :=
  match s.phase with
  | .idle => some { s with watched := [], firstWatch := [] }
  | _ => none

/-- `WATCH` outside `MULTI`: the epoch is read first. -/
def stepWatch (sh : Shared) (s : Session) (keys : List Bytes) : Option Session :=
  match s.phase with
  | .idle =>
    some (if s.inMulti || keys.isEmpty then s
      else { s with watchFlushEpoch := sh.registry.flushEpoch, phase := .watchBegin keys })
  | _ => none

def stepWatchBegin (sh : Shared) (s : Session) (ok : Bool) : Option Session :=
  match s.phase with
  | .watchBegin keys =>
    some { s with phase := .watchKeys (if ok then some sh.store else none) keys }
  | _ => none

/-- One key of `snapshot_and_watch`: its version now, its existence in the
snapshot. The key that is looked up is the lossy text of the public key. -/
def stepWatchKey (sh : Shared) (s : Session) (env : Nat → Tick) : Option Session :=
  match s.phase with
  | .watchKeys snapshot (k :: rest) =>
    let key := fromUtf8Lossy k
    let row := snapshot.bind fun st => st[key]?
    let existed := row.any fun r => !r.expired (env 0).now
    let s := s.recordWatch { key, version := sh.registry.getVersion key, existed }
    some { s with
      phase := .watchKeys snapshot rest
      firstWatch :=
        if s.firstWatch.any (·.1 == k) then s.firstWatch
        else (k, sh.log.length) :: s.firstWatch }
  | .watchKeys _ [] => some { s with phase := .idle }
  | _ => none

/-- `enqueue_command` of a command that is not one of the above. -/
def stepSubmit (s : Session) (c : Command) : Option Session :=
  match s.phase with
  | .idle =>
    let c := c.prepare (!s.inMulti)
    some (if s.inMulti then
        if c.info.abortInTx || !c.info.allowedInTx then { s with dirtyExec := true }
        else { s with queue := s.queue ++ [c] }
      else { s with queue := s.queue ++ [c] }.dispatch false c.isFlush)
  | _ => none

def stepExec (s : Session) : Option Session :=
  match s.phase with
  | .idle => some (if s.inMulti then { s with inMulti := false }.dispatch true false else s)
  | _ => none

/-! ### The dispatcher -/

def stepBegin (sh : Shared) (s : Session) (err : Option KvError) : Option (Shared × Session) :=
  match s.phase with
  | .begin d =>
    match err with
    | some _ => some (sh, s.finish d.batch false)
    | none =>
      let (tx, sh) := sh.begin d.isolation
      some (sh, if d.batch && !s.watched.isEmpty then { s with phase := .checkEpoch d tx }
        else s.nextOp d tx [])
  | _ => none

def stepCheckEpoch (sh : Shared) (s : Session) : Option Session :=
  match s.phase with
  | .checkEpoch d tx =>
    some (if sh.registry.flushEpoch = s.watchFlushEpoch then
        { s with phase := .checkKeys d tx s.watched }
      else s.finish d.batch true)
  | _ => none

/-- The keys of the map come in any order. -/
def stepCheckKey (sh : Shared) (s : Session) (key : Bytes) (env : Nat → Tick) : Option Session :=
  match s.phase with
  | .checkKeys d tx [] => some (s.nextOp d tx [])
  | .checkKeys d tx todo =>
    match todo.find? (·.key == key) with
    | none => none
    | some e =>
      let r := exec (TxProg.get key) env tx.txn
      let existsNow := (r.out.toOption.getD none).isSome
      some (if sh.registry.getVersion key = e.version && existsNow == e.existed then
          { s with phase := .checkKeys d (tx.withTxn r.txn) (todo.filter (·.key ≠ key)) }
        else s.finish d.batch true)
  | _ => none

def stepCommit (i : Nat) (sh : Shared) (s : Session) (err : Option KvError) :
    Option (Shared × Session) :=
  match s.phase with
  | .commit d tx outcomes =>
    let claims := outcomes.flatMap Outcome.claims
    match err with
    | none =>
      if sh.canCommit tx then
        let keys := s.changedKeys
        some (sh.commit i tx .batch (fun k => keys.contains (fromUtf8Lossy k))
            (if d.batch then s.firstWatch else []),
          { s with phase := .bump d sh.log.length outcomes })
      else none
    | some .conflict => some (sh, s.conflicted d claims)
    | some _ => some (sh, s.abandon d false claims)
  | _ => none

def stepBump (sh : Shared) (s : Session) : Option (Shared × Session) :=
  match s.phase with
  | .bump d n outcomes =>
    let registry := sh.registry.bumpVersions s.changedKeys
    some ({ sh with registry }.announce (fun m _ => m == n),
      { s with phase := .reply d (outcomes.flatMap Outcome.claims) })
  | _ => none

/-- The wire halves, one claim at a time. A flush that succeeded goes on to bump
the epoch. -/
def stepReply (sh : Shared) (s : Session) : Option (Shared × Session) :=
  match s.phase with
  | .reply d (c :: rest) => some (sh.wake c, { s with phase := .reply d rest })
  | .reply d [] =>
    let s := s.finish d.batch d.batch
    some (sh, if d.flush then { s with phase := .bumpEpoch } else s)
  | _ => none

def stepRelease (sh : Shared) (s : Session) : Option (Shared × Session) :=
  match s.phase with
  | .release (c :: rest) after => some (sh.releaseFront c, { s with phase := .release rest after })
  | .release [] .idle => some (sh, { s with phase := .idle })
  | .release [] (.retry d) => some (sh, { s with phase := .begin d })
  | _ => none

def stepBumpEpoch (i : Nat) (sh : Shared) (s : Session) : Option (Shared × Session) :=
  match s.phase with
  | .bumpEpoch =>
    some ({ sh with registry := sh.registry.bumpFlushEpoch }.announce
        (fun _ c => c.kind == CommitKind.flush && c.session == i),
      { s with phase := .idle })
  | _ => none

/-! ### The run of the current command -/

/-- `DbOp::run` up to the first point where it is not a single step. -/
def stepStart (i : Nat) (env : Nat → Tick) (sh : Shared) (s : Session) (r : OpRun) :
    Shared × Session :=
  match r.cmd.atomicOp?, r.cmd.firstStage? with
  | some op, _ =>
    let (out, tx, sh) := op.run i env r.tx sh
    (sh, s.complete { r with tx } out)
  | none, some stage => (sh, { s with phase := .ops r stage })
  | none, none => (sh, s)

/-- A script returns, raises, or issues a command through a fresh session, which
lets blocking commands block. -/
def stepScript (s : Session) (r : OpRun) (deferred : List Claim) : Script → Session
  | .done reply => s.complete r (.ok { reply, claims := deferred })
  | .fail msg =>
    let e := DbError.redis ("Error running script (new script): " ++ msg)
    { s with phase := .ops r (.giveBack deferred e) }
  | .call c next =>
    let frames := { cmd := r.cmd, next, deferred } :: r.frames
    { s with phase := .ops { r with cmd := c.prepare true, frames } .start }

/-- The read of one round of a blocking `XREAD`: the ids, resolved in the first
round, and what follows them. -/
def xreadRound (x : XReadLoop) :
    TxProg (List (Option Stream.StreamEntryId) × List (Bytes × List Stream.StreamEntry)) := do
  let ids ← match x.ids with
    | some ids => pure ids
    | none => Stream.resolveReadIds (x.op.streams.zip x.op.ids)
  return (ids, ← Stream.readStreams x.op.count (x.op.streams.zip ids))

/-- The registration of the current command is dropped when it ends. -/
def completeWaiting (s : Session) (sh : Shared) (w : Waiter) (r : OpRun) (out : Outcome) :
    Shared × Session :=
  ({ sh with registry := sh.registry.dropRegistration w }, s.complete r out)

/-- After the read of a round: entries or an error end the command, else the
session parks, or ends when its deadline has passed. -/
def stepXRead (env : Nat → Tick) (late : Bool) (sh : Shared) (s : Session) (r : OpRun)
    (x : XReadLoop) (w : Waiter) (snapshot : Store) : Option (Shared × Session) :=
  match (exec (xreadRound x) env { view := snapshot }).out with
  | .error e => some (s.completeWaiting sh w r (.error e))
  | .ok (ids, found) =>
    if late && x.op.timeout.isNone then none
    else if late || found.any (fun e => !e.2.isEmpty) then
      some (s.completeWaiting sh w r (.ok { reply := Stream.xreadReply found }))
    else
      let x := { x with ids := some ids, announced := true }
      some (sh, { s with phase := .ops r (.xreadParked x w) })

/-- The next piece of the current command's run. -/
def stepRun (i : Nat) (env : Nat → Tick) (sh : Shared) (s : Session) : Option (Shared × Session) :=
  match s.phase with
  | .ops r stage =>
    let goto (stage : Stage) : Session := { s with phase := .ops r stage }
    match stage with
    | .start => some (s.stepStart i env sh r)
    | .script sc deferred => some (sh, s.stepScript r deferred sc)
    | .wire (c :: rest) sc deferred => some (sh.wake c, goto (.wire rest sc deferred))
    | .wire [] sc deferred => some (sh, goto (.script sc deferred))
    | .giveBack (c :: rest) e => some (sh.releaseFront c, goto (.giveBack rest e))
    | .giveBack [] e => some (sh, s.complete r (.error e))
    | .bzpopPop op own =>
      let popped := StoreProg.exec (Zset.tryPop op.wantMin op.nodes) env own.txn
      match popped.out with
      | .error e => some (sh, s.complete r (.error e))
      | .ok none => some (sh, goto (.bzpopRegister op))
      | .ok (some p) => some (sh, goto (.bzpopCommit (own.withTxn popped.txn) p))
    | .bzpopRegister op =>
      let (w, registry) := sh.registry.register op.publicKeys (.pop op.wantMin)
      some ({ sh with registry }, goto (.bzpopParked op w))
    | .xreadRegister x =>
      let (w, registry) := sh.registry.register x.publicKeys .stream
      some ({ sh with registry }, goto (.xreadBegin x w))
    | .xreadRead x w snapshot => s.stepXRead env false sh r x w snapshot
    | _ => none
  | _ => none

def stepDeadline (env : Nat → Tick) (sh : Shared) (s : Session) : Option (Shared × Session) :=
  match s.phase with
  | .ops r (.xreadRead x w snapshot) => s.stepXRead env true sh r x w snapshot
  | _ => none

/-- The transaction that a blocking command opens for itself. -/
def stepBeginOwn (sh : Shared) (s : Session) (err : Option KvError) : Option (Shared × Session) :=
  match s.phase with
  | .ops r (.bzpopBegin op) =>
    match err with
    | some e => some (sh, s.complete r (.error (.kv e)))
    | none =>
      let (own, sh) := sh.begin .snapshot
      some (sh, { s with phase := .ops r (.bzpopPop op own) })
  | .ops r (.xreadBegin x w) =>
    match err with
    | some e => some (s.completeWaiting sh w r (.error (.kv e)))
    | none => some (sh, { s with phase := .ops r (.xreadRead x w sh.store) })
  | _ => none

/-- The commit of a blocking pop that found a member at once. No bump follows. -/
def stepCommitOwn (i : Nat) (sh : Shared) (s : Session) (err : Option KvError) :
    Option (Shared × Session) :=
  match s.phase with
  | .ops r (.bzpopCommit own result) =>
    match err with
    | some e => some (sh, s.complete r (.error (.kv e)))
    | none =>
      if sh.canCommit own then
        some (sh.commit i own .own (fun _ => false) [],
          s.complete r (.ok { reply := bzpopReply (some result) }))
      else none
  | _ => none

/-- `destroy` and `drop_prefix` remove rows piecemeal; what is written meanwhile
may stay. -/
def stepFlushRows (i : Nat) (sh : Shared) (s : Session) (removed : List Bytes) :
    Option (Shared × Session) :=
  match s.phase with
  | .ops _ (.flush (target :: _)) =>
    if removed.all target.matches then some (sh.flushRows i removed, s) else none
  | _ => none

def stepFlushNext (sh : Shared) (s : Session) (err : Option KvError) : Option (Shared × Session) :=
  match s.phase with
  | .ops r (.flush todo) =>
    match err, todo with
    | some e, _ :: _ => some (sh, s.complete r (.error (.kv e)))
    | none, _ :: rest => some (sh, { s with phase := .ops r (.flush rest) })
    | none, [] => some (sh, s.complete r (.ok { reply := .ok }))
    | some _, [] => none
  | _ => none

/-- What `Registration::wait` resolves to once the channel has a value or has lost
its sender. -/
def received (sh : Shared) (w : Waiter) : Option (Option BlockResult) :=
  match sh.registry.slots w.id with
  | none => none
  | some slot =>
    match slot.sent with
    | some r => some (some r)
    | none => if slot.sender then none else some none

/-- `block` hands on a pop result only. -/
def bzpopResult : Option BlockResult → Option PopResult
  | some (.pop p) => some p
  | _ => none

def stepReceive (sh : Shared) (s : Session) : Option (Shared × Session) :=
  match s.phase with
  | .ops r (.bzpopParked _ w) =>
    (received sh w).map fun got =>
      s.completeWaiting sh w r (.ok { reply := bzpopReply (bzpopResult got) })
  | .ops r (.xreadParked x w) =>
    (received sh w).map fun _ =>
      ({ sh with registry := sh.registry.dropRegistration w },
        { s with phase := .ops r (.xreadRegister x) })
  | _ => none

/-- The elapsed branch of `Registration::wait`. A waiter that is in no queue goes
on waiting for the writer that claimed it. -/
def stepTimeout (sh : Shared) (s : Session) : Option (Shared × Session) :=
  match s.phase with
  | .ops r (.bzpopParked op w) =>
    if op.timeout.isSome then
      let (removed, registry) := sh.registry.timeout w
      let sh := { sh with registry }
      some (if removed then s.completeWaiting sh w r (.ok { reply := bzpopReply none })
        else (sh, s))
    else none
  | .ops r (.xreadParked x w) =>
    if x.op.timeout.isSome then
      let (removed, registry) := sh.registry.timeout w
      some (if removed then
          ({ sh with registry := registry.dropRegistration w },
            { s with phase := .ops r (.xreadRegister x) })
        else ({ sh with registry }, s))
    else none
  | _ => none

/-- The client hangs up while its command waits: the registration goes with it.
Only a command that the client itself issued can be cancelled, and it is the only
op of its dispatch. -/
def stepHangUp (sh : Shared) (s : Session) : Option (Shared × Session) :=
  match s.phase with
  | .ops ⟨_, _, [], _, []⟩ stage =>
    stage.cancelled.map fun w =>
      ({ sh with registry := sh.registry.dropRegistration w }, { s with phase := .closed })
  | _ => none

def step (i : Nat) (env : Nat → Tick) (sh : Shared) (s : Session) :
    Action → Option (Shared × Session)
  | .multi => s.stepMulti.map (sh, ·)
  | .discard => s.stepDiscard.map (sh, ·)
  | .unwatch => s.stepUnwatch.map (sh, ·)
  | .watch keys => (s.stepWatch sh keys).map (sh, ·)
  | .watchBegin ok => (s.stepWatchBegin sh ok).map (sh, ·)
  | .watchKey => (s.stepWatchKey sh env).map (sh, ·)
  | .submit c => (s.stepSubmit c).map (sh, ·)
  | .exec => s.stepExec.map (sh, ·)
  | .begin err => s.stepBegin sh err
  | .checkEpoch => (s.stepCheckEpoch sh).map (sh, ·)
  | .checkKey key => (s.stepCheckKey sh key env).map (sh, ·)
  | .run => s.stepRun i env sh
  | .deadline => s.stepDeadline env sh
  | .beginOwn err => s.stepBeginOwn sh err
  | .commitOwn err => s.stepCommitOwn i sh err
  | .flushRows removed => s.stepFlushRows i sh removed
  | .flushNext err => s.stepFlushNext sh err
  | .receive => s.stepReceive sh
  | .timeout => s.stepTimeout sh
  | .hangUp => s.stepHangUp sh
  | .commit err => s.stepCommit i sh err
  | .bump => s.stepBump sh
  | .reply => s.stepReply sh
  | .release => s.stepRelease sh
  | .bumpEpoch => s.stepBumpEpoch i sh

end Session

/-! ## The machine -/

/-- The clock does not run backwards: a step reads times not before the latest
one read so far. -/
def Shared.observe (sh : Shared) (ticks : List Tick) : Option Shared :=
  if ticks.all fun t => decide (sh.clock ≤ t.now) then
    some { sh with clock := ticks.foldl (fun c t => max c t.now) sh.clock }
  else none

/-- The readings of a step, the last one repeated. -/
def readings (clock : Int) (ticks : List Tick) (n : Nat) : Tick :=
  ticks.getD n (ticks.getLastD { now := clock })

def World.sessionStep (i : Nat) (sh : Shared) (s : Session) (a : Action × List Tick) :
    Option (Shared × Session) :=
  (sh.observe a.2).bind fun sh' => s.step i (readings sh.clock a.2) sh' a.1

def World.step : World → Nat × Action × List Tick → Option World :=
  Interleaving.act World.sessionStep

/-- The states that runs reach when each step meets `ok` in the state before it. -/
def World.Reached (retryCount : Nat) (ok : World → Nat × Action × List Tick → Prop) :
    World → Prop :=
  Transition.Reach World.step ok (World.init retryCount)

/-! ## Pieces of runs

Without a look at the clock. -/

/-- `n` pieces of op run of session `i`. -/
def runs (i n : Nat) : List (Nat × Action × List Tick) := List.replicate n (i, .run, [])

/-- Session `i` issues a command and runs `n` pieces of it. -/
def issue (i : Nat) (c : Command) (n : Nat) : List (Nat × Action × List Tick) :=
  [(i, .submit c, []), (i, .begin none, [])] ++ runs i n

/-- The commit of session `i` and all that follows it, with `n` claims to wake. -/
def settle (i n : Nat) : List (Nat × Action × List Tick) :=
  [(i, .commit none, []), (i, .bump, [])] ++ List.replicate (n + 1) (i, .reply, [])

/-- Session `i` waits for a member of one of the `keys`, which are empty. -/
def parkBzpop (i : Nat) (keys : List Bytes) : List (Nat × Action × List Tick) :=
  issue i (.bzpop 0 keys none true) 1 ++ (i, .beginOwn none, []) :: runs i 2

/-- `ZADD z score member`. -/
def addToZ (score member : String) : Command :=
  .zadd 0 (ascii "z") [ascii score, ascii member]

def zKey : Bytes := publicKey 0 (ascii "z")

/-- `WATCH z` by session 1. -/
def watchZ : List (Nat × Action × List Tick) :=
  [(1, .watch [zKey], []), (1, .watchBegin true, []), (1, .watchKey, []), (1, .watchKey, [])]

end Invar
