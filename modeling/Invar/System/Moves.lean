import Invar.System.Step

/-!
# What a step can do

`Moves` lists the transitions of a session, each with the point it starts from,
its guard and its result; `moves_of_step` is the inversion lemma of the machine.
Invariants are proved by cases on it.
-/

namespace Invar

open StoreProg

open Session

/-- `Moves i env sh s a sh' s'`: by action `a` session `i` can go from `s` to `s'`,
taking the shared state from `sh` to `sh'`. -/
inductive Moves (i : Nat) (env : Nat → Tick) (sh : Shared) (s : Session) :
    Action → Shared → Session → Prop
  -- commands of the client
  | refused (a : Action) (h : s.phase = .idle) : Moves i env sh s a sh s
  | multi (h : s.phase = .idle) :
      Moves i env sh s .multi sh { s with inMulti := true, dirtyExec := false }
  | discard (h : s.phase = .idle) :
      Moves i env sh s .discard sh { s.finish true true with inMulti := false, dirtyExec := false }
  | unwatch (h : s.phase = .idle) :
      Moves i env sh s .unwatch sh { s with watched := [], firstWatch := [] }
  | watch (keys : List Bytes) (h : s.phase = .idle) (hm : s.inMulti = false) :
      Moves i env sh s (.watch keys) sh
        { s with watchFlushEpoch := sh.registry.flushEpoch, phase := .watchBegin keys }
  | watchBegin (ok : Bool) (keys : List Bytes) (snapshot : Option Store)
      (h : s.phase = .watchBegin keys) :
      Moves i env sh s (.watchBegin ok) sh { s with phase := .watchKeys snapshot keys }
  | watchKey (snapshot : Option Store) (k : Bytes) (rest : List Bytes) (existed : Bool)
      (h : s.phase = .watchKeys snapshot (k :: rest)) :
      Moves i env sh s .watchKey sh
        { s.recordWatch ⟨fromUtf8Lossy k, sh.registry.getVersion (fromUtf8Lossy k), existed⟩ with
          phase := .watchKeys snapshot rest
          firstWatch :=
            if s.firstWatch.any (·.1 == k) then s.firstWatch
            else (k, sh.log.length) :: s.firstWatch }
  | watched (snapshot : Option Store) (h : s.phase = .watchKeys snapshot []) :
      Moves i env sh s .watchKey sh { s with phase := .idle }
  | spoiled (c : Command) (h : s.phase = .idle) (hm : s.inMulti = true) :
      Moves i env sh s (.submit c) sh { s with dirtyExec := true }
  | queued (c : Command) (h : s.phase = .idle) (hm : s.inMulti = true) :
      Moves i env sh s (.submit c) sh { s with queue := s.queue ++ [c.prepare false] }
  | submit (c : Command) (h : s.phase = .idle) (hm : s.inMulti = false) :
      Moves i env sh s (.submit c) sh
        ({ s with queue := s.queue ++ [c.prepare true] }.dispatch false (c.prepare true).isFlush)
  | exec (h : s.phase = .idle) (hm : s.inMulti = true) :
      Moves i env sh s .exec sh ({ s with inMulti := false }.dispatch true false)
  -- the dispatcher
  | beginFailed (d : Dispatch) (e : KvError) (h : s.phase = .begin d) :
      Moves i env sh s (.begin (some e)) sh (s.finish d.batch false)
  | beginWatched (d : Dispatch) (h : s.phase = .begin d) (hb : d.batch = true)
      (hw : s.watched ≠ []) :
      Moves i env sh s (.begin none) (sh.begin d.isolation).2
        { s with phase := .checkEpoch d (sh.begin d.isolation).1 }
  | begin (d : Dispatch) (h : s.phase = .begin d) (hw : d.batch = true → s.watched = []) :
      Moves i env sh s (.begin none) (sh.begin d.isolation).2
        (s.nextOp d (sh.begin d.isolation).1 [])
  | epochChanged (d : Dispatch) (tx : Tx) (h : s.phase = .checkEpoch d tx) :
      Moves i env sh s .checkEpoch sh (s.finish d.batch true)
  | epochKept (d : Dispatch) (tx : Tx) (h : s.phase = .checkEpoch d tx)
      (he : sh.registry.flushEpoch = s.watchFlushEpoch) :
      Moves i env sh s .checkEpoch sh { s with phase := .checkKeys d tx s.watched }
  | keyChanged (d : Dispatch) (tx : Tx) (todo : List WatchedKey) (key : Bytes)
      (h : s.phase = .checkKeys d tx todo) :
      Moves i env sh s (.checkKey key) sh (s.finish d.batch true)
  | keyKept (d : Dispatch) (tx : Tx) (todo : List WatchedKey) (e : WatchedKey)
      (h : s.phase = .checkKeys d tx todo) (he : e ∈ todo)
      (hv : sh.registry.getVersion e.key = e.version) :
      Moves i env sh s (.checkKey e.key) sh
        { s with
          phase := .checkKeys d
            (tx.withTxn (StoreProg.exec (TxProg.get e.key) env tx.txn).txn)
            (todo.filter (·.key ≠ e.key)) }
  | keysChecked (d : Dispatch) (tx : Tx) (key : Bytes) (h : s.phase = .checkKeys d tx []) :
      Moves i env sh s (.checkKey key) sh (s.nextOp d tx [])
  | commit (d : Dispatch) (tx : Tx) (outcomes : List Outcome) (h : s.phase = .commit d tx outcomes)
      (hc : sh.canCommit tx = true) :
      Moves i env sh s (.commit none)
        (sh.commit i tx .batch (fun k => s.changedKeys.contains (fromUtf8Lossy k))
          (if d.batch then s.firstWatch else []))
        { s with phase := .bump d sh.log.length outcomes }
  | commitConflict (d : Dispatch) (tx : Tx) (outcomes : List Outcome)
      (h : s.phase = .commit d tx outcomes) :
      Moves i env sh s (.commit (some .conflict)) sh
        (s.conflicted d (outcomes.flatMap Outcome.claims))
  | commitFailed (d : Dispatch) (tx : Tx) (outcomes : List Outcome) (e : KvError)
      (h : s.phase = .commit d tx outcomes) (he : e ≠ .conflict) :
      Moves i env sh s (.commit (some e)) sh (s.abandon d false (outcomes.flatMap Outcome.claims))
  | bump (d : Dispatch) (n : Nat) (outcomes : List Outcome) (h : s.phase = .bump d n outcomes) :
      Moves i env sh s .bump
        ({ sh with registry := sh.registry.bumpVersions s.changedKeys }.announce
          (fun m _ => m == n))
        { s with phase := .reply d (outcomes.flatMap Outcome.claims) }
  | wake (d : Dispatch) (c : Claim) (rest : List Claim) (h : s.phase = .reply d (c :: rest)) :
      Moves i env sh s .reply (sh.wake c) { s with phase := .reply d rest }
  | replied (d : Dispatch) (h : s.phase = .reply d []) (hf : d.flush = false) :
      Moves i env sh s .reply sh (s.finish d.batch d.batch)
  | repliedFlush (d : Dispatch) (h : s.phase = .reply d []) (hf : d.flush = true) :
      Moves i env sh s .reply sh { s.finish d.batch d.batch with phase := .bumpEpoch }
  | release (c : Claim) (rest : List Claim) (after : AfterRelease)
      (h : s.phase = .release (c :: rest) after) :
      Moves i env sh s .release (sh.releaseFront c) { s with phase := .release rest after }
  | released (h : s.phase = .release [] .idle) :
      Moves i env sh s .release sh { s with phase := .idle }
  | retry (d : Dispatch) (h : s.phase = .release [] (.retry d)) :
      Moves i env sh s .release sh { s with phase := .begin d }
  | bumpEpoch (h : s.phase = .bumpEpoch) :
      Moves i env sh s .bumpEpoch
        ({ sh with registry := sh.registry.bumpFlushEpoch }.announce
          (fun _ c => c.kind == CommitKind.flush && c.session == i))
        { s with phase := .idle }
  -- the run of the current command
  | atomic (r : OpRun) (op : AtomicOp) (h : s.phase = .ops r .start)
      (hop : r.cmd.atomicOp? = some op) :
      Moves i env sh s .run (op.run i env r.tx sh).2.2
        (s.complete { r with tx := (op.run i env r.tx sh).2.1 } (op.run i env r.tx sh).1)
  | enter (r : OpRun) (stage : Stage) (h : s.phase = .ops r .start)
      (hst : r.cmd.firstStage? = some stage) :
      Moves i env sh s .run sh { s with phase := .ops r stage }
  | scriptDone (r : OpRun) (reply : RespValue) (deferred : List Claim)
      (h : s.phase = .ops r (.script (.done reply) deferred)) :
      Moves i env sh s .run sh (s.complete r (.ok { reply, claims := deferred }))
  | scriptFail (r : OpRun) (msg : String) (deferred : List Claim) (e : DbError)
      (h : s.phase = .ops r (.script (.fail msg) deferred))
      (he : e = .redis ("Error running script (new script): " ++ msg)) :
      Moves i env sh s .run sh { s with phase := .ops r (.giveBack deferred e) }
  | scriptCall (r : OpRun) (c : Command) (next : RespValue → Script) (deferred : List Claim)
      (h : s.phase = .ops r (.script (.call c next) deferred)) :
      Moves i env sh s .run sh
        { s with
          phase := .ops
            { r with cmd := c.prepare true, frames := ⟨r.cmd, next, deferred⟩ :: r.frames } .start }
  | wireWake (r : OpRun) (c : Claim) (rest : List Claim) (sc : Script) (deferred : List Claim)
      (h : s.phase = .ops r (.wire (c :: rest) sc deferred)) :
      Moves i env sh s .run (sh.wake c) { s with phase := .ops r (.wire rest sc deferred) }
  | wireDone (r : OpRun) (sc : Script) (deferred : List Claim)
      (h : s.phase = .ops r (.wire [] sc deferred)) :
      Moves i env sh s .run sh { s with phase := .ops r (.script sc deferred) }
  | giveBack (r : OpRun) (c : Claim) (rest : List Claim) (e : DbError)
      (h : s.phase = .ops r (.giveBack (c :: rest) e)) :
      Moves i env sh s .run (sh.releaseFront c) { s with phase := .ops r (.giveBack rest e) }
  | gaveBack (r : OpRun) (e : DbError) (h : s.phase = .ops r (.giveBack [] e)) :
      Moves i env sh s .run sh (s.complete r (.error e))
  -- blocking pops
  | bzpopBeginFailed (r : OpRun) (op : BzpopOp) (e : KvError)
      (h : s.phase = .ops r (.bzpopBegin op)) :
      Moves i env sh s (.beginOwn (some e)) sh (s.complete r (.error (.kv e)))
  | bzpopBegin (r : OpRun) (op : BzpopOp) (h : s.phase = .ops r (.bzpopBegin op)) :
      Moves i env sh s (.beginOwn none) (sh.begin .snapshot).2
        { s with phase := .ops r (.bzpopPop op (sh.begin .snapshot).1) }
  | bzpopError (r : OpRun) (op : BzpopOp) (own : Tx) (e : DbError)
      (h : s.phase = .ops r (.bzpopPop op own)) :
      Moves i env sh s .run sh (s.complete r (.error e))
  | bzpopEmpty (r : OpRun) (op : BzpopOp) (own : Tx) (h : s.phase = .ops r (.bzpopPop op own)) :
      Moves i env sh s .run sh { s with phase := .ops r (.bzpopRegister op) }
  | bzpopFound (r : OpRun) (op : BzpopOp) (own : Tx) (p : PopResult)
      (h : s.phase = .ops r (.bzpopPop op own)) :
      Moves i env sh s .run sh
        { s with
          phase := .ops r (.bzpopCommit
            (own.withTxn (StoreProg.exec (Zset.tryPop op.wantMin op.nodes) env own.txn).txn) p) }
  | bzpopCommit (r : OpRun) (own : Tx) (p : PopResult) (h : s.phase = .ops r (.bzpopCommit own p))
      (hc : sh.canCommit own = true) :
      Moves i env sh s (.commitOwn none) (sh.commit i own .own (fun _ => false) [])
        (s.complete r (.ok { reply := bzpopReply (some p) }))
  | bzpopCommitFailed (r : OpRun) (own : Tx) (p : PopResult) (e : KvError)
      (h : s.phase = .ops r (.bzpopCommit own p)) :
      Moves i env sh s (.commitOwn (some e)) sh (s.complete r (.error (.kv e)))
  | bzpopRegister (r : OpRun) (op : BzpopOp) (h : s.phase = .ops r (.bzpopRegister op)) :
      Moves i env sh s .run
        { sh with registry := (sh.registry.register op.publicKeys (.pop op.wantMin)).2 }
        { s with
          phase := .ops r (.bzpopParked op
            (sh.registry.register op.publicKeys (.pop op.wantMin)).1) }
  | bzpopReceive (r : OpRun) (op : BzpopOp) (w : Waiter) (got : Option BlockResult)
      (h : s.phase = .ops r (.bzpopParked op w)) (hr : received sh w = some got) :
      Moves i env sh s .receive { sh with registry := sh.registry.dropRegistration w }
        (s.complete r (.ok { reply := bzpopReply (bzpopResult got) }))
  | bzpopTimeout (r : OpRun) (op : BzpopOp) (w : Waiter)
      (h : s.phase = .ops r (.bzpopParked op w)) (hr : (sh.registry.timeout w).1 = true) :
      Moves i env sh s .timeout
        { sh with registry := (sh.registry.timeout w).2.dropRegistration w }
        (s.complete r (.ok { reply := bzpopReply none }))
  | bzpopTimeoutClaimed (r : OpRun) (op : BzpopOp) (w : Waiter)
      (h : s.phase = .ops r (.bzpopParked op w)) (hr : (sh.registry.timeout w).1 = false) :
      Moves i env sh s .timeout { sh with registry := (sh.registry.timeout w).2 } s
  -- blocking reads
  | xreadRegister (r : OpRun) (x : XReadLoop) (h : s.phase = .ops r (.xreadRegister x)) :
      Moves i env sh s .run
        { sh with registry := (sh.registry.register x.publicKeys .stream).2 }
        { s with
          phase := .ops r (.xreadBegin x (sh.registry.register x.publicKeys .stream).1) }
  | xreadBegin (r : OpRun) (x : XReadLoop) (w : Waiter) (h : s.phase = .ops r (.xreadBegin x w)) :
      Moves i env sh s (.beginOwn none) sh { s with phase := .ops r (.xreadRead x w sh.store) }
  | xreadEnd (a : Action) (r : OpRun) (stage : Stage) (w : Waiter) (out : Outcome)
      (h : s.phase = .ops r stage)
      (hs : (∃ x, stage = .xreadBegin x w) ∨ ∃ x snapshot, stage = .xreadRead x w snapshot)
      (hr : out.claims = []) :
      Moves i env sh s a { sh with registry := sh.registry.dropRegistration w } (s.complete r out)
  | xreadPark (r : OpRun) (x : XReadLoop) (w : Waiter) (snapshot : Store)
      (ids : List (Option Stream.StreamEntryId)) (found : List (Bytes × List Stream.StreamEntry))
      (h : s.phase = .ops r (.xreadRead x w snapshot))
      (hr : (StoreProg.exec (xreadRound x) env { view := snapshot }).out = .ok (ids, found))
      (hf : found.any (fun e => !e.2.isEmpty) = false) :
      Moves i env sh s .run sh
        { s with phase := .ops r (.xreadParked { x with ids := some ids, announced := true } w) }
  | xreadAgain (r : OpRun) (x : XReadLoop) (w : Waiter) (h : s.phase = .ops r (.xreadParked x w))
      (hr : (received sh w).isSome = true) :
      Moves i env sh s .receive { sh with registry := sh.registry.dropRegistration w }
        { s with phase := .ops r (.xreadRegister x) }
  | xreadTimeout (r : OpRun) (x : XReadLoop) (w : Waiter)
      (h : s.phase = .ops r (.xreadParked x w)) (hr : (sh.registry.timeout w).1 = true) :
      Moves i env sh s .timeout
        { sh with registry := (sh.registry.timeout w).2.dropRegistration w }
        { s with phase := .ops r (.xreadRegister x) }
  | xreadTimeoutClaimed (r : OpRun) (x : XReadLoop) (w : Waiter)
      (h : s.phase = .ops r (.xreadParked x w)) (hr : (sh.registry.timeout w).1 = false) :
      Moves i env sh s .timeout { sh with registry := (sh.registry.timeout w).2 } s
  | hangUp (r : OpRun) (stage : Stage) (w : Waiter) (h : s.phase = .ops r stage)
      (ho : r.outcomes = []) (hf : r.frames = []) (hs : stage.cancelled = some w) :
      Moves i env sh s .hangUp { sh with registry := sh.registry.dropRegistration w }
        { s with phase := .closed }
  -- flushes
  | flushRows (r : OpRun) (todo : List FlushTarget) (removed : List Bytes)
      (h : s.phase = .ops r (.flush todo)) :
      Moves i env sh s (.flushRows removed) (sh.flushRows i removed) s
  | flushNext (r : OpRun) (todo rest : List FlushTarget) (h : s.phase = .ops r (.flush todo)) :
      Moves i env sh s (.flushNext none) sh { s with phase := .ops r (.flush rest) }
  | flushEnd (err : Option KvError) (r : OpRun) (todo : List FlushTarget) (out : Outcome)
      (h : s.phase = .ops r (.flush todo)) (hr : out.claims = [])
      (he : ∀ e, out = .error e → ∃ k, err = some k ∧ e = .kv k) :
      Moves i env sh s (.flushNext err) sh (s.complete r out)

/-! ## Inversion, action by action -/

section

variable {i : Nat} {env : Nat → Tick} {sh sh' : Shared} {s s' : Session}

theorem Command.firstStage_of_atomicOp_none {cmd : Command} (h : cmd.atomicOp? = none) :
    ∃ stage, cmd.firstStage? = some stage := by
  obtain ⟨info, body⟩ := cmd
  match body with
  | .atomic op => simp [Command.atomicOp?, Command.body] at h
  | .bzpop op true => exact ⟨_, rfl⟩
  | .bzpop op false => simp [Command.atomicOp?, Command.body] at h
  | .xread op true => exact ⟨_, rfl⟩
  | .xread op false => simp [Command.atomicOp?, Command.body] at h
  | .flush targets => exact ⟨_, rfl⟩
  | .eval script => exact ⟨_, rfl⟩

theorem moves_of_client (a : Action) (ha : a = .multi ∨ a = .discard ∨ a = .unwatch ∨
      (∃ ks, a = .watch ks) ∨ (∃ ok, a = .watchBegin ok) ∨ a = .watchKey ∨
      (∃ c, a = .submit c) ∨ a = .exec)
    (h : s.step i env sh a = some (sh', s')) : Moves i env sh s a sh' s' := by
  rcases ha with rfl | rfl | rfl | ⟨ks, rfl⟩ | ⟨ok, rfl⟩ | rfl | ⟨c, rfl⟩ | rfl <;>
    simp only [step, Option.map_eq_some_iff, Prod.mk.injEq] at h <;>
    obtain ⟨t, ht, rfl, rfl⟩ := h
  · unfold stepMulti at ht
    split at ht <;> simp only [Option.some.injEq, reduceCtorEq] at ht
    subst ht
    split
    · exact .refused _ ‹_›
    · exact .multi ‹_›
  · unfold stepDiscard at ht
    split at ht <;> simp only [Option.some.injEq, reduceCtorEq] at ht
    subst ht
    split
    · exact .discard ‹_›
    · exact .refused _ ‹_›
  · unfold stepUnwatch at ht
    split at ht <;> simp only [Option.some.injEq, reduceCtorEq] at ht
    subst ht
    exact .unwatch ‹_›
  · unfold stepWatch at ht
    split at ht <;> simp only [Option.some.injEq, reduceCtorEq] at ht
    subst ht
    split
    · exact .refused _ ‹_›
    · rename_i hm
      simp only [Bool.or_eq_true, not_or, Bool.not_eq_true] at hm
      exact .watch _ ‹_› hm.1
  · unfold stepWatchBegin at ht
    split at ht <;> simp only [Option.some.injEq, reduceCtorEq] at ht
    subst ht
    exact .watchBegin _ _ _ ‹_›
  · unfold stepWatchKey at ht
    split at ht <;> simp only [Option.some.injEq, reduceCtorEq] at ht
    · subst ht
      exact .watchKey _ _ _ _ ‹_›
    · subst ht
      exact .watched _ ‹_›
  · unfold stepSubmit at ht
    split at ht <;> simp only [Option.some.injEq, reduceCtorEq] at ht
    subst ht
    split
    · rename_i hm
      split
      · exact .spoiled _ ‹_› hm
      · simpa [hm] using Moves.queued c ‹_› hm
    · rename_i hm
      simp only [Bool.not_eq_true] at hm
      simpa [hm] using Moves.submit c ‹_› hm
  · unfold stepExec at ht
    split at ht <;> simp only [Option.some.injEq, reduceCtorEq] at ht
    subst ht
    split
    · exact .exec ‹_› ‹_›
    · exact .refused _ ‹_›

variable {err : Option KvError} {r : OpRun} {a : Action}

theorem moves_of_begin (h : s.stepBegin sh err = some (sh', s')) :
    Moves i env sh s (.begin err) sh' s' := by
  unfold stepBegin at h
  split at h
  · rename_i d hp
    split at h <;> simp only [Option.some.injEq, Prod.mk.injEq] at h <;> obtain ⟨rfl, rfl⟩ := h
    · exact .beginFailed d _ hp
    · split
      · rename_i hw
        simp only [Bool.and_eq_true, Bool.not_eq_true', List.isEmpty_eq_false_iff] at hw
        exact .beginWatched d hp hw.1 hw.2
      · rename_i hw
        refine .begin d hp fun hb => ?_
        simpa [hb] using hw
  · cases h

theorem moves_of_checkEpoch (h : s.stepCheckEpoch sh = some s') :
    Moves i env sh s .checkEpoch sh s' := by
  unfold stepCheckEpoch at h
  split at h
  · rename_i d tx hp
    cases h
    split
    · exact .epochKept d tx hp ‹_›
    · exact .epochChanged d tx hp
  · cases h

theorem moves_of_checkKey {key : Bytes} (h : s.stepCheckKey sh key env = some s') :
    Moves i env sh s (.checkKey key) sh s' := by
  unfold stepCheckKey at h
  split at h
  · rename_i d tx hp
    simp only [Option.some.injEq] at h
    exact h ▸ .keysChecked d tx key hp
  · rename_i d tx todo _ hp
    split at h
    · cases h
    · rename_i e he
      cases h
      have hkey : e.key = key := by simpa using List.find?_some he
      split
      · rename_i hv
        simp only [Bool.and_eq_true, decide_eq_true_eq] at hv
        subst hkey
        exact .keyKept d tx todo e hp (List.mem_of_find?_eq_some he) hv.1
      · exact .keyChanged d tx todo key hp
  · cases h

theorem moves_of_commit (h : s.stepCommit i sh err = some (sh', s')) :
    Moves i env sh s (.commit err) sh' s' := by
  unfold stepCommit at h
  split at h
  · rename_i d tx outcomes hp
    split at h
    · split at h
      · cases h
        exact .commit d tx outcomes hp ‹_›
      · cases h
    · cases h
      exact .commitConflict d tx outcomes hp
    · cases h
      refine .commitFailed d tx outcomes _ hp ?_
      rintro rfl
      contradiction
  · cases h

theorem moves_of_bump (h : s.stepBump sh = some (sh', s')) : Moves i env sh s .bump sh' s' := by
  unfold stepBump at h
  split at h
  · rename_i d n outcomes hp
    cases h
    exact .bump d n outcomes hp
  · cases h

theorem moves_of_reply (h : s.stepReply sh = some (sh', s')) : Moves i env sh s .reply sh' s' := by
  unfold stepReply at h
  split at h
  · rename_i d c rest hp
    cases h
    exact .wake d c rest hp
  · rename_i d hp
    cases h
    split
    · exact .repliedFlush d hp ‹_›
    · exact .replied d hp (by simpa using ‹¬d.flush = true›)
  · cases h

theorem moves_of_release (h : s.stepRelease sh = some (sh', s')) :
    Moves i env sh s .release sh' s' := by
  unfold stepRelease at h
  split at h
  · rename_i c rest after hp
    cases h
    exact .release c rest after hp
  · rename_i hp
    cases h
    exact .released hp
  · rename_i d hp
    cases h
    exact .retry d hp
  · cases h

theorem moves_of_bumpEpoch (h : s.stepBumpEpoch i sh = some (sh', s')) :
    Moves i env sh s .bumpEpoch sh' s' := by
  unfold stepBumpEpoch at h
  split at h
  · cases h
    exact .bumpEpoch ‹_›
  · cases h

/-! ### The run of the current command -/

theorem moves_of_start (hp : s.phase = .ops r .start) :
    Moves i env sh s .run (s.stepStart i env sh r).1 (s.stepStart i env sh r).2 := by
  unfold stepStart
  split
  · rename_i op hop
    exact .atomic r op hp hop
  · rename_i stage _ hst
    exact .enter r stage hp hst
  · rename_i hop hst
    obtain ⟨stage, hstage⟩ := Command.firstStage_of_atomicOp_none hop
    rw [hst] at hstage
    cases hstage

theorem moves_of_script {sc : Script} {deferred : List Claim}
    (hp : s.phase = .ops r (.script sc deferred)) :
    Moves i env sh s .run sh (s.stepScript r deferred sc) := by
  cases sc with
  | done reply => exact .scriptDone r reply deferred hp
  | fail msg => exact .scriptFail r msg deferred _ hp rfl
  | call c next => exact .scriptCall r c next deferred hp

theorem moves_of_xread {late : Bool} (ha : late = false → a = .run)
    {x : XReadLoop} {w : Waiter} {snapshot : Store}
      (hp : s.phase = .ops r (.xreadRead x w snapshot))
    (h : s.stepXRead env late sh r x w snapshot = some (sh', s')) : Moves i env sh s a sh' s' := by
  unfold stepXRead at h
  split at h
  · simp only [completeWaiting, Option.some.injEq, Prod.mk.injEq] at h
    obtain ⟨rfl, rfl⟩ := h
    exact .xreadEnd a r _ w _ hp (.inr ⟨x, snapshot, rfl⟩) rfl
  · rename_i ids found hr
    split at h
    · cases h
    · split at h
      · simp only [completeWaiting, Option.some.injEq, Prod.mk.injEq] at h
        obtain ⟨rfl, rfl⟩ := h
        exact .xreadEnd a r _ w _ hp (.inr ⟨x, snapshot, rfl⟩) rfl
      · rename_i hlate
        simp only [Bool.or_eq_true, not_or, Bool.not_eq_true] at hlate
        cases h
        rw [ha hlate.1]
        exact .xreadPark r x w snapshot ids found hp hr hlate.2

theorem moves_of_run (h : s.stepRun i env sh = some (sh', s')) : Moves i env sh s .run sh' s' := by
  unfold stepRun at h
  split at h
  · rename_i r stage hp
    cases stage with
    | start =>
      simp only [Option.some.injEq, Prod.ext_iff] at h
      obtain ⟨rfl, rfl⟩ := h
      exact moves_of_start hp
    | script sc deferred =>
      cases h
      exact moves_of_script hp
    | wire claims sc deferred =>
      cases claims <;> simp only [Option.some.injEq, Prod.mk.injEq] at h <;>
        obtain ⟨rfl, rfl⟩ := h
      · exact .wireDone r sc deferred hp
      · exact .wireWake r _ _ sc deferred hp
    | giveBack claims e =>
      cases claims <;> simp only [Option.some.injEq, Prod.mk.injEq] at h <;>
        obtain ⟨rfl, rfl⟩ := h
      · exact .gaveBack r e hp
      · exact .giveBack r _ _ e hp
    | bzpopPop op own =>
      simp only at h
      split at h <;> simp only [Option.some.injEq, Prod.mk.injEq] at h <;> obtain ⟨rfl, rfl⟩ := h
      · exact .bzpopError r op own _ hp
      · exact .bzpopEmpty r op own hp
      · exact .bzpopFound r op own _ hp
    | bzpopRegister op =>
      cases h
      exact .bzpopRegister r op hp
    | xreadRegister x =>
      cases h
      exact .xreadRegister r x hp
    | xreadRead x w snapshot => exact moves_of_xread (fun _ => rfl) hp h
    | _ => cases h
  · cases h

theorem moves_of_deadline (h : s.stepDeadline env sh = some (sh', s')) :
    Moves i env sh s .deadline sh' s' := by
  unfold stepDeadline at h
  split at h
  · exact moves_of_xread (by simp) ‹_› h
  · cases h

theorem moves_of_beginOwn (h : s.stepBeginOwn sh err = some (sh', s')) :
    Moves i env sh s (.beginOwn err) sh' s' := by
  unfold stepBeginOwn at h
  split at h
  · rename_i r op hp
    split at h <;> simp only [Option.some.injEq, Prod.mk.injEq] at h <;> obtain ⟨rfl, rfl⟩ := h
    · exact .bzpopBeginFailed r op _ hp
    · exact .bzpopBegin r op hp
  · rename_i r x w hp
    split at h <;> simp only [completeWaiting, Option.some.injEq, Prod.mk.injEq] at h <;>
      obtain ⟨rfl, rfl⟩ := h
    · exact .xreadEnd _ r _ w _ hp (.inl ⟨x, rfl⟩) rfl
    · exact .xreadBegin r x w hp
  · cases h

theorem moves_of_commitOwn (h : s.stepCommitOwn i sh err = some (sh', s')) :
    Moves i env sh s (.commitOwn err) sh' s' := by
  unfold stepCommitOwn at h
  split at h
  · rename_i r own p hp
    split at h
    · cases h
      exact .bzpopCommitFailed r own p _ hp
    · split at h
      · cases h
        exact .bzpopCommit r own p hp ‹_›
      · cases h
  · cases h

theorem moves_of_flushRows {removed : List Bytes}
    (h : s.stepFlushRows i sh removed = some (sh', s')) :
    Moves i env sh s (.flushRows removed) sh' s' := by
  unfold stepFlushRows at h
  split at h
  · split at h
    · cases h
      exact .flushRows _ _ removed ‹_›
    · cases h
  · cases h

theorem moves_of_flushNext (h : s.stepFlushNext sh err = some (sh', s')) :
    Moves i env sh s (.flushNext err) sh' s' := by
  unfold stepFlushNext at h
  split at h
  · rename_i r todo hp
    split at h <;> simp only [Option.some.injEq, Prod.mk.injEq, reduceCtorEq] at h <;>
      obtain ⟨rfl, rfl⟩ := h
    · refine .flushEnd _ r _ _ hp rfl fun e he => ?_
      cases he
      exact ⟨_, rfl, rfl⟩
    · exact .flushNext r _ _ hp
    · exact .flushEnd _ r _ _ hp rfl fun e he => nomatch he
  · cases h

theorem moves_of_receive (h : s.stepReceive sh = some (sh', s')) :
    Moves i env sh s .receive sh' s' := by
  unfold stepReceive at h
  split at h
  · rename_i r op w hp
    simp only [completeWaiting, Option.map_eq_some_iff, Prod.mk.injEq] at h
    obtain ⟨got, hgot, rfl, rfl⟩ := h
    exact .bzpopReceive r op w got hp hgot
  · rename_i r x w hp
    simp only [Option.map_eq_some_iff, Prod.mk.injEq] at h
    obtain ⟨got, hgot, rfl, rfl⟩ := h
    exact .xreadAgain r x w hp (by rw [hgot]; rfl)
  · cases h

theorem moves_of_timeout (h : s.stepTimeout sh = some (sh', s')) :
    Moves i env sh s .timeout sh' s' := by
  unfold stepTimeout at h
  split at h
  · rename_i r op w hp
    split at h
    · simp only [Option.some.injEq] at h
      split at h <;> simp only [completeWaiting, Prod.mk.injEq] at h <;> obtain ⟨rfl, rfl⟩ := h
      · exact .bzpopTimeout r op w hp ‹_›
      · exact .bzpopTimeoutClaimed r op w hp (eq_false_of_ne_true ‹_›)
    · cases h
  · rename_i r x w hp
    split at h
    · simp only [Option.some.injEq] at h
      split at h <;> simp only [Prod.mk.injEq] at h <;> obtain ⟨rfl, rfl⟩ := h
      · exact .xreadTimeout r x w hp ‹_›
      · exact .xreadTimeoutClaimed r x w hp (eq_false_of_ne_true ‹_›)
    · cases h
  · cases h

theorem moves_of_hangUp (h : s.stepHangUp sh = some (sh', s')) :
    Moves i env sh s .hangUp sh' s' := by
  unfold stepHangUp at h
  split at h
  · rename_i d tx cmd stage hp
    simp only [Option.map_eq_some_iff, Prod.mk.injEq] at h
    obtain ⟨w, hw, rfl, rfl⟩ := h
    exact .hangUp _ stage w hp rfl rfl hw
  · cases h

/-- **The inversion lemma of the machine.** -/
theorem moves_of_step (h : s.step i env sh a = some (sh', s')) : Moves i env sh s a sh' s' := by
  cases a with
  | begin err => exact moves_of_begin h
  | checkEpoch =>
    simp only [step, Option.map_eq_some_iff, Prod.mk.injEq] at h
    obtain ⟨t, ht, rfl, rfl⟩ := h
    exact moves_of_checkEpoch ht
  | checkKey key =>
    simp only [step, Option.map_eq_some_iff, Prod.mk.injEq] at h
    obtain ⟨t, ht, rfl, rfl⟩ := h
    exact moves_of_checkKey ht
  | run => exact moves_of_run h
  | deadline => exact moves_of_deadline h
  | beginOwn err => exact moves_of_beginOwn h
  | commitOwn err => exact moves_of_commitOwn h
  | flushRows removed => exact moves_of_flushRows h
  | flushNext err => exact moves_of_flushNext h
  | receive => exact moves_of_receive h
  | timeout => exact moves_of_timeout h
  | hangUp => exact moves_of_hangUp h
  | commit err => exact moves_of_commit h
  | bump => exact moves_of_bump h
  | reply => exact moves_of_reply h
  | release => exact moves_of_release h
  | bumpEpoch => exact moves_of_bumpEpoch h
  | _ => exact moves_of_client _ (by simp) h

end

end Invar
