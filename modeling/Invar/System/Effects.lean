import Invar.System.Moves

/-!
# How moves change the log and the phase

Facts that every invariant of the machine uses: commits are never lost and
change only by being announced, what the run of one op can do to its transaction,
and where a session can be after the current command has run.
-/

namespace Invar

open StoreProg Session

/-! ## The log -/

/-- `c'` is `c`, announced perhaps since. -/
structure Commit.Later (c c' : Commit) : Prop where
  eq : c' = { c with announced := c'.announced }
  announced : c.announced = true → c'.announced = true

namespace Commit.Later

variable {c c' c'' : Commit}

theorem refl (c : Commit) : c.Later c := ⟨rfl, id⟩

theorem session (h : c.Later c') : c'.session = c.session := by rw [h.eq]
theorem tx (h : c.Later c') : c'.tx = c.tx := by rw [h.eq]
theorem start (h : c.Later c') : c'.start = c.start := by rw [h.eq]
theorem wrote (h : c.Later c') : c'.wrote = c.wrote := by rw [h.eq]
theorem covers (h : c.Later c') : c'.covers = c.covers := by rw [h.eq]
theorem pops (h : c.Later c') : c'.pops = c.pops := by rw [h.eq]
theorem watch (h : c.Later c') : c'.watch = c.watch := by rw [h.eq]

end Commit.Later

/-- The log of `sh'` extends that of `sh`. -/
structure Shared.LogGrows (sh sh' : Shared) : Prop where
  keeps : ∀ {n : Nat} {c : Commit}, sh.log[n]? = some c →
    ∃ c', sh'.log[n]? = some c' ∧ c.Later c'
  length : sh.log.length ≤ sh'.log.length

namespace Shared.LogGrows

variable {sh sh' sh'' : Shared}

theorem of_eq (h : sh'.log = sh.log) : sh.LogGrows sh' :=
  ⟨fun hc => ⟨_, h ▸ hc, .refl _⟩, h ▸ Nat.le_refl _⟩

theorem of_append {new : List Commit} (h : sh'.log = sh.log ++ new) : sh.LogGrows sh' where
  keeps {n c} hc := by
    have hn := (List.getElem?_eq_some_iff.mp hc).1
    exact ⟨c, by rw [h, List.getElem?_append_left hn, hc], .refl c⟩
  length := by rw [h, List.length_append]; omega

theorem of_announce (p : Nat → Commit → Bool) (h : sh'.log = (sh.announce p).log) :
    sh.LogGrows sh' where
  keeps {n c} hc := by
    refine ⟨if p n c then { c with announced := true } else c, ?_, ?_⟩
    · simp [h, announce, List.getElem?_mapIdx, hc]
    · split
      · exact ⟨rfl, fun _ => rfl⟩
      · exact .refl c
  length := by simp [h, announce]

/-- What is in the longer log where the shorter one has an entry is that entry. -/
theorem back (h : sh.LogGrows sh') {n : Nat} {c' : Commit} (hn : n < sh.log.length)
    (hc' : sh'.log[n]? = some c') : ∃ c, sh.log[n]? = some c ∧ c.Later c' := by
  obtain ⟨c'', hc'', hlater⟩ := h.keeps (List.getElem?_eq_getElem hn)
  rw [hc', Option.some.injEq] at hc''
  exact ⟨_, List.getElem?_eq_getElem hn, hc'' ▸ hlater⟩

theorem committed (h : sh.LogGrows sh') {tx : Nat} (hc : sh.committed tx = true) :
    sh'.committed tx = true := by
  simp only [Shared.committed, List.any_eq_true, beq_iff_eq] at hc ⊢
  obtain ⟨c, hmem, htx⟩ := hc
  obtain ⟨n, hn⟩ := List.mem_iff_getElem?.mp hmem
  obtain ⟨c', hn', hlater⟩ := h.keeps hn
  exact ⟨c', List.mem_of_getElem? hn', hlater.tx.trans htx⟩

end Shared.LogGrows

/-! ## The run of an op -/

section

variable {i : Nat} {env : Nat → Tick} {tx : Tx} {sh : Shared}

/-- What running an op keeps of the transaction, and what it adds. -/
structure Tx.Ran (tx tx' : Tx) : Prop where
  id : tx'.id = tx.id
  start : tx'.start = tx.start
  isolation : tx'.isolation = tx.isolation
  txn : ∃ new looked, tx.txn.After new looked tx'.txn

theorem Tx.Ran.withTxn (tx : Tx) {α : Type} (p : TxProg α) (env : Nat → Tick) :
    tx.Ran (tx.withTxn (exec p env tx.txn).txn) :=
  ⟨rfl, rfl, rfl, exec_frame p env tx.txn⟩

variable {tx' : Tx} {op : AtomicOp} {out : Outcome} {sh' : Shared}

theorem Tx.Ran.trans {tx'' : Tx} (h : tx.Ran tx') (h' : tx'.Ran tx'') : tx.Ran tx'' where
  id := h'.id.trans h.id
  start := h'.start.trans h.start
  isolation := h'.isolation.trans h.isolation
  txn := by
    obtain ⟨new, looked, ha⟩ := h.txn
    obtain ⟨new', looked', ha'⟩ := h'.txn
    exact ⟨_, _, ha.trans ha'⟩

/-- `Performs i env tx sh op out tx' sh'`: what `DbOp::run` of `op` can do. The
transaction that `ZADD` hands to its claim is `tx.withTxn r.txn` for the run `r` of
its writes. -/
inductive Performs (i : Nat) (env : Nat → Tick) (tx : Tx) (sh : Shared) :
    AtomicOp → Outcome → Tx → Shared → Prop
  | plain (p : TxProg RespValue) :
      Performs i env tx sh (.plain p) ((exec p env tx.txn).out.map fun reply => { reply })
        (tx.withTxn (exec p env tx.txn).txn) sh
  | zaddFailed (op : Zset.ZAddOp) (e : DbError) (h : (exec op.write env tx.txn).out = .error e) :
      Performs i env tx sh (.zadd op) (.error e) (tx.withTxn (exec op.write env tx.txn).txn) sh
  | zaddUnclaimed (op : Zset.ZAddOp) (w : Zset.ZAddWritten)
      (h : (exec op.write env tx.txn).out = .ok w)
      (hc : w.added = true → sh.registry.tryClaim w.node.publicKey = none) :
      Performs i env tx sh (.zadd op) (.ok { reply := .integer w.reply })
        (tx.withTxn (exec op.write env tx.txn).txn) sh
  | zaddPopFailed (op : Zset.ZAddOp) (r : Run Bytes Row Tick DbError Zset.ZAddWritten)
      (w : Zset.ZAddWritten) (c : Claim) (reg : WatchRegistry) (e : DbError)
      (hr : r = exec op.write env tx.txn) (h : r.out = .ok w) (hadd : w.added = true)
      (hc : sh.registry.tryClaim w.node.publicKey = some (c, reg))
      (hpop : (exec (Zset.popOne c.wantMin w.node) r.env r.txn).out = .error e) :
      Performs i env tx sh (.zadd op) (.error e)
        (tx.withTxn (exec (Zset.popOne c.wantMin w.node) r.env r.txn).txn)
        { sh with registry := reg.releaseFront c }
  | zaddClaimed (op : Zset.ZAddOp) (r : Run Bytes Row Tick DbError Zset.ZAddWritten)
      (w : Zset.ZAddWritten) (c : Claim) (reg : WatchRegistry) (m : Option Zset.MemberScore)
      (hr : r = exec op.write env tx.txn) (h : r.out = .ok w) (hadd : w.added = true)
      (hc : sh.registry.tryClaim w.node.publicKey = some (c, reg))
      (hpop : (exec (Zset.popOne c.wantMin w.node) r.env r.txn).out = .ok m) :
      Performs i env tx sh (.zadd op)
        (.ok { reply := .integer w.reply
               claims := [{ c with
                 result := (m.map op.popResult).map .pop
                 origin := tx.id }] })
        { tx.withTxn (exec (Zset.popOne c.wantMin w.node) r.env r.txn).txn with
          pops := ((m.map op.popResult).map fun p =>
            { waiter := c.waiter, publicKey := w.node.publicKey, result := p }).toList ++ tx.pops }
        { sh with registry := reg, holder := Function.update sh.holder c.waiter.id (some i) }
  | xaddFailed (op : Stream.XAddOp) (e : DbError) (h : (exec op.write env tx.txn).out = .error e) :
      Performs i env tx sh (.xadd op) (.error e) (tx.withTxn (exec op.write env tx.txn).txn) sh
  | xadd (op : Stream.XAddOp) (id : Stream.StreamEntryId)
      (h : (exec op.write env tx.txn).out = .ok id) :
      Performs i env tx sh (.xadd op)
        (.ok { reply := .bulkString (some id.display)
               claims := [{ WatchRegistry.streamNotification op.publicKey with
                 origin := tx.id }] })
        { tx.withTxn (exec op.write env tx.txn).txn with adds := op.publicKey :: tx.adds } sh

variable (i env tx sh) in
theorem performs (op : AtomicOp) :
    Performs i env tx sh op (op.perform i env tx sh).1 (op.perform i env tx sh).2.1
      (op.perform i env tx sh).2.2 := by
  cases op with
  | plain p => exact .plain p
  | zadd op =>
    simp only [AtomicOp.perform]
    split
    · exact .zaddFailed op _ ‹_›
    · rename_i w hw
      split
      · rename_i hadd
        simp only [zaddClaim]
        split
        · exact .zaddUnclaimed op w hw fun _ => ‹_›
        · rename_i c reg hc
          split
          · exact .zaddPopFailed op _ w c reg _ rfl hw hadd hc ‹_›
          · exact .zaddClaimed op _ w c reg _ rfl hw hadd hc ‹_›
      · rename_i hadd
        exact .zaddUnclaimed op w hw fun h => absurd h hadd
  | xadd op =>
    simp only [AtomicOp.perform]
    split
    · exact .xaddFailed op _ ‹_›
    · exact .xadd op _ ‹_›

theorem Performs.ran (h : Performs i env tx sh op out tx' sh') : tx.Ran tx' := by
  have hpop {α β : Type} (p : TxProg α) (q : TxProg β) (env' : Nat → Tick) :
      tx.Ran (tx.withTxn (exec q env' (exec p env tx.txn).txn).txn) :=
    (Tx.Ran.withTxn tx p env).trans (Tx.Ran.withTxn (tx.withTxn (exec p env tx.txn).txn) q env')
  cases h with
  | plain p => exact .withTxn tx p env
  | zaddFailed op => exact .withTxn tx op.write env
  | zaddUnclaimed op => exact .withTxn tx op.write env
  | zaddPopFailed op r w c reg e hr =>
    subst hr
    exact hpop _ _ _
  | zaddClaimed op r w c reg m hr =>
    subst hr
    exact ⟨rfl, rfl, rfl, (hpop op.write (Zset.popOne c.wantMin w.node) _).txn⟩
  | xaddFailed op => exact .withTxn tx op.write env
  | xadd op => exact ⟨rfl, rfl, rfl, (Tx.Ran.withTxn tx op.write env).txn⟩

theorem Performs.log
    (h : Performs i env tx sh op out tx' sh') : sh'.log = sh.log ∧ sh'.store = sh.store := by
  cases h <;> exact ⟨rfl, rfl⟩

theorem Performs.origin
    (h : Performs i env tx sh op out tx' sh') : ∀ c ∈ out.claims, c.origin = tx.id := by
  cases h with
  | plain p => cases (exec p env tx.txn).out <;> simp [Outcome.claims, Except.map]
  | _ => simp [Outcome.claims]

theorem Performs.clock (h : Performs i env tx sh op out tx' sh') : sh'.clock = sh.clock := by
  cases h <;> rfl

theorem Performs.nextTx (h : Performs i env tx sh op out tx' sh') : sh'.nextTx = sh.nextTx := by
  cases h <;> rfl

theorem Performs.wakes (h : Performs i env tx sh op out tx' sh') : sh'.wakes = sh.wakes := by
  cases h <;> rfl

end

theorem Performs.claims_plain {p : TxProg RespValue} {res : DbResult}
    (h : Performs i env tx sh (.plain p) (.ok res) tx' sh') : res.claims = [] := by
  generalize hout : (Except.ok res : Outcome) = out at h
  cases h
  cases hr : (exec p env tx.txn).out with
  | error e => simp [hr, Except.map] at hout
  | ok reply =>
    simp only [hr, Except.map, Except.ok.injEq] at hout
    exact hout ▸ rfl

/-- Ops that look at the waiters are the bodies of their commands. -/
theorem Command.body_of_atomicOp {cmd : Command} (h : cmd.atomicOp? = some op)
    (hop : ∀ p, op ≠ .plain p) : cmd.body = .atomic op := by
  unfold Command.atomicOp? at h
  split at h <;> cases h
  · assumption
  all_goals exact absurd rfl (hop _)

/-! ## Where a session goes on -/

/-- The claims that a stage still has to wake before the script goes on. -/
def Stage.waking : Stage → List Claim
  | .wire claims _ _ => claims
  | _ => []

/-- The claims that a script has deferred so far. -/
def Stage.deferred : Stage → List Claim
  | .script _ deferred => deferred
  | .wire _ _ deferred => deferred
  | _ => []

/-- Where a session can be after an op of its queue, if not abandoned. -/
inductive NextOp (d : Dispatch) (tx : Tx) (outcomes : List Outcome) : Phase → Prop
  | op (cmd : Command) : NextOp d tx outcomes (.ops ⟨d, tx, outcomes, cmd, []⟩ .start)
  | commit : NextOp d tx outcomes (.commit d tx outcomes)

theorem nextOp_eq (s : Session) (d : Dispatch) (tx : Tx) (outcomes : List Outcome) :
    ∃ phase, NextOp d tx outcomes phase ∧ s.nextOp d tx outcomes = { s with phase } := by
  unfold nextOp
  split
  · exact ⟨_, .op _, rfl⟩
  · exact ⟨_, .commit, rfl⟩

theorem dispatch_phase (s : Session) (batch flush : Bool) :
    (s.dispatch batch flush).phase = .idle ∨ ∃ d, (s.dispatch batch flush).phase = .begin d := by
  unfold dispatch
  split
  · exact .inl rfl
  · split
    · exact .inl rfl
    · exact .inr ⟨_, rfl⟩

/-- What holds of an idle session, and of one about to begin, holds after `dispatch`. -/
theorem of_dispatch {P : Phase → Prop} {s : Session} {batch flush : Bool} (hidle : P .idle)
    (hbegin : ∀ d, P (.begin d)) : P (s.dispatch batch flush).phase := by
  rcases dispatch_phase s batch flush with hd | ⟨d, hd⟩
  · exact hd ▸ hidle
  · exact hd ▸ hbegin d

/-- What `Session.complete` does. -/
inductive Completes (s : Session) (r : OpRun) (out : Outcome) : Session → Prop
  | conflict (hf : r.frames = []) (hc : out = .error (.kv .conflict)) :
      Completes s r out (s.conflicted r.dispatch (r.outcomes.flatMap Outcome.claims))
  | abandon (e : DbError) (hf : r.frames = []) (ho : out = .error e)
      (hb : r.dispatch.batch = false) (hno : out.isRetryableConflict = false) :
      Completes s r out (s.abandon r.dispatch false (r.outcomes.flatMap Outcome.claims))
  | next (phase : Phase) (hf : r.frames = [])
      (hn : NextOp r.dispatch r.tx (r.outcomes ++ [out]) phase)
      (hb : (∃ e, out = .error e) → r.dispatch.batch = true)
      (heq : s.nextOp r.dispatch r.tx (r.outcomes ++ [out]) = { s with phase })
      (hno : out.isRetryableConflict = false) :
      Completes s r out { s with phase }
  | called (f : Frame) (frames : List Frame) (res : DbResult) (hf : r.frames = f :: frames)
      (ho : out = .ok res) :
      Completes s r out
        { s with
          phase := .ops { r with cmd := f.cmd, frames } (.wire (r.cmd.deferClaims res).1
            (f.next res.reply) (f.deferred ++ (r.cmd.deferClaims res).2)) }
  | raised (f : Frame) (frames : List Frame) (e : DbError) (hf : r.frames = f :: frames)
      (ho : out = .error e) :
      Completes s r out
        { s with
          phase := .ops { r with cmd := f.cmd, frames }
            (.script (f.next (r.cmd.info.onError e)) f.deferred) }

theorem completes (s : Session) (r : OpRun) (out : Outcome) :
    Completes s r out (s.complete r out) := by
  unfold complete
  split
  · rename_i hf
    unfold completeOp
    split
    · rename_i hc
      refine .conflict hf ?_
      unfold Outcome.isRetryableConflict at hc
      split at hc
      · rfl
      · cases hc
    · rename_i hc
      have hno := eq_false_of_ne_true hc
      split
      · split
        · rename_i e hb
          obtain ⟨phase, hn, heq⟩ := nextOp_eq s r.dispatch r.tx (r.outcomes ++ [.error e])
          rw [heq]
          exact .next phase hf hn (fun _ => hb) heq hno
        · rename_i e hb
          exact .abandon e hf rfl (eq_false_of_ne_true hb) hno
      · rename_i res
        obtain ⟨phase, hn, heq⟩ := nextOp_eq s r.dispatch r.tx (r.outcomes ++ [.ok res])
        rw [heq]
        exact .next phase hf hn (by rintro ⟨e, he⟩; cases he) heq hno
  · rename_i f frames hf
    unfold completeCall
    split
    · exact .called f frames _ hf rfl
    · exact .raised f frames _ hf rfl

@[simp] theorem abandon_phase (s : Session) (d : Dispatch) (clearWatch : Bool)
    (claims : List Claim) : (s.abandon d clearWatch claims).phase = .release claims .idle := rfl

/-- Where a session goes on after a conflict. -/
def Session.afterConflict (s : Session) (d : Dispatch) : AfterRelease :=
  if d.isolation ≠ .serializableSnapshot ∧ d.retries < s.conflictRetryCount then
    .retry { d with retries := d.retries + 1 }
  else .idle

theorem conflicted_phase (s : Session) (d : Dispatch) (claims : List Claim) :
    (s.conflicted d claims).phase = .release claims (s.afterConflict d) := by
  unfold conflicted afterConflict
  split
  · rw [if_neg (by simp [*])]
    rfl
  · split
    · rw [if_pos (by simp [*])]
    · rw [if_neg (by simp [*])]
      rfl

/-! ## The log, move by move -/

variable {a : Action} {env : Nat → Tick} {i : Nat} {s s' : Session} {sh sh' : Shared}

theorem Moves.logGrows (h : Moves i env sh s a sh' s') : sh.LogGrows sh' := by
  cases h with
  | commit => exact .of_append rfl
  | bzpopCommit => exact .of_append rfl
  | flushRows => exact .of_append rfl
  | bump d n => exact .of_announce (fun m _ => m == n) rfl
  | bumpEpoch => exact .of_announce (fun _ c => c.kind == CommitKind.flush && c.session == i) rfl
  | atomic r op => exact .of_eq (performs i env r.tx sh op).log.1
  | _ => exact .of_eq rfl

/-- Where a new entry of the log comes from. -/
inductive Commits (i : Nat) (sh : Shared) (s s' : Session) (c : Commit) : Prop
  | batch (d : Dispatch) (tx : Tx) (outcomes : List Outcome) (hp : s.phase = .commit d tx outcomes)
      (hcan : sh.canCommit tx = true)
      (hc : c = sh.record i tx .batch (fun k => s.changedKeys.contains (fromUtf8Lossy k))
        (if d.batch then s.firstWatch else []))
      (hs : s' = { s with phase := .bump d sh.log.length outcomes })
  | own (r : OpRun) (own : Tx) (p : PopResult) (hp : s.phase = .ops r (.bzpopCommit own p))
      (hcan : sh.canCommit own = true) (hc : c = sh.record i own .own (fun _ => false) [])
      (hs : s' = s.complete r (.ok { reply := bzpopReply (some p) }))
  | flush (hs : c.session = i) (hk : c.kind = .flush)
      (hp : c.pops = []) (ha : c.adds = []) (ht : c.trace = []) (hw : c.watch = [])
      (htx : c.tx = 0)

theorem Commits.session_eq {c : Commit} (h : Commits i sh s s' c) : c.session = i := by
  cases h with
  | batch d tx outcomes _ _ hc => rw [hc]; rfl
  | own r own p _ _ hc => rw [hc]; rfl
  | flush hs => exact hs

/-- An entry of the log was there before the move, or the move has made it. -/
theorem Moves.mem_log (h : Moves i env sh s a sh' s') {c' : Commit} (hc' : c' ∈ sh'.log) :
    (∃ c ∈ sh.log, c.Later c') ∨ Commits i sh s s' c' := by
  have appended {new : Commit} (hlog : sh'.log = sh.log ++ [new])
      (hnew : Commits i sh s s' new) : (∃ c ∈ sh.log, c.Later c') ∨ Commits i sh s s' c' := by
    rw [hlog, List.mem_append, List.mem_singleton] at hc'
    rcases hc' with hc' | rfl
    · exact .inl ⟨c', hc', .refl c'⟩
    · exact .inr hnew
  have old (hlen : sh'.log.length = sh.log.length) : ∃ c ∈ sh.log, c.Later c' := by
    obtain ⟨n, hn⟩ := List.mem_iff_getElem?.mp hc'
    obtain ⟨c, hc, hlater⟩ := h.logGrows.back (hlen ▸ (List.getElem?_eq_some_iff.mp hn).1) hn
    exact ⟨c, List.mem_of_getElem? hc, hlater⟩
  cases h with
  | commit d tx outcomes hp hcan => exact appended rfl (.batch d tx outcomes hp hcan rfl rfl)
  | bzpopCommit r own p hp hcan => exact appended rfl (.own r own p hp hcan rfl rfl)
  | flushRows => exact appended rfl (.flush rfl rfl rfl rfl rfl rfl rfl)
  | bump | bumpEpoch => exact .inl (old (by simp [Shared.announce]))
  | atomic r op => exact .inl (old (congrArg List.length (performs i env r.tx sh op).log.1))
  | _ => exact .inl (old rfl)

/-! ## The clock -/

theorem le_foldl_max (ticks : List Tick) (c : Int) :
    c ≤ ticks.foldl (fun c t => max c t.now) c := by
  induction ticks generalizing c with
  | nil => exact Int.le_refl c
  | cons t ticks ih => exact Int.le_trans (Int.le_max_left c t.now) (ih _)

theorem le_foldl_max_of_mem (ticks : List Tick) (c : Int) {t : Tick} (ht : t ∈ ticks) :
    t.now ≤ ticks.foldl (fun c t => max c t.now) c := by
  induction ticks generalizing c with
  | nil => cases ht
  | cons t' ticks ih =>
    rcases List.mem_cons.mp ht with rfl | ht
    · exact Int.le_trans (Int.le_max_right c t.now) (le_foldl_max ticks _)
    · exact ih _ ht

theorem Moves.clock_eq (h : Moves i env sh s a sh' s') : sh'.clock = sh.clock := by
  cases h with
  | atomic r op => exact (performs i env r.tx sh op).clock
  | _ => rfl

/-- A step reads the clock, then moves. -/
theorem moves_of_sessionStep
    {a : Action × List Tick} (h : World.sessionStep i sh s a = some (sh', s')) :
    ∃ clock, sh.clock ≤ clock ∧ (∀ t ∈ a.2, sh.clock ≤ t.now ∧ t.now ≤ clock) ∧
      Moves i (readings sh.clock a.2) { sh with clock } s a.1 sh' s' := by
  simp only [World.sessionStep, Option.bind_eq_some_iff] at h
  obtain ⟨sh₁, hobs, hstep⟩ := h
  unfold Shared.observe at hobs
  split at hobs
  · rename_i hall
    cases hobs
    simp only [List.all_eq_true, decide_eq_true_eq] at hall
    refine ⟨_, ?_, fun t ht => ⟨hall t ht, ?_⟩, moves_of_step hstep⟩
    · exact le_foldl_max _ _
    · exact le_foldl_max_of_mem _ _ ht
  · cases hobs

end Invar
