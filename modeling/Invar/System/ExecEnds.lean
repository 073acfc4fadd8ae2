import Invar.System.Effects

/-!
# The end of a transaction

`EXEC` and `DISCARD` take the session out of `MULTI` and reset its queue, its abort
flag and its `WATCH` set. `dispatch_pending_ops` has a return point for each way an
`EXEC` can end, and each of them resets these fields for itself. Four of them leave
the `WATCH` set as it is: the one for an empty queue, a `begin` that fails, a commit
that fails other than by a conflict, and the last retry.
-/

namespace Invar

open StoreProg Session Interleaving

structure Session.Ended (s : Session) : Prop where
  inMulti : s.inMulti = false
  queue : s.queue = []
  dirtyExec : s.dirtyExec = false
  watched : s.watched = []

/-- The step that ends a transaction: `DISCARD`, or the start of an `EXEC`. -/
def Action.endsMulti : Action → Bool
  | .discard | .exec => true
  | _ => false

/-! ## The condition on steps -/

/-- A conflict of this attempt clears the `WATCH` set or is retried. -/
def Session.survivesConflict (s : Session) (d : Dispatch) : Bool :=
  d.isolation == .serializableSnapshot || decide (d.retries < s.conflictRetryCount)

/-- A session that watches keys does not end its `EXEC` through one of the four return
points. -/
def clearsWatch (w : World) (a : Nat × Action × List Tick) : Bool :=
  let s := w.threads a.1
  s.watched.isEmpty ||
    match a.2.1, s.phase with
    | .exec, .idle => s.dirtyExec || !s.queue.isEmpty
    | .begin (some _), .begin d => !d.batch
    | .commit (some e), .commit d _ _ => !d.batch || (e == .conflict && s.survivesConflict d)
    | .run, .ops r .start =>
      !r.dispatch.batch || !r.frames.isEmpty || s.survivesConflict r.dispatch ||
        r.cmd.atomicOp?.all fun op =>
          !(op.run a.1 (readings w.shared.clock a.2.2) r.tx w.shared).1.isRetryableConflict
    | .flushNext (some e), .ops r (.flush _) =>
      !r.dispatch.batch || !r.frames.isEmpty || s.survivesConflict r.dispatch || e != .conflict
    | _, _ => true

/-- What an op returns does not depend on the latest time read. -/
theorem AtomicOp.run_clock (op : AtomicOp) (i : Nat) (env : Nat → Tick) (tx : Tx) (sh : Shared)
    (clock : Int) : (op.run i env tx { sh with clock }).1 = (op.run i env tx sh).1 := by
  cases op with
  | plain p => rfl
  | zadd op =>
    simp only [AtomicOp.run, AtomicOp.perform]
    cases (exec op.write env tx.txn).out with
    | error e => rfl
    | ok w =>
      by_cases hadd : w.added = true
      · simp only [hadd, if_true, zaddClaim]
        cases sh.registry.tryClaim w.node.publicKey with
        | none => rfl
        | some cr =>
          dsimp only
          cases (exec (Zset.popOne cr.1.wantMin w.node) (exec op.write env tx.txn).env
            (tx.withTxn (exec op.write env tx.txn).txn).txn).out <;> rfl
      · simp [hadd]
  | xadd op =>
    simp only [AtomicOp.run, AtomicOp.perform]
    cases (exec op.write env tx.txn).out <;> rfl

/-- What `clearsWatch` says of the step. -/
structure ClearsWatch (i : Nat) (env : Nat → Tick) (sh : Shared) (s : Session) (a : Action) :
    Prop where
  exec : a = .exec → s.phase = .idle → s.watched = [] ∨ s.dirtyExec = true ∨ s.queue ≠ []
  begin : ∀ e d, a = .begin (some e) → s.phase = .begin d → d.batch = true → s.watched = []
  commit : ∀ e d tx outcomes, a = .commit (some e) → s.phase = .commit d tx outcomes →
    d.batch = true → s.watched = [] ∨ e = .conflict ∧ s.survivesConflict d = true
  run : ∀ r op clock, a = .run → s.phase = .ops r .start → r.cmd.atomicOp? = some op →
    r.dispatch.batch = true → r.frames = [] →
    (op.run i env r.tx { sh with clock }).1 = .error (.kv .conflict) →
    s.survivesConflict r.dispatch = true ∨ s.watched = []
  flush : ∀ e r todo, a = .flushNext (some e) → s.phase = .ops r (.flush todo) →
    r.dispatch.batch = true → r.frames = [] → e = .conflict →
    s.survivesConflict r.dispatch = true ∨ s.watched = []

theorem ClearsWatch.of_true {w : World} {b : Nat × Action × List Tick}
    (h : clearsWatch w b = true) :
    ClearsWatch b.1 (readings w.shared.clock b.2.2) w.shared (w.threads b.1) b.2.1 := by
  unfold clearsWatch at h
  simp only [Bool.or_eq_true, List.isEmpty_iff] at h
  rcases h with hw | h
  · exact ⟨fun _ _ => .inl hw, fun _ _ _ _ _ => hw, fun _ _ _ _ _ _ _ => .inl hw,
      fun _ _ _ _ _ _ _ _ _ => .inr hw, fun _ _ _ _ _ _ _ _ => .inr hw⟩
  · constructor
    · intro ha hp
      simp only [ha, hp] at h
      exact .inr (by simpa using h)
    · intro e d ha hp hd
      simp [ha, hp, hd] at h
    · intro e d tx outcomes ha hp hd
      simp only [ha, hp, hd] at h
      exact .inr (by simpa using h)
    · intro r op clock ha hp hop hd hf hconf
      rw [op.run_clock] at hconf
      simp only [ha, hp, hd, hf, hop, Option.all_some, Outcome.isRetryableConflict, hconf] at h
      exact .inl (by simpa using h)
    · intro e r todo ha hp hd hf he
      simp only [ha, hp, hd, hf, he] at h
      exact .inl (by simpa using h)

/-! ## Commands that wait -/

/-- The command was built for a session that may block. -/
def Command.blocks (c : Command) : Bool :=
  match c.body with
  | .bzpop _ true | .xread _ true => true
  | _ => false

/-- The stages of such a command. -/
def Stage.blocking : Stage → Bool
  | .start | .script .. | .wire .. | .giveBack .. | .flush _ => false
  | _ => true

/-- The stages of an `EVAL`. -/
def Stage.runsScript : Stage → Bool
  | .script .. | .wire .. | .giveBack .. => true
  | _ => false

theorem Command.blocks_prepare (c : Command) : (c.prepare false).blocks = false := by
  obtain ⟨info, body⟩ := c
  cases body <;> rfl

variable {c : Command} {stage : Stage} {s : Session}

theorem Command.firstStage_blocking (h : c.firstStage? = some stage)
    (hb : c.blocks = false) : stage.blocking = false := by
  unfold Command.firstStage? at h
  split at h <;> cases h <;> simp_all [Command.blocks, Stage.blocking]

theorem Command.firstStage_runsScript
    (h : c.firstStage? = some stage) (hr : stage.runsScript = true) : c.blocks = false := by
  unfold Command.firstStage? at h
  split at h <;> cases h <;> simp_all [Command.blocks, Stage.runsScript]

/-- The phases in which a session outside `MULTI` has nothing queued. -/
def Phase.queueless : Phase → Bool
  | .idle | .watchBegin _ | .watchKeys .. | .release _ .idle | .bumpEpoch => true
  | _ => false

/-- Inside `MULTI` a session is idle and its queue holds commands that do not block;
outside it the queue is empty but for the dispatch. -/
structure Session.Queues (s : Session) : Prop where
  multi : s.inMulti = true → s.phase = .idle ∧ ∀ c ∈ s.queue, c.blocks = false
  empty : s.inMulti = false → s.phase.queueless = true → s.queue = []

section

variable {i : Nat} {env : Nat → Tick} {sh sh' : Shared} {s' : Session} {a : Action}

/-- The dispatcher's own phases keep the session out of `MULTI`; where it leaves the
queue, the queue is empty. -/
theorem Session.Queues.of_phase (hm : s'.inMulti = false)
    (he : s'.phase.queueless = true → s'.queue = []) : s'.Queues :=
  ⟨by simp [hm], fun _ hq => he hq⟩

theorem Session.Queues.outside (h : s.Queues) (hp : s.phase ≠ .idle) : s.inMulti = false := by
  cases hm : s.inMulti with
  | false => rfl
  | true => exact absurd (h.multi hm).1 hp

theorem conflicted_queues (hm : s.inMulti = false) (d : Dispatch) (claims : List Claim) :
    (s.conflicted d claims).Queues := by
  unfold conflicted
  split
  · exact .of_phase hm fun _ => rfl
  · split
    · exact .of_phase hm (by simp [Phase.queueless])
    · exact .of_phase hm fun _ => rfl

theorem nextOp_queues (hm : s.inMulti = false) (d : Dispatch) (tx : Tx) (outcomes : List Outcome) :
    (s.nextOp d tx outcomes).Queues := by
  obtain ⟨phase, hn, heq⟩ := nextOp_eq s d tx outcomes
  rw [heq]
  cases hn <;> exact .of_phase hm (by simp [Phase.queueless])

theorem dispatch_queues (hm : s.inMulti = false) (batch flush : Bool) :
    (s.dispatch batch flush).Queues := by
  unfold dispatch
  split
  · exact .of_phase hm fun _ => rfl
  · split
    · exact .of_phase hm fun _ => rfl
    · exact .of_phase hm (by simp [Phase.queueless])

variable {out : Outcome} {r : OpRun} {d : Dispatch} {clear : Bool}

theorem Completes.queues (h : Completes s r out s') (hm : s.inMulti = false) : s'.Queues := by
  cases h with
  | conflict => exact conflicted_queues hm _ _
  | abandon => exact .of_phase hm fun _ => rfl
  | next phase hf hn => cases hn <;> exact .of_phase hm (by simp [Phase.queueless])
  | called | raised => exact .of_phase hm (by simp [Phase.queueless])

theorem Moves.queues (h : Moves i env sh s a sh' s') (hq : s.Queues) : s'.Queues := by
  cases h with
  | refused => exact hq
  | multi hp =>
    refine ⟨fun _ => ⟨hp, ?_⟩, by simp⟩
    cases hm : s.inMulti with
    | true => exact (hq.multi hm).2
    | false => simp [hq.empty hm (by simp [hp, Phase.queueless])]
  | discard => exact .of_phase rfl fun _ => rfl
  | unwatch hp => exact ⟨hq.multi, hq.empty⟩
  | watch keys hp hm => exact .of_phase hm fun _ => hq.empty hm (by simp [hp, Phase.queueless])
  | spoiled c hp hm => exact ⟨hq.multi, hq.empty⟩
  | queued c hp hm =>
    refine ⟨fun _ => ⟨hp, fun c' hc' => ?_⟩, by simp [hm]⟩
    rcases List.mem_append.mp hc' with hold | hnew
    · exact (hq.multi hm).2 c' hold
    · rw [List.mem_singleton.mp hnew]
      exact c.blocks_prepare
  | submit c hp hm =>
    exact dispatch_queues (s := { s with queue := s.queue ++ [c.prepare true] }) hm _ _
  | exec => exact dispatch_queues rfl _ _
  | watchBegin ok keys snapshot hp | watchKey snapshot k rest existed hp | watched snapshot hp
  | released hp | bumpEpoch hp =>
    have hm : s.inMulti = false := hq.outside (by simp [hp])
    exact .of_phase hm fun _ => hq.empty hm (by simp [hp, Phase.queueless])
  | begin d hp | keysChecked d tx key hp => exact nextOp_queues (hq.outside (by simp [hp])) _ _ _
  | commitConflict d tx outcomes hp => exact conflicted_queues (hq.outside (by simp [hp])) _ _
  | beginFailed d e hp | epochChanged d tx hp | keyChanged d tx todo key hp
  | commitFailed d tx outcomes e hp | replied d hp | repliedFlush d hp =>
    exact .of_phase (hq.outside (by simp [hp])) fun _ => rfl
  | release c rest after hp =>
    have hm : s.inMulti = false := hq.outside (by simp [hp])
    refine .of_phase hm fun hl => hq.empty hm ?_
    cases after <;> simp_all [Phase.queueless]
  | atomic r op hp | scriptDone r reply deferred hp | gaveBack r e hp | bzpopBeginFailed r op e hp
  | bzpopError r op own e hp | bzpopCommit r own p hp | bzpopCommitFailed r own p e hp
  | bzpopReceive r op w got hp | bzpopTimeout r op w hp | xreadEnd a r stage w out hp
  | flushEnd err r todo out hp => exact (completes _ _ _).queues (hq.outside (by simp [hp]))
  | bzpopTimeoutClaimed | xreadTimeoutClaimed | flushRows => exact ⟨hq.multi, hq.empty⟩
  | _ => exact .of_phase (hq.outside (by simp [*])) (by simp [Phase.queueless])

theorem World.queues (retryCount : Nat) {ok : World → Nat × Action × List Tick → Prop} {w : World}
    (h : World.Reached retryCount ok w) (i : Nat) : (w.threads i).Queues := by
  refine thread_inv ⟨by simp [World.init], fun _ _ => rfl⟩ (fun st a g t _ hq hstep => ?_) h
  obtain ⟨clock, -, -, hmoves⟩ := moves_of_sessionStep hstep
  exact hmoves.queues hq

/-! ## The dispatch of an `EXEC` -/

/-- The current command of an `EXEC` waits for nobody, unless a script has issued it. -/
structure OpRun.Plain (r : OpRun) (stage : Stage) : Prop where
  frames : ∀ f ∈ r.frames, f.cmd.blocks = false
  current : r.frames = [] → r.cmd.blocks = false ∧ stage.blocking = false
  script : stage.runsScript = true → r.cmd.blocks = false
  error : ∀ claims, stage ≠ .giveBack claims (.kv .conflict)

def Phase.InExec : Phase → Prop
  | .begin d | .checkEpoch d _ | .checkKeys d _ _ | .commit d _ _ | .bump d _ _ | .reply d _
  | .release _ (.retry d) => d.batch = true
  | .ops r stage => r.dispatch.batch = true ∧ r.Plain stage
  | .idle | .release _ .idle | .bumpEpoch => True
  | _ => False

/-- A session from the start of its `EXEC` to the end. -/
structure Session.InExec (s : Session) : Prop where
  inMulti : s.inMulti = false
  dirtyExec : s.dirtyExec = false
  plain : ∀ c ∈ s.queue, c.blocks = false
  phase : s.phase.InExec
  ended : s.phase.queueless = true → s.queue = [] ∧ s.watched = []

theorem nextOp_inExec (h : s.InExec) (hd : d.batch = true) (tx : Tx)
    (outcomes : List Outcome) : (s.nextOp d tx outcomes).InExec := by
  unfold nextOp
  split
  · rename_i cmd hcmd
    have hplain := h.plain cmd (List.mem_of_getElem? hcmd)
    exact ⟨h.inMulti, h.dirtyExec, h.plain,
      ⟨hd, by simp, fun _ => ⟨hplain, rfl⟩, nofun, nofun⟩, by simp [Phase.queueless]⟩
  · exact ⟨h.inMulti, h.dirtyExec, h.plain, hd, by simp [Phase.queueless]⟩

/-- A return point that clears the `WATCH` set, or that has nothing to clear. -/
theorem finish_inExec (h : s.InExec) (batch : Bool)
    (hc : clear = true ∨ s.watched = []) : (s.finish batch clear).InExec := by
  refine ⟨h.inMulti, h.dirtyExec, by simp [finish], trivial, fun _ => ⟨rfl, ?_⟩⟩
  rcases hc with rfl | hw
  · rfl
  · simp [finish, hw]

theorem abandon_inExec (h : s.InExec) (d : Dispatch) (claims : List Claim)
    (hc : clear = true ∨ s.watched = []) : (s.abandon d clear claims).InExec := by
  have hfin := finish_inExec h d.batch hc
  exact ⟨hfin.inMulti, hfin.dirtyExec, hfin.plain, trivial, fun _ => hfin.ended rfl⟩

theorem conflicted_inExec (h : s.InExec) (hd : d.batch = true) (claims : List Claim)
    (hc : s.survivesConflict d = true ∨ s.watched = []) : (s.conflicted d claims).InExec := by
  unfold conflicted
  split
  · exact abandon_inExec h d claims (.inl rfl)
  · rename_i hiso
    split
    · exact ⟨h.inMulti, h.dirtyExec, h.plain, hd, by simp [Phase.queueless]⟩
    · rename_i hr
      refine abandon_inExec h d claims (.inr (hc.resolve_left ?_))
      simp [survivesConflict, hiso, hr]

/-- The current command has run. Its outcome is not a conflict of the last attempt. -/
theorem Completes.inExec (h : Completes s r out s')
    (hs : s.InExec) (hd : r.dispatch.batch = true) (hframes : ∀ f ∈ r.frames, f.cmd.blocks = false)
    (hc : r.frames = [] → out = .error (.kv .conflict) →
      s.survivesConflict r.dispatch = true ∨ s.watched = []) : s'.InExec := by
  -- a script goes on in the `EVAL` that runs it
  have back {f : Frame} {frames : List Frame} {stage' : Stage} (hf : r.frames = f :: frames)
      (hst : stage'.blocking = false) (he : ∀ claims, stage' ≠ .giveBack claims (.kv .conflict)) :
      Session.InExec { s with phase := .ops { r with cmd := f.cmd, frames } stage' } := by
    rw [hf] at hframes
    have hcmd : f.cmd.blocks = false := hframes f List.mem_cons_self
    refine ⟨hs.inMulti, hs.dirtyExec, hs.plain, ⟨hd, ?_, ?_, ?_, he⟩, by simp [Phase.queueless]⟩
    · exact fun g hg => hframes g (List.mem_cons_of_mem f hg)
    · exact fun _ => ⟨hcmd, hst⟩
    · exact fun _ => hcmd
  cases h with
  | conflict hf ho => exact conflicted_inExec hs hd _ (hc hf ho)
  | abandon e hf ho hb =>
    rw [hd] at hb
    cases hb
  | next phase hf hn hb heq =>
    rw [← heq]
    exact nextOp_inExec hs hd r.tx (r.outcomes ++ [out])
  | called f frames res hf => exact back hf rfl nofun
  | raised f frames e hf => exact back hf rfl nofun

/-- **A step of an `EXEC` that keeps to the condition ends it, if it does, with all four
fields reset.** -/
theorem Moves.inExec (h : Moves i env { sh with clock } s a sh' s') (hs : s.InExec)
    (hp : s.phase ≠ .idle) (hok : ClearsWatch i env sh s a) : s'.InExec := by
  -- the phase changes, the fields do not
  have goes {phase : Phase} (hph : phase.InExec) (hq : phase.queueless = false) :
      Session.InExec { s with phase } :=
    ⟨hs.inMulti, hs.dirtyExec, hs.plain, hph, by simp [hq]⟩
  have rest {phase : Phase} (hph : phase.InExec) (hq : s.phase.queueless = true) :
      Session.InExec { s with phase } :=
    ⟨hs.inMulti, hs.dirtyExec, hs.plain, hph, fun _ => hs.ended hq⟩
  have inside {phase : Phase} (hph : s.phase = phase) : phase.InExec := hph ▸ hs.phase
  -- a command that blocks is not of the queue
  have called {r : OpRun} {stage : Stage} (hph : s.phase = .ops r stage)
      (hb : stage.blocking = true) : r.frames ≠ [] := by
    intro hf
    have hno := ((inside hph).2.current hf).2
    rw [hb] at hno
    cases hno
  have waits {r : OpRun} {stage stage' : Stage} (hph : s.phase = .ops r stage)
      (hb : stage.blocking = true) (hb' : stage'.runsScript = false) :
      Session.InExec { s with phase := .ops r stage' } := by
    refine goes
      ⟨(inside hph).1, (inside hph).2.frames, fun hf => absurd hf (called hph hb), ?_, ?_⟩ rfl
    · simp [hb']
    · rintro claims rfl
      cases hb'
  have ends {r : OpRun} {stage : Stage} {out : Outcome} (hph : s.phase = .ops r stage)
      (hb : stage.blocking = true) : (s.complete r out).InExec :=
    (completes _ _ _).inExec hs (inside hph).1 (inside hph).2.frames
      fun hf _ => absurd hf (called hph hb)
  cases h with
  | refused a hidle | multi hidle | discard hidle | unwatch hidle | watch keys hidle
  | spoiled c hidle | queued c hidle | submit c hidle | exec hidle => exact absurd hidle hp
  | watchBegin _ _ _ hph | watchKey _ _ _ _ hph | watched _ hph => exact (inside hph).elim
  | beginFailed d e hph => exact finish_inExec hs _ (.inr (hok.begin e d rfl hph (inside hph)))
  | begin d hph | keysChecked d tx key hph => exact nextOp_inExec hs (inside hph) _ _
  | epochChanged | keyChanged => exact finish_inExec hs _ (.inl rfl)
  | commitConflict d tx outcomes hph =>
    refine conflicted_inExec hs (inside hph) _ ?_
    exact (hok.commit _ d tx outcomes rfl hph (inside hph)).symm.imp_left And.right
  | commitFailed d tx outcomes e hph he =>
    refine abandon_inExec hs d _ (.inr ?_)
    exact (hok.commit _ d tx outcomes rfl hph (inside hph)).resolve_right fun h => he h.1
  | beginWatched d hph | epochKept d tx hph | keyKept d tx todo e hph | commit d tx outcomes hph
  | bump d n outcomes hph | wake d c rest hph | retry d hph =>
    have hin := inside hph
    exact goes hin rfl
  | replied d hph => exact finish_inExec hs _ (.inl (inside hph))
  | repliedFlush d hph =>
    have hfin := finish_inExec hs d.batch (.inl (inside hph))
    exact ⟨hfin.inMulti, hfin.dirtyExec, hfin.plain, trivial, fun _ => hfin.ended rfl⟩
  | release c cs after hph =>
    cases after with
    | idle => exact rest trivial (hph ▸ rfl)
    | retry d =>
      have hin := inside hph
      exact goes hin rfl
  | released hph | bumpEpoch hph => exact rest trivial (hph ▸ rfl)
  | atomic r op hph hop =>
    obtain ⟨hd, hplain⟩ := inside hph
    exact (completes _ _ _).inExec hs hd hplain.frames fun hf ho =>
      hok.run r op _ rfl hph hop hd hf ho
  | enter r stage hph hst =>
    obtain ⟨hd, hplain⟩ := inside hph
    refine goes ⟨hd, hplain.frames, fun hf => ⟨(hplain.current hf).1, ?_⟩, ?_, ?_⟩ rfl
    · exact Command.firstStage_blocking hst (hplain.current hf).1
    · exact Command.firstStage_runsScript hst
    · rintro claims rfl
      unfold Command.firstStage? at hst
      split at hst <;> cases hst
  | scriptDone r reply deferred hph =>
    obtain ⟨hd, hplain⟩ := inside hph
    exact (completes _ _ _).inExec hs hd hplain.frames fun _ ho => nomatch ho
  | gaveBack r e hph =>
    obtain ⟨hd, hplain⟩ := inside hph
    refine (completes _ _ _).inExec hs hd hplain.frames fun _ ho => ?_
    cases ho
    exact absurd rfl (hplain.error [])
  | scriptCall r c next deferred hph =>
    obtain ⟨hd, hplain⟩ := inside hph
    refine goes ⟨hd, ?_, by simp, nofun, nofun⟩ rfl
    simpa using ⟨hplain.script rfl, hplain.frames⟩
  | scriptFail r msg deferred e hph he =>
    obtain ⟨hd, hplain⟩ := inside hph
    refine goes ⟨hd, hplain.frames, fun hf => ⟨(hplain.current hf).1, rfl⟩, hplain.script, ?_⟩ rfl
    subst he
    nofun
  | giveBack r c cs e hph =>
    obtain ⟨hd, hplain⟩ := inside hph
    refine goes ⟨hd, hplain.frames, fun hf => ⟨(hplain.current hf).1, rfl⟩, hplain.script, ?_⟩ rfl
    intro claims heq
    cases heq
    exact hplain.error _ rfl
  | wireWake r c cs sc deferred hph | wireDone r sc deferred hph | flushNext r todo todo' hph =>
    obtain ⟨hd, hplain⟩ := inside hph
    exact goes ⟨hd, hplain.frames, fun hf => ⟨(hplain.current hf).1, rfl⟩, hplain.script, nofun⟩ rfl
  | flushEnd err r todo out hph hout he =>
    obtain ⟨hd, hplain⟩ := inside hph
    refine (completes _ _ _).inExec hs hd hplain.frames fun hf ho => ?_
    obtain ⟨k, rfl, hk⟩ := he _ ho
    cases hk
    exact hok.flush _ r todo rfl hph hd hf rfl
  | bzpopBeginFailed r op e hph | bzpopError r op own e hph | bzpopCommit r own p hph
  | bzpopCommitFailed r own p e hph | bzpopReceive r op w got hph | bzpopTimeout r op w hph =>
    exact ends hph rfl
  | xreadEnd a r stage w out hph hstage =>
    rcases hstage with ⟨x, rfl⟩ | ⟨x, snapshot, rfl⟩ <;> exact ends hph rfl
  | hangUp r stage w hph ho hf hstage =>
    cases stage <;> simp_all [Stage.blocking, Stage.cancelled]
  | bzpopTimeoutClaimed | xreadTimeoutClaimed | flushRows => exact hs
  | _ =>
    -- from one stage of a command that waits to the next
    refine waits (by assumption) ?_ ?_ <;> rfl

end

/-! ## The whole `EXEC` -/

theorem Session.InExec.ended_of_idle (h : s.InExec) (hp : s.phase = .idle) : s.Ended := by
  obtain ⟨hq, hw⟩ := h.ended (by simp [hp, Phase.queueless])
  exact ⟨h.inMulti, hq, h.dirtyExec, hw⟩

/-- The start of an `EXEC`. An `EXEC` of nothing returns at once, and so does one that a
failed command has spoiled. -/
theorem inExec_dispatch (hq : ∀ c ∈ s.queue, c.blocks = false)
    (hok : s.watched = [] ∨ s.dirtyExec = true ∨ s.queue ≠ []) :
    ({ s with inMulti := false }.dispatch true false).InExec := by
  unfold dispatch
  split
  · exact ⟨rfl, rfl, by simp [finish], trivial, fun _ => ⟨rfl, rfl⟩⟩
  · rename_i hdirty
    simp only [Bool.true_and, Bool.not_eq_true] at hdirty
    split
    · rename_i hempty
      simp only [List.isEmpty_iff] at hempty
      refine ⟨rfl, hdirty, by simp [finish], trivial, fun _ => ⟨rfl, ?_⟩⟩
      simpa [finish, hdirty, hempty] using hok
    · exact ⟨rfl, hdirty, hq, rfl, by simp [Phase.queueless]⟩

def Phase.isIdle : Phase → Bool
  | .idle => true
  | _ => false

theorem Phase.isIdle_iff {p : Phase} : p.isIdle = true ↔ p = .idle := by
  cases p <;> simp [isIdle]

/-- The steps of an `EXEC` of session `i`, and those of others meanwhile. -/
def duringExec (i : Nat) (w : World) (b : Nat × Action × List Tick) : Bool :=
  !(w.threads i).phase.isIdle && (b.1 != i || clearsWatch w b)

/-- **When an `EXEC` or a `DISCARD` has replied, nothing is left of the transaction.** -/
theorem ended_of_replied (retryCount i : Nat) {a : Action} {ticks : List Tick} {w w₁ w' : World}
    (hw : World.Reached retryCount (fun _ _ => True) w) (hm : (w.threads i).inMulti = true)
    (ha : a.endsMulti = true) (hok : clearsWatch w (i, a, ticks) = true)
    (hstep : World.step w (i, a, ticks) = some w₁)
    (hrun : Transition.Reach World.step (fun w b => duringExec i w b = true) w₁ w')
    (hend : (w'.threads i).phase = .idle) : (w'.threads i).Ended := by
  obtain ⟨hidle, hplain⟩ := (World.queues retryCount hw i).multi hm
  have hstart : (w₁.threads i).InExec := by
    obtain ⟨hown, -⟩ := act_eq_some hstep
    simp only [World.sessionStep, Option.bind_eq_some_iff] at hown
    obtain ⟨sh, -, hown⟩ := hown
    cases a with
    | discard =>
      simp only [Session.step, stepDiscard, hidle, hm, if_true, Option.map_some, Option.some.injEq,
        Prod.mk.injEq] at hown
      rw [← hown.2]
      exact ⟨rfl, rfl, by simp [finish], trivial, fun _ => ⟨rfl, rfl⟩⟩
    | exec =>
      simp only [Session.step, stepExec, hidle, hm, if_true, Option.map_some, Option.some.injEq,
        Prod.mk.injEq] at hown
      rw [← hown.2]
      exact inExec_dispatch hplain ((ClearsWatch.of_true hok).exec rfl hidle)
    | _ => cases ha
  refine (thread_inv hstart (fun st b g t hduring hin hb => ?_) hrun).ended_of_idle hend
  obtain ⟨clock, -, -, hmoves⟩ := moves_of_sessionStep hb
  simp only [duringExec, Bool.and_eq_true, Bool.not_eq_true', bne_self_eq_false,
    Bool.false_or] at hduring
  exact hmoves.inExec hin (by simp [← Phase.isIdle_iff, hduring.1]) (.of_true hduring.2)

/-! ## An `EXEC` that ends, and four that leave the watched keys -/

/-- Session 1 watches `z` and queues commands. -/
def queueWatching (cs : List Command) : List (Nat × Action × List Tick) :=
  watchZ ++ (1, .multi, []) :: cs.map fun c => (1, .submit c, [])

/-- An `EXEC` of one command, after the dispatch. -/
def execOne (ending : List (Nat × Action × List Tick)) : List (Nat × Action × List Tick) :=
  [(1, .begin none, []), (1, .checkEpoch, []), (1, .checkKey zKey, []), (1, .checkKey zKey, []),
    (1, .run, [])] ++ ending

theorem ended_execOne :
    ∃ w w₁ w', Transition.run World.step (World.init 16) (queueWatching [addToZ "1" "a"]) = some w ∧
      World.step w (1, .exec, []) = some w₁ ∧ (w.threads 1).watched ≠ [] ∧
      Transition.run (Transition.guarded World.step (duringExec 1)) w₁ (execOne (settle 1 0)) =
        some w' ∧ (w'.threads 1).Ended := by
  have heval : (Transition.run World.step (World.init 16) (queueWatching [addToZ "1" "a"])).any
      (fun w => (w.threads 1).inMulti && clearsWatch w (1, .exec, []) &&
        !(w.threads 1).watched.isEmpty && (World.step w (1, .exec, [])).any fun w₁ =>
          (Transition.run (Transition.guarded World.step (duringExec 1)) w₁
            (execOne (settle 1 0))).any fun w' => (w'.threads 1).phase.isIdle) = true := by
    decide +kernel
  simp only [Option.any_eq_true, Bool.and_eq_true, Bool.not_eq_true', List.isEmpty_eq_false_iff,
    Phase.isIdle_iff] at heval
  obtain ⟨w, hw, ⟨⟨hm, hok⟩, hwatch⟩, w₁, hw₁, w', hw', hidle⟩ := heval
  exact ⟨w, w₁, w', hw, hw₁, hwatch, hw',
    ended_of_replied 16 1 (Transition.reach_of_any_run _ .start hw) hm rfl hok hw₁
      (Transition.reach_of_run _ .start hw') hidle⟩

/-- An `EXEC` of an empty queue, one whose `begin` fails, one whose commit fails, and one
that loses a conflict on an unwatched key, with no retries: each has replied and still
watches `z`. -/
theorem exec_leaves_watched :
    List.Forall (fun run => ∃ w, Transition.run World.step (World.init 0) run = some w ∧
        (w.threads 1).phase = .idle ∧ (w.threads 1).inMulti = false ∧ ¬(w.threads 1).Ended)
      [queueWatching [] ++ [(1, .exec, [])],
        queueWatching [addToZ "1" "a"] ++ [(1, .exec, []), (1, .begin (some .dbClosed), [])],
        queueWatching [addToZ "1" "a"] ++ (1, .exec, []) ::
          execOne [(1, .commit (some .dbClosed), []), (1, .release, [])],
        queueWatching [.zadd 0 (ascii "y") [ascii "1", ascii "a"]] ++ (1, .exec, []) ::
          execOne [(1, .commit (some .conflict), []), (1, .release, [])]] := by
  rw [List.forall_iff_forall_mem]
  intro run hrun
  have heval : (Transition.run World.step (World.init 0) run).any (fun w =>
      (w.threads 1).phase.isIdle && !(w.threads 1).inMulti && !(w.threads 1).watched.isEmpty) =
        true := by
    revert hrun run
    decide +kernel
  obtain ⟨w, hw, hleft⟩ := Transition.exists_of_run_any heval
  simp only [Bool.and_eq_true, Phase.isIdle_iff, Bool.not_eq_true', List.isEmpty_eq_false_iff]
    at hleft
  exact ⟨w, hw, hleft.1.1, hleft.1.2, fun h => hleft.2 h.watched⟩

end Invar
