import Invar.System.Effects

/-!
# What it is to run a queue of ops

`QueueRuns i tx₀ queue outcomes tx` says that the ops of `queue`, run once each and in
order on the transaction `tx₀`, end with `outcomes` and `tx`. An op that is one step
runs with some clock and meets some registry; a script runs its commands on the same
transaction, one after the other. The machine interleaves these pieces with the steps
of other sessions, and `Moves.runs` shows that an attempt which reaches its commit has
run the queue in this sense.
-/

namespace Invar

open StoreProg Session

/-! ## Runs of commands and scripts -/

/-- What the wire half of a command replies. -/
def Command.reply (c : Command) : Outcome → RespValue
  | .ok res => res.reply
  | .error e => c.info.onError e

/-- What `defer_claims` takes out of an outcome. -/
def Command.taken (c : Command) : Outcome → List Claim
  | .ok res => (c.deferClaims res).2
  | .error _ => []

mutual

inductive CommandRuns (i : Nat) : Command → Tx → Outcome → Tx → Prop
  | atomic (c : Command) (op : AtomicOp) (env : Nat → Tick) (tx : Tx) (sh : Shared)
      (h : c.atomicOp? = some op) :
      CommandRuns i c tx (op.run i env tx sh).1 (op.run i env tx sh).2.1
  | eval (c : Command) (script : Script) (tx : Tx) (out : Outcome) (tx' : Tx)
      (h : c.firstStage? = some (.script script [])) (hs : ScriptRuns i script [] tx out tx') :
      CommandRuns i c tx out tx'

/-- The run of a script from a point where it has deferred some claims. -/
inductive ScriptRuns (i : Nat) : Script → List Claim → Tx → Outcome → Tx → Prop
  | done (reply : RespValue) (deferred : List Claim) (tx : Tx) :
      ScriptRuns i (.done reply) deferred tx (.ok { reply, claims := deferred }) tx
  | fail (msg : String) (deferred : List Claim) (tx : Tx) :
      ScriptRuns i (.fail msg) deferred tx
        (.error (.redis ("Error running script (new script): " ++ msg))) tx
  | call (c : Command) (next : RespValue → Script) (deferred : List Claim) (tx tx₁ tx' : Tx)
      (out out' : Outcome) (hc : CommandRuns i (c.prepare true) tx out tx₁)
      (hs : ScriptRuns i (next ((c.prepare true).reply out))
        (deferred ++ (c.prepare true).taken out) tx₁ out' tx') :
      ScriptRuns i (.call c next) deferred tx out' tx'

end

inductive QueueRuns (i : Nat) (tx₀ : Tx) : List Command → List Outcome → Tx → Prop
  | nil : QueueRuns i tx₀ [] [] tx₀
  | snoc (queue : List Command) (outcomes : List Outcome) (tx tx' : Tx) (c : Command)
      (out : Outcome) (hq : QueueRuns i tx₀ queue outcomes tx) (hc : CommandRuns i c tx out tx') :
      QueueRuns i tx₀ (queue ++ [c]) (outcomes ++ [out]) tx'

theorem QueueRuns.length_eq {i : Nat} {tx₀ tx : Tx} {queue : List Command}
    {outcomes : List Outcome} (h : QueueRuns i tx₀ queue outcomes tx) :
    outcomes.length = queue.length := by
  induction h with
  | nil => rfl
  | snoc _ _ _ _ _ _ _ _ ih => simp [ih]

/-- The step that begins an attempt. -/
def Action.begins : Action → Bool
  | .begin none => true
  | _ => false

/-! ## The rest of a run -/

/-- The stages of a command that works on the dispatcher's transaction alone. -/
def Stage.inTx : Stage → Bool
  | .start | .script .. | .wire .. | .giveBack .. => true
  | _ => false

/-- The current command, from the stage it is in, can end with `out` and `tx'`. -/
def Stage.Finishes (i : Nat) (cmd : Command) (tx : Tx) (out : Outcome) (tx' : Tx) : Stage → Prop
  | .start => CommandRuns i cmd tx out tx'
  | .script sc deferred | .wire _ sc deferred => ScriptRuns i sc deferred tx out tx'
  | .giveBack _ e => out = .error e ∧ tx' = tx
  | _ => False

/-- When `cmd` has ended with `out` and `tx`, the scripts around it can end with `out'`
and `tx'`. -/
def FramesFinish (i : Nat) : List Frame → Command → Outcome → Tx → Outcome → Tx → Prop
  | [], _, out, tx, out', tx' => out' = out ∧ tx' = tx
  | f :: rest, cmd, out, tx, out', tx' =>
    ∃ o t, ScriptRuns i (f.next (cmd.reply out)) (f.deferred ++ cmd.taken out) tx o t ∧
      FramesFinish i rest f.cmd o t out' tx'

/-- A transaction that has done nothing yet, on a snapshot. -/
structure Tx.Fresh (tx : Tx) (snapshot : Store) : Prop where
  view : tx.txn.view = snapshot
  written : tx.txn.written = []
  pops : tx.pops = []
  adds : tx.adds = []

/-- `top` is the op of the queue that runs now: it began on `tx₁`, after the ops before
it, and however the current command ends, `top` ends so. -/
structure OpRun.Runs (i : Nat) (queue : List Command) (snapshot : Store) (r : OpRun)
    (stage : Stage) (tx₀ tx₁ : Tx) (top : Command) : Prop where
  fresh : tx₀.Fresh snapshot
  id : tx₀.id = r.tx.id
  before : QueueRuns i tx₀ (queue.take r.outcomes.length) r.outcomes tx₁
  isTop : queue[r.outcomes.length]? = some top
  inTx : stage.inTx = true
  rest : ∀ o t o' t', stage.Finishes i r.cmd r.tx o t →
    FramesFinish i r.frames r.cmd o t o' t' → CommandRuns i top tx₁ o' t'

/-- How far an attempt has run the queue. -/
def Phase.Runs (i : Nat) (queue : List Command) (snapshot : Store) : Phase → Prop
  | .checkEpoch _ tx | .checkKeys _ tx _ => tx.Fresh snapshot
  | .ops r stage => ∃ tx₀ tx₁ top, r.Runs i queue snapshot stage tx₀ tx₁ top
  | .commit _ tx outcomes =>
    ∃ tx₀, tx₀.Fresh snapshot ∧ tx₀.id = tx.id ∧ QueueRuns i tx₀ queue outcomes tx
  | _ => True

section

variable {i : Nat} {env : Nat → Tick} {sh sh' : Shared} {s s' : Session} {a : Action}
  {snapshot : Store}

variable {tx tx₀ : Tx}

/-- The queue has run up to the next op, or to its end. -/
theorem nextOp_runs {d : Dispatch} {outcomes : List Outcome}
    (hf : tx₀.Fresh snapshot) (hid : tx₀.id = tx.id)
    (hb : QueueRuns i tx₀ (s.queue.take outcomes.length) outcomes tx) :
    (s.nextOp d tx outcomes).phase.Runs i s.queue snapshot := by
  unfold nextOp
  split
  · rename_i cmd hcmd
    refine ⟨tx₀, tx, cmd, hf, hid, hb, hcmd, rfl, ?_⟩
    rintro o t o' t' hstage ⟨rfl, rfl⟩
    exact hstage
  · rename_i hnone
    refine ⟨tx₀, hf, hid, ?_⟩
    rwa [List.take_of_length_le (List.getElem?_eq_none_iff.mp hnone)] at hb

theorem firstOp_runs (d : Dispatch) (hf : tx.Fresh snapshot) :
    (s.nextOp d tx []).phase.Runs i (s.nextOp d tx []).queue snapshot := by
  have hnext : (s.nextOp d tx []).phase.Runs i s.queue snapshot :=
    nextOp_runs hf rfl (by simpa using .nil)
  obtain ⟨phase, -, heq⟩ := nextOp_eq s d tx []
  rw [heq] at hnext ⊢
  exact hnext

/-- The current command has run. -/
theorem Completes.runs {r : OpRun} {out : Outcome} (h : Completes s r out s') {tx₁ : Tx}
    {top : Command} (hf : tx₀.Fresh snapshot) (hid : tx₀.id = r.tx.id)
    (hb : QueueRuns i tx₀ (s.queue.take r.outcomes.length) r.outcomes tx₁)
    (htop : s.queue[r.outcomes.length]? = some top)
    (hrest : ∀ o' t', FramesFinish i r.frames r.cmd out r.tx o' t' → CommandRuns i top tx₁ o' t') :
    s'.phase.Runs i s'.queue snapshot := by
  cases h with
  | conflict =>
    rw [conflicted_phase]
    trivial
  | abandon => trivial
  | next phase hfr hn hbatch heq =>
    have hrun : CommandRuns i top tx₁ out r.tx := hrest out r.tx (by rw [hfr]; exact ⟨rfl, rfl⟩)
    have hsnoc := hb.snoc _ _ _ _ _ _ hrun
    have htake : s.queue.take (r.outcomes ++ [out]).length =
        s.queue.take r.outcomes.length ++ [top] := by
      rw [List.length_append, List.length_singleton, List.take_add_one, htop]
      rfl
    have hnext := nextOp_runs (d := r.dispatch) hf hid (htake ▸ hsnoc)
    rw [heq] at hnext
    exact hnext
  | called f frames res hfr ho =>
    refine ⟨tx₀, tx₁, top, hf, hid, hb, htop, rfl, fun o t o' t' hstage hframes => ?_⟩
    refine hrest o' t' ?_
    rw [hfr]
    subst ho
    exact ⟨o, t, hstage, hframes⟩
  | raised f frames e hfr ho =>
    refine ⟨tx₀, tx₁, top, hf, hid, hb, htop, rfl, fun o t o' t' hstage hframes => ?_⟩
    refine hrest o' t' ?_
    rw [hfr]
    subst ho
    exact ⟨o, t, by simpa [Command.taken, Command.reply, Stage.Finishes] using hstage, hframes⟩

/-- The start of a command that keeps to the dispatcher's transaction. -/
def Command.staysInTx (c : Command) : Bool :=
  match c.body with
  | .atomic _ | .bzpop _ false | .xread _ false | .eval _ => true
  | _ => false

theorem Command.staysInTx_stage {c : Command} {stage : Stage} (h : c.staysInTx = true)
    (hst : c.firstStage? = some stage) : ∃ script, stage = .script script [] := by
  unfold Command.firstStage? at hst
  split at hst <;> cases hst <;> simp_all [Command.staysInTx]

/-- A command that waits or flushes has not started. -/
theorem Phase.Runs.never {stage : Stage} {P : Prop} (h : s.phase.Runs i s.queue snapshot)
    (hph : s.phase = .ops r stage) (hin : stage.inTx = false) : P := by
  rw [hph] at h
  obtain ⟨tx₀, tx₁, top, hruns⟩ := h
  rw [hruns.inTx] at hin
  cases hin

/-- **However its pieces are interleaved with other sessions, an attempt runs the queue
op by op on its snapshot.** -/
theorem Moves.runs (h : Moves i env sh s a sh' s') (hr : s.phase.Runs i s.queue snapshot)
    (hstay : ∀ r, a = .run → s.phase = .ops r .start → r.cmd.staysInTx = true) :
    s'.phase.Runs i s'.queue (if a.begins then sh.store else snapshot) := by
  -- an op of the queue, or a command of its script, ends
  have ends {r : OpRun} {stage : Stage} {out : Outcome} {tx : Tx} (hph : s.phase = .ops r stage)
      (hid : tx.id = r.tx.id) (hfin : stage.Finishes i r.cmd r.tx out tx) :
      (s.complete { r with tx } out).phase.Runs i
        (s.complete { r with tx } out).queue snapshot := by
    rw [hph] at hr
    obtain ⟨tx₀, tx₁, top, hruns⟩ := hr
    exact (completes s { r with tx } out).runs hruns.fresh (hruns.id.trans hid.symm) hruns.before
      hruns.isTop fun o' t' hframes => hruns.rest out tx o' t' hfin hframes
  -- a piece of a script
  have goes {r r' : OpRun} {stage stage' : Stage} (hph : s.phase = .ops r stage)
      (hid : r'.tx.id = r.tx.id) (ho : r'.outcomes = r.outcomes) (hin : stage'.inTx = true)
      (hfin : ∀ o t o' t', stage'.Finishes i r'.cmd r'.tx o t →
        FramesFinish i r'.frames r'.cmd o t o' t' →
        ∃ o₁ t₁, stage.Finishes i r.cmd r.tx o₁ t₁ ∧ FramesFinish i r.frames r.cmd o₁ t₁ o' t') :
      (Phase.ops r' stage').Runs i s.queue snapshot := by
    rw [hph] at hr
    obtain ⟨tx₀, tx₁, top, hruns⟩ := hr
    refine ⟨tx₀, tx₁, top, hruns.fresh, hruns.id.trans hid.symm, ho ▸ hruns.before,
      ho ▸ hruns.isTop, hin, fun o t o' t' hstage hframes => ?_⟩
    obtain ⟨o₁, t₁, hstage₁, hframes₁⟩ := hfin o t o' t' hstage hframes
    exact hruns.rest o₁ t₁ o' t' hstage₁ hframes₁
  cases h with
  | beginWatched d hph hb hw => exact ⟨rfl, rfl, rfl, rfl⟩
  | begin d hph hw =>
    exact firstOp_runs d ⟨rfl, rfl, rfl, rfl⟩
  | epochKept d tx hph =>
    rw [hph] at hr
    exact hr
  | keyKept d tx todo e hph =>
    rw [hph] at hr
    exact ⟨hr.view, hr.written, hr.pops, hr.adds⟩
  | keysChecked d tx key hph =>
    rw [hph] at hr
    exact firstOp_runs d hr
  | atomic r op hph hop =>
    exact ends hph (performs i env r.tx sh op).ran.id (.atomic r.cmd op env r.tx sh hop)
  | enter r stage hph hst =>
    obtain ⟨script, rfl⟩ := Command.staysInTx_stage (hstay r rfl hph) hst
    exact goes hph rfl rfl rfl fun o t o' t' hstage hframes =>
      ⟨o, t, .eval r.cmd script _ _ _ hst hstage, hframes⟩
  | scriptDone r reply deferred hph => exact ends hph rfl (.done reply deferred r.tx)
  | scriptFail r msg deferred e hph he =>
    refine goes hph rfl rfl rfl ?_
    rintro o t o' t' ⟨rfl, rfl⟩ hframes
    subst he
    exact ⟨_, _, .fail msg deferred _, hframes⟩
  | scriptCall r c next deferred hph =>
    refine goes hph rfl rfl rfl ?_
    rintro o t o' t' hstage ⟨o₁, t₁, hscript, hframes⟩
    exact ⟨o₁, t₁, .call c next deferred _ t t₁ o o₁ hstage hscript, hframes⟩
  | wireWake r c rest sc deferred hph | wireDone r sc deferred hph | giveBack r c rest e hph =>
    exact goes hph rfl rfl rfl fun o t o' t' hstage hframes => ⟨o, t, hstage, hframes⟩
  | gaveBack r e hph => exact ends hph rfl ⟨rfl, rfl⟩
  | commitConflict d tx outcomes =>
    rw [conflicted_phase]
    trivial
  | submit | exec => exact of_dispatch trivial fun _ => trivial
  | bzpopBeginFailed r op e hph | bzpopBegin r op hph | bzpopError r op own e hph
  | bzpopEmpty r op own hph | bzpopFound r op own p hph | bzpopCommit r own p hph
  | bzpopCommitFailed r own p e hph | bzpopRegister r op hph | bzpopReceive r op w got hph
  | bzpopTimeout r op w hph | bzpopTimeoutClaimed r op w hph | xreadRegister r x hph
  | xreadBegin r x w hph | xreadPark r x w snap ids found hph | xreadAgain r x w hph
  | xreadTimeout r x w hph | xreadTimeoutClaimed r x w hph | flushRows r todo removed hph
  | flushNext r todo rest hph | flushEnd err r todo out hph => exact hr.never hph rfl
  | xreadEnd a r stage w out hph hs =>
    rcases hs with ⟨x, rfl⟩ | ⟨x, snap, rfl⟩ <;> exact hr.never hph rfl
  | refused a hph | multi hph | unwatch hph | spoiled c hph | queued c hph =>
    simp only [hph]
    trivial
  | _ => trivial

end

end Invar
