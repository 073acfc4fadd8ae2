import Invar.System.BatchRuns
import Invar.System.Connection

/-!
# The two models of a dispatch

`System/Connection` handles a request in one go, and `System/Step` cuts `dispatch_pending_ops`
and the run of a script into steps, which those of other sessions come between. Both run the
queue in the sense of `QueueRuns`: for the machine this is `Journal.Settled.ran`, for a
connection it is shown here, for commands that keep to the dispatcher's transaction.
-/

namespace Invar

open StoreProg

/-- The program that is all of a command. -/
def Cmd.plain? (P : Platform) : Cmd → Option (TxProg RespValue)
  | .data c => some (c.run P.ln (P.waiter c))
  | .xread c => some (c.run P.ln none)
  | .bzpop keys wantMin false => some (DataCommand.run P.ln none (.bzpop keys wantMin))
  | .reply r => some (.pure r)
  | .okOp | .durability => some (.pure .ok)
  | .error msg => some (.pure (.error msg))
  | .publish .. => some (.pure (.integer 0))
  | .report => some (.pure .nullBulk)
  | _ => none

/-- Scripts that issue the same commands, whatever the time. -/
def SameScript (same : Cmd → Command → Prop) (P : Platform) (db : Int) : Lua → Script → Prop
  | .done r, .done r' => r = r'
  | .raise msg, .fail msg' => msg = "Error running script (new script): " ++ msg'
  | .call args next, .call c next' =>
    (∀ now, ∃ s cmd, Conn.dispatch P.scripts now { db } args = some (s, cmd) ∧
      same cmd (c.prepare true)) ∧
    ∀ r, SameScript same P db (next r) (next' r)
  | _, _ => False

def SameProgram (P : Platform) (cmd : Cmd) (c : Command) : Prop :=
  ∃ p, cmd.plain? P = some p ∧ c.atomicOp? = some (.plain p)

/-- The same program or script, and the same rendering of errors. -/
def SameCommand (P : Platform) (depth : Nat) (cmd : Cmd) (c : Command) : Prop :=
  (∀ e, cmd.render (.error e) = c.info.onError e) ∧
    match depth with
    | 0 => SameProgram P cmd c
    | depth + 1 => SameProgram P cmd c ∨ ∃ script keys argv db sc,
        cmd = .eval script keys argv db ∧ c.firstStage? = some (.script sc []) ∧
          SameScript (SameCommand P depth) P db (P.lua script keys argv) sc

/-- The machine has a command for every program. -/
theorem exists_sameCommand {P : Platform} {cmd : Cmd} {p : TxProg RespValue}
    (h : cmd.plain? P = some p) (n : Nat) : ∃ c, SameCommand P n cmd c := by
  have hsame : SameProgram P cmd (.mk { onError e := cmd.render (.error e) } (.atomic (.plain p))) :=
    ⟨p, h, rfl⟩
  cases n with
  | zero => exact ⟨_, fun _ => rfl, hsame⟩
  | succ n => exact ⟨_, fun _ => rfl, .inl hsame⟩

/-- The outcome of a command that makes no claims. -/
def CmdOutcome.outcome (out : CmdOutcome) : Outcome := out.map fun reply => { reply }

variable {P : Platform} {i n : Nat} {cmd : Cmd} {c : Command} {m : Machine} {tx tx₀ : Tx}
  {s s' : Conn} {v v' : Server}

theorem Cmd.run_plain {p : TxProg RespValue} (h : cmd.plain? P = some p) (n : Nat) (m : Machine) :
    cmd.run P n m = ((exec p m.env m.txn).out,
      { m with txn := (exec p m.env m.txn).txn, env := (exec p m.env m.txn).env }) := by
  unfold Cmd.plain? at h
  split at h <;> cases h <;> cases n <;> rfl

/-- The command runs as the machine's does, and nothing outside its transaction changes. -/
def Cmd.RunsAs (P : Platform) (i n : Nat) (cmd : Cmd) (c : Command) : Prop :=
  ∀ tx m, tx.txn = m.txn → (cmd.run P n m).2.server = m.server ∧
    ∃ tx', CommandRuns i c tx (CmdOutcome.outcome (cmd.run P n m).1) tx' ∧
      tx'.txn = (cmd.run P n m).2.txn

theorem SameProgram.runsAs (h : SameProgram P cmd c) : cmd.RunsAs P i n c := by
  intro tx m htxn
  obtain ⟨p, hp, hop⟩ := h
  rw [Cmd.run_plain hp, ← htxn]
  exact ⟨rfl, _, .atomic c (.plain p) m.env tx .init hop, rfl⟩

theorem SameCommand.render_eq (h : SameCommand P n cmd c) (out : CmdOutcome) :
    cmd.render out = c.reply (CmdOutcome.outcome out) := by
  cases out with
  | ok reply => rfl
  | error e => cases n <;> exact h.1 e

theorem taken_outcome (c : Command) (out : CmdOutcome) :
    c.taken (CmdOutcome.outcome out) = [] := by
  cases out with
  | ok reply =>
    show (c.deferClaims { reply }).2 = []
    unfold Command.deferClaims
    split <;> rfl
  | error e => rfl

/-- The commands that a script issues run one after the other. -/
theorem scriptRuns {db : Int}
    (hruns : ∀ cmd c, SameCommand P n cmd c → cmd.RunsAs P i n c)
    {call : List Bytes → Machine → RespValue × Machine}
    (hcall : ∀ args m s cmd, Conn.dispatch P.scripts (m.env 0).now { db } args = some (s, cmd) →
      call args m = (cmd.render (cmd.run P n m).1, (cmd.run P n m).2))
    {l : Lua} {sc : Script} (h : SameScript (SameCommand P n) P db l sc) (htxn : tx.txn = m.txn) :
    (l.run call m).2.server = m.server ∧
      ∃ tx', ScriptRuns i sc [] tx (CmdOutcome.outcome (l.run call m).1) tx' ∧
        tx'.txn = (l.run call m).2.txn := by
  induction l generalizing sc tx m with
  | done reply =>
    cases sc with
    | done reply' =>
      obtain rfl : reply = reply' := h
      exact ⟨rfl, tx, .done reply [] tx, htxn⟩
    | _ => exact h.elim
  | raise msg =>
    cases sc with
    | fail msg' =>
      obtain rfl := h
      exact ⟨rfl, tx, .fail msg' [] tx, htxn⟩
    | _ => exact h.elim
  | call args next ih =>
    cases sc with
    | call c next' =>
      obtain ⟨hdispatch, hnext⟩ := h
      obtain ⟨s, cmd, hs, hsame⟩ := hdispatch (m.env 0).now
      obtain ⟨hserver, tx₁, hrun, htxn₁⟩ := hruns cmd _ hsame tx m htxn
      rw [Lua.run, hcall args m s cmd hs]
      obtain ⟨hserver', tx', hrest, htxn'⟩ := ih _ (hnext _) htxn₁
      refine ⟨hserver'.trans hserver, tx', .call c next' [] tx tx₁ tx' _ _ hrun ?_, htxn'⟩
      rwa [taken_outcome, ← hsame.render_eq]
    | _ => exact h.elim

theorem SameCommand.runsAs (h : SameCommand P n cmd c) : cmd.RunsAs P i n c := by
  induction n generalizing cmd c with
  | zero => exact SameProgram.runsAs h.2
  | succ n ih =>
    rcases h.2 with hplain | ⟨script, keys, argv, db, sc, rfl, hstage, hscript⟩
    · exact hplain.runsAs
    · intro tx m htxn
      refine (scriptRuns (fun _ _ => ih) (fun args m s cmd hs => ?_) hscript htxn).imp_right
        (Exists.imp fun tx' => And.imp_left (.eval c sc tx _ tx' hstage))
      rw [hs]

/-- The loop over the queue. -/
theorem queueRuns (batch : Bool) {cmds : List Cmd} {cs done : List Command}
    {outcomes : List CmdOutcome} (h : List.Forall₂ (SameCommand P P.scriptDepth) cmds cs)
    (hdone : QueueRuns i tx₀ done (outcomes.map CmdOutcome.outcome) tx) (htxn : tx.txn = m.txn) :
    (runQueue P batch cmds outcomes m).2.server = m.server ∧
    ∀ all, (runQueue P batch cmds outcomes m).1 = .ran all →
      ∃ tx', QueueRuns i tx₀ (done ++ cs) (all.map CmdOutcome.outcome) tx' ∧
        tx'.txn = (runQueue P batch cmds outcomes m).2.txn := by
  induction h generalizing done outcomes tx m with
  | nil =>
    refine ⟨rfl, fun all hall => ?_⟩
    cases hall
    rw [List.append_nil]
    exact ⟨tx, hdone, htxn⟩
  | @cons cmd c cmds cs hcmd hrest ih =>
    obtain ⟨hserver, tx₁, hrun, htxn₁⟩ := hcmd.runsAs tx m htxn
    have hdone' := hdone.snoc _ _ _ _ _ _ hrun
    rw [runQueue]
    generalize cmd.run P P.scriptDepth m = res at *
    obtain ⟨out, m₁⟩ := res
    rw [show outcomes.map CmdOutcome.outcome ++ [CmdOutcome.outcome out] =
      (outcomes ++ [out]).map CmdOutcome.outcome by simp] at hdone'
    obtain ⟨hserver', hran⟩ := ih hdone' htxn₁
    rw [List.append_cons]
    have hgo := And.intro (hserver'.trans hserver) hran
    cases out with
    | ok reply => exact hgo
    | error e =>
      rcases e with (_ | _ | _ | _) | _ | _ | _ | _
      all_goals
        first
        | exact ⟨hserver, fun all hall => by cases hall⟩
        | cases batch with
          | true => exact hgo
          | false => exact ⟨hserver, fun all hall => by cases hall⟩

/-- What a call of `dispatch_pending_ops` has done: the queue has run on a snapshot and the
transaction is committed, or the store is as it was. -/
def Dispatched (i : Nat) (cs : List Command) (batch : Bool) (v v' : Server)
    (replies : List RespValue) : Prop :=
  v'.store = v.store ∨ ∃ tx₀ tx outcomes, tx₀.Fresh v.store ∧ QueueRuns i tx₀ cs outcomes tx ∧
    v'.store = tx.txn.applyTo v.store ∧
    let results := List.zipWith Command.reply cs outcomes
    replies = if batch then [.array (some results)] else results

theorem store_foldl_deliver (cmds : List Cmd) (v : Server) :
    (cmds.foldl Cmd.deliver v).store = v.store := by
  induction cmds generalizing v with
  | nil => rfl
  | cons cmd cmds ih =>
    rw [List.foldl_cons, ih]
    cases cmd <;> rfl

theorem render_outcomes {cmds : List Cmd} {cs : List Command}
    (h : List.Forall₂ (SameCommand P n) cmds cs) (outcomes : List CmdOutcome) :
    (cmds.zip outcomes).map (fun co => co.1.render co.2) =
      List.zipWith Command.reply cs (outcomes.map CmdOutcome.outcome) := by
  induction h generalizing outcomes with
  | nil => rfl
  | cons hcmd _ ih =>
    cases outcomes with
    | nil => rfl
    | cons out outcomes =>
      rw [List.zip_cons_cons, List.map_cons, hcmd.render_eq, ih]
      rfl

theorem dispatched_replyAll {cs : List Command} {outcomes : List CmdOutcome}
    (h : List.Forall₂ (SameCommand P n) s.queue cs) (batch : Bool) {txn : Txn Bytes Row}
    (hfresh : tx₀.Fresh v.store) (htxn : tx.txn = txn)
    (hrun : QueueRuns i tx₀ cs (outcomes.map CmdOutcome.outcome) tx) :
    let after := s.replyAll batch outcomes { v with store := txn.applyTo v.store }
    Dispatched i cs batch v after.2.1 after.2.2 := by
  refine .inr ⟨tx₀, tx, _, hfresh, hrun, ?_, ?_⟩
  · rw [htxn]
    cases batch <;> exact store_foldl_deliver ..
  · rw [← render_outcomes h]
    cases batch <;> rfl

variable {attempts : List CommitTry} {batch : Bool} {replies : List RespValue} {cs : List Command}

theorem Conn.dispatched_commitLoop {retries : Nat}
    (h : List.Forall₂ (SameCommand P P.scriptDepth) s.queue cs) :
    s.commitLoop P batch retries attempts v = some (s', v', replies) →
      Dispatched i cs batch v v' replies := by
  let tx₀ (v : Server) : Tx :=
    { id := 0, start := 0, isolation := .snapshot, txn := { view := v.store } }
  have hstart (v : Server) :
      QueueRuns i (tx₀ v) [] (([] : List CmdOutcome).map CmdOutcome.outcome) (tx₀ v) := .nil
  have hqueue (v : Server) (env : Nat → Tick) :=
    queueRuns (m := ⟨(tx₀ v).txn, v, env⟩) batch h (hstart v) rfl
  have hsame {v v' : Server} (hran : s.Ran P batch v v') : v' = v := by
    rcases hran with rfl | ⟨env, rfl⟩
    · rfl
    · exact (hqueue v env).1
  refine commitLoop_induction (M := fun v r => Dispatched i cs batch v r.2.1 r.2.2)
    (fun v v' c replies hran _ => ?_) (fun v env outcomes m hend => ?_)
    fun v v' r hran ih => ?_
  · exact .inl (congrArg _ (hsame hran))
  · obtain ⟨hserver, hran⟩ := hqueue v env
    rw [hend] at hserver hran
    obtain rfl : m.server = v := hserver
    obtain ⟨tx, hrun, htxn⟩ := hran outcomes rfl
    exact dispatched_replyAll h batch ⟨rfl, rfl, rfl, rfl⟩ htxn hrun
  · exact hsame hran ▸ ih

/-- **A call of `dispatch_pending_ops` runs the queue on a snapshot and commits**, or it changes
nothing. -/
theorem Conn.dispatched (h : List.Forall₂ (SameCommand P P.scriptDepth) s.queue cs)
    (hrun : s.dispatchPendingOps P batch attempts v = some (s', v', replies)) :
    Dispatched i cs batch v v' replies := by
  unfold dispatchPendingOps at hrun
  repeat' split at hrun
  all_goals
    first
    | exact dispatched_commitLoop h hrun
    | (cases hrun; exact .inl rfl)

end Invar
