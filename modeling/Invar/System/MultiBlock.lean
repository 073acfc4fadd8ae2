import Invar.Lib.Yields
import Invar.System.Connection

/-!
# What a `MULTI` block does before its `EXEC`

Requests inside a `MULTI` block only fill the queue, and a block that ends with
`DISCARD` or an aborted `EXEC` leaves no trace. There are two exceptions. `SELECT`
switches the database when it is queued. And a script works outside its transaction
when it flushes or pops with `BZPOPMIN`: an `EXEC` that runs it and is then aborted
by a conflict has done so.
-/

namespace Invar

open StoreProg Dispatch Fallible

/-! ## Commands that keep to their transaction -/

/-- All commands that a script may issue satisfy `p`. -/
def Lua.Issues (p : List Bytes → Prop) : Lua → Prop
  | .call args next => p args ∧ ∀ r, (next r).Issues p
  | _ => True

/-- The command has no effect outside its transaction: it is no flush and no blocking pop,
and if it is a script it issues none of them. -/
def Cmd.Quiet (P : Platform) : (depth : Nat) → Cmd → Prop
  | _, .flush _ => False
  | _, .bzpop _ _ true => False
  | depth + 1, .eval script keys argv db =>
    (P.lua script keys argv).Issues fun args => ∀ now s cmd,
      Conn.dispatch P.scripts now { db } args = some (s, cmd) → Cmd.Quiet P depth cmd
  | _, _ => True

theorem Lua.run_server {call : List Bytes → Machine → RespValue × Machine}
    {p : List Bytes → Prop} (hcall : ∀ args m, p args → (call args m).2.server = m.server)
    {l : Lua} (h : l.Issues p) (m : Machine) : (l.run call m).2.server = m.server := by
  induction l generalizing m with
  | done r => rfl
  | raise msg => rfl
  | call args next ih => rw [Lua.run, ih _ (h.2 _), hcall args m h.1]

variable {cmd : Cmd} {attempts : List CommitTry} {batch : Bool} {r : Conn × Server × List RespValue}
  {s s' : Conn} {v v' : Server} {name : String} {args : List Bytes} {now db : Int}
  {scripts : Bytes → Option Bytes} {P : Platform} {replies : List RespValue}

/-- **A quiet command leaves the server as it is.** -/
theorem Cmd.run_server (P : Platform) {depth : Nat} (h : cmd.Quiet P depth)
    (m : Machine) : (cmd.run P depth m).2.server = m.server := by
  induction depth generalizing cmd m with
  | zero =>
    cases cmd with
    | bzpop keys wantMin canBlock =>
      cases canBlock with
      | true => exact h.elim
      | false => rfl
    | flush targets => exact h.elim
    | _ => rfl
  | succ depth ih =>
    cases cmd with
    | bzpop keys wantMin canBlock =>
      cases canBlock with
      | true => exact h.elim
      | false => rfl
    | flush targets => exact h.elim
    | eval script keys argv db =>
      refine Lua.run_server (fun args m hargs => ?_) h m
      split
      · rfl
      · exact ih (hargs _ _ _ ‹_›) m
    | _ => rfl

theorem runQueue_server (P : Platform) (batch : Bool) {cmds : List Cmd}
    (h : ∀ cmd ∈ cmds, cmd.Quiet P P.scriptDepth) (outcomes : List CmdOutcome) (m : Machine) :
    (runQueue P batch cmds outcomes m).2.server = m.server := by
  induction cmds generalizing outcomes m with
  | nil => rfl
  | cons cmd rest ih =>
    have hcmd := cmd.run_server P (h cmd List.mem_cons_self) m
    have hrest := ih fun c hc => h c (List.mem_cons_of_mem _ hc)
    rw [runQueue]
    generalize cmd.run P P.scriptDepth m = r at hcmd
    dsimp only
    split
    · exact hcmd
    · exact hcmd
    · split
      · exact (hrest _ _).trans hcmd
      · exact hcmd
    · exact (hrest _ _).trans hcmd

/-! ## The commit loop -/

/-- What every end of the commit loop has in common: the database, and an empty queue. If all
commands are quiet, an `EXEC` has changed the server only if its reply is an array. -/
structure Conn.Executed (P : Platform) (batch : Bool) (s : Conn) (v : Server)
    (r : Conn × Server × List RespValue) : Prop where
  db : r.1.db = s.db
  inMulti : r.1.inMulti = s.inMulti
  queue : r.1.queue = []
  server : batch = true → (∀ cmd ∈ s.queue, cmd.Quiet P P.scriptDepth) →
    (∀ replies, r.2.2 ≠ [.array (some replies)]) → r.2.1 = v

theorem Conn.executed_commitLoop (P : Platform) {retries : Nat}
    (hrun : s.commitLoop P batch retries attempts v = some r) : s.Executed P batch v r := by
  have hserver {v v' : Server} (h : s.Ran P batch v v')
      (hquiet : ∀ cmd ∈ s.queue, cmd.Quiet P P.scriptDepth) : v' = v := by
    rcases h with rfl | ⟨env, rfl⟩
    · rfl
    · exact runQueue_server P batch hquiet [] _
  refine commitLoop_induction (fun v v' c replies h hc => ?_) (fun v env outcomes m _ => ?_)
    (fun v v' r h ih => ?_) hrun
  · rcases hc with rfl | rfl <;> exact ⟨rfl, rfl, rfl, fun _ hquiet _ => hserver h hquiet⟩
  · cases batch with
    | false => exact ⟨rfl, rfl, rfl, fun hbatch => absurd hbatch Bool.false_ne_true⟩
    | true => exact ⟨rfl, rfl, rfl, fun _ _ hnone => (hnone _ rfl).elim⟩
  · exact ⟨ih.db, ih.inMulti, ih.queue, fun hbatch hquiet hnone =>
      (ih.server hbatch hquiet hnone).trans (hserver h hquiet)⟩

theorem Conn.executed_dispatchPendingOps (P : Platform) (hmulti : s.inMulti = false)
    (hrun : s.dispatchPendingOps P batch attempts v = some r) : s.Executed P batch v r := by
  rw [dispatchPendingOps, hmulti] at hrun
  simp only [Bool.false_eq_true, if_false] at hrun
  split at hrun
  · cases hrun
    exact ⟨rfl, rfl, rfl, fun _ _ _ => rfl⟩
  · split at hrun
    · rename_i hempty
      cases hrun
      exact ⟨rfl, rfl, List.isEmpty_iff.mp hempty, fun _ _ _ => rfl⟩
    · exact executed_commitLoop P hrun

/-! ## Requests inside the block -/

/-- Whether `SELECT` accepts its arguments. -/
def acceptsDb : List Bytes → Bool
  | [db] => (parseI64 db).any (0 ≤ ·)
  | _ => false

/-- A `SELECT` that is accepted. -/
def Request.selects (r : Request) : Bool := r.name = ascii "select" && acceptsDb r.args.tail

/-- A blocking pop, which works on a transaction of its own. -/
def Cmd.popsAlone : Cmd → Bool
  | .bzpop _ _ canBlock => canBlock
  | _ => false

/-- What a branch of the dispatcher does to the session. -/
structure Conn.Branched (s s' : Conn) (selects : Bool) : Prop where
  inMulti : s'.inMulti = s.inMulti
  queue : s'.queue = s.queue
  db : selects = false → s'.db = s.db

/-- A pop blocks only if the session may. -/
def Conn.Permits (s : Conn) (cmd : Cmd) : Prop := cmd.popsAlone = true → s.inMulti = false

/-- A row of the table that is not about data. -/
def ServerBranch.Keeps (name : String) (branch : ServerBranch) : Prop :=
  ∀ s args s' cmd, branch s args = some (s', cmd) →
    s.Branched s' (name = "select" && acceptsDb args) ∧
      Yields s.Permits cmd

theorem ServerBranch.keeps_ofPure {f : Conn → List Bytes → Option (Parse Cmd)}
    (h : ∀ s args cmd, f s args = some cmd → Yields s.Permits cmd) :
    (ServerBranch.ofPure f).Keeps name := by
  intro s args s' cmd hf
  simp only [ofPure, Option.map_eq_some_iff, Prod.mk.injEq] at hf
  obtain ⟨_, hf, rfl, rfl⟩ := hf
  exact ⟨⟨rfl, rfl, fun _ => rfl⟩, h s args _ hf⟩

theorem keeps_always (hpop : cmd.popsAlone = false) : (always cmd).Keeps name := by
  refine ServerBranch.keeps_ofPure fun s args _ hcmd => ?_
  cases hcmd
  exact yields_ok (by simp [Conn.Permits, hpop])

theorem keeps_selectBranch : selectBranch.Keeps "select" := by
  intro s args s' cmd h
  unfold selectBranch at h
  split at h
  · split at h
    · rename_i db hdb
      split at h
      · rename_i hpos
        cases h
        refine ⟨⟨rfl, rfl, fun hsel => ?_⟩, yields_ok ?_⟩
        · simp [acceptsDb, hdb, hpos] at hsel
        · split <;> exact nofun
      · cases h
        exact ⟨⟨rfl, rfl, fun _ => rfl⟩, yields_error _⟩
    · cases h
      exact ⟨⟨rfl, rfl, fun _ => rfl⟩, yields_error _⟩
  · simp at h

theorem keeps_clientBranch : clientBranch.Keeps "client" := by
  intro s args s' cmd h
  unfold clientBranch at h
  simp only [Option.some.injEq] at h
  split at h
  · cases h
    exact ⟨⟨rfl, rfl, fun _ => rfl⟩, yields_ok nofun⟩
  · repeat' split at h
    all_goals
      cases h
      exact ⟨⟨rfl, rfl, fun _ => rfl⟩, yields_ok nofun⟩

theorem keeps_helloBranch : helloBranch.Keeps "hello" := by
  intro s args s' cmd h
  cases h
  refine ⟨⟨rfl, rfl, fun _ => rfl⟩, ?_⟩
  split <;> exact yields_ok nofun

theorem keeps_quitBranch : quitBranch.Keeps "quit" := by
  intro s args s' cmd h
  cases h
  exact ⟨⟨rfl, rfl, fun _ => rfl⟩, yields_ok nofun⟩

theorem keeps_evalBranch (name : String) (lookup : Bytes → Option Bytes) :
    (evalBranch name lookup).Keeps name := by
  refine ServerBranch.keeps_ofPure fun s args cmd h => ?_
  split at h
  · cases h
    refine yields_bind fun n => yields_bind fun _ => yields_bind fun _ => ?_
    split <;> exact yields_ok nofun
  · simp at h

theorem keeps_waitBranch : waitBranch.Keeps "wait" := by
  refine ServerBranch.keeps_ofPure fun s args cmd h => ?_
  split at h
  · cases h
    exact yields_bind fun _ => yields_bind fun _ => yields_bind fun _ => yields_bind fun _ =>
      yields_ok nofun
  · simp at h

/-- The pops take from the session whether they may block. -/
theorem keeps_bzpopBranch (name : String) (wantMin : Bool) : (bzpopBranch wantMin).Keeps name := by
  refine ServerBranch.keeps_ofPure fun s args cmd h => ?_
  split at h
  · simp at h
  · cases h
    refine yields_bind fun _ => yields_bind fun _ => yields_ok fun hpop => ?_
    simpa [Cmd.popsAlone, Conn.shouldBlock] using hpop

theorem keeps_publishBranch (name : String) : publishBranch.Keeps name := by
  refine ServerBranch.keeps_ofPure fun s args cmd h => ?_
  split at h
  · cases h
    exact yields_ok nofun
  · simp at h

theorem keeps_pubsubBranch : pubsubBranch.Keeps "pubsub" := by
  refine ServerBranch.keeps_ofPure fun s args cmd h => ?_
  split at h
  · simp at h
  · split at h
    · cases h
      exact yields_ok nofun
    · cases h
      exact yields_error _

theorem keeps_serverTable (scripts : Bytes → Option Bytes) :
    ∀ row ∈ serverTable scripts, row.2.Keeps row.1 := by
  simp only [serverTable, List.forall_mem_cons, List.not_mem_nil, false_imp_iff, implies_true,
    and_true]
  repeat' refine And.intro ?_ ?_
  all_goals first
    | exact keeps_selectBranch
    | exact keeps_clientBranch
    | exact keeps_helloBranch
    | exact keeps_quitBranch
    | exact keeps_evalBranch _ _
    | exact keeps_waitBranch
    | exact keeps_bzpopBranch _ _
    | exact keeps_publishBranch _
    | exact keeps_pubsubBranch
    | exact keeps_always rfl
    | -- the branches written in the table: no argument of theirs matters
      refine ServerBranch.keeps_ofPure fun s args cmd h => ?_
      repeat' split at h
      all_goals
        cases h
        all_goals first
          | exact yields_ok nofun
          | exact yields_bind fun _ => yields_ok nofun

theorem Conn.finish_keeps {name : Bytes} {p : Option (Parse Cmd)}
    (h : s.finish name p = some (s', cmd)) :
    s'.inMulti = s.inMulti ∧ s'.queue = s.queue ∧ s'.db = s.db ∧
      (p = some (.ok cmd) ∨ ∃ msg, cmd = .error msg) := by
  unfold finish at h
  split at h
  · cases h
    exact ⟨rfl, rfl, rfl, .inl rfl⟩
  · cases h
    exact ⟨rfl, rfl, rfl, .inr ⟨_, rfl⟩⟩
  · cases h
  · cases h
    exact ⟨rfl, rfl, rfl, .inr ⟨_, rfl⟩⟩

/-- **What the dispatcher does to the session.** -/
theorem Conn.dispatch_keeps {name : Bytes}
    (h : s.dispatch scripts now (name :: args) = some (s', cmd)) :
    s.Branched s' (lower name = ascii "select" && acceptsDb args) ∧ s.Permits cmd := by
  simp only [dispatch] at h
  split at h
  · rename_i word branch hrow
    have hkeeps := keeps_serverTable scripts _ (List.mem_of_find?_eq_some hrow)
    have hword : ascii word = lower name := by simpa using List.find?_some hrow
    split at h
    · rename_i s₁ p hbranch
      obtain ⟨hb, hyields⟩ := hkeeps s args s₁ p hbranch
      obtain ⟨hmulti, hqueue, hdb, hcmd⟩ := finish_keeps h
      refine ⟨⟨hmulti.trans hb.inMulti, hqueue.trans hb.queue, fun hsel => ?_⟩, ?_⟩
      · refine hdb.trans (hb.db ?_)
        by_cases hselect : word = "select"
        · subst hselect
          simpa [← hword] using hsel
        · simp [hselect]
      · rcases hcmd with hcmd | ⟨msg, rfl⟩
        · exact hyields cmd (Option.some.inj hcmd)
        · exact nofun
    · obtain ⟨hmulti, hqueue, hdb, hcmd⟩ := finish_keeps h
      obtain ⟨msg, rfl⟩ := hcmd.resolve_left nofun
      exact ⟨⟨hmulti, hqueue, fun _ => hdb⟩, nofun⟩
  · split at h
    · obtain ⟨hmulti, hqueue, hdb, hcmd⟩ := finish_keeps h
      refine ⟨⟨hmulti, hqueue, fun _ => hdb⟩, ?_⟩
      rcases hcmd with hcmd | ⟨msg, rfl⟩
      · -- a command on data is no blocking pop
        obtain ⟨c, -, hc⟩ := Option.map_eq_some_iff.mp hcmd
        cases c with
        | error e => cases hc
        | ok c =>
          cases hc
          exact nofun
      · exact nofun
    · split at h
      all_goals
        cases h
        exact ⟨⟨rfl, rfl, fun _ => rfl⟩, nofun⟩

/-! ## What a request stands for -/

/-- The request runs no script that works outside its transaction. -/
def Request.ScriptsQuiet (P : Platform) (r : Request) : Prop :=
  ∀ s s' script keys argv db,
    Conn.dispatch P.scripts r.now s r.args = some (s', .eval script keys argv db) →
      Cmd.Quiet P P.scriptDepth (.eval script keys argv db)

/-- What is queued in a `MULTI` block is quiet, if its scripts are. -/
theorem Cmd.quiet_of_queued (P : Platform) {depth : Nat} (hallowed : cmd.allowedInTx = true)
    (hpop : cmd.popsAlone = false)
    (hscript : ∀ script keys argv db, cmd = .eval script keys argv db →
      cmd.Quiet P depth) : cmd.Quiet P depth := by
  unfold Quiet
  split
  · simp [allowedInTx] at hallowed
  · simp [popsAlone] at hpop
  · exact hscript _ _ _ _ rfl
  · trivial

/-- What holds of a connection inside a block that began in the database `db`. -/
structure Conn.InBlock (P : Platform) (db : Int) (s : Conn) : Prop where
  inMulti : s.inMulti = true
  db : s.db = db
  queue : ∀ cmd ∈ s.queue, cmd.Quiet P P.scriptDepth

theorem Conn.InBlock.markDirty (h : s.InBlock P db) :
    s.markDirty.InBlock P db := ⟨h.inMulti, h.db, h.queue⟩

theorem Conn.InBlock.enqueue (h : s.InBlock P db)
    (hcmd : cmd.allowedInTx = true → cmd.Quiet P P.scriptDepth)
    (hrun : s.enqueue P cmd attempts v = some (s', v', replies)) : s'.InBlock P db ∧ v' = v := by
  unfold Conn.enqueue at hrun
  simp only [h.inMulti, if_true] at hrun
  split at hrun
  · cases hrun
    exact ⟨h, rfl⟩
  · split at hrun
    · rename_i hallowed
      cases hrun
      refine ⟨⟨rfl, h.db, fun c hc => ?_⟩, rfl⟩
      rcases List.mem_append.mp hc with hc | hc
      · exact h.queue c hc
      · rw [List.mem_singleton.mp hc]
        exact hcmd hallowed
    · cases hrun
      exact ⟨h.markDirty, rfl⟩

/-- **One request inside the block.** -/
theorem Conn.InBlock.receive {r : Request} (h : s.InBlock P db) (hexec : r.name ≠ ascii "exec")
    (hdiscard : r.name ≠ ascii "discard") (hselect : r.selects = false)
    (hscripts : r.ScriptsQuiet P) (hrun : s.receive P v r = some (s', v', replies)) :
    s'.InBlock P db ∧ v' = v := by
  obtain ⟨args, now, attempts⟩ := r
  cases args with
  | nil =>
    cases hrun
    exact ⟨h.markDirty, rfl⟩
  | cons name args =>
    have hname : Request.name ⟨name :: args, now, attempts⟩ = lower name := rfl
    rw [hname] at hexec hdiscard
    simp only [Conn.receive, hname, Conn.dispatchNoscript, h.inMulti, hexec, hdiscard, if_true,
      if_false] at hrun
    split at hrun
    · -- the requests that are answered at once
      rename_i answer hanswer
      subst hrun
      repeat' split at hanswer
      all_goals
        cases hanswer
        try exact ⟨h, rfl⟩
        try exact ⟨h.markDirty, rfl⟩
        try exact ⟨⟨h.inMulti, h.db, h.queue⟩, rfl⟩
    · split at hrun
      · rename_i s₁ cmd hdispatch
        obtain ⟨hb, hpermits⟩ := Conn.dispatch_keeps hdispatch
        have hpop : cmd.popsAlone = false := by
          by_contra hne
          have := hpermits (by simpa using hne)
          simp [h.inMulti] at this
        have h₁ : s₁.InBlock P db :=
          ⟨hb.inMulti.trans h.inMulti, (hb.db hselect).trans h.db, by rw [hb.queue]; exact h.queue⟩
        refine h₁.enqueue (fun hallowed => cmd.quiet_of_queued P hallowed hpop ?_) hrun
        rintro script keys argv db rfl
        exact hscripts s s₁ script keys argv db hdispatch
      · cases hrun

/-- All requests of the block. -/
theorem Conn.InBlock.receiveAll {block : List Request} {replies : List (List RespValue)}
    (h : s.InBlock P db) (hends : ∀ r ∈ block, r.name ≠ ascii "exec" ∧ r.name ≠ ascii "discard")
    (hselect : ∀ r ∈ block, r.selects = false) (hscripts : ∀ r ∈ block, r.ScriptsQuiet P)
    (hrun : Conn.receiveAll P block s v = some (s', v', replies)) : s'.InBlock P db ∧ v' = v := by
  induction block generalizing s v replies with
  | nil =>
    cases hrun
    exact ⟨h, rfl⟩
  | cons r rest ih =>
    simp only [Conn.receiveAll, Option.bind_eq_bind, Option.bind_eq_some_iff] at hrun
    obtain ⟨⟨s₁, v₁, replies₁⟩, hr, ⟨s₂, v₂, replies₂⟩, hrest, hlast⟩ := hrun
    cases hlast
    obtain ⟨he, hd⟩ := hends r List.mem_cons_self
    obtain ⟨h₁, rfl⟩ := h.receive he hd (hselect r List.mem_cons_self)
      (hscripts r List.mem_cons_self) hr
    exact ih h₁ (fun r hr => hends r (List.mem_cons_of_mem _ hr))
      (fun r hr => hselect r (List.mem_cons_of_mem _ hr))
      (fun r hr => hscripts r (List.mem_cons_of_mem _ hr)) hrest

/-! ## Sessions between two requests -/

/-- A session with the requests it receives, each with the server as it finds it. -/
def Conn.step (P : Platform) (s : Conn) (vr : Server × Request) : Option Conn :=
  (s.receive P vr.1 vr.2).map Prod.fst

/-- Outside `MULTI` nothing is left in the queue. -/
def Conn.Settled (s : Conn) : Prop := s.inMulti = false → s.queue = []

theorem Conn.Settled.step {vr : Server × Request} (h : s.Settled)
    (hstep : s.step P vr = some s') : s'.Settled := by
  obtain ⟨v, args, now, attempts⟩ := vr
  simp only [Conn.step, Option.map_eq_some_iff] at hstep
  obtain ⟨⟨s₁, v', replies⟩, hrun, rfl⟩ := hstep
  have hmark : s.markDirty.Settled := h
  cases args with
  | nil =>
    cases hrun
    exact hmark
  | cons name args =>
    simp only [Conn.receive] at hrun
    split at hrun
    · -- only `EXEC` runs something here
      rename_i answer hanswer
      subst hrun
      simp only [Conn.dispatchNoscript] at hanswer
      split at hanswer
      · split at hanswer
        all_goals
          cases hanswer
          first | exact h | exact nofun
      · split at hanswer
        · split at hanswer
          · exact fun _ => (Conn.executed_dispatchPendingOps P rfl (Option.some.inj hanswer)).queue
          · cases hanswer
            exact hmark
        · repeat' split at hanswer
          all_goals cases hanswer
          all_goals first | exact h | exact hmark | exact fun _ => rfl
    · split at hrun
      · rename_i s₂ cmd hdispatch
        unfold Conn.enqueue at hrun
        split at hrun
        · rename_i hmulti
          have hinside {t : Conn} (ht : t.inMulti = s₂.inMulti) : t.Settled := fun hidle => by
            simp [ht, hmulti] at hidle
          repeat' split at hrun
          all_goals
            cases hrun
            exact hinside rfl
        · rename_i hmulti
          exact fun _ => (Conn.executed_dispatchPendingOps P (by simpa using hmulti) hrun).queue
      · cases hrun

/-! ## The whole block -/

/-- A request of plain words. -/
def Request.words (args : List String) (attempts : List CommitTry) : Request :=
  { args := args.map ascii, attempts }

end Invar
