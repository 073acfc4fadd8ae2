import Invar.System.Effects

/-!
# Wakes and commits

`Claim::wake` is meant to run after the transaction in which the claim was made
has committed. The dispatcher keeps to that: it wakes the claims of its outcomes
after its commit. A script does not: the wire half of a command that it issues
runs before the script's transaction commits, and wakes the claims that
`defer_claims` has left in the result. These are the placeholder of an `XADD`
and all claims of an `EVAL`.

In runs without such commands every wake comes after the commit.
-/

namespace Invar

open StoreProg Session Interleaving

def Command.isXAdd (c : Command) : Bool :=
  match c.body with
  | .atomic (.xadd _) => true
  | _ => false

/-- The step is not one after which the wire half of a command issued by a script
has a claim to wake: the start of an `XADD`, or the end of an `EVAL` that has
deferred claims, inside a script. -/
def wakesNoneInScript (w : World) (a : Nat × Action × List Tick) : Bool :=
  match a.2.1, (w.threads a.1).phase with
  | .run, .ops r .start => r.frames.isEmpty || !r.cmd.isXAdd
  | .run, .ops r (.script (.done _) deferred) => r.frames.isEmpty || deferred.isEmpty
  | _, _ => true

/-! ## The invariant -/

/-- Every claim that a phase holds was made in the phase's transaction, and in the
phases after the commit this transaction has committed. -/
def Phase.WakesLater (sh : Shared) : Phase → Prop
  | .ops r stage =>
    (∀ out ∈ r.outcomes, ∀ c ∈ Outcome.claims out, c.origin = r.tx.id) ∧
      (∀ f ∈ r.frames, ∀ c ∈ f.deferred, c.origin = r.tx.id) ∧
      (∀ c ∈ stage.deferred, c.origin = r.tx.id) ∧ stage.waking = []
  | .commit _ tx outcomes => ∀ out ∈ outcomes, ∀ c ∈ Outcome.claims out, c.origin = tx.id
  | .bump _ _ outcomes => ∀ out ∈ outcomes, ∀ c ∈ Outcome.claims out, sh.committed c.origin = true
  | .reply _ claims => ∀ c ∈ claims, sh.committed c.origin = true
  | _ => True

variable {phase : Phase} {sh sh' : Shared} {tx : Tx} {cmd : Command} {res : DbResult}
  {s s' : Session} {env : Nat → Tick} {i : Nat} {a : Action}

theorem Phase.WakesLater.grows (hlog : sh.LogGrows sh')
    (h : phase.WakesLater sh) : phase.WakesLater sh' := by
  cases phase with
  | bump d n outcomes => exact fun out ho c hc => hlog.committed (h out ho c hc)
  | reply d claims => exact fun c hc => hlog.committed (h c hc)
  | _ => exact h

theorem NextOp.wakesLater {d : Dispatch} {outcomes : List Outcome} (h : NextOp d tx outcomes phase)
    (ho : ∀ out ∈ outcomes, ∀ c ∈ Outcome.claims out, c.origin = tx.id) : phase.WakesLater sh := by
  cases h with
  | op cmd => exact ⟨ho, by simp, by simp [Stage.deferred], rfl⟩
  | commit => exact ho

/-- The claims of a result that the wire half wakes are none when `defer_claims`
takes them all, or there are none. -/
theorem Command.deferClaims_kept
    (h : cmd.isXAdd = false) (hc : res.claims = [] ∨ ∃ op, cmd.body = .atomic (.zadd op)) :
    (cmd.deferClaims res).1 = [] ∧ ∀ c ∈ (cmd.deferClaims res).2, c ∈ res.claims := by
  unfold deferClaims isXAdd at *
  rcases hc with hc | ⟨op, hop⟩
  · split <;> simp_all
  · simp [hop]

theorem completes_wakesLater {r : OpRun} {out : Outcome}
    (h : Completes s r out s') (stage : Stage) (hp : (Phase.ops r stage).WakesLater sh)
    (ho : ∀ c ∈ Outcome.claims out, c.origin = r.tx.id)
    (hk : ∀ res, out = .ok res → r.frames ≠ [] → (r.cmd.deferClaims res).1 = [] ∧
      ∀ c ∈ (r.cmd.deferClaims res).2, c ∈ res.claims) : s'.phase.WakesLater sh := by
  obtain ⟨houts, hframes, -, -⟩ := hp
  cases h with
  | conflict =>
    rw [conflicted_phase]
    trivial
  | abandon => trivial
  | next phase hf hn hb =>
    refine hn.wakesLater fun out' hout' => ?_
    rcases List.mem_append.mp hout' with hout' | hout'
    · exact houts out' hout'
    · exact List.mem_singleton.mp hout' ▸ ho
  | called f frames res hf hout =>
    subst hout
    obtain ⟨hkept, htaken⟩ := hk res rfl (by simp [hf])
    refine ⟨houts, fun f' hf' => hframes f' (by simp [hf, hf']), fun c hc => ?_, hkept⟩
    rcases List.mem_append.mp hc with hc | hc
    · exact hframes f (by simp [hf]) c hc
    · exact ho c (htaken c hc)
  | raised f frames e hf hout =>
    exact ⟨houts, fun f' hf' => hframes f' (by simp [hf, hf']),
      hframes f (by simp [hf]), rfl⟩

/-- The stage that a command enters holds no claims yet. -/
theorem Command.firstStage_claims {stage : Stage}
    (h : cmd.firstStage? = some stage) : stage.deferred = [] ∧ stage.waking = [] := by
  unfold Command.firstStage? at h
  split at h <;> cases h <;> exact ⟨rfl, rfl⟩

/-- Only `ZADD` and `XADD` end with claims. -/
theorem Performs.claims_eq_nil {tx' : Tx} {op : AtomicOp} (hop : cmd.atomicOp? = some op)
    (h : Performs i env tx sh op (.ok res) tx' sh') (hx : cmd.isXAdd = false) :
    res.claims = [] ∨ ∃ z, cmd.body = .atomic (.zadd z) := by
  cases op with
  | plain p => exact .inl h.claims_plain
  | zadd z => exact .inr ⟨z, Command.body_of_atomicOp hop nofun⟩
  | xadd x => simp [Command.isXAdd, Command.body_of_atomicOp hop nofun] at hx

theorem moves_wakesLater (h : Moves i env sh s a sh' s') (hp : s.phase.WakesLater sh)
    (hok : ∀ r, a = .run → (s.phase = .ops r .start → r.frames ≠ [] → r.cmd.isXAdd = false) ∧
      ∀ reply deferred, s.phase = .ops r (.script (.done reply) deferred) →
        r.frames ≠ [] → deferred = []) : s'.phase.WakesLater sh' := by
  -- the completion of a command whose outcome holds no claim
  have quiet {r : OpRun} {stage : Stage} {out : Outcome} {sh' : Shared}
      (hph : s.phase = .ops r stage) (hlog : sh.LogGrows sh') (hout : out.claims = []) :
      (s.complete r out).phase.WakesLater sh' := by
    refine completes_wakesLater (completes s r out) stage
      (Phase.WakesLater.grows hlog (hph ▸ hp)) (by simp [hout]) fun res hres _ => ?_
    have hres' : res.claims = [] := by simpa [hres, Outcome.claims] using hout
    unfold Command.deferClaims
    split <;> simp [hres']
  cases h with
  | begin d h =>
    obtain ⟨phase, hn, heq⟩ := nextOp_eq s d (sh.begin d.isolation).1 []
    rw [heq]
    exact hn.wakesLater (by simp)
  | keysChecked d tx key h =>
    obtain ⟨phase, hn, heq⟩ := nextOp_eq s d tx []
    rw [heq]
    exact hn.wakesLater (by simp)
  | submit | exec => exact of_dispatch trivial fun _ => trivial
  | commit d tx outcomes h =>
    rw [h] at hp
    intro out hout c hc
    simp [Shared.committed, Shared.commit, Shared.record, hp out hout c hc]
  | commitConflict d tx outcomes h =>
    rw [conflicted_phase]
    trivial
  | bump d n outcomes h =>
    rw [h] at hp
    intro c hc
    obtain ⟨out, hout, hc⟩ := List.mem_flatMap.mp hc
    exact Shared.LogGrows.committed (.of_announce (fun m _ => m == n) rfl) (hp out hout c hc)
  | wake d c rest h =>
    rw [h] at hp
    exact fun c' hc' => hp c' (List.mem_cons_of_mem c hc')
  | atomic r op h hop =>
    have hperf := performs i env r.tx sh op
    rw [h] at hp
    have hid : (op.run i env r.tx sh).2.1.id = r.tx.id := hperf.ran.id
    refine completes_wakesLater (completes s _ _) .start ?_ ?_ ?_
    · have hp' := hp.grows (.of_eq hperf.log.1)
      simp only [Phase.WakesLater, hid] at hp' ⊢
      exact hp'
    · intro c hc
      exact (hperf.origin c hc).trans hid.symm
    · intro res hres hframes
      have hx := (hok r rfl).1 h hframes
      exact Command.deferClaims_kept hx ((hres ▸ hperf).claims_eq_nil hop hx)
  | enter r stage h hst =>
    rw [h] at hp
    obtain ⟨hdef, hwake⟩ := Command.firstStage_claims hst
    exact ⟨hp.1, hp.2.1, by simp [hdef], hwake⟩
  | scriptDone r reply deferred h =>
    rw [h] at hp
    refine completes_wakesLater (completes s r _) _ hp hp.2.2.1 fun res hres hframes => ?_
    have hd := (hok r rfl).2 reply deferred h hframes
    simp only [Except.ok.injEq] at hres
    subst hres hd
    unfold Command.deferClaims
    split <;> simp
  | scriptFail r msg deferred e h =>
    rw [h] at hp
    exact ⟨hp.1, hp.2.1, by simp [Stage.deferred], rfl⟩
  | scriptCall r c next deferred h =>
    rw [h] at hp
    refine ⟨hp.1, fun f hf => ?_, by simp [Stage.deferred], rfl⟩
    rcases List.mem_cons.mp hf with rfl | hf
    · exact hp.2.2.1
    · exact hp.2.1 f hf
  | wireWake r c rest sc deferred h =>
    rw [h] at hp
    cases hp.2.2.2
  | wireDone r sc deferred h =>
    rw [h] at hp
    exact hp
  | giveBack r c rest e h =>
    rw [h] at hp
    exact hp
  | gaveBack r e h | bzpopBeginFailed r op e h | bzpopError r op own e h
  | bzpopCommitFailed r own p e h | bzpopReceive r op w got h | bzpopTimeout r op w h =>
    exact quiet h (.of_eq rfl) rfl
  | bzpopCommit r own p h => exact quiet h (.of_append rfl) rfl
  | xreadEnd a r stage w out h hs hr => exact quiet h (.of_eq rfl) hr
  | flushEnd err r todo out h hr => exact quiet h (.of_eq rfl) hr
  | flushRows r todo removed h => exact hp.grows (.of_append rfl)
  | bzpopBegin r op h | bzpopEmpty r op own h | bzpopFound r op own p h
  | bzpopRegister r op h | xreadRegister r x h | xreadBegin r x w h
  | xreadPark r x w snapshot ids found h | xreadAgain r x w h | xreadTimeout r x w h
  | flushNext r todo rest h =>
    rw [h] at hp
    exact hp
  | refused | multi | spoiled | queued | unwatch | bzpopTimeoutClaimed | xreadTimeoutClaimed =>
    exact hp
  | _ => trivial

/-- A wake is made by the replies after a commit, or by the wire half of a command
of a script. -/
theorem moves_wakes (h : Moves i env sh s a sh' s') (hp : s.phase.WakesLater sh)
    (hG : ∀ wake ∈ sh.wakes, wake.committed = true) :
    ∀ wake ∈ sh'.wakes, wake.committed = true := by
  cases h with
  | wake d c rest h =>
    rw [h] at hp
    intro wake hwake
    rcases List.mem_cons.mp hwake with rfl | hwake
    · exact hp c (by simp)
    · exact hG wake hwake
  | wireWake r c rest sc deferred h =>
    rw [h] at hp
    cases hp.2.2.2
  | atomic r op h hop =>
    have hperf := performs i env r.tx sh op
    rwa [show (op.run i env r.tx sh).2.2.wakes = sh.wakes from hperf.wakes]
  | _ => exact hG

/-- **In every run in which no command issued by a script is left with a claim to
wake, each claim is woken after the commit of the transaction that made it.** -/
theorem wakes_after_commit (retryCount : Nat) {w : World}
    (h : World.Reached retryCount (fun w a => wakesNoneInScript w a = true) w) :
    ∀ wake ∈ w.shared.wakes, wake.committed = true := by
  refine (inv_of_threads (G := fun sh => ∀ wake ∈ sh.wakes, wake.committed = true)
    (L := fun _ sh s => s.phase.WakesLater sh) ⟨by simp [World.init, Shared.init], fun _ => trivial⟩
    (fun st i a sh' s' hinv hok hstep => ?_) (fun st i a sh' s' hinv hok hstep j _ => ?_) h).shared
  · obtain ⟨clock, -, -, hmoves⟩ := moves_of_sessionStep hstep
    refine ⟨moves_wakes hmoves (hinv.thread i) hinv.shared,
      moves_wakesLater hmoves
        (hinv.thread i) fun r ha => ⟨fun hph hf => ?_, fun reply d hph hf => ?_⟩⟩
    · simpa [wakesNoneInScript, ha, hph, hf] using hok
    · simpa [wakesNoneInScript, ha, hph, hf] using hok
  · obtain ⟨clock, -, -, hmoves⟩ := moves_of_sessionStep hstep
    exact (hinv.thread j).grows hmoves.logGrows

/-! ## Scripts that wake, before and after the commit -/

/-- A script that adds a member to `z`. -/
def addsMember : Script := .call (addToZ "1" "a") .done

/-- A script's `ZADD` claims the waiter of session 1; its commit and its wake. -/
def serveFromScript : List (Nat × Action × List Tick) :=
  parkBzpop 1 [ascii "z"] ++ issue 0 (.eval addsMember) 5 ++ settle 0 1

theorem serveFromScript_wakes_after_commit :
    ∃ w, Transition.run (Transition.guarded World.step wakesNoneInScript) (World.init 16)
        serveFromScript = some w ∧
      w.shared.wakes.length = 1 ∧ ∀ wake ∈ w.shared.wakes, wake.committed = true := by
  have heval : (Transition.run (Transition.guarded World.step wakesNoneInScript) (World.init 16)
      serveFromScript).any (fun w => w.shared.wakes.length == 1) = true := by decide +kernel
  obtain ⟨w, hrun, hlen⟩ := Transition.exists_of_run_any heval
  exact ⟨w, hrun, by simpa using hlen,
    wakes_after_commit 16 (Transition.reach_of_run _ .start hrun)⟩

/-- An `XADD` of a script. -/
def notifyFromScript : List (Nat × Action × List Tick) :=
  issue 0 (.eval (.call (.xadd 0 (ascii "s") none [ascii "f", ascii "v"]) .done)) 4

/-- A `ZADD` of an `EVAL` that a script issues, in a transaction that fails. -/
def serveFromNestedScript : List (Nat × Action × List Tick) :=
  parkBzpop 1 [ascii "z"] ++ issue 0 (.eval (.call (.eval addsMember) .done)) 10 ++
    [(0, .commit (some .undefined), [])]

/-- Both wake before the commit; in the second run the waiter has been sent a
member by a transaction that never commits. -/
theorem scripts_wake_before_commit :
    (∃ w, Transition.run World.step (World.init 16) notifyFromScript = some w ∧
      ∃ wake ∈ w.shared.wakes, wake.committed = false) ∧
    ∃ w, Transition.run World.step (World.init 16) serveFromNestedScript = some w ∧
      (∃ wake ∈ w.shared.wakes, wake.committed = false) ∧ w.shared.log.length = 0 ∧
      ∃ slot, w.shared.registry.slots 1 = some slot ∧ slot.sent.isSome = true := by
  have heval₁ : (Transition.run World.step (World.init 16) notifyFromScript).any
      (fun w => w.shared.wakes.any (·.committed == false)) = true := by decide +kernel
  have heval₂ : (Transition.run World.step (World.init 16) serveFromNestedScript).any
      (fun w => w.shared.wakes.any (·.committed == false) && w.shared.log.length == 0 &&
        (w.shared.registry.slots 1).any (·.sent.isSome)) = true := by decide +kernel
  obtain ⟨w₁, hrun₁, hwake₁⟩ := Transition.exists_of_run_any heval₁
  obtain ⟨w₂, hrun₂, hw₂⟩ := Transition.exists_of_run_any heval₂
  simp only [Bool.and_eq_true, List.any_eq_true, beq_iff_eq, Option.any_eq_true] at hwake₁ hw₂
  exact ⟨⟨w₁, hrun₁, hwake₁⟩, ⟨w₂, hrun₂, hw₂.1.1, hw₂.1.2, hw₂.2⟩⟩

end Invar
