import Invar.System.Effects

/-!
# Scripts and their transaction

A script issues its commands against the transaction of its `EVAL`, so that what
it writes is seen by others when that transaction commits, and not before. The
commands are dispatched through a fresh session, for which `should_block` holds:
a blocking pop or read opens its own transaction, commits there and waits, and a
flush acts on the store itself.

Without these commands a script changes nothing outside its transaction and
never waits.
-/

namespace Invar

open StoreProg Session Interleaving

/-- The commands that work on the dispatcher's transaction alone. -/
def Command.staysInside (c : Command) : Bool :=
  match c.body with
  | .bzpop _ canBlock => !canBlock
  | .xread _ canBlock => !canBlock
  | .flush _ => false
  | _ => true

/-- The stages in which a command does not leave the dispatcher's transaction. -/
def Stage.inside : Stage → Bool
  | .start | .script .. | .wire .. | .giveBack .. => true
  | _ => false

/-- A session that runs a script, or a command that a script issued. -/
def Phase.inScript : Phase → Bool
  | .ops r stage =>
    !r.frames.isEmpty || match stage with
      | .script .. | .wire .. | .giveBack .. => true
      | _ => false
  | _ => false

/-- A script does not start a blocking pop, a blocking read or a flush. -/
def callsStayInside (w : World) (a : Nat × Action × List Tick) : Bool :=
  match a.2.1, (w.threads a.1).phase with
  | .run, .ops r .start => r.frames.isEmpty || r.cmd.staysInside
  | _, _ => true

/-- What scripts keep to, in one state: a command of a script works on the
script's transaction, a session in a script leaves the store alone, and a
transaction's writes reach the store in the one step that commits it. -/
structure ScriptsAtomic (w : World) : Prop where
  inside : ∀ i r stage, (w.threads i).phase = .ops r stage → r.frames ≠ [] → stage.inside = true
  hidden : ∀ i a w', (w.threads i).phase.inScript = true → World.step w (i, a) = some w' →
    w'.shared.store = w.shared.store ∧ w'.shared.log = w.shared.log
  atOnce : ∀ i a w', World.step w (i, a) = some w' → w'.shared.store ≠ w.shared.store →
    (∃ d tx outcomes, (w.threads i).phase = .commit d tx outcomes ∧
      w'.shared.store = tx.txn.applyTo w.shared.store ∧ w'.shared.committed tx.id = true) ∨
    ∃ r stage, (w.threads i).phase = .ops r stage ∧ r.frames = [] ∧ stage.inside = false

/-! ## The invariant -/

def Phase.StaysInside : Phase → Prop
  | .ops r stage => r.frames ≠ [] → stage.inside = true
  | _ => True

variable {phase : Phase} {r : OpRun} {s s' : Session} {stage : Stage} {a : Action}
  {env : Nat → Tick} {i : Nat} {sh sh' : Shared}

theorem NextOp.staysInside {d : Dispatch} {tx : Tx} {outcomes : List Outcome}
    (h : NextOp d tx outcomes phase) : phase.StaysInside := by
  cases h with
  | op cmd => exact fun _ => rfl
  | commit => trivial

theorem completes_staysInside {out : Outcome}
    (h : Completes s r out s') : s'.phase.StaysInside := by
  cases h with
  | conflict =>
    rw [conflicted_phase]
    trivial
  | abandon => trivial
  | next phase hf hn => exact hn.staysInside
  | called | raised => exact fun _ => rfl

theorem nextOp_staysInside (s : Session) (d : Dispatch) (tx : Tx) (outcomes : List Outcome) :
    (s.nextOp d tx outcomes).phase.StaysInside := by
  obtain ⟨phase, hn, heq⟩ := nextOp_eq s d tx outcomes
  rw [heq]
  exact hn.staysInside

theorem Command.firstStage_inside {cmd : Command}
    (h : cmd.firstStage? = some stage) (hin : cmd.staysInside = true) : stage.inside = true := by
  unfold firstStage? at h
  unfold staysInside at hin
  split at h <;> cases h <;> simp_all [Stage.inside]

theorem moves_staysInside (h : Moves i env sh s a sh' s') (hp : s.phase.StaysInside)
    (hok : ∀ r, a = .run → s.phase = .ops r .start → r.frames ≠ [] →
      r.cmd.staysInside = true) : s'.phase.StaysInside := by
  cases h with
  | submit | exec => exact of_dispatch trivial fun _ => trivial
  | begin d h => exact nextOp_staysInside _ _ _ _
  | keysChecked d tx key h => exact nextOp_staysInside _ _ _ _
  | commitConflict d tx outcomes h =>
    rw [conflicted_phase]
    trivial
  | enter r stage h hst => exact fun hf => Command.firstStage_inside hst (hok r rfl h hf)
  | scriptFail | scriptCall | wireWake | wireDone | giveBack => exact fun _ => rfl
  | atomic | scriptDone | gaveBack | bzpopBeginFailed | bzpopError | bzpopCommit
  | bzpopCommitFailed | bzpopReceive | bzpopTimeout | xreadEnd | flushEnd =>
    exact completes_staysInside (completes _ _ _)
  | bzpopBegin r op h | bzpopEmpty r op own h | bzpopFound r op own p h
  | bzpopRegister r op h | xreadRegister r x h | xreadBegin r x w h
  | xreadPark r x w snapshot ids found h | xreadAgain r x w h | xreadTimeout r x w h
  | flushNext r todo rest h =>
    -- these stages are not inside, so there is no script around them
    rw [h] at hp
    exact fun hf => absurd (hp hf) (by simp [Stage.inside])
  | refused | multi | spoiled | queued | unwatch | bzpopTimeoutClaimed | xreadTimeoutClaimed
  | flushRows => exact hp
  | _ => trivial

theorem Phase.inside_of_inScript (h : phase.StaysInside)
    (hin : phase.inScript = true) : ∃ r stage, phase = .ops r stage ∧ stage.inside = true := by
  cases phase with
  | ops r stage =>
    refine ⟨r, stage, rfl, ?_⟩
    by_cases hf : r.frames = []
    · cases stage <;> simp_all [Phase.inScript, Stage.inside]
    · exact h hf
  | _ => cases hin

/-! ## Which moves change the store -/

theorem moves_store (h : Moves i env sh s a sh' s') : sh'.store = sh.store ∨
    (∃ d tx outcomes, s.phase = .commit d tx outcomes ∧ sh'.store = tx.txn.applyTo sh.store ∧
      sh'.committed tx.id = true) ∨ ∃ r stage, s.phase = .ops r stage ∧ stage.inside = false := by
  cases h with
  | commit d tx outcomes h =>
    exact .inr
      (.inl ⟨d, tx, outcomes, h, rfl, by simp [Shared.committed, Shared.commit, Shared.record]⟩)
  | bzpopCommit r own p h => exact .inr (.inr ⟨r, _, h, rfl⟩)
  | flushRows r todo removed h => exact .inr (.inr ⟨r, _, h, rfl⟩)
  | atomic r op => exact .inl (performs i env r.tx sh op).log.2
  | _ => exact .inl rfl

/-- Inside the dispatcher's transaction a command changes neither store nor log. -/
theorem moves_inside (h : Moves i env sh s a sh' s')
    (hp : s.phase = .ops r stage) (hin : stage.inside = true) :
    sh'.store = sh.store ∧ sh'.log = sh.log := by
  cases h with
  | atomic r op => exact (performs i env r.tx sh op).log.symm
  | commit d tx outcomes h => rw [hp] at h; cases h
  | bump d tx outcomes h => rw [hp] at h; cases h
  | bumpEpoch h => rw [hp] at h; cases h
  | bzpopCommit r' own p h => rw [hp] at h; cases h; cases hin
  | flushRows r' todo removed h => rw [hp] at h; cases h; cases hin
  | _ => exact ⟨rfl, rfl⟩

/-- **In every run whose scripts issue no blocking pop, no blocking read and no
flush, scripts are atomic in every state reached.** -/
theorem scriptsAtomic_of_reached (retryCount : Nat) {w : World}
    (h : World.Reached retryCount (fun w a => callsStayInside w a = true) w) : ScriptsAtomic w := by
  have hinv : ∀ i, (w.threads i).phase.StaysInside := by
    refine (inv_of_threads (G := fun _ => True) (L := fun _ _ s => s.phase.StaysInside)
      ⟨trivial, fun _ => trivial⟩ (fun st i a sh' s' hinv hok hstep => ⟨trivial, ?_⟩)
      (fun st i a sh' s' hinv hok hstep j _ => hinv.thread j) h).thread
    obtain ⟨clock, -, -, hmoves⟩ := moves_of_sessionStep hstep
    refine moves_staysInside hmoves (hinv.thread i) fun r ha hph hf => ?_
    simpa [callsStayInside, ha, hph, hf] using hok
  constructor
  · intro i r stage hph hf
    have hi := hinv i
    rw [hph] at hi
    exact hi hf
  · intro i a w' hin hstep
    obtain ⟨clock, -, -, hmoves⟩ := moves_of_sessionStep (act_eq_some hstep).1
    obtain ⟨r, stage, hph, hinside⟩ := Phase.inside_of_inScript (hinv i) hin
    exact (moves_inside hmoves hph hinside :)
  · intro i a w' hstep hne
    obtain ⟨clock, -, -, hmoves⟩ := moves_of_sessionStep (act_eq_some hstep).1
    rcases moves_store hmoves with hsame | hcommit | ⟨r, stage, hph, hout⟩
    · exact absurd hsame hne
    · exact .inl hcommit
    · refine .inr ⟨r, stage, hph, ?_, hout⟩
      by_contra hf
      have hi := hinv i
      rw [hph] at hi
      exact absurd (hi hf) (by simp [hout])

/-! ## A script that keeps to its transaction, and three that do not -/

/-- `ZADD z 1 a`, from its submission to its reply. -/
def addMember : List (Nat × Action × List Tick) := issue 0 (addToZ "1" "a") 1 ++ settle 0 0

/-- An `EVAL` up to the end of its script's first command. -/
def evalOne (c : Command) : List (Nat × Action × List Tick) := issue 0 (.eval (.call c .done)) 2

/-- A script has added a member that the store does not show yet. -/
theorem scriptsAtomic_mid_script :
    ∃ w, Transition.run (Transition.guarded World.step callsStayInside) (World.init 16)
        (evalOne (addToZ "1" "a") ++ runs 0 1) = some w ∧
      (w.threads 0).phase.inScript = true ∧ w.shared.store.isEmpty ∧ ScriptsAtomic w := by
  have heval : (Transition.run (Transition.guarded World.step callsStayInside) (World.init 16)
      (evalOne (addToZ "1" "a") ++ runs 0 1)).any
      (fun w => (w.threads 0).phase.inScript && w.shared.store.isEmpty) = true := by decide +kernel
  obtain ⟨w, hrun, hw⟩ := Transition.exists_of_run_any heval
  simp only [Bool.and_eq_true] at hw
  exact ⟨w, hrun, hw.1, hw.2,
    scriptsAtomic_of_reached 16 (Transition.reach_of_run _ .start hrun)⟩

/-- A session whose script waits for another client. -/
def Phase.waitsInScript : Phase → Bool
  | .ops r (.bzpopParked ..) => !r.frames.isEmpty
  | .ops r (.xreadParked ..) => !r.frames.isEmpty
  | _ => false

/-- A script flushes a store that holds `z`. -/
def flushFromScript : List (Nat × Action × List Tick) :=
  addMember ++ evalOne .flushAll ++ runs 0 1 ++ [(0, .flushRows [publicKey 0 (ascii "z")], [])]

/-- A script pops a member of `z`, which has one. -/
def popFromScript : List (Nat × Action × List Tick) :=
  addMember ++ evalOne (.bzpop 0 [ascii "z"] none true) ++ runs 0 1 ++
    (0, .beginOwn none, []) :: runs 0 1 ++ [(0, .commitOwn none, [])]

/-- A script pops from `z`, which is empty. -/
def waitFromScript : List (Nat × Action × List Tick) :=
  evalOne (.bzpop 0 [ascii "z"] none true) ++ runs 0 1 ++ (0, .beginOwn none, []) :: runs 0 2

/-- Scripts that destroy data, pop a member and wait outside their transaction. In
the first two runs the transaction of the `EVAL` is still open, yet the store has
lost `z`. -/
theorem scripts_leave_their_transaction :
    (∃ w, Transition.run World.step (World.init 16) flushFromScript = some w ∧
      (w.threads 0).phase.inScript = true ∧ w.shared.log.length = 2 ∧
      w.shared.store[publicKey 0 (ascii "z")]? = none) ∧
    (∃ w, Transition.run World.step (World.init 16) popFromScript = some w ∧
      (w.threads 0).phase.inScript = true ∧ w.shared.log.length = 2 ∧
      w.shared.store[publicKey 0 (ascii "z")]? = none) ∧
    ∃ w, Transition.run World.step (World.init 16) waitFromScript = some w ∧
      (w.threads 0).phase.waitsInScript = true := by
  let lost (w : World) : Bool := (w.threads 0).phase.inScript && w.shared.log.length == 2 &&
    w.shared.store[publicKey 0 (ascii "z")]? == none
  have heval₁ : (Transition.run World.step (World.init 16) flushFromScript).any lost = true := by
    decide +kernel
  have heval₂ : (Transition.run World.step (World.init 16) popFromScript).any lost = true := by
    decide +kernel
  have heval₃ : (Transition.run World.step (World.init 16) waitFromScript).any
      (fun w => (w.threads 0).phase.waitsInScript) = true := by decide +kernel
  obtain ⟨w₁, hrun₁, h₁⟩ := Transition.exists_of_run_any heval₁
  obtain ⟨w₂, hrun₂, h₂⟩ := Transition.exists_of_run_any heval₂
  simp only [lost, Bool.and_eq_true, beq_iff_eq, and_assoc] at h₁ h₂
  exact ⟨⟨w₁, hrun₁, h₁⟩, ⟨w₂, hrun₂, h₂⟩, Transition.exists_of_run_any heval₃⟩

end Invar
