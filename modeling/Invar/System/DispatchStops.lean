import Invar.System.BatchRuns

/-!
# Every dispatch stops

A session in a dispatch whose ops keep to its transaction takes finitely many steps
before it has returned, whatever the store and the other sessions do. Attempts are
bounded by the retry budget, the ops of an attempt by the queue, and the pieces of an
op by the script that it runs, whose commands may be scripts again.
-/

namespace Invar

open StoreProg Session

/-- The phases between the start of a dispatch and its return. -/
def Phase.dispatching : Phase → Bool
  | .begin _ | .checkEpoch .. | .checkKeys .. | .ops .. | .commit .. | .release .. | .bump ..
  | .reply .. => true
  | _ => false

/-- A step of session `i` in its dispatch takes it from `s` to `s'`. -/
def Follows (i : Nat) (s' s : Session) : Prop :=
  s.phase.dispatching = true ∧ (∀ r, s.phase = .ops r .start → r.cmd.staysInTx = true) ∧
    ∃ env sh a sh', s.step i env sh a = some (sh', s')

section

variable {i : Nat} {s s' : Session}

theorem acc_of_moves (h : ∀ {env sh a sh' s'}, Moves i env sh s a sh' s' → Acc (Follows i) s') :
    Acc (Follows i) s :=
  .intro s fun _ ⟨_, _, _, _, _, _, hstep⟩ => h (moves_of_step hstep)

theorem acc_of_returned (h : s.phase.dispatching = false) : Acc (Follows i) s :=
  .intro s fun s' hs' => by
    rw [hs'.1] at h
    cases h

/-! ## After the attempts -/

/-- Claims are given back one by one; then the session returns or tries again. -/
theorem acc_of_releasing {after : AfterRelease} (claims : List Claim) (s : Session)
    (h : s.phase = .release claims after)
    (hd : ∀ d, after = .retry d → Acc (Follows i) { s with phase := .begin d }) :
    Acc (Follows i) s := by
  induction claims generalizing s with
  | nil =>
    refine acc_of_moves fun hm => ?_
    cases hm with
    | released => exact acc_of_returned rfl
    | retry d' hp =>
      rw [h] at hp
      cases hp
      exact hd _ rfl
    | _ => simp_all only [reduceCtorEq, Phase.release.injEq, false_and]
  | cons c rest ih =>
    refine acc_of_moves fun hm => ?_
    cases hm with
    | release c' rest' after hp =>
      rw [h] at hp
      cases hp
      exact ih _ rfl hd
    | _ => simp_all only [reduceCtorEq, Phase.release.injEq, false_and]

theorem acc_of_replying (d : Dispatch) (claims : List Claim) (s : Session)
    (h : s.phase = .reply d claims) : Acc (Follows i) s := by
  induction claims generalizing s with
  | nil =>
    refine acc_of_moves fun hm => acc_of_returned ?_
    cases hm with
    | replied | repliedFlush => rfl
    | _ => simp_all only [reduceCtorEq, Phase.reply.injEq, and_false]
  | cons c rest ih =>
    refine acc_of_moves fun hm => ?_
    cases hm with
    | wake d' c' rest' hp =>
      rw [h] at hp
      cases hp
      exact ih _ rfl
    | _ => simp_all only [reduceCtorEq, Phase.reply.injEq, and_false]

variable {d : Dispatch} {outcomes : List Outcome} {r : OpRun} {tx : Tx} {stage : Stage}

theorem acc_of_committed {m : Nat} (h : s.phase = .bump d m outcomes) : Acc (Follows i) s := by
  refine acc_of_moves fun hm => ?_
  cases hm with
  | bump d' m' outcomes' hp => exact acc_of_replying d' _ _ rfl
  | _ => simp_all only [reduceCtorEq]

/-! ## The run of a command

Whatever it ends with, the session goes on from there by finitely many steps. -/

/-- All that can follow the current command, however it ends. -/
def AccAfter (i : Nat) (s : Session) (r : OpRun) : Prop :=
  ∀ tx out, Acc (Follows i) (s.complete { r with tx } out)

/-- In a stage that keeps to the transaction the session can only run on. -/
theorem Follows.run (h : Follows i s' s) (hp : s.phase = .ops r stage) (hin : stage.inTx = true) :
    ∃ env sh sh', s.stepRun i env sh = some (sh', s') := by
  obtain ⟨-, -, env, sh, a, sh', hstep⟩ := h
  refine ⟨env, sh, sh', ?_⟩
  cases a with
  | run => exact hstep
  | hangUp =>
    simp only [Session.step, stepHangUp, hp] at hstep
    split at hstep
    · rename_i heq
      cases heq
      cases stage <;> simp_all [Stage.cancelled, Stage.inTx]
    · cases hstep
  | _ => cases stage <;> simp_all [Session.step, Stage.inTx, stepMulti, stepDiscard, stepUnwatch,
      stepWatch, stepWatchBegin, stepWatchKey, stepSubmit, stepExec, stepBegin, stepCheckEpoch,
      stepCheckKey, stepDeadline, stepBeginOwn, stepCommitOwn, stepFlushRows, stepFlushNext,
      stepReceive, stepTimeout, stepCommit, stepBump, stepReply, stepRelease, stepBumpEpoch]

theorem acc_of_run (hp : s.phase = .ops r stage) (hin : stage.inTx = true)
    (h : ∀ {env sh sh' s'}, s.stepRun i env sh = some (sh', s') → Acc (Follows i) s') :
    Acc (Follows i) s :=
  .intro s fun _ hs' => by
    obtain ⟨_, _, _, hrun⟩ := hs'.run hp hin
    exact h hrun

theorem acc_of_givingBack {e : DbError} (claims : List Claim) (s : Session) (r : OpRun)
    (h : s.phase = .ops r (.giveBack claims e)) (ha : AccAfter i s r) : Acc (Follows i) s := by
  induction claims generalizing s with
  | nil =>
    refine acc_of_run h rfl fun hrun => ?_
    simp only [stepRun, h, Option.some.injEq, Prod.mk.injEq] at hrun
    exact hrun.2 ▸ ha r.tx _
  | cons c rest ih =>
    refine acc_of_run h rfl fun hrun => ?_
    simp only [stepRun, h, Option.some.injEq, Prod.mk.injEq] at hrun
    exact hrun.2 ▸ ih _ rfl ha

theorem acc_of_wire {sc : Script} {deferred : List Claim} (claims : List Claim) (s : Session)
    (r : OpRun) (h : s.phase = .ops r (.wire claims sc deferred))
    (hsc : Acc (Follows i) { s with phase := .ops r (.script sc deferred) }) :
    Acc (Follows i) s := by
  induction claims generalizing s with
  | nil =>
    refine acc_of_run h rfl fun hrun => ?_
    simp only [stepRun, h, Option.some.injEq, Prod.mk.injEq] at hrun
    exact hrun.2 ▸ hsc
  | cons c rest ih =>
    refine acc_of_run h rfl fun hrun => ?_
    simp only [stepRun, h, Option.some.injEq, Prod.mk.injEq] at hrun
    exact hrun.2 ▸ ih _ rfl hsc

/-- The start of a command leads to its end, or into its script. -/
theorem Follows.start (h : Follows i s' s) (hp : s.phase = .ops r .start) :
    (∃ tx out, s' = s.complete { r with tx } out) ∨ ∃ script, r.cmd.body = .eval script ∧ s' =
        { s with phase := .ops r (.script script []) } := by
  obtain ⟨env, sh, sh', hrun⟩ := h.run hp rfl
  have hstay := h.2.1 r hp
  simp only [stepRun, hp, Option.some.injEq] at hrun
  unfold stepStart at hrun
  split at hrun
  · simp only [Prod.mk.injEq] at hrun
    exact .inl ⟨_, _, hrun.2.symm⟩
  · rename_i stage _ hst
    obtain ⟨script, rfl⟩ := Command.staysInTx_stage hstay hst
    simp only [Prod.mk.injEq] at hrun
    refine .inr ⟨script, ?_, hrun.2.symm⟩
    unfold Command.firstStage? at hst
    split at hst <;> cases hst
    assumption
  · rename_i hop hst
    obtain ⟨stage, hstage⟩ := Command.firstStage_of_atomicOp_none hop
    rw [hst] at hstage
    cases hstage

mutual

theorem acc_of_command : (c : Command) → ∀ (s : Session) (r : OpRun), s.phase = .ops r .start →
    (∀ script, r.cmd.body = .eval script → c.body = .eval script) → AccAfter i s r →
    Acc (Follows i) s
  | .mk _ body => fun s r hp hc ha => acc_of_body body s r hp hc ha

theorem acc_of_body : (b : Body) → ∀ (s : Session) (r : OpRun), s.phase = .ops r .start →
    (∀ script, r.cmd.body = .eval script → b = .eval script) → AccAfter i s r → Acc (Follows i) s
  | .eval script => fun s r hp hb ha => .intro s fun s' hs' => by
    rcases hs'.start hp with ⟨tx, out, rfl⟩ | ⟨script', hbody, rfl⟩
    · exact ha tx out
    · cases hb script' hbody
      exact acc_of_script script _ r [] rfl ha
  | .atomic _ | .bzpop .. | .xread .. | .flush _ => fun s r hp hb ha => .intro s fun s' hs' => by
    rcases hs'.start hp with ⟨tx, out, rfl⟩ | ⟨script', hbody, rfl⟩
    · exact ha tx out
    · cases hb script' hbody

/-- Each command of a script, and the script after it, take finitely many steps. -/
theorem acc_of_script : (sc : Script) → ∀ (s : Session) (r : OpRun) (deferred : List Claim),
    s.phase = .ops r (.script sc deferred) → AccAfter i s r → Acc (Follows i) s
  | .done reply => fun s r deferred hp ha => acc_of_run hp rfl fun hrun => by
    simp only [stepRun, hp, stepScript, Option.some.injEq, Prod.mk.injEq] at hrun
    exact hrun.2 ▸ ha r.tx _
  | .fail msg => fun s r deferred hp ha => acc_of_run hp rfl fun hrun => by
    simp only [stepRun, hp, stepScript, Option.some.injEq, Prod.mk.injEq] at hrun
    exact hrun.2 ▸ acc_of_givingBack deferred _ r rfl ha
  | .call c next => fun s r deferred hp ha => acc_of_run hp rfl fun hrun => by
    simp only [stepRun, hp, stepScript, Option.some.injEq, Prod.mk.injEq] at hrun
    rw [← hrun.2]
    refine acc_of_command c _ _ rfl (fun script hbody => ?_) fun tx out => ?_
    · obtain ⟨info, body⟩ := c
      cases body <;> simp_all [Command.prepare, Command.body]
    · cases out with
      | ok res =>
        refine acc_of_wire _ _ { r with tx } rfl ?_
        exact acc_of_script (next res.reply) _ { r with tx } _ rfl fun tx' out' => ha tx' out'
      | error e =>
        exact acc_of_script (next ((c.prepare true).info.onError e)) _ { r with tx } _ rfl
          fun tx' out' => ha tx' out'

end

/-! ## The whole dispatch -/

/-- A retry, if one is left, takes finitely many steps. -/
def AccRetry (i : Nat) (s : Session) (d : Dispatch) : Prop :=
  d.retries < s.conflictRetryCount →
    Acc (Follows i) { s with phase := .begin { d with retries := d.retries + 1 } }

theorem acc_of_conflicted (claims : List Claim) (hr : AccRetry i s d) :
    Acc (Follows i) (s.conflicted d claims) := by
  unfold Session.conflicted
  split
  · exact acc_of_releasing claims _ rfl nofun
  · split
    · rename_i hleft
      refine acc_of_releasing claims _ rfl fun d' hd' => ?_
      cases hd'
      exact hr hleft
    · exact acc_of_releasing claims _ rfl nofun

theorem acc_of_commit
    (h : s.phase = .commit d tx outcomes) (hr : AccRetry i s d) : Acc (Follows i) s := by
  refine acc_of_moves fun hm => ?_
  cases hm with
  | commit d' tx' outcomes' hp => exact acc_of_committed rfl
  | commitConflict d' tx' outcomes' hp =>
    rw [h] at hp
    cases hp
    exact acc_of_conflicted _ hr
  | commitFailed d' tx' outcomes' e hp => exact acc_of_releasing _ _ rfl nofun
  | _ => simp_all only [reduceCtorEq]

theorem acc_of_completeOp {out : Outcome} (hr : AccRetry i s r.dispatch)
    (hnext : Acc (Follows i) (s.nextOp r.dispatch r.tx (r.outcomes ++ [out]))) :
    Acc (Follows i) (s.completeOp r out) := by
  unfold Session.completeOp
  split
  · exact acc_of_conflicted _ hr
  · split
    · split
      · exact hnext
      · exact acc_of_releasing _ _ rfl nofun
    · exact hnext

/-- The induction is on the ops that are left in the queue. -/
theorem acc_of_nextOp (hr : AccRetry i s d) (left : Nat) :
    ∀ (tx : Tx) (outcomes : List Outcome), s.queue.length ≤ outcomes.length + left →
      Acc (Follows i) (s.nextOp d tx outcomes) := by
  induction left with
  | zero =>
    intro tx outcomes hlen
    have hnone : s.queue[outcomes.length]? = none := List.getElem?_eq_none hlen
    simp only [nextOp, hnone]
    exact acc_of_commit rfl hr
  | succ left ih =>
    intro tx outcomes hlen
    unfold Session.nextOp
    split
    · rename_i cmd _
      refine acc_of_command cmd _ _ rfl (fun script hbody => hbody) fun tx' out => ?_
      have hnext : Acc (Follows i) (s.nextOp d tx' (outcomes ++ [out])) :=
        ih tx' (outcomes ++ [out]) (by simp; omega)
      exact acc_of_completeOp hr hnext
    · exact acc_of_commit rfl hr

/-- The induction is on the scripts that the command is nested in. -/
theorem acc_after (frames : List Frame) : ∀ r : OpRun, r.frames = frames →
    AccRetry i s r.dispatch → AccAfter i s r := by
  induction frames with
  | nil =>
    intro r hf hr tx out
    simp only [complete, hf]
    exact acc_of_completeOp hr (acc_of_nextOp hr s.queue.length tx _ (Nat.le_add_left ..))
  | cons f frames ih =>
    intro r hf hr tx out
    simp only [complete, hf, completeCall]
    have hafter : AccAfter i s { r with tx, cmd := f.cmd, frames } :=
      ih { r with tx, cmd := f.cmd, frames } rfl hr
    cases out with
    | ok res => exact acc_of_wire _ _ _ rfl (acc_of_script _ _ _ _ rfl hafter)
    | error e => exact acc_of_script _ _ _ _ rfl hafter

theorem acc_of_checkKeys (s : Session) (tx : Tx) (todo : List WatchedKey)
    (h : s.phase = .checkKeys d tx todo) (hr : AccRetry i s d) : Acc (Follows i) s := by
  induction hn : todo.length using Nat.strongRecOn generalizing s tx todo with
  | _ n ih
  refine acc_of_moves fun hm => ?_
  cases hm with
  | keyChanged => exact acc_of_returned rfl
  | keyKept d' tx' todo' e hp he =>
    rw [h] at hp
    cases hp
    have hless : (todo.filter (·.key ≠ e.key)).length < todo.length :=
      List.length_filter_lt_length_iff_exists.mpr ⟨e, he, by simp⟩
    exact ih _ (hn ▸ hless) _ _ _ rfl hr rfl
  | keysChecked d' tx' key hp =>
    rw [h] at hp
    cases hp
    exact acc_of_nextOp hr s.queue.length tx [] (Nat.le_add_left ..)
  | _ => simp_all only [reduceCtorEq]

theorem acc_of_checkEpoch (h : s.phase = .checkEpoch d tx)
    (hr : AccRetry i s d) : Acc (Follows i) s := by
  refine acc_of_moves fun hm => ?_
  cases hm with
  | epochChanged => exact acc_of_returned rfl
  | epochKept d' tx' hp =>
    rw [h] at hp
    cases hp
    exact acc_of_checkKeys _ tx s.watched rfl hr
  | _ => simp_all only [reduceCtorEq]

theorem acc_of_begin_of_retry (h : s.phase = .begin d) (hr : AccRetry i s d) :
    Acc (Follows i) s := by
  refine acc_of_moves fun hm => ?_
  cases hm with
  | beginFailed => exact acc_of_returned rfl
  | beginWatched d' hp =>
    rw [h] at hp
    cases hp
    exact acc_of_checkEpoch rfl hr
  | begin d' hp =>
    rw [h] at hp
    cases hp
    exact acc_of_nextOp hr s.queue.length _ [] (Nat.le_add_left ..)
  | _ => simp_all only [reduceCtorEq]

/-- The induction is on the retries that are left. -/
theorem accRetry (left : Nat) : ∀ (s : Session) (d : Dispatch),
    s.conflictRetryCount ≤ d.retries + left → AccRetry i s d := by
  induction left with
  | zero =>
    intro s d hle hlt
    omega
  | succ left ih =>
    intro s d hle hlt
    exact acc_of_begin_of_retry rfl (ih _ _ (by simp only; omega))

/-- Whatever the store and the other sessions do, the session takes finitely many steps
before its dispatch has returned. -/
theorem acc_of_inTx (hin : ∀ r stage, s.phase = .ops r stage → stage.inTx = true) :
    Acc (Follows i) s := by
  have hr (d : Dispatch) : AccRetry i s d :=
    accRetry s.conflictRetryCount s d (Nat.le_add_left ..)
  have ha (r : OpRun) : AccAfter i s r := acc_after r.frames r rfl (hr _)
  match h : s.phase with
  | .begin d => exact acc_of_begin_of_retry h (hr d)
  | .checkEpoch d tx => exact acc_of_checkEpoch h (hr d)
  | .checkKeys d tx todo => exact acc_of_checkKeys s tx todo h (hr d)
  | .ops r stage =>
    have hstage := hin r stage h
    match stage, h with
    | .start, h => exact acc_of_command r.cmd s r h (fun script hbody => hbody) (ha r)
    | .script sc deferred, h => exact acc_of_script sc s r deferred h (ha r)
    | .wire claims sc deferred, h =>
      exact acc_of_wire claims s r h (acc_of_script sc _ r deferred rfl (ha r))
    | .giveBack claims e, h => exact acc_of_givingBack claims s r h (ha r)
  | .commit d tx outcomes => exact acc_of_commit h (hr d)
  | .bump d m outcomes => exact acc_of_committed h
  | .reply d claims => exact acc_of_replying d claims s h
  | .release claims after =>
    exact acc_of_releasing claims s h fun d _ => acc_of_begin_of_retry rfl
      (accRetry s.conflictRetryCount _ d (Nat.le_add_left ..))
  | .idle | .closed | .watchBegin _ | .watchKeys .. | .bumpEpoch =>
    exact acc_of_returned (by rw [h]; rfl)

end

end Invar
