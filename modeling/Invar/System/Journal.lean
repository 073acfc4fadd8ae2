import Invar.System.BatchRuns
import Invar.System.ExecEnds
import Invar.System.TxIds

/-!
# The journal of a dispatch

`dispatch_pending_ops` runs the queue in a transaction and, when that loses a conflict,
gives its claims back and runs the queue again, as often as the retry budget allows.
A `Journal` is kept beside the machine, for one session: the transactions its current
dispatch has begun, the claims its ops have made, the claims it has given back and
woken, the commit and what it returns. The machine does not read it.

`Journal.Tracks` is what the journal and the session know of each other about attempts
and results.
-/

namespace Invar

open StoreProg Session Interleaving

/-! ## What a dispatch returns -/

inductive DispatchResult where
  /-- The replies of the ops, in order. -/
  | results (replies : List RespValue)
  | execAbort
  | empty
  | nil
  | conflict
  | opError (reply : RespValue)
  | storeError (e : KvError)

/-- What a conflict returns: nil under SSI, nothing yet while there are retries left. -/
def Session.conflictResult (s : Session) (d : Dispatch) : Option DispatchResult :=
  if d.isolation = .serializableSnapshot then some .nil
  else if d.retries < s.conflictRetryCount then none
  else some .conflict

/-- What the end of the current command returns. -/
def Session.opResult (s : Session) (r : OpRun) (out : Outcome) : Option DispatchResult :=
  if r.frames.isEmpty then
    if out.isRetryableConflict then s.conflictResult r.dispatch
    else
      match out with
      | .error e => if r.dispatch.batch then none else some (.opError (r.cmd.info.onError e))
      | .ok _ => none
  else none

/-! ## The journal -/

/-- A commit: the store before it and after it, the transaction and the outcomes. -/
structure Journal.Commit where
  before : Store
  after : Store
  tx : Tx
  outcomes : List Outcome

/-- `attempts` holds the ids of the transactions, the latest first. -/
structure Journal where
  queue : List Command := []
  attempts : List Nat := []
  snapshot : Store := ∅
  made : List Claim := []
  released : List Claim := []
  woken : List Claim := []
  commit : Option Journal.Commit := none
  result : Option DispatchResult := none

/-- The claim that a `ZADD` takes and gives back itself because its pop fails. -/
def AtomicOp.givenBack (env : Nat → Tick) (tx : Tx) (sh : Shared) : AtomicOp → List Claim
  | .zadd op =>
    let r := exec op.write env tx.txn
    match r.out with
    | .error _ => []
    | .ok w =>
      if w.added then
        match sh.registry.tryClaim w.node.publicKey with
        | none => []
        | some (c, _) =>
          match (exec (Zset.popOne c.wantMin w.node) r.env r.txn).out with
          | .error _ => [{ c with origin := tx.id }]
          | .ok _ => []
      else []
  | _ => []

/-- What the journal of a session notes of one of its steps. -/
def Journal.note (j : Journal) (i : Nat) (env : Nat → Tick) (sh : Shared) (s : Session)
    (a : Action) (sh' : Shared) (s' : Session) : Journal :=
  match a, s.phase with
  | .submit c, .idle => if s.inMulti then j else { queue := s.queue ++ [c.prepare true] }
  | .exec, .idle =>
    if s.inMulti then
      { queue := s.queue
        result := if s.dirtyExec then some .execAbort
          else if s.queue.isEmpty then some .empty else none }
    else j
  | .begin none, .begin _ => { j with attempts := sh.nextTx :: j.attempts, snapshot := sh.store }
  | .begin (some e), .begin _ => { j with result := some (.storeError e) }
  | .checkEpoch, .checkEpoch .. | .checkKey _, .checkKeys .. =>
    if s'.phase.isIdle then { j with result := some .nil } else j
  | .run, .ops r .start =>
    match r.cmd.atomicOp? with
    | none => j
    | some op =>
      let out := (op.run i env r.tx sh).1
      { j with
        made := j.made ++ out.claims ++ op.givenBack env r.tx sh
        released := j.released ++ op.givenBack env r.tx sh
        result := s.opResult r out }
  | .run, .ops _ (.wire (c :: _) _ _) => { j with woken := j.woken ++ [c] }
  | .run, .ops _ (.giveBack (c :: _) _) => { j with released := j.released ++ [c] }
  | .run, .ops r (.giveBack [] e) => { j with result := s.opResult r (.error e) }
  | .commit none, .commit _ tx outcomes =>
    { j with
      commit := some ⟨sh.store, sh'.store, tx, outcomes⟩
      result := some (.results (List.zipWith Command.reply s.queue outcomes)) }
  | .commit (some .conflict), .commit d _ _ => { j with result := s.conflictResult d }
  | .commit (some e), .commit .. => { j with result := some (.storeError e) }
  | .reply, .reply _ (c :: _) => { j with woken := j.woken ++ [c] }
  | .release, .release (c :: _) _ => { j with released := j.released ++ [c] }
  | _, _ => j

/-- The machine with the journal of session `i` beside it. -/
def Journal.step (i : Nat) (st : World × Journal) (b : Nat × Action × List Tick) :
    Option (World × Journal) :=
  (World.step st.1 b).map fun w' =>
    (w', if b.1 = i then
        st.2.note i (readings st.1.shared.clock b.2.2) st.1.shared (st.1.threads i) b.2.1
          w'.shared (w'.threads i)
      else st.2)

/-- The claims that were made in a transaction. -/
def madeIn (tx : Nat) (claims : List Claim) : List Claim := claims.filter (·.origin == tx)

/-- What has become of a dispatch when it has returned. -/
structure Journal.Settled (i : Nat) (sh : Shared) (j : Journal) : Prop where
  /-- The transaction of the commit is the last one; it ran the queue on its snapshot. -/
  ran : ∀ c, j.commit = some c → j.attempts.head? = some c.tx.id ∧
    c.after = c.tx.txn.applyTo c.before ∧
    ∃ tx₀, tx₀.Fresh j.snapshot ∧ QueueRuns i tx₀ j.queue c.outcomes c.tx
  /-- Results are returned exactly if there is a commit, one for each op. -/
  results : ∀ replies, j.result = some (.results replies) ↔
    ∃ c, j.commit = some c ∧ replies = List.zipWith Command.reply j.queue c.outcomes
  committed : ∀ tx ∈ j.attempts,
    sh.committed tx = true ↔ ∃ c, j.commit = some c ∧ c.tx.id = tx
  woken : ∀ c, j.commit = some c →
    (madeIn c.tx.id j.woken).Perm (madeIn c.tx.id j.made) ∧ madeIn c.tx.id j.released = []
  released : ∀ tx, (∀ c, j.commit = some c → c.tx.id ≠ tx) →
    (madeIn tx j.released).Perm (madeIn tx j.made) ∧ madeIn tx j.woken = []

/-! ## The condition on steps -/

/-- The ops touch the store only through the transaction handed to them. -/
def staysInTx (w : World) (b : Nat × Action × List Tick) : Bool :=
  match b.2.1, (w.threads b.1).phase with
  | .run, .ops r .start => r.cmd.staysInTx
  | _, _ => true

/-- No script issues an `XADD`, or an `EVAL` that ends with deferred claims; a script that
has any, and a `ZADD` whose pop for a waiter fails, fails only where the attempt is
abandoned with it. -/
def settlesClaims (w : World) (b : Nat × Action × List Tick) : Bool :=
  match b.2.1, (w.threads b.1).phase with
  | .run, .ops r .start =>
    match r.cmd.atomicOp? with
    | none => true
    | some (.xadd _) => r.frames.isEmpty
    | some op =>
      (op.givenBack (readings w.shared.clock b.2.2) r.tx w.shared).isEmpty ||
        r.frames.isEmpty && (!r.dispatch.batch ||
          (op.run b.1 (readings w.shared.clock b.2.2) r.tx w.shared).1.isRetryableConflict)
  | .run, .ops r (.script (.fail _) deferred) =>
    deferred.isEmpty || r.frames.isEmpty && !r.dispatch.batch
  | .run, .ops r (.script (.done _) deferred) => r.frames.isEmpty || deferred.isEmpty
  | _, _ => true

/-! ## The attempts, step by step -/

/-- What the steps of the session have to meet. -/
structure Settles (i : Nat) (env : Nat → Tick) (sh : Shared) (s : Session) (a : Action) :
    Prop where
  stays : ∀ r, a = .run → s.phase = .ops r .start → r.cmd.staysInTx = true
  xadd : ∀ r op, a = .run → s.phase = .ops r .start → r.cmd.atomicOp? = some (.xadd op) →
    r.frames = []
  back : ∀ r op, a = .run → s.phase = .ops r .start → r.cmd.atomicOp? = some op →
    op.givenBack env r.tx sh = [] ∨ r.frames = [] ∧ (r.dispatch.batch = false ∨
      (op.run i env r.tx sh).1.isRetryableConflict = true)
  fails : ∀ r msg deferred, a = .run → s.phase = .ops r (.script (.fail msg) deferred) →
    deferred = [] ∨ r.frames = [] ∧ r.dispatch.batch = false
  ends : ∀ r reply deferred, a = .run → s.phase = .ops r (.script (.done reply) deferred) →
    r.frames = [] ∨ deferred = []

theorem Settles.of_true {w : World} {b : Nat × Action × List Tick}
    (h : (staysInTx w b && settlesClaims w b) = true) :
    Settles b.1 (readings w.shared.clock b.2.2) w.shared (w.threads b.1) b.2.1 := by
  simp only [Bool.and_eq_true] at h
  obtain ⟨hstay, h⟩ := h
  unfold staysInTx at hstay
  unfold settlesClaims at h
  constructor
  · intro r ha hp
    simpa [ha, hp] using hstay
  · intro r op ha hp hop
    simpa [ha, hp, hop] using h
  · intro r op ha hp hop
    cases op with
    | xadd => exact .inl rfl
    | plain | zadd => simpa [ha, hp, hop] using h
  · intro r msg deferred ha hp
    simpa [ha, hp] using h
  · intro r reply deferred ha hp
    simpa [ha, hp] using h

/-- The dispatch goes on: nothing is committed and nothing returned. -/
structure Journal.Trying (n : Nat) (queue : List Command) (retries begun : Nat) (j : Journal) :
    Prop where
  queue : j.queue = queue
  begun : j.attempts.length = begun
  retries : retries ≤ n
  commit : j.commit = none
  result : j.result = none

def Phase.Control (n : Nat) (queue : List Command) (j : Journal) : Phase → Prop
  | .begin d | .release _ (.retry d) => j.Trying n queue d.retries d.retries
  | .checkEpoch d tx | .checkKeys d tx _ | .commit d tx _ =>
    j.Trying n queue d.retries (d.retries + 1) ∧ j.attempts.head? = some tx.id
  | .ops r _ => j.Trying n queue r.dispatch.retries (r.dispatch.retries + 1) ∧
    j.attempts.head? = some r.tx.id
  | .bump .. | .reply .. => j.commit ≠ none
  | .release _ .idle => j.commit = none
  | _ => True

structure Journal.Tracks (n i : Nat) (s : Session) (j : Journal) : Prop where
  limit : s.conflictRetryCount = n
  few : j.attempts.length ≤ n + 1
  control : s.phase.Control n s.queue j
  runs : s.phase.Runs i s.queue j.snapshot
  ran : ∀ c, j.commit = some c → j.attempts.head? = some c.tx.id ∧
    c.after = c.tx.txn.applyTo c.before ∧
    ∃ tx₀, tx₀.Fresh j.snapshot ∧ QueueRuns i tx₀ j.queue c.outcomes c.tx
  results : ∀ replies, j.result = some (.results replies) ↔
    ∃ c, j.commit = some c ∧ replies = List.zipWith Command.reply j.queue c.outcomes

section

variable {n i : Nat} {env : Nat → Tick} {sh sh' : Shared} {s s' : Session} {a : Action}
  {j : Journal}

/-- The journal of a dispatch that has begun no attempt. -/
theorem Journal.Tracks.blank (hl : s.conflictRetryCount = n) (ha : j.attempts = [])
    (hc : j.commit = none) (hr : ∀ replies, j.result ≠ some (.results replies))
    (hcontrol : s.phase.Control n s.queue j) (hruns : s.phase.Runs i s.queue j.snapshot) :
    j.Tracks n i s :=
  ⟨hl, by simp [ha], hcontrol, hruns, by simp [hc], by simp [hc, hr]⟩

variable {j' : Journal} {queue : List Command} {retries : Nat} {d : Dispatch} {out : Outcome}
  {r : OpRun} {stage : Stage}

/-- Nothing is committed in this step, and nothing is begun. -/
theorem Journal.Tracks.goes (h : j.Tracks n i s) (hq : j'.queue = j.queue)
    (ha : j'.attempts = j.attempts) (hsn : j'.snapshot = j.snapshot) (hc : j'.commit = j.commit)
    (hres : j'.result = j.result ∨ j.commit = none ∧ ∀ replies, j'.result ≠ some (.results replies))
    (hl : s'.conflictRetryCount = s.conflictRetryCount)
    (hcontrol : s'.phase.Control n s'.queue j') (hruns : s'.phase.Runs i s'.queue j.snapshot) :
    j'.Tracks n i s' := by
  refine ⟨hl.trans h.limit, ha ▸ h.few, hcontrol, hsn ▸ hruns, ?_, ?_⟩
  · rw [hq, ha, hsn, hc]
    exact h.ran
  · rw [hq, hc]
    rcases hres with hres | ⟨hnone, hno⟩
    · rw [hres]
      exact h.results
    · simp [hno, hnone]

/-- The journal after the begin of an attempt. -/
def Journal.begin (j : Journal) (sh : Shared) : Journal :=
  { j with attempts := sh.nextTx :: j.attempts, snapshot := sh.store }

theorem Journal.note_begin (h : s.phase = .begin d) :
    j.note i env sh s (.begin none) sh' s' = j.begin sh := by
  simp [Journal.note, Journal.begin, h]

theorem Journal.Trying.begin (h : j.Trying n queue retries retries) (sh : Shared) :
    (j.begin sh).Trying n queue retries (retries + 1) :=
  ⟨h.queue, congrArg Nat.succ h.begun, h.retries, h.commit, h.result⟩

theorem Journal.Tracks.begin (hl : s'.conflictRetryCount = n)
    (h : j.Trying n s.queue retries retries) (hcontrol : s'.phase.Control n s'.queue (j.begin sh))
    (hruns : s'.phase.Runs i s'.queue sh.store) : (j.begin sh).Tracks n i s' := by
  have hb := h.begin sh
  refine ⟨hl, ?_, hcontrol, hruns, by simp [hb.commit], by simp [hb.commit, hb.result]⟩
  rw [hb.begun]
  exact Nat.succ_le_succ hb.retries

theorem conflictResult_ne (s : Session) (d : Dispatch) (replies : List RespValue) :
    s.conflictResult d ≠ some (.results replies) := by
  unfold conflictResult
  split
  · simp
  · split <;> simp

theorem opResult_ne (s : Session) (r : OpRun) (out : Outcome) (replies : List RespValue) :
    s.opResult r out ≠ some (.results replies) := by
  unfold opResult
  split
  · split
    · exact conflictResult_ne s r.dispatch replies
    · split
      · split <;> simp
      · simp
  · simp

/-- After a conflict the dispatch begins again, as long as there are retries. -/
theorem conflicted_control {claims : List Claim} (hl : s.conflictRetryCount = n)
    (hq : j.queue = s.queue) (hb : j.attempts.length = d.retries + 1) (hc : j.commit = none)
    (hr : j.result = s.conflictResult d) :
    (s.conflicted d claims).phase.Control n (s.conflicted d claims).queue j := by
  unfold conflictResult at hr
  unfold conflicted
  split
  · exact hc
  · rename_i hiso
    split
    · rename_i hlt
      simp only [hiso, hlt, if_true, if_false] at hr
      exact ⟨hq, hb, hl ▸ hlt, hc, hr⟩
    · exact hc

theorem Phase.Control.congr {phase : Phase}
    (h : phase.Control n queue j) (hq : j'.queue = j.queue) (ha : j'.attempts = j.attempts)
    (hc : j'.commit = j.commit) (hr : j'.result = j.result) : phase.Control n queue j' := by
  have trying {retries begun : Nat} (ht : j.Trying n queue retries begun) :
      j'.Trying n queue retries begun :=
    ⟨hq.trans ht.queue, ha ▸ ht.begun, ht.retries, hc.trans ht.commit, hr.trans ht.result⟩
  cases phase with
  | begin d => exact trying h
  | checkEpoch d tx | checkKeys d tx | commit d tx outcomes => exact ⟨trying h.1, ha ▸ h.2⟩
  | ops r stage => exact ⟨trying h.1, ha ▸ h.2⟩
  | release claims after =>
    cases after with
    | idle => exact hc.trans h
    | retry d => exact trying h
  | bump | reply =>
    change j'.commit ≠ none
    rw [hc]
    exact h
  | _ => trivial

/-- The current command has run. -/
theorem Completes.control (h : Completes s r out s') (hl : s.conflictRetryCount = n)
    (hq : j.queue = s.queue) (hb : j.attempts.length = r.dispatch.retries + 1)
    (hle : r.dispatch.retries ≤ n) (hhead : j.attempts.head? = some r.tx.id)
    (hc : j.commit = none) (hr : j.result = s.opResult r out) : s'.phase.Control n s'.queue j := by
  cases h with
  | conflict hf ho =>
    refine conflicted_control hl hq hb hc ?_
    simpa [opResult, hf, ho, Outcome.isRetryableConflict] using hr
  | abandon => exact hc
  | next phase hf hn hbatch heq hno =>
    have hnone : j.result = none := by
      rw [hr]
      cases out with
      | ok res => simp [opResult, hf, hno]
      | error e => simp [opResult, hf, hno, hbatch ⟨e, rfl⟩]
    cases hn <;> exact ⟨⟨hq, hb, hle, hc, hnone⟩, hhead⟩
  | called f frames res hf | raised f frames e hf =>
    have hnone : j.result = none := by simpa [opResult, hf] using hr
    exact ⟨⟨hq, hb, hle, hc, hnone⟩, hhead⟩

theorem conflicted_limit (d : Dispatch) (claims : List Claim) :
    (s.conflicted d claims).conflictRetryCount = s.conflictRetryCount := by
  unfold conflicted
  split
  · rfl
  · split <;> rfl

theorem dispatch_limit (s : Session) (batch flush : Bool) :
    (s.dispatch batch flush).conflictRetryCount = s.conflictRetryCount := by
  unfold dispatch
  split
  · rfl
  · split <;> rfl

theorem nextOp_limit (d : Dispatch) (tx : Tx) (outcomes : List Outcome) :
    (s.nextOp d tx outcomes).conflictRetryCount = s.conflictRetryCount := by
  obtain ⟨phase, -, heq⟩ := nextOp_eq s d tx outcomes
  rw [heq]

theorem Completes.limit (h : Completes s r out s') :
    s'.conflictRetryCount = s.conflictRetryCount := by
  cases h with
  | conflict => exact conflicted_limit _ _
  | _ => rfl

theorem Moves.limit (h : Moves i env sh s a sh' s') :
    s'.conflictRetryCount = s.conflictRetryCount := by
  cases h with
  | submit | exec => exact dispatch_limit _ _ _
  | begin | keysChecked => exact nextOp_limit _ _ _
  | commitConflict => exact conflicted_limit _ _
  | atomic | scriptDone | gaveBack | bzpopBeginFailed | bzpopError | bzpopCommit
  | bzpopCommitFailed | bzpopReceive | bzpopTimeout | xreadEnd | flushEnd =>
    exact (completes _ _ _).limit
  | _ => rfl

/-- A dispatch starts with an empty journal. -/
theorem dispatch_tracks {batch flush : Bool} (hl : s.conflictRetryCount = n) (hq : s.queue = queue)
    (hj : ∀ d, (s.dispatch batch flush).phase = .begin d → j = { queue }) (ha : j.attempts = [])
    (hc : j.commit = none) (hr : ∀ replies, j.result ≠ some (.results replies)) :
    j.Tracks n i (s.dispatch batch flush) := by
  refine .blank ((dispatch_limit s batch flush).trans hl) ha hc hr ?_ ?_
  · unfold dispatch at hj ⊢
    split
    · trivial
    · split
      · trivial
      · rename_i hdirty hempty
        rw [if_neg hdirty, if_neg hempty] at hj
        rw [hj _ rfl]
        exact ⟨hq.symm, rfl, Nat.zero_le _, rfl, rfl⟩
  · rcases dispatch_phase s batch flush with hd | ⟨d, hd⟩ <;> rw [hd] <;> trivial

/-- No claim has been made, given back or woken. -/
structure Journal.Empty (j : Journal) : Prop where
  made : j.made = []
  released : j.released = []
  woken : j.woken = []

/-- A command of the client leaves the journal alone or starts a new one. -/
theorem Journal.note_of_idle (j : Journal) (i : Nat) (env : Nat → Tick) (sh : Shared) (a : Action)
    (sh' : Shared) (s' : Session) (h : s.phase = .idle) :
    j.note i env sh s a sh' s' = j ∨ (j.note i env sh s a sh' s').attempts = [] ∧
      (j.note i env sh s a sh' s').commit = none ∧
      (∀ replies, (j.note i env sh s a sh' s').result ≠ some (.results replies)) ∧
      (j.note i env sh s a sh' s').Empty := by
  unfold Journal.note
  rw [h]
  split <;> try exact .inl rfl
  · split
    · exact .inl rfl
    · exact .inr ⟨rfl, rfl, by simp, rfl, rfl, rfl⟩
  · split
    · refine .inr ⟨rfl, rfl, fun replies => ?_, rfl, rfl, rfl⟩
      split
      · simp
      · split <;> simp
    · exact .inl rfl
  all_goals simp_all

theorem Command.atomicOp_of_firstStage {c : Command}
    (h : c.firstStage? = some stage) : c.atomicOp? = none := by
  unfold Command.firstStage? at h
  split at h <;> cases h <;> simp_all [Command.atomicOp?]

theorem Stage.inTx_of_cancelled {w : Waiter} (h : stage.cancelled = some w) :
    stage.inTx = false := by
  cases stage <;> first | rfl | cases h

theorem nextOp_isIdle (d : Dispatch) (tx : Tx) (outcomes : List Outcome) :
    (s.nextOp d tx outcomes).phase.isIdle = false := by
  obtain ⟨phase, hn, heq⟩ := nextOp_eq s d tx outcomes
  rw [heq]
  cases hn <;> rfl

theorem nextOp_control {tx : Tx} {outcomes : List Outcome}
    (h : j.Trying n s.queue d.retries (d.retries + 1)) (hhead : j.attempts.head? = some tx.id) :
    (s.nextOp d tx outcomes).phase.Control n (s.nextOp d tx outcomes).queue j := by
  obtain ⟨phase, hn, heq⟩ := nextOp_eq s d tx outcomes
  rw [heq]
  cases hn <;> exact ⟨h, hhead⟩

/-- **At most `n + 1` attempts are begun, and what is committed is a run of the queue.** -/
theorem Moves.tracks (h : Moves i env sh s a sh' s') (hj : j.Tracks n i s)
    (hok : Settles i env sh s a) : (j.note i env sh s a sh' s').Tracks n i s' := by
  have hruns := h.runs hj.runs hok.stays
  have hlimit := h.limit
  have control {phase : Phase} (hph : s.phase = phase) : phase.Control n s.queue j :=
    hph ▸ hj.control
  -- a command ends, with the journal that notes it
  have ends {r : OpRun} {stage : Stage} {out : Outcome} {tx : Tx} {j' : Journal}
      (hs : s' = s.complete { r with tx } out) (hph : s.phase = .ops r stage)
      (hid : tx.id = r.tx.id) (hb : a.begins = false)
      (hj' : j'.queue = j.queue ∧ j'.attempts = j.attempts ∧ j'.snapshot = j.snapshot ∧
        j'.commit = j.commit ∧ j'.result = s.opResult r out) : j'.Tracks n i s' := by
    obtain ⟨⟨hq, hbegun, hle, hc, hres⟩, hhead⟩ := control hph
    obtain ⟨hq', ha', hsn', hc', hres'⟩ := hj'
    rw [hb] at hruns
    refine hj.goes hq' ha' hsn' hc' (.inr ⟨hc, ?_⟩) hlimit ?_ hruns
    · exact hres' ▸ opResult_ne s r out
    · subst hs
      exact (completes s { r with tx } out).control hj.limit (hq'.trans hq) (ha' ▸ hbegun) hle
        (by rw [ha', hhead, ← hid]) (hc'.trans hc) hres'
  -- nothing but the phase changes, and perhaps the claims in the journal
  have goes (woken released : List Claim) (hb : a.begins = false)
      (hn : j.note i env sh s a sh' s' = { j with woken, released })
      (hcontrol : s'.phase.Control n s'.queue j) : (j.note i env sh s a sh' s').Tracks n i s' := by
    rw [hb] at hruns
    rw [hn]
    exact hj.goes rfl rfl rfl rfl (.inl rfl) hlimit (hcontrol.congr rfl rfl rfl rfl) hruns
  have same (hb : a.begins = false) (hn : j.note i env sh s a sh' s' = j)
      (hcontrol : s'.phase.Control n s'.queue j) : (j.note i env sh s a sh' s').Tracks n i s' :=
    goes j.woken j.released hb hn hcontrol
  -- the dispatch returns without a commit
  have returns (result : Option DispatchResult) (hb : a.begins = false)
      (hn : j.note i env sh s a sh' s' = { j with result }) (hnone : j.commit = none)
      (hres : ∀ replies, result ≠ some (.results replies))
      (hcontrol : s'.phase.Control n s'.queue { j with result }) :
        (j.note i env sh s a sh' s').Tracks n i s' := by
    rw [hb] at hruns
    rw [hn]
    exact hj.goes rfl rfl rfl rfl (.inr ⟨hnone, hres⟩) hlimit hcontrol hruns
  cases h with
  | refused a hph =>
    rcases j.note_of_idle i env sh a sh s hph with
      hn | ⟨ha, hc, hr, -⟩
    · rw [hn]
      exact hj
    · exact .blank hj.limit ha hc hr (hph ▸ trivial) (hph ▸ trivial)
  | multi hph | discard hph | unwatch hph | spoiled c hph hm | queued c hph hm =>
    exact same rfl (by simp [Journal.note, *]) (by simp [hph, Phase.Control, finish])
  | watch keys hph | watchBegin ok keys snapshot hph | watchKey snapshot k rest existed hph
  | watched snapshot hph | replied d hph | repliedFlush d hph | released hph | bumpEpoch hph =>
    exact same rfl (by simp [Journal.note, hph]) trivial
  | submit c hph hm =>
    simp only [Journal.note, hph, hm]
    exact dispatch_tracks hj.limit rfl (fun _ _ => rfl) rfl rfl (by simp)
  | exec hph hm =>
    simp only [Journal.note, hph, hm, ↓reduceIte]
    refine dispatch_tracks hj.limit rfl (fun d hd => ?_) rfl rfl fun replies => ?_
    · unfold dispatch at hd
      split at hd
      · cases hd
      · rename_i hdirty
        split at hd
        · cases hd
        · rename_i hempty
          simp only [Bool.true_and, Bool.not_eq_true] at hdirty hempty
          simp [hdirty, hempty]
    · split
      · simp
      · split <;> simp
  | beginFailed d e hph =>
    exact returns (some (.storeError e)) rfl (by simp [Journal.note, hph]) (control hph).commit
      (by simp) trivial
  | beginWatched d hph =>
    rw [Journal.note_begin hph]
    exact .begin (hlimit.trans hj.limit) (control hph) ⟨(control hph).begin sh, rfl⟩ hruns
  | begin d hph =>
    rw [Journal.note_begin hph]
    exact .begin (hlimit.trans hj.limit) (control hph)
      (nextOp_control ((control hph).begin sh) rfl) hruns
  | epochChanged d tx hph | keyChanged d tx todo key hph =>
    exact returns (some .nil) rfl (by simp [Journal.note, hph, finish, Phase.isIdle])
      (control hph).1.commit (by simp) trivial
  | epochKept d tx hph | keyKept d tx todo e hph =>
    have hc := control hph
    exact same rfl (by simp [Journal.note, hph, Phase.isIdle]) hc
  | keysChecked d tx key hph =>
    exact same rfl (by simp [Journal.note, hph, nextOp_isIdle])
      (nextOp_control (control hph).1 (control hph).2)
  | commit d tx outcomes hph hcan =>
    obtain ⟨ht, hhead⟩ := control hph
    have hr := hj.runs
    rw [hph] at hr
    obtain ⟨tx₀, hfresh, -, hqueue⟩ := hr
    simp only [Journal.note, hph]
    refine ⟨hj.limit, hj.few, by simp [Phase.Control], trivial, fun c hc => ?_, fun replies => ?_⟩
    · cases hc
      exact ⟨hhead, rfl, tx₀, hfresh, ht.queue ▸ hqueue⟩
    · rw [ht.queue]
      constructor
      · intro h
        cases h
        exact ⟨_, rfl, rfl⟩
      · rintro ⟨c, hc, rfl⟩
        cases hc
        rfl
  | commitConflict d tx outcomes hph =>
    obtain ⟨ht, -⟩ := control hph
    exact returns (s.conflictResult d) rfl (by simp [Journal.note, hph]) ht.commit
      (conflictResult_ne s d) (conflicted_control hj.limit ht.queue ht.begun ht.commit rfl)
  | commitFailed d tx outcomes e hph he =>
    have hnone : j.commit = none := (control hph).1.commit
    refine returns (some (.storeError e)) rfl ?_ hnone (by simp) hnone
    cases e <;> simp_all [Journal.note]
  | bump d m outcomes hph | retry d hph =>
    have hc := control hph
    exact same rfl (by simp [Journal.note, hph]) hc
  | wake d c rest hph =>
    have hc := control hph
    exact goes (j.woken ++ [c]) j.released rfl (by simp [Journal.note, hph]) hc
  | release c rest after hph =>
    have hc := control hph
    refine goes j.woken (j.released ++ [c]) rfl (by simp [Journal.note, hph]) ?_
    cases after <;> exact hc
  | atomic r op hph hop =>
    have hrun := performs i env r.tx sh op
    refine ends rfl hph hrun.ran.id rfl ?_
    simp [Journal.note, hph, hop]
  | enter r stage hph hst =>
    have hc := control hph
    exact same rfl (by simp [Journal.note, hph, Command.atomicOp_of_firstStage hst]) hc
  | scriptDone r reply deferred hph =>
    refine ends rfl hph rfl rfl ?_
    have hnone := (control hph).1.result
    simp [Journal.note, hph, hnone, opResult, Outcome.isRetryableConflict]
  | scriptFail r msg deferred e hph | scriptCall r c next deferred hph
  | wireDone r sc deferred hph =>
    have hc := control hph
    exact same rfl (by simp [Journal.note, hph]) hc
  | wireWake r c rest sc deferred hph =>
    have hc := control hph
    exact goes (j.woken ++ [c]) j.released rfl (by simp [Journal.note, hph]) hc
  | giveBack r c rest e hph =>
    have hc := control hph
    exact goes j.woken (j.released ++ [c]) rfl (by simp [Journal.note, hph]) hc
  | gaveBack r e hph =>
    refine ends rfl hph rfl rfl ?_
    simp [Journal.note, hph]
  | xreadEnd a r stage w out hph hs =>
    rcases hs with ⟨x, rfl⟩ | ⟨x, snap, rfl⟩ <;> exact hj.runs.never hph rfl
  | hangUp r stage w hph ho hf hs =>
    exact hj.runs.never hph (Stage.inTx_of_cancelled hs)
  | _ =>
    -- the other stages of commands that wait or flush
    refine hj.runs.never (by assumption) ?_
    rfl

end

end Invar
