import Invar.System.Waiters

/-!
# What a transaction has done, and the claims that go with it

A `ZADD` pops members for waiters and an `XADD` adds entries that readers wait for;
each leaves a claim in its result. Until the commit these claims travel through
outcomes and scripts. A `Ledger` says which claims count and when they match what
the transaction has done. `Moves.ledger` shows that they match up to the commit in
every run in which no script drops claims on the way: a script that fails gives its
claims back, and an `EVAL` issued by a script wakes them at once.
-/

namespace Invar

open StoreProg Session

structure Ledger where
  counts : Claim → Bool
  Balanced : Tx → List Claim → Prop
  nil : ∀ {tx : Tx}, tx.pops = [] → tx.adds = [] → Balanced tx []
  congr : ∀ {tx tx' : Tx} {claims : List Claim}, tx'.pops = tx.pops → tx'.adds = tx.adds →
    Balanced tx claims → Balanced tx' claims
  perm : ∀ {tx : Tx} {claims claims' : List Claim}, claims'.Perm claims →
    Balanced tx claims → Balanced tx claims'

/-- The claims that a failed script still has to give back. -/
def Stage.returning : Stage → List Claim
  | .giveBack claims _ => claims
  | _ => []

def Stage.isGiveBack : Stage → Bool
  | .giveBack .. => true
  | _ => false

/-- The transaction of a blocking pop. -/
def Stage.own? : Stage → Option Tx
  | .bzpopPop _ own => some own
  | .bzpopCommit own _ => some own
  | _ => none

namespace Ledger

def of (l : Ledger) (claims : List Claim) : List Claim := claims.filter l.counts

variable {l : Ledger}

@[simp] theorem of_nil : l.of [] = [] := rfl

@[simp] theorem of_append (cs cs' : List Claim) : l.of (cs ++ cs') = l.of cs ++ l.of cs' :=
  List.filter_append ..

theorem of_cons (c : Claim) (cs : List Claim) : l.of (c :: cs) = l.of [c] ++ l.of cs := by
  rw [← of_append, List.singleton_append]

/-- Before the commit, the claims match what the transaction has done, unless a failed
script is giving them back and the transaction is going to be abandoned. -/
def Keeps (l : Ledger) : Phase → Prop
  | .checkEpoch _ tx => tx.pops = [] ∧ tx.adds = []
  | .checkKeys _ tx _ => tx.pops = [] ∧ tx.adds = []
  | .ops r stage =>
    (∀ own, stage.own? = some own → own.pops = [] ∧ own.adds = []) ∧
      (r.frames = [] ∧ r.dispatch.batch = false ∧ stage.isGiveBack = true ∨
        l.of stage.returning = [] ∧ l.Balanced r.tx (l.of (stage.deferred ++ r.claims)))
  | .commit _ tx outcomes => l.Balanced tx (l.of (outcomes.flatMap Outcome.claims))
  | _ => True

/-- The step drops no claim that counts. -/
structure Allows (l : Ledger) (s : Session) (a : Action) : Prop where
  fails : ∀ r msg deferred, a = .run → s.phase = .ops r (.script (.fail msg) deferred) →
    l.of deferred = [] ∨ r.frames = [] ∧ r.dispatch.batch = false
  ends : ∀ r reply deferred, a = .run → s.phase = .ops r (.script (.done reply) deferred) →
    r.frames = [] ∨ l.of deferred = []

end Ledger

section

variable {l : Ledger} {i : Nat} {env : Nat → Tick} {sh sh' : Shared} {s s' : Session} {a : Action}

variable {tx : Tx} {out : Outcome} {r : OpRun} {res : DbResult}

theorem NextOp.keeps {d : Dispatch} {outcomes : List Outcome} {phase : Phase}
    (h : NextOp d tx outcomes phase)
    (hb : l.Balanced tx (l.of (outcomes.flatMap Outcome.claims))) : l.Keeps phase := by
  cases h with
  | op cmd => exact ⟨by simp [Stage.own?], .inr ⟨rfl, hb⟩⟩
  | commit => exact hb

/-- The claims of the outcome join those of the run. -/
theorem Completes.keeps (h : Completes s r out s') (hk : ∀ res, out = .ok res → r.frames ≠ [] →
      l.of (r.cmd.deferClaims res).2 = l.of res.claims)
    (hb : (∃ e, out = .error e) ∧ r.frames = [] ∧ r.dispatch.batch = false ∨
      l.Balanced r.tx (l.of (out.claims ++ r.claims))) : l.Keeps s'.phase := by
  cases h with
  | conflict =>
    rw [conflicted_phase]
    trivial
  | abandon => trivial
  | next phase hf hn hbatch =>
    refine hn.keeps ?_
    rcases hb with ⟨herr, -, hno⟩ | hb
    · rw [hbatch herr] at hno
      cases hno
    · refine l.perm ?_ hb
      simp only [OpRun.claims, hf, List.flatMap_append, List.flatMap_nil, Ledger.of_append,
        List.flatMap_cons, List.append_nil, List.nil_append]
      exact List.perm_append_comm
  | called f frames res hf ho =>
    refine ⟨by simp [Stage.own?], .inr ⟨rfl, ?_⟩⟩
    rcases hb with ⟨-, hnil, -⟩ | hb
    · simp [hf] at hnil
    · refine l.perm (List.perm_iff_count.mpr fun c => ?_) hb
      simp only [Stage.deferred, OpRun.claims, hf, ho, Outcome.claims, Ledger.of_append,
        hk res ho (by simp [hf]), List.flatMap_cons, List.count_append]
      omega
  | raised f frames e hf ho =>
    refine ⟨by simp [Stage.own?], .inr ⟨rfl, ?_⟩⟩
    rcases hb with ⟨-, hnil, -⟩ | hb
    · simp [hf] at hnil
    · simpa [Stage.deferred, OpRun.claims, hf, ho, Outcome.claims] using hb

/-- `defer_claims` takes all claims of an op that is one step. -/
theorem Performs.deferClaims_eq {tx' : Tx} {cmd : Command} {op : AtomicOp}
    (hop : cmd.atomicOp? = some op) (h : Performs i env tx sh op (.ok res) tx' sh') :
    (cmd.deferClaims res).2 = res.claims := by
  cases op with
  | plain p =>
    have hnil := h.claims_plain
    unfold Command.deferClaims
    split <;> simp [hnil]
  | zadd z | xadd x => simp [Command.deferClaims, Command.body_of_atomicOp hop nofun]

theorem Command.deferClaims_nil (cmd : Command) (h : res.claims = []) :
    (cmd.deferClaims res).2 = [] := by
  unfold deferClaims
  split <;> simp [h]

/-- **Up to the commit the claims match what the transaction has done.** -/
theorem Moves.ledger (h : Moves i env sh s a sh' s') (hp : l.Keeps s.phase) (hok : l.Allows s a)
    (hperf : ∀ r op out tx' sh'', a = .run → s.phase = .ops r .start →
      r.cmd.atomicOp? = some op → Performs i env r.tx sh op out tx' sh'' →
      l.Balanced r.tx (l.of r.claims) → l.Balanced tx' (l.of (out.claims ++ r.claims))) :
    l.Keeps s'.phase := by
  -- a command ends with an outcome without claims
  have ends {r : OpRun} {stage : Stage} {out : Outcome} (hph : s.phase = .ops r stage)
      (hst : stage.deferred = []) (hout : out.claims = []) (hg : stage.isGiveBack = false) :
      l.Keeps (s.complete r out).phase := by
    rw [hph] at hp
    refine (completes s r out).keeps (fun res ho _ => ?_) ?_
    · have hnil : res.claims = [] := by simpa [ho, Outcome.claims] using hout
      rw [r.cmd.deferClaims_nil hnil, hnil]
    · rcases hp.2 with ⟨-, -, hback⟩ | ⟨-, hb⟩
      · rw [hg] at hback
        cases hback
      · exact .inr (by simpa [hst, hout] using hb)
  -- the stage changes, the transaction and the claims do not
  have goes {r : OpRun} {stage stage' : Stage} (hph : s.phase = .ops r stage)
      (hst : stage'.deferred = stage.deferred) (hret : l.of stage'.returning = [])
      (hg : stage.isGiveBack = false)
      (hown : ∀ own, stage'.own? = some own → own.pops = [] ∧ own.adds = []) :
      l.Keeps (.ops r stage') := by
    rw [hph] at hp
    refine ⟨hown, .inr ⟨hret, ?_⟩⟩
    rcases hp.2 with ⟨-, -, hback⟩ | ⟨-, hb⟩
    · rw [hg] at hback
      cases hback
    · rwa [hst]
  cases h with
  | submit | exec => exact of_dispatch trivial fun _ => trivial
  | begin d =>
    obtain ⟨phase, hn, heq⟩ := nextOp_eq s d (sh.begin d.isolation).1 []
    exact heq ▸ hn.keeps (l.nil rfl rfl)
  | epochKept d tx hph | keyKept d tx todo e hph =>
    rw [hph] at hp
    exact hp
  | keysChecked d tx key hph =>
    rw [hph] at hp
    obtain ⟨phase, hn, heq⟩ := nextOp_eq s d tx []
    exact heq ▸ hn.keeps (l.nil hp.1 hp.2)
  | commitConflict d tx outcomes =>
    rw [conflicted_phase]
    trivial
  | atomic r op hph hop =>
    have hrun := performs i env r.tx sh op
    have hb := hp
    rw [hph] at hb
    obtain ⟨-, ⟨-, -, hback⟩ | ⟨-, hb⟩⟩ := hb
    · cases hback
    · refine (completes _ _ _).keeps (fun res ho _ => ?_) (.inr ?_)
      · exact congrArg l.of (Performs.deferClaims_eq hop (ho ▸ hrun))
      · have hb' := hperf r op _ _ _ rfl hph hop hrun hb
        refine l.congr ?_ ?_ hb' <;> rfl
  | scriptDone r reply deferred hph =>
    rw [hph] at hp
    refine (completes _ _ _).keeps (fun res ho hf => ?_) ?_
    · have hnil := (hok.ends r reply deferred rfl hph).resolve_left hf
      cases ho
      unfold Command.deferClaims
      split <;> simp [hnil]
    · rcases hp.2 with ⟨-, -, hback⟩ | ⟨-, hb⟩
      · cases hback
      · exact .inr hb
  | scriptFail r msg deferred e hph =>
    rw [hph] at hp
    refine ⟨by simp [Stage.own?], ?_⟩
    rcases hok.fails r msg deferred rfl hph with hnil | ⟨hf, hb⟩
    · rcases hp.2 with ⟨-, -, hback⟩ | ⟨-, hb⟩
      · cases hback
      · exact .inr ⟨hnil, by simpa [Stage.deferred, hnil] using hb⟩
    · exact .inl ⟨hf, hb, rfl⟩
  | scriptCall r c next deferred hph =>
    rw [hph] at hp
    refine ⟨by simp [Stage.own?], .inr ⟨rfl, ?_⟩⟩
    rcases hp.2 with ⟨-, -, hback⟩ | ⟨-, hb⟩
    · cases hback
    · simpa [Stage.deferred, OpRun.claims] using hb
  | giveBack r c rest e hph =>
    rw [hph] at hp
    obtain ⟨-, ⟨hf, hb, -⟩ | ⟨hret, hb⟩⟩ := hp
    · exact ⟨by simp [Stage.own?], .inl ⟨hf, hb, rfl⟩⟩
    · simp only [Stage.returning] at hret
      rw [Ledger.of_cons, List.append_eq_nil_iff] at hret
      exact ⟨by simp [Stage.own?], .inr ⟨hret.2, hb⟩⟩
  | gaveBack r e hph =>
    rw [hph] at hp
    refine (completes _ _ _).keeps (fun res ho _ => by cases ho) ?_
    rcases hp.2 with ⟨hf, hb, -⟩ | ⟨-, hb⟩
    · exact .inl ⟨⟨e, rfl⟩, hf, hb⟩
    · exact .inr hb
  | enter r stage hph hst =>
    have hno : stage.deferred = [] ∧ stage.returning = [] ∧ stage.own? = none := by
      unfold Command.firstStage? at hst
      split at hst <;> cases hst <;> exact ⟨rfl, rfl, rfl⟩
    exact goes hph hno.1 (by rw [hno.2.1]; rfl) rfl (by simp [hno.2.2])
  | bzpopBegin r op hph => exact goes hph rfl rfl rfl (by simp [Stage.own?, Shared.begin])
  | bzpopFound r op own p hph =>
    refine goes hph rfl rfl rfl ?_
    rw [hph] at hp
    intro own' hown'
    simp only [Stage.own?, Option.some.injEq] at hown'
    rw [← hown']
    exact hp.1 own rfl
  | wireWake r c rest sc deferred hph | wireDone r sc deferred hph | bzpopEmpty r op own hph
  | bzpopRegister r op hph | xreadRegister r x hph | xreadBegin r x w hph
  | xreadPark r x w snapshot ids found hph | xreadAgain r x w hph | xreadTimeout r x w hph
  | flushNext r todo rest hph => exact goes hph rfl rfl rfl (by simp [Stage.own?])
  | bzpopBeginFailed r op e hph | bzpopError r op own e hph | bzpopCommit r own p hph
  | bzpopCommitFailed r own p e hph | bzpopReceive r op w got hph | bzpopTimeout r op w hph =>
    exact ends hph rfl rfl rfl
  | flushEnd err r todo out hph hout => exact ends hph rfl hout rfl
  | xreadEnd a r stage w out hph hs hout =>
    rcases hs with ⟨x, rfl⟩ | ⟨x, snapshot, rfl⟩ <;> exact ends hph rfl hout rfl
  | refused | multi | spoiled | queued | unwatch | bzpopTimeoutClaimed | xreadTimeoutClaimed
  | flushRows => exact hp
  | _ => trivial

/-! ## After the commit -/

/-- The session is between a commit and the last of its wakes. -/
def Phase.handsOver : Phase → Bool
  | .bump .. => true
  | .reply .. => true
  | _ => false

theorem Completes.handsOver (h : Completes s r out s') : s'.phase.handsOver = false := by
  cases h with
  | conflict =>
    rw [conflicted_phase]
    rfl
  | next phase hf hn => cases hn <;> rfl
  | _ => rfl

/-- Only the commit of a dispatch leads to handing over. -/
theorem Moves.handsOver (h : Moves i env sh s a sh' s') (hs : s.phase.handsOver = false) :
    s'.phase.handsOver = false ∨ ∃ d tx outcomes, s.phase = .commit d tx outcomes ∧
      s'.phase = .bump d sh.log.length outcomes ∧ ∃ c ∈ sh'.log, c.pops = tx.pops := by
  have next (d : Dispatch) (tx : Tx) : (s.nextOp d tx []).phase.handsOver = false := by
    obtain ⟨phase, hn, heq⟩ := nextOp_eq s d tx []
    rw [heq]
    cases hn <;> rfl
  cases h with
  | commit d tx outcomes hp =>
    exact .inr ⟨d, tx, outcomes, hp, rfl, _, List.mem_append_right _ List.mem_cons_self, rfl⟩
  | submit | exec => exact .inl (of_dispatch (P := (·.handsOver = false)) rfl fun _ => rfl)
  | begin | keysChecked => exact .inl (next _ _)
  | commitConflict d tx outcomes =>
    exact .inl (by rw [conflicted_phase]; rfl)
  | bump _ _ _ hp | wake _ _ _ hp =>
    rw [hp] at hs
    cases hs
  | atomic | scriptDone | gaveBack | bzpopBeginFailed | bzpopError | bzpopCommit
  | bzpopCommitFailed | bzpopReceive | bzpopTimeout | xreadEnd | flushEnd =>
    exact .inl (completes _ _ _).handsOver
  | refused | multi | spoiled | queued | unwatch | bzpopTimeoutClaimed | xreadTimeoutClaimed
  | flushRows => exact .inl hs
  | _ => exact .inl rfl

/-- After a commit its claims are woken one by one, and nothing else happens. -/
inductive HandsOver (sh : Shared) (s : Session) (sh' : Shared) (s' : Session) : Prop
  | bump (d : Dispatch) (n : Nat) (outcomes : List Outcome) (hp : s.phase = .bump d n outcomes)
      (hp' : s'.phase = .reply d (outcomes.flatMap Outcome.claims))
  | wake (d : Dispatch) (c : Claim) (rest : List Claim) (hp : s.phase = .reply d (c :: rest))
      (hp' : s'.phase = .reply d rest) (hr : sh'.registry = sh.registry.wake c)
  | done (d : Dispatch) (hp : s.phase = .reply d []) (hp' : s'.phase.handsOver = false)

theorem Moves.handsOver_cases (h : Moves i env sh s a sh' s') (hs : s.phase.handsOver = true) :
    HandsOver sh s sh' s' := by
  cases h with
  | bump d n outcomes hp => exact .bump d n outcomes hp rfl
  | wake d c rest hp => exact .wake d c rest hp rfl rfl
  | replied d hp | repliedFlush d hp => exact .done d hp rfl
  | _ => simp_all only [Phase.handsOver, reduceCtorEq]

end

end Invar
