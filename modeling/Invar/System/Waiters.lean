import Invar.Common.RegistryEffects
import Invar.System.Effects

/-!
# Waiters and claims, step by step

A second inversion lemma, for what concerns the registry: which waiter a move
registers, claims, wakes, gives back or drops, and how the claims in the hands of
the session change with it. `Handles` has nine cases where `Moves` has many, and
`handles` shows that every move is one of them.
-/

namespace Invar

open StoreProg Session Interleaving

/-! ## What a session holds -/

/-- The registration that the current command owns. -/
def Stage.waiter? : Stage → Option Waiter
  | .bzpopParked _ w | .xreadBegin _ w | .xreadRead _ w _ | .xreadParked _ w => some w
  | _ => none

def Phase.waiter? : Phase → Option Waiter
  | .ops _ stage => stage.waiter?
  | _ => none

def Stage.claims : Stage → List Claim
  | .script _ deferred => deferred
  | .wire claims _ deferred => claims ++ deferred
  | .giveBack claims _ => claims
  | _ => []

/-- The claims that the outcomes and the scripts around the current command have. -/
def OpRun.claims (r : OpRun) : List Claim :=
  r.frames.flatMap (·.deferred) ++ r.outcomes.flatMap Outcome.claims

def Phase.claims : Phase → List Claim
  | .ops r stage => stage.claims ++ r.claims
  | .commit _ _ outcomes => outcomes.flatMap Outcome.claims
  | .release claims _ => claims
  | .bump _ _ outcomes => outcomes.flatMap Outcome.claims
  | .reply _ claims => claims
  | _ => []

/-- The claim that is woken next. -/
def Phase.waking? : Phase → Option Claim
  | .ops _ stage => stage.waking.head?
  | .reply _ claims => claims.head?
  | _ => none

/-- The claims that keep a waiter off its queues. -/
def held (claims : List Claim) : List Claim := claims.filter fun c => !c.notify

@[simp] theorem held_nil : held [] = [] := rfl

@[simp] theorem held_append (cs cs' : List Claim) : held (cs ++ cs') = held cs ++ held cs' :=
  List.filter_append ..

theorem held_cons (c : Claim) (cs : List Claim) : held (c :: cs) = held [c] ++ held cs := by
  rw [← held_append, List.singleton_append]

theorem mem_held {c : Claim} {cs : List Claim} : c ∈ held cs ↔ c ∈ cs ∧ c.notify = false := by
  simp [held]

def Command.isEval (c : Command) : Bool :=
  match c.body with
  | .eval _ => true
  | _ => false

/-- Scripts run in `EVAL`s, and a waiting command waits with a waiter of its kind
for its keys. -/
def Stage.Fits (cmd : Command) : Stage → Prop
  | .script .. | .wire .. | .giveBack .. => cmd.isEval = true
  | .bzpopParked op w => w.kind = .pop op.wantMin ∧ w.keys = op.publicKeys
  | .xreadBegin x w | .xreadRead x w _ | .xreadParked x w =>
    w.kind = .stream ∧ w.keys = x.publicKeys
  | _ => True

def Phase.Fits : Phase → Prop
  | .ops r stage => (∀ f ∈ r.frames, f.cmd.isEval = true) ∧ stage.Fits r.cmd
  | _ => True

/-! ## What a move does to them -/

/-- What a move does to the waiters and to the claims of the session that moves. -/
inductive Handles (i : Nat) (env : Nat → Tick) (sh : Shared) (s : Session) (a : Action)
    (sh' : Shared) (s' : Session) : Prop
  | nothing (hq : sh'.registry.waiters = sh.registry.waiters)
      (hs : sh'.registry.slots = sh.registry.slots) (hn : sh'.registry.nextId = sh.registry.nextId)
      (hh : sh'.holder = sh.holder) (hc : (held s'.phase.claims).Perm (held s.phase.claims))
      (hw : ∀ w, s'.phase.waiter? = some w → s.phase.waiter? = some w)
  | register (keys : List Bytes) (kind : WaitKind) (r : OpRun) (ha : a = .run)
      (hp : (∃ op, s.phase = .ops r (.bzpopRegister op) ∧ keys = op.publicKeys) ∨
        kind = .stream ∧ ∃ x, s.phase = .ops r (.xreadRegister x) ∧ keys = x.publicKeys)
      (hr : sh'.registry = (sh.registry.register keys kind).2) (hh : sh'.holder = sh.holder)
      (hc : (held s'.phase.claims).Perm (held s.phase.claims))
      (hw : s'.phase.waiter? = some (sh.registry.register keys kind).1)
  | claim (r : OpRun) (op : Zset.ZAddOp) (c c' : Claim) (ha : a = .run)
      (hp : s.phase = .ops r .start) (hop : r.cmd.atomicOp? = some (.zadd op))
      (hcl : sh.registry.tryClaim op.node.publicKey = some (c, sh'.registry))
      (hc' : c'.waiter = c.waiter)
      (hn : c'.notify = false) (hh : sh'.holder = Function.update sh.holder c.waiter.id (some i))
      (hc : (held s'.phase.claims).Perm (c' :: held s.phase.claims))
      (hw : s'.phase.waiter? = none) (hadd : op.adds env r.tx = true)
  | unclaim (r : OpRun) (op : Zset.ZAddOp) (c : Claim) (reg : WatchRegistry) (ha : a = .run)
      (hp : s.phase = .ops r .start) (hop : r.cmd.atomicOp? = some (.zadd op))
      (hcl : sh.registry.tryClaim op.node.publicKey = some (c, reg))
      (hr : sh'.registry = reg.releaseFront c)
      (hh : sh'.holder = sh.holder) (hc : (held s'.phase.claims).Perm (held s.phase.claims))
      (hw : s'.phase.waiter? = none) (hadd : op.adds env r.tx = true)
  | wake (c : Claim) (hp : s.phase.waking? = some c) (hr : sh'.registry = sh.registry.wake c)
      (hh : sh'.holder =
        if c.notify then sh.holder else Function.update sh.holder c.waiter.id none)
      (hc : (held s.phase.claims).Perm (held [c] ++ held s'.phase.claims))
      (hw : s'.phase.waiter? = none)
  | release (c : Claim) (hr : sh'.registry = sh.registry.releaseFront c)
      (hh : sh'.holder =
        if c.notify then sh.holder else Function.update sh.holder c.waiter.id none)
      (hc : (held s.phase.claims).Perm (held [c] ++ held s'.phase.claims))
      (hw : s'.phase.waiter? = none)
  | leave (w : Waiter) (hp : s.phase.waiter? = some w)
      (hr : sh'.registry = sh.registry.dropRegistration w) (hh : sh'.holder = sh.holder)
      (hc : (held s'.phase.claims).Perm (held s.phase.claims)) (hw : s'.phase.waiter? = none)
      (why : (received sh w).isSome = true ∨ w.kind = .stream ∨
        a = .hangUp ∧ ∃ r stage, s.phase = .ops r stage ∧ stage.cancelled = some w)
  | timeout (w : Waiter) (hp : s.phase.waiter? = some w)
      (hr : sh'.registry = (sh.registry.timeout w).2.dropRegistration w)
      (hh : sh'.holder = sh.holder)
      (hc : (held s'.phase.claims).Perm (held s.phase.claims)) (hw : s'.phase.waiter? = none)
      (why : (sh.registry.timeout w).1 = true)
  | timeoutClaimed (w : Waiter) (hp : s.phase.waiter? = some w)
      (hr : sh'.registry = (sh.registry.timeout w).2) (hh : sh'.holder = sh.holder) (hs : s' = s)
      (why : (sh.registry.timeout w).1 = false)

/-! ## Stages fit their commands -/

variable {d : Dispatch} {outcomes : List Outcome} {phase : Phase} {tx : Tx} {out : Outcome}
  {r : OpRun} {s s' : Session} {a : Action} {env : Nat → Tick} {i : Nat} {sh sh' : Shared}
  {w : World} {v : Waiter} {ok : World → Nat × Action × List Tick → Prop} {cmd : Command}

theorem NextOp.fits (h : NextOp d tx outcomes phase) : phase.Fits := by
  cases h with
  | op cmd => exact ⟨by simp, trivial⟩
  | commit => trivial

theorem nextOp_fits (s : Session) (d : Dispatch) (tx : Tx) (outcomes : List Outcome) :
    (s.nextOp d tx outcomes).phase.Fits := by
  obtain ⟨phase, hn, heq⟩ := nextOp_eq s d tx outcomes
  exact heq ▸ hn.fits

theorem Completes.fits (h : Completes s r out s')
    (hf : ∀ f ∈ r.frames, f.cmd.isEval = true) : s'.phase.Fits := by
  cases h with
  | conflict =>
    rw [conflicted_phase]
    trivial
  | abandon => trivial
  | next phase _ hn => exact hn.fits
  | called f frames res hfr | raised f frames e hfr =>
    exact ⟨fun f' hf' => hf f' (by simp [hfr, hf']), hf f (by simp [hfr])⟩

theorem Command.firstStage_fits {stage : Stage} (h : cmd.firstStage? = some stage) :
    stage.Fits cmd := by
  unfold firstStage? at h
  split at h <;> cases h <;> simp_all [Stage.Fits, Command.isEval]

theorem Moves.fits (h : Moves i env sh s a sh' s') (hf : s.phase.Fits) : s'.phase.Fits := by
  cases h with
  | submit | exec => exact of_dispatch trivial fun _ => trivial
  | begin | keysChecked => exact nextOp_fits _ _ _ _
  | commitConflict d tx outcomes =>
    rw [conflicted_phase]
    trivial
  | enter r stage h hst =>
    rw [h] at hf
    exact ⟨hf.1, Command.firstStage_fits hst⟩
  | scriptFail r msg deferred e h | wireWake r c rest sc deferred h | wireDone r sc deferred h
  | giveBack r c rest e h =>
    rw [h] at hf
    exact hf
  | scriptCall r c next deferred h =>
    rw [h] at hf
    exact ⟨List.forall_mem_cons.mpr ⟨hf.2, hf.1⟩, trivial⟩
  | atomic r _ h | scriptDone r _ _ h | gaveBack r _ h | bzpopBeginFailed r _ _ h
  | bzpopError r _ _ _ h | bzpopCommit r _ _ h | bzpopCommitFailed r _ _ _ h
  | bzpopReceive r _ _ _ h | bzpopTimeout r _ _ h | xreadEnd _ r _ _ _ h | flushEnd _ r _ _ h =>
    rw [h] at hf
    exact (completes _ _ _).fits hf.1
  | bzpopBegin r op h | bzpopEmpty r op own h | bzpopFound r op own p h | flushNext r todo rest h
  | xreadAgain r x w h | xreadTimeout r x w h =>
    rw [h] at hf
    exact ⟨hf.1, trivial⟩
  | bzpopRegister r op h | xreadRegister r x h =>
    rw [h] at hf
    exact ⟨hf.1, rfl, rfl⟩
  | xreadBegin r x w h | xreadPark r x w snapshot ids found h =>
    rw [h] at hf
    exact hf
  | refused | multi | spoiled | queued | unwatch | bzpopTimeoutClaimed | xreadTimeoutClaimed
  | flushRows => exact hf
  | _ => trivial

/-! ## Every move handles waiters in one of these ways -/

theorem NextOp.claims_eq (h : NextOp d tx outcomes phase) :
    phase.claims = outcomes.flatMap Outcome.claims ∧ phase.waiter? = none := by
  cases h <;> exact ⟨rfl, rfl⟩

/-- The claims of the outcome join those of the run. -/
theorem Completes.held_claims (h : Completes s r out s')
    (hk : ∀ res, out = .ok res → r.frames ≠ [] →
      (held ((r.cmd.deferClaims res).1 ++ (r.cmd.deferClaims res).2)).Perm (held res.claims)) :
    (held s'.phase.claims).Perm (held out.claims ++ held r.claims) ∧ s'.phase.waiter? = none := by
  cases h with
  | conflict hf ho =>
    rw [conflicted_phase, ho]
    exact ⟨by simp [Phase.claims, OpRun.claims, hf, Outcome.claims], rfl⟩
  | abandon e hf ho =>
    rw [ho]
    exact ⟨by simp [Phase.claims, OpRun.claims, hf, Outcome.claims], rfl⟩
  | next phase hf hn =>
    refine ⟨?_, hn.claims_eq.2⟩
    simp only [hn.claims_eq.1, OpRun.claims, hf, List.flatMap_append, List.flatMap_nil, held_append,
      List.flatMap_cons, List.append_nil, List.nil_append]
    exact List.perm_append_comm
  | called f frames res hf ho =>
    refine ⟨List.perm_iff_count.mpr fun c => ?_, rfl⟩
    have hcount := (hk res ho (by simp [hf])).count_eq c
    simp only [Phase.claims, Stage.claims, OpRun.claims, hf, ho, Outcome.claims, held_append,
      List.flatMap_cons, List.count_append] at hcount ⊢
    omega
  | raised f frames e hf ho =>
    rw [ho]
    exact ⟨by simp [Phase.claims, Stage.claims, OpRun.claims, hf, Outcome.claims], rfl⟩

/-- What `defer_claims` keeps and what it takes, together, are the claims that hold
a waiter. -/
theorem Command.held_deferClaims (cmd : Command) (res : DbResult)
    (h : ∀ op, cmd.body = .atomic (.xadd op) → held res.claims = []) :
    (held ((cmd.deferClaims res).1 ++ (cmd.deferClaims res).2)).Perm (held res.claims) := by
  unfold deferClaims
  split
  · simp
  · rename_i op hbody
    simp [h op hbody]
  · simp

theorem Performs.held_xadd {tx' : Tx}
    {op : Stream.XAddOp} (h : Performs i env tx sh (.xadd op) out tx' sh') :
    held out.claims = [] := by
  cases h <;> rfl

theorem dispatch_held (s : Session) (batch flush : Bool) :
    (s.dispatch batch flush).phase.claims = [] ∧ (s.dispatch batch flush).phase.waiter? = none := by
  rcases dispatch_phase s batch flush with hd | ⟨d, hd⟩ <;> rw [hd] <;> exact ⟨rfl, rfl⟩

section

/-- A command that is not an `XADD`, or one that ends without claims, completes. -/
theorem complete_held (s : Session) (r : OpRun) (out : Outcome)
    (h : (∀ op, r.cmd.body ≠ .atomic (.xadd op)) ∨ held out.claims = []) :
    (held (s.complete r out).phase.claims).Perm (held out.claims ++ held r.claims) ∧
      (s.complete r out).phase.waiter? = none := by
  refine (completes s r out).held_claims fun res ho _ => r.cmd.held_deferClaims res fun op hop => ?_
  rcases h with hx | hnil
  · exact absurd hop (hx op)
  · simpa [ho, Outcome.claims] using hnil

theorem not_xadd_of_isEval (h : cmd.isEval = true) (op : Stream.XAddOp) :
    cmd.body ≠ .atomic (.xadd op) := by
  intro hbody
  simp [Command.isEval, hbody] at h

/-- A command ends without a claim that holds a waiter; nothing else happens. -/
theorem Handles.ends (hp : s.phase.claims = r.claims)
    (hout : held out.claims = []) (hr : sh'.registry = sh.registry) (hh : sh'.holder = sh.holder) :
    Handles i env sh s a sh' (s.complete r out) := by
  obtain ⟨hc, hw⟩ := complete_held s r out (.inr hout)
  refine .nothing (by rw [hr]) (by rw [hr]) (by rw [hr]) hh ?_ (by simp [hw])
  simpa [hout, hp] using hc

/-- The session takes a step in its own fields. -/
theorem Handles.own (hr : sh'.registry = sh.registry) (hh : sh'.holder = sh.holder)
    (hc : s'.phase.claims = s.phase.claims)
    (hw : ∀ w, s'.phase.waiter? = some w → s.phase.waiter? = some w) :
    Handles i env sh s a sh' s' :=
  .nothing (by rw [hr]) (by rw [hr]) (by rw [hr]) hh (by rw [hc]) hw

theorem handles_performs {op : AtomicOp} {tx' tx'' : Tx}
    (hp : s.phase = .ops r .start) (hop : r.cmd.atomicOp? = some op)
    (h : Performs i env r.tx sh op out tx' sh') :
    Handles i env sh s .run sh' (s.complete { r with tx := tx'' } out) := by
  have hcl : s.phase.claims = { r with tx := tx'' }.claims := by
    rw [hp]
    rfl
  cases h with
  | plain p =>
    refine Handles.ends hcl ?_ rfl rfl
    cases (exec p env r.tx.txn).out <;> rfl
  | zaddPopFailed op _ w c reg e hr hw hadd hc =>
    have hadds : op.adds env r.tx = true := by simp [Zset.ZAddOp.adds, ← hr, hw, hadd]
    rw [Zset.ZAddOp.write_publicKey (hr ▸ hw)] at hc
    obtain ⟨hperm, hw⟩ := complete_held s { r with tx := tx'' } (.error e) (.inr rfl)
    exact .unclaim r op c reg rfl hp hop hc rfl rfl (hcl ▸ hperm) hw hadds
  | zaddClaimed op _ w c reg m hr hw hadd hc =>
    have hadds : op.adds env r.tx = true := by simp [Zset.ZAddOp.adds, ← hr, hw, hadd]
    rw [Zset.ZAddOp.write_publicKey (hr ▸ hw)] at hc
    have hx : ∀ x, r.cmd.body ≠ .atomic (.xadd x) := by
      intro x hx
      simp [Command.atomicOp?, hx] at hop
    obtain ⟨hperm, hw⟩ := complete_held s { r with tx := tx'' } _ (.inl hx)
    have hn := (WatchRegistry.tryClaim_front hc).2.1
    refine .claim r op c { c with result := (m.map op.popResult).map .pop, origin := r.tx.id }
      rfl hp hop hc rfl hn rfl ?_ hw hadds
    rw [hcl]
    simpa [Outcome.claims, held, hn] using hperm
  | _ => exact Handles.ends hcl rfl rfl rfl

/-- **Every move handles waiters and claims in one of nine ways.** -/
theorem handles (h : Moves i env sh s a sh' s') (hf : s.phase.Fits) :
    Handles i env sh s a sh' s' := by
  have ends {r : OpRun} {stage : Stage} {out : Outcome} {sh' : Shared}
      (hp : s.phase = .ops r stage) (hst : stage.claims = []) (hout : held out.claims = [])
      (hr : sh'.registry = sh.registry) (hh : sh'.holder = sh.holder) :
      Handles i env sh s a sh' (s.complete r out) :=
    .ends (by simp [hp, Phase.claims, hst]) hout hr hh
  -- the waiting command ends, or starts another round
  have leaves {r : OpRun} {stage : Stage} (out : Outcome) (hp : s.phase = .ops r stage)
      (hst : stage.claims = []) (hout : held out.claims = []) :
      (held (s.complete r out).phase.claims).Perm (held s.phase.claims) ∧
        (s.complete r out).phase.waiter? = none := by
    obtain ⟨hc, hw⟩ := complete_held s r out (.inr hout)
    refine ⟨?_, hw⟩
    simpa [hp, Phase.claims, hst, hout] using hc
  -- neither claims nor a waiter come or go
  have stays {phase : Phase} {a : Action} {sh' : Shared} {s' : Session} (hp : s.phase = phase)
      (hr : sh'.registry = sh.registry) (hh : sh'.holder = sh.holder)
      (hc : s'.phase.claims = phase.claims) (hw : s'.phase.waiter? = none) :
      Handles i env sh s a sh' s' := .own hr hh (by rw [hp, hc]) (by simp [hw])
  cases h with
  | atomic r op hp hop => exact handles_performs hp hop (performs i env r.tx sh op)
  | submit c hp | exec hp =>
    obtain ⟨hc, hw⟩ := dispatch_held _ _ _
    exact .own rfl rfl (by rw [hc, hp]; rfl) (by simp [hw])
  | begin d hp =>
    obtain ⟨phase, hn, heq⟩ := nextOp_eq s d (sh.begin d.isolation).1 []
    rw [heq]
    exact .own rfl rfl (by rw [hp, hn.claims_eq.1]; rfl) (by simp [hn.claims_eq.2])
  | keysChecked d tx key hp =>
    obtain ⟨phase, hn, heq⟩ := nextOp_eq s d tx []
    rw [heq]
    exact .own rfl rfl (by rw [hp, hn.claims_eq.1]; rfl) (by simp [hn.claims_eq.2])
  | commitConflict d tx outcomes hp =>
    exact .own rfl rfl (by rw [conflicted_phase, hp]; rfl)
      (by simp [conflicted_phase, Phase.waiter?])
  | wake d c rest hp =>
    refine .wake c (by rw [hp]; rfl) rfl rfl ?_ rfl
    rw [hp]
    exact .of_eq (held_cons c rest)
  | release c rest after hp =>
    refine .release c rfl rfl ?_ rfl
    rw [hp]
    exact .of_eq (held_cons c rest)
  | wireWake r c rest sc deferred hp =>
    refine .wake c (by rw [hp]; rfl) rfl rfl ?_ rfl
    rw [hp]
    simp only [Phase.claims, Stage.claims, List.cons_append]
    exact .of_eq (held_cons c _)
  | giveBack r c rest e hp =>
    refine .release c rfl rfl ?_ rfl
    rw [hp]
    simp only [Phase.claims, Stage.claims, List.cons_append]
    exact .of_eq (held_cons c _)
  | scriptDone r reply deferred hp =>
    rw [hp] at hf
    obtain ⟨hc, hw⟩ := complete_held s r (.ok { reply, claims := deferred })
      (.inl (not_xadd_of_isEval hf.2))
    refine .nothing rfl rfl rfl rfl ?_ (by simp [hw])
    simpa [hp, Phase.claims, Stage.claims, Outcome.claims] using hc
  | gaveBack r e hp | bzpopBeginFailed r op e hp | bzpopError r op own e hp
  | bzpopCommit r own p hp | bzpopCommitFailed r own p e hp => exact ends hp rfl rfl rfl rfl
  | flushEnd err r todo out hp hr => exact ends hp rfl (by rw [hr]; rfl) rfl rfl
  | bzpopReceive r op w got hp hr =>
    obtain ⟨hc, hw⟩ := leaves (.ok { reply := bzpopReply (bzpopResult got) }) hp rfl rfl
    exact .leave w (by rw [hp]; rfl) rfl rfl hc hw (.inl (by rw [hr]; rfl))
  | bzpopTimeout r op w hp hr =>
    obtain ⟨hc, hw⟩ := leaves (.ok { reply := bzpopReply none }) hp rfl rfl
    exact .timeout w (by rw [hp]; rfl) rfl rfl hc hw hr
  | xreadEnd a r stage w out hp hs hr =>
    have hst : stage.claims = [] ∧ stage.waiter? = some w := by
      rcases hs with ⟨x, rfl⟩ | ⟨x, snapshot, rfl⟩ <;> exact ⟨rfl, rfl⟩
    obtain ⟨hc, hw⟩ := leaves out hp hst.1 (by rw [hr]; rfl)
    refine .leave w (by rw [hp]; exact hst.2) rfl rfl hc hw (.inr (.inl ?_))
    rw [hp] at hf
    rcases hs with ⟨x, rfl⟩ | ⟨x, snapshot, rfl⟩ <;> exact hf.2.1
  | xreadAgain r x w hp hr =>
    exact .leave w (by rw [hp]; rfl) rfl rfl (by rw [hp]; exact .refl _) rfl (.inl hr)
  | xreadTimeout r x w hp hr =>
    exact .timeout w (by rw [hp]; rfl) rfl rfl (by rw [hp]; exact .refl _) rfl hr
  | bzpopTimeoutClaimed r op w hp hr | xreadTimeoutClaimed r x w hp hr =>
    exact .timeoutClaimed w (by rw [hp]; rfl) rfl rfl rfl hr
  | hangUp r stage w hp ho hfr hs =>
    have hst : stage.claims = [] ∧ stage.waiter? = some w := by
      unfold Stage.cancelled at hs
      split at hs <;> simp_all [Stage.claims, Stage.waiter?]
    refine .leave w (by rw [hp]; exact hst.2) rfl rfl ?_ rfl (.inr (.inr ⟨rfl, r, stage, hp, hs⟩))
    simp [hp, Phase.claims, hst.1, OpRun.claims, ho, hfr]
  | bzpopRegister r op hp =>
    exact .register op.publicKeys (.pop op.wantMin) r rfl (.inl ⟨op, hp, rfl⟩) rfl rfl
      (by rw [hp]; exact .refl _) rfl
  | xreadRegister r x hp =>
    exact .register x.publicKeys .stream r rfl (.inr ⟨rfl, x, hp, rfl⟩) rfl rfl
      (by rw [hp]; exact .refl _) rfl
  | enter r stage hp hst =>
    have hno : stage.claims = [] ∧ stage.waiter? = none := by
      unfold Command.firstStage? at hst
      split at hst <;> cases hst <;> exact ⟨rfl, rfl⟩
    refine .own rfl rfl ?_ (by simp [Phase.waiter?, hno.2])
    show stage.claims ++ r.claims = s.phase.claims
    rw [hno.1, hp]
    rfl
  | scriptCall r c next deferred hp =>
    exact .own rfl rfl (by simp [hp, Phase.claims, Stage.claims, OpRun.claims])
      (by simp [Phase.waiter?, Stage.waiter?])
  | xreadBegin r x w hp | xreadPark r x w snapshot ids found hp =>
    exact .own rfl rfl (by rw [hp]; rfl) (by rw [hp]; exact fun _ => id)
  | refused | multi | spoiled | queued | unwatch | flushRows =>
    exact .own rfl rfl rfl fun _ => id
  | bump d n outcomes hp | bumpEpoch hp =>
    exact .nothing rfl rfl rfl rfl (by rw [hp]; exact .refl _) (by simp [Phase.waiter?])
  | _ => refine stays (by assumption) rfl rfl ?_ ?_ <;> rfl

end

/-! ## Who is registered -/

/-- The registration and the claims of a session are those of registered waiters. -/
structure Session.Registers (sh : Shared) (s : Session) : Prop where
  fits : s.phase.Fits
  waiter : ∀ w, s.phase.waiter? = some w → Known sh.registry w
  claims : ∀ c ∈ held s.phase.claims, Known sh.registry c.waiter

section

variable {r r' : WatchRegistry} {w : Waiter}

theorem Known.congr (h : r'.slots = r.slots) (hw : Known r w) : Known r' w := by
  unfold Known
  rwa [h]

theorem Known.tryClaim {k : Bytes} {c : Claim}
    (hw : Known r w) (hc : r.tryClaim k = some (c, r')) : Known r' w := by
  refine hw.of_sameBut (.tryClaim hc) fun hid => ?_
  obtain ⟨slot, hslot, rfl⟩ := hw
  have hslot' := (WatchRegistry.tryClaim_front hc).2.2.2
  rw [← hid, hslot] at hslot'
  exact ⟨_, hslot', rfl⟩

theorem Registered.congr (hq : r'.waiters = r.waiters)
    (hs : r'.slots = r.slots) (hn : r'.nextId = r.nextId) (h : Registered r) : Registered r' where
  known {k w} hw := (h.known (hq ▸ hw)).congr hs
  own {k w} hw := h.own (hq ▸ hw)
  slotId hw := h.slotId (hs ▸ hw)
  fresh hid := by rw [hs]; exact h.fresh (hn ▸ hid)

theorem Handles.registered (h : Handles i env sh s a sh' s') (hr : Registered sh.registry)
    (hs : s.Registers sh) :
    Registered sh'.registry ∧ ∀ w, Known sh.registry w → Known sh'.registry w := by
  -- the waiter of a claim that is in the session's hands
  have claimed {c : Claim} {cs : List Claim}
      (hc : (held s.phase.claims).Perm (held [c] ++ cs)) (hn : c.notify = false) :
      Known sh.registry c.waiter :=
    hs.claims c (hc.mem_iff.mpr (by simp [held, hn]))
  have released (r : WatchRegistry) (c : Claim) {w : Waiter} (hw : Known r w) :
      Known (r.releaseFront c) w := by
    unfold WatchRegistry.releaseFront
    split
    · exact hw
    · exact Known.modifySlot (Known.congr rfl hw) _ fun _ => rfl
  cases h with
  | nothing hq hsl hn => exact ⟨hr.congr hq hsl hn, fun w => Known.congr hsl⟩
  | register keys kind r _ _ hreg =>
    rw [hreg]
    refine ⟨hr.register keys kind, fun w hw => hw.of_sameBut (.register rfl) fun hid => ?_⟩
    obtain ⟨slot, hslot, -⟩ := hw
    exact absurd (hr.lt_nextId hslot) (by omega)
  | claim r op c c' ha hp hop hcl =>
    exact ⟨(hr.tryClaim hcl).2, fun w hw => hw.tryClaim hcl⟩
  | unclaim r op c reg ha hp hop hcl hreg =>
    obtain ⟨hw, hr'⟩ := hr.tryClaim hcl
    rw [hreg]
    exact ⟨hr'.releaseFront fun _ => hw.tryClaim hcl,
      fun w hw => released reg c (hw.tryClaim hcl)⟩
  | wake c hp hreg hh hc =>
    rw [hreg]
    refine ⟨hr.wake (claimed hc), fun w hw => ?_⟩
    unfold WatchRegistry.wake
    split
    · exact (hr.wakeStreamWaiters _).known w hw
    · exact hw.modifySlot _ fun _ => rfl
  | release c hreg hh hc =>
    rw [hreg]
    exact ⟨hr.releaseFront (claimed hc), fun w hw => released _ c hw⟩
  | leave w hp hreg =>
    rw [hreg]
    exact ⟨hr.dropRegistration (hs.waiter w hp),
      fun w' hw' => Known.modifySlot (Known.congr rfl hw') _ fun _ => rfl⟩
  | timeout w hp hreg =>
    have hw := hs.waiter w hp
    have hkeep {w' : Waiter} (hw' : Known sh.registry w') :
        Known (sh.registry.timeout w).2 w' :=
      Known.modifySlot (Known.congr rfl hw') _ fun _ => rfl
    rw [hreg]
    exact ⟨(hr.timeout hw).dropRegistration (hkeep hw),
      fun w' hw' => Known.modifySlot (Known.congr rfl (hkeep hw')) _ fun _ => rfl⟩
  | timeoutClaimed w hp hreg =>
    rw [hreg]
    exact ⟨hr.timeout (hs.waiter w hp),
      fun w' hw' => Known.modifySlot (Known.congr rfl hw') _ fun _ => rfl⟩

/-! ### Slots -/

/-- The reason for which something is sent to waiter `v` in a move: the session wakes
a claim that it holds, or it signals a stream. -/
def SendReason (s : Session) (v : Nat) (result : Option BlockResult) : Prop :=
  (∃ c, s.phase.waking? = some c ∧ c ∈ held s.phase.claims ∧ c.waiter.id = v ∧
    c.result = result) ∨ ∃ x, result = some (.stream x)

/-- What a move can do to the slot of waiter `v`. -/
structure SlotEffect (s s' : Session) (v : Nat) (f : Slot → Slot) : Prop where
  waiter : ∀ slot, (f slot).waiter = slot.waiter
  receiver : (∀ slot, (f slot).receiver = slot.receiver) ∨
    ∃ w, s.phase.waiter? = some w ∧ w.id = v ∧ s'.phase.waiter? = none
  channel : (∀ slot, (f slot).sent = slot.sent ∧ (f slot).sender = slot.sender) ∨
    ∃ result, SendReason s v result ∧
      ∀ slot, (f slot).sent = (slot.send result).sent ∧ (f slot).sender = false

theorem SlotEffect.id (s s' : Session) (v : Nat) : SlotEffect s s' v id :=
  ⟨fun _ => rfl, .inl fun _ => rfl, .inl fun _ => ⟨rfl, rfl⟩⟩

/-- **A move registers a waiter, or has one of few effects on its slot.** -/
theorem Handles.slot (h : Handles i env sh s a sh' s') (hr : Registered sh.registry) (v : Nat) :
    (sh.registry.slots v = none ∧ ∃ w, s'.phase.waiter? = some w ∧ w.id = v ∧
      sh'.registry.slots v = some { waiter := w }) ∨
    ∃ f, sh'.registry.slots v = (sh.registry.slots v).map f ∧ SlotEffect s s' v f := by
  -- an operation on the waiter `u`
  have one {u : Nat} {f : Slot → Slot} (hsame : SameBut u sh.registry sh'.registry)
      (hslot : sh'.registry.slots u = (sh.registry.slots u).map f)
      (hf : v = u → SlotEffect s s' v f) :
      ∃ f, sh'.registry.slots v = (sh.registry.slots v).map f ∧ SlotEffect s s' v f := by
    by_cases hv : v = u
    · exact ⟨f, hv ▸ hslot, hf hv⟩
    · exact ⟨id, by rw [hsame.slots v hv, Option.map_id_fun, id], .id s s' v⟩
  have flag {f : Slot → Slot} (hf : ∀ slot, (f slot).waiter = slot.waiter ∧
      (f slot).receiver = slot.receiver ∧ (f slot).sent = slot.sent ∧
      (f slot).sender = slot.sender) : SlotEffect s s' v f :=
    ⟨fun slot => (hf slot).1, .inl fun slot => (hf slot).2.1, .inl fun slot => (hf slot).2.2⟩
  have leaves {w : Waiter} (hp : s.phase.waiter? = some w) (hw : s'.phase.waiter? = none)
      {f : Slot → Slot} (hf : ∀ slot, (f slot).waiter = slot.waiter ∧ (f slot).sent = slot.sent ∧
        (f slot).sender = slot.sender) (hv : v = w.id) : SlotEffect s s' v f :=
    ⟨fun slot => (hf slot).1, .inr ⟨w, hp, hv.symm, hw⟩, .inl fun slot => (hf slot).2⟩
  cases h with
  | nothing _ hsl => exact .inr ⟨id, by rw [hsl, Option.map_id_fun, id], .id s s' v⟩
  | register keys kind r _ _ hreg _ _ hw =>
    by_cases hv : v = sh.registry.nextId
    · subst hv
      refine .inl ⟨hr.fresh (Nat.le_refl _), _, hw, rfl, ?_⟩
      simp [hreg, WatchRegistry.register]
    · have hsame := SameBut.register hreg
      exact .inr ⟨id, by rw [hsame.slots v hv, Option.map_id_fun, id], .id s s' v⟩
  | claim r op c c' _ _ _ hcl =>
    exact .inr (one (.tryClaim hcl) (WatchRegistry.tryClaim_front hcl).2.2.2
      fun _ => flag fun _ => ⟨rfl, rfl, rfl, rfl⟩)
  | unclaim r op c reg _ _ _ hcl hreg =>
    have hslot : sh'.registry.slots c.waiter.id =
        (sh.registry.slots c.waiter.id).map ({ · with claimed := false }) := by
      rw [hreg]
      simp [WatchRegistry.releaseFront, (WatchRegistry.tryClaim_front hcl).2.1,
        WatchRegistry.modifySlot_slots, (WatchRegistry.tryClaim_front hcl).2.2.2, Function.comp_def]
    have hsame := (SameBut.tryClaim hcl).trans (.releaseFront hreg)
    exact .inr (one hsame hslot fun _ => flag fun _ => ⟨rfl, rfl, rfl, rfl⟩)
  | wake c hp hreg hh hc =>
    right
    cases hn : c.notify with
    | true =>
      simp only [WatchRegistry.wake, hn, if_true] at hreg
      have hall := hr.wakeStreamWaiters (c.waiter.keys.headD [])
      rw [← hreg] at hall
      by_cases hv : v ∈ ((sh.registry.waiters (c.waiter.keys.headD [])).filter
          (·.kind.isStream)).map Waiter.id
      · obtain ⟨w, hw, rfl⟩ := List.mem_map.mp hv
        obtain ⟨slot, hs, -, hs'⟩ := hall.woken w hw
        refine ⟨fun slot => { slot.send (some (.stream ⟨c.waiter.keys.headD []⟩)) with
          claimed := true }, by rw [hs', hs]; rfl, fun _ => rfl, .inl fun _ => rfl,
          .inr ⟨_, .inr ⟨_, rfl⟩, fun _ => ⟨rfl, rfl⟩⟩⟩
      · exact ⟨id, by rw [(hall.others v hv).1, Option.map_id_fun, id], .id s s' v⟩
    | false =>
      have hmem : c ∈ held s.phase.claims := hc.mem_iff.mpr (by simp [held, hn])
      have hsame := SameBut.wake hn hreg
      refine one hsame (f := Slot.send c.result) ?_ fun hv => ⟨fun _ => rfl, .inl fun _ => rfl,
        .inr ⟨c.result, .inl ⟨c, hp, hmem, hv.symm, rfl⟩, fun _ => ⟨rfl, rfl⟩⟩⟩
      rw [hreg]
      simp [WatchRegistry.wake, hn, WatchRegistry.modifySlot_slots]
  | release c hreg =>
    right
    cases hn : c.notify with
    | true =>
      simp only [WatchRegistry.releaseFront, hn, if_true] at hreg
      exact ⟨id, by rw [hreg, Option.map_id_fun, id], .id s s' v⟩
    | false =>
      refine one (.releaseFront hreg) (f := ({ · with claimed := false })) ?_
        fun _ => flag fun _ => ⟨rfl, rfl, rfl, rfl⟩
      rw [hreg]
      simp [WatchRegistry.releaseFront, hn, WatchRegistry.modifySlot_slots]
  | leave w hp hreg _ _ hw =>
    refine .inr (one (.dropRegistration hreg) (f := ({ · with receiver := false })) ?_
      (leaves hp hw fun _ => ⟨rfl, rfl, rfl⟩))
    rw [hreg, WatchRegistry.dropRegistration, WatchRegistry.modifySlot_slots, if_pos rfl]
    rfl
  | timeout w hp hreg _ _ hw =>
    refine .inr (one (.timedOut hreg) (f := ({ · with timedOut := true, receiver := false })) ?_
      (leaves hp hw fun _ => ⟨rfl, rfl, rfl⟩))
    rw [hreg]
    simp [WatchRegistry.dropRegistration, WatchRegistry.timeout, WatchRegistry.removeWaiter,
      WatchRegistry.modifySlot_slots, Function.comp_def]
  | timeoutClaimed w _ hreg =>
    refine .inr (one (.timeout hreg) (f := ({ · with timedOut := true })) ?_
      fun _ => flag fun _ => ⟨rfl, rfl, rfl, rfl⟩)
    rw [hreg, WatchRegistry.timeout, WatchRegistry.modifySlot_slots, if_pos rfl]
    rfl

theorem Handles.registers (h : Handles i env sh s a sh' s') (hr : Registered sh.registry)
    (hs : s.Registers sh) (hf : s'.phase.Fits) : s'.Registers sh' := by
  have hkeep := (h.registered hr hs).2
  have same (hc : (held s'.phase.claims).Perm (held s.phase.claims)) :
      ∀ c ∈ held s'.phase.claims, Known sh'.registry c.waiter :=
    fun c hmem => hkeep _ (hs.claims c (hc.mem_iff.mp hmem))
  have fewer {cs : List Claim} (hc : (held s.phase.claims).Perm
      (cs ++ held s'.phase.claims)) :
      ∀ c ∈ held s'.phase.claims, Known sh'.registry c.waiter :=
    fun c hmem => hkeep _ (hs.claims c (hc.mem_iff.mpr (List.mem_append_right cs hmem)))
  cases h with
  | nothing _ _ _ _ hc hw => exact ⟨hf, fun w h => hkeep w (hs.waiter w (hw w h)), same hc⟩
  | register keys kind r _ _ hreg _ hc hw =>
    refine ⟨hf, fun w h => ?_, same hc⟩
    rw [hw, Option.some.injEq] at h
    subst h
    rw [hreg]
    exact ⟨{ waiter := (sh.registry.register keys kind).1 },
      by simp [WatchRegistry.register], rfl⟩
  | claim r op c c' _ _ _ hcl hc' _ _ hc hw =>
    refine ⟨hf, by simp [hw], fun d hmem => ?_⟩
    rcases List.mem_cons.mp (hc.mem_iff.mp hmem) with rfl | hmem
    · exact hc' ▸ hkeep _ (hr.tryClaim hcl).1
    · exact hkeep _ (hs.claims d hmem)
  | unclaim _ _ _ _ _ _ _ _ _ _ hc hw => exact ⟨hf, by simp [hw], same hc⟩
  | wake _ _ _ _ hc hw => exact ⟨hf, by simp [hw], fewer hc⟩
  | release _ _ _ hc hw => exact ⟨hf, by simp [hw], fewer hc⟩
  | leave _ _ _ _ hc hw => exact ⟨hf, by simp [hw], same hc⟩
  | timeout _ _ _ _ hc hw => exact ⟨hf, by simp [hw], same hc⟩
  | timeoutClaimed _ _ _ _ heq =>
    subst heq
    exact ⟨hf, fun w h => hkeep w (hs.waiter w h), same (.refl _)⟩

end

/-- In every state that any run reaches, queues, registrations and claims are about
registered waiters. -/
theorem World.registered (retryCount : Nat) (h : World.Reached retryCount ok w) :
    Holds (fun sh => Registered sh.registry) (fun _ sh s => s.Registers sh) w := by
  refine inv_of_threads ⟨.new, fun i => ⟨trivial, by simp [World.init, Phase.waiter?],
    by simp [World.init, Phase.claims]⟩⟩ (fun st i a sh' s' hinv hok hstep => ?_)
    (fun st i a sh' s' hinv hok hstep j _ => ?_) h
  all_goals
    obtain ⟨clock, -, -, hmoves⟩ := moves_of_sessionStep hstep
    have hs : (st.threads i).Registers { st.shared with clock } :=
      ⟨(hinv.thread i).fits, (hinv.thread i).waiter, (hinv.thread i).claims⟩
    have hh := handles hmoves hs.fits
    obtain ⟨hr, hkeep⟩ := hh.registered hinv.shared hs
  · exact ⟨hr, hh.registers hinv.shared hs (hmoves.fits hs.fits)⟩
  · have hj := hinv.thread j
    exact ⟨hj.fits, fun w hw => hkeep w (hj.waiter w hw), fun c hc => hkeep _ (hj.claims c hc)⟩

/-! ## Who owns which registration -/

/-- No two sessions own the same registration, and an owned registration is alive. -/
structure World.Owned (w : World) : Prop where
  distinct : ∀ {i j u v}, i ≠ j → (w.threads i).phase.waiter? = some u →
    (w.threads j).phase.waiter? = some v → u.id ≠ v.id
  alive : ∀ {i v}, (w.threads i).phase.waiter? = some v →
    ∃ slot, w.shared.registry.slots v.id = some slot ∧ slot.waiter = v ∧ slot.receiver = true

/-- The registration that a session owns after a move is new, or it owned it before. -/
theorem Handles.waiter_new (h : Handles i env sh s a sh' s') (hv : s'.phase.waiter? = some v) :
    s.phase.waiter? = some v ∨ ∃ keys kind, v = (sh.registry.register keys kind).1 ∧
        sh'.registry = (sh.registry.register keys kind).2 := by
  cases h with
  | nothing _ _ _ _ _ hw => exact .inl (hw v hv)
  | register keys kind r _ _ hreg _ _ hw =>
    rw [hw, Option.some.injEq] at hv
    exact .inr ⟨keys, kind, hv.symm, hreg⟩
  | timeoutClaimed _ _ _ _ heq => exact .inl (heq ▸ hv)
  | claim _ _ _ _ _ _ _ _ _ _ _ _ hw | unclaim _ _ _ _ _ _ _ _ _ _ _ hw | wake _ _ _ _ _ hw
  | release _ _ _ _ hw | leave _ _ _ _ _ hw | timeout _ _ _ _ _ hw =>
    rw [hw] at hv
    cases hv

/-- A move of a session keeps the slots of other waiters alive. -/
theorem Handles.alive (h : Handles i env sh s a sh' s') (hr : Registered sh.registry) {slot : Slot}
    (hs : sh.registry.slots v.id = some slot) (hw : slot.waiter = v) (hrec : slot.receiver = true)
    (hkeep : s.phase.waiter? = some v → s'.phase.waiter? = some v)
    (hother : ∀ u, s.phase.waiter? = some u → u.id = v.id → u = v) :
    ∃ slot', sh'.registry.slots v.id = some slot' ∧ slot'.waiter = v ∧ slot'.receiver = true := by
  rcases h.slot hr v.id with ⟨hnone, -⟩ | ⟨f, hslot, hf⟩
  · rw [hs] at hnone
    cases hnone
  · refine ⟨f slot, by rw [hslot, hs, Option.map_some], (hf.waiter slot).trans hw, ?_⟩
    rcases hf.receiver with hsame | ⟨u, hu, hid, hgone⟩
    · rw [hsame, hrec]
    · obtain rfl := hother u hu hid
      rw [hkeep hu] at hgone
      cases hgone

/-- In every state that any run reaches. -/
theorem World.owned (retryCount : Nat) (h : World.Reached retryCount ok w) : w.Owned := by
  refine Transition.Reach.inv_with (fun st hst => World.registered retryCount hst)
    ⟨by simp [World.init, Phase.waiter?], by simp [World.init, Phase.waiter?]⟩
    (fun st ia st' hJ hinv hok hact => ?_) h
  obtain ⟨hstep, hsame⟩ := act_eq_some hact
  obtain ⟨clock, -, -, hmoves⟩ := moves_of_sessionStep hstep
  have hs : (st.threads ia.1).Registers { st.shared with clock } :=
    ⟨(hJ.thread ia.1).fits, (hJ.thread ia.1).waiter, (hJ.thread ia.1).claims⟩
  have hh := handles hmoves hs.fits
  -- a registration made in this step has an id that no session knows
  have fresh {j : Nat} {u v : Waiter} (hj : j ≠ ia.1) (hu : (st.threads j).phase.waiter? = some u)
      (hv : (st'.threads ia.1).phase.waiter? = some v) : u.id ≠ v.id := by
    rcases hh.waiter_new hv with hold | ⟨keys, kind, rfl, -⟩
    · exact hinv.distinct hj hu hold
    · obtain ⟨slot, hslot, -⟩ := (hJ.thread j).waiter u hu
      exact Nat.ne_of_lt (hJ.shared.lt_nextId hslot)
  refine ⟨fun {i j u v} hij hu hv => ?_, fun {i v} hv => ?_⟩
  · by_cases hi : i = ia.1
    · subst hi
      rw [hsame j (Ne.symm hij)] at hv
      exact (fresh (Ne.symm hij) hv hu).symm
    · rw [hsame i hi] at hu
      by_cases hj : j = ia.1
      · subst hj
        exact fresh hi hu hv
      · rw [hsame j hj] at hv
        exact hinv.distinct hij hu hv
  · by_cases hi : i = ia.1
    · subst hi
      rcases hh.waiter_new hv with hold | ⟨keys, kind, rfl, hnew⟩
      · obtain ⟨slot, hslot, hw, hrec⟩ := hinv.alive hold
        exact hh.alive hJ.shared hslot hw hrec (fun _ => hv)
          fun u hu _ => by rw [hold] at hu; exact (Option.some.inj hu).symm
      · exact ⟨_, by rw [hnew]; exact Function.update_self .., rfl, rfl⟩
    · rw [hsame i hi] at hv
      obtain ⟨slot, hslot, hw, hrec⟩ := hinv.alive hv
      refine hh.alive hJ.shared hslot hw hrec (fun hmine => ?_) fun u hu hid => ?_
      · exact absurd rfl (hinv.distinct hi hv hmine)
      · exact absurd hid.symm (hinv.distinct hi hv hu)

end Invar
