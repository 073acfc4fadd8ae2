import Invar.System.DispatchStops
import Invar.System.Journal

/-!
# The attempts of a dispatch

Each claim of an abandoned attempt is given back once, and each claim of the committed
attempt is woken once. Scripts break this in two ways: a script that fails inside an
`EXEC` gives claims back and the transaction commits all the same, and the wire half
of a command of a script wakes what is left in its result before the commit.
-/

namespace Invar

open StoreProg Session Interleaving

section

variable {n i : Nat} {env : Nat → Tick} {sh sh' : Shared} {s s' : Session} {a : Action}
  {j : Journal}

/-- The attempt can still commit. -/
def Phase.live : Phase → Bool
  | .checkEpoch .. | .checkKeys .. | .commit .. => true
  | .ops r stage => !(stage.isGiveBack && r.frames.isEmpty && !r.dispatch.batch)
  | _ => false

/-- No command of a script leaves claims for its wire half, and only a script whose
attempt is abandoned gives claims back. -/
def Phase.ScriptsSettle : Phase → Prop
  | .ops r stage => stage.waking = [] ∧
    (stage.returning = [] ∨ r.frames = [] ∧ r.dispatch.batch = false)
  | _ => True

structure Journal.Balances (s : Session) (j : Journal) : Prop where
  conserve : j.made.Perm (j.released ++ (j.woken ++ s.phase.claims))
  made : ∀ c ∈ j.made, c.origin ∈ j.attempts
  held : ∀ c ∈ s.phase.claims, j.attempts.head? = some c.origin
  woken : ∀ c ∈ j.woken, j.commit ≠ none ∧ j.attempts.head? = some c.origin
  released : ∀ c ∈ j.released, j.attempts.head? = some c.origin →
    j.commit = none ∧ s.phase.live = false
  scripts : s.phase.ScriptsSettle

theorem Journal.Balances.blank (h : j.Empty) (hp : s.phase.claims = [])
    (hs : s.phase.ScriptsSettle) : j.Balances s := by
  refine ⟨?_, ?_, ?_, ?_, ?_, hs⟩ <;> simp [h.made, h.released, h.woken, hp]

variable {j' : Journal} {c : Claim} {out : Outcome} {r : OpRun} {res : DbResult} {op : AtomicOp}
  {tx : Tx}

/-- Nothing in the journal changes that concerns claims. -/
@[simp] def Journal.SameClaims (j j' : Journal) : Prop :=
  j'.made = j.made ∧ j'.released = j.released ∧ j'.woken = j.woken ∧ j'.attempts = j.attempts ∧
    j'.commit = j.commit

/-- The claims stay in the hands of the session. -/
theorem Journal.Balances.goes (h : j.Balances s) (hj : j.SameClaims j')
    (hp : s'.phase.claims.Perm s.phase.claims) (hl : s'.phase.live = true → s.phase.live = true)
    (hs : s'.phase.ScriptsSettle) : j'.Balances s' := by
  obtain ⟨hm, hr, hw, ha, hc⟩ := hj
  refine ⟨?_, hm ▸ ha ▸ h.made, ?_, hw ▸ hc ▸ ha ▸ h.woken, ?_, hs⟩
  · rw [hm, hr, hw]
    exact h.conserve.trans ((hp.symm.append_left _).append_left _)
  · rw [ha]
    exact fun c hmem => h.held c (hp.mem_iff.mp hmem)
  · rw [hr, ha, hc]
    intro c hmem hhead
    obtain ⟨hnone, hlive⟩ := h.released c hmem hhead
    exact ⟨hnone, Bool.eq_false_iff.mpr fun h => by simp [hl h] at hlive⟩

theorem Journal.Balances.begin (h : j.Balances s) (hp : s.phase.claims = [])
    (hnone : j.commit = none) (hids : ∀ k ∈ j.attempts, k < sh.nextTx)
    (hp' : s'.phase.claims = []) (hs : s'.phase.ScriptsSettle) : (j.begin sh).Balances s' := by
  refine ⟨?_, fun c hc => List.mem_cons_of_mem _ (h.made c hc), by simp [hp'],
    fun c hc => absurd hnone (h.woken c hc).1, fun c hc hhead => ?_, hs⟩
  · rw [hp', ← hp]
    exact h.conserve
  · -- the claims given back so far are of earlier transactions
    have horigin : sh.nextTx = c.origin := by simpa [Journal.begin] using hhead
    have hmade : c ∈ j.made := h.conserve.mem_iff.mpr (List.mem_append_left _ hc)
    exact absurd (hids c.origin (h.made c hmade)) (by omega)

/-- One claim of the session is given back. -/
theorem Journal.Balances.release (h : j.Balances s)
    (hj : j' = { j with released := j.released ++ [c] })
      (hp : s.phase.claims.Perm (c :: s'.phase.claims))
    (hnone : j.commit = none) (hl : s'.phase.live = false) (hs : s'.phase.ScriptsSettle) :
    j'.Balances s' := by
  subst hj
  refine ⟨?_, h.made, fun c' hmem => h.held c' (hp.mem_iff.mpr (List.mem_cons_of_mem c hmem)),
    h.woken, fun _ _ _ => ⟨hnone, hl⟩, hs⟩
  refine h.conserve.trans (List.perm_iff_count.mpr fun c' => ?_)
  have hcount := hp.count_eq c'
  simp only [List.count_append, List.count_cons, List.count_nil] at hcount ⊢
  omega

/-- One claim of the session is woken. -/
theorem Journal.Balances.wake (h : j.Balances s)
    (hj : j' = { j with woken := j.woken ++ [c] }) (hp : s.phase.claims.Perm (c :: s'.phase.claims))
    (hsome : j.commit ≠ none) (hl : s'.phase.live = false) (hs : s'.phase.ScriptsSettle) :
    j'.Balances s' := by
  subst hj
  refine ⟨?_, h.made, fun c' hmem => h.held c' (hp.mem_iff.mpr (List.mem_cons_of_mem c hmem)),
    fun c' hmem => ?_, fun c' hmem hhead => ⟨(h.released c' hmem hhead).1, hl⟩, hs⟩
  · refine h.conserve.trans (List.perm_iff_count.mpr fun c' => ?_)
    have hcount := hp.count_eq c'
    simp only [List.count_append, List.count_cons, List.count_nil] at hcount ⊢
    omega
  · rcases List.mem_append.mp hmem with hold | hnew
    · exact h.woken c' hold
    · rw [List.mem_singleton.mp hnew]
      exact ⟨hsome, h.held c (hp.mem_iff.mpr List.mem_cons_self)⟩

theorem conflicted_live (d : Dispatch) (claims : List Claim) :
    (s.conflicted d claims).phase.live = false := by
  rw [conflicted_phase]
  rfl

/-- The claims of an outcome join those of the run. -/
theorem Completes.claims_perm (h : Completes s r out s')
    (hk : ∀ res, out = .ok res → r.frames ≠ [] → r.cmd.deferClaims res = ([], res.claims)) :
    s'.phase.claims.Perm (out.claims ++ r.claims) := by
  cases h with
  | conflict hf ho =>
    rw [conflicted_phase]
    simp [Phase.claims, OpRun.claims, Outcome.claims, hf, ho]
  | abandon e hf ho => simp [Phase.claims, OpRun.claims, Outcome.claims, hf, ho]
  | next phase hf hn =>
    have hperm : ((r.outcomes ++ [out]).flatMap Outcome.claims).Perm (out.claims ++ r.claims) := by
      simp only [List.flatMap_append, List.flatMap_cons, List.flatMap_nil, List.append_nil,
        OpRun.claims, hf, List.nil_append]
      exact List.perm_append_comm
    cases hn <;> exact hperm
  | called f frames res hf ho =>
    have hd := hk res ho (by simp [hf])
    refine List.perm_iff_count.mpr fun c => ?_
    simp only [Phase.claims, Stage.claims, OpRun.claims, hd, hf, ho, Outcome.claims,
      List.flatMap_cons, List.nil_append, List.count_append]
    omega
  | raised f frames e hf ho =>
    simp [Phase.claims, Stage.claims, OpRun.claims, hf, ho, Outcome.claims]

theorem Completes.scriptsSettle (h : Completes s r out s')
    (hk : ∀ res, out = .ok res → r.frames ≠ [] → r.cmd.deferClaims res = ([], res.claims)) :
    s'.phase.ScriptsSettle := by
  cases h with
  | conflict =>
    rw [conflicted_phase]
    trivial
  | abandon => trivial
  | next phase hf hn =>
    cases hn with
    | op => exact ⟨rfl, .inl rfl⟩
    | commit => trivial
  | called f frames res hf ho =>
    refine ⟨?_, .inl rfl⟩
    rw [hk res ho (by simp [hf])]
    rfl
  | raised => exact ⟨rfl, .inl rfl⟩

/-- An error that ends the attempt. -/
theorem Completes.live_of_error {e : DbError} (h : Completes s r (.error e) s') (hf : r.frames = [])
    (he : r.dispatch.batch = false ∨ Outcome.isRetryableConflict (.error e) = true) :
    s'.phase.live = false := by
  generalize hout : (Except.error e : Outcome) = out at h he
  cases h with
  | conflict => exact conflicted_live _ _
  | abandon => rfl
  | next phase hf hn hb heq hno =>
    rw [hno] at he
    rw [hb ⟨e, hout.symm⟩] at he
    simp at he
  | called f frames res hfr => simp [hf] at hfr
  | raised f frames e hfr => simp [hf] at hfr

theorem Command.deferClaims_of_nil (c : Command) (h : res.claims = []) :
    c.deferClaims res = ([], res.claims) := by
  unfold deferClaims
  split <;> simp [h]

/-- `defer_claims` of an op other than `XADD` leaves nothing behind. -/
theorem Performs.deferClaims_all {tx' : Tx} {cmd : Command}
    (hop : cmd.atomicOp? = some op) (hx : ∀ x, op ≠ .xadd x)
    (h : Performs i env tx sh op (.ok res) tx' sh') : cmd.deferClaims res = ([], res.claims) := by
  cases op with
  | plain p => exact cmd.deferClaims_of_nil h.claims_plain
  | zadd z => simp [Command.deferClaims, Command.body_of_atomicOp hop (by simp)]
  | xadd x => exact absurd rfl (hx x)

theorem AtomicOp.origin_givenBack (op : AtomicOp) (env : Nat → Tick) (tx : Tx) (sh : Shared) :
    ∀ c ∈ op.givenBack env tx sh, c.origin = tx.id := by
  cases op with
  | plain | xadd => simp [givenBack]
  | zadd z =>
    intro c hc
    simp only [givenBack] at hc
    split at hc
    · simp at hc
    · split at hc
      · split at hc
        · simp at hc
        · split at hc
          · rw [List.mem_singleton.mp hc]
          · simp at hc
      · simp at hc

/-- A `ZADD` that gives its claim back fails. -/
theorem AtomicOp.error_of_givenBack
    (h : op.givenBack env tx sh ≠ []) : ∃ e, (op.run i env tx sh).1 = .error e := by
  cases op with
  | plain | xadd => exact absurd rfl h
  | zadd z =>
    simp only [givenBack] at h
    simp only [AtomicOp.run, AtomicOp.perform]
    cases hw : (exec z.write env tx.txn).out with
    | error e =>
      rw [hw] at h
      exact absurd rfl h
    | ok w =>
      rw [hw] at h
      dsimp only at h ⊢
      cases hadd : w.added with
      | false =>
        rw [hadd] at h
        exact absurd rfl h
      | true =>
        rw [hadd, if_pos rfl] at h
        rw [if_pos rfl, zaddClaim]
        cases hclaim : sh.registry.tryClaim w.node.publicKey with
        | none =>
          rw [hclaim] at h
          exact absurd rfl h
        | some cr =>
          rw [hclaim] at h
          dsimp only [Tx.withTxn] at h ⊢
          cases hpop : (exec (Zset.popOne cr.1.wantMin w.node) (exec z.write env tx.txn).env
            (exec z.write env tx.txn).txn).out with
          | error e => exact ⟨e, rfl⟩
          | ok popped =>
            rw [hpop] at h
            exact absurd rfl h

/-- An op has run: the claims of its result are new, and so is one that it gave back. -/
theorem Journal.Balances.performs (hb : j.Balances s)
    {back : List Claim} {result : Option DispatchResult} (hph : s.phase = .ops r .start)
    (hhead : j.attempts.head? = some r.tx.id) (hnone : j.commit = none)
    (h : Completes s { r with tx } out s') (hout : ∀ c ∈ out.claims, c.origin = r.tx.id)
    (hback : ∀ c ∈ back, c.origin = r.tx.id)
    (hk : ∀ res, out = .ok res → r.frames ≠ [] → r.cmd.deferClaims res = ([], res.claims))
    (herr : back ≠ [] → (∃ e, out = .error e) ∧ r.frames = [] ∧
      (r.dispatch.batch = false ∨ out.isRetryableConflict = true)) :
    { j with
      made := j.made ++ out.claims ++ back
      released := j.released ++ back
      result : Journal }.Balances s' := by
  have hcons := hb.conserve
  have hheld := hb.held
  rw [hph] at hcons hheld
  have hperm : s'.phase.claims.Perm (out.claims ++ r.claims) := h.claims_perm hk
  have current {c : Claim} (hc : c.origin = r.tx.id) :
    j.attempts.head? = some c.origin := hc ▸ hhead
  refine ⟨?_, fun c hc => ?_, fun c hc => ?_, hb.woken, fun c hc horigin => ?_, h.scriptsSettle hk⟩
  · refine List.perm_iff_count.mpr fun c => ?_
    have h1 := hcons.count_eq c
    have h2 := hperm.count_eq c
    simp only [List.count_append, Phase.claims, Stage.claims, List.count_nil] at h1 h2 ⊢
    omega
  · simp only [List.mem_append] at hc
    rcases hc with (hold | hnew) | hgiven
    · exact hb.made c hold
    · exact List.mem_of_head? (current (hout c hnew))
    · exact List.mem_of_head? (current (hback c hgiven))
  · rcases List.mem_append.mp (hperm.mem_iff.mp hc) with hnew | hold
    · exact current (hout c hnew)
    · exact hheld c hold
  · rcases List.mem_append.mp hc with hold | hgiven
    · -- so far nothing of this attempt was given back
      have hlive := (hb.released c hold horigin).2
      rw [hph] at hlive
      cases hlive
    · obtain ⟨⟨e, rfl⟩, hf, he⟩ := herr (List.ne_nil_of_mem hgiven)
      exact ⟨hnone, h.live_of_error hf he⟩

/-- **What an attempt claims it gives back or wakes, as it is abandoned or committed.** -/
theorem Moves.balances (h : Moves i env sh s a sh' s') (hj : j.Tracks n i s) (hb : j.Balances s)
    (hok : Settles i env sh s a) (hids : ∀ k ∈ j.attempts, k < sh.nextTx) :
    (j.note i env sh s a sh' s').Balances s' := by
  have control {phase : Phase} (hph : s.phase = phase) : phase.Control n s.queue j :=
    hph ▸ hj.control
  -- a session that is not in a dispatch has no claims
  have rests (hj' : j.SameClaims (j.note i env sh s a sh' s')) (hp : s.phase.claims = [])
      (hp' : s'.phase.claims = []) (hl : s'.phase.live = false) (hs : s'.phase.ScriptsSettle) :
      (j.note i env sh s a sh' s').Balances s' :=
    hb.goes hj' (by rw [hp, hp']) (by simp [hl]) hs
  cases h with
  | refused a hph =>
    rcases j.note_of_idle i env sh a sh s hph with
      hn | ⟨-, -, -, hempty⟩
    · rw [hn]
      exact hb
    · exact .blank hempty (by simp [hph, Phase.claims]) (by simp [hph, Phase.ScriptsSettle])
  | multi hph | discard hph | unwatch hph | spoiled c hph hm | queued c hph hm =>
    exact rests (by simp [Journal.note, *]) (by simp [hph, Phase.claims])
      (by simp [hph, Phase.claims, finish]) (by simp [hph, Phase.live, finish])
      (by simp [hph, Phase.ScriptsSettle, finish])
  | watch keys hph | watchBegin ok keys snapshot hph | watchKey snapshot k rest existed hph
  | watched snapshot hph | released hph | bumpEpoch hph | retry d hph | beginFailed d e hph
  | replied d hph | repliedFlush d hph =>
    exact rests (by simp [Journal.note, hph]) (by simp [hph, Phase.claims]) rfl rfl trivial
  | submit c hph hm | exec hph hm =>
    exact .blank (by simp only [Journal.note, hph, hm]; exact ⟨rfl, rfl, rfl⟩)
      (of_dispatch (P := (·.claims = [])) rfl fun _ => rfl) (of_dispatch trivial fun _ => trivial)
  | beginWatched d hph =>
    rw [Journal.note_begin hph]
    exact hb.begin (by simp [hph, Phase.claims]) (control hph).commit hids rfl trivial
  | begin d hph =>
    rw [Journal.note_begin hph]
    obtain ⟨phase, hnext, heq⟩ := nextOp_eq s d (sh.begin d.isolation).1 []
    rw [heq]
    have hno : s.phase.claims = [] := by simp [hph, Phase.claims]
    cases hnext with
    | op cmd => exact hb.begin hno (control hph).commit hids rfl ⟨rfl, .inl rfl⟩
    | commit => exact hb.begin hno (control hph).commit hids rfl trivial
  | epochChanged d tx hph | keyChanged d tx todo key hph =>
    exact rests (by simp [Journal.note, hph, finish, Phase.isIdle])
      (by simp [hph, Phase.claims]) rfl rfl trivial
  | epochKept d tx hph | keyKept d tx todo e hph =>
    exact hb.goes (by simp [Journal.note, hph, Phase.isIdle]) (by simp [hph, Phase.claims])
      (by simp [hph, Phase.live]) trivial
  | keysChecked d tx key hph =>
    refine hb.goes (by simp [Journal.note, hph, nextOp_isIdle]) ?_ (by simp [hph, Phase.live]) ?_
    all_goals
      obtain ⟨phase, hn, heq⟩ := nextOp_eq s d tx []
      rw [heq]
      cases hn
    · simp [hph, Phase.claims, Stage.claims, OpRun.claims]
    · simp [hph, Phase.claims]
    · exact ⟨rfl, .inl rfl⟩
    · trivial
  | commit d tx outcomes hph =>
    have hnone := (control hph).1.commit
    simp only [Journal.note, hph]
    refine ⟨?_, hb.made, ?_, fun c hc => absurd hnone (hb.woken c hc).1, fun c hc hhead => ?_,
      trivial⟩
    · have hcons := hb.conserve
      rwa [hph] at hcons
    · have hheld := hb.held
      rwa [hph] at hheld
    · have hlive := (hb.released c hc hhead).2
      rw [hph] at hlive
      cases hlive
  | commitConflict d tx outcomes hph =>
    refine hb.goes (by simp [Journal.note, hph]) ?_ (by simp [conflicted_live]) ?_
    · rw [conflicted_phase, hph]
      rfl
    · rw [conflicted_phase]
      trivial
  | commitFailed d tx outcomes e hph he =>
    refine hb.goes ?_ (by rw [hph]; rfl) (by simp [Phase.live]) trivial
    cases e <;> simp_all [Journal.note]
  | bump d m outcomes hph =>
    exact hb.goes (by simp [Journal.note]) (by rw [hph]; rfl) (by simp [Phase.live]) trivial
  | wake d c rest hph =>
    exact hb.wake (c := c) (by simp [Journal.note, hph]) (by rw [hph]; rfl)
      (control hph) rfl trivial
  | release c rest after hph =>
    refine hb.release (c := c) (by simp [Journal.note, hph]) (by rw [hph]; rfl) ?_ rfl trivial
    have hc := control hph
    cases after with
    | idle => exact hc
    | retry d => exact hc.commit
  | atomic r op hph hop =>
    obtain ⟨ht, hhead⟩ := control hph
    have hn : j.note i env sh s .run (op.run i env r.tx sh).2.2
        (s.complete { r with tx := (op.run i env r.tx sh).2.1 } (op.run i env r.tx sh).1) =
          { j with
            made := j.made ++ (op.run i env r.tx sh).1.claims ++ op.givenBack env r.tx sh
            released := j.released ++ op.givenBack env r.tx sh
            result := s.opResult r (op.run i env r.tx sh).1 } := by
      simp [Journal.note, hph, hop]
    rw [hn]
    have hrun := performs i env r.tx sh op
    exact hb.performs hph hhead ht.commit (completes _ _ _) hrun.origin
      (op.origin_givenBack env r.tx sh)
      (fun res ho hf => Performs.deferClaims_all hop
        (fun x hx => hf (hok.xadd r x rfl hph (hx ▸ hop))) (ho ▸ hrun))
      (fun hne => ⟨AtomicOp.error_of_givenBack hne,
        (hok.back r op rfl hph hop).resolve_left hne⟩)
  | enter r stage hph hst =>
    obtain ⟨script, rfl⟩ := Command.staysInTx_stage (hok.stays r rfl hph) hst
    exact hb.goes (by simp [Journal.note, hph, Command.atomicOp_of_firstStage hst])
      (by rw [hph]; rfl) (by simp [hph, Phase.live, Stage.isGiveBack]) ⟨rfl, .inl rfl⟩
  | scriptDone r reply deferred hph =>
    have hk : ∀ res, (.ok { reply, claims := deferred } : Outcome) = .ok res → r.frames ≠ [] →
        r.cmd.deferClaims res = ([], res.claims) := by
      intro res hres hf
      cases hres
      exact r.cmd.deferClaims_of_nil ((hok.ends r reply deferred rfl hph).resolve_left hf)
    refine hb.goes (by simp [Journal.note, hph]) ?_ (by simp [hph, Phase.live, Stage.isGiveBack])
      ((completes _ _ _).scriptsSettle hk)
    rw [hph]
    exact (completes _ _ _).claims_perm hk
  | scriptFail r msg deferred e hph =>
    refine hb.goes (by simp [Journal.note, hph]) (by rw [hph]; rfl)
      (by simp [hph, Phase.live, Stage.isGiveBack]) ⟨rfl, ?_⟩
    exact hok.fails r msg deferred rfl hph
  | scriptCall r c next deferred hph =>
    refine hb.goes (by simp [Journal.note, hph]) ?_ (by simp [hph, Phase.live, Stage.isGiveBack])
      ⟨rfl, .inl rfl⟩
    rw [hph]
    simp [Phase.claims, Stage.claims, OpRun.claims]
  | wireWake r c rest sc deferred hph =>
    have hs := hb.scripts
    rw [hph] at hs
    cases hs.1
  | wireDone r sc deferred hph =>
    exact hb.goes (by simp [Journal.note, hph]) (by rw [hph]; rfl)
      (by simp [hph, Phase.live, Stage.isGiveBack]) ⟨rfl, .inl rfl⟩
  | giveBack r c rest e hph =>
    have hs := hb.scripts
    rw [hph] at hs
    obtain ⟨hf, hbatch⟩ := hs.2.resolve_left (by simp [Stage.returning])
    exact hb.release (c := c) (by simp [Journal.note, hph]) (by rw [hph]; rfl)
      (control hph).1.commit (by simp [Phase.live, Stage.isGiveBack, hf, hbatch])
      ⟨rfl, .inr ⟨hf, hbatch⟩⟩
  | gaveBack r e hph =>
    refine hb.goes (by simp [Journal.note, hph]) ?_ (fun hl => ?_)
      ((completes _ _ _).scriptsSettle fun _ hok => by cases hok)
    · rw [hph]
      exact (completes _ _ _).claims_perm fun _ hok => by cases hok
    · rw [hph]
      cases hlive : (Phase.ops r (.giveBack [] e)).live with
      | true => rfl
      | false =>
        simp [Phase.live, Stage.isGiveBack] at hlive
        rw [(completes s r (.error e)).live_of_error hlive.1 (.inl hlive.2)] at hl
        cases hl
  | xreadEnd a r stage w out hph hs =>
    rcases hs with ⟨x, rfl⟩ | ⟨x, snap, rfl⟩ <;> exact hj.runs.never hph rfl
  | hangUp r stage w hph ho hf hs => exact hj.runs.never hph (Stage.inTx_of_cancelled hs)
  | _ =>
    -- the other stages of commands that wait or flush
    refine hj.runs.never (by assumption) ?_
    rfl

/-! ## The transactions in the journal -/

/-- What a step does to the list of attempts and to the commit. -/
inductive Journal.Noted (j : Journal) (sh : Shared) (s : Session) (a : Action) (sh' : Shared)
    (j' : Journal) : Prop
  | same (ha : j'.attempts = j.attempts) (hc : j'.commit = j.commit)
      (hno : ∀ d tx outcomes, a = .commit none → s.phase ≠ .commit d tx outcomes)
  | begin (d : Dispatch) (hp : s.phase = .begin d) (hact : a = .begin none) (hj : j' = j.begin sh)
  | fresh (ha : j'.attempts = [])
  | commit (d : Dispatch) (tx : Tx) (outcomes : List Outcome) (hp : s.phase = .commit d tx outcomes)
      (hact : a = .commit none) (ha : j'.attempts = j.attempts)
      (hc : j'.commit = some ⟨sh.store, sh'.store, tx, outcomes⟩)

theorem Journal.noted (j : Journal) (i : Nat) (env : Nat → Tick) (sh : Shared) (s : Session)
    (a : Action) (sh' : Shared) (s' : Session) :
    j.Noted sh s a sh' (j.note i env sh s a sh' s') := by
  unfold Journal.note
  split
  · split
    · exact .same rfl rfl nofun
    · exact .fresh rfl
  · split
    · exact .fresh rfl
    · exact .same rfl rfl nofun
  · exact .begin _ ‹_› rfl rfl
  · exact .same rfl rfl nofun
  · split <;> exact .same rfl rfl nofun
  · split <;> exact .same rfl rfl nofun
  · split <;> exact .same rfl rfl nofun
  · exact .same rfl rfl nofun
  · exact .same rfl rfl nofun
  · exact .same rfl rfl nofun
  · exact .commit _ _ _ ‹_› rfl rfl rfl
  · exact .same rfl rfl nofun
  · exact .same rfl rfl nofun
  · exact .same rfl rfl nofun
  · exact .same rfl rfl nofun
  · refine .same rfl rfl fun d tx outcomes ha hp => ?_
    simp_all

theorem Journal.note_clock (j : Journal) (clock : Int) :
    j.note i env { sh with clock } s a sh' s' = j.note i env sh s a sh' s' := by
  unfold Journal.note
  split <;> first | rfl | (simp only [AtomicOp.run_clock]; rfl)

end

/-- The attempts are transactions of session `i`, and no other. -/
structure Journal.Ids (i : Nat) (w : World) (j : Journal) : Prop where
  known : ∀ k ∈ j.attempts, 0 < k ∧ k < w.shared.nextTx
  apart : ∀ i', i' ≠ i → ∀ k ∈ (w.threads i').phase.openIds, k ∉ j.attempts
  committed : ∀ k ∈ j.attempts,
    w.shared.committed k = true ↔ ∃ c, j.commit = some c ∧ c.tx.id = k

section

variable {n i : Nat} {w w' : World} {j : Journal} {b : Nat × Action × List Tick}

/-- A step of another session. -/
theorem Journal.Ids.other (h : j.Ids i w) (hw : w.TxIds) (hb : b.1 ≠ i)
    (hact : World.step w b = some w') : j.Ids i w' := by
  obtain ⟨hstep, hsame⟩ := act_eq_some hact
  obtain ⟨clock, -, -, hmoves⟩ := moves_of_sessionStep hstep
  refine ⟨fun k hk => ?_, fun i' hi' k hk hmem => ?_, fun k hk => ⟨fun hc => ?_, fun hc => ?_⟩⟩
  · obtain ⟨hpos, hlt⟩ := h.known k hk
    exact ⟨hpos, Nat.lt_of_lt_of_le hlt hmoves.nextTx_le⟩
  · by_cases hb' : i' = b.1
    · subst hb'
      rcases hmoves.mem_openIds hk with hold | ⟨rfl, -⟩
      · exact h.apart _ hi' k hold hmem
      · exact absurd (h.known _ hmem).2 (Nat.lt_irrefl _)
    · rw [hsame i' hb'] at hk
      exact h.apart i' hi' k hk hmem
  · rcases hmoves.committed (hw.nodup b.1) (h.known k hk).1 hc with hc | ⟨hopen, -⟩
    · exact (h.committed k hk).mp hc
    · exact absurd hk (h.apart b.1 hb k hopen)
  · exact hmoves.logGrows.committed ((h.committed k hk).mpr hc)

/-- A step of the session itself. -/
theorem Journal.Ids.own (h : j.Ids i w) (hw : w.TxIds) (ht : j.Tracks n i (w.threads i))
    {a : Action × List Tick} (hact : World.step w (i, a) = some w') :
    (j.note i (readings w.shared.clock a.2) w.shared (w.threads i) a.1 w'.shared
      (w'.threads i)).Ids i w' := by
  obtain ⟨hstep, hsame⟩ := act_eq_some hact
  obtain ⟨clock, -, -, hmoves⟩ := moves_of_sessionStep hstep
  have hgrows : w.shared.nextTx ≤ w'.shared.nextTx := hmoves.nextTx_le
  have notOpen {i' : Nat} (hi' : i' ≠ i) {k : Nat} (hk : k ∈ (w'.threads i').phase.openIds) :
      k < w.shared.nextTx ∧ k ∉ j.attempts := by
    rw [hsame i' hi'] at hk
    exact ⟨(hw.opened i' k hk).2.1, h.apart i' hi' k hk⟩
  have known {k : Nat} (hk : k ∈ j.attempts) : 0 < k ∧ k < w'.shared.nextTx :=
    ⟨(h.known k hk).1, Nat.lt_of_lt_of_le (h.known k hk).2 hgrows⟩
  -- only the commit of the dispatch commits anything
  have closes {k : Nat} (hk : 0 < k) (hc : w'.shared.committed k = true) :
      w.shared.committed k = true ∨ ∃ d tx outcomes, (w.threads i).phase = .commit d tx outcomes ∧
        (w'.threads i).phase = .bump d w.shared.log.length outcomes ∧ tx.id = k := by
    obtain ⟨c', hc', rfl⟩ := Shared.committed_iff.mp hc
    rcases hmoves.mem_log hc' with ⟨c, hmem, hlater⟩ | hnew
    · exact .inl (Shared.committed_iff.mpr ⟨c, hmem, hlater.tx.symm⟩)
    · cases hnew with
      | batch d tx outcomes hp hcan hc hs =>
        subst hc
        exact .inr ⟨d, tx, outcomes, hp, by rw [hs], rfl⟩
      | own r own p hp =>
        exact ht.runs.never hp rfl
      | flush _ _ _ _ _ _ htx => exact absurd htx (by omega)
  have keeps {k : Nat} (hc : w.shared.committed k = true) : w'.shared.committed k = true :=
    hmoves.logGrows.committed hc
  cases j.noted i (readings w.shared.clock a.2) w.shared (w.threads i) a.1 w'.shared
    (w'.threads i) with
  | same ha hc hno =>
    refine ⟨fun k hk => known (ha ▸ hk), fun i' hi' k hk => ha ▸ (notOpen hi' hk).2, fun k hk => ?_⟩
    rw [ha] at hk
    rw [hc, ← h.committed k hk]
    refine ⟨fun hc => ?_, keeps⟩
    rcases closes (h.known k hk).1 hc with hc | ⟨d, tx, outcomes, hp, hp', -⟩
    · exact hc
    · exact absurd hp (hno d tx outcomes ((hmoves.commit_iff hp).1.mpr hp'))
  | begin d hp hact' hj =>
    have hnone : j.commit = none := by
      have hcontrol := ht.control
      rw [hp] at hcontrol
      exact hcontrol.commit
    have old {k : Nat} (hk : 0 < k) (hc : w'.shared.committed k = true) :
        w.shared.committed k = true := by
      rcases closes hk hc with hc | ⟨d, tx, outcomes, hp', -⟩
      · exact hc
      · simp [hp] at hp'
    rw [hj]
    refine ⟨fun k hk => ?_, fun i' hi' k hk hmem => ?_, fun k hk => ?_⟩
    · rcases List.mem_cons.mp hk with rfl | hk
      · exact ⟨hw.pos, hmoves.nextTx_of_begin hp hact'⟩
      · exact known hk
    · rcases List.mem_cons.mp hmem with rfl | hmem
      · exact absurd (notOpen hi' hk).1 (Nat.lt_irrefl _)
      · exact (notOpen hi' hk).2 hmem
    · simp only [Journal.begin, hnone, reduceCtorEq, false_and, exists_false, iff_false]
      intro hc
      rcases List.mem_cons.mp hk with rfl | hk
      · obtain ⟨c, hmem, htx⟩ := Shared.committed_iff.mp (old hw.pos hc)
        exact absurd (hw.log c hmem) (by omega)
      · have hc' := (h.committed k hk).mp (old (h.known k hk).1 hc)
        simp [hnone] at hc'
  | fresh ha =>
    refine ⟨?_, ?_, ?_⟩ <;> simp [ha]
  | commit d tx outcomes hp hact' ha hc =>
    have hnone : j.commit = none := by
      have hcontrol := ht.control
      rw [hp] at hcontrol
      exact hcontrol.1.commit
    refine ⟨fun k hk => known (ha ▸ hk), fun i' hi' k hk => ha ▸ (notOpen hi' hk).2, fun k hk => ?_⟩
    rw [ha] at hk
    rw [hc]
    constructor
    · intro hcom
      rcases closes (h.known k hk).1 hcom with hold | ⟨d', tx', outcomes', hp', -, rfl⟩
      · have hc' := (h.committed k hk).mp hold
        simp [hnone] at hc'
      · rw [hp] at hp'
        cases hp'
        exact ⟨_, rfl, rfl⟩
    · rintro ⟨c, hc', rfl⟩
      cases hc'
      exact (hmoves.commit_iff hp).2 hact'

/-! ## The whole dispatch -/

/-- What holds of the journal in every state. -/
structure Journal.Inv (n i : Nat) (st : World × Journal) : Prop where
  tracks : st.2.Tracks n i (st.1.threads i)
  balances : st.2.Balances (st.1.threads i)
  ids : st.2.Ids i st.1

theorem Journal.Inv.init (n i : Nat) : Journal.Inv n i (World.init n, {}) where
  tracks := .blank rfl rfl rfl (by simp) trivial trivial
  balances := .blank ⟨rfl, rfl, rfl⟩ rfl trivial
  ids := ⟨by simp, by simp, by simp⟩

variable {st : World × Journal} {cs : List Claim} {tx : Nat}
  {ok : World × Journal → Nat × Action × List Tick → Prop}

theorem Journal.Inv.step {st' : World × Journal} (h : Journal.Inv n i st) (hw : st.1.TxIds)
    (hok : b.1 = i → (staysInTx st.1 b && settlesClaims st.1 b) = true)
    (hstep : Journal.step i st b = some st') : Journal.Inv n i st' := by
  simp only [Journal.step, Option.map_eq_some_iff] at hstep
  obtain ⟨w', hact, rfl⟩ := hstep
  by_cases hb : b.1 = i
  · subst hb
    simp only [if_true]
    obtain ⟨hown, -⟩ := act_eq_some hact
    obtain ⟨clock, -, -, hmoves⟩ := moves_of_sessionStep hown
    have hset : Settles b.1 (readings st.1.shared.clock b.2.2) { st.1.shared with clock }
        (st.1.threads b.1) b.2.1 := by
      have hset := Settles.of_true (hok rfl)
      refine ⟨hset.stays, hset.xadd, fun r op ha hp hop => ?_, hset.fails, hset.ends⟩
      rw [op.run_clock]
      exact hset.back r op ha hp hop
    refine ⟨?_, ?_, h.ids.own hw h.tracks hact⟩
    · exact st.2.note_clock clock ▸ hmoves.tracks h.tracks hset
    · exact st.2.note_clock clock ▸ hmoves.balances h.tracks h.balances hset
        fun k hk => (h.ids.known k hk).2
  · obtain ⟨-, hsame⟩ := act_eq_some hact
    have hi := hsame i (Ne.symm hb)
    simp only [hb, if_false]
    exact ⟨hi ▸ h.tracks, hi ▸ h.balances, h.ids.other hw hb hact⟩

theorem madeIn_perm {cs' : List Claim} (h : cs.Perm cs') :
    (madeIn tx cs).Perm (madeIn tx cs') := h.filter _

theorem madeIn_append (tx : Nat) (cs cs' : List Claim) :
    madeIn tx (cs ++ cs') = madeIn tx cs ++ madeIn tx cs' := List.filter_append ..

theorem madeIn_eq_nil (h : ∀ c ∈ cs, c.origin ≠ tx) : madeIn tx cs = [] := by
  simpa [madeIn] using h

theorem Journal.Inv.settled (h : Journal.Inv n i st)
    (hidle : (st.1.threads i).phase = .idle) : st.2.Settled i st.1.shared := by
  have hcons := h.balances.conserve
  simp only [hidle, Phase.claims, List.append_nil] at hcons
  have split (tx : Nat) :
      (madeIn tx st.2.made).Perm (madeIn tx st.2.released ++ madeIn tx st.2.woken) := by
    rw [← madeIn_append]
    exact madeIn_perm hcons
  refine ⟨h.tracks.ran, h.tracks.results, h.ids.committed, fun c hc => ?_, fun tx hno => ?_⟩
  · -- the claims of the committed attempt
    have hnone : madeIn c.tx.id st.2.released = [] := by
      refine madeIn_eq_nil fun c' hc' horigin => ?_
      have hhead := (h.tracks.ran c hc).1
      rw [← horigin] at hhead
      have hcommit := (h.balances.released c' hc' hhead).1
      rw [hc] at hcommit
      cases hcommit
    refine ⟨?_, hnone⟩
    have hsplit := split c.tx.id
    rw [hnone, List.nil_append] at hsplit
    exact hsplit.symm
  · -- the claims of an abandoned attempt
    have hnone : madeIn tx st.2.woken = [] := by
      refine madeIn_eq_nil fun c' hc' horigin => ?_
      obtain ⟨hsome, hhead⟩ := h.balances.woken c' hc'
      obtain ⟨c, hc⟩ := Option.ne_none_iff_exists'.mp hsome
      have hhead' := (h.tracks.ran c hc).1
      rw [hhead, Option.some.injEq] at hhead'
      exact hno c hc (hhead'.symm.trans horigin)
    refine ⟨?_, hnone⟩
    have hsplit := split tx
    rw [hnone, List.append_nil] at hsplit
    exact hsplit.symm

/-- The journal watches the machine and does not restrict it. -/
theorem World.reached_of_journal (h : Transition.Reach (Journal.step i) ok (World.init n, {}) st) :
    World.Reached n (fun _ _ => True) st.1 := by
  have h0 : World.Reached n (fun _ _ => True) (World.init n) := .start
  refine h.inv (I := fun st : World × Journal => World.Reached n (fun _ _ => True) st.1) h0
    fun st b st' hreach _ hstep => ?_
  simp only [Journal.step, Option.map_eq_some_iff] at hstep
  obtain ⟨w', hact, rfl⟩ := hstep
  exact .next hreach trivial hact

theorem Journal.inv_of_reached
    (hok : ∀ st b, ok st b → b.1 = i → (staysInTx st.1 b && settlesClaims st.1 b) = true)
      (h : Transition.Reach (Journal.step i) ok (World.init n, {}) st) : Journal.Inv n i st := by
  refine h.inv_with
    (fun st hst => World.txIds n (World.reached_of_journal hst)) (Journal.Inv.init n i)
    fun st b st' hw hinv hb hstep => hinv.step hw (hok st b hb) hstep

end

/-- The condition, on the steps of session `i`. -/
def settlesDispatch (i : Nat) (st : World × Journal) (b : Nat × Action × List Tick) : Bool :=
  b.1 != i || staysInTx st.1 b && settlesClaims st.1 b

/-- In every run in which the steps of session `i` keep to their transaction and settle
their claims: its dispatch makes at most one attempt more than the retry limit and takes
finitely many steps, and once it has returned it is settled, with one reply for each op
if it returned results. -/
theorem settled_of_dispatch (n i : Nat) {st : World × Journal}
    (h : Transition.Reach (Journal.step i) (fun st b => settlesDispatch i st b = true)
      (World.init n, {}) st) : st.2.attempts.length ≤ n + 1 ∧ Acc (Follows i) (st.1.threads i) ∧
      ((st.1.threads i).phase = .idle → st.2.Settled i st.1.shared ∧
        ∀ replies, st.2.result = some (.results replies) → replies.length = st.2.queue.length) := by
  have hinv : Journal.Inv n i st := by
    refine Journal.inv_of_reached (fun st b hb hi => ?_) h
    simpa [settlesDispatch, hi] using hb
  refine ⟨hinv.tracks.few, acc_of_inTx fun r stage hp => ?_, fun hidle => ?_⟩
  · have hruns := hinv.tracks.runs
    rw [hp] at hruns
    obtain ⟨tx₀, tx₁, top, hruns⟩ := hruns
    exact hruns.inTx
  · have hsettled := hinv.settled hidle
    refine ⟨hsettled, fun replies hr => ?_⟩
    obtain ⟨c, hc, rfl⟩ := (hsettled.results replies).mp hr
    obtain ⟨-, -, tx₀, -, hruns⟩ := hsettled.ran c hc
    simp [hruns.length_eq]

/-! ## A retry, and two scripts that lose track of their claims -/

/-- Session 1 adds to `z`, for which session 0 waits. Its commit loses a conflict, and
the second attempt commits. -/
def addAgain : List (Nat × Action × List Tick) :=
  parkBzpop 0 [ascii "z"] ++ issue 1 (addToZ "1" "a") 1 ++
    [(1, .commit (some .conflict), []), (1, .release, []), (1, .release, []),
      (1, .begin none, []), (1, .run, [])] ++ settle 1 1

theorem settled_addAgain :
    ∃ st, Transition.run (Transition.guarded (Journal.step 1) (settlesDispatch 1))
        (World.init 1, {}) addAgain = some st ∧
      st.2.attempts.length = 2 ∧ st.2.made.length = 2 ∧ st.2.commit.isSome ∧
      st.2.Settled 1 st.1.shared := by
  have heval : (Transition.run (Transition.guarded (Journal.step 1) (settlesDispatch 1))
      (World.init 1, {}) addAgain).any (fun st => st.2.attempts.length == 2 &&
        st.2.made.length == 2 && st.2.commit.isSome && (st.1.threads 1).phase.isIdle) = true := by
    decide +kernel
  obtain ⟨st, hrun, hst⟩ := Transition.exists_of_run_any heval
  simp only [Bool.and_eq_true, beq_iff_eq, Phase.isIdle_iff] at hst
  obtain ⟨⟨⟨hattempts, hmade⟩, hcommit⟩, hidle⟩ := hst
  have hreach := Transition.reach_of_run addAgain .start hrun
  exact ⟨st, hrun, hattempts, hmade, hcommit,
    ((settled_of_dispatch 1 1 hreach).2.2 hidle).1⟩

/-- A script that issues one command and fails. -/
def callAndFail (c : Command) : Command := .eval (.call c fun _ => .fail "")

/-- An `EXEC` of a script that adds to `z`, for which session 0 waits, and fails. -/
def failInExec : List (Nat × Action × List Tick) :=
  parkBzpop 0 [ascii "z"] ++ [(1, .multi, []), (1, .submit (callAndFail (addToZ "1" "a")), []),
    (1, .exec, []), (1, .begin none, [])] ++ runs 1 7 ++ settle 1 0

/-- A script that adds to a stream and fails. -/
def failAfterXadd : List (Nat × Action × List Tick) :=
  issue 1 (callAndFail (.xadd 0 (ascii "s") (some ⟨1, 1⟩) [ascii "f", ascii "v"])) 8 ++
    [(1, .release, [])]

/-- The committed attempt of the first run has given its claim back and woken nobody, and
the abandoned attempt of the second has woken its notification. -/
theorem claims_unsettled :
    (∃ st, Transition.run (Journal.step 1) (World.init 1, {}) failInExec = some st ∧
      (st.1.threads 1).phase = .idle ∧ st.2.commit.isSome ∧ st.2.made.length = 1 ∧
      st.2.woken.length = 0 ∧ ¬st.2.Settled 1 st.1.shared) ∧
    ∃ st, Transition.run (Journal.step 1) (World.init 1, {}) failAfterXadd = some st ∧
      (st.1.threads 1).phase = .idle ∧ st.2.commit.isSome = false ∧ st.2.woken.length = 1 ∧
      ¬st.2.Settled 1 st.1.shared := by
  have heval₁ : (Transition.run (Journal.step 1) (World.init 1, {}) failInExec).any (fun st =>
      (st.1.threads 1).phase.isIdle && (st.2.commit.any fun c =>
        !(madeIn c.tx.id st.2.released).isEmpty) && st.2.made.length == 1 &&
          st.2.woken.length == 0) = true := by
    decide +kernel
  have heval₂ : (Transition.run (Journal.step 1) (World.init 1, {}) failAfterXadd).any (fun st =>
      (st.1.threads 1).phase.isIdle && !st.2.commit.isSome && st.2.woken.length == 1 &&
        (st.2.attempts.any fun tx => !(madeIn tx st.2.woken).isEmpty)) = true := by
    decide +kernel
  refine ⟨?_, ?_⟩
  · obtain ⟨st, hrun, hst⟩ := Transition.exists_of_run_any heval₁
    simp only [Bool.and_eq_true, beq_iff_eq, Phase.isIdle_iff, Option.any_eq_true,
      Bool.not_eq_true', List.isEmpty_eq_false_iff] at hst
    obtain ⟨⟨⟨hidle, c, hc, hback⟩, hmade⟩, hwoken⟩ := hst
    exact ⟨st, hrun, hidle, by simp [hc], hmade, hwoken, fun h => hback (h.woken c hc).2⟩
  · obtain ⟨st, hrun, hst⟩ := Transition.exists_of_run_any heval₂
    simp only [Bool.and_eq_true, beq_iff_eq, Phase.isIdle_iff, Bool.not_eq_true', List.any_eq_true,
      List.isEmpty_eq_false_iff] at hst
    obtain ⟨⟨⟨hidle, hno⟩, hwoken⟩, tx, -, hearly⟩ := hst
    refine ⟨st, hrun, hidle, hno, hwoken, fun h => hearly (h.released tx fun c hc => ?_).2⟩
    simp [hc] at hno

end Invar
