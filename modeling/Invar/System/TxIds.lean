import Invar.System.Ledger

/-!
# The transactions of the sessions

Each `begin` hands out an id that no transaction has had. At any time the ids of the
transactions that sessions have open are apart, and none of them has committed; a
commit closes the transaction it commits.
-/

namespace Invar

open StoreProg Session Interleaving

/-- The ids of the transactions that a session has open. -/
def Phase.openIds : Phase → List Nat
  | .checkEpoch _ tx | .checkKeys _ tx _ | .commit _ tx _ => [tx.id]
  | .ops r stage => r.tx.id :: (stage.own?.map (·.id)).toList
  | _ => []

section

variable {i : Nat} {env : Nat → Tick} {sh sh' : Shared} {s s' : Session} {a : Action}

theorem nextOp_openIds (d : Dispatch) (tx : Tx) (outcomes : List Outcome) :
    (s.nextOp d tx outcomes).phase.openIds = [tx.id] := by
  obtain ⟨phase, hn, heq⟩ := nextOp_eq s d tx outcomes
  rw [heq]
  cases hn <;> rfl

theorem Completes.openIds {r : OpRun} {out : Outcome} (h : Completes s r out s') :
    s'.phase.openIds.Sublist [r.tx.id] := by
  cases h with
  | conflict =>
    simp [conflicted_phase, Phase.openIds]
  | abandon => simp [Phase.openIds]
  | next phase hf hn => cases hn <;> exact .refl _
  | called | raised => exact .refl _

/-- How the open transactions of a session change: some end, or one more is begun. -/
inductive OpenIds (sh : Shared) (s : Session) (sh' : Shared) (s' : Session) : Prop
  | fewer (hn : sh'.nextTx = sh.nextTx) (hs : s'.phase.openIds.Sublist s.phase.openIds)
  | more (hn : sh'.nextTx = sh.nextTx + 1)
      (hs : s'.phase.openIds = s.phase.openIds ++ [sh.nextTx])

theorem Moves.openIds (h : Moves i env sh s a sh' s') : OpenIds sh s sh' s' := by
  have ends {r : OpRun} {stage : Stage} {out : Outcome} {tx : Tx} (hph : s.phase = .ops r stage)
      (hid : tx.id = r.tx.id) (hn : sh'.nextTx = sh.nextTx) :
      OpenIds sh s sh' (s.complete { r with tx } out) := by
    refine .fewer hn (((completes s { r with tx } out).openIds).trans ?_)
    simp [hph, Phase.openIds, hid]
  cases h with
  | beginWatched d hph => exact .more rfl (by simp [hph, Phase.openIds, Shared.begin])
  | begin d hph => exact .more rfl (by rw [nextOp_openIds, hph]; rfl)
  | bzpopBegin r op hph =>
    exact .more rfl (by simp [hph, Phase.openIds, Stage.own?, Shared.begin])
  | atomic r op hph =>
    have hrun := performs i env r.tx sh op
    exact ends hph hrun.ran.id hrun.nextTx
  | scriptDone r reply deferred hph | gaveBack r e hph | bzpopBeginFailed r op e hph
  | bzpopError r op own e hph | bzpopCommit r own p hph | bzpopCommitFailed r own p e hph
  | bzpopReceive r op w got hph | bzpopTimeout r op w hph | xreadEnd a r stage w out hph
  | flushEnd err r todo out hph => exact ends hph rfl rfl
  | enter r stage hph hst =>
    have hown : stage.own? = none := by
      unfold Command.firstStage? at hst
      split at hst <;> cases hst <;> rfl
    exact .fewer rfl (by simp [hph, Phase.openIds, hown])
  | submit | exec =>
    exact .fewer rfl (of_dispatch (P := (·.openIds.Sublist _)) (List.nil_sublist _)
      fun _ => List.nil_sublist _)
  | commitConflict d tx outcomes =>
    exact .fewer rfl (by rw [conflicted_phase]; exact List.nil_sublist _)
  | keysChecked d tx key hph => exact .fewer rfl (by rw [nextOp_openIds, hph]; exact .refl _)
  | refused | multi | unwatch | spoiled | queued | bzpopTimeoutClaimed | xreadTimeoutClaimed
  | flushRows => exact .fewer rfl (.refl _)
  | epochKept d tx hph | keyKept d tx todo e hph => exact .fewer rfl (by rw [hph]; exact .refl _)
  | scriptFail r msg deferred e hph | scriptCall r c next deferred hph
  | wireWake r c rest sc deferred hph | wireDone r sc deferred hph | giveBack r c rest e hph
  | bzpopEmpty r op own hph | bzpopFound r op own p hph | bzpopRegister r op hph
  | xreadRegister r x hph | xreadBegin r x w hph | xreadPark r x w snap ids found hph
  | xreadAgain r x w hph | xreadTimeout r x w hph | flushNext r todo rest hph =>
    exact .fewer rfl (by simp [hph, Phase.openIds, Stage.own?, Tx.withTxn])
  | _ => exact .fewer rfl (List.nil_sublist _)

theorem Moves.nextTx_le (h : Moves i env sh s a sh' s') : sh.nextTx ≤ sh'.nextTx := by
  cases h.openIds with
  | fewer hn => exact Nat.le_of_eq hn.symm
  | more hn => exact hn ▸ Nat.le_succ _

/-- An open id was open before, or is new. -/
theorem Moves.mem_openIds (h : Moves i env sh s a sh' s') {k : Nat}
    (hk : k ∈ s'.phase.openIds) : k ∈ s.phase.openIds ∨ k = sh.nextTx ∧ k < sh'.nextTx := by
  cases h.openIds with
  | fewer hn hs => exact .inl (hs.subset hk)
  | more hn hs =>
    rw [hs, List.mem_append, List.mem_singleton] at hk
    exact hk.imp_right fun heq => ⟨heq, by omega⟩

/-- A new entry of the log closes a transaction of the session, or is a flush. -/
theorem Commits.closes {c : Commit} (hc : Commits i sh s s' c) (hnd : s.phase.openIds.Nodup) :
    c.tx = 0 ∨ c.tx ∈ s.phase.openIds ∧ c.tx ∉ s'.phase.openIds := by
  cases hc with
  | batch d tx outcomes hp hcan hc hs =>
    subst hs hc
    exact .inr ⟨by simp [hp, Phase.openIds, Shared.record], by simp [Phase.openIds]⟩
  | own r own p hp hcan hc hs =>
    subst hc
    rw [hp] at hnd ⊢
    refine .inr ⟨by simp [Phase.openIds, Stage.own?, Shared.record], fun hmem => ?_⟩
    have hsub := (completes s r (.ok { reply := bzpopReply (some p) })).openIds
    rw [hs] at hmem
    have hid : own.id = r.tx.id := by simpa [Shared.record] using hsub.subset hmem
    simp [Phase.openIds, Stage.own?, hid] at hnd
  | flush _ _ _ _ _ _ htx => exact .inl htx

end

/-- Transactions of different sessions have different ids, and an open one has not
committed. -/
structure World.TxIds (w : World) : Prop where
  pos : 0 < w.shared.nextTx
  log : ∀ c ∈ w.shared.log, c.tx < w.shared.nextTx
  opened : ∀ i, ∀ k ∈ (w.threads i).phase.openIds,
    0 < k ∧ k < w.shared.nextTx ∧ w.shared.committed k = false
  nodup : ∀ i, (w.threads i).phase.openIds.Nodup
  apart : ∀ i j, i ≠ j → ∀ k ∈ (w.threads i).phase.openIds, k ∉ (w.threads j).phase.openIds

variable {k i : Nat} {sh sh' : Shared} {a : Action} {env : Nat → Tick} {s s' : Session}
  {d : Dispatch}

theorem Shared.committed_iff : sh.committed k = true ↔ ∃ c ∈ sh.log, c.tx = k := by
  simp [Shared.committed]

/-- What commits in a step is the transaction that the step closes. -/
theorem Moves.committed (h : Moves i env sh s a sh' s') (hnd : s.phase.openIds.Nodup) (hk : 0 < k)
    (hc : sh'.committed k = true) :
    sh.committed k = true ∨ k ∈ s.phase.openIds ∧ k ∉ s'.phase.openIds := by
  obtain ⟨c', hc', rfl⟩ := Shared.committed_iff.mp hc
  rcases h.mem_log hc' with ⟨c, hmem, hlater⟩ | hnew
  · exact .inl (Shared.committed_iff.mpr ⟨c, hmem, hlater.tx.symm⟩)
  · exact (hnew.closes hnd).elim (fun h0 => absurd h0 (by omega)) .inr

theorem Moves.nextTx_of_begin (h : Moves i env sh s a sh' s') (hp : s.phase = .begin d)
    (ha : a = .begin none) : sh.nextTx < sh'.nextTx := by
  cases h with
  | beginWatched | begin => exact Nat.lt_succ_self _
  | beginFailed => cases ha
  | _ => simp_all only [reduceCtorEq]

/-- The commit of a dispatch is the step that commits. -/
theorem Moves.commit_iff (h : Moves i env sh s a sh' s') {tx : Tx} {outcomes : List Outcome}
    (hp : s.phase = .commit d tx outcomes) :
    (a = .commit none ↔ s'.phase = .bump d sh.log.length outcomes) ∧
      (a = .commit none → sh'.committed tx.id = true) := by
  cases h with
  | commit d' tx' outcomes' hp' =>
    rw [hp] at hp'
    cases hp'
    exact ⟨by simp, fun _ => by simp [Shared.committed, Shared.commit, Shared.record]⟩
  | commitConflict d' tx' outcomes' =>
    simp [conflicted_phase]
  | commitFailed => simp
  | _ => simp_all only [reduceCtorEq]

theorem World.txIds (retryCount : Nat) {ok : World → Nat × Action × List Tick → Prop} {w : World}
    (h : World.Reached retryCount ok w) : w.TxIds := by
  refine Transition.Reach.inv ?_
    (fun st ia st' hinv hok hact => ?_) h
  · exact ⟨Nat.one_pos, by simp [World.init, Shared.init], by simp [World.init, Phase.openIds],
      by simp [World.init, Phase.openIds], by simp [World.init, Phase.openIds]⟩
  obtain ⟨hstep, hsame⟩ := act_eq_some hact
  obtain ⟨clock, -, -, hmoves⟩ := moves_of_sessionStep hstep
  have hgrows : st.shared.nextTx ≤ st'.shared.nextTx := hmoves.nextTx_le
  have own {k : Nat} (hk : k ∈ (st'.threads ia.1).phase.openIds) :
      k ∈ (st.threads ia.1).phase.openIds ∨
        k = st.shared.nextTx ∧ k < st'.shared.nextTx := hmoves.mem_openIds hk
  have closes {k : Nat} (hk : 0 < k) (hc : st'.shared.committed k = true) :
      st.shared.committed k = true ∨
        k ∈ (st.threads ia.1).phase.openIds ∧ k ∉ (st'.threads ia.1).phase.openIds :=
    hmoves.committed (hinv.nodup ia.1) hk hc
  have fresh : st.shared.committed st.shared.nextTx = false := by
    rw [Bool.eq_false_iff]
    intro hc
    obtain ⟨c, hc, htx⟩ := Shared.committed_iff.mp hc
    exact absurd (hinv.log c hc) (by omega)
  have notOpen (j : Nat) : st.shared.nextTx ∉ (st.threads j).phase.openIds :=
    fun hk => absurd (hinv.opened j _ hk).2.1 (by omega)
  refine ⟨Nat.lt_of_lt_of_le hinv.pos hgrows, fun c' hc' => ?_, fun j k hk => ?_, fun j => ?_,
    fun j j' hne k hk hk' => ?_⟩
  · refine Nat.lt_of_lt_of_le ?_ hgrows
    rcases hmoves.mem_log hc' with ⟨c, hmem, hlater⟩ | hnew
    · exact hlater.tx ▸ hinv.log c hmem
    · rcases hnew.closes (hinv.nodup ia.1) with h0 | ⟨hopen, -⟩
      · exact h0 ▸ hinv.pos
      · exact (hinv.opened _ _ hopen).2.1
  · by_cases hj : j = ia.1
    · subst hj
      rcases own hk with hold | ⟨rfl, hn⟩
      · obtain ⟨hpos, hlt, hno⟩ := hinv.opened _ k hold
        refine ⟨hpos, Nat.lt_of_lt_of_le hlt hgrows, Bool.eq_false_iff.mpr fun hc => ?_⟩
        rcases closes hpos hc with hc | ⟨-, hclosed⟩
        · rw [hno] at hc
          cases hc
        · exact hclosed hk
      · refine ⟨hinv.pos, hn, Bool.eq_false_iff.mpr fun hc => ?_⟩
        rcases closes hinv.pos hc with hc | ⟨hopen, -⟩
        · rw [fresh] at hc
          cases hc
        · exact notOpen _ hopen
    · rw [hsame j hj] at hk
      obtain ⟨hpos, hlt, hno⟩ := hinv.opened j k hk
      refine ⟨hpos, Nat.lt_of_lt_of_le hlt hgrows, Bool.eq_false_iff.mpr fun hc => ?_⟩
      rcases closes hpos hc with hc | ⟨hopen, -⟩
      · rw [hno] at hc
        cases hc
      · exact hinv.apart _ _ hj k hk hopen
  · by_cases hj : j = ia.1
    · subst hj
      cases hmoves.openIds with
      | fewer hn hs => exact hs.nodup (hinv.nodup _)
      | more hn hs =>
        rw [hs, List.nodup_append]
        refine ⟨hinv.nodup _, by simp, fun k hk k' hk' => ?_⟩
        rw [List.mem_singleton.mp hk']
        rintro rfl
        exact notOpen _ hk
    · rw [hsame j hj]
      exact hinv.nodup j
  · by_cases hj : j = ia.1
    · subst hj
      rw [hsame j' (Ne.symm hne)] at hk'
      rcases own hk with hold | ⟨rfl, -⟩
      · exact hinv.apart _ _ hne k hold hk'
      · exact notOpen _ hk'
    · rw [hsame j hj] at hk
      by_cases hj' : j' = ia.1
      · subst hj'
        rcases own hk' with hold | ⟨rfl, -⟩
        · exact hinv.apart _ _ hne k hk hold
        · exact notOpen _ hk
      · rw [hsame j' hj'] at hk'
        exact hinv.apart _ _ hne k hk hk'

end Invar
