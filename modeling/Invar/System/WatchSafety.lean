import Invar.System.Effects

/-!
# What `WATCH` guards against

`EXEC` compares, for each watched key, the version and the existence recorded by
`WATCH` with those it finds after it has begun its transaction, and the flush
epoch as a whole. A write of another session is noticed when the bump that
follows its commit reaches the key and has happened by then. There are four ways
in which it is missed:

* the writing op does not name the key (`EVAL` names none, a blocking pop commits
  without a bump, a flush issued by a script does not bump the epoch);
* the `EXEC` begins after the commit and compares before the bump;
* a second `WATCH` of the key (or, for the epoch, of any key) after the write
  records the new version in place of the old one;
* a command outside `MULTI` loses a conflict, which clears the watch set.

In runs without these, the snapshot of a committed `EXEC` holds no write to a
watched key by another session since the key was first watched.
-/

namespace Invar

open StoreProg Session Interleaving

/-- No committed `EXEC` has in its snapshot a commit of another session that wrote
a watched key after that key was first watched. -/
def WatchSafe (w : World) : Prop :=
  ∀ c ∈ w.shared.log, ∀ f ∈ c.watch, ∀ c' ∈ (w.shared.log.take c.start).drop f.2,
    c'.session = c.session ∨ c'.wrote f.1 = false

instance : DecidablePred WatchSafe := fun w =>
  inferInstanceAs (Decidable (∀ c ∈ w.shared.log, ∀ f ∈ c.watch,
    ∀ c' ∈ (w.shared.log.take c.start).drop f.2, c'.session = c.session ∨ c'.wrote f.1 = false))

/-! ## The condition -/

/-- A `WATCH` of a key that the session watches already finds the version that is
recorded. -/
def Session.rewatchesUnchanged (sh : Shared) (s : Session) (k : Bytes) : Bool :=
  s.firstWatch.all (fun f => fromUtf8Lossy f.1 != fromUtf8Lossy k) ||
    s.watched.any fun e =>
      e.key == fromUtf8Lossy k && e.version == sh.registry.getVersion (fromUtf8Lossy k)

/-- The watch set still holds every key watched since the last `EXEC`, `DISCARD` or
`UNWATCH`. -/
def Session.holdsWatches (s : Session) : Bool :=
  s.firstWatch.all fun f => s.watched.any (·.key == fromUtf8Lossy f.1)

/-- The writes of other sessions to a key since it was first watched were made by
ops that name it, and their bumps have happened. -/
def Session.writesAnnounced (i : Nat) (sh : Shared) (s : Session) : Bool :=
  s.firstWatch.all fun f => (sh.log.drop f.2).all fun c =>
    c.session == i || !c.wrote f.1 || (c.announced && c.covers f.1)

def noticesWrites (w : World) (a : Nat × Action × List Tick) : Bool :=
  let s := w.threads a.1
  match a.2.1, s.phase with
  | .watch _, .idle =>
    s.firstWatch.isEmpty || s.watchFlushEpoch == w.shared.registry.flushEpoch
  | .watchKey, .watchKeys _ (k :: _) => s.rewatchesUnchanged w.shared k
  | .begin none, .begin d => !d.batch || (s.holdsWatches && s.writesAnnounced a.1 w.shared)
  | _, _ => true

/-! ## Versions only grow -/

namespace WatchRegistry

/-- The versions and the epoch of `r'` are not below those of `r`. -/
structure VersionsLe (r r' : WatchRegistry) : Prop where
  version : ∀ k, r.getVersion k ≤ r'.getVersion k
  epoch : r.flushEpoch ≤ r'.flushEpoch

theorem VersionsLe.of_eq {r r' : WatchRegistry} (hv : r'.writeVersions = r.writeVersions)
    (he : r'.flushEpoch = r.flushEpoch) : r.VersionsLe r' :=
  ⟨fun k => by simp [getVersion, hv], he ▸ Nat.le_refl _⟩

theorem bumpVersions_le (r : WatchRegistry) (keys : List Bytes) (k : Bytes) :
    r.getVersion k ≤ (r.bumpVersions keys).getVersion k := by
  simp only [getVersion, bumpVersions]
  generalize r.writeVersions = m
  induction keys generalizing m with
  | nil => exact Nat.le_refl _
  | cons key keys ih =>
    refine Nat.le_trans ?_ (ih _)
    by_cases h : k = key
    · subst h; simp
    · simp [h]

theorem bumpVersions_lt (r : WatchRegistry) {keys : List Bytes} {k : Bytes} (hk : k ∈ keys) :
    r.getVersion k < (r.bumpVersions keys).getVersion k := by
  obtain ⟨before, after, rfl⟩ := List.append_of_mem hk
  -- the keys before `k` and after it do not lower its version, `k` itself raises it
  have hafter := bumpVersions_le (r.bumpVersions (before ++ [k])) after k
  have hbefore := bumpVersions_le r before k
  have happend : (r.bumpVersions (before ++ [k])).bumpVersions after =
      r.bumpVersions (before ++ k :: after) := by
    simp [bumpVersions, List.foldl_append]
  have hself : (r.bumpVersions (before ++ [k])).getVersion k =
      (r.bumpVersions before).getVersion k + 1 := by
    simp [bumpVersions, getVersion, List.foldl_append]
  rw [happend] at hafter
  omega

theorem wakeStreamWaiters_versions (r : WatchRegistry) (key : Bytes) :
    (r.wakeStreamWaiters key).writeVersions = r.writeVersions ∧
      (r.wakeStreamWaiters key).flushEpoch = r.flushEpoch := by
  unfold wakeStreamWaiters
  generalize (r.waiters key).filter _ = ws
  induction ws generalizing r with
  | nil => exact ⟨rfl, rfl⟩
  | cons w ws ih => exact ih (wakeStreamWaiter key r w)

theorem wake_versions (r : WatchRegistry) (c : Claim) : r.VersionsLe (r.wake c) := by
  unfold wake
  split
  · exact .of_eq (r.wakeStreamWaiters_versions _).1 (r.wakeStreamWaiters_versions _).2
  · exact .of_eq rfl rfl

theorem releaseFront_versions (r : WatchRegistry) (c : Claim) :
    r.VersionsLe (r.releaseFront c) := by
  unfold releaseFront
  split <;> exact .of_eq rfl rfl

theorem tryClaim_versions {r r' : WatchRegistry} {k : Bytes} {c : Claim}
    (h : r.tryClaim k = some (c, r')) :
    r'.writeVersions = r.writeVersions ∧ r'.flushEpoch = r.flushEpoch := by
  unfold tryClaim at h
  split at h
  · cases h
  · cases h
    exact ⟨rfl, rfl⟩

end WatchRegistry

variable {i j n m : Nat} {env : Nat → Tick} {sh sh' : Shared} {s s' t t' : Session} {a : Action}
  {d : Dispatch} {tx tx' : Tx} {r : OpRun} {out : Outcome}

theorem Performs.versions {op : AtomicOp} (h : Performs i env tx sh op out tx' sh') :
    sh.registry.VersionsLe sh'.registry := by
  cases h with
  | zaddPopFailed op r w c reg e hr hw hadd hc =>
    obtain ⟨hv, he⟩ := WatchRegistry.tryClaim_versions hc
    have hle := reg.releaseFront_versions c
    exact ⟨fun k => by simpa [WatchRegistry.getVersion, hv] using hle.version k,
      he ▸ hle.epoch⟩
  | zaddClaimed op r w c reg m hr hw hadd hc =>
    obtain ⟨hv, he⟩ := WatchRegistry.tryClaim_versions hc
    exact .of_eq hv he
  | _ => exact .of_eq rfl rfl

theorem Moves.versions (h : Moves i env sh s a sh' s') : sh.registry.VersionsLe sh'.registry := by
  cases h with
  | bump => exact ⟨sh.registry.bumpVersions_le _, Nat.le_refl _⟩
  | bumpEpoch => exact ⟨fun _ => Nat.le_refl _, Nat.le_succ _⟩
  | wake d c | wireWake r c => exact sh.registry.wake_versions c
  | release c | giveBack r c => exact sh.registry.releaseFront_versions c
  | atomic r op => exact (performs i env r.tx sh op).versions
  | _ => exact .of_eq rfl rfl

/-! ## The invariant -/

/-- No commit of another session from `f.2` on and before `n` wrote the key `f.1`. -/
def Shared.CleanSince (sh : Shared) (i : Nat) (f : Bytes × Nat) (n : Nat) : Prop :=
  ∀ m c, f.2 ≤ m → m < n → sh.log[m]? = some c → c.session = i ∨ c.wrote f.1 = false

/-- What the recorded versions say: an announced commit since the first `WATCH` of a
key, if it covers the key, has raised its version or the epoch. -/
structure Session.Watches (sh : Shared) (s : Session) : Prop where
  epoch : s.watchFlushEpoch ≤ sh.registry.flushEpoch
  version : ∀ e ∈ s.watched, e.version ≤ sh.registry.getVersion e.key
  noticed : ∀ f ∈ s.firstWatch, ∀ e ∈ s.watched, e.key = fromUtf8Lossy f.1 →
    ∀ m c, f.2 ≤ m → sh.log[m]? = some c → c.announced = true → c.covers f.1 = true →
      e.version < sh.registry.getVersion e.key ∨ s.watchFlushEpoch < sh.registry.flushEpoch

/-- What the checks of an `EXEC` have established so far. -/
def Session.Checked (i : Nat) (sh : Shared) (s : Session) : Prop :=
  match s.phase with
  | .checkEpoch _ tx =>
    tx.start ≤ sh.log.length ∧ s.holdsWatches = true ∧
      ∀ f ∈ s.firstWatch, ∀ m c, f.2 ≤ m → m < tx.start → sh.log[m]? = some c →
        c.session = i ∨ c.wrote f.1 = false ∨ (c.announced = true ∧ c.covers f.1 = true)
  | .checkKeys _ tx todo =>
    tx.start ≤ sh.log.length ∧ ∀ f ∈ s.firstWatch, sh.CleanSince i f tx.start ∨
      ((∃ e ∈ todo, e.key = fromUtf8Lossy f.1) ∧
        ∀ e ∈ todo, e.key = fromUtf8Lossy f.1 → e.version < sh.registry.getVersion e.key)
  | .ops r _ => r.dispatch.batch = true →
    r.tx.start ≤ sh.log.length ∧ ∀ f ∈ s.firstWatch, sh.CleanSince i f r.tx.start
  | .commit d tx _ => d.batch = true →
    tx.start ≤ sh.log.length ∧ ∀ f ∈ s.firstWatch, sh.CleanSince i f tx.start
  | .bump _ n _ => n < sh.log.length ∧
    ∀ c, sh.log[n]? = some c → ∀ k, c.covers k = true → fromUtf8Lossy k ∈ s.changedKeys
  | _ => True

theorem Shared.CleanSince.grows {f : Bytes × Nat} (h : sh.CleanSince i f n) (hlog : sh.LogGrows sh')
    (hn : n ≤ sh.log.length) : sh'.CleanSince i f n := by
  intro m c' hfm hmn hc'
  obtain ⟨c, hc, hlater⟩ := hlog.back (Nat.lt_of_lt_of_le hmn hn) hc'
  rw [hlater.session, hlater.wrote]
  exact h m c hfm hmn hc

/-- The checks of a session stand while others move. -/
theorem Session.Checked.grows (h : s.Checked i sh) (hlog : sh.LogGrows sh')
    (hver : sh.registry.VersionsLe sh'.registry) : s.Checked i sh' := by
  unfold Checked at h ⊢
  split at h
  · obtain ⟨hlen, hheld, hann⟩ := h
    refine ⟨Nat.le_trans hlen hlog.length, hheld, fun f hf m c' hfm hm hc' => ?_⟩
    obtain ⟨c, hc, hlater⟩ := hlog.back (Nat.lt_of_lt_of_le hm hlen) hc'
    rw [hlater.session, hlater.wrote, hlater.covers]
    exact (hann f hf m c hfm hm hc).imp_right (.imp_right (.imp_left hlater.announced))
  · obtain ⟨hlen, hkeys⟩ := h
    refine ⟨Nat.le_trans hlen hlog.length, fun f hf => ?_⟩
    refine (hkeys f hf).imp (·.grows hlog hlen) (.imp_right fun hlt e he hk => ?_)
    exact Nat.lt_of_lt_of_le (hlt e he hk) (hver.version e.key)
  · intro hb
    obtain ⟨hlen, hclean⟩ := h hb
    exact ⟨Nat.le_trans hlen hlog.length, fun f hf => (hclean f hf).grows hlog hlen⟩
  · intro hb
    obtain ⟨hlen, hclean⟩ := h hb
    exact ⟨Nat.le_trans hlen hlog.length, fun f hf => (hclean f hf).grows hlog hlen⟩
  · obtain ⟨hlen, hcov⟩ := h
    refine ⟨Nat.lt_of_lt_of_le hlen hlog.length, fun c' hc' => ?_⟩
    obtain ⟨c, hc, hlater⟩ := hlog.back hlen hc'
    rw [hlater.covers]
    exact hcov c hc
  · trivial

/-! ## One step -/

/-- How a commit gets announced: by a bump that reaches every key it covers, or by a
bump of the epoch. -/
theorem Moves.announced (h : Moves j env sh t a sh' t') (ht : t.Checked j sh) {c' : Commit}
    (hc' : sh'.log[m]? = some c') (ha : c'.announced = true) :
    (∃ c, sh.log[m]? = some c ∧ c.announced = true ∧ c.Later c') ∨
    (∀ k, c'.covers k = true → sh.registry.getVersion (fromUtf8Lossy k) <
      sh'.registry.getVersion (fromUtf8Lossy k)) ∨
    sh.registry.flushEpoch < sh'.registry.flushEpoch := by
  have appended {new : Commit} (hn : new.announced = false)
      (hc' : (sh.log ++ [new])[m]? = some c') :
      ∃ c, sh.log[m]? = some c ∧ c.announced = true ∧ c.Later c' := by
    by_cases hm : m < sh.log.length
    · rw [List.getElem?_append_left hm] at hc'
      exact ⟨c', hc', ha, .refl c'⟩
    · rw [List.getElem?_append_right (Nat.le_of_not_lt hm)] at hc'
      have hmem := List.mem_of_getElem? hc'
      simp only [List.mem_singleton] at hmem
      simp [hmem, hn] at ha
  have same (hc' : sh.log[m]? = some c') :
      ∃ c, sh.log[m]? = some c ∧ c.announced = true ∧ c.Later c' := ⟨c', hc', ha, .refl c'⟩
  cases h with
  | commit | bzpopCommit | flushRows => exact .inl (appended rfl hc')
  | bump d n outcomes hp =>
    unfold Checked at ht
    rw [hp] at ht
    simp only [Shared.announce, List.getElem?_mapIdx, Option.map_eq_some_iff, beq_iff_eq] at hc'
    obtain ⟨c, hc, rfl⟩ := hc'
    by_cases hmn : m = n
    · subst hmn
      refine .inr (.inl fun k hk => sh.registry.bumpVersions_lt (ht.2 c hc k ?_))
      simpa using hk
    · rw [if_neg hmn] at ha ⊢
      exact .inl ⟨c, hc, ha, .refl c⟩
  | bumpEpoch => exact .inr (.inr (Nat.lt_succ_self _))
  | atomic r op => exact .inl (same ((performs j env r.tx sh op).log.1 ▸ hc'))
  | _ => exact .inl (same hc')

/-- The records of `s'` are among those of `s`. -/
structure Session.WatchLe (s s' : Session) : Prop where
  first : ∀ f ∈ s'.firstWatch, f ∈ s.firstWatch
  watched : ∀ e ∈ s'.watched, e ∈ s.watched
  epoch : s'.watchFlushEpoch = s.watchFlushEpoch

theorem Session.WatchLe.refl (s : Session) : s.WatchLe s := ⟨fun _ => id, fun _ => id, rfl⟩

theorem Session.finish_watchLe (s : Session) (batch clearWatch : Bool) :
    s.WatchLe (s.finish batch clearWatch) := by
  refine ⟨fun f hf => ?_, fun e he => ?_, rfl⟩
  · unfold finish at hf
    cases batch <;> simp_all
  · unfold finish at he
    cases clearWatch <;> simp_all

theorem Session.WatchLe.withPhase (h : s.WatchLe s') (phase : Phase) :
    s.WatchLe { s' with phase } := ⟨h.first, h.watched, h.epoch⟩

theorem Session.abandon_watchLe (s : Session) (d : Dispatch) (clearWatch : Bool)
    (claims : List Claim) : s.WatchLe (s.abandon d clearWatch claims) :=
  (s.finish_watchLe d.batch clearWatch).withPhase _

theorem Session.conflicted_watchLe (s : Session) (d : Dispatch) (claims : List Claim) :
    s.WatchLe (s.conflicted d claims) := by
  unfold conflicted
  split
  · exact s.abandon_watchLe d true claims
  · split
    · exact ⟨fun _ => id, fun _ => id, rfl⟩
    · exact s.abandon_watchLe d false claims

theorem Session.dispatch_watchLe (s : Session) (batch flush : Bool) :
    s.WatchLe (s.dispatch batch flush) := by
  unfold dispatch
  split
  · exact ⟨(s.finish_watchLe true true).first, (s.finish_watchLe true true).watched, rfl⟩
  · split
    · exact s.finish_watchLe batch false
    · exact ⟨fun _ => id, fun _ => id, rfl⟩

theorem Completes.watchLe (h : Completes s r out s') : s.WatchLe s' := by
  cases h with
  | conflict => exact s.conflicted_watchLe _ _
  | abandon => exact s.abandon_watchLe _ _ _
  | _ => exact ⟨fun _ => id, fun _ => id, rfl⟩

/-- What is recorded stays right when any session moves. -/
theorem Session.Watches.step (hs : s.Watches sh) (h : Moves j env sh t a sh' t')
    (ht : t.Checked j sh) (hle : s.WatchLe s') : s'.Watches sh' := by
  have hver := h.versions
  refine ⟨?_, fun e he => ?_, fun f hf e he hkey m c' hfm hc' ha hcov => ?_⟩
  · rw [hle.epoch]
    exact Nat.le_trans hs.epoch hver.epoch
  · exact Nat.le_trans (hs.version e (hle.watched e he)) (hver.version e.key)
  · have hold := hs.version e (hle.watched e he)
    rw [hle.epoch]
    rcases h.announced ht hc' ha with ⟨c, hc, hac, hlater⟩ | hbump | hepoch
    · have hcov' : c.covers f.1 = true := hlater.covers ▸ hcov
      rcases hs.noticed f (hle.first f hf) e (hle.watched e he) hkey m c hfm hc hac hcov' with
        hlt | hlt
      · exact .inl (Nat.lt_of_lt_of_le hlt (hver.version e.key))
      · exact .inr (Nat.lt_of_lt_of_le hlt hver.epoch)
    · have := hbump f.1 hcov
      rw [← hkey] at this
      exact .inl (Nat.lt_of_le_of_lt hold this)
    · exact .inr (Nat.lt_of_le_of_lt hs.epoch hepoch)

theorem Session.Watches.watchKey (hs : s.Watches sh) {k : Bytes}
    (hok : s.rewatchesUnchanged sh k = true) (existed : Bool) (phase : Phase) :
    { s.recordWatch ⟨fromUtf8Lossy k, sh.registry.getVersion (fromUtf8Lossy k), existed⟩ with
      phase
      firstWatch :=
        if s.firstWatch.any (·.1 == k) then s.firstWatch
        else (k, sh.log.length) :: s.firstWatch }.Watches sh := by
  refine ⟨hs.epoch, fun e he => ?_, fun f hf e he hkey m c hfm hc ha hcov => ?_⟩
  · rcases List.mem_cons.mp he with rfl | he
    · exact Nat.le_refl _
    · exact hs.version e (List.mem_filter.mp he).1
  · have hf : f = (k, sh.log.length) ∨ f ∈ s.firstWatch := by
      split at hf
      · exact .inr hf
      · exact List.mem_cons.mp hf
    rcases hf with rfl | hf
    · -- nothing has been committed since
      exact absurd (List.getElem?_eq_some_iff.mp hc).1 (Nat.not_lt.mpr hfm)
    · rcases List.mem_cons.mp he with rfl | he
      · simp only [rewatchesUnchanged, Bool.or_eq_true, List.all_eq_true, List.any_eq_true,
          bne_iff_ne, Bool.and_eq_true, beq_iff_eq] at hok
        rcases hok with hnew | ⟨e, he, hek, hev⟩
        · exact absurd hkey.symm (hnew f hf)
        · rcases hs.noticed f hf e he (hek.trans hkey) m c hfm hc ha hcov with hlt | hlt
          · exact absurd hlt (by simp [hek, hev])
          · exact .inr hlt
      · exact hs.noticed f hf e (List.mem_filter.mp he).1 hkey m c hfm hc ha hcov

/-- The records of the session that moves. -/
theorem Moves.watches (h : Moves i env sh s a sh' s') (hs : s.Watches sh) (hch : s.Checked i sh)
    (hepoch : ∀ keys, a = .watch keys → s.phase = .idle → s.firstWatch = [] ∨
      s.watchFlushEpoch = sh.registry.flushEpoch) (hkeys : ∀ snapshot k rest, a = .watchKey →
      s.phase = .watchKeys snapshot (k :: rest) → s.rewatchesUnchanged sh k = true) :
    s'.Watches sh' := by
  have keep (hle : s.WatchLe s') : s'.Watches sh' := hs.step h hch hle
  cases h with
  | watch keys hp =>
    refine ⟨Nat.le_refl _, hs.version, fun f hf e he hkey m c hfm hc ha hcov => ?_⟩
    rcases hepoch keys rfl hp with hnil | heq
    · simp [hnil] at hf
    · have hnoticed := hs.noticed f hf e he hkey m c hfm hc ha hcov
      rwa [heq] at hnoticed
  | watchKey snapshot k rest existed hp =>
    exact hs.watchKey (hkeys snapshot k rest rfl hp) existed _
  | discard =>
    exact keep ⟨(s.finish_watchLe true true).first, (s.finish_watchLe true true).watched, rfl⟩
  | unwatch => exact keep ⟨by simp, by simp, rfl⟩
  | submit c => exact keep ⟨(dispatch_watchLe _ _ _).first, (dispatch_watchLe _ _ _).watched,
      (dispatch_watchLe { s with queue := _ } _ _).epoch⟩
  | exec => exact keep ⟨(dispatch_watchLe _ _ _).first, (dispatch_watchLe _ _ _).watched,
      (dispatch_watchLe { s with inMulti := false } _ _).epoch⟩
  | beginFailed | epochChanged | keyChanged | replied => exact keep (s.finish_watchLe _ _)
  | repliedFlush => exact keep ((s.finish_watchLe _ _).withPhase _)
  | begin d =>
    obtain ⟨phase, hn, heq⟩ := nextOp_eq s d (sh.begin d.isolation).1 []
    exact keep (heq ▸ ⟨fun _ => id, fun _ => id, rfl⟩)
  | keysChecked d tx =>
    obtain ⟨phase, hn, heq⟩ := nextOp_eq s d tx []
    exact keep (heq ▸ ⟨fun _ => id, fun _ => id, rfl⟩)
  | commitConflict d tx outcomes => exact keep (s.conflicted_watchLe _ _)
  | commitFailed => exact keep (s.abandon_watchLe _ _ _)
  | atomic | scriptDone | gaveBack | bzpopBeginFailed | bzpopError | bzpopCommit
  | bzpopCommitFailed | bzpopReceive | bzpopTimeout | xreadEnd | flushEnd =>
    exact keep (completes _ _ _).watchLe
  | _ => exact keep ⟨fun _ => id, fun _ => id, rfl⟩

theorem NextOp.checked {outcomes : List Outcome} {phase : Phase} (h : NextOp d tx outcomes phase)
    (hc : d.batch = true → tx.start ≤ sh.log.length ∧
      ∀ f ∈ s.firstWatch, sh.CleanSince i f tx.start) : { s with phase }.Checked i sh := by
  cases h <;> exact hc

theorem Completes.checked (h : Completes s r out s') (hc : r.dispatch.batch = true →
      r.tx.start ≤ sh.log.length ∧ ∀ f ∈ s.firstWatch, sh.CleanSince i f r.tx.start) :
    s'.Checked i sh := by
  cases h with
  | conflict =>
    simp [Checked, conflicted_phase]
  | abandon => trivial
  | next phase hf hn => exact hn.checked hc
  | called | raised => exact hc

/-- After the epoch has been compared, a write of another session to a watched key
shows in the version of that key. -/
theorem Session.Watches.epochKept (hs : s.Watches sh) (hp : s.phase = .checkEpoch d tx)
    (hch : s.Checked i sh) (he : sh.registry.flushEpoch = s.watchFlushEpoch) :
    { s with phase := .checkKeys d tx s.watched }.Checked i sh := by
  unfold Checked at hch
  rw [hp] at hch
  obtain ⟨hlen, hheld, hann⟩ := hch
  refine ⟨hlen, fun f hf => ?_⟩
  by_cases hclean : sh.CleanSince i f tx.start
  · exact .inl hclean
  · simp only [Shared.CleanSince, not_forall, not_or] at hclean
    obtain ⟨m, c, hfm, hm, hc, hforeign, hwrote⟩ := hclean
    have hseen : c.announced = true ∧ c.covers f.1 = true :=
      ((hann f hf m c hfm hm hc).resolve_left hforeign).resolve_left hwrote
    simp only [holdsWatches, List.all_eq_true, List.any_eq_true, beq_iff_eq] at hheld
    refine .inr ⟨hheld f hf, fun e hmem hkey => ?_⟩
    rcases hs.noticed f hf e hmem hkey m c hfm hc hseen.1 hseen.2 with hlt | hlt
    · exact hlt
    · exact absurd hlt (by simp [he])

theorem Session.Checked.keyKept {todo : List WatchedKey} {e : WatchedKey}
    (hp : s.phase = .checkKeys d tx todo) (hch : s.Checked i sh) (he : e ∈ todo)
    (hv : sh.registry.getVersion e.key = e.version) (hstart : tx'.start = tx.start) :
    { s with phase := .checkKeys d tx' (todo.filter (·.key ≠ e.key)) }.Checked i sh := by
  unfold Checked at hch
  rw [hp] at hch
  obtain ⟨hlen, hkeys⟩ := hch
  refine ⟨hstart ▸ hlen, fun f hf => ?_⟩
  rw [hstart]
  rcases hkeys f hf with hclean | ⟨⟨e', he', hkey⟩, hlt⟩
  · exact .inl hclean
  · have hne : e.key ≠ fromUtf8Lossy f.1 := fun heq => absurd (hlt e he heq) (by simp [hv])
    refine .inr ⟨⟨e', ?_, hkey⟩, fun e'' he'' => hlt e'' (List.mem_filter.mp he'').1⟩
    simp [he', hkey, hne.symm]

/-- The checks of the session that moves. -/
theorem Moves.checked (h : Moves i env sh s a sh' s') (hs : s.Watches sh) (hch : s.Checked i sh)
    (hbegin : ∀ d, a = .begin none → s.phase = .begin d → d.batch = true → s.holdsWatches = true ∧
      s.writesAnnounced i sh = true) : s'.Checked i sh' := by
  have hlog := h.logGrows
  have hver := h.versions
  -- the session goes on with its ops, after a step that left its transaction's start alone
  have ops {r r' : OpRun} {stage : Stage} (hp : s.phase = .ops r stage)
      (hd : r'.dispatch = r.dispatch) (ht : r'.tx.start = r.tx.start) :
      r'.dispatch.batch = true → r'.tx.start ≤ sh'.log.length ∧
        ∀ f ∈ s.firstWatch, sh'.CleanSince i f r'.tx.start := by
    have hch' := hch.grows hlog hver
    unfold Checked at hch'
    rw [hp] at hch'
    simpa only [hd, ht] using hch'
  cases h with
  | submit c =>
    rcases dispatch_phase { s with queue := s.queue ++ [c.prepare true] } false
        (c.prepare true).isFlush with hd | ⟨d, hd⟩ <;> simp only [Checked, hd]
  | exec =>
    rcases dispatch_phase { s with inMulti := false } true false with hd | ⟨d, hd⟩ <;>
      simp only [Checked, hd]
  | beginWatched d hp hb =>
    obtain ⟨hheld, hann⟩ := hbegin d rfl hp hb
    refine ⟨Nat.le_refl _, hheld, fun f hf m c hfm hm hc => ?_⟩
    simp only [writesAnnounced, List.all_eq_true, Bool.or_eq_true, Bool.and_eq_true, beq_iff_eq,
      Bool.not_eq_true', or_assoc] at hann
    refine hann f hf c (List.mem_of_getElem? (i := m - f.2) ?_)
    rw [List.getElem?_drop, Nat.add_sub_cancel' hfm]
    exact hc
  | begin d hp hw =>
    obtain ⟨phase, hn, heq⟩ := nextOp_eq s d (sh.begin d.isolation).1 []
    rw [heq]
    refine hn.checked fun hb => ⟨Nat.le_refl _, fun f hf => ?_⟩
    -- with an empty watch set nothing can have been watched
    have hheld := (hbegin d rfl hp hb).1
    simp only [holdsWatches, hw hb, List.any_nil, List.all_eq_true] at hheld
    exact absurd (hheld f hf) (by simp)
  | epochKept d tx hp he => exact hs.epochKept hp hch he
  | keyKept d tx todo e hp he hv => exact Checked.keyKept hp hch he hv rfl
  | keysChecked d tx key hp =>
    obtain ⟨phase, hn, heq⟩ := nextOp_eq s d tx []
    rw [heq]
    unfold Checked at hch
    rw [hp] at hch
    exact hn.checked fun _ => ⟨hch.1, fun f hf => (hch.2 f hf).resolve_right (by simp)⟩
  | commit d tx outcomes hp =>
    refine ⟨by simp [Shared.commit], fun c hc k hk => ?_⟩
    simp only [Shared.commit, List.getElem?_concat_length, Option.some.injEq] at hc
    show fromUtf8Lossy k ∈ s.changedKeys
    simpa [← hc, Shared.record] using hk
  | commitConflict d tx outcomes => simp only [Checked, conflicted_phase]
  | atomic r op hp =>
    exact (completes _ _ _).checked (ops hp rfl (performs i env r.tx sh op).ran.start)
  | scriptDone r _ _ hp | gaveBack r _ hp | bzpopBeginFailed r _ _ hp | bzpopError r _ _ _ hp
  | bzpopCommit r _ _ hp | bzpopCommitFailed r _ _ _ hp | bzpopReceive r _ _ _ hp
  | bzpopTimeout r _ _ hp | xreadEnd _ r _ _ _ hp | flushEnd _ r _ _ hp =>
    exact (completes _ _ _).checked (ops hp rfl rfl)
  | enter r _ hp | scriptFail r _ _ _ hp | scriptCall r _ _ _ hp | wireWake r _ _ _ _ hp
  | wireDone r _ _ hp | giveBack r _ _ _ hp | bzpopBegin r _ hp | bzpopEmpty r _ _ hp
  | bzpopFound r _ _ _ hp | bzpopRegister r _ hp | xreadRegister r _ hp | xreadBegin r _ _ hp
  | xreadPark r _ _ _ _ _ hp | xreadAgain r _ _ hp | xreadTimeout r _ _ hp
  | flushNext r _ _ hp =>
    exact ops hp rfl rfl
  | bzpopTimeoutClaimed | xreadTimeoutClaimed | flushRows => exact hch.grows hlog hver
  | refused _ hp | multi hp | spoiled _ hp | queued _ hp | unwatch hp => simp only [Checked, hp]
  | _ => trivial

/-! ## Runs -/

/-- The snapshots of the committed `EXEC`s hold no missed write. -/
def Shared.WatchesClean (sh : Shared) : Prop :=
  ∀ c ∈ sh.log, ∀ f ∈ c.watch, c.start ≤ sh.log.length ∧ sh.CleanSince c.session f c.start

theorem Moves.watchesClean (h : Moves i env sh s a sh' s') (hG : sh.WatchesClean)
    (hch : s.Checked i sh) : sh'.WatchesClean := by
  have hlog := h.logGrows
  have old {c c' : Commit} (hc : c ∈ sh.log) (hlater : c.Later c') : ∀ f ∈ c'.watch,
      c'.start ≤ sh'.log.length ∧ sh'.CleanSince c'.session f c'.start := by
    rw [hlater.watch, hlater.start, hlater.session]
    intro f hf
    obtain ⟨hlen, hclean⟩ := hG c hc f hf
    exact ⟨Nat.le_trans hlen hlog.length, hclean.grows hlog hlen⟩
  intro c' hc'
  rcases h.mem_log hc' with ⟨c, hc, hlater⟩ | new
  · exact old hc hlater
  cases new with
  | batch d tx outcomes hp _ heq =>
    subst heq
    unfold Checked at hch
    rw [hp] at hch
    intro f hf
    by_cases hb : d.batch = true
    · simp only [Shared.record, if_pos hb] at hf
      obtain ⟨hlen, hclean⟩ := hch hb
      exact ⟨Nat.le_trans hlen hlog.length, (hclean f hf).grows hlog hlen⟩
    · simp [Shared.record, hb] at hf
  | own _ _ _ _ _ heq =>
    subst heq
    simp [Shared.record]
  | flush _ _ _ _ _ hw => simp [hw]

/-- **In every run whose steps meet `noticesWrites`, no `EXEC` commits over a write
to a watched key that its snapshot holds.** -/
theorem watchSafe_of_reached (retryCount : Nat) {w : World}
    (h : World.Reached retryCount (fun w a => noticesWrites w a = true) w) : WatchSafe w := by
  have hinit (i : Nat) : ((World.init retryCount).threads i).Watches .init :=
    ⟨Nat.le_refl _, by simp [World.init], by simp [World.init]⟩
  have hclean : w.shared.WatchesClean := by
    refine (inv_of_threads (L := fun i sh s => s.Watches sh ∧ s.Checked i sh)
      ⟨by simp [World.init, Shared.init, Shared.WatchesClean], fun i => ⟨hinit i, trivial⟩⟩
      (fun st i a sh' s' hinv hok hstep => ?_)
      (fun st i a sh' s' hinv hok hstep j _ => ?_) h).shared
    · obtain ⟨clock, -, -, hmoves⟩ := moves_of_sessionStep hstep
      obtain ⟨hwatches, hchecked⟩ := hinv.thread i
      have hwatches' : (st.threads i).Watches { st.shared with clock } :=
        ⟨hwatches.epoch, hwatches.version, hwatches.noticed⟩
      refine ⟨hmoves.watchesClean hinv.shared hchecked,
        hmoves.watches hwatches' hchecked (fun keys ha hp => ?_) (fun snapshot k rest ha hp => ?_),
        hmoves.checked hwatches' hchecked fun d ha hp hb => ?_⟩
      · simpa [noticesWrites, ha, hp] using hok
      · have hk : (st.threads i).rewatchesUnchanged st.shared k = true := by
          simpa [noticesWrites, ha, hp] using hok
        exact hk
      · have hb' : (st.threads i).holdsWatches = true ∧
            (st.threads i).writesAnnounced i st.shared = true := by
          simpa [noticesWrites, ha, hp, hb] using hok
        exact hb'
    · obtain ⟨clock, -, -, hmoves⟩ := moves_of_sessionStep hstep
      obtain ⟨hwatches, hchecked⟩ := hinv.thread j
      have hwatches' : (st.threads j).Watches { st.shared with clock } :=
        ⟨hwatches.epoch, hwatches.version, hwatches.noticed⟩
      have hchecked' : (st.threads j).Checked j { st.shared with clock } := hchecked
      exact ⟨hwatches'.step hmoves (hinv.thread i).2 (.refl _),
        hchecked'.grows hmoves.logGrows hmoves.versions⟩
  intro c hc f hf c' hc'
  obtain ⟨m, hm⟩ := List.mem_iff_getElem?.mp hc'
  rw [List.getElem?_drop, List.getElem?_take, Option.ite_none_right_eq_some] at hm
  exact (hclean c hc f hf).2 (f.2 + m) c' (Nat.le_add_right _ _) hm.1 hm.2

/-! ## A guarded `EXEC`, and five that miss a write -/

/-- `ZADD z score member` by session `i`, up to its commit. -/
def addTo (i : Nat) (score member : String) : List (Nat × Action × List Tick) :=
  issue i (addToZ score member) 1 ++ [(i, .commit none, [])]

/-- The bump and the reply of `addTo`. -/
def announceAdd (i : Nat) : List (Nat × Action × List Tick) := [(i, .bump, []), (i, .reply, [])]

/-- `MULTI`, `ZADD z 9 y` and `EXEC` by session 1, up to the begin. -/
def execZ : List (Nat × Action × List Tick) :=
  [(1, .multi, []), (1, .submit (addToZ "9" "y"), []), (1, .exec, []), (1, .begin none, [])]

/-- The comparisons of that `EXEC`. -/
def execChecks : List (Nat × Action × List Tick) :=
  [(1, .checkEpoch, []), (1, .checkKey zKey, []), (1, .checkKey zKey, [])]

def execCommits : List (Nat × Action × List Tick) := runs 1 1 ++ [(1, .commit none, [])]

/-- `z` exists, session 1 watches it, something happens, and the `EXEC` goes through. -/
def execAround (before between : List (Nat × Action × List Tick)) :
    List (Nat × Action × List Tick) :=
  addTo 0 "1" "a" ++ announceAdd 0 ++ before ++ watchZ ++ between ++ execZ ++ execChecks ++
    execCommits

theorem watchSafe_execAround :
    ∃ w, Transition.run (Transition.guarded World.step noticesWrites) (World.init 16)
        (execAround [] []) = some w ∧
      w.shared.log.map (·.watch) = [[], [(zKey, 1)]] ∧ WatchSafe w := by
  have heval : (Transition.run (Transition.guarded World.step noticesWrites) (World.init 16)
      (execAround [] [])).any (fun w =>
        w.shared.log.map (·.watch) == [[], [(zKey, 1)]]) = true := by
    decide +kernel
  obtain ⟨w, hrun, hw⟩ := Transition.exists_of_run_any heval
  exact ⟨w, hrun, by simpa using hw,
    watchSafe_of_reached 16 (Transition.reach_of_run _ .start hrun)⟩

/-- Session 0 adds to `z` through a script. -/
def addByScript : List (Nat × Action × List Tick) :=
  issue 0 (.eval (.call (addToZ "2" "b") .done)) 5 ++ settle 0 0

/-- Session 0 pops from `z` with a blocking pop that finds a member at once. -/
def popByBlocking : List (Nat × Action × List Tick) :=
  issue 0 (.bzpop 0 [ascii "z"] none true) 1 ++ (0, .beginOwn none, []) :: runs 0 1 ++
    (0, .commitOwn none, []) :: settle 0 0

/-- Session 1 loses a conflict outside `MULTI`, on a key that it watches; its `EXEC`
then compares nothing. -/
def execAfterConflict : List (Nat × Action × List Tick) :=
  addTo 0 "1" "a" ++ announceAdd 0 ++ watchZ ++
    issue 1 (addToZ "3" "c") 1 ++ addTo 0 "2" "b" ++ announceAdd 0 ++
    [(1, .commit (some .conflict), []), (1, .release, [])] ++ execZ ++ execCommits

/-- `EXEC`s that commit over a write of session 0 to the watched key: one made by a
script, one made by a blocking pop, one whose bump is still to come, one followed by
a second `WATCH`, and one after a conflict that cleared the watch set. -/
theorem exec_misses_writes :
    List.Forall (fun run =>
      ∃ w, Transition.run World.step (World.init 16) run = some w ∧ ¬WatchSafe w)
      [execAround [] addByScript,
        execAround (addTo 0 "2" "b" ++ announceAdd 0) popByBlocking,
        execAround [] (addTo 0 "2" "b"),
        execAround [] (addTo 0 "2" "b" ++ announceAdd 0 ++ watchZ), execAfterConflict] := by
  rw [List.forall_iff_forall_mem]
  intro run hrun
  have heval : (Transition.run World.step (World.init 16) run).any
      (fun w => decide ¬WatchSafe w) = true := by
    revert hrun run
    decide +kernel
  simpa using Transition.exists_of_run_any heval

end Invar
