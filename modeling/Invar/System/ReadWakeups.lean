import Invar.Redis.StreamReads
import Invar.System.Ledger

/-!
# Readers that wait for a stream

A blocking `XREAD` registers, reads, and parks if it found nothing. An `XADD` leaves
a notification in its result, and after the commit the notification wakes the
readers that are registered. A reader that parks has therefore read a store without
newer entries, or it has been woken since, or the session that committed the entry
still holds the notification.

The notification gets lost when a script adds an entry, then fails, in a transaction
that commits all the same (`EXEC`). The signal that the `XADD` sent from inside the
script came before the commit, so a reader that it woke has read too early.
-/

namespace Invar

open StoreProg Session Interleaving Invar.Stream

/-! ## What it means -/

/-- The claim is a notification for the stream under `k`. -/
def Claim.notes (c : Claim) (k : Bytes) : Prop := c.notify = true ∧ c.waiter.keys.headD [] = k

/-- The transaction has committed and the notification for `k` is still to be sent. -/
def Phase.OwesNote (k : Bytes) : Phase → Prop
  | .bump _ _ outcomes => ∃ c ∈ outcomes.flatMap Outcome.claims, c.notes k
  | .reply _ claims => ∃ c ∈ claims, c.notes k
  | _ => False

/-- The waiter's channel has a value, or has lost its sender. -/
def Shared.signalled (sh : Shared) (v : Waiter) : Bool := (received sh v).isSome

/-- The session is idle, gone, or waits with nothing in its channel. -/
def Phase.quiet (sh : Shared) : Phase → Bool
  | .idle | .closed => true
  | .ops _ (.bzpopParked _ v) | .ops _ (.xreadParked _ v) => !sh.signalled v
  | _ => false

/-- No transaction and no wake is in flight. -/
def World.Quiet (w : World) : Prop := ∀ i, (w.threads i).phase.quiet w.shared = true

structure NoLostRead (w : World) : Prop where
  /-- A parked reader has resolved its ids, and is told of every newer entry. -/
  told : ∀ {j r x v}, (w.threads j).phase = .ops r (.xreadParked x v) →
    ∃ ids, x.ids = some ids ∧ ∀ p ∈ x.op.streams.zip ids, ∀ now ≥ w.shared.clock,
      HasNewer w.shared.store now p.1 p.2 →
        w.shared.signalled v = true ∨ ∃ i, (w.threads i).phase.OwesNote p.1.publicKey
  quiet : w.Quiet → ∀ {j r x v}, (w.threads j).phase = .ops r (.xreadParked x v) →
    ∃ ids, x.ids = some ids ∧ ∀ p ∈ x.op.streams.zip ids, ∀ now ≥ w.shared.clock,
      ¬HasNewer w.shared.store now p.1 p.2

/-! ## The condition on steps -/

/-- The keys that live `XREAD`s wait for. -/
def Shared.waitedStreams (sh : Shared) : List Bytes :=
  (List.range sh.registry.nextId).flatMap fun v =>
    match sh.registry.slots v with
    | some slot => if slot.receiver && slot.waiter.kind.isStream then slot.waiter.keys else []
    | none => []

def noted (claims : List Claim) : List Claim := claims.filter (·.notify)

/-- Keys that readers wait for are written by `XADD` alone, no `EVAL` of a script ends
with notifications, and no script fails that has any, unless its transaction is
abandoned with it. -/
def keepsNotes (w : World) (a : Nat × Action × List Tick) : Bool :=
  match a.2.1, (w.threads a.1).phase with
  | .run, .ops r .start =>
    match r.cmd.atomicOp? with
    | some (.zadd op) =>
      !op.adds (readings w.shared.clock a.2.2) r.tx ||
        (w.shared.registry.waiters op.node.publicKey).head?.all fun v => !v.kind.isStream
    | _ => true
  | .run, .ops r (.script (.fail _) deferred) =>
    (noted deferred).isEmpty || (r.frames.isEmpty && !r.dispatch.batch)
  | .run, .ops r (.script (.done _) deferred) => r.frames.isEmpty || (noted deferred).isEmpty
  | .commit none, .commit _ tx _ =>
    w.shared.waitedStreams.all fun k => tx.adds.contains k || !w.shared.writes tx k
  | .commitOwn none, .ops _ (.bzpopCommit own _) =>
    w.shared.waitedStreams.all fun k => !w.shared.writes own k
  | _, _ => true

/-- What `keepsNotes` says of the step. -/
structure KeepsNotes (env : Nat → Tick) (sh : Shared) (s : Session) (a : Action) : Prop where
  claims : ∀ r op, a = .run → s.phase = .ops r .start → r.cmd.atomicOp? = some (.zadd op) →
    op.adds env r.tx = true →
    ∀ v, (sh.registry.waiters op.node.publicKey).head? = some v → v.kind.isStream = false
  fails : ∀ r msg deferred, a = .run → s.phase = .ops r (.script (.fail msg) deferred) →
    noted deferred = [] ∨ r.frames = [] ∧ r.dispatch.batch = false
  ends : ∀ r reply deferred, a = .run → s.phase = .ops r (.script (.done reply) deferred) →
    r.frames = [] ∨ noted deferred = []
  commits : ∀ d tx outcomes, a = .commit none → s.phase = .commit d tx outcomes →
    ∀ k ∈ sh.waitedStreams, k ∈ tx.adds ∨ sh.writes tx k = false
  pops : ∀ r own p, a = .commitOwn none → s.phase = .ops r (.bzpopCommit own p) →
    ∀ k ∈ sh.waitedStreams, sh.writes own k = false

variable {w : World} {s s' : Session} {env : Nat → Tick} {out : Outcome}

theorem KeepsNotes.of_true {b : Nat × Action × List Tick} (h : keepsNotes w b = true) :
    KeepsNotes (readings w.shared.clock b.2.2) w.shared (w.threads b.1) b.2.1 := by
  unfold keepsNotes at h
  constructor
  · intro r op ha hp hop hadd v hv
    simpa [ha, hp, hop, hadd, hv] using h
  · intro r msg deferred ha hp
    simpa [ha, hp] using h
  · intro r reply deferred ha hp
    simpa [ha, hp] using h
  · intro d tx outcomes ha hp k hk
    simp only [ha, hp, List.all_eq_true, Bool.or_eq_true, List.contains_iff_mem,
      Bool.not_eq_true'] at h
    exact h k hk
  · intro r own p ha hp k hk
    simp only [ha, hp, List.all_eq_true, Bool.not_eq_true'] at h
    exact h k hk

/-! ## The notifications of a transaction -/

/-- The record of the streams that were added to. -/
def noteLedger : Ledger where
  counts c := c.notify
  Balanced tx claims := ∀ k ∈ tx.adds, ∃ c ∈ claims, c.notes k
  nil _ hadds := by simp [hadds]
  congr _ hadds h := by rwa [hadds]
  perm hc h k hk := by
    obtain ⟨c, hmem, hnote⟩ := h k hk
    exact ⟨c, hc.mem_iff.mpr hmem, hnote⟩

section

variable {i : Nat} {sh sh' : Shared} {a : Action}

variable {tx : Tx} {k : Bytes} {slot : Slot} {v : Waiter} {stream : XReadStream}

theorem Performs.noted {tx' : Tx} {op : AtomicOp} {claims : List Claim}
    (h : Performs i env tx sh op out tx' sh') (hb : noteLedger.Balanced tx (noteLedger.of claims)) :
    noteLedger.Balanced tx' (noteLedger.of (out.claims ++ claims)) := by
  have more (hadds : tx'.adds = tx.adds) :
      noteLedger.Balanced tx' (noteLedger.of (out.claims ++ claims)) := by
    intro k hk
    obtain ⟨c, hc, hnote⟩ := hb k (hadds ▸ hk)
    rw [Ledger.of_append]
    exact ⟨c, List.mem_append_right _ hc, hnote⟩
  cases h with
  | xadd op id =>
    intro k hk
    rw [Ledger.of_append]
    rcases List.mem_cons.mp hk with rfl | hk
    · exact ⟨_, List.mem_append_left _ List.mem_cons_self, rfl, rfl⟩
    · obtain ⟨c, hc, hnote⟩ := hb k hk
      exact ⟨c, List.mem_append_right _ hc, hnote⟩
  | _ => exact more rfl

theorem Moves.noteLedger (h : Moves i env sh s a sh' s') (hp : noteLedger.Keeps s.phase)
    (hok : KeepsNotes env sh s a) : Invar.noteLedger.Keeps s'.phase :=
  h.ledger hp ⟨hok.fails, hok.ends⟩ fun _ _ _ _ _ _ _ _ hrun hb => hrun.noted hb

/-- A notification that is owed stays so until it is sent. -/
theorem HandsOver.owesNote (h : HandsOver sh s sh' s') (hk : s.phase.OwesNote k) :
    s'.phase.OwesNote k ∨ sh'.registry = sh.registry.wakeStreamWaiters k := by
  cases h with
  | bump d n outcomes hph hph' =>
    rw [hph] at hk
    exact .inl (hph' ▸ hk)
  | wake d c rest hph hph' hr =>
    rw [hph] at hk
    obtain ⟨c', hmem, hnote⟩ := hk
    rcases List.mem_cons.mp hmem with rfl | hmem
    · refine .inr ?_
      rw [hr, WatchRegistry.wake, if_pos hnote.1, hnote.2]
    · exact .inl (hph' ▸ ⟨c', hmem, hnote⟩)
  | done d hph =>
    rw [hph] at hk
    obtain ⟨c, hmem, -⟩ := hk
    cases hmem

theorem Moves.owesNote (h : Moves i env sh s a sh' s') (hk : s.phase.OwesNote k) :
    s'.phase.OwesNote k ∨ sh'.registry = sh.registry.wakeStreamWaiters k := by
  refine (h.handsOver_cases ?_).owesNote hk
  cases hph : s.phase <;> rw [hph] at hk <;> first | rfl | exact hk.elim

/-! ## Signals -/

theorem Shared.signalled_iff (hs : sh.registry.slots v.id = some slot) :
    sh.signalled v = true ↔ slot.sent.isSome = true ∨ slot.sender = false := by
  unfold signalled received
  rw [hs]
  cases hsent : slot.sent with
  | some r => simp [hsent]
  | none => cases hsend : slot.sender <;> simp [hsent, hsend]

theorem Shared.slot_of_signalled (h : sh.signalled v = true) :
    ∃ slot, sh.registry.slots v.id = some slot := by
  unfold signalled received at h
  cases hs : sh.registry.slots v.id with
  | none => simp [hs] at h
  | some slot => exact ⟨slot, rfl⟩

/-- A signal stays. -/
theorem Handles.signalled (h : Handles i env sh s a sh' s') (hr : Registered sh.registry)
    (hv : sh.signalled v = true) : sh'.signalled v = true := by
  obtain ⟨slot, hslot⟩ := Shared.slot_of_signalled hv
  rcases h.slot hr v.id with ⟨hnone, -⟩ | ⟨f, hf, heffect⟩
  · rw [hslot] at hnone
    cases hnone
  · rw [hslot, Option.map_some] at hf
    rw [Shared.signalled_iff hslot] at hv
    rw [Shared.signalled_iff hf]
    rcases heffect.channel with hsame | ⟨result, -, hsend⟩
    · rwa [(hsame slot).1, (hsame slot).2]
    · exact .inr (hsend slot).2

/-- A notification signals the readers that stand in the queue. -/
theorem signalled_of_wake (hr : Registered sh.registry)
    (hreg : sh'.registry = sh.registry.wakeStreamWaiters k) (hv : v ∈ sh.registry.waiters k)
    (hstream : v.kind.isStream = true) : sh'.signalled v = true := by
  have hall := hr.wakeStreamWaiters k
  rw [← hreg] at hall
  obtain ⟨slot, -, -, hslot⟩ := hall.woken v (List.mem_filter.mpr ⟨hv, hstream⟩)
  exact (Shared.signalled_iff hslot).mpr (.inr rfl)

/-! ## Readers stand in their queues -/

/-- The claims of the session are not of readers, and the reader that it has
registered stands in its queues until it is signalled. -/
structure Session.ReadsQueued (sh : Shared) (s : Session) : Prop where
  claims : ∀ c ∈ held s.phase.claims, c.waiter.kind.isStream = false
  queued : ∀ v, s.phase.waiter? = some v → v.kind.isStream = true → ∀ k ∈ v.keys,
    v ∈ sh.registry.waiters k ∨ sh.signalled v = true

/-- The same in other words of the step: waiters of other kinds have other ids. -/
theorem Known.id_ne {r : WatchRegistry} {u : Waiter} (hu : Known r u) (hv : Known r v)
    (hkind : u.kind.isStream = false) (hstream : v.kind.isStream = true) : v.id ≠ u.id := by
  intro hid
  obtain ⟨slot, hslot, rfl⟩ := hu
  obtain ⟨slot', hslot', rfl⟩ := hv
  rw [hid, hslot, Option.some.injEq] at hslot'
  rw [← hslot', hkind] at hstream
  cases hstream

theorem Handles.claims_not_stream (h : Handles i env sh s a sh' s') (hq : s.ReadsQueued sh)
    (hok : KeepsNotes env sh s a) : ∀ c ∈ held s'.phase.claims, c.waiter.kind.isStream = false := by
  have fewer {cs : List Claim} (hc : (held s.phase.claims).Perm (cs ++ held s'.phase.claims)) :
      ∀ c ∈ held s'.phase.claims, c.waiter.kind.isStream = false :=
    fun c hmem => hq.claims c (hc.mem_iff.mpr (List.mem_append_right cs hmem))
  have same (hc : (held s'.phase.claims).Perm (held s.phase.claims)) :
      ∀ c ∈ held s'.phase.claims, c.waiter.kind.isStream = false :=
    fun c hmem => hq.claims c (hc.mem_iff.mp hmem)
  cases h with
  | nothing _ _ _ _ hc | register _ _ _ _ _ _ _ hc | unclaim _ _ _ _ _ _ _ _ _ _ hc
  | leave _ _ _ _ hc | timeout _ _ _ _ hc => exact same hc
  | timeoutClaimed _ _ _ _ heq => exact same (by rw [heq])
  | wake _ _ _ _ hc => exact fewer hc
  | release _ _ _ hc => exact fewer hc
  | claim r op c c' ha hp hop hcl hc' _ _ hc _ hadd =>
    intro d hd
    rcases List.mem_cons.mp (hc.mem_iff.mp hd) with rfl | hd
    · rw [hc']
      exact hok.claims r op ha hp hop hadd _ (WatchRegistry.tryClaim_front hcl).1
    · exact hq.claims d hd

/-- A reader stays in its queues until it is signalled, whoever moves. -/
theorem Handles.queued (h : Handles i env sh s a sh' s') (hr : Registered sh.registry)
    (hs : s.Registers sh) (hq : s.ReadsQueued sh) (hok : KeepsNotes env sh s a)
    (hv : Known sh.registry v) (hstream : v.kind.isStream = true)
    (hkeep : ∀ u, s.phase.waiter? = some u → u.id = v.id → u = v ∧ s'.phase.waiter? = some v)
      (hk : k ∈ v.keys) (hold : v ∈ sh.registry.waiters k ∨ sh.signalled v = true) :
    v ∈ sh'.registry.waiters k ∨ sh'.signalled v = true := by
  rcases hold with hmem | hsig
  case inr => exact .inr (h.signalled hr hsig)
  -- an operation on another waiter
  have other {u : Nat} (hsame : SameBut u sh.registry sh'.registry) (hne : v.id ≠ u) :
      v ∈ sh'.registry.waiters k ∨ sh'.signalled v = true := .inl ((hsame.mem hne).mpr hmem)
  have first {c : Claim} {cs : List Claim} (hn : c.notify = false)
      (hc : (held s.phase.claims).Perm (held [c] ++ cs)) : v.id ≠ c.waiter.id := by
    have hcm : c ∈ held s.phase.claims := hc.mem_iff.mpr (by simp [held, hn])
    exact (hs.claims c hcm).id_ne hv (hq.claims c hcm) hstream
  cases h with
  | nothing hw => exact .inl (hw ▸ hmem)
  | register keys kind r _ _ hreg =>
    obtain ⟨slot, hslot, -⟩ := hv
    exact other (.register hreg) (Nat.ne_of_lt (hr.lt_nextId hslot))
  | claim r op c c' ha hp hop hcl _ _ _ _ _ hadd =>
    have hkind := hok.claims r op ha hp hop hadd _ (WatchRegistry.tryClaim_front hcl).1
    exact other (.tryClaim hcl) ((hr.tryClaim hcl).1.id_ne hv hkind hstream)
  | unclaim r op c reg ha hp hop hcl hreg _ _ _ hadd =>
    have hkind := hok.claims r op ha hp hop hadd _ (WatchRegistry.tryClaim_front hcl).1
    have hsame := (SameBut.tryClaim hcl).trans (.releaseFront hreg)
    exact other hsame ((hr.tryClaim hcl).1.id_ne hv hkind hstream)
  | wake c hp hreg hh hc =>
    cases hn : c.notify with
    | true =>
      simp only [WatchRegistry.wake, hn, if_true] at hreg
      have hall := hr.wakeStreamWaiters (c.waiter.keys.headD [])
      rw [← hreg] at hall
      by_cases hw : v.id ∈ ((sh.registry.waiters (c.waiter.keys.headD [])).filter
          (·.kind.isStream)).map Waiter.id
      · obtain ⟨u, hu, hid⟩ := List.mem_map.mp hw
        obtain ⟨slot, -, -, hslot⟩ := hall.woken u hu
        rw [hid] at hslot
        exact .inr ((Shared.signalled_iff hslot).mpr (.inr rfl))
      · left
        rwa [← List.count_pos_iff, (hall.others v.id hw).2 k v rfl, List.count_pos_iff]
    | false =>
      exact other (.wake hn hreg) (first hn hc)
  | release c hreg hh hc =>
    cases hn : c.notify with
    | true =>
      simp only [WatchRegistry.releaseFront, hn, if_true] at hreg
      exact .inl (hreg ▸ hmem)
    | false =>
      exact other (.releaseFront hreg) (first hn hc)
  | leave w hp hreg _ _ hw =>
    refine other (.dropRegistration hreg) fun hid => ?_
    rw [(hkeep w hp hid.symm).2] at hw
    cases hw
  | timeout w hp hreg _ _ hw =>
    refine other (.timedOut hreg) fun hid => ?_
    rw [(hkeep w hp hid.symm).2] at hw
    cases hw
  | timeoutClaimed w hp hreg _ _ why =>
    refine other (.timeout hreg) fun hid => ?_
    -- the waiter would have been found in the queue
    obtain rfl := (hkeep w hp hid.symm).1
    simp only [WatchRegistry.timeout, WatchRegistry.removeWaiter, List.any_eq_false] at why
    exact why k hk (by simpa using ⟨w, hmem, rfl⟩)

/-! ## The store -/

theorem mem_waitedStreams (hr : Registered sh.registry) {v : Nat}
    (hs : sh.registry.slots v = some slot) (hrec : slot.receiver = true)
    (hstream : slot.waiter.kind.isStream = true) (hk : k ∈ slot.waiter.keys) :
    k ∈ sh.waitedStreams := by
  refine List.mem_flatMap.mpr ⟨v, List.mem_range.mpr (hr.lt_nextId hs), ?_⟩
  simp [hs, hrec, hstream, hk]

/-- A commit that writes no row of the stream adds no entry to it. -/
theorem noMore_of_not_writes (h : sh.writes tx stream.publicKey = false) :
    NoMore sh.store (tx.txn.applyTo sh.store) stream := by
  refine noMore_of_rows fun x row hown hx => ?_
  rw [Txn.getElem?_applyTo] at hx
  split at hx
  · rename_i hwritten
    simp only [Shared.writes, List.any_eq_false, Bool.or_eq_true, not_or] at h
    exact absurd hown (h x hwritten).2
  · exact hx

/-- A move adds no entry to a stream that a reader waits for, or the session owes the
notification. -/
theorem Moves.noMore (h : Moves i env sh s a sh' s') (hl : Invar.noteLedger.Keeps s.phase)
    (hok : KeepsNotes env sh s a) (hk : stream.publicKey ∈ sh.waitedStreams) :
    NoMore sh.store sh'.store stream ∨ s'.phase.OwesNote stream.publicKey := by
  cases h with
  | commit d tx outcomes hph =>
    rcases hok.commits d tx outcomes rfl hph _ hk with hadd | hno
    · rw [hph] at hl
      obtain ⟨c, hc, hnote⟩ := hl _ hadd
      exact .inr ⟨c, (List.mem_filter.mp hc).1, hnote⟩
    · exact .inl (noMore_of_not_writes hno)
  | bzpopCommit r own p hph => exact .inl (noMore_of_not_writes (hok.pops r own p rfl hph _ hk))
  | flushRows r todo removed => exact .inl (noMore_of_erased removed _ stream)
  | atomic r op =>
    have hstore : ((op.run i env r.tx sh).2.2).store = sh.store :=
      (performs i env r.tx sh op).log.2
    exact .inl (hstore ▸ .refl _ stream)
  | _ => exact .inl (.refl _ stream)

end

/-! ## Where a reader is -/

/-- The read of a round, or the wait after it. -/
def Phase.reads : Phase → Bool
  | .ops _ (.xreadRead ..) => true
  | .ops _ (.xreadParked ..) => true
  | _ => false

/-- How a move can leave the session in the read of a round or in the wait after it. -/
inductive Reads (env : Nat → Tick) (sh : Shared) (s : Session) (sh' : Shared) (s' : Session) : Prop
  | stays (hp : s'.phase = s.phase)
  | begins (r : OpRun) (x : XReadLoop) (v : Waiter)
      (hp' : s'.phase = .ops r (.xreadRead x v sh.store)) (hs : sh'.store = sh.store)
  | parks (r : OpRun) (x : XReadLoop) (v : Waiter) (snapshot : Store)
      (ids : List (Option StreamEntryId)) (found : List (Bytes × List StreamEntry))
      (hp : s.phase = .ops r (.xreadRead x v snapshot))
      (hr : (StoreProg.exec (xreadRound x) env { view := snapshot }).out = .ok (ids, found))
      (hf : found.any (fun e => !e.2.isEmpty) = false)
      (hp' : s'.phase = .ops r (.xreadParked { x with ids := some ids, announced := true } v))

theorem Completes.reads {r : OpRun} (h : Completes s r out s') : s'.phase.reads = false := by
  cases h with
  | conflict =>
    rw [conflicted_phase]
    rfl
  | next phase hf hn => cases hn <;> rfl
  | _ => rfl

theorem Moves.reads {i : Nat} {sh sh' : Shared} {a : Action}
    (h : Moves i env sh s a sh' s') : s'.phase.reads = false ∨ Reads env sh s sh' s' := by
  have next (d : Dispatch) (tx : Tx) : (s.nextOp d tx []).phase.reads = false := by
    obtain ⟨phase, hn, heq⟩ := nextOp_eq s d tx []
    rw [heq]
    cases hn <;> rfl
  cases h with
  | submit | exec => exact .inl (of_dispatch (P := (·.reads = false)) rfl fun _ => rfl)
  | begin | keysChecked => exact .inl (next _ _)
  | commitConflict d tx outcomes =>
    exact .inl (by rw [conflicted_phase]; rfl)
  | enter r stage hph hst =>
    left
    unfold Command.firstStage? at hst
    split at hst <;> cases hst <;> rfl
  | xreadBegin r x v => exact .inr (.begins r x v rfl rfl)
  | xreadPark r x v snapshot ids found hph hr hf =>
    exact .inr (.parks r x v snapshot ids found hph hr hf rfl)
  | atomic | scriptDone | gaveBack | bzpopBeginFailed | bzpopError | bzpopCommit
  | bzpopCommitFailed | bzpopReceive | bzpopTimeout | xreadEnd | flushEnd =>
    exact .inl (completes _ _ _).reads
  | refused | multi | spoiled | queued | unwatch | bzpopTimeoutClaimed | xreadTimeoutClaimed
  | flushRows => exact .inr (.stays rfl)
  | _ => exact .inl rfl

/-! ## What covers a reader -/

/-- The store is as the reader needs it, or the reader has been signalled, or some
session owes the notification. -/
def World.Covered (w : World) (v : Waiter) (k : Bytes) (fine : Prop) : Prop :=
  fine ∨ w.shared.signalled v = true ∨ ∃ i, (w.threads i).phase.OwesNote k

/-- What is known of every state, beside the coverage of readers. -/
structure World.ReadBasis (w : World) : Prop where
  registered : Holds (fun sh => Registered sh.registry) (fun _ sh s => s.Registers sh) w
  owned : w.Owned
  queued : ∀ i, (w.threads i).ReadsQueued w.shared
  ledger : ∀ i, noteLedger.Keeps (w.threads i).phase

theorem World.readBasis (retryCount : Nat)
    (h : World.Reached retryCount (fun w a => keepsNotes w a = true) w) : w.ReadBasis := by
  refine ⟨World.registered retryCount h, World.owned retryCount h, ?_, ?_⟩
  · refine Transition.Reach.inv_with
      (I := fun st : World => ∀ i, (st.threads i).ReadsQueued st.shared) (J := fun st : World =>
      Holds (fun sh => Registered sh.registry) (fun _ sh s => s.Registers sh) st ∧ st.Owned)
      (fun st hst => ⟨World.registered retryCount hst, World.owned retryCount hst⟩)
      (fun i => ⟨by simp [World.init, Phase.claims], by simp [World.init, Phase.waiter?]⟩)
      (fun st ia st' hJ hinv hok hact => ?_) h
    obtain ⟨hreg, howned⟩ := hJ
    obtain ⟨hstep, hsame⟩ := act_eq_some hact
    obtain ⟨clock, -, -, hmoves⟩ := moves_of_sessionStep hstep
    have hs : (st.threads ia.1).Registers { st.shared with clock } :=
      ⟨(hreg.thread ia.1).fits, (hreg.thread ia.1).waiter, (hreg.thread ia.1).claims⟩
    have hq : (st.threads ia.1).ReadsQueued { st.shared with clock } :=
      ⟨(hinv ia.1).claims, (hinv ia.1).queued⟩
    have hh := handles hmoves hs.fits
    have hok' : KeepsNotes (readings st.shared.clock ia.2.2) { st.shared with clock }
        (st.threads ia.1) ia.2.1 :=
      have hc := KeepsNotes.of_true hok
      ⟨hc.claims, hc.fails, hc.ends, hc.commits, hc.pops⟩
    intro i
    by_cases hi : i = ia.1
    · subst hi
      refine ⟨hh.claims_not_stream hq hok', fun v hv hstream k hk => ?_⟩
      by_cases hold : (st.threads ia.1).phase.waiter? = some v
      · refine hh.queued hreg.shared hs hq hok' (hs.waiter v hold) hstream (fun u hu _ => ?_) hk
          (hq.queued v hold hstream k hk)
        rw [hold, Option.some.injEq] at hu
        exact ⟨hu.symm, hv⟩
      · obtain ⟨keys, kind, rfl, hnew⟩ := (hh.waiter_new hv).resolve_left hold
        rw [hnew]
        exact .inl (KeyedQueues.mem_pushBack.mpr (.inr ⟨hk, rfl⟩))
    · rw [hsame i hi]
      refine ⟨(hinv i).claims, fun v hv hstream k hk => ?_⟩
      refine hh.queued hreg.shared hs hq hok' ((hreg.thread i).waiter v hv) hstream
        (fun u hu hid => ?_) hk ((hinv i).queued v hv hstream k hk)
      exact absurd hid.symm (howned.distinct hi hv hu)
  · have h0 : Holds (fun _ : Shared => True) (fun _ _ (s : Session) => noteLedger.Keeps s.phase)
        (World.init retryCount) := ⟨trivial, fun _ => trivial⟩
    refine (inv_of_threads h0 (fun st i a sh' s' hinv hok hstep => ?_)
      (fun st i a sh' s' hinv hok hstep j _ => hinv.thread j) h).thread
    obtain ⟨clock, -, -, hmoves⟩ := moves_of_sessionStep hstep
    have hc := KeepsNotes.of_true hok
    exact ⟨trivial, hmoves.noteLedger (hinv.thread i)
      ⟨hc.claims, hc.fails, hc.ends, hc.commits, hc.pops⟩⟩

section

variable {st st' : World} {ia : Nat × Action × List Tick}

/-- Coverage is kept by a step, if the store stays fine while no entry is added. -/
theorem World.Covered.step (hb : st.ReadBasis) (hok : keepsNotes st ia = true)
    (hact : World.step st ia = some st') {j : Nat} {v : Waiter} {stream : XReadStream}
    {fine fine' : Prop} (hv : (st.threads j).phase.waiter? = some v)
    (hstream : v.kind.isStream = true) (hk : stream.publicKey ∈ v.keys)
    (hfine : NoMore st.shared.store st'.shared.store stream → fine → fine')
    (h : st.Covered v stream.publicKey fine) : st'.Covered v stream.publicKey fine' := by
  obtain ⟨hstep, hsame⟩ := act_eq_some hact
  obtain ⟨clock, -, -, hmoves⟩ := moves_of_sessionStep hstep
  have hr : Registered ({ st.shared with clock } : Shared).registry := hb.registered.shared
  have hh := handles hmoves (hb.registered.thread ia.1).fits
  have hc := KeepsNotes.of_true hok
  obtain ⟨slot, hslot, hw, hrec⟩ := hb.owned.alive hv
  have hwaited : stream.publicKey ∈ ({ st.shared with clock } : Shared).waitedStreams :=
    mem_waitedStreams hr hslot hrec (hw ▸ hstream) (hw ▸ hk)
  rcases h with hf | hsig | ⟨i, howes⟩
  · rcases hmoves.noMore (hb.ledger ia.1) ⟨hc.claims, hc.fails, hc.ends, hc.commits, hc.pops⟩
      hwaited with hno | howes
    · exact .inl (hfine hno hf)
    · exact .inr (.inr ⟨ia.1, howes⟩)
  · exact .inr (.inl (hh.signalled hr hsig))
  · by_cases hi : i = ia.1
    · subst hi
      rcases hmoves.owesNote howes with howes' | hwake
      · exact .inr (.inr ⟨ia.1, howes'⟩)
      · -- the notification is sent: the reader stands in the queue or knows already
        refine .inr (.inl ?_)
        rcases (hb.queued j).queued v hv hstream _ hk with hmem | hsig
        · exact signalled_of_wake hr hwake hmem hstream
        · exact hh.signalled hr hsig
    · exact .inr (.inr ⟨i, by rwa [hsame i hi]⟩)

end

/-- Where a reader is, its entries are covered: in a read, against the snapshot; once
parked, against the ids that it has resolved. -/
structure World.ReadsCovered (w : World) : Prop where
  reading : ∀ {j r x v snapshot}, (w.threads j).phase = .ops r (.xreadRead x v snapshot) →
    ∀ stream ∈ x.op.streams,
      w.Covered v stream.publicKey (NoMore snapshot w.shared.store stream)
  parked : ∀ {j r x v}, (w.threads j).phase = .ops r (.xreadParked x v) →
    ∃ ids, x.ids = some ids ∧ ∀ p ∈ x.op.streams.zip ids, w.Covered v p.1.publicKey
      (∀ now ≥ w.shared.clock, ¬HasNewer w.shared.store now p.1 p.2)

/-- What a step reads from the clock is not after the time it leaves. -/
theorem readings_le {clock clock' : Int} {ticks : List Tick} (hle : clock ≤ clock')
    (h : ∀ t ∈ ticks, t.now ≤ clock') (n : Nat) : (readings clock ticks n).now ≤ clock' := by
  unfold readings
  rw [List.getD_eq_getElem?_getD]
  cases hn : ticks[n]? with
  | some t => exact h t (List.mem_of_getElem? hn)
  | none =>
    rw [Option.getD_none]
    cases hlast : ticks.getLast? with
    | none =>
      rw [List.getLastD_eq_getLast?, hlast]
      exact hle
    | some t =>
      rw [List.getLastD_eq_getLast?, hlast]
      exact h t (List.mem_of_getLast? hlast)

/-- A round that finds nothing has shown that there is nothing. -/
theorem not_hasNewer_of_round {x : XReadLoop} {T : Int} {snapshot : Store}
    {ids : List (Option StreamEntryId)} {found : List (Bytes × List StreamEntry)}
    (henv : ∀ n, (env n).now ≤ T)
    (hr : (StoreProg.exec (xreadRound x) env { view := snapshot }).out = .ok (ids, found))
    (hf : found.any (fun e => !e.2.isEmpty) = false) :
    ∀ p ∈ x.op.streams.zip ids, ∀ now ≥ T, ¬HasNewer snapshot now p.1 p.2 := by
  have hwp : wp (fun t => t.now ≤ T) (xreadRound x)
      (fun r _ => r.2.any (fun e => !e.2.isEmpty) = false →
        ∀ p ∈ x.op.streams.zip r.1, ∀ now ≥ T, ¬HasNewer snapshot now p.1 p.2)
      (fun _ _ => True) { view := snapshot } := by
    have hread (ids : List (Option StreamEntryId)) (t : Txn Bytes Row) (ht : t.view = snapshot) :
        wp (fun t => t.now ≤ T) ((readStreams x.op.count (x.op.streams.zip ids)).bind
            fun found => .pure (ids, found))
          (fun r _ => r.2.any (fun e => !e.2.isEmpty) = false →
            ∀ p ∈ x.op.streams.zip r.1, ∀ now ≥ T, ¬HasNewer snapshot now p.1 p.2)
          (fun _ _ => True) t := by
      rw [wp_bind]
      exact wp_post (wp_readStreams x.op.count _) fun found t' h => ht ▸ h.2
    unfold xreadRound
    cases x.ids with
    | some ids => exact hread ids _ rfl
    | none =>
      rw [wp_seq]
      exact wp_post (wp_resolveReadIds _) fun ids t ht => hread ids t ht
  exact (exec_of_wp hwp henv).1 _ hr hf

theorem World.readsCovered (retryCount : Nat)
    (h : World.Reached retryCount (fun w a => keepsNotes w a = true) w) : w.ReadsCovered := by
  refine Transition.Reach.inv_with (fun st hst => World.readBasis retryCount hst)
    ⟨by simp [World.init], by simp [World.init]⟩ (fun st ia st' hb hinv hok hact => ?_) h
  obtain ⟨hstep, hsame⟩ := act_eq_some hact
  obtain ⟨clock, hle, hticks, hmoves⟩ := moves_of_sessionStep hstep
  have hclock : st'.shared.clock = clock := hmoves.clock_eq
  -- a reader that was there before the step
  have keep {j : Nat} {r : OpRun} {x : XReadLoop} {v : Waiter} {stage : Stage}
      (hph : (st.threads j).phase = .ops r stage) (hv : stage.waiter? = some v)
      (hfits : v.kind = .stream ∧ v.keys = x.publicKeys) {stream : XReadStream}
      (hmem : stream ∈ x.op.streams) {fine fine' : Prop}
      (hfine : NoMore st.shared.store st'.shared.store stream → fine → fine')
      (hcov : st.Covered v stream.publicKey fine) : st'.Covered v stream.publicKey fine' := by
    refine hcov.step hb hok hact (j := j) ?_ (by rw [hfits.1]; rfl) ?_ hfine
    · rw [hph]
      exact hv
    · rw [hfits.2]
      exact List.mem_map_of_mem hmem
  -- its entries stay covered while it stays where it is
  have reading {j : Nat} {r : OpRun} {x : XReadLoop} {v : Waiter} {snapshot : Store}
      (hph : (st.threads j).phase = .ops r (.xreadRead x v snapshot)) :
      ∀ stream ∈ x.op.streams,
        st'.Covered v stream.publicKey (NoMore snapshot st'.shared.store stream) := by
    intro stream hmem
    have hfits := (hb.registered.thread j).fits
    rw [hph] at hfits
    exact keep hph rfl hfits.2 hmem (fun hno hfine => hfine.trans hno)
      (hinv.reading hph stream hmem)
  have parked {j : Nat} {r : OpRun} {x : XReadLoop} {v : Waiter}
      (hph : (st.threads j).phase = .ops r (.xreadParked x v)) :
      ∃ ids, x.ids = some ids ∧ ∀ p ∈ x.op.streams.zip ids, st'.Covered v p.1.publicKey
        (∀ now ≥ st'.shared.clock, ¬HasNewer st'.shared.store now p.1 p.2) := by
    obtain ⟨ids, hids, hcov⟩ := hinv.parked hph
    refine ⟨ids, hids, fun p hmem => ?_⟩
    have hfits := (hb.registered.thread j).fits
    rw [hph] at hfits
    refine keep hph rfl hfits.2 (List.of_mem_zip hmem).1 (fun hno hfine now hnow => ?_)
      (hcov p hmem)
    exact hno.not_hasNewer (hfine now (by omega))
  refine ⟨fun {j r x v snapshot} hph' => ?_, fun {j r x v} hph' => ?_⟩
  · by_cases hj : j = ia.1
    · subst hj
      rcases hmoves.reads with hno | hreads
      · rw [hph'] at hno
        cases hno
      cases hreads with
      | stays hp => exact reading (hp ▸ hph')
      | begins r₀ x₀ v₀ hp' hs =>
        rw [hph'] at hp'
        cases hp'
        exact fun stream _ => .inl (hs ▸ .refl _ stream)
      | parks _ _ _ _ _ _ _ _ _ hp' =>
        rw [hph'] at hp'
        cases hp'
    · exact reading (hsame j hj ▸ hph')
  · by_cases hj : j = ia.1
    · subst hj
      rcases hmoves.reads with hno | hreads
      · rw [hph'] at hno
        cases hno
      cases hreads with
      | stays hp => exact parked (hp ▸ hph')
      | begins _ _ _ hp' =>
        rw [hph'] at hp'
        cases hp'
      | parks r₀ x₀ v₀ snapshot ids found hp hr hf hp' =>
        rw [hph'] at hp'
        cases hp'
        refine ⟨ids, rfl, fun p hmem => ?_⟩
        have hnone :=
          not_hasNewer_of_round (readings_le hle fun t ht => (hticks t ht).2) hr hf p hmem
        -- what the read did not find is not in the store, or the reader is covered
        rcases reading hp p.1 (List.of_mem_zip hmem).1 with hfine | hrest
        · exact .inl fun now hnow => hfine.not_hasNewer (hnone now (hclock ▸ hnow))
        · exact .inr hrest
    · exact parked (hsame j hj ▸ hph')

/-- In every run whose steps all keep the notifications, no reader sleeps through an
entry. -/
theorem noLostRead_of_reached (retryCount : Nat) {w : World}
    (h : World.Reached retryCount (fun w a => keepsNotes w a = true) w) : NoLostRead w := by
  have hcov := World.readsCovered retryCount h
  have told {j : Nat} {r : OpRun} {x : XReadLoop} {v : Waiter}
      (hph : (w.threads j).phase = .ops r (.xreadParked x v)) :
      ∃ ids, x.ids = some ids ∧ ∀ p ∈ x.op.streams.zip ids, ∀ now ≥ w.shared.clock,
        HasNewer w.shared.store now p.1 p.2 →
          w.shared.signalled v = true ∨ ∃ i, (w.threads i).phase.OwesNote p.1.publicKey := by
    obtain ⟨ids, hids, hall⟩ := hcov.parked hph
    refine ⟨ids, hids, fun p hmem now hnow hnewer => ?_⟩
    exact (hall p hmem).resolve_left fun hfine => hfine now hnow hnewer
  refine ⟨told, fun hquiet j r x v hph => ?_⟩
  obtain ⟨ids, hids, hall⟩ := told hph
  refine ⟨ids, hids, fun p hmem now hnow hnewer => ?_⟩
  rcases hall p hmem now hnow hnewer with hsig | ⟨i, howes⟩
  · have hno := hquiet j
    simp [hph, Phase.quiet, hsig] at hno
  · have hno := hquiet i
    cases hphi : (w.threads i).phase <;> rw [hphi] at howes hno <;>
      first | exact howes.elim | cases hno

/-! ## A reader that is told, and one that is not -/

/-- `XADD s 1-1` without fields. -/
def addToS : Command := .xadd 0 (ascii "s") (some ⟨1, 1⟩) [ascii "f", ascii "v"]

/-- Session `i` waits for an entry of `s` after `0-0`. -/
def parkXRead (i : Nat) : List (Nat × Action × List Tick) :=
  issue i (.xread 0 [(ascii "s", some ⟨0, 0⟩)] 1 true none) 2 ++
    (i, .beginOwn none, []) :: runs i 1

/-- Session 1 is parked and `1-1` is in the stream it waits for, after `0-0`. -/
def World.missesEntry (w : World) : Bool :=
  match (w.threads 1).phase with
  | .ops _ (.xreadParked x _) =>
    match x.op.streams, x.ids with
    | [stream], some [id] =>
      id == some ⟨0, 0⟩ && holdsEntry w.shared.store w.shared.clock stream ⟨1, 1⟩
    | _, _ => false
  | _ => false

theorem World.hasNewer_of_missesEntry (h : w.missesEntry = true) :
    ∃ r x v stream id, (w.threads 1).phase = .ops r (.xreadParked x v) ∧
      x.op.streams = [stream] ∧ x.ids = some [id] ∧
      HasNewer w.shared.store w.shared.clock stream id := by
  unfold World.missesEntry at h
  split at h
  · rename_i r x v hph
    split at h
    · rename_i stream id hs hi
      simp only [Bool.and_eq_true, beq_iff_eq] at h
      obtain ⟨hid, hholds⟩ := h
      exact ⟨r, x, v, stream, id, hph, hs, hi, ⟨1, 1⟩, ⟨by decide, by decide⟩,
        hid ▸ rfl, hholds⟩
    · cases h
  · cases h

/-- Session 1 parks, and session 0 commits an entry for it. -/
def addForReader : List (Nat × Action × List Tick) :=
  parkXRead 1 ++ issue 0 addToS 1 ++ [(0, .commit none, [])]

/-- The entry is there and the reader parked, and a session owes the notification. -/
theorem noLostRead_addForReader :
    ∃ w, Transition.run (Transition.guarded World.step keepsNotes) (World.init 16)
        addForReader = some w ∧ w.missesEntry = true ∧ NoLostRead w := by
  have heval : (Transition.run (Transition.guarded World.step keepsNotes) (World.init 16)
      addForReader).any World.missesEntry = true := by
    decide +kernel
  obtain ⟨w, hrun, hw⟩ := Transition.exists_of_run_any heval
  exact ⟨w, hrun, hw, noLostRead_of_reached 16 (Transition.reach_of_run _ .start hrun)⟩

/-- In an `EXEC` a script of session 0 adds an entry, then fails. Before the commit
session 1 reads, finds nothing and parks. -/
def addAndFail : List (Nat × Action × List Tick) :=
  [(0, .multi, []), (0, .submit (.eval (.call addToS fun _ => .fail "")), []), (0, .exec, []),
      (0, .begin none, [])] ++ runs 0 8 ++ parkXRead 1 ++ settle 0 0

/-- The entry is committed, nothing is in flight, and the reader is parked. -/
theorem read_lost : ∃ w, Transition.run World.step (World.init 16) addAndFail = some w ∧ w.Quiet ∧
      ¬NoLostRead w := by
  have heval : (Transition.run World.step (World.init 16) addAndFail).any (fun w =>
      w.missesEntry && [0, 1].all fun i => (w.threads i).phase.quiet w.shared) = true := by
    decide +kernel
  obtain ⟨w, hrun, hw⟩ := Transition.exists_of_run_any heval
  simp only [Bool.and_eq_true, List.all_cons, List.all_nil, Bool.and_true] at hw
  obtain ⟨hmiss, h0, h1⟩ := hw
  have hquiet : w.Quiet := by
    intro i
    by_cases hi : i ∈ addAndFail.map Prod.fst
    · have hi : i = 0 ∨ i = 1 := by
        have hall : ∀ j ∈ addAndFail.map Prod.fst, j = 0 ∨ j = 1 := by decide
        exact hall i hi
      rcases hi with rfl | rfl
      · exact h0
      · exact h1
    · rw [run_threads_of_notMem hrun hi]
      rfl
  refine ⟨w, hrun, hquiet, fun hlost => ?_⟩
  obtain ⟨r, x, v, stream, id, hph, hs, hi, hnewer⟩ := World.hasNewer_of_missesEntry hmiss
  obtain ⟨ids, hids, hall⟩ := hlost.quiet hquiet hph
  rw [hi] at hids
  cases hids
  exact hall (stream, id) (by simp [hs]) w.shared.clock (by omega) hnewer

end Invar
