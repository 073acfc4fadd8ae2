import Invar.System.Ledger

/-!
# Members popped for a waiter

A `ZADD` that finds a client waiting for its key claims that client, pops a member
for it inside its own transaction, and hands the member over after the commit.
Between the two the claim is in the hands of the session. The member gets lost,
or is handed over without a commit, in these cases:

* the waiter stands twice in the queue, since the client named the key twice;
* the waiter is an `XREAD`, which a `ZADD` claims as it claims any front waiter;
* the client hangs up while its claim is in another session's hands;
* a script gives its claims back after a failure, in a transaction that still
  commits (in `EXEC`, or in a script that catches the error);
* an `EVAL` issued by a script wakes its claims before the transaction commits.

In all other runs each member that a committed transaction popped for a waiter is
sent to this waiter, once, or is about to be.
-/

namespace Invar

open StoreProg Session Interleaving

/-! ## What it means -/

/-- The member of `p` has been sent to its waiter. -/
def Shared.SentTo (sh : Shared) (p : Pop) : Prop :=
  ∃ slot, sh.registry.slots p.waiter.id = some slot ∧ slot.waiter = p.waiter ∧
    slot.sent = some (.pop p.result)

/-- The waiter's `Registration` is alive and nothing has been sent to it. -/
def Slot.open (s : Slot) : Bool := s.sender && s.receiver && s.sent.isNone

/-- The claim with which the member of `p` is to be handed over. -/
def Pop.fits (p : Pop) (c : Claim) : Prop :=
  c.waiter = p.waiter ∧ c.result = some (.pop p.result)

/-- The transaction has committed and the wake that hands over `p` is still to come. -/
def Phase.Owes (p : Pop) : Phase → Prop
  | .bump _ _ outcomes => ∃ c ∈ held (outcomes.flatMap Outcome.claims), p.fits c
  | .reply _ claims => ∃ c ∈ held claims, p.fits c
  | _ => False

/-- Members are popped for waiters that wait for members of that key, one for each
waiter, and only what a committed transaction has popped is sent to anyone. -/
structure Shared.PopsOnce (sh : Shared) : Prop where
  waits : ∀ c ∈ sh.log, ∀ p ∈ c.pops,
    p.waiter.kind.isStream = false ∧ p.publicKey ∈ p.waiter.keys
  once : ((sh.log.flatMap (·.pops)).map (·.waiter.id)).Nodup
  fromCommit : ∀ v slot r, sh.registry.slots v = some slot → slot.sent = some (.pop r) →
    ∃ c ∈ sh.log, ∃ p ∈ c.pops, p.waiter.id = v ∧ p.result = r

/-- Every member that a committed transaction has popped for a waiter is with it, or
the session that committed is about to send it and the waiter is there to receive it. -/
structure PopsDelivered (w : World) : Prop extends w.shared.PopsOnce where
  delivered : ∀ c ∈ w.shared.log, ∀ p ∈ c.pops, w.shared.SentTo p ∨
    ((w.threads c.session).phase.Owes p ∧
      ∃ slot, w.shared.registry.slots p.waiter.id = some slot ∧ slot.waiter = p.waiter ∧
        slot.open = true)

/-- The condition on a step. -/
def keepsClaims (w : World) (a : Nat × Action × List Tick) : Bool :=
  match a.2.1, (w.threads a.1).phase with
  | .run, .ops r .start =>
    match r.cmd.atomicOp? with
    | some (.zadd op) =>
      (w.shared.registry.waiters op.node.publicKey).head?.all fun v => !v.kind.isStream
    | _ => true
  | .run, .ops _ (.bzpopRegister op) => decide op.publicKeys.Nodup
  | .run, .ops r (.script (.fail _) deferred) =>
    (held deferred).isEmpty || (r.frames.isEmpty && !r.dispatch.batch)
  | .run, .ops r (.script (.done _) deferred) => r.frames.isEmpty || (held deferred).isEmpty
  | .hangUp, .ops _ stage => stage.cancelled.all fun v => (w.shared.holder v.id).isNone
  | _, _ => true

/-! ## The registry and its holders -/

/-- What queues, slots and holders say of the waiters that wait for a member. -/
structure Shared.Serves (sh : Shared) : Prop where
  queued : ∀ {k w}, w ∈ sh.registry.waiters k → w.kind.isStream = false →
    sh.holder w.id = none ∧ (sh.registry.waiters k).count w = 1 ∧
      ∀ slot, sh.registry.slots w.id = some slot → slot.open = true
  holders : ∀ {v j}, sh.holder v = some j → ∃ slot, sh.registry.slots v = some slot ∧
    slot.waiter.kind.isStream = false ∧ slot.open = true
  keys : ∀ {v slot}, sh.registry.slots v = some slot → slot.waiter.kind.isStream = false →
    slot.waiter.keys.Nodup
  used : ∀ {v slot}, sh.registry.slots v = some slot → slot.sent ≠ none → slot.sender = false

theorem Shared.Serves.init : Shared.init.Serves where
  queued := by simp [Shared.init, WatchRegistry.new]
  holders := by simp [Shared.init]
  keys := by simp [Shared.init, WatchRegistry.new]
  used := by simp [Shared.init, WatchRegistry.new]

variable {sh : Shared}

/-- An operation on the waiter `v` has to be looked at for `v` alone. -/
theorem Shared.Serves.step {sh' : Shared} (h : sh.Serves) {v : Nat}
    (hsame : SameBut v sh.registry sh'.registry) (hholder : ∀ u, u ≠ v → sh'.holder u = sh.holder u)
    (hqueued : ∀ k w, w ∈ sh'.registry.waiters k → w.id = v → w.kind.isStream = false →
      sh'.holder v = none ∧ (sh'.registry.waiters k).count w = 1 ∧
        ∀ slot, sh'.registry.slots v = some slot → slot.open = true)
    (hheld : ∀ j, sh'.holder v = some j → ∃ slot, sh'.registry.slots v = some slot ∧
      slot.waiter.kind.isStream = false ∧ slot.open = true)
    (hkeys : ∀ slot, sh'.registry.slots v = some slot → slot.waiter.kind.isStream = false →
      slot.waiter.keys.Nodup)
    (hused : ∀ slot, sh'.registry.slots v = some slot → slot.sent ≠ none → slot.sender = false) :
    sh'.Serves where
  queued {k w} hw hkind := by
    by_cases hid : w.id = v
    · rw [hid]
      exact hqueued k w hw hid hkind
    · obtain ⟨hfree, hcount, hopen⟩ := h.queued ((hsame.mem hid).mp hw) hkind
      rw [hholder _ hid, hsame.count k w hid, hsame.slots _ hid]
      exact ⟨hfree, hcount, hopen⟩
  holders {u j} hj := by
    by_cases hid : u = v
    · exact hid ▸ hheld j (hid ▸ hj)
    · rw [hsame.slots u hid]
      exact h.holders (hholder u hid ▸ hj)
  keys {u slot} hs := by
    by_cases hid : u = v
    · exact hkeys slot (hid ▸ hs)
    · exact h.keys (hsame.slots u hid ▸ hs)
  used {u slot} hs := by
    by_cases hid : u = v
    · exact hused slot (hid ▸ hs)
    · exact h.used (hsame.slots u hid ▸ hs)

/-- A waiter whose claim is in some session's hands stands in no queue. -/
theorem Shared.Serves.not_queued (h : sh.Serves) {k : Bytes} {w : Waiter} {j : Nat}
    (hj : sh.holder w.id = some j) (hkind : w.kind.isStream = false) :
    w ∉ sh.registry.waiters k := by
  intro hw
  rw [(h.queued hw hkind).1] at hj
  cases hj

section

variable {i : Nat} {env : Nat → Tick} {sh' : Shared} {s s' : Session} {a : Action}

/-- What `keepsClaims` says of the step, in the terms of `Handles`. -/
structure KeepsClaims (sh : Shared) (s : Session) (a : Action) : Prop where
  claims : ∀ r op, a = .run → s.phase = .ops r .start → r.cmd.atomicOp? = some (.zadd op) →
    ∀ v, (sh.registry.waiters op.node.publicKey).head? = some v → v.kind.isStream = false
  keys : ∀ r op, a = .run → s.phase = .ops r (.bzpopRegister op) → op.publicKeys.Nodup
  fails : ∀ r msg deferred, a = .run → s.phase = .ops r (.script (.fail msg) deferred) →
    held deferred = [] ∨ r.frames = [] ∧ r.dispatch.batch = false
  ends : ∀ r reply deferred, a = .run → s.phase = .ops r (.script (.done reply) deferred) →
    r.frames = [] ∨ held deferred = []
  hangUp : ∀ r stage v, a = .hangUp → s.phase = .ops r stage → stage.cancelled = some v →
    sh.holder v.id = none

theorem KeepsClaims.of_true {w : World} {b : Nat × Action × List Tick}
    (h : keepsClaims w b = true) : KeepsClaims w.shared (w.threads b.1) b.2.1 := by
  unfold keepsClaims at h
  constructor
  · intro r op ha hp hop v hv
    simpa [ha, hp, hop, hv] using h
  · intro r op ha hp
    simpa [ha, hp] using h
  · intro r msg deferred ha hp
    simpa [ha, hp] using h
  · intro r reply deferred ha hp
    simpa [ha, hp] using h
  · intro r stage v ha hp hv
    simpa [ha, hp, hv] using h

variable {f : Slot → Slot} {slot' : Slot} {c : Claim} {w : Waiter} {j v : Nat} {p : Pop}
  {op : AtomicOp} {out : Outcome} {tx tx' : Tx} {cmd : Command} {res : DbResult} {phase : Phase}

/-- The slot after an operation that maps it. -/
theorem slot_of_map {o o' : Option Slot} (h : o' = o.map f)
    (hs : o' = some slot') : ∃ slot, o = some slot ∧ slot' = f slot := by
  rw [h, Option.map_eq_some_iff] at hs
  obtain ⟨slot, hs, rfl⟩ := hs
  exact ⟨slot, hs, rfl⟩

theorem Shared.Serves.claim (h : sh.Serves) (hr : Registered sh.registry) {k : Bytes}
    (hcl : sh.registry.tryClaim k = some (c, sh'.registry)) (hkind : c.waiter.kind.isStream = false)
    (hh : sh'.holder = Function.update sh.holder c.waiter.id (some i)) : sh'.Serves := by
  obtain ⟨hfront, -, -, hslot⟩ := WatchRegistry.tryClaim_front hcl
  have hmem : c.waiter ∈ sh.registry.waiters k := List.mem_of_mem_head? hfront
  obtain ⟨-, honce, hopen⟩ := h.queued hmem hkind
  obtain ⟨slot, hs, hsw⟩ := hr.known hmem
  have hs' : sh'.registry.slots c.waiter.id = some { slot with claimed := true } := by
    rw [hslot, hs, Option.map_some]
  refine h.step (.tryClaim hcl) (fun u hu => by rw [hh, Function.update_of_ne hu])
    (fun k' w hw hid _ => ?_) (fun j _ => ⟨_, hs', hsw ▸ hkind, hopen slot hs⟩)
    (fun slot' hslot' => ?_) (fun slot' hslot' => ?_)
  · -- the waiter has left all its queues
    have hknown : Known sh'.registry c.waiter := ⟨_, hs', hsw⟩
    obtain rfl := (hr.tryClaim hcl).2.eq_of_known hknown hw hid
    exact absurd hw (hr.tryClaim_out hcl honce k')
  · cases hs'.symm.trans hslot'
    exact (h.keys hs :)
  · cases hs'.symm.trans hslot'
    exact (h.used hs :)

/-- A waiter comes back to the front of its queues. -/
theorem Shared.Serves.release (h : sh.Serves) (hr : Registered sh.registry)
    (hn : c.notify = false) {slot : Slot} (hs : sh.registry.slots c.waiter.id = some slot)
    (hsw : slot.waiter = c.waiter) (hopen : slot.open = true)
    (hkind : c.waiter.kind.isStream = false) (hout : ∀ k, c.waiter ∉ sh.registry.waiters k)
    (hreg : sh'.registry = sh.registry.releaseFront c)
    (hholder : ∀ u, u ≠ c.waiter.id → sh'.holder u = sh.holder u)
    (hfree : sh'.holder c.waiter.id = none) : sh'.Serves := by
  have hkeys : c.waiter.keys.Nodup := hsw ▸ h.keys hs (hsw ▸ hkind)
  have hs' : sh'.registry.slots c.waiter.id = some { slot with claimed := false } := by
    rw [hreg]
    simp [WatchRegistry.releaseFront, hn, WatchRegistry.modifySlot_slots, hs]
  have hqueue : ∀ k ∈ c.waiter.keys,
      sh'.registry.waiters k = c.waiter :: sh.registry.waiters k := by
    intro k hk
    rw [hreg]
    simp only [WatchRegistry.releaseFront, hn, Bool.false_eq_true, if_false,
      WatchRegistry.modifySlot_waiters]
    rw [KeyedQueues.pushFront_of_nodup hkeys, if_pos hk]
  have hsame := SameBut.releaseFront hreg
  refine h.step hsame hholder (fun k w hw hid _ => ⟨hfree, ?_, fun slot' hslot' => ?_⟩)
    (fun j hj => ?_) (fun slot' hslot' => ?_) (fun slot' hslot' => ?_)
  · have hknown : Known sh'.registry c.waiter := ⟨_, hs', hsw⟩
    have hr' : Registered sh'.registry := hreg ▸ hr.releaseFront fun _ => ⟨slot, hs, hsw⟩
    obtain rfl := hr'.eq_of_known hknown hw hid
    rw [hqueue k (hr'.own hw), List.count_cons_self, List.count_eq_zero_of_not_mem (hout k)]
  · cases hs'.symm.trans hslot'
    exact hopen
  · rw [hfree] at hj
    cases hj
  · cases hs'.symm.trans hslot'
    exact (h.keys hs :)
  · cases hs'.symm.trans hslot'
    exact (h.used hs :)

/-- A waiter leaves its queues, and its slot keeps its channel's sender. -/
theorem Shared.Serves.leave (h : sh.Serves) (hsame : SameBut w.id sh.registry sh'.registry)
    (hgone : ∀ k, ∀ u ∈ sh'.registry.waiters k, u.id ≠ w.id)
    (hslot : sh'.registry.slots w.id = (sh.registry.slots w.id).map f)
    (hf : ∀ slot, (f slot).waiter = slot.waiter ∧ (f slot).sent = slot.sent ∧
      (f slot).sender = slot.sender) (hh : sh'.holder = sh.holder)
    (hopen : sh.holder w.id = none ∨ ∀ slot, (f slot).open = slot.open) : sh'.Serves := by
  refine h.step hsame (fun u _ => by rw [hh]) (fun k u hu hid _ => absurd hid (hgone k u hu))
    (fun j hj => ?_) (fun slot' hs' hkind => ?_) (fun slot' hs' hsent => ?_)
  · rw [hh] at hj
    rcases hopen with hnone | hopen
    · rw [hnone] at hj
      cases hj
    · obtain ⟨slot, hs, hkind, ho⟩ := h.holders hj
      refine ⟨f slot, by rw [hslot, hs, Option.map_some], ?_, ?_⟩
      · rwa [(hf slot).1]
      · rwa [hopen]
  · obtain ⟨slot, hs, rfl⟩ := slot_of_map hslot hs'
    rw [(hf slot).1] at hkind ⊢
    exact h.keys hs hkind
  · obtain ⟨slot, hs, rfl⟩ := slot_of_map hslot hs'
    rw [(hf slot).2.1] at hsent
    rw [(hf slot).2.2]
    exact h.used hs hsent

theorem Shared.Serves.register (h : sh.Serves) (hr : Registered sh.registry) {keys : List Bytes}
    {kind : WaitKind} (hreg : sh'.registry = (sh.registry.register keys kind).2)
    (hh : sh'.holder = sh.holder) (hkeys : kind.isStream = false → keys.Nodup) : sh'.Serves := by
  have hslot : sh'.registry.slots sh.registry.nextId =
      some { waiter := ⟨sh.registry.nextId, keys, kind⟩ } := by
    rw [hreg]
    simp [WatchRegistry.register]
  have hnone : sh.registry.slots sh.registry.nextId = none := hr.fresh (Nat.le_refl _)
  have hfree : sh.holder sh.registry.nextId = none := by
    cases hj : sh.holder sh.registry.nextId with
    | none => rfl
    | some j =>
      obtain ⟨slot, hs, -⟩ := h.holders hj
      rw [hnone] at hs
      cases hs
  have hsame := SameBut.register hreg
  refine h.step hsame (fun u _ => by rw [hh])
    (fun k w hw hid hkind => ⟨by rw [hh, hfree], ?_, fun slot hs => ?_⟩)
    (fun j hj => ?_) (fun slot hs hkind => ?_) (fun slot hs hsent => ?_)
  · rw [hreg] at hw ⊢
    have hold : w ∉ sh.registry.waiters k := by
      intro hw
      obtain ⟨slot, hs, -⟩ := hr.known hw
      rw [hid, hnone] at hs
      cases hs
    obtain ⟨hk, rfl⟩ := (KeyedQueues.mem_pushBack.mp hw).resolve_left hold
    simp only [WatchRegistry.register]
    rw [KeyedQueues.pushBack_of_nodup (hkeys hkind), if_pos hk]
    simp [List.count_eq_zero_of_not_mem hold]
  · rw [hslot, Option.some.injEq] at hs
    exact hs ▸ rfl
  · rw [hh, hfree] at hj
    cases hj
  · cases hslot.symm.trans hs
    exact hkeys hkind
  · cases hslot.symm.trans hs
    exact absurd rfl hsent

/-- The claim of a waiter is woken. -/
theorem Shared.Serves.wake (h : sh.Serves) (hn : c.notify = false)
    (hreg : sh'.registry = sh.registry.wake c)
    (hh : sh'.holder = Function.update sh.holder c.waiter.id none)
    (hout : ∀ k, ∀ u ∈ sh.registry.waiters k, u.id ≠ c.waiter.id) : sh'.Serves := by
  have hslot : sh'.registry.slots c.waiter.id =
      (sh.registry.slots c.waiter.id).map (Slot.send c.result) := by
    rw [hreg]
    simp [WatchRegistry.wake, hn, WatchRegistry.modifySlot_slots]
  have hqueue : sh'.registry.waiters = sh.registry.waiters := by
    rw [hreg]
    simp [WatchRegistry.wake, hn]
  have hsame := SameBut.wake hn hreg
  refine h.step hsame (fun u hu => by rw [hh, Function.update_of_ne hu])
    (fun k u hu hid _ => absurd hid (hout k u (hqueue ▸ hu))) (fun j hj => ?_)
    (fun slot' hs' hkind => ?_) (fun slot' hs' _ => ?_)
  · rw [hh, Function.update_self] at hj
    cases hj
  · obtain ⟨slot, hs, rfl⟩ := slot_of_map hslot hs'
    exact (h.keys hs hkind :)
  · obtain ⟨slot, hs, rfl⟩ := slot_of_map hslot hs'
    rfl

/-- The wake of a stream does not concern the waiters for members. -/
theorem Shared.Serves.notify (h : sh.Serves) (hr : Registered sh.registry) {key : Bytes}
    (hreg : sh'.registry = sh.registry.wakeStreamWaiters key) (hh : sh'.holder = sh.holder) :
    sh'.Serves := by
  have hall := hr.wakeStreamWaiters key
  rw [← hreg] at hall
  -- a waiter of another kind is none of those that are woken
  have hother {v : Nat} {slot : Slot} (hs : sh.registry.slots v = some slot)
      (hkind : slot.waiter.kind.isStream = false) :
      v ∉ ((sh.registry.waiters key).filter (·.kind.isStream)).map Waiter.id := by
    intro hv
    obtain ⟨w, hw, rfl⟩ := List.mem_map.mp hv
    obtain ⟨slot', hs', rfl, -⟩ := hall.woken w hw
    cases hs.symm.trans hs'
    have hstream := (List.mem_filter.mp hw).2
    rw [hkind] at hstream
    cases hstream
  have hback {v : Nat} {slot' : Slot} (hs' : sh'.registry.slots v = some slot') :
      ∃ slot, sh.registry.slots v = some slot ∧ slot.waiter = slot'.waiter ∧
        (slot' = slot ∨ slot'.sender = false) := by
    by_cases hv : v ∈ ((sh.registry.waiters key).filter (·.kind.isStream)).map Waiter.id
    · obtain ⟨w, hw, rfl⟩ := List.mem_map.mp hv
      obtain ⟨slot, hs, -, hs''⟩ := hall.woken w hw
      cases hs'.symm.trans hs''
      exact ⟨slot, hs, rfl, .inr rfl⟩
    · exact ⟨slot', (hall.others v hv).1 ▸ hs', rfl, .inl rfl⟩
  refine ⟨fun {k w} hw hkind => ?_, fun {v j} hj => ?_, fun {v slot'} hs' hkind => ?_,
    fun {v slot'} hs' hsent => ?_⟩
  · obtain ⟨slot', hs', hsw⟩ := hall.registered.known hw
    obtain ⟨slot, hs, hslot, -⟩ := hback hs'
    obtain ⟨hsame, hcount⟩ := hall.others w.id (hother hs (by rw [hslot, hsw, hkind]))
    have hw' : w ∈ sh.registry.waiters k := by
      rwa [← List.count_pos_iff, ← hcount k w rfl, List.count_pos_iff]
    rw [hh, hcount k w rfl, hsame]
    exact h.queued hw' hkind
  · rw [hh] at hj
    obtain ⟨slot, hs, hkind, hopen⟩ := h.holders hj
    exact ⟨slot, (hall.others v (hother hs hkind)).1.trans hs, hkind, hopen⟩
  · obtain ⟨slot, hs, hslot, -⟩ := hback hs'
    rw [← hslot] at hkind ⊢
    exact h.keys hs hkind
  · obtain ⟨slot, hs, -, rfl | hused⟩ := hback hs'
    · exact h.used hs hsent
    · exact hused

theorem Shared.Serves.congr (h : sh.Serves) (hq : sh'.registry.waiters = sh.registry.waiters)
    (hs : sh'.registry.slots = sh.registry.slots) (hh : sh'.holder = sh.holder) : sh'.Serves where
  queued := by rw [hq, hs, hh]; exact h.queued
  holders := by rw [hs, hh]; exact h.holders
  keys := by rw [hs]; exact h.keys
  used := by rw [hs]; exact h.used

/-- A claim in the session's hands is that of a waiter whose channel is open. -/
theorem Shared.Serves.claimed (h : sh.Serves) (hs : s.Registers sh)
    (hold : ∀ c ∈ held s.phase.claims, sh.holder c.waiter.id = some i)
    (hc : c ∈ held s.phase.claims) :
    ∃ slot, sh.registry.slots c.waiter.id = some slot ∧ slot.waiter = c.waiter ∧
      slot.waiter.kind.isStream = false ∧ slot.open = true := by
  obtain ⟨slot, hslot, hkind, hopen⟩ := h.holders (hold c hc)
  obtain ⟨slot', hslot', hw⟩ := hs.claims c hc
  cases hslot.symm.trans hslot'
  exact ⟨slot, hslot, hw, hkind, hopen⟩

/-- A registration is dropped only while no session holds the claim of its waiter. -/
theorem Handles.not_held_of_leave (h : sh.Serves) (hs : s.Registers sh) (hok : KeepsClaims sh s a)
    (hp : s.phase.waiter? = some w) (why : (received sh w).isSome = true ∨ w.kind = .stream ∨
      a = .hangUp ∧ ∃ r stage, s.phase = .ops r stage ∧ stage.cancelled = some w) :
    sh.holder w.id = none := by
  cases hj : sh.holder w.id with
  | none => rfl
  | some j =>
    obtain ⟨slot, hslot, hkind, hopen⟩ := h.holders hj
    obtain ⟨slot', hslot', hw⟩ := hs.waiter w hp
    cases hslot.symm.trans hslot'
    rcases why with hreceived | hstream | ⟨ha, r, stage, hph, hcancel⟩
    · simp only [Slot.open, Bool.and_eq_true, Option.isNone_iff_eq_none] at hopen
      simp [received, hslot, hopen] at hreceived
    · rw [hw, hstream] at hkind
      cases hkind
    · rw [hok.hangUp r stage w ha hph hcancel] at hj
      cases hj

/-- Nor while the waiter stands in a queue. -/
theorem Handles.not_held_of_timeout (h : sh.Serves) (hr : Registered sh.registry)
    (hw : Known sh.registry w) (why : (sh.registry.timeout w).1 = true) :
    sh.holder w.id = none := by
  simp only [WatchRegistry.timeout, WatchRegistry.removeWaiter, List.any_eq_true, beq_iff_eq] at why
  obtain ⟨k, -, u, hu, hid⟩ := why
  obtain rfl := hr.eq_of_known hw hu hid
  cases hj : sh.holder u.id with
  | none => rfl
  | some j =>
    obtain ⟨slot, hslot, hkind, -⟩ := h.holders hj
    obtain rfl := hr.eq_of_slot hslot hu rfl
    exact absurd hu (h.not_queued hj hkind)

theorem Handles.serves (h : Handles i env sh s a sh' s') (hG : sh.Serves)
    (hr : Registered sh.registry) (hs : s.Registers sh)
    (hold : ∀ c ∈ held s.phase.claims, sh.holder c.waiter.id = some i)
    (hok : KeepsClaims sh s a) : sh'.Serves := by
  have first {c : Claim} {cs : List Claim} (hn : c.notify = false)
      (hc : (held s.phase.claims).Perm (held [c] ++ cs)) :
      c ∈ held s.phase.claims := hc.mem_iff.mpr (by simp [held, hn])
  cases h with
  | nothing hq hsl hn hh => exact hG.congr hq hsl hh
  | register keys kind r ha hp hreg hh =>
    refine hG.register hr hreg hh fun hkind => ?_
    rcases hp with ⟨op, hp, rfl⟩ | ⟨rfl, -⟩
    · exact hok.keys r op ha hp
    · cases hkind
  | claim r op c c' ha hp hop hcl _ _ hh =>
    exact hG.claim hr hcl (hok.claims r op ha hp hop _ (WatchRegistry.tryClaim_front hcl).1) hh
  | unclaim r op c reg ha hp hop hcl hreg hh =>
    obtain ⟨hfront, hn, -, hslot⟩ := WatchRegistry.tryClaim_front hcl
    have hkind := hok.claims r op ha hp hop _ hfront
    have hmem : c.waiter ∈ sh.registry.waiters op.node.publicKey := List.mem_of_mem_head? hfront
    obtain ⟨hfree, honce, hopen⟩ := hG.queued hmem hkind
    obtain ⟨slot, hsl, hsw⟩ := hr.known hmem
    -- the claim and its return, with the claim in nobody's hands in between
    have hG' : ({ sh with
        registry := reg
        holder := Function.update sh.holder c.waiter.id (some i) } : Shared).Serves :=
      hG.claim hr hcl hkind rfl
    have hsl' : reg.slots c.waiter.id = some { slot with claimed := true } := by
      rw [hslot, hsl, Option.map_some]
    refine hG'.release (hr.tryClaim hcl).2 hn hsl' hsw (hopen slot hsl) hkind
      (hr.tryClaim_out hcl honce) hreg (fun u hu => ?_) (by rw [hh, hfree])
    rw [hh]
    exact (Function.update_of_ne hu _ _).symm
  | wake c hp hreg hh hc =>
    cases hn : c.notify with
    | true =>
      rw [hn, if_pos rfl] at hh
      simp only [WatchRegistry.wake, hn, if_true] at hreg
      exact hG.notify hr hreg hh
    | false =>
      rw [hn] at hh
      have hmem := first hn hc
      obtain ⟨slot, hsl, hsw, hkind, -⟩ := hG.claimed hs hold hmem
      refine hG.wake hn hreg hh fun k u hu hid => ?_
      obtain rfl := (hr.eq_of_slot hsl hu hid).trans hsw
      exact hG.not_queued (hold c hmem) (hsw ▸ hkind) hu
  | release c hreg hh hc =>
    cases hn : c.notify with
    | true =>
      rw [hn, if_pos rfl] at hh
      simp only [WatchRegistry.releaseFront, hn, if_true] at hreg
      exact hG.congr (by rw [hreg]) (by rw [hreg]) hh
    | false =>
      rw [hn] at hh
      have hmem := first hn hc
      obtain ⟨slot, hsl, hsw, hkind, hopen⟩ := hG.claimed hs hold hmem
      refine hG.release hr hn hsl hsw hopen (hsw ▸ hkind)
        (fun k => hG.not_queued (hold c hmem) (hsw ▸ hkind)) hreg (fun u hu => ?_) ?_
      · rw [hh]
        exact Function.update_of_ne hu _ _
      · rw [hh]
        exact Function.update_self _ _ _
  | leave w hp hreg hh hc hw why =>
    have hsame := SameBut.dropRegistration hreg
    refine hG.leave hsame (fun k u hu => ?_)
      (f := ({ · with receiver := false })) ?_ (fun _ => ⟨rfl, rfl, rfl⟩) hh
      (.inl (not_held_of_leave hG hs hok hp why))
    · rw [hreg] at hu
      exact hr.not_mem_retainOut (hs.waiter w hp) hu
    · rw [hreg, WatchRegistry.dropRegistration, WatchRegistry.modifySlot_slots, if_pos rfl]
      rfl
  | timeout w hp hreg hh hc hw why =>
    have hknown := hs.waiter w hp
    have hsame := SameBut.timedOut hreg
    refine hG.leave hsame (fun k u hu => ?_)
      (f := ({ · with timedOut := true, receiver := false })) ?_ (fun _ => ⟨rfl, rfl, rfl⟩) hh
      (.inl (not_held_of_timeout hG hr hknown why))
    · rw [hreg] at hu
      exact hr.not_mem_retainOut hknown (KeyedQueues.mem_retain.mp hu).1
    · rw [hreg]
      simp [WatchRegistry.dropRegistration, WatchRegistry.timeout, WatchRegistry.removeWaiter,
        WatchRegistry.modifySlot_slots, Function.comp_def]
  | timeoutClaimed w hp hreg hh =>
    have hsame := SameBut.timeout hreg
    refine hG.leave hsame (fun k u hu => ?_) (f := ({ · with timedOut := true })) ?_
      (fun _ => ⟨rfl, rfl, rfl⟩) hh (.inr fun _ => rfl)
    · rw [hreg] at hu
      exact hr.not_mem_retainOut (hs.waiter w hp) hu
    · rw [hreg, WatchRegistry.timeout, WatchRegistry.modifySlot_slots, if_pos rfl]
      rfl

/-! ## Who holds which claim -/

/-- The claims of a session are of different waiters, and it is their holder. -/
structure Session.HoldsClaims (i : Nat) (sh : Shared) (s : Session) : Prop where
  ids : ((held s.phase.claims).map (·.waiter.id)).Nodup
  holds : ∀ c ∈ held s.phase.claims, sh.holder c.waiter.id = some i

theorem Session.HoldsClaims.same (h : s.HoldsClaims i sh)
    (hc : (held s'.phase.claims).Perm (held s.phase.claims)) (hh : sh'.holder = sh.holder) :
    s'.HoldsClaims i sh' where
  ids := (hc.map _).nodup_iff.mpr h.ids
  holds c hmem := hh ▸ h.holds c (hc.mem_iff.mp hmem)

/-- One of the claims is woken or given back. -/
theorem Session.HoldsClaims.drop (h : s.HoldsClaims i sh)
    (hc : (held s.phase.claims).Perm (held [c] ++ held s'.phase.claims))
    (hh : sh'.holder = if c.notify then sh.holder else Function.update sh.holder c.waiter.id none) :
    s'.HoldsClaims i sh' := by
  cases hn : c.notify with
  | true =>
    rw [hn, if_pos rfl] at hh
    have hnil : held [c] = [] := by simp [held, hn]
    rw [hnil, List.nil_append] at hc
    exact h.same hc.symm hh
  | false =>
    rw [hn] at hh
    have hone : held [c] = [c] := by simp [held, hn]
    rw [hone, List.singleton_append] at hc
    have hids := (hc.map (·.waiter.id)).nodup_iff.mp h.ids
    rw [List.map_cons, List.nodup_cons] at hids
    refine ⟨hids.2, fun d hd => ?_⟩
    have hne : d.waiter.id ≠ c.waiter.id := fun he => hids.1 (he ▸ List.mem_map_of_mem hd)
    rw [hh]
    exact (Function.update_of_ne hne _ _).trans (h.holds d (hc.mem_iff.mpr (by simp [hd])))

theorem Handles.holdsClaims (h : Handles i env sh s a sh' s') (hG : sh.Serves)
    (hL : s.HoldsClaims i sh) (hok : KeepsClaims sh s a) : s'.HoldsClaims i sh' := by
  cases h with
  | nothing _ _ _ hh hc => exact hL.same hc hh
  | register _ _ _ _ _ _ hh hc => exact hL.same hc hh
  | claim r op c c' ha hp hop hcl hc' _ hh hc =>
    have hfront := (WatchRegistry.tryClaim_front hcl).1
    have hfree := (hG.queued (List.mem_of_mem_head? hfront) (hok.claims r op ha hp hop _ hfront)).1
    have hne : ∀ d ∈ held s.phase.claims, d.waiter.id ≠ c.waiter.id := by
      intro d hd he
      have := hL.holds d hd
      rw [he, hfree] at this
      cases this
    refine ⟨(hc.map _).nodup_iff.mpr ?_, fun d hd => ?_⟩
    · rw [List.map_cons, List.nodup_cons, hc']
      refine ⟨fun hmem => ?_, hL.ids⟩
      obtain ⟨d, hd, hid⟩ := List.mem_map.mp hmem
      exact hne d hd hid
    · rw [hh]
      rcases List.mem_cons.mp (hc.mem_iff.mp hd) with rfl | hd
      · rw [hc', Function.update_self]
      · rw [Function.update_of_ne (hne d hd)]
        exact hL.holds d hd
  | unclaim _ _ _ _ _ _ _ _ _ hh hc => exact hL.same hc hh
  | wake _ _ _ hh hc => exact hL.drop hc hh
  | release _ _ hh hc => exact hL.drop hc hh
  | leave _ _ _ hh hc => exact hL.same hc hh
  | timeout _ _ _ hh hc => exact hL.same hc hh
  | timeoutClaimed _ _ _ hh heq => exact hL.same (by rw [heq]) hh

/-- A move leaves the claims of other sessions in their hands. -/
theorem Handles.holder_of_ne (h : Handles i env sh s a sh' s') (hG : sh.Serves)
    (hL : s.HoldsClaims i sh) (hok : KeepsClaims sh s a) (hj : j ≠ i)
    (hv : sh.holder v = some j) : sh'.holder v = some j := by
  have dropped {c : Claim} (hc : (held s.phase.claims).Perm (held [c] ++ held s'.phase.claims))
      (hh : sh'.holder =
        if c.notify then sh.holder else Function.update sh.holder c.waiter.id none) :
      sh'.holder v = some j := by
    cases hn : c.notify with
    | true => rw [hh, hn, if_pos rfl, hv]
    | false =>
      have hne : v ≠ c.waiter.id := by
        rintro rfl
        have hmine := hL.holds c (hc.mem_iff.mpr (by simp [held, hn]))
        rw [hv, Option.some.injEq] at hmine
        exact hj hmine
      rw [hh, hn]
      exact (Function.update_of_ne hne _ _).trans hv
  cases h with
  | nothing _ _ _ hh | register _ _ _ _ _ _ hh | unclaim _ _ _ _ _ _ _ _ _ hh
  | leave _ _ _ hh | timeout _ _ _ hh | timeoutClaimed _ _ _ hh => rw [hh, hv]
  | claim r op c c' ha hp hop hcl hc' _ hh =>
    have hfront := (WatchRegistry.tryClaim_front hcl).1
    have hfree := (hG.queued (List.mem_of_mem_head? hfront) (hok.claims r op ha hp hop _ hfront)).1
    have hne : v ≠ c.waiter.id := by
      rintro rfl
      rw [hfree] at hv
      cases hv
    rw [hh, Function.update_of_ne hne, hv]
  | wake _ _ _ hh hc => exact dropped hc hh
  | release _ _ hh hc => exact dropped hc hh

/-! ## What has been sent -/

/-- A move sends nothing to a waiter, or something for one of the two reasons. -/
theorem Handles.sent_eq (h : Handles i env sh s a sh' s') (hr : Registered sh.registry)
    (hs' : sh'.registry.slots v = some slot') : sh.registry.slots v = none ∧ slot'.sent = none ∨
    ∃ slot, sh.registry.slots v = some slot ∧ (slot'.sent = slot.sent ∨
      ∃ result, slot'.sent = (slot.send result).sent ∧ SendReason s v result) := by
  rcases h.slot hr v with ⟨hnone, w, -, -, hnew⟩ | ⟨f, hslot, hf⟩
  · rw [hs', Option.some.injEq] at hnew
    exact .inl ⟨hnone, hnew ▸ rfl⟩
  · obtain ⟨slot, hs, rfl⟩ := slot_of_map hslot hs'
    refine .inr ⟨slot, hs, ?_⟩
    rcases hf.channel with hquiet | ⟨result, hwhy, hsend⟩
    · exact .inl (hquiet slot).1
    · exact .inr ⟨result, (hsend slot).1, hwhy⟩

/-- What is in a channel has been put there before the move or by it. -/
theorem Handles.sent_some (h : Handles i env sh s a sh' s') (hr : Registered sh.registry)
    {x : BlockResult} (hs' : sh'.registry.slots v = some slot') (hx : slot'.sent = some x) :
    (∃ slot, sh.registry.slots v = some slot ∧ slot.sent = some x) ∨ SendReason s v (some x) := by
  rcases h.sent_eq hr hs' with ⟨-, hnone⟩ | ⟨slot, hs, hsame | ⟨result, hsend, hwhy⟩⟩
  · rw [hnone] at hx
    cases hx
  · exact .inl ⟨slot, hs, hsame ▸ hx⟩
  · rw [hsend] at hx
    unfold Slot.send at hx
    split at hx
    · exact .inr (hx ▸ hwhy)
    · exact .inl ⟨slot, hs, hx⟩

/-- What has been sent stays. -/
theorem Handles.sentTo (h : Handles i env sh s a sh' s') (hr : Registered sh.registry)
    (hs : s.Registers sh) (hG : sh.Serves) (hp : sh.SentTo p) : sh'.SentTo p := by
  obtain ⟨slot, hslot, hw, hsent⟩ := hp
  obtain ⟨slot', hslot', hw'⟩ := (h.registered hr hs).2 p.waiter ⟨slot, hslot, hw⟩
  refine ⟨slot', hslot', hw', ?_⟩
  have hused := hG.used hslot (by simp [hsent])
  rcases h.sent_eq hr hslot' with ⟨hnone, -⟩ | ⟨slot₀, hslot₀, hwhy⟩
  · rw [hslot] at hnone
    cases hnone
  · cases hslot.symm.trans hslot₀
    rcases hwhy with hsame | ⟨result, hsend, -⟩
    · rw [hsame, hsent]
    · simp [hsend, Slot.send, hused, hsent]

/-! ## What the transaction has popped, and the claims -/

/-- The members that a transaction has popped are those that the claims carry. -/
structure Matches (pops : List Pop) (claims : List Claim) : Prop where
  each : ∀ p ∈ pops, ∃ c ∈ claims, p.fits c
  back : ∀ c ∈ claims, ∀ r, c.result = some (.pop r) →
    ∃ p ∈ pops, p.waiter = c.waiter ∧ p.result = r
  ids : (pops.map (·.waiter.id)).Nodup
  waits : ∀ p ∈ pops, p.waiter.kind.isStream = false ∧ p.publicKey ∈ p.waiter.keys

theorem Matches.nil : Matches [] [] := ⟨by simp, by simp, by simp, by simp⟩

theorem Matches.perm {pops : List Pop} {cs cs' : List Claim} (h : Matches pops cs)
    (hc : cs'.Perm cs) : Matches pops cs' where
  each p hp := by
    obtain ⟨c, hmem, hfit⟩ := h.each p hp
    exact ⟨c, hc.mem_iff.mpr hmem, hfit⟩
  back c hmem := h.back c (hc.mem_iff.mp hmem)
  ids := h.ids
  waits := h.waits

/-- The record of the members that were popped. -/
def popLedger : Ledger where
  counts c := !c.notify
  Balanced tx claims := Matches tx.pops claims
  nil hpops _ := hpops ▸ .nil
  congr hpops _ h := hpops ▸ h
  perm hc h := h.perm hc

/-- The claim of a `ZADD` carries the member that it popped. -/
theorem Performs.matches {claims : List Claim}
    (h : Performs i env tx sh op out tx' sh') (hm : Matches tx.pops claims)
    (hr : Registered sh.registry) (hG : sh.Serves)
    (hold : ∀ c ∈ claims, sh.holder c.waiter.id = some i)
    (hok : ∀ z, op = .zadd z → ∀ v, (sh.registry.waiters z.node.publicKey).head? = some v →
      v.kind.isStream = false) : Matches tx'.pops (held out.claims ++ claims) := by
  cases h with
  | plain p => cases (exec p env tx.txn).out <;> exact hm
  | zaddClaimed z r w c reg m hrun hw _ hc =>
    rw [Zset.ZAddOp.write_publicKey (hrun ▸ hw)] at hc ⊢
    obtain ⟨hfront, hn, -⟩ := WatchRegistry.tryClaim_front hc
    have hmem : c.waiter ∈ sh.registry.waiters z.node.publicKey := List.mem_of_mem_head? hfront
    have hkind := hok z rfl _ hfront
    cases m with
    | none =>
      refine ⟨fun p hp => ?_, fun d hd r hres => ?_, hm.ids, hm.waits⟩
      · obtain ⟨d, hd, hfit⟩ := hm.each p hp
        exact ⟨d, List.mem_append_right _ hd, hfit⟩
      · rcases List.mem_append.mp hd with hd | hd
        · simp only [Outcome.claims, mem_held, List.mem_singleton] at hd
          rw [hd.1] at hres
          cases hres
        · exact hm.back d hd r hres
    | some m =>
      let p : Pop := { waiter := c.waiter, publicKey := z.node.publicKey, result := z.popResult m }
      let d : Claim := { c with result := some (.pop (z.popResult m)), origin := tx.id }
      have hheld : held [d] = [d] := by simp [held, d, hn]
      show Matches (p :: tx.pops) (held [d] ++ claims)
      rw [hheld, List.singleton_append]
      refine ⟨fun q hq => ?_, fun e he r hres => ?_, ?_, fun q hq => ?_⟩
      · rcases List.mem_cons.mp hq with rfl | hq
        · exact ⟨d, by simp, rfl, rfl⟩
        · obtain ⟨e, he, hfit⟩ := hm.each q hq
          exact ⟨e, List.mem_cons_of_mem d he, hfit⟩
      · rcases List.mem_cons.mp he with rfl | he
        · simp only [d, Option.some.injEq, BlockResult.pop.injEq] at hres
          exact ⟨p, by simp, rfl, hres⟩
        · obtain ⟨q, hq, hfit⟩ := hm.back e he r hres
          exact ⟨q, List.mem_cons_of_mem p hq, hfit⟩
      · -- no claim in hand is of the front waiter
        rw [List.map_cons, List.nodup_cons]
        refine ⟨fun hq => ?_, hm.ids⟩
        obtain ⟨q, hq, hid⟩ := List.mem_map.mp hq
        obtain ⟨e, he, hfit⟩ := hm.each q hq
        have hmine := hold e he
        rw [hfit.1, hid, (hG.queued hmem hkind).1] at hmine
        cases hmine
      · rcases List.mem_cons.mp hq with rfl | hq
        · exact ⟨hkind, hr.own hmem⟩
        · exact hm.waits q hq
  | _ => exact hm

/-- The claims that a script is about to wake and that hold a waiter. -/
def Phase.wakesHeld : Phase → List Claim
  | .ops _ stage => held stage.waking
  | _ => []

theorem Completes.wakesHeld {r : OpRun} (h : Completes s r out s')
    (hk : ∀ res, out = .ok res → r.frames ≠ [] → held (r.cmd.deferClaims res).1 = []) :
    s'.phase.wakesHeld = [] := by
  cases h with
  | conflict =>
    rw [conflicted_phase]
    rfl
  | next phase hf hn => cases hn <;> rfl
  | called f frames res hf ho => exact hk res ho (by simp [hf])
  | _ => rfl

/-- `defer_claims` leaves nothing to wake that holds a waiter. -/
theorem Command.held_kept (h : held res.claims = [] ∨ ∃ op, cmd.body = .atomic (.zadd op)) :
    held (cmd.deferClaims res).1 = [] := by
  unfold deferClaims
  split
  · rfl
  · rename_i op hbody
    rcases h with h | ⟨z, hz⟩
    · exact h
    · simp [hbody] at hz
  · rename_i hz hx
    rcases h with h | ⟨z, hbody⟩
    · exact h
    · exact absurd hbody (hz z)

theorem Performs.keeps_claims
    (hop : cmd.atomicOp? = some op) (h : Performs i env tx sh op (.ok res) tx' sh') :
    held res.claims = [] ∨ ∃ z, cmd.body = .atomic (.zadd z) := by
  cases op with
  | plain p => exact .inl (by rw [h.claims_plain]; rfl)
  | zadd z => exact .inr ⟨z, Command.body_of_atomicOp hop nofun⟩
  | xadd x => exact .inl h.held_xadd

/-- Within a script no claim that holds a waiter is woken. -/
theorem Moves.wakesHeld (h : Moves i env sh s a sh' s') (hp : s.phase.wakesHeld = [])
    (hok : KeepsClaims sh s a) : s'.phase.wakesHeld = [] := by
  have ends {r : OpRun} {out : Outcome} (hout : held out.claims = []) :
      (s.complete r out).phase.wakesHeld = [] := by
    refine (completes s r out).wakesHeld fun res ho _ => Command.held_kept (.inl ?_)
    simpa [ho, Outcome.claims] using hout
  cases h with
  | submit | exec => exact of_dispatch (P := (·.wakesHeld = [])) rfl fun _ => rfl
  | begin d =>
    obtain ⟨phase, hn, heq⟩ := nextOp_eq s d (sh.begin d.isolation).1 []
    rw [heq]
    cases hn <;> rfl
  | keysChecked d tx =>
    obtain ⟨phase, hn, heq⟩ := nextOp_eq s d tx []
    rw [heq]
    cases hn <;> rfl
  | commitConflict d tx outcomes =>
    rw [conflicted_phase]
    rfl
  | atomic r op hph hop =>
    have hrun := performs i env r.tx sh op
    exact (completes _ _ _).wakesHeld fun res ho _ =>
      Command.held_kept (Performs.keeps_claims hop (ho ▸ hrun))
  | scriptDone r reply deferred hph =>
    refine (completes _ _ _).wakesHeld fun res ho hf => Command.held_kept (.inl ?_)
    cases ho
    exact (hok.ends r reply deferred rfl hph).resolve_left hf
  | wireWake r c rest sc deferred hph =>
    rw [hph] at hp
    simp only [Phase.wakesHeld, Stage.waking] at hp
    rw [held_cons, List.append_eq_nil_iff] at hp
    exact hp.2
  | enter r stage hph hst =>
    have hno : stage.waking = [] := by
      unfold Command.firstStage? at hst
      split at hst <;> cases hst <;> rfl
    show held stage.waking = []
    rw [hno, held_nil]
  | gaveBack | bzpopBeginFailed | bzpopError | bzpopCommit | bzpopCommitFailed | bzpopReceive
  | bzpopTimeout => exact ends rfl
  | flushEnd err r todo out hph hout => exact ends (by rw [hout]; rfl)
  | xreadEnd a r stage w out hph hs hout => exact ends (by rw [hout]; rfl)
  | refused | multi | spoiled | queued | unwatch | bzpopTimeoutClaimed | xreadTimeoutClaimed
  | flushRows => exact hp
  | _ => rfl

/-- Up to the commit, the claims carry what the transaction has popped. -/
theorem Moves.promise (h : Moves i env sh s a sh' s') (hp : popLedger.Keeps s.phase)
    (hr : Registered sh.registry) (hG : sh.Serves) (hL : s.HoldsClaims i sh)
    (hok : KeepsClaims sh s a) : popLedger.Keeps s'.phase := by
  refine h.ledger hp ⟨hok.fails, hok.ends⟩ fun r op out tx' sh'' ha hph hop hrun hb => ?_
  have hclaims : held s.phase.claims = held r.claims := by
    rw [hph]
    rfl
  rw [Ledger.of_append]
  refine hrun.matches hb hr hG (fun c hc => hL.holds c (hclaims ▸ hc)) fun z hz v hv => ?_
  exact hok.claims r z ha hph (hz ▸ hop) v hv

/-! ## After the commit -/

/-- After the commit, what the claims carry has been popped by a committed
transaction. -/
def Phase.Owed (log : List Commit) : Phase → Prop
  | .bump _ _ outcomes => ∀ c ∈ held (outcomes.flatMap Outcome.claims), ∀ r,
    c.result = some (.pop r) → ∃ c' ∈ log, ∃ p ∈ c'.pops, p.waiter = c.waiter ∧ p.result = r
  | .reply _ claims => ∀ c ∈ held claims, ∀ r,
    c.result = some (.pop r) → ∃ c' ∈ log, ∃ p ∈ c'.pops, p.waiter = c.waiter ∧ p.result = r
  | _ => True

/-- What session `i` has popped for others is with them, or on its way. -/
structure Session.Delivers (i : Nat) (sh : Shared) (s : Session) : Prop where
  delivered : ∀ c ∈ sh.log, c.session = i → ∀ p ∈ c.pops, sh.SentTo p ∨ s.phase.Owes p
  owed : s.phase.Owed sh.log

theorem exists_pop_of_grows (hlog : sh.LogGrows sh') {P : Pop → Prop}
    (h : ∃ c ∈ sh.log, ∃ p ∈ c.pops, P p) : ∃ c ∈ sh'.log, ∃ p ∈ c.pops, P p := by
  obtain ⟨c, hc, p, hp, hP⟩ := h
  obtain ⟨n, hn⟩ := List.mem_iff_getElem?.mp hc
  obtain ⟨c', hn', hlater⟩ := hlog.keeps hn
  exact ⟨c', List.mem_of_getElem? hn', p, hlater.pops ▸ hp, hP⟩

theorem Phase.Owed.grows (h : phase.Owed sh.log) (hlog : sh.LogGrows sh') : phase.Owed sh'.log := by
  cases phase with
  | bump d n outcomes => exact fun c hc r hr => exists_pop_of_grows hlog (h c hc r hr)
  | reply d claims => exact fun c hc r hr => exists_pop_of_grows hlog (h c hc r hr)
  | _ => trivial

theorem Phase.Owes.claim (h : phase.Owes p) : ∃ c ∈ held phase.claims, p.fits c := by
  cases phase <;> first | exact h | exact h.elim

theorem Phase.not_owes (h : phase.handsOver = false) (p : Pop) : ¬phase.Owes p := by
  cases phase <;> simp_all [Phase.handsOver, Phase.Owes]

theorem Phase.owed_of_not (h : phase.handsOver = false) (log : List Commit) : phase.Owed log := by
  cases phase <;> simp_all [Phase.handsOver, Phase.Owed]

/-- A claim with an open channel is woken. -/
theorem Shared.Serves.sentTo_wake (hG : sh.Serves) (hs : s.Registers sh)
    (hL : s.HoldsClaims i sh) (hc : c ∈ held s.phase.claims)
    (hr : sh'.registry = sh.registry.wake c) (hfit : p.fits c) : sh'.SentTo p := by
  obtain ⟨slot, hslot, hw, -, hopen⟩ := hG.claimed hs hL.holds hc
  simp only [Slot.open, Bool.and_eq_true, Option.isNone_iff_eq_none] at hopen
  refine ⟨slot.send c.result, ?_, ?_, ?_⟩
  · simp [hr, WatchRegistry.wake, (mem_held.mp hc).2, WatchRegistry.modifySlot_slots, ← hfit.1,
      hslot]
  · rw [← hfit.1, ← hw]
    rfl
  · simp [Slot.send, hopen, hfit.2]

/-- What is owed stays so until it is sent. -/
theorem HandsOver.owes (h : HandsOver sh s sh' s') (hG : sh.Serves) (hs : s.Registers sh)
    (hL : s.HoldsClaims i sh) (hp : s.phase.Owes p) : sh'.SentTo p ∨ s'.phase.Owes p := by
  cases h with
  | bump d n outcomes hph hph' =>
    rw [hph] at hp
    exact .inr (hph' ▸ hp)
  | wake d c rest hph hph' hr =>
    have hclaims : s.phase.claims = c :: rest := by
      rw [hph]
      rfl
    rw [hph] at hp
    obtain ⟨c', hmem, hfit⟩ := hp
    rw [held_cons, List.mem_append] at hmem
    rcases hmem with hmem | hmem
    · obtain ⟨rfl, hn⟩ : c' = c ∧ c'.notify = false := by simpa [mem_held] using hmem
      exact .inl (hG.sentTo_wake hs hL (by simp [hclaims, mem_held, hn]) hr hfit)
    · exact .inr (hph' ▸ ⟨c', hmem, hfit⟩)
  | done d hph =>
    rw [hph] at hp
    obtain ⟨c, hmem, -⟩ := hp
    cases hmem

theorem HandsOver.owed (h : HandsOver sh s sh' s') (hlog : sh.LogGrows sh')
    (hd : s.phase.Owed sh.log) : s'.phase.Owed sh'.log := by
  replace hd := hd.grows hlog
  cases h with
  | bump d n outcomes hph hph' =>
    rw [hph] at hd
    exact hph' ▸ hd
  | wake d c rest hph hph' =>
    rw [hph] at hd
    rw [hph']
    intro c' hc'
    apply hd
    rw [held_cons]
    exact List.mem_append_right _ hc'
  | done d hph hph' => exact Phase.owed_of_not hph' _

theorem Moves.delivers (h : Moves i env sh s a sh' s') (hh : Handles i env sh s a sh' s')
    (hr : Registered sh.registry) (hs : s.Registers sh) (hG : sh.Serves)
    (hL : s.HoldsClaims i sh) (hp : popLedger.Keeps s.phase) (hd : s.Delivers i sh) :
    s'.Delivers i sh' := by
  -- what earlier commits popped: it has been sent, is sent now, or is still owed
  have old (howes : ∀ p, s.phase.Owes p → sh'.SentTo p ∨ s'.phase.Owes p) {c c' : Commit}
      (hc : c ∈ sh.log) (hlater : c.Later c') (hi : c'.session = i) :
      ∀ p ∈ c'.pops, sh'.SentTo p ∨ s'.phase.Owes p := by
    intro p hmem
    rcases hd.delivered c hc (hlater.session ▸ hi) p (hlater.pops ▸ hmem) with hsent | h
    · exact .inl (hh.sentTo hr hs hG hsent)
    · exact howes p h
  have new {c' : Commit} (hc' : Commits i sh s s' c') :
      ∀ p ∈ c'.pops, sh'.SentTo p ∨ s'.phase.Owes p := by
    cases hc' with
    | batch d tx outcomes hph _ heq hs' =>
      subst heq hs'
      rw [hph] at hp
      exact fun p hmem => .inr (hp.each p hmem)
    | own r own p hph _ heq =>
      subst heq
      rw [hph] at hp
      simp [Shared.record, (hp.1 own rfl).1]
    | flush _ _ hpops => simp [hpops]
  cases hover : s.phase.handsOver with
  | false =>
    constructor
    · intro c' hc' hi
      rcases h.mem_log hc' with ⟨c, hc, hlater⟩ | hnew
      · exact old (fun p howes => absurd howes (Phase.not_owes hover p)) hc hlater hi
      · exact new hnew
    · rcases h.handsOver hover with hno | ⟨d, tx, outcomes, hph, hph', c', hc', hpops⟩
      · exact Phase.owed_of_not hno _
      · rw [hph] at hp
        rw [hph']
        intro c hc r hres
        obtain ⟨p, hmem, hfit⟩ := hp.back c hc r hres
        exact ⟨c', hc', p, hpops ▸ hmem, hfit⟩
  | true =>
    have hcases := h.handsOver_cases hover
    refine ⟨fun c' hc' hi => ?_, hcases.owed h.logGrows hd.owed⟩
    rcases h.mem_log hc' with ⟨c, hc, hlater⟩ | hnew
    · exact old (fun p => hcases.owes hG hs hL) hc hlater hi
    · exact new hnew

/-! ## The log -/

theorem Shared.announce_pops (sh : Shared) (p : Nat → Commit → Bool) :
    (sh.announce p).log.flatMap (·.pops) = sh.log.flatMap (·.pops) := by
  have hmap : (sh.announce p).log.map (·.pops) = sh.log.map (·.pops) := by
    apply List.ext_getElem?
    intro n
    simp only [announce, List.getElem?_map, List.getElem?_mapIdx, Option.map_map]
    congr 1
    funext c
    simp only [Function.comp_apply]
    split <;> rfl
  simp only [List.flatMap_def, hmap]

/-- Only the commit of a dispatch adds to what has been popped. -/
theorem Moves.log_pops (h : Moves i env sh s a sh' s') (hp : popLedger.Keeps s.phase) :
    sh'.log.flatMap (·.pops) = sh.log.flatMap (·.pops) ∨
      ∃ d tx outcomes, s.phase = .commit d tx outcomes ∧
        sh'.log.flatMap (·.pops) = sh.log.flatMap (·.pops) ++ tx.pops := by
  cases h with
  | commit d tx outcomes hph =>
    refine .inr ⟨d, tx, outcomes, hph, ?_⟩
    simp [Shared.commit, Shared.record]
  | bzpopCommit r own p hph =>
    rw [hph] at hp
    simp [Shared.commit, Shared.record, (hp.1 own rfl).1]
  | flushRows => simp [Shared.flushRows]
  | bump | bumpEpoch => exact .inl (Shared.announce_pops _ _)
  | atomic r op => exact .inl (congrArg _ (performs i env r.tx sh op).log.1)
  | _ => exact .inl rfl

/-- A waiter whose claim is in the hands of a session that has not committed yet has
been sent nothing, and is owed nothing. -/
theorem not_popped_of_held (hG : sh.Serves) (hs : s.Registers sh) (hL : s.HoldsClaims i sh)
    (hover : s.phase.handsOver = false) (hc : c ∈ held s.phase.claims) {q : Pop}
    (hid : q.waiter.id = c.waiter.id) {t : Session} (hsame : j = i → t = s)
    (ht : t.HoldsClaims j sh) : ¬(sh.SentTo q ∨ t.phase.Owes q) := by
  rintro (⟨slot, hslot, -, hsent⟩ | howes)
  · obtain ⟨slot', hslot', -, -, hopen⟩ := hG.claimed hs hL.holds hc
    rw [hid, hslot', Option.some.injEq] at hslot
    simp [Slot.open, hslot, hsent] at hopen
  · by_cases hj : j = i
    · exact Phase.not_owes (hsame hj ▸ hover) q howes
    · -- two sessions would hold the claim of one waiter
      obtain ⟨d, hd, hfit⟩ := howes.claim
      have hother := ht.holds d hd
      rw [hfit.1, hid, hL.holds c hc, Option.some.injEq] at hother
      exact hj hother.symm

theorem Moves.popsOnce (h : Moves i env sh s a sh' s') (hh : Handles i env sh s a sh' s')
    (hr : Registered sh.registry) (hs : s.Registers sh) (hG : sh.Serves)
    (hL : s.HoldsClaims i sh) (hwakes : s.phase.wakesHeld = []) (hp : popLedger.Keeps s.phase)
    (howed : s.phase.Owed sh.log) (hpops : sh.PopsOnce)
    (hlogged : ∀ c ∈ sh.log, ∀ q ∈ c.pops, ∃ j t, (j = i → t = s) ∧ t.HoldsClaims j sh ∧
      (sh.SentTo q ∨ t.phase.Owes q)) : sh'.PopsOnce where
  waits c' hc' := by
    rcases h.mem_log hc' with ⟨c, hc, hlater⟩ | new
    · rw [hlater.pops]
      exact hpops.waits c hc
    · cases new with
      | batch d tx outcomes hph _ heq =>
        subst heq
        rw [hph] at hp
        exact hp.waits
      | own r own p hph _ heq =>
        subst heq
        rw [hph] at hp
        simp [Shared.record, (hp.1 own rfl).1]
      | flush _ _ hnil => simp [hnil]
  once := by
    rcases h.log_pops hp with heq | ⟨d, tx, outcomes, hph, heq⟩
    · rw [heq]
      exact hpops.once
    · have hm : Matches tx.pops (held s.phase.claims) := by
        rw [hph] at hp ⊢
        exact hp
      rw [heq, List.map_append, List.nodup_append]
      refine ⟨hpops.once, hm.ids, ?_⟩
      rintro v hold w hnew rfl
      obtain ⟨q, hq, hqv⟩ := List.mem_map.mp hold
      obtain ⟨c, hc, hqc⟩ := List.mem_flatMap.mp hq
      obtain ⟨p, hpm, hpv⟩ := List.mem_map.mp hnew
      obtain ⟨e, he, hfit⟩ := hm.each p hpm
      obtain ⟨j, t, hsame, ht, hwhere⟩ := hlogged c hc q hqc
      exact not_popped_of_held hG hs hL (by rw [hph]; rfl) he
        (by rw [hqv, ← hpv, hfit.1]) hsame ht hwhere
  fromCommit v slot' r hslot' hsent := by
    rcases hh.sent_some hr hslot' hsent with ⟨slot, hslot, hsent⟩ | ⟨c, hwake, hc, hid, hres⟩ |
      ⟨x, hx⟩
    · exact exists_pop_of_grows h.logGrows (hpops.fromCommit v slot r hslot hsent)
    · -- a claim that holds a waiter is woken after the commit only
      have hcommit : ∃ c' ∈ sh.log, ∃ p ∈ c'.pops, p.waiter = c.waiter ∧ p.result = r := by
        cases hph : s.phase <;> rw [hph] at hwake hwakes howed <;> try cases hwake
        case ops run stage =>
          simp only [Phase.waking?] at hwake
          have hmem : c ∈ held stage.waking :=
            mem_held.mpr ⟨List.mem_of_mem_head? hwake, (mem_held.mp hc).2⟩
          rw [show held stage.waking = [] from hwakes] at hmem
          cases hmem
        case reply d claims =>
          refine howed c (mem_held.mpr ⟨?_, (mem_held.mp hc).2⟩) r hres
          exact List.mem_of_mem_head? hwake
      obtain ⟨c', hc', p, hpm, hw, hres⟩ := hcommit
      exact exists_pop_of_grows h.logGrows ⟨c', hc', p, hpm, by rw [hw, hid], hres⟩
    · cases hx

end

/-! ## In every run -/

/-- The shared part of the invariant. -/
structure Shared.Keeps (sh : Shared) : Prop where
  serves : sh.Serves
  pops : sh.PopsOnce

/-- The part of session `i`. -/
structure Session.Keeps (i : Nat) (sh : Shared) (s : Session) : Prop where
  holds : s.HoldsClaims i sh
  wakes : s.phase.wakesHeld = []
  promise : popLedger.Keeps s.phase
  delivers : s.Delivers i sh

theorem keeps_init (retryCount : Nat) :
    Holds Shared.Keeps Session.Keeps (World.init retryCount) where
  shared := ⟨.init, by simp [World.init, Shared.init], by simp [World.init, Shared.init],
    by simp [World.init, Shared.init, WatchRegistry.new]⟩
  thread i := ⟨⟨by simp [World.init, Phase.claims], by simp [World.init, Phase.claims]⟩, rfl,
    trivial, by simp [World.init, Shared.init], trivial⟩

theorem Shared.Keeps.tick (h : sh.Keeps) (clock : Int) : ({ sh with clock } : Shared).Keeps :=
  ⟨h.serves.congr rfl rfl rfl, h.pops.waits, h.pops.once, h.pops.fromCommit⟩

theorem Session.Keeps.tick {i : Nat} {s : Session} (h : s.Keeps i sh) (clock : Int) :
    s.Keeps i { sh with clock } :=
  ⟨⟨h.holds.ids, h.holds.holds⟩, h.wakes, h.promise, h.delivers.delivered, h.delivers.owed⟩

/-- In every run whose steps all keep the claims, what a committed transaction has
popped for a waiter is delivered to that waiter, exactly once. -/
theorem popsDelivered_of_reached (retryCount : Nat) {w : World}
    (h : World.Reached retryCount (fun w a => keepsClaims w a = true) w) : PopsDelivered w := by
  have hinv : Holds Shared.Keeps Session.Keeps w := by
    refine inv_of_threads_with (fun st hst => World.registered retryCount hst)
      (keeps_init retryCount) (fun st i a sh' s' hJ hinv hok hstep => ?_)
      (fun st i a sh' s' hJ hinv hok hstep j hj => ?_) h
    all_goals
      obtain ⟨clock, -, -, hmoves⟩ := moves_of_sessionStep hstep
      obtain ⟨hG, hpops⟩ := hinv.shared.tick clock
      obtain ⟨hL, hw, hp, hd⟩ := (hinv.thread i).tick clock
      have hs : (st.threads i).Registers { st.shared with clock } :=
        ⟨(hJ.thread i).fits, (hJ.thread i).waiter, (hJ.thread i).claims⟩
      have hok' : KeepsClaims { st.shared with clock } (st.threads i) a.1 :=
        have hc := KeepsClaims.of_true hok
        ⟨hc.claims, hc.keys, hc.fails, hc.ends, hc.hangUp⟩
      have hh := handles hmoves hs.fits
    · refine ⟨⟨hh.serves hG hJ.shared hs hL.holds hok', ?_⟩, hh.holdsClaims hG hL hok',
        hmoves.wakesHeld hw hok', hmoves.promise hp hJ.shared hG hL hok',
        hmoves.delivers hh hJ.shared hs hG hL hp hd⟩
      refine hmoves.popsOnce hh hJ.shared hs hG hL hw hp hd.owed hpops fun c hc q hq => ?_
      have ht := (hinv.thread c.session).tick clock
      exact ⟨c.session, st.threads c.session, fun he => by rw [he], ht.holds,
        ht.delivers.delivered c hc rfl q hq⟩
    · obtain ⟨hLj, hwj, hpj, hdj⟩ := (hinv.thread j).tick clock
      refine ⟨⟨hLj.ids, fun c hc => hh.holder_of_ne hG hL hok' hj (hLj.holds c hc)⟩, hwj, hpj,
        fun c' hc' hcj p hmem => ?_, hdj.owed.grows hmoves.logGrows⟩
      rcases hmoves.mem_log hc' with ⟨c, hc, hlater⟩ | new
      · rcases hdj.delivered c hc (hlater.session ▸ hcj) p (hlater.pops ▸ hmem) with hsent | howes
        · exact .inl (hh.sentTo hJ.shared hs hG hsent)
        · exact .inr howes
      · exact absurd (hcj.symm.trans new.session_eq) hj
  refine ⟨hinv.shared.pops, fun c hc p hp => ?_⟩
  obtain ⟨hL, -, -, hd⟩ := hinv.thread c.session
  rcases hd.delivered c hc rfl p hp with hsent | howes
  · exact .inl hsent
  · refine .inr ⟨howes, ?_⟩
    obtain ⟨e, he, hfit⟩ := howes.claim
    obtain ⟨slot, hslot, hw, -, hopen⟩ := hinv.shared.serves.claimed
      ((World.registered retryCount h).thread c.session) hL.holds he
    exact ⟨slot, hfit.1 ▸ hslot, hw.trans hfit.1, hopen⟩

/-! ## A delivery, and five that go wrong -/

/-- Session 0 adds a member to `z`, for which session 1 waits, and wakes it. -/
def serveWaiter : List (Nat × Action × List Tick) :=
  parkBzpop 1 [ascii "z"] ++ issue 0 (addToZ "1" "a") 1 ++ settle 0 1

theorem popsDelivered_serveWaiter :
    ∃ w, Transition.run (Transition.guarded World.step keepsClaims) (World.init 16)
        serveWaiter = some w ∧
      (w.shared.log.flatMap (·.pops)).map (·.result.member) = [ascii "a"] ∧ PopsDelivered w := by
  have heval : (Transition.run (Transition.guarded World.step keepsClaims) (World.init 16)
      serveWaiter).any (fun w =>
        (w.shared.log.flatMap (·.pops)).map (·.result.member) == [ascii "a"]) = true := by
    decide +kernel
  obtain ⟨w, hrun, hw⟩ := Transition.exists_of_run_any heval
  exact ⟨w, hrun, by simpa using hw,
    popsDelivered_of_reached 16 (Transition.reach_of_run _ .start hrun)⟩

/-- `BZPOPMIN z z` is served by two `ZADD`s. -/
def serveTwice : List (Nat × Action × List Tick) :=
  parkBzpop 1 [ascii "z", ascii "z"] ++ issue 0 (addToZ "1" "a") 1 ++ settle 0 1 ++
    issue 0 (addToZ "2" "b") 1 ++ settle 0 1

/-- An `XREAD` of `z` is served by a `ZADD`. -/
def serveReader : List (Nat × Action × List Tick) :=
  issue 1 (.xread 0 [(ascii "z", some ⟨0, 0⟩)] 1 true none) 2 ++ (1, .beginOwn none, []) ::
    runs 1 1 ++ issue 0 (addToZ "1" "a") 1 ++ settle 0 1

/-- The client hangs up between the claim and the commit. -/
def serveGone : List (Nat × Action × List Tick) :=
  parkBzpop 1 [ascii "z"] ++ issue 0 (addToZ "1" "a") 1 ++ (1, .hangUp, []) :: settle 0 1

/-- In an `EXEC` a script adds a member, then fails. -/
def serveAndFail : List (Nat × Action × List Tick) :=
  parkBzpop 1 [ascii "z"] ++
    [(0, .multi, []), (0, .submit (.eval (.call (addToZ "1" "a") fun _ => .fail "")), []),
      (0, .exec, []), (0, .begin none, [])] ++ runs 0 7 ++ settle 0 0

/-- A script issues an `EVAL` that adds a member; the transaction fails. -/
def serveFromInner : List (Nat × Action × List Tick) :=
  parkBzpop 1 [ascii "z"] ++
    issue 0 (.eval (.call (.eval (.call (addToZ "1" "a") .done)) .done)) 10 ++
    [(0, .commit (some .undefined), [])]

/-- A committed pop for a waiter of the wrong kind, or one that is neither sent nor
about to be, or a member in the channel of waiter 1 when nothing has committed. -/
def World.astray (w : World) : Bool :=
  (w.shared.log.any fun c => c.pops.any fun p => p.waiter.kind.isStream ||
    !(w.threads c.session).phase.handsOver && (w.shared.registry.slots p.waiter.id).all fun slot =>
      slot.waiter != p.waiter || slot.sent != some (.pop p.result)) ||
  w.shared.log.isEmpty && (w.shared.registry.slots 1).any fun slot =>
    match slot.sent with
    | some (.pop _) => true
    | _ => false

theorem not_popsDelivered_of_astray {w : World} (h : w.astray = true) : ¬PopsDelivered w := by
  intro hd
  simp only [World.astray, Bool.or_eq_true, Bool.and_eq_true, List.any_eq_true] at h
  rcases h with ⟨c, hc, p, hp, hkind | ⟨hover, hnot⟩⟩ | ⟨hlog, hsent⟩
  · rw [(hd.waits c hc p hp).1] at hkind
    cases hkind
  · rcases hd.delivered c hc p hp with ⟨slot, hslot, hw, hsent⟩ | ⟨howes, -⟩
    · simp [hslot, hw, hsent] at hnot
    · exact Phase.not_owes (by simpa using hover) p howes
  · obtain ⟨slot, hslot, hpop⟩ := (Option.any_eq_true _ _).mp hsent
    split at hpop
    · obtain ⟨c, hc, -⟩ := hd.fromCommit 1 slot _ hslot ‹_›
      rw [List.isEmpty_iff.mp hlog] at hc
      cases hc
    · cases hpop

/-- Runs in which a member is popped twice for one waiter, handed to a reader, sent to
a client that has hung up, popped without a delivery, and delivered without a commit. -/
theorem pops_go_astray : List.Forall
      (fun run => ∃ w, Transition.run World.step (World.init 16) run = some w ∧ ¬PopsDelivered w)
      [serveTwice, serveReader, serveGone, serveAndFail, serveFromInner] := by
  rw [List.forall_iff_forall_mem]
  intro run hrun
  have heval : (Transition.run World.step (World.init 16) run).any World.astray = true := by
    revert hrun run
    decide +kernel
  obtain ⟨w, hw, hastray⟩ := Transition.exists_of_run_any heval
  exact ⟨w, hw, not_popsDelivered_of_astray hastray⟩

end Invar
