import Invar.Common.Registry
import Invar.Lib.Reach

/-!
# What the waiter queues hold

`WellQueued` is about the queues alone: a waiter that stands in one of its
queues stands exactly once in each of them, and in no other. Where it holds,
every way of taking a waiter out (`try_claim`, the stream wake, a timeout, a
drop) has one and the same effect, `without`.

On top of it, `Exact` says which waiters stand in the queues: the live ones.
-/

namespace Invar

open KeyedQueues

/-- The queues with the waiter `id` taken out of all of them. -/
def without (q : Bytes → List Waiter) (id : Nat) : Bytes → List Waiter :=
  fun k => (q k).filter (fun w => decide (w.id ≠ id))

variable {k : Bytes} {w : Waiter} {r r' : WatchRegistry} {f : Slot → Slot} {c : Claim}
  {keys : List Bytes}

theorem mem_without {q : Bytes → List Waiter} {id : Nat} :
    w ∈ without q id k ↔ w ∈ q k ∧ w.id ≠ id := by
  simp [without]

structure WellQueued (q : Bytes → List Waiter) : Prop where
  nodup : ∀ k, (q k).Nodup
  own : ∀ {k w}, w ∈ q k → k ∈ w.keys
  everywhere : ∀ {k k' w}, w ∈ q k → k' ∈ w.keys → w ∈ q k'
  keysNodup : ∀ {k w}, w ∈ q k → w.keys.Nodup
  sameId : ∀ {k k' w w'}, w ∈ q k → w' ∈ q k' → w.id = w'.id → w = w'

namespace WellQueued

variable {q : Bytes → List Waiter}

theorem empty : WellQueued (fun _ => []) := by
  constructor <;> simp

/-- Waiters leave all their queues together. -/
theorem filter (h : WellQueued q) (p : Waiter → Bool) : WellQueued (fun k => (q k).filter p) where
  nodup k := (h.nodup k).filter _
  own hw := h.own (List.mem_filter.mp hw).1
  everywhere hw hk := by
    obtain ⟨hw, hp⟩ := List.mem_filter.mp hw
    exact List.mem_filter.mpr ⟨h.everywhere hw hk, hp⟩
  keysNodup hw := h.keysNodup (List.mem_filter.mp hw).1
  sameId hw hw' := h.sameId (List.mem_filter.mp hw).1 (List.mem_filter.mp hw').1

theorem without (h : WellQueued q) (id : Nat) : WellQueued (without q id) := h.filter _

/-- A waiter can join, at either end, when no queued waiter has its id. -/
private theorem join {q' : Bytes → List Waiter} (h : WellQueued q)
    (hks : w.keys.Nodup) (hnew : ∀ k, ∀ v ∈ q k, v.id ≠ w.id)
    (hmem : ∀ {k v}, v ∈ q' k ↔ v ∈ q k ∨ k ∈ w.keys ∧ v = w)
    (hnodup : ∀ k, (q' k).Nodup) : WellQueued q' where
  nodup := hnodup
  own hv := by
    rcases hmem.mp hv with hv | ⟨hk, rfl⟩
    · exact h.own hv
    · exact hk
  everywhere hv hk' := by
    rcases hmem.mp hv with hv | ⟨_, rfl⟩
    · exact hmem.mpr (.inl (h.everywhere hv hk'))
    · exact hmem.mpr (.inr ⟨hk', rfl⟩)
  keysNodup hv := by
    rcases hmem.mp hv with hv | ⟨_, rfl⟩
    · exact h.keysNodup hv
    · exact hks
  sameId hv hv' hid := by
    rcases hmem.mp hv with hv | ⟨_, rfl⟩ <;> rcases hmem.mp hv' with hv' | ⟨_, rfl⟩
    · exact h.sameId hv hv' hid
    · exact absurd hid (hnew _ _ hv)
    · exact absurd hid.symm (hnew _ _ hv')
    · rfl

theorem pushBack (h : WellQueued q) (hks : w.keys.Nodup)
    (hnew : ∀ k, ∀ v ∈ q k, v.id ≠ w.id) : WellQueued (pushBack q w.keys w) := by
  refine h.join hks hnew mem_pushBack (fun k => ?_)
  rw [pushBack_of_nodup hks]
  split
  · refine List.Nodup.append (h.nodup k) (by simp) ?_
    intro v hv hw
    exact hnew k v hv (by rw [List.mem_singleton.mp hw])
  · exact h.nodup k

theorem pushFront (h : WellQueued q) (hks : w.keys.Nodup)
    (hnew : ∀ k, ∀ v ∈ q k, v.id ≠ w.id) : WellQueued (pushFront q w.keys w) := by
  refine h.join hks hnew (mem_pushFront.trans or_comm) (fun k => ?_)
  rw [pushFront_of_nodup hks]
  split
  · exact List.nodup_cons.mpr ⟨fun hw => hnew k w hw rfl, h.nodup k⟩
  · exact h.nodup k

/-- Searching only the waiter's own keys takes it out of every queue. -/
theorem retainOut_eq (h : WellQueued q) (hw : ∀ {k v}, v ∈ q k → v.id = w.id → v = w) :
    WatchRegistry.retainOut q w.keys w.id = Invar.without q w.id := by
  funext k
  rw [WatchRegistry.retainOut, retain_apply, Invar.without]
  split
  · rfl
  · next hk =>
    symm
    rw [List.filter_eq_self]
    intro v hv
    have hne : v.id ≠ w.id := fun hid => hk (hw hv hid ▸ h.own hv)
    simp [hne]

/-- Popping the front and searching the waiter's other keys takes it out of
every queue. -/
theorem popped_eq (h : WellQueued q) {rest : List Waiter} (hk : q k = w :: rest) :
    WatchRegistry.retainOut (Function.update q k rest)
      (w.keys.filter (fun key => decide (key ≠ k))) w.id = Invar.without q w.id := by
  have hwk : w ∈ q k := by simp [hk]
  funext k'
  rw [WatchRegistry.retainOut, retain_apply, Invar.without]
  by_cases hkk : k' = k
  · subst hkk
    have hnot : w ∉ rest := (List.nodup_cons.mp (hk ▸ h.nodup k')).1
    have hrest : rest.filter (fun v => decide (v.id ≠ w.id)) = rest := by
      rw [List.filter_eq_self]
      intro v hv
      have hvk : v ∈ q k' := by simp [hk, hv]
      have hne : v.id ≠ w.id := fun hid => hnot (h.sameId hvk hwk hid ▸ hv)
      simp [hne]
    simp only [List.mem_filter, ne_eq, not_true_eq_false, decide_false, Bool.false_eq_true,
      and_false, if_false, Function.update_self, hk, List.filter_cons] at hrest ⊢
    exact hrest.symm
  · have hsame := congrFun (h.retainOut_eq (fun hv hid => h.sameId hv hwk hid)) k'
    rw [WatchRegistry.retainOut, retain_apply, Invar.without] at hsame
    simpa [hkk] using hsame

end WellQueued

/-! ## Slots -/

namespace WatchRegistry

@[simp] theorem modifySlot_waiters (r : WatchRegistry) (id : Nat) (f : Slot → Slot) :
    (r.modifySlot id f).waiters = r.waiters := rfl

@[simp] theorem modifySlot_nextId (r : WatchRegistry) (id : Nat) (f : Slot → Slot) :
    (r.modifySlot id f).nextId = r.nextId := rfl

theorem modifySlot_slots (r : WatchRegistry) (id : Nat) (f : Slot → Slot) (id' : Nat) :
    (r.modifySlot id f).slots id' = if id' = id then (r.slots id).map f else r.slots id' := by
  simp only [modifySlot, Function.update_apply]

theorem modifySlot_slots_some {id id' : Nat} {s : Slot}
    (h : (r.modifySlot id f).slots id' = some s) :
    id' = id ∧ (∃ s₀, r.slots id = some s₀ ∧ s = f s₀) ∨ id' ≠ id ∧ r.slots id' = some s := by
  rw [modifySlot_slots] at h
  split at h
  · next hid =>
    obtain ⟨s₀, hs₀, rfl⟩ := Option.map_eq_some_iff.mp h
    exact .inl ⟨hid, s₀, hs₀, rfl⟩
  · next hid => exact .inr ⟨hid, h⟩

end WatchRegistry

/-- Queues and slots agree on who the waiters are. -/
structure Consistent (r : WatchRegistry) : Prop extends WellQueued r.waiters where
  known : ∀ {k w}, w ∈ r.waiters k → ∃ s, r.slots w.id = some s ∧ s.waiter = w
  slotId : ∀ {id s}, r.slots id = some s → s.waiter.id = id
  slotKeys : ∀ {id s}, r.slots id = some s → s.waiter.keys.Nodup
  fresh : ∀ {id}, r.nextId ≤ id → r.slots id = none

namespace Consistent

theorem new : Consistent WatchRegistry.new where
  toWellQueued := .empty
  known hw := by simp [WatchRegistry.new] at hw
  slotId hs := by simp [WatchRegistry.new] at hs
  slotKeys hs := by simp [WatchRegistry.new] at hs
  fresh _ := rfl

variable {id : Nat} {v : Waiter} {s : Slot}

theorem ne_of_fresh (h : Consistent r) (hid : r.nextId ≤ id) (hv : v ∈ r.waiters k) :
    v.id ≠ id := by
  intro he
  obtain ⟨s, hs, _⟩ := h.known hv
  rw [he, h.fresh hid] at hs
  cases hs

/-- A queued waiter with the id of a slot is the slot's waiter. -/
theorem eq_of_slot (h : Consistent r) (hs : r.slots id = some s) (hv : v ∈ r.waiters k)
    (hid : v.id = id) : v = s.waiter := by
  obtain ⟨s', hs', rfl⟩ := h.known hv
  rw [hid, hs] at hs'
  exact congrArg Slot.waiter (Option.some.inj hs').symm

/-- A change of a slot that keeps its waiter. -/
theorem touch (h : Consistent r)
    (hf : ∀ s, (f s).waiter = s.waiter) : Consistent (r.modifySlot id f) where
  toWellQueued := h.toWellQueued
  known {k w} hw := by
    obtain ⟨s, hs, hsw⟩ := h.known hw
    rw [WatchRegistry.modifySlot_slots]
    split
    · next hid => exact ⟨f s, by rw [← hid, hs]; rfl, (hf s).trans hsw⟩
    · exact ⟨s, hs, hsw⟩
  slotId hs := by
    rcases WatchRegistry.modifySlot_slots_some hs with ⟨rfl, s₀, hs₀, rfl⟩ | ⟨_, hs⟩
    · rw [hf, h.slotId hs₀]
    · exact h.slotId hs
  slotKeys hs := by
    rcases WatchRegistry.modifySlot_slots_some hs with ⟨rfl, s₀, hs₀, rfl⟩ | ⟨_, hs⟩
    · rw [hf]
      exact h.slotKeys hs₀
    · exact h.slotKeys hs
  fresh {id'} hid := by
    rw [WatchRegistry.modifySlot_slots]
    split
    · next he => rw [← he, h.fresh hid]; rfl
    · exact h.fresh hid

theorem without (h : Consistent r) (id : Nat) :
    Consistent { r with waiters := Invar.without r.waiters id } where
  toWellQueued := h.toWellQueued.without id
  known hv := h.known (mem_without.mp hv).1
  slotId := h.slotId
  slotKeys := h.slotKeys
  fresh := h.fresh

theorem register (h : Consistent r) (hks : keys.Nodup) (kind : WaitKind) :
    Consistent (r.register keys kind).2 where
  toWellQueued := h.toWellQueued.pushBack hks
    (fun _ _ hv => h.ne_of_fresh (Nat.le_refl _) hv)
  known {k v} hv := by
    rcases mem_pushBack.mp hv with hv | ⟨_, rfl⟩
    · obtain ⟨s, hs, hsw⟩ := h.known hv
      refine ⟨s, ?_, hsw⟩
      simp only [WatchRegistry.register,
        Function.update_of_ne (h.ne_of_fresh (Nat.le_refl _) hv), hs]
    · exact ⟨{ waiter := ⟨r.nextId, keys, kind⟩ }, by simp [WatchRegistry.register], rfl⟩
  slotId {id s} hs := by
    simp only [WatchRegistry.register, Function.update_apply] at hs
    split at hs
    · next hid => cases hs; exact hid.symm
    · exact h.slotId hs
  slotKeys {id s} hs := by
    simp only [WatchRegistry.register, Function.update_apply] at hs
    split at hs
    · cases hs; exact hks
    · exact h.slotKeys hs
  fresh {id} hid := by
    have hid' : r.nextId + 1 ≤ id := hid
    simp only [WatchRegistry.register, Function.update_apply]
    rw [if_neg (by omega)]
    exact h.fresh (by omega)

/-- The waiter that comes back must be out of the queues. -/
theorem release (h : Consistent r) (hs : r.slots c.waiter.id = some s) (hw : s.waiter = c.waiter)
    (hout : ∀ k, c.waiter ∉ r.waiters k) : Consistent (r.releaseFront c) := by
  unfold WatchRegistry.releaseFront
  split
  · exact h
  have hnew : ∀ k, ∀ v ∈ r.waiters k, v.id ≠ c.waiter.id := by
    intro k v hv hid
    exact hout k (hw ▸ h.eq_of_slot hs hv hid ▸ hv)
  have hback : Consistent
      { r with waiters := KeyedQueues.pushFront r.waiters c.waiter.keys c.waiter } := by
    refine ⟨h.toWellQueued.pushFront (hw ▸ h.slotKeys hs) hnew, ?_, h.slotId, h.slotKeys,
      h.fresh⟩
    intro k v hv
    rcases mem_pushFront.mp hv with ⟨_, rfl⟩ | hv
    · exact ⟨s, hs, hw⟩
    · exact h.known hv
  exact hback.touch (fun _ => rfl)

end Consistent

/-- The queues hold the live waiters, each once under each of its keys. -/
structure Exact (r : WatchRegistry) : Prop extends Consistent r where
  queued : ∀ {id s k}, r.slots id = some s →
    (s.waiter ∈ r.waiters k ↔ s.live = true ∧ k ∈ s.waiter.keys)

namespace Exact

theorem new : Exact WatchRegistry.new where
  toConsistent := .new
  queued hs := by simp [WatchRegistry.new] at hs

variable {id : Nat} {s : Slot} {f : Slot → Slot}

theorem count (h : Exact r) (hs : r.slots id = some s) (k : Bytes) : (r.waiters k).count s.waiter =
      if s.live = true ∧ k ∈ s.waiter.keys then 1 else 0 := by
  split
  · next hk => exact List.count_eq_one_of_mem (h.nodup k) ((h.queued hs).mpr hk)
  · next hk => exact List.count_eq_zero_of_not_mem (fun hw => hk ((h.queued hs).mp hw))

/-- A claimed waiter is in no queue. -/
theorem not_queued_of_claimed (h : Exact r) (hs : r.slots id = some s)
    (hc : s.claimed = true) (k : Bytes) : s.waiter ∉ r.waiters k := by
  intro hw
  have hlive := ((h.queued hs).mp hw).1
  simp [Slot.live, hc] at hlive

/-- A change of a slot that keeps its waiter and whether it is live. -/
theorem touch (h : Exact r) (hf : ∀ s, (f s).waiter = s.waiter ∧ (f s).live = s.live) :
    Exact (r.modifySlot id f) where
  toConsistent := h.toConsistent.touch (fun s => (hf s).1)
  queued hs := by
    rcases WatchRegistry.modifySlot_slots_some hs with ⟨rfl, s₀, hs₀, rfl⟩ | ⟨_, hs⟩
    · rw [(hf s₀).1, (hf s₀).2]
      exact h.queued hs₀
    · exact h.queued hs

/-- Taking a waiter out of its queues together with a change of its slot after
which it is not live. -/
theorem leave (h : Exact r) (hf : ∀ s, (f s).waiter = s.waiter) (hlive : ∀ s, (f s).live = false) :
    Exact ({ r with waiters := without r.waiters id }.modifySlot id f) where
  toConsistent := (h.toConsistent.without id).touch hf
  queued {id' s' k} hs' := by
    rcases WatchRegistry.modifySlot_slots_some hs' with ⟨rfl, s₀, hs₀, rfl⟩ | ⟨hne, hs'⟩
    · simp [hlive, hf, mem_without, h.slotId hs₀]
    · have hid : s'.waiter.id ≠ id := by rw [h.slotId hs']; exact hne
      simp only [WatchRegistry.modifySlot_waiters, mem_without, hid, ne_eq, not_false_eq_true,
        and_true]
      exact h.queued hs'

theorem register (h : Exact r) (hks : keys.Nodup) (kind : WaitKind) :
    Exact (r.register keys kind).2 where
  toConsistent := h.toConsistent.register hks kind
  queued {id s k} hs := by
    simp only [WatchRegistry.register, Function.update_apply] at hs ⊢
    rw [mem_pushBack]
    split at hs
    · cases hs
      have hno : ⟨r.nextId, keys, kind⟩ ∉ r.waiters k :=
        fun hw => h.ne_of_fresh (Nat.le_refl _) hw rfl
      simp [Slot.live, hno]
    · next hid =>
      have hne : s.waiter ≠ ⟨r.nextId, keys, kind⟩ := by
        intro he
        have := h.slotId hs
        rw [he] at this
        exact hid this.symm
      simp only [hne, and_false, or_false]
      exact h.queued hs

theorem release (h : Exact r) (hs : r.slots c.waiter.id = some s) (hw : s.waiter = c.waiter)
    (hclaimed : s.claimed = true) (hreceiver : s.receiver = true) (htimedOut : s.timedOut = false) :
    Exact (r.releaseFront c) := by
  have hout : ∀ k, c.waiter ∉ r.waiters k := hw ▸ h.not_queued_of_claimed hs hclaimed
  refine ⟨h.toConsistent.release hs hw hout, ?_⟩
  unfold WatchRegistry.releaseFront
  split
  · exact h.queued
  intro id s' k hs'
  simp only [WatchRegistry.modifySlot_waiters, mem_pushFront]
  rcases WatchRegistry.modifySlot_slots_some hs' with ⟨rfl, s₀, hs₀, rfl⟩ | ⟨hne, hs'⟩
  · obtain rfl := Option.some.inj (hs.symm.trans hs₀)
    simp [Slot.live, hreceiver, htimedOut, hout k, hw]
  · have hid : s'.waiter ≠ c.waiter := by
      intro he
      have := h.slotId hs'
      rw [he] at this
      exact hne this.symm
    simp only [hid, and_false, false_or]
    exact h.queued hs'

end Exact

/-! ## The operations -/

/-- The registry has a slot for exactly this waiter. -/
def Known (r : WatchRegistry) (w : Waiter) : Prop :=
  ∃ s, r.slots w.id = some s ∧ s.waiter = w

theorem Known.modifySlot (h : Known r w) (id : Nat)
    (hf : ∀ s, (f s).waiter = s.waiter) : Known (r.modifySlot id f) w := by
  obtain ⟨s, hs, hw⟩ := h
  unfold Known
  rw [WatchRegistry.modifySlot_slots]
  split
  · next hid => exact ⟨f s, by rw [← hid, hs]; rfl, (hf s).trans hw⟩
  · exact ⟨s, hs, hw⟩

theorem Consistent.retainOut_known (h : Consistent r) (hw : Known r w) :
    WatchRegistry.retainOut r.waiters w.keys w.id = Invar.without r.waiters w.id := by
  obtain ⟨s, hs, rfl⟩ := hw
  exact h.retainOut_eq (fun hv hid => h.eq_of_slot hs hv hid)

/-- Waking stream waiters takes exactly them out of the queues. -/
theorem Consistent.foldl_wakeStreamWaiter (publicKey : Bytes)
    (ws : List Waiter) (h : Consistent r) (hws : ∀ w ∈ ws, Known r w) :
    let r' := ws.foldl (WatchRegistry.wakeStreamWaiter publicKey) r
    Consistent r' ∧ r'.nextId = r.nextId ∧ (∀ v, Known r v → Known r' v) ∧
      ∀ k, r'.waiters k = (r.waiters k).filter (fun v => !(ws.map Waiter.id).contains v.id) := by
  induction ws generalizing r with
  | nil => exact ⟨h, rfl, fun _ hv => hv, by simp⟩
  | cons w ws ih =>
    have hr : Consistent (r.wakeStreamWaiter publicKey w) := by
      unfold WatchRegistry.wakeStreamWaiter
      rw [h.retainOut_known (hws w (by simp))]
      exact (h.without w.id).touch (fun _ => rfl)
    have hknown : ∀ v, Known r v → Known (r.wakeStreamWaiter publicKey w) v :=
      fun v hv => Known.modifySlot hv w.id (fun _ => rfl)
    obtain ⟨hcons, hid, hkeep, hq⟩ := ih hr (fun v hv => hknown v (hws v (by simp [hv])))
    refine ⟨hcons, hid, fun v hv => hkeep v (hknown v hv), fun k => ?_⟩
    have hone : (r.wakeStreamWaiter publicKey w).waiters k = Invar.without r.waiters w.id k := by
      rw [← h.retainOut_known (hws w (by simp))]
      rfl
    rw [List.foldl_cons, hq, hone, Invar.without, List.filter_filter]
    refine List.filter_congr (fun v _ => ?_)
    by_cases hv : v.id = w.id <;> simp [hv]

namespace Exact

/-- `leave`, in the form in which the operations that search the waiter's keys
take it out. -/
theorem leave_keys (h : Exact r) (hw : Known r w)
    (hf : ∀ s, (f s).waiter = s.waiter) (hlive : ∀ s, (f s).live = false) :
    Exact ({ r with
      waiters := WatchRegistry.retainOut r.waiters w.keys w.id }.modifySlot w.id f) := by
  rw [h.retainOut_known hw]
  exact h.leave hf hlive

theorem timeout (h : Exact r) (hw : Known r w) : Exact (r.timeout w).2 :=
  h.leave_keys hw (fun _ => rfl) (fun s => by simp [Slot.live])

theorem dropRegistration (h : Exact r) (hw : Known r w) : Exact (r.dropRegistration w) :=
  h.leave_keys hw (fun _ => rfl) (fun s => by simp [Slot.live])

theorem wakeStreamWaiter (h : Exact r) (hw : Known r w) (publicKey : Bytes) :
    Exact (r.wakeStreamWaiter publicKey w) :=
  h.leave_keys hw (fun _ => rfl) (fun s => by simp [Slot.live])

theorem foldl_wakeStreamWaiter (publicKey : Bytes) (ws : List Waiter) (h : Exact r)
    (hws : ∀ w ∈ ws, Known r w) :
    Exact (ws.foldl (WatchRegistry.wakeStreamWaiter publicKey) r) := by
  induction ws generalizing r with
  | nil => exact h
  | cons w ws ih =>
    refine ih (h.wakeStreamWaiter (hws w (by simp)) publicKey) (fun v hv => ?_)
    exact (hws v (by simp [hv])).modifySlot w.id (fun _ => rfl)

theorem wakeStreamWaiters (h : Exact r) (publicKey : Bytes) :
    Exact (r.wakeStreamWaiters publicKey) :=
  h.foldl_wakeStreamWaiter publicKey _ (fun _ hw => h.known (List.mem_filter.mp hw).1)

theorem wake (h : Exact r) (c : Claim) : Exact (r.wake c) := by
  unfold WatchRegistry.wake
  split
  · exact h.wakeStreamWaiters _
  · exact h.touch (fun s => ⟨rfl, rfl⟩)

end Exact

theorem WatchRegistry.tryClaim_eq_none : r.tryClaim k = none ↔ r.waiters k = [] := by
  unfold WatchRegistry.tryClaim
  split <;> simp_all

/-- What a successful `try_claim` does: it takes the front waiter out of all its
queues. -/
theorem WatchRegistry.tryClaim_some (h : WellQueued r.waiters) (hc : r.tryClaim k = some (c, r')) :
    ∃ w rest, r.waiters k = w :: rest ∧ c = { waiter := w } ∧
      r' = { r with waiters := without r.waiters w.id }.modifySlot w.id
        ({ · with claimed := true }) := by
  unfold WatchRegistry.tryClaim at hc
  split at hc
  · cases hc
  · next w rest hk =>
    cases hc
    exact ⟨w, rest, hk, rfl, by rw [h.popped_eq hk]⟩

theorem Exact.tryClaim (h : Exact r) (hc : r.tryClaim k = some (c, r')) : Exact r' := by
  obtain ⟨w, rest, hk, rfl, rfl⟩ := WatchRegistry.tryClaim_some h.toWellQueued hc
  exact h.leave (fun _ => rfl) (fun _ => by simp [Slot.live])

/-! ## Open claims -/

/-- The waiters `ws` are held by open claims, one claim each. -/
structure OpenClaims (r : WatchRegistry) (ws : List Waiter) : Prop where
  ids : (ws.map Waiter.id).Nodup
  claimed : ∀ w ∈ ws, ∃ s, r.slots w.id = some s ∧ s.waiter = w ∧ s.claimed = true

namespace OpenClaims

variable {ws : List Waiter}

theorem nil : OpenClaims r [] := ⟨by simp, by simp⟩

variable {ws' : List Waiter}

theorem sublist (h : OpenClaims r ws) (hs : ws'.Sublist ws) : OpenClaims r ws' :=
  ⟨h.ids.sublist (hs.map _), fun w hw => h.claimed w (hs.subset hw)⟩

theorem congr (h : OpenClaims r ws)
    (hr : ∀ w ∈ ws, r'.slots w.id = r.slots w.id) : OpenClaims r' ws := by
  refine ⟨h.ids, fun w hw => ?_⟩
  rw [hr w hw]
  exact h.claimed w hw

/-- No slot change but a release forgets that a waiter is claimed. -/
theorem modifySlot (h : OpenClaims r ws) (id : Nat)
    (hf : ∀ s, (f s).waiter = s.waiter ∧ (s.claimed = true → (f s).claimed = true)) :
    OpenClaims (r.modifySlot id f) ws := by
  refine ⟨h.ids, fun w hw => ?_⟩
  obtain ⟨s, hs, hsw, hsc⟩ := h.claimed w hw
  rw [WatchRegistry.modifySlot_slots]
  split
  · next hid => exact ⟨f s, by rw [← hid, hs]; rfl, (hf s).1.trans hsw, (hf s).2 hsc⟩
  · exact ⟨s, hs, hsw, hsc⟩

theorem register (h : OpenClaims r ws) (hr : Exact r) (keys : List Bytes) (kind : WaitKind) :
    OpenClaims (r.register keys kind).2 ws := by
  refine h.congr (fun w hw => ?_)
  obtain ⟨s, hs, _⟩ := h.claimed w hw
  have hne : w.id ≠ r.nextId := by
    intro he
    rw [he, hr.fresh (Nat.le_refl _)] at hs
    cases hs
  simp only [WatchRegistry.register, Function.update_of_ne hne]

theorem foldl_wakeStreamWaiter (publicKey : Bytes) (vs : List Waiter) (h : OpenClaims r ws) :
    OpenClaims (vs.foldl (WatchRegistry.wakeStreamWaiter publicKey) r) ws := by
  induction vs generalizing r with
  | nil => exact h
  | cons v vs ih =>
    have hr : OpenClaims
        { r with waiters := WatchRegistry.retainOut r.waiters v.keys v.id } ws :=
      h.congr (fun _ _ => rfl)
    exact ih (hr.modifySlot v.id (fun _ => ⟨rfl, fun _ => rfl⟩))

theorem wake (h : OpenClaims r ws) (c : Claim) : OpenClaims (r.wake c) ws := by
  unfold WatchRegistry.wake
  split
  · exact h.foldl_wakeStreamWaiter _ _
  · exact h.modifySlot _ (fun _ => ⟨rfl, id⟩)

theorem timeout (h : OpenClaims r ws) (w : Waiter) : OpenClaims (r.timeout w).2 ws := by
  have hr : OpenClaims (r.removeWaiter w).2 ws := h.congr (fun _ _ => rfl)
  exact hr.modifySlot w.id (fun _ => ⟨rfl, id⟩)

theorem dropRegistration (h : OpenClaims r ws) (w : Waiter) :
    OpenClaims (r.dropRegistration w) ws := by
  have hr : OpenClaims (r.removeWaiter w).2 ws := h.congr (fun _ _ => rfl)
  exact hr.modifySlot w.id (fun _ => ⟨rfl, id⟩)

/-- A claim takes a waiter that no open claim holds: a held one is in no queue. -/
theorem tryClaim (h : OpenClaims r ws) (hr : Exact r) (hc : r.tryClaim k = some (c, r')) :
    OpenClaims r' (ws ++ [c.waiter]) := by
  obtain ⟨w, rest, hk, rfl, rfl⟩ := WatchRegistry.tryClaim_some hr.toWellQueued hc
  have hwk : w ∈ r.waiters k := by simp [hk]
  obtain ⟨s, hs, hsw⟩ := hr.known hwk
  have hlive := ((hr.queued hs).mp (hsw ▸ hwk)).1
  have hnew : w.id ∉ ws.map Waiter.id := by
    intro hmem
    obtain ⟨v, hv, hid⟩ := List.mem_map.mp hmem
    obtain ⟨s', hs', _, hclaimed⟩ := h.claimed v hv
    rw [hid, hs] at hs'
    obtain rfl := Option.some.inj hs'
    simp [Slot.live, hclaimed] at hlive
  refine ⟨?_, ?_⟩
  · rw [List.map_append, List.map_singleton]
    exact h.ids.append (by simp) (by simpa using hnew)
  · intro v hv
    rcases List.mem_append.mp hv with hv | hv
    · have hr' : OpenClaims { r with waiters := without r.waiters w.id } ws :=
        h.congr (fun _ _ => rfl)
      exact (hr'.modifySlot w.id (f := ({ · with claimed := true }))
        (fun _ => ⟨rfl, fun _ => rfl⟩)).claimed v hv
    · obtain rfl := List.mem_singleton.mp hv
      refine ⟨{ s with claimed := true }, ?_, hsw, rfl⟩
      rw [WatchRegistry.modifySlot_slots, if_pos rfl]
      simp only [hs, Option.map_some]

theorem release (h : OpenClaims r ws)
    (hws : c.notify = false → c.waiter.id ∉ ws'.map Waiter.id) (hsub : ws'.Sublist ws) :
    OpenClaims (r.releaseFront c) ws' := by
  unfold WatchRegistry.releaseFront
  split
  · exact h.sublist hsub
  · next hn =>
    refine (h.sublist hsub).congr (fun w hw => ?_)
    have hne : w.id ≠ c.waiter.id := by
      intro he
      exact hws (by simpa using hn) (he ▸ List.mem_map_of_mem hw)
    rw [WatchRegistry.modifySlot_slots, if_neg hne]

end OpenClaims

end Invar
