import Invar.Common.WaiterQueues

/-!
# One operation, one waiter

An operation of the registry changes the slot and the places of one waiter and
leaves every other waiter where it was. Only the wake of a stream touches
several, all of them stream waiters. Nothing here asks that a client names its
keys once.
-/

namespace Invar

open KeyedQueues

/-- The queues hold registered waiters, under keys of theirs. -/
structure Registered (r : WatchRegistry) : Prop where
  known : ∀ {k w}, w ∈ r.waiters k → Known r w
  own : ∀ {k w}, w ∈ r.waiters k → k ∈ w.keys
  slotId : ∀ {id s}, r.slots id = some s → s.waiter.id = id
  fresh : ∀ {id}, r.nextId ≤ id → r.slots id = none

/-- `r` and `r'` agree on every waiter but `v`. -/
structure SameBut (v : Nat) (r r' : WatchRegistry) : Prop where
  slots : ∀ u, u ≠ v → r'.slots u = r.slots u
  count : ∀ k w, w.id ≠ v → (r'.waiters k).count w = (r.waiters k).count w

namespace SameBut

variable {v : Nat} {r r' r'' : WatchRegistry}

variable {k : Bytes} {c : Claim}

theorem mem (h : SameBut v r r') {w : Waiter} (hw : w.id ≠ v) :
    w ∈ r'.waiters k ↔ w ∈ r.waiters k := by
  rw [← List.count_pos_iff, h.count k w hw, List.count_pos_iff]

theorem trans (h : SameBut v r r') (h' : SameBut v r' r'') : SameBut v r r'' :=
  ⟨fun u hu => (h'.slots u hu).trans (h.slots u hu),
    fun k w hw => (h'.count k w hw).trans (h.count k w hw)⟩

theorem modifySlot (r : WatchRegistry) (v : Nat) (f : Slot → Slot) :
    SameBut v r (r.modifySlot v f) :=
  ⟨fun u hu => by rw [WatchRegistry.modifySlot_slots, if_neg hu], fun _ _ _ => rfl⟩

theorem retainOut (r : WatchRegistry) (ks : List Bytes) (v : Nat) :
    SameBut v r { r with waiters := WatchRegistry.retainOut r.waiters ks v } := by
  refine ⟨fun _ _ => rfl, fun k w hw => ?_⟩
  simp only [WatchRegistry.retainOut, retain_apply]
  split
  · exact List.count_filter (by simpa using hw)
  · rfl

theorem register {keys : List Bytes} {kind : WaitKind} (h : r' = (r.register keys kind).2) :
    SameBut r.nextId r r' := by
  subst h
  refine ⟨fun u hu => ?_, fun k w hw => ?_⟩
  · simp only [WatchRegistry.register, Function.update_of_ne hu]
  · have hne : (⟨r.nextId, keys, kind⟩ : Waiter) ≠ w := fun he => hw (he ▸ rfl)
    simp [WatchRegistry.register, pushBack_apply, List.count_replicate, hne]

theorem releaseFront (h : r' = r.releaseFront c) : SameBut c.waiter.id r r' := by
  rw [h, WatchRegistry.releaseFront]
  split
  · exact ⟨fun _ _ => rfl, fun _ _ _ => rfl⟩
  · have hpush : SameBut c.waiter.id r
        { r with waiters := pushFront r.waiters c.waiter.keys c.waiter } := by
      refine ⟨fun _ _ => rfl, fun k w hw => ?_⟩
      have hne : c.waiter ≠ w := fun he => hw (he ▸ rfl)
      simp [pushFront_apply, List.count_replicate, hne]
    exact hpush.trans (modifySlot _ _ _)

theorem timeout {w : Waiter} (h : r' = (r.timeout w).2) : SameBut w.id r r' :=
  h ▸ (retainOut r w.keys w.id).trans (modifySlot _ _ _)

theorem dropRegistration {w : Waiter} (h : r' = r.dropRegistration w) : SameBut w.id r r' :=
  h ▸ (retainOut r w.keys w.id).trans (modifySlot _ _ _)

theorem timedOut {w : Waiter} (h : r' = (r.timeout w).2.dropRegistration w) : SameBut w.id r r' :=
  (timeout rfl).trans (.dropRegistration h)

theorem wakeStreamWaiter (r : WatchRegistry) (publicKey : Bytes) (w : Waiter) :
    SameBut w.id r (r.wakeStreamWaiter publicKey w) :=
  (retainOut r w.keys w.id).trans (modifySlot _ _ _)

theorem wake (hc : c.notify = false) (h : r' = r.wake c) : SameBut c.waiter.id r r' := by
  simp only [h, WatchRegistry.wake, hc, Bool.false_eq_true, if_false]
  exact modifySlot _ _ _

theorem tryClaim (h : r.tryClaim k = some (c, r')) : SameBut c.waiter.id r r' := by
  unfold WatchRegistry.tryClaim at h
  split at h
  · cases h
  · rename_i w rest hk
    cases h
    have hpop : SameBut w.id r { r with waiters := Function.update r.waiters k rest } := by
      refine ⟨fun _ _ => rfl, fun k' v hv => ?_⟩
      by_cases hkk : k' = k
      · subst hkk
        have hne : w ≠ v := fun he => hv (he ▸ rfl)
        simp [hk, List.count_cons_of_ne hne]
      · simp [hkk]
    exact (hpop.trans (retainOut _ _ _)).trans (modifySlot _ _ _)

end SameBut

/-! ## What happens to the waiter itself -/

variable {r r' : WatchRegistry}

/-- The front waiter is the one that `try_claim` takes. -/
theorem WatchRegistry.tryClaim_front {k : Bytes} {c : Claim} (h : r.tryClaim k = some (c, r')) :
    (r.waiters k).head? = some c.waiter ∧ c.notify = false ∧ r'.nextId = r.nextId ∧
      r'.slots c.waiter.id = (r.slots c.waiter.id).map ({ · with claimed := true }) := by
  unfold WatchRegistry.tryClaim at h
  split at h
  · cases h
  · rename_i w rest hk
    cases h
    exact ⟨by simp [hk], rfl, rfl, by simp [modifySlot_slots]⟩

namespace Registered

variable {id : Nat} {k : Bytes} {s : Slot} {v w : Waiter} {f : Slot → Slot} {c : Claim}

/-- A queued waiter with the id of a slot is the slot's waiter. -/
theorem eq_of_slot (h : Registered r) (hs : r.slots id = some s) (hv : v ∈ r.waiters k)
    (hid : v.id = id) : v = s.waiter := by
  obtain ⟨s', hs', rfl⟩ := h.known hv
  rw [hid, hs] at hs'
  exact congrArg Slot.waiter (Option.some.inj hs').symm

theorem eq_of_known (h : Registered r) (hw : Known r w)
    (hv : v ∈ r.waiters k) (hid : v.id = w.id) : v = w := by
  obtain ⟨s, hs, rfl⟩ := hw
  exact h.eq_of_slot hs hv hid

theorem lt_nextId (h : Registered r) (hs : r.slots id = some s) : id < r.nextId := by
  by_contra hlt
  rw [h.fresh (Nat.le_of_not_lt hlt)] at hs
  cases hs

theorem new : Registered WatchRegistry.new :=
  ⟨by simp [WatchRegistry.new], by simp [WatchRegistry.new], by simp [WatchRegistry.new],
    fun _ => rfl⟩

/-- An operation on a registered waiter keeps what is registered, if it keeps the
waiter of its slot and puts only that waiter into queues, its own. -/
theorem step (h : Registered r) {v : Nat} (hsame : SameBut v r r')
    (hnext : r'.nextId = r.nextId) (hw : Known r w) (hv : w.id = v)
    (hslot : ∀ s', r'.slots v = some s' → s'.waiter = w) (hsome : ∃ s', r'.slots v = some s')
    (hqueue : ∀ k, ∀ u ∈ r'.waiters k, u.id = v → u = w ∧ k ∈ w.keys) : Registered r' := by
  obtain ⟨s', hs'⟩ := hsome
  have hknown : Known r' w := ⟨s', hv ▸ hs', hslot s' hs'⟩
  refine ⟨fun {k u} hu => ?_, fun {k u} hu => ?_, fun {id s} hs => ?_, fun {id} hid => ?_⟩
  · by_cases hid : u.id = v
    · exact (hqueue k u hu hid).1 ▸ hknown
    · obtain ⟨s, hs, hsu⟩ := h.known ((hsame.mem hid).mp hu)
      exact ⟨s, (hsame.slots u.id hid).trans hs, hsu⟩
  · by_cases hid : u.id = v
    · obtain ⟨rfl, hk⟩ := hqueue k u hu hid
      exact hk
    · exact h.own ((hsame.mem hid).mp hu)
  · by_cases hid : id = v
    · subst hid
      rw [hslot s hs, hv]
    · exact h.slotId ((hsame.slots id hid).symm.trans hs)
  · have hne : id ≠ v := by
      intro he
      obtain ⟨s, hs, -⟩ := hw
      have := h.lt_nextId hs
      omega
    rw [hsame.slots id hne]
    exact h.fresh (hnext ▸ hid)

/-- The same for an operation that puts nothing into queues. -/
theorem shrink (h : Registered r) (hsame : SameBut w.id r r')
    (hnext : r'.nextId = r.nextId) (hw : Known r w)
    (hf : ∀ s, (f s).waiter = s.waiter) (hslot : r'.slots w.id = (r.slots w.id).map f)
    (hqueue : ∀ k, ∀ u ∈ r'.waiters k, u ∈ r.waiters k) : Registered r' := by
  obtain ⟨s, hs, hsw⟩ := hw
  have hs' : r'.slots w.id = some (f s) := by rw [hslot, hs, Option.map_some]
  refine h.step hsame hnext ⟨s, hs, hsw⟩ rfl (fun s' hs'' => ?_) ⟨f s, hs'⟩ fun k u hu hid => ?_
  · rw [hs'] at hs''
    rw [← Option.some.inj hs'', hf, hsw]
  · obtain rfl := h.eq_of_known ⟨s, hs, hsw⟩ (hqueue k u hu) hid
    exact ⟨rfl, h.own (hqueue k u hu)⟩

/-- A waiter leaves its queues; its slot changes but keeps its waiter. -/
theorem leaveQueues (h : Registered r) (hw : Known r w) (hf : ∀ s, (f s).waiter = s.waiter) :
    Registered ({ r with
      waiters := WatchRegistry.retainOut r.waiters w.keys w.id }.modifySlot w.id f) := by
  refine h.shrink ((SameBut.retainOut r w.keys w.id).trans (.modifySlot _ _ _)) rfl hw hf ?_ ?_
  · rw [WatchRegistry.modifySlot_slots, if_pos rfl]
  · exact fun k u hu => (mem_retain.mp hu).1

theorem register (h : Registered r) (keys : List Bytes) (kind : WaitKind) :
    Registered (r.register keys kind).2 := by
  have hsame : SameBut r.nextId r (r.register keys kind).2 := .register rfl
  have hslot : (r.register keys kind).2.slots r.nextId =
      some { waiter := ⟨r.nextId, keys, kind⟩ } := by
    simp [WatchRegistry.register]
  have hqueue : ∀ k u, u ∈ (r.register keys kind).2.waiters k →
      u ∈ r.waiters k ∨ k ∈ keys ∧ u = ⟨r.nextId, keys, kind⟩ := fun k u hu => mem_pushBack.mp hu
  refine ⟨fun {k u} hu => ?_, fun {k u} hu => ?_, fun {id s} hs => ?_, fun {id} hid => ?_⟩
  · rcases hqueue k u hu with hu | ⟨-, rfl⟩
    · obtain ⟨s, hs, hsu⟩ := h.known hu
      exact ⟨s, (hsame.slots u.id (Nat.ne_of_lt (h.lt_nextId hs))).trans hs, hsu⟩
    · exact ⟨_, hslot, rfl⟩
  · rcases hqueue k u hu with hu | ⟨hk, rfl⟩
    · exact h.own hu
    · exact hk
  · by_cases hid : id = r.nextId
    · subst hid
      rw [hslot] at hs
      exact Option.some.inj hs ▸ rfl
    · exact h.slotId ((hsame.slots id hid).symm.trans hs)
  · have hid' : r.nextId + 1 ≤ id := hid
    rw [hsame.slots id (by omega)]
    exact h.fresh (by omega)

theorem tryClaim (h : Registered r)
    (hc : r.tryClaim k = some (c, r')) : Known r c.waiter ∧ Registered r' := by
  obtain ⟨hfront, -, hnext, hslot⟩ := WatchRegistry.tryClaim_front hc
  have hw : Known r c.waiter := h.known (List.mem_of_mem_head? hfront)
  refine ⟨hw, h.shrink (.tryClaim hc) hnext hw (f := ({ · with claimed := true }))
    (fun _ => rfl) hslot fun k' u hu => ?_⟩
  unfold WatchRegistry.tryClaim at hc
  split at hc
  · cases hc
  · rename_i w rest hk
    cases hc
    have hu := (mem_retain.mp hu).1
    by_cases hkk : k' = k
    · subst hkk
      rw [Function.update_self] at hu
      simp [hk, hu]
    · rwa [Function.update_of_ne hkk] at hu

theorem releaseFront (h : Registered r) (hw : c.notify = false → Known r c.waiter) :
    Registered (r.releaseFront c) := by
  have hsame : SameBut c.waiter.id r (r.releaseFront c) := .releaseFront rfl
  unfold WatchRegistry.releaseFront at hsame ⊢
  split
  · exact h
  · rename_i hn
    rw [if_neg hn] at hsame
    have hw := hw (by simpa using hn)
    obtain ⟨s, hs, hsw⟩ := hw
    have hslot : ∀ f : Slot → Slot, ({ r with
        waiters := KeyedQueues.pushFront r.waiters c.waiter.keys c.waiter }.modifySlot
          c.waiter.id f).slots c.waiter.id = some (f s) := by
      intro f
      rw [WatchRegistry.modifySlot_slots, if_pos rfl]
      simp [hs]
    refine h.step hsame rfl ⟨s, hs, hsw⟩ rfl (fun s' hs' => ?_) ⟨_, hslot _⟩ fun k u hu hid => ?_
    · rw [hslot] at hs'
      exact Option.some.inj hs' ▸ hsw
    · rcases mem_pushFront.mp hu with ⟨hk, rfl⟩ | hu
      · exact ⟨rfl, hk⟩
      · obtain rfl := h.eq_of_known ⟨s, hs, hsw⟩ hu hid
        exact ⟨rfl, h.own hu⟩

theorem timeout (h : Registered r) (hw : Known r w) : Registered (r.timeout w).2 :=
  h.leaveQueues hw (fun _ => rfl)

theorem dropRegistration (h : Registered r) (hw : Known r w) : Registered (r.dropRegistration w) :=
  h.leaveQueues hw (fun _ => rfl)

theorem wakeStreamWaiter (h : Registered r) (hw : Known r w) (publicKey : Bytes) :
    Registered (r.wakeStreamWaiter publicKey w) :=
  h.leaveQueues hw (fun _ => rfl)

/-- Waking the waiters `ws` takes them out of all queues and uses up their channels;
every other waiter stays as it was. -/
structure WakesAll (publicKey : Bytes) (ws : List Waiter) (r r' : WatchRegistry) : Prop where
  registered : Registered r'
  nextId : r'.nextId = r.nextId
  known : ∀ w, Known r w → Known r' w
  others : ∀ v, v ∉ ws.map Waiter.id →
    r'.slots v = r.slots v ∧ ∀ k w, w.id = v → (r'.waiters k).count w = (r.waiters k).count w
  woken : ∀ w ∈ ws, ∃ s, r.slots w.id = some s ∧ s.waiter = w ∧
    r'.slots w.id = some { s.send (some (.stream ⟨publicKey⟩)) with claimed := true }
  gone : ∀ w ∈ ws, ∀ k, w ∉ r'.waiters k

theorem foldl_wakeStreamWaiter (h : Registered r) (publicKey : Bytes) (ws : List Waiter)
    (hws : ∀ w ∈ ws, Known r w) :
    WakesAll publicKey ws r (ws.foldl (WatchRegistry.wakeStreamWaiter publicKey) r) := by
  induction ws generalizing r with
  | nil => exact ⟨h, rfl, fun _ => id, fun _ _ => ⟨rfl, fun _ _ _ => rfl⟩, by simp, by simp⟩
  | cons w ws ih =>
    have hw := hws w (by simp)
    have hsame := SameBut.wakeStreamWaiter r publicKey w
    have hknown : ∀ v, Known r v → Known (r.wakeStreamWaiter publicKey w) v :=
      fun v hv => Known.modifySlot hv w.id (fun _ => rfl)
    have hslot : ∀ s, r.slots w.id = some s → (r.wakeStreamWaiter publicKey w).slots w.id =
        some { s.send (some (.stream ⟨publicKey⟩)) with claimed := true } := by
      intro s hs
      rw [WatchRegistry.wakeStreamWaiter, WatchRegistry.modifySlot_slots, if_pos rfl]
      simp [hs]
    have hgone : ∀ k, w ∉ (r.wakeStreamWaiter publicKey w).waiters k := by
      intro k hmem
      obtain ⟨hmem, hp⟩ := mem_retain.mp hmem
      simp [h.own hmem] at hp
    have hrec := ih (h.wakeStreamWaiter hw publicKey) fun v hv => hknown v (hws v (by simp [hv]))
    rw [List.foldl_cons]
    refine ⟨hrec.registered, hrec.nextId, fun v hv => hrec.known v (hknown v hv),
      fun v hv => ?_, fun v hv => ?_, fun v hv k => ?_⟩
    · simp only [List.map_cons, List.mem_cons, not_or] at hv
      obtain ⟨hs, hcount⟩ := hrec.others v hv.2
      exact ⟨hs.trans (hsame.slots v hv.1),
        fun k u hu => (hcount k u hu).trans (hsame.count k u (hu ▸ hv.1))⟩
    · obtain ⟨s, hs, hsv⟩ := hws v hv
      refine ⟨s, hs, hsv, ?_⟩
      by_cases hid : v.id = w.id
      · rw [hid] at hs ⊢
        by_cases hmem : w.id ∈ ws.map Waiter.id
        · -- woken again: the channel is used up already
          obtain ⟨u, hu, huid⟩ := List.mem_map.mp hmem
          obtain ⟨s', hs', -, hs''⟩ := hrec.woken u hu
          rw [huid, hslot s hs, Option.some.injEq] at hs'
          rw [← huid, hs'', ← hs']
          simp [Slot.send]
        · rw [(hrec.others w.id hmem).1, hslot s hs]
      · obtain ⟨s', hs', -, hs''⟩ := hrec.woken v ((List.mem_cons.mp hv).resolve_left (by
          rintro rfl
          exact hid rfl))
        rw [hsame.slots v.id hid, hs, Option.some.injEq] at hs'
        rw [hs'', ← hs']
    · by_cases hmem : v ∈ ws
      · exact hrec.gone v hmem k
      · obtain rfl := (List.mem_cons.mp hv).resolve_right hmem
        by_cases hids : v.id ∈ ws.map Waiter.id
        · obtain ⟨u, hu, huid⟩ := List.mem_map.mp hids
          obtain ⟨s, hs, hsu⟩ := hws u (by simp [hu])
          obtain ⟨s', hs', hsv⟩ := hw
          rw [huid, hs', Option.some.injEq] at hs
          exact absurd hu (by rw [← hsu, ← hs, hsv]; exact hmem)
        · rw [← List.count_pos_iff, (hrec.others v.id hids).2 k v rfl, List.count_pos_iff]
          exact hgone k

/-- The stream waiters that a notification finds. -/
theorem wakeStreamWaiters (h : Registered r) (publicKey : Bytes) :
    WakesAll publicKey ((r.waiters publicKey).filter (·.kind.isStream)) r
      (r.wakeStreamWaiters publicKey) :=
  h.foldl_wakeStreamWaiter publicKey _ fun _ hw => h.known (List.mem_filter.mp hw).1

theorem wake (h : Registered r) (hw : c.notify = false → Known r c.waiter) :
    Registered (r.wake c) := by
  unfold WatchRegistry.wake
  split
  · exact (h.wakeStreamWaiters _).registered
  · rename_i hn
    refine h.shrink (.modifySlot _ _ _) rfl (hw (by simpa using hn)) (f := Slot.send c.result)
      (fun _ => rfl) ?_ fun k u hu => hu
    rw [WatchRegistry.modifySlot_slots, if_pos rfl]

/-- A waiter that stands once in the queue it is claimed from stands in none after. -/
theorem tryClaim_out (h : Registered r)
    (hc : r.tryClaim k = some (c, r')) (honce : (r.waiters k).count c.waiter = 1) (k' : Bytes) :
    c.waiter ∉ r'.waiters k' := by
  unfold WatchRegistry.tryClaim at hc
  split at hc
  · cases hc
  · rename_i w rest hk
    cases hc
    intro hmem
    obtain ⟨hmem, hp⟩ := mem_retain.mp hmem
    by_cases hkk : k' = k
    · subst hkk
      rw [Function.update_self] at hmem
      rw [hk, List.count_cons_self] at honce
      exact absurd (List.count_pos_iff.mpr hmem) (by omega)
    · rw [Function.update_of_ne hkk] at hmem
      have hown : k' ∈ w.keys.filter fun key => decide (key ≠ k) := by simp [h.own hmem, hkk]
      simpa using hp hown

/-- A waiter that leaves stands in no queue after. -/
theorem not_mem_retainOut (h : Registered r) (hw : Known r w)
    {u : Waiter} (hu : u ∈ WatchRegistry.retainOut r.waiters w.keys w.id k) : u.id ≠ w.id := by
  intro hid
  obtain ⟨hmem, hp⟩ := mem_retain.mp hu
  obtain rfl := h.eq_of_known hw hmem hid
  simpa using hp (h.own hmem)

end Registered

/-- Slots are never removed and keep their waiter. -/
theorem Known.of_sameBut {v : Nat} {w : Waiter} (h : Known r w)
    (hsame : SameBut v r r') (hv : w.id = v → Known r' w) : Known r' w := by
  by_cases hid : w.id = v
  · exact hv hid
  · obtain ⟨s, hs, hsw⟩ := h
    exact ⟨s, (hsame.slots w.id hid).trans hs, hsw⟩

end Invar
