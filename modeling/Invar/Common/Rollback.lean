import Mathlib.Data.List.Induction
import Invar.Common.WaiterQueues

/-!
# Giving claims back

When an attempt is abandoned, `release_claims` gives back the claims of its ops,
oldest first, each to the front of its queues. This module compares that with a
line in which a claimed waiter keeps its place (`Line`): the order in which
clients wait is then never in question. `Line.Tracks` relates the two, every
operation keeps it, and giving claims back keeps it in exactly the cases that
`Line.GivesBackInOrder` describes.
-/

namespace Invar

open KeyedQueues

/-- The claims of an abandoned attempt are released in the order in which they
were made: ops in batch order, and a script's claims in the order of its calls. -/
def giveBack (r : WatchRegistry) (claims : List Claim) : WatchRegistry :=
  claims.foldl WatchRegistry.releaseFront r

/-- The waiter a claim took, if it took one. -/
def Claim.waiter? (c : Claim) : Option Waiter := if c.notify then none else some c.waiter

/-- What happens to the registry while a batch runs. The first three are the
batch's own: `abandon kept` gives back all claims but the first `kept`, so
`abandon 0` ends the whole attempt and another number ends a script inside it,
whose claims come after those of the ops before it. The others are what other
clients do meanwhile. -/
inductive AttemptEvent where
  | claim (publicKey : Bytes)
  | notification (publicKey : Bytes)
  | abandon (kept : Nat)
  | register (keys : List Bytes) (kind : WaitKind)
  | timeout (id : Nat)
  | drop (id : Nat)
  | otherClaim (publicKey : Bytes)
  | otherWake (publicKey : Bytes)

structure Attempt where
  registry : WatchRegistry
  claims : List Claim := []

def Attempt.step (a : Attempt) : AttemptEvent → Attempt
  | .claim k =>
    match a.registry.tryClaim k with
    | none => a
    | some (c, r) => { registry := r, claims := a.claims ++ [c] }
  | .notification k => { a with claims := a.claims ++ [WatchRegistry.streamNotification k] }
  | .abandon kept =>
    { registry := giveBack a.registry (a.claims.drop kept), claims := a.claims.take kept }
  | .register keys kind => { a with registry := (a.registry.register keys kind).2 }
  | .timeout id =>
    match a.registry.slots id with
    | none => a
    | some s => { a with registry := (a.registry.timeout s.waiter).2 }
  | .drop id =>
    match a.registry.slots id with
    | none => a
    | some s => { a with registry := a.registry.dropRegistration s.waiter }
  | .otherClaim k =>
    match a.registry.tryClaim k with
    | none => a
    | some (_, r) => { a with registry := r }
  | .otherWake k => { a with registry := a.registry.wakeStreamWaiters k }

/-! ## The line in which everyone keeps their place -/

/-- `order k` lists all clients waiting on `k`, longest waiting first, also those
that the attempt holds; `held` follows the attempt's claims. -/
structure Line where
  order : Bytes → List Waiter
  held : List (Option Waiter)
  nextId : Nat

namespace Line

/-- The line of a registry before an attempt. -/
def ofRegistry (r : WatchRegistry) : Line := { order := r.waiters, held := [], nextId := r.nextId }

/-- Those in the line of `k` that the attempt does not hold. -/
def waiting (l : Line) (k : Bytes) : List Waiter :=
  (l.order k).filter (fun w => !l.held.contains (some w))

/-- Those of `p` that are not held go away. -/
def leave (l : Line) (p : Waiter → Bool) : Line :=
  { l with order := fun k => (l.order k).filter (fun w => l.held.contains (some w) || !p w) }

def step (l : Line) : AttemptEvent → Line
  | .claim k =>
    match l.waiting k with
    | [] => l
    | w :: _ => { l with held := l.held ++ [some w] }
  | .notification _ => { l with held := l.held ++ [none] }
  | .abandon kept => { l with held := l.held.take kept }
  | .register keys kind =>
    { l with order := pushBack l.order keys ⟨l.nextId, keys, kind⟩, nextId := l.nextId + 1 }
  | .timeout id => l.leave (fun w => w.id == id)
  | .drop id => l.leave (fun w => w.id == id)
  | .otherClaim k =>
    match l.waiting k with
    | [] => l
    | v :: _ => l.leave (fun w => w.id == v.id)
  | .otherWake k => l.leave (fun w => (l.waiting k).contains w && w.kind.isStream)

/-- The waiters on `k` that are given back, latest claim first. -/
def givenBack (l : Line) (kept : Nat) (k : Bytes) : List Waiter :=
  (((l.held.drop kept).filterMap id).filter (fun w => decide (k ∈ w.keys))).reverse

/-- On every key, those given back come first in the line, in the reverse of the
order in which they were claimed. -/
def GivesBackInOrder (l : Line) (kept : Nat) : Prop :=
  ∀ k, l.givenBack kept k <+: (l.step (.abandon kept)).waiting k

/-! ## How the line follows an attempt -/

/-- The line knows the attempt's waiters and claims; nothing is said of the
order in the queues. -/
structure Follows (l : Line) (a : Attempt) : Prop where
  consistent : Consistent a.registry
  lined : WellQueued l.order
  nextId : a.registry.nextId = l.nextId
  held : l.held = a.claims.map Claim.waiter?
  heldIds : ((l.held.filterMap id).map Waiter.id).Nodup
  heldIn : ∀ {w}, some w ∈ l.held → Known a.registry w ∧ ∀ k ∈ w.keys, w ∈ l.order k

/-- The queues are the line without those that the attempt holds. -/
structure Tracks (l : Line) (a : Attempt) : Prop extends Follows l a where
  queue : ∀ k, a.registry.waiters k = l.waiting k

theorem mem_waiting {l : Line} {k : Bytes} {w : Waiter} :
    w ∈ l.waiting k ↔ w ∈ l.order k ∧ some w ∉ l.held := by
  simp [waiting]

theorem waiting_leave (l : Line) (p : Waiter → Bool) (k : Bytes) :
    (l.leave p).waiting k = (l.waiting k).filter (fun w => !p w) := by
  simp only [waiting, leave, List.filter_filter]
  refine List.filter_congr (fun w _ => ?_)
  cases l.held.contains (some w) <;> simp

theorem Tracks.ofRegistry {r : WatchRegistry} (h : Consistent r) :
    (ofRegistry r).Tracks { registry := r } where
  consistent := h
  lined := h.toWellQueued
  nextId := rfl
  held := rfl
  heldIds := by simp [Line.ofRegistry]
  heldIn hw := by simp [Line.ofRegistry] at hw
  queue k := by simp [waiting, Line.ofRegistry]

namespace Tracks

variable {l : Line} {a : Attempt}

variable {w : Waiter}

theorem known (h : l.Tracks a) {k : Bytes} (hw : w ∈ l.order k) : Known a.registry w := by
  by_cases hheld : some w ∈ l.held
  · exact (h.heldIn hheld).1
  · exact h.consistent.known (by rw [h.queue]; exact mem_waiting.mpr ⟨hw, hheld⟩)

/-- A held waiter is in no queue. -/
theorem not_queued (h : l.Tracks a) (hw : some w ∈ l.held) (k : Bytes) :
    w ∉ a.registry.waiters k := by
  rw [h.queue]
  exact fun hq => (mem_waiting.mp hq).2 hw

theorem fresh (h : l.Tracks a) (hw : Known a.registry w) : w.id ≠ l.nextId := by
  intro he
  obtain ⟨s, hs, _⟩ := hw
  rw [he, ← h.nextId, h.consistent.fresh (Nat.le_refl _)] at hs
  cases hs

/-- Other clients that leave take themselves out of queue and line alike. -/
theorem leave (h : l.Tracks a) (p : Waiter → Bool) {r : WatchRegistry} (hr : Consistent r)
    (hq : ∀ k, r.waiters k = (a.registry.waiters k).filter (fun w => !p w))
    (hknown : ∀ w, Known a.registry w → Known r w) (hid : r.nextId = a.registry.nextId) :
    (l.leave p).Tracks { a with registry := r } where
  consistent := hr
  lined := h.lined.filter _
  nextId := hid.trans h.nextId
  held := h.held
  heldIds := h.heldIds
  heldIn {w} hw := by
    refine ⟨hknown w (h.heldIn hw).1, fun k hk => ?_⟩
    refine List.mem_filter.mpr ⟨(h.heldIn hw).2 k hk, ?_⟩
    simp only [List.contains_iff_mem.mpr (show some w ∈ l.held from hw), Bool.true_or]
  queue k := by rw [waiting_leave, ← h.queue, hq]

theorem leave_id (h : l.Tracks a) (id : Nat) {f : Slot → Slot} (hf : ∀ s, (f s).waiter = s.waiter) :
    (l.leave (fun w => w.id == id)).Tracks { a with
      registry := { a.registry with
        waiters := without a.registry.waiters id }.modifySlot id f } := by
  refine h.leave _ ((h.consistent.without id).touch hf) (fun k => ?_) (fun w hw => ?_) rfl
  · refine List.filter_congr (fun w _ => ?_)
    by_cases hid : w.id = id <;> simp [hid]
  · obtain ⟨s, hs, hsw⟩ := hw
    exact Known.modifySlot
      ⟨s, hs, hsw⟩ id hf

/-- Nobody with an unknown id waits. -/
theorem leave_unknown (h : l.Tracks a) {id : Nat} (hid : a.registry.slots id = none) :
    (l.leave (fun w => w.id == id)).Tracks a := by
  refine h.leave _ h.consistent (fun k => ?_) (fun _ hw => hw) rfl
  symm
  rw [List.filter_eq_self]
  intro w hw
  have hne : w.id ≠ id := by
    intro he
    obtain ⟨s, hs, _⟩ := h.consistent.known hw
    rw [he, hid] at hs
    cases hs
  simpa using hne

theorem claim (h : l.Tracks a) (k : Bytes) : (l.step (.claim k)).Tracks (a.step (.claim k)) := by
  cases hc : a.registry.tryClaim k with
  | none =>
    have hempty : l.waiting k = [] := by
      rw [← h.queue]
      exact WatchRegistry.tryClaim_eq_none.mp hc
    simpa only [step, Attempt.step, hc, hempty] using h
  | some cr =>
    obtain ⟨c, r⟩ := cr
    obtain ⟨w, rest, hk, rfl, rfl⟩ := WatchRegistry.tryClaim_some h.consistent.toWellQueued hc
    have hwk : w ∈ a.registry.waiters k := by simp [hk]
    obtain ⟨horder, hfree⟩ := mem_waiting.mp (h.queue k ▸ hwk)
    have hwait : l.waiting k = w :: rest := (h.queue k).symm.trans hk
    have hl : l.step (.claim k) = { l with held := l.held ++ [some w] } := by
      simp only [step, hwait]
    have ha : a.step (.claim k) =
        { registry := { a.registry with waiters := without a.registry.waiters w.id }.modifySlot
            w.id ({ · with claimed := true })
          claims := a.claims ++ [{ waiter := w }] } := by
      simp only [Attempt.step, hc]
    rw [hl, ha]
    have hids : w.id ∉ (l.held.filterMap id).map Waiter.id := by
      intro hmem
      obtain ⟨v, hv, hid⟩ := List.mem_map.mp hmem
      have hv' : some v ∈ l.held := by simpa using hv
      obtain ⟨sv, hsv, hvw⟩ := (h.heldIn hv').1
      have := h.consistent.eq_of_slot hsv hwk hid.symm
      exact hfree (this.trans hvw ▸ hv')
    refine ⟨⟨(h.consistent.without w.id).touch (fun _ => rfl), h.lined, h.nextId, ?_, ?_, ?_⟩, ?_⟩
    · simp [h.held, Claim.waiter?]
    · simp only [List.filterMap_append, List.map_append]
      exact h.heldIds.append (by simp) (by simpa using hids)
    · intro v hv
      have hback : ∀ u, Known a.registry u → Known
          ({ a.registry with waiters := without a.registry.waiters w.id }.modifySlot w.id
            ({ · with claimed := true })) u :=
        fun u hu => Known.modifySlot
          hu w.id
          (fun _ => rfl)
      rcases List.mem_append.mp hv with hv | hv
      · exact ⟨hback v (h.heldIn hv).1, (h.heldIn hv).2⟩
      · obtain rfl : v = w := by simpa using hv
        exact ⟨hback v (h.consistent.known hwk), fun k' hk' => h.lined.everywhere horder hk'⟩
    · intro k'
      show without a.registry.waiters w.id k' = _
      have hsplit : waiting { l with held := l.held ++ [some w] } k' =
          (l.waiting k').filter (fun v => decide (v.id ≠ w.id)) := by
        simp only [waiting, List.filter_filter]
        refine List.filter_congr (fun v hv => ?_)
        have hvw : v.id = w.id ↔ v = w :=
          ⟨fun hid => h.lined.sameId hv horder hid, fun he => by rw [he]⟩
        by_cases he : v = w <;> simp [hvw, he]
      rw [hsplit, ← h.queue]
      rfl

theorem register (h : l.Tracks a) {keys : List Bytes} (hks : keys.Nodup) (kind : WaitKind) :
    (l.step (.register keys kind)).Tracks (a.step (.register keys kind)) := by
  have hout : ∀ k, ∀ v ∈ l.order k, v.id ≠ l.nextId := fun k v hv => h.fresh (h.known hv)
  have hfree : some ⟨l.nextId, keys, kind⟩ ∉ l.held :=
    fun hw => h.fresh (h.heldIn hw).1 rfl
  refine ⟨⟨h.consistent.register hks kind, h.lined.pushBack hks hout, ?_, h.held, h.heldIds, ?_⟩,
    ?_⟩
  · simp [Attempt.step, WatchRegistry.register, step, h.nextId]
  · intro w hw
    obtain ⟨⟨s, hs, hsw⟩, hin⟩ := h.heldIn hw
    refine ⟨⟨s, ?_, hsw⟩, fun k hk => mem_pushBack.mpr (.inl (hin k hk))⟩
    have hne : w.id ≠ a.registry.nextId := h.nextId ▸ h.fresh ⟨s, hs, hsw⟩
    simp only [Attempt.step, WatchRegistry.register, Function.update_of_ne hne, hs]
  · intro k
    simp only [Attempt.step, WatchRegistry.register, step, waiting, pushBack_of_nodup hks,
      h.nextId]
    have hq := h.queue k
    simp only [waiting] at hq
    split
    · rw [List.filter_append, ← hq]
      simp [hfree]
    · exact hq

theorem notification (h : l.Tracks a) (k : Bytes) :
    (l.step (.notification k)).Tracks (a.step (.notification k)) := by
  refine ⟨⟨h.consistent, h.lined, h.nextId, ?_, ?_, ?_⟩, ?_⟩
  · simp [step, Attempt.step, h.held, Claim.waiter?, WatchRegistry.streamNotification]
  · simpa [step] using h.heldIds
  · intro w hw
    exact h.heldIn (by simpa [step] using hw)
  · intro k'
    simpa [step, Attempt.step, waiting] using h.queue k'

theorem timeout (h : l.Tracks a) (id : Nat) :
    (l.step (.timeout id)).Tracks (a.step (.timeout id)) := by
  cases hs : a.registry.slots id with
  | none => simpa only [step, Attempt.step, hs] using h.leave_unknown hs
  | some s =>
    have hid := h.consistent.slotId hs
    simp only [step, Attempt.step, hs, WatchRegistry.timeout, WatchRegistry.removeWaiter]
    rw [h.consistent.retainOut_known ⟨s, hid ▸ hs, rfl⟩, hid]
    exact h.leave_id id (fun _ => rfl)

theorem drop (h : l.Tracks a) (id : Nat) : (l.step (.drop id)).Tracks (a.step (.drop id)) := by
  cases hs : a.registry.slots id with
  | none => simpa only [step, Attempt.step, hs] using h.leave_unknown hs
  | some s =>
    have hid := h.consistent.slotId hs
    simp only [step, Attempt.step, hs, WatchRegistry.dropRegistration,
      WatchRegistry.removeWaiter]
    rw [h.consistent.retainOut_known ⟨s, hid ▸ hs, rfl⟩, hid]
    exact h.leave_id id (fun _ => rfl)

theorem otherClaim (h : l.Tracks a) (k : Bytes) :
    (l.step (.otherClaim k)).Tracks (a.step (.otherClaim k)) := by
  cases hc : a.registry.tryClaim k with
  | none =>
    have hempty : l.waiting k = [] := by
      rw [← h.queue]
      exact WatchRegistry.tryClaim_eq_none.mp hc
    simpa only [step, Attempt.step, hc, hempty] using h
  | some cr =>
    obtain ⟨c, r⟩ := cr
    obtain ⟨w, rest, hk, rfl, rfl⟩ := WatchRegistry.tryClaim_some h.consistent.toWellQueued hc
    have hwait : l.waiting k = w :: rest := (h.queue k).symm.trans hk
    simp only [step, Attempt.step, hc, hwait]
    exact h.leave_id w.id (fun _ => rfl)

theorem otherWake (h : l.Tracks a) (k : Bytes) :
    (l.step (.otherWake k)).Tracks (a.step (.otherWake k)) := by
  have hwoken : ∀ w ∈ (a.registry.waiters k).filter (·.kind.isStream), Known a.registry w :=
    fun w hw => h.consistent.known (List.mem_filter.mp hw).1
  obtain ⟨hcons, hid, hknown, hq⟩ := h.consistent.foldl_wakeStreamWaiter k _ hwoken
  refine h.leave _ hcons (fun k' => ?_) hknown hid
  refine (hq k').trans (List.filter_congr (fun v hv => ?_))
  congr 1
  rw [Bool.eq_iff_iff]
  simp only [List.contains_iff_mem, List.mem_map, List.mem_filter, Bool.and_eq_true, ← h.queue]
  constructor
  · rintro ⟨w, ⟨hw, hstream⟩, hvw⟩
    obtain rfl := h.consistent.sameId hw hv hvw
    exact ⟨hw, hstream⟩
  · exact fun hw => ⟨v, hw, rfl⟩

end Tracks

/-! ## Giving back -/

section giveBack

variable {r : WatchRegistry}

/-- One claim after the other goes to the front, so the latest claim ends up
first. -/
theorem giveBack_waiters (claims : List Claim)
    (hks : ∀ w ∈ claims.filterMap Claim.waiter?, w.keys.Nodup) (k : Bytes) :
    (giveBack r claims).waiters k =
      ((claims.filterMap Claim.waiter?).filter (fun w => decide (k ∈ w.keys))).reverse ++
        r.waiters k := by
  induction claims generalizing r with
  | nil => rfl
  | cons c claims ih =>
    rw [giveBack, List.foldl_cons]
    have ih' := ih (r := r.releaseFront c)
    rw [giveBack] at ih'
    cases hn : c.notify with
    | true =>
      have hw : c.waiter? = none := by simp [Claim.waiter?, hn]
      simp only [List.filterMap_cons, hw] at hks ⊢
      rw [ih' hks]
      simp [WatchRegistry.releaseFront, hn]
    | false =>
      have hw : c.waiter? = some c.waiter := by simp [Claim.waiter?, hn]
      simp only [List.filterMap_cons, hw, List.mem_cons, forall_eq_or_imp] at hks ⊢
      rw [ih' hks.2]
      simp only [WatchRegistry.releaseFront, hn, Bool.false_eq_true, if_false,
        WatchRegistry.modifySlot_waiters, pushFront_of_nodup hks.1]
      by_cases hk : k ∈ c.waiter.keys <;> simp [hk]

theorem giveBack_consistent (claims : List Claim) (h : Consistent r)
    (hids : ((claims.filterMap Claim.waiter?).map Waiter.id).Nodup)
    (hknown : ∀ w ∈ claims.filterMap Claim.waiter?, Known r w ∧ ∀ k, w ∉ r.waiters k) :
    Consistent (giveBack r claims) ∧ (giveBack r claims).nextId = r.nextId ∧
      ∀ v, Known r v → Known (giveBack r claims) v := by
  induction claims generalizing r with
  | nil => exact ⟨h, rfl, fun _ hv => hv⟩
  | cons c claims ih =>
    rw [giveBack, List.foldl_cons]
    cases hn : c.notify with
    | true =>
      have hw : c.waiter? = none := by simp [Claim.waiter?, hn]
      have hsame : r.releaseFront c = r := by simp [WatchRegistry.releaseFront, hn]
      simp only [List.filterMap_cons, hw] at hids hknown
      rw [hsame]
      exact ih h hids hknown
    | false =>
      have hw : c.waiter? = some c.waiter := by simp [Claim.waiter?, hn]
      simp only [List.filterMap_cons, hw, List.map_cons, List.nodup_cons, List.mem_cons,
        forall_eq_or_imp] at hids hknown
      obtain ⟨⟨⟨s, hs, hsw⟩, hout⟩, hrest⟩ := hknown
      have hkeep : ∀ v, Known r v → Known (r.releaseFront c) v := by
        intro v hv
        simp only [WatchRegistry.releaseFront, hn, Bool.false_eq_true, if_false]
        exact Known.modifySlot (r := { r with
          waiters := KeyedQueues.pushFront r.waiters c.waiter.keys c.waiter }) hv _
          (fun _ => rfl)
      have hnext : (r.releaseFront c).nextId = r.nextId := by
        simp [WatchRegistry.releaseFront, hn]
      have hrest' : ∀ w ∈ claims.filterMap Claim.waiter?,
          Known (r.releaseFront c) w ∧ ∀ k, w ∉ (r.releaseFront c).waiters k := by
        intro w hmem
        refine ⟨hkeep w (hrest w hmem).1, fun k hk => ?_⟩
        simp only [WatchRegistry.releaseFront, hn, Bool.false_eq_true, if_false,
          WatchRegistry.modifySlot_waiters, mem_pushFront] at hk
        rcases hk with ⟨_, rfl⟩ | hk
        · exact hids.1 (List.mem_map_of_mem hmem)
        · exact (hrest w hmem).2 k hk
      obtain ⟨hcons, hid, hkeep'⟩ := ih (h.release hs hsw hout) hids.2 hrest'
      exact ⟨hcons, hid.trans hnext, fun v hv => hkeep' v (hkeep v hv)⟩

end giveBack

private theorem append_filter_eq_iff {xs ys : List Waiter} (h : ys.Nodup) :
    xs ++ ys.filter (fun w => !xs.contains w) = ys ↔ xs <+: ys := by
  constructor
  · exact fun he => ⟨_, he⟩
  · rintro ⟨zs, rfl⟩
    congr 1
    obtain ⟨_, _, hdisj⟩ := List.nodup_append'.mp h
    rw [List.filter_append, List.filter_eq_nil_iff.mpr (by simp), List.nil_append,
      List.filter_eq_self]
    intro w hw
    simpa using fun hx => hdisj hx hw

namespace Tracks

variable {l : Line} {a : Attempt}

private theorem filterMap_drop (h : l.Tracks a) (kept : Nat) :
    (a.claims.drop kept).filterMap Claim.waiter? = (l.held.drop kept).filterMap id := by
  rw [h.held, ← List.map_drop, List.filterMap_map]
  rfl

private theorem mem_dropped (l : Line) (kept : Nat) {w : Waiter}
    (hw : w ∈ (l.held.drop kept).filterMap id) : some w ∈ l.held :=
  List.mem_of_mem_drop (by simpa using hw)

theorem abandon_queue (h : l.Tracks a) (kept : Nat) (k : Bytes) :
    (a.step (.abandon kept)).registry.waiters k = l.givenBack kept k ++ l.waiting k := by
  simp only [Attempt.step]
  rw [giveBack_waiters, h.filterMap_drop, ← h.queue]
  · rfl
  · intro w hw
    obtain ⟨s, hs, rfl⟩ := (h.heldIn (mem_dropped l kept (h.filterMap_drop kept ▸ hw))).1
    exact h.consistent.slotKeys hs

theorem abandon_follows (h : l.Tracks a) (kept : Nat) :
    (l.step (.abandon kept)).Follows (a.step (.abandon kept)) := by
  have hdrop := h.filterMap_drop kept
  have hidsDrop : (((l.held.drop kept).filterMap id).map Waiter.id).Nodup :=
    h.heldIds.sublist (((List.drop_sublist kept l.held).filterMap id).map Waiter.id)
  obtain ⟨hcons, hid, hknown⟩ := giveBack_consistent (a.claims.drop kept)
    h.consistent (hdrop ▸ hidsDrop) (fun w hw => by
      have hheld := mem_dropped l kept (hdrop ▸ hw)
      exact ⟨(h.heldIn hheld).1, h.not_queued hheld⟩)
  refine ⟨hcons, h.lined, hid.trans h.nextId, ?_, ?_, ?_⟩
  · simp only [step, Attempt.step, h.held, List.map_take]
  · exact h.heldIds.sublist (((List.take_sublist kept l.held).filterMap id).map Waiter.id)
  · intro w hw
    have hheld : some w ∈ l.held := List.mem_of_mem_take hw
    exact ⟨hknown w (h.heldIn hheld).1, (h.heldIn hheld).2⟩

/-- Those who wait are those who will wait, less those given back. -/
theorem waiting_eq_filter (h : l.Tracks a) (kept : Nat) (k : Bytes) : l.waiting k =
      ((l.step (.abandon kept)).waiting k).filter (fun w => !(l.givenBack kept k).contains w) := by
  simp only [waiting, step, List.filter_filter]
  refine List.filter_congr (fun w hw => ?_)
  have hown := h.lined.own hw
  have hsplit : some w ∈ l.held ↔ some w ∈ l.held.take kept ∨ some w ∈ l.held.drop kept := by
    rw [← List.mem_append, List.take_append_drop]
  have hback : w ∈ l.givenBack kept k ↔ some w ∈ l.held.drop kept := by
    simp [givenBack, hown]
  rw [Bool.eq_iff_iff]
  simp [hsplit, hback, and_comm]

/-- **Giving back restores the order exactly when it gives back in order.** -/
theorem abandon_iff (h : l.Tracks a) (kept : Nat) :
    (∀ k, (a.step (.abandon kept)).registry.waiters k = (l.step (.abandon kept)).waiting k) ↔
      l.GivesBackInOrder kept := by
  refine forall_congr' (fun k => ?_)
  rw [h.abandon_queue, h.waiting_eq_filter kept k]
  exact append_filter_eq_iff ((h.lined.nodup k).filter _)

theorem step (h : l.Tracks a) {e : AttemptEvent}
    (hks : ∀ keys kind, e = .register keys kind → keys.Nodup) (hq : ∀ kept, e = .abandon kept →
      ∀ k, (a.step e).registry.waiters k = (l.step e).waiting k) :
    (l.step e).Tracks (a.step e) := by
  cases e with
  | claim k => exact h.claim k
  | notification k => exact h.notification k
  | abandon kept => exact ⟨h.abandon_follows kept, hq kept rfl⟩
  | register keys kind => exact h.register (hks keys kind rfl) kind
  | timeout id => exact h.timeout id
  | drop id => exact h.drop id
  | otherClaim k => exact h.otherClaim k
  | otherWake k => exact h.otherWake k

end Tracks

/-! ## Whole attempts -/

def run (l : Line) (events : List AttemptEvent) : Line := events.foldl step l

end Line

def Attempt.run (a : Attempt) (events : List AttemptEvent) : Attempt := events.foldl step a

/-- Every time claims are given back, every queue lists those who wait in the
order of the line. -/
def OrderKept (r : WatchRegistry) (events : List AttemptEvent) : Prop :=
  ∀ before kept, before ++ [.abandon kept] <+: events → ∀ k,
    (Attempt.run { registry := r } (before ++ [.abandon kept])).registry.waiters k =
      ((Line.ofRegistry r).run (before ++ [.abandon kept])).waiting k

/-- Every time claims are given back, they are given back in order. -/
def AlwaysInOrder (r : WatchRegistry) (events : List AttemptEvent) : Prop :=
  ∀ before kept, before ++ [.abandon kept] <+: events →
    ((Line.ofRegistry r).run before).GivesBackInOrder kept

/-- No client that comes in meanwhile repeats a key. -/
def NoRepeatedKeys (events : List AttemptEvent) : Prop :=
  ∀ keys kind, .register keys kind ∈ events → keys.Nodup

namespace Line

theorem run_snoc (l : Line) (events : List AttemptEvent) (e : AttemptEvent) :
    l.run (events ++ [e]) = (l.run events).step e := by simp [run]

end Line

theorem Attempt.run_snoc (a : Attempt) (events : List AttemptEvent) (e : AttemptEvent) :
    a.run (events ++ [e]) = (a.run events).step e := by simp [Attempt.run]

/-- As long as the order is kept, the line tracks the attempt. -/
theorem tracks_run {r : WatchRegistry} (h : Consistent r) {events : List AttemptEvent}
    (hks : NoRepeatedKeys events) (before : List AttemptEvent) (hpre : before <+: events)
    (hq : ∀ earlier kept, earlier ++ [.abandon kept] <+: before → ∀ k,
      (Attempt.run { registry := r } (earlier ++ [.abandon kept])).registry.waiters k =
        ((Line.ofRegistry r).run (earlier ++ [.abandon kept])).waiting k) :
    ((Line.ofRegistry r).run before).Tracks (Attempt.run { registry := r } before) := by
  induction before using List.reverseRecOn with
  | nil => exact Line.Tracks.ofRegistry h
  | append_singleton before e ih =>
    have hshort : before <+: before ++ [e] := List.prefix_append _ _
    have hlast := ih (hshort.trans hpre) (fun earlier kept hp => hq earlier kept (hp.trans hshort))
    rw [Line.run_snoc, Attempt.run_snoc]
    refine hlast.step (fun keys kind he => ?_) (fun kept he k => ?_)
    · exact hks keys kind (hpre.subset (by simp [he]))
    · have := hq before kept (he ▸ List.prefix_refl _) k
      rwa [Line.run_snoc, Attempt.run_snoc, ← he] at this

/-- **The order survives an abandoned attempt exactly when claims are given back in
order.** -/
theorem orderKept_iff {r : WatchRegistry} (h : Consistent r) {events : List AttemptEvent}
    (hks : NoRepeatedKeys events) : OrderKept r events ↔ AlwaysInOrder r events := by
  constructor
  · intro hkept before kept hpre
    have hshort : before <+: events := (List.prefix_append _ _).trans hpre
    have htrack := tracks_run h hks before hshort
      (fun earlier kept' hp => hkept earlier kept' (hp.trans hshort))
    rw [← htrack.abandon_iff]
    intro k
    have := hkept before kept hpre k
    rwa [Line.run_snoc, Attempt.run_snoc] at this
  · intro horder before kept hpre
    -- the induction is on the length of the part already played
    induction hn : before.length using Nat.strongRecOn generalizing before kept with
    | ind n ih =>
      have hshort : before <+: events := (List.prefix_append _ _).trans hpre
      have htrack := tracks_run h hks before hshort (fun earlier kept' hp => by
        have hlen : earlier.length < n := by
          have := hp.length_le
          simp at this
          omega
        exact ih earlier.length hlen earlier kept' (hp.trans hshort) rfl)
      intro k
      rw [Line.run_snoc, Attempt.run_snoc]
      exact (htrack.abandon_iff kept).mpr (horder before kept hpre) k

/-- One claim of a waiter that is first on both its keys. -/
theorem orderKept_iff_one_claim :
    let r := ((WatchRegistry.new.register [[97], [98]] (.pop true)).2.register [[98]] .stream).2
    OrderKept r [.claim [97], .register [[97]] .stream, .abandon 0] ↔
      AlwaysInOrder r [.claim [97], .register [[97]] .stream, .abandon 0] := by
  refine orderKept_iff ((Consistent.new.register (by decide) _).register (by decide) _) ?_
  intro keys kind hmem
  simp only [List.mem_cons, reduceCtorEq, AttemptEvent.register.injEq, List.not_mem_nil,
    or_false, false_or] at hmem
  rw [hmem.1]
  decide

/-- Two clients wait on one key and a batch that claims both is abandoned: they
come back in the reverse order. A client that waits on two keys and is claimed
through one of them comes back ahead of the client that was before it on the
other. -/
theorem abandoned_claims_reorder :
    (let r := ((WatchRegistry.new.register [[97]] (.pop true)).2.register [[97]] (.pop true)).2;
      (r.waiters [97]).map Waiter.id = [1, 2] ∧
        ((Attempt.run { registry := r } [.claim [97], .claim [97], .abandon 0]).registry.waiters
          [97]).map Waiter.id = [2, 1] ∧
        ¬ OrderKept r [.claim [97], .claim [97], .abandon 0]) ∧
    (let r := ((WatchRegistry.new.register [[98]] (.pop true)).2.register [[97], [98]]
        (.pop true)).2;
      (r.waiters [98]).map Waiter.id = [1, 2] ∧
        ((Attempt.run { registry := r } [.claim [97], .abandon 0]).registry.waiters
          [98]).map Waiter.id = [2, 1] ∧
        ¬ OrderKept r [.claim [97], .abandon 0]) := by
  refine ⟨⟨rfl, rfl, fun h => ?_⟩, rfl, rfl, fun h => ?_⟩
  · exact absurd (h [.claim [97], .claim [97]] 0 (List.prefix_refl _) [97]) (by decide)
  · exact absurd (h [.claim [97]] 0 (List.prefix_refl _) [98]) (by decide)

end Invar
