import Invar.Common.WaiterQueues

/-!
# Runs of the registry

The registry together with the claims that writers hold, driven by its
operations in any order. `Careful` is the condition under which the queues stay
exact: a client does not repeat a key, and a claim is given back only while it
is open and its waiter is still there to be served.
-/

namespace Invar

/-- A claim in a writer's hands; `isOpen` until it is woken or given back. -/
structure Held where
  claim : Claim
  isOpen : Bool := true
deriving DecidableEq, Repr

/-- The waiter that an open claim took off its queues. -/
def Held.waiter? (h : Held) : Option Waiter :=
  if h.isOpen && !h.claim.notify then some h.claim.waiter else none

structure RegState where
  registry : WatchRegistry
  claims : List Held

inductive RegAction where
  | register (keys : List Bytes) (kind : WaitKind)
  | tryClaim (publicKey : Bytes)
  | streamNotification (publicKey : Bytes)
  | setResult (i : Nat) (result : BlockResult)
  | wake (i : Nat)
  | releaseFront (i : Nat)
  | timeout (id : Nat)
  | drop (id : Nat)
deriving Repr

namespace RegState

def init : RegState := { registry := .new, claims := [] }

/-- Claims are named by their position in the order in which they were made,
waiters by their id. -/
def step (s : RegState) : RegAction → Option RegState
  | .register keys kind => some { s with registry := (s.registry.register keys kind).2 }
  | .tryClaim k =>
    match s.registry.tryClaim k with
    | none => some s
    | some (c, r) => some { registry := r, claims := s.claims ++ [{ claim := c }] }
  | .streamNotification k =>
    some { s with claims := s.claims ++ [{ claim := WatchRegistry.streamNotification k }] }
  | .setResult i result =>
    s.claims[i]?.map fun h =>
      { s with claims := s.claims.set i { h with claim := h.claim.setResult result } }
  | .wake i =>
    s.claims[i]?.map fun h =>
      { registry := s.registry.wake h.claim, claims := s.claims.set i { h with isOpen := false } }
  | .releaseFront i =>
    s.claims[i]?.map fun h =>
      { registry := s.registry.releaseFront h.claim
        claims := s.claims.set i { h with isOpen := false } }
  | .timeout id =>
    match s.registry.slots id with
    | some slot =>
      -- the timer runs inside `wait`, so the registration is alive when it fires
      if slot.receiver && !slot.timedOut then
        some { s with registry := (s.registry.timeout slot.waiter).2 }
      else none
    | none => none
  | .drop id =>
    match s.registry.slots id with
    | some slot =>
      if slot.receiver then
        some { s with registry := s.registry.dropRegistration slot.waiter }
      else none
    | none => none

/-- The waiters that open claims keep off their queues. -/
def openWaiters (s : RegState) : List Waiter := s.claims.filterMap Held.waiter?

/-- The waiter of the claim `i`, if it is neither woken nor given back yet, still
waits: its registration is alive and its timeout has not elapsed. -/
def stillWaits (s : RegState) (h : Held) : Bool :=
  h.claim.notify ||
    h.isOpen && ((s.registry.slots h.claim.waiter.id).any fun slot =>
      slot.receiver && !slot.timedOut)

/-- The condition on a step. -/
def Careful (s : RegState) : RegAction → Bool
  | .register keys _ => decide keys.Nodup
  | .releaseFront i => (s.claims[i]?).all s.stillWaits
  | _ => true

/-- The invariant of the runs. -/
structure Inv (s : RegState) : Prop where
  exact : Exact s.registry
  held : OpenClaims s.registry s.openWaiters

/-! ## One step -/

theorem openWaiters_append (r : WatchRegistry) (claims : List Held) (h : Held) :
    openWaiters { registry := r, claims := claims ++ [h] } =
      claims.filterMap Held.waiter? ++ h.waiter?.toList := by
  cases hw : h.waiter? <;> simp [openWaiters, List.filterMap_append, hw]

variable {claims : List Held} {h : Held} {i : Nat} {s : RegState}

/-- Closing the claim `i` takes its waiter, and no other, from the open ones. -/
theorem filterMap_close (hi : claims[i]? = some h) :
    ∃ before after, claims.filterMap Held.waiter? = before ++ h.waiter?.toList ++ after ∧
      (claims.set i { h with isOpen := false }).filterMap Held.waiter? = before ++ after := by
  induction claims generalizing i with
  | nil => simp at hi
  | cons c claims ih =>
    cases i with
    | zero =>
      obtain rfl : c = h := by simpa using hi
      refine ⟨[], claims.filterMap Held.waiter?, ?_, ?_⟩
      · cases hw : c.waiter? <;> simp [hw]
      · simp [Held.waiter?]
    | succ i =>
      obtain ⟨before, after, hopen, hclosed⟩ := ih (by simpa using hi)
      refine ⟨c.waiter?.toList ++ before, after, ?_, ?_⟩
      · cases hw : c.waiter? <;> simp [hw, hopen]
      · cases hw : c.waiter? <;> simp [hw, hclosed]

theorem filterMap_setResult (hi : claims[i]? = some h) (result : BlockResult) :
    (claims.set i { h with claim := h.claim.setResult result }).filterMap Held.waiter? =
      claims.filterMap Held.waiter? := by
  induction claims generalizing i with
  | nil => simp at hi
  | cons c claims ih =>
    cases i with
    | zero =>
      obtain rfl : c = h := by simpa using hi
      rfl
    | succ i => simp [List.filterMap_cons, ih (by simpa using hi)]

theorem Inv.releaseFront (hI : s.Inv) (hi : s.claims[i]? = some h) (hok : s.stillWaits h = true) :
    Inv { registry := s.registry.releaseFront h.claim
          claims := s.claims.set i { h with isOpen := false } } := by
  obtain ⟨before, after, hopen, hclosed⟩ := filterMap_close hi
  have hheld : OpenClaims s.registry (before ++ h.waiter?.toList ++ after) := by
    rw [← hopen]
    exact hI.held
  have hsub : (before ++ after).Sublist (before ++ h.waiter?.toList ++ after) := by simp
  cases hn : h.claim.notify with
  | true =>
    -- releasing a notification changes nothing
    have hsame : s.registry.releaseFront h.claim = s.registry := by
      simp [WatchRegistry.releaseFront, hn]
    simp only [hsame]
    exact ⟨hI.exact, by simpa only [openWaiters, hclosed] using hheld.sublist hsub⟩
  | false =>
    simp only [stillWaits, hn, Bool.false_or, Bool.and_eq_true] at hok
    obtain ⟨hisOpen, hslot⟩ := hok
    have hw : h.waiter? = some h.claim.waiter := by simp [Held.waiter?, hisOpen, hn]
    rw [hw] at hheld hsub
    obtain ⟨slot, hs, hsw, hclaimed⟩ := hheld.claimed h.claim.waiter (by simp)
    have hlive : slot.receiver = true ∧ slot.timedOut = false := by simpa [hs] using hslot
    refine ⟨hI.exact.release hs hsw hclaimed hlive.1 hlive.2, ?_⟩
    simp only [openWaiters, hclosed]
    refine hheld.release (fun _ => ?_) hsub
    have hids := hheld.ids
    simp only [Option.toList_some, List.map_append, List.map_cons, List.append_assoc,
      List.singleton_append] at hids
    simpa using (List.nodup_middle.mp hids).notMem

theorem inv_step {s' : RegState} {a : RegAction} (hI : s.Inv) (hok : s.Careful a = true)
    (h : s.step a = some s') : s'.Inv := by
  cases a with
  | register keys kind =>
    obtain rfl := Option.some.inj h
    exact ⟨hI.exact.register (of_decide_eq_true hok) kind, hI.held.register hI.exact keys kind⟩
  | tryClaim k =>
    simp only [step] at h
    split at h
    · exact Option.some.inj h ▸ hI
    · next c r hc =>
      obtain rfl := Option.some.inj h
      refine ⟨hI.exact.tryClaim hc, ?_⟩
      obtain ⟨w, rest, _, rfl, _⟩ := WatchRegistry.tryClaim_some hI.exact.toWellQueued hc
      rw [openWaiters_append]
      exact hI.held.tryClaim hI.exact hc
  | streamNotification k =>
    obtain rfl := Option.some.inj h
    refine ⟨hI.exact, ?_⟩
    simpa [Held.waiter?, WatchRegistry.streamNotification, openWaiters] using hI.held
  | setResult i result =>
    obtain ⟨c, hi, rfl⟩ := Option.map_eq_some_iff.mp h
    refine ⟨hI.exact, ?_⟩
    simp only [openWaiters, filterMap_setResult hi]
    exact hI.held
  | wake i =>
    obtain ⟨c, hi, rfl⟩ := Option.map_eq_some_iff.mp h
    refine ⟨hI.exact.wake c.claim, ?_⟩
    obtain ⟨before, after, hopen, hclosed⟩ := filterMap_close hi
    have hheld : OpenClaims s.registry (before ++ c.waiter?.toList ++ after) := by
      rw [← hopen]
      exact hI.held
    simp only [openWaiters, hclosed]
    exact (hheld.sublist (by simp)).wake c.claim
  | releaseFront i =>
    obtain ⟨c, hi, rfl⟩ := Option.map_eq_some_iff.mp h
    exact hI.releaseFront hi (by simpa [Careful, hi] using hok)
  | timeout id =>
    simp only [step] at h
    split at h
    · next slot hs =>
      split at h
      · obtain rfl := Option.some.inj h
        have hw : Known s.registry slot.waiter :=
          ⟨slot, by rw [hI.exact.slotId hs, hs], rfl⟩
        exact ⟨hI.exact.timeout hw, hI.held.timeout _⟩
      · cases h
    · cases h
  | drop id =>
    simp only [step] at h
    split at h
    · next slot hs =>
      split at h
      · obtain rfl := Option.some.inj h
        have hw : Known s.registry slot.waiter :=
          ⟨slot, by rw [hI.exact.slotId hs, hs], rfl⟩
        exact ⟨hI.exact.dropRegistration hw, hI.held.dropRegistration _⟩
      · cases h
    · cases h

/-! ## Whole runs -/

/-- Reached by any sequence of operations whose steps are all careful. -/
def Reached (s : RegState) : Prop :=
  Transition.Reach step (fun s a => s.Careful a = true) init s

theorem inv_reached (h : s.Reached) : s.Inv :=
  Transition.Reach.inv ⟨.new, .nil⟩ (fun _ _ _ => inv_step) h

/-- Every live waiter stands exactly once in the queue of each of its keys, and
no other waiter stands in any queue. -/
def EachLiveOnce (s : RegState) : Prop :=
  (∀ id slot, s.registry.slots id = some slot → ∀ k,
    (s.registry.waiters k).count slot.waiter =
      if slot.live = true ∧ k ∈ slot.waiter.keys then 1 else 0) ∧
  ∀ k, ∀ w ∈ s.registry.waiters k, ∃ slot, s.registry.slots w.id = some slot ∧ slot.waiter = w

/-- **The queues are exact in every state that careful steps reach.** -/
theorem eachLiveOnce_of_reached {s : RegState} (h : s.Reached) : s.EachLiveOnce :=
  ⟨fun _ _ hs => (inv_reached h).exact.count hs, fun _ _ hw => (inv_reached h).exact.known hw⟩

/-- The queue after one claim was given back and a second waiter came in meanwhile. -/
theorem eachLiveOnce_after_release : ∃ s, Transition.run (Transition.guarded step Careful) init
        [.register [[97], [98]] (.pop true), .tryClaim [98], .register [[97]] .stream,
          .releaseFront 0] = some s ∧
      (s.registry.waiters [97]).map Waiter.id = [1, 2] ∧ s.EachLiveOnce := by
  refine ⟨_, rfl, rfl, eachLiveOnce_of_reached ?_⟩
  exact Transition.reach_of_run [.register [[97], [98]] (.pop true), .tryClaim [98],
    .register [[97]] .stream, .releaseFront 0] .start rfl

/-- Each part of the condition is needed: a repeated key, and a claim given back
after its waiter was dropped, after it timed out, and after it was woken. -/
theorem careless_steps_break_queues :
    (∃ s, Transition.run step init [.register [[97], [97]] (.pop true)] = some s ∧
      ¬ s.EachLiveOnce) ∧ (∃ s, Transition.run step init
        [.register [[97]] (.pop true), .tryClaim [97], .drop 1, .releaseFront 0] = some s ∧
      ¬ s.EachLiveOnce) ∧ (∃ s, Transition.run step init
        [.register [[97]] (.pop true), .tryClaim [97], .timeout 1, .releaseFront 0] = some s ∧
      ¬ s.EachLiveOnce) ∧ (∃ s, Transition.run step init
        [.register [[97]] (.pop true), .tryClaim [97], .wake 0, .drop 1, .releaseFront 0] = some s ∧
      ¬ s.EachLiveOnce) := by
  refine ⟨⟨_, rfl, ?_⟩, ⟨_, rfl, ?_⟩, ⟨_, rfl, ?_⟩, ⟨_, rfl, ?_⟩⟩ <;>
    exact fun h => absurd (h.1 1 _ rfl [97]) (by decide)

end RegState

end Invar
