import Invar.Basic
import Invar.Lib.KeyedQueues

/-!
# The waiter registry (`redis/common/registry.rs`)

`WatchRegistry` maps a public key to the FIFO queue of the clients blocked on
it, and keeps the write versions and the flush epoch that `WATCH` and `EXEC`
compare. Every method takes the registry's mutex once, so every method is one
step here.

A `Waiter` is shared by its queues, its claim and its `Registration`. What they
share is kept once for each waiter id, in a `Slot`: the sender half and the
receiver half of the oneshot channel and the value sent. Two fields of a slot
are history that the code does not store: `claimed` (taken off its queues by a
writer and not given back) and `timedOut` (the duration passed to
`Registration::wait` has elapsed). No operation reads them.

A queue that the code removes from its map when it gets empty is the empty list.
-/

namespace Invar

structure PopResult where
  key : Bytes
  member : Bytes
  score : F64
deriving DecidableEq, Repr

structure StreamResult where
  publicKey : Bytes
deriving DecidableEq, Repr

inductive WaitKind where
  | pop (wantMin : Bool)
  | stream
deriving DecidableEq, Repr

def WaitKind.isStream : WaitKind → Bool
  | .pop _ => false
  | .stream => true

inductive BlockResult where
  | pop (result : PopResult)
  | stream (result : StreamResult)
deriving DecidableEq, Repr

structure Waiter where
  id : Nat
  keys : List Bytes
  kind : WaitKind
deriving DecidableEq, Repr

/-- What a waiter, its claim and its `Registration` share. -/
structure Slot where
  waiter : Waiter
  /-- `Waiter::tx` still holds the sender. -/
  sender : Bool := true
  /-- The `Registration`, which owns the receiver, has not been dropped. -/
  receiver : Bool := true
  sent : Option BlockResult := none
  claimed : Bool := false
  timedOut : Bool := false
deriving DecidableEq, Repr

/-- Registered, unclaimed, not timed out and with a live `Registration`. -/
def Slot.live (s : Slot) : Bool :=
  s.receiver && !s.claimed && !s.timedOut

/-- Take the sender and, if there was one and there is a result, send it. A send
into a channel whose receiver is gone is lost. -/
def Slot.send (result : Option BlockResult) (s : Slot) : Slot :=
  { s with
    sender := false
    sent := if s.sender && s.receiver && result.isSome then result else s.sent }

/-- `origin` is history: the transaction in which the claim was made. -/
structure Claim where
  waiter : Waiter
  result : Option BlockResult := none
  notify : Bool := false
  origin : Nat := 0
deriving DecidableEq, Repr

def Claim.wantMin (c : Claim) : Bool := c.waiter.kind = .pop true

def Claim.setResult (c : Claim) (result : BlockResult) : Claim :=
  { c with result := some result }

structure WatchRegistry where
  waiters : Bytes → List Waiter
  nextId : Nat
  slots : Nat → Option Slot
  writeVersions : Bytes → Nat
  flushEpoch : Nat

namespace WatchRegistry

def new : WatchRegistry where
  waiters := fun _ => []
  nextId := 1
  slots := fun _ => none
  writeVersions := fun _ => 0
  flushEpoch := 0

/-! ## Versions and the flush epoch -/

def getVersion (r : WatchRegistry) (key : Bytes) : Nat := r.writeVersions key

def bumpVersions (r : WatchRegistry) (keys : List Bytes) : WatchRegistry :=
  { r with
    writeVersions :=
      keys.foldl (fun m k => Function.update m k (m k + 1)) r.writeVersions }

def bumpFlushEpoch (r : WatchRegistry) : WatchRegistry :=
  { r with flushEpoch := r.flushEpoch + 1 }

/-! ## Queues -/

def modifySlot (r : WatchRegistry) (id : Nat) (f : Slot → Slot) : WatchRegistry :=
  { r with slots := Function.update r.slots id ((r.slots id).map f) }

/-- The queues without the waiter `id`, at the keys `ks`. -/
def retainOut (q : Bytes → List Waiter) (ks : List Bytes) (id : Nat) : Bytes → List Waiter :=
  KeyedQueues.retain q ks (fun w => decide (w.id ≠ id))

/-- Takes the front waiter of `publicKey` and removes it from its other keys'
queues. The popped queue is not searched again, also where `keys` repeats
`publicKey`. -/
def tryClaim (r : WatchRegistry) (publicKey : Bytes) : Option (Claim × WatchRegistry) :=
  match r.waiters publicKey with
  | [] => none
  | w :: rest =>
    let popped := Function.update r.waiters publicKey rest
    let others := w.keys.filter (fun key => decide (key ≠ publicKey))
    let taken := { r with waiters := retainOut popped others w.id }
    some ({ waiter := w }, taken.modifySlot w.id ({ · with claimed := true }))

/-- The claim of a stream notification holds a waiter that is in no queue. -/
def streamNotification (publicKey : Bytes) : Claim :=
  { waiter := { id := 0, keys := [publicKey], kind := .stream }, notify := true }

/-- Remove one woken stream waiter from all its queues and signal it. -/
def wakeStreamWaiter (publicKey : Bytes) (r : WatchRegistry) (w : Waiter) : WatchRegistry :=
  { r with waiters := retainOut r.waiters w.keys w.id }.modifySlot w.id
    (fun s => { s.send (some (.stream ⟨publicKey⟩)) with claimed := true })

def wakeStreamWaiters (r : WatchRegistry) (publicKey : Bytes) : WatchRegistry :=
  ((r.waiters publicKey).filter (·.kind.isStream)).foldl (wakeStreamWaiter publicKey) r

/-- `Claim::wake`. -/
def wake (r : WatchRegistry) (c : Claim) : WatchRegistry :=
  if c.notify then r.wakeStreamWaiters (c.waiter.keys.headD [])
  else r.modifySlot c.waiter.id (Slot.send c.result)

/-- Puts the waiter of a claim back at the front of the queue of each of its keys. -/
def releaseFront (r : WatchRegistry) (c : Claim) : WatchRegistry :=
  if c.notify then r
  else
    { r with waiters := KeyedQueues.pushFront r.waiters c.waiter.keys c.waiter }.modifySlot
      c.waiter.id ({ · with claimed := false })

def register (r : WatchRegistry) (keys : List Bytes) (kind : WaitKind) : Waiter × WatchRegistry :=
  let w : Waiter := { id := r.nextId, keys, kind }
  (w, { r with
    waiters := KeyedQueues.pushBack r.waiters keys w
    nextId := r.nextId + 1
    slots := Function.update r.slots r.nextId (some { waiter := w }) })

/-- Whether the waiter was in some queue, and the queues without it. -/
def removeWaiter (r : WatchRegistry) (w : Waiter) : Bool × WatchRegistry :=
  (w.keys.any (fun k => (r.waiters k).any (·.id == w.id)),
    { r with waiters := retainOut r.waiters w.keys w.id })

/-- The elapsed branch of `Registration::wait`. The flag says whether the waiter
leaves with a clean timeout; else it goes on waiting for the writer that claimed
it. -/
def timeout (r : WatchRegistry) (w : Waiter) : Bool × WatchRegistry :=
  let (removed, r) := r.removeWaiter w
  (removed, r.modifySlot w.id ({ · with timedOut := true }))

/-- `Registration::drop`, with the receiver it owns. -/
def dropRegistration (r : WatchRegistry) (w : Waiter) : WatchRegistry :=
  (r.removeWaiter w).2.modifySlot w.id ({ · with receiver := false })

end WatchRegistry

end Invar
