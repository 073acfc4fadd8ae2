import Invar.Lib.Reach
import Invar.Redis.Command

/-!
# Runs of data commands

A store changes by commands that run one after the other, each in a transaction of its own.
What a command wrote before it failed is dropped with its transaction.
-/

namespace Invar

open StoreProg

structure Call where
  command : DataCommand
  /-- The waiter that a `ZADD` finds. -/
  waiter : Option Bool
  env : Nat → Tick

namespace Call

def outcome (ln : F64 → F64) (s : Store) (c : Call) : Run Bytes Row Tick DbError RespValue :=
  exec (c.command.run ln c.waiter) c.env { view := s }

def step (ln : F64 → F64) (s : Store) (c : Call) : Option Store :=
  match (c.outcome ln s).out with
  | .ok _ => some (c.outcome ln s).txn.view
  | .error _ => some s

/-- **One step of a run**, from what its command does when it succeeds. -/
theorem step_of_end {ln : F64 → F64} {s s' : Store} {c : Call} {I : Store → Prop} (hI : I s)
    (h : ∀ reply, (c.outcome ln s).out = .ok reply → I (c.outcome ln s).txn.view)
    (hstep : c.step ln s = some s') : I s' := by
  unfold step at hstep
  split at hstep
  · rename_i reply hout
    cases hstep
    exact h reply hout
  · cases hstep
    exact hI

end Call

end Invar
