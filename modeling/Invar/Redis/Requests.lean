import Invar.Redis.CommandRuns
import Invar.Redis.Dispatch

/-!
# Requests from their words

One client in db 0, whose requests are parsed by the dispatcher and run one after the
other, each in a transaction of its own.
-/

namespace Invar.Requests

open StoreProg Dispatch

/-- The answers that a run gets from its environment. -/
def answers (env : Nat → Tick) (x : Tick) : Prop := ∃ n, env n = x

/-- The reply of a command that does not fail. -/
theorem out_eq_of_wp {α : Type} {p : TxProg α} {reply : α} {env : Nat → Tick} {s : Store}
    (h : wp (answers env) p (fun r _ => r = reply) (fun _ _ => False) { view := s }) :
    (exec p env { view := s }).out = .ok reply :=
  exec_out_of_wp h env fun n => ⟨n, rfl⟩

/-- The run of a request that the dispatcher accepts. -/
def request (ln : F64 → F64) (c : Ctx) (env : Nat → Tick) (s : Store) (name : String)
    (args : List Bytes) : Option (Run Bytes Row Tick DbError RespValue) :=
  (accepted c name args).map fun command => Call.outcome ln s { command, waiter := none, env }

/-- The reply to a request and the store after it. A request that fails has no reply here, and
changes nothing. -/
def serve (env : Nat → Tick) (s : Store) (name : String) (args : List Bytes) :
    Option RespValue × Store :=
  match accepted { db := 0, now := (env 0).now } name args with
  | some command =>
    let run := Call.outcome id s { command, waiter := none, env }
    match run.out with
    | .ok reply => (some reply, run.txn.view)
    | .error _ => (none, s)
  | none => (none, s)

/-- The clock stands still, and the namespace of the `n`-th request is made from `n`. -/
def clock (n : Nat) : Nat → Tick := fun _ => { now := 1, rand := n }

def serveAll (s : Store) : Nat → List (String × List Bytes) → List (Option RespValue) × Store
  | _, [] => ([], s)
  | n, (name, args) :: rest =>
    let (reply, s) := serve (clock n) s name args
    let (replies, s) := serveAll s (n + 1) rest
    (reply :: replies, s)

/-- The replies to requests on an empty store. -/
def replies (requests : List (String × List Bytes)) : List (Option RespValue) :=
  (serveAll ∅ 1 requests).1

/-- The store after requests on an empty store. -/
def storeAfter (requests : List (String × List Bytes)) : Store := (serveAll ∅ 1 requests).2

def words (args : List String) : List Bytes := args.map ascii

end Invar.Requests
