import Invar.Kv.Program
import Invar.Common.Registry

/-!
# Results and replies of commands (`redis/common/op.rs`, `redis/resp.rs`)

A `DbOp` ends with an error or with a type-erased result that its `WireOp`
renders. Here a result is what the wire half makes of it: the waiter claims that
it wakes, in order, and the reply.
-/

namespace Invar

inductive RespValue where
  | simpleString (s : Bytes)
  | error (s : Bytes)
  | integer (n : Int)
  | bulkString (b : Option Bytes)
  | array (xs : Option (List RespValue))

mutual

def RespValue.decEq : (a b : RespValue) → Decidable (a = b)
  | .simpleString s, .simpleString s' => decidable_of_iff (s = s') (by simp)
  | .error s, .error s' => decidable_of_iff (s = s') (by simp)
  | .integer n, .integer n' => decidable_of_iff (n = n') (by simp)
  | .bulkString b, .bulkString b' => decidable_of_iff (b = b') (by simp)
  | .array none, .array none => isTrue rfl
  | .array (some xs), .array (some ys) =>
    match RespValue.decEqList xs ys with
    | isTrue h => isTrue (by rw [h])
    | isFalse h => isFalse (by simpa using h)
  | .array none, .array (some _) => isFalse (by simp)
  | .array (some _), .array none => isFalse (by simp)
  | .simpleString _, .error _ | .simpleString _, .integer _ | .simpleString _, .bulkString _
  | .simpleString _, .array _ | .error _, .simpleString _ | .error _, .integer _
  | .error _, .bulkString _ | .error _, .array _ | .integer _, .simpleString _
  | .integer _, .error _ | .integer _, .bulkString _ | .integer _, .array _
  | .bulkString _, .simpleString _ | .bulkString _, .error _ | .bulkString _, .integer _
  | .bulkString _, .array _ | .array _, .simpleString _ | .array _, .error _
  | .array _, .integer _ | .array _, .bulkString _ => isFalse nofun

def RespValue.decEqList : (a b : List RespValue) → Decidable (a = b)
  | [], [] => isTrue rfl
  | x :: xs, y :: ys =>
    match RespValue.decEq x y, RespValue.decEqList xs ys with
    | isTrue h, isTrue h' => isTrue (by rw [h, h'])
    | isFalse h, _ => isFalse (by simp [h])
    | _, isFalse h => isFalse (by simp [h])
  | [], _ :: _ => isFalse nofun
  | _ :: _, [] => isFalse nofun

end

instance : DecidableEq RespValue := RespValue.decEq

namespace RespValue

def ok : RespValue := .simpleString (ascii "OK")

def nullArray : RespValue := .array none

def bulk (b : Bytes) : RespValue := .bulkString (some b)

def nullBulk : RespValue := .bulkString none

/-- An array of bulk strings. -/
def bulks (bs : List Bytes) : RespValue := .array (some (bs.map bulk))

end RespValue

/-- `Display` of a `DbError`. -/
def DbError.toText : DbError → String
  | .kv e => e.message
  | .wrongType => "WRONGTYPE Operation against a key holding the wrong kind of value"
  | .keyExists => "key already exists"
  | .redis msg => msg
  | .panic => ""

/-- `err_resp`. -/
def errResp : DbError → RespValue
  | .wrongType => .error (ascii DbError.wrongType.toText)
  | e => .error (ascii ("ERR " ++ e.toText))

/-- The error reply of the default `WireOp`. -/
def plainErrResp (e : DbError) : RespValue := .error (ascii e.toText)

structure DbResult where
  reply : RespValue
  claims : List Claim := []

abbrev Outcome := Except DbError DbResult

def Outcome.claims : Outcome → List Claim
  | .ok r => r.claims
  | .error _ => []

/-- `is_retryable_conflict` (`redis/common/session.rs`). -/
def Outcome.isRetryableConflict : Outcome → Bool
  | .error (.kv .conflict) => true
  | _ => false

end Invar
