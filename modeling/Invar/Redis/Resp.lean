import Invar.Common.Op
import Invar.Lib.Incremental

/-!
# The wire format (`redis/resp.rs`)

`encodeValue` is recursive, the decoder is a loop over a stack of open arrays. A
round of the loop either finishes a bulk string whose header has been read or reads
one line.

The stack has the innermost array first. A `Bytes` or a `Vec` has at most
`isize::MAX` elements, which lists do not know; `Typed` in `Redis/RespRoundTrip` says it.
-/

namespace Invar

open Incremental

namespace Resp

inductive RespError where
  | bulkNotTerminated
  | invalidBulkLength (declared : Int)
  | bulkTooLong (len max : Nat)
  | invalidArrayLength (declared : Int)
  | arrayTooLong (len max : Nat)
  | tooDeep
  | unexpectedType (b : UInt8)
  | lineTooLong
  | noDigits
  | unexpectedByte (b : UInt8)
  | outOfRange
deriving DecidableEq, Repr

def crlf : Bytes := [13, 10]

/-! ## Encoding -/

mutual

def encodeValue : RespValue → Bytes
  | .simpleString s => 43 :: s ++ crlf
  | .error e => 45 :: e ++ crlf
  | .integer n => 58 :: intText n ++ crlf
  | .bulkString (some b) => 36 :: decimal b.length ++ crlf ++ b ++ crlf
  | .bulkString none => ascii "$-1" ++ crlf
  | .array (some items) => 42 :: decimal items.length ++ crlf ++ encodeItems items
  | .array none => ascii "*-1" ++ crlf

def encodeItems : List RespValue → Bytes
  | [] => []
  | v :: rest => encodeValue v ++ encodeItems rest

end

/-! ## Lines and integers -/

/-- The position of the first `\r` that is followed by `\n`. -/
def findCrlf : Bytes → Option Nat
  | [] => none
  | b :: rest =>
    if b = 13 && rest.head? = some 10 then some 0 else (findCrlf rest).map (· + 1)

/-- The length of the content and of the whole line, which starts with its type byte. -/
def readLine (src : Bytes) (maxLen : Nat) : Except RespError (Option (Nat × Nat)) :=
  match findCrlf src with
  | none => if maxLen ≤ src.length then .error .lineTooLong else .ok none
  | some i => if maxLen < i - 1 then .error .lineTooLong else .ok (some (i - 1, i + 2))

/-- The digits are added up with overflow checks. -/
def parseDigits : Bytes → Nat → Except RespError Nat
  | [], value => .ok value
  | b :: rest, value =>
    if !isAsciiDigit b then .error (.unexpectedByte b)
    else
      let value := value * 10 + (b.toNat - 48)
      if value ≤ 2 ^ 63 - 1 then parseDigits rest value else .error .outOfRange

/-- `parse_int`: the sign is applied at the end, so the least `i64` is out of range. -/
def parseInt (buf : Bytes) : Except RespError Int :=
  if buf.head? = some 45 then signed (-1) (buf.drop 1) else signed 1 buf
where
  signed (sign : Int) (digits : Bytes) : Except RespError Int :=
    if digits.isEmpty then .error .noDigits
    else (parseDigits digits 0).map fun value : Nat => sign * value

/-! ## Decoding -/

structure Limits where
  maxBulkLen : Nat
  maxArrayLen : Nat
  maxDepth : Nat
deriving DecidableEq, Repr

/-- An array that waits for more elements. -/
structure ArrayFrame where
  remaining : Nat
  elements : List RespValue
  open_ : 0 < remaining

structure Decoder where
  stack : List ArrayFrame := []
  pendingBulkLen : Option Nat := none

/-- `deliver`: a value that completes its array makes that array a value of the next one. -/
def deliver : List ArrayFrame → RespValue → Option RespValue × List ArrayFrame
  | [], v => (some v, [])
  | f :: rest, v =>
    if h : 1 < f.remaining then
      (none,
        { remaining := f.remaining - 1, elements := f.elements ++ [v], open_ := by omega } :: rest)
    else deliver rest (.array (some (f.elements ++ [v])))

abbrev DecodeRound := Round Decoder UInt8 RespValue RespError

/-- A completed value, with what follows it. -/
def delivered (stack : List ArrayFrame) (v : RespValue) (rest : Bytes) : DecodeRound :=
  let (out, stack) := deliver stack v
  .go out { stack } rest

/-- A line that declares a length: -1 is the null value. -/
def declaredLength (content : Bytes) (invalid : Int → RespError) (tooLong : Nat → RespError)
    (maxLen : Nat) : Except RespError (Option Nat) := do
  let declared ← parseInt content
  if declared < -1 then .error (invalid declared)
  else if declared = -1 then return none
  else if maxLen < declared.toNat then .error (tooLong declared.toNat)
  else return some declared.toNat

def bulkHeader (lim : Limits) (stack : List ArrayFrame) (content rest : Bytes) : DecodeRound :=
  match declaredLength content .invalidBulkLength (.bulkTooLong · lim.maxBulkLen)
      lim.maxBulkLen with
  | .error e => .fail e
  | .ok none => delivered stack (.bulkString none) rest
  | .ok (some len) => .go none { stack, pendingBulkLen := some len } rest

def arrayHeader (lim : Limits) (stack : List ArrayFrame) (content rest : Bytes) : DecodeRound :=
  match declaredLength content .invalidArrayLength (.arrayTooLong · lim.maxArrayLen)
      lim.maxArrayLen with
  | .error e => .fail e
  | .ok none => delivered stack (.array none) rest
  | .ok (some len) =>
    if h : len = 0 then delivered stack (.array (some [])) rest
    else if lim.maxDepth ≤ stack.length then .fail .tooDeep
    else
      let frame : ArrayFrame :=
        { remaining := len, elements := [], open_ := Nat.pos_of_ne_zero h }
      .go none { stack := frame :: stack } rest

/-- What is done with the content of a line of the given type. -/
def lineOf (lim : Limits) (stack : List ArrayFrame) (type : UInt8) (content rest : Bytes) :
    DecodeRound :=
  if type = 43 then delivered stack (.simpleString content) rest
  else if type = 45 then delivered stack (.error content) rest
  else if type = 58 then
    match parseInt content with
    | .error e => .fail e
    | .ok n => delivered stack (.integer n) rest
  else if type = 36 then bulkHeader lim stack content rest
  else arrayHeader lim stack content rest

/-- The bytes that a value may start with. -/
def typeBytes : Bytes := ascii "+-:$*"

/-- The payload of a bulk string whose header has been read. -/
def bulkPayload (stack : List ArrayFrame) (len : Nat) (src : Bytes) : DecodeRound :=
  if src.length < len + 2 then .wait
  else if (src.drop len).take 2 ≠ crlf then .fail .bulkNotTerminated
  else delivered stack (.bulkString (some (src.take len))) (src.drop (len + 2))

/-- One round of the loop of `decode`. -/
def Decoder.round (lim : Limits) (d : Decoder) (src : Bytes) : DecodeRound :=
  match d.pendingBulkLen with
  | some len => bulkPayload d.stack len src
  | none =>
    match src with
    | [] => .wait
    | type :: body =>
      if type ∉ typeBytes then .fail (.unexpectedType type)
      else
        match readLine src lim.maxBulkLen with
        | .error e => .fail e
        | .ok none => .wait
        | .ok (some (clen, consumed)) =>
          lineOf lim d.stack type (body.take clen) (src.drop consumed)

/-- `decode`: rounds up to the next value. -/
def decode (lim : Limits) (d : Decoder) (src : Bytes) : Answer Decoder UInt8 RespValue RespError :=
  next (Decoder.round lim) d src

/-- `decode` is called until it returns `None`. -/
def decodeAll (lim : Limits) (d : Decoder) (src : Bytes) :
    List RespValue × Stop Decoder UInt8 RespError :=
  outputs (Decoder.round lim) d src

/-- A fresh decoder that is fed chunk by chunk. -/
def decodeChunks (lim : Limits) (chunks : List Bytes) :
    List RespValue × Stop Decoder UInt8 RespError :=
  feedAll (Decoder.round lim) (.waiting {} []) chunks

/-! ## Rounds consume input -/

theorem findCrlf_lt {src : Bytes} {i : Nat} (h : findCrlf src = some i) : i + 2 ≤ src.length := by
  induction src generalizing i with
  | nil => simp [findCrlf] at h
  | cons b rest ih =>
    rw [findCrlf] at h
    split at h
    · rename_i hhere
      cases h
      cases rest with
      | nil => simp at hhere
      | cons c rest => simp
    · obtain ⟨j, hj, rfl⟩ := Option.map_eq_some_iff.mp h
      have := ih hj
      simp only [List.length_cons]
      omega

theorem delivered_rest {stack : List ArrayFrame} {v : RespValue} {rest rest' : Bytes}
    {out : Option RespValue} {d : Decoder} (h : delivered stack v rest = .go out d rest') :
    rest' = rest := by
  cases h
  rfl

/-- Whatever a line is, what follows it stays in the buffer. -/
theorem lineOf_rest {lim : Limits} {stack : List ArrayFrame} {type : UInt8}
    {content rest rest' : Bytes} {out : Option RespValue} {d : Decoder}
    (h : lineOf lim stack type content rest = .go out d rest') : rest' = rest := by
  unfold lineOf bulkHeader arrayHeader at h
  repeat' split at h
  all_goals first
    | exact delivered_rest h
    | (cases h; rfl)
    | cases h

theorem shrinks_round (lim : Limits) : Shrinks (Decoder.round lim) := by
  intro d src out d' rest h
  unfold Decoder.round bulkPayload at h
  split at h
  · split at h
    · cases h
    · split at h
      · cases h
      · rw [delivered_rest h, List.length_drop]
        omega
  · split at h
    · cases h
    · split at h
      · cases h
      · unfold readLine at h
        split at h
        · cases h
        · cases h
        · rename_i hline
          rw [lineOf_rest h, List.length_drop]
          split at hline
          · split at hline <;> cases hline
          · rename_i hi
            have := findCrlf_lt hi
            split at hline
            · cases hline
            · cases hline
              omega

end Resp

end Invar
