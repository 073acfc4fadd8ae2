import Invar.Redis.Command

/-!
# The dispatcher (`redis/commands.rs`)

From the arguments of a request to the command they stand for. The branches of
`dispatch_command` are the rows of `dataTable`; a row answers `none` if the number
of arguments is wrong, which has one error text for all commands. What a branch
reads of the session is in `Ctx`; the few branches that change the session are in
the model of the connection.
-/

namespace Invar.Dispatch

open Ieee754

/-- Why a request is not accepted: an error reply, or a panic of the dispatcher. -/
inductive Reject where
  | error (msg : Bytes)
  | panic
deriving DecidableEq, Repr

abbrev Parse := Except Reject

/-- What the dispatcher reads of the session, and the clock. -/
structure Ctx where
  db : Int
  now : Int

def Ctx.key (c : Ctx) (key : Bytes) : Bytes := publicKey c.db key

/-- `Session::prefix`. -/
def Ctx.dbPrefix (c : Ctx) : Bytes := intText c.db ++ [58]

section

variable {α : Type}

def reject (msg : String) : Parse α := .error (.error (ascii msg))

def syntaxError : Parse α := reject "ERR syntax error"

def arityText (name : Bytes) : Bytes :=
  ascii "ERR wrong number of arguments for '" ++ name ++ ascii "' command"

def wrongArity (name : String) : Parse α := .error (.error (arityText (ascii name)))

/-- An early return with an error. -/
def rejectIf (cond : Bool) (e : Parse Unit) : Parse Unit := if cond then e else .ok ()

def orReject (msg : String) : Option α → Parse α
  | some a => .ok a
  | none => reject msg

end

/-- `eq_ignore_ascii_case`. -/
def isWord (word : String) (arg : Bytes) : Bool := lower arg = ascii word

def notAnInteger : String := "ERR value is not an integer or out of range"

def notAFloat : String := "ERR value is not a float"

/-- `parse_i64`. -/
def int (arg : Bytes) : Parse Int := orReject notAnInteger (parseI64 arg)

/-- The encodings of the characters that `str::trim` removes. -/
def whitespace : List Bytes :=
  [[9], [10], [11], [12], [13], [32], [0xC2, 0x85], [0xC2, 0xA0], [0xE1, 0x9A, 0x80],
    [0xE2, 0x80, 0xA8], [0xE2, 0x80, 0xA9], [0xE2, 0x80, 0xAF], [0xE2, 0x81, 0x9F],
    [0xE3, 0x80, 0x80]] ++
    (List.range 11).map fun i => [0xE2, 0x80, UInt8.ofNat (0x80 + i)]

def trimStart : (fuel : Nat) → Bytes → Bytes
  | 0, bs => bs
  | fuel + 1, bs =>
    match whitespace.find? (·.isPrefixOf bs) with
    | some space => trimStart fuel (bs.drop space.length)
    | none => bs

def trimEnd : (fuel : Nat) → Bytes → Bytes
  | 0, bs => bs
  | fuel + 1, bs =>
    match whitespace.find? (·.isSuffixOf bs) with
    | some space => trimEnd fuel (bs.take (bs.length - space.length))
    | none => bs

/-- `parse_f64`; text that is not UTF-8 is no number either. -/
def parseF64 (arg : Bytes) : Option F64 :=
  F64.parse (trimEnd arg.length (trimStart arg.length arg))

def float (arg : Bytes) (msg : String := notAFloat) : Parse F64 := orReject msg (parseF64 arg)

/-- `StreamEntryId::from_str_bytes`: an id without a dash panics. -/
def streamId (msg : String) (arg : Bytes) : Parse Stream.StreamEntryId :=
  if fromUtf8Lossy arg ≠ arg then reject msg
  else if 45 ∉ arg then .error .panic
  else
    let dash := arg.idxOf 45
    match parseU64 (arg.take dash), parseU64 (arg.drop (dash + 1)) with
    | some ms, some seq => .ok ⟨ms, seq⟩
    | _, _ => reject msg

/-- An id, or none for the mark that stands for an open end. -/
def idUnless (mark : String) (msg : String) (arg : Bytes) :
    Parse (Option Stream.StreamEntryId) :=
  if arg = ascii mark then .ok none else some <$> streamId msg arg

/-! ## `SET` -/

structure SetOptions where
  ttl : Option Nat := none
  mode : Strings.SetMode := .none
  get : Bool := false
  keepttl : Bool := false
  directive : Option String := none

/-- The number after an expiry option, which has to be positive. -/
def positiveTime (arg : Bytes) : Parse Int := do
  let n ← int arg
  if n ≤ 0 then reject "ERR invalid expire time in 'set' command" else return n

/-- The duration up to a deadline; zero if it has passed. The subtraction wraps. -/
def untilDeadline (deadlineMs now : Int) : Nat := (wrapI64 (deadlineMs - now)).toNat

/-- The duration that an expiry option stands for. The product of `EXAT` wraps. -/
def expiryTtl (option : String) (n now : Int) : Nat :=
  if option = "EX" then n.toNat * 1000
  else if option = "PX" then n.toNat
  else if option = "EXAT" then untilDeadline (wrapI64 (n * 1000)) now
  else untilDeadline n now

def expiryOptions : List String := ["EX", "PX", "EXAT", "PXAT"]

def upperByte (b : UInt8) : UInt8 := if 97 ≤ b && b ≤ 122 then b - 32 else b

/-- The option loop of `SET`. -/
def setOptions (now : Int) (o : SetOptions) : List Bytes → Parse SetOptions
  | [] => return o
  | opt :: rest =>
    let opt := opt.map upperByte
    match expiryOptions.find? (ascii · = opt) with
    | some option =>
      match rest with
      | [] => syntaxError
      | arg :: rest => do
        let n ← positiveTime arg
        setOptions now { o with ttl := some (expiryTtl option n now), directive := option } rest
    | none =>
      if opt = ascii "NX" then
        if o.mode = .xx then syntaxError else setOptions now { o with mode := .nx } rest
      else if opt = ascii "XX" then
        if o.mode = .nx then syntaxError else setOptions now { o with mode := .xx } rest
      else if opt = ascii "KEEPTTL" then
        match o.directive with
        | some d => reject ("ERR KEEPTTL and " ++ d ++ " are incompatible")
        | none => setOptions now { o with keepttl := true } rest
      else if opt = ascii "GET" then setOptions now { o with get := true } rest
      else .error (.error (ascii "ERR unknown option '" ++ fromUtf8Lossy opt ++
        ascii "' in 'set' command"))

def setCommand (c : Ctx) (key value : Bytes) (options : List Bytes) : Parse DataCommand := do
  let o ← setOptions c.now {} options
  return .string (c.key key)
    (.set { value, ttl := o.ttl, mode := o.mode, get := o.get, keepttl := o.keepttl })

/-! ## Bitmaps and bloom filters -/

/-- Unit and end of the arguments of `BITCOUNT` and `BITPOS`. -/
def bitUnit : List Bytes → Parse Bool
  | [] => return false
  | [unit] =>
    if isWord "bit" unit then return true
    else if isWord "byte" unit then return false else syntaxError
  | _ => syntaxError

def bitCountRange : List Bytes → Parse (Option Bitmap.Range)
  | [] => return none
  | [start] => do
    let _ ← int start
    syntaxError
  | start :: stop :: rest => do
    let start ← int start
    let stop ← int stop
    return some { start, stop, useBit := ← bitUnit rest }

/-- `BITPOS` without an end takes 0 for it. -/
def bitPosRange : List Bytes → Parse (Option Bitmap.Range)
  | [] => return none
  | [start] => do return some { start := ← int start, stop := 0, useBit := false }
  | start :: stop :: rest => do
    let start ← int start
    let stop ← int stop
    return some { start, stop, useBit := ← bitUnit rest }

def bitOffset (arg : Bytes) : Parse Nat := do
  let n ← int arg
  if n < 0 then reject "ERR bit offset is not an integer or out of range" else return n.toNat

def bitValue (arg : Bytes) : Parse Bool := do
  let n ← int arg
  if n ≠ 0 && n ≠ 1 then reject "ERR bit is not an integer or out of range" else return n = 1

/-- The options of `BF.RESERVE`; what is no option is skipped. -/
def reserveOptions : List Bytes → (expansion : Int) → (nonScaling : Bool) → Parse (Int × Bool)
  | [], expansion, nonScaling => return (expansion, nonScaling)
  | [opt], expansion, nonScaling => return (expansion, nonScaling || isWord "nonscaling" opt)
  | opt :: arg :: rest, expansion, nonScaling =>
    if isWord "expansion" opt then do reserveOptions rest (← int arg) nonScaling
    else reserveOptions (arg :: rest) expansion (nonScaling || isWord "nonscaling" opt)

/-- An option of `BF.INSERT` without an argument. -/
def insertFlag (opt : Bytes) (info : Bloom.InsertInfo) : Parse Bloom.InsertInfo :=
  if isWord "nocreate" opt then return { info with noCreate := true }
  else if isWord "nonscaling" opt then return { info with nonScaling := true }
  else .error (.error (ascii "ERR syntax error at " ++ fromUtf8Lossy opt))

/-- The option loop of `BF.INSERT`; the items are all that follows `ITEMS`. -/
def insertOptions : List Bytes → Bloom.InsertInfo → Parse Bloom.InsertInfo
  | [], info => return info
  | [opt], info => if isWord "items" opt then return info else insertFlag opt info
  | opt :: arg :: rest, info =>
    if isWord "capacity" opt then do
      insertOptions rest { info with capacity := (← int arg).toNat }
    else if isWord "error" opt then do insertOptions rest { info with error := ← float arg }
    else if isWord "expansion" opt then do
      insertOptions rest { info with expansion := ← int arg }
    else if isWord "items" opt then return { info with items := arg :: rest }
    else do insertOptions (arg :: rest) (← insertFlag opt info)

def insertInfo (args : List Bytes) : Parse Bloom.InsertInfo := do
  let info ← insertOptions args
    { capacity := 0, error := .zero, expansion := 0, noCreate := false, nonScaling := false
      items := [] }
  if info.items.isEmpty then reject "ERR ITEMS argument required" else return info

/-! ## JSON -/

inductive FphaType where
  | fp16 | bf16 | fp32 | fp64
deriving DecidableEq, Repr

def fphaNames : List (String × FphaType) :=
  [("fp16", .fp16), ("bf16", .bf16), ("fp32", .fp32), ("fp64", .fp64)]

def parseFpha (arg : Bytes) : Option FphaType :=
  (fphaNames.find? fun t => isWord t.1 arg).map (·.2)

/-- The least and the greatest magnitude that a type can hold. -/
def FphaType.range : FphaType → Option (F64 × F64)
  | .fp64 => none
  | .fp32 | .bf16 =>
    some (.ofDecimal false 1401298464324817 16 (-60), .ofDecimal false 34028234663852886 17 22)
  | .fp16 => some (.ofDecimal false 61035 5 (-9), .ofInt 65504)

/-- `validate_fpha_float`. -/
def FphaType.fits (ft : FphaType) (n : F64) : Bool :=
  ft.range.all fun (least, most) =>
    let magnitude := if n.signBit then n.neg else n
    (n.numEq .zero || !magnitude.lt least) && !most.lt magnitude

mutual

/-- `validate_fpha`. -/
def validFpha (ft : FphaType) : Json.JValue → Bool
  | .number n => ft.fits n
  | .arr items => validFphaItems ft items
  | .obj members => validFphaMembers ft members
  | _ => true

def validFphaItems (ft : FphaType) : List Json.JValue → Bool
  | [] => true
  | v :: rest => validFpha ft v && validFphaItems ft rest

def validFphaMembers (ft : FphaType) : List (Bytes × Json.JValue) → Bool
  | [] => true
  | (_, v) :: rest => validFpha ft v && validFphaMembers ft rest

end

structure JsonSetOptions where
  nx : Bool := false
  xx : Bool := false
  fpha : Option FphaType := none

def jsonSetOptions : List Bytes → JsonSetOptions → Parse JsonSetOptions
  | [], o => return o
  | [opt], o =>
    if isWord "nx" opt then return { o with nx := true }
    else if isWord "xx" opt then return { o with xx := true } else syntaxError
  | opt :: arg :: rest, o =>
    if isWord "nx" opt then jsonSetOptions (arg :: rest) { o with nx := true }
    else if isWord "xx" opt then jsonSetOptions (arg :: rest) { o with xx := true }
    else if isWord "fpha" opt then
      match parseFpha arg with
      | some ft => jsonSetOptions rest { o with fpha := ft }
      | none => syntaxError
    else syntaxError

def jsonValue (arg : Bytes) : Parse Json.JValue := orReject "ERR invalid JSON" (Json.parseJson arg)

def jsonSet (c : Ctx) (key path value : Bytes) (options : List Bytes) : Parse DataCommand := do
  let value ← jsonValue value
  let o ← jsonSetOptions options {}
  rejectIf (o.nx && o.xx) (reject "ERR NX and XX are mutually exclusive")
  rejectIf (o.fpha.any fun ft => !validFpha ft value) (reject "value out of range")
  return .json (c.key key) (.set (fromUtf8Lossy path) value o.nx o.xx)

/-- `parse_json_string`. -/
def jsonString (arg : Bytes) : Parse Bytes :=
  orReject "ERR invalid JSON string" (Json.parseJsonString arg)

def jsonInt (arg : Bytes) : Parse Int :=
  orReject "value is not an integer or out of range" (parseI64 arg)

/-- The path of a JSON command, if it is given. -/
def pathOr (path : Bytes) : List Bytes → Bytes
  | p :: _ => fromUtf8Lossy p
  | [] => path

def rootPath : Bytes := ascii "$"

/-! ## Scans -/

structure ScanOptions where
  count : Nat := 10
  pattern : Option Bytes := none
  typeFilter : Option UInt8 := none

/-- `SSCAN` skips what is no option. -/
def sscanOptions : List Bytes → ScanOptions → Parse ScanOptions
  | [], o => return o
  | [opt], o => if isWord "match" opt || isWord "count" opt then syntaxError else return o
  | opt :: arg :: rest, o =>
    if isWord "match" opt then sscanOptions rest { o with pattern := arg }
    else if isWord "count" opt then do
      sscanOptions rest { o with count := (max (← int arg) 1).toNat }
    else sscanOptions (arg :: rest) o

/-- An unknown type name leaves no filter. -/
def scanOptions : List Bytes → ScanOptions → Parse ScanOptions
  | [], o => return o
  | [_], _ => syntaxError
  | opt :: arg :: rest, o =>
    if isWord "match" opt then scanOptions rest { o with pattern := arg }
    else if isWord "count" opt then do
      let n ← int arg
      if n < 1 then syntaxError else scanOptions rest { o with count := n.toNat }
    else if isWord "type" opt then scanOptions rest { o with typeFilter := Keys.typeByte arg }
    else syntaxError

def scanCommand (c : Ctx) (cursor : Bytes) (options : List Bytes) : Parse DataCommand := do
  let o ← scanOptions options {}
  return .scan
    { dbPrefix := c.dbPrefix, cursor, count := o.count
      pattern := o.pattern.filter (· ≠ ascii "*"), typeFilter := o.typeFilter }

def hscanOptions : List Bytes → (pattern : Bytes) → (count : Int) → Parse (Bytes × Int)
  | [], pattern, count => return (pattern, count)
  | [_], _, _ => syntaxError
  | opt :: arg :: rest, pattern, count =>
    if isWord "match" opt then hscanOptions rest arg count
    else if isWord "count" opt then do hscanOptions rest pattern (← int arg)
    else syntaxError

/-! ## Sorted sets -/

inductive ZRangeKind where
  | rank | score | lex
deriving DecidableEq, Repr

structure ZRangeOptions where
  kind : Option ZRangeKind := none
  reverse : Bool := false
  withScores : Bool := false
  limit : Option (Int × Int) := none

/-- An option of `ZRANGE` without an argument. -/
def zrangeFlag (opt : Bytes) (o : ZRangeOptions) : Parse ZRangeOptions :=
  if isWord "withscores" opt then return { o with withScores := true }
  else if isWord "rev" opt && !o.reverse then return { o with reverse := true }
  else if isWord "byscore" opt && o.kind.isNone then return { o with kind := some .score }
  else if isWord "bylex" opt && o.kind.isNone then return { o with kind := some .lex }
  else syntaxError

/-- The option loop of `parse_zrange_options`. -/
def zrangeOptions : List Bytes → ZRangeOptions → Parse ZRangeOptions
  | [], o => return o
  | [opt], o => zrangeFlag opt o
  | [opt, opt'], o => do zrangeFlag opt' (← zrangeFlag opt o)
  | opt :: a :: b :: rest, o =>
    if isWord "limit" opt then do
      zrangeOptions rest { o with limit := some (← int a, ← int b) }
    else do zrangeOptions (a :: b :: rest) (← zrangeFlag opt o)

/-- The bounds come as maximum and minimum with `REV`. -/
def bounds (reverse : Bool) (first second : Bytes) : Bytes × Bytes :=
  let first := fromUtf8Lossy first
  let second := fromUtf8Lossy second
  if reverse then (second, first) else (first, second)

def byScore (reverse : Bool) (first second : Bytes) (withScores : Bool)
    (limit : Option (Int × Int)) : Zset.Op :=
  let (min, max) := bounds reverse first second
  .rangeByScore min max withScores limit reverse

def byLex (reverse : Bool) (first second : Bytes) (limit : Option (Int × Int)) : Zset.Op :=
  let (min, max) := bounds reverse first second
  .rangeByLex min max limit reverse

def zrange (first second : Bytes) (options : List Bytes) : Parse Zset.Op := do
  let o ← zrangeOptions options {}
  let kind := o.kind.getD .rank
  rejectIf (o.limit.isSome && kind = .rank)
    (reject ("ERR syntax error, LIMIT is only supported in combination with either BYSCORE " ++
      "or BYLEX"))
  rejectIf (o.withScores && kind = .lex)
    (reject "ERR syntax error, WITHSCORES not supported in combination with BYLEX")
  match kind with
  | .rank => return .rangeByRank (← int first) (← int second) o.withScores o.reverse
  | .score => return byScore o.reverse first second o.withScores o.limit
  | .lex => return byLex o.reverse first second o.limit

/-- The options of `ZRANGEBYSCORE` and `ZREVRANGEBYSCORE`; what is none is skipped. -/
def byScoreOptions : List Bytes → (withScores : Bool) → (limit : Option (Int × Int)) →
    Parse (Bool × Option (Int × Int))
  | opt :: a :: b :: rest, withScores, limit =>
    if isWord "limit" opt then do
      byScoreOptions rest withScores (some (← int a, ← int b))
    else byScoreOptions (a :: b :: rest) (withScores || isWord "withscores" opt) limit
  | rest, withScores, limit => return (withScores || rest.any (isWord "withscores"), limit)

def rangeByScore (reverse : Bool) (first second : Bytes) (options : List Bytes) :
    Parse Zset.Op := do
  let (withScores, limit) ← byScoreOptions options false none
  return byScore reverse first second withScores limit

/-- `LIMIT` counts only as the first option. -/
def lexLimit : List Bytes → Parse (Option (Int × Int))
  | opt :: offset :: count :: _ =>
    if isWord "limit" opt then do return some (← int offset, ← int count) else return none
  | _ => return none

def rangeByLex (reverse : Bool) (first second : Bytes) (options : List Bytes) :
    Parse Zset.Op := do
  return byLex reverse first second (← lexLimit options)

/-- The number of keys and what follows it, split after the keys. -/
def numKeys (name : String) : List Bytes → Parse (List Bytes × List Bytes)
  | [] => wrongArity name
  | n :: rest => do
    let n ← int n
    rejectIf (n < 0) (reject notAnInteger)
    rejectIf (rest.length < n.toNat) (wrongArity name)
    return (rest.take n.toNat, rest.drop n.toNat)

def floats : List Bytes → Parse (List F64)
  | [] => return []
  | arg :: rest => do
    let w ← float arg
    return w :: (← floats rest)

structure AlgebraOptions where
  weights : List F64 := []
  aggregate : Bytes := ascii "SUM"

/-- The options of `ZINTER`, `ZUNION` and their stores. Weights given twice do not match the
number of keys. -/
def algebraOptions (isStore : Bool) (keyCount : Nat) : (fuel : Nat) → List Bytes →
    AlgebraOptions → Parse AlgebraOptions
  | 0, _, o => return o
  | _, [], o => return o
  | fuel + 1, opt :: rest, o =>
    if isWord "weights" opt then do
      let weights := o.weights ++ (← floats (rest.take keyCount))
      rejectIf (weights.length ≠ keyCount)
        (reject "ERR weight count does not match number of keys")
      algebraOptions isStore keyCount fuel (rest.drop keyCount) { o with weights }
    else if isWord "aggregate" opt then
      match rest with
      | [] => syntaxError
      | arg :: rest =>
        if isWord "sum" arg || isWord "min" arg || isWord "max" arg then
          algebraOptions isStore keyCount fuel rest { o with aggregate := arg }
        else syntaxError
    else if isWord "withscores" opt && !isStore then
      algebraOptions isStore keyCount fuel rest o
    else syntaxError

/-- `ZINTER` and `ZUNION`: scores are returned if the word occurs anywhere. -/
def algebra (c : Ctx) (kind : Zset.SetOpKind) (name : String) (args : List Bytes) :
    Option (Parse DataCommand) :=
  if args.length < 3 then none
  else some do
    let (keys, options) ← numKeys name args
    let o ← algebraOptions false keys.length (options.length + 1) options {}
    return .zsetOp kind o.aggregate o.weights (keys.map c.key) (args.any (isWord "withscores"))

def algebraStore (c : Ctx) (kind : Zset.SetOpKind) (name : String) :
    List Bytes → Option (Parse DataCommand)
  | dest :: args =>
    if args.length < 2 then none
    else some do
      let (keys, options) ← numKeys name args
      let o ← algebraOptions true keys.length (options.length + 1) options {}
      return .zsetStore kind (c.key dest) o.aggregate o.weights (keys.map c.key)
  | _ => none

def popCount : List Bytes → Parse Nat
  | [] => return 1
  | n :: _ => do
    let n ← int n
    if n < 0 then reject notAnInteger else return n.toNat

/-! ## Streams -/

structure XAddOptions where
  nomkstream : Bool := false
  maxLen : Option Nat := none
  minId : Option Stream.StreamEntryId := none

/-- The argument after an optional `~`. -/
def afterTilde : List Bytes → List Bytes
  | arg :: rest => if arg = ascii "~" then rest else arg :: rest
  | [] => []

def maxLenArg (arg : Bytes) : Parse Nat := do
  let n ← int arg
  if n < 0 then reject "ERR MAXLEN positive integer argument required" else return n.toNat

def minIdArg : Bytes → Parse Stream.StreamEntryId :=
  streamId "ERR invalid stream ID specified as MINID argument"

/-- The options of `XADD`, and the arguments from the id on. -/
def xaddOptions : (fuel : Nat) → List Bytes → XAddOptions → Parse (XAddOptions × List Bytes)
  | 0, args, o => return (o, args)
  | _, [], o => return (o, [])
  | fuel + 1, opt :: rest, o =>
    if isWord "nomkstream" opt then xaddOptions fuel rest { o with nomkstream := true }
    else if isWord "maxlen" opt then
      match afterTilde rest with
      | [] => syntaxError
      | arg :: rest => do xaddOptions fuel rest { o with maxLen := ← maxLenArg arg }
    else if isWord "minid" opt then
      match afterTilde rest with
      | [] => syntaxError
      | arg :: rest => do xaddOptions fuel rest { o with minId := ← minIdArg arg }
    else return (o, opt :: rest)

def xadd (c : Ctx) (key : Bytes) (args : List Bytes) : Parse DataCommand := do
  let (o, rest) ← xaddOptions args.length args {}
  match rest with
  | [] => wrongArity "xadd"
  | id :: fieldValues =>
    let id ← idUnless "*" "ERR invalid stream ID specified as XADD argument" id
    rejectIf (fieldValues.isEmpty || fieldValues.length % 2 ≠ 0) (wrongArity "xadd")
    return .xadd (c.key key) o.nomkstream o.maxLen o.minId id fieldValues

/-- `usize::MAX`, the count of a read without one. -/
def noCount : Nat := 2 ^ 64 - 1

def rangeCount : List Bytes → Parse Nat
  | opt :: n :: _ =>
    if isWord "count" opt then do
      let n ← int n
      if n < 0 then reject "ERR COUNT must be positive" else return n.toNat
    else return noCount
  | _ => return noCount

def xrange (reverse : Bool) (name : String) (start stop : Bytes) (options : List Bytes) :
    Parse Stream.Op := do
  let msg := "ERR invalid stream ID specified as " ++ name ++ " argument"
  let start ← idUnless "-" msg start
  let stop ← idUnless "+" msg stop
  return .xrange start stop (← rangeCount options) reverse

structure XReadOptions where
  count : Nat := noCount
  blockMs : Option Nat := none

/-- The options of `XREAD` up to the word `STREAMS`, and what follows it. Arguments that
end before it panic. -/
def xreadOptions : List Bytes → XReadOptions → Parse (XReadOptions × List Bytes)
  | [], _ => .error .panic
  | [opt], o =>
    if isWord "streams" opt then return (o, [])
    else syntaxError
  | opt :: arg :: rest, o =>
    if isWord "streams" opt then return (o, arg :: rest)
    else if isWord "count" opt then do
      let n ← int arg
      rejectIf (n < 1) (reject "ERR COUNT must be positive")
      xreadOptions rest { o with count := n.toNat }
    else if isWord "block" opt then do
      let n ← int arg
      rejectIf (n < 0) (reject "ERR timeout is negative")
      xreadOptions rest { o with blockMs := n.toNat }
    else syntaxError

def readIds : List Bytes → Parse (List (Option Stream.StreamEntryId))
  | [] => return []
  | arg :: rest => do
    let id ← idUnless "$" "ERR invalid stream ID specified in XREAD argument" arg
    return id :: (← readIds rest)

/-- A read, with the time to block for. -/
def xread (c : Ctx) (args : List Bytes) : Parse (DataCommand × Option Nat) := do
  let (o, rest) ← xreadOptions args {}
  rejectIf (rest.length < 2 || rest.length % 2 ≠ 0) (wrongArity "xread")
  let keys := rest.take (rest.length / 2)
  let ids ← readIds (rest.drop (rest.length / 2))
  return (.xread (keys.map fun k => (c.key k, k)) ids o.count, o.blockMs)

def streamIds (msg : String) : List Bytes → Parse (List Stream.StreamEntryId)
  | [] => return []
  | arg :: rest => do
    let id ← streamId msg arg
    return id :: (← streamIds msg rest)

def xtrim (strategy : Bytes) (args : List Bytes) : Parse Stream.Op :=
  if isWord "maxlen" strategy then
    match afterTilde args with
    | [] => syntaxError
    | arg :: _ => do return .xtrim (some (← maxLenArg arg)) none
  else if isWord "minid" strategy then
    match afterTilde args with
    | [] => syntaxError
    | arg :: _ => do return .xtrim none (some (← minIdArg arg))
  else syntaxError

/-! ## The table -/

/-- `parse_pair` of each two arguments. -/
def pairs (c : Ctx) : List Bytes → List (Bytes × Bytes)
  | k :: v :: rest => (c.key k, v) :: pairs c rest
  | _ => []

def jsonValues : List Bytes → Parse (List Json.JValue)
  | [] => return []
  | arg :: rest => do
    let v ← jsonValue arg
    return v :: (← jsonValues rest)

/-- A branch of the dispatcher: `none` if the number of arguments is wrong. -/
abbrev Branch := Ctx → List Bytes → Option (Parse DataCommand)

def Branch.ofStrings (f : List Bytes → Option (Parse Strings.Op)) : Branch
  | c, key :: args => (f args).map fun op => do return .string (c.key key) (← op)
  | _, [] => none

def Branch.ofBitmap (f : List Bytes → Option (Parse Bitmap.Op)) : Branch
  | c, key :: args => (f args).map fun op => do return .bitmap (c.key key) (← op)
  | _, [] => none

def Branch.ofBloom (f : List Bytes → Option (Parse Bloom.Op)) : Branch
  | c, key :: args => (f args).map fun op => do return .bloom (c.key key) (← op)
  | _, [] => none

def Branch.ofJson (f : List Bytes → Option (Parse Json.Op)) : Branch
  | c, key :: args => (f args).map fun op => do return .json (c.key key) (← op)
  | _, [] => none

def Branch.ofList (f : List Bytes → Option (Parse ListType.Op)) : Branch
  | c, key :: args => (f args).map fun op => do return .list (c.key key) (← op)
  | _, [] => none

def Branch.ofSet (f : List Bytes → Option (Parse Set.Op)) : Branch
  | c, key :: args => (f args).map fun op => do return .set (c.key key) (← op)
  | _, [] => none

def Branch.ofZset (f : List Bytes → Option (Parse Zset.Op)) : Branch
  | c, key :: args => (f args).map fun op => do return .zset (c.key key) (← op)
  | _, [] => none

def Branch.ofHash (f : List Bytes → Option (Parse Hash.Op)) : Branch
  | c, key :: args => (f args).map fun op => do return .hash (c.key key) (← op)
  | _, [] => none

def Branch.ofStream (f : List Bytes → Option (Parse Stream.Op)) : Branch
  | c, key :: args => (f args).map fun op => do return .stream (c.key key) (← op)
  | _, [] => none

/-- A command with a list of at least `least` keys. -/
def Branch.ofKeys (least : Nat) (f : List Bytes → DataCommand) : Branch := fun c args =>
  if args.length < least then none else some (return f (args.map c.key))

/-- A command with one key. -/
def Branch.ofKey (f : Bytes → DataCommand) : Branch
  | c, [key] => some (return f (c.key key))
  | _, _ => none

def stringBranches : List (String × Branch) :=
  [("set", fun c args =>
      match args with
      | key :: value :: options => some (setCommand c key value options)
      | _ => none),
    ("get", .ofStrings fun | [] => some (return .get) | _ => none),
    ("setex", .ofStrings fun
      | [n, value] => some do return .setEx value (← int n)
      | _ => none),
    ("psetex", .ofStrings fun
      | [n, value] => some do return .psetEx value (← int n)
      | _ => none),
    ("getset", .ofStrings fun | [value] => some (return .getSet value) | _ => none),
    ("getdel", .ofStrings fun | [] => some (return .getDel) | _ => none),
    ("strlen", .ofStrings fun | [] => some (return .strlen) | _ => none),
    ("substr", .ofStrings fun
      | [start, stop] => some do return .substr (← int start) (← int stop)
      | _ => none),
    ("getrange", .ofStrings fun
      | [start, stop] => some do return .substr (← int start) (← int stop)
      | _ => none),
    ("setnx", .ofStrings fun | [value] => some (return .setNx value) | _ => none),
    ("append", .ofStrings fun | [value] => some (return .append value) | _ => none),
    ("getex", .ofStrings fun args => some (return .getEx args)),
    ("incrbyfloat", .ofStrings fun
      | [amount] => some do return .incrByFloat (← float amount)
      | _ => none),
    ("setrange", .ofStrings fun
      | [offset, value] => some do
        let offset ← int offset
        rejectIf (offset < 0) (reject "ERR offset is out of range")
        return .setRange offset value
      | _ => none),
    ("incr", .ofStrings fun | [] => some (return .increment 1) | _ => none),
    ("incrby", .ofStrings fun
      | [amount] => some do return .increment (← int amount)
      | _ => none),
    ("decr", .ofStrings fun | [] => some (return .increment (-1)) | _ => none),
    ("decrby", .ofStrings fun
      | [amount] => some do return .increment (wrapI64 (-(← int amount)))
      | _ => none),
    ("mset", fun c args =>
      if args.isEmpty || args.length % 2 ≠ 0 then none else some (return .mset (pairs c args))),
    ("msetnx", fun c args =>
      if args.isEmpty || args.length % 2 ≠ 0 then none
      else some (return .msetNx (pairs c args)))]

def bitmapBranches : List (String × Branch) :=
  [("setbit", .ofBitmap fun
      | [offset, value] => some do return .setBit (← bitOffset offset) (← bitValue value)
      | _ => none),
    ("getbit", .ofBitmap fun
      | [offset] => some do return .getBit (← bitOffset offset)
      | _ => none),
    ("bitcount", .ofBitmap fun args => some do return .bitCount (← bitCountRange args)),
    ("bitpos", .ofBitmap fun
      | bit :: args => some do return .bitPos (← bitValue bit) (← bitPosRange args)
      | _ => none),
    ("bitop", fun c args =>
      match args with
      | op :: dest :: src :: rest => some do
        match Bitmap.parseBitOp op with
        | none => syntaxError
        | some op =>
          rejectIf (op = .not && !rest.isEmpty) (wrongArity "bitop")
          return .bitOp (c.key dest) op ((src :: rest).map c.key)
      | _ => none),
    ("pfadd", fun c args =>
      match args with
      | key :: e :: es => some (return .pfadd (c.key key) (e :: es))
      | _ => none),
    ("pfcount", .ofKeys 1 .pfcount),
    ("pfmerge", fun c args =>
      match args with
      | dest :: sources => some (return .pfmerge (c.key dest) (sources.map c.key))
      | _ => none)]

def bloomBranches : List (String × Branch) :=
  [("bf.reserve", .ofBloom fun
      | rate :: capacity :: options => some do
        let rate ← float rate
        let capacity ← int capacity
        rejectIf (capacity < 1) (reject "ERR capacity must be positive")
        let (expansion, nonScaling) ← reserveOptions options 2 false
        return .reserve rate capacity.toNat expansion nonScaling
      | _ => none),
    ("bf.add", .ofBloom fun | [item] => some (return .add item) | _ => none),
    ("bf.exists", .ofBloom fun | [item] => some (return .exists_ item) | _ => none),
    ("bf.madd", .ofBloom fun
      | [] => none
      | items => some (return .madd items)),
    ("bf.mexists", .ofBloom fun
      | [] => none
      | items => some (return .mexists items)),
    ("bf.insert", .ofBloom fun
      | [] => none
      | args => some do return .insert (← insertInfo args)),
    ("bf.info", .ofBloom fun _ => some (return .info))]

def jsonBranches : List (String × Branch) :=
  [("json.set", fun c args =>
      match args with
      | key :: path :: value :: options => some (jsonSet c key path value options)
      | _ => none),
    ("json.get", .ofJson fun paths => some (return .get (paths.map fromUtf8Lossy))),
    ("json.del", .ofJson fun paths => some (return .del (paths.map fromUtf8Lossy))),
    ("json.type", .ofJson fun args => some (return .type (pathOr rootPath args))),
    ("json.arrappend", .ofJson fun
      | path :: v :: vs => some do return .arrAppend (fromUtf8Lossy path) (← jsonValues (v :: vs))
      | _ => none),
    ("json.arrindex", .ofJson fun
      | path :: v :: _ => some do return .arrIndex (fromUtf8Lossy path) (← jsonValue v)
      | _ => none),
    ("json.arrlen", .ofJson fun args => some (return .arrLen (pathOr rootPath args))),
    ("json.numincrby", .ofJson fun
      | path :: n :: _ => some do
        return .numIncrBy (fromUtf8Lossy path) (← float n "ERR value is not a number")
      | _ => none),
    ("json.nummultby", .ofJson fun
      | path :: n :: _ => some do
        return .numMultBy (fromUtf8Lossy path) (← float n "ERR value is not a number")
      | _ => none),
    ("json.objkeys", .ofJson fun args => some (return .objKeys (pathOr rootPath args))),
    ("json.objlen", .ofJson fun args => some (return .objLen (pathOr rootPath args))),
    -- with more than two arguments the path is ignored and the second one appended
    ("json.strappend", .ofJson fun
      | [] => none
      | [value] => some do return .strAppend rootPath (← jsonString value)
      | [path, value] => some do return .strAppend (fromUtf8Lossy path) (← jsonString value)
      | _ :: value :: _ => some do return .strAppend rootPath (← jsonString value)),
    ("json.strlen", .ofJson fun args => some (return .strLen (pathOr rootPath args))),
    ("json.mget", fun c args =>
      if args.length < 2 then none
      else
        let path := fromUtf8Lossy (args.getLast?.getD [])
        some (return .jsonMget (args.dropLast.map c.key) path)),
    ("json.resp", .ofJson fun args => some (return .resp (pathOr [] args))),
    ("json.clear", .ofJson fun args => some (return .clear (pathOr rootPath args))),
    ("json.arrpop", .ofJson fun
      | path :: idx :: _ => some do return .arrPop (fromUtf8Lossy path) (← jsonInt idx)
      | args => some (return .arrPop (pathOr rootPath args) (-1))),
    ("json.arrtrim", .ofJson fun
      | [path, start] => some do return .arrTrim (fromUtf8Lossy path) (← jsonInt start) (-1)
      | path :: start :: stop :: _ => some do
        return .arrTrim (fromUtf8Lossy path) (← jsonInt start) (← jsonInt stop)
      | _ => none),
    ("json.arrinsert", .ofJson fun
      | path :: index :: v :: vs => some do
        return .arrInsert (fromUtf8Lossy path) (← int index) (← jsonValues (v :: vs))
      | _ => none)]

def listBranches : List (String × Branch) :=
  [("lpush", .ofList fun | [] => none | values => some (return .push values false false)),
    ("rpush", .ofList fun | [] => none | values => some (return .push values true false)),
    ("lpop", .ofList fun | [] => some (return .pop false) | _ => none),
    ("rpop", .ofList fun | [] => some (return .pop true) | _ => none),
    ("rpoplpush", fun c args =>
      match args with
      | [src, dst] => some (return .rpoplpush (c.key src) (c.key dst))
      | _ => none),
    ("lpos", .ofList fun | element :: _ => some (return .lpos element) | _ => none),
    ("llen", .ofList fun | [] => some (return .llen) | _ => none),
    ("lrange", .ofList fun
      | [start, stop] => some do return .lrange (← int start) (← int stop)
      | _ => none),
    ("lindex", .ofList fun | [i] => some do return .lindex (← int i) | _ => none),
    ("lset", .ofList fun | [i, value] => some do return .lset (← int i) value | _ => none),
    ("lrem", .ofList fun | [n, value] => some do return .lrem (← int n) value | _ => none),
    ("ltrim", .ofList fun
      | [start, stop] => some do return .ltrim (← int start) (← int stop)
      | _ => none),
    ("linsert", .ofList fun
      | [place, pivot, value] => some (return .linsert (isWord "before" place) pivot value)
      | _ => none),
    ("lpushx", .ofList fun | [value] => some (return .push [value] false true) | _ => none),
    ("rpushx", .ofList fun | [value] => some (return .push [value] true true) | _ => none)]

def setBranches : List (String × Branch) :=
  [("sadd", .ofSet fun | [] => none | members => some (return .sadd members)),
    ("srem", .ofSet fun | [] => none | members => some (return .srem members)),
    ("scard", .ofSet fun | [] => some (return .scard) | _ => none),
    ("smembers", .ofSet fun | [] => some (return .smembers) | _ => none),
    ("sismember", .ofSet fun | [m] => some (return .sismember m) | _ => none),
    ("spop", .ofSet fun | [] => some (return .spop) | _ => none),
    ("srandmember", .ofSet fun | [] => some (return .srandmember 1) | _ => none),
    ("smove", fun c args =>
      match args with
      | [src, dst, member] => some (return .smove (c.key src) (c.key dst) member)
      | _ => none),
    ("sdiff", .ofKeys 1 (.setOp .diff)),
    ("sinter", .ofKeys 1 (.setOp .inter)),
    ("sunion", .ofKeys 1 (.setOp .union)),
    ("sdiffstore", storeOf .diff),
    ("sinterstore", storeOf .inter),
    ("sunionstore", storeOf .union),
    ("sscan", .ofSet fun
      | cursor :: options => some do
        let o ← sscanOptions options {}
        return .sscan cursor o.count o.pattern
      | _ => none)]
where
  storeOf (kind : Set.BinarySetOpKind) : Branch
    | c, dest :: key :: keys => some (return .setStore kind (c.key dest) ((key :: keys).map c.key))
    | _, _ => none

def zsetBranches : List (String × Branch) :=
  [("zadd", fun c args =>
      match args with
      | key :: a :: b :: rest => some (return .zadd (c.key key) key (a :: b :: rest))
      | _ => none),
    ("zcard", .ofZset fun | [] => some (return .zcard) | _ => none),
    ("zcount", .ofZset fun
      | [min, max] => some (return .zcount (fromUtf8Lossy min) (fromUtf8Lossy max))
      | _ => none),
    ("zincrby", .ofZset fun
      | [n, member] => some do return .zincrby (← float n) member
      | _ => none),
    ("zinter", fun c => algebra c .inter "zinter"),
    ("zinterstore", fun c => algebraStore c .inter "zinterstore"),
    ("zunion", fun c => algebra c .union "zunion"),
    ("zunionstore", fun c => algebraStore c .union "zunionstore"),
    ("zlexcount", .ofZset fun
      | [min, max] => some (return .lexCount (fromUtf8Lossy min) (fromUtf8Lossy max))
      | _ => none),
    ("zpopmax", .ofZset fun args => some do return .zpop (← popCount args) false),
    ("zpopmin", .ofZset fun args => some do return .zpop (← popCount args) true),
    ("zrange", .ofZset fun
      | first :: second :: options => some (zrange first second options)
      | _ => none),
    ("zrangebylex", .ofZset fun
      | min :: max :: options => some (rangeByLex false min max options)
      | _ => none),
    ("zrangebyscore", .ofZset fun
      | min :: max :: options => some (rangeByScore false min max options)
      | _ => none),
    ("zrank", .ofZset fun | [member] => some (return .rank member false) | _ => none),
    ("zrem", .ofZset fun | [] => none | members => some (return .zrem members)),
    ("zremrangebylex", .ofZset fun
      | [min, max] => some (return .remRangeByLex (fromUtf8Lossy min) (fromUtf8Lossy max))
      | _ => none),
    ("zremrangebyrank", .ofZset fun
      | [start, stop] => some do return .remRangeByRank (← int start) (← int stop)
      | _ => none),
    ("zremrangebyscore", .ofZset fun
      | [min, max] => some (return .remRangeByScore (fromUtf8Lossy min) (fromUtf8Lossy max))
      | _ => none),
    ("zrevrange", .ofZset fun
      | start :: stop :: rest => some do
        return .rangeByRank (← int start) (← int stop) (rest.head?.any (isWord "withscores")) true
      | _ => none),
    ("zrevrangebylex", .ofZset fun
      | max :: min :: options => some (rangeByLex true max min options)
      | _ => none),
    ("zrevrangebyscore", .ofZset fun
      | max :: min :: options => some (rangeByScore true max min options)
      | _ => none),
    ("zrevrank", .ofZset fun | [member] => some (return .rank member true) | _ => none),
    ("zscore", .ofZset fun | [member] => some (return .zscore member) | _ => none),
    ("zdiff", fun c args =>
      if args.length < 2 then none
      else some do
        let (keys, rest) ← numKeys "zdiff" args
        return .zsetOp .diff [] [] (keys.map c.key) (rest.head?.any (isWord "withscores"))),
    ("zdiffstore", fun c args =>
      match args with
      | dest :: n :: key :: keys => some do
        let (keys, _) ← numKeys "zdiffstore" (n :: key :: keys)
        return .zsetStore .diff (c.key dest) [] [] (keys.map c.key)
      | _ => none),
    ("zmscore", .ofZset fun | [] => none | members => some (return .zmscore members)),
    ("zrandmember", .ofZset fun
      | [] => some (return .zrandmember 1)
      | n :: _ => some do return .zrandmember (← int n)),
    ("zrangestore", fun c args =>
      match args with
      | [dest, src, start, stop] => some do
        return .zrangestore (c.key dest) (c.key src) (← int start) (← int stop)
      | _ => none)]

def hashBranches : List (String × Branch) :=
  [("hset", .ofHash fun args =>
      if args.isEmpty || args.length % 2 ≠ 0 then none else some (return .hset args)),
    ("hmset", .ofHash fun args =>
      if args.isEmpty || args.length % 2 ≠ 0 then none else some (return .hmset args)),
    ("hsetnx", .ofHash fun | [f, v] => some (return .hsetnx f v) | _ => none),
    ("hget", .ofHash fun | [f] => some (return .hget f) | _ => none),
    ("hmget", .ofHash fun | [] => none | fields => some (return .hmget fields)),
    ("hdel", .ofHash fun | [] => none | fields => some (return .hdel fields)),
    ("hexists", .ofHash fun | [f] => some (return .hexists f) | _ => none),
    ("hlen", .ofHash fun | [] => some (return .hlen) | _ => none),
    ("hkeys", .ofHash fun | [] => some (return .hkeys) | _ => none),
    ("hvals", .ofHash fun | [] => some (return .hvals) | _ => none),
    ("hgetall", .ofHash fun | [] => some (return .hgetall) | _ => none),
    ("hincrby", .ofHash fun | [f, n] => some do return .hincrby f (← int n) | _ => none),
    ("hincrbyfloat", .ofHash fun
      | [f, n] => some do return .hincrbyfloat f (← float n)
      | _ => none),
    ("hrandfield", .ofHash fun
      | [] => some (return .hrandfield 1 false)
      | [n] => some do return .hrandfield (← int n) false
      | n :: w :: _ => some do
        let n ← int n
        if isWord "withvalues" w then return .hrandfield n true else syntaxError),
    ("hstrlen", .ofHash fun | [f] => some (return .hstrlen f) | _ => none),
    ("hscan", .ofHash fun
      | cursor :: options => some do
        let (pattern, count) ← hscanOptions options [] 0
        return .hscan cursor pattern count
      | _ => none)]

def streamBranches : List (String × Branch) :=
  [("xadd", fun c args =>
      match args with
      | key :: a :: b :: rest => some (xadd c key (a :: b :: rest))
      | _ => none),
    ("xlen", .ofStream fun | [] => some (return .xlen) | _ => none),
    ("xrange", .ofStream fun
      | start :: stop :: rest => some (xrange false "XRANGE" start stop rest)
      | _ => none),
    ("xrevrange", .ofStream fun
      | stop :: start :: rest => some (xrange true "XREVRANGE" start stop rest)
      | _ => none),
    ("xdel", .ofStream fun
      | [] => none
      | ids => some do return .xdel (← streamIds "ERR invalid stream ID specified in XDEL" ids)),
    ("xtrim", .ofStream fun
      | strategy :: a :: rest => some (xtrim strategy (a :: rest))
      | _ => none),
    ("xsetid", .ofStream fun
      | [id] => some do return .xsetid (← streamId "ERR invalid stream ID specified in XSETID" id)
      | _ => none),
    ("xinfo", fun c args =>
      match args with
      | sub :: key :: _ =>
        if isWord "stream" sub then some (return .stream (c.key key) .xinfoStream)
        else some (.error (.error (ascii "ERR unknown XINFO subcommand '" ++ fromUtf8Lossy sub ++
          ascii "'")))
      | _ => none)]

/-- `MOVE` narrows the target index to 32 bits. -/
def moveBranch : Branch
  | c, [key, db] => some do
    let db ← int db
    rejectIf (db < 0) (reject "ERR invalid DB index")
    return .move (c.key key) (publicKey (asI32 db) key) (asI32 db) (c.db = asI32 db)
  | _, _ => none

def keyBranches : List (String × Branch) :=
  [("exists", .ofKeys 1 .exists_),
    ("mget", .ofKeys 1 .mget),
    ("move", moveBranch),
    ("rename", fun c args =>
      match args with
      | [old, new] => some (return .rename (c.key old) (c.key new))
      | _ => none),
    ("renamenx", fun c args =>
      match args with
      | [old, new] => some (return .renameNx (c.key old) (c.key new))
      | _ => none),
    ("pttl", .ofKey .pttl),
    ("ttl", .ofKey .ttl),
    ("expire", fun c args =>
      match args with
      | [key, n] => some do return .expire (c.key key) (← int n)
      | _ => none),
    ("pexpire", fun c args =>
      match args with
      | [key, n] => some do return .pexpire (c.key key) (← int n)
      | _ => none),
    ("persist", .ofKey .persist),
    ("type", .ofKey .keyType),
    ("del", .ofKeys 1 .del),
    ("unlink", .ofKeys 1 .del),
    ("keys", fun c args =>
      match args with
      | [pattern] => some (return .keysOp c.dbPrefix pattern)
      | _ => none),
    ("scan", fun c args =>
      match args with
      | cursor :: options => some (scanCommand c cursor options)
      | _ => none),
    ("dbsize", fun c _ => some (return .dbsize c.dbPrefix))]

def dataTable : List (String × Branch) :=
  stringBranches ++ bitmapBranches ++ bloomBranches ++ jsonBranches ++ listBranches ++
    setBranches ++ zsetBranches ++ hashBranches ++ streamBranches ++ keyBranches

/-- The command of a request that is accepted. -/
def accepted (c : Ctx) (name : String) (args : List Bytes) : Option DataCommand :=
  ((dataTable.lookup name).bind fun branch => branch c args).bind Except.toOption

end Invar.Dispatch
