import Invar.Basic

/-!
# Glob patterns (`redis/pattern.rs`)

A port of Redis's `stringmatchlen`. The flag that `match_at` threads through its
recursion, `skip_longer_matches`, is returned beside the answer.
-/

namespace Invar.Pattern

def maxStarNesting : Nat := 1000

def fold (nocase : Bool) (b : UInt8) : UInt8 := if nocase then lowerByte b else b

/-- The members of a class, up to its closing bracket: whether one is the byte `b`,
and the pattern after it. -/
def classMembers (nocase : Bool) (b : UInt8) : Bytes → Bool → Bool × Bytes
  | [], found => (found, [])
  | 92 :: x :: rest, found => classMembers nocase b rest (found || x == b)
  | 93 :: rest, found => (found, rest)
  | lo :: 45 :: hi :: rest, found =>
    let (lo, hi) := if hi < lo then (hi, lo) else (lo, hi)
    let c := fold nocase b
    classMembers nocase b rest (found || (fold nocase lo ≤ c && c ≤ fold nocase hi))
  | x :: rest, found => classMembers nocase b rest (found || fold nocase x == fold nocase b)

/-- The loop of a `*`: the rest of the pattern is tried at every suffix, until it
matches or is known not to match later. -/
def tryFrom (matches_ : Bytes → Bool → Bool × Bool) : Bytes → Bool → Bool × Bool
  | [], _ => (false, true)
  | b :: s, skip =>
    let (found, skip) := matches_ (b :: s) skip
    if found then (true, skip)
    else if skip then (false, skip)
    else tryFrom matches_ s skip

/-- `match_at`. Each turn of its loop consumes a byte of the pattern, which bounds
the fuel. -/
def matchAt (nocase : Bool) : (fuel nesting : Nat) → (pat s : Bytes) → Bool → Bool × Bool
  | 0, _, pat, s, skip => (pat.isEmpty && s.isEmpty, skip)
  | fuel + 1, nesting, pat, s, skip =>
    let next (pat s : Bytes) : Bool × Bool :=
      if s.isEmpty then ((pat.dropWhile (· = 42)).isEmpty, skip)
      else matchAt nocase fuel nesting pat s skip
    if maxStarNesting < nesting then (false, skip)
    else
      match pat, s with
      | 42 :: rest, b :: s =>
        let rest := rest.dropWhile (· = 42)
        if rest.isEmpty then (true, skip)
        else tryFrom (matchAt nocase fuel (nesting + 1) rest) (b :: s) skip
      | 63 :: rest, _ :: s => next rest s
      | 91 :: rest, b :: s =>
        let negate := rest.head? == some 94
        let (found, rest) := classMembers nocase b (if negate then rest.drop 1 else rest) false
        if found == negate then (false, skip) else next rest s
      | 92 :: x :: rest, b :: s =>
        if fold nocase x = fold nocase b then next rest s else (false, skip)
      | c :: rest, b :: s =>
        if fold nocase c = fold nocase b then next rest s else (false, skip)
      | pat, s => (pat.isEmpty && s.isEmpty, skip)

def globMatch (pattern string : Bytes) (nocase : Bool) : Bool :=
  (matchAt nocase (pattern.length + 1) 0 pattern string false).1

/-- `GlobPattern::keyspace`: a lone `*` selects every name. -/
def keyspaceMatch (pattern candidate : Bytes) : Bool :=
  pattern == [42] || globMatch pattern candidate false

end Invar.Pattern
