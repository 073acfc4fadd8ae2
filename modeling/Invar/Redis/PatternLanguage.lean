import Invar.Lib.Glob
import Invar.Redis.Pattern

/-!
# The language of a glob pattern

The reference of `redis/pattern.rs`: a pattern is a sequence of tokens, of which `*`
takes any run of bytes and every other one takes a byte. `match_at` decides the language
of the tokens. What makes its flag `skip_longer_matches` sound is that only `*` takes
a varying number of bytes.
-/

namespace Invar.Pattern

open Glob

/-- A member of a class. An escaped one is compared exactly in both case modes. -/
inductive Member where
  | byte (b : UInt8)
  | exact (b : UInt8)
  | range (a b : UInt8)
  deriving DecidableEq, Repr

inductive Token where
  | star
  | any
  | byte (b : UInt8)
  | charClass (negate : Bool) (members : List Member)
  deriving DecidableEq, Repr

/-- The members of a class up to its closing bracket or the end of the pattern, and the
pattern after it. -/
def members : Bytes → List Member × Bytes
  | [] => ([], [])
  | 92 :: x :: rest => (.exact x :: (members rest).1, (members rest).2)
  | 93 :: rest => ([], rest)
  | lo :: 45 :: hi :: rest => (.range lo hi :: (members rest).1, (members rest).2)
  | x :: rest => (.byte x :: (members rest).1, (members rest).2)

/-- The first token of a pattern, and the pattern after it. A run of stars is one token,
and an escape at the end of the pattern is a byte. -/
def token : UInt8 → Bytes → Token × Bytes
  | 42, rest => (.star, rest.dropWhile (· = 42))
  | 63, rest => (.any, rest)
  | 91, rest =>
    let negate := rest.head? == some 94
    let (found, rest) := members (if negate then rest.drop 1 else rest)
    (.charClass negate found, rest)
  | 92, x :: rest => (.byte x, rest)
  | c, rest => (.byte c, rest)

/-- `tokenize`, for a pattern of at most `fuel` bytes. -/
def tokenizeWithin : (fuel : Nat) → Bytes → List Token
  | fuel + 1, c :: rest => (token c rest).1 :: tokenizeWithin fuel (token c rest).2
  | _, _ => []

def tokenize (pat : Bytes) : List Token := tokenizeWithin pat.length pat

def Member.matches (nocase : Bool) (c : UInt8) : Member → Bool
  | byte b => fold nocase b == fold nocase c
  | exact b => b == c
  | range a b =>
    let (lo, hi) := if b < a then (b, a) else (a, b)
    fold nocase lo ≤ fold nocase c && fold nocase c ≤ fold nocase hi

/-- `token_matches`, with a `*` beside the tokens that take one byte. -/
def Token.step (nocase : Bool) : Token → Step UInt8
  | star => .star
  | any => .one fun _ => true
  | byte b => .one fun c => fold nocase b == fold nocase c
  | charClass negate members => .one fun c => members.any (·.matches nocase c) != negate

def steps (nocase : Bool) (pat : Bytes) : List (Step UInt8) :=
  (tokenize pat).map (Token.step nocase)

def starRuns (pat : Bytes) : Nat := (tokenize pat).count .star

/-! ## Tokens -/

theorem length_members_le (pat : Bytes) : (members pat).2.length ≤ pat.length := by
  fun_induction members pat with
  | case1 => exact Nat.le_refl 0
  | case2 x rest ih => exact Nat.le_succ_of_le (Nat.le_succ_of_le ih)
  | case3 rest => exact Nat.le_succ _
  | case4 lo hi rest _ _ ih => exact Nat.le_succ_of_le (Nat.le_succ_of_le (Nat.le_succ_of_le ih))
  | case5 x rest _ _ _ ih => exact Nat.le_succ_of_le ih

theorem length_token_le (c : UInt8) (rest : Bytes) : (token c rest).2.length ≤ rest.length := by
  fun_cases token c rest with
  | case1 => exact (List.dropWhile_suffix _).length_le
  | case2 => exact Nat.le_refl _
  | case3 rest negate found rest' h =>
    have hle := length_members_le (if negate then rest.drop 1 else rest)
    rw [h] at hle
    refine hle.trans ?_
    cases negate
    · exact Nat.le_refl _
    · exact (List.length_drop ..).trans_le (Nat.sub_le _ _)
  | case4 x rest => exact Nat.le_succ _
  | case5 => exact Nat.le_refl _

variable {fuel nesting : Nat} {pat : Bytes} {c : UInt8}

theorem tokenizeWithin_eq (h : pat.length ≤ fuel) : tokenizeWithin fuel pat = tokenize pat := by
  rw [tokenize]
  generalize hn : pat.length = n at h
  have hle : pat.length ≤ n := hn.le
  clear hn
  induction n generalizing fuel pat with
  | zero =>
    rw [List.eq_nil_of_length_eq_zero (Nat.le_zero.mp hle)]
    cases fuel <;> rfl
  | succ n ih =>
    cases pat with
    | nil => cases fuel <;> rfl
    | cons c rest =>
      obtain ⟨fuel, rfl⟩ : ∃ m, fuel = m + 1 := ⟨fuel - 1, by omega⟩
      have hlen := (length_token_le c rest).trans (Nat.le_of_succ_le_succ hle)
      exact congrArg _ (ih (Nat.le_of_succ_le_succ h) hlen)

theorem tokenize_cons (c : UInt8) (rest : Bytes) :
    tokenize (c :: rest) = (token c rest).1 :: tokenize (token c rest).2 := by
  rw [tokenize, List.length_cons, tokenizeWithin, tokenizeWithin_eq (length_token_le c rest)]

theorem steps_cons (nocase : Bool) (c : UInt8) (rest : Bytes) : steps nocase (c :: rest) =
      (token c rest).1.step nocase :: steps nocase (token c rest).2 := by
  rw [steps, tokenize_cons, List.map_cons]
  rfl

theorem steps_star (nocase : Bool) (rest : Bytes) :
    steps nocase (42 :: rest) = .star :: steps nocase (rest.dropWhile (· = 42)) :=
  steps_cons nocase 42 rest

/-! ## One turn of the loop -/

theorem classMembers_eq (nocase : Bool) (b : UInt8) (pat : Bytes) (found : Bool) :
    classMembers nocase b pat found =
      (found || (members pat).1.any (·.matches nocase b), (members pat).2) := by
  fun_induction members pat generalizing found with
  | case1 => simp [classMembers]
  | case2 x rest ih => simp [classMembers, ih, Member.matches, Bool.or_assoc]
  | case3 rest => simp [classMembers]
  | case4 lo hi rest _ _ ih =>
    simp [classMembers, ih, Member.matches, Bool.or_assoc]
  | case5 x rest _ _ _ ih =>
    simp [classMembers, ih, Member.matches, Bool.or_assoc]

/-- What a turn does after it has taken a byte: at the end of the string only stars may
be left of the pattern. -/
def resume (nocase : Bool) (fuel nesting : Nat) (pat s : Bytes) (skip : Bool) : Bool × Bool :=
  if s.isEmpty then ((pat.dropWhile (· = 42)).isEmpty, skip)
  else matchAt nocase fuel nesting pat s skip

/-- The loop ends with the pattern or with the string. -/
theorem matchAt_end {s : Bytes} (hn : nesting ≤ maxStarNesting)
    (h : pat = [] ∨ s = []) (nocase : Bool) (fuel : Nat) (skip : Bool) :
    matchAt nocase (fuel + 1) nesting pat s skip = (pat.isEmpty && s.isEmpty, skip) := by
  rw [matchAt, if_neg (Nat.not_lt.mpr hn)]
  all_goals
    rcases h with rfl | rfl
    all_goals simp

/-- A token that is not a star takes one byte. -/
theorem matchAt_cons (hn : nesting ≤ maxStarNesting) (hc : c ≠ 42)
    (nocase : Bool) (fuel : Nat) (rest : Bytes) (b : UInt8) (s : Bytes) (skip : Bool) :
    ∃ p, (token c rest).1.step nocase = .one p ∧
      matchAt nocase (fuel + 1) nesting (c :: rest) (b :: s) skip =
        if p b then resume nocase fuel nesting (token c rest).2 s skip else (false, skip) := by
  fun_cases token c rest with
  | case1 => exact absurd rfl hc
  | case2 =>
    refine ⟨_, rfl, ?_⟩
    rw [matchAt, if_neg (Nat.not_lt.mpr hn)]
    rfl
  | case3 rest negate found rest' h =>
    refine ⟨_, rfl, ?_⟩
    rw [matchAt, if_neg (Nat.not_lt.mpr hn)]
    simp only [classMembers_eq, Bool.false_or]
    rw [h]
    change (if (found.any (·.matches nocase b) == negate) = true then (false, skip)
      else resume nocase fuel nesting rest' s skip) = _
    cases found.any (·.matches nocase b) <;> cases negate <;> rfl
  | case4 x rest =>
    refine ⟨_, rfl, ?_⟩
    rw [matchAt, if_neg (Nat.not_lt.mpr hn)]
    simp only [beq_iff_eq]
    rfl
  | case5 c rest hstar hany hclass hescape =>
    refine ⟨_, rfl, ?_⟩
    rw [matchAt, if_neg (Nat.not_lt.mpr hn)]
    · simp only [beq_iff_eq]
      rfl
    all_goals assumption

theorem matchAt_star (hn : nesting ≤ maxStarNesting) (nocase : Bool) (fuel : Nat)
    (rest : Bytes) (b : UInt8) (s : Bytes) (skip : Bool) :
    matchAt nocase (fuel + 1) nesting (42 :: rest) (b :: s) skip =
      if (rest.dropWhile (· = 42)).isEmpty then (true, skip)
      else tryFrom (matchAt nocase fuel (nesting + 1) (rest.dropWhile (· = 42))) (b :: s) skip := by
  rw [matchAt, if_neg (Nat.not_lt.mpr hn)]

/-! ## The matcher -/

variable {nocase : Bool} {s : Bytes}

theorem steps_of_ne_star (nocase : Bool) (hc : c ≠ 42) (rest : Bytes) :
    ∃ p, steps nocase (c :: rest) = .one p :: steps nocase (token c rest).2 := by
  obtain ⟨p, hp, -⟩ := matchAt_cons (Nat.zero_le _) hc nocase 0 rest 0 [] false
  exact ⟨p, by rw [steps_cons, hp]⟩

/-- Without stars at its front a pattern takes a byte. -/
theorem nil_mem_language_of_head (nocase : Bool) (h : pat.head? ≠ some 42) :
    [] ∈ language (steps nocase pat) ↔ pat = [] := by
  cases pat with
  | nil => exact iff_of_true rfl rfl
  | cons c rest =>
    obtain ⟨p, hp⟩ := steps_of_ne_star nocase (fun hc => h (congrArg some hc)) rest
    rw [hp]
    exact iff_of_false nil_notMem_language_one (List.cons_ne_nil c rest)

theorem head?_dropWhile_ne (pat : Bytes) : (pat.dropWhile (· = 42)).head? ≠ some 42 := by
  intro h
  have hnot := List.head?_dropWhile_not (fun b : UInt8 => decide (b = 42)) pat
  rw [h] at hnot
  exact absurd hnot (by simp)

theorem nil_mem_language_iff (pat : Bytes) :
    [] ∈ language (steps nocase pat) ↔ (pat.dropWhile (· = 42)).isEmpty = true := by
  rw [List.isEmpty_iff, ← nil_mem_language_of_head nocase (head?_dropWhile_ne pat)]
  cases pat with
  | nil => exact Iff.rfl
  | cons c rest =>
    by_cases hc : c = 42
    · rw [hc, steps_star, nil_mem_language_star, List.dropWhile_cons_of_pos (by rfl)]
    · rw [List.dropWhile_cons_of_neg (by simpa using hc)]

/-- The loop of a `*` tries every place where a match of the rest may begin, until one of
them matches or is hopeless. -/
theorem answers_tryFrom {matches_ : Bytes → Bool → Bool × Bool} {rest : List (Step UInt8)}
    (hnil : [] ∉ language rest) (h : ∀ u, u ≠ [] → Answers rest u (matches_ u false)) (s : Bytes) :
    Answers (.star :: rest) s (tryFrom matches_ s false) := by
  induction s with
  | nil =>
    refine Answers.star ?_ (fun _ => rfl)
    rw [nil_mem_language_star]
    exact iff_of_false Bool.false_ne_true hnil
  | cons b s ih =>
    have hb := h (b :: s) (List.cons_ne_nil b s)
    rw [tryFrom]
    cases hr : matches_ (b :: s) false with | mk found skip =>
    rw [hr] at hb
    cases found with
    | true =>
      cases skip with
      | true => exact absurd (hb.hopeless rfl).1.symm Bool.false_ne_true
      | false => exact Answers.of_true (cons_mem_language_star.mpr (.inl (hb.found_iff.mp rfl)))
    | false =>
      have hnot : b :: s ∉ language rest := fun hmem =>
        absurd (hb.found_iff.mpr hmem) Bool.false_ne_true
      cases skip with
      | true =>
        refine Answers.star (iff_of_false Bool.false_ne_true ?_) (fun _ => rfl)
        rw [mem_language_star]
        rintro ⟨u, hu, hmem⟩
        exact (hb.hopeless rfl).2.notMem hu hmem
      | false =>
        refine Answers.star ?_ (fun hskip => (ih.hopeless hskip).1)
        rw [cons_mem_language_star, or_iff_right hnot]
        exact ih.found_iff

theorem answers_matchAt (hfuel : pat.length < fuel)
    (hs : s ≠ []) (hn : nesting + starRuns pat ≤ maxStarNesting) :
    Answers (steps nocase pat) s (matchAt nocase fuel nesting pat s false) := by
  -- Every turn takes a token, and with it at least a byte of the pattern.
  induction fuel generalizing nesting pat s with
  | zero => exact absurd hfuel (Nat.not_lt_zero _)
  | succ fuel ih =>
    obtain ⟨b, s, rfl⟩ := List.exists_cons_of_ne_nil hs
    have hnest : nesting ≤ maxStarNesting := (Nat.le_add_right ..).trans hn
    cases pat with
    | nil =>
      rw [matchAt_end hnest (.inl rfl)]
      exact Answers.of_false (List.cons_ne_nil b s)
    | cons c rest =>
      have hlen := (length_token_le c rest).trans_lt (Nat.lt_of_succ_lt_succ hfuel)
      by_cases hc : c = 42
      · subst hc
        have hruns : starRuns (42 :: rest) = starRuns (rest.dropWhile (· = 42)) + 1 := by
          rw [starRuns, tokenize_cons]
          exact List.count_cons_self
        change (rest.dropWhile (· = 42)).length < fuel at hlen
        rw [matchAt_star hnest, steps_star]
        by_cases hempty : (rest.dropWhile (· = 42)).isEmpty
        · rw [if_pos hempty]
          have hnil := (nil_mem_language_of_head nocase (head?_dropWhile_ne rest)).mpr
            (List.isEmpty_iff.mp hempty)
          exact Answers.of_true (mem_language_star.mpr ⟨[], List.nil_suffix, hnil⟩)
        · rw [if_neg hempty]
          refine answers_tryFrom ?_ (fun u hu => ih hlen hu (by omega)) (b :: s)
          rw [nil_mem_language_of_head _ (head?_dropWhile_ne rest)]
          exact fun h => hempty (List.isEmpty_iff.mpr h)
      · obtain ⟨p, hp, hturn⟩ := matchAt_cons hnest hc nocase fuel rest b s false
        have hruns : starRuns (token c rest).2 ≤ starRuns (c :: rest) := by
          rw [starRuns, starRuns, tokenize_cons]
          exact List.count_le_count_cons
        rw [hturn, steps_cons, hp, resume]
        by_cases hb : p b = true
        · rw [if_pos hb]
          cases s with
          | nil =>
            refine Answers.one ⟨?_, fun h => absurd h Bool.false_ne_true⟩ hb
            exact (nil_mem_language_iff _).symm
          | cons b' s =>
            exact (ih hlen (List.cons_ne_nil b' s) (by omega)).one hb
        · rw [if_neg hb]
          refine Answers.of_false ?_
          rw [cons_mem_language_one]
          exact fun h => hb h.1

/-- Matching decides the language of the pattern's tokens. The empty string is matched
by the empty pattern alone. -/
theorem globMatch_iff (pattern string : Bytes) (nocase : Bool)
    (h : starRuns pattern ≤ maxStarNesting) : globMatch pattern string nocase = true ↔
      if string = [] then pattern = [] else string ∈ language (steps nocase pattern) := by
  rw [globMatch]
  split
  · rename_i hs
    rw [matchAt_end (Nat.zero_le _) (.inr hs), hs]
    simp
  · rename_i hs
    exact (answers_matchAt (Nat.lt_succ_self _) hs (by omega)).found_iff

theorem globMatch_iff_nested : starRuns [42, 97, 42, 91, 94, 98, 45, 97, 93] ≤ maxStarNesting ∧
      [65, 99, 67] ∈ language (steps true [42, 97, 42, 91, 94, 98, 45, 97, 93]) :=
  ⟨by decide, (globMatch_iff [42, 97, 42, 91, 94, 98, 45, 97, 93] [65, 99, 67] true
    (by decide)).mp (by decide)⟩

end Invar.Pattern
