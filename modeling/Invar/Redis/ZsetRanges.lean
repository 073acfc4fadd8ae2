import Invar.Redis.ZsetAlgebra
import Invar.Redis.ZsetEffects

/-!
# Ranges of sorted sets

What the range commands select, read, count and remove: all of them are functions of the
list of members in the order of the score index (`Op.effect`), so that they are compared
there.
-/

namespace Invar.Zset

open StoreProg TxProg FiniteMap Ieee754 Requests Dispatch Fallible

/-! ## Executions -/

/-- The reply of a command, or its error. -/
def Op.reply (op : Op) (env : Nat → Tick) (s : Store) (k : Bytes) : Except DbError RespValue :=
  (exec (op.run k) env { view := s }).out

/-- The store that a command leaves. -/
def Op.left (op : Op) (env : Nat → Tick) (s : Store) (k : Bytes) : Store :=
  (exec (op.run k) env { view := s }).txn.view

variable {s : Store} {env : Nat → Tick} {k : Bytes} {o : Option (Place × SortedSet)}
  {R : Place × SortedSet} {op : Op} {sc : ScoreMap} {e : DbError}

section

variable (h : Found (answers env) s k o) (hpub : IsPublic k)
  (hop : ∀ increment member, op ≠ .zincrby increment member)

include h hpub hop

/-- The command does what its effect says. -/
theorem Op.replied : match op.effect (scoresIn o) (o.map (·.2.count)) with
    | .ok eff => ∃ reply, op.reply env s k = .ok reply ∧
      Answers (answers env) s k o eff reply (op.left env s k)
    | .error e => op.reply env s k = .error e ∧ op.left env s k = s := by
  have hwp := exec_of_wp (Op.wp_run (t := { view := s }) h hpub fun i m heq => absurd heq (hop i m))
    (show ∀ n, answers env (env n) from fun n => ⟨n, rfl⟩)
  unfold Op.reply Op.left
  cases hout : (exec (op.run k) env { view := s }).out with
  | ok reply =>
    obtain ⟨eff, heff, hanswers⟩ := hwp.1 reply hout
    rw [heff]
    exact ⟨reply, rfl, hanswers⟩
  | error e =>
    obtain ⟨heff, hview⟩ := hwp.2 e hout
    rw [heff]
    exact ⟨rfl, hview⟩

theorem Op.reply_ok {eff : Effect} (heff : op.effect (scoresIn o) (o.map (·.2.count)) = .ok eff) :
    ∃ reply, op.reply env s k = .ok reply ∧
      Answers (answers env) s k o eff reply (op.left env s k) := by
  have hreplied := Op.replied h hpub hop
  rwa [heff] at hreplied

theorem Op.reply_error (heff : op.effect (scoresIn o) (o.map (·.2.count)) = .error e) :
    op.reply env s k = .error e ∧ op.left env s k = s := by
  have hreplied := Op.replied h hpub hop
  rwa [heff] at hreplied

/-- A command that reads. -/
theorem Op.reply_read {reply : RespValue} (heff : op.effect (scoresIn o) (o.map (·.2.count)) =
      .ok (answered (scoresIn o) (o.map (·.2.count)) reply)) : op.reply env s k = .ok reply := by
  obtain ⟨r, hr, hanswers⟩ := Op.reply_ok h hpub hop heff
  rw [hr, hanswers.1 reply rfl]

end

variable {A : Tick → Prop} {s' : Store} {x : F64} {gone : List MemberScore}

theorem After.rows {count : Option Nat} (hafter : After A s s' k (some R) sc count)
    (h : Found A s k (some R)) : Holds s' R.1 (rowAt sc) := by
  cases hafter with
  | unchanged hs => exact hs ▸ h.holds
  | rescored _ hrows | emptied _ hrows _ | counted _ hrows _ _ => exact hrows

theorem After.key_eq_none {count : Option Nat}
    (hafter : After A s s' k (some R) sc count) (h : Found A s k (some R)) (hpub : IsPublic k) :
    s'[k]? = none ↔ count = none := by
  have hkey : s[k]? ≠ none := by
    cases h with
    | present hrow => simp [hrow]
  cases hafter with
  | unchanged hs =>
    rw [hs]
    exact ⟨fun hnone => absurd hnone hkey, nofun⟩
  | rescored hat _ =>
    rw [hat k (hpub.not_isPrefix R.1)]
    exact ⟨fun hnone => absurd hnone hkey, nofun⟩
  | emptied _ _ hnone => exact ⟨fun _ => rfl, fun _ => hnone⟩
  | counted _ _ _ hsome =>
    rw [hsome]
    exact ⟨nofun, nofun⟩

theorem removal_scores (sc : ScoreMap) (count : Option Nat) (gone : List MemberScore) :
    (removal sc count gone).scores = without gone sc := by
  unfold removal
  split
  · rename_i hnil
    rw [hnil]
    rfl
  · rfl

theorem removal_reply (sc : ScoreMap) (count : Option Nat) (gone : List MemberScore) :
    (removal sc count gone).reply = some (.integer gone.length) := by
  unfold removal
  split
  · rename_i hnil
    rw [hnil]
    rfl
  · rfl

/-- What a command that removes a range replies and leaves. -/
theorem Op.removes (h : Found (answers env) s k (some R)) (hpub : IsPublic k)
    (heff : op.effect R.2.scores (some R.2.count) = .ok (removal R.2.scores (some R.2.count) gone))
    (hop : ∀ increment member, op ≠ .zincrby increment member) :
    op.reply env s k = .ok (.integer gone.length) ∧
      After (answers env) s (op.left env s k) k (some R) (without gone R.2.scores)
        (removal R.2.scores (some R.2.count) gone).count := by
  obtain ⟨reply, hreply, hanswers, hafter⟩ :=
    Op.reply_ok h hpub hop heff
  rw [removal_scores] at hafter
  rw [hreply, hanswers _ (removal_reply ..)]
  exact ⟨rfl, hafter⟩

/-! ## Bounds on members -/

/-- The ways to write a bound. -/
inductive LexArg where
  | minus
  | plus
  | inclusive (x : Bytes)
  | exclusive (x : Bytes)

namespace LexArg

def text : LexArg → Bytes
  | .minus => ascii "-"
  | .plus => ascii "+"
  | .inclusive x => 91 :: x
  | .exclusive x => 40 :: x

/-- The bound is at most the member. -/
def atMost : LexArg → Bytes → Bool
  | .minus, _ => true
  | .plus, _ => false
  | .inclusive x, m => (compare x m).isLE
  | .exclusive x, m => compare x m == .lt

/-- The bound is at least the member. -/
def atLeast : LexArg → Bytes → Bool
  | .minus, _ => false
  | .plus, _ => true
  | .inclusive x, m => (compare m x).isLE
  | .exclusive x, m => compare m x == .lt

/-- What the parser makes of a bound. -/
def bound : LexArg → LexBound
  | .minus | .plus => ⟨none, false⟩
  | .inclusive x => ⟨some x, false⟩
  | .exclusive x => ⟨some x, true⟩

/-- A minimum as it is compared: without its end if it is infinite, and as a text. -/
def asMin : LexArg → LexArg
  | .minus | .plus => .minus
  | .inclusive x => .inclusive (fromUtf8Lossy x)
  | .exclusive x => .exclusive (fromUtf8Lossy x)

/-- A maximum as it is compared. -/
def asMax : LexArg → LexArg
  | .minus | .plus => .plus
  | .inclusive x => .inclusive (fromUtf8Lossy x)
  | .exclusive x => .exclusive (fromUtf8Lossy x)

theorem parseLexBound_text (b : LexArg) :
    parseLexBound (fromUtf8Lossy b.text) = .ok b.asMin.bound ∧ b.asMin.bound = b.asMax.bound := by
  cases b with
  | minus | plus => exact ⟨rfl, rfl⟩
  | inclusive x | exclusive x =>
    refine ⟨?_, rfl⟩
    show parseLexBound (_ :: fromUtf8Lossy x) = .ok ⟨some (fromUtf8Lossy x), _⟩
    cases fromUtf8Lossy x <;> rfl

variable {b : LexArg}

theorem not_below (m : Bytes) : (!b.asMin.bound.below m) = b.asMin.atMost m := by
  cases b with
  | minus | plus => rfl
  | inclusive x =>
    show (!(compare m (fromUtf8Lossy x) == .lt)) = (compare (fromUtf8Lossy x) m).isLE
    rw [Std.OrientedOrd.eq_swap (a := fromUtf8Lossy x)]
    cases compare m (fromUtf8Lossy x) <;> rfl
  | exclusive x =>
    show (!(compare m (fromUtf8Lossy x) != .gt)) = (compare (fromUtf8Lossy x) m == .lt)
    rw [Std.OrientedOrd.eq_swap (a := fromUtf8Lossy x)]
    cases compare m (fromUtf8Lossy x) <;> rfl

theorem not_above (m : Bytes) : (!b.asMax.bound.above m) = b.asMax.atLeast m := by
  cases b with
  | minus | plus => rfl
  | inclusive x =>
    show (!(compare m (fromUtf8Lossy x) == .gt)) = (compare m (fromUtf8Lossy x)).isLE
    cases compare m (fromUtf8Lossy x) <;> rfl
  | exclusive x =>
    show (!(compare m (fromUtf8Lossy x) != .lt)) = (compare m (fromUtf8Lossy x) == .lt)
    cases compare m (fromUtf8Lossy x) <;> rfl

/-- The members between two bounds. -/
def between (min max : LexArg) (sc : ScoreMap) : List MemberScore :=
  (ranked sc).filter fun e => min.atMost e.member && max.atLeast e.member

/-- The bounds as they are compared have the same members between them. -/
def ReadRight (min max : LexArg) (sc : ScoreMap) : Prop :=
  ∀ m ∈ sc, (min.asMin.atMost m && max.asMax.atLeast m) = (min.atMost m && max.atLeast m)

theorem between_eq_iff (min max : LexArg) (sc : ScoreMap) :
    (min.asMin.between max.asMax sc).map (·.member) = (min.between max sc).map (·.member) ↔
      min.ReadRight max sc := by
  have hmem (p : Bytes → Bool) (m : Bytes) :
      m ∈ ((ranked sc).filter fun e => p e.member).map (·.member) ↔ m ∈ sc ∧ p m = true := by
    rw [Std.ExtTreeMap.mem_iff_isSome_getElem?, Option.isSome_iff_exists]
    simp only [List.mem_map, List.mem_filter, mem_ranked]
    constructor
    · rintro ⟨e, ⟨he, hp⟩, rfl⟩
      exact ⟨⟨_, he⟩, hp⟩
    · rintro ⟨⟨x, hx⟩, hp⟩
      exact ⟨⟨m, x⟩, ⟨hx, hp⟩, rfl⟩
  constructor
  · intro h m hm
    have hiff := congrArg (m ∈ ·) h
    rw [between, between, hmem fun m => min.asMin.atMost m && max.asMax.atLeast m,
      hmem fun m => min.atMost m && max.atLeast m, eq_iff_iff, and_congr_right_iff] at hiff
    exact Bool.eq_iff_iff.mpr (hiff hm)
  · intro h
    refine congrArg (List.map _) (List.filter_congr fun e he => h e.member ?_)
    rw [Std.ExtTreeMap.mem_iff_isSome_getElem?, mem_ranked.mp he]
    rfl

theorem parseLexRange_text (min max : LexArg) :
    parseLexRange (fromUtf8Lossy min.text) (fromUtf8Lossy max.text) =
      .ok ⟨min.asMin.bound, max.asMax.bound⟩ := by
  rw [parseLexRange, (parseLexBound_text min).1, (parseLexBound_text max).1,
    (parseLexBound_text max).2]
  rfl

theorem inLex_bound (min max : LexArg) (sc : ScoreMap) :
    inLex ⟨min.asMin.bound, max.asMax.bound⟩ (ranked sc) = min.asMin.between max.asMax sc := by
  refine List.filter_congr fun e _ => ?_
  rw [LexRange.contains, not_below, not_above]

end LexArg

/-- The requests with bounds on members, as the dispatcher takes them. -/
theorem accepted_lex (c : Ctx) (key min max : Bytes) : accepted c "zrangebylex" [key, min, max] =
        some (.zset (c.key key) (.rangeByLex (fromUtf8Lossy min) (fromUtf8Lossy max) none false)) ∧
      accepted c "zrevrangebylex" [key, max, min] =
        some (.zset (c.key key) (.rangeByLex (fromUtf8Lossy min) (fromUtf8Lossy max) none true)) ∧
      accepted c "zlexcount" [key, min, max] =
        some (.zset (c.key key) (.lexCount (fromUtf8Lossy min) (fromUtf8Lossy max))) ∧
      accepted c "zremrangebylex" [key, min, max] =
        some (.zset (c.key key) (.remRangeByLex (fromUtf8Lossy min) (fromUtf8Lossy max))) :=
  ⟨rfl, rfl, rfl, rfl⟩

theorem request_zset {ln : F64 → F64} {c : Ctx} {name : String} {args : List Bytes}
    (h : accepted c name args = some (.zset k op)) :
    request ln c env s name args = some (exec (op.run k) env { view := s }) := by
  unfold request
  rw [h]
  rfl

theorem bulks_inj {xs ys : List Bytes} (h : RespValue.bulks xs = .bulks ys) : xs = ys := by
  simp only [RespValue.bulks, RespValue.array.injEq, Option.some.injEq] at h
  refine (List.map_inj_right fun x y hxy => ?_).mp h
  simpa [RespValue.bulk] using hxy

/-- The four commands select these members. -/
structure SelectsLex (ln : F64 → F64) (c : Ctx) (env : Nat → Tick) (s : Store) (key : Bytes)
    (R : Place × SortedSet) (min max : LexArg) (chosen : List MemberScore) : Prop where
  asc : (request ln c env s "zrangebylex" [key, min.text, max.text]).map (·.out) =
    some (.ok (.bulks (chosen.map (·.member))))
  desc : (request ln c env s "zrevrangebylex" [key, max.text, min.text]).map (·.out) =
    some (.ok (.bulks (chosen.map (·.member)).reverse))
  count : (request ln c env s "zlexcount" [key, min.text, max.text]).map (·.out) =
    some (.ok (.integer chosen.length))
  removal : ∃ run, request ln c env s "zremrangebylex" [key, min.text, max.text] = some run ∧
    run.out = .ok (.integer chosen.length) ∧
    Holds run.txn.view R.1 (rowAt (without chosen R.2.scores))

/-- The members between the bounds as they are compared. -/
theorem selectsLex_read (ln : F64 → F64) (c : Ctx) (key : Bytes)
    (h : Found (answers env) s (c.key key) (some R)) (min max : LexArg) :
    SelectsLex ln c env s key R min max (min.asMin.between max.asMax R.2.scores) := by
  have hpub : IsPublic (c.key key) := ⟨c.db, key, rfl⟩
  have heff (f : LexRange → Effect) :
      (parseLexRange (fromUtf8Lossy min.text) (fromUtf8Lossy max.text)).map f =
        .ok (f ⟨min.asMin.bound, max.asMax.bound⟩) := by
    rw [LexArg.parseLexRange_text]
    rfl
  obtain ⟨hasc, hdesc, hcount, hrem⟩ := accepted_lex c key min.text max.text
  rw [← LexArg.inLex_bound]
  refine ⟨?_, ?_, ?_, _, request_zset hrem, ?_⟩
  · rw [request_zset hasc]
    exact congrArg some (Op.reply_read h hpub (by simp) (heff _))
  · rw [request_zset hdesc]
    exact congrArg some (Op.reply_read h hpub (by simp) (heff _))
  · rw [request_zset hcount]
    exact congrArg some (Op.reply_read h hpub (by simp) (heff _))
  · have hgone : (Op.remRangeByLex (fromUtf8Lossy min.text) (fromUtf8Lossy max.text)).effect
        R.2.scores (some R.2.count) = .ok (removal R.2.scores (some R.2.count)
          (inLex ⟨min.asMin.bound, max.asMax.bound⟩ (ranked R.2.scores))) :=
      heff _
    obtain ⟨hreply, hafter⟩ := Op.removes h hpub hgone nofun
    exact ⟨hreply, hafter.rows h⟩

/-- **Ranges of members.** The four commands select the members between the bounds exactly
if the bounds as they are compared have the same members between them. -/
theorem lex_ranges (ln : F64 → F64) (c : Ctx) (key : Bytes)
    (h : Found (answers env) s (c.key key) (some R)) (min max : LexArg) :
    SelectsLex ln c env s key R min max (min.between max R.2.scores) ↔
      min.ReadRight max R.2.scores := by
  have hread := selectsLex_read ln c key h min max
  constructor
  · intro hright
    have hsame := hread.asc.symm.trans hright.asc
    rw [Option.some.injEq, Except.ok.injEq] at hsame
    exact (LexArg.between_eq_iff min max _).mp (bulks_inj hsame)
  · intro hright
    have hsame : min.asMin.between max.asMax R.2.scores = min.between max R.2.scores := by
      refine List.filter_congr fun e he => hright e.member ?_
      rw [Std.ExtTreeMap.mem_iff_isSome_getElem?, mem_ranked.mp he]
      rfl
    exact hsame ▸ hread

theorem lex_ranges_found : ∃ s R, Found (answers (clock 1)) s (publicKey 0 (ascii "z")) (some R) ∧
    R.2.scores = scoresOf sample ∅ ∧
    SelectsLex id ⟨0, 1⟩ (clock 1) s (ascii "z") R (.exclusive (ascii "a")) .plus
      ((LexArg.exclusive (ascii "a")).between .plus (scoresOf sample ∅)) ∧
    (request id ⟨0, 1⟩ (clock 1) s "zrangebylex" (words ["z", "(a", "+"])).map (·.out) =
      some (.ok (.bulks (words ["c", "b"]))) := by
  obtain ⟨s, P, h, -⟩ := exists_found (ascii "z") nodup_sample (by decide) (answers (clock 1))
  have hselects := (lex_ranges id ⟨0, 1⟩ (ascii "z") h (.exclusive (ascii "a")) .plus).mpr
    fun _ _ => rfl
  have hasc := hselects.asc
  rw [LexArg.between, ranked_sample] at hasc
  exact ⟨s, _, h, rfl, hselects, hasc⟩

/-- `+` as the minimum selects everything, and a bound that is no text does not select the
member that it names. -/
theorem lex_bounds_lost :
    replies [("zadd", words ["z", "0", "a"]), ("zrangebylex", words ["z", "+", "+"])] =
        [some (.integer 1), some (.bulks [ascii "a"])] ∧
      replies [("zadd", [ascii "z", ascii "0", [255]]),
          ("zrangebylex", [ascii "z", [91, 255], [91, 255]])] =
        [some (.integer 1), some (.bulks [])] := by
  decide +kernel

/-! ## Reading, counting and removing -/

/-- A range of ranks, of scores or of members. -/
inductive Range where
  | rank (start stop : Int)
  | score (min max : Bytes)
  | lex (min max : Bytes)

namespace Range

def read : Range → Op
  | .rank start stop => .rangeByRank start stop false false
  | .score min max => .rangeByScore min max false none false
  | .lex min max => .rangeByLex min max none false

def remove : Range → Op
  | .rank start stop => .remRangeByRank start stop
  | .score min max => .remRangeByScore min max
  | .lex min max => .remRangeByLex min max

def count : Range → Option Op
  | .rank _ _ => none
  | .score min max => some (.zcount min max)
  | .lex min max => some (.lexCount min max)

/-- The read with `REV` and `LIMIT`. -/
def reversed (offset count : Nat) : Range → Option Op
  | .rank _ _ => none
  | .score min max => some (.rangeByScore min max false (some (offset, count)) true)
  | .lex min max => some (.rangeByLex min max (some (offset, count)) true)

def select (sc : ScoreMap) : Range → Except DbError (List MemberScore)
  | .rank start stop => .ok (inRanks start stop (ranked sc))
  | .score min max => (parseScoreRange min max).map (inScores · (ranked sc))
  | .lex min max => (parseLexRange min max).map (inLex · (ranked sc))

/-- The commands of a range agree on the members that they select. -/
structure Agrees (range : Range) (env : Nat → Tick) (s : Store) (k : Bytes) (R : Place × SortedSet)
    (chosen : List MemberScore) : Prop where
  read : range.read.reply env s k = .ok (.bulks (chosen.map (·.member)))
  remove : range.remove.reply env s k = .ok (.integer chosen.length)
  rows : Holds (range.remove.left env s k) R.1 (rowAt (without chosen R.2.scores))
  key : (range.remove.left env s k)[k]? = none ↔ without chosen R.2.scores = ∅
  count : ∀ op ∈ range.count, op.reply env s k = .ok (.integer chosen.length)
  reversed : ∀ offset count, ∀ op ∈ range.reversed offset count, op.reply env s k =
    .ok (.bulks (((chosen.map (·.member)).reverse.drop offset).take count))

/-- They all fail in the same way. -/
structure Fails (range : Range) (env : Nat → Tick) (s : Store) (k : Bytes) (e : DbError) :
    Prop where
  read : range.read.reply env s k = .error e
  remove : range.remove.reply env s k = .error e
  left : range.remove.left env s k = s
  count : ∀ op ∈ range.count, op.reply env s k = .error e
  reversed : ∀ offset count, ∀ op ∈ range.reversed offset count, op.reply env s k = .error e

variable {range : Range} {count : Option Nat}

theorem read_effect (range : Range) (sc : ScoreMap) (count : Option Nat) :
    range.read.effect sc count = (range.select sc).map fun chosen =>
      answered sc count (.bulks (chosen.map (·.member))) := by
  cases range with
  | rank start stop => rfl
  | score min max | lex min max => exact map_eq_map_map fun _ => rfl

theorem count_effect (hop : op ∈ range.count) (sc : ScoreMap) (count : Option Nat) :
    op.effect sc count = (range.select sc).map fun chosen =>
      answered sc count (.integer chosen.length) := by
  cases range with
  | rank start stop => cases hop
  | score min max | lex min max =>
    cases hop
    exact map_eq_map_map fun _ => rfl

theorem applyLimit_natCast {α : Type} (offset count : Nat) (xs : List α) :
    applyLimit (some (offset, count)) xs = (xs.drop offset).take count := by
  have hoffset : ¬(offset : Int) < 0 := by omega
  have hcount : ¬(count : Int) < 0 := by omega
  unfold applyLimit
  by_cases hlen : xs.length ≤ offset
  · simp [hlen, List.drop_eq_nil_of_le hlen]
  · simp [hlen, hoffset, hcount]

theorem reversed_effect {offset limit : Nat} (hop : op ∈ range.reversed offset limit)
    (sc : ScoreMap)
    (count : Option Nat) : op.effect sc count = (range.select sc).map fun chosen =>
      answered sc count (.bulks (((chosen.map (·.member)).reverse.drop offset).take limit)) := by
  cases range with
  | rank start stop => cases hop
  | score min max =>
    cases hop
    refine map_eq_map_map fun range => congrArg (answered sc count <| .bulks ·) ?_
    show (applyLimit _ _).map (fun e : MemberScore => e.member) = _
    rw [applyLimit_natCast, List.map_take, List.map_drop, if_pos rfl, List.map_reverse]
  | lex min max =>
    cases hop
    refine map_eq_map_map fun range => congrArg (answered sc count <| .bulks ·) ?_
    rw [applyLimit_natCast, if_pos rfl]

/-- The key goes with the last member: the sorted set is not empty, and a removal that takes
the new count from the old one removes that many members exactly if it removes all. -/
def KeyFollows (sc : ScoreMap) (count : Nat) (chosen : List MemberScore) : Range → Prop
  | .rank _ _ => sc.size ≠ 0
  | .score _ _ | .lex _ _ =>
    sc.size ≠ 0 ∧ (chosen ≠ [] → (chosen.length = count ↔ chosen.length = sc.size))

variable {chosen : List MemberScore}

theorem select_sublist (h : range.select sc = .ok chosen) : chosen.Sublist (ranked sc) := by
  suffices hyields : Yields (·.Sublist (ranked sc)) (range.select sc) from hyields chosen h
  cases range with
  | rank start stop => exact yields_ok (sublist_inRanks start stop _)
  | score min max =>
    exact (yields_self (parseScoreRange min max)).map fun _ _ => List.filter_sublist
  | lex min max => exact (yields_self (parseLexRange min max)).map fun _ _ => List.filter_sublist

theorem countOf_eq_none {n : Nat} : countOf n = none ↔ n = 0 := by
  unfold countOf
  split
  · rename_i hzero
    exact ⟨fun _ => hzero, fun _ => rfl⟩
  · rename_i hne
    exact ⟨nofun, fun hzero => absurd hzero hne⟩

theorem without_eq_empty (h : chosen.Sublist (ranked sc)) :
    without chosen sc = ∅ ↔ chosen.length = sc.size := by
  have hle := h.length_le
  rw [length_ranked] at hle
  rw [Std.ExtTreeMap.eq_empty_iff_size_eq_zero, size_without h]
  omega

theorem removal_count_eq_none (sc : ScoreMap) (count : Nat) :
    (removal sc (some count) chosen).count = none ↔ chosen ≠ [] ∧ count = chosen.length := by
  unfold removal
  split
  · exact ⟨nofun, fun h => absurd ‹_› h.1⟩
  · rename_i hne
    rw [Option.bind_some]
    split
    · exact ⟨fun _ => ⟨hne, ‹_›⟩, fun _ => rfl⟩
    · exact ⟨nofun, fun h => absurd h.2 ‹_›⟩

theorem removal_follows (hgone : chosen.Sublist (ranked sc)) (count : Nat) :
    ((removal sc (some count) chosen).count = none ↔ without chosen sc = ∅) ↔
      sc.size ≠ 0 ∧ (chosen ≠ [] → (chosen.length = count ↔ chosen.length = sc.size)) := by
  have hle := hgone.length_le
  rw [length_ranked] at hle
  rw [removal_count_eq_none, without_eq_empty hgone]
  by_cases hnil : chosen = []
  · subst hnil
    simp [eq_comm]
  · have hpos : 0 < chosen.length := List.length_pos_iff.mpr hnil
    have hne : sc.size ≠ 0 := by omega
    simp [hnil, hne, eq_comm]

theorem size_ne_of_rangeIndexes {n : Nat} {start stop : Int} {lohi : Nat × Nat}
    (h : rangeIndexes n start stop = some lohi) : n ≠ 0 := by
  rintro rfl
  unfold rangeIndexes at h
  simp only [Nat.cast_zero] at h
  rw [if_pos (by rw [Bool.or_eq_true, decide_eq_true_iff, decide_eq_true_iff]; omega)] at h
  cases h

theorem rank_effect (start stop : Int) (sc : ScoreMap) (count : Nat) :
    let chosen := inRanks start stop (ranked sc)
    ∃ left, (Op.remRangeByRank start stop).effect sc (some count) =
        .ok { reply := some (.integer chosen.length), scores := without chosen sc, count := left } ∧
      ((left = none ↔ without chosen sc = ∅) ↔ sc.size ≠ 0) := by
  have hgone := sublist_inRanks start stop (ranked sc)
  have hempty := without_eq_empty hgone
  have hle := hgone.length_le
  unfold inRanks at hempty hle ⊢
  rw [length_ranked] at hempty hle ⊢
  simp only [Op.effect]
  cases hrange : rangeIndexes sc.size start stop with
  | none =>
    rw [hrange] at hempty
    refine ⟨some count, rfl, ?_⟩
    rw [hempty]
    simp [eq_comm]
  | some lohi =>
    have hne := size_ne_of_rangeIndexes hrange
    rw [hrange] at hempty hle
    refine ⟨_, rfl, ?_⟩
    rw [hempty, countOf_eq_none]
    dsimp only at hle ⊢
    omega

theorem remove_effect_map (hrank : ∀ start stop, range ≠ .rank start stop) :
    range.remove.effect sc count = (range.select sc).map (removal sc count) := by
  cases range with
  | rank start stop => exact absurd rfl (hrank start stop)
  | score min max | lex min max => exact map_eq_map_map fun _ => rfl

/-- What is removed, and when the key goes. -/
theorem remove_effect (count : Nat) (h : range.select sc = .ok chosen) :
    ∃ left, range.remove.effect sc (some count) =
        .ok { reply := some (.integer chosen.length), scores := without chosen sc, count := left } ∧
      ((left = none ↔ without chosen sc = ∅) ↔ range.KeyFollows sc count chosen) := by
  have hremoval : removal sc (some count) chosen =
      { reply := some (.integer chosen.length), scores := without chosen sc,
        count := (removal sc (some count) chosen).count } := by
    rw [← removal_reply sc (some count), ← removal_scores sc (some count)]
  have hfollows := removal_follows (select_sublist h) count
  cases range with
  | rank start stop =>
    obtain rfl : inRanks start stop (ranked sc) = chosen := Except.ok.inj h
    exact rank_effect start stop sc count
  | score min max | lex min max =>
    refine ⟨_, ?_, hfollows⟩
    rw [← hremoval]
    rw [remove_effect_map (by simp), h]
    rfl

theorem remove_effect_error (h : range.select sc = .error e) (count : Option Nat) :
    range.remove.effect sc count = .error e := by
  cases range with
  | rank start stop => cases h
  | score min max | lex min max =>
    rw [remove_effect_map (by simp), h]
    rfl

theorem ne_zincrby (range : Range) (offset limit : Nat) (increment : F64) (member : Bytes) :
    range.read ≠ .zincrby increment member ∧ range.remove ≠ .zincrby increment member ∧
      .zincrby increment member ∉ range.count ∧
      .zincrby increment member ∉ range.reversed offset limit := by
  cases range <;> exact ⟨nofun, nofun, nofun, nofun⟩

theorem agrees_iff (h : Found (answers env) s k (some R)) (hpub : IsPublic k)
    (hselect : range.select R.2.scores = .ok chosen) :
    range.Agrees env s k R chosen ↔ range.KeyFollows R.2.scores R.2.count chosen := by
  have hread {op : Op} {reply : List MemberScore → RespValue}
      (heff : op.effect R.2.scores (some R.2.count) = (range.select R.2.scores).map fun chosen =>
        answered R.2.scores (some R.2.count) (reply chosen))
      (hop : ∀ increment member, op ≠ .zincrby increment member) :
      op.reply env s k = .ok (reply chosen) := by
    rw [hselect] at heff
    exact Op.reply_read h hpub hop heff
  obtain ⟨left, hremove, hleft⟩ := remove_effect R.2.count hselect
  obtain ⟨reply, hreply, hanswers, hafter⟩ :=
    Op.reply_ok h hpub (fun i m => (range.ne_zincrby 0 0 i m).2.1) hremove
  have hkey : (range.remove.left env s k)[k]? = none ↔ left = none := hafter.key_eq_none h hpub
  rw [← hleft, ← hkey]
  refine ⟨fun hagrees => hagrees.key, fun hfollows => ?_⟩
  exact
    { read := hread (read_effect range _ _) fun i m => (range.ne_zincrby 0 0 i m).1
      remove := by rw [hreply, hanswers _ rfl]
      rows := hafter.rows h
      key := hfollows
      count := fun op hop => hread (count_effect hop _ _) fun i m heq =>
        (range.ne_zincrby 0 0 i m).2.2.1 (heq ▸ hop)
      reversed := fun offset limit op hop => hread (reversed_effect hop _ _) fun i m heq =>
        (range.ne_zincrby offset limit i m).2.2.2 (heq ▸ hop) }

theorem fails (h : Found (answers env) s k (some R)) (hpub : IsPublic k)
    (hselect : range.select R.2.scores = .error e) : range.Fails env s k e := by
  have hfails {op : Op} (heff : op.effect R.2.scores (some R.2.count) = .error e)
      (hop : ∀ increment member, op ≠ .zincrby increment member) :
      op.reply env s k = .error e ∧ op.left env s k = s :=
    Op.reply_error h hpub hop heff
  have hremoved := hfails (remove_effect_error hselect _) fun i m =>
    (range.ne_zincrby 0 0 i m).2.1
  exact
    { read := (hfails (by rw [read_effect, hselect]; rfl) fun i m =>
        (range.ne_zincrby 0 0 i m).1).1
      remove := hremoved.1
      left := hremoved.2
      count := fun op hop => (hfails (by rw [count_effect hop, hselect]; rfl) fun i m heq =>
        (range.ne_zincrby 0 0 i m).2.2.1 (heq ▸ hop)).1
      reversed := fun offset limit op hop => (hfails (by rw [reversed_effect hop, hselect]; rfl)
        fun i m heq => (range.ne_zincrby offset limit i m).2.2.2 (heq ▸ hop)).1 }

end Range

/-- **Removing a range is reading it and removing what was read.** With valid bounds no command
fails, and they agree on the members of the range exactly if the key goes with the last
member; with other bounds they all fail and nothing is removed. -/
theorem range_removal (h : Found (answers env) s k (some R)) (hpub : IsPublic k) (range : Range) :
    (∀ chosen, range.select R.2.scores = .ok chosen →
      (range.Agrees env s k R chosen ↔ range.KeyFollows R.2.scores R.2.count chosen)) ∧
    ∀ e, range.select R.2.scores = .error e → range.Fails env s k e :=
  ⟨fun _ hselect => Range.agrees_iff h hpub hselect, fun _ hselect => Range.fails h hpub hselect⟩

theorem range_removal_found : ∃ s R,
    Found (answers (clock 1)) s (publicKey 0 (ascii "z")) (some R) ∧
    R.2.scores = scoresOf sample ∅ ∧
    (Range.score (ascii "1") (ascii "1")).Agrees (clock 1) s (publicKey 0 (ascii "z")) R
      [⟨ascii "a", .ofInt 1⟩, ⟨ascii "b", .ofInt 1⟩] := by
  obtain ⟨s, P, h, -⟩ := exists_found (ascii "z") nodup_sample (by decide) (answers (clock 1))
  refine ⟨s, _, h, rfl, ((range_removal h ⟨0, _, rfl⟩ _).1 _ ?_).mpr ?_⟩
  · show (parseScoreRange (ascii "1") (ascii "1")).map
      (inScores · (ranked (scoresOf sample ∅))) = _
    rw [ranked_sample]
    decide +kernel
  · show (scoresOf sample ∅).size ≠ 0 ∧ (_ → (2 = 3 ↔ 2 = (scoresOf sample ∅).size))
    rw [size_scoresOf nodup_sample]
    decide

/-- A sorted set whose only member was named twice when it was made outlives its removal. -/
theorem miscounted_removal : replies [("zadd", words ["z", "1", "a", "2", "a"]),
        ("zremrangebyscore", words ["z", "-inf", "+inf"]),
        ("zcard", words ["z"]), ("zrange", words ["z", "0", "-1"])] =
      [some (.integer 2), some (.integer 1), some (.integer 1), some (.bulks [])] := by
  decide +kernel

/-! ## Ranks -/

/-- The range from a rank to itself. -/
theorem inRanks_self {entries : List MemberScore} {r : Nat} {e : MemberScore}
    (h : entries[r]? = some e) :
    inRanks r r entries = [e] := by
  obtain ⟨hr, he⟩ := List.getElem?_eq_some_iff.mp h
  have hindexes : rangeIndexes entries.length r r = some (r, r) := by
    have hstart : ¬(r : Int) < 0 := by omega
    have hstop : ¬(entries.length : Int) ≤ r := by omega
    unfold rangeIndexes
    simp [hstart, hstop]
  rw [inRanks, hindexes]
  show (entries.take (r + 1)).drop r = [e]
  rw [List.drop_take, Nat.add_sub_cancel_left, List.take_one, List.head?_drop, h]
  rfl

/-- The range of all ranks. -/
theorem inRanks_all (entries : List MemberScore) : inRanks 0 (-1) entries = entries := by
  cases entries with
  | nil => rfl
  | cons e entries =>
    have hindexes : rangeIndexes (e :: entries).length 0 (-1) = some (0, entries.length) := by
      have hlen : ((e :: entries).length : Int) = entries.length + 1 := by simp
      have hstop : ¬(entries.length : Int) + 1 ≤ entries.length := by omega
      rw [hlen]
      unfold rangeIndexes
      simp [hstop]
    rw [inRanks, hindexes]
    show (e :: entries).take (entries.length + 1) = _
    rw [← List.length_cons, List.take_length]

/-- Without weights one source is its own union. -/
theorem combine_single (aggregate : Bytes) (sc : ScoreMap) :
    combine aggregate [] [sc] .union = sc := by
  refine Std.ExtTreeMap.ext_getElem? fun m => ?_
  show (unionScores aggregate [sc])[m]? = sc[m]?
  have hgather : gatherScores [sc] = gather [sc] := rfl
  rw [unionScores, Std.ExtTreeMap.getElem?_map, hgather, getElem?_gather, List.filterMap_cons]
  cases sc[m]? <;> rfl

/-- The member with a rank, from either end. -/
theorem exists_rank {m : Bytes} (hm : sc[m]? = some x) :
    ∃ r, (ranked sc).findIdx? (·.member = m) = some r ∧ (ranked sc)[r]? = some ⟨m, x⟩ ∧
      r < sc.size := by
  have hmem : (⟨m, x⟩ : MemberScore) ∈ ranked sc := mem_ranked.mpr hm
  have hsome : ((ranked sc).findIdx? (·.member = m)).isSome = true := by
    rw [List.findIdx?_isSome, List.any_eq_true]
    exact ⟨_, hmem, by simp⟩
  obtain ⟨r, hr⟩ := Option.isSome_iff_exists.mp hsome
  obtain ⟨hlt, heq, -⟩ := List.findIdx?_eq_some_iff_getElem.mp hr
  rw [decide_eq_true_iff] at heq
  refine ⟨r, hr, ?_, length_ranked sc ▸ hlt⟩
  have hscore := mem_ranked.mp (List.getElem_mem hlt)
  rw [heq, hm] at hscore
  rw [List.getElem?_eq_getElem hlt, Option.some_inj]
  cases hentry : (ranked sc)[r]
  rw [hentry] at heq hscore
  cases hscore
  cases heq
  rfl

theorem Found.rank_reply {m : Bytes} {r : Nat} (h : Found (answers env) s k (some R))
    (hpub : IsPublic k) (hrank : (ranked R.2.scores).findIdx? (·.member = m) = some r)
    (reverse : Bool) : (Op.rank m reverse).reply env s k =
      .ok (.integer (if reverse then R.2.scores.size - 1 - r else r : Nat)) := by
  refine Op.reply_read h hpub (by simp) ?_
  have hindex : (ranked (scoresIn (some R))).findIdx? (·.member = m) = some r := hrank
  simp only [Op.effect, hindex]
  rfl

/-- What the commands that list, rank and count say about the order of a sorted set. -/
structure OrdersAgree (env : Nat → Tick) (s : Store) (k : Bytes) (sc : ScoreMap) : Prop where
  /-- The scan lists the members as `zset_to_slice` does, by numbers and then by bytes. -/
  scan : ∃ entries, (exec (loadAllMembers (.new k)) env { view := s }).out = .ok entries ∧
    entries = zsetToSlice sc ∧ entries.Pairwise Before
  /-- Ranks are positions from either end. -/
  ranks : ∀ member ∈ sc, ∃ r r' : Nat, (Op.rank member false).reply env s k = .ok (.integer r) ∧
    (Op.rangeByRank r r false false).reply env s k = .ok (.bulks [member]) ∧
    (Op.rank member true).reply env s k = .ok (.integer r') ∧
    Op.zcard.reply env s k = .ok (.integer (r + r' + 1 : Nat))
  /-- The union of one sorted set is listed as its range. -/
  union : ∀ aggregate withScores,
    (exec (SetOp.run { nodes := [.new k], aggregate, weights := [], kind := .union } withScores)
      env { view := s }).out = (Op.rangeByRank 0 (-1) withScores false).reply env s k

theorem Found.ordersAgree (h : Found (answers env) s k (some R)) (hpub : IsPublic k)
    (horder : InOrder R.2.scores) (hcount : R.2.scores.size ≠ 0 → R.2.count = R.2.scores.size) :
    OrdersAgree env s k R.2.scores := by
  have hsorted := zsetToSlice_eq_ranked horder
  refine ⟨⟨_, ?_, rfl, hsorted ▸ (pairwise_before_iff _).mpr horder⟩, fun member hmember => ?_,
    fun aggregate withScores => ?_⟩
  · rw [hsorted]
    exact out_eq_of_wp (h.wp_loadAllMembers (.inl rfl) fun _ _ => rfl)
  · obtain ⟨x, hx⟩ :=
      Option.isSome_iff_exists.mp (Std.ExtTreeMap.mem_iff_isSome_getElem?.mp hmember)
    obtain ⟨r, hrank, hat, hlt⟩ := exists_rank hx
    refine ⟨r, R.2.scores.size - 1 - r, h.rank_reply hpub hrank false,
      Op.reply_read h hpub (by simp) ?_, h.rank_reply hpub hrank true,
      Op.reply_read h hpub (by simp) ?_⟩
    · show Except.ok (answered _ _ (membersReply (inRanks r r (ranked R.2.scores)) false)) = _
      rw [inRanks_self hat]
      rfl
    · show Except.ok (answered _ _ (.integer (R.2.count : Nat))) = _
      rw [hcount (by omega), show r + (R.2.scores.size - 1 - r) + 1 = R.2.scores.size by omega]
  · have hrange : (Op.rangeByRank 0 (-1) withScores false).reply env s k =
        .ok (membersReply (ranked R.2.scores) withScores) := by
      refine Op.reply_read h hpub (by simp) ?_
      show Except.ok (answered _ _
        (membersReply (inRanks 0 (-1) (ranked R.2.scores)) withScores)) = _
      rw [inRanks_all]
    rw [hrange]
    refine out_eq_of_wp ?_
    unfold SetOp.run
    rw [wp_seq]
    refine wp_map (C := fun _ => some R) (fun k' (hk' : k' ∈ [k]) => ?_) fun t' _ => ?_
    · rw [List.mem_singleton.mp hk']
      exact h
    · show membersReply (zsetToSlice (combine aggregate [] [R.2.scores] .union)) withScores = _
      rw [combine_single, hsorted]

/-- **The orders of a sorted set agree** if and only if the index is in the order of the
numbers and the recorded count is the number of members. -/
theorem orders_agree (h : Found (answers env) s k (some R)) (hpub : IsPublic k) :
    OrdersAgree env s k R.2.scores ↔
      InOrder R.2.scores ∧ (R.2.scores.size ≠ 0 → R.2.count = R.2.scores.size) := by
  refine ⟨fun hagree => ⟨?_, fun hne => ?_⟩, fun ⟨horder, hcount⟩ =>
    h.ordersAgree hpub horder hcount⟩
  · obtain ⟨entries, hout, -, hsorted⟩ := hagree.scan
    have hscan : (exec (loadAllMembers (.new k)) env { view := s }).out =
        .ok (ranked R.2.scores) :=
      out_eq_of_wp (h.wp_loadAllMembers (.inl rfl) fun _ _ => rfl)
    rw [hscan, Except.ok.injEq] at hout
    exact (pairwise_before_iff _).mp (hout ▸ hsorted)
  · -- the ranks of any member from either end add up to the number of members
    rw [← length_ranked, ← Nat.pos_iff_ne_zero] at hne
    obtain ⟨⟨m, x⟩, he⟩ := List.exists_mem_of_length_pos hne
    have hx := mem_ranked.mp he
    obtain ⟨i, hrank, -, hlt⟩ := exists_rank hx
    obtain ⟨r, r', hr, -, hr', hcard⟩ := hagree.ranks m
      (Std.ExtTreeMap.mem_iff_isSome_getElem?.mpr (by rw [hx]; rfl))
    have hcount : Op.zcard.reply env s k = .ok (.integer (R.2.count : Nat)) :=
      Op.reply_read h hpub (by simp) rfl
    rw [h.rank_reply hpub hrank] at hr hr'
    rw [hcount] at hcard
    simp only [Except.ok.injEq, RespValue.integer.injEq, Nat.cast_inj, Bool.false_eq_true,
      if_false, if_true] at hr hr' hcard
    omega

theorem inOrder_sample : InOrder (scoresOf sample ∅) := by
  rw [← pairwise_before_iff, ranked_sample]
  unfold Before
  decide

theorem orders_agree_found :
    ∃ s R, Found (answers (clock 1)) s (publicKey 0 (ascii "z")) (some R) ∧
      OrdersAgree (clock 1) s (publicKey 0 (ascii "z")) R.2.scores ∧
      (exec (loadAllMembers (.new (publicKey 0 (ascii "z")))) (clock 1) { view := s }).out =
        .ok sample := by
  obtain ⟨s, P, h, -⟩ := exists_found (ascii "z") nodup_sample (by decide) (answers (clock 1))
  have hagree := (orders_agree h ⟨0, _, rfl⟩).mpr
    ⟨inOrder_sample, fun _ => (size_scoresOf nodup_sample).symm⟩
  obtain ⟨entries, hout, hslice, -⟩ := hagree.scan
  refine ⟨s, _, h, hagree, ?_⟩
  rw [hout, hslice, zsetToSlice_eq_ranked inOrder_sample, ranked_sample]

/-- The two zeros are one number, and the scan lists the member with the negative one first. -/
theorem zeros_out_of_order :
    replies [("zadd", words ["z", "0", "a", "-0", "b"]), ("zrange", words ["z", "0", "-1"])] =
        [some (.integer 2), some (.bulks (words ["b", "a"]))] ∧
      F64.zero.neg.numEq F64.zero = true ∧ compare (ascii "a") (ascii "b") = .lt := by
  decide +kernel

end Invar.Zset
