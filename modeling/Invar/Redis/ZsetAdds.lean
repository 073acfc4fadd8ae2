import Invar.Redis.Requests
import Invar.Redis.ZsetRuns

/-!
# `ZADD` as a fold

The loop over the pairs compared with the fold that the flags describe. The two agree as
long as the sorted set exists: while it is made, a member that is named again is added and
counted again, which is right only if `CH` counts the pair too.
-/

namespace Invar.Zset

open StoreProg TxProg FiniteMap Ieee754 Requests

/-! ## The fold -/

/-- The scores, the members that were added and the pairs that added a member or changed a
score. -/
structure Fold where
  scores : ScoreMap
  added : Nat := 0
  touched : Nat := 0

/-- Adds the member if it is absent and `XX` is not set. Updates it otherwise, unless `NX`,
`GT` or `LT` forbids it. -/
def ZAddFlags.step (f : ZAddFlags) (q : Fold) (pair : F64 × Bytes) : Fold :=
  match q.scores[pair.2]? with
  | none =>
    if f.xx then q
    else
      { scores := q.scores.insert pair.2 pair.1, added := q.added + 1, touched := q.touched + 1 }
  | some old =>
    if f.nx || f.keepsOld old pair.1 then q
    else
      { q with
        scores := q.scores.insert pair.2 pair.1
        touched := q.touched + if old.numEq pair.1 then 0 else 1 }

def SameNumber (x y : F64) : Prop := x = y ∨ x.numEq y = true

/-- The same members with the same numbers. A score that is the same number is not written
again, so that a zero keeps its sign. -/
def Alike (sc sc' : ScoreMap) : Prop :=
  ∀ m : Bytes, sc[m]? = none ∧ sc'[m]? = none ∨
    ∃ x y, sc[m]? = some x ∧ sc'[m]? = some y ∧ SameNumber x y

variable {f : ZAddFlags} {sc sc' : ScoreMap} {x y : F64} {m : Bytes} {p : Progress} {q : Fold}

theorem Alike.refl (sc : ScoreMap) : Alike sc sc := by
  intro m
  cases hm : sc[m]? with
  | none => exact .inl ⟨rfl, rfl⟩
  | some x => exact .inr ⟨x, x, rfl, rfl, .inl rfl⟩

theorem Alike.insert (h : Alike sc sc') (m : Bytes) (x : F64) :
    Alike (sc.insert m x) (sc'.insert m x) := by
  intro m'
  rw [getElem?_insert_eq, getElem?_insert_eq]
  by_cases hm : m' = m
  · rw [if_pos hm, if_pos hm]
    exact .inr ⟨x, x, rfl, rfl, .inl rfl⟩
  · rw [if_neg hm, if_neg hm]
    exact h m'

/-- A score that is replaced by the same number. -/
theorem Alike.insert_right (h : Alike sc sc') (hm : sc[m]? = some x) (hxy : SameNumber x y) :
    Alike sc (sc'.insert m y) := by
  intro m'
  rw [getElem?_insert_eq]
  by_cases heq : m' = m
  · rw [if_pos heq, heq]
    exact .inr ⟨x, y, hm, rfl, hxy⟩
  · rw [if_neg heq]
    exact h m'

/-- Comparisons do not tell the same numbers apart. -/
theorem SameNumber.partialCmp (h : SameNumber x y) (z : F64) :
    z.partialCmp x = z.partialCmp y ∧ x.partialCmp z = y.partialCmp z := by
  rcases h with rfl | h
  · exact ⟨rfl, rfl⟩
  · unfold F64.numEq F64.partialCmp at h
    cases hx : x.isNan <;> cases hy : y.isNan <;> rw [hx, hy] at h
    · have hkey : x.orderKey = y.orderKey := by simpa using h
      unfold F64.partialCmp
      rw [hx, hy, hkey]
      exact ⟨rfl, rfl⟩
    all_goals exact absurd h Bool.false_ne_true

theorem SameNumber.keepsOld (h : SameNumber x y) (z : F64) : f.keepsOld x z = f.keepsOld y z := by
  unfold ZAddFlags.keepsOld
  rw [(h.partialCmp z).1]

theorem SameNumber.numEq (h : SameNumber x y) (z : F64) : x.numEq z = y.numEq z := by
  unfold F64.numEq
  rw [(h.partialCmp z).2]

/-- The loop and the fold are at the same point. -/
structure Follows (p : Progress) (q : Fold) : Prop where
  scores : Alike p.scores q.scores
  added : p.added = q.added
  touched : p.changed + p.added = q.touched

/-- One pair, in a sorted set that exists. -/
theorem Follows.step (h : Follows p q) (f : ZAddFlags) (pair : F64 × Bytes) :
    Follows (f.apply false p pair) (f.step q pair) := by
  have hadded := h.added
  have htouched := h.touched
  unfold ZAddFlags.apply ZAddFlags.step
  rcases h.scores pair.2 with ⟨hp, hq⟩ | ⟨x, y, hp, hq, hxy⟩
  · rw [hp, hq]
    by_cases hxx : f.xx = true
    · simp only [hxx, if_true]
      exact h
    · simp only [hxx]
      exact ⟨h.scores.insert _ _, by show p.added + 1 = q.added + 1; omega,
        by show p.changed + (p.added + 1) = q.touched + 1; omega⟩
  · rw [hp, hq]
    dsimp only
    rw [if_neg Bool.false_ne_true, hxy.keepsOld pair.1]
    by_cases hkeeps : (f.nx || f.keepsOld y pair.1) = true
    · rw [if_pos hkeeps, if_pos (by rw [hkeeps]; rfl)]
      exact h
    · rw [if_neg hkeeps, Bool.not_eq_true _ |>.mp hkeeps, Bool.false_or, ← hxy.numEq pair.1]
      by_cases heq : x.numEq pair.1 = true
      · rw [if_pos heq, if_pos heq]
        exact ⟨h.scores.insert_right hp (.inr heq), hadded, htouched⟩
      · rw [if_neg heq, if_neg heq]
        exact ⟨h.scores.insert _ _, hadded, by show p.changed + 1 + p.added = q.touched + 1; omega⟩

theorem Follows.foldl (h : Follows p q) (f : ZAddFlags) (pairs : List (F64 × Bytes)) :
    Follows (pairs.foldl (f.apply false) p) (pairs.foldl f.step q) := by
  induction pairs generalizing p q with
  | nil => exact h
  | cons pair pairs ih => exact ih (h.step f pair)

variable {pairs : List (F64 × Bytes)} {args : List Bytes}

/-! ## A sorted set that is made -/

/-- While a sorted set is made, each pair adds its member. -/
theorem foldl_apply_new (hxx : f.xx = false) (pairs : List (F64 × Bytes)) (p : Progress) :
    pairs.foldl (f.apply true) p =
      { p with
        scores := pairs.foldl (fun sc pair => sc.insert pair.2 pair.1) p.scores
        added := p.added + pairs.length } := by
  induction pairs generalizing p with
  | nil => rfl
  | cons pair pairs ih =>
    have hstep : f.apply true p pair =
        { p with scores := p.scores.insert pair.2 pair.1, added := p.added + 1 } := by
      unfold ZAddFlags.apply
      cases p.scores[pair.2]? <;> simp [hxx]
    rw [List.foldl_cons, hstep, ih, List.foldl_cons, List.length_cons, Nat.add_assoc,
      Nat.add_comm 1]

/-- What the fold replies. -/
def Fold.number (q : Fold) (f : ZAddFlags) : Nat := if f.ch then q.touched else q.added

/-- A pair for a member that has a score counts: `CH` is set, and the score is changed. -/
def ZAddFlags.counts (f : ZAddFlags) (old new : F64) : Bool :=
  f.ch && !(f.nx || f.keepsOld old new || old.numEq new)

/-- The scores that the pairs name for a member, in order. -/
def named (m : Bytes) (pairs : List (F64 × Bytes)) : List F64 :=
  (pairs.filter (·.2 = m)).map (·.1)

/-- Whenever a member is named again, the pair counts. -/
def ZAddFlags.EachCounts (f : ZAddFlags) (pairs : List (F64 × Bytes)) : Prop :=
  ∀ m, (named m pairs).IsChain fun old new => f.counts old new = true

theorem number_step (hxx : f.xx = false) (q : Fold) (pair : F64 × Bytes) :
    ((∀ old ∈ q.scores[pair.2]?, f.counts old pair.1 = true) →
      (f.step q pair).number f = q.number f + 1 ∧
        (f.step q pair).scores = q.scores.insert pair.2 pair.1) ∧
    (∀ old ∈ q.scores[pair.2]?, f.counts old pair.1 = false →
      (f.step q pair).number f = q.number f) := by
  unfold ZAddFlags.step Fold.number ZAddFlags.counts
  cases q.scores[pair.2]? with
  | none => cases f.ch <;> simp [hxx]
  | some old =>
    simp only [Option.mem_def, Option.some.injEq, forall_eq']
    generalize (f.nx || f.keepsOld old pair.1) = keeps
    generalize old.numEq pair.1 = same
    cases f.ch <;> cases keeps <;> cases same <;> simp

/-- The fold counts every pair exactly if each member that is named again counts. -/
theorem number_foldl (hxx : f.xx = false) (pairs : List (F64 × Bytes)) (q : Fold) :
    let chained := ∀ m, (q.scores[m]?.toList ++ named m pairs).IsChain fun old new =>
      f.counts old new = true
    let fold := pairs.foldl f.step q
    fold.number f ≤ q.number f + pairs.length ∧
      (fold.number f = q.number f + pairs.length ↔ chained) ∧
      (chained → fold.scores = pairs.foldl (fun sc pair => sc.insert pair.2 pair.1) q.scores) := by
  induction pairs generalizing q with
  | nil =>
    have hchained (m : Bytes) : (q.scores[m]?.toList ++ named m []).IsChain fun old new =>
        f.counts old new = true := by
      cases q.scores[m]? <;> simp [named]
    exact ⟨Nat.le_refl _, ⟨fun _ => hchained, fun _ => rfl⟩, fun _ => rfl⟩
  | cons pair pairs ih =>
    obtain ⟨hle, hiff, hscores⟩ := ih (f.step q pair)
    obtain ⟨hcounts, hnot⟩ := number_step hxx q pair
    have hself : named pair.2 (pair :: pairs) = pair.1 :: named pair.2 pairs := by simp [named]
    have hother {m : Bytes} (hm : m ≠ pair.2) : named m (pair :: pairs) = named m pairs := by
      simp [named, Ne.symm hm]
    rw [List.foldl_cons, List.length_cons, List.foldl_cons]
    by_cases hall : ∀ old ∈ q.scores[pair.2]?, f.counts old pair.1 = true
    · obtain ⟨hnumber, hinsert⟩ := hcounts hall
      have hchain (m : Bytes) :
          ((f.step q pair).scores[m]?.toList ++ named m pairs).IsChain
              (fun old new => f.counts old new = true) ↔
            (q.scores[m]?.toList ++ named m (pair :: pairs)).IsChain
              fun old new => f.counts old new = true := by
        rw [hinsert, getElem?_insert_eq]
        by_cases hm : m = pair.2
        · subst hm
          rw [if_pos rfl, hself]
          cases hold : q.scores[pair.2]? with
          | none => rfl
          | some old => simp [hall old hold]
        · rw [if_neg hm, hother hm]
      rw [hnumber, forall_congr' hchain] at hiff
      rw [forall_congr' hchain, hinsert] at hscores
      exact ⟨by omega, by rw [← hiff]; omega, hscores⟩
    · -- the pair is not counted, and there is nothing to make up for it
      simp only [not_forall, Bool.not_eq_true] at hall
      obtain ⟨old, hold, hfalse⟩ := hall
      have hbroken : ¬∀ m, (q.scores[m]?.toList ++ named m (pair :: pairs)).IsChain
          fun old new => f.counts old new = true := fun hchain => by
        have hpair := hchain pair.2
        rw [hself, hold] at hpair
        simp [hfalse] at hpair
      rw [hnot old hold hfalse] at hle
      exact ⟨by omega, ⟨fun heq => by omega, fun h => absurd h hbroken⟩,
        fun h => absurd h hbroken⟩

/-- Without members `XX` leaves nothing to do. -/
theorem foldl_step_xx (hxx : f.xx = true) (pairs : List (F64 × Bytes)) :
    pairs.foldl f.step { scores := ∅ } = { scores := ∅ } := by
  induction pairs with
  | nil => rfl
  | cons pair pairs ih =>
    have hstep : f.step { scores := ∅ } pair = { scores := ∅ } := by
      unfold ZAddFlags.step
      rw [show (∅ : ScoreMap)[pair.2]? = none by simp]
      simp only [hxx, if_true]
    rw [List.foldl_cons, hstep, ih]

/-! ## The command -/

/-- The arguments are accepted, with the flags and the pairs that they name. -/
structure Accepts (args : List Bytes) (f : ZAddFlags) (pairs : List (F64 × Bytes)) : Prop where
  flags : (parseFlags {} args).1 = f
  compatible : f.check = .ok ()
  nonempty : (parseFlags {} args).2 ≠ []
  even : (parseFlags {} args).2.length % 2 = 0
  pairs : pairsOf (parseFlags {} args).2 = some pairs

/-- Without a waiter nothing is popped again. -/
theorem ZAddOp.run_none (op : ZAddOp) :
    op.run none = op.write.bind fun w => pure (.integer w.reply) := by
  refine congrArg op.write.bind (funext fun w => ?_)
  obtain ⟨node, added, reply⟩ := w
  cases added <;> rfl

theorem Accepts.zaddEffect (h : Accepts args f pairs)
    (sc : ScoreMap) (isNewKey : Bool) : zaddEffect sc isNewKey args =
      .ok (f, if isNewKey && f.xx then { scores := sc }
        else pairs.foldl (f.apply isNewKey) { scores := sc }) := by
  have hargs : args.isEmpty = false := by
    cases args with
    | nil => exact absurd rfl h.nonempty
    | cons => rfl
  have hsplit : parseFlags {} args = (f, (parseFlags {} args).2) := by rw [← h.flags]
  have hremaining :
    ((parseFlags {} args).2.isEmpty || decide ((parseFlags {} args).2.length % 2 ≠ 0)) = false := by
    simp [h.even, h.nonempty]
  unfold Zset.zaddEffect
  rw [hargs, hsplit]
  simp only [Bool.false_eq_true, if_false, h.compatible, hremaining, h.pairs]
  split <;> rfl

/-- When the loop does what the fold does. -/
theorem Accepts.effect (h : Accepts args f pairs) (o : Option (Place × SortedSet)) :
    ∃ p, Zset.zaddEffect (scoresIn o) o.isNone args = .ok (f, p) ∧
      let fold := pairs.foldl f.step { scores := scoresIn o }
      (f.reply p = fold.number f → o = none → f.xx = true ∨ f.EachCounts pairs) ∧
      ((o = none → f.xx = true ∨ f.EachCounts pairs) →
        f.reply p = fold.number f ∧ Alike p.scores fold.scores) := by
  have hstart : Follows { scores := scoresIn o } { scores := scoresIn o } :=
    ⟨Alike.refl _, rfl, rfl⟩
  have hfollows {p : Progress} (hp : Follows p (pairs.foldl f.step { scores := scoresIn o })) :
      f.reply p = (pairs.foldl f.step { scores := scoresIn o }).number f ∧
        Alike p.scores (pairs.foldl f.step { scores := scoresIn o }).scores := by
    rw [ZAddFlags.reply, hp.touched, hp.added]
    exact ⟨rfl, hp.scores⟩
  refine ⟨_, h.zaddEffect _ _, ?_⟩
  cases o with
  | some R =>
    have hsame := hfollows (hstart.foldl f pairs)
    exact ⟨fun _ => nofun, fun _ => hsame⟩
  | none =>
    cases hxx : f.xx with
    | true =>
      have hsame := hfollows (p := { scores := ∅ }) (by
        rw [show scoresIn none = ∅ from rfl, foldl_step_xx hxx]
        exact hstart)
      exact ⟨fun _ _ => .inl rfl, fun _ => hsame⟩
    | false =>
      obtain ⟨-, hnumber, hscores⟩ := number_foldl hxx pairs { scores := ∅ }
      have hzero : Fold.number { scores := ∅ } f = 0 := by
        unfold Fold.number
        split <;> rfl
      have hnone (m : Bytes) : (∅ : ScoreMap)[m]?.toList = [] := by simp
      simp only [hzero, Nat.zero_add, hnone, List.nil_append] at hnumber hscores
      have hreply : f.reply (pairs.foldl (f.apply true) { scores := ∅ }) = pairs.length := by
        rw [foldl_apply_new hxx, ZAddFlags.reply]
        split <;> simp
      have hmade : (pairs.foldl (f.apply true) { scores := ∅ }).scores =
          pairs.foldl (fun sc pair => sc.insert pair.2 pair.1) ∅ := by
        rw [foldl_apply_new hxx]
      refine ⟨fun heq _ => .inr (hnumber.mp (heq.symm.trans hreply)), fun heach => ?_⟩
      have heach := (heach rfl).resolve_left Bool.false_ne_true
      refine ⟨hreply.trans (hnumber.mpr heach).symm, ?_⟩
      show Alike (pairs.foldl (f.apply true) { scores := ∅ }).scores _
      rw [hmade, show (pairs.foldl f.step { scores := scoresIn none }).scores = _ from
        hscores heach]
      exact Alike.refl _

variable {s s' : Store} {env : Nat → Tick} {k : Bytes} {o : Option (Place × SortedSet)}
  {A : Tick → Prop}

/-- The key holds a sorted set with these scores, or there is no key and no score. -/
def KeyHolds (A : Tick → Prop) (s : Store) (k : Bytes) (sc : ScoreMap) : Prop :=
  (∃ (P : Place) (row : Row) (content : Bytes), s[k]? = some row ∧
    row.IsSentinel (privateKey k) .sortedSet P.element content ∧ Holds s P (rowAt sc)) ∨
  Hidden A s k ∧ sc = ∅

theorem After.keyHolds {count : Option Nat} (hafter : After A s s' k o sc count)
    (h : Found A s k o) (hpub : IsPublic k) (hcount : o = none ∨ count.isSome = true) :
    KeyHolds A s' k sc := by
  have hwritten {P : Place} {content : Bytes} {ts : Option Int} (hrows : Holds s' P (rowAt sc))
      (hkey : s'[k]? = some (sentinelRow content .sortedSet P.element ts)) : KeyHolds A s' k sc :=
    .inl ⟨P, _, _, hkey, isSentinel_sentinelRow (P.storable _) _ _ _, hrows⟩
  cases h with
  | absent hidden =>
    cases hafter with
    | unchanged hs => exact .inr ⟨hs ▸ hidden, rfl⟩
    | dropped _ hkey => exact .inr ⟨hidden_of_none hkey, rfl⟩
    | made _ _ _ hrows hkey => exact hwritten hrows hkey
  | present hrow _ hsent hrows =>
    cases hafter with
    | unchanged hs => exact .inl ⟨_, _, _, hs ▸ hrow, hsent, hs ▸ hrows⟩
    | rescored hat hrows' =>
      exact .inl ⟨_, _, _, (hat k (hpub.not_isPrefix _)).trans hrow, hsent, hrows'⟩
    | emptied _ _ hkey => simp at hcount
    | counted _ hrows' _ hkey => exact hwritten hrows' hkey

/-- **`ZADD` is a fold** over its pairs, exactly if the sorted set exists, or `XX` is set, or
each pair that names a member again counts. -/
theorem zadd_fold (rawKey : Bytes) {db : Int} {name : Bytes} {args : List Bytes}
    {pairs : List (F64 × Bytes)} (h : Found (answers env) s k o) (hdb : IsDb db)
    (hk : k = publicKey db name) (hfresh : o = none → Unused (answers env) s db)
    (hargs : Accepts args f pairs) :
    let fold := pairs.foldl f.step { scores := scoresIn o }
    let run := exec (ZAddOp.run { node := .new k, rawKey, args } none) env { view := s }
    (run.out = .ok (.integer (if f.ch then fold.touched else fold.added : Nat)) ∧
      ∃ sc, KeyHolds (answers env) run.txn.view k sc ∧ Alike sc fold.scores) ↔
        (o = none → f.xx = true ∨ f.EachCounts pairs) := by
  obtain ⟨p, heff, hreply, hright⟩ := hargs.effect o
  have hwp : wp (answers env) (ZAddOp.run { node := .new k, rawKey, args } none)
      (fun reply t' => reply = .integer (f.reply p : Nat) ∧
        KeyHolds (answers env) t'.view k p.scores)
      (fun _ _ => False) { view := s } := by
    rw [ZAddOp.run_none, wp_bind]
    refine h.wp_zaddWrite hdb.lt hk (fun ho _ => hfresh ho) (fun P f' p' _ heff' t' hafter _ => ?_)
      (fun e _ he => ?_) fun _ hneg => absurd hdb.nonneg (by omega)
    · rw [heff] at heff'
      cases heff'
      refine ⟨rfl, hafter.keyHolds h ⟨db, name, hk⟩ ?_⟩
      cases o with
      | none => exact .inl rfl
      | some R =>
        right
        unfold Progress.count
        split <;> rfl
    · rw [heff] at he
      cases he
  obtain ⟨_, hout, rfl, hleft⟩ := exec_ok_of_wp hwp env fun n => ⟨n, rfl⟩
  intro fold run
  rw [show run.out = _ from hout, Except.ok.injEq, RespValue.integer.injEq, Nat.cast_inj]
  refine ⟨fun hfold => hreply hfold.1, fun hcond => ?_⟩
  obtain ⟨hnumber, halike⟩ := hright hcond
  exact ⟨hnumber, _, hleft, halike⟩

/-- A new sorted set, with a member whose score the same command changes. -/
theorem zadd_fold_new :
    let pairs := [(F64.ofInt 1, ascii "a"), (.ofInt 2, ascii "a"), (.ofInt 3, ascii "b")]
    let fold := pairs.foldl ({ ch := true } : ZAddFlags).step { scores := ∅ }
    let run := exec (ZAddOp.run ⟨.new (publicKey 0 (ascii "z")), ascii "z",
      words ["CH", "1", "a", "2", "a", "3", "b"]⟩ none) (clock 1) { view := ∅ }
    run.out = .ok (.integer 3) ∧ fold.touched = 3 ∧ fold.scores[ascii "a"]? = some (.ofInt 2) ∧
      ∃ sc, KeyHolds (answers (clock 1)) run.txn.view (publicKey 0 (ascii "z")) sc ∧
        Alike sc fold.scores := by
  intro pairs fold run
  have h : Found (answers (clock 1)) ∅ (publicKey 0 (ascii "z")) none :=
    .absent (hidden_of_none (by simp))
  have hargs : Accepts (words ["CH", "1", "a", "2", "a", "3", "b"]) { ch := true } pairs :=
    ⟨by decide, by decide, by decide, by decide, by decide⟩
  have hdb : IsDb 0 := by decide
  have heach : ({ ch := true } : ZAddFlags).EachCounts pairs := by
    intro m
    by_cases ha : ascii "a" = m
    · subst ha
      decide
    · by_cases hb : ascii "b" = m
      · subst hb
        decide
      · simp [named, pairs, ha, hb]
  have htouched : fold.touched = 3 := by decide +kernel
  obtain ⟨hout, hleft⟩ := (zadd_fold (ascii "z") h hdb rfl (fun _ _ _ _ => by simp) hargs).mpr
    fun _ => .inr heach
  refine ⟨?_, htouched, by decide +kernel, hleft⟩
  show run.out = .ok (.integer ((3 : Nat) : Int))
  exact hout

/-- A new sorted set counts a member that is named twice twice, and `NX` does not keep its
first score. -/
theorem repeated_member_added_twice :
    replies [("zadd", words ["z", "NX", "1", "a", "2", "a"]), ("zscore", words ["z", "a"])] =
      [some (.integer 2), some (.bulk (ascii "2"))] := by
  decide +kernel

end Invar.Zset
