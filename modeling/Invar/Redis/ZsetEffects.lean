import Invar.Lib.Yields
import Invar.Redis.ZsetSpecs

/-!
# Sorted-set commands as functions of the scores

`Op.effect` says what a command on one sorted set answers and which scores and count it
leaves, as a function of the scores and the count that it finds. `Op.wp_run` is the
refinement: the command, run on a store with these scores under its key, answers that and
leaves that.
-/

namespace Invar.Zset

open StoreProg TxProg FiniteMap Ieee754 Fallible

/-! ## Ranges -/

def inScores (range : ScoreRange) (entries : List MemberScore) : List MemberScore :=
  entries.filter fun e => range.contains e.score

structure LexRange where
  min : LexBound
  max : LexBound

def parseLexRange (minStr maxStr : Bytes) : Except DbError LexRange := do
  let min ← parseLexBound minStr
  let max ← parseLexBound maxStr
  return { min, max }

def LexRange.contains (r : LexRange) (m : Bytes) : Bool := !r.min.below m && !r.max.above m

def inLex (range : LexRange) (entries : List MemberScore) : List MemberScore :=
  entries.filter fun e => range.contains e.member

theorem filterLexRange_eq (members : List Bytes) (minStr maxStr : Bytes) :
    filterLexRange members minStr maxStr =
      (parseLexRange minStr maxStr).map fun range => members.filter range.contains := by
  unfold filterLexRange parseLexRange
  cases parseLexBound minStr with
  | error e => rfl
  | ok min =>
    cases parseLexBound maxStr with
    | error e => rfl
    | ok max => rfl

theorem map_inLex (range : LexRange) (entries : List MemberScore) :
    (inLex range entries).map (·.member) = (entries.map (·.member)).filter range.contains := by
  rw [inLex, List.filter_map]
  rfl

/-- The members that are listed pick out their entries. -/
theorem filter_mem_inLex (range : LexRange) (entries : List MemberScore) :
    (entries.filter fun e => decide (e.member ∈ (entries.map (·.member)).filter range.contains)) =
      inLex range entries := by
  refine List.filter_congr fun e he => ?_
  rw [Bool.eq_iff_iff, decide_eq_true_iff, List.mem_filter]
  exact ⟨fun h => h.2, fun h => ⟨List.mem_map_of_mem he, h⟩⟩

/-! ## Effects -/

structure Effect where
  /-- `none` for an answer that is drawn. -/
  reply : Option RespValue
  scores : ScoreMap
  count : Option Nat

section

variable (sc : ScoreMap) (count : Option Nat)

def answered (reply : RespValue) : Effect := { reply := some reply, scores := sc, count }

/-- Some of the members are removed and counted; the new count is taken from the old one. -/
def removal (gone : List MemberScore) : Effect :=
  if gone = [] then answered sc count (.integer 0)
  else
    { reply := some (.integer gone.length)
      scores := without gone sc
      count := count.bind fun n =>
        if n = gone.length then none else some (countLess n gone.length) }

def Op.effect : Op → Except DbError Effect
  | .zcard => .ok (answered sc count (.integer (count.getD 0)))
  | .zscore member => .ok (answered sc count (scoreReply sc[member]?))
  | .zmscore members =>
    .ok (answered sc count (.array (some (members.map fun m => scoreReply sc[m]?))))
  | .zrem members =>
    .ok (match count with
      | none => answered sc count (.integer 0)
      | some n =>
        { reply := some (.integer (removedOf members sc))
          scores := eraseAll members sc
          count := countOf (countLess n (removedOf members sc)) })
  | .zincrby increment member =>
    if (raised sc increment member).isNan then .error invalidScore
    else .ok
      { reply := some (.bulk (raised sc increment member).display)
        scores := sc.insert member (raised sc increment member)
        count := countRaised sc count member }
  | .rangeByRank start stop withScores reverse =>
    let entries := if reverse then (ranked sc).reverse else ranked sc
    .ok (answered sc count (membersReply (inRanks start stop entries) withScores))
  | .rank member reverse =>
    .ok (answered sc count (match (ranked sc).findIdx? (·.member = member) with
      | none => .nullBulk
      | some i => .integer (if reverse then sc.size - 1 - i else i : Nat)))
  | .zcount minStr maxStr => (parseScoreRange minStr maxStr).map fun range =>
    answered sc count (.integer (inScores range (ranked sc)).length)
  | .rangeByScore minStr maxStr withScores limit reverse =>
    (parseScoreRange minStr maxStr).map fun range =>
      let entries := inScores range (ranked sc)
      let entries := if reverse then entries.reverse else entries
      answered sc count (membersReply (applyLimit limit entries) withScores)
  | .rangeByLex minStr maxStr limit reverse => (parseLexRange minStr maxStr).map fun range =>
    let members := (inLex range (ranked sc)).map (·.member)
    let members := if reverse then members.reverse else members
    answered sc count (.bulks (applyLimit limit members))
  | .lexCount minStr maxStr => (parseLexRange minStr maxStr).map fun range =>
    answered sc count (.integer (inLex range (ranked sc)).length)
  | .zrandmember n =>
    if n = 0 ∨ sc.size = 0 then .ok (answered sc count (.bulks []))
    else if n = -2 ^ 63 then .error .panic
    else .ok { reply := none, scores := sc, count }
  | .remRangeByRank start stop =>
    .ok (match rangeIndexes sc.size start stop with
      | none => answered sc count (.integer 0)
      | some (lo, hi) =>
        let gone := slice (ranked sc) lo hi
        { reply := some (.integer gone.length)
          scores := without gone sc
          count := countOf (sc.size - gone.length) })
  | .remRangeByScore minStr maxStr => (parseScoreRange minStr maxStr).map fun range =>
    removal sc count (inScores range (ranked sc))
  | .remRangeByLex minStr maxStr => (parseLexRange minStr maxStr).map fun range =>
    removal sc count (inLex range (ranked sc))
  | .zpop n wantMin =>
    let gone := popped n wantMin (ranked sc)
    .ok
      { reply := some (membersReply gone true)
        scores := without gone sc
        count := countOf (sc.size - min n sc.size) }

end

/-! ## The commands have these effects -/

variable {s s' : Store} {k : Bytes} {P : Place} {R : Place × SortedSet}
  {o : Option (Place × SortedSet)} {sc : ScoreMap} {op : Op} {A : Tick → Prop} {E : Post DbError}
  {t t' : Txn Bytes Row} {gone : List MemberScore}

/-- The answer and the new store are those of the effect. -/
def Answers (A : Tick → Prop) (s : Store) (k : Bytes) (o : Option (Place × SortedSet))
    (eff : Effect)
    (reply : RespValue) (s' : Store) : Prop :=
  (∀ r, eff.reply = some r → reply = r) ∧ After A s s' k o eff.scores eff.count

theorem answers_read (h : s' = s) (reply : RespValue) :
    Answers A s k o (answered (scoresIn o) (o.map (·.2.count)) reply) reply s' :=
  ⟨fun _ hr => Option.some.inj hr, .unchanged h⟩

theorem Holds.wp_memberScores {members : List Bytes} {Q : Post (List RespValue)}
    (h : Holds t.view P (rowAt sc))
    (hQ : ∀ t', t'.view = t.view → Q (members.map fun m => scoreReply sc[m]?) t') :
    wp A (memberScores (nodeAt k P) members) Q E t := by
  induction members generalizing t Q with
  | nil => exact hQ t rfl
  | cons m members ih =>
    unfold memberScores
    rw [wp_seq]
    refine h.wp_memberScore fun t₁ h₁ => ?_
    rw [wp_seq]
    exact ih (h₁ ▸ h) fun t₂ h₂ => hQ t₂ (h₂.trans h₁)

/-- The start of the commands that read single members. -/
theorem Found.wp_counted {β : Type} {rest : NodeRef → Option Nat → TxProg β}
    {Q : Post β} (h : Found A t.view k o)
    (hQ : ∀ t', t'.view = t.view → wp A (rest (handle k o) (o.map (·.2.count))) Q E t') :
    wp A ((NodeRef.new k).resolved.bind fun node => (zsetCount node.publicKey).bind fun count =>
      rest node count) Q E t := by
  rw [wp_bind]
  refine h.wp_resolved (.inl rfl) fun t₁ h₁ => ?_
  have hkey : (handle k o).publicKey = k := by cases o <;> rfl
  rw [wp_bind, hkey]
  exact h.wp_zsetCount (by rw [h₁]) fun t₂ h₂ => hQ t₂ (h₂.trans h₁)

theorem membersReply_nil (withScores : Bool) : membersReply [] withScores = .bulks [] := by
  cases withScores <;> rfl

/-- What a command needs that may make the sorted set. -/
structure CanMake (A : Tick → Prop) (s : Store) (k : Bytes) (o : Option (Place × SortedSet)) :
    Prop where
  named : ∃ db name, IsDb db ∧ k = publicKey db name ∧ (o = none → Unused A s db)

/-- The start of the commands that select by a range of scores or members. -/
theorem wp_selected {ρ : Type} {range : Except DbError ρ} {select : ρ → TxProg RespValue}
    {eff : ρ → Effect} (hview : t'.view = t.view)
    (hselect : ∀ r, range = .ok r → wp A (select r)
      (fun reply t' => Answers A t.view k o (eff r) reply t'.view) (fun _ _ => False) t') :
    wp A ((ofExcept range).bind select)
      (fun reply t' => ∃ e, range.map eff = .ok e ∧ Answers A t.view k o e reply t'.view)
      (fun e t' => range.map eff = .error e ∧ t'.view = t.view) t' := by
  rw [wp_bind, wp_ofExcept]
  refine ⟨fun r hr => ?_, fun e he => ?_⟩
  · rw [hr]
    exact wp_mono (hselect r hr) (fun reply t' hreply => ⟨eff r, rfl, hreply⟩) fun _ _ h => h.elim
  · rw [he]
    exact ⟨rfl, hview⟩

theorem ofExcept_map_bind {α β γ : Type} (r : Except DbError α) (f : α → β) (g : β → TxProg γ) :
    (ofExcept (r.map f)).bind g = (ofExcept r).bind fun a => g (f a) := by
  cases r <;> rfl

theorem Found.wp_removal (h : Found A t.view k o) (hview : t'.view = t.view) (hpub : IsPublic k)
    (hgone : gone.Sublist (ranked (scoresIn o))) :
    wp A (removeEntries (handle k o) gone) (fun reply t'' => Answers A t.view k o
      (removal (scoresIn o) (o.map (·.2.count)) gone) reply t''.view) (fun _ _ => False) t' := by
  unfold removal
  refine Found.wp_removeEntries (hview ▸ h) hpub hgone (fun hnil t₁ h₁ => ?_)
    fun R hR hne t₁ h₁ => ?_
  · rw [if_pos hnil]
    exact answers_read (h₁.trans hview) _
  · subst hR
    rw [if_neg hne]
    exact ⟨fun _ hr => Option.some.inj hr, hview ▸ h₁⟩

/-- **The commands refine their effects.** -/
theorem Op.wp_run (h : Found A t.view k o) (hpub : IsPublic k)
    (hmake : ∀ increment member, op = .zincrby increment member → CanMake A t.view k o) :
    wp A (op.run k) (fun reply t' => ∃ eff, op.effect (scoresIn o) (o.map (·.2.count)) = .ok eff ∧
        Answers A t.view k o eff reply t'.view)
      (fun e t' => op.effect (scoresIn o) (o.map (·.2.count)) = .error e ∧ t'.view = t.view) t := by
  cases op with
  | zcard =>
    show wp A ((zsetCount k).bind _) _ _ _
    rw [wp_bind]
    exact h.wp_zsetCount rfl fun t' ht' => ⟨_, rfl, answers_read ht' _⟩
  | zscore member =>
    refine h.wp_counted fun t' ht' => ?_
    cases o with
    | none =>
      refine ⟨_, rfl, ?_⟩
      rw [show (scoresIn none)[member]? = none by simp [scoresIn]]
      exact answers_read ht' _
    | some R =>
      show wp A ((memberScore (nodeAt k R.1) member).bind _) _ _ _
      rw [wp_bind]
      exact Holds.wp_memberScore (ht' ▸ h.holds) fun t₂ h₂ =>
        ⟨_, rfl, answers_read (h₂.trans ht') _⟩
  | zmscore members =>
    refine h.wp_counted fun t' ht' => ?_
    cases o with
    | none =>
      refine ⟨_, rfl, ?_⟩
      rw [show (fun m : Bytes => scoreReply (scoresIn none)[m]?) = fun _ => scoreReply none by
        simp [scoresIn]]
      exact answers_read ht' _
    | some R =>
      show wp A ((memberScores (nodeAt k R.1) members).bind _) _ _ _
      rw [wp_bind]
      exact Holds.wp_memberScores (ht' ▸ h.holds) fun t₂ h₂ =>
        ⟨_, rfl, answers_read (h₂.trans ht') _⟩
  | zrem members =>
    refine h.wp_zrem hpub (fun ho t' ht' => ?_) fun R ho t' ht' => ?_
    · subst ho
      exact ⟨_, rfl, answers_read ht' _⟩
    · subst ho
      exact ⟨_, rfl, fun _ hr => Option.some.inj hr, ht'⟩
  | zincrby increment member =>
    obtain ⟨db, name, hdb, hk, hfresh⟩ := (hmake increment member rfl).named
    refine h.wp_zincrby hdb.lt hk (fun ho _ => hfresh ho) (fun hnan t' ht' => ?_)
      (fun hnan t' ht' => ?_)
      fun _ hneg => absurd hdb.nonneg (by omega)
    · exact ⟨_, if_neg (by simp [hnan]), fun _ hr => Option.some.inj hr, ht'⟩
    · exact ⟨if_pos hnan, ht'⟩
  | rangeByRank start stop withScores reverse =>
    refine h.wp_loaded (.inl rfl) fun t' ht' => ?_
    have hlen : (if reverse then (ranked (scoresIn o)).reverse else ranked (scoresIn o)).length =
        (ranked (scoresIn o)).length := by
      cases reverse
      · rfl
      · exact List.length_reverse
    have heff : Op.effect (scoresIn o) (o.map (·.2.count))
        (.rangeByRank start stop withScores reverse) =
        .ok (answered (scoresIn o) (o.map (·.2.count))
          (membersReply (match rangeIndexes (ranked (scoresIn o)).length start stop with
            | none => []
            | some (lo, hi) =>
              slice (if reverse then (ranked (scoresIn o)).reverse else ranked (scoresIn o)) lo hi)
            withScores)) := by
      rw [← hlen]
      rfl
    rw [heff]
    cases rangeIndexes (ranked (scoresIn o)).length start stop with
    | none =>
      refine ⟨_, rfl, ?_⟩
      rw [membersReply_nil]
      exact answers_read ht' _
    | some range => exact ⟨_, rfl, answers_read ht' _⟩
  | rank member reverse =>
    refine h.wp_loaded (.inl rfl) fun t' ht' => ?_
    unfold Op.effect
    rw [length_ranked]
    cases hidx : (ranked (scoresIn o)).findIdx? (·.member = member)
    all_goals
      refine ⟨_, rfl, ?_⟩
      rw [hidx]
      exact answers_read ht' _
  | zcount minStr maxStr =>
    refine h.wp_loaded (.inl rfl) fun t' ht' => wp_selected ht' fun range _ => ?_
    show Answers _ _ _ _ _ (.integer (List.countP _ _)) _
    rw [List.countP_eq_length_filter]
    exact answers_read ht' _
  | rangeByScore minStr maxStr withScores limit reverse =>
    exact h.wp_loaded (.inl rfl) fun t' ht' => wp_selected ht' fun range _ => answers_read ht' _
  | rangeByLex minStr maxStr limit reverse =>
    refine h.wp_loaded (.inl rfl) fun t' ht' => ?_
    rw [filterLexRange_eq, Prog.bind_eq, ofExcept_map_bind]
    refine wp_selected ht' fun range _ => ?_
    rw [← map_inLex]
    exact answers_read ht' _
  | lexCount minStr maxStr =>
    refine h.wp_loaded (.inl rfl) fun t' ht' => ?_
    rw [filterLexRange_eq, Prog.bind_eq, ofExcept_map_bind]
    refine wp_selected ht' fun range _ => ?_
    rw [← map_inLex, List.length_map]
    exact answers_read ht' _
  | zrandmember count =>
    refine h.wp_loaded (.inl rfl) fun t' ht' => ?_
    have hempty : (decide (count = 0) || (ranked (scoresIn o)).isEmpty) = true ↔
        count = 0 ∨ (scoresIn o).size = 0 := by
      rw [Bool.or_eq_true, decide_eq_true_iff, List.isEmpty_iff, ← List.length_eq_zero_iff,
        length_ranked]
    simp only [Op.effect]
    by_cases hnone : count = 0 ∨ (scoresIn o).size = 0
    · rw [if_pos (hempty.mpr hnone), if_pos hnone]
      exact ⟨_, rfl, answers_read ht' _⟩
    · rw [if_neg fun hn => hnone (hempty.mp hn), if_neg hnone]
      by_cases hmin : count = -2 ^ 63
      · rw [if_pos hmin, if_pos hmin]
        exact ⟨rfl, ht'⟩
      · rw [if_neg hmin, if_neg hmin, Prog.bind_eq, wp_bind]
        refine wp_randPerm fun perm _ => ⟨_, rfl, ?_, .unchanged ht'⟩
        intro r hr
        cases hr
  | remRangeByRank start stop =>
    simp only [Op.effect]
    refine h.wp_remRangeByRank hpub (fun hrange t' ht' => ?_) fun lo hi hrange t' ht' => ?_
    · rw [hrange]
      exact ⟨_, rfl, answers_read ht' _⟩
    · rw [hrange]
      exact ⟨_, rfl, fun _ hr => Option.some.inj hr, ht'⟩
  | remRangeByScore minStr maxStr =>
    exact h.wp_loaded (.inl rfl) fun t' ht' => wp_selected ht' fun range _ =>
      h.wp_removal ht' hpub List.filter_sublist
  | remRangeByLex minStr maxStr =>
    refine h.wp_loaded (.inl rfl) fun t' ht' => ?_
    rw [filterLexRange_eq, Prog.bind_eq, ofExcept_map_bind]
    refine wp_selected ht' fun range _ => ?_
    rw [filter_mem_inLex]
    exact h.wp_removal ht' hpub List.filter_sublist
  | zpop count wantMin =>
    exact h.wp_zpop hpub fun t' ht' => ⟨_, rfl, fun _ hr => Option.some.inj hr, ht'⟩

/-! ## Counts -/

/-- The count is the number of members, up to some that were counted twice. -/
structure Counted (slack : Nat) (sc : ScoreMap) (count : Option Nat) : Prop where
  ge : sc.size ≤ count.getD 0
  le : count.getD 0 ≤ sc.size + slack
  small : count.getD 0 < 2 ^ 32

variable {slack : Nat}

theorem Counted.eq {count : Option Nat} (h : Counted 0 sc count) : count.getD 0 = sc.size :=
  Nat.le_antisymm h.le h.ge

theorem getD_countOf (n : Nat) : (countOf n).getD 0 = n := by
  unfold countOf
  split
  · rename_i h
    exact h.symm
  · rfl

theorem size_without (h : gone.Sublist (ranked sc)) :
    (without gone sc).size = sc.size - gone.length := by
  have hnodup : (gone.map (·.member)).Nodup := (nodup_ranked sc).sublist (h.map _)
  rw [without, size_eraseAll hnodup, List.length_map]
  intro m hm
  obtain ⟨e, he, rfl⟩ := List.mem_map.mp hm
  rw [mem_ranked.mp (h.subset he)]
  rfl

theorem countLess_eq {count removed : Nat} (h : removed ≤ count) (hcount : count < 2 ^ 32) :
    countLess count removed = count - removed := by
  unfold countLess
  omega

theorem counted_countOf {n : Nat} (hn : n = sc.size) (hsmall : n < 2 ^ 32) :
    Counted slack sc (countOf n) := by
  refine ⟨?_, ?_, ?_⟩ <;> rw [getD_countOf]
  · omega
  · omega
  · exact hsmall

theorem Counted.removal {count : Option Nat} (h : Counted slack sc count)
    (hgone : gone.Sublist (ranked sc)) :
    Counted slack (removal sc count gone).scores (removal sc count gone).count := by
  unfold Zset.removal
  split
  · exact h
  · have hsize := size_without hgone
    have hle := hgone.length_le
    have ⟨hge, hslack, hsmall⟩ := h
    rw [length_ranked] at hle
    cases count with
    | none =>
      change sc.size ≤ 0 at hge
      exact ⟨by show (without gone sc).size ≤ 0; omega, by show 0 ≤ _; omega,
        by show 0 < 2 ^ 32; decide⟩
    | some n =>
      change sc.size ≤ n at hge
      change n ≤ sc.size + slack at hslack
      change n < 2 ^ 32 at hsmall
      have hcount :
          Option.getD (if n = gone.length then none else some (countLess n gone.length)) 0 =
          n - gone.length := by
        split
        · show 0 = _
          omega
        · show countLess n gone.length = _
          exact countLess_eq (by omega) hsmall
      refine ⟨?_, ?_, ?_⟩
      · show (without gone sc).size ≤ Option.getD (if n = gone.length then none else _) 0
        rw [hcount]
        omega
      · show Option.getD (if n = gone.length then none else _) 0 ≤ (without gone sc).size + slack
        rw [hcount]
        omega
      · show Option.getD (if n = gone.length then none else _) 0 < 2 ^ 32
        rw [hcount]
        omega

/-- **The commands keep the count.** -/
theorem Counted.effect {count : Option Nat} (h : Counted slack sc count)
    (hroom : count.getD 0 + 1 < 2 ^ 32 ∨ ∀ increment member, op ≠ .zincrby increment member) :
    Yields (fun eff => Counted slack eff.scores eff.count) (op.effect sc count) := by
  have ⟨hge, hslack, hsmall⟩ := h
  have hsub {gone : List MemberScore} (hgone : gone.Sublist (ranked sc)) {n : Nat}
      (hn : n = sc.size - gone.length) : Counted slack (without gone sc) (countOf n) :=
    counted_countOf (by rw [size_without hgone, hn]) (by omega)
  cases op with
  | zcard | zscore | zmscore | rangeByRank | rank => exact yields_ok h
  | zcount | rangeByScore | rangeByLex | lexCount => exact (yields_self _).map fun _ _ => h
  | zrem members =>
    refine yields_ok ?_
    cases count with
    | none => exact h
    | some n =>
      change sc.size ≤ n at hge
      change n ≤ sc.size + slack at hslack
      change n < 2 ^ 32 at hsmall
      have hle := size_eraseAll_le members sc
      have hremoved : removedOf members sc = sc.size - (eraseAll members sc).size := rfl
      have hcount : (countOf (countLess n (removedOf members sc))).getD 0 =
          n - (sc.size - (eraseAll members sc).size) := by
        rw [getD_countOf, countLess_eq (by omega) hsmall, hremoved]
      refine ⟨?_, ?_, ?_⟩
      · show (eraseAll members sc).size ≤ (countOf _).getD 0
        rw [hcount]
        omega
      · show (countOf _).getD 0 ≤ (eraseAll members sc).size + slack
        rw [hcount]
        omega
      · show (countOf _).getD 0 < 2 ^ 32
        rw [hcount]
        omega
  | zincrby increment member =>
    have hroom : count.getD 0 + 1 < 2 ^ 32 := hroom.resolve_right fun hne => hne _ _ rfl
    simp only [Op.effect]
    split
    · exact yields_error _
    · refine yields_ok ?_
      show Counted slack (sc.insert member _) (countRaised sc count member)
      unfold countRaised
      cases hm : sc[member]? with
      | none =>
        have hsize := size_insert_of_none hm (raised sc increment member)
        exact ⟨by show _ ≤ count.getD 0 + 1; omega, by show count.getD 0 + 1 ≤ _; omega, hroom⟩
      | some old =>
        have hsize := size_insert_of_some hm (raised sc increment member)
        exact ⟨by rw [hsize]; exact hge, by rw [hsize]; exact hslack, hsmall⟩
  | zrandmember n =>
    simp only [Op.effect]
    split
    · exact yields_ok h
    · split
      · exact yields_error _
      · exact yields_ok h
  | remRangeByRank start stop =>
    refine yields_ok ?_
    cases rangeIndexes sc.size start stop with
    | none => exact h
    | some range => exact hsub (sublist_slice _ _ _) rfl
  | remRangeByScore | remRangeByLex =>
    exact (yields_self _).map fun _ _ => h.removal List.filter_sublist
  | zpop n wantMin =>
    refine yields_ok (hsub (sublist_popped _ _ _) ?_)
    rw [length_popped, length_ranked]

end Invar.Zset
