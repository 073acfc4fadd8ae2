import Invar.Redis.ZsetAlgebra
import Invar.Redis.ZsetIndexes

/-!
# Scores are numbers

In every run of commands on sorted sets no score is a NaN, as long as no store command
adds opposite infinities or weighs a zero or an infinity by the other, and so the orders of
all sorted sets are total.
-/

namespace Invar.Zset

open StoreProg TxProg Transition Ieee754 FiniteMap Fallible Requests

variable {ln : F64 → F64} {s s' : Store} {C : Catalog SortedSet} {k : Bytes} {sc sc' : ScoreMap}
  {count : Option Nat} {m : Bytes} {x : F64} {op : Op} {a : Action}

def Numbers (sc : ScoreMap) : Prop := ∀ (m : Bytes) (x : F64), sc[m]? = some x → x.isNan = false

theorem numbers_empty : Numbers ∅ := by
  intro m x hx
  simp at hx

theorem Numbers.insert (h : Numbers sc) (hx : x.isNan = false) (m : Bytes) :
    Numbers (sc.insert m x) := by
  intro m' y hy
  rw [getElem?_insert_eq] at hy
  split at hy
  · cases hy
    exact hx
  · exact h m' y hy

theorem Numbers.eraseAll (h : Numbers sc) (ms : List Bytes) :
    Numbers (FiniteMap.eraseAll ms sc) := by
  intro m x hx
  rw [getElem?_eraseAll] at hx
  split at hx
  · cases hx
  · exact h m x hx

variable {es : List MemberScore} {p : Progress}

theorem Numbers.scoresOf (h : ∀ e ∈ es, e.score.isNan = false)
    (hsc : Numbers sc) : Numbers (scoresOf es sc) := by
  induction es generalizing sc with
  | nil => exact hsc
  | cons e es ih =>
    rw [List.forall_mem_cons] at h
    exact ih h.2 (hsc.insert h.1 e.member)

/-- The commands that read and remove keep what is left of the scores. -/
theorem effect_scores (hop : ∀ increment member, op ≠ .zincrby increment member) :
    Yields (fun eff => ∃ ms, eff.scores = eraseAll ms sc) (op.effect sc count) := by
  have hsame : ∃ ms, sc = eraseAll ms sc := ⟨[], rfl⟩
  have hremoval (gone : List MemberScore) :
    ∃ ms, (removal sc count gone).scores = eraseAll ms sc := by
    unfold removal
    split
    · exact hsame
    · exact ⟨_, rfl⟩
  cases op with
  | zincrby increment member => exact absurd rfl (hop increment member)
  | zcard | zscore | zmscore | rangeByRank | rank => exact yields_ok hsame
  | zcount | rangeByScore | rangeByLex | lexCount => exact (yields_self _).map fun _ _ => hsame
  | zrem members =>
    refine yields_ok ?_
    cases count with
    | none => exact hsame
    | some n => exact ⟨members, rfl⟩
  | zrandmember n =>
    simp only [Op.effect]
    split
    · exact yields_ok hsame
    · split
      · exact yields_error _
      · exact yields_ok hsame
  | remRangeByRank start stop =>
    refine yields_ok ?_
    cases rangeIndexes sc.size start stop with
    | none => exact hsame
    | some range => exact ⟨_, rfl⟩
  | remRangeByScore | remRangeByLex => exact (yields_self _).map fun _ _ => hremoval _
  | zpop n wantMin => exact yields_ok ⟨_, rfl⟩

/-! ## Results of store commands -/

/-- The scores are added one after the other without an invalid sum. -/
def Adds : F64 → List F64 → Prop
  | _, [] => True
  | acc, x :: xs => ¬acc.AddInvalid x ∧ Adds (acc.add x) xs

/-- **The condition on the sources and the weights**: no operation on the scores of a member is
invalid, and the first weight is no NaN. -/
structure ValidSources (aggregate : Bytes) (weights : List F64) (kind : SetOpKind)
    (maps : List ScoreMap) : Prop where
  adds : lower aggregate = ascii "sum" → ∀ m ∈ combine aggregate [] maps kind,
    Adds F64.zero.neg (maps.filterMap (·[m]?))
  weighs : ∀ w ∈ weights.head?, w.isNan = false ∧
    ∀ (m : Bytes) (x : F64), (combine aggregate [] maps kind)[m]? = some x → ¬x.MulInvalid w

theorem isNan_foldl {f : F64 → F64 → F64} {xs : List F64} (hx : x.isNan = false)
    (hxs : ∀ y ∈ xs, y.isNan = false)
    (hf : ∀ y z, y.isNan = false → z.isNan = false → (f y z).isNan = false) :
    (xs.foldl f x).isNan = false := by
  induction xs generalizing x with
  | nil => exact hx
  | cons y xs ih =>
    rw [List.forall_mem_cons] at hxs
    exact ih (hf x y hx hxs.1) hxs.2

theorem Adds.isNan {xs : List F64} (h : Adds x xs) (hx : x.isNan = false)
    (hxs : ∀ y ∈ xs, y.isNan = false) : (xs.foldl F64.add x).isNan = false := by
  induction xs generalizing x with
  | nil => exact hx
  | cons y xs ih =>
    rw [List.forall_mem_cons] at hxs
    exact ih h.2 (F64.isNan_add hx hxs.1 h.1) hxs.2

theorem isNan_aggregateScores {aggregate : Bytes} {xs : List F64}
    (hxs : ∀ x ∈ xs, x.isNan = false)
    (hadds : lower aggregate = ascii "sum" → Adds F64.zero.neg xs) :
    (aggregateScores aggregate xs).isNan = false := by
  unfold aggregateScores
  split
  · exact (hadds ‹_›).isNan (by decide) hxs
  · split
    · exact isNan_foldl (by decide) hxs fun _ _ => F64.isNan_min
    · split
      · exact isNan_foldl (by decide) hxs fun _ _ => F64.isNan_max
      · cases xs with
        | nil => decide
        | cons x xs => exact hxs x List.mem_cons_self

/-- **A valid result has no NaN.** -/
theorem ValidSources.numbers {aggregate : Bytes} {weights : List F64} {kind : SetOpKind}
    {maps : List ScoreMap} (h : kind ≠ .diff → ValidSources aggregate weights kind maps)
    (hmaps : ∀ map ∈ maps, Numbers map) : Numbers (combine aggregate weights maps kind) := by
  have hscores (m : Bytes) : ∀ x ∈ maps.filterMap (·[m]?), x.isNan = false := by
    intro x hx
    obtain ⟨map, hmap, hx⟩ := List.mem_filterMap.mp hx
    exact hmaps map hmap m x hx
  by_cases hkind : kind = .diff
  · subst hkind
    cases maps with
    | nil => exact numbers_empty
    | cons first others =>
      intro m x hx
      change (first.filter _)[m]? = some x at hx
      rw [Std.ExtTreeMap.getElem?_filter] at hx
      exact hmaps first List.mem_cons_self m x (Option.pfilter_eq_some_iff.mp hx).1
  · have hvalid := h hkind
    have hplain : Numbers (combine aggregate [] maps kind) := by
      intro m x hx
      rcases getElem?_combine hkind hx with rfl | hmem
      · refine isNan_aggregateScores (hscores m) fun hsum => hvalid.adds hsum m ?_
        rw [Std.ExtTreeMap.mem_iff_isSome_getElem?, hx]
        rfl
      · exact hscores m x hmem
    have hweigh : combine aggregate weights maps kind =
        applyWeights weights (combine aggregate [] maps kind) := by
      cases kind with
      | diff => exact absurd rfl hkind
      | inter | union => rfl
    rw [hweigh]
    cases weights with
    | nil => exact hplain
    | cons w ws =>
      obtain ⟨hw, hmul⟩ := hvalid.weighs w rfl
      intro m x hx
      change ((combine aggregate [] maps kind).map fun _ y => y.mul w)[m]? = some x at hx
      rw [Std.ExtTreeMap.getElem?_map, Option.map_eq_some_iff] at hx
      obtain ⟨y, hy, rfl⟩ := hx
      exact F64.isNan_mul (hplain m y hy) hw (hmul m y hy)

/-! ## The invariant -/

/-- The scores are numbers, and no member is missing in the count. -/
structure Sound (sc : ScoreMap) (count : Option Nat) : Prop where
  numbers : Numbers sc
  counted : ∃ slack, Counted slack sc count

theorem counted_of_le (hge : sc.size ≤ count.getD 0) (hsmall : count.getD 0 < 2 ^ 32) :
    ∃ slack, Counted slack sc count :=
  ⟨count.getD 0, hge, Nat.le_add_left _ _, hsmall⟩

theorem invariant_sound : Invariant Sound where
  absent := ⟨numbers_empty, 0, (invariant_counted 0).absent⟩
  small h := by
    obtain ⟨slack, hcount⟩ := h.counted
    exact hcount.small
  gone h := by
    obtain ⟨slack, hcount⟩ := h.counted
    exact (invariant_counted slack).gone hcount
  popped {sc count m x} h hx := by
    obtain ⟨slack, hcount⟩ := h.counted
    exact ⟨h.numbers.eraseAll [m], slack, (invariant_counted slack).popped hcount hx⟩
  effect {sc count op} h hop := by
    obtain ⟨slack, hcount⟩ := h.counted
    intro eff heff
    obtain ⟨ms, hms⟩ := effect_scores hop eff heff
    exact ⟨hms ▸ h.numbers.eraseAll ms, slack, hcount.effect (.inr hop) eff heff⟩

/-- A sum that is a NaN is refused. -/
theorem Sound.zincrby {increment : F64} {member : Bytes} (h : Sound sc count)
    (hroom : count.getD 0 + 1 < 2 ^ 32) : Yields (fun eff => Sound eff.scores eff.count)
      (Op.effect sc count (.zincrby increment member)) := by
  obtain ⟨slack, hcount⟩ := h.counted
  intro eff heff
  refine ⟨?_, slack, hcount.effect (.inl hroom) eff heff⟩
  simp only [Op.effect] at heff
  split at heff
  · cases heff
  · rename_i hnan
    cases heff
    exact h.numbers.insert (Bool.not_eq_true _ |>.mp hnan) member

theorem isNan_of_parseScore {text : Bytes} (h : parseScore text = some x) : x.isNan = false := by
  have hfilter := (Option.filter_eq_some_iff.mp h).2
  cases hx : x.isNan with
  | false => rfl
  | true =>
    rw [hx] at hfilter
    cases hfilter

theorem Numbers.apply (h : Numbers p.scores) (f : ZAddFlags) (isNewKey : Bool)
    {pair : F64 × Bytes} (hpair : pair.1.isNan = false) :
      Numbers (f.apply isNewKey p pair).scores := by
  rcases apply_cases f isNewKey p pair with heq | ⟨-, heq⟩ | ⟨-, -, heq⟩
  · rw [heq]
    exact h
  · rw [heq]
    exact h.insert hpair pair.2
  · rw [heq]
    exact h.insert hpair pair.2

theorem Numbers.foldl_apply (h : Numbers p.scores) (f : ZAddFlags) (isNewKey : Bool)
    {pairs : List (F64 × Bytes)} (hpairs : ∀ pair ∈ pairs, pair.1.isNan = false) :
    Numbers (pairs.foldl (f.apply isNewKey) p).scores := by
  induction pairs generalizing p with
  | nil => exact h
  | cons pair pairs ih =>
    rw [List.forall_mem_cons] at hpairs
    exact ih (h.apply f isNewKey hpairs.1) hpairs.2

/-- A score that is a NaN is not parsed. -/
theorem Sound.zadd {args : List Bytes} {isNewKey : Bool} (h : Sound sc count)
    (hroom : count.getD 0 + (pairMembers (parseFlags {} args).2).length < 2 ^ 32) :
    Yields (fun fp => Sound fp.2.scores (fp.2.count count)) (zaddEffect sc isNewKey args) := by
  obtain ⟨slack, hcount⟩ := h.counted
  rintro ⟨f, p⟩ heff
  obtain ⟨pairs, hp, -, hpairs⟩ := zaddEffect_cases heff
  have hspec : pairs.length ≤ (pairMembers (parseFlags {} args).2).length ∧
      ∀ pair ∈ pairs, pair.1.isNan = false := by
    rcases hpairs with rfl | hpairs
    · exact ⟨Nat.zero_le _, List.forall_mem_nil _⟩
    · obtain ⟨hmembers, hscores⟩ := pairsOf_spec hpairs
      refine ⟨by rw [← hmembers, List.length_map], fun pair hpair => ?_⟩
      obtain ⟨text, htext⟩ := hscores pair hpair
      exact isNan_of_parseScore htext
  have hsize : p.scores.size ≤ sc.size + p.added ∧ p.added ≤ pairs.length := by
    have hfold := foldl_apply_size f isNewKey pairs { scores := sc }
    rw [← hp] at hfold
    dsimp only at hfold
    omega
  have hge := hcount.ge
  have hsmall := hcount.small
  show Sound p.scores (p.count count)
  refine ⟨hp ▸ Numbers.foldl_apply h.numbers f isNewKey hspec.2, counted_of_le ?_ ?_⟩
  · unfold Progress.count
    split
    · omega
    · show _ ≤ count.getD 0 + p.added
      omega
  · unfold Progress.count
    split
    · exact hsmall
    · show count.getD 0 + p.added < _
      omega

/-! ## Runs -/

/-- The count in the sentinel of a key. -/
def countIn (s : Store) (k : Bytes) : Nat :=
  match s[k]? with
  | none => 0
  | some row => ofBeBytes ((payload row).toOption.getD [])

theorem countIn_stored (h : Stored layout s C) (hpub : IsPublic k) :
    countIn s k = ((C k).map (·.2.count)).getD 0 := by
  unfold countIn
  cases hk : C k with
  | none =>
    rw [h.absent hpub hk]
    rfl
  | some Pz =>
    obtain ⟨row, hrow, -, hsent⟩ := h.isSentinel hk
    rw [hrow]
    show ofBeBytes ((payload row).toOption.getD []) = Pz.2.count
    rw [hsent.content_eq]
    show ofBeBytes (beBytes 4 Pz.2.count) = _
    rw [ofBeBytes_beBytes]
    exact Nat.mod_eq_of_lt Pz.2.count_lt

/-- A sorted set can be made under the key, or get more members. -/
structure HasRoom (s : Store) (env : Nat → Tick) (db : Int) (name : Bytes) (adds : Nat) : Prop where
  db_lt : db < 2 ^ 31
  fresh : ∀ n, idUnused s (env n) = true
  small : countIn s (publicKey db name) + adds < 2 ^ 32

/-- **The condition for a command.** The scores in the sources and the weights of a result that
is stored meet the condition. No count passes 2³², and ids are not drawn twice. -/
def StoresNumbers (s : Store) (a : Action) : Prop :=
  match a.command with
  | .zset db name (.zincrby _ _) => HasRoom s a.env db name 1
  | .zadd db name args => HasRoom s a.env db name (pairMembers (parseFlags {} args).2).length
  | .zsetStore db kind dest aggregate weights names =>
    HasRoom s a.env db dest 0 ∧
      ∀ maps, (exec (loadMaps ((names.map (publicKey db)).map .new)) a.env { view := s }).out =
          .ok maps →
        (combine aggregate weights maps kind).size < 2 ^ 32 ∧
          (kind ≠ .diff → ValidSources aggregate weights kind maps)
  | .zrangestore db dest _ _ _ => HasRoom s a.env db dest 0
  | .key cmd => cmd.NamesDb
  | _ => True

/-- **One command keeps the scores numbers.** -/
theorem StoresNumbers.step (hmeets : StoresNumbers s a) (hkept : Kept Sound s)
    (hstep : step ln s a = some s') : Kept Sound s' := by
  obtain ⟨C, h, hall⟩ := hkept
  obtain ⟨command, waiter, env⟩ := a
  have hsound (k : Bytes) := hall.at invariant_sound k
  have hmake {db : Int} {name : Bytes} {adds : Nat} (hroom : HasRoom s env db name adds) :
      CanMakeIn C env db := ⟨hroom.db_lt, h.drawsFresh fun x ⟨n, hn⟩ => hn ▸ hroom.fresh n⟩
  have hsmall {db : Int} {name : Bytes} {adds : Nat} (hroom : HasRoom s env db name adds) :
      ((C (publicKey db name)).map (·.2.count)).getD 0 + adds < 2 ^ 32 := by
    rw [← countIn_stored h ⟨db, name, rfl⟩]
    exact hroom.small
  refine Grows.step invariant_sound h hall ?_ hstep
  cases command with
  | zset db name op =>
    cases op with
    | zincrby increment member => exact ⟨hmake hmeets, (hsound _).zincrby (hsmall hmeets)⟩
    | _ => trivial
  | zadd db name args => exact ⟨hmake hmeets, (hsound _).zadd (hsmall hmeets)⟩
  | bzpop | zsetOp => trivial
  | zsetStore db kind dest aggregate weights names =>
    refine ⟨hmake hmeets.1, fun map hmap => ?_⟩
    have hfound : ∀ key ∈ names.map (publicKey db), Found (answers env) s key (C key) := by
      intro key hkey
      obtain ⟨name, -, rfl⟩ := List.mem_map.mp hkey
      exact found_of_stored h ⟨db, name, rfl⟩
    have hcombined := hmap.symm.trans (out_eq_of_wp (wp_map hfound fun _ _ => rfl))
    obtain ⟨hsize, hvalid⟩ := hmeets.2 _ (out_eq_of_wp (wp_loadMaps hfound fun _ _ => rfl))
    rw [Except.ok.injEq] at hcombined
    subst hcombined
    refine ⟨ValidSources.numbers hvalid fun map hmap => ?_, counted_of_le (Nat.le_refl _) hsize⟩
    obtain ⟨key, -, rfl⟩ := List.mem_map.mp hmap
    exact (hsound key).numbers
  | zrangestore db dest src start stop =>
    have hsub := sublist_inRanks start stop (ranked (scoresIn (C (publicKey db src))))
    obtain ⟨hnumbers, slack, hcount⟩ := hsound (publicKey db src)
    have hlen := hsub.length_le
    have hge := hcount.ge
    have hlt := hcount.small
    rw [length_ranked] at hlen
    refine ⟨hmake hmeets, Numbers.scoresOf (fun e he => ?_) numbers_empty, counted_of_le ?_ ?_⟩
    · exact hnumbers e.member e.score (mem_ranked.mp (hsub.subset he))
    · exact Nat.le_of_eq (size_scoresOf ((nodup_ranked _).sublist (hsub.map _)))
    · show List.length _ < _
      omega
  | key cmd => exact hmeets

/-! ## The order of the members -/

/-- The order by number, then by member. -/
def numberCmp : MemberScore → MemberScore → Ordering :=
  compareLex (compareOn fun e => e.score.orderKey) (compareOn (·.member))

instance : Std.TransCmp numberCmp := inferInstanceAs (Std.TransCmp (compareLex _ _))

theorem memberLe_of_numbers {a b : MemberScore} (ha : a.score.isNan = false)
    (hb : b.score.isNan = false) : memberLe a b = (numberCmp a b).isLE := by
  have hcmp : a.score.partialCmp b.score = some (compare a.score.orderKey b.score.orderKey) := by
    rw [F64.partialCmp, ha, hb]
    rfl
  have hlex : numberCmp a b =
      (compare a.score.orderKey b.score.orderKey).then (compare a.member b.member) := rfl
  rw [memberLe, hcmp, hlex]
  cases compare a.score.orderKey b.score.orderKey <;> rfl

/-- The comparison that sorts members is a total order on them. -/
structure Ordered (es : List MemberScore) : Prop where
  total : ∀ a ∈ es, ∀ b ∈ es, memberLe a b = true ∨ memberLe b a = true
  trans : ∀ a ∈ es, ∀ b ∈ es, ∀ c ∈ es, memberLe a b = true → memberLe b c = true → memberLe a c =
    true
  antisymm : ∀ a ∈ es, ∀ b ∈ es, memberLe a b = true → memberLe b a = true → a = b

theorem ordered_of_numbers (hnumbers : ∀ e ∈ es, e.score.isNan = false)
    (hnodup : (es.map (·.member)).Nodup) : Ordered es where
  total a ha b hb := by
    have hswap : numberCmp b a = (numberCmp a b).swap := Std.OrientedCmp.eq_swap
    rw [memberLe_of_numbers (hnumbers a ha) (hnumbers b hb),
      memberLe_of_numbers (hnumbers b hb) (hnumbers a ha), hswap]
    cases numberCmp a b
    · exact .inl rfl
    · exact .inl rfl
    · exact .inr rfl
  trans a ha b hb c hc := by
    rw [memberLe_of_numbers (hnumbers a ha) (hnumbers b hb),
      memberLe_of_numbers (hnumbers b hb) (hnumbers c hc),
      memberLe_of_numbers (hnumbers a ha) (hnumbers c hc)]
    exact Std.TransCmp.isLE_trans
  antisymm a ha b hb hab hba := by
    rw [memberLe_of_numbers (hnumbers a ha) (hnumbers b hb)] at hab
    rw [memberLe_of_numbers (hnumbers b hb) (hnumbers a ha)] at hba
    have heq : numberCmp a b = .eq := Std.OrientedCmp.isLE_antisymm hab hba
    have hmember : a.member = b.member := by
      change (compare a.score.orderKey b.score.orderKey).then (compare a.member b.member) =
        .eq at heq
      exact Std.LawfulEqOrd.eq_of_compare (Ordering.then_eq_eq.mp heq).2
    exact List.inj_on_of_nodup_map hnodup ha hb hmember

/-- The order of the score index is ascending in the numbers. -/
theorem le_of_entryCmp {a b : MemberScore} (ha : a.score.isNan = false)
    (hb : b.score.isNan = false) (h : entryCmp a b = .lt) : a.score.le b.score = true := by
  unfold F64.le F64.lt F64.partialCmp
  rw [ha, hb]
  rcases Int.lt_trichotomy a.score.orderKey b.score.orderKey with hlt | heq | hgt
  · simp [Int.compare_eq_lt.mpr hlt]
  · simp [heq]
  · rw [entryCmp_eq, Nat.compare_eq_gt.mpr (scoreRank_lt_of_orderKey_lt hgt)] at h
    cases h

/-- The members of a key, in the order in which the commands that range, rank and pop load
them: the rows of the two indexes are theirs, no score is a NaN, and the order is total and
ascending. -/
structure InNumbers (s : Store) (k : Bytes) (es : List MemberScore) : Prop where
  members : (memberRows s k).Perm
    (es.map fun e => ((nodeOf s k).memberKey e.member, memberRow e.score))
  scores : (scoreRows s k).Perm
    (es.map fun e => ((nodeOf s k).scoreKey e.score e.member, scoreRow))
  numbers : ∀ e ∈ es, e.score.isNan = false
  ordered : Ordered es
  loaded : ∀ env, (exec (loadAllMembers (.new k)) env { view := s }).out = .ok es
  ascending : es.Pairwise fun a b => a.score.le b.score = true

/-- **Scores are numbers**, in every run from the empty store whose commands all meet the
condition. -/
theorem scores_are_numbers (ln : F64 → F64) (hr : Reach (step ln) StoresNumbers ∅ s) (db : Int)
    (name : Bytes) : ∃ es, InNumbers s (publicKey db name) es := by
  obtain ⟨C, h, hall⟩ : Kept Sound s :=
    hr.inv (I := Kept Sound) ⟨_, stored_empty, fun _ _ _ hk => by cases hk⟩
      fun _ _ _ hkept hmeets hstep => hmeets.step hkept hstep
  have hpub : IsPublic (publicKey db name) := ⟨db, name, rfl⟩
  let sc := scoresIn (C (publicKey db name))
  have hnumbers : ∀ e ∈ ranked sc, e.score.isNan = false := fun e he =>
    (hall.at invariant_sound _).numbers e.member e.score (mem_ranked.mp he)
  obtain ⟨hmembers, hscores⟩ := rows_of_stored h hpub
  refine ⟨ranked sc, hmembers.trans ((ranked_perm sc).map _).symm,
    hscores.trans ((ranked_perm sc).map _).symm, hnumbers,
    ordered_of_numbers hnumbers (nodup_ranked sc), fun env => ?_, ?_⟩
  · have hfound : Found (answers env) s (publicKey db name) (C (publicKey db name)) :=
      found_of_stored h hpub
    exact out_eq_of_wp (hfound.wp_loadAllMembers (.inl rfl) fun _ _ => rfl)
  · exact (ranked_ranked sc).imp_of_mem fun ha hb hab =>
      le_of_entryCmp (hnumbers _ ha) (hnumbers _ hb) hab

/-- Two infinities in one sorted set. -/
theorem scores_are_numbers_infinite : ∃ s, run (step fun x => x) ∅
      [atRand 1 (.zadd 0 (ascii "z") (words ["inf", "a", "-inf", "b"]))] = some s ∧
      ∃ es, InNumbers s (publicKey 0 (ascii "z")) es := by
  have hfresh : idUnused ∅ { now := 1, rand := 1 } = true := by decide +kernel
  have hsmall : countIn ∅ (publicKey 0 (ascii "z")) + 2 < 2 ^ 32 := by decide +kernel
  have hok : StoresNumbers ∅ (atRand 1 (.zadd 0 (ascii "z") (words ["inf", "a", "-inf", "b"]))) :=
    ⟨by decide, fun _ => hfresh, hsmall⟩
  have hrun : (step (fun x => x) ∅
      (atRand 1 (.zadd 0 (ascii "z") (words ["inf", "a", "-inf", "b"])))).isSome = true := by
    decide +kernel
  obtain ⟨s, hstep⟩ := Option.isSome_iff_exists.mp hrun
  exact ⟨s, by simp [run, hstep],
    scores_are_numbers (fun x => x) (.next .start hok hstep) 0 (ascii "z")⟩

/-- The sum of two infinities is stored. -/
theorem nan_is_stored :
    replies [("zadd", words ["a", "inf", "x"]), ("zadd", words ["b", "-inf", "x"]),
        ("zunionstore", words ["c", "2", "a", "b"]), ("zscore", words ["c", "x"])] =
      [some (.integer 1), some (.integer 1), some (.integer 1), some (.bulk (ascii "NaN"))] := by
  decide +kernel

end Invar.Zset
