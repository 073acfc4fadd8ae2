import Mathlib.Data.EReal.Operations
import Invar.Redis.Requests
import Invar.Redis.ZsetSpecs

/-!
# Set algebra on sorted sets

The commands over several sorted sets load the scores of each, combine them and sort. What
they compute from the scores is written once for every arithmetic: with that of `f64` it is
what the program does, with that of the extended reals it is compared with the weighted
aggregate.
-/

namespace Invar.Zset

open StoreProg TxProg FiniteMap Ieee754 Requests

/-! ## Loading -/

variable {s : Store} {k : Bytes} {keys : List Bytes} {o : Option (Place × SortedSet)}
  {C : Bytes → Option (Place × SortedSet)} {A : Tick → Prop} {E : Post DbError} {t : Txn Bytes Row}

theorem foldl_ranked (sc : ScoreMap) :
    (ranked sc).foldl (fun map e => map.insert e.member e.score) ∅ = sc := by
  have hscores := scoresOf_perm (ranked_perm sc)
  rwa [scoresOf, insertAll, List.foldl_map] at hscores

variable {Q : Post ScoreMap} {w : ℝ}

theorem Found.wp_loadZsetMap (h : Found A t.view k o)
    (hQ : ∀ t', t'.view = t.view → Q (scoresIn o) t') : wp A (loadZsetMap (.new k)) Q E t := by
  unfold loadZsetMap
  rw [wp_seq]
  refine h.wp_resolved (.inl rfl) fun t₁ h₁ => ?_
  rw [wp_seq]
  refine Found.wp_loadAllMembers (h₁ ▸ h) (.inr rfl) fun t₂ h₂ => ?_
  rw [foldl_ranked]
  exact hQ t₂ (h₂.trans h₁)

theorem wp_loadMaps {Q : Post (List ScoreMap)} (h : ∀ k ∈ keys, Found A t.view k (C k))
    (hQ : ∀ t', t'.view = t.view → Q (keys.map fun k => scoresIn (C k)) t') :
    wp A (loadMaps (keys.map .new)) Q E t := by
  induction keys generalizing t Q with
  | nil => exact hQ t rfl
  | cons k keys ih =>
    rw [List.forall_mem_cons] at h
    show wp A ((loadZsetMap (.new k)).bind fun map =>
      (loadMaps (keys.map .new)).bind fun maps => pure (map :: maps)) _ _ _
    rw [wp_bind]
    refine h.1.wp_loadZsetMap fun t₁ h₁ => ?_
    rw [wp_bind]
    exact ih (h₁ ▸ h.2) fun t₂ h₂ => hQ t₂ (h₂.trans h₁)

/-- What the commands compute from the scores of their sources. -/
def combine (aggregate : Bytes) (weights : List F64) (maps : List ScoreMap) : SetOpKind → ScoreMap
  | .diff =>
    match maps with
    | [] => ∅
    | first :: others => first.filter fun m _ => !others.any (·.contains m)
  | .inter => applyWeights weights (intersectScores aggregate maps)
  | .union => applyWeights weights (unionScores aggregate maps)

theorem wp_map {aggregate : Bytes} {weights : List F64} {kind : SetOpKind}
    (h : ∀ k ∈ keys, Found A t.view k (C k))
    (hQ : ∀ t', t'.view = t.view →
      Q (combine aggregate weights (keys.map fun k => scoresIn (C k)) kind) t') :
    wp A (SetOp.map { nodes := keys.map .new, aggregate, weights, kind }) Q E t := by
  cases kind with
  | diff =>
    show wp A ((loadMaps _).bind _) _ _ _
    rw [wp_bind]
    refine wp_loadMaps h fun t' ht' => ?_
    have hQ := hQ t' ht'
    cases hmaps : keys.map fun k => scoresIn (C k) with
    | nil =>
      rw [hmaps] at hQ
      exact hQ
    | cons first others =>
      rw [hmaps] at hQ
      exact hQ
  | inter | union =>
    show wp A ((loadMaps _).bind _) _ _ _
    rw [wp_bind]
    exact wp_loadMaps h hQ

/-- A member of every source has a score in each. -/
theorem mapM_getElem? {α : Type} (maps : List (Std.ExtTreeMap Bytes α)) (m : Bytes) :
    ((∀ map ∈ maps, m ∈ map) → (maps.mapM fun map => map[m]?) = some (maps.filterMap (·[m]?))) ∧
      ((¬∀ map ∈ maps, m ∈ map) → (maps.mapM fun map => map[m]?) = none) := by
  induction maps with
  | nil => exact ⟨fun _ => rfl, fun h => absurd (List.forall_mem_nil _) h⟩
  | cons map maps ih =>
    rw [List.mapM_cons, List.forall_mem_cons, List.filterMap_cons,
      Std.ExtTreeMap.mem_iff_isSome_getElem?]
    cases hm : map[m]? with
    | none => exact ⟨fun h => absurd h.1 Bool.false_ne_true, fun _ => rfl⟩
    | some x =>
      constructor
      · intro h
        rw [ih.1 h.2]
        rfl
      · intro h
        rw [ih.2 fun hrest => h ⟨rfl, hrest⟩]
        rfl

/-- A score before it is weighed is aggregated from the scores of the member in the sources, or
is the only one. -/
theorem getElem?_combine {aggregate : Bytes} {maps : List ScoreMap} {kind : SetOpKind}
    (hkind : kind ≠ .diff) {m : Bytes} {x : F64}
    (h : (combine aggregate [] maps kind)[m]? = some x) :
    x = aggregateScores aggregate (maps.filterMap (·[m]?)) ∨ x ∈ maps.filterMap (·[m]?) := by
  cases kind with
  | diff => exact absurd rfl hkind
  | inter =>
    change (intersectScores aggregate maps)[m]? = some x at h
    cases maps with
    | nil => simp [intersectScores] at h
    | cons first others =>
      rw [intersectScores, Std.ExtTreeMap.getElem?_filterMap'] at h
      obtain ⟨_, -, h⟩ := Option.bind_eq_some_iff.mp h
      obtain ⟨hall, hnone⟩ := mapM_getElem? (first :: others) m
      by_cases hm : ∀ map ∈ first :: others, m ∈ map
      · rw [hall hm, Option.map_some] at h
        exact .inl (Option.some.inj h).symm
      · rw [hnone hm] at h
        cases h
  | union =>
    change (unionScores aggregate maps)[m]? = some x at h
    have hgather : gatherScores maps = gather maps := rfl
    rw [unionScores, Std.ExtTreeMap.getElem?_map, hgather, getElem?_gather] at h
    generalize maps.filterMap (·[m]?) = xs at h ⊢
    rcases xs with _ | ⟨y, _ | ⟨z, ys⟩⟩
    · cases h
    · exact .inr (List.mem_singleton.mpr (Option.some.inj h).symm)
    · exact .inl (Option.some.inj h).symm

/-! ## Arithmetics -/

/-- The operations on scores that the commands use, with what their folds start from. -/
structure Arithmetic (α : Type) where
  add : α → α → α
  mul : α → α → α
  min : α → α → α
  max : α → α → α
  zero : α
  top : α
  bot : α

inductive Aggregate where
  | sum | min | max

def Aggregate.word : Aggregate → Bytes
  | .sum => ascii "sum"
  | .min => ascii "min"
  | .max => ascii "max"

namespace Arithmetic

variable {α : Type} (ar : Arithmetic α)

def op : Aggregate → α → α → α
  | .sum => ar.add
  | .min => ar.min
  | .max => ar.max

def start : Aggregate → α
  | .sum => ar.zero
  | .min => ar.top
  | .max => ar.bot

def aggregate (kind : Aggregate) (scores : List α) : α := scores.foldl (ar.op kind) (ar.start kind)

def weigh (weights : List α) (map : Std.ExtTreeMap Bytes α) : Std.ExtTreeMap Bytes α :=
  match weights with
  | [] => map
  | w :: _ => map.map fun _ x => ar.mul x w

def inter (kind : Aggregate) : List (Std.ExtTreeMap Bytes α) → Std.ExtTreeMap Bytes α
  | [] => ∅
  | first :: others =>
    first.filterMap fun m _ =>
      ((first :: others).mapM fun map => map[m]?).map (ar.aggregate kind)

def union (kind : Aggregate) (maps : List (Std.ExtTreeMap Bytes α)) : Std.ExtTreeMap Bytes α :=
  (gather maps).map fun _ scores =>
    match scores with
    | [score] => score
    | scores => ar.aggregate kind scores

end Arithmetic

abbrev ExactMap := Std.ExtTreeMap Bytes EReal

/-- The extended reals. -/
noncomputable def exact : Arithmetic EReal where
  add := (· + ·)
  mul := (· * ·)
  min := min
  max := max
  zero := 0
  top := ⊤
  bot := ⊥

/-- The aggregate of numbers. -/
noncomputable def Aggregate.of : Aggregate → List EReal → EReal
  | .sum, xs => xs.sum
  | .min, xs => ⨅ x ∈ xs, x
  | .max, xs => ⨆ x ∈ xs, x

/-- The weighted scores of a member, in the sources that have it. -/
noncomputable def terms (weights : List EReal) (maps : List ExactMap) (m : Bytes) :
    List EReal :=
  (weights.zip maps).filterMap fun wm => (wm.2[m]?).map (wm.1 * ·)

/-- Without weights all of them are 1. -/
noncomputable def weightsFor (maps : List ExactMap) : List EReal → List EReal
  | [] => List.replicate maps.length 1
  | weights => weights

variable {kind : Aggregate} {xs : List EReal} {maps : List ExactMap} {m : Bytes}

theorem foldl_inf (a : EReal) (xs : List EReal) : xs.foldl min a = a ⊓ ⨅ x ∈ xs, x := by
  induction xs generalizing a with
  | nil => simp
  | cons x xs ih =>
    rw [List.foldl_cons, ih, inf_assoc]
    simp [iInf_or, iInf_inf_eq]

theorem foldl_sup (a : EReal) (xs : List EReal) : xs.foldl max a = a ⊔ ⨆ x ∈ xs, x := by
  induction xs generalizing a with
  | nil => simp
  | cons x xs ih =>
    rw [List.foldl_cons, ih, sup_assoc]
    simp [iSup_or, iSup_sup_eq]

/-- The folds of the program are the aggregates. -/
theorem aggregate_exact (kind : Aggregate) (xs : List EReal) :
    exact.aggregate kind xs = kind.of xs := by
  cases kind with
  | sum => exact List.sum_eq_foldl.symm
  | min =>
    refine (foldl_inf ⊤ xs).trans ?_
    rw [top_inf_eq]
    rfl
  | max =>
    refine (foldl_sup ⊥ xs).trans ?_
    rw [bot_sup_eq]
    rfl

theorem op_start (kind : Aggregate) (x : EReal) : exact.op kind (exact.start kind) x = x := by
  cases kind with
  | sum => exact zero_add x
  | min => exact top_inf_eq x
  | max => exact bot_sup_eq x

noncomputable def Aggregate.op : Aggregate → ℝ → ℝ → ℝ
  | .sum => (· + ·)
  | .min => Min.min
  | .max => Max.max

theorem exists_mem_iff : (∃ map ∈ maps, m ∈ map) ↔ maps.filterMap (·[m]?) ≠ [] := by
  rw [ne_eq, List.filterMap_eq_nil_iff]
  push Not
  simp only [Std.ExtTreeMap.mem_iff_isSome_getElem?, Option.isSome_iff_ne_none]

theorem getElem?_union (kind : Aggregate) (maps : List ExactMap) (m : Bytes) (x : EReal) :
    (exact.union kind maps)[m]? = some x ↔ (∃ map ∈ maps, m ∈ map) ∧
      x = kind.of (maps.filterMap (·[m]?)) := by
  have hone (y : EReal) : exact.aggregate kind [y] = y := op_start kind y
  rw [exists_mem_iff, Arithmetic.union, Std.ExtTreeMap.getElem?_map, getElem?_gather,
    ← aggregate_exact]
  -- a score that is alone is not aggregated, which makes no difference here
  rcases maps.filterMap (·[m]?) with _ | ⟨y, _ | ⟨z, ys⟩⟩
  · simp [ofList]
  · rw [hone]
    simp [ofList, eq_comm]
  · simp [ofList, eq_comm]

/-- Each member of some source (of every source) has the aggregate of its weighted scores. -/
def Weighted (kind : Aggregate) (weights : List EReal) (maps : List ExactMap) :
    Prop :=
  ∀ (m : Bytes) (x : EReal),
    ((exact.weigh weights (exact.union kind maps))[m]? = some x ↔
      (∃ map ∈ maps, m ∈ map) ∧ x = kind.of (terms (weightsFor maps weights) maps m)) ∧
    ((exact.weigh weights (exact.inter kind maps))[m]? = some x ↔
      (maps ≠ [] ∧ ∀ map ∈ maps, m ∈ map) ∧
        x = kind.of (terms (weightsFor maps weights) maps m))

/-- The number that a score or a weight is. -/
noncomputable def value (x : F64) : EReal :=
  if x.isInfinite then if x.signBit then ⊥ else ⊤
  else ((if x.signBit then -1 else 1) * (x.fraction.1 / x.fraction.2 : ℝ) : ℝ)

noncomputable def values (map : ScoreMap) : ExactMap :=
  map.map fun _ x => value x

/-- One member. -/
def single (x : F64) : ScoreMap := (∅ : ScoreMap).insert (ascii "x") x

/-- A source with one member at most. -/
def source (score : Option F64) : ScoreMap := score.elim ∅ single

theorem getElem?_source (score : Option F64) :
    (values (source score))[ascii "x"]? = score.map value := by
  cases score <;> simp [values, source, single]

variable {weights : List EReal} {v : EReal} {n : Nat}

/-- What the first weight makes of the aggregate. -/
theorem Weighted.eq {scores : List (Option F64)} {xs : List F64}
    (h : Weighted kind (v :: weights) ((scores.map source).map values))
    (hxs : scores.filterMap id = xs) (hne : xs ≠ []) : kind.of (xs.map value) * v =
      kind.of (terms (v :: weights) ((scores.map source).map values) (ascii "x")) := by
  have hscores : ((scores.map source).map values).filterMap (·[ascii "x"]?) =
      xs.map value := by
    rw [← hxs, List.map_map, List.filterMap_map, List.map_filterMap]
    exact List.filterMap_congr fun score _ => getElem?_source score
  rw [← hscores]
  refine ((h (ascii "x") _).1.mp ?_).2
  show ((exact.union kind _).map fun _ y => y * v)[ascii "x"]? = _
  rw [Std.ExtTreeMap.getElem?_map, (getElem?_union kind _ _ _).mpr ⟨exists_mem_iff.mpr ?_, rfl⟩]
  · rfl
  · rwa [hscores, ne_eq, List.map_eq_nil_iff]

end Invar.Zset
