import Invar.Redis.CommandRuns
import Invar.Redis.ZsetEffects

/-!
# Runs of commands on sorted sets

A property of single sorted sets that the effects keep (`Invariant`) holds of every sorted
set of every run whose commands keep it where they add members (`Grows`). The store of such
a run is described by a catalog.
-/

namespace Invar.Zset

open StoreProg TxProg Transition Ieee754 FiniteMap Fallible

/-! ## The commands that read -/

theorem readOnly_resolved (n : NodeRef) : ReadOnly n.resolved := by
  unfold NodeRef.resolved
  exact .ite (readOnly_pure _) ((readOnly_resolvePrefix _ _).bind fun _ => readOnly_pure _)

theorem readOnly_zsetCount (k : Bytes) : ReadOnly (zsetCount k) := by
  refine (readOnly_get k).bind fun item => ?_
  cases item with
  | none => exact readOnly_pure _
  | some item => exact .ite (readOnly_fail _) ((readOnly_ofExcept _).bind fun _ => readOnly_pure _)

theorem readOnly_loadAllMembers (n : NodeRef) : ReadOnly (loadAllMembers n) := by
  refine (readOnly_resolved n).bind fun n => (readOnly_zsetCount _).bind fun count => ?_
  cases count with
  | none => exact readOnly_pure _
  | some count => exact (readOnly_scan _).bind fun _ => .ite (readOnly_fail _) (readOnly_pure _)

theorem readOnly_loadMaps (ns : List NodeRef) : ReadOnly (loadMaps ns) := by
  induction ns with
  | nil => exact readOnly_pure _
  | cons n ns ih =>
    exact ((readOnly_resolved n).bind fun _ => (readOnly_loadAllMembers _).bind fun _ =>
      readOnly_pure _).bind fun _ => ih.bind fun _ => readOnly_pure _

theorem readOnly_map (op : SetOp) : ReadOnly op.map := by
  unfold SetOp.map
  split
  · refine (readOnly_loadMaps _).bind fun maps => ?_
    cases maps <;> exact readOnly_pure _
  · exact (readOnly_loadMaps _).bind fun _ => readOnly_pure _
  · exact (readOnly_loadMaps _).bind fun _ => readOnly_pure _

/-! ## Commands -/

inductive Command where
  | zset (db : Int) (name : Bytes) (op : Op)
  | zadd (db : Int) (name : Bytes) (args : List Bytes)
  | bzpop (db : Int) (names : List Bytes) (wantMin : Bool)
  | zsetOp (db : Int) (kind : SetOpKind) (aggregate : Bytes) (weights : List F64)
      (names : List Bytes) (withScores : Bool)
  | zsetStore (db : Int) (kind : SetOpKind) (dest aggregate : Bytes) (weights : List F64)
      (names : List Bytes)
  | zrangestore (db : Int) (dest src : Bytes) (start stop : Int)
  | key (cmd : KeyCommand)

def Command.data : Command → DataCommand
  | .zset db name op => .zset (publicKey db name) op
  | .zadd db name args => .zadd (publicKey db name) name args
  | .bzpop db names wantMin => .bzpop (names.map fun name => (publicKey db name, name)) wantMin
  | .zsetOp db kind aggregate weights names withScores =>
    .zsetOp kind aggregate weights (names.map (publicKey db)) withScores
  | .zsetStore db kind dest aggregate weights names =>
    .zsetStore kind (publicKey db dest) aggregate weights (names.map (publicKey db))
  | .zrangestore db dest src start stop =>
    .zrangestore (publicKey db dest) (publicKey db src) start stop
  | .key cmd => cmd.data

/-- A command, the waiter that a `ZADD` finds, and the environment. -/
structure Action where
  command : Command
  waiter : Option Bool
  env : Nat → Tick

def Action.call (a : Action) : Call :=
  { command := a.command.data, waiter := a.waiter, env := a.env }

def step (ln : F64 → F64) (s : Store) (a : Action) : Option Store := a.call.step ln s

/-! ## What a command leaves of a catalog -/

variable {ln : F64 → F64} {s s' : Store} {C : Catalog SortedSet} {k : Bytes} {P : Place}
  {sc : ScoreMap} {count : Option Nat} {A : Tick → Prop} {E : Post DbError}
  {t : Txn Bytes Row} {Good : ScoreMap → Option Nat → Prop} {a : Action}

theorem found_of_stored (h : Stored layout s C) (hpub : IsPublic k) : Found A s k (C k) := by
  cases hk : C k with
  | none => exact .absent (hidden_of_none (h.absent hpub hk))
  | some Pz =>
    obtain ⟨row, hrow, hts, hsent⟩ := h.isSentinel hk
    exact .present hrow (Row.lastsFor_of_none hts A) hsent (holds_of_stored h hk)

theorem cells_empty (h : Holds s P (rowAt ∅)) (suffix : Bytes) : s[P.bytes ++ suffix]? = none := by
  rw [holds_iff.mp h]
  cases parseCell suffix with
  | none => rfl
  | some c => cases c <;> simp [rowAt]

/-- A property of a sorted set, by its scores and its count, that the commands keep which add
no members. A key without a sorted set has no scores and no count. -/
structure Invariant (Good : ScoreMap → Option Nat → Prop) : Prop where
  absent : Good ∅ none
  small : ∀ {sc n}, Good sc (some n) → n < 2 ^ 32
  gone : ∀ {sc}, Good sc none → sc = ∅
  popped : ∀ {sc count m x}, Good sc count → sc[m]? = some x →
    Good (sc.erase m) (countOf (sc.size - 1))
  effect : ∀ {sc count op}, Good sc count → (∀ increment member, op ≠ .zincrby increment member) →
    Yields (fun eff => Good eff.scores eff.count) (Op.effect sc count op)

/-- All sorted sets of the catalog have the property. -/
def All (Good : ScoreMap → Option Nat → Prop) (C : Catalog SortedSet) : Prop :=
  ∀ k P z, C k = some (P, z) → Good z.scores (some z.count)

theorem All.at (h : All Good C) (hI : Invariant Good) (k : Bytes) :
    Good (scoresIn (C k)) ((C k).map (·.2.count)) := by
  cases hk : C k with
  | none => exact hI.absent
  | some Pz => exact h k Pz.1 Pz.2 hk

theorem All.update (h : All Good C) {new : Option (Place × SortedSet)}
    (hnew : ∀ P z, new = some (P, z) → Good z.scores (some z.count)) :
    All Good (Function.update C k new) := by
  intro k' P z hk'
  by_cases hkk : k' = k
  · rw [hkk, Function.update_self] at hk'
    exact hnew P z hk'
  · rw [Function.update_of_ne hkk] at hk'
    exact h k' P z hk'

/-- The store has sorted sets with the property, and nothing else. -/
def Kept (Good : ScoreMap → Option Nat → Prop) (s : Store) : Prop :=
  ∃ C, Stored layout s C ∧ All Good C

/-- **What a command leaves is a catalog again.** -/
theorem After.kept (hafter : After A s s' k (C k) sc count) (h : Stored layout s C)
    (hall : All Good C) (hI : Invariant Good) (hpub : IsPublic k) (hgood : Good sc count)
    (hfresh : C k = none → count.isSome = true → DrawsFresh C A) :
    ∃ new, Stored layout s' (Function.update C k new) ∧ All Good (Function.update C k new) := by
  generalize ho : C k = o at hafter
  have hwritten {P : Place} {n : Nat} (hn : Good sc (some n)) (howns : Owns C k P)
      (hwithin : Within k P s s') (hrows : Holds s' P (rowAt sc))
      (hkey : s'[k]? = some (sentinelRow (beBytes 4 n) .sortedSet P.element none)) :
      ∃ new, Stored layout s' (Function.update C k new) ∧ All Good (Function.update C k new) := by
    refine ⟨some (P, ⟨sc, n, hI.small hn⟩), h.write howns hwithin hkey (holds_iff.mp hrows), ?_⟩
    refine hall.update fun P' z' hnew => ?_
    cases hnew
    exact hn
  cases hafter with
  | unchanged hs =>
    refine ⟨C k, ?_⟩
    rw [Function.update_eq_self, hs]
    exact ⟨h, hall⟩
  | dropped hother hkey =>
    refine ⟨none, h.update hpub (fun _ hnew => by cases hnew) hkey (fun _ _ hnew => by cases hnew)
      (fun _ hnew => by cases hnew) (fun Pa hPa _ => ?_) fun y hy _ _ => hother y hy,
      hall.update fun _ _ hnew => by cases hnew⟩
    rw [ho] at hPa
    cases hPa
  | @rescored R _ hat hrows =>
    obtain ⟨P, z⟩ := R
    refine hwritten hgood (h.owns ho) (hat.within k) hrows ?_
    rw [hat k (hpub.not_isPrefix P), h.sentinel hpub, ho, Option.map_some]
    rfl
  | @emptied R _ hwithin hrows hkey =>
    rw [hI.gone hgood] at hrows
    exact ⟨none, h.erase ho hwithin hkey (cells_empty hrows),
      hall.update fun _ _ hnew => by cases hnew⟩
  | @counted R _ n ts hwithin hrows hts hkey =>
    obtain ⟨row, hrow, hlast, -⟩ := h.isSentinel ho
    obtain ⟨x, y, -, -, rfl⟩ := hts row hrow
    rw [hlast] at hkey
    exact hwritten hgood (h.owns ho) hwithin hrows hkey
  | @made P _ n hdrawn hdb hwithin hrows hkey =>
    obtain ⟨x, hx, hid⟩ := hdrawn
    have howns : Owns C k P :=
      { inDb := hdb
        own := fun Pa hPa => by rw [ho] at hPa; cases hPa
        others := fun k' Pa' hk' _ => hid ▸ hfresh ho rfl x hx k' Pa' hk' }
    exact hwritten hgood howns hwithin hrows hkey

variable {db : Int} {args : List Bytes} {pairs : List (F64 × Bytes)} {isNewKey : Bool}
  {p : Progress}

theorem Stored.unused (h : Stored layout s C) (hdb : db < 2 ^ 31)
    (hfresh : DrawsFresh C A) (hpos : 0 ≤ db) : Unused A s db := fun x hx =>
  h.empty_of_fresh (P := Place.fresh db ⟨hpos, hdb⟩ x.rand) fun k' Pa' hk' => hfresh x hx k' Pa' hk'

/-! ## The commands -/

section

variable (h : Stored layout t.view C) (hall : All Good C) (hI : Invariant Good)

include h hall hI

variable {wantMin : Bool}

theorem wp_popOne_kept {n : NodeRef} {Q : Post (Option MemberScore)}
    (hpub : IsPublic k) (hn : n = .new k ∨ n = handle k (C k))
    (hQ : ∀ e t' C', Stored layout t'.view C' → All Good C' → Q e t') :
    wp A (popOne wantMin n) Q E t := by
  refine (found_of_stored h hpub).wp_popOne hpub hn (fun _ t' ht' => hQ none t' C (ht' ▸ h) hall)
    fun e he t' hafter => ?_
  have hx : (scoresIn (C k))[e.member]? = some e.score := by
    cases wantMin
    · exact mem_ranked.mp (List.mem_of_getLast? he)
    · exact mem_ranked.mp (List.mem_of_mem_head? he)
  obtain ⟨new, hnew, hgood⟩ :=
    hafter.kept h hall hI hpub (hI.popped (hall.at hI k) hx) fun hk _ => by
    rw [hk] at hx
    simp [scoresIn] at hx
  exact hQ (some e) t' _ hnew hgood

theorem wp_tryPop {keys : List (Bytes × Bytes)}
    {Q : Post (Option PopResult)} (hpub : ∀ kn ∈ keys, IsPublic kn.1)
    (hQ : ∀ r t', Kept Good t'.view → Q r t') :
    wp A (tryPop wantMin (keys.map fun kn => (.new kn.1, kn.2))) Q E t := by
  induction keys generalizing t C with
  | nil => exact hQ _ t ⟨C, h, hall⟩
  | cons kn keys ih =>
    rw [List.map_cons, tryPop_cons, wp_bind]
    refine wp_popOne_kept h hall hI (hpub kn List.mem_cons_self)
      (.inl rfl) fun e t' C' hC' hall' => ?_
    cases e with
    | some e => exact hQ _ t' ⟨C', hC', hall'⟩
    | none => exact ih hC' hall' fun kn' hkn' => hpub kn' (List.mem_cons_of_mem _ hkn')

end

/-- The handle that `ZADD` hands on is that of the sorted set. -/
theorem handle_of_records (h : Stored layout s C) (hpub : IsPublic k) (hrec : Records s k P) :
    nodeAt k P = handle k (C k) := by
  obtain ⟨row, hrow, hp⟩ := hrec
  cases hk : C k with
  | none =>
    rw [h.absent hpub hk] at hrow
    cases hrow
  | some Pz =>
    obtain ⟨row', hrow', -, hsent⟩ := h.isSentinel hk
    obtain rfl : row' = row := Option.some.inj (hrow'.symm.trans hrow)
    have heq : Pz.1.element = P.element := Except.ok.inj (hsent.place_eq.symm.trans hp)
    show NodeRef.mk k P.element = ⟨k, Pz.1.element⟩
    rw [heq]

/-- The prefix that a key of the catalog resolves to. -/
theorem resolves_of_stored (h : Stored layout s C) (hpub : IsPublic k) :
    Resolves A s k ((C k).elim (privateKey k) (·.1.bytes)) := by
  cases hk : C k with
  | none => exact .absent (hidden_of_none (h.absent hpub hk))
  | some Pz =>
    obtain ⟨row, hrow, hts, hsent⟩ := h.isSentinel hk
    exact .present hrow (Row.lastsFor_of_none hts A) hsent.place_eq

theorem Emptied.stored (hempty : Emptied s s' k ((C k).elim (privateKey k) (·.1.bytes)))
    (h : Stored layout s C) (hpub : IsPublic k) : Stored layout s' (Function.update C k none) := by
  cases hk : C k with
  | none =>
    -- nothing is under the name-derived prefix
    rw [hk] at hempty
    have hview : s' = s := by
      refine Std.ExtTreeMap.ext_getElem? fun y => ?_
      by_cases hy : y = k
      · rw [hy, hempty.key, h.absent hpub hk]
      · rcases hempty.only y hy with hsame | ⟨⟨suffix, rfl⟩, hgone⟩
        · exact hsame
        · rw [hgone]
          exact (h.legacy_empty k suffix).symm
    rw [← hk, Function.update_eq_self, hview]
    exact h
  | some Pz =>
    obtain ⟨P, z⟩ := Pz
    rw [hk] at hempty
    refine h.erase hk (fun y hy hp => ?_) hempty.key fun suffix => ?_
    · exact (hempty.only y hy).resolve_right fun hgone => hp hgone.1
    · cases hrow : s[P.bytes ++ suffix]? with
      | none =>
        rcases hempty.only _ (Place.cell_ne hpub P suffix) with hsame | hgone
        · rw [hsame, hrow]
        · exact hgone.2
      | some row =>
        refine hempty.all _ row ?_ hrow (h.lasting hrow)
        rw [holds_iff.mp (holds_of_stored h hk)] at hrow
        obtain ⟨c, hc, -⟩ := Option.bind_eq_some_iff.mp hrow
        rw [← suffix_of_parseCell hc]
        cases c with
        | member m =>
          exact .inr ((List.prefix_append_right_inj P.bytes).mpr (List.prefix_append memberTag _))
        | score e =>
          exact .inl ((List.prefix_append_right_inj P.bytes).mpr (List.prefix_append scoreTag _))

/-- Nothing is made of an absent key, unless by `ZINCRBY`. -/
theorem effect_absent {op : Op} (hop : ∀ increment member, op ≠ .zincrby increment member) :
    Yields (fun eff => eff.count = none) (op.effect ∅ none) := by
  have hremoval (gone : List MemberScore) : (removal ∅ none gone).count = none := by
    unfold removal
    split <;> rfl
  cases op with
  | zcard | zscore | zmscore | rangeByRank | rank | zrem => exact yields_ok rfl
  | zcount | rangeByScore | rangeByLex | lexCount =>
    exact (yields_self _).map fun _ _ => rfl
  | zincrby increment member => exact absurd rfl (hop increment member)
  | zrandmember n =>
    rw [Op.effect, if_pos (.inr rfl)]
    exact yields_ok rfl
  | remRangeByRank start stop =>
    refine yields_ok ?_
    rw [show ((∅ : ScoreMap).size : Int) = 0 from rfl, rangeIndexes_zero]
    rfl
  | remRangeByScore | remRangeByLex => exact (yields_self _).map fun _ _ => hremoval _
  | zpop n wantMin =>
    refine yields_ok ?_
    show countOf ((∅ : ScoreMap).size - _) = none
    rw [show (∅ : ScoreMap).size = 0 from rfl, Nat.zero_sub]
    rfl

/-- A sorted set can be made in the db. -/
structure CanMakeIn (C : Catalog SortedSet) (env : Nat → Tick) (db : Int) : Prop where
  db_lt : db < 2 ^ 31
  fresh : DrawsFresh C fun x => ∃ n, env n = x

/-- The commands that may add members keep the property. -/
def Grows (Good : ScoreMap → Option Nat → Prop) (s : Store) (C : Catalog SortedSet) (a : Action) :
    Prop :=
  match a.command with
  | .zset db name (.zincrby increment member) => CanMakeIn C a.env db ∧
      Yields (fun eff => Good eff.scores eff.count) (Op.effect (scoresIn (C (publicKey db name)))
        ((C (publicKey db name)).map (·.2.count)) (.zincrby increment member))
  | .zadd db name args => CanMakeIn C a.env db ∧
      Yields (fun fp => Good fp.2.scores (fp.2.count ((C (publicKey db name)).map (·.2.count))))
        (zaddEffect (scoresIn (C (publicKey db name))) (C (publicKey db name)).isNone args)
  | .zsetStore db kind _ aggregate weights names => CanMakeIn C a.env db ∧
      ∀ map, (exec
        (SetOp.map { nodes := (names.map (publicKey db)).map .new, aggregate, weights, kind })
        a.env { view := s }).out = .ok map → Good map (some map.size)
  | .zrangestore db _ src start stop => CanMakeIn C a.env db ∧
      let es := inRanks start stop (ranked (scoresIn (C (publicKey db src))))
      Good (scoresOf es ∅) (some es.length)
  | .key cmd => cmd.NamesDb
  | _ => True

section

variable (h : Stored layout t.view C) (hall : All Good C) (hI : Invariant Good)

include h hall hI

variable {name : Bytes}

theorem wp_zadd_kept {rawKey : Bytes} {waiter : Option Bool} (hdb : db < 2 ^ 31)
    (hk : k = publicKey db name) (hfresh : DrawsFresh C A)
    (hgood : Yields (fun fp => Good fp.2.scores (fp.2.count ((C k).map (·.2.count))))
      (zaddEffect (scoresIn (C k)) (C k).isNone args)) :
    wp A (ZAddOp.run { node := .new k, rawKey, args } waiter) (fun _ t' => Kept Good t'.view)
      (fun _ _ => True) t := by
  have hpub : IsPublic k := ⟨db, name, hk⟩
  unfold ZAddOp.run
  rw [wp_seq]
  refine (found_of_stored h hpub).wp_zaddWrite hdb hk (fun _ => Stored.unused h hdb hfresh)
    (fun P f p _ heff t' hafter hrec => ?_) (fun _ _ _ => trivial) fun _ _ _ => trivial
  obtain ⟨new, hnew, hall'⟩ := hafter.kept h hall hI hpub (hgood (f, p) heff) fun _ _ => hfresh
  split
  · rename_i wantMin hadded
    have hpos : 0 < p.added := of_decide_eq_true (Prod.mk.inj hadded).1
    rw [wp_seq]
    exact wp_popOne_kept hnew hall' hI hpub (.inr (handle_of_records hnew hpub (hrec hpos)))
      fun _ t'' C'' hC'' hall'' => ⟨C'', hC'', hall''⟩
  · exact ⟨_, hnew, hall'⟩

theorem wp_storeZsetResult_kept {es : List MemberScore} (hdb : db < 2 ^ 31)
    (hk : k = publicKey db name) (hfresh : DrawsFresh C A) (hnodup : (es.map (·.member)).Nodup)
    (hgood : Good (scoresOf es ∅) (some es.length)) :
    wp A (storeZsetResult (.new k) es) (fun _ t' => Kept Good t'.view) (fun _ _ => True) t := by
  have hpub : IsPublic k := ⟨db, name, hk⟩
  refine wp_storeZsetResult (resolves_of_stored h hpub).wp hdb hk
    (Stored.unused h hdb hfresh) hnodup
    (fun q s₁ t' hq hempty hafter => ?_) fun _ _ => trivial
  rw [hq] at hempty
  have hnone : Function.update C k none k = none := Function.update_self ..
  have hall₁ : All Good (Function.update C k none) := hall.update fun _ _ hnew => by cases hnew
  obtain ⟨new, hnew, hall'⟩ :=
    After.kept (by rw [hnone]; exact hafter)
    (hempty.stored h hpub) hall₁ hI hpub hgood fun _ _ => hfresh.erase k
  exact ⟨_, hnew, hall'⟩

theorem wp_zrangestore_kept {src : Bytes} {start stop : Int} (hdb : db < 2 ^ 31)
    (hk : k = publicKey db name) (hsrc : IsPublic src) (hfresh : DrawsFresh C A)
    (hgood : Good (scoresOf (inRanks start stop (ranked (scoresIn (C src)))) ∅)
      (some (inRanks start stop (ranked (scoresIn (C src)))).length)) :
    wp A (zrangestore (.new k) (.new src) start stop) (fun _ t' => Kept Good t'.view)
      (fun _ _ => True) t := by
  refine (found_of_stored h hsrc).wp_zrangestore fun t' ht' => ?_
  exact wp_storeZsetResult_kept (ht' ▸ h) hall hI hdb hk hfresh
    ((nodup_ranked _).sublist ((sublist_inRanks start stop _).map _)) hgood

/-- A command on one sorted set. -/
theorem wp_op_kept {op : Op} (hpub : IsPublic k)
    (hop : ∀ increment member, op ≠ .zincrby increment member) :
    wp A (op.run k) (fun _ t' => Kept Good t'.view) (fun _ _ => True) t := by
  refine wp_mono
    (Op.wp_run (found_of_stored h hpub) hpub fun i m hzincrby => absurd hzincrby (hop i m))
    (fun reply t' hdone => ?_) fun _ _ _ => trivial
  obtain ⟨eff, heff, -, hafter⟩ := hdone
  have habsent : C k = none → eff.count.isSome = true → DrawsFresh C A := fun hk hsome => by
    rw [hk] at heff
    rw [effect_absent hop eff heff] at hsome
    cases hsome
  obtain ⟨new, hnew, hall'⟩ :=
    hafter.kept h hall hI hpub (hI.effect (hall.at hI k) hop eff heff) habsent
  exact ⟨_, hnew, hall'⟩

theorem wp_zincrby_kept {increment : F64} {m : Bytes} (hdb : db < 2 ^ 31)
    (hk : k = publicKey db name) (hfresh : DrawsFresh C A)
    (hgood : Yields (fun eff => Good eff.scores eff.count)
      (Op.effect (scoresIn (C k)) ((C k).map (·.2.count)) (.zincrby increment m))) :
    wp A ((Op.zincrby increment m).run k) (fun _ t' => Kept Good t'.view) (fun _ _ => True) t := by
  have hpub : IsPublic k := ⟨db, name, hk⟩
  refine Found.wp_zincrby (found_of_stored h hpub) hdb hk (fun _ => Stored.unused h hdb hfresh)
    (fun hnan t' hafter => ?_) (fun _ _ _ => trivial) fun _ _ _ _ => trivial
  obtain ⟨new, hnew, hall'⟩ :=
    hafter.kept h hall hI hpub (hgood _ (if_neg (by simp [hnan]))) fun _ _ => hfresh
  exact ⟨_, hnew, hall'⟩

end

/-- The result that is stored is the one that the condition speaks of. -/
theorem kept_of_zsetStore {op : SetOp} {dest : Bytes} {env : Nat → Tick}
    (h : Stored layout s C) (hall : All Good C) (hI : Invariant Good) (hmake : CanMakeIn C env db)
    (hresult : ∀ map, (exec op.map env { view := s }).out = .ok map → Good map (some map.size))
    (reply : RespValue)
    (hout : (exec (op.store (.new (publicKey db dest))) env { view := s }).out = .ok reply) :
    Kept Good (exec (op.store (.new (publicKey db dest))) env { view := s }).txn.view := by
  unfold SetOp.store at hout ⊢
  rw [Prog.bind_eq] at hout ⊢
  obtain ⟨map, hmap, -⟩ := exec_bind_ok hout
  obtain ⟨env', t', hrun, hview, henv⟩ := exec_bind_of_readOnly (readOnly_map op)
    (fun map => storeZsetResult (.new (publicKey db dest)) (zsetToSlice map)) hmap
  rw [hrun] at hout ⊢
  have hscores : scoresOf (zsetToSlice map) ∅ = map :=
    scoresOf_perm (List.mergeSort_perm (entriesOf map) memberLe)
  have hwp : wp (fun x => ∃ n, env n = x)
      (storeZsetResult (.new (publicKey db dest)) (zsetToSlice map))
      (fun _ t' => Kept Good t'.view) (fun _ _ => True) t' :=
    wp_storeZsetResult_kept (hview ▸ h) hall hI hmake.db_lt rfl hmake.fresh
      (nodup_zsetToSlice map) (by rw [hscores, length_zsetToSlice]; exact hresult map hmap)
  exact (exec_of_wp hwp henv).1 reply hout

/-- **One command keeps the property.** -/
theorem Grows.step (hI : Invariant Good) (h : Stored layout s C) (hall : All Good C)
    (hgrows : Grows Good s C a) (hstep : step ln s a = some s') : Kept Good s' := by
  obtain ⟨command, waiter, env⟩ := a
  refine Call.step_of_end ⟨C, h, hall⟩ ?_ hstep
  change ∀ reply, (exec (command.data.run ln waiter) env { view := s }).out = .ok reply →
    Kept Good (exec (command.data.run ln waiter) env { view := s }).txn.view
  have hend : ∀ {p : TxProg RespValue}, wp (fun x => ∃ n, env n = x) p
      (fun _ t' => Kept Good t'.view) (fun _ _ => True) { view := s } →
      ∀ reply, (exec p env { view := s }).out = .ok reply →
        Kept Good (exec p env { view := s }).txn.view :=
    fun hwp => (exec_of_wp hwp fun n => ⟨n, rfl⟩).1
  cases command with
  | zsetStore db kind dest aggregate weights names =>
    exact kept_of_zsetStore h hall hI hgrows.1 hgrows.2
  | zset db name op =>
    refine hend ?_
    show wp _ (op.run (publicKey db name)) _ _ _
    by_cases hop : ∃ increment member, op = .zincrby increment member
    · obtain ⟨increment, member, rfl⟩ := hop
      exact wp_zincrby_kept
        h hall hI hgrows.1.db_lt rfl hgrows.1.fresh hgrows.2
    · exact wp_op_kept h hall hI ⟨db, name, rfl⟩ fun i m heq => hop ⟨i, m, heq⟩
  | zadd db name args =>
    exact hend
      (wp_zadd_kept h hall hI hgrows.1.db_lt rfl hgrows.1.fresh hgrows.2)
  | bzpop db names wantMin =>
    refine hend ?_
    show wp _ ((tryPop wantMin _).bind _) _ _ _
    rw [wp_bind]
    refine wp_tryPop h hall hI (fun kn hkn => ?_) fun _ _ hkept => hkept
    obtain ⟨name, -, rfl⟩ := List.mem_map.mp hkn
    exact ⟨db, name, rfl⟩
  | zsetOp db kind aggregate weights names withScores =>
    exact hend (wp_of_readOnly ((readOnly_map _).bind fun _ => readOnly_pure _)
      (fun _ t' hview => ⟨C, hview ▸ h, hall⟩) fun _ _ _ => trivial)
  | zrangestore db dest src start stop =>
    exact hend (wp_zrangestore_kept h hall hI hgrows.1.db_lt rfl ⟨db, src, rfl⟩
      hgrows.1.fresh hgrows.2)
  | key cmd =>
    refine hend ?_
    refine wp_mono (cmd.wp_run covered.clears covered.moves hgrows h)
      (fun _ t' ht' => ⟨_, ht'.2, fun k P z hk => ?_⟩) fun _ _ _ => trivial
    refine KeyCommand.apply_values
      (fun db Pz hPz => ?_) (fun k' Pz hk' => hall k' Pz.1 Pz.2 hk') cmd k (P, z) hk
    rwa [relocate_snd]

/-! ## What `ZADD` counts -/

/-- The pairs have the members that are named, and scores that were parsed. -/
theorem pairsOf_spec (h : pairsOf args = some pairs) :
    pairs.map (·.2) = pairMembers args ∧ ∀ pair ∈ pairs, ∃ text, parseScore text = some pair.1 := by
  induction args using pairMembers.induct generalizing pairs with
  | case1 score member rest ih =>
    cases hx : parseScore score with
    | none => simp [pairsOf, hx] at h
    | some x =>
      cases hrest : pairsOf rest with
      | none => simp [pairsOf, hx, hrest] at h
      | some more =>
        obtain rfl : (x, member) :: more = pairs := by simpa [pairsOf, hx, hrest] using h
        obtain ⟨hmembers, hscores⟩ := ih hrest
        rw [List.map_cons, hmembers]
        exact ⟨rfl, List.forall_mem_cons.mpr ⟨⟨score, hx⟩, hscores⟩⟩
  | case2 args hargs =>
    have hnil : pairsOf args = some [] := by
      unfold pairsOf
      split
      · exact absurd rfl (hargs _ _ _)
      · rfl
    have hmembers : pairMembers args = [] := by
      unfold pairMembers
      split
      · exact absurd rfl (hargs _ _ _)
      · rfl
    rw [hnil] at h
    cases h
    rw [hmembers]
    exact ⟨rfl, List.forall_mem_nil _⟩

theorem map_pairsOf (h : pairsOf args = some pairs) :
    pairs.map (·.2) = pairMembers args := (pairsOf_spec h).1

/-- No more members are there than are counted; and as many, unless one counts twice. -/
theorem apply_size (f : ZAddFlags) (isNewKey : Bool) (p : Progress) (pair : F64 × Bytes) :
    (f.apply isNewKey p pair).scores.size + p.added ≤ p.scores.size +
      (f.apply isNewKey p pair).added ∧ (f.apply isNewKey p pair).added ≤ p.added + 1 ∧
      ((isNewKey = true → p.scores[pair.2]? = none) →
        (f.apply isNewKey p pair).scores.size + p.added =
        p.scores.size + (f.apply isNewKey p pair).added) := by
  have hsize := (size_insert_le p.scores pair.2 pair.1).2
  rcases apply_cases f isNewKey p pair with h | ⟨hnew, h⟩ | ⟨-, hsome, h⟩
  · rw [h]
    omega
  · rw [h]
    dsimp only
    refine ⟨by omega, Nat.le_refl _, fun hadds => ?_⟩
    rw [size_insert_of_none (hnew.elim hadds id)]
    omega
  · obtain ⟨old, hold⟩ := Option.isSome_iff_exists.mp hsome
    rw [h]
    dsimp only
    rw [size_insert_of_some hold]
    omega

theorem foldl_apply_size (f : ZAddFlags) (isNewKey : Bool) (pairs : List (F64 × Bytes))
    (p : Progress) : (pairs.foldl (f.apply isNewKey) p).scores.size + p.added ≤
        p.scores.size + (pairs.foldl (f.apply isNewKey) p).added ∧
      (pairs.foldl (f.apply isNewKey) p).added ≤ p.added + pairs.length := by
  induction pairs generalizing p with
  | nil => exact ⟨Nat.le_refl _, Nat.le_refl _⟩
  | cons pair pairs ih =>
    have hone := apply_size f isNewKey p pair
    have hrest := ih (f.apply isNewKey p pair)
    rw [List.foldl_cons, List.length_cons]
    omega

theorem apply_other (f : ZAddFlags) (isNewKey : Bool) (p : Progress) (pair : F64 × Bytes)
    {m : Bytes} (h : m ≠ pair.2) : (f.apply isNewKey p pair).scores[m]? = p.scores[m]? := by
  have hinsert : (p.scores.insert pair.2 pair.1)[m]? = p.scores[m]? := by
    rw [getElem?_insert_eq, if_neg h]
  rcases apply_cases f isNewKey p pair with h | ⟨-, h⟩ | ⟨-, -, h⟩
  · rw [h]
  · rw [h]
    exact hinsert
  · rw [h]
    exact hinsert

/-- Different members in a new sorted set are counted once. -/
theorem foldl_apply_size_eq (f : ZAddFlags) (hnodup : isNewKey = true → (pairs.map (·.2)).Nodup)
    (hnew : isNewKey = true → ∀ m ∈ pairs.map (·.2), p.scores[m]? = none) :
    (pairs.foldl (f.apply isNewKey) p).scores.size + p.added =
      p.scores.size + (pairs.foldl (f.apply isNewKey) p).added := by
  induction pairs generalizing p with
  | nil => rfl
  | cons pair pairs ih =>
    simp only [List.map_cons, List.nodup_cons, List.mem_cons, forall_eq_or_imp] at hnodup hnew
    have hone := (apply_size f isNewKey p pair).2.2 fun hn => (hnew hn).1
    have hrest := ih (fun hn => (hnodup hn).2) fun hn m hm => by
      rw [apply_other f isNewKey p pair fun heq => (hnodup hn).1 (heq ▸ hm)]
      exact (hnew hn).2 m hm
    rw [List.foldl_cons]
    omega

/-- What `ZADD` has made is made by some of its pairs. -/
theorem zaddEffect_cases {f : ZAddFlags}
    (h : zaddEffect sc isNewKey args = .ok (f, p)) : ∃ pairs : List (F64 × Bytes),
      p = pairs.foldl (f.apply isNewKey) { scores := sc } ∧ f = (parseFlags {} args).1 ∧
        (pairs = [] ∨ pairsOf (parseFlags {} args).2 = some pairs) := by
  unfold zaddEffect at h
  split at h
  · cases h
  · dsimp only at h
    split at h
    · cases h
    · split at h
      · cases h
      · split at h
        · cases h
          exact ⟨[], rfl, rfl, .inl rfl⟩
        · split at h
          · cases h
          · rename_i pairs hpairs
            cases h
            exact ⟨pairs, rfl, rfl, .inr hpairs⟩

end Invar.Zset
