import Invar.Redis.ZsetRuns

/-!
# The two indexes of sorted sets

In every run of commands on sorted sets the score index and the member index hold the
same pairs, each member once, and the sentinel says how many they are.
-/

namespace Invar.Zset

open StoreProg TxProg Transition Ieee754 FiniteMap Fallible

/-- The handle that the key resolves to. -/
def nodeOf (s : Store) (k : Bytes) : NodeRef where
  publicKey := k
  nodePrefix :=
    match s[k]? with
    | none => .legacy (privateKey k)
    | some row => (prefixOf row (privateKey k)).toOption.getD (.legacy (privateKey k))

/-- The rows of the member index. -/
def memberRows (s : Store) (k : Bytes) : List (Bytes × Row) :=
  rowsOf s (nodeOf s k).memberPrefix.isPrefixOf

/-- The rows of the score index. -/
def scoreRows (s : Store) (k : Bytes) : List (Bytes × Row) :=
  rowsOf s (nodeOf s k).scorePrefix.isPrefixOf

/-- A sorted set can be made under the key, or get more members. -/
structure CanGrow (s : Store) (env : Nat → Tick) (db : Int) (name : Bytes) (adds : Nat) : Prop where
  db_lt : db < 2 ^ 31
  fresh : ∀ n, idUnused s (env n) = true
  small : (memberRows s (publicKey db name)).length + adds < 2 ^ 32

/-- **The condition for a command.** A `ZADD` that makes a sorted set names each member
once. No sorted set gets 2³² members, and ids are not drawn twice. -/
def Meets (s : Store) (a : Action) : Prop :=
  match a.command with
  | .zset db name (.zincrby _ _) => CanGrow s a.env db name 1
  | .zadd db name args =>
    (s[publicKey db name]? = none → (pairMembers (parseFlags {} args).2).Nodup) ∧
      CanGrow s a.env db name (pairMembers (parseFlags {} args).2).length
  | .zsetStore db kind dest aggregate weights names =>
    CanGrow s a.env db dest 0 ∧
      ∀ map, (exec
        (SetOp.map { nodes := (names.map (publicKey db)).map .new, aggregate, weights, kind })
        a.env { view := s }).out = .ok map → map.size < 2 ^ 32
  | .zrangestore db dest _ _ _ => CanGrow s a.env db dest 0
  | .key cmd => cmd.NamesDb
  | _ => True

variable {ln : F64 → F64} {s s' : Store} {C : Catalog SortedSet} {k : Bytes} {P : Place}
  {z : SortedSet} {a : Action} {sc : ScoreMap} {count : Option Nat}

theorem nodeOf_stored (h : Stored layout s C) (hk : C k = some (P, z)) :
    nodeOf s k = nodeAt k P := by
  obtain ⟨row, hrow, -, hsent⟩ := h.isSentinel hk
  simp only [nodeOf, hrow, hsent.place_eq]
  rfl

theorem nodeOf_absent (h : Stored layout s C) (hpub : IsPublic k) (hk : C k = none) :
    nodeOf s k = .new k := by
  simp only [nodeOf, h.absent hpub hk]
  rfl

theorem rowsOf_legacy (h : Stored layout s C) (k tag : Bytes) :
    rowsOf s (privateKey k ++ tag).isPrefixOf = [] := by
  refine List.eq_nil_iff_forall_not_mem.mpr fun kr hkr => ?_
  obtain ⟨hrow, hp⟩ := mem_rowsOf.mp hkr
  obtain ⟨suffix, hsuffix⟩ := List.isPrefixOf_iff_prefix.mp hp
  rw [← hsuffix, List.append_assoc, h.legacy_empty] at hrow
  cases hrow

/-- **The indexes of a key**: the rows are those of the pairs, of which no two have the same
member, and the sentinel says how many they are. -/
structure Indexed (s : Store) (k : Bytes) (es : List MemberScore) : Prop where
  once : (es.map (·.member)).Nodup
  small : es.length < 2 ^ 32
  count : ∀ row, s[k]? = some row → payload row = .ok (beBytes 4 es.length)
  absent : s[k]? = none → es = []
  members : (memberRows s k).Perm
    (es.map fun e => ((nodeOf s k).memberKey e.member, memberRow e.score))
  scores : (scoreRows s k).Perm
    (es.map fun e => ((nodeOf s k).scoreKey e.score e.member, scoreRow))

/-- The rows of the two indexes are those of the members. -/
theorem rows_of_stored (h : Stored layout s C) (hpub : IsPublic k) :
    (memberRows s k).Perm ((entriesOf (scoresIn (C k))).map fun e =>
        ((nodeOf s k).memberKey e.member, memberRow e.score)) ∧
      (scoreRows s k).Perm ((entriesOf (scoresIn (C k))).map fun e =>
        ((nodeOf s k).scoreKey e.score e.member, scoreRow)) := by
  cases hk : C k with
  | none =>
    rw [memberRows, scoreRows, nodeOf_absent h hpub hk]
    exact ⟨.of_eq (rowsOf_legacy h k _), .of_eq (rowsOf_legacy h k _)⟩
  | some Pz =>
    have hholds := holds_of_stored h hk
    simp only [memberRows, scoreRows, nodeOf_stored h hk, memberKey_nodeAt, scoreKey_nodeAt]
    exact ⟨hholds.memberRows, hholds.scoreRows⟩

theorem indexed_of_stored (h : Stored layout s C) (hpub : IsPublic k)
    (hcount : Counted 0 (scoresIn (C k)) ((C k).map (·.2.count))) :
    Indexed s k (entriesOf (scoresIn (C k))) := by
  obtain ⟨hmembers, hscores⟩ := rows_of_stored h hpub
  have hsmall := hcount.small
  rw [hcount.eq, ← length_entriesOf] at hsmall
  refine ⟨nodup_members _, hsmall, fun row hrow => ?_, fun hnone => ?_, hmembers, hscores⟩
  · cases hk : C k with
    | none =>
      rw [h.absent hpub hk] at hrow
      cases hrow
    | some Pz =>
      obtain ⟨row', hrow', -, hsent⟩ := h.isSentinel hk
      obtain rfl : row' = row := Option.some.inj (hrow'.symm.trans hrow)
      rw [hk] at hcount
      rw [length_entriesOf, ← hcount.eq]
      exact hsent.content_eq
  · cases hk : C k with
    | none => rfl
    | some Pz =>
      obtain ⟨row, hrow, -⟩ := h.isSentinel hk
      rw [hrow] at hnone
      cases hnone

/-! ## Counts -/

theorem invariant_counted (slack : Nat) : Invariant (Counted slack) where
  absent := ⟨Nat.le_refl 0, Nat.zero_le _, by decide⟩
  small h := h.small
  gone h := Std.ExtTreeMap.eq_empty_iff_size_eq_zero.mpr (Nat.le_zero.mp h.ge)
  popped {sc count m x} h hx := by
    have hsize := size_erase_of_some hx
    have hge := h.ge
    have hsmall := h.small
    exact counted_countOf hsize.symm (by omega)
  effect h hop := h.effect (.inr hop)

theorem Counted.zadd {args : List Bytes} {isNewKey : Bool} (h : Counted 0 sc count)
    (hnodup : isNewKey = true → (pairMembers (parseFlags {} args).2).Nodup)
    (hnew : isNewKey = true → sc = ∅)
    (hsmall : sc.size + (pairMembers (parseFlags {} args).2).length < 2 ^ 32) :
    Yields (fun fp => Counted 0 fp.2.scores (fp.2.count count)) (zaddEffect sc isNewKey args) := by
  rintro ⟨f, p⟩ heff
  obtain ⟨pairs, hp, -, hpairs⟩ := zaddEffect_cases heff
  have hmembers : pairs = [] ∨ pairs.map (·.2) = pairMembers (parseFlags {} args).2 :=
    hpairs.imp_right map_pairsOf
  have hlen : pairs.length ≤ (pairMembers (parseFlags {} args).2).length := by
    rcases hmembers with rfl | hmembers
    · exact Nat.zero_le _
    · rw [← hmembers, List.length_map]
  have hsize : p.scores.size + 0 = sc.size + p.added := by
    rw [hp]
    refine foldl_apply_size_eq f (fun hn => ?_) fun hn m _ => ?_
    · rcases hmembers with rfl | hmembers
      · exact List.nodup_nil
      · rw [hmembers]
        exact hnodup hn
    · rw [hnew hn]
      simp
  have hadded : p.added ≤ 0 + pairs.length := by
    rw [hp]
    exact (foldl_apply_size f isNewKey pairs { scores := sc }).2
  have hcount : (p.count count).getD 0 = p.scores.size := by
    unfold Progress.count
    split
    · rw [h.eq]
      omega
    · show count.getD 0 + p.added = _
      rw [h.eq]
      omega
  exact ⟨Nat.le_of_eq hcount.symm, Nat.le_of_eq hcount, by show (p.count count).getD 0 < _; omega⟩

theorem counted_of_nodup {es : List MemberScore} (hnodup : (es.map (·.member)).Nodup)
    (hsmall : es.length < 2 ^ 32) : Counted 0 (scoresOf es ∅) (some es.length) := by
  have hsize := size_scoresOf hnodup
  exact ⟨Nat.le_of_eq hsize, Nat.le_of_eq hsize.symm, hsmall⟩

/-- **One command keeps the indexes together.** -/
theorem Meets.step (hmeets : Meets s a) (hkept : Kept (Counted 0) s)
    (hstep : step ln s a = some s') : Kept (Counted 0) s' := by
  obtain ⟨C, h, hall⟩ := hkept
  obtain ⟨command, waiter, env⟩ := a
  have hcount (k : Bytes) := hall.at (invariant_counted 0) k
  have hsize (db : Int) (name : Bytes) : (memberRows s (publicKey db name)).length =
      (scoresIn (C (publicKey db name))).size := by
    rw [(indexed_of_stored h ⟨db, name, rfl⟩ (hcount _)).members.length_eq, List.length_map,
      length_entriesOf]
  have hmake {db : Int} {name : Bytes} {adds : Nat} (hgrow : CanGrow s env db name adds) :
      CanMakeIn C env db := ⟨hgrow.db_lt, h.drawsFresh fun x ⟨n, hn⟩ => hn ▸ hgrow.fresh n⟩
  have hsmall {db : Int} {name : Bytes} {adds : Nat} (hgrow : CanGrow s env db name adds) :
      (scoresIn (C (publicKey db name))).size + adds < 2 ^ 32 := by
    rw [← hsize]
    exact hgrow.small
  refine Grows.step (invariant_counted 0) h hall ?_ hstep
  cases command with
  | zset db name op =>
    cases op with
    | zincrby increment member =>
      refine ⟨hmake hmeets, (hcount _).effect (.inl ?_)⟩
      rw [(hcount _).eq]
      exact hsmall hmeets
    | _ => trivial
  | zadd db name args =>
    refine ⟨hmake hmeets.2, (hcount _).zadd (fun hnone => ?_) (fun hnone => ?_) (hsmall hmeets.2)⟩
    · exact hmeets.1 (h.absent ⟨db, name, rfl⟩ (Option.isNone_iff_eq_none.mp hnone))
    · rw [Option.isNone_iff_eq_none.mp hnone]
      rfl
  | bzpop | zsetOp => trivial
  | zsetStore db kind dest aggregate weights names =>
    exact ⟨hmake hmeets.1, fun map hmap => ⟨Nat.le_refl _, Nat.le_refl _, hmeets.2 map hmap⟩⟩
  | zrangestore db dest src start stop =>
    have hsub := sublist_inRanks start stop (ranked (scoresIn (C (publicKey db src))))
    have hlen := hsub.length_le
    have hsrc := (hcount (publicKey db src)).small
    rw [(hcount (publicKey db src)).eq] at hsrc
    rw [length_ranked] at hlen
    exact ⟨hmake hmeets, counted_of_nodup ((nodup_ranked _).sublist (hsub.map _)) (by omega)⟩
  | key cmd => exact hmeets

/-- **The indexes agree.** In a run from the empty store whose commands all meet the
condition, the two indexes of every key hold the same pairs, each member once, and the
sentinel has their number. -/
theorem indexes_agree (ln : F64 → F64) (hr : Reach (step ln) Meets ∅ s) (db : Int) (name : Bytes) :
    ∃ es, Indexed s (publicKey db name) es := by
  obtain ⟨C, h, hall⟩ : Kept (Counted 0) s :=
    hr.inv (I := Kept (Counted 0)) ⟨_, stored_empty, fun _ _ _ hk => by cases hk⟩
      fun _ _ _ hkept hmeets hstep => hmeets.step hkept hstep
  exact ⟨_, indexed_of_stored h ⟨db, name, rfl⟩ (hall.at (invariant_counted 0) _)⟩

/-- A command in db 0 without waiters, with the random bits that its environment gives. -/
def atRand (rand : Nat) (command : Command) : Action where
  command := command
  waiter := none
  env _ := { now := 1, rand }

/-- Two members are added and one gets another score. -/
theorem indexes_agree_zincrby : ∃ s, run (step fun x => x) ∅
        [atRand 1 (.zadd 0 (ascii "z") [ascii "1", ascii "a", ascii "2", ascii "b"]),
          atRand 2 (.zset 0 (ascii "z") (.zincrby (F64.ofInt 5) (ascii "a")))] = some s ∧
      (memberRows s (publicKey 0 (ascii "z"))).length = 2 ∧
      ∃ es, Indexed s (publicKey 0 (ascii "z")) es := by
  obtain ⟨s, hrun, hreach, hlen⟩ := exists_reach (step fun x => x) Meets ∅
    [atRand 1 (.zadd 0 (ascii "z") [ascii "1", ascii "a", ascii "2", ascii "b"]),
      atRand 2 (.zset 0 (ascii "z") (.zincrby (F64.ofInt 5) (ascii "a")))]
    (fun s a => idUnused s (a.env 0) &&
      decide ((memberRows s (publicKey 0 (ascii "z"))).length + 2 < 2 ^ 32))
    (fun s => decide ((memberRows s (publicKey 0 (ascii "z"))).length = 2)) (by decide +kernel)
    fun s a ha hok => by
      simp only [Bool.and_eq_true, decide_eq_true_eq] at hok
      rcases List.mem_pair.mp ha with rfl | rfl
      · exact ⟨fun _ => by decide +kernel, by decide, fun _ => hok.1, hok.2⟩
      · exact ⟨by decide, fun _ => hok.1, Nat.lt_of_succ_lt hok.2⟩
  exact ⟨s, hrun, of_decide_eq_true hlen, indexes_agree (fun x => x) hreach 0 (ascii "z")⟩

/-- **A member that is named twice is counted twice**, in a `ZADD` that makes the sorted
set: the sentinel says 2, and there is one row in each index. -/
theorem member_counted_twice : (run (step fun x => x) ∅
      [atRand 1 (.zadd 0 (ascii "z") [ascii "1", ascii "a", ascii "2", ascii "a"])]).any (fun s =>
        s[publicKey 0 (ascii "z")]?.any (fun row => decide (payload row = .ok (beBytes 4 2))) &&
          decide ((memberRows s (publicKey 0 (ascii "z"))).length = 1) &&
          decide ((scoreRows s (publicKey 0 (ascii "z"))).length = 1)) = true := by
  decide +kernel

end Invar.Zset
