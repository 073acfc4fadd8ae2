import Invar.Redis.Command
import Invar.Redis.ZsetOrder

/-!
# What the sorted-set commands do to the scores

Each command is specified by the scores that it finds under its key, in an arbitrary store:
what it reads is a function of them, and what it leaves is described by the new scores and
the new count (`After`). The count of a sentinel need not be the number of members: a `ZADD`
that makes a sorted set counts a member twice if it is named twice.
-/

namespace Invar.Zset

open StoreProg TxProg FiniteMap Ieee754

/-! ## Handles -/

/-- The handle of a stored sorted set. -/
def nodeAt (k : Bytes) (P : Place) : NodeRef := ⟨k, P.element⟩

theorem memberKey_nodeAt (k : Bytes) (P : Place) (m : Bytes) :
    (nodeAt k P).memberKey m = P.bytes ++ (Cell.member m).suffix := List.append_assoc ..

theorem scoreKey_nodeAt (k : Bytes) (P : Place) (x : F64) (m : Bytes) :
    (nodeAt k P).scoreKey x m = P.bytes ++ (Cell.score ⟨m, x⟩).suffix := by
  show P.bytes ++ scoreTag ++ encodeScore x ++ 58 :: m = _
  rw [List.append_assoc, List.append_assoc]
  rfl

/-- What a command finds under its key. -/
inductive Found (A : Tick → Prop) (s : Store) (k : Bytes) : Option (Place × SortedSet) → Prop
  | absent (hidden : Hidden A s k) : Found A s k none
  | present {R : Place × SortedSet} {row : Row} (hrow : s[k]? = some row) (hlast : row.LastsFor A)
      (hsent : row.IsSentinel (privateKey k) .sortedSet R.1.element (beBytes 4 R.2.count))
      (hrows : Holds s R.1 (rowAt R.2.scores)) : Found A s k (some R)

def scoresIn (o : Option (Place × SortedSet)) : ScoreMap := o.elim ∅ (·.2.scores)

def handle (k : Bytes) (o : Option (Place × SortedSet)) : NodeRef :=
  o.elim (.new k) fun R => nodeAt k R.1

variable {β : Type} {s s' : Store} {k : Bytes} {P : Place} {R : Place × SortedSet}
  {o : Option (Place × SortedSet)}
  {sc : ScoreMap} {m : Bytes} {x : F64} {A : Tick → Prop} {E : Post DbError} {t : Txn Bytes Row}

theorem Found.holds (h : Found A s k (some R)) : Holds s R.1 (rowAt R.2.scores) := by
  cases h with
  | present _ _ _ hrows => exact hrows

/-! ## Reading -/

variable {n : NodeRef} {Q : Post Unit} {gone es : List MemberScore} {start stop db : Int}
  {wantMin isNewKey : Bool} {members args : List Bytes} {name : Bytes} {p : Progress}
  {f : ZAddFlags} {Known : ElementPrefix → Prop}

theorem Found.wp_resolved {Q : Post NodeRef}
    (h : Found A t.view k o) (hn : n = .new k ∨ n = handle k o)
    (hQ : ∀ t', t'.view = t.view → Q (handle k o) t') : wp A n.resolved Q E t := by
  have hnew : wp A (NodeRef.new k).resolved Q E t := by
    show wp A ((resolvePrefix k (privateKey k)).bind _) _ _ _
    rw [wp_bind]
    cases h with
    | absent hidden => exact wp_resolvePrefix_hidden hidden (hQ _ rfl)
    | present hrow hlast hsent _ => exact wp_resolvePrefix_some hrow hlast hsent.place_eq (hQ _ rfl)
  rcases hn with rfl | rfl
  · exact hnew
  · cases o with
    | none => exact hnew
    | some R => exact hQ t rfl

theorem Found.wp_zsetCount {Q : Post (Option Nat)} (h : Found A s k o)
    (hkey : t.view[k]? = s[k]?) (hQ : ∀ t', t'.view = t.view → Q (o.map (·.2.count)) t') :
    wp A (zsetCount k) Q E t := by
  unfold zsetCount
  rw [wp_seq]
  cases h with
  | absent hidden => exact wp_get_hidden (fun row hrow => hidden row (hkey ▸ hrow)) (hQ _ rfl)
  | @present R row hrow hlast hsent hrows =>
    refine wp_get_some (hkey.trans hrow) hlast ?_
    have hlen : ¬(beBytes 4 R.2.count).length < 4 := by simp
    have hcount : ofBeBytes ((beBytes 4 R.2.count).take 4) = R.2.count := by
      rw [List.take_of_length_le (by simp), ofBeBytes_beBytes]
      exact Nat.mod_eq_of_lt R.2.count_lt
    have htype : baseType row.metadata = ValueType.sortedSet.byte := hsent.type_eq
    dsimp only
    rw [if_neg (not_not.mpr htype), hsent.content_eq, Prog.bind_eq, wp_bind, wp_ofExcept_ok,
      if_neg hlen, hcount]
    exact hQ _ rfl

theorem Holds.wp_get (h : Holds t.view P (rowAt sc)) (c : Cell) {Q : Post (Option Row)}
    (hQ : Q (rowAt sc c) (t.noteRead (isKey (P.bytes ++ c.suffix)))) :
    wp A (TxProg.get (P.bytes ++ c.suffix)) Q E t := by
  have hrow := h.cell c
  cases hc : rowAt sc c with
  | none =>
    rw [hc] at hrow hQ
    exact wp_get_none hrow hQ
  | some row =>
    rw [hc] at hrow hQ
    exact wp_get_some hrow (Row.lastsFor_of_none (lasting_rowAt hc) A) hQ

theorem Holds.wp_memberScore (h : Holds t.view P (rowAt sc)) {Q : Post (Option F64)}
    (hQ : ∀ t', t'.view = t.view → Q sc[m]? t') : wp A (memberScore (nodeAt k P) m) Q E t := by
  unfold memberScore
  rw [wp_seq, memberKey_nodeAt]
  refine h.wp_get (.member m) ?_
  have hlen (x : F64) : ¬(memberRow x).value.length < 8 := by simp [memberRow, scoreBytes]
  cases hx : sc[m]? with
  | none =>
    rw [hx] at hQ
    simp only [rowAt, hx]
    exact hQ _ rfl
  | some x =>
    rw [hx] at hQ
    simp only [rowAt, hx, Option.map_some, if_neg (hlen x)]
    show Q (some (scoreOfBytes (scoreBytes x))) _
    rw [scoreOfBytes_scoreBytes]
    exact hQ _ rfl

theorem Holds.wp_scanScores (h : Holds t.view P (rowAt sc)) {Q : Post (List (Bytes × Row))}
    (hQ : Q ((ranked sc).map fun e => (P.bytes ++ (Cell.score e).suffix, scoreRow))
      (t.noteRead (P.bytes ++ scoreTag).isPrefixOf)) :
    wp A (scanUnder (P.bytes ++ scoreTag)) Q E t := by
  rw [← h.rowsOf_scores] at hQ
  refine wp_scan_lasting (fun key row hp hrow => Row.lastsFor_of_none ?_ A) hQ
  have hmem := mem_rowsOf.mpr ⟨hrow, hp⟩
  rw [h.rowsOf_scores] at hmem
  obtain ⟨e, -, heq⟩ := List.mem_map.mp hmem
  rw [← (Prod.mk.inj heq).2]
  rfl

/-- **The members are listed** in the order of the score index. -/
theorem Found.wp_loadAllMembers {Q : Post (List MemberScore)}
    (h : Found A t.view k o) (hn : n = .new k ∨ n = handle k o)
    (hQ : ∀ t', t'.view = t.view → Q (ranked (scoresIn o)) t') : wp A (loadAllMembers n) Q E t := by
  unfold loadAllMembers
  rw [wp_seq]
  refine h.wp_resolved hn fun t₁ h₁ => ?_
  rw [wp_seq]
  have hkey : (handle k o).publicKey = k := by cases o <;> rfl
  rw [hkey]
  refine h.wp_zsetCount (by rw [h₁]) fun t₂ h₂ => ?_
  cases o with
  | none =>
    have hdone := hQ t₂ (h₂.trans h₁)
    rwa [scoresIn, Option.elim_none, ranked_empty] at hdone
  | some R =>
    have hrows : Holds t₂.view R.1 (rowAt R.2.scores) := by
      rw [h₂, h₁]
      exact h.holds
    show wp A ((scanUnder (R.1.bytes ++ scoreTag)).bind _) _ _ _
    rw [wp_bind]
    refine hrows.wp_scanScores ?_
    have hlong : (((ranked R.2.scores).map fun e =>
        (R.1.bytes ++ (Cell.score e).suffix, scoreRow)).any fun kr =>
          decide (kr.1.length < (R.1.bytes ++ scoreTag).length + 9)) = false := by
      refine List.any_eq_false.mpr fun kr hkr => ?_
      obtain ⟨e, -, rfl⟩ := List.mem_map.mp hkr
      have hlen := length_encodeScore e.score
      simp only [Cell.suffix, List.length_append, List.length_cons, decide_eq_true_eq]
      omega
    have hmembers : (((ranked R.2.scores).map fun e =>
        (R.1.bytes ++ (Cell.score e).suffix, scoreRow)).map fun kr =>
          memberOfKey (R.1.bytes ++ scoreTag).length kr.1) = ranked R.2.scores := by
      rw [List.map_map]
      exact (List.map_congr_left fun e _ => memberOfKey_suffix R.1.bytes e).trans (List.map_id _)
    change wp A (if (List.any _ fun kr : Bytes × Row =>
      decide (kr.1.length < (R.1.bytes ++ scoreTag).length + 9)) = true then _
        else pure (List.map (fun kr : Bytes × Row =>
          memberOfKey (R.1.bytes ++ scoreTag).length kr.1) _)) _ _ _
    rw [hlong, if_neg Bool.false_ne_true, hmembers]
    exact hQ _ (h₂.trans h₁)

/-- The start of the commands that load all members. -/
theorem Found.wp_loaded {rest : NodeRef → List MemberScore → TxProg β}
    {Q : Post β} (h : Found A t.view k o) (hn : n = .new k ∨ n = handle k o)
    (hQ : ∀ t', t'.view = t.view → wp A (rest (handle k o) (ranked (scoresIn o))) Q E t') :
    wp A (n.resolved.bind fun node => (loadAllMembers node).bind fun entries => rest node entries)
      Q E t := by
  rw [wp_bind]
  refine h.wp_resolved hn fun t₁ h₁ => ?_
  rw [wp_bind]
  exact Found.wp_loadAllMembers (h₁ ▸ h) (.inr rfl) fun t₂ h₂ => hQ t₂ (h₂.trans h₁)

/-! ## Writing -/

/-- **What a command leaves** of the sorted set that it finds: the scores in the indexes, and
the count in the sentinel, if there is one. -/
inductive After (A : Tick → Prop) (s s' : Store) (k : Bytes) :
    Option (Place × SortedSet) → ScoreMap → Option Nat → Prop
  | unchanged {o : Option (Place × SortedSet)} (h : s' = s) :
      After A s s' k o (scoresIn o) (o.map (·.2.count))
  | dropped (hother : ∀ y : Bytes, y ≠ k → s'[y]? = s[y]?) (hkey : s'[k]? = none) :
      After A s s' k none ∅ none
  | rescored {R : Place × SortedSet} {sc : ScoreMap} (hat : AtPlace R.1 s s')
      (hrows : Holds s' R.1 (rowAt sc)) : After A s s' k (some R) sc (some R.2.count)
  | emptied {R : Place × SortedSet} {sc : ScoreMap} (hwithin : Within k R.1 s s')
      (hrows : Holds s' R.1 (rowAt sc)) (hkey : s'[k]? = none) : After A s s' k (some R) sc none
  | counted {R : Place × SortedSet} {sc : ScoreMap} {n : Nat} {ts : Option Int}
      (hwithin : Within k R.1 s s') (hrows : Holds s' R.1 (rowAt sc))
      (hts : ∀ row, s[k]? = some row → ∃ x y, A x ∧ A y ∧ ts = keptTs row.expireTs x.now y.now)
      (hkey : s'[k]? = some (sentinelRow (beBytes 4 n) .sortedSet R.1.element ts)) :
      After A s s' k (some R) sc (some n)
  | made {P : Place} {sc : ScoreMap} {n : Nat}
      (hdrawn : ∃ x, A x ∧ P.id = beBytes namespaceIdLen x.rand)
      (hdb : ∃ name, k = publicKey P.db name) (hwithin : Within k P s s')
      (hrows : Holds s' P (rowAt sc))
      (hkey : s'[k]? = some (sentinelRow (beBytes 4 n) .sortedSet P.element none)) :
      After A s s' k none sc (some n)

/-- The count that is left of a sorted set with `n` members: none without members. -/
def countOf (n : Nat) : Option Nat := if n = 0 then none else some n

theorem writeSentinel_eq (k : Bytes) (count : Nat) (p : ElementPrefix) : writeSentinel k count p =
      Invar.writeSentinel k (beBytes 4 count) ValueType.sortedSet.byte p := rfl

theorem Place.cell_ne (hpub : IsPublic k) (P : Place) (suffix : Bytes) : P.bytes ++ suffix ≠ k :=
  fun heq => hpub.not_isPrefix P (heq ▸ List.prefix_append _ _)

theorem Holds.put_key (h : Holds t.view P (rowAt sc)) (hpub : IsPublic k) (row : Row) :
    Holds (t.put k row).view P (rowAt sc) where
  cell c := by rw [Txn.view_put, if_neg (Place.cell_ne hpub P _), h.cell]
  rest suffix hs := by rw [Txn.view_put, if_neg (Place.cell_ne hpub P _), h.rest suffix hs]

theorem Holds.del_key (h : Holds t.view P (rowAt sc)) (hpub : IsPublic k) :
    Holds (t.del k).view P (rowAt sc) where
  cell c := by rw [Txn.view_del, if_neg (Place.cell_ne hpub P _), h.cell]
  rest suffix hs := by rw [Txn.view_del, if_neg (Place.cell_ne hpub P _), h.rest suffix hs]

/-- The place that a command writes to: that of the sorted set, or a new one. -/
inductive Target (A : Tick → Prop) (s : Store) (k : Bytes) :
    Option (Place × SortedSet) → Place → Prop
  | own (R : Place × SortedSet) : Target A s k (some R) R.1
  | fresh {P : Place} (hdrawn : ∃ x, A x ∧ P.id = beBytes namespaceIdLen x.rand)
      (hdb : ∃ name, k = publicKey P.db name) (hempty : ∀ suffix, s[P.bytes ++ suffix]? = none) :
      Target A s k none P

theorem Target.holds (htarget : Target A s k o P) (h : Found A s k o) :
    Holds s P (rowAt (scoresIn o)) := by
  cases htarget with
  | own R => exact h.holds
  | fresh _ _ hempty => exact holds_of_empty hempty

/-- The key has a sentinel that records the place. -/
def Records (s : Store) (k : Bytes) (P : Place) : Prop :=
  ∃ row, s[k]? = some row ∧ prefixOf row (privateKey k) = .ok P.element

theorem records_put (t : Txn Bytes Row) (k : Bytes) (P : Place) (content : Bytes)
    (ts : Option Int) :
    Records (t.put k (sentinelRow content .sortedSet P.element ts)).view k P := by
  refine ⟨sentinelRow content .sortedSet P.element ts, ?_, ?_⟩
  · rw [Txn.view_put, if_pos rfl]
  · exact (isSentinel_sentinelRow (P.storable _) content .sortedSet ts).place_eq

theorem Found.wp_writeSentinel {n : Nat} (h : Found A s k o)
    (hpub : IsPublic k) (htarget : Target A s k o P) (hrows : Holds t.view P (rowAt sc))
    (hat : AtPlace P s t.view)
    (hQ : ∀ t', After A s t'.view k o sc (some n) → Records t'.view k P → Q () t') :
    wp A (writeSentinel k n P.element) Q E t := by
  have hkey : t.view[k]? = s[k]? := hat k (hpub.not_isPrefix P)
  rw [writeSentinel_eq]
  cases htarget with
  | own R =>
    cases h with
    | @present _ row hrow hlast hsent _ =>
      refine wp_writeSentinel_kept (hkey.trans hrow) hlast hsent.isNamespaced_eq fun x y hx hy =>
        hQ _ ?_ (records_put _ k _ _ _)
      have hnew : ((t.noteRead (isKey k)).put k (sentinelRow (beBytes 4 n) .sortedSet R.1.element
          (keptTs row.expireTs x.now y.now))).view[k]? =
            some (sentinelRow (beBytes 4 n) .sortedSet R.1.element
              (keptTs row.expireTs x.now y.now)) := by
        rw [Txn.view_put, if_pos rfl]
      refine .counted ((hat.within k).put_key _) (hrows.put_key hpub _) (fun row' hrow' => ?_) hnew
      obtain rfl : row = row' := Option.some.inj (hrow.symm.trans hrow')
      exact ⟨x, y, hx, hy, rfl⟩
  | fresh hdrawn hdb hempty =>
    cases h with
    | absent hidden =>
      refine wp_writeSentinel_hidden (fun row hrow => hidden row (hkey ▸ hrow))
        (hQ _ ?_ (records_put _ k _ _ _))
      refine .made hdrawn hdb ((hat.within k).put_key _) (hrows.put_key hpub _) ?_
      rw [Txn.view_put, if_pos rfl]

theorem Found.wp_writeCount {n : Nat} (h : Found A s k (some R))
    (hpub : IsPublic k) (hrows : Holds t.view R.1 (rowAt sc)) (hat : AtPlace R.1 s t.view)
    (hQ : ∀ t', After A s t'.view k (some R) sc (countOf n) → Q () t') :
    wp A (writeCount (nodeAt k R.1) n) Q E t := by
  show wp A (if n = 0 then delete k else writeSentinel k n R.1.element) Q E t
  unfold countOf at hQ
  by_cases hempty : n = 0
  · rw [if_pos hempty, wp_delete]
    rw [if_pos hempty] at hQ
    refine hQ _ (.emptied (fun y hy hp => ?_) (hrows.del_key hpub) ?_)
    · rw [Txn.view_del, if_neg hy, hat y hp]
    · rw [Txn.view_del, if_pos rfl]
  · rw [if_neg hempty]
    rw [if_neg hempty] at hQ
    exact h.wp_writeSentinel hpub (.own R) hrows hat fun t' h' _ => hQ t' h'

/-! ## Removing members -/

theorem mem_memberKeys {c : Cell} : P.bytes ++ c.suffix ∈ memberKeys (nodeAt k P) gone ↔
      ∃ e ∈ gone, c = .member e.member ∨ c = .score e := by
  simp only [memberKeys, List.mem_flatMap, memberKey_nodeAt, scoreKey_nodeAt, List.mem_cons,
    List.not_mem_nil, or_false, List.append_cancel_left_eq]
  constructor
  · rintro ⟨e, he, heq | heq⟩
    · exact ⟨e, he, .inl (Cell.suffix_inj heq)⟩
    · exact ⟨e, he, .inr (Cell.suffix_inj heq)⟩
  · rintro ⟨e, he, rfl | rfl⟩
    · exact ⟨e, he, .inl rfl⟩
    · exact ⟨e, he, .inr rfl⟩

/-- The rows of some members are deleted. -/
theorem Holds.eraseAll (h : Holds s P (rowAt sc)) (hgone : ∀ e ∈ gone, sc[e.member]? = some e.score)
    (hs' : ∀ key : Bytes, s'[key]? = if key ∈ memberKeys (nodeAt k P) gone then none else s[key]?) :
    Holds s' P (rowAt (eraseAll (gone.map (·.member)) sc)) where
  cell c := by
    simp only [hs', mem_memberKeys, h.cell]
    cases c with
    | member m =>
      have hiff : (∃ e ∈ gone, Cell.member m = .member e.member ∨ Cell.member m = .score e) ↔
          m ∈ gone.map (·.member) := by
        simp only [Cell.member.injEq, reduceCtorEq, or_false, List.mem_map, eq_comm]
      simp only [hiff, rowAt, getElem?_eraseAll]
      split <;> rfl
    | score e =>
      have hiff : (∃ e' ∈ gone, Cell.score e = .member e'.member ∨ Cell.score e = .score e') ↔
          e ∈ gone := by
        simp [Cell.score.injEq]
      simp only [hiff, rowAt, getElem?_eraseAll]
      by_cases he : e ∈ gone
      · have hm : e.member ∈ gone.map (·.member) := List.mem_map_of_mem he
        simp [he, hm]
      · rw [if_neg he]
        by_cases hm : e.member ∈ gone.map (·.member)
        · -- another score of the same member was deleted: this one had no row
          obtain ⟨e', he', hmem⟩ := List.mem_map.mp hm
          have hscore := hgone e' he'
          rw [hmem] at hscore
          have hne : ¬sc[e.member]? = some e.score := fun heq => he (by
            have hx : e'.score = e.score := Option.some.inj (hscore.symm.trans heq)
            obtain ⟨m', x'⟩ := e'
            obtain ⟨m, x⟩ := e
            obtain rfl : m' = m := hmem
            obtain rfl : x' = x := hx
            exact he')
          simp [hm, hne]
        · simp [hm]
  rest suffix hs := by
    rw [hs', h.rest suffix hs, ite_self]

theorem wp_deleteMembers
    (h : Holds t.view P (rowAt sc)) (hgone : ∀ e ∈ gone, sc[e.member]? = some e.score)
    (hQ : ∀ t', Holds t'.view P (rowAt (eraseAll (gone.map (·.member)) sc)) →
      AtPlace P t.view t'.view → Q () t') :
    wp A (deleteAll (memberKeys (nodeAt k P) gone)) Q E t := by
  refine wp_deleteAll fun t' ht' => hQ t' (h.eraseAll hgone ht') fun key hp => ?_
  rw [ht', if_neg fun hmem => hp ?_]
  simp only [memberKeys, List.mem_flatMap, memberKey_nodeAt, scoreKey_nodeAt, List.mem_cons,
    List.not_mem_nil, or_false] at hmem
  obtain ⟨e, -, rfl | rfl⟩ := hmem
  · exact List.prefix_append _ _
  · exact List.prefix_append _ _

/-- The scores without those of the entries. -/
def without (gone : List MemberScore) (sc : ScoreMap) : ScoreMap :=
  eraseAll (gone.map (·.member)) sc

/-- Some of the members go, and the count is written. -/
theorem Found.wp_removed {count : Nat} {reply : β}
    {Q : Post β} (h : Found A t.view k (some R)) (hpub : IsPublic k)
    (hgone : gone.Sublist (ranked R.2.scores))
    (hQ : ∀ t', After A t.view t'.view k (some R) (without gone R.2.scores) (countOf count) →
      Q reply t') : wp A ((deleteAll (memberKeys (nodeAt k R.1) gone)).bind fun _ =>
      (writeCount (nodeAt k R.1) count).bind fun _ => pure reply) Q E t := by
  rw [wp_bind]
  refine wp_deleteMembers h.holds (fun e he => mem_ranked.mp (hgone.subset he))
    fun t₁ hrows hat => ?_
  rw [wp_bind]
  exact h.wp_writeCount hpub hrows hat hQ

/-- The positions from `start` to `stop`, as `range_indexes` reads them. -/
def inRanks (start stop : Int) (entries : List MemberScore) : List MemberScore :=
  match rangeIndexes entries.length start stop with
  | none => []
  | some (lo, hi) => slice entries lo hi

theorem sublist_slice (entries : List MemberScore) (lo hi : Nat) :
    (slice entries lo hi).Sublist entries :=
  (List.drop_sublist _ _).trans (List.take_sublist _ _)

theorem sublist_inRanks (start stop : Int) (entries : List MemberScore) :
    (inRanks start stop entries).Sublist entries := by
  unfold inRanks
  split
  · exact List.nil_sublist _
  · exact sublist_slice _ _ _

theorem rangeIndexes_zero (start stop : Int) : rangeIndexes 0 start stop = none := by
  unfold rangeIndexes
  rw [if_pos]
  simp only [Bool.or_eq_true, decide_eq_true_eq]
  omega

theorem Found.wp_remRangeByRank {Q : Post RespValue} (h : Found A t.view k o) (hpub : IsPublic k)
    (hnone : rangeIndexes (scoresIn o).size start stop = none → ∀ t', t'.view = t.view →
      Q (.integer 0) t')
    (hsome : ∀ lo hi, rangeIndexes (scoresIn o).size start stop = some (lo, hi) → ∀ t',
      After A t.view t'.view k o (without (slice (ranked (scoresIn o)) lo hi) (scoresIn o))
        (countOf ((scoresIn o).size - (slice (ranked (scoresIn o)) lo hi).length)) →
          Q (.integer (slice (ranked (scoresIn o)) lo hi).length) t') :
    wp A (remRangeByRank (.new k) start stop) Q E t := by
  refine h.wp_loaded (.inl rfl) fun t' ht' => ?_
  rw [length_ranked]
  cases hrange : rangeIndexes (scoresIn o).size start stop with
  | none => exact hnone hrange t' ht'
  | some range =>
    obtain ⟨lo, hi⟩ := range
    cases o with
    | none =>
      rw [show ((scoresIn none).size : Int) = 0 from rfl, rangeIndexes_zero] at hrange
      cases hrange
    | some R =>
      exact Found.wp_removed (ht' ▸ h) hpub (sublist_slice _ _ _)
        fun t₂ h₂ => hsome lo hi hrange t₂ (ht' ▸ h₂)

/-- The members that are popped. -/
def popped (count : Nat) (wantMin : Bool) (entries : List MemberScore) : List MemberScore :=
  if wantMin then entries.take (min count entries.length)
  else entries.drop (entries.length - min count entries.length)

theorem sublist_popped (count : Nat) (wantMin : Bool) (entries : List MemberScore) :
    (popped count wantMin entries).Sublist entries := by
  cases wantMin
  · exact List.drop_sublist _ _
  · exact List.take_sublist _ _

theorem length_popped (count : Nat) (wantMin : Bool) (entries : List MemberScore) :
    (popped count wantMin entries).length = min count entries.length := by
  cases wantMin
  · show (entries.drop _).length = _
    rw [List.length_drop]
    omega
  · show (entries.take _).length = _
    rw [List.length_take]
    omega

theorem Found.wp_zpop {count : Nat} {Q : Post RespValue}
    (h : Found A t.view k o) (hpub : IsPublic k) (hQ : ∀ t', After A t.view t'.view k o
      (without (popped count wantMin (ranked (scoresIn o))) (scoresIn o))
      (countOf ((scoresIn o).size - min count (scoresIn o).size)) →
        Q (membersReply (popped count wantMin (ranked (scoresIn o))) true) t') :
    wp A (zpop (.new k) count wantMin) Q E t := by
  refine h.wp_loaded (.inl rfl) fun t' ht' => ?_
  change wp A
    ((deleteAll (memberKeys (handle k o) (popped count wantMin (ranked (scoresIn o))))).bind
    fun _ => (writeCount (handle k o) _).bind fun _ =>
      pure (membersReply (popped count wantMin (ranked (scoresIn o))) true)) _ _ _
  rw [length_ranked]
  cases o with
  | none =>
    -- nothing is popped, and the key, which is not there, is deleted
    have hpopped : popped count wantMin (ranked (scoresIn none)) = [] := by
      have hsub := sublist_popped count wantMin (ranked (scoresIn none))
      rw [show ranked (scoresIn none) = [] from ranked_empty] at hsub ⊢
      exact List.sublist_nil.mp hsub
    have hzero : (scoresIn none).size - min count (scoresIn none).size = 0 := Nat.zero_sub _
    rw [hpopped, hzero] at hQ ⊢
    refine hQ _ (.dropped (fun y hy => ?_) ?_)
    · show (t'.del k).view[y]? = _
      rw [Txn.view_del, if_neg hy, ht']
    · show (t'.del k).view[k]? = _
      rw [Txn.view_del, if_pos rfl]
  | some R =>
    exact Found.wp_removed (ht' ▸ h) hpub (sublist_popped _ _ _)
      fun t₂ h₂ => hQ t₂ (ht' ▸ h₂)

/-- `count - removed` of a `u32`. -/
def countLess (count removed : Nat) : Nat := (((count : Int) - removed) % 2 ^ 32).toNat

theorem Found.wp_removeEntries {Q : Post RespValue}
    (h : Found A t.view k o) (hpub : IsPublic k) (hgone : gone.Sublist (ranked (scoresIn o)))
    (hnone : gone = [] → ∀ t', t'.view = t.view → Q (.integer 0) t')
    (hsome : ∀ R, o = some R → gone ≠ [] → ∀ t',
      After A t.view t'.view k o (without gone R.2.scores)
      (if R.2.count = gone.length then none else some (countLess R.2.count gone.length)) →
        Q (.integer gone.length) t') : wp A (removeEntries (handle k o) gone) Q E t := by
  unfold removeEntries
  rw [wp_seq]
  cases gone with
  | nil => exact hnone rfl t rfl
  | cons e gone =>
    cases o with
    | none =>
      rw [show ranked (scoresIn none) = [] from ranked_empty] at hgone
      cases hgone
    | some R =>
      refine wp_deleteMembers h.holds (fun e he => mem_ranked.mp (hgone.subset he))
        fun t₁ hrows hat => ?_
      rw [if_neg (by simp), Prog.bind_eq, wp_bind]
      refine h.wp_zsetCount (hat k (hpub.not_isPrefix _)) fun t₂ h₂ => ?_
      have hdone : ∀ t', After A t.view t'.view k (some R) (without (e :: gone) R.2.scores)
          (if R.2.count = (e :: gone).length then none
            else some (countLess R.2.count (e :: gone).length)) →
          Q (.integer (e :: gone).length) t' := hsome R rfl (List.cons_ne_nil _ _)
      change wp A (if R.2.count = (e :: gone).length then _ else _) _ _ _
      split at hdone
      · rename_i hall
        rw [if_pos hall]
        refine hdone _ (.emptied (fun y hy hp => ?_) (Holds.del_key (h₂ ▸ hrows) hpub) ?_)
        · show (t₂.del k).view[y]? = _
          rw [Txn.view_del, if_neg hy, h₂, hat y hp]
        · show (t₂.del k).view[k]? = _
          rw [Txn.view_del, if_pos rfl]
      · rename_i hrest
        rw [if_neg hrest, Prog.bind_eq, wp_bind]
        exact h.wp_writeSentinel hpub (.own R) (h₂ ▸ hrows) (h₂ ▸ hat) fun t' h' _ => hdone t' h'

/-- One member is popped. -/
theorem Found.wp_popOne {Q : Post (Option MemberScore)}
    (h : Found A t.view k o) (hpub : IsPublic k) (hn : n = .new k ∨ n = handle k o)
    (hnone : (scoresIn o).size = 0 → ∀ t', t'.view = t.view → Q none t')
    (hsome : ∀ e, (if wantMin then (ranked (scoresIn o)).head?
        else (ranked (scoresIn o)).getLast?) = some e → ∀ t', After A t.view t'.view k o
      ((scoresIn o).erase e.member) (countOf ((scoresIn o).size - 1)) → Q (some e) t') :
    wp A (popOne wantMin n) Q E t := by
  refine h.wp_loaded hn fun t' ht' => ?_
  cases he : if wantMin then (ranked (scoresIn o)).head? else (ranked (scoresIn o)).getLast? with
  | none =>
    refine hnone ?_ t' ht'
    rw [← length_ranked, List.length_eq_zero_iff]
    cases wantMin
    · exact List.getLast?_eq_none_iff.mp he
    · exact List.head?_eq_none_iff.mp he
  | some e =>
    have hmem : e ∈ ranked (scoresIn o) := by
      cases wantMin
      · exact List.mem_of_getLast? he
      · exact List.mem_of_mem_head? he
    cases o with
    | none =>
      rw [show ranked (scoresIn none) = [] from ranked_empty] at hmem
      cases hmem
    | some R =>
      have hx : R.2.scores[e.member]? = some e.score := mem_ranked.mp hmem
      have hrows : Holds t'.view R.1 (rowAt R.2.scores) := by
        rw [ht']
        exact h.holds
      unfold removeMember
      simp only [Prog.bind_eq, wp_bind, wp_delete]
      show wp A (writeCount (nodeAt k R.1) ((ranked R.2.scores).length - 1)) _ _ _
      rw [length_ranked]
      change wp A _ _ _ ((t'.del ((nodeAt k R.1).memberKey e.member)).del
        ((nodeAt k R.1).scoreKey e.score e.member))
      rw [memberKey_nodeAt, scoreKey_nodeAt]
      refine Found.wp_writeCount (ht' ▸ h) hpub (hrows.erase hx)
        (((AtPlace.refl _ _).del _).del _) fun t₂ h₂ => hsome e he t₂ (ht' ▸ h₂)

theorem tryPop_cons (wantMin : Bool) (node : NodeRef) (rawKey : Bytes)
    (rest : List (NodeRef × Bytes)) :
    tryPop wantMin ((node, rawKey) :: rest) = (popOne wantMin node).bind fun
      | some p => pure (some { key := rawKey, member := p.member, score := p.score })
      | none => tryPop wantMin rest := by
  cases wantMin <;> rfl

theorem countDown_eq (count : Nat) : countDown count = countLess count 1 := by
  unfold countDown countLess
  omega

theorem countLess_zero {count : Nat} (h : count < 2 ^ 32) : countLess count 0 = count := by
  unfold countLess
  omega

theorem countLess_lt (count removed : Nat) : countLess count removed < 2 ^ 32 := by
  unfold countLess
  omega

theorem countLess_countLess (count a b : Nat) :
    countLess (countLess count a) b = countLess count (a + b) := by
  unfold countLess
  omega

/-- How many of the members have a score. -/
def removedOf (members : List Bytes) (sc : ScoreMap) : Nat := sc.size - (eraseAll members sc).size

theorem removedOf_cons_none (h : sc[m]? = none) :
    removedOf (m :: members) sc = removedOf members sc := by
  show sc.size - (eraseAll members (sc.erase m)).size = _
  rw [erase_of_none h]
  rfl

theorem removedOf_cons_some (h : sc[m]? = some x) :
    removedOf (m :: members) sc = 1 + removedOf members (sc.erase m) := by
  have hsize := size_erase_of_some h
  have hpos := size_pos_of_some h
  have hle := size_eraseAll_le members (sc.erase m)
  show sc.size - (eraseAll members (sc.erase m)).size =
    1 + ((sc.erase m).size - (eraseAll members (sc.erase m)).size)
  omega

theorem wp_removeAll {count : Nat} {removed : Int}
    {Q : Post (Nat × Int)} (hrows : Holds t.view P (rowAt sc))
    (hat : AtPlace P s t.view) (hcount : count < 2 ^ 32)
    (hQ : ∀ t', Holds t'.view P (rowAt (eraseAll members sc)) → AtPlace P s t'.view →
      Q (countLess count (removedOf members sc), removed + removedOf members sc) t') :
    wp A (removeAll (nodeAt k P) members count removed) Q E t := by
  induction members generalizing t sc removed count with
  | nil =>
    have hdone := hQ t hrows hat
    rwa [show removedOf [] sc = 0 from Nat.sub_self _, countLess_zero hcount, Nat.cast_zero,
      Int.add_zero] at hdone
  | cons m members ih =>
    unfold removeAll
    rw [wp_seq]
    refine hrows.wp_memberScore fun t' ht' => ?_
    have heraseAll : eraseAll (m :: members) sc = eraseAll members (sc.erase m) := rfl
    cases hx : sc[m]? with
    | none =>
      rw [heraseAll, erase_of_none hx, removedOf_cons_none hx] at hQ
      exact ih (ht' ▸ hrows) (ht' ▸ hat) hcount hQ
    | some x =>
      have hrows' : Holds t'.view P (rowAt sc) := ht' ▸ hrows
      have hat' : AtPlace P s t'.view := ht' ▸ hat
      rw [heraseAll, removedOf_cons_some hx] at hQ
      simp only [Prog.bind_eq, wp_bind, wp_delete]
      rw [memberKey_nodeAt, scoreKey_nodeAt, countDown_eq]
      refine ih (hrows'.erase hx) ((hat'.del _).del _) (countLess_lt _ _) fun t₂ hrows₂ hat₂ => ?_
      rw [countLess_countLess, Int.add_assoc]
      exact hQ t₂ hrows₂ hat₂

theorem Found.wp_zrem {Q : Post RespValue} (h : Found A t.view k o) (hpub : IsPublic k)
    (hnone : o = none → ∀ t', t'.view = t.view → Q (.integer 0) t')
    (hsome : ∀ R, o = some R → ∀ t', After A t.view t'.view k o (eraseAll members R.2.scores)
      (countOf (countLess R.2.count (removedOf members R.2.scores))) →
        Q (.integer (removedOf members R.2.scores)) t') : wp A (zrem (.new k) members) Q E t := by
  unfold zrem
  rw [wp_seq]
  refine h.wp_resolved (.inl rfl) fun t₁ h₁ => ?_
  rw [wp_seq]
  cases o with
  | none =>
    refine Found.wp_zsetCount h (by rw [h₁]) fun t₂ h₂ => ?_
    exact hnone rfl t₂ (h₂.trans h₁)
  | some R =>
    refine Found.wp_zsetCount h (by rw [h₁]) fun t₂ h₂ => ?_
    have hview : t₂.view = t.view := h₂.trans h₁
    show wp A ((removeAll (nodeAt k R.1) members R.2.count 0).bind _) _ _ _
    rw [wp_bind]
    refine wp_removeAll (hview ▸ h.holds) (fun y _ => by rw [hview]) R.2.count_lt
      fun t₃ hrows hat => ?_
    show wp A ((writeCount (nodeAt k R.1) _).bind _) _ _ _
    rw [wp_bind]
    refine h.wp_writeCount hpub hrows hat fun t₄ h₄ => ?_
    rw [Int.zero_add]
    exact hsome R rfl t₄ h₄

/-! ## Adding members -/

theorem Found.wp_resolvedForWrite {Q : Post NodeRef}
    (h : Found A t.view k o) (hdb : db < 2 ^ 31) (hk : k = publicKey db name)
    (hfresh : o = none → 0 ≤ db → Unused A t.view db)
    (hQ : ∀ P, Target A t.view k o P → ∀ t', t'.view = t.view → Q (nodeAt k P) t')
    (hE : o = none → db < 0 → ∀ t', t'.view = t.view → E corruptPrefix t') :
    wp A (NodeRef.new k).resolvedForWrite Q E t := by
  show wp A ((resolvePrefixForWrite k (privateKey k)).bind _) _ _ _
  rw [wp_bind]
  cases h with
  | absent hidden =>
    rw [show privateKey k = privateKey (publicKey db name) by rw [hk]]
    refine wp_resolvePrefixForWrite_hidden hidden (fun hpos x hx => ?_)
      fun hneg => hE rfl hneg _ rfl
    exact hQ (Place.fresh db ⟨hpos, hdb⟩ x.rand)
      (.fresh ⟨x, hx, rfl⟩ ⟨name, hk⟩ (hfresh rfl hpos x hx)) _ rfl
  | present hrow hlast hsent hrows =>
    exact wp_resolvePrefixForWrite_some hrow hlast hsent.place_eq (hQ _ (.own _) _ rfl)

theorem Holds.view_eq {f : Cell → Option Row} (h : Holds s P f) (h' : Holds s' P f)
    (hat : AtPlace P s s') : s' = s := by
  refine Std.ExtTreeMap.ext_getElem? fun y => ?_
  by_cases hp : P.bytes <+: y
  · obtain ⟨suffix, rfl⟩ := hp
    cases hc : parseCell suffix with
    | none => rw [h.rest _ hc, h'.rest _ hc]
    | some c => rw [← suffix_of_parseCell hc, h.cell, h'.cell]
  · exact hat y hp

/-- The scores after some of the pairs, with the totals so far. -/
structure Progress where
  scores : ScoreMap
  added : Nat := 0
  changed : Nat := 0

/-- One pair. While the sorted set is new, a member that an earlier pair has added is added
and counted again, whatever the flags but `XX` say. -/
def ZAddFlags.apply (f : ZAddFlags) (isNewKey : Bool) (p : Progress) (pair : F64 × Bytes) :
    Progress :=
  match p.scores[pair.2]? with
  | none =>
    if f.xx then p
    else { p with scores := p.scores.insert pair.2 pair.1, added := p.added + 1 }
  | some old =>
    if isNewKey then
      if f.xx then p
      else { p with scores := p.scores.insert pair.2 pair.1, added := p.added + 1 }
    else if f.nx || f.keepsOld old pair.1 || old.numEq pair.1 then p
    else { p with scores := p.scores.insert pair.2 pair.1, changed := p.changed + 1 }

/-- What the loop has counted, for a sorted set with a first count. -/
def Progress.tally (p : Progress) (count : Nat) : Tally :=
  { count := count + p.added, added := p.added, changed := p.changed }

theorem wp_addMember {count : Nat} {Q : Post Tally}
    (hrows : Holds t.view P (withoutScore p.scores m)) (hat : AtPlace P s t.view)
    (hQ : ∀ t', Holds t'.view P (rowAt (p.scores.insert m x)) → AtPlace P s t'.view →
      Q (Progress.tally { p with scores := p.scores.insert m x, added := p.added + 1 } count) t') :
    wp A (addMember (nodeAt k P) x m (p.tally count)) Q E t := by
  unfold addMember
  simp only [Prog.bind_eq, wp_bind, wp_set]
  rw [memberKey_nodeAt, scoreKey_nodeAt]
  intro _ _ _ _
  exact hQ _ (hrows.insert x) ((hat.put _ _).put _ _)

/-- One pair. `XX` does not come to the loop without a sorted set. -/
theorem wp_addPair {score : Bytes} {count : Nat}
    {Q : Post Tally} (hrows : Holds t.view P (rowAt p.scores))
    (hat : AtPlace P s t.view) (hnew : (isNewKey && f.xx) = false)
    (hQ : ∀ x, parseScore score = some x → ∀ t',
      Holds t'.view P (rowAt (f.apply isNewKey p (x, m)).scores) → AtPlace P s t'.view →
        Q ((f.apply isNewKey p (x, m)).tally count) t')
    (hE : parseScore score = none → E notAFloat t) :
    wp A (addPair (nodeAt k P) f isNewKey score m (p.tally count)) Q E t := by
  unfold addPair
  cases hscore : parseScore score with
  | none => exact hE hscore
  | some x =>
    have hdone := hQ x hscore
    rw [wp_seq, memberKey_nodeAt]
    refine hrows.wp_get (.member m) ?_
    cases hx : p.scores[m]? with
    | none =>
      simp only [ZAddFlags.apply, hx] at hdone
      simp only [rowAt, hx, Option.map_none]
      split
      · rename_i hxx
        rw [if_pos hxx] at hdone
        exact hdone _ hrows hat
      · rename_i hxx
        rw [if_neg hxx] at hdone
        exact wp_addMember (withoutScore_of_none hx ▸ hrows) hat hdone
    | some old =>
      have hlen : ¬(memberRow old).value.length < 8 := by simp [memberRow, scoreBytes]
      have hold : scoreOfBytes (memberRow old).value = old := scoreOfBytes_scoreBytes old
      simp only [ZAddFlags.apply, hx] at hdone
      simp only [rowAt, hx, Option.map_some]
      cases isNewKey with
      | true =>
        -- the score row of the earlier pair goes, and the member is added anew
        have hxx : f.xx = false := hnew
        simp only [hxx, if_true, Bool.false_eq_true, if_false] at hdone ⊢
        rw [if_pos (Nat.le_of_not_lt hlen), hold, Prog.bind_eq, wp_bind, wp_delete, scoreKey_nodeAt]
        exact wp_addMember (Holds.dropScore hrows hx) (AtPlace.del hat _) hdone
      | false =>
        simp only [Bool.false_eq_true, if_false, if_neg hlen, hold] at hdone ⊢
        split
        · rename_i hnx
          rw [if_pos (by simp [hnx])] at hdone
          exact hdone _ hrows hat
        · rename_i hnx
          split
          · rename_i hkeeps
            rw [if_pos (by simp [hkeeps])] at hdone
            exact hdone _ hrows hat
          · rename_i hkeeps
            split
            · rename_i heq
              rw [if_pos (by simp [heq])] at hdone
              exact hdone _ hrows hat
            · -- the score row of the old score is replaced
              rename_i hne
              rw [if_neg (by simp [hnx, hkeeps, hne])] at hdone
              simp only [Prog.bind_eq, wp_bind, wp_set, wp_delete]
              rw [scoreKey_nodeAt, scoreKey_nodeAt]
              intro _ _ _ _
              exact hdone _ (Holds.insert (Holds.dropScore hrows hx) x)
                (((AtPlace.del hat _).put _ _).put _ _)

/-- The members that the arguments after the flags name. -/
def pairMembers : List Bytes → List Bytes
  | _ :: member :: rest => member :: pairMembers rest
  | _ => []

/-- The pairs that the arguments after the flags name. -/
def pairsOf : List Bytes → Option (List (F64 × Bytes))
  | score :: member :: rest => do
    let x ← parseScore score
    return (x, member) :: (← pairsOf rest)
  | _ => some []

theorem wp_addPairs {count : Nat} {Q : Post Tally} (hrows : Holds t.view P (rowAt p.scores))
    (hat : AtPlace P s t.view) (hnew : (isNewKey && f.xx) = false)
    (hQ : ∀ pairs, pairsOf args = some pairs →
      ∀ t', Holds t'.view P (rowAt (pairs.foldl (f.apply isNewKey) p).scores) →
      AtPlace P s t'.view → Q ((pairs.foldl (f.apply isNewKey) p).tally count) t')
    (hE : pairsOf args = none → ∀ t', E notAFloat t') :
    wp A (addPairs (nodeAt k P) f isNewKey args (p.tally count)) Q E t := by
  induction args using pairMembers.induct generalizing t p with
  | case1 score member rest ih =>
    unfold addPairs
    rw [wp_seq]
    refine wp_addPair hrows hat hnew (fun x hx t₁ hrows₁ hat₁ => ?_) fun hx => ?_
    · refine ih hrows₁ hat₁ (fun pairs hpairs => ?_) fun hpairs => ?_
      · exact hQ ((x, member) :: pairs) (by simp [pairsOf, hx, hpairs])
      · exact hE (by simp [pairsOf, hx, hpairs])
    · exact hE (by simp [pairsOf, hx]) t
  | case2 args hargs =>
    have hdone : addPairs (nodeAt k P) f isNewKey args (p.tally count) = pure (p.tally count) := by
      unfold addPairs
      split
      · exact absurd rfl (hargs _ _ _)
      · rfl
    have hpairs : pairsOf args = some [] := by
      unfold pairsOf
      split
      · exact absurd rfl (hargs _ _ _)
      · rfl
    rw [hdone]
    exact hQ [] hpairs t hrows hat

/-- One pair adds a member, changes a score or does nothing. -/
theorem apply_cases (f : ZAddFlags) (isNewKey : Bool) (p : Progress) (pair : F64 × Bytes) :
    f.apply isNewKey p pair = p ∨
      ((isNewKey = true ∨ p.scores[pair.2]? = none) ∧ f.apply isNewKey p pair =
        { p with scores := p.scores.insert pair.2 pair.1, added := p.added + 1 }) ∨
      (isNewKey = false ∧ (p.scores[pair.2]?).isSome = true ∧ f.apply isNewKey p pair =
        { p with scores := p.scores.insert pair.2 pair.1, changed := p.changed + 1 }) := by
  unfold ZAddFlags.apply
  cases hx : p.scores[pair.2]? with
  | none =>
    dsimp only
    split
    · exact .inl rfl
    · exact .inr (.inl ⟨.inr rfl, rfl⟩)
  | some old =>
    dsimp only
    cases isNewKey with
    | true =>
      rw [if_pos rfl]
      split
      · exact .inl rfl
      · exact .inr (.inl ⟨.inl rfl, rfl⟩)
    | false =>
      rw [if_neg Bool.false_ne_true]
      split
      · exact .inl rfl
      · exact .inr (.inr ⟨rfl, rfl, rfl⟩)

/-- The totals do not decrease. -/
theorem foldl_apply_mono (f : ZAddFlags) (isNewKey : Bool) (pairs : List (F64 × Bytes))
    (p : Progress) : p.added ≤ (pairs.foldl (f.apply isNewKey) p).added ∧
      p.changed ≤ (pairs.foldl (f.apply isNewKey) p).changed := by
  induction pairs generalizing p with
  | nil => exact ⟨Nat.le_refl _, Nat.le_refl _⟩
  | cons pair pairs ih =>
    have hrest := ih (f.apply isNewKey p pair)
    have hone : p.added ≤ (f.apply isNewKey p pair).added ∧
        p.changed ≤ (f.apply isNewKey p pair).changed := by
      rcases apply_cases f isNewKey p pair with h | ⟨-, h⟩ | ⟨-, -, h⟩ <;> rw [h] <;> simp
    exact ⟨hone.1.trans hrest.1, hone.2.trans hrest.2⟩

/-- A total is positive once a pair has changed the scores. -/
theorem foldl_apply_same (f : ZAddFlags) (isNewKey : Bool) (pairs : List (F64 × Bytes))
    (p : Progress)
    (hadded : (pairs.foldl (f.apply isNewKey) p).added = 0)
    (hchanged : (pairs.foldl (f.apply isNewKey) p).changed = 0) :
    pairs.foldl (f.apply isNewKey) p = p := by
  induction pairs with
  | nil => rfl
  | cons pair pairs ih =>
    have hrest := foldl_apply_mono f isNewKey pairs (f.apply isNewKey p pair)
    rw [List.foldl_cons] at hadded hchanged ⊢
    rcases apply_cases f isNewKey p pair with h | ⟨-, h⟩ | ⟨-, -, h⟩
    · rw [h] at hadded hchanged ⊢
      exact ih hadded hchanged
    · have hpos : 0 < (f.apply isNewKey p pair).added := by rw [h]; exact Nat.succ_pos _
      omega
    · have hpos : 0 < (f.apply isNewKey p pair).changed := by rw [h]; exact Nat.succ_pos _
      omega

/-- The count after the pairs: it is written if something has changed. -/
def Progress.count (p : Progress) (count : Option Nat) : Option Nat :=
  if p.added = 0 ∧ p.changed = 0 then count else some (count.getD 0 + p.added)

def ZAddFlags.reply (f : ZAddFlags) (p : Progress) : Nat :=
  if f.ch then p.changed + p.added else p.added

/-- The end of `ZADD`. -/
theorem Found.wp_finish {Q : Post ZAddWritten}
    (h : Found A s k o) (hpub : IsPublic k) (htarget : Target A s k o P)
    (hrows : Holds t.view P (rowAt p.scores)) (hat : AtPlace P s t.view)
    (hsame : p.added = 0 → p.changed = 0 → p.scores = scoresIn o)
    (hQ : ∀ t', After A s t'.view k o p.scores (p.count (o.map (·.2.count))) →
      (0 < p.added → Records t'.view k P) →
        Q { node := nodeAt k P, added := 0 < p.added, reply := f.reply p } t') :
    wp A (ZAddOp.write.finish (nodeAt k P) f (p.tally ((o.map (·.2.count)).getD 0))) Q E t := by
  have hwrites : (decide (0 < (p.tally ((o.map (·.2.count)).getD 0)).added) ||
      decide (0 < (p.tally ((o.map (·.2.count)).getD 0)).changed)) = true ↔
        ¬(p.added = 0 ∧ p.changed = 0) := by
    show (decide (0 < p.added) || decide (0 < p.changed)) = true ↔ _
    rw [Bool.or_eq_true, decide_eq_true_iff, decide_eq_true_iff]
    omega
  unfold ZAddOp.write.finish
  unfold Progress.count at hQ
  by_cases hzero : p.added = 0 ∧ p.changed = 0
  · have hscores := hsame hzero.1 hzero.2
    rw [hscores] at hrows
    have hview : t.view = s := (htarget.holds h).view_eq hrows hat
    rw [if_pos hzero, hscores] at hQ
    rw [if_neg fun hw => hwrites.mp hw hzero]
    refine hQ t (.unchanged hview) fun hadded => ?_
    rw [hzero.1] at hadded
    cases hadded
  · rw [if_neg hzero] at hQ
    rw [if_pos (hwrites.mpr hzero), Prog.bind_eq, wp_bind]
    exact h.wp_writeSentinel hpub htarget hrows hat fun t' h' hrec => hQ t' h' fun _ => hrec

/-- What `ZADD` makes of the scores: the flags, and the scores with the totals. Without a
sorted set `XX` ends the command before the scores are parsed. -/
def zaddEffect (sc : ScoreMap) (isNewKey : Bool) (args : List Bytes) :
    Except DbError (ZAddFlags × Progress) :=
  if args.isEmpty then .error zaddArity
  else
    let (f, remaining) := parseFlags {} args
    match f.check with
    | .error e => .error e
    | .ok _ =>
      if remaining.isEmpty || remaining.length % 2 ≠ 0 then .error zaddArity
      else if isNewKey && f.xx then .ok (f, { scores := sc })
      else
        match pairsOf remaining with
        | none => .error notAFloat
        | some pairs => .ok (f, pairs.foldl (f.apply isNewKey) { scores := sc })

/-- **`ZADD`.** -/
theorem Found.wp_zaddWrite {rawKey : Bytes} {Q : Post ZAddWritten} (h : Found A t.view k o)
    (hdb : db < 2 ^ 31) (hk : k = publicKey db name)
    (hfresh : o = none → 0 ≤ db → Unused A t.view db) (hQ : ∀ P f p, Target A t.view k o P →
      zaddEffect (scoresIn o) o.isNone args = .ok (f, p) →
      ∀ t', After A t.view t'.view k o p.scores (p.count (o.map (·.2.count))) → (0 < p.added →
      Records t'.view k P) → Q { node := nodeAt k P, added := 0 < p.added, reply := f.reply p } t')
    (hE : ∀ e t', zaddEffect (scoresIn o) o.isNone args = .error e → E e t')
    (hneg : o = none → db < 0 → ∀ t', E corruptPrefix t') :
    wp A (ZAddOp.write { node := .new k, rawKey, args }) Q E t := by
  have hpub : IsPublic k := ⟨db, name, hk⟩
  unfold ZAddOp.write
  rw [wp_seq]
  refine h.wp_resolvedForWrite hdb hk hfresh (fun P htarget t₁ h₁ => ?_)
    fun ho hdb t' _ => hneg ho hdb t'
  unfold zaddEffect at hQ hE
  split
  · rename_i hargs
    rw [if_pos hargs] at hE
    exact hE _ _ rfl
  · rename_i hargs
    rw [if_neg hargs] at hQ hE
    generalize parseFlags {} args = fr at hQ hE ⊢
    obtain ⟨f, remaining⟩ := fr
    dsimp only at hQ hE ⊢
    rw [wp_seq]
    cases hcheck : f.check with
    | error e =>
      rw [hcheck] at hE
      exact hE _ _ rfl
    | ok u =>
      rw [hcheck] at hQ hE
      rw [wp_ofExcept_ok]
      dsimp only at hQ hE
      split
      · rename_i harity
        rw [if_pos harity] at hE
        exact hE _ _ rfl
      · rename_i harity
        rw [if_neg harity] at hQ hE
        rw [wp_seq]
        refine Found.wp_zsetCount h (by rw [h₁]) fun t₂ h₂ => ?_
        have hview : t₂.view = t.view := h₂.trans h₁
        have hrows : Holds t₂.view P (rowAt (scoresIn o)) := hview ▸ htarget.holds h
        have hat : AtPlace P t.view t₂.view := fun _ _ => by rw [hview]
        -- the loop and the end of the command
        have hloop (hxx : (o.isNone && f.xx) = false) :
            wp A ((addPairs (nodeAt k P) f o.isNone remaining
              { count := (o.map (·.2.count)).getD 0 }).bind (ZAddOp.write.finish (nodeAt k P) f))
              Q E t₂ := by
          rw [hxx, if_neg Bool.false_ne_true] at hQ hE
          rw [wp_bind]
          refine wp_addPairs (p := { scores := scoresIn o }) hrows hat hxx
            (fun pairs hpairs t₃ hrows₃ hat₃ => ?_) fun hpairs t' => ?_
          · rw [hpairs] at hQ
            refine h.wp_finish hpub htarget hrows₃ hat₃ (fun hadded hchanged => ?_)
              fun t' h' => hQ P f _ htarget rfl t' h'
            rw [foldl_apply_same f o.isNone pairs _ hadded hchanged]
          · rw [hpairs] at hE
            exact hE _ _ rfl
        cases o with
        | none =>
          show wp A (if f.xx = true then _ else _) _ _ _
          split
          · rename_i hxx
            rw [hxx] at hQ
            have hreply : f.reply { scores := scoresIn none } = 0 := by
              unfold ZAddFlags.reply
              split <;> rfl
            have hdone := hQ P f _ htarget rfl t₂ (hview ▸ .unchanged rfl) fun hadded =>
              absurd hadded (Nat.lt_irrefl 0)
            rwa [hreply] at hdone
          · rename_i hxx
            exact hloop (by simp [hxx])
        | some R => exact hloop rfl

theorem wp_setMember {rest : List Entry}
    (hrows : Holds t.view P (withoutScore sc m)) (hat : AtPlace P s t.view)
    (hQ : ∀ t', Holds t'.view P (rowAt (sc.insert m x)) → AtPlace P s t'.view →
      wp A (setAll rest) Q E t') :
    wp A (setAll (memberEntries (nodeAt k P) ⟨m, x⟩ ++ rest)) Q E t := by
  show wp A ((set _).bind fun _ => (set _).bind fun _ => setAll rest) _ _ _
  simp only [wp_bind, wp_set]
  rw [memberKey_nodeAt, scoreKey_nodeAt]
  intro _ _ _ _
  exact hQ _ (hrows.insert x) ((hat.put _ _).put _ _)

/-- The score that `ZINCRBY` gives the member. -/
def raised (sc : ScoreMap) (increment : F64) (m : Bytes) : F64 :=
  match sc[m]? with
  | none => increment
  | some score => score.add increment

/-- `ZINCRBY` writes the count for a new member. -/
def countRaised (sc : ScoreMap) (count : Option Nat) (m : Bytes) : Option Nat :=
  match sc[m]? with
  | none => some (count.getD 0 + 1)
  | some _ => count

theorem Found.wp_zincrby {increment : F64}
    {Q : Post RespValue} (h : Found A t.view k o) (hdb : db < 2 ^ 31)
    (hk : k = publicKey db name) (hfresh : o = none → 0 ≤ db → Unused A t.view db)
    (hQ : (raised (scoresIn o) increment m).isNan = false → ∀ t', After A t.view t'.view k o
      ((scoresIn o).insert m (raised (scoresIn o) increment m))
      (countRaised (scoresIn o) (o.map (·.2.count)) m) →
        Q (.bulk (raised (scoresIn o) increment m).display) t')
    (hE : (raised (scoresIn o) increment m).isNan = true →
      ∀ t', t'.view = t.view → E invalidScore t')
    (hneg : o = none → db < 0 → ∀ t', t'.view = t.view → E corruptPrefix t') :
    wp A (zincrby (.new k) increment m) Q E t := by
  have hpub : IsPublic k := ⟨db, name, hk⟩
  unfold zincrby
  rw [wp_seq]
  refine h.wp_resolvedForWrite hdb hk hfresh (fun P htarget t₁ h₁ => ?_) hneg
  rw [wp_seq]
  refine Found.wp_zsetCount h (by rw [h₁]) fun t₂ h₂ => ?_
  rw [wp_seq]
  have hview₂ : t₂.view = t.view := h₂.trans h₁
  refine Holds.wp_memberScore (show Holds t₂.view P (rowAt (scoresIn o)) from
    hview₂ ▸ htarget.holds h) fun t₃ h₃ => ?_
  have hview : t₃.view = t.view := h₃.trans hview₂
  have hrows : Holds t₃.view P (rowAt (scoresIn o)) := hview ▸ htarget.holds h
  have hat : AtPlace P t.view t₃.view := fun _ _ => by rw [hview]
  unfold raised countRaised at hQ
  unfold raised at hE
  cases hm : (scoresIn o)[m]? with
  | none =>
    simp only [hm] at hQ hE
    cases hnan : increment.isNan with
    | true => exact hE hnan t₃ hview
    | false =>
      rw [if_neg Bool.false_ne_true, Prog.bind_eq, wp_bind, ← List.append_nil (memberEntries _ _)]
      refine wp_setMember (withoutScore_of_none hm ▸ hrows) hat fun t₄ hrows₄ hat₄ => ?_
      have hwritten :
          ((o.map (·.2.count)).map (· + 1)).getD 1 = (o.map (·.2.count)).getD 0 + 1 := by
        cases o <;> rfl
      show wp A ((writeSentinel k _ P.element).bind _) _ _ _
      rw [wp_bind, hwritten]
      exact h.wp_writeSentinel hpub htarget hrows₄ hat₄ fun t' h' _ => hQ hnan t' h'
  | some old =>
    simp only [hm] at hQ hE
    dsimp only
    cases hnan : (old.add increment).isNan with
    | true => exact hE hnan t₃ hview
    | false =>
      cases htarget with
      | fresh hdrawn hdb hempty =>
        simp [scoresIn] at hm
      | own R =>
        rw [if_neg Bool.false_ne_true]
        simp only [Prog.bind_eq, wp_bind, wp_delete]
        rw [scoreKey_nodeAt, ← List.append_nil (memberEntries _ _)]
        refine wp_setMember (Holds.dropScore hrows hm) (hat.del _) fun t₄ hrows₄ hat₄ => ?_
        exact hQ hnan t₄ (.rescored hat₄ hrows₄)

/-! ## Storing a result -/

/-- Deleting what two scans list: rows of the two prefixes, and all of them that do not
expire. -/
theorem wp_clearTwo {p q : Bytes} (h : ∀ t', (∀ y, t'.view[y]? = t.view[y]? ∨
        ((p.isPrefixOf y = true ∨ q.isPrefixOf y = true) ∧ t'.view[y]? = none)) →
      (∀ y row, p.isPrefixOf y = true ∨ q.isPrefixOf y = true → t.view[y]? = some row →
        row.expireTs = none → t'.view[y]? = none) → Q () t') :
    wp A (scanUnder p) (fun rows t₁ => wp A (scanUnder q) (fun rows' t₂ =>
      wp A (deleteAll (rows.map (·.1))) (fun _ t₃ =>
        wp A (deleteAll (rows'.map (·.1))) Q E t₃) E t₂) E t₁) E t := by
  -- what a scan lists
  have hlists (x : Tick) (r : Bytes) : ∀ ks : List Bytes,
      ks = ((rowsOf t.view r.isPrefixOf).filter fun kr => x.listsExpired || !kr.2.expired x.now).map
        (·.1) →
      (∀ y ∈ ks, r.isPrefixOf y = true) ∧ ∀ y row, r.isPrefixOf y = true → t.view[y]? = some row →
        row.expireTs = none → y ∈ ks := by
    rintro ks rfl
    refine ⟨fun y hy => ?_, fun y row hp hrow hts => ?_⟩
    · obtain ⟨kr, hkr, rfl⟩ := List.mem_map.mp hy
      exact (mem_rowsOf.mp (List.mem_of_mem_filter hkr)).2
    · refine List.mem_map.mpr ⟨(y, row), List.mem_filter.mpr ⟨mem_rowsOf.mpr ⟨hrow, hp⟩, ?_⟩, rfl⟩
      simp [Row.expired, hts]
  unfold scanUnder
  rw [wp_scan]
  intro x _
  rw [wp_scan]
  intro x' _
  have hp := hlists x p _ rfl
  have hq := hlists x' q _ rfl
  refine wp_deleteAll fun t₁ h₁ => wp_deleteAll fun t₂ h₂ =>
    h t₂ (fun y => ?_) fun y row hy hrow hts => ?_
  · rw [h₂, h₁]
    split
    · rename_i hmem
      exact .inr ⟨.inr (hq.1 y hmem), rfl⟩
    · split
      · rename_i hmem
        exact .inr ⟨.inl (hp.1 y hmem), rfl⟩
      · exact .inl rfl
  · rw [h₂, h₁]
    rcases hy with hy | hy
    · rw [if_pos (hp.2 y row hy hrow hts), ite_self]
    · exact if_pos (hq.2 y row hy hrow hts)

/-- The key is gone, with rows of the two indexes under the prefix. -/
structure Emptied (s s' : Store) (k p : Bytes) : Prop extends Vacated s s' k p where
  all : ∀ y row, p ++ scoreTag <+: y ∨ p ++ memberTag <+: y → s[y]? = some row →
    row.expireTs = none → s'[y]? = none

/-- The destination is emptied, whatever it holds. -/
theorem wp_clearInternalKeys
    (h : wp A (resolvePrefix k (privateKey k)) (fun q t' => Known q ∧ t'.view = t.view) E t)
    (hQ : ∀ q t', Known q → Emptied t.view t'.view k q.bytes → Q () t') :
    wp A (clearInternalKeys (.new k)) Q E t := by
  unfold clearInternalKeys
  simp only [Prog.bind_eq, wp_bind]
  show wp A ((resolvePrefix k (privateKey k)).bind _) _ _ _
  rw [wp_bind]
  refine wp_post h fun q t' hq => ?_
  obtain ⟨hknown, hview⟩ := hq
  show wp A (scanUnder (q.bytes ++ scoreTag)) (fun rows t₁ =>
    wp A (scanUnder (q.bytes ++ memberTag)) (fun rows' t₂ =>
      wp A (deleteAll (rows.map (·.1))) (fun _ t₃ => wp A (deleteAll (rows'.map (·.1)))
        (fun _ t₄ => wp A (delete k) Q E t₄) E t₃) E t₂) E t₁) E t'
  refine wp_clearTwo fun t'' honly hall =>
    hQ q _ hknown ⟨⟨?_, fun y hy => ?_⟩, fun y row hp hrow hts => ?_⟩
  · rw [Txn.view_del, if_pos rfl]
  · rw [Txn.view_del, if_neg hy, ← hview]
    refine (honly y).imp_right fun hgone => ⟨?_, hgone.2⟩
    rcases hgone.1 with hp | hp
    · exact (List.prefix_append q.bytes _).trans (List.isPrefixOf_iff_prefix.mp hp)
    · exact (List.prefix_append q.bytes _).trans (List.isPrefixOf_iff_prefix.mp hp)
  · rw [Txn.view_del]
    simp only [← List.isPrefixOf_iff_prefix] at hp
    split
    · rfl
    · exact hall y row hp (hview ▸ hrow) hts

/-- The scores of a list of members. -/
def scoresOf (es : List MemberScore) (sc : ScoreMap) : ScoreMap :=
  insertAll (es.map fun e => (e.member, e.score)) sc

theorem wp_setMembers (hrows : Holds t.view P (rowAt sc)) (hat : AtPlace P s t.view)
    (hnodup : (es.map (·.member)).Nodup) (hnew : ∀ e ∈ es, sc[e.member]? = none)
    (hQ : ∀ t', Holds t'.view P (rowAt (scoresOf es sc)) → AtPlace P s t'.view → Q () t') :
    wp A (setAll (es.flatMap (memberEntries (nodeAt k P)))) Q E t := by
  induction es generalizing t sc with
  | nil => exact hQ t hrows hat
  | cons e es ih =>
    rw [List.map_cons, List.nodup_cons] at hnodup
    rw [List.flatMap_cons]
    have he : sc[e.member]? = none := hnew e List.mem_cons_self
    refine wp_setMember (withoutScore_of_none he ▸ hrows) hat fun t₁ hrows₁ hat₁ => ?_
    refine ih hrows₁ hat₁ hnodup.2 (fun e' he' => ?_) hQ
    rw [getElem?_insert_eq, if_neg fun (heq : e'.member = e.member) =>
      hnodup.1 (heq ▸ List.mem_map_of_mem he')]
    exact hnew e' (List.mem_cons_of_mem _ he')

theorem size_scoresOf (h : (es.map (·.member)).Nodup) : (scoresOf es ∅).size = es.length := by
  have hnodup : ((es.map fun e => (e.member, e.score)).map (·.1)).Nodup := by
    rw [List.map_map]
    exact h
  have hsize := size_insertAll hnodup (∅ : ScoreMap) fun _ _ => by simp
  rwa [Std.ExtTreeMap.size_empty, Nat.zero_add, List.length_map] at hsize

/-- **A result is stored** under a new namespace, after the destination was emptied. -/
theorem wp_storeZsetResult {Q : Post RespValue}
    (h : wp A (resolvePrefix k (privateKey k)) (fun q t' => Known q ∧ t'.view = t.view) E t)
    (hdb : db < 2 ^ 31) (hk : k = publicKey db name) (hfresh : 0 ≤ db → Unused A t.view db)
    (hnodup : (es.map (·.member)).Nodup) (hQ : ∀ q s₁ t', Known q → Emptied t.view s₁ k q.bytes →
      After A s₁ t'.view k none (scoresOf es ∅) (some es.length) → Q (.integer es.length) t')
    (hneg : db < 0 → ∀ t', E corruptPrefix t') : wp A (storeZsetResult (.new k) es) Q E t := by
  have hpub : IsPublic k := ⟨db, name, hk⟩
  unfold storeZsetResult
  rw [wp_seq]
  refine wp_clearInternalKeys h fun q t₁ hknown h₁ => ?_
  rw [wp_seq]
  show wp A (newNamespace (privateKey k)) _ _ _
  rw [show privateKey k = privateKey (publicKey db name) by rw [hk]]
  refine wp_newNamespace (fun hpos x hx => ?_) fun hdb => hneg hdb _
  have hempty : ∀ suffix, t₁.view[(Place.fresh db ⟨hpos, hdb⟩ x.rand).bytes ++ suffix]? = none :=
    h₁.unused hpub (hfresh hpos) x hx
  show wp A
    ((setAll (es.flatMap (memberEntries (nodeAt k (Place.fresh db ⟨hpos, hdb⟩ x.rand))))).bind
    fun _ => (writeSentinel k es.length (Place.fresh db ⟨hpos, hdb⟩ x.rand).element).bind fun _ =>
      pure (RespValue.integer es.length)) _ _ _
  rw [wp_bind]
  refine wp_setMembers (holds_of_empty hempty) (AtPlace.refl _ t₁.view) hnodup (fun _ _ => by simp)
    fun t₂ hrows hat => ?_
  rw [wp_bind]
  refine Found.wp_writeSentinel (.absent (hidden_of_none h₁.key)) hpub
    (.fresh ⟨x, hx, rfl⟩ ⟨name, hk⟩ hempty) hrows hat fun t' h' _ => hQ q _ t' hknown h₁ h'

/-- A range is loaded before the destination is looked at. -/
theorem Found.wp_zrangestore {src : Bytes} {Q : Post RespValue} (h : Found A t.view src o)
    (hQ : ∀ t', t'.view = t.view →
      wp A (storeZsetResult (.new k) (inRanks start stop (ranked (scoresIn o)))) Q E t') :
    wp A (zrangestore (.new k) (.new src) start stop) Q E t := by
  unfold zrangestore
  rw [wp_seq]
  refine h.wp_loadAllMembers (.inl rfl) fun t' ht' => ?_
  have hstore := hQ t' ht'
  unfold inRanks at hstore
  cases hrange : rangeIndexes (ranked (scoresIn o)).length start stop with
  | none =>
    rw [hrange] at hstore
    exact hstore
  | some range =>
    rw [hrange] at hstore
    exact hstore

/-! ## Set algebra -/

theorem nodup_zsetToSlice (map : ScoreMap) : ((zsetToSlice map).map (·.member)).Nodup :=
  (((List.mergeSort_perm (entriesOf map) memberLe).map (·.member)).nodup_iff).mpr
    (nodup_members map)

theorem length_zsetToSlice (map : ScoreMap) : (zsetToSlice map).length = map.size := by
  rw [zsetToSlice, List.length_mergeSort]
  exact length_entriesOf map

/-- The scores of all members are the scores. -/
theorem scoresOf_perm (h : es.Perm (entriesOf sc)) : scoresOf es ∅ = sc := by
  have hnodup : ((es.map fun e => (e.member, e.score)).map (·.1)).Nodup := by
    rw [List.map_map]
    exact ((h.map (·.member)).nodup_iff).mpr (nodup_members sc)
  refine insertAll_eq hnodup fun m x => ?_
  rw [List.mem_map]
  constructor
  · rintro ⟨e, he, heq⟩
    cases heq
    exact mem_entriesOf.mp (h.mem_iff.mp he)
  · intro hx
    exact ⟨⟨m, x⟩, h.mem_iff.mpr (mem_entriesOf.mpr hx), rfl⟩

/-! ## Sorted sets that are stored -/

/-- A sorted set that was made has its rows and a sentinel without an expiry. -/
theorem After.made_at {n : Nat} (h : After A s s' k none sc (some n)) :
    ∃ P : Place, s'[k]? = some (sentinelRow (beBytes 4 n) .sortedSet P.element none) ∧
      Holds s' P (rowAt sc) := by
  cases h with
  | made _ _ _ hrows hkey => exact ⟨_, hkey, hrows⟩

/-- It is found again. -/
theorem After.found {n : Nat} (h : After A s s' k none sc (some n)) (hn : n < 2 ^ 32)
    (B : Tick → Prop) :
    (∃ P, Found B s' k (some (P, ⟨sc, n, hn⟩))) ∧
      ∀ row, s'[k]? = some row → row.expireTs = none := by
  obtain ⟨P, hkey, hrows⟩ := h.made_at
  refine ⟨⟨P, .present hkey (Row.lastsFor_of_none rfl B)
    (isSentinel_sentinelRow (P.storable _) _ _ _) hrows⟩, fun row hrow => ?_⟩
  rw [← Option.some.inj (hkey.symm.trans hrow)]
  rfl

/-- What a command leaves is found by the next one. -/
theorem After.found_again {count : Option Nat} (hafter : After A s s' k o sc count)
    (h : Found A s k o)
    (hpub : IsPublic k) (hsteady : Steady A s k) :
    ∃ o', Found A s' k o' ∧ Steady A s' k ∧ o'.map (·.2.count) = count.map (· % 2 ^ 32) ∧
      (o = none ∨ count.isSome = true → scoresIn o' = sc) := by
  have hgone (hkey : s'[k]? = none) : Found A s' k none ∧ Steady A s' k := by
    refine ⟨.absent (hidden_of_none hkey), fun row' hrow' => ?_⟩
    rw [hkey] at hrow'
    cases hrow'
  have hwritten {P : Place} {n : Nat} {ts : Option Int} (hrows : Holds s' P (rowAt sc))
      (hkey : s'[k]? = some (sentinelRow (beBytes 4 n) .sortedSet P.element ts))
      (hlast : (sentinelRow (beBytes 4 n) .sortedSet P.element ts).LastsFor A)
      (hkept : ∀ x y, A x → A y → keptTs ts x.now y.now = ts) :
      ∃ o', Found A s' k o' ∧ Steady A s' k ∧ o'.map (·.2.count) = (some n).map (· % 2 ^ 32) ∧
        (o = none ∨ (some n).isSome = true → scoresIn o' = sc) := by
    refine ⟨some (P, ⟨sc, n % 2 ^ 32, Nat.mod_lt _ (by decide)⟩), .present hkey hlast ?_ hrows,
      fun row' hrow' => ?_, rfl, fun _ => rfl⟩
    · rw [beBytes_mod]
      exact isSentinel_sentinelRow (P.storable _) _ _ _
    · obtain rfl := Option.some.inj (hkey.symm.trans hrow')
      exact hkept
  cases h with
  | absent hidden =>
    cases hafter with
    | unchanged hs => exact ⟨none, hs ▸ .absent hidden, hs ▸ hsteady, rfl, fun _ => rfl⟩
    | dropped _ hkey => exact ⟨none, (hgone hkey).1, (hgone hkey).2, rfl, fun _ => rfl⟩
    | made _ _ _ hrows hkey =>
      exact hwritten hrows hkey (Row.lastsFor_of_none rfl A) fun _ _ _ _ => rfl
  | @present R row hrow hlast hsent hrows =>
    have hsame (hkey : s'[k]? = s[k]?) (hrows : Holds s' R.1 (rowAt sc)) :
        ∃ o', Found A s' k o' ∧ Steady A s' k ∧
          o'.map (·.2.count) = (some R.2.count).map (· % 2 ^ 32) ∧
          (some R = none ∨ (some R.2.count).isSome = true → scoresIn o' = sc) := by
      refine ⟨some (R.1, ⟨sc, R.2.count, R.2.count_lt⟩),
        .present (hkey.trans hrow) hlast hsent hrows,
        fun row' hrow' => hsteady row' (hkey ▸ hrow'), ?_, fun _ => rfl⟩
      rw [Option.map_some, Option.map_some, Nat.mod_eq_of_lt R.2.count_lt]
    cases hafter with
    | unchanged hs =>
      subst hs
      exact hsame rfl hrows
    | rescored hat hrows' => exact hsame (hat k (hpub.not_isPrefix R.1)) hrows'
    | emptied _ _ hkey => exact ⟨none, (hgone hkey).1, (hgone hkey).2, rfl, nofun⟩
    | counted _ hrows' hts hkey =>
      obtain ⟨x, y, hx, hy, hts⟩ := hts row hrow
      rw [hsteady row hrow x y hx hy] at hts
      subst hts
      exact hwritten hrows' hkey hlast (hsteady row hrow)

/-- Every finite map of scores is stored in some store. -/
theorem exists_found (name : Bytes) (hnodup : (es.map (·.member)).Nodup)
    (hlen : es.length < 2 ^ 32) (B : Tick → Prop) :
    ∃ s P, Found B s (publicKey 0 name) (some (P, ⟨scoresOf es ∅, es.length, hlen⟩)) ∧
      Steady B s (publicKey 0 name) := by
  let tick : Tick := { now := 0, rand := 0 }
  have habsent : Resolves (· = tick) ∅ (publicKey 0 name) (privateKey (publicKey 0 name)) :=
    .absent (hidden_of_none (by simp))
  have hstore : wp (· = tick) (storeZsetResult (.new (publicKey 0 name)) es)
      (fun _ t' => (∃ P, Found B t'.view (publicKey 0 name)
        (some (P, ⟨scoresOf es ∅, es.length, hlen⟩))) ∧
        ∀ row, t'.view[publicKey 0 name]? = some row → row.expireTs = none)
      (fun _ _ => False) { view := ∅ } :=
    wp_storeZsetResult (Resolves.wp (t := { view := ∅ }) habsent) (by decide) rfl
      (fun _ _ _ _ => by simp) hnodup (fun _ _ _ _ _ hafter => hafter.found hlen B)
      fun hneg => absurd hneg (by decide)
  obtain ⟨_, -, ⟨P, hfound⟩, hlast⟩ := exec_ok_of_wp hstore (fun _ => tick) fun _ => rfl
  refine ⟨_, P, hfound, fun row hrow x y _ _ => ?_⟩
  rw [hlast row hrow]
  rfl

/-- Members with equal and with different scores, in the order of the score index. -/
def sample : List MemberScore :=
  [⟨ascii "c", .zero⟩, ⟨ascii "a", .ofInt 1⟩, ⟨ascii "b", .ofInt 1⟩]

theorem nodup_sample : (sample.map (·.member)).Nodup := by decide

theorem ranked_sample : ranked (scoresOf sample ∅) = sample := by
  have hperm : sample.Perm (entriesOf (scoresOf sample ∅)) := by decide +kernel
  refine (Ranking.eq_rank ?_ hperm).symm
  unfold Ranking.Ranked
  decide

end Invar.Zset
