import Invar.Lib.FiniteMaps
import Invar.Redis.KeyMoves
import Invar.Redis.ZsetOps

/-!
# Sorted sets in the store

A sorted set with the scores `sc` is stored as a sentinel with a count, one row of the
member index and one of the score index for each member. Both indexes are functions of
`sc` (`Cell.row`), and a row key says which row it is (`parseCell`), so that the commands
are specified by what they do to the scores.
-/

namespace Invar.Zset

open StoreProg TxProg FiniteMap Ieee754

/-! ## Scores in keys -/

theorem and_signMask (b : UInt64) : (b &&& signMask != 0) = b.toBitVec.msb := by
  have hmask : signMask.toBitVec = BitVec.twoPow 64 63 := by decide
  have hmsb : b.toBitVec.msb = b.toBitVec.getLsbD 63 := rfl
  rw [Bool.eq_iff_iff, bne_iff_ne, ne_eq, ← UInt64.toBitVec_inj, UInt64.toBitVec_and, hmask,
    BitVec.and_twoPow, hmsb]
  cases b.toBitVec.getLsbD 63 <;> decide

theorem shiftRight_sign (b : UInt64) : (b >>> 63 == 1) = b.toBitVec.msb := by
  have hlt := b.toNat_lt
  have hshift : (b >>> 63).toNat = b.toNat / 2 ^ 63 := by
    rw [UInt64.toNat_shiftRight, Nat.shiftRight_eq_div_pow]
    rfl
  rw [Bool.eq_iff_iff, beq_iff_eq, ← UInt64.toNat_inj, BitVec.msb_eq_decide, decide_eq_true_eq,
    hshift]
  show b.toNat / 2 ^ 63 = 1 ↔ 2 ^ (64 - 1) ≤ b.toNat
  omega

theorem msb_not (b : UInt64) : (~~~b).toBitVec.msb = !b.toBitVec.msb := by
  simp

theorem msb_xor_signMask (b : UInt64) : (b ^^^ signMask).toBitVec.msb = !b.toBitVec.msb := by
  have hmask : signMask.toBitVec.msb = true := by decide
  rw [UInt64.toBitVec_xor, BitVec.msb_xor, hmask]
  simp

theorem xor_signMask (b : UInt64) : b ^^^ signMask ^^^ signMask = b := by
  rw [UInt64.xor_assoc, UInt64.xor_self, UInt64.xor_zero]

/-- The bits of an encoded score. -/
def orderedBits (bits : UInt64) : UInt64 :=
  if bits.toBitVec.msb then ~~~bits else bits ^^^ signMask

def plainBits (bits : UInt64) : UInt64 :=
  if bits.toBitVec.msb then bits ^^^ signMask else ~~~bits

theorem plainBits_orderedBits (bits : UInt64) : plainBits (orderedBits bits) = bits := by
  unfold plainBits orderedBits
  cases h : bits.toBitVec.msb with
  | false => simp only [Bool.false_eq_true, if_false, msb_xor_signMask, h, Bool.not_false, if_true,
      xor_signMask]
  | true => simp only [if_true, msb_not, h, Bool.not_true, Bool.false_eq_true, if_false,
      UInt64.not_not]

theorem orderedBits_plainBits (bits : UInt64) : orderedBits (plainBits bits) = bits := by
  unfold plainBits orderedBits
  cases h : bits.toBitVec.msb with
  | false => simp only [Bool.false_eq_true, if_false, msb_not, h, Bool.not_false, if_true,
      UInt64.not_not]
  | true => simp only [if_true, msb_xor_signMask, h, Bool.not_true, Bool.false_eq_true, if_false,
      xor_signMask]

theorem encodeScore_eq (score : F64) :
    encodeScore score = beBytes 8 (orderedBits score.bits).toNat := by
  unfold encodeScore orderedBits F64.signBit
  rw [shiftRight_sign]

theorem decodeScore_eq (bytes : Bytes) :
    decodeScore bytes = ⟨plainBits (UInt64.ofNat (ofBeBytes bytes))⟩ := by
  simp only [decodeScore, plainBits, and_signMask]

theorem length_encodeScore (score : F64) : (encodeScore score).length = 8 := length_beBytes _ _

theorem decodeScore_encodeScore (score : F64) : decodeScore (encodeScore score) = score := by
  have hlt : (orderedBits score.bits).toNat < 256 ^ 8 := (orderedBits score.bits).toNat_lt
  rw [decodeScore_eq, encodeScore_eq, ofBeBytes_beBytes, Nat.mod_eq_of_lt hlt, UInt64.ofNat_toNat,
    plainBits_orderedBits]

theorem encodeScore_decodeScore {bytes : Bytes} (h : bytes.length = 8) :
    encodeScore (decodeScore bytes) = bytes := by
  have hlt : ofBeBytes bytes < 256 ^ 8 := by
    have hlt := ofBeBytes_lt bytes
    rwa [h] at hlt
  have hbytes := beBytes_ofBeBytes bytes
  rw [h] at hbytes
  rw [encodeScore_eq, decodeScore_eq]
  show beBytes 8 (orderedBits (plainBits _)).toNat = bytes
  rw [orderedBits_plainBits, UInt64.toNat_ofNat', show (2 : Nat) ^ 64 = 256 ^ 8 from rfl,
    Nat.mod_eq_of_lt hlt, hbytes]

theorem scoreOfBytes_scoreBytes (score : F64) : scoreOfBytes (scoreBytes score) = score := by
  have hlt : score.bits.toNat < 256 ^ 8 := score.bits.toNat_lt
  unfold scoreOfBytes scoreBytes
  rw [List.take_of_length_le (by simp), ofBeBytes_beBytes, Nat.mod_eq_of_lt hlt, UInt64.ofNat_toNat]

/-! ## The rows of a sorted set -/

def memberTag : Bytes := ascii ":member:"

def scoreTag : Bytes := ascii ":score:"

/-- A row of one of the two indexes. -/
inductive Cell where
  | member (m : Bytes)
  | score (e : MemberScore)
deriving DecidableEq

def Cell.suffix : Cell → Bytes
  | .member m => memberTag ++ m
  | .score e => scoreTag ++ (encodeScore e.score ++ 58 :: e.member)

def parseCell (suffix : Bytes) : Option Cell :=
  if memberTag.isPrefixOf suffix then some (.member (suffix.drop memberTag.length))
  else if scoreTag.isPrefixOf suffix && suffix[scoreTag.length + 8]? == some 58 then
    some (.score (memberOfKey scoreTag.length suffix))
  else none

theorem memberOfKey_suffix (p : Bytes) (e : MemberScore) :
    memberOfKey (p ++ scoreTag).length (p ++ (Cell.score e).suffix) = e := by
  have hlen := length_encodeScore e.score
  unfold Cell.suffix memberOfKey
  rw [← List.append_assoc, ← List.drop_drop, List.drop_left, List.take_left' hlen,
    decodeScore_encodeScore, List.drop_append, List.drop_of_length_le (by omega), hlen]
  rfl

theorem parseCell_suffix (c : Cell) : parseCell c.suffix = some c := by
  cases c with
  | member m =>
    unfold parseCell Cell.suffix
    rw [if_pos (List.isPrefixOf_iff_prefix.mpr (List.prefix_append _ _)), List.drop_left]
  | score e =>
    have hnot :
      memberTag.isPrefixOf (scoreTag ++ (encodeScore e.score ++ 58 :: e.member)) = false :=
      rfl
    have hlen := length_encodeScore e.score
    unfold parseCell Cell.suffix
    rw [if_neg (by simp [hnot])]
    have hcolon : (scoreTag ++ (encodeScore e.score ++ 58 :: e.member))[scoreTag.length + 8]? =
        some 58 := by
      rw [List.getElem?_append_right (by omega), Nat.add_sub_cancel_left, ← hlen,
        List.getElem?_append_right (Nat.le_refl _), Nat.sub_self]
      rfl
    rw [if_pos (by simp [hcolon])]
    exact congrArg (some ∘ Cell.score) (memberOfKey_suffix [] e)

variable {c : Cell}

theorem suffix_of_parseCell {suffix : Bytes} (h : parseCell suffix = some c) :
    c.suffix = suffix := by
  unfold parseCell at h
  split at h
  · rename_i hp
    obtain ⟨r, rfl⟩ := List.isPrefixOf_iff_prefix.mp hp
    cases h
    rw [List.drop_left]
    rfl
  · split at h
    · rename_i hp
      simp only [Bool.and_eq_true, beq_iff_eq] at hp
      obtain ⟨r, rfl⟩ := List.isPrefixOf_iff_prefix.mp hp.1
      have hcolon := hp.2
      rw [List.getElem?_append_right (by omega), Nat.add_sub_cancel_left] at hcolon
      obtain ⟨hlt, hget⟩ := List.getElem?_eq_some_iff.mp hcolon
      cases h
      simp only [Cell.suffix, memberOfKey, List.drop_left, ← List.drop_drop]
      rw [encodeScore_decodeScore (by rw [List.length_take]; omega), List.append_cancel_left_eq]
      conv_rhs => rw [← List.take_append_drop 8 r, List.drop_eq_getElem_cons hlt, hget]
    · cases h

theorem Cell.suffix_inj {c' : Cell} (h : c.suffix = c'.suffix) : c = c' :=
  Option.some.inj (by rw [← parseCell_suffix c, h, parseCell_suffix])

def memberRow (score : F64) : Row where
  value := scoreBytes score

def scoreRow : Row where
  value := []

/-- The rows that the scores stand for. -/
def rowAt (sc : ScoreMap) : Cell → Option Row
  | .member m => sc[m]?.map memberRow
  | .score e => if sc[e.member]? = some e.score then some scoreRow else none

theorem lasting_rowAt {sc : ScoreMap} {row : Row} (h : rowAt sc c = some row) :
    row.expireTs = none := by
  cases c with
  | member m =>
    simp only [rowAt, Option.map_eq_some_iff] at h
    obtain ⟨x, -, hx⟩ := h
    rw [← hx]
    rfl
  | score e =>
    simp only [rowAt, Option.ite_none_right_eq_some, Option.some.injEq] at h
    rw [← h.2]
    rfl

/-- The scores in the indexes, and the count in the sentinel. -/
structure SortedSet where
  scores : ScoreMap
  count : Nat
  count_lt : count < 2 ^ 32

def layout : Layout SortedSet where
  type _ := .sortedSet
  content z := beBytes 4 z.count
  cells z suffix := (parseCell suffix).bind (rowAt z.scores)
  lasting h := by
    obtain ⟨c, -, hrow⟩ := Option.bind_eq_some_iff.mp h
    exact lasting_rowAt hrow

theorem covered : layout.Covered where
  notList _ := nofun
  covered {z suffix} h := by
    change ((parseCell suffix).bind (rowAt z.scores)).isSome = true at h
    cases hc : parseCell suffix with
    | none => rw [hc] at h; cases h
    | some c =>
      rw [← suffix_of_parseCell hc]
      cases c with
      | member m =>
        exact ⟨memberTag, List.mem_cons_of_mem _ List.mem_cons_self, List.prefix_append _ _⟩
      | score e => exact ⟨scoreTag, List.mem_cons_self, List.prefix_append _ _⟩

/-! ## The rows at a place -/

/-- The place has the rows `f`, and no others. -/
structure Holds (s : Store) (P : Place) (f : Cell → Option Row) : Prop where
  cell : ∀ c : Cell, s[P.bytes ++ c.suffix]? = f c
  rest : ∀ suffix : Bytes, parseCell suffix = none → s[P.bytes ++ suffix]? = none

variable {s s' : Store} {C : Catalog SortedSet} {k : Bytes} {P : Place} {z : SortedSet}
  {sc : ScoreMap} {m : Bytes} {x : F64} {f : Cell → Option Row} {A : Tick → Prop}
  {E : Post DbError} {t : Txn Bytes Row}

theorem Holds.put (h : Holds t.view P f) (c : Cell) (row : Row) :
    Holds (t.put (P.bytes ++ c.suffix) row).view P (Function.update f c (some row)) where
  cell c' := by
    rw [Place.view_put, h.cell]
    by_cases hc : c' = c
    · rw [hc, if_pos rfl, Function.update_self]
    · rw [if_neg fun heq => hc (Cell.suffix_inj heq), Function.update_of_ne hc]
  rest suffix hs := by
    rw [Place.view_put, if_neg fun heq => ?_, h.rest suffix hs]
    rw [heq, parseCell_suffix] at hs
    cases hs

theorem Holds.del (h : Holds t.view P f) (c : Cell) :
    Holds (t.del (P.bytes ++ c.suffix)).view P (Function.update f c none) where
  cell c' := by
    rw [Place.view_del, h.cell]
    by_cases hc : c' = c
    · rw [hc, if_pos rfl, Function.update_self]
    · rw [if_neg fun heq => hc (Cell.suffix_inj heq), Function.update_of_ne hc]
  rest suffix hs := by
    rw [Place.view_del, h.rest suffix hs, ite_self]

theorem holds_iff : Holds s P (rowAt sc) ↔
    ∀ suffix, s[P.bytes ++ suffix]? = (parseCell suffix).bind (rowAt sc) := by
  constructor
  · intro h suffix
    cases hc : parseCell suffix with
    | none => exact h.rest suffix hc
    | some c =>
      rw [← suffix_of_parseCell hc]
      exact h.cell c
  · intro h
    refine ⟨fun c => ?_, fun suffix hs => ?_⟩
    · rw [h, parseCell_suffix]
      rfl
    · rw [h, hs]
      rfl

theorem holds_of_stored (h : Stored layout s C) (hk : C k = some (P, z)) :
    Holds s P (rowAt z.scores) := holds_iff.mpr (h.cells hk)

theorem holds_of_empty (h : ∀ suffix, s[P.bytes ++ suffix]? = none) : Holds s P (rowAt ∅) where
  cell c := by
    rw [h]
    cases c <;> simp [rowAt]
  rest suffix _ := h suffix

/-- The rows without a score row of the member. -/
def withoutScore (sc : ScoreMap) (m : Bytes) : Cell → Option Row
  | .member m' => rowAt sc (.member m')
  | .score e => if e.member = m then none else rowAt sc (.score e)

theorem withoutScore_of_none (h : sc[m]? = none) : withoutScore sc m = rowAt sc := by
  funext c
  cases c with
  | member m' => rfl
  | score e =>
    show (if e.member = m then none else rowAt sc (.score e)) = rowAt sc (.score e)
    split
    · rename_i heq
      simp [rowAt, heq, h]
    · rfl

theorem withoutScore_of_some (h : sc[m]? = some x) :
    Function.update (rowAt sc) (.score ⟨m, x⟩) none = withoutScore sc m := by
  funext c
  cases c with
  | member m' => rfl
  | score e =>
    by_cases he : e = ⟨m, x⟩
    · subst he
      simp [withoutScore]
    · rw [Function.update_of_ne fun heq => he (Cell.score.inj heq)]
      show rowAt sc (.score e) = if e.member = m then none else rowAt sc (.score e)
      split
      · rename_i heq
        obtain ⟨m', x'⟩ := e
        obtain rfl : m' = m := heq
        simp only [rowAt, h, Option.some.injEq]
        rw [if_neg fun hx => he (by rw [hx])]
      · rfl

/-- Both rows of a member are written. -/
theorem rowAt_insert (sc : ScoreMap) (m : Bytes) (x : F64) :
    Function.update (Function.update (withoutScore sc m) (.score ⟨m, x⟩) (some scoreRow))
      (.member m) (some (memberRow x)) = rowAt (sc.insert m x) := by
  funext c
  cases c with
  | member m' =>
    by_cases hm : m' = m
    · rw [hm, Function.update_self]
      simp [rowAt]
    · rw [Function.update_of_ne fun heq => hm (Cell.member.inj heq),
        Function.update_of_ne (by simp)]
      simp only [withoutScore, rowAt, getElem?_insert_eq, if_neg hm]
  | score e =>
    rw [Function.update_of_ne (by simp)]
    by_cases he : e = ⟨m, x⟩
    · rw [he, Function.update_self]
      simp [rowAt]
    · rw [Function.update_of_ne fun heq => he (Cell.score.inj heq)]
      simp only [withoutScore, rowAt, getElem?_insert_eq]
      split
      · rename_i hm
        subst hm
        rw [if_neg fun hx => he (by rw [Option.some.inj hx])]
      · rfl

theorem rowAt_erase (sc : ScoreMap) (m : Bytes) :
    Function.update (withoutScore sc m) (.member m) none = rowAt (sc.erase m) := by
  funext c
  cases c with
  | member m' =>
    by_cases hm : m' = m
    · rw [hm, Function.update_self]
      simp [rowAt]
    · rw [Function.update_of_ne fun heq => hm (Cell.member.inj heq)]
      simp only [withoutScore, rowAt, getElem?_erase_eq, if_neg hm]
  | score e =>
    rw [Function.update_of_ne (by simp)]
    simp only [withoutScore, rowAt, getElem?_erase_eq]
    split
    · simp
    · rfl

/-- A member with its rows. -/
theorem Holds.insert (h : Holds t.view P (withoutScore sc m)) (x : F64) :
    Holds ((t.put (P.bytes ++ (Cell.score ⟨m, x⟩).suffix) scoreRow).put
      (P.bytes ++ (Cell.member m).suffix) (memberRow x)).view P (rowAt (sc.insert m x)) := by
  rw [← rowAt_insert]
  exact (h.put _ _).put _ _

theorem Holds.dropScore (h : Holds t.view P (rowAt sc)) (hx : sc[m]? = some x) :
    Holds (t.del (P.bytes ++ (Cell.score ⟨m, x⟩).suffix)).view P (withoutScore sc m) := by
  rw [← withoutScore_of_some hx]
  exact h.del _

theorem Holds.erase (h : Holds t.view P (rowAt sc)) (hx : sc[m]? = some x) :
    Holds ((t.del (P.bytes ++ (Cell.member m).suffix)).del
      (P.bytes ++ (Cell.score ⟨m, x⟩).suffix)).view P (rowAt (sc.erase m)) := by
  rw [← rowAt_erase, ← withoutScore_of_some hx, Function.update_comm (by simp)]
  exact (h.del _).del _

/-! ## The members and their scores -/

def entriesOf (sc : ScoreMap) : List MemberScore := sc.toList.map fun ms => ⟨ms.1, ms.2⟩

theorem mem_entriesOf {e : MemberScore} : e ∈ entriesOf sc ↔ sc[e.member]? = some e.score := by
  simp only [entriesOf, List.mem_map, Prod.exists, Std.ExtTreeMap.mem_toList_iff_getElem?_eq_some]
  constructor
  · rintro ⟨m, x, hx, rfl⟩
    exact hx
  · exact fun h => ⟨_, _, h, rfl⟩

theorem nodup_members (sc : ScoreMap) : ((entriesOf sc).map (·.member)).Nodup := by
  rw [entriesOf, List.map_map]
  exact nodup_keys sc

theorem length_entriesOf (sc : ScoreMap) : (entriesOf sc).length = sc.size := by
  rw [entriesOf, List.length_map, Std.ExtTreeMap.length_toList]

theorem scoreTag_not_isPrefix (m : Bytes) : ¬scoreTag <+: (Cell.member m).suffix := by
  have hnot : scoreTag.isPrefixOf (Cell.member m).suffix = false := rfl
  rw [← List.isPrefixOf_iff_prefix, hnot]
  exact Bool.false_ne_true

theorem memberTag_not_isPrefix (e : MemberScore) : ¬memberTag <+: (Cell.score e).suffix := by
  have hnot : memberTag.isPrefixOf (Cell.score e).suffix = false := rfl
  rw [← List.isPrefixOf_iff_prefix, hnot]
  exact Bool.false_ne_true

/-- The rows of one index are those of the members. -/
theorem Holds.rowsOf_perm (h : Holds s P (rowAt sc)) {tag : Bytes} (cell : MemberScore → Cell)
    (row : MemberScore → Row)
    (hcell : ∀ {e e' : MemberScore}, cell e = cell e' → sc[e.member]? = some e.score →
      sc[e'.member]? = some e'.score → e = e')
    (htag : ∀ (c : Cell) r, tag <+: c.suffix → rowAt sc c = some r →
      ∃ e : MemberScore, sc[e.member]? = some e.score ∧ c = cell e ∧ r = row e)
    (hrow : ∀ e : MemberScore, sc[e.member]? = some e.score →
      tag <+: (cell e).suffix ∧ rowAt sc (cell e) = some (row e)) :
    (rowsOf s (P.bytes ++ tag).isPrefixOf).Perm
      ((entriesOf sc).map fun e => (P.bytes ++ (cell e).suffix, row e)) := by
  have hrows : (rowsOf s (P.bytes ++ tag).isPrefixOf).Nodup :=
    List.Nodup.of_map Prod.fst (nodup_keysOf s _)
  have hentries : ((entriesOf sc).map fun e => (P.bytes ++ (cell e).suffix, row e)).Nodup := by
    refine List.Nodup.map_on (fun e he e' he' heq => ?_) (List.Nodup.of_map _ (nodup_members sc))
    have hsuffix := List.append_cancel_left (Prod.mk.inj heq).1
    exact hcell (Cell.suffix_inj hsuffix) (mem_entriesOf.mp he) (mem_entriesOf.mp he')
  refine (List.perm_ext_iff_of_nodup hrows hentries).mpr fun kr => ?_
  obtain ⟨key, r⟩ := kr
  rw [mem_rowsOf, List.isPrefixOf_iff_prefix, List.mem_map]
  constructor
  · rintro ⟨hr, suffix, rfl⟩
    rw [List.append_assoc] at hr
    cases hc : parseCell (tag ++ suffix) with
    | none =>
      rw [h.rest _ hc] at hr
      cases hr
    | some c =>
      have hsuffix := suffix_of_parseCell hc
      rw [← hsuffix, h.cell] at hr
      obtain ⟨e, he, rfl, rfl⟩ := htag c r (hsuffix ▸ List.prefix_append _ _) hr
      exact ⟨e, mem_entriesOf.mpr he, by rw [hsuffix, List.append_assoc]⟩
  · rintro ⟨e, he, heq⟩
    obtain ⟨hp, hr⟩ := hrow e (mem_entriesOf.mp he)
    cases heq
    exact ⟨by rw [h.cell, hr], (List.prefix_append_right_inj _).mpr hp⟩

theorem Holds.scoreRows (h : Holds s P (rowAt sc)) :
    (rowsOf s (P.bytes ++ scoreTag).isPrefixOf).Perm
      ((entriesOf sc).map fun e => (P.bytes ++ (Cell.score e).suffix, scoreRow)) := by
  refine h.rowsOf_perm Cell.score (fun _ => scoreRow) (fun heq _ _ => Cell.score.inj heq)
    (fun c r hp hr => ?_) fun e he => ?_
  · cases c with
    | member m => exact absurd hp (scoreTag_not_isPrefix m)
    | score e =>
      simp only [rowAt, Option.ite_none_right_eq_some, Option.some.injEq] at hr
      exact ⟨e, hr.1, rfl, hr.2.symm⟩
  · exact ⟨List.prefix_append _ _, by simp [rowAt, he]⟩

theorem Holds.memberRows (h : Holds s P (rowAt sc)) :
    (rowsOf s (P.bytes ++ memberTag).isPrefixOf).Perm
      ((entriesOf sc).map fun e => (P.bytes ++ (Cell.member e.member).suffix,
        memberRow e.score)) := by
  refine h.rowsOf_perm (fun e => .member e.member) (fun e => memberRow e.score)
    (fun {e e'} heq he he' => ?_) (fun c r hp hr => ?_) fun e he => ?_
  · obtain ⟨m, x⟩ := e
    obtain ⟨m', x'⟩ := e'
    obtain rfl : m = m' := Cell.member.inj heq
    obtain rfl : x = x' := Option.some.inj (he.symm.trans he')
    rfl
  · cases c with
    | member m =>
      simp only [rowAt, Option.map_eq_some_iff] at hr
      obtain ⟨x, hx, rfl⟩ := hr
      exact ⟨⟨m, x⟩, hx, rfl, rfl⟩
    | score e => exact absurd hp (memberTag_not_isPrefix e)
  · exact ⟨List.prefix_append _ _, by simp [rowAt, he]⟩

end Invar.Zset
