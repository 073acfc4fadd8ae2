import Invar.Lib.FixedDigits
import Invar.Lib.Ranking
import Invar.Redis.ZsetState

/-!
# The orders of a sorted set

A scan over the score index lists the members by the bytes of their encoded scores, then by
member. `zset_to_slice` sorts by the numbers. The two agree for scores that are not NaN, up to
the two zeros, which are one number and have two encodings.
-/

namespace Invar.Zset

open StoreProg TxProg FiniteMap Ieee754 Ranking

/-! ## Big-endian bytes in order -/

/-- Bytes of one width compare as the numbers that they stand for. -/
theorem compare_beBytes (width m n : Nat) :
    compare (beBytes width m) (beBytes width n) = compare (m % 256 ^ width) (n % 256 ^ width) := by
  induction width with
  | zero => simp [beBytes, Nat.mod_one]
  | succ width ih =>
    have hbyte (n : Nat) : (UInt8.ofNat (n / 256 ^ width)).toNat =
        n % 256 ^ (width + 1) / 256 ^ width := by
      rw [UInt8.toNat_ofNat', Nat.pow_succ 256, Nat.mod_mul_right_div_self]
    have hrest (n : Nat) : n % 256 ^ (width + 1) % 256 ^ width = n % 256 ^ width := by
      rw [Nat.pow_succ, Nat.mod_mul_right_mod]
    rw [beBytes, beBytes, List.compare_cons_cons, UInt8.compare_eq_toNat_compare_toNat, hbyte,
      hbyte,
      ih, FixedDigits.compare_div_mod (256 ^ width) (m % 256 ^ (width + 1)), hrest, hrest]

/-! ## The order of the score index -/

/-- The number whose bytes are in the keys of the score index. -/
def scoreRank (x : F64) : Nat := (orderedBits x.bits).toNat

theorem encodeScore_rank (x : F64) : encodeScore x = beBytes 8 (scoreRank x) := encodeScore_eq x

theorem scoreRank_lt (x : F64) : scoreRank x < 256 ^ 8 := (orderedBits x.bits).toNat_lt

variable {x y : F64} {sc : ScoreMap}

theorem scoreRank_inj (h : scoreRank x = scoreRank y) : x = y := by
  have hbits := congrArg plainBits (UInt64.toNat_inj.mp h)
  rw [plainBits_orderedBits, plainBits_orderedBits] at hbits
  exact congrArg F64.mk hbits

def entryCmp : MemberScore → MemberScore → Ordering :=
  compareLex (compareOn fun e => scoreRank e.score) (compareOn (·.member))

instance : Std.TransCmp entryCmp := inferInstanceAs (Std.TransCmp (compareLex _ _))

theorem entryCmp_eq (a b : MemberScore) : entryCmp a b =
    (compare (scoreRank a.score) (scoreRank b.score)).then (compare a.member b.member) := rfl

instance : Std.LawfulEqCmp entryCmp where
  eq_of_compare {a b} h := by
    rw [entryCmp_eq, Ordering.then_eq_eq] at h
    obtain ⟨m, x⟩ := a
    obtain ⟨m', x'⟩ := b
    obtain rfl : x = x' := scoreRank_inj (Std.LawfulEqCmp.eq_of_compare h.1)
    obtain rfl : m = m' := Std.LawfulEqCmp.eq_of_compare h.2
    rfl

/-- Keys of the score index are in the order of their entries. -/
theorem compare_scoreKeys (p : Bytes) (a b : MemberScore) :
    compare (p ++ (Cell.score a).suffix) (p ++ (Cell.score b).suffix) = entryCmp a b := by
  have hlen : (encodeScore a.score).length = (encodeScore b.score).length := by
    rw [length_encodeScore, length_encodeScore]
  rw [FixedDigits.compare_append_left, entryCmp_eq]
  show compare (scoreTag ++ _) (scoreTag ++ _) = _
  rw [FixedDigits.compare_append_left, FixedDigits.compare_append_of_length hlen, encodeScore_rank,
    encodeScore_rank, compare_beBytes, Nat.mod_eq_of_lt (scoreRank_lt _),
    Nat.mod_eq_of_lt (scoreRank_lt _), List.compare_cons_cons, Std.ReflOrd.compare_self]
  rfl

/-- The members in the order of the score index. -/
def ranked (sc : ScoreMap) : List MemberScore := Ranking.rank entryCmp (entriesOf sc)

section

variable {s : Store} {P : Place} {e : MemberScore}

theorem mem_ranked : e ∈ ranked sc ↔ sc[e.member]? = some e.score := mem_rank.trans mem_entriesOf

theorem length_ranked (sc : ScoreMap) : (ranked sc).length = sc.size := by
  rw [ranked, length_rank, length_entriesOf]

theorem ranked_empty : ranked ∅ = [] :=
  List.eq_nil_of_length_eq_zero (by rw [length_ranked, Std.ExtTreeMap.size_empty])

theorem ranked_perm (sc : ScoreMap) : (ranked sc).Perm (entriesOf sc) := rank_perm _ _

theorem ranked_ranked (sc : ScoreMap) : Ranked entryCmp (ranked sc) :=
  ranked_rank (List.Nodup.of_map _ (nodup_members sc))

theorem nodup_ranked (sc : ScoreMap) : ((ranked sc).map (·.member)).Nodup :=
  (((ranked_perm sc).map (·.member)).nodup_iff).mpr (nodup_members sc)

/-- **What a scan over the score index lists.** -/
theorem Holds.rowsOf_scores (h : Holds s P (rowAt sc)) : rowsOf s (P.bytes ++ scoreTag).isPrefixOf =
      (ranked sc).map fun e => (P.bytes ++ (Cell.score e).suffix, scoreRow) := by
  have hperm := h.scoreRows.trans ((ranked_perm sc).map fun e =>
    (P.bytes ++ (Cell.score e).suffix, scoreRow)).symm
  refine hperm.eq_of_pairwise (fun a b _ _ hab hba => ?_)
    (List.pairwise_map.mp (sorted_keysOf s _)) (List.pairwise_map.mpr ?_)
  · rw [Std.OrientedCmp.gt_of_lt hab] at hba
    cases hba
  · refine (ranked_ranked sc).imp fun {a b} hab => ?_
    rw [compare_scoreKeys, hab]

/-- What is left after some members are removed is in order. -/
theorem ranked_eraseAll {gone rest : List MemberScore} (hrest : rest.Sublist (ranked sc))
    (hgone : ∀ e ∈ ranked sc, e ∈ rest ↔ e.member ∉ gone.map (·.member)) :
    ranked (eraseAll (gone.map (·.member)) sc) = rest := by
  refine (eq_rank ((ranked_ranked sc).sublist hrest) ?_).symm
  refine (List.perm_ext_iff_of_nodup ((ranked_ranked sc).sublist hrest).nodup
    (List.Nodup.of_map _ (nodup_members _))).mpr fun e => ?_
  rw [mem_entriesOf, getElem?_eraseAll]
  constructor
  · intro he
    have hmem := hrest.subset he
    rw [if_neg ((hgone e hmem).mp he)]
    exact mem_ranked.mp hmem
  · intro he
    split at he
    · cases he
    · rename_i hnot
      exact (hgone e (mem_ranked.mpr he)).mpr hnot

end

/-! ## The order of the numbers -/

theorem xor_two_pow {n : Nat} (h : n < 2 ^ 63) : n ^^^ 2 ^ 63 = 2 ^ 63 + n := by
  have hmod := Nat.xor_mod_two_pow (a := n) (b := 2 ^ 63) (n := 63)
  have hdiv := Nat.xor_div_two_pow (a := n) (b := 2 ^ 63) (n := 63)
  rw [Nat.mod_eq_of_lt h, Nat.mod_self, Nat.xor_zero] at hmod
  rw [Nat.div_eq_of_lt h, Nat.div_self (by decide), Nat.zero_xor] at hdiv
  rw [← Nat.div_add_mod (n ^^^ 2 ^ 63) (2 ^ 63), hmod, hdiv, Nat.mul_one]

/-- Negative numbers are mirrored, the others moved past them. -/
theorem scoreRank_eq (x : F64) :
    scoreRank x = if x.signBit then 2 ^ 63 - 1 - x.magnitude else 2 ^ 63 + x.magnitude := by
  have hlt := x.bits.toNat_lt
  have hmsb : x.signBit = decide (2 ^ 63 ≤ x.bits.toNat) := by
    unfold F64.signBit
    rw [shiftRight_sign, BitVec.msb_eq_decide]
    rfl
  unfold scoreRank orderedBits
  rw [← shiftRight_sign]
  change (if x.signBit then ~~~x.bits else x.bits ^^^ signMask).toNat = _
  unfold F64.magnitude
  cases hs : x.signBit with
  | true =>
    rw [hs, eq_comm, decide_eq_true_eq] at hmsb
    rw [if_pos rfl, if_pos rfl, UInt64.toNat_not]
    simp only [UInt64.size]
    omega
  | false =>
    rw [hs, eq_comm, decide_eq_false_iff_not, Nat.not_le] at hmsb
    rw [if_neg Bool.false_ne_true, if_neg Bool.false_ne_true, UInt64.toNat_xor,
      show signMask.toNat = 2 ^ 63 from rfl, xor_two_pow hmsb, Nat.mod_eq_of_lt hmsb]

theorem scoreRank_lt_of_orderKey_lt (h : x.orderKey < y.orderKey) : scoreRank x < scoreRank y := by
  have hx : x.magnitude < 2 ^ 63 := Nat.mod_lt _ (by decide)
  rw [scoreRank_eq, scoreRank_eq]
  unfold F64.orderKey at h
  cases hsx : x.signBit <;> cases hsy : y.signBit <;>
    simp only [hsx, hsy, Bool.false_eq_true, if_false, if_true] at h ⊢ <;> omega

/-- One number has one encoding, but for the two zeros. -/
theorem orderKey_eq_cases (h : x.orderKey = y.orderKey) :
    x = y ∨ x = .zero ∧ y = F64.zero.neg ∨ x = F64.zero.neg ∧ y = .zero := by
  have hx := scoreRank_eq x
  have hy := scoreRank_eq y
  have hzero : scoreRank .zero = 2 ^ 63 := by decide
  have hneg : scoreRank F64.zero.neg = 2 ^ 63 - 1 := by decide
  unfold F64.orderKey at h
  cases hsx : x.signBit <;> cases hsy : y.signBit <;>
    simp only [hsx, hsy, Bool.false_eq_true, if_false, if_true] at h hx hy
  · exact .inl (scoreRank_inj (by omega))
  · exact .inr (.inl ⟨scoreRank_inj (by omega), scoreRank_inj (by omega)⟩)
  · exact .inr (.inr ⟨scoreRank_inj (by omega), scoreRank_inj (by omega)⟩)
  · exact .inl (scoreRank_inj (by omega))

/-- One entry is before the other: by the number, then by the bytes of the member. -/
def Before (a b : MemberScore) : Prop :=
  a.score.lt b.score = true ∨ a.score.numEq b.score = true ∧ compare a.member b.member = .lt

/-- Of two members neither has a NaN, and the first by its bytes does not have the positive
zero while the other one has the negative zero. -/
def InOrder (sc : ScoreMap) : Prop :=
  ∀ (a b : Bytes) (x y : F64), sc[a]? = some x → sc[b]? = some y → compare a b = .lt →
    x.isNan = false ∧ y.isNan = false ∧ ¬(x = .zero ∧ y = F64.zero.neg)

variable {a b : MemberScore}

theorem partialCmp_of_before (h : Before a b) :
    a.score.isNan = false ∧ b.score.isNan = false ∧
      (a.score.orderKey < b.score.orderKey ∨
        a.score.orderKey = b.score.orderKey ∧ compare a.member b.member = .lt) := by
  unfold Before F64.lt F64.numEq F64.partialCmp at h
  cases ha : a.score.isNan <;> cases hb : b.score.isNan <;> rw [ha, hb] at h
  · refine ⟨rfl, rfl, h.imp (fun h => ?_) fun h => ⟨?_, h.2⟩⟩
    · exact Int.compare_eq_lt.mp (by simpa using h)
    · exact Int.compare_eq_eq.mp (by simpa using h.1)
  all_goals simp at h

/-- Two members in the order of the index are in that of the numbers. -/
theorem InOrder.before (h : InOrder sc) (ha : a ∈ ranked sc) (hb : b ∈ ranked sc)
    (hab : entryCmp a b = .lt) : Before a b := by
  have hxa := mem_ranked.mp ha
  have hxb := mem_ranked.mp hb
  have hnan : a.score.isNan = false ∧ b.score.isNan = false ∧
      (compare b.member a.member = .lt → ¬(b.score = .zero ∧ a.score = F64.zero.neg)) := by
    rcases hcmp : compare a.member b.member with _ | _ | _
    · obtain ⟨hna, hnb, -⟩ := h _ _ _ _ hxa hxb hcmp
      exact ⟨hna, hnb, fun hba => by rw [Std.OrientedCmp.gt_of_lt hba] at hcmp; cases hcmp⟩
    · rw [Std.LawfulEqCmp.eq_of_compare hcmp, hxb] at hxa
      rw [entryCmp_eq, Option.some.inj hxa, hcmp, Std.ReflOrd.compare_self] at hab
      cases hab
    · obtain ⟨hnb, hna, hzero⟩ := h _ _ _ _ hxb hxa (Std.OrientedCmp.lt_of_gt hcmp)
      exact ⟨hna, hnb, fun _ => hzero⟩
  obtain ⟨hna, hnb, hzero⟩ := hnan
  rw [entryCmp_eq, Ordering.then_eq_lt] at hab
  unfold Before F64.lt F64.numEq F64.partialCmp
  rw [hna, hnb]
  rcases Int.lt_trichotomy a.score.orderKey b.score.orderKey with hlt | heq | hgt
  · left
    simp [Int.compare_eq_lt.mpr hlt]
  · right
    refine ⟨by simp [heq], ?_⟩
    rcases hab with hrank | ⟨-, hmember⟩
    · rcases hcmp : compare a.member b.member with _ | _ | _
      · rfl
      · rw [Std.LawfulEqCmp.eq_of_compare hcmp, hxb] at hxa
        rw [Option.some.inj hxa, Std.ReflOrd.compare_self] at hrank
        cases hrank
      · have hba := Std.OrientedCmp.lt_of_gt hcmp
        rcases orderKey_eq_cases heq with hsame | ⟨hxa, hxb⟩ | ⟨hxa, hxb⟩
        · rw [hsame, Std.ReflOrd.compare_self] at hrank
          cases hrank
        · rw [hxa, hxb] at hrank
          exact absurd hrank (by decide)
        · exact absurd ⟨hxb, hxa⟩ (hzero hba)
    · exact hmember
  · have hrank := scoreRank_lt_of_orderKey_lt hgt
    rw [Nat.compare_eq_gt.mpr hrank] at hab
    simp at hab

/-- **The index is in the order of the numbers** under this condition alone. -/
theorem pairwise_before_iff (sc : ScoreMap) : (ranked sc).Pairwise Before ↔ InOrder sc := by
  refine ⟨fun h a b x y hx hy hab => ?_, fun h =>
    (ranked_ranked sc).imp_of_mem fun ha hb hab => h.before ha hb hab⟩
  have hpairs := h.and (ranked_ranked sc)
  have htwo := List.Pairwise.forall_of_forall_of_flip (R := fun e e' => e ≠ e' →
    (Before e e' ∧ entryCmp e e' = .lt) ∨ (Before e' e ∧ entryCmp e' e = .lt))
    (fun e _ hne => absurd rfl hne) (hpairs.imp fun h _ => .inl h) (hpairs.imp fun h _ => .inr h)
  have hne : (⟨a, x⟩ : MemberScore) ≠ ⟨b, y⟩ := fun heq => by
    rw [show a = b from congrArg (·.member) heq, Std.ReflOrd.compare_self] at hab
    cases hab
  rcases htwo (mem_ranked.mpr hx) (mem_ranked.mpr hy) hne with ⟨hbefore, hcmp⟩ | ⟨hbefore, hcmp⟩
  · obtain ⟨hnx, hny, -⟩ := partialCmp_of_before hbefore
    refine ⟨hnx, hny, fun hzeros => ?_⟩
    rw [entryCmp_eq, hzeros.1, hzeros.2] at hcmp
    exact absurd hcmp (by simp [show compare (scoreRank .zero) (scoreRank F64.zero.neg) = .gt by
      decide])
  · obtain ⟨hny, hnx, hkey⟩ := partialCmp_of_before hbefore
    refine ⟨hnx, hny, fun hzeros => ?_⟩
    dsimp only at hkey
    rw [hzeros.1, hzeros.2] at hkey
    rcases hkey with hlt | ⟨-, hba⟩
    · exact absurd hlt (by decide)
    · rw [Std.OrientedCmp.gt_of_lt hba] at hab
      cases hab

theorem memberLe_of_before (h : Before a b) : memberLe a b = true ∧ memberLe b a = false := by
  obtain ⟨hna, hnb, hkey⟩ := partialCmp_of_before h
  unfold memberLe F64.partialCmp
  rw [hna, hnb]
  rcases hkey with hlt | ⟨heq, hmember⟩
  · simp [Int.compare_eq_lt.mpr hlt, Int.compare_eq_gt.mpr hlt]
  · simp [heq, hmember, Std.OrientedCmp.gt_of_lt hmember]

/-- **The order of the index is that of `zset_to_slice`.** -/
theorem zsetToSlice_eq_ranked (h : InOrder sc) : zsetToSlice sc = ranked sc := by
  refine mergeSort_eq_rank fun a ha b hb => ?_
  have ha' := mem_ranked.mpr (mem_entriesOf.mp ha)
  have hb' := mem_ranked.mpr (mem_entriesOf.mp hb)
  rcases hcmp : entryCmp a b with _ | _ | _
  · rw [(memberLe_of_before (h.before ha' hb' hcmp)).1]
    rfl
  · obtain rfl : a = b := Std.LawfulEqCmp.eq_of_compare hcmp
    unfold memberLe F64.partialCmp
    cases a.score.isNan <;> simp
  · rw [(memberLe_of_before (h.before hb' ha' (Std.OrientedCmp.lt_of_gt hcmp))).2]
    rfl

end Invar.Zset
