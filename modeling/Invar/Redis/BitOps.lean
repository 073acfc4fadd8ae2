import Invar.Redis.BitCounts

/-!
# `BITOP` bit by bit

Each operation is a loop over bytes of its own. The result is the operation on the bits of
the sources, but `DIFF1` takes the bits that are in all other sources instead of those that
are in one of them (`bitop_diff1_differs`); `bitop_pointwise` says when that is the same.
-/

namespace Invar.Bitmap

open StoreProg TxProg Dispatch Requests

/-! ## Operations on bytes -/

@[simp] theorem byteBit_zero (i : Nat) : byteBit 0 i = false := by
  rw [byteBit_eq]
  exact Nat.zero_testBit _

@[simp] theorem byteBit_and (a b : UInt8) (i : Nat) :
    byteBit (a &&& b) i = (byteBit a i && byteBit b i) := by
  simp only [byteBit_eq, UInt8.toNat_and, Nat.testBit_and]

@[simp] theorem byteBit_or (a b : UInt8) (i : Nat) :
    byteBit (a ||| b) i = (byteBit a i || byteBit b i) := by
  simp only [byteBit_eq, UInt8.toNat_or, Nat.testBit_or]

@[simp] theorem byteBit_xor (a b : UInt8) (i : Nat) :
    byteBit (a ^^^ b) i = (byteBit a i ^^ byteBit b i) := by
  simp only [byteBit_eq, UInt8.toNat_xor, Nat.testBit_xor]

@[simp] theorem byteBit_not (b : UInt8) (i : Nat) : byteBit (~~~b) i = !byteBit b i := by
  have hlt : 7 - i % 8 < 8 := by omega
  have hsub : UInt8.size - 1 - b.toNat = 2 ^ 8 - (b.toNat + 1) := by
    rw [show UInt8.size = 256 from rfl]
    omega
  rw [byteBit_eq, byteBit_eq, UInt8.toNat_not, hsub, Nat.testBit_two_pow_sub_succ b.toNat_lt]
  simp [hlt]

@[simp] theorem byteBit_ones (i : Nat) : byteBit 0xFF i = true := by
  rw [show (0xFF : UInt8) = ~~~0 from rfl, byteBit_not, byteBit_zero]
  rfl

theorem byteBit_bitMask {j : Nat} (hj : j < 8) (i : Nat) :
    byteBit (bitMask j) i = decide (i % 8 = j) := by
  have hall : ∀ a < 8, ∀ b < 8, byteBit (bitMask b) a = decide (a = b) := by decide
  have hmod : byteBit (bitMask j) i = byteBit (bitMask j) (i % 8) := by
    rw [byteBit_eq, byteBit_eq, Nat.mod_mod]
  rw [hmod, hall (i % 8) (Nat.mod_lt i (by decide)) j hj]

/-! ## Operations on columns -/

/-- The operation on one bit of each source. -/
def BitOpType.onBits (bits : List Bool) : BitOpType → Bool
  | .and => bits.all id
  | .or => bits.any id
  | .xor => bits.foldl Bool.xor false
  | .not => !bits.headD false
  | .diff => bits.headD false && !bits.tail.any id
  | .diff1 => !bits.headD false && bits.tail.any id
  | .andOr => bits.headD false && bits.tail.any id
  | .one => bits.count true == 1

/-- The bits of the sources at position `i`; a missing key and a short string are padded. -/
def bitsOf (sources : List (Option Bytes)) (i : Nat) : List Bool :=
  sources.map fun s => bitAt (s.getD []) i

section

variable (sources : List (Option Bytes)) (i : Nat)

/-- The bit of a source in the column of its byte. -/
theorem bitAt_getD (s : Option Bytes) (i : Nat) :
    bitAt (s.getD []) i = byteBit ((s.bind (·[i / 8]?)).getD 0) i := by
  cases s with
  | none => rfl
  | some s => rw [bitAt_eq, List.getD_eq_getElem?_getD]; rfl

theorem byteBit_foldl_and (acc : UInt8) :
    byteBit ((column sources (i / 8)).foldl (fun acc b => acc &&& b.getD 0) acc) i =
      (byteBit acc i && (bitsOf sources i).all id) := by
  induction sources generalizing acc with
  | nil => simp [column, bitsOf]
  | cons s rest ih =>
    have hrest := ih (acc &&& (s.bind (·[i / 8]?)).getD 0)
    rw [byteBit_and, ← bitAt_getD, Bool.and_assoc] at hrest
    exact hrest

/-- A fold over the bytes that are there, with an operation that is the same on each bit and for
which a missing byte is zero. -/
theorem byteBit_foldl_present (f : UInt8 → UInt8 → UInt8) (g : Bool → Bool → Bool)
    (hf : ∀ a b, byteBit (f a b) i = g (byteBit a i) (byteBit b i)) (hg : ∀ a, g a false = a)
    (acc : UInt8) : byteBit (((column sources (i / 8)).filterMap id).foldl f acc) i =
      (bitsOf sources i).foldl g (byteBit acc i) := by
  induction sources generalizing acc with
  | nil => rfl
  | cons s rest ih =>
    have hbit := bitAt_getD s i
    rw [bitsOf, List.map_cons, List.foldl_cons, ← bitsOf, hbit]
    rw [column, List.map_cons, ← column]
    cases hs : s.bind (·[i / 8]?) with
    | none => simpa [hg] using ih acc
    | some b => simpa [hf] using ih (f acc b)

theorem foldl_or_eq (bits : List Bool) (acc : Bool) : bits.foldl or acc = (acc || bits.any id) := by
  induction bits generalizing acc with
  | nil => simp
  | cons b rest ih => simp [ih, Bool.or_assoc]

theorem foldl_andNot_eq (bits : List Bool) (acc : Bool) :
    bits.foldl (fun a b => a && !b) acc = (acc && !bits.any id) := by
  induction bits generalizing acc with
  | nil => simp
  | cons b rest ih => simp [ih, Bool.and_assoc]

theorem byteBit_orAll_present :
    byteBit (orAll ((column sources (i / 8)).filterMap id)) i = (bitsOf sources i).any id := by
  have h := byteBit_foldl_present sources i (· ||| ·) or (fun a b => byteBit_or a b i)
    Bool.or_false 0
  rw [foldl_or_eq, byteBit_zero, Bool.false_or] at h
  exact h

theorem byteBit_orAll (bytes : List UInt8) : byteBit (orAll bytes) i = bytes.any (byteBit · i) := by
  have h : ∀ acc,
      byteBit (bytes.foldl (· ||| ·) acc) i = (byteBit acc i || bytes.any (byteBit · i)) := by
    induction bytes with
    | nil => simp
    | cons b rest ih => simp [ih, Bool.or_assoc]
  rw [orAll, h, byteBit_zero, Bool.false_or]

theorem countP_present :
    ((column sources (i / 8)).filterMap id).countP (byteBit · i) =
      (bitsOf sources i).count true := by
  induction sources with
  | nil => rfl
  | cons s rest ih =>
    rw [bitsOf, List.map_cons, ← bitsOf, List.count_cons, ← ih, bitAt_getD, column, List.map_cons,
      ← column]
    cases s.bind (·[i / 8]?) with
    | none => simp
    | some b =>
      show List.countP _ (b :: _) = _ + if (byteBit b i == true) = true then 1 else 0
      rw [List.countP_cons, beq_true]

theorem byteBit_exactlyOne (bytes : List UInt8) :
    byteBit (exactlyOne bytes) i = (bytes.countP (byteBit · i) == 1) := by
  have hlt : i % 8 < 8 := Nat.mod_lt i (by decide)
  have hmod : (fun b => b &&& bitMask (i % 8) != 0) = (byteBit · i) := funext fun b => by
    show byteBit b (i % 8) = byteBit b i
    rw [byteBit_eq, byteBit_eq, Nat.mod_mod]
  rw [exactlyOne, byteBit_orAll, Bool.eq_iff_iff, List.any_eq_true, beq_iff_eq, ← hmod]
  constructor
  · rintro ⟨m, hm, hbit⟩
    obtain ⟨j, hj, hone⟩ := List.mem_filterMap.mp hm
    split at hone
    · rename_i hcount
      cases hone
      rw [byteBit_bitMask (List.mem_range.mp hj), decide_eq_true_eq] at hbit
      exact hbit ▸ hcount
    · cases hone
  · intro hone
    refine ⟨bitMask (i % 8),
      List.mem_filterMap.mpr ⟨i % 8, List.mem_range.mpr hlt, if_pos hone⟩, ?_⟩
    rw [byteBit_bitMask hlt, decide_eq_true_eq]

theorem bitsOf_tail : (bitsOf sources i).tail = bitsOf sources.tail i := by
  cases sources <;> rfl

theorem column_tail (j : Nat) : (column sources j).tail = column sources.tail j := by
  cases sources <;> rfl

theorem byteBit_first :
    byteBit ((column sources (i / 8)).head?.join.getD 0) i = (bitsOf sources i).headD false := by
  cases sources with
  | nil => exact byteBit_zero i
  | cons s rest => exact (bitAt_getD s i).symm

theorem any_bitsOf : (bitsOf sources i).any id = (sources.filterMap id).any (bitAt · i) := by
  induction sources with
  | nil => rfl
  | cons s rest ih =>
    rw [bitsOf, List.map_cons, List.any_cons, ← bitsOf, ih]
    cases s <;> simp [bitAt_eq]

theorem all_isNone_iff : sources.all (·.isNone) = true ↔ sources.filterMap id = [] := by
  simp [List.filterMap_eq_nil_iff]

/-- If all keys are missing, no bit is set. -/
theorem any_bitsOf_of_none (h : sources.all (·.isNone) = true) :
    (bitsOf sources i).any id = false := by
  rw [any_bitsOf, (all_isNone_iff sources).mp h, List.any_nil]

theorem byteBit_foldl_all (values : List Bytes) (acc : UInt8) :
    byteBit (values.foldl (fun acc s => acc &&& s.getD (i / 8) 0) acc) i =
      (byteBit acc i && values.all (bitAt · i)) := by
  induction values generalizing acc with
  | nil => simp
  | cons v rest ih => rw [List.foldl_cons, ih, byteBit_and, List.all_cons, bitAt_eq, Bool.and_assoc]

/-- Where the first string has no bit, the others are the same. -/
def OthersAgree (values : List (Option Bytes)) (i : Nat) : Prop :=
  (bitsOf values i).headD false = false →
    ∀ v ∈ values.tail.filterMap id, ∀ w ∈ values.tail.filterMap id, bitAt v i = bitAt w i

theorem all_eq_any_iff {α : Type} {l : List α} (hl : l ≠ []) (p : α → Bool) :
    l.all p = l.any p ↔ ∀ v ∈ l, ∀ w ∈ l, p v = p w := by
  obtain ⟨x, hx⟩ := List.exists_mem_of_ne_nil l hl
  constructor
  · intro h v hv w hw
    cases hall : l.all p with
    | true => rw [List.all_eq_true.mp hall v hv, List.all_eq_true.mp hall w hw]
    | false =>
      have hany := List.any_eq_false.mp (h ▸ hall)
      rw [Bool.eq_false_iff.mpr (hany v hv), Bool.eq_false_iff.mpr (hany w hw)]
  · intro h
    rw [Bool.eq_iff_iff, List.all_eq_true, List.any_eq_true]
    exact ⟨fun hall => ⟨x, hx, hall x hx⟩, fun ⟨w, hw, hone⟩ v hv => (h v hv w hw).trans hone⟩

theorem byteBit_diff1 : byteBit (BitOpType.diff1.byte sources (i / 8)) i =
    BitOpType.diff1.onBits (bitsOf sources i) ↔ OthersAgree sources i := by
  show byteBit (if sources.tail.all (·.isNone) then 0 else _) i = (_ && _) ↔ _
  unfold OthersAgree
  rw [bitsOf_tail, any_bitsOf]
  split
  case isTrue hnone =>
    rw [(all_isNone_iff _).mp hnone]
    simp
  case isFalse hsome =>
    have hne := fun h => hsome ((all_isNone_iff _).mpr h)
    rw [byteBit_foldl_all, byteBit_not, byteBit_first, ← all_eq_any_iff hne]
    cases (bitsOf sources i).headD false <;> simp

/-- **Each bit of a byte of the result.** -/
theorem byteBit_byte {op : BitOpType} (h : op ≠ .diff1) :
    byteBit (op.byte sources (i / 8)) i = op.onBits (bitsOf sources i) := by
  have hfirst := byteBit_first sources i
  cases op with
  | and =>
    have hand := byteBit_foldl_and sources i 0xFF
    rwa [byteBit_ones, Bool.true_and] at hand
  | or => exact byteBit_orAll_present sources i
  | xor =>
    have hxor := byteBit_foldl_present sources i (· ^^^ ·) Bool.xor (fun a b => byteBit_xor a b i)
      Bool.xor_false 0
    rwa [byteBit_zero] at hxor
  | not =>
    show byteBit (~~~_) i = _
    rw [byteBit_not, hfirst]
    rfl
  | diff =>
    have hdiff := byteBit_foldl_present sources.tail i (fun a b => a &&& ~~~b) (fun a b => a && !b)
      (fun a b => by rw [byteBit_and, byteBit_not]) (fun a => by simp)
      ((column sources (i / 8)).head?.join.getD 0)
    rw [foldl_andNot_eq, hfirst, ← bitsOf_tail, ← column_tail] at hdiff
    exact hdiff
  | diff1 => exact absurd rfl h
  | andOr =>
    show byteBit (if sources.tail.all (·.isNone) then 0 else _) i = (_ && _)
    rw [bitsOf_tail]
    split
    · rename_i hnone
      rw [any_bitsOf_of_none _ i hnone, Bool.and_false, byteBit_zero]
    · rw [byteBit_and, hfirst, column_tail, byteBit_orAll_present]
  | one =>
    show byteBit (exactlyOne _) i = (_ == _)
    rw [byteBit_exactlyOne, countP_present]

end

/-! ## The command -/

theorem wp_getSources {A : Tick → Prop} {t : Txn Bytes Row} {found : Bytes → Option Row}
    {keys : List Bytes} {Q : Post (List (Option Bytes))}
    {E : Post DbError} (h : ∀ k ∈ keys, Finds A t.view k (found k))
    (hQ : ∀ t', t'.view = t.view → Q (keys.map fun k => (found k).map (·.value)) t') :
    wp A (getSources keys) Q E t := by
  induction keys generalizing t Q with
  | nil => exact hQ t rfl
  | cons k rest ih =>
    unfold getSources
    rw [wp_seq]
    refine wp_get_finds (h k List.mem_cons_self) ?_
    rw [wp_seq]
    exact ih (fun k' hk' => h k' (List.mem_cons_of_mem _ hk')) fun t' ht' => hQ t' ht'

theorem foldl_max_length (values : List Bytes) (n : Nat) :
    let m := values.foldl (fun n s => max n s.length) n
    n ≤ m ∧ (∀ v ∈ values, v.length ≤ m) ∧ (m = n ∨ ∃ v ∈ values, v.length = m) := by
  induction values generalizing n with
  | nil => simp
  | cons v rest ih =>
    obtain ⟨hn, hall, hex⟩ := ih (max n v.length)
    rw [List.foldl_cons]
    refine ⟨by omega, List.forall_mem_cons.mpr ⟨by omega, hall⟩, ?_⟩
    rcases hex with heq | ⟨u, hu, heq⟩
    · rcases Nat.le_total n v.length with hle | hle
      · exact .inr ⟨v, List.mem_cons_self, by omega⟩
      · exact .inl (by omega)
    · exact .inr ⟨u, List.mem_cons_of_mem _ hu, heq⟩

/-- The greatest length, missing keys being empty. -/
theorem maxLength_spec (sources : List (Option Bytes)) :
    (∀ s ∈ sources, (s.getD []).length ≤ maxLength sources) ∧
      (maxLength sources = 0 ∨ ∃ s ∈ sources, (s.getD []).length = maxLength sources) := by
  obtain ⟨-, hall, hex⟩ := foldl_max_length (sources.filterMap id) 0
  constructor
  · intro s hs
    cases s with
    | none => exact Nat.zero_le _
    | some v => exact hall v (List.mem_filterMap.mpr ⟨some v, hs, rfl⟩)
  · rcases hex with hzero | ⟨v, hv, hlen⟩
    · exact .inl hzero
    · obtain ⟨s, hs, heq⟩ := List.mem_filterMap.mp hv
      refine .inr ⟨s, hs, ?_⟩
      rw [show s = some v from heq]
      exact hlen

/-- **`BITOP` is pointwise**, a `DIFF1` if and only if the other sources that are there have the
same bit wherever the first has none. -/
theorem bitop_pointwise (ln : F64 → F64) (c : Ctx) (s : Store) (env : Nat → Tick)
    (word dest src : Bytes) (rest : List Bytes) (op : BitOpType) (found : Bytes → Option Row)
    (hop : parseBitOp word = some op) (hnot : op = .not → rest = [])
    (hfound : ∀ k ∈ src :: rest, Finds (answers env) s (c.key k) (found (c.key k))) :
    let values := (src :: rest).map fun k => (found (c.key k)).map (·.value)
    ∃ cmd result, accepted c "bitop" (word :: dest :: src :: rest) = some cmd ∧
      let run := Call.outcome ln s { command := cmd, waiter := none, env }
      run.out = .ok (.integer result.length) ∧
      run.txn.view = s.insert (c.key dest) { value := result, metadata := typeString } ∧
      (∀ v ∈ values, (v.getD []).length ≤ result.length) ∧
      (result = [] ∨ ∃ v ∈ values, (v.getD []).length = result.length) ∧
      ((∀ i < result.length * 8, bitAt result i = op.onBits (bitsOf values i)) ↔
        (op = .diff1 → ∀ i, OthersAgree values i)) := by
  intro values
  have haccepted : accepted c "bitop" (word :: dest :: src :: rest) =
      some (.bitOp (c.key dest) op ((src :: rest).map c.key)) := by
    have hreject : rejectIf (op = .not && !rest.isEmpty) (wrongArity "bitop") = .ok () := by
      refine if_neg ?_
      rw [Bool.and_eq_true, decide_eq_true_eq]
      rintro ⟨hop, hne⟩
      rw [hnot hop] at hne
      cases hne
    have hrow : dataTable.lookup "bitop" = some _ := rfl
    rw [accepted, hrow, Option.bind_some]
    simp only [hop, hreject]
    rfl
  have hwp : wp (answers env) (bitOp (c.key dest) op ((src :: rest).map c.key)) (fun reply t' =>
      reply = .integer (maxLength values) ∧ t'.view = s.insert (c.key dest)
        { value := (List.range (maxLength values)).map (op.byte values), metadata := typeString })
      (fun _ _ => False) { view := s } := by
    unfold bitOp
    rw [wp_seq]
    refine wp_getSources (fun k hk => (?_ : Finds _ _ k (found k))) fun t' ht' => ?_
    · obtain ⟨k', hk', rfl⟩ := List.mem_map.mp hk
      exact hfound k' hk'
    · rw [List.map_map, wp_seq, wp_set]
      intro x _
      refine ⟨rfl, ?_⟩
      show t'.view.insert _ _ = _
      rw [ht']
      rfl
  obtain ⟨reply, hout, rfl, hview⟩ := exec_ok_of_wp hwp env fun n => ⟨n, rfl⟩
  obtain ⟨hall, hex⟩ := maxLength_spec values
  refine ⟨_, (List.range (maxLength values)).map (op.byte values), haccepted, ?_⟩
  rw [List.length_map, List.length_range]
  refine ⟨hout, hview, hall, ?_, ?_⟩
  · rcases hex with hzero | hex
    · exact .inl (by rw [hzero]; rfl)
    · exact .inr hex
  · have hbit (i : Nat) (hi : i < maxLength values * 8) :
        bitAt ((List.range (maxLength values)).map (op.byte values)) i =
          byteBit (op.byte values (i / 8)) i := by
      rw [bitAt_eq, List.getD_eq_getElem?_getD, List.getElem?_map,
        List.getElem?_range (by omega), Option.map_some, Option.getD_some]
    have hpast (i : Nat) (hi : maxLength values * 8 ≤ i) : OthersAgree values i := by
      have hzero {v : Bytes} (hv : v ∈ values.tail.filterMap id) : bitAt v i = false := by
        have hlen := hall _ (List.mem_of_mem_tail (by simpa using hv))
        rw [Option.getD_some] at hlen
        rw [bitAt_eq, List.getD_eq_default _ _ (by omega), byteBit_zero]
      exact fun _ v hv w hw => (hzero hv).trans (hzero hw).symm
    by_cases hop : op = .diff1
    · subst hop
      refine ⟨fun h _ i => ?_, fun h i hi => (hbit i hi).trans ((byteBit_diff1 _ i).mpr (h rfl i))⟩
      by_cases hi : i < maxLength values * 8
      · exact (byteBit_diff1 _ i).mp ((hbit i hi).symm.trans (h i hi))
      · exact hpast i (Nat.not_lt.mp hi)
    · exact iff_of_true (fun i hi => (hbit i hi).trans (byteBit_byte values i hop))
        fun h => absurd h hop

def xorSample : Store :=
  storeAfter [("set", [ascii "a", [0x81, 0x0F]]), ("set", [ascii "b", [0xFF]])]

/-- A short and a missing source, and a destination that is a source. -/
theorem bitop_pointwise_xor :
    ∃ cmd result, accepted { db := 0, now := 1 } "bitop" (words ["XOR", "a", "a", "b", "c"]) =
        some cmd ∧
      (Call.outcome id xorSample { command := cmd, waiter := none, env := clock 3 }).out =
        .ok (.integer result.length) ∧
      ∀ i < result.length * 8, bitAt result i =
        BitOpType.xor.onBits (bitsOf [some [0x81, 0x0F], some [0xFF], none] i) := by
  obtain ⟨cmd, result, hcmd, hout, -, -, -, hbits⟩ := bitop_pointwise id { db := 0, now := 1 }
    xorSample (clock 3) (ascii "XOR") (ascii "a") (ascii "a") [ascii "b", ascii "c"] .xor
    (fun k => xorSample[k]?.filter fun row => !row.expired 1) (by decide +kernel) nofun
    (fun k _ x hx => by
      obtain ⟨n, rfl⟩ := hx
      rfl)
  have hvalues : [ascii "a", ascii "b", ascii "c"].map (fun k =>
      (xorSample[publicKey 0 k]?.filter fun row => !row.expired 1).map (·.value)) =
      [some [0x81, 0x0F], some [0xFF], none] := by decide +kernel
  refine ⟨cmd, result, hcmd, hout, fun i hi => ?_⟩
  rw [hbits.mpr (fun h => by cases h) i hi]
  exact congrArg (fun values => BitOpType.xor.onBits (bitsOf values i)) hvalues

/-- **`DIFF1` of three sources**: bits 6 and 7 are set in one of the others and not in the
first, and neither is in the result. -/
theorem bitop_diff1_differs :
    replies [("set", [ascii "x", [0]]), ("set", [ascii "y", [1]]), ("set", [ascii "z", [2]]),
        ("bitop", words ["DIFF1", "d", "x", "y", "z"]), ("get", words ["d"])] =
      [some .ok, some .ok, some .ok, some (.integer 1), some (.bulk [0])] ∧
    BitOpType.diff1.onBits (bitsOf [some [0], some [1], some [2]] 7) = true ∧
    bitAt [0] 7 = false := by
  decide +kernel

end Invar.Bitmap
