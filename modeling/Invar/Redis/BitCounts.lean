import Invar.Kv.Logic
import Invar.Lib.ByteBits
import Invar.Redis.Requests

/-!
# `BITCOUNT` and `BITPOS` against `GETBIT`

Both commands look at whole bytes where they can. What they return is what one finds by
reading the positions of the range one by one, except that `BITPOS` takes a missing end for
the first byte (`bitpos_without_end`); `bits_counted_and_found` says when this shows.
-/

namespace Invar.Bitmap

open StoreProg TxProg Dispatch Requests

/-! ## Bits of a byte -/

/-- Bit `i` of the numbering from the most significant bit. -/
def byteBit (b : UInt8) (i : Nat) : Bool := b &&& bitMask i != 0

theorem byteBit_eq (b : UInt8) (i : Nat) : byteBit b i = b.toNat.testBit (7 - i % 8) := by
  have hmod : (7 - i % 8) % 8 = 7 - i % 8 := by omega
  have hmask : bitMask i = ByteBits.mask (7 - i % 8) := by
    rw [ByteBits.mask, hmod, bitMask]
  rw [byteBit, hmask, ByteBits.and_mask, hmod]

theorem bitAt_eq (data : Bytes) (i : Nat) : bitAt data i = byteBit (data.getD (i / 8) 0) i := rfl

/-! ## Positions -/

theorem bitAt_byte (data : Bytes) (j : Nat) {i : Nat} (hi : i < 8) :
    bitAt data (j * 8 + i) = byteBit (data.getD j 0) i := by
  rw [bitAt_eq, byteBit_eq, byteBit_eq, show (j * 8 + i) / 8 = j by omega,
    show (j * 8 + i) % 8 = i % 8 by omega]

/-- The least position from `lo` on with a property, if there is one. -/
def FirstFrom (P : Nat → Prop) (lo : Nat) : Option Nat → Prop
  | some p => lo ≤ p ∧ P p ∧ ∀ q, lo ≤ q → q < p → ¬P q
  | none => ∀ q, lo ≤ q → ¬P q

theorem FirstFrom.skip {P : Nat → Prop} {lo mid : Nat} {r : Option Nat} (h : FirstFrom P mid r)
    (hle : lo ≤ mid) (hskip : ∀ q, lo ≤ q → q < mid → ¬P q) : FirstFrom P lo r := by
  cases r with
  | none => exact fun q hq => (Nat.lt_or_ge q mid).elim (hskip q hq) (h q)
  | some p =>
    obtain ⟨hmid, hP, hleast⟩ := h
    refine ⟨Nat.le_trans hle hmid, hP, fun q hq hqp => ?_⟩
    exact (Nat.lt_or_ge q mid).elim (hskip q hq) fun hge => hleast q hge hqp

theorem FirstFrom.congr {P P' : Nat → Prop} {lo : Nat} {r : Option Nat} (h : FirstFrom P lo r)
    (hP : ∀ q, lo ≤ q → (P q ↔ P' q)) : FirstFrom P' lo r := by
  cases r with
  | none => exact fun q hq => (not_congr (hP q hq)).mp (h q hq)
  | some p =>
    obtain ⟨hle, hp, hleast⟩ := h
    exact ⟨hle, (hP p hle).mp hp, fun q hq hqp => (not_congr (hP q hq)).mp (hleast q hq hqp)⟩

theorem firstFrom_bitPosInByte (b : UInt8) (bit : Bool) (pos steps : Nat) :
    FirstFrom (fun q => q < pos + steps ∧ byteBit b q = bit) pos
      (bitPosInByte b bit pos steps) := by
  induction steps generalizing pos with
  | zero => exact fun q hq h => absurd h.1 (Nat.not_lt.mpr hq)
  | succ steps ih =>
    unfold bitPosInByte
    split
    · rename_i hbit
      exact ⟨Nat.le_refl _, ⟨by omega, hbit⟩, fun q hq hlt => absurd hlt (Nat.not_lt.mpr hq)⟩
    · rename_i hbit
      have hrest := ih (pos + 1)
      rw [show pos + 1 + steps = pos + (steps + 1) by omega] at hrest
      refine hrest.skip (Nat.le_succ _) fun q hq hlt hP => hbit ?_
      rw [show pos = q by omega]
      exact hP.2

variable {data : Bytes} {lo hi : Nat} {bit : Bool}

/-- **The loop finds the least position**, starting with byte `i`. -/
theorem firstFrom_bitPosLoop {i : Nat} {rest : Bytes} (hrest : data.drop i = rest)
    (hle : lo / 8 ≤ i) :
    FirstFrom (fun q => q ≤ hi ∧ q < data.length * 8 ∧ bitAt data q = bit) (max lo (i * 8))
      (bitPosLoop lo hi bit i rest) := by
  induction rest generalizing i with
  | nil =>
    have hlen := List.drop_eq_nil_iff.mp hrest
    intro q hq hP
    omega
  | cons b rest ih =>
    have hlt : i < data.length := by
      have := congrArg List.length hrest
      rw [List.length_drop, List.length_cons] at this
      omega
    have hb : data.getD i 0 = b := by
      rw [List.getD_eq_getElem?_getD, ← List.head?_drop, hrest]
      rfl
    have hnext : data.drop (i + 1) = rest := by
      rw [← List.tail_drop, hrest]
      rfl
    unfold bitPosLoop
    split
    · intro q hq hP
      omega
    · dsimp only
      -- the bits of this byte that are in the range
      generalize hstart : (if i = lo / 8 then lo % 8 else 0) = start
      generalize hstop : (if i = hi / 8 then hi % 8 else 7) = stop
      have hfrom : max lo (i * 8) = i * 8 + start := by
        split at hstart <;> omega
      have hto : ∀ q, q / 8 = i → (q ≤ hi ↔ q % 8 ≤ stop) := fun q hq => by
        split at hstop <;> omega
      have hstop7 : stop ≤ 7 := by
        split at hstop <;> omega
      have hbyte := firstFrom_bitPosInByte b bit start (stop + 1 - start)
      have hbit : ∀ q, q / 8 = i → bitAt data q = byteBit b (q % 8) := fun q hq => by
        rw [show q = i * 8 + q % 8 by omega, bitAt_byte data i (by omega), hb]
        congr 1
        omega
      cases hpos : bitPosInByte b bit start (stop + 1 - start) with
      | some pos =>
        rw [hpos] at hbyte
        obtain ⟨hle, ⟨hpos', hbitpos⟩, hleast⟩ := hbyte
        have hmod : (i * 8 + pos) % 8 = pos := by omega
        refine ⟨by omega, ⟨(hto _ (by omega)).mpr (by omega), by omega, ?_⟩, fun q hq hqp hP => ?_⟩
        · rw [hbit _ (by omega), hmod, hbitpos]
        · refine hleast (q % 8) (by omega) (by omega) ⟨by omega, ?_⟩
          rw [← hbit q (by omega)]
          exact hP.2.2
      | none =>
        rw [hpos] at hbyte
        refine (ih hnext (by omega)).skip (by omega) fun q hq hlt hP => ?_
        have hqi : q / 8 = i := by omega
        have hqs := (hto q hqi).mp hP.1
        refine hbyte (q % 8) (by omega) ⟨by omega, ?_⟩
        rw [← hbit q hqi]
        exact hP.2.2

/-! ## Counting -/

theorem countP_byte (data : Bytes) (j : Nat) :
    (List.range' (j * 8) 8).countP (bitAt data) = countOnes (data.getD j 0) := by
  rw [List.range'_eq_map_range, List.countP_map]
  refine List.countP_congr fun i hi => ?_
  rw [Function.comp_apply, bitAt_byte data j (List.mem_range.mp hi)]
  rfl

/-- The sum over bytes is the count over their bits. -/
theorem sum_countOnes (data : Bytes) (j n : Nat) :
    ((List.range' j n).map fun i => countOnes (data.getD i 0)).sum =
      (List.range' (j * 8) (n * 8)).countP (bitAt data) := by
  induction n generalizing j with
  | zero => rfl
  | succ n ih =>
    have hsplit : List.range' (j * 8) ((n + 1) * 8) =
        List.range' (j * 8) 8 ++ List.range' ((j + 1) * 8) (n * 8) := by
      rw [show (j + 1) * 8 = j * 8 + 1 * 8 by omega, List.range'_append]
      congr 1
      omega
    rw [hsplit, List.countP_append, countP_byte, ← ih (j + 1), List.range'_succ, List.map_cons,
      List.sum_cons]

/-- What is counted in a part of the positions. -/
theorem countP_range' (f : Nat → Bool) {n m : Nat} (h : lo + n ≤ m) :
    (List.range' lo n).countP f =
      (List.range m).countP fun i => decide (lo ≤ i ∧ i < lo + n) && f i := by
  have hsplit : List.range m =
      List.range' 0 lo ++ List.range' lo n ++ List.range' (lo + n) (m - (lo + n)) := by
    have h₁ := @List.range'_append 0 lo n 1
    have h₂ := @List.range'_append 0 (lo + n) (m - (lo + n)) 1
    simp only [Nat.one_mul, Nat.zero_add] at h₁ h₂
    rw [h₁, h₂, List.range_eq_range']
    congr 1
    omega
  have hout : ∀ a k, (∀ i ∈ List.range' a k, ¬(lo ≤ i ∧ i < lo + n)) →
      (List.range' a k).countP (fun i => decide (lo ≤ i ∧ i < lo + n) && f i) = 0 := by
    intro a k hno
    rw [List.countP_eq_zero]
    intro i hi
    simp [hno i hi]
  have hbefore := hout 0 lo fun i hi => by
    rw [List.mem_range'_1] at hi
    omega
  have hafter := hout (lo + n) (m - (lo + n)) fun i hi => by
    rw [List.mem_range'_1] at hi
    omega
  rw [hsplit, List.countP_append, List.countP_append, hbefore, hafter, Nat.zero_add, Nat.add_zero]
  refine List.countP_congr fun i hi => ?_
  rw [List.mem_range'_1] at hi
  simp [hi]

/-! ## Ranges -/

/-- The words of a range, with its ends: a missing end is the end of the string. -/
inductive Span : List Bytes → (start stop : Int) → (useBit : Bool) → Prop
  | whole : Span [] 0 (-1) false
  | upward {a : Bytes} {start : Int} (ha : parseI64 a = some start) : Span [a] start (-1) false
  | bytes {a b : Bytes} {start stop : Int} (ha : parseI64 a = some start)
    (hb : parseI64 b = some stop) : Span [a, b] start stop false
  | units {a b u : Bytes} {start stop : Int} {useBit : Bool} (ha : parseI64 a = some start)
    (hb : parseI64 b = some stop)
    (hu : isWord (if useBit then "bit" else "byte") u = true) : Span [a, b, u] start stop useBit

/-- A position of a string of `len` bytes is in the range; a negative end counts from the end. -/
def Selects (start stop : Int) (useBit : Bool) (len i : Nat) : Prop :=
  let n : Int := if useBit then len * 8 else len
  let pos : Int := if useBit then i else (i / 8 : Nat)
  i < len * 8 ∧ (if start < 0 then n + start else start) ≤ pos ∧
    pos ≤ if stop < 0 then n + stop else stop

instance (start stop : Int) (useBit : Bool) (len i : Nat) :
    Decidable (Selects start stop useBit len i) := by
  unfold Selects
  infer_instance

/-- The clamped ends select the same. -/
theorem Range.clamp_iff (r : Range) {n pos : Int} (h₀ : 0 ≤ pos) (h₁ : pos < n) :
    ((r.clamp n).1 ≤ pos ∧ pos ≤ (r.clamp n).2) ↔
      (if r.start < 0 then n + r.start else r.start) ≤ pos ∧
        pos ≤ if r.stop < 0 then n + r.stop else r.stop := by
  unfold Range.clamp
  dsimp only
  split <;> split <;> split <;> omega

theorem Range.clamp_bounds (r : Range) (n : Int) : 0 ≤ (r.clamp n).1 ∧ (r.clamp n).2 < n := by
  unfold Range.clamp
  dsimp only
  refine ⟨by omega, ?_⟩
  split <;> omega

theorem selects_whole (len i : Nat) : Selects 0 (-1) false len i ↔ i < len * 8 := by
  unfold Selects
  simp only [Bool.false_eq_true, if_false]
  omega

/-- The whole string is counted. -/
theorem onesIn_none (data : Bytes) :
    onesIn data none = (List.range (data.length * 8)).countP (bitAt data) := by
  have hmap : data.map countOnes =
      (List.range' 0 data.length).map fun i => countOnes (data.getD i 0) := by
    apply List.ext_getElem
    · rw [List.length_map, List.length_map, List.length_range']
    · intro i hi hi'
      rw [List.length_map] at hi
      rw [List.getElem_map, List.getElem_map, List.getElem_range', Nat.zero_add, Nat.one_mul,
        List.getD_eq_getElem?_getD, List.getElem?_eq_getElem hi, Option.getD_some]
  rw [onesIn, hmap, sum_countOnes, List.range_eq_range', Nat.zero_mul]

/-- The clamped ends of a range over a string, in bits or in bytes. -/
theorem selects_iff (r : Range) {len i : Nat} (hi : i < len * 8) :
    Selects r.start r.stop r.useBit len i ↔ let ends := r.clamp (if r.useBit then len * 8 else len)
      let pos : Int := if r.useBit then i else (i / 8 : Nat)
      ends.1 ≤ pos ∧ pos ≤ ends.2 := by
  have hpos : 0 ≤ (if r.useBit then (i : Int) else (i / 8 : Nat)) ∧
      (if r.useBit then (i : Int) else (i / 8 : Nat)) <
        (if r.useBit then (len : Int) * 8 else len) := by
    cases r.useBit <;> simp only [Bool.false_eq_true, if_false, if_true] <;> omega
  rw [r.clamp_iff hpos.1 hpos.2]
  exact and_iff_right hi

/-- **Counting by bytes and by bits is counting the positions of the range.** -/
theorem onesIn_some (data : Bytes) (r : Range) :
    onesIn data (some r) = (List.range (data.length * 8)).countP fun i =>
      decide (Selects r.start r.stop r.useBit data.length i) && bitAt data i := by
  unfold onesIn
  dsimp only
  have hsel := fun i (hi : i < data.length * 8) => selects_iff r hi
  generalize hn : (if r.useBit then (data.length : Int) * 8 else data.length) = n at *
  obtain ⟨h₀, h₁⟩ := r.clamp_bounds n
  generalize r.clamp n = ends at *
  obtain ⟨start, stop⟩ := ends
  split
  · rename_i hempty
    rw [eq_comm, List.countP_eq_zero]
    intro i hi
    rw [List.mem_range] at hi
    rw [Bool.or_eq_true, decide_eq_true_eq, decide_eq_true_eq] at hempty
    rw [Bool.and_eq_true, decide_eq_true_eq, hsel i hi]
    omega
  · rename_i hsome
    rw [Bool.or_eq_true, decide_eq_true_eq, decide_eq_true_eq] at hsome
    cases hbit : r.useBit with
    | true =>
      simp only [hbit, if_true] at hn hsel ⊢
      rw [countP_range' _
        (by omega : start.toNat + (stop.toNat + 1 - start.toNat) ≤ data.length * 8)]
      refine List.countP_congr fun i hi => ?_
      rw [Bool.and_eq_true, Bool.and_eq_true, decide_eq_true_eq, decide_eq_true_eq,
        hsel i (List.mem_range.mp hi)]
      refine and_congr_left' ?_
      omega
    | false =>
      simp only [hbit, Bool.false_eq_true, if_false] at hn hsel ⊢
      rw [sum_countOnes, countP_range' _ (by omega : start.toNat * 8 +
        (stop.toNat + 1 - start.toNat) * 8 ≤ data.length * 8)]
      refine List.countP_congr fun i hi => ?_
      rw [Bool.and_eq_true, Bool.and_eq_true, decide_eq_true_eq, decide_eq_true_eq,
        hsel i (List.mem_range.mp hi)]
      refine and_congr_left' ?_
      omega

/-- The bits from `lo` to `hi`. -/
theorem firstFrom_bitPosInRange (data : Bytes) (lo hi : Nat) (bit : Bool) :
    FirstFrom (fun q => q ≤ hi ∧ q < data.length * 8 ∧ bitAt data q = bit) lo
      (bitPosInRange data lo hi bit) := by
  have h := @firstFrom_bitPosLoop data lo hi bit (lo / 8) _ rfl (Nat.le_refl _)
  rwa [show max lo (lo / 8 * 8) = lo by omega] at h

theorem firstFrom_whole (data : Bytes) (bit : Bool) :
    FirstFrom (fun q => q < data.length * 8 ∧ bitAt data q = bit) 0
      (bitPosInRange data 0 (data.length * 8 - 1) bit) :=
  (firstFrom_bitPosInRange data 0 _ bit).congr fun q _ =>
    ⟨fun h => h.2, fun h => ⟨by omega, h⟩⟩

/-- If the positions from `lo` to `hi` are selected. -/
theorem firstFrom_selected {r : Range} (bit : Bool)
    (h : ∀ q < data.length * 8, (Selects r.start r.stop r.useBit data.length q ↔ lo ≤ q ∧ q ≤ hi)) :
    FirstFrom (fun q => Selects r.start r.stop r.useBit data.length q ∧ bitAt data q = bit) 0
      (bitPosInRange data lo hi bit) := by
  refine ((firstFrom_bitPosInRange data lo hi bit).congr fun q hq => ?_).skip (Nat.zero_le lo)
    fun q _ hq hP => absurd ((h q hP.1.1).mp hP.1).1 (Nat.not_le.mpr hq)
  constructor
  · rintro ⟨hle, hlt, hbit⟩
    exact ⟨(h q hlt).mpr ⟨hq, hle⟩, hbit⟩
  · rintro ⟨hs, hbit⟩
    exact ⟨((h q hs.1).mp hs).2, hs.1, hbit⟩

/-- The bits of a range are those that it selects. -/
theorem Range.bits_cases (r : Range) (len : Nat) :
    (r.bits len = none ∧ ∀ q, ¬Selects r.start r.stop r.useBit len q) ∨
      ∃ lo hi, r.bits len = some (lo, hi) ∧
        ∀ q < len * 8, (Selects r.start r.stop r.useBit len q ↔ lo ≤ q ∧ q ≤ hi) := by
  have hsel := fun i (hi : i < len * 8) => selects_iff r hi
  have hbounds := r.clamp_bounds (if r.useBit then len * 8 else len)
  unfold Range.bits
  obtain ⟨start, stop, useBit⟩ := r
  cases useBit <;> simp only [Bool.false_eq_true, if_false, if_true] at hsel hbounds ⊢
  all_goals
    split
    · refine .inl ⟨rfl, fun q hq => ?_⟩
      have := (hsel q hq.1).mp hq
      omega
    · refine .inr ⟨_, _, rfl, fun q hq => ?_⟩
      rw [hsel q hq]
      omega

/-- **`BITPOS` with both ends finds the least position of the range.** -/
theorem firstFrom_posIn (data : Bytes) (bit : Bool) (r : Range) :
    FirstFrom (fun q => Selects r.start r.stop r.useBit data.length q ∧ bitAt data q = bit) 0
      (posIn data bit (some r)) := by
  show FirstFrom _ 0 ((r.bits data.length).bind _)
  rcases r.bits_cases data.length with ⟨hnone, hno⟩ | ⟨lo, hi, hsome, hsel⟩
  · rw [hnone]
    exact fun q _ hP => hno q hP.1
  · rw [hsome]
    exact firstFrom_selected bit hsel

/-- The answer to a search: the least position, or `past` if there is none. -/
def LeastOr (P : Nat → Prop) (past pos : Option Nat) : Prop :=
  (∃ p, pos = some p ∧ FirstFrom P 0 (some p)) ∨ (∀ q, ¬P q) ∧ pos = past

theorem FirstFrom.leastOr {P : Nat → Prop} {pos : Option Nat} (h : FirstFrom P 0 pos) :
    LeastOr P none pos := by
  cases pos with
  | some p => exact .inl ⟨p, rfl, h⟩
  | none => exact .inr ⟨fun q => h q (Nat.zero_le q), rfl⟩

/-- Without a range a search for zero ends at the end of the string. -/
theorem leastOr_whole (data : Bytes) (bit : Bool) :
    LeastOr (fun q => q < data.length * 8 ∧ bitAt data q = bit)
      (if bit then none else some (data.length * 8)) (posIn data bit none) := by
  have hfirst := firstFrom_whole data bit
  rw [posIn]
  cases hfound : bitPosInRange data 0 (data.length * 8 - 1) bit with
  | some p =>
    rw [hfound] at hfirst
    exact .inl ⟨p, rfl, hfirst⟩
  | none =>
    rw [hfound] at hfirst
    exact .inr ⟨fun q => hfirst q (Nat.zero_le q), rfl⟩

/-- Without an end only the first byte is searched. -/
theorem leastOr_upward (data : Bytes) (bit : Bool) (start : Int) :
    let sought (q : Nat) := Selects start (-1) false data.length q ∧ bitAt data q = bit
    LeastOr sought (if bit then none else some (data.length * 8))
        (posIn data bit (some ⟨start, 0, false⟩)) ↔
      (∃ q < 8, sought q) ∨ bit = true ∧ ∀ q, ¬sought q := by
  intro sought
  have hsel (q : Nat) : Selects start 0 false data.length q ↔
      q < 8 ∧ Selects start (-1) false data.length q := by
    unfold Selects
    simp only [Bool.false_eq_true, if_false]
    split <;> omega
  have hfirst := firstFrom_posIn data bit ⟨start, 0, false⟩
  simp only [hsel, and_assoc] at hfirst
  cases hpos : posIn data bit (some ⟨start, 0, false⟩) with
  | some p =>
    rw [hpos] at hfirst
    obtain ⟨-, ⟨hp, hP⟩, hleast⟩ := hfirst
    refine iff_of_true (.inl ⟨p, rfl, Nat.zero_le p, hP, fun q h₀ hq hQ => ?_⟩) (.inl ⟨p, hp, hP⟩)
    exact hleast q h₀ hq ⟨hq.trans hp, hQ⟩
  | none =>
    rw [hpos] at hfirst
    have hno : ¬∃ q < 8, sought q := fun ⟨q, hq, hQ⟩ => hfirst q (Nat.zero_le q) ⟨hq, hQ⟩
    cases bit <;> simp [LeastOr, hno]

/-! ## The commands -/

theorem accepted_bitcount (c : Ctx) (key : Bytes) (args : List Bytes) :
    accepted c "bitcount" (key :: args) = (bitCountRange args).toOption.map fun r =>
      .bitmap (c.key key) (.bitCount r) := by
  show Except.toOption (((bitCountRange args).bind fun r => .ok (Op.bitCount r)).bind fun op =>
    .ok (DataCommand.bitmap (c.key key) op)) = _
  cases bitCountRange args <;> rfl

theorem accepted_bitpos (c : Ctx) (key : Bytes) {word : Bytes} (h : bitValue word = .ok bit)
    (args : List Bytes) :
    accepted c "bitpos" (key :: word :: args) = (bitPosRange args).toOption.map fun r =>
      .bitmap (c.key key) (.bitPos bit r) := by
  show Except.toOption (((bitValue word).bind fun b => (bitPosRange args).bind fun r =>
    .ok (Op.bitPos b r)).bind fun op => .ok (DataCommand.bitmap (c.key key) op)) = _
  rw [h]
  cases bitPosRange args <;> rfl

theorem int_of_parseI64 {a : Bytes} {n : Int} (ha : parseI64 a = some n) : int a = .ok n := by
  rw [int, ha]
  rfl

/-- The range that the dispatcher makes of the words. -/
theorem Span.range {args : List Bytes} {start stop : Int} {useBit : Bool}
    (h : Span args start stop useBit) (hend : args.length ≠ 1) :
    ∃ r : Option Range, bitCountRange args = .ok r ∧ bitPosRange args = .ok r ∧
      (args = [] ∧ start = 0 ∧ stop = -1 ∧ useBit = false ∧ r = none ∨
        1 < args.length ∧ r = some ⟨start, stop, useBit⟩) := by
  cases h with
  | whole => exact ⟨none, rfl, rfl, .inl ⟨rfl, rfl, rfl, rfl, rfl⟩⟩
  | upward ha => exact absurd rfl hend
  | bytes ha hb =>
    refine ⟨some ⟨start, stop, false⟩, ?_, ?_, .inr ⟨by simp, rfl⟩⟩
    · rw [bitCountRange, int_of_parseI64 ha, int_of_parseI64 hb]
      rfl
    · rw [bitPosRange, int_of_parseI64 ha, int_of_parseI64 hb]
      rfl
  | @units a b u _ _ _ ha hb hu =>
    have hunit : bitUnit [u] = .ok useBit := by
      cases useBit with
      | true => exact if_pos hu
      | false =>
        have hne : isWord "bit" u = false := by
          rw [isWord, decide_eq_false_iff_not, of_decide_eq_true hu]
          decide
        rw [bitUnit, hne, if_neg Bool.false_ne_true]
        exact if_pos hu
    refine ⟨some ⟨start, stop, useBit⟩, ?_, ?_, .inr ⟨by simp, rfl⟩⟩
    · rw [bitCountRange, int_of_parseI64 ha, int_of_parseI64 hb, hunit]
      rfl
    · rw [bitPosRange, int_of_parseI64 ha, int_of_parseI64 hb, hunit]
      rfl

/-- What `BITPOS` finds in the range. -/
theorem Span.pos {args : List Bytes} {start stop : Int} {useBit : Bool}
    (h : Span args start stop useBit) (data : Bytes) (bit : Bool) :
    let sought (q : Nat) := Selects start stop useBit data.length q ∧ bitAt data q = bit
    ∃ r, bitPosRange args = .ok r ∧
      (LeastOr sought (if bit || 1 < args.length then none else some (data.length * 8))
        (posIn data bit r) ↔
          (args.length = 1 → (∃ q < 8, sought q) ∨ bit = true ∧ ∀ q, ¬sought q)) := by
  intro sought
  by_cases hend : args.length = 1
  · cases h with
    | upward ha =>
      refine ⟨some ⟨start, 0, false⟩, ?_, ?_⟩
      · rw [bitPosRange, int_of_parseI64 ha]
        rfl
      · simpa [sought] using leastOr_upward data bit start
    | _ => cases hend
  · obtain ⟨r, -, hr, hcases⟩ := h.range hend
    refine ⟨r, hr, iff_of_true ?_ fun h => absurd h hend⟩
    rcases hcases with ⟨rfl, rfl, rfl, rfl, rfl⟩ | ⟨hlong, rfl⟩
    · simpa [sought, selects_whole] using leastOr_whole data bit
    · simpa [hlong] using (firstFrom_posIn data bit ⟨start, stop, useBit⟩).leastOr

/-- **`BITCOUNT` and `BITPOS` agree with `GETBIT`**, `BITPOS` without an end if and only if the
first byte has a bit that is sought, or ones are sought and there is none. -/
theorem bits_counted_and_found (ln : F64 → F64) (c : Ctx) (s : Store) (env : Nat → Tick)
    (key : Bytes) (row : Row) (args : List Bytes) (start stop : Int) (useBit : Bool)
    (hrow : Finds (answers env) s (c.key key) (some row)) (hspan : Span args start stop useBit) :
    let out (command : DataCommand) := (Call.outcome ln s { command, waiter := none, env }).out
    let len := row.value.length
    let bitIs (i : Nat) (bit : Bool) : Prop :=
      out (.bitmap (c.key key) (.getBit i)) = .ok (.integer (if bit then 1 else 0))
    (args.length ≠ 1 → ∃ cmd ones, accepted c "bitcount" (key :: args) = some cmd ∧
      out cmd = .ok (.integer ((List.range (len * 8)).countP ones)) ∧
      ∀ i, ones i = true ↔ Selects start stop useBit len i ∧ bitIs i true) ∧
    ∀ word bit, parseI64 word = some (if bit then 1 else 0) →
      let sought (i : Nat) := Selects start stop useBit len i ∧ bitIs i bit
      ∃ cmd pos, accepted c "bitpos" (key :: word :: args) = some cmd ∧
        out cmd = .ok (posReply pos) ∧
        (LeastOr sought (if bit || 1 < args.length then none else some (len * 8)) pos ↔
          (args.length = 1 → (∃ i < 8, sought i) ∨ bit = true ∧ ∀ i, ¬sought i)) := by
  intro out len bitIs
  have hget (i : Nat) :
      out (.bitmap (c.key key) (.getBit i)) = .ok (bitReply (bitAt row.value i)) := by
    refine out_eq_of_wp ?_
    show wp _ (getBit _ _) _ _ _
    unfold getBit
    rw [wp_seq]
    exact wp_get_finds hrow rfl
  have hbit (i : Nat) (bit : Bool) : bitIs i bit ↔ bitAt row.value i = bit := by
    show out _ = _ ↔ _
    rw [hget]
    cases bitAt row.value i <;> cases bit <;> decide
  constructor
  · intro hend
    obtain ⟨r, hcount, -, hr⟩ := hspan.range hend
    refine ⟨_, fun i => decide (Selects start stop useBit len i) && bitAt row.value i,
      by rw [accepted_bitcount, hcount]; rfl, ?_, fun i => ?_⟩
    · have hones : onesIn row.value r = (List.range (len * 8)).countP fun i =>
          decide (Selects start stop useBit len i) && bitAt row.value i := by
        rcases hr with ⟨-, rfl, rfl, rfl, rfl⟩ | ⟨-, rfl⟩
        · rw [onesIn_none]
          refine List.countP_congr fun i hi => ?_
          rw [Bool.and_eq_true, decide_eq_true_eq, selects_whole]
          exact (and_iff_right (List.mem_range.mp hi)).symm
        · exact onesIn_some row.value _
      rw [← hones]
      refine out_eq_of_wp ?_
      show wp _ (bitCount _ _) _ _ _
      unfold bitCount
      rw [wp_seq]
      exact wp_get_finds hrow rfl
    · rw [hbit, Bool.and_eq_true, decide_eq_true_eq]
  · intro word bit hword
    have hvalue : bitValue word = .ok bit := by
      rw [bitValue, int, hword]
      cases bit <;> rfl
    have hout (r : Option Range) : out (.bitmap (c.key key) (.bitPos bit r)) =
        .ok (posReply (posIn row.value bit r)) := by
      refine out_eq_of_wp ?_
      show wp _ (bitPos _ _ _) _ _ _
      unfold bitPos
      rw [wp_seq]
      exact wp_get_finds hrow rfl
    obtain ⟨r, hr, hpos⟩ := hspan.pos row.value bit
    refine ⟨_, posIn row.value bit r, by rw [accepted_bitpos c key hvalue, hr]; rfl, hout r, ?_⟩
    simpa only [hbit] using hpos

/-- A range of bits with an end that counts from the end. -/
theorem bits_counted_and_found_range :
    let s := storeAfter [("set", [ascii "k", [0x0F, 0xF0]])]
    let out (command : DataCommand) :=
      (Call.outcome id s { command, waiter := none, env := clock 2 }).out
    ∃ cmd ones, accepted { db := 0, now := 1 } "bitcount" (ascii "k" :: words ["6", "-3", "bit"]) =
        some cmd ∧ out cmd = .ok (.integer ((List.range 16).countP ones)) ∧
      ∀ i, ones i = true ↔ Selects 6 (-3) true 2 i ∧
        out (.bitmap (publicKey 0 (ascii "k")) (.getBit i)) = .ok (.integer 1) :=
  (bits_counted_and_found id { db := 0, now := 1 }
    (storeAfter [("set", [ascii "k", [0x0F, 0xF0]])]) (clock 2) (ascii "k")
    { value := [0x0F, 0xF0], metadata := typeString } (words ["6", "-3", "bit"]) 6 (-3) true
    (fun x hx => by
      obtain ⟨n, rfl⟩ := hx
      show Option.filter (fun row : Row => !row.expired 1) _ = _
      decide +kernel)
    (.units (by decide +kernel) (by decide +kernel) (by decide +kernel))).1 (by decide)

/-- **A missing end is not the end of the string**: the second byte is full, `BITPOS` from there
finds neither its first bit nor, when it looks for a zero, the end of the string. -/
theorem bitpos_without_end : replies [("set", [ascii "k", [0, 0xFF]]), ("getbit", words ["k", "8"]),
        ("bitpos", words ["k", "1", "1"]), ("bitpos", words ["k", "0", "1"]),
        ("bitpos", words ["k", "1", "1", "-1"])] =
      [some .ok, some (.integer 1), some (.integer (-1)), some (.integer (-1)),
        some (.integer 8)] := by
  decide +kernel

end Invar.Bitmap
