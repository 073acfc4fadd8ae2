import Invar.Decimal
import Invar.Redis.Resp

/-!
# Decoding what was encoded

The encoder is recursive and the decoder keeps a stack, so the round trip is proved
with any stack of open arrays and any further input: the decoder comes to the point
where it delivers the value. The one integer that does not come back is the least
`i64`, whose digits overflow before the sign is applied: no value that the decoder
delivers has it inside.
-/

namespace Invar

/-! ## Values -/

mutual

/-- `p` holds of the value and of all values inside it. -/
def RespValue.All (p : RespValue → Prop) : RespValue → Prop
  | .array (some items) => p (.array (some items)) ∧ RespValue.AllItems p items
  | v => p v

def RespValue.AllItems (p : RespValue → Prop) : List RespValue → Prop
  | [] => True
  | v :: rest => v.All p ∧ RespValue.AllItems p rest

end

mutual

/-- How many arrays with elements are nested. -/
def RespValue.depth : RespValue → Nat
  | .array (some items) => if items.isEmpty then 0 else RespValue.itemsDepth items + 1
  | _ => 0

def RespValue.itemsDepth : List RespValue → Nat
  | [] => 0
  | v :: rest => max v.depth (RespValue.itemsDepth rest)

end

namespace Resp

open Incremental

/-- What the Rust types say: an integer is an `i64`, a byte string or vector is not longer
than `isize::MAX`. -/
def Typed : RespValue → Prop
  | .integer n => -2 ^ 63 ≤ n ∧ n < 2 ^ 63
  | .simpleString s | .error s | .bulkString (some s) => s.length < 2 ^ 63
  | .array (some items) => items.length < 2 ^ 63
  | _ => True

/-- The limits of a decoder, and no line end inside a line. -/
def Within (lim : Limits) : RespValue → Prop
  | .simpleString s | .error s => ¬ crlf <:+: s ∧ s.length ≤ lim.maxBulkLen
  | .bulkString (some b) => b.length ≤ lim.maxBulkLen
  | .array (some items) => items.length ≤ lim.maxArrayLen
  | _ => True

/-- Not the integer whose digits overflow. -/
def NotLeast (v : RespValue) : Prop := v ≠ .integer (-2 ^ 63)

/-! ## Lines -/

variable {s rest src : Bytes} {lim : Limits} {stack : List ArrayFrame} {n : Int} {v : RespValue}
  {type : UInt8}

/-- The first end of a line without one inside is its own. -/
theorem findCrlf_line (h : ¬ crlf <:+: s) (rest : Bytes) :
    findCrlf (s ++ crlf ++ rest) = some s.length := by
  induction s with
  | nil => rfl
  | cons b s ih =>
    have htail : ¬ crlf <:+: s := fun hs => h (hs.trans (List.suffix_cons b s).isInfix)
    have hhere : ¬ (b = 13 && (s ++ crlf ++ rest).head? = some 10) = true := by
      intro heq
      simp only [Bool.and_eq_true, decide_eq_true_eq] at heq
      obtain ⟨rfl, hhead⟩ := heq
      cases s with
      | nil => simp [crlf] at hhead
      | cons c s =>
        simp only [List.cons_append, List.head?_cons, Option.some.injEq] at hhead
        subst hhead
        exact h ⟨[], s, rfl⟩
    rw [List.cons_append, List.cons_append, findCrlf, if_neg hhere, ih htail]
    rfl

/-- **A complete line is read as what it is.** -/
theorem round_line {content : Bytes} (htype : type ∈ typeBytes) (h : ¬ crlf <:+: content)
    (hlen : content.length ≤ lim.maxBulkLen) (rest : Bytes) :
    Decoder.round lim { stack } (type :: content ++ crlf ++ rest) =
      lineOf lim stack type content rest := by
  have hcr : type ≠ 13 := by
    rintro rfl
    exact absurd htype (by decide)
  have hline : ¬ crlf <:+: type :: content := by
    intro hinfix
    rcases List.infix_cons_iff.mp hinfix with hpre | hin
    · exact hcr (List.cons_prefix_cons.mp hpre).1.symm
    · exact h hin
  have hfind := findCrlf_line hline rest
  unfold Decoder.round
  simp only [List.cons_append, htype, not_true_eq_false, if_false] at hfind ⊢
  rw [readLine, hfind]
  simp only [List.length_cons, Nat.add_sub_cancel]
  rw [if_neg (by omega)]
  dsimp only
  congr 1
  · rw [List.append_assoc, List.take_left]
  · simp [crlf]

theorem no_crlf_of_digits (h : ∀ b ∈ s, isAsciiDigit b = true ∨ b = 45) : ¬ crlf <:+: s := by
  rintro hinfix
  have hmem : (13 : UInt8) ∈ s := hinfix.subset (by simp [crlf])
  rcases h _ hmem with h | h
  · exact absurd h (by decide)
  · exact absurd h (by decide)

/-! ## Integers -/

theorem parseDigits_append {xs ys : Bytes} {value v : Nat} (h : parseDigits xs value = .ok v) :
    parseDigits (xs ++ ys) value = parseDigits ys v := by
  induction xs generalizing value with
  | nil =>
    cases h
    rfl
  | cons b xs ih =>
    rw [parseDigits] at h
    rw [List.cons_append, parseDigits]
    split at h
    · cases h
    · rename_i hdigit
      rw [if_neg hdigit]
      dsimp only at h ⊢
      split at h
      · rename_i hle
        rw [if_pos hle]
        exact ih h
      · cases h

/-- The digits of a number that is in range. -/
theorem parseDigits_decimal {n : Nat} (h : n ≤ 2 ^ 63 - 1) : parseDigits (decimal n) 0 = .ok n := by
  induction n using Nat.strongRecOn with
  | ind n ih =>
    have hlast {d value : Nat} (hd : d < 10) (hv : value * 10 + d ≤ 2 ^ 63 - 1) :
        parseDigits [UInt8.ofNat (48 + d)] value = .ok (value * 10 + d) := by
      simp only [parseDigits, isAsciiDigit_ofNat hd, digit_toNat hd, hv, Bool.not_true,
        Bool.false_eq_true, if_false, if_true]
    by_cases hn : n < 10
    · rw [decimal_of_lt hn, hlast hn (by omega)]
      simp
    · have hmod := Nat.mod_lt n (by decide : 0 < 10)
      rw [decimal_of_le (by omega), parseDigits_append (ih _ (by omega) (by omega)),
        hlast hmod (by omega)]
      congr 1
      omega

/-- **An integer comes back, unless it is the least one.** -/
theorem parseInt_intText (hlo : -2 ^ 63 < n) (hhi : n < 2 ^ 63) : parseInt (intText n) = .ok n := by
  have hsigned (sign : Int) :
      parseInt.signed sign (decimal n.natAbs) = .ok (sign * n.natAbs) := by
    rw [parseInt.signed, if_neg (by simp [decimal_ne_nil]), parseDigits_decimal (by omega)]
    rfl
  unfold intText parseInt
  by_cases hneg : n < 0
  · rw [if_pos hneg, List.head?_cons, if_pos rfl, List.drop_succ_cons, List.drop_zero, hsigned]
    congr 1
    omega
  · rw [if_neg hneg, if_neg (head_decimal rfl), hsigned]
    congr 1
    omega

theorem parseInt_decimal {n : Nat} (h : n < 2 ^ 63) : parseInt (decimal n) = .ok (n : Int) := by
  have hi : intText (n : Int) = decimal n := by simp [intText]
  rw [← hi]
  exact parseInt_intText (by omega) (by exact_mod_cast h)

theorem intText_bytes {b : UInt8} (h : b ∈ intText n) : isAsciiDigit b = true ∨ b = 45 := by
  unfold intText at h
  split at h
  · rcases List.mem_cons.mp h with h | h
    · exact .inr h
    · exact .inl (isAsciiDigit_of_mem_decimal h)
  · exact .inl (isAsciiDigit_of_mem_decimal h)

theorem length_intText (hlo : -2 ^ 63 ≤ n) (hhi : n < 2 ^ 63) : (intText n).length ≤ 20 := by
  have hlen := length_decimal_le (n := n.natAbs) (k := 19) (by decide) (by omega)
  unfold intText
  split
  · simp only [List.length_cons]
    omega
  · omega

/-- A declared length is accepted if it is within the limit. -/
theorem declaredLength_decimal {len max : Nat} (hlen : len < 2 ^ 63) (hmax : len ≤ max)
    (invalid : Int → RespError) (tooLong : Nat → RespError) :
    declaredLength (decimal len) invalid tooLong max = .ok (some len) := by
  rw [declaredLength, parseInt_decimal hlen]
  simp only [bind, Except.bind]
  rw [if_neg (by omega), if_neg (by omega), if_neg (by simpa using hmax)]
  simp [pure, Except.pure]

theorem no_crlf_decimal (n : Nat) : ¬ crlf <:+: decimal n :=
  no_crlf_of_digits fun _ h => .inl (isAsciiDigit_of_mem_decimal h)

/-! ## The round trip -/

/-- From the encoding of `v` the decoder comes to deliver `v`. -/
def Arrives (lim : Limits) (stack : List ArrayFrame) (src : Bytes) (v : RespValue) (rest : Bytes) :
    Prop :=
  ∃ d src', Quiet (Decoder.round lim) { stack } src d src' ∧
    d.round lim src' = delivered stack v rest

theorem Arrives.of_round (h : Decoder.round lim { stack } src = delivered stack v rest) :
    Arrives lim stack src v rest := ⟨_, _, .refl _ _, h⟩

theorem Arrives.of_quiet {stack' : List ArrayFrame} {src' : Bytes}
    (hq : Quiet (Decoder.round lim) { stack } src { stack := stack' } src')
    (h : ∃ d src'', Quiet (Decoder.round lim) { stack := stack' } src' d src'' ∧
      d.round lim src'' = delivered stack v rest) : Arrives lim stack src v rest := by
  obtain ⟨d, src'', hq', hr⟩ := h
  exact ⟨d, src'', hq.trans hq', hr⟩

section

variable (h32 : 32 ≤ lim.maxBulkLen)
include h32

theorem round_decimal (htype : type ∈ typeBytes) {n : Nat} (hn : n < 2 ^ 63) (rest : Bytes) :
    Decoder.round lim { stack } (type :: decimal n ++ crlf ++ rest) =
      lineOf lim stack type (decimal n) rest := by
  refine round_line htype (no_crlf_decimal n) ?_ rest
  have := length_decimal_le (n := n) (k := 19) (by decide) (by omega)
  omega

theorem arrives_integer (hlo : -2 ^ 63 < n) (hhi : n < 2 ^ 63) (stack : List ArrayFrame)
    (rest : Bytes) : Arrives lim stack (encodeValue (.integer n) ++ rest) (.integer n) rest := by
  refine .of_round ?_
  have hlen := length_intText hlo.le hhi
  rw [encodeValue, round_line (by decide) (no_crlf_of_digits fun _ => intText_bytes) (by omega)]
  simp [lineOf, parseInt_intText hlo hhi]

theorem arrives_bulk {b : Bytes} (hb : b.length < 2 ^ 63) (hmax : b.length ≤ lim.maxBulkLen)
    (stack : List ArrayFrame) (rest : Bytes) :
    Arrives lim stack (encodeValue (.bulkString (some b)) ++ rest) (.bulkString (some b)) rest := by
  have hheader :
    Decoder.round lim { stack } (36 :: decimal b.length ++ crlf ++ (b ++ crlf ++ rest)) =
      .go none { stack, pendingBulkLen := some b.length } (b ++ crlf ++ rest) := by
    rw [round_decimal h32 (by decide) hb]
    simp [lineOf, bulkHeader, declaredLength_decimal hb hmax]
  refine ⟨_, _, .step (by simpa [encodeValue] using hheader) (.refl _ _), ?_⟩
  simp [Decoder.round, bulkPayload, crlf]

/-- The header of an array with elements opens a frame. -/
theorem round_array {items : List RespValue} (hlen : items.length < 2 ^ 63)
    (hmax : items.length ≤ lim.maxArrayLen) (hne : 0 < items.length) (stack : List ArrayFrame)
    (hdepth : stack.length < lim.maxDepth) (rest : Bytes) :
    Decoder.round lim { stack } (42 :: decimal items.length ++ crlf ++ rest) =
      .go none { stack := ⟨items.length, [], hne⟩ :: stack } rest := by
  rw [round_decimal h32 (by decide) hlen]
  simp only [lineOf, arrayHeader, declaredLength_decimal hlen hmax]
  simp [Nat.pos_iff_ne_zero.mp hne, Nat.not_le.mpr hdepth]

end

mutual

/-- **Encoding and decoding**, inside any stack of open arrays. -/
theorem arrives_encodeValue (h32 : 32 ≤ lim.maxBulkLen) (v : RespValue)
    (htyped : v.All Typed) (hwithin : v.All (Within lim)) (hleast : v.All NotLeast)
      (stack : List ArrayFrame) (hdepth : stack.length + v.depth ≤ lim.maxDepth) (rest : Bytes) :
    Arrives lim stack (encodeValue v ++ rest) v rest := by
  match v with
  | .simpleString s =>
    obtain ⟨hcrlf, hlen⟩ := hwithin
    refine .of_round ?_
    rw [encodeValue, round_line (by decide) hcrlf hlen]
    rfl
  | .error s =>
    obtain ⟨hcrlf, hlen⟩ := hwithin
    refine .of_round ?_
    rw [encodeValue, round_line (by decide) hcrlf hlen]
    rfl
  | .integer n =>
    have hne : n ≠ -2 ^ 63 := fun h => hleast (by rw [h])
    exact arrives_integer h32 (lt_of_le_of_ne htyped.1 hne.symm) htyped.2 stack rest
  | .bulkString none =>
    refine .of_round ?_
    exact round_line (by decide) (by decide) (by simp; omega) rest
  | .bulkString (some b) => exact arrives_bulk h32 htyped hwithin stack rest
  | .array none =>
    refine .of_round ?_
    exact round_line (by decide) (by decide) (by simp; omega) rest
  | .array (some []) =>
    refine .of_round ?_
    rw [encodeValue, List.length_nil, encodeItems, List.append_nil,
      round_decimal h32 (by decide) (by decide)]
    simp [lineOf, arrayHeader, declaredLength_decimal (show 0 < 2 ^ 63 by decide) (Nat.zero_le _)]
  | .array (some (w :: items)) =>
    have hd : stack.length + (RespValue.itemsDepth (w :: items) + 1) ≤ lim.maxDepth := hdepth
    have hheader := round_array h32 htyped.1 hwithin.1 (Nat.succ_pos _) stack (by omega)
      (encodeItems (w :: items) ++ rest)
    refine .of_quiet (.step ?_ (.refl _ _)) (arrives_encodeItems h32 (w :: items) htyped.2 hwithin.2
      hleast.2 stack [] (Nat.succ_pos _) (by omega) rest)
    rw [encodeValue, List.append_assoc]
    exact hheader

/-- All elements of an array that is open for exactly them. -/
theorem arrives_encodeItems (h32 : 32 ≤ lim.maxBulkLen) (items : List RespValue)
    (htyped : RespValue.AllItems Typed items) (hwithin : RespValue.AllItems (Within lim) items)
    (hleast : RespValue.AllItems NotLeast items) (stack : List ArrayFrame)
    (done : List RespValue) (hne : 0 < items.length)
    (hdepth : stack.length + 1 + RespValue.itemsDepth items ≤ lim.maxDepth) (rest : Bytes) :
    ∃ d src', Quiet (Decoder.round lim) { stack := ⟨items.length, done, hne⟩ :: stack }
      (encodeItems items ++ rest) d src' ∧
      d.round lim src' = delivered stack (.array (some (done ++ items))) rest := by
  match items with
  | [] => exact absurd hne (Nat.lt_irrefl 0)
  | v :: items =>
    have hd : stack.length + 1 + max v.depth (RespValue.itemsDepth items) ≤ lim.maxDepth := hdepth
    obtain ⟨d, src', hq, hr⟩ := arrives_encodeValue h32 v htyped.1 hwithin.1 hleast.1
      (⟨items.length + 1, done, hne⟩ :: stack) (by simp only [List.length_cons]; omega)
      (encodeItems items ++ rest)
    rw [encodeItems, List.append_assoc]
    match items with
    | [] =>
      -- the last element closes the array
      refine ⟨d, src', hq, ?_⟩
      rw [hr]
      simp [delivered, deliver, encodeItems]
    | w :: items =>
      have hopen : delivered (⟨(w :: items).length + 1, done, hne⟩ :: stack) v
          (encodeItems (w :: items) ++ rest) = .go none
            { stack := ⟨(w :: items).length, done ++ [v], Nat.succ_pos _⟩ :: stack }
            (encodeItems (w :: items) ++ rest) := by
        simp [delivered, deliver]
      obtain ⟨d', src'', hq', hr'⟩ :=
        arrives_encodeItems h32 (w :: items) htyped.2 hwithin.2 hleast.2
        stack (done ++ [v]) (Nat.succ_pos _) (by omega) rest
      refine ⟨d', src'', hq.trans (.step (hr.trans hopen) hq'), ?_⟩
      rw [hr', List.append_assoc]
      rfl

end

/-! ## What is never delivered -/

theorem parseDigits_le {value m : Nat} (h : parseDigits s value = .ok m)
    (hv : value ≤ 2 ^ 63 - 1) : m ≤ 2 ^ 63 - 1 := by
  induction s generalizing value with
  | nil =>
    cases h
    exact hv
  | cons b s ih =>
    rw [parseDigits] at h
    split at h
    · cases h
    · dsimp only at h
      split at h
      · exact ih h ‹_›
      · cases h

theorem parseInt_ne_least (h : parseInt s = .ok n) : n ≠ -2 ^ 63 := by
  have hsigned {sign : Int} {ds : Bytes} (hsign : sign = 1 ∨ sign = -1)
      (h : parseInt.signed sign ds = .ok n) : n ≠ -2 ^ 63 := by
    unfold parseInt.signed at h
    split at h
    · cases h
    · cases hds : parseDigits ds 0 with
      | error e =>
        rw [hds] at h
        cases h
      | ok m =>
        rw [hds] at h
        cases h
        have := parseDigits_le hds (by decide)
        rcases hsign with rfl | rfl <;> (dsimp only; omega)
  unfold parseInt at h
  split at h
  · exact hsigned (.inr rfl) h
  · exact hsigned (.inl rfl) h

theorem allItems_append {p : RespValue → Prop} {xs ys : List RespValue} :
    RespValue.AllItems p (xs ++ ys) ↔ RespValue.AllItems p xs ∧ RespValue.AllItems p ys := by
  induction xs with
  | nil => simp [RespValue.AllItems]
  | cons v xs ih => simp [RespValue.AllItems, ih, and_assoc]

/-- The elements that the open arrays have so far. -/
def CleanStack (stack : List ArrayFrame) : Prop :=
  ∀ f ∈ stack, RespValue.AllItems NotLeast f.elements

theorem deliver_clean (hs : CleanStack stack) (hv : v.All NotLeast) :
    CleanStack (deliver stack v).2 ∧ ∀ w ∈ (deliver stack v).1, w.All NotLeast := by
  induction stack generalizing v with
  | nil => simpa [deliver, CleanStack] using hv
  | cons f stack ih =>
    obtain ⟨hf, hs⟩ := List.forall_mem_cons.mp hs
    have hitems : RespValue.AllItems NotLeast (f.elements ++ [v]) :=
      allItems_append.mpr ⟨hf, hv, trivial⟩
    rw [deliver]
    split
    · exact ⟨List.forall_mem_cons.mpr ⟨hitems, hs⟩, by simp⟩
    · exact ih hs ⟨by simp [NotLeast], hitems⟩

theorem lineOf_clean {d : Decoder} {out : Option RespValue} {rest' content : Bytes}
    (hs : CleanStack stack) (h : lineOf lim stack type content rest = .go out d rest') :
    CleanStack d.stack ∧ ∀ w ∈ out, w.All NotLeast := by
  have hdeliver {v : RespValue} (hv : v.All NotLeast)
      (h : delivered stack v rest = .go out d rest') :
      CleanStack d.stack ∧ ∀ w ∈ out, w.All NotLeast := by
    cases h
    exact deliver_clean hs hv
  unfold lineOf bulkHeader arrayHeader at h
  repeat' split at h
  all_goals first
    | (refine hdeliver ?_ h; simp [RespValue.All, RespValue.AllItems, NotLeast]; done)
    | (refine hdeliver ?_ h; exact fun heq => parseInt_ne_least ‹_› (RespValue.integer.inj heq))
    | (cases h; done)
    | (cases h; exact ⟨hs, by simp⟩)
    | (cases h; exact ⟨List.forall_mem_cons.mpr ⟨trivial, hs⟩, by simp⟩)

theorem round_clean (d : Decoder) (src : Bytes) (out : Option RespValue) (d' : Decoder)
    (rest : Bytes) (hs : CleanStack d.stack) (h : d.round lim src = .go out d' rest) :
    CleanStack d'.stack ∧ ∀ w ∈ out, w.All NotLeast := by
  unfold Decoder.round bulkPayload at h
  repeat' split at h
  all_goals first
    | exact lineOf_clean hs h
    | (cases h; done)
    | (cases h; exact deliver_clean hs (by simp [RespValue.All, NotLeast]))

/-- **The round trip.** Values that keep to the limits come back from their encodings, one alone
with nothing left over and several in a row in their order, if and only if none of them has the
least `i64` inside. -/
theorem decode_encodeValue (lim : Limits) (h32 : 32 ≤ lim.maxBulkLen) (vs : List RespValue)
    (htyped : ∀ v ∈ vs, v.All Typed) (hwithin : ∀ v ∈ vs, v.All (Within lim))
    (hdepth : ∀ v ∈ vs, v.depth ≤ lim.maxDepth) :
    ((∀ v ∈ vs, decode lim {} (encodeValue v) = .some v {} []) ∧
      decodeAll lim {} (vs.flatMap encodeValue) = (vs, .waiting {} [])) ↔
      ∀ v ∈ vs, v.All NotLeast := by
  refine ⟨fun h v hv => of_next (I := fun d => CleanStack d.stack) round_clean
    (by simp [CleanStack]) (h.1 v hv), fun hleast => ?_⟩
  have harrives (v : RespValue) (hv : v ∈ vs) (rest : Bytes) :
      Arrives lim [] (encodeValue v ++ rest) v rest :=
    arrives_encodeValue h32 v (htyped v hv) (hwithin v hv) (hleast v hv) []
      (by simpa using hdepth v hv) rest
  constructor
  · intro v hv
    obtain ⟨d, src', hq, hr⟩ := harrives v hv []
    rw [List.append_nil] at hq
    rw [decode, hq.next_eq (shrinks_round lim), next_eq (shrinks_round lim), hr]
    rfl
  · refine outputs_eq (shrinks_round lim) ?_
    clear htyped hwithin hdepth hleast
    induction vs with
    | nil => exact .wait rfl
    | cons v vs ih =>
      obtain ⟨d, src', hq, hr⟩ := harrives v List.mem_cons_self (vs.flatMap encodeValue)
      rw [List.flatMap_cons]
      exact hq.drains (.go hr (ih fun w hw => harrives w (List.mem_cons_of_mem _ hw)))

/-- Two nested arrays, an error with a bare `\r` at its end, and the greatest integer. -/
theorem decode_encodeValue_nested :
    let lim : Limits := { maxBulkLen := 32, maxArrayLen := 2, maxDepth := 2 }
    let v : RespValue := .array (some [.array (some [.error [69, 13]]), .bulk [0, 255]])
    decode lim {} (encodeValue v) = .some v {} [] ∧
      decodeAll lim {} ([v, .integer (2 ^ 63 - 1)].flatMap encodeValue) =
        ([v, .integer (2 ^ 63 - 1)], .waiting {} []) := by
  intro lim v
  have hv : v ∈ [v, .integer (2 ^ 63 - 1)] := List.mem_cons_self
  obtain ⟨hone, hall⟩ := (decode_encodeValue lim (by decide) [v, .integer (2 ^ 63 - 1)]
    (by simp [v, RespValue.All, RespValue.AllItems, Typed, RespValue.bulk])
    (by
      simp only [v, RespValue.All, RespValue.AllItems, Within, RespValue.bulk, List.mem_cons,
        List.not_mem_nil, or_false, forall_eq_or_imp, forall_eq]
      decide)
    (by simp [v, RespValue.depth, RespValue.itemsDepth, RespValue.bulk, lim])).mpr
    (by simp [v, RespValue.All, RespValue.AllItems, RespValue.bulk, NotLeast])
  exact ⟨hone v hv, hall⟩

/-- The least `i64` is encoded, and its encoding is refused. -/
theorem decode_encodeValue_least : decode { maxBulkLen := 32, maxArrayLen := 1, maxDepth := 1 } {}
      (encodeValue (.integer (-2 ^ 63))) = .error .outOfRange := by
  rfl

end Resp

end Invar
