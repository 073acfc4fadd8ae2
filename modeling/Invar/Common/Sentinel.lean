import Invar.Decimal
import Invar.Kv.Logic
import Mathlib.Data.Nat.Bitwise

/-!
# Sentinels

What a sentinel says can be read back (`isSentinel_sentinelRow`), so commands that resolve
a prefix, read a sentinel and write it again work on the same elements. A row is
lasting for a range of environments if none of them sees it expired.
-/

namespace Invar

open StoreProg TxProg

/-! ## Big-endian numbers -/

@[simp] theorem length_beBytes (width n : Nat) : (beBytes width n).length = width := by
  induction width with
  | zero => rfl
  | succ width ih => simp [beBytes, ih]

theorem foldl_beBytes (width n acc : Nat) :
    (beBytes width n).foldl (fun n b => n * 256 + b.toNat) acc =
      acc * 256 ^ width + n % 256 ^ width := by
  induction width generalizing acc with
  | zero => simp [beBytes, Nat.mod_one]
  | succ width ih =>
    have hsplit : n % 256 ^ (width + 1) =
        n % 256 ^ width + 256 ^ width * (n / 256 ^ width % 256) := by
      rw [Nat.pow_succ, Nat.mod_mul]
    have hbyte : (UInt8.ofNat (n / 256 ^ width)).toNat = n / 256 ^ width % 256 :=
      UInt8.toNat_ofNat'
    rw [beBytes, List.foldl_cons, ih, hbyte, hsplit, Nat.pow_succ]
    ring

theorem ofBeBytes_beBytes (width n : Nat) : ofBeBytes (beBytes width n) = n % 256 ^ width := by
  rw [ofBeBytes, foldl_beBytes, Nat.zero_mul, Nat.zero_add]

theorem ofBeBytes_lt (bs : Bytes) : ofBeBytes bs < 256 ^ bs.length := by
  have hfold : ∀ (bs : Bytes) (acc : Nat),
      bs.foldl (fun n b => n * 256 + b.toNat) acc < (acc + 1) * 256 ^ bs.length := by
    intro bs
    induction bs with
    | nil => intro acc; simp
    | cons b bs ih =>
      intro acc
      have hb : b.toNat < 256 := b.toNat_lt
      calc bs.foldl (fun n b => n * 256 + b.toNat) (acc * 256 + b.toNat)
          < (acc * 256 + b.toNat + 1) * 256 ^ bs.length := ih _
        _ ≤ ((acc + 1) * 256) * 256 ^ bs.length := Nat.mul_le_mul_right _ (by omega)
        _ = (acc + 1) * 256 ^ (b :: bs).length := by
          rw [List.length_cons, Nat.pow_succ, Nat.mul_assoc, Nat.mul_comm 256]
  simpa [ofBeBytes] using hfold bs 0

/-! ## Reading a sentinel back -/

theorem foldl_acc (bs : Bytes) (acc : Nat) :
    bs.foldl (fun n b => n * 256 + b.toNat) acc = acc * 256 ^ bs.length + ofBeBytes bs := by
  induction bs generalizing acc with
  | nil => simp [ofBeBytes]
  | cons b bs ih =>
    have hb : ofBeBytes (b :: bs) = b.toNat * 256 ^ bs.length + ofBeBytes bs := by
      rw [ofBeBytes, List.foldl_cons, ih]
      ring
    rw [List.foldl_cons, ih, hb, List.length_cons, Nat.pow_succ]
    ring

/-- Bytes are the encoding of their number. -/
theorem beBytes_ofBeBytes (bs : Bytes) : beBytes bs.length (ofBeBytes bs) = bs := by
  have hfold : ∀ acc, beBytes bs.length (bs.foldl (fun n b => n * 256 + b.toNat) acc) = bs := by
    induction bs with
    | nil => intro acc; rfl
    | cons b bs ih =>
      intro acc
      have hlt := ofBeBytes_lt bs
      have hdiv : ((acc * 256 + b.toNat) * 256 ^ bs.length + ofBeBytes bs) / 256 ^ bs.length =
          acc * 256 + b.toNat := by
        rw [Nat.mul_comm, Nat.mul_add_div (by positivity), Nat.div_eq_of_lt hlt, Nat.add_zero]
      have hbyte : UInt8.ofNat (acc * 256 + b.toNat) = b := by
        rw [← UInt8.toNat_inj, UInt8.toNat_ofNat']
        have := b.toNat_lt
        omega
      rw [List.foldl_cons, List.length_cons, beBytes, ih]
      rw [foldl_acc, hdiv, hbyte]
  exact hfold 0

theorem beBytes_mod (n : Nat) : beBytes 4 (n % 2 ^ 32) = beBytes 4 n := by
  have hbytes := beBytes_ofBeBytes (beBytes 4 n)
  rwa [length_beBytes, ofBeBytes_beBytes] at hbytes

variable {bytes name : Bytes} {s : Store} {Q : Post ElementPrefix} {db : Int}
  {legacy content : Bytes} {row : Row} {type : ValueType} {p : ElementPrefix} {typeByte : UInt8}

theorem splitTrailer_append (content : Bytes) (h : bytes.length < 2 ^ 32) :
    splitTrailer (content ++ bytes ++ beBytes trailerLenSize bytes.length) =
      .ok (content, bytes) := by
  have hlen : ofBeBytes (beBytes 4 bytes.length) = bytes.length := by
    rw [ofBeBytes_beBytes]
    exact Nat.mod_eq_of_lt (by omega)
  have hat : (content ++ bytes ++ beBytes 4 bytes.length).length - 4 =
      (content ++ bytes).length := by
    rw [List.length_append, length_beBytes, Nat.add_sub_cancel]
  have hlong : ¬(content ++ bytes ++ beBytes 4 bytes.length).length < 4 := by
    rw [List.length_append, length_beBytes]
    omega
  unfold splitTrailer
  simp only [trailerLenSize, hlong, hat, List.drop_left, hlen, List.take_left, if_false]
  simp

theorem length_lt_of_splitTrailer {value : Bytes} (h : splitTrailer value = .ok (content, bytes)) :
    bytes.length < 2 ^ 32 := by
  unfold splitTrailer at h
  split at h
  · cases h
  · simp only at h
    split at h
    · cases h
    · simp only [Except.ok.injEq, Prod.mk.injEq] at h
      have hlt := ofBeBytes_lt (value.drop (value.length - trailerLenSize))
      rw [List.length_drop, show value.length - (value.length - trailerLenSize) = 4 from by
        simp only [trailerLenSize] at *; omega] at hlt
      rw [← h.2, List.length_drop, List.length_take]
      omega

/-- The row is a sentinel of the type, with the prefix for its elements and the content. -/
structure Row.IsSentinel (row : Row) (legacy : Bytes) (type : ValueType) (p : ElementPrefix)
    (content : Bytes) : Prop where
  type_eq : baseType row.metadata = type.byte
  content_eq : payload row = .ok content
  place_eq : prefixOf row legacy = .ok p

/-- A prefix that a sentinel can stand for: one with a length that fits its trailer, or
the name-derived one. -/
def ElementPrefix.Storable (p : ElementPrefix) (legacy : Bytes) : Prop :=
  if p.explicit then p.bytes.length < 2 ^ 32 else p.bytes = legacy

theorem Row.IsSentinel.storable (h : row.IsSentinel legacy type p content) : p.Storable legacy := by
  have hp := h.place_eq
  unfold prefixOf at hp
  split at hp
  · cases hsplit : splitTrailer row.value with
    | error e => simp [hsplit, Except.map] at hp
    | ok parts =>
      simp only [hsplit, Except.map, Except.ok.injEq] at hp
      subst hp
      exact length_lt_of_splitTrailer hsplit
  · cases hp
    rfl

/-- Whether a sentinel is flagged is whether it records its prefix. -/
theorem Row.IsSentinel.isNamespaced_eq (h : row.IsSentinel legacy type p content) :
    isNamespaced row.metadata = p.explicit := by
  have hp := h.place_eq
  unfold prefixOf at hp
  split at hp
  · rename_i hflag
    cases hsplit : splitTrailer row.value with
    | error e => simp [hsplit, Except.map] at hp
    | ok parts =>
      simp only [hsplit, Except.map, Except.ok.injEq] at hp
      subst hp
      exact hflag
  · rename_i hflag
    cases hp
    exact Bool.not_eq_true _ ▸ hflag

theorem baseType_byte (type : ValueType) : baseType type.byte = type.byte := by
  cases type <;> decide

theorem baseType_flagged (type : ValueType) :
    baseType (type.byte ||| namespaceFlag) = type.byte := by
  cases type <;> decide

theorem isNamespaced_of_lt (h : typeByte < 0x80) : isNamespaced typeByte = false := by
  have hzero : typeByte &&& namespaceFlag = 0 := by
    rw [← UInt8.toNat_inj, UInt8.toNat_and]
    have hbit := Nat.and_two_pow typeByte.toNat 7
    rwa [Nat.testBit_lt_two_pow h] at hbit
  simp [isNamespaced, hzero]

theorem ValueType.byte_lt (type : ValueType) : type.byte < 0x80 := by
  cases type <;> decide

theorem isNamespaced_flagged (typeByte : UInt8) :
    isNamespaced (typeByte ||| namespaceFlag) = true := by
  have hflag : (typeByte ||| namespaceFlag) &&& namespaceFlag = namespaceFlag := by
    rw [← UInt8.toBitVec_inj]
    ext i
    simp +contextual
  rw [isNamespaced, hflag]
  rfl

/-- The row that `writeSentinel` stores. -/
def sentinelRow (content : Bytes) (type : ValueType) (p : ElementPrefix) (ts : Option Int) :
    Row where
  value := (encodeSentinel content type.byte p).1
  metadata := (encodeSentinel content type.byte p).2
  expireTs := ts

/-- **What was written is read back.** -/
theorem read_encodeSentinel (htype : typeByte < 0x80)
    (h : p.explicit = true → p.bytes.length < 2 ^ 32) (content legacy : Bytes) (ts : Option Int) :
    let (value, metadata) := encodeSentinel content typeByte p
    payload { value, metadata, expireTs := ts } = .ok content ∧
      prefixOf { value, metadata, expireTs := ts } legacy =
        .ok (if p.explicit then p else .legacy legacy) := by
  obtain ⟨bytes, _ | _⟩ := p
  · simp [payload, prefixOf, encodeSentinel, isNamespaced_of_lt htype]
  · simp only [payload, prefixOf, encodeSentinel, if_true, isNamespaced_flagged,
      splitTrailer_append content (h rfl), Except.map, ElementPrefix.recorded, and_self]

theorem isSentinel_sentinelRow (h : p.Storable legacy) (content : Bytes) (type : ValueType)
    (ts : Option Int) : (sentinelRow content type p ts).IsSentinel legacy type p content := by
  have hlen : p.explicit = true → p.bytes.length < 2 ^ 32 := fun hp => by
    rwa [ElementPrefix.Storable, if_pos hp] at h
  obtain ⟨hcontent, hplace⟩ :=
    read_encodeSentinel type.byte_lt hlen content legacy ts
  obtain ⟨bytes, _ | _⟩ := p
  · obtain rfl : bytes = legacy := h
    exact ⟨baseType_byte type, hcontent, hplace⟩
  · exact ⟨baseType_flagged type, hcontent, hplace⟩

/-! ## Calls on a sentinel -/

/-- None of the environments sees the row expired. -/
def Row.LastsFor (row : Row) (A : Tick → Prop) : Prop := ∀ x, A x → row.expired x.now = false

theorem Row.lastsFor_of_none (h : row.expireTs = none) (A : Tick → Prop) :
    row.LastsFor A := fun _ _ => by simp [Row.expired, h]

variable {A : Tick → Prop} {E : Post DbError} {t : Txn Bytes Row} {k ds : Bytes} {kind : UInt8}

theorem wp_get_some {Q : Post (Option Row)} (hrow : t.view[k]? = some row)
    (hlast : row.LastsFor A) (h : Q (some row) (t.noteRead (isKey k))) : wp A (get k) Q E t := by
  rw [wp_get]
  intro x hx
  rw [hrow, Option.filter_some, hlast x hx]
  exact h

/-- Nothing is under the key that one of the environments sees. -/
def Hidden (A : Tick → Prop) (s : Store) (k : Bytes) : Prop :=
  ∀ row, s[k]? = some row → ∀ x, A x → row.expired x.now = true

theorem hidden_of_none (h : s[k]? = none) : Hidden A s k := fun row hrow => by
  rw [h] at hrow
  cases hrow

theorem wp_get_hidden {Q : Post (Option Row)} (hrow : Hidden A t.view k)
    (h : Q none (t.noteRead (isKey k))) : wp A (get k) Q E t := by
  rw [wp_get]
  intro x hx
  cases hk : t.view[k]? with
  | none => exact h
  | some row =>
    rw [Option.filter_some, hrow row hk x hx]
    exact h

theorem wp_get_none {Q : Post (Option Row)} (hrow : t.view[k]? = none)
    (h : Q none (t.noteRead (isKey k))) : wp A (get k) Q E t :=
  wp_get_hidden (hidden_of_none hrow) h

/-- A scan over rows that last lists all of them. -/
theorem wp_scan_lasting {q : Bytes → Bool} {Q : Post (List (Bytes × Row))}
    (hlast : ∀ k row, q k = true → t.view[k]? = some row → row.LastsFor A)
    (h : Q (rowsOf t.view q) (t.noteRead q)) : wp A (scan q) Q E t := by
  rw [wp_scan]
  intro x hx
  rw [List.filter_eq_self.mpr]
  · exact h
  · intro kr hkr
    obtain ⟨hrow, hq⟩ := mem_rowsOf.mp hkr
    simp [hlast kr.1 kr.2 hq hrow x hx]

theorem wp_resolvePrefix_some
    (hrow : t.view[k]? = some row) (hlast : row.LastsFor A) (hp : prefixOf row legacy = .ok p)
    (h : Q p (t.noteRead (isKey k))) : wp A (resolvePrefix k legacy) Q E t := by
  unfold resolvePrefix
  rw [wp_seq]
  refine wp_get_some hrow hlast ?_
  simp only [hp]
  exact h

theorem wp_resolvePrefix_hidden
    (hrow : Hidden A t.view k) (h : Q (.legacy legacy) (t.noteRead (isKey k))) :
    wp A (resolvePrefix k legacy) Q E t := by
  unfold resolvePrefix
  rw [wp_seq]
  exact wp_get_hidden hrow h

theorem wp_resolvePrefix_none
    (hrow : t.view[k]? = none) (h : Q (.legacy legacy) (t.noteRead (isKey k))) :
    wp A (resolvePrefix k legacy) Q E t :=
  wp_resolvePrefix_hidden (hidden_of_none hrow) h

theorem wp_resolvePrefixForWrite_some
    (hrow : t.view[k]? = some row) (hlast : row.LastsFor A) (hp : prefixOf row legacy = .ok p)
    (h : Q p (t.noteRead (isKey k))) : wp A (resolvePrefixForWrite k legacy) Q E t := by
  unfold resolvePrefixForWrite
  rw [wp_seq]
  refine wp_get_some hrow hlast ?_
  simp only [hp]
  exact h

/-- The fresh namespace for a key of the db, from 16 random bytes. -/
def namespaceOf (db : Int) (rand : Nat) : Bytes :=
  43 :: intText db ++ 58 :: beBytes namespaceIdLen rand

theorem colon_notMem_intText (n : Int) : (58 : UInt8) ∉ intText n := by
  have hcolon (n : Nat) : (58 : UInt8) ∉ decimal n := fun hmem => by
    have := isAsciiDigit_of_mem_decimal hmem
    cases this
  unfold intText
  split
  · simp [hcolon]
  · exact hcolon _

theorem append_sep_inj {c : UInt8} {x x' y y' : Bytes} (hx : c ∉ x) (hx' : c ∉ x')
    (h : x ++ c :: y = x' ++ c :: y') : x = x' ∧ y = y' := by
  induction x generalizing x' with
  | nil =>
    cases x' with
    | nil => exact ⟨rfl, (List.cons.inj h).2⟩
    | cons b x' => exact absurd (List.mem_cons.mpr (.inl (List.cons.inj h).1)) hx'
  | cons b x ih =>
    cases x' with
    | nil => exact absurd (List.mem_cons.mpr (.inl (List.cons.inj h).1.symm)) hx
    | cons b' x' =>
      obtain ⟨rfl, htail⟩ := List.cons.inj h
      obtain ⟨rfl, rfl⟩ := ih (fun hm => hx (List.mem_cons_of_mem _ hm))
        (fun hm => hx' (List.mem_cons_of_mem _ hm)) htail
      exact ⟨rfl, rfl⟩

theorem idxOf_colon (hkind : kind ≠ 58) (hds : 58 ∉ ds) (rest : Bytes) :
    (kind :: (ds ++ 58 :: rest)).idxOf 58 = ds.length + 1 := by
  rw [List.idxOf_cons_ne _ hkind, List.idxOf_append_of_notMem hds, List.idxOf_cons_self,
    Nat.add_zero]

theorem wp_newNamespace (h : 0 ≤ db → ∀ x, A x → Q (.recorded (namespaceOf db x.rand)) t)
    (hE : db < 0 → E corruptPrefix t) :
    wp A (newNamespace (privateKey (publicKey db name))) Q E t := by
  have hsplit (ds : Bytes) (hds : 58 ∉ ds) :=
    idxOf_colon (show (45 : UInt8) ≠ 58 by decide) hds name
  have hdigits (n : Nat) : (decimal n).all isAsciiDigit = true :=
    List.all_eq_true.mpr fun _ => isAsciiDigit_of_mem_decimal
  have hcolon (n : Nat) : (58 : UInt8) ∉ decimal n := fun hmem => by
    have := isAsciiDigit_of_mem_decimal hmem
    simp [isAsciiDigit] at this
  unfold newNamespace privateKey publicKey intText
  split
  · rename_i hneg
    rw [if_pos (by simp), hsplit _ (by simp [hcolon])]
    simp only [List.take_succ_cons, List.take_left, List.drop_succ_cons, List.drop_zero,
      List.isEmpty_cons, List.all_cons, Bool.false_or]
    rw [if_pos (by simp [isAsciiDigit])]
    exact hE hneg
  · rename_i hpos
    rw [if_pos (by simp), hsplit _ (hcolon _)]
    simp only [List.take_succ_cons, List.take_left, List.drop_succ_cons, List.drop_zero, hdigits]
    rw [if_neg (by simp [decimal_ne_nil])]
    intro x hx
    have hq := h (by omega) x hx
    rw [namespaceOf, intText, if_neg hpos] at hq
    exact hq

theorem wp_resolvePrefixForWrite_hidden (hrow : Hidden A t.view k)
    (h : 0 ≤ db → ∀ x, A x → Q (.recorded (namespaceOf db x.rand)) (t.noteRead (isKey k)))
    (hE : db < 0 → E corruptPrefix (t.noteRead (isKey k))) :
    wp A (resolvePrefixForWrite k (privateKey (publicKey db name))) Q E t := by
  unfold resolvePrefixForWrite
  rw [wp_seq]
  exact wp_get_hidden hrow (wp_newNamespace h hE)

/-- The expiry of a row that is written again with the time it has left. The clock is read
twice: for the time that is left, and for the write. -/
def keptTs (ts : Option Int) (read write : Int) : Option Int :=
  ts.bind fun ts => (Entry.row { key := [], value := [], ttl := (ts - read).toNat } write).expireTs

/-- A sentinel that is written again keeps its expiry: there is none, or the clock stands. -/
def Steady (A : Tick → Prop) (s : Store) (k : Bytes) : Prop :=
  ∀ row, s[k]? = some row → ∀ x y, A x → A y → keptTs row.expireTs x.now y.now = row.expireTs

/-- Writing a sentinel again. -/
theorem wp_writeSentinel_kept {Q : Post Unit} (hrow : t.view[k]? = some row)
    (hlast : row.LastsFor A) (hflag : isNamespaced row.metadata = p.explicit)
    (h : ∀ x y, A x → A y → Q () ((t.noteRead (isKey k)).put k
      (sentinelRow content type p (keptTs row.expireTs x.now y.now)))) :
    wp A (writeSentinel k content type.byte p) Q E t := by
  unfold writeSentinel
  rw [wp_seq]
  refine wp_get_some hrow hlast ?_
  simp only [hflag, Bool.and_not_self, Bool.false_eq_true, if_false]
  rw [wp_seq, wp_now]
  intro x hx
  rw [wp_set]
  intro y hy
  have hdone := h x y hx hy
  cases hts : row.expireTs with
  | none =>
    rw [hts] at hdone
    simp only [Entry.keepTtlOf, Row.ttl, hts, Option.map_none]
    exact hdone
  | some ts =>
    rw [hts] at hdone
    simp only [Entry.keepTtlOf, Row.ttl, hts, Option.map_some]
    exact hdone

/-- A value without expiry gets none. -/
theorem wp_writeSentinel_some {Q : Post Unit} (hrow : t.view[k]? = some row)
    (hlast : row.LastsFor A) (hflag : isNamespaced row.metadata = p.explicit)
    (h : ∀ ts, (row.expireTs = none → ts = none) →
      Q () ((t.noteRead (isKey k)).put k (sentinelRow content type p ts))) :
    wp A (writeSentinel k content type.byte p) Q E t :=
  wp_writeSentinel_kept hrow hlast hflag fun _ _ _ _ => h _ fun hts => by rw [hts]; rfl

theorem wp_writeSentinel_hidden {Q : Post Unit} (hrow : Hidden A t.view k)
    (h : Q () ((t.noteRead (isKey k)).put k (sentinelRow content type p none))) :
    wp A (writeSentinel k content type.byte p) Q E t := by
  unfold writeSentinel
  rw [wp_seq]
  refine wp_get_hidden hrow ?_
  intro x hx
  exact h

theorem wp_writeSentinel_none {Q : Post Unit} (hrow : t.view[k]? = none)
    (h : Q () ((t.noteRead (isKey k)).put k (sentinelRow content type p none))) :
    wp A (writeSentinel k content type.byte p) Q E t :=
  wp_writeSentinel_hidden (hidden_of_none hrow) h

/-- A key where a sentinel with this prefix can be written: nothing is there, or a
sentinel that says the same about its prefix. Nothing there expires. -/
structure SentinelSlot (s : Store) (k : Bytes) (p : ElementPrefix) : Prop where
  storable : p.Storable (privateKey k)
  lasting : ∀ row, s[k]? = some row → row.expireTs = none
  flag : ∀ row, s[k]? = some row → isNamespaced row.metadata = p.explicit

theorem SentinelSlot.of_sentinel (hrow : s[k]? = some row) (hts : row.expireTs = none)
    (h : row.IsSentinel (privateKey k) type p content) : SentinelSlot s k p where
  storable := h.storable
  lasting _ hrow' := by rwa [← Option.some.inj (hrow.symm.trans hrow')]
  flag _ hrow' := by rw [← Option.some.inj (hrow.symm.trans hrow'), h.isNamespaced_eq]

theorem length_intText_lt (hpos : 0 ≤ db) (hdb : db < 2 ^ 31) : (intText db).length ≤ 10 := by
  rw [intText, if_neg (by omega)]
  exact length_decimal_le (by decide) (by omega)

/-- A fresh namespace fits the trailer. -/
theorem SentinelSlot.fresh (habsent : s[k]? = none) (hpos : 0 ≤ db)
    (hdb : db < 2 ^ 31) (rand : Nat) : SentinelSlot s k (.recorded (namespaceOf db rand)) where
  storable := by
    have hlen := length_intText_lt hpos hdb
    show (namespaceOf db rand).length < 2 ^ 32
    simp only [namespaceOf, namespaceIdLen, List.cons_append, List.length_cons, List.length_append,
      length_beBytes]
    omega
  lasting row hrow := by rw [habsent] at hrow; cases hrow
  flag row hrow := by rw [habsent] at hrow; cases hrow

/-- No public key is under a namespace. -/
theorem not_isPrefixOf_publicKey (db : Int) (rand : Nat) (suffix : Bytes) (db' : Int)
    (name : Bytes) : (namespaceOf db rand ++ suffix).isPrefixOf (publicKey db' name) = false := by
  have hhead : ∀ b : UInt8, isAsciiDigit b = true → ((43 : UInt8) == b) = false := by
    intro b hb
    by_contra h
    obtain rfl : 43 = b := by simpa using h
    cases hb
  unfold publicKey intText
  split
  · rfl
  · cases hd : decimal db'.natAbs with
    | nil => exact absurd hd (decimal_ne_nil _)
    | cons b ds =>
      have hb := isAsciiDigit_of_mem_decimal (n := db'.natAbs) (b := b) (by simp [hd])
      simp [namespaceOf, List.isPrefixOf, hhead b hb]

theorem isPrefixOf_of_append {nodePrefix suffix x : Bytes}
    (h : (nodePrefix ++ suffix).isPrefixOf x = true) : nodePrefix.isPrefixOf x = true := by
  rw [List.isPrefixOf_iff_prefix] at *
  exact (List.prefix_append _ _).trans h

theorem SentinelSlot.frame {s' : Store} (h : SentinelSlot s k p) (hs : s'[k]? = s[k]?) :
    SentinelSlot s' k p where
  storable := h.storable
  lasting row hrow := h.lasting row (hs ▸ hrow)
  flag row hrow := h.flag row (hs ▸ hrow)

variable (type) in
theorem wp_writeSentinel_slot {Q : Post Unit} (h : SentinelSlot t.view k p)
    (hQ : Q () ((t.noteRead (isKey k)).put k (sentinelRow content type p none))) :
    wp A (writeSentinel k content type.byte p) Q E t := by
  cases hrow : t.view[k]? with
  | none => exact wp_writeSentinel_none hrow hQ
  | some row =>
    refine wp_writeSentinel_some hrow (Row.lastsFor_of_none (h.lasting row hrow) A)
      (h.flag row hrow) fun ts hts => ?_
    rw [hts (h.lasting row hrow)]
    exact hQ

/-! ## The laws of the trailer -/

/-- A prefix with a colon, in another db. -/
theorem withDb_eq (hkind : kind ≠ 58) (hds : 58 ∉ ds) (rest : Bytes) (db : Int) :
    withDb (kind :: (ds ++ 58 :: rest)) db =
      if ds.isEmpty || !ds.all isAsciiDigit then .ok none
      else .ok (some (kind :: intText db ++ 58 :: rest)) := by
  have hcolon := idxOf_colon hkind hds rest
  simp [withDb, hcolon]

/-- What `with_db` accepts. -/
theorem withDb_eq_some {p : Bytes} (h : withDb p db = .ok (some bytes)) :
    ∃ kind ds rest, kind ≠ 58 ∧ 58 ∉ ds ∧ p = kind :: (ds ++ 58 :: rest) ∧
      bytes = kind :: intText db ++ 58 :: rest := by
  by_cases hmem : 58 ∈ p
  · obtain ⟨_ | ⟨kind, ds⟩, rest, rfl, hds⟩ := List.eq_append_cons_of_mem hmem
    · simp [withDb] at h
    · rw [List.mem_cons, not_or] at hds
      rw [List.cons_append, withDb_eq (Ne.symm hds.1) hds.2] at h
      split at h
      · cases h
      · cases h
        exact ⟨kind, ds, rest, Ne.symm hds.1, hds.2, rfl, rfl⟩
  · unfold withDb at h
    split at h
    · cases h
    · rw [if_neg hmem] at h
      cases h

/-- The part of a prefix from its colon on stays, and is all that the result says of it
besides its kind. -/
theorem withDb_tail {p q : Bytes} (hp : withDb p db = .ok (some bytes))
    (hq : withDb q db = .ok (some bytes)) : p.drop (p.idxOf 58) = q.drop (q.idxOf 58) := by
  obtain ⟨kind, ds, rest, hkind, hds, rfl, rfl⟩ := withDb_eq_some hp
  obtain ⟨kind', ds', rest', hkind', hds', rfl, hbytes⟩ := withDb_eq_some hq
  obtain ⟨-, htail⟩ := List.cons.inj hbytes
  obtain ⟨-, rfl⟩ := append_sep_inj (colon_notMem_intText db) (colon_notMem_intText db) htail
  simp [idxOf_colon hkind hds, idxOf_colon hkind' hds']

/-- A db that is written is read back if and only if it has no sign. -/
theorem intText_digits (db : Int) :
    ((intText db).isEmpty || !(intText db).all isAsciiDigit) = decide (db < 0) := by
  unfold intText
  split
  case isTrue hneg => simp [hneg, isAsciiDigit]
  case isFalse hpos =>
    have hall : (decimal db.natAbs).all isAsciiDigit = true :=
      List.all_eq_true.mpr fun _ => isAsciiDigit_of_mem_decimal
    simp [hpos, hall, decimal_ne_nil]

/-- `with_db` twice. -/
def withDbTwice (p : Bytes) (db db' : Int) : Except DbError (Option Bytes) := do
  match ← withDb p db with
  | some q => withDb q db'
  | none => return none

/-- Whether there is a result does not depend on the db. -/
theorem withDb_of_not_some {p : Bytes} (h : ∀ q, withDb p db ≠ .ok (some q)) (db' : Int) :
    withDb p db' = withDb p db := by
  unfold withDb at h ⊢
  cases p with
  | nil => rfl
  | cons kind rest =>
    dsimp only at h ⊢
    split_ifs at h ⊢
    case neg => exact absurd rfl (h _)
    all_goals rfl

theorem withDbTwice_eq_iff (p : Bytes) (db db' : Int) :
    withDbTwice p db db' = withDb p db' ↔ 0 ≤ db ∨ ∀ q, withDb p db' ≠ .ok (some q) := by
  by_cases hsome : ∃ q, withDb p db' = .ok (some q)
  · obtain ⟨q, hq⟩ := hsome
    obtain ⟨kind, ds, rest, hkind, hds, rfl, rfl⟩ := withDb_eq_some hq
    have hdigits : (ds.isEmpty || !ds.all isAsciiDigit) = false := by
      rw [withDb_eq hkind hds] at hq
      split at hq
      · cases hq
      · simp_all
    have htwice : withDbTwice (kind :: (ds ++ 58 :: rest)) db db' =
        if db < 0 then .ok none else .ok (some (kind :: intText db' ++ 58 :: rest)) := by
      unfold withDbTwice
      rw [withDb_eq hkind hds, hdigits]
      show withDb (kind :: (intText db ++ 58 :: rest)) db' = _
      rw [withDb_eq hkind (colon_notMem_intText db), intText_digits]
      simp
    rw [htwice, hq]
    by_cases hneg : db < 0 <;> simp [hneg]
    exact Int.not_lt.mp hneg
  · have hnone : ∀ q, withDb p db' ≠ .ok (some q) := fun q hq => hsome ⟨q, hq⟩
    refine iff_of_true ?_ (.inr hnone)
    unfold withDbTwice
    rw [withDb_of_not_some hnone]
    cases hp : withDb p db' with
    | error e => rfl
    | ok o =>
      cases o with
      | none => rfl
      | some q => exact absurd hp (hnone q)

/-- The sentinel under the key records a namespace. -/
def RecordsNamespace (s : Store) (k : Bytes) : Prop :=
  ∃ row, s[k]? = some row ∧ isNamespaced row.metadata = true

/-- Calls of `writeSentinel` on a key, one after another, none of which sees the sentinel
expired. -/
inductive SentinelWrites (k : Bytes) (t : Txn Bytes Row) : Txn Bytes Row → Prop where
  | none : SentinelWrites k t t
  | call {u : Txn Bytes Row} (hu : SentinelWrites k t u) (content : Bytes) (typeByte : UInt8)
      (p : ElementPrefix) (env : Nat → Tick)
      (hlive : ∀ row, u.view[k]? = some row → ∀ n, row.expired (env n).now = false) :
      SentinelWrites k t (exec (writeSentinel k content typeByte p) env u).txn

variable (content p) in
theorem wp_writeSentinel_records (typeByte : UInt8) (h : RecordsNamespace t.view k)
    (hlive : ∀ row, t.view[k]? = some row → row.LastsFor A) :
    wp A (writeSentinel k content typeByte p) (fun _ t' => RecordsNamespace t'.view k)
      (fun _ t' => RecordsNamespace t'.view k) t := by
  obtain ⟨row, hrow, hflag⟩ := h
  unfold writeSentinel
  rw [wp_seq]
  refine wp_get_some hrow (hlive row hrow) ?_
  cases hp : p.explicit with
  | false =>
    simp only [hflag, Bool.not_false, Bool.and_self, if_true]
    exact ⟨row, hrow, hflag⟩
  | true =>
    simp only [Bool.not_true, Bool.and_false, Bool.false_eq_true, if_false]
    rw [wp_seq, wp_now]
    intro x _ y _
    have hkept (e : Entry) : (e.keepTtlOf row x.now).key = e.key ∧
        ((e.keepTtlOf row x.now).row y.now).metadata = e.metadata := by
      unfold Entry.keepTtlOf
      split <;> exact ⟨rfl, rfl⟩
    refine ⟨_, (Txn.view_put _ _ _ _).trans (if_pos ?_), ?_⟩
    · rw [(hkept _).1]
    · rw [(hkept _).2, encodeSentinel, if_pos hp]
      exact isNamespaced_flagged typeByte

theorem SentinelWrites.records {u : Txn Bytes Row} (h : SentinelWrites k t u)
    (hk : RecordsNamespace t.view k) : RecordsNamespace u.view k := by
  induction h with
  | none => exact hk
  | call hu content typeByte p env hlive ih =>
    obtain ⟨hok, herr⟩ := exec_of_wp (wp_writeSentinel_records (A := fun x => ∃ n, x = env n)
      content p typeByte ih fun row hrow x ⟨n, hn⟩ => hn ▸ hlive row hrow n) fun n => ⟨n, rfl⟩
    cases hout : (exec (writeSentinel k content typeByte p) env _).out with
    | ok a => exact hok a hout
    | error e => exact herr e hout

theorem splitTrailer_cases (value : Bytes) : splitTrailer value = .error corrupt ∨
      ∃ prefixAt lenAt, prefixAt ≤ lenAt ∧ lenAt + 4 = value.length ∧
        splitTrailer value = .ok (value.take prefixAt, (value.take lenAt).drop prefixAt) := by
  unfold splitTrailer
  split
  · exact .inl rfl
  · rename_i hlong
    simp only
    split
    · exact .inl rfl
    · refine .inr ⟨_, value.length - 4, Nat.sub_le _ _, Nat.sub_add_cancel ?_, rfl⟩
      exact Nat.not_lt.mp hlong

/-- **The laws of the trailer.** A sentinel is read back as it was written. Calls on a key
whose sentinel records a namespace leave one there. Changing the db of a prefix twice is
changing it once unless the first db has a sign to be read, and keeps what follows the colon.
The slices of `split_trailer` lie within the value. -/
theorem sentinel_laws (k : Bytes) : (∀ content typeByte p legacy ts, typeByte < 0x80 →
      (p.explicit = true → p.bytes.length < 2 ^ 32) →
      let (value, metadata) := encodeSentinel content typeByte p
      payload { value, metadata, expireTs := ts } = .ok content ∧
        prefixOf { value, metadata, expireTs := ts } legacy =
          .ok (if p.explicit then p else .legacy legacy)) ∧
    (∀ t u, SentinelWrites k t u → RecordsNamespace t.view k → RecordsNamespace u.view k) ∧
    (∀ p db db', withDbTwice p db db' = withDb p db' ↔
      0 ≤ db ∨ ∀ q, withDb p db' ≠ .ok (some q)) ∧
    (∀ p q db bytes, withDb p db = .ok (some bytes) → withDb q db = .ok (some bytes) →
      p.drop (p.idxOf 58) = q.drop (q.idxOf 58)) ∧
    ∀ value, splitTrailer value = .error corrupt ∨
      ∃ prefixAt lenAt, prefixAt ≤ lenAt ∧ lenAt + 4 = value.length ∧
        splitTrailer value = .ok (value.take prefixAt, (value.take lenAt).drop prefixAt) :=
  ⟨fun content _ _ legacy ts htype hlen => read_encodeSentinel htype hlen content legacy ts,
    fun _ _ h hk => h.records hk, withDbTwice_eq_iff,
    fun _ _ _ _ hp hq => withDb_tail hp hq, splitTrailer_cases⟩

theorem sentinel_laws_move : withDbTwice (ascii "+0:id") 3 7 = .ok (some (ascii "+7:id")) ∧
      prefixOf { value := (encodeSentinel [1] 4 (.recorded (ascii "+7:id"))).1, metadata := 0x84 }
        [] = .ok (.recorded (ascii "+7:id")) :=
  ⟨(((sentinel_laws []).2.2.1 _ 3 7).mpr (.inl (by decide))).trans (by decide),
    ((sentinel_laws []).1 [1] 4 (.recorded (ascii "+7:id")) [] none (by decide)
      (by decide)).2⟩

/-- A negative db is written with its sign, which `with_db` does not read. -/
theorem withDb_negative : withDbTwice (ascii "-0:a") (-1) 5 = .ok none ∧
      withDb (ascii "-0:a") 5 = .ok (some (ascii "-5:a")) := by
  decide

end Invar
