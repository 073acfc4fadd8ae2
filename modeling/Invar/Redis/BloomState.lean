import Invar.Common.Regions
import Invar.Lib.ByteBits
import Invar.Redis.Bloom

/-!
# Stored Bloom filters

A filter is its meta entry, which can be read back as long as it has no more sub-filters
than it can count (`decodeMeta_encodeMeta`), and the pages of its sub-filters. The pages
stand for one set of bits for each sub-filter (`bitOf`): the reads of a command see these
bits, and its writes add to them.
-/

namespace Invar.Bloom

open StoreProg TxProg Ieee754 ByteBits

/-! ## The meta entry can be read back -/

/-- The number of sub-filters that a meta entry can count. -/
def maxFilters : Nat := 2 ^ 16 - 1

/-- The fields are in the ranges of their types, and there are bits and hashes. -/
structure SubFilterMeta.Valid (f : SubFilterMeta) : Prop where
  id_lt : f.id < 2 ^ 64
  capacity_lt : f.capacity < 2 ^ 64
  inserted_lt : f.inserted < 2 ^ 64
  numHashes_lt : f.numHashes < 2 ^ 32
  numBits_lt : f.numBits < 2 ^ 64
  numHashes_pos : 1 ≤ f.numHashes
  numBits_pos : 1 ≤ f.numBits

@[simp] theorem length_leBytes (width n : Nat) : (leBytes width n).length = width := by
  rw [leBytes, List.length_reverse, length_beBytes]

theorem ofLeBytes_leBytes {width n : Nat} (h : n < 256 ^ width) :
    ofLeBytes (leBytes width n) = n := by
  rw [ofLeBytes, leBytes, List.reverse_reverse, ofBeBytes_beBytes, Nat.mod_eq_of_lt h]

theorem length_encode (f : SubFilterMeta) : f.encode.length = filterMetaSize := by
  simp [SubFilterMeta.encode, filterMetaSize]

theorem decodeFilter_encode {f : SubFilterMeta} (h : f.Valid) (rest : Bytes) :
    decodeFilter (f.encode ++ rest) = f := by
  have hint {n : Nat} (hn : n < 2 ^ 64) : ofLeBytes (leBytes 8 n) = n := ofLeBytes_leBytes hn
  have hword (n : UInt64) : UInt64.ofNat (ofLeBytes (leBytes 8 n.toNat)) = n := by
    rw [hint n.toNat_lt, UInt64.ofNat_toNat]
  have htake (width n : Nat) : (leBytes width n).take width = leBytes width n :=
    List.take_of_length_le (length_leBytes width n).le
  unfold decodeFilter SubFilterMeta.encode
  simp only [List.append_assoc, List.drop_append, List.take_append, length_leBytes]
  simp [List.drop_of_length_le, htake, hword, hint h.id_lt, hint h.capacity_lt, hint h.inserted_lt,
    hint h.numBits_lt, @ofLeBytes_leBytes 4 _ h.numHashes_lt]

theorem length_records (fs : List SubFilterMeta) :
    (fs.flatMap (·.encode)).length = fs.length * filterMetaSize := by
  induction fs with
  | nil => rfl
  | cons f fs ih =>
    rw [List.flatMap_cons, List.length_append, length_encode, ih, List.length_cons, Nat.succ_mul,
      Nat.add_comm]

/-- The records after a number of them. -/
theorem drop_records (fs : List SubFilterMeta) (i : Nat) :
    (fs.flatMap (·.encode)).drop (i * filterMetaSize) = (fs.drop i).flatMap (·.encode) := by
  induction i generalizing fs with
  | zero => simp
  | succ i ih =>
    cases fs with
    | nil => simp
    | cons f fs =>
      rw [List.flatMap_cons, Nat.succ_mul, Nat.add_comm, ← List.drop_drop,
        List.drop_left' (length_encode f), ih, List.drop_succ_cons]

/-- A meta that an entry can hold. -/
structure BloomMeta.Storable (m : BloomMeta) : Prop where
  count : m.filters.length ≤ maxFilters
  expansion_lt : m.expansion < 256
  valid : ∀ f ∈ m.filters, f.Valid

theorem decodeMeta_encodeMeta {m : BloomMeta} (h : m.Storable) :
    decodeMeta (encodeMeta m) = some m := by
  have htake : m.filters.take (2 ^ 16 - 1) = m.filters := List.take_of_length_le h.count
  have hcount : ofBeBytes (beBytes 2 m.filters.length) = m.filters.length := by
    rw [ofBeBytes_beBytes]
    exact Nat.mod_eq_of_lt (Nat.lt_succ_of_le h.count)
  have hexp : ((encodeMeta m).getD 1 0).toNat = m.expansion := by
    show (UInt8.ofNat m.expansion).toNat = m.expansion
    rw [UInt8.toNat_ofNat', Nat.mod_eq_of_lt h.expansion_lt]
  have hflag : ((encodeMeta m).getD 0 0 &&& 1 != 0) = m.nonScaling := by
    show ((if m.nonScaling = true then (1 : UInt8) else 0) &&& 1 != 0) = m.nonScaling
    cases m.nonScaling <;> decide
  have hdrop (i : Nat) : (encodeMeta m).drop (metaHeader + i * filterMetaSize) =
      (m.filters.drop i).flatMap (·.encode) := by
    rw [← List.drop_drop, ← drop_records, encodeMeta, htake]
    rfl
  have hfilters : (List.range m.filters.length).map (fun i =>
      decodeFilter ((encodeMeta m).drop (metaHeader + i * filterMetaSize))) = m.filters := by
    apply List.ext_getElem
    · simp
    · intro i hi hi'
      rw [List.getElem_map, List.getElem_range, hdrop, List.drop_eq_getElem_cons hi',
        List.flatMap_cons]
      exact decodeFilter_encode (h.valid _ (List.getElem_mem hi')) _
  have hlen : (encodeMeta m).length = metaHeader + m.filters.length * filterMetaSize := by
    rw [encodeMeta, htake, List.length_append, length_records]
    rfl
  have hn : ofBeBytes (((encodeMeta m).drop 2).take 2) = m.filters.length := by
    rw [encodeMeta, htake]
    exact hcount
  unfold decodeMeta
  simp only [hn, hlen, hfilters, hexp, hflag]
  rw [if_neg (by simp)]

/-! ## Filters -/

/-- Pages have their full size. -/
def FullPages (pages : Nat → Nat → Option Bytes) : Prop :=
  ∀ id n page, pages id n = some page → page.length = pageSize

/-- A stored filter. -/
structure Filter where
  info : BloomMeta
  /-- The pages that have been written, by sub-filter and number. -/
  pages : Nat → Nat → Option Bytes
  storable : info.Storable
  nonempty : info.filters ≠ []
  fullPages : FullPages pages

def pageSuffix (id n : Nat) : Bytes := 0 :: ascii "bf:" ++ decimal id ++ ascii ":p:" ++ decimal n

theorem pageKey_eq (pagePrefix : Bytes) (id n : Nat) :
    pageKey pagePrefix id n = pagePrefix ++ pageSuffix id n := by
  simp only [pageKey, pageSuffix, List.append_assoc, List.cons_append]

theorem pageSuffix_inj {id id' n n' : Nat} (h : pageSuffix id n = pageSuffix id' n') :
    id = id' ∧ n = n' := by
  have hcolon (n : Nat) : (58 : UInt8) ∉ decimal n := fun hmem => by
    cases isAsciiDigit_of_mem_decimal hmem
  have hsplit : decimal id ++ 58 :: (112 :: 58 :: decimal n) =
      decimal id' ++ 58 :: (112 :: 58 :: decimal n') := by
    simpa [pageSuffix, ascii] using h
  obtain ⟨hid, hn⟩ := append_sep_inj (hcolon id) (hcolon id') hsplit
  exact ⟨decimal_inj hid, decimal_inj (by simpa using hn)⟩

def pageRow (page : Bytes) : Row where
  value := page
  metadata := typeBloom

/-- The rows of the pages, by the part of their keys after the place. -/
noncomputable def cellsOf (pages : Nat → Nat → Option Bytes) : Bytes → Option Row :=
  Function.extend (fun i : Nat × Nat => pageSuffix i.1 i.2)
    (fun i => (pages i.1 i.2).map pageRow) fun _ => none

theorem cellsOf_page (pages : Nat → Nat → Option Bytes) (id n : Nat) :
    cellsOf pages (pageSuffix id n) = (pages id n).map pageRow :=
  Function.Injective.extend_apply
    (fun _ _ h => Prod.ext (pageSuffix_inj h).1 (pageSuffix_inj h).2) _ _ (id, n)

theorem cellsOf_other (pages : Nat → Nat → Option Bytes) {suffix : Bytes}
    (h : ∀ id n, suffix ≠ pageSuffix id n) : cellsOf pages suffix = none :=
  Function.extend_apply' _ _ _ fun hi => h hi.choose.1 hi.choose.2 hi.choose_spec.symm

theorem cellsOf_noPages (suffix : Bytes) : cellsOf (fun _ _ => none) suffix = none := by
  by_cases hpage : ∃ id n, suffix = pageSuffix id n
  · obtain ⟨id, n, rfl⟩ := hpage
    rw [cellsOf_page, Option.map_none]
  · exact cellsOf_other _ fun id n heq => hpage ⟨id, n, heq⟩

theorem lasting_cellsOf {pages : Nat → Nat → Option Bytes} {suffix : Bytes} {row : Row}
    (h : cellsOf pages suffix = some row) : row.expireTs = none := by
  by_cases hpage : ∃ id n, suffix = pageSuffix id n
  · obtain ⟨id, n, rfl⟩ := hpage
    rw [cellsOf_page, Option.map_eq_some_iff] at h
    obtain ⟨page, -, rfl⟩ := h
    rfl
  · rw [cellsOf_other pages fun id n heq => hpage ⟨id, n, heq⟩] at h
    cases h

noncomputable def layout : Layout Filter where
  type _ := .bloom
  content F := encodeMeta F.info
  cells F := cellsOf F.pages
  lasting := lasting_cellsOf

/-! ## Bits of a filter -/

def pageAt (pages : Nat → Nat → Option Bytes) (id n : Nat) : Bytes :=
  (pages id n).getD (List.replicate pageSize 0)

def bitOf (pages : Nat → Nat → Option Bytes) (id pos : Nat) : Bool :=
  bitAt (pageAt pages id (pos / pageBits)) (pos % pageBits)

/-- The bits of an item in a sub-filter. -/
def positions (item : Bytes) (f : SubFilterMeta) : List Nat :=
  (List.range f.numHashes).map fun i =>
    (bloomHash item f.seed1 + UInt64.ofNat i * bloomHash item f.seed2).toNat % f.numBits

def hasItem (pages : Nat → Nat → Option Bytes) (item : Bytes) (f : SubFilterMeta) : Bool :=
  (positions item f).all (bitOf pages f.id)

/-- The place has the pages, and nothing else. -/
def Region (s : Store) (P : Place) (pages : Nat → Nat → Option Bytes) : Prop :=
  ∀ suffix, s[P.bytes ++ suffix]? = cellsOf pages suffix

theorem FullPages.length_pageAt {pages : Nat → Nat → Option Bytes} (h : FullPages pages)
    (id n : Nat) : (pageAt pages id n).length = pageSize := by
  unfold pageAt
  cases hn : pages id n with
  | none => exact List.length_replicate
  | some page => exact h id n page hn

/-! ## Reading -/

variable {A : Tick → Prop} {E : Post DbError} {t : Txn Bytes Row} {s : Store} {C : Catalog Filter}
  {k item : Bytes} {P : Place} {pages : Nat → Nat → Option Bytes} {id : Nat} {Q : Post Bool}

theorem Region.wp_readPage (h : Region t.view P pages) {n : Nat}
    {Q : Post Bytes} (hQ : ∀ t', t'.view = t.view → Q (pageAt pages id n) t') :
    wp A (readPage (pageKey P.element.bytes id n)) Q E t := by
  have hrow : t.view[pageKey P.element.bytes id n]? = (pages id n).map pageRow := by
    rw [pageKey_eq, ← cellsOf_page]
    exact h _
  unfold readPage
  rw [wp_seq]
  cases hn : pages id n with
  | none =>
    rw [hn] at hrow
    rw [pageAt, hn] at hQ
    exact wp_get_none hrow (hQ (t.noteRead _) rfl)
  | some page =>
    rw [hn] at hrow
    rw [pageAt, hn] at hQ
    exact wp_get_some hrow (Row.lastsFor_of_none rfl A) (hQ (t.noteRead _) rfl)

theorem hashPositions_eq (item : Bytes) {f : SubFilterMeta} (h : f.Valid) :
    hashPositions item f = pure (positions item f) := by
  have hbits : f.numBits ≠ 0 := Nat.one_le_iff_ne_zero.mp h.numBits_pos
  unfold hashPositions
  rw [if_neg (by simp [hbits])]
  rfl

theorem testBit_eq {page : Bytes} (hlen : page.length = pageSize) (pos : Nat) :
    testBit page (pos % pageBits) = pure (bitAt page (pos % pageBits)) := by
  have hlt : pos % pageBits / 8 < page.length := by
    rw [hlen, Nat.div_lt_iff_lt_mul (by decide)]
    exact Nat.mod_lt _ (by decide)
  unfold testBit bitAt
  rw [List.getElem?_eq_getElem hlt, List.getD_eq_getElem?_getD, List.getElem?_eq_getElem hlt]
  exact congrArg pure (and_mask _ _)

theorem Region.wp_bitsSet (h : Region t.view P pages) (hfull : FullPages pages) {poss : List Nat}
    (hQ : ∀ t', t'.view = t.view → Q (poss.all (bitOf pages id)) t') :
    wp A (bitsSet P.element id poss) Q E t := by
  induction poss generalizing t with
  | nil => exact hQ t rfl
  | cons pos poss ih =>
    unfold bitsSet
    rw [wp_seq]
    refine h.wp_readPage fun t₁ ht₁ => ?_
    rw [testBit_eq (hfull.length_pageAt _ _), Prog.bind_eq, Prog.pure_eq, wp_bind]
    change wp A (if bitOf pages id pos = true then bitsSet P.element id poss else pure false) Q E t₁
    rw [List.all_cons] at hQ
    cases hbit : bitOf pages id pos with
    | true =>
      rw [hbit] at hQ
      rw [if_pos rfl]
      refine ih (fun suffix => ht₁ ▸ h suffix) fun t₂ ht₂ => ?_
      exact hQ t₂ (ht₂.trans ht₁)
    | false =>
      rw [hbit] at hQ
      exact hQ t₁ ht₁

theorem Region.wp_anyContains (h : Region t.view P pages) (hfull : FullPages pages)
    {fs : List SubFilterMeta} (hvalid : ∀ f ∈ fs, f.Valid)
    (hQ : ∀ t', t'.view = t.view → Q (fs.any (hasItem pages item)) t') :
    wp A (anyContains P.element item fs) Q E t := by
  induction fs generalizing t with
  | nil => exact hQ t rfl
  | cons f fs ih =>
    unfold anyContains
    rw [hashPositions_eq item (hvalid f List.mem_cons_self), Prog.bind_eq, Prog.pure_eq, wp_bind]
    change wp A ((bitsSet P.element f.id (positions item f)).bind _) Q E t
    rw [wp_bind]
    refine h.wp_bitsSet hfull fun t₁ ht₁ => ?_
    change wp A (if hasItem pages item f = true then pure true
      else anyContains P.element item fs) Q E t₁
    rw [List.any_cons] at hQ
    cases hitem : hasItem pages item f with
    | true =>
      rw [hitem] at hQ
      exact hQ t₁ ht₁
    | false =>
      rw [hitem] at hQ
      rw [if_neg Bool.false_ne_true]
      refine ih (fun suffix => ht₁ ▸ h suffix) (fun g hg => hvalid g (List.mem_cons_of_mem f hg))
        fun t₂ ht₂ => ?_
      exact hQ t₂ (ht₂.trans ht₁)

/-! ## Loaded pages -/

variable {cur : Pages} {bits : Nat → Bool} {poss : List Nat}

/-- The pages in memory are those of the bits. -/
def Shows (cur : Pages) (bits : Nat → Bool) : Prop :=
  ∀ n page, cur[n]? = some page →
    page.length = pageSize ∧ ∀ i < pageBits, bitAt page i = bits (n * pageBits + i)

/-- The pages of all positions are in memory. -/
def Covers (cur : Pages) (poss : List Nat) : Prop :=
  ∀ pos ∈ poss, cur[pos / pageBits]?.isSome = true

theorem div_add_mod_pageBits (pos : Nat) : pos / pageBits * pageBits + pos % pageBits = pos := by
  rw [Nat.mul_comm]
  exact Nat.div_add_mod _ _

theorem Shows.page (h : Shows cur bits) {pos : Nat} (hpos : cur[pos / pageBits]?.isSome = true) :
    (cur.page pos).length = pageSize ∧ bitAt (cur.page pos) (pos % pageBits) = bits pos := by
  obtain ⟨page, hpage⟩ := Option.isSome_iff_exists.mp hpos
  obtain ⟨hlen, hbits⟩ := h _ _ hpage
  rw [Pages.page, hpage, Option.getD_some]
  refine ⟨hlen, ?_⟩
  rw [hbits _ (Nat.mod_lt _ (by decide)), div_add_mod_pageBits]

theorem getElem?_insert_page (cur : Pages) (n : Nat) (page : Bytes) (m : Nat) :
    (cur.insert n page)[m]? = if m = n then some page else cur[m]? := by
  simp only [Std.ExtTreeMap.getElem?_insert, Std.LawfulEqOrd.compare_eq_iff_eq, eq_comm (a := m)]

/-- Setting one bit in memory. -/
theorem Shows.setBit (h : Shows cur bits) {pos : Nat} (hpos : cur[pos / pageBits]?.isSome = true) :
    Shows (cur.insert (pos / pageBits) (Bloom.setBit (cur.page pos) (pos % pageBits)))
      (fun q => bits q || decide (pos = q)) := by
  obtain ⟨page, hpage⟩ := Option.isSome_iff_exists.mp hpos
  obtain ⟨hlen, hbits⟩ := h _ _ hpage
  have hlt : pos % pageBits / 8 < page.length := by
    rw [hlen, Nat.div_lt_iff_lt_mul (by decide)]
    exact Nat.mod_lt _ (by decide)
  intro n page' hn
  rw [getElem?_insert_page] at hn
  split at hn
  · rename_i hpos'
    cases hn
    rw [Pages.page, hpage, Option.getD_some, hpos']
    refine ⟨by rw [Bloom.setBit, List.length_set, hlen], fun i hi => ?_⟩
    have hsame : decide (pos % pageBits = i) =
        decide (pos = pos / pageBits * pageBits + i) := by
      congr 1
      apply propext
      have := div_add_mod_pageBits pos
      omega
    show _ = (bits (pos / pageBits * pageBits + i) || decide (pos = pos / pageBits * pageBits + i))
    rw [← hbits i hi, ← hsame]
    exact bitAt_set hlt i
  · rename_i hne
    obtain ⟨hlen', hbits'⟩ := h n page' hn
    refine ⟨hlen', fun i hi => ?_⟩
    have hother : pos ≠ n * pageBits + i := by
      rintro rfl
      rw [Nat.mul_comm, Nat.mul_add_div (by decide), Nat.div_eq_of_lt hi, Nat.add_zero] at hne
      exact hne rfl
    rw [hbits' i hi]
    simp [hother]

theorem Region.wp_loadPages (h : Region t.view P pages) {Q : Post Pages}
    (hcur : ∀ n page, cur[n]? = some page → page = pageAt pages id n)
    (hQ : ∀ t' cur', t'.view = t.view →
      (∀ n page, cur'[n]? = some page → page = pageAt pages id n) →
      (∀ n : Nat, cur[n]?.isSome = true → cur'[n]?.isSome = true) → Covers cur' poss → Q cur' t') :
    wp A (loadPages P.element id poss cur) Q E t := by
  induction poss generalizing t cur with
  | nil => exact hQ t cur rfl hcur (fun _ hn => hn) (fun _ hpos => absurd hpos List.not_mem_nil)
  | cons pos poss ih =>
    unfold loadPages
    by_cases hc : cur.contains (pos / pageBits) = true
    · simp only [hc, if_true]
      refine ih h hcur fun t' cur' hview heq hkeep hcov => hQ t' cur' hview heq hkeep ?_
      intro q hq
      rcases List.mem_cons.mp hq with rfl | hq
      · exact hkeep _ (by rwa [Std.ExtTreeMap.isSome_getElem?_eq_contains])
      · exact hcov q hq
    · simp only [hc, Bool.false_eq_true, if_false]
      rw [wp_seq]
      refine h.wp_readPage fun t₁ ht₁ => ?_
      have hins := getElem?_insert_page cur (pos / pageBits) (pageAt pages id (pos / pageBits))
      refine ih (fun suffix => ht₁ ▸ h suffix) ?_ fun t₂ cur' hview heq hkeep hcov =>
        hQ t₂ cur' (hview.trans ht₁) heq ?_ ?_
      · intro n page hn
        rw [hins] at hn
        split at hn
        · rename_i heq
          rw [heq, ← Option.some.inj hn]
        · exact hcur n page hn
      · intro n hn
        refine hkeep n ?_
        rw [hins]
        split
        · rfl
        · exact hn
      · intro q hq
        rcases List.mem_cons.mp hq with rfl | hq
        · exact hkeep _ (by rw [hins, if_pos rfl]; rfl)
        · exact hcov q hq

theorem shows_of_loaded (hfull : FullPages pages)
    (hcur : ∀ n page, cur[n]? = some page → page = pageAt pages id n) :
    Shows cur (bitOf pages id) := by
  intro n page hn
  rw [hcur n page hn]
  refine ⟨hfull.length_pageAt id n, fun i hi => ?_⟩
  have hdiv : (n * pageBits + i) / pageBits = n := by
    rw [Nat.mul_comm, Nat.mul_add_div (by decide), Nat.div_eq_of_lt hi, Nat.add_zero]
  rw [bitOf, hdiv, Nat.mul_comm, Nat.mul_add_mod, Nat.mod_eq_of_lt hi]

theorem Shows.allSet_eq (h : Shows cur bits) (hcov : Covers cur poss) :
    allSet cur poss = pure (poss.all bits) := by
  induction poss with
  | nil => rfl
  | cons pos poss ih =>
    obtain ⟨hlen, hbit⟩ := h.page (hcov pos List.mem_cons_self)
    unfold allSet
    rw [testBit_eq hlen, hbit, List.all_cons]
    change (if bits pos = true then allSet cur poss else pure false) = _
    cases bits pos with
    | true => exact ih fun q hq => hcov q (List.mem_cons_of_mem pos hq)
    | false => rfl

theorem Shows.setPositions_eq (h : Shows cur bits) (hcov : Covers cur poss) :
    ∃ cur', setPositions poss cur = pure cur' ∧ Shows cur' (fun q => bits q || decide (q ∈ poss)) ∧
      ∀ n : Nat, cur'[n]?.isSome = cur[n]?.isSome := by
  induction poss generalizing cur bits with
  | nil => exact ⟨cur, rfl, by simpa using h, fun _ => rfl⟩
  | cons pos poss ih =>
    obtain ⟨hlen, hbit⟩ := h.page (hcov pos List.mem_cons_self)
    have hcov' : Covers cur poss := fun q hq => hcov q (List.mem_cons_of_mem pos hq)
    have hbits : (fun q => bits q || decide (q ∈ pos :: poss)) =
        fun q => (bits q || decide (pos = q)) || decide (q ∈ poss) := by
      funext q
      simp [Bool.or_assoc, eq_comm]
    unfold setPositions
    simp only [testBit_eq hlen, hbit]
    rw [hbits]
    change ∃ cur', (if bits pos = true then setPositions poss cur else _) = _ ∧ _
    cases hb : bits pos with
    | true =>
      have hsame (q : Nat) : (bits q || decide (pos = q)) = bits q := by
        by_cases hq : pos = q
        · simp [← hq, hb]
        · simp [hq]
      simp only [hsame]
      exact ih h hcov'
    | false =>
      obtain ⟨cur', hset, hshows, hkeys⟩ := ih (h.setBit (hcov pos List.mem_cons_self))
        fun q hq => by
          rw [getElem?_insert_page]
          split
          · rfl
          · exact hcov' q hq
      refine ⟨cur', hset, hshows, fun n => ?_⟩
      rw [hkeys, getElem?_insert_page]
      split
      · rename_i hn
        rw [hn]
        exact (hcov pos List.mem_cons_self).symm
      · rfl

/-! ## Writing -/

theorem Region.put_page (h : Region t.view P pages) (n : Nat) (page : Bytes) :
    Region (t.put (pageKey P.element.bytes id n) (pageRow page)).view P
      (fun id' n' => if id' = id ∧ n' = n then some page else pages id' n') := by
  intro suffix
  rw [pageKey_eq]
  show (t.put (P.bytes ++ pageSuffix id n) (pageRow page)).view[P.bytes ++ suffix]? = _
  rw [Place.view_put, h suffix]
  by_cases hpage : ∃ id' n', suffix = pageSuffix id' n'
  · obtain ⟨id', n', rfl⟩ := hpage
    rw [cellsOf_page, cellsOf_page]
    by_cases heq : id' = id ∧ n' = n
    · rw [if_pos heq, heq.1, heq.2, if_pos rfl, Option.map_some]
    · rw [if_neg heq, if_neg fun hsuffix => heq (pageSuffix_inj hsuffix)]
  · have hother (id' n' : Nat) : suffix ≠ pageSuffix id' n' := fun heq => hpage ⟨id', n', heq⟩
    rw [if_neg (hother id n), cellsOf_other _ hother, cellsOf_other _ hother]

theorem Region.wp_setPages (h : Region t.view P pages) (hat : AtPlace P s t.view)
    {ns : List (Nat × Bytes)} (hnodup : (ns.map (·.1)).Nodup) {Q : Post Unit}
    (hQ : ∀ t' pages', Region t'.view P pages' → AtPlace P s t'.view →
      (∀ id' n, (∀ page, (n, page) ∈ ns → id' ≠ id) → pages' id' n = pages id' n) →
      (∀ n page, (n, page) ∈ ns → pages' id n = some page) → Q () t') :
    wp A (setAll (ns.map fun np =>
      { key := pageKey P.element.bytes id np.1, value := np.2, metadata := typeBloom })) Q E t := by
  induction ns generalizing t pages with
  | nil => exact hQ t pages h hat (fun _ _ _ => rfl) (fun _ _ hmem => absurd hmem List.not_mem_nil)
  | cons np ns ih =>
    obtain ⟨n, page⟩ := np
    rw [List.map_cons, List.nodup_cons] at hnodup
    rw [List.map_cons]
    unfold setAll
    rw [wp_seq, wp_set]
    intro x hx
    have hat' : AtPlace P s (t.put (pageKey P.element.bytes id n) (pageRow page)).view := by
      rw [pageKey_eq]
      exact hat.put _ _
    refine ih (h.put_page n page) hat' hnodup.2 fun t' pages' hreg hat' hkeep hset =>
      hQ t' pages' hreg hat' ?_ ?_
    · intro id' n' hno
      rw [hkeep id' n' fun page' hmem => hno page' (List.mem_cons_of_mem _ hmem), if_neg]
      rintro ⟨rfl, rfl⟩
      exact hno page List.mem_cons_self rfl
    · intro n' page' hmem
      rcases List.mem_cons.mp hmem with heq | hmem
      · cases heq
        rw [hkeep id n, if_pos ⟨rfl, rfl⟩]
        intro page' hmem
        exact absurd (List.mem_map.mpr ⟨_, hmem, rfl⟩) hnodup.1
      · exact hset n' page' hmem

/-- Storing the pages in memory. -/
theorem Region.wp_setPageEntries (h : Region t.view P pages) (hfull : FullPages pages)
    (hat : AtPlace P s t.view) (hshows : Shows cur bits)
    (hbits : ∀ q, cur[q / pageBits]? = none → bits q = bitOf pages id q) {Q : Post Unit}
    (hQ : ∀ t' pages', Region t'.view P pages' → FullPages pages' → AtPlace P s t'.view →
      (∀ id' q, bitOf pages' id' q = if id' = id then bits q else bitOf pages id' q) → Q () t') :
    wp A (setAll (pageEntries P.element id cur)) Q E t := by
  have hmem (n : Nat) (page : Bytes) : (n, page) ∈ cur.toList ↔ cur[n]? = some page :=
    Std.ExtTreeMap.mem_toList_iff_getElem?_eq_some
  have hnodup : (cur.toList.map (·.1)).Nodup := by
    refine List.pairwise_map.mpr (Std.ExtTreeMap.ordered_keys_toList.imp fun hlt heq => ?_)
    simp [heq, Std.ReflCmp.compare_self] at hlt
  refine h.wp_setPages hat hnodup fun t' pages' hreg hat' hkeep hset => ?_
  have hold (id' n : Nat) (hn : id' = id → cur[n]? = none) : pages' id' n = pages id' n := by
    refine hkeep id' n fun page hpage heq => ?_
    rw [hmem, hn heq] at hpage
    cases hpage
  refine hQ t' pages' hreg ?_ hat' ?_
  · intro id' n page hpage
    by_cases hid : id' = id
    · subst hid
      cases hn : cur[n]? with
      | none =>
        rw [hold id' n fun _ => hn] at hpage
        exact hfull id' n page hpage
      | some page' =>
        rw [hset n page' ((hmem n page').mpr hn)] at hpage
        rw [← Option.some.inj hpage]
        exact (hshows n page' hn).1
    · rw [hold id' n fun heq => absurd heq hid] at hpage
      exact hfull id' n page hpage
  · intro id' q
    by_cases hid : id' = id
    · subst hid
      rw [if_pos rfl]
      cases hn : cur[q / pageBits]? with
      | none => rw [hbits q hn, bitOf, pageAt, hold id' _ fun _ => hn, bitOf, pageAt]
      | some page =>
        have hbit := (hshows _ page hn).2 (q % pageBits) (Nat.mod_lt _ (by decide))
        rw [div_add_mod_pageBits] at hbit
        rw [bitOf, pageAt, hset _ page ((hmem _ page).mpr hn), Option.getD_some, hbit]
    · rw [if_neg hid, bitOf, bitOf, pageAt, pageAt, hold id' _ fun heq => absurd heq hid]

end Invar.Bloom
