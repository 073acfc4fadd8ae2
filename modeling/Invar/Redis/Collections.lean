import Invar.Lib.FiniteMaps
import Invar.Lib.FixedDigits
import Invar.Redis.KeyMoves
import Mathlib.Data.List.Dedup

/-!
# Sets and hashes in the store

Sets and hashes have one layout: a sentinel with the number of elements and one row
`<place>\0<name>` for each. A `Collection` is what they hold, a set maps each member to
itself. It is never empty, and small enough for its count. The commands are specified by
what they do to the items of the collections.
-/

namespace Invar.Collections

open StoreProg TxProg FiniteMap

abbrev Items := Std.ExtTreeMap Bytes Bytes

structure Collection where
  isHash : Bool
  items : Items
  pos : 0 < items.size
  small : items.size < 2 ^ 32
  self : isHash = false → ∀ (m v : Bytes), items[m]? = some v → v = m

def typeOf (isHash : Bool) : ValueType := if isHash then .hash else .set

def itemRow (isHash : Bool) (value : Bytes) : Row where
  value := value
  metadata := (typeOf isHash).byte

def cellsOf (isHash : Bool) (items : Items) : Bytes → Option Row
  | 0 :: name => items[name]?.map (itemRow isHash)
  | _ => none

theorem lasting_cellsOf {isHash : Bool} {items : Items} {suffix : Bytes} {row : Row}
    (h : cellsOf isHash items suffix = some row) : row.expireTs = none := by
  unfold cellsOf at h
  split at h
  · obtain ⟨v, -, rfl⟩ := Option.map_eq_some_iff.mp h
    rfl
  · cases h

def layout : Layout Collection where
  type c := typeOf c.isHash
  content c := beBytes 4 c.items.size
  cells c := cellsOf c.isHash c.items
  lasting := lasting_cellsOf

theorem covered : layout.Covered where
  notList c := by
    show typeOf c.isHash ≠ .list
    cases c.isHash <;> decide
  covered {c suffix} h := by
    have hsuffixes : elementSuffixes (typeOf c.isHash) = [[0]] := by cases c.isHash <;> rfl
    refine ⟨[0], by rw [show layout.type c = typeOf c.isHash from rfl, hsuffixes]; simp, ?_⟩
    change (cellsOf c.isHash c.items suffix).isSome = true at h
    unfold cellsOf at h
    split at h
    · exact ⟨_, rfl⟩
    · cases h

/-! ## The rows at a place -/

/-- The place has the rows of the items. -/
def Region (s : Store) (P : Place) (isHash : Bool) (items : Items) : Prop :=
  ∀ suffix, s[P.bytes ++ suffix]? = cellsOf isHash items suffix

variable {s s' : Store} {C : Catalog Collection} {k : Bytes} {P : Place} {c : Collection}
  {isHash : Bool} {items : Items} {A : Tick → Prop} {E : Post DbError} {t : Txn Bytes Row}

theorem Region.get (h : Region s P isHash items) (name : Bytes) :
    s[P.bytes ++ 0 :: name]? = items[name]?.map (itemRow isHash) := h (0 :: name)

theorem region_of_stored (h : Stored layout s C) (hk : C k = some (P, c)) :
    Region s P c.isHash c.items := h.cells hk

theorem region_of_empty (h : ∀ suffix, s[P.bytes ++ suffix]? = none) : Region s P isHash ∅ :=
  fun suffix => by
    rw [h]
    unfold cellsOf
    split <;> simp

theorem Region.put (h : Region t.view P isHash items) (name value : Bytes) :
    Region (t.put (P.bytes ++ 0 :: name) (itemRow isHash value)).view P isHash
      (items.insert name value) := fun suffix => by
  rw [Place.view_put, h]
  by_cases hs : suffix = 0 :: name
  · subst hs
    simp [cellsOf]
  · rw [if_neg hs]
    unfold cellsOf
    split
    · rw [Std.ExtTreeMap.getElem?_insert, if_neg fun heq => hs ?_]
      rw [Std.LawfulEqCmp.eq_of_compare heq]
    · rfl

theorem Region.del (h : Region t.view P isHash items) (name : Bytes) :
    Region (t.del (P.bytes ++ 0 :: name)).view P isHash (items.erase name) := fun suffix => by
  rw [Place.view_del, h]
  by_cases hs : suffix = 0 :: name
  · subst hs
    simp [cellsOf]
  · rw [if_neg hs]
    unfold cellsOf
    split
    · rw [Std.ExtTreeMap.getElem?_erase, if_neg fun heq => hs ?_]
      rw [Std.LawfulEqCmp.eq_of_compare heq]
    · rfl

/-- **What a scan over the elements lists.** -/
theorem Region.rowsOf_eq (h : Region s P isHash items) : rowsOf s (P.bytes ++ [0]).isPrefixOf =
      items.toList.map fun nv => (P.bytes ++ 0 :: nv.1, itemRow isHash nv.2) := by
  refine rowsOf_eq_of_sorted ?_ fun x row => ?_
  · rw [List.pairwise_map]
    refine Std.ExtTreeMap.ordered_keys_toList.imp fun {a b} hab => ?_
    rw [FixedDigits.compare_append_left, List.compare_cons_cons]
    simp [hab]
  · rw [List.mem_map]
    constructor
    · rintro ⟨⟨name, value⟩, hmem, heq⟩
      obtain ⟨rfl, rfl⟩ := Prod.mk.inj heq
      rw [Std.ExtTreeMap.mem_toList_iff_getElem?_eq_some] at hmem
      refine ⟨by rw [h.get, hmem, Option.map_some], ?_⟩
      rw [List.isPrefixOf_iff_prefix]
      exact ⟨name, by simp⟩
    · rintro ⟨hrow, hp⟩
      obtain ⟨name, rfl⟩ := List.isPrefixOf_iff_prefix.mp hp
      rw [List.append_assoc, List.singleton_append, h.get, Option.map_eq_some_iff] at hrow
      obtain ⟨value, hvalue, rfl⟩ := hrow
      exact ⟨(name, value), Std.ExtTreeMap.mem_toList_iff_getElem?_eq_some.mpr hvalue, by simp⟩

theorem Region.length_rowsOf (h : Region s P isHash items) :
    (rowsOf s (P.bytes ++ [0]).isPrefixOf).length = items.size := by
  rw [h.rowsOf_eq, List.length_map, Std.ExtTreeMap.length_toList]

theorem Region.wp_scan (h : Region t.view P isHash items) {Q : Post (List (Bytes × Row))}
    (hQ : Q (items.toList.map fun nv => (P.bytes ++ 0 :: nv.1, itemRow isHash nv.2))
      (t.noteRead (P.bytes ++ [0]).isPrefixOf)) : wp A (scanUnder (P.bytes ++ [0])) Q E t := by
  refine wp_scan_lasting (fun key row hp hrow => Row.lastsFor_of_none ?_ A) ?_
  · obtain ⟨r, rfl⟩ := List.isPrefixOf_iff_prefix.mp hp
    rw [List.append_assoc, h] at hrow
    exact lasting_cellsOf hrow
  · rw [← h.rowsOf_eq] at hQ
    exact hQ

/-! ## Items -/

/-- Each name stands for itself, as in a set. -/
def IsSet (items : Items) : Prop := ∀ (m v : Bytes), items[m]? = some v → v = m

theorem IsSet.insert (h : IsSet items) (member : Bytes) : IsSet (items.insert member member) := by
  intro m v hv
  rw [Std.ExtTreeMap.getElem?_insert] at hv
  split at hv
  · rename_i heq
    rw [← Option.some.inj hv, Std.LawfulEqCmp.eq_of_compare heq]
  · exact h m v hv

theorem IsSet.erase (h : IsSet items) (member : Bytes) : IsSet (items.erase member) := by
  intro m v hv
  rw [Std.ExtTreeMap.getElem?_erase] at hv
  split at hv
  · cases hv
  · exact h m v hv

theorem IsSet.eraseAll (h : IsSet items) (names : List Bytes) : IsSet (eraseAll names items) := by
  induction names generalizing items with
  | nil => exact h
  | cons name names ih => exact ih (h.erase name)

theorem isSet_empty : IsSet ∅ := fun m v hv => by simp at hv

variable {member v name field value : Bytes} {added db : Int} {members fieldValues ms : List Bytes}
  {Q : Post RespValue}

/-- A member that is there is not written again. -/
theorem IsSet.insert_of_mem (h : IsSet items) (hv : items[member]? = some v) :
    items.insert member member = items := by
  refine Std.ExtTreeMap.ext_getElem? fun m => ?_
  rw [Std.ExtTreeMap.getElem?_insert]
  split
  · rename_i heq
    rw [← Std.LawfulEqCmp.eq_of_compare heq, hv, h member v hv]
  · rfl

theorem ofNat_size_insert (h : items[name]? = none) (value : Bytes) :
    UInt32.ofNat (items.insert name value).size = UInt32.ofNat items.size + 1 := by
  rw [size_insert_of_none h, UInt32.ofNat_add]
  rfl

theorem ofNat_size_erase (h : items[name]? = some v) :
    UInt32.ofNat (items.erase name).size = UInt32.ofNat items.size - 1 := by
  obtain ⟨n, hn⟩ := Nat.exists_eq_add_of_lt (size_pos_of_some h)
  rw [size_erase_of_some h, hn, Nat.zero_add, Nat.add_sub_cancel, UInt32.ofNat_add]
  exact (UInt32.add_sub_cancel _ _).symm

/-! ## The loops of the commands -/

theorem Region.wp_get (h : Region t.view P isHash items) {Q : Post (Option Row)}
    (hQ : Q (items[name]?.map (itemRow isHash)) (t.noteRead (isKey (P.bytes ++ 0 :: name)))) :
    wp A (TxProg.get (P.bytes ++ 0 :: name)) Q E t := by
  have hrow := h.get name
  cases hv : items[name]? with
  | none =>
    rw [hv] at hrow hQ
    exact wp_get_none hrow hQ
  | some v =>
    rw [hv] at hrow hQ
    exact wp_get_some hrow (Row.lastsFor_of_none rfl A) hQ

theorem wp_addMembers {Q : Post (UInt32 × Int)} (hreg : Region t.view P false items)
    (hset : IsSet items) (hat : AtPlace P s t.view)
    (hQ : ∀ t' added', Region t'.view P false (insertAll (members.map fun m => (m, m)) items) →
      IsSet (insertAll (members.map fun m => (m, m)) items) → AtPlace P s t'.view →
        Q (UInt32.ofNat (insertAll (members.map fun m => (m, m)) items).size, added') t') :
    wp A (Set.addMembers P.element members (UInt32.ofNat items.size) added) Q E t := by
  induction members generalizing t items added with
  | nil => exact hQ t added hreg hset hat
  | cons member members ih =>
    unfold Set.addMembers
    rw [wp_seq]
    refine hreg.wp_get ?_
    cases hv : items[member]? with
    | some v =>
      refine ih hreg hset hat ?_
      rwa [List.map_cons, insertAll, List.foldl_cons, hset.insert_of_mem hv] at hQ
    | none =>
      dsimp only [Option.map_none]
      rw [wp_seq, wp_set]
      intro x _
      rw [← ofNat_size_insert hv member]
      exact ih (Region.put hreg member member) (hset.insert member)
        (AtPlace.put hat _ _) hQ

/-- Fields and values in turn, an odd last field left out. -/
def pairsOf : List Bytes → List (Bytes × Bytes)
  | field :: value :: rest => (field, value) :: pairsOf rest
  | _ => []

theorem wp_setFields {Q : Post (UInt32 × Int)} (hreg : Region t.view P true items)
    (hat : AtPlace P s t.view)
    (hQ : ∀ t' added', Region t'.view P true (insertAll (pairsOf fieldValues) items) →
      AtPlace P s t'.view →
        Q (UInt32.ofNat (insertAll (pairsOf fieldValues) items).size, added') t') :
    wp A (Hash.setFields P.element fieldValues (UInt32.ofNat items.size) added) Q E t := by
  induction fieldValues using pairsOf.induct generalizing t items added with
  | case1 field value rest ih =>
    unfold Hash.setFields
    rw [wp_seq]
    refine hreg.wp_get ?_
    rw [wp_seq, wp_set]
    intro x _
    have hreg' := Region.put hreg field value
    have hat' := AtPlace.put hat
      (0 :: field) (itemRow true value)
    cases hv : items[field]? with
    | some v =>
      dsimp only [Option.map_some, Option.isSome_some]
      rw [if_pos rfl, ← size_insert_of_some hv value]
      exact ih hreg' hat' hQ
    | none =>
      rw [if_neg (by simp), ← ofNat_size_insert hv value]
      exact ih hreg' hat' hQ
  | case2 fieldValues hne =>
    have hnil : pairsOf fieldValues = [] := by
      unfold pairsOf
      split
      · exact absurd rfl (hne _ _ _)
      · rfl
    rw [hnil] at hQ
    unfold Hash.setFields
    split
    · exact absurd rfl (hne _ _ _)
    · exact hQ t _ hreg hat

theorem wp_removeMembers {removed : Int}
    {Q : Post (UInt32 × Int)} (hreg : Region t.view P isHash items) (hat : AtPlace P s t.view)
    (hQ : ∀ t' removed', Region t'.view P isHash (eraseAll members items) →
      AtPlace P s t'.view → Q (UInt32.ofNat (eraseAll members items).size, removed') t') :
    wp A (Set.removeMembers P.element members (UInt32.ofNat items.size) removed) Q E t := by
  induction members generalizing t items removed with
  | nil => exact hQ t removed hreg hat
  | cons member members ih =>
    unfold Set.removeMembers
    rw [wp_seq]
    refine hreg.wp_get ?_
    cases hv : items[member]? with
    | some v =>
      dsimp only [Option.map_some]
      rw [wp_seq, wp_delete, ← ofNat_size_erase hv]
      exact ih (Region.del hreg member)
        (AtPlace.del hat _) hQ
    | none =>
      refine ih hreg hat ?_
      rwa [eraseAll, List.foldl_cons, erase_of_none hv] at hQ

/-- `HDEL` loops as `SREM` does. -/
theorem delFields_eq (p : ElementPrefix) (fields : List Bytes) (count : UInt32) (removed : Int) :
    Hash.delFields p fields count removed = Set.removeMembers p fields count removed := by
  induction fields generalizing count removed with
  | nil => rfl
  | cons field fields ih =>
    unfold Hash.delFields Set.removeMembers
    simp only [ih]
    rfl

/-! ## Sentinels -/

def readCount (isHash : Bool) (k : Bytes) : TxProg (Option UInt32) :=
  sentinelCount (typeOf isHash).byte k

theorem setCount_eq (k : Bytes) : Set.setCount k = readCount false k := rfl

theorem setWriteSentinel_eq (k : Bytes) (count : UInt32) (p : ElementPrefix) :
    Set.writeSentinel k count p =
      writeSentinel k (beBytes 4 count.toNat) (typeOf false).byte p := rfl

theorem hashWriteSentinel_eq (k : Bytes) (count : UInt32) (p : ElementPrefix) :
    Hash.writeSentinel k count p =
      writeSentinel k (beBytes 4 count.toNat) (typeOf true).byte p := rfl

theorem readSentinel_eq (k : Bytes) : Hash.readSentinel k = readCount true k := rfl

theorem wp_readCount_of_row {Q : Post (Option UInt32)} (h : Stored layout s C)
    (hrow : t.view[k]? = s[k]?) (hpub : IsPublic k)
      (hnone : C k = none → Q none (t.noteRead (isKey k)))
    (hsome : ∀ P c, C k = some (P, c) → c.isHash = isHash →
      Q (some (UInt32.ofNat c.items.size)) (t.noteRead (isKey k)))
    (hother : ∀ P c, C k = some (P, c) → c.isHash ≠ isHash → E .wrongType (t.noteRead (isKey k))) :
    wp A (readCount isHash k) Q E t := by
  unfold readCount sentinelCount
  rw [wp_seq]
  cases hk : C k with
  | none => exact wp_get_none (hrow.trans (h.absent hpub hk)) (hnone hk)
  | some Pc =>
    obtain ⟨P, c⟩ := Pc
    have hsentinel : t.view[k]? = some (layout.sentinel (P, c)) := by
      rw [hrow, h.sentinel hpub, hk, Option.map_some]
    refine wp_get_some hsentinel (Row.lastsFor_of_none rfl A) ?_
    dsimp only
    rw [baseType_sentinel]
    by_cases htype : c.isHash = isHash
    · have hQ := hsome P c hk htype
      rw [if_neg (by rw [← htype]; simp [layout]),
        (layout.isSentinel_sentinel (P, c) []).content_eq, Prog.bind_eq, wp_bind, wp_ofExcept_ok]
      rw [show layout.content (P, c).2 = beBytes 4 c.items.size from rfl, if_neg (by simp),
        List.take_of_length_le (by simp), ofBeBytes_beBytes,
        Nat.mod_eq_of_lt (show c.items.size < 256 ^ 4 from c.small)]
      exact hQ
    · rw [if_pos]
      · exact hother P c hk htype
      · show (typeOf c.isHash).byte ≠ (typeOf isHash).byte
        cases hc : c.isHash <;> cases isHash <;> simp_all [typeOf, ValueType.byte]

/-- The key has got the items, and nothing else has changed. -/
structure Became (C C' : Catalog Collection) (k : Bytes) (isHash : Bool) (items : Items) :
    Prop where
  others : ∀ k', k' ≠ k → C' k' = C k'
  absent : C' k = none → items.size = 0
  present : ∀ P c, C' k = some (P, c) → c.isHash = isHash ∧ c.items = items
  place : ∀ P c, C' k = some (P, c) → ∀ Pc, C k = some Pc → Pc.1 = P

theorem became_update (howns : Owns C k P) :
    Became C (Function.update C k (some (P, c))) k c.isHash c.items := by
  refine ⟨fun k' hk' => Function.update_of_ne hk' _ _, fun hnone => ?_, fun P' c' hsome => ?_,
    fun P' c' hsome => ?_⟩
  · rw [Function.update_self] at hnone
    cases hnone
  · rw [Function.update_self] at hsome
    cases hsome
    exact ⟨rfl, rfl⟩
  · rw [Function.update_self] at hsome
    cases hsome
    exact howns.own

theorem wp_write {Q : Post Unit} (h : Stored layout s C) (howns : Owns C k P)
    (hslot : SentinelSlot s k P.element) (hreg : Region t.view P isHash items)
    (hat : AtPlace P s t.view) (hpos : 0 < items.size) (hsmall : items.size < 2 ^ 32)
    (hset : isHash = false → IsSet items)
    (hQ : ∀ t' C', Stored layout t'.view C' → Became C C' k isHash items → Q () t') :
    wp A (writeSentinel k (beBytes 4 (UInt32.ofNat items.size).toNat) (typeOf isHash).byte
      P.element) Q E t := by
  have hkey : t.view[k]? = s[k]? := hat k (howns.isPublic.not_isPrefix P)
  have hcount : (UInt32.ofNat items.size).toNat = items.size := by
    rw [UInt32.toNat_ofNat', Nat.mod_eq_of_lt hsmall]
  let c : Collection := ⟨isHash, items, hpos, hsmall, hset⟩
  refine wp_writeSentinel_slot _ (hslot.frame hkey) (hQ _ _ ?_ (became_update (c := c) howns))
  rw [hcount]
  refine h.write howns ((hat.within k).put_key _) ?_ fun suffix => ?_
  · rw [Txn.view_put, if_pos rfl]
    rfl
  · rw [Txn.view_put, if_neg (howns.cell_ne suffix)]
    exact hreg suffix

/-- The sentinel of a collection that has lost elements. -/
def writeCount (isHash : Bool) (k : Bytes) (count : UInt32) (p : ElementPrefix) : TxProg Unit :=
  if count = 0 then delete k else
    writeSentinel k (beBytes 4 count.toNat) (typeOf isHash).byte p

theorem wp_writeCount {Q : Post Unit} (h : Stored layout s C)
    (hk : C k = some (P, c)) (hreg : Region t.view P c.isHash items) (hat : AtPlace P s t.view)
    (hsmall : items.size < 2 ^ 32) (hset : c.isHash = false → IsSet items)
    (hQ : ∀ t' C', Stored layout t'.view C' → Became C C' k c.isHash items → Q () t') :
    wp A (writeCount c.isHash k (UInt32.ofNat items.size) P.element) Q E t := by
  unfold writeCount
  have howns := h.owns hk
  have hzero : UInt32.ofNat items.size = 0 ↔ items.size = 0 := by
    rw [← UInt32.toNat_inj, UInt32.toNat_ofNat', Nat.mod_eq_of_lt hsmall]
    rfl
  by_cases hempty : items.size = 0
  · rw [if_pos (hzero.mpr hempty), wp_delete]
    refine hQ _ (Function.update C k none) ?_ ⟨fun k' hk' => Function.update_of_ne hk' _ _,
      fun _ => hempty, fun P' c' hsome => ?_, fun P' c' hsome => ?_⟩
    · refine h.erase hk (fun x hx hp => ?_) ?_ fun suffix => ?_
      · rw [Txn.view_del, if_neg hx, hat x hp]
      · rw [Txn.view_del, if_pos rfl]
      · rw [Txn.view_del, if_neg (howns.cell_ne suffix), hreg]
        rw [Std.ExtTreeMap.eq_empty_iff_size_eq_zero.mpr hempty]
        unfold cellsOf
        split <;> simp
    · rw [Function.update_self] at hsome
      cases hsome
    · rw [Function.update_self] at hsome
      cases hsome
  · rw [if_neg fun heq => hempty (hzero.mp heq)]
    exact wp_write h howns (h.slot hk) hreg hat (Nat.pos_of_ne_zero hempty) hsmall hset hQ

/-! ## The commands -/

/-- The items under a key. -/
def itemsAt (C : Catalog Collection) (k : Bytes) : Items :=
  match C k with
  | some Pc => Pc.2.items
  | none => ∅

/-- The value under a key is of the other type. -/
def IsOther (C : Catalog Collection) (k : Bytes) (isHash : Bool) : Prop :=
  ∃ Pc, C k = some Pc ∧ Pc.2.isHash ≠ isHash

/-- What a command that may make a new collection starts from. -/
structure Ready (s : Store) (C : Catalog Collection) (k : Bytes) (isHash : Bool) (P : Place) :
    Prop where
  stored : Stored layout s C
  owns : Owns C k P
  slot : SentinelSlot s k P.element
  typed : ∀ Pc, C k = some Pc → Pc.2.isHash = isHash
  region : Region s P isHash (itemsAt C k)
  isSet : isHash = false → IsSet (itemsAt C k)

/-- The start of the commands that may make a new collection. -/
theorem wp_ready (isHash : Bool) {Q : Post ElementPrefix}
    (h : Stored layout t.view C) (hdb : db < 2 ^ 31) (hk : k = publicKey db name)
    (hfresh : DrawsFresh C A)
    (hQ : ∀ P, Owns C k P → (IsOther C k isHash ∨ Ready t.view C k isHash P) →
      Q P.element (t.noteRead (isKey k))) :
    wp A (resolvePrefixForWrite k (privateKey k)) Q (fun _ _ => True) t := by
  refine wp_resolvePrefixForWrite_stored h hdb hk hfresh (fun P howns hslot hempty => hQ P howns ?_)
    fun _ _ _ => trivial
  cases hCk : C k with
  | none =>
    refine .inr ⟨h, howns, hslot, fun Pc hPc => ?_, ?_, fun _ => ?_⟩
    · rw [hCk] at hPc
      cases hPc
    · simp only [itemsAt, hCk]
      exact region_of_empty (hempty hCk)
    · simp only [itemsAt, hCk]
      exact isSet_empty
  | some Pc =>
    obtain ⟨P', c⟩ := Pc
    obtain rfl : P' = P := howns.own _ hCk
    by_cases htype : c.isHash = isHash
    · refine .inr ⟨h, howns, hslot, fun Pc hPc => ?_, ?_, fun hhash => ?_⟩
      · rw [hCk] at hPc
        cases hPc
        exact htype
      · simp only [itemsAt, hCk, ← htype]
        exact region_of_stored h hCk
      · simp only [itemsAt, hCk]
        exact c.self (htype.trans hhash)
    · exact .inl ⟨_, hCk, htype⟩

/-- What the count says, for a key that is absent or has the type. -/
theorem Ready.wp_readCount (hready : Ready s C k isHash P) (hrow : t.view[k]? = s[k]?)
    {Q : Post (Option UInt32)}
    (hQ : ∀ n, n.getD 0 = UInt32.ofNat (itemsAt C k).size → Q n (t.noteRead (isKey k))) :
    wp A (readCount isHash k) Q (fun _ _ => True) t := by
  refine wp_readCount_of_row hready.stored hrow hready.owns.isPublic (fun hCk => hQ none ?_)
    (fun P' c hCk htype => hQ _ ?_) fun _ _ _ _ => trivial
  · simp only [itemsAt, hCk]
    rfl
  · simp only [itemsAt, hCk]
    rfl

/-- The count of a value of the other type cannot be read. -/
theorem IsOther.wp_readCount (hother : IsOther C k isHash) (h : Stored layout s C)
    (hrow : t.view[k]? = s[k]?) (Q : Post (Option UInt32)) :
    wp A (readCount isHash k) Q (fun _ _ => True) t := by
  obtain ⟨Pc, hPc, htype⟩ := hother
  refine wp_readCount_of_row h hrow (h.isPublic hPc) (fun hnone => ?_) (fun P' c hsome htype' => ?_)
    fun _ _ _ _ => trivial
  · rw [hPc] at hnone
    cases hnone
  · rw [hPc] at hsome
    cases hsome
    exact absurd htype' htype

theorem Ready.key_eq (hready : Ready s C k isHash P) (hat : AtPlace P s s') : s'[k]? = s[k]? :=
  hat k (hready.owns.isPublic.not_isPrefix P)

/-- The end of the commands that have written one field which may be new. -/
theorem wp_fieldWritten {Q : Post Unit} (hready : Ready s C k true P)
    (hreg : Region t.view P true ((itemsAt C k).insert field value)) (hat : AtPlace P s t.view)
    (hsmall : (itemsAt C k).size + 1 < 2 ^ 32) (hQ : ∀ t' C', Stored layout t'.view C' →
      Became C C' k true ((itemsAt C k).insert field value) → Q () t') :
    wp A (if !((itemsAt C k)[field]?).isSome then Hash.countNewField k P.element else pure ()) Q
      (fun _ _ => True) t := by
  have hsize := (size_insert_le (itemsAt C k) field value).2
  have hpos := size_insert_pos (itemsAt C k) field value
  cases hv : (itemsAt C k)[field]? with
  | none =>
    rw [if_pos (by simp)]
    unfold Hash.countNewField
    rw [wp_seq, readSentinel_eq]
    refine hready.wp_readCount (hready.key_eq hat) fun n hn => ?_
    dsimp only
    rw [hn, ← ofNat_size_insert hv value, hashWriteSentinel_eq]
    exact wp_write hready.stored hready.owns hready.slot hreg hat hpos
      (by omega)
      (fun hhash => by cases hhash) hQ
  | some v =>
    -- the sentinel that is there has the right count
    rw [if_neg (by simp)]
    cases hCk : C k with
    | none =>
      simp only [itemsAt, hCk] at hv
      simp at hv
    | some Pc =>
      obtain ⟨P', c⟩ := Pc
      obtain rfl : P' = P := hready.owns.own _ hCk
      have hitems : itemsAt C k = c.items := by simp only [itemsAt, hCk]
      have hhash : c.isHash = true := hready.typed _ hCk
      rw [hitems] at hreg hQ hpos hsize hsmall hv
      let c' : Collection := ⟨true, c.items.insert field value, hpos, by omega,
        fun hhash => by cases hhash⟩
      have hsentinel : layout.sentinel (P', c') = layout.sentinel (P', c) := by
        simp only [Layout.sentinel, layout, c', size_insert_of_some hv, hhash]
      refine hQ t _ ?_ (became_update (c := c') hready.owns)
      refine hready.stored.write hready.owns (hat.within k) ?_ hreg
      rw [hready.key_eq hat, hready.stored.sentinel hready.owns.isPublic, hCk, Option.map_some,
        hsentinel]

/-- The number in a field, for a hash that may be new. -/
theorem Ready.wp_fieldNumber {β : Type} {parse : Bytes → Option β} {zero : β} {err : String}
    {Q : Post (β × Bool)} (hready : Ready s C k true P) (hview : t.view = s)
    (hQ : ∀ n, Q (n, ((itemsAt C k)[field]?).isSome) (t.noteRead (isKey (P.bytes ++ 0 :: field)))) :
    wp A (Hash.fieldNumber parse zero err (P.bytes ++ 0 :: field)) Q (fun _ _ => True) t := by
  unfold Hash.fieldNumber
  rw [wp_seq]
  refine Region.wp_get (hview ▸ hready.region) ?_
  cases hv : (itemsAt C k)[field]? with
  | none =>
    rw [hv] at hQ
    exact hQ zero
  | some v =>
    rw [hv] at hQ
    dsimp only [Option.map_some]
    split
    · exact hQ _
    · trivial

theorem Ready.wp_setField (field value : Bytes) (reply : RespValue) (hready : Ready s C k true P)
    (hview : t.view = s) (hsmall : (itemsAt C k).size + 1 < 2 ^ 32)
    (hQ : ∀ reply t' C', Stored layout t'.view C' → Q reply t') :
    wp A (set (Hash.fieldEntry (P.bytes ++ 0 :: field) value)) (fun _ t' =>
      wp A (if !((itemsAt C k)[field]?).isSome then
          (Hash.countNewField k P.element).bind fun _ => pure reply
        else pure reply) Q (fun _ _ => True) t') (fun _ _ => True) t := by
  rw [wp_set]
  intro x _
  have hlast := wp_fieldWritten (Q := fun _ t' => Q reply t') (A := A) hready
    (Region.put (hview ▸ hready.region) field value)
    (AtPlace.put (hview ▸ AtPlace.refl P s) (0 :: field) _) hsmall fun t' C' hC' _ => hQ _ t' C' hC'
  split
  · rename_i hnew
    rw [if_pos hnew] at hlast
    rw [wp_bind]
    exact hlast
  · rename_i hold
    rw [if_neg hold] at hlast
    exact hlast

section

variable (h : Stored layout t.view C) (hdb : db < 2 ^ 31) (hk : k = publicKey db name)
  (hfresh : DrawsFresh C A)

include h hdb hk hfresh

theorem wp_sadd (hne : members ≠ []) (hsmall : (itemsAt C k).size + members.length < 2 ^ 32)
    (hQ : ∀ reply t' C', Stored layout t'.view C' →
      Became C C' k false (insertAll (members.map fun m => (m, m)) (itemsAt C k)) → Q reply t') :
    wp A (Set.sadd k members) Q (fun _ _ => True) t := by
  unfold Set.sadd
  rw [wp_seq]
  refine wp_ready false h hdb hk hfresh fun P _ hP => ?_
  rw [wp_seq, setCount_eq]
  rcases hP with hother | hready
  · exact hother.wp_readCount h (t := t.noteRead _) rfl _
  refine hready.wp_readCount (t := t.noteRead _) rfl fun n hn => ?_
  rw [hn, Prog.bind_eq, wp_bind]
  refine wp_addMembers hready.region (hready.isSet rfl)
    (AtPlace.refl P t.view)
    fun t' added' hreg hset hat => ?_
  have hsize := (size_insertAll_le (members.map fun m => (m, m)) (itemsAt C k)).2
  rw [List.length_map] at hsize
  rw [wp_seq, setWriteSentinel_eq]
  exact wp_write h hready.owns hready.slot hreg hat (size_insertAll_pos (by simpa using hne) _)
    (by omega) (fun _ => hset) fun t'' C' hC' hbecame => hQ _ t'' C' hC' hbecame

theorem wp_hashSetAll {Q : Post Int} (hne : pairsOf fieldValues ≠ [])
    (hsmall : (itemsAt C k).size + (pairsOf fieldValues).length < 2 ^ 32)
    (hQ : ∀ reply t' C', Stored layout t'.view C' →
      Became C C' k true (insertAll (pairsOf fieldValues) (itemsAt C k)) → Q reply t') :
    wp A (Hash.setAll k fieldValues) Q (fun _ _ => True) t := by
  unfold Hash.setAll
  rw [wp_seq]
  refine wp_ready true h hdb hk hfresh fun P howns hP => ?_
  rw [wp_seq, readSentinel_eq]
  rcases hP with hother | hready
  · exact hother.wp_readCount h (t := t.noteRead _) rfl _
  refine hready.wp_readCount (t := t.noteRead _) rfl fun n hn => ?_
  rw [hn, Prog.bind_eq, wp_bind]
  refine wp_setFields hready.region (AtPlace.refl P t.view)
    fun t' added' hreg hat => ?_
  have hsize := (size_insertAll_le (pairsOf fieldValues) (itemsAt C k)).2
  rw [wp_seq, hashWriteSentinel_eq]
  exact wp_write h hready.owns hready.slot hreg hat (size_insertAll_pos hne _) (by omega)
    (fun hhash => by cases hhash) fun t'' C' hC' hbecame => hQ _ t'' C' hC' hbecame

variable (hsmall : (itemsAt C k).size + 1 < 2 ^ 32)
  (hQ : ∀ reply t' C', Stored layout t'.view C' → Q reply t')

include hsmall hQ

theorem wp_hsetnx :
    wp A (Hash.hsetnx k field value) Q (fun _ _ => True) t := by
  unfold Hash.hsetnx
  rw [wp_seq]
  refine wp_ready true h hdb hk hfresh fun P howns hP => ?_
  rw [wp_seq]
  rcases hP with hother | hready
  · obtain ⟨⟨P', c⟩, hPc, htype⟩ := hother
    obtain rfl : P' = P := howns.own _ hPc
    refine Region.wp_get (t := t.noteRead _) (region_of_stored h hPc) ?_
    cases hv : c.items[field]? with
    | some v => exact hQ _ _ C h
    | none =>
      dsimp only [Option.map_none]
      rw [wp_seq, wp_set]
      intro x _
      unfold Hash.countNewField
      rw [wp_seq, Prog.bind_eq, wp_bind, readSentinel_eq]
      refine IsOther.wp_readCount ⟨_, hPc, htype⟩ h ?_ _
      exact (Txn.view_put _ _ _ _).trans (if_neg (howns.cell_ne _).symm)
  · refine Region.wp_get (t := t.noteRead _) hready.region ?_
    cases hv : (itemsAt C k)[field]? with
    | some v => exact hQ _ _ C h
    | none =>
      dsimp only [Option.map_none]
      have hlast := hready.wp_setField (t := (t.noteRead (isKey k)).noteRead
        (isKey (P.bytes ++ 0 :: field))) (A := A) field value (.integer 1) rfl hsmall hQ
      rw [hv, if_pos (by simp)] at hlast
      rw [wp_seq]
      exact hlast

variable (htyped : ¬IsOther C k true)

include htyped

theorem wp_hincrby {amount : Int} :
    wp A (Hash.hincrby k field amount) Q (fun _ _ => True) t := by
  unfold Hash.hincrby
  rw [wp_seq]
  refine wp_ready true h hdb hk hfresh fun P howns hP => ?_
  have hready := hP.resolve_left htyped
  rw [wp_seq]
  refine hready.wp_fieldNumber rfl fun n => ?_
  rw [wp_seq]
  exact hready.wp_setField field _ _ rfl hsmall hQ

theorem wp_hincrbyfloat {amount : F64} :
    wp A (Hash.hincrbyfloat k field amount) Q (fun _ _ => True) t := by
  unfold Hash.hincrbyfloat
  rw [wp_seq]
  refine wp_ready true h hdb hk hfresh fun P howns hP => ?_
  have hready := hP.resolve_left htyped
  split
  · trivial
  · rw [wp_seq]
    refine hready.wp_fieldNumber rfl fun n => ?_
    rw [wp_seq]
    exact hready.wp_setField field _ _ rfl hsmall hQ

end

/-- The count of a collection of the type that is asked for. -/
theorem wp_readCount_some {Q : Post (Option UInt32)} (h : Stored layout t.view C)
    (hk : C k = some (P, c))
    (hQ : c.isHash = isHash → Q (some (UInt32.ofNat c.items.size)) (t.noteRead (isKey k))) :
    wp A (readCount isHash k) Q (fun _ _ => True) t := by
  refine wp_readCount_of_row h rfl (h.isPublic hk) (fun hnone => ?_) (fun P' c' hsome htype => ?_)
    fun _ _ _ _ => trivial
  · rw [hk] at hnone
    cases hnone
  · rw [hk] at hsome
    cases hsome
    exact hQ htype

theorem wp_readCount_none {Q : Post (Option UInt32)} (h : Stored layout t.view C)
    (hpub : IsPublic k) (hk : C k = none) (hQ : Q none (t.noteRead (isKey k))) :
    wp A (readCount isHash k) Q (fun _ _ => True) t := by
  refine wp_readCount_of_row h rfl hpub (fun _ => hQ) (fun P' c' hsome _ => ?_)
    fun _ _ _ _ => trivial
  rw [hk] at hsome
  cases hsome

/-- `SREM` and `HDEL`. -/
def removeItems (isHash : Bool) (k : Bytes) (names : List Bytes) : TxProg RespValue := do
  let p ← resolvePrefix k (privateKey k)
  let some count ← readCount isHash k | return .integer 0
  let (count, removed) ← Set.removeMembers p names count 0
  writeCount isHash k count p
  return .integer removed

theorem srem_eq (k : Bytes) (members : List Bytes) :
    Set.srem k members = removeItems false k members := rfl

theorem hdel_eq (k : Bytes) (fields : List Bytes) :
    Hash.hdel k fields = removeItems true k fields := by
  unfold Hash.hdel removeItems
  simp only [delFields_eq, readSentinel_eq]
  congr 1
  funext p
  congr 1
  funext count
  cases count with
  | none => rfl
  | some count =>
    dsimp only
    congr 1
    funext counts
    dsimp only [writeCount]
    split <;> rfl

theorem wp_removeItems {names : List Bytes} (h : Stored layout t.view C) (hpub : IsPublic k)
    (hQ : ∀ reply t' C', Stored layout t'.view C' →
      Became C C' k isHash (eraseAll names (itemsAt C k)) → Q reply t') :
    wp A (removeItems isHash k names) Q (fun _ _ => True) t := by
  unfold removeItems
  rw [wp_seq]
  cases hk : C k with
  | none =>
    refine wp_resolvePrefix_none (h.absent hpub hk) ?_
    rw [wp_seq]
    refine wp_readCount_none h hpub hk (hQ _ _ C h ⟨fun _ _ => rfl, fun _ => ?_,
      fun P c hsome => ?_, fun P c hsome => ?_⟩)
    · simp only [itemsAt, hk, eraseAll_empty, Std.ExtTreeMap.size_empty]
    · rw [hk] at hsome
      cases hsome
    · rw [hk] at hsome
      cases hsome
  | some Pc =>
    obtain ⟨P, c⟩ := Pc
    refine wp_resolvePrefix_stored h hk ?_
    rw [wp_seq]
    refine wp_readCount_some h hk fun htype => ?_
    subst htype
    rw [wp_seq]
    refine wp_removeMembers (region_of_stored h hk)
      (AtPlace.refl P t.view) fun t' removed' hreg hat => ?_
    rw [wp_seq]
    have hle := size_eraseAll_le names c.items
    have hsmall := c.small
    have hitems : itemsAt C k = c.items := by simp only [itemsAt, hk]
    rw [hitems] at hQ
    exact wp_writeCount h hk hreg hat (by omega) (fun hset => IsSet.eraseAll (c.self hset) names)
      fun t'' C' hC' hbecame => hQ _ t'' C' hC' hbecame

theorem setWriteCount_eq (k : Bytes) (count : UInt32) (p : ElementPrefix) :
    Set.writeCount k count p = writeCount false k count p := rfl

theorem wp_spop (h : Stored layout t.view C) (hpub : IsPublic k)
    (hQ : ∀ reply t' C', Stored layout t'.view C' → Q reply t') :
    wp A (Set.spop k) Q (fun _ _ => True) t := by
  unfold Set.spop
  rw [wp_seq]
  cases hk : C k with
  | none =>
    refine wp_resolvePrefix_none (h.absent hpub hk) ?_
    rw [wp_seq, setCount_eq]
    exact wp_readCount_none h hpub hk (hQ _ _ C h)
  | some Pc =>
    obtain ⟨P, c⟩ := Pc
    refine wp_resolvePrefix_stored h hk ?_
    rw [wp_seq, setCount_eq]
    refine wp_readCount_some h hk fun htype => ?_
    rw [wp_seq, wp_randIndex]
    intro x _
    rw [wp_seq]
    have hreg := region_of_stored h hk
    refine Region.wp_scan (t := (t.noteRead _).noteRead _) hreg ?_
    rw [List.getElem?_map]
    cases hi : c.items.toList[x.rand % (UInt32.ofNat c.items.size).toNat]? with
    | none => exact hQ _ _ C h
    | some nv =>
      obtain ⟨name, value⟩ := nv
      have hv : c.items[name]? = some value :=
        Std.ExtTreeMap.mem_toList_iff_getElem?_eq_some.mp (List.mem_of_getElem? hi)
      have hle := size_eraseAll_le [name] c.items
      have hsmall := c.small
      dsimp only [Option.map_some]
      rw [wp_seq, wp_delete, Prog.bind_eq, wp_bind, setWriteCount_eq,
        ← ofNat_size_erase hv, ← htype]
      refine wp_writeCount h hk (Region.del hreg name) (AtPlace.del (AtPlace.refl P t.view) _)
        (Nat.lt_of_le_of_lt hle hsmall) (fun hset => IsSet.erase (c.self hset) name)
        fun t'' C' hC' _ => hQ _ t'' C' hC'

theorem readOnly_readCount (isHash : Bool) (k : Bytes) : ReadOnly (readCount isHash k) := by
  refine (readOnly_get k).bind fun item => ?_
  cases item with
  | none => exact readOnly_pure _
  | some item =>
    dsimp only
    split
    · exact readOnly_fail _
    · refine (readOnly_ofExcept _).bind fun val => ?_
      split <;> exact readOnly_pure _

/-- A changed collection keeps its place. -/
theorem Became.drawsFresh {C' : Catalog Collection} {Pc : Place × Collection}
    (hbecame : Became C C' k isHash items) (hk : C k = some Pc) (hfresh : DrawsFresh C A) :
    DrawsFresh C' A := by
  intro x hx k' Pc' hk'
  by_cases hkk : k' = k
  · subst hkk
    have hplace := hbecame.place Pc'.1 Pc'.2 hk' Pc hk
    rw [← hplace]
    exact hfresh x hx k' Pc hk
  · exact hfresh x hx k' Pc' (hbecame.others k' hkk ▸ hk')

theorem wp_smove {src dst : Bytes} (h : Stored layout t.view C) (hdb : db < 2 ^ 31)
    (hsrc : IsPublic src) (hdst : dst = publicKey db name) (hfresh : DrawsFresh C A)
    (hsmall : (itemsAt C dst).size + 1 < 2 ^ 32)
    (hQ : ∀ reply t' C', Stored layout t'.view C' → Q reply t') :
    wp A (Set.smove src dst member) Q (fun _ _ => True) t := by
  unfold Set.smove
  by_cases hsame : src = dst
  · rw [if_pos hsame]
    refine wp_of_readOnly ((readOnly_readCount false src).bind fun count => ?_)
      (fun a t' hview => hQ a t' C (hview ▸ h)) fun _ _ _ => trivial
    cases count with
    | none => exact readOnly_pure _
    | some count =>
      exact (readOnly_resolvePrefix _ _).bind fun _ => (readOnly_get _).bind fun _ =>
        readOnly_pure _
  rw [if_neg hsame, Prog.bind_eq, wp_bind, setCount_eq]
  cases hk : C src with
  | none => exact wp_readCount_none h hsrc hk (hQ _ _ C h)
  | some Pc =>
    obtain ⟨P, c⟩ := Pc
    refine wp_readCount_some h hk fun htype => ?_
    rw [wp_seq]
    refine wp_resolvePrefix_stored h hk ?_
    rw [wp_seq]
    have hreg := region_of_stored h hk
    refine Region.wp_get (t := (t.noteRead _).noteRead _) hreg ?_
    cases hv : c.items[member]? with
    | none => exact hQ _ _ C h
    | some value =>
      have hle := size_eraseAll_le [member] c.items
      dsimp only [Option.map_some]
      rw [wp_seq, wp_delete, Prog.bind_eq, wp_bind, setWriteCount_eq,
        ← ofNat_size_erase hv, ← htype]
      refine wp_writeCount h hk (Region.del hreg member) (AtPlace.del (AtPlace.refl P t.view) _)
        (Nat.lt_of_le_of_lt hle c.small) (fun hset => IsSet.erase (c.self hset) member)
        fun t₁ C₁ hC₁ hbecame => ?_
      -- the source has lost the member; now the destination gets it
      have hdst₁ : C₁ dst = C dst := hbecame.others dst (Ne.symm hsame)
      have hitems : itemsAt C₁ dst = itemsAt C dst := by simp only [itemsAt, hdst₁]
      rw [← hitems] at hsmall
      rw [wp_seq]
      refine wp_ready false hC₁ hdb hdst (hbecame.drawsFresh hk hfresh) fun P' howns hP' => ?_
      rw [wp_seq]
      rcases hP' with hother | hready
      · obtain ⟨⟨P'', c'⟩, hPc, htype'⟩ := hother
        obtain rfl : P'' = P' := howns.own _ hPc
        refine Region.wp_get (t := t₁.noteRead _) (region_of_stored hC₁ hPc) ?_
        cases hv' : c'.items[member]? with
        | some v => exact hQ _ _ C₁ hC₁
        | none =>
          dsimp only [Option.map_none]
          rw [wp_seq, wp_set]
          intro x _
          rw [wp_seq, setCount_eq]
          refine IsOther.wp_readCount ⟨_, hPc, htype'⟩ hC₁ ?_ _
          exact (Txn.view_put _ _ _ _).trans (if_neg (howns.cell_ne _).symm)
      · refine Region.wp_get (t := t₁.noteRead _) hready.region ?_
        cases hv' : (itemsAt C₁ dst)[member]? with
        | some v => exact hQ _ _ C₁ hC₁
        | none =>
          have hreg' := Region.put hready.region member member
          have hat' := AtPlace.put (t := (t₁.noteRead (isKey dst)).noteRead
            (isKey (P'.bytes ++ 0 :: member))) (AtPlace.refl P' t₁.view) (0 :: member)
            (itemRow false member)
          have hsize := (size_insert_le (itemsAt C₁ dst) member member).2
          dsimp only [Option.map_none]
          rw [wp_seq, wp_set]
          intro x _
          rw [wp_seq, setCount_eq]
          refine hready.wp_readCount (hready.key_eq hat') fun n hn => ?_
          rw [hn, ← ofNat_size_insert hv' member, Prog.bind_eq, wp_bind, setWriteSentinel_eq]
          exact wp_write hC₁ howns hready.slot hreg' hat'
            (size_insert_pos _ _ _) (by omega) (fun _ => (hready.isSet rfl).insert member)
            fun t' C' hC' _ => hQ _ t' C' hC'

/-! ## Storing a result -/

/-- The destination is emptied. -/
theorem wp_clearSet {Q : Post Unit} (h : Stored layout t.view C) (hpub : IsPublic k)
    (hQ : ∀ t', Stored layout t'.view (Function.update C k none) → Q () t') :
    wp A (Set.clearSet k (privateKey k)) Q E t := by
  unfold Set.clearSet
  simp only [Prog.bind_eq, wp_bind]
  cases hk : C k with
  | none =>
    -- a key that is not there: nothing is under its name-derived prefix
    refine wp_resolvePrefix_none (h.absent hpub hk) ?_
    refine wp_scanDelete (fun _ _ => h.lasting) fun t' ht' => hQ _ ?_
    have hview : (t'.del k).view = t.view := by
      refine Std.ExtTreeMap.ext_getElem? fun x => ?_
      rw [Txn.view_del, ht']
      split
      · rename_i heq
        rw [heq, h.absent hpub hk]
      · split
        · rename_i hp
          obtain ⟨r, rfl⟩ := List.isPrefixOf_iff_prefix.mp hp
          rw [Set.membersPrefix, List.append_assoc]
          exact (h.legacy_empty k _).symm
        · rfl
    rw [hview, ← hk, Function.update_eq_self]
    exact h
  | some Pc =>
    obtain ⟨P, c⟩ := Pc
    refine wp_resolvePrefix_stored h hk ?_
    refine wp_scanDelete (fun _ _ => h.lasting) fun t' ht' => hQ _ ?_
    refine h.cleared hk ⟨fun suffix => ?_, fun x hx => ?_⟩
    · rw [ht']
      split
      · rfl
      · rename_i hp
        refine (h.cells hk suffix).trans ?_
        show cellsOf c.isHash c.items suffix = none
        unfold cellsOf
        split
        · refine absurd (List.isPrefixOf_iff_prefix.mpr ?_) hp
          exact (List.prefix_append_right_inj _).mpr ⟨_, rfl⟩
        · rfl
    · rw [ht', if_neg fun hp => hx ?_]
      · rfl
      · exact (List.prefix_append _ _).trans (List.isPrefixOf_iff_prefix.mp hp)

theorem wp_setAllMembers {Q : Post Unit}
    (hreg : Region t.view P false items) (hat : AtPlace P s t.view)
    (hQ : ∀ t', Region t'.view P false (insertAll (members.map fun m => (m, m)) items) →
      AtPlace P s t'.view → Q () t') :
    wp A (setAll (members.map fun m => Set.memberEntry (Set.internalMemberKey P.bytes m) m)) Q E
      t := by
  induction members generalizing t items with
  | nil => exact hQ t hreg hat
  | cons member members ih =>
    rw [List.map_cons]
    unfold setAll
    rw [wp_seq, wp_set]
    intro x _
    exact ih (hreg.put member member) (hat.put _ _) hQ

theorem IsSet.insertAll (h : IsSet items) (members : List Bytes) :
    IsSet (insertAll (members.map fun m => (m, m)) items) := by
  induction members generalizing items with
  | nil => exact h
  | cons member members ih => exact ih (h.insert member)

theorem wp_storeSetResult {Q : Post Int} (h : Stored layout t.view C) (hdb : db < 2 ^ 31)
    (hk : k = publicKey db name) (hfresh : DrawsFresh C A) (hnodup : members.Nodup)
    (hne : members ≠ []) (hsmall : members.length < 2 ^ 32)
    (hQ : ∀ reply t' C', Stored layout t'.view C' → Q reply t') :
    wp A (Set.storeSetResult k (privateKey k) members) Q (fun _ _ => True) t := by
  unfold Set.storeSetResult
  rw [wp_seq]
  refine wp_clearSet h ⟨db, name, hk⟩ fun t₁ ht₁ => ?_
  have hCk : Function.update C k none k = none := Function.update_self ..
  rw [wp_seq]
  refine wp_newNamespace_stored ht₁ hdb hk hCk (hfresh.erase k) (fun P howns hslot hempty => ?_)
    fun _ _ _ => trivial
  have hkeys : ((members.map fun m => (m, m)).map (·.1)).Nodup := by
    rw [List.map_map]
    exact hnodup.map fun _ _ heq => heq
  have hsize := size_insertAll hkeys (∅ : Items) fun m _ => by simp
  rw [Std.ExtTreeMap.size_empty, Nat.zero_add, List.length_map] at hsize
  have hpos : 0 < members.length := List.length_pos_iff.mpr hne
  rw [wp_seq]
  refine wp_setAllMembers (region_of_empty hempty) (AtPlace.refl P t₁.view) fun t₂ hreg hat => ?_
  rw [wp_seq, ← hsize, setWriteSentinel_eq]
  exact wp_write ht₁ howns hslot hreg hat (by omega) (by omega)
    (fun _ => isSet_empty.insertAll members)
    fun t' C' hC' _ => hQ _ t' C' hC'

/-! ## Reading several sets -/

theorem readOnly_memberValues (nodePrefix : Bytes) : ReadOnly (Set.memberValues nodePrefix) :=
  (readOnly_scan _).bind fun _ => readOnly_pure _

/-- Members are listed once. -/
theorem wp_loadSetMembers (k nodePrefix : Bytes) :
    wp A (Set.loadSetMembers k nodePrefix) (fun ms t' => ms.Nodup ∧ t'.view = t.view)
      (fun _ _ => True) t := by
  unfold Set.loadSetMembers
  rw [wp_seq, setCount_eq]
  refine wp_of_readOnly (readOnly_readCount false k) (fun n t₁ h₁ => ?_) fun _ _ _ => trivial
  cases n with
  | none => exact ⟨List.nodup_nil, h₁⟩
  | some n =>
    rw [wp_seq]
    refine wp_of_readOnly (readOnly_resolvePrefix _ _) (fun p t₂ h₂ => ?_) fun _ _ _ => trivial
    rw [wp_seq]
    refine wp_of_readOnly (readOnly_memberValues _) (fun vs t₃ h₃ => ?_) fun _ _ _ => trivial
    exact ⟨List.nodup_dedup _, h₃.trans (h₂.trans h₁)⟩

theorem nodup_combine {ms' : List Bytes} (h : ms.Nodup) (h' : ms'.Nodup)
    (kind : Set.BinarySetOpKind) : (kind.combine ms ms').Nodup := by
  cases kind with
  | diff => exact h.filter _
  | inter => exact h.filter _
  | union =>
    refine h.append (h'.filter _) fun m hm hm' => ?_
    rw [List.mem_filter, decide_eq_true_eq] at hm'
    exact hm'.2 hm

section Combine

variable {view : Store} {keys : List Bytes} {kind : Set.BinarySetOpKind}
  (hload : ∀ key ∈ keys, ∀ t, t.view = view →
    wp A (Set.loadSetMembers key (privateKey key)) (fun ms t' => ms.Nodup ∧ t'.view = view) E t)

include hload

/-- The members of one key after the other are loaded from the same rows. -/
theorem wp_combineRest (h : ms.Nodup) (ht : t.view = view) :
    wp A (Set.combineRest kind keys ms) (fun ms t' => ms.Nodup ∧ t'.view = view) E t := by
  induction keys generalizing ms t with
  | nil => exact ⟨h, ht⟩
  | cons key keys ih =>
    rw [List.forall_mem_cons] at hload
    unfold Set.combineRest
    rw [wp_seq]
    refine wp_post (hload.1 t ht) fun ms' t' hms' => ?_
    exact ih hload.2 (nodup_combine h hms'.1 kind) hms'.2

theorem wp_combineSets (ht : t.view = view) :
    wp A (Set.combineSets kind keys) (fun ms t' => ms.Nodup ∧ t'.view = view) E t := by
  cases keys with
  | nil => exact ⟨List.nodup_nil, ht⟩
  | cons key keys =>
    rw [List.forall_mem_cons] at hload
    unfold Set.combineSets
    rw [wp_seq]
    refine wp_post (hload.1 t ht) fun ms t' hms => ?_
    exact wp_combineRest hload.2 hms.1 hms.2

end Combine

end Invar.Collections
