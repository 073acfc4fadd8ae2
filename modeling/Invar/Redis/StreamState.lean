import Invar.Common.Sentinel
import Invar.Lib.StoreRows
import Invar.Redis.StreamOps
import Invar.Redis.StreamReads

/-!
# Streams as sentinel and list of ids

What the commands on one stream do to its sentinel and to the ids of its entries, as
functions on these two, and that the commands do this to the rows of the store.
-/

namespace Invar.Stream

open StoreProg TxProg StreamEntryId

/-! ## The order of ids -/

variable {a b c id min : StreamEntryId} {n : Nat} {ids ids' todo : List StreamEntryId}
  {t' : Txn Bytes Row} {s : Store} {maxLen : Option Nat} {minId : Option StreamEntryId}
  {Q : Post (Option StreamMeta)}

theorem lt_trans (hab : a.lt b = true) (hbc : b.lt c = true) : a.lt c = true := by
  rw [lt_iff] at *
  omega

theorem lt_irrefl (a : StreamEntryId) : a.lt a = false := by
  simp [StreamEntryId.lt]

/-- The order of ids that allows equality. -/
def StreamEntryId.le (a b : StreamEntryId) : Prop := b.lt a = false

instance (a b : StreamEntryId) : Decidable (a.le b) := inferInstanceAs (Decidable (_ = _))

theorem le_iff : a.le b ↔ a.ms < b.ms ∨ a.ms = b.ms ∧ a.seq ≤ b.seq := by
  simp only [StreamEntryId.le, ← Bool.not_eq_true, lt_iff]
  omega

theorem le_refl (a : StreamEntryId) : a.le a := lt_irrefl a

theorem le_trans (hab : a.le b) (hbc : b.le c) : a.le c := by
  rw [le_iff] at *
  omega

theorem le_of_lt (h : a.lt b = true) : a.le b := by
  rw [le_iff]
  rw [lt_iff] at h
  omega

theorem lt_of_le_of_lt (hab : a.le b) (hbc : b.lt c = true) : a.lt c = true := by
  rw [le_iff] at hab
  rw [lt_iff] at *
  omega

theorem entryKey_inj {nodePrefix : Bytes} {version : Nat} (ha : a.IsU64)
    (hb : b.IsU64) (h : entryKey nodePrefix version a = entryKey nodePrefix version b) : a = b := by
  have hcmp := compare_keyPart ha hb
  have hself : compare b.keyPart b.keyPart = .eq := Std.ReflCmp.compare_self
  rw [List.append_cancel_left h, hself, eq_comm, Ordering.then_eq_eq, Nat.compare_eq_eq,
    Nat.compare_eq_eq] at hcmp
  cases a
  cases b
  simpa using hcmp

/-! ## The id in an entry key -/

theorem isAsciiDigit_of_mem_pad {b : UInt8} (h : b ∈ pad n) : isAsciiDigit b = true := by
  obtain ⟨d, hd, rfl⟩ := FixedDigits.mem_digits (by decide) h
  exact isAsciiDigit_ofNat hd

theorem digitsValue_digits (width n : Nat) :
    digitsValue (FixedDigits.digits 10 (fun d => UInt8.ofNat (48 + d)) width n) =
      n % 10 ^ width := by
  induction width generalizing n with
  | zero => simp [FixedDigits.digits, digitsValue, Nat.mod_one]
  | succ width ih =>
    have ih := ih (n / 10)
    rw [digitsValue] at ih
    rw [FixedDigits.digits, digitsValue, List.foldl_append, ih, List.foldl_cons, List.foldl_nil,
      digit_toNat (Nat.mod_lt _ (by decide)), Nat.pow_succ, Nat.mul_comm (10 ^ width),
      Nat.mod_mul]
    omega

theorem digitsValue_dropWhile (ds : Bytes) :
    digitsValue (ds.dropWhile (· = 48)) = digitsValue ds := by
  induction ds with
  | nil => rfl
  | cons d ds ih =>
    rw [List.dropWhile_cons]
    split
    · rename_i h
      rw [ih, of_decide_eq_true h]
      rfl
    · rfl

theorem unpad_pad (h : n < 2 ^ 64) : unpad (pad n) = n := by
  have hvalue : digitsValue ((pad n).dropWhile (· = 48)) = n := by
    rw [digitsValue_dropWhile, pad, digitsValue_digits]
    exact Nat.mod_eq_of_lt (Nat.lt_trans h (by decide))
  have hdigit : ∀ b ∈ (pad n).dropWhile (· = 48), isAsciiDigit b = true := fun b hb =>
    isAsciiDigit_of_mem_pad ((List.dropWhile_sublist _).subset hb)
  unfold unpad parseU64 parseUnsigned
  generalize hds : (pad n).dropWhile (· = 48) = ds at *
  cases ds with
  | nil => exact hvalue
  | cons d ds =>
    have hplus : (d :: ds).head? ≠ some 43 := by
      intro h
      have := hdigit d (by simp)
      simp only [List.head?_cons, Option.some.injEq] at h
      rw [h] at this
      cases this
    rw [digitsValue] at hvalue
    simp only [hplus, if_false, List.isEmpty_cons, List.all_eq_true.mpr hdigit, hvalue,
      Bool.not_true, Bool.or_self, Bool.false_eq_true, show n ≤ 2 ^ 64 - 1 by omega, if_true,
      Option.getD_some]

theorem entryIdFromKey_entryKey {nodePrefix : Bytes} {version : Nat} (h : id.IsU64) :
    entryIdFromKey (entryKey nodePrefix version id) (entryPrefix nodePrefix version).length =
      some id := by
  have hdash : (45 : UInt8) ∉ pad id.ms := fun hmem => by
    have := isAsciiDigit_of_mem_pad hmem
    cases this
  have hidx : (pad id.ms ++ 45 :: pad id.seq).idxOf 45 = (pad id.ms).length := by
    rw [List.idxOf_append_of_notMem hdash, List.idxOf_cons_self, Nat.add_zero]
  unfold entryIdFromKey entryKey
  rw [List.drop_left, keyPart]
  simp only [hidx, List.mem_append, List.mem_cons, true_or, or_true, if_true, List.take_left]
  rw [List.drop_append, List.drop_of_length_le (by omega)]
  simp [unpad_pad h.1, unpad_pad h.2]

/-! ## Sentinel and ids -/

/-- The numbers as eight bytes hold them. -/
def StreamMeta.wrapped (m : StreamMeta) : StreamMeta :=
  let wrap (id : StreamEntryId) : StreamEntryId := ⟨id.ms % 2 ^ 64, id.seq % 2 ^ 64⟩
  ⟨m.version % 2 ^ 64, m.count % 2 ^ 64, wrap m.lastId, wrap m.firstId, wrap m.maxDeletedId,
    m.entriesAdded % 2 ^ 64⟩

theorem field_flatMap {ns : List Nat} {i : Nat} (hi : i < ns.length) :
    StreamMeta.field (ns.flatMap (beBytes 8)) i = ns.getD i 0 % 2 ^ 64 := by
  induction ns generalizing i with
  | nil => cases hi
  | cons n ns ih =>
    cases i with
    | zero =>
      simp only [StreamMeta.field, List.flatMap_cons, Nat.mul_zero, List.drop_zero,
        List.take_append_of_le_length (Nat.le_of_eq (length_beBytes 8 n).symm)]
      rw [List.take_of_length_le (by simp), ofBeBytes_beBytes]
      rfl
    | succ i =>
      have ih := ih (Nat.lt_of_succ_lt_succ hi)
      rw [StreamMeta.field] at ih ⊢
      rw [List.flatMap_cons, List.drop_append, List.drop_of_length_le (by simp),
        length_beBytes, List.nil_append, show 8 * (i + 1) - 8 = 8 * i by omega, ih]
      rfl

theorem decode_encode (m : StreamMeta) : StreamMeta.decode m.encode = some m.wrapped := by
  have hlen : m.encode.length = StreamMeta.sentinelSize := by
    simp [StreamMeta.encode, StreamMeta.sentinelSize]
  unfold StreamMeta.decode
  rw [hlen, if_neg (Nat.lt_irrefl _)]
  simp [StreamMeta.encode, field_flatMap, StreamMeta.wrapped, List.getD, -List.flatMap_cons]

/-- A stream: its sentinel, and the ids of its entries in order. -/
structure State where
  info : StreamMeta
  ids : List StreamEntryId
deriving DecidableEq, Repr

namespace State

def new : State := ⟨StreamMeta.new, []⟩

/-- The sentinel as it is after it was written. -/
def saved (st : State) : State := { st with info := st.info.wrapped }

/-- `XADD` of an entry, in front of the later ones. -/
def add (st : State) (id : StreamEntryId) : State :=
  ⟨st.info.withEntry id,
    st.ids.filter (·.lt id) ++ id :: st.ids.filter (id.lt ·)⟩

/-- `XDEL`. -/
def del (st : State) : List StreamEntryId → State
  | [] => st
  | id :: rest =>
    if id ∈ st.ids then del ⟨st.info.withoutEntry id, st.ids.filter (· ≠ id)⟩ rest
    else del st rest

def trimMaxLen (st : State) (limit : Nat) : State :=
  let kept := st.ids.drop (st.info.count - limit)
  ⟨{ st.info with
      count := st.info.count - (st.info.count - limit)
      firstId := kept.head?.getD st.info.firstId }.emptied, kept⟩

def trimMinId (st : State) (min : StreamEntryId) : State :=
  let removed := (st.ids.filter (·.lt min)).length
  let m : StreamMeta := { st.info with count := st.info.count - removed }
  let m := if m.count = 0 then m.emptied
    else if 0 < removed then { m with firstId := min } else m
  ⟨if m.maxDeletedId.lt min then { m with maxDeletedId := min } else m,
    st.ids.filter fun id => !id.lt min⟩

def trim (st : State) (maxLen : Option Nat) (minId : Option StreamEntryId) : State :=
  if st.info.count = 0 then st
  else
    match maxLen with
    | some limit => if st.info.count ≤ limit then st else trimFrom (st.trimMaxLen limit)
    | none => trimFrom st
where
  trimFrom (st : State) : State :=
    match minId with
    | some min => if st.info.count = 0 then st else st.trimMinId min
    | none => st

/-- The state after an `XADD` that was given `id`. -/
def xadd (st : State) (maxLen : Option Nat) (minId : Option StreamEntryId) (id : StreamEntryId) :
    State := ((st.add id).trim maxLen minId).saved

def xdel (st : State) (todo : List StreamEntryId) : State :=
  saved { st.del todo with info := (st.del todo).info.emptied }

def xtrim (st : State) (maxLen : Option Nat) (minId : Option StreamEntryId) : State :=
  (st.trim maxLen minId).saved

def xsetid (st : State) (lastId : StreamEntryId) : State :=
  saved { st with info := { st.info with lastId } }

end State

/-! ## The rows of a stream -/

/-- The entries under a prefix are those with the ids. -/
structure Entries (s : Store) (nodePrefix : Bytes) (version : Nat) (ids : List StreamEntryId) :
    Prop where
  u64 : ∀ id ∈ ids, id.IsU64
  keys : keysOf s (entryPrefix nodePrefix version).isPrefixOf = ids.map
    (entryKey nodePrefix version)
  lasting : ∀ k row, (entryPrefix nodePrefix version).isPrefixOf k = true → s[k]? = some row →
    row.expireTs = none

/-- The store has the stream under the key. -/
structure Holds (s : Store) (k : Bytes) (p : ElementPrefix) (st : State) : Prop where
  sentinel : ∃ row data, s[k]? = some row ∧ row.expireTs = none ∧
    row.IsSentinel (privateKey k) .stream p data ∧ StreamMeta.decode data = some st.info
  version_eq : st.info.version = 1
  apart : (entryPrefix p.bytes 1).isPrefixOf k = false
  entries : Entries s p.bytes 1 st.ids

namespace Entries

variable {s' : Store} {nodePrefix : Bytes} {version : Nat}

theorem isPrefixOf_entryKey (nodePrefix : Bytes) (version : Nat) (id : StreamEntryId) :
    (entryPrefix nodePrefix version).isPrefixOf (entryKey nodePrefix version id) = true := by
  simp [entryKey]

theorem sorted (h : Entries s nodePrefix version ids) : ids.Pairwise fun a b => a.lt b = true := by
  have hkeys := sorted_keysOf s (entryPrefix nodePrefix version).isPrefixOf
  rw [h.keys, List.pairwise_map] at hkeys
  exact hkeys.imp_of_mem fun ha hb => (compare_entryKey (h.u64 _ ha) (h.u64 _ hb)).mp

theorem mem_iff (h : Entries s nodePrefix version ids) (hid : id.IsU64) :
    id ∈ ids ↔ s[entryKey nodePrefix version id]?.isSome = true := by
  have hkey := mem_keysOf (s := s) (p := (entryPrefix nodePrefix version).isPrefixOf)
    (k := entryKey nodePrefix version id)
  rw [h.keys, isPrefixOf_entryKey] at hkey
  simp only [and_true, List.mem_map] at hkey
  rw [← hkey]
  refine ⟨fun hmem => ⟨id, hmem, rfl⟩, fun ⟨id', hmem, heq⟩ => ?_⟩
  rwa [entryKey_inj (h.u64 _ hmem) hid heq] at hmem

/-- Entries from the rows one by one. -/
theorem of_rows (hu64 : ∀ id ∈ ids, id.IsU64) (hsorted : ids.Pairwise fun a b => a.lt b = true)
    (hrows : ∀ k, (entryPrefix nodePrefix version).isPrefixOf k = true →
      (s[k]?.isSome = true ↔ k ∈ ids.map (entryKey nodePrefix version)))
    (hlasting : ∀ k row, (entryPrefix nodePrefix version).isPrefixOf k = true →
      s[k]? = some row → row.expireTs = none) : Entries s nodePrefix version ids where
  u64 := hu64
  keys := by
    refine keysOf_eq_of_sorted (List.pairwise_map.mpr (hsorted.imp_of_mem fun ha hb =>
      (compare_entryKey (hu64 _ ha) (hu64 _ hb)).mpr)) fun k => ?_
    constructor
    · intro hk
      obtain ⟨id, -, rfl⟩ := List.mem_map.mp hk
      exact ⟨(hrows _ (isPrefixOf_entryKey ..)).mpr hk, isPrefixOf_entryKey ..⟩
    · exact fun ⟨hsome, hp⟩ => (hrows k hp).mp hsome
  lasting := hlasting

/-- Rows elsewhere do not matter. -/
theorem congr (h : Entries s nodePrefix version ids)
    (hs : ∀ k, (entryPrefix nodePrefix version).isPrefixOf k = true → s'[k]? = s[k]?) :
    Entries s' nodePrefix version ids where
  u64 := h.u64
  keys := (keysOf_congr fun k hk => by rw [hs k hk]).trans h.keys
  lasting k row hk hrow := h.lasting k row hk (by rw [← hs k hk, hrow])

/-- One entry more, or the same one again. -/
theorem put (h : Entries s nodePrefix version ids) (hid : id.IsU64)
    {row : Row} (hrow : row.expireTs = none)
    (hs : ∀ k, s'[k]? = if k = entryKey nodePrefix version id then some row else s[k]?) :
    Entries s' nodePrefix version (ids.filter (·.lt id) ++ id :: ids.filter (id.lt ·)) := by
  have hmem : ∀ id' : StreamEntryId, id' ∈ ids.filter (·.lt id) ++ id :: ids.filter (id.lt ·) ↔
      id' = id ∨ id' ∈ ids := by
    intro id'
    simp only [List.mem_append, List.mem_filter, List.mem_cons]
    by_cases heq : id' = id
    · simp [heq]
    · have htotal : id'.lt id = true ∨ id.lt id' = true := by
        rw [lt_iff, lt_iff]
        by_contra hnot
        exact heq (by cases id; cases id'; simp at *; omega)
      rcases htotal with hlt | hlt
      · simp only [heq, hlt, and_true, false_or]
        exact ⟨fun hor => hor.elim (fun hin => hin) And.left, .inl⟩
      · simp only [heq, hlt, and_true, false_or]
        exact ⟨fun hor => hor.elim And.left fun hin => hin, .inr⟩
  refine of_rows (fun id' hid' => ?_) ?_ (fun k hk => ?_) fun k row' hk hrow' => ?_
  · rcases (hmem id').mp hid' with rfl | hin
    · exact hid
    · exact h.u64 _ hin
  · refine List.pairwise_append.mpr ⟨h.sorted.filter _, List.pairwise_cons.mpr
      ⟨fun b hb => (List.mem_filter.mp hb).2, h.sorted.filter _⟩, fun a ha b hb => ?_⟩
    have ha := (List.mem_filter.mp ha).2
    rcases List.mem_cons.mp hb with rfl | hb
    · exact ha
    · exact lt_trans ha (List.mem_filter.mp hb).2
  · rw [hs, List.mem_map]
    by_cases heq : k = entryKey nodePrefix version id
    · simp only [heq, if_true, Option.isSome_some, true_iff]
      exact ⟨id, (hmem id).mpr (.inl rfl), rfl⟩
    · have hkey := mem_keysOf (s := s) (p := (entryPrefix nodePrefix version).isPrefixOf) (k := k)
      rw [h.keys, hk, List.mem_map] at hkey
      simp only [heq, if_false, and_true] at hkey ⊢
      rw [← hkey]
      refine exists_congr fun id' => and_congr_left fun hk' => ?_
      rw [hmem]
      exact ⟨.inr, fun hor => hor.resolve_left fun hid' => heq (by rw [← hk', hid'])⟩
  · rw [hs] at hrow'
    split at hrow'
    · rw [← Option.some.inj hrow', hrow]
    · exact h.lasting k row' hk hrow'

/-- Some of the entries only. -/
theorem keep (h : Entries s nodePrefix version ids) (hsub : ids'.Sublist ids)
    (hs : ∀ k, (entryPrefix nodePrefix version).isPrefixOf k = true → s'[k]? =
      if k ∈ ids'.map (entryKey nodePrefix version) then s[k]? else none) :
    Entries s' nodePrefix version ids' := by
  refine of_rows (fun id hid => h.u64 id (hsub.subset hid)) (h.sorted.sublist hsub)
    (fun k hk => ?_) fun k row hk hrow => ?_
  · rw [hs k hk]
    split
    · rename_i hin
      obtain ⟨id, hid, rfl⟩ := List.mem_map.mp hin
      rw [← h.mem_iff (h.u64 id (hsub.subset hid))]
      exact ⟨fun _ => hin, fun _ => hsub.subset hid⟩
    · rename_i hout
      simp [hout]
  · rw [hs k hk] at hrow
    split at hrow
    · exact h.lasting k row hk hrow
    · cases hrow

/-- The entries that are left when some are deleted. -/
theorem remove (h : Entries s nodePrefix version ids) {gone : List StreamEntryId}
    (hperm : (gone ++ ids').Perm ids) (hsub : ids'.Sublist ids)
    (hs : ∀ k, s'[k]? = if k ∈ gone.map (entryKey nodePrefix version) then none else s[k]?) :
    Entries s' nodePrefix version ids' := by
  refine h.keep hsub fun k hk => ?_
  have hkey := mem_keysOf (s := s) (p := (entryPrefix nodePrefix version).isPrefixOf) (k := k)
  have hnodup := nodup_keysOf s (entryPrefix nodePrefix version).isPrefixOf
  rw [h.keys] at hkey hnodup
  rw [← (hperm.map (entryKey nodePrefix version)).mem_iff, List.map_append, List.mem_append, hk]
    at hkey
  rw [← (hperm.map (entryKey nodePrefix version)).nodup_iff, List.map_append,
    List.nodup_append] at hnodup
  rw [hs]
  by_cases hgone : k ∈ gone.map (entryKey nodePrefix version)
  · rw [if_pos hgone, if_neg fun hkept => hnodup.2.2 k hgone k hkept rfl]
  · simp only [hgone, false_or, and_true] at hkey
    rw [if_neg hgone]
    cases hrow : s[k]? with
    | none => simp
    | some row => rw [if_pos (hkey.mpr (by rw [hrow]; rfl))]

end Entries

/-! ## Trimming -/

variable {A : Tick → Prop} {E : Post DbError} {t : Txn Bytes Row}
  {k nodePrefix : Bytes} {p : ElementPrefix} {st : State} {version : Nat}

/-- The entries are those of the new state, and all else is as it was. -/
structure Reduced (t : Txn Bytes Row) (nodePrefix : Bytes) (version : Nat)
    (ids : List StreamEntryId) (t' : Txn Bytes Row) : Prop where
  entries : Entries t'.view nodePrefix version ids
  frame : ∀ k, (entryPrefix nodePrefix version).isPrefixOf k = false → t'.view[k]? = t.view[k]?

theorem Reduced.of_deleted (gone : List StreamEntryId)
    (h : Entries t.view nodePrefix version ids) (hperm : (gone ++ ids').Perm ids)
    (hsub : ids'.Sublist ids) (ht' : ∀ k, t'.view[k]? =
      if k ∈ gone.map (entryKey nodePrefix version) then none else t.view[k]?) :
    Reduced t nodePrefix version ids' t' := by
  refine ⟨h.remove hperm hsub ht', fun k hk => ?_⟩
  rw [ht', if_neg fun hmem => ?_]
  obtain ⟨id, -, rfl⟩ := List.mem_map.mp hmem
  rw [Entries.isPrefixOf_entryKey] at hk
  cases hk

theorem Reduced.trans {t'' : Txn Bytes Row}
    (h : Reduced t nodePrefix version ids t') (h' : Reduced t' nodePrefix version ids' t'') :
    Reduced t nodePrefix version ids' t'' :=
  ⟨h'.entries, fun k hk => (h'.frame k hk).trans (h.frame k hk)⟩

theorem findSome?_entryIdFromKey (h : ∀ id ∈ ids, id.IsU64) :
    (ids.map (entryKey nodePrefix version)).findSome?
      (entryIdFromKey · (entryPrefix nodePrefix version).length) = ids.head? := by
  cases ids with
  | nil => rfl
  | cons id ids => simp [entryIdFromKey_entryKey (h id (by simp))]

theorem wp_trimMaxLen {limit : Nat} (h : Entries t.view nodePrefix st.info.version st.ids) :
    wp A (trimMaxLen nodePrefix st.info limit) (fun m t' => m = (st.trimMaxLen limit).info ∧
        Reduced t nodePrefix st.info.version (st.trimMaxLen limit).ids t') E t := by
  unfold trimMaxLen scanUnder
  rw [wp_seq]
  refine wp_scan_lasting (fun k row hk hrow => Row.lastsFor_of_none (h.lasting k row hk hrow) A) ?_
  have hkeys := h.keys
  rw [keysOf] at hkeys
  rw [List.map_take, List.map_drop, hkeys, ← List.map_take, ← List.map_drop]
  dsimp only
  rw [findSome?_entryIdFromKey fun id hid => h.u64 id (List.mem_of_mem_drop hid)]
  rw [wp_seq]
  exact wp_deleteAll fun t' ht' => ⟨rfl, Reduced.of_deleted _ h
    (.of_eq (List.take_append_drop _ _)) (List.drop_sublist _ _) ht'⟩

theorem keysOf_before (h : Entries s nodePrefix version ids) (hmin : min.IsU64) :
    keysOf s (inRange (.included (entryPrefix nodePrefix version))
      (.excluded (entryKey nodePrefix version min))) =
        (ids.filter (·.lt min)).map (entryKey nodePrefix version) := by
  have hu64 : ∀ id ∈ ids.filter (·.lt min), id.IsU64 := fun id hid =>
    h.u64 id (List.mem_filter.mp hid).1
  refine keysOf_eq_of_sorted (List.pairwise_map.mpr ((h.sorted.filter _).imp_of_mem fun ha hb =>
    (compare_entryKey (hu64 _ ha) (hu64 _ hb)).mpr)) fun k => ?_
  simp only [inRange, Bool.and_eq_true, beq_iff_eq, List.mem_map, List.mem_filter]
  constructor
  · rintro ⟨id, ⟨hid, hlt⟩, rfl⟩
    exact ⟨(h.mem_iff (h.u64 id hid)).mp hid, FixedDigits.isLE_compare_append _ _,
      (compare_entryKey (h.u64 id hid) hmin).mpr hlt⟩
  · rintro ⟨hsome, hlo, hhi⟩
    have hp := List.isPrefixOf_iff_prefix.mpr (FixedDigits.prefix_of_between hlo hhi)
    have hkey := mem_keysOf.mpr ⟨hsome, hp⟩
    rw [h.keys] at hkey
    obtain ⟨id, hid, rfl⟩ := List.mem_map.mp hkey
    exact ⟨id, ⟨hid, (compare_entryKey (h.u64 id hid) hmin).mp hhi⟩, rfl⟩

theorem wp_trimMinId (h : Entries t.view nodePrefix st.info.version st.ids) (hmin : min.IsU64) :
    wp A (trimMinId nodePrefix st.info min) (fun m t' => m = (st.trimMinId min).info ∧
        Reduced t nodePrefix st.info.version (st.trimMinId min).ids t') E t := by
  have hkeys := keysOf_before h hmin
  unfold trimMinId
  rw [wp_seq]
  refine wp_scan_lasting (fun k row hk hrow => ?_) ?_
  · simp only [inRange, Bool.and_eq_true, beq_iff_eq] at hk
    have hp := FixedDigits.prefix_of_between hk.1 hk.2
    exact Row.lastsFor_of_none (h.lasting k row (List.isPrefixOf_iff_prefix.mpr hp) hrow) A
  · rw [← length_keysOf, hkeys, List.length_map]
    rw [keysOf] at hkeys
    rw [hkeys, Prog.bind_eq, wp_bind]
    exact wp_deleteAll fun t' ht' => ⟨rfl, Reduced.of_deleted _ h (List.filter_append_perm _ _)
      List.filter_sublist ht'⟩

theorem emptied_version (m : StreamMeta) : m.emptied.version = m.version := by
  unfold StreamMeta.emptied
  split <;> rfl

theorem wp_doTrim
    (h : Entries t.view nodePrefix st.info.version st.ids) (hmin : ∀ min ∈ minId, min.IsU64) :
    wp A (doTrim nodePrefix st.info maxLen minId) (fun m t' => m = (st.trim maxLen minId).info ∧
        Reduced t nodePrefix st.info.version (st.trim maxLen minId).ids t') E t := by
  have hfrom : ∀ {st : State} {t : Txn Bytes Row},
      Entries t.view nodePrefix st.info.version st.ids →
      wp A (doTrim.trimFrom nodePrefix minId st.info)
        (fun m t' => m = (State.trim.trimFrom minId st).info ∧
          Reduced t nodePrefix st.info.version (State.trim.trimFrom minId st).ids t') E t := by
    intro st t h
    unfold doTrim.trimFrom State.trim.trimFrom
    cases minId with
    | none => exact ⟨rfl, h, fun _ _ => rfl⟩
    | some min =>
      simp only
      split
      · exact ⟨rfl, h, fun _ _ => rfl⟩
      · exact wp_trimMinId h (hmin min rfl)
  unfold doTrim State.trim
  split
  · exact ⟨rfl, h, fun _ _ => rfl⟩
  · cases maxLen with
    | none => exact hfrom h
    | some limit =>
      simp only
      split
      · exact ⟨rfl, h, fun _ _ => rfl⟩
      · rw [wp_seq]
        refine wp_post (wp_trimMaxLen h) fun m t₁ htrim => ?_
        obtain ⟨hm, hred⟩ := htrim
        have hversion : (st.trimMaxLen limit).info.version = st.info.version := emptied_version _
        rw [hm]
        refine wp_post (hfrom (hversion ▸ hred.entries)) fun m' t₂ htrim' => ?_
        exact ⟨htrim'.1, hred.trans (hversion ▸ htrim'.2)⟩

/-! ## Deleting -/

/-- Deleting changes the count and the greatest deleted id only. -/
theorem State.del_info (st : State) (todo : List StreamEntryId) :
    ∃ count maxDeletedId, (st.del todo).info = { st.info with count, maxDeletedId } := by
  induction todo generalizing st with
  | nil => exact ⟨_, _, rfl⟩
  | cons id rest ih =>
    unfold State.del
    split
    · obtain ⟨count, maxDeletedId, hinfo⟩ := ih ⟨st.info.withoutEntry id, st.ids.filter (· ≠ id)⟩
      exact ⟨count, maxDeletedId, hinfo⟩
    · exact ih st

theorem wp_deleteEntries {deleted : Int}
    (h : Entries t.view p.bytes st.info.version st.ids) (htodo : ∀ id ∈ todo, id.IsU64) :
    wp A (deleteEntries p todo st.info deleted) (fun r t' => r.1 = (st.del todo).info ∧
        Reduced t p.bytes st.info.version (st.del todo).ids t') E t := by
  induction todo generalizing st deleted t with
  | nil => exact ⟨rfl, h, fun _ _ => rfl⟩
  | cons id rest ih =>
    have hid := htodo id (by simp)
    have hrest : ∀ id ∈ rest, id.IsU64 := fun id' hid' => htodo id' (by simp [hid'])
    unfold deleteEntries State.del
    rw [wp_seq]
    cases hrow : t.view[entryKey p.bytes st.info.version id]? with
    | none =>
      have hnot : id ∉ st.ids := fun hmem => by
        rw [h.mem_iff hid, hrow] at hmem
        cases hmem
      rw [if_neg hnot]
      refine wp_get_none hrow (wp_post (ih h hrest) ?_)
      exact fun r t' hred => ⟨hred.1, hred.2.entries, hred.2.frame⟩
    | some row =>
      have hmem : id ∈ st.ids := by
        rw [h.mem_iff hid, hrow]
        rfl
      have hlast := h.lasting _ row (Entries.isPrefixOf_entryKey ..) hrow
      rw [if_pos hmem]
      refine wp_get_some hrow (Row.lastsFor_of_none hlast A) ?_
      rw [wp_seq, wp_delete]
      have hred : Reduced t p.bytes st.info.version (st.ids.filter (· ≠ id))
          ((t.noteRead (isKey (entryKey p.bytes st.info.version id))).del
            (entryKey p.bytes st.info.version id)) := by
        refine Reduced.of_deleted (st.ids.filter (· = id)) h ?_ List.filter_sublist fun k => ?_
        · simpa using List.filter_append_perm (fun x => decide (x = id)) st.ids
        · rw [Txn.view_del]
          refine if_congr ?_ rfl rfl
          simp only [List.mem_map, List.mem_filter, decide_eq_true_eq]
          constructor
          · exact fun hk => ⟨id, ⟨hmem, rfl⟩, hk.symm⟩
          · rintro ⟨_, ⟨_, heq⟩, hk⟩
            rw [← hk, heq]
      have hstep := fun d => @ih _ ⟨st.info.withoutEntry id, st.ids.filter (· ≠ id)⟩ d
        hred.entries hrest
      exact wp_post (hstep (deleted + 1)) fun r t' hred' => ⟨hred'.1, hred.trans hred'.2⟩

/-! ## Commands on a stream that is there -/

/-- Reading the sentinel. -/
theorem wp_readSentinel_row {row : Row} {data : Bytes} (hrow : t.view[k]? = some row)
    (hlast : row.LastsFor A) (hsent : row.IsSentinel (privateKey k) .stream p data)
    (hQ : Q (StreamMeta.decode data) (t.noteRead (isKey k))) : wp A (readSentinel k) Q E t := by
  unfold readSentinel
  rw [wp_seq]
  refine wp_get_some hrow hlast ?_
  simp only [hsent.type_eq, hsent.content_eq, ne_eq, not_true_eq_false, if_false]
  exact hQ

theorem wp_readSentinel_some
    (h : Holds t.view k p st) (hQ : Q (some st.info) (t.noteRead (isKey k))) :
    wp A (readSentinel k) Q E t := by
  obtain ⟨row, data, hrow, hts, hsent, hdec⟩ := h.sentinel
  exact wp_readSentinel_row hrow (Row.lastsFor_of_none hts A) hsent (hdec.symm ▸ hQ)

theorem wp_readSentinel_hidden
    (h : Hidden A t.view k) (hQ : Q none (t.noteRead (isKey k))) : wp A (readSentinel k) Q E t := by
  unfold readSentinel
  rw [wp_seq]
  exact wp_get_hidden h hQ

theorem wp_readSentinel_none
    (h : t.view[k]? = none) (hQ : Q none (t.noteRead (isKey k))) : wp A (readSentinel k) Q E t :=
  wp_readSentinel_hidden (hidden_of_none h) hQ

theorem Holds.slot (h : Holds s k p st) : SentinelSlot s k p := by
  obtain ⟨row, data, hrow, hts, hsent, -⟩ := h.sentinel
  exact SentinelSlot.of_sentinel hrow hts hsent

/-- A sentinel that is written over the entries of a state. -/
theorem wp_writeSentinel (st : State) {Q : Post Unit} (hslot : SentinelSlot t.view k p)
    (hapart : (entryPrefix p.bytes 1).isPrefixOf k = false) (hversion : st.info.version = 1)
    (hentries : Entries t.view p.bytes 1 st.ids) (hQ : ∀ t', Holds t'.view k p st.saved → Q () t') :
    wp A (writeSentinel k st.info p) Q E t := by
  refine wp_writeSentinel_slot _ hslot (hQ _ ?_)
  refine ⟨⟨_, _, by rw [Txn.view_put, if_pos rfl], rfl, isSentinel_sentinelRow hslot.storable _ _ _,
    decode_encode _⟩, by simp [State.saved, StreamMeta.wrapped, hversion], hapart, ?_⟩
  refine hentries.congr fun k' hk' => ?_
  rw [Txn.view_put, if_neg fun heq => ?_]
  · rfl
  · rw [heq, hapart] at hk'
    cases hk'

theorem wp_xdel (h : Holds t.view k p st) (htodo : ∀ id ∈ todo, id.IsU64) :
    wp A (xdel k todo) (fun _ t' => Holds t'.view k p (st.xdel todo)) E t := by
  obtain ⟨row, data, hrow, hts, hsent, hdec⟩ := h.sentinel
  unfold xdel
  rw [wp_seq]
  refine wp_resolvePrefix_some hrow (Row.lastsFor_of_none hts A) hsent.place_eq ?_
  rw [wp_seq]
  refine wp_readSentinel_some h ?_
  rw [wp_seq]
  have hentries : Entries t.view p.bytes st.info.version st.ids := h.version_eq ▸ h.entries
  refine wp_post (wp_deleteEntries hentries htodo) fun r t₁ ⟨hm, hred⟩ => ?_
  rw [h.version_eq] at hred
  obtain ⟨m, deleted⟩ := r
  subst hm
  rw [wp_seq]
  refine wp_writeSentinel { st.del todo with info := (st.del todo).info.emptied }
    (h.slot.frame (hred.frame k h.apart)) h.apart ?_ hred.entries fun t' ht' => ht'
  obtain ⟨_, _, hinfo⟩ := st.del_info todo
  rw [emptied_version, hinfo, h.version_eq]

theorem State.trim_version (st : State) (maxLen : Option Nat) (minId : Option StreamEntryId) :
    (st.trim maxLen minId).info.version = st.info.version := by
  have hfrom : ∀ st : State, (State.trim.trimFrom minId st).info.version = st.info.version := by
    intro st
    unfold State.trim.trimFrom State.trimMinId
    simp only [StreamMeta.emptied]
    repeat' split
    all_goals rfl
  unfold State.trim
  split
  · rfl
  · split
    · split
      · rfl
      · rw [hfrom]
        exact emptied_version _
    · exact hfrom st

theorem wp_xtrim (h : Holds t.view k p st) (hmin : ∀ min ∈ minId, min.IsU64) :
    wp A (xtrim k maxLen minId) (fun _ t' => Holds t'.view k p (st.xtrim maxLen minId)) E t := by
  obtain ⟨row, data, hrow, hts, hsent, hdec⟩ := h.sentinel
  unfold xtrim
  rw [wp_seq]
  refine wp_resolvePrefix_some hrow (Row.lastsFor_of_none hts A) hsent.place_eq ?_
  rw [wp_seq]
  refine wp_readSentinel_some h ?_
  rw [wp_seq]
  have hentries : Entries t.view p.bytes st.info.version st.ids := h.version_eq ▸ h.entries
  refine wp_post (wp_doTrim hentries hmin) fun m t₁ ⟨hm, hred⟩ => ?_
  rw [h.version_eq] at hred
  subst hm
  rw [wp_seq]
  refine wp_writeSentinel (st.trim maxLen minId) (h.slot.frame (hred.frame k h.apart)) h.apart ?_
    hred.entries fun t' ht' => ht'
  rw [State.trim_version, h.version_eq]

theorem wp_xsetid_some {lastId : StreamEntryId} (h : Holds t.view k p st) :
    wp A (xsetid k lastId) (fun _ t' => Holds t'.view k p (st.xsetid lastId)) E t := by
  obtain ⟨row, data, hrow, hts, hsent, hdec⟩ := h.sentinel
  unfold xsetid
  rw [wp_seq]
  refine wp_resolvePrefixForWrite_some hrow (Row.lastsFor_of_none hts A) hsent.place_eq ?_
  rw [wp_seq]
  refine wp_readSentinel_some h ?_
  rw [wp_seq]
  exact wp_writeSentinel { st with info := { st.info with lastId } } h.slot h.apart h.version_eq
    h.entries fun t' ht' => ht'

/-! ## `XADD` -/

theorem nextId_isU64 {explicit : Option StreamEntryId} {last : StreamEntryId} {now : Int}
    (hexp : ∀ id ∈ explicit, id.IsU64) (hlast : last.IsU64) (hnow : now < 2 ^ 64)
    (h : nextId explicit last now = .ok id) : id.IsU64 := by
  unfold nextId at h
  split at h
  · repeat' split at h
    all_goals cases h
    exact hexp _ rfl
  · split at h
    · cases h
      exact ⟨by simp only; omega, by simp⟩
    · cases h
      exact ⟨hlast.1, Nat.mod_lt _ (by decide)⟩

/-- What `XADD` starts from: a stream, or a prefix without entries for a new one. -/
structure Ready (s : Store) (k : Bytes) (p : ElementPrefix) (st : State) : Prop where
  slot : SentinelSlot s k p
  version_eq : st.info.version = 1
  apart : (entryPrefix p.bytes 1).isPrefixOf k = false
  entries : Entries s p.bytes 1 st.ids

theorem Holds.ready (h : Holds s k p st) : Ready s k p st :=
  ⟨h.slot, h.version_eq, h.apart, h.entries⟩

/-- The part of `XADD` after the sentinel was found or made up. -/
theorem wp_append (op : XAddOp) (h : Ready t.view op.publicKey p st)
    (hlast : st.info.lastId.IsU64) (hexp : ∀ id ∈ op.explicitId, id.IsU64)
    (hmin : ∀ id ∈ op.minId, id.IsU64) (hA : ∀ x, A x → x.now < 2 ^ 64) :
    wp A (XAddOp.write.append op p st.info)
      (fun id t' => (∃ x, A x ∧ nextId op.explicitId st.info.lastId x.now = .ok id) ∧
        Holds t'.view op.publicKey p (st.xadd op.maxLen op.minId id)) (fun _ _ => True) t := by
  unfold XAddOp.write.append
  rw [wp_seq, wp_now]
  intro x hx
  rw [wp_seq, wp_ofExcept]
  refine ⟨fun id hid => ?_, fun _ _ => trivial⟩
  have hu64 := nextId_isU64 hexp hlast (hA x hx) hid
  split
  · trivial
  · rw [wp_seq, wp_set]
    intro y hy
    have hput : ∀ k', (t.put (entryKey p.bytes st.info.version id)
        (Entry.row { key := entryKey p.bytes st.info.version id
                     value := encodeEntryValue (pairUp op.fieldValues)
                     metadata := ValueType.stream.byte } y.now)).view[k']? = _ :=
      fun k' => Txn.view_put ..
    rw [h.version_eq] at hput ⊢
    have hentries := h.entries.put hu64 rfl hput
    have hkey : op.publicKey ≠ entryKey p.bytes 1 id := fun heq => by
      have := h.apart
      rw [heq, Entries.isPrefixOf_entryKey] at this
      cases this
    have hslot := h.slot.frame (by rw [hput, if_neg hkey])
    have hversion : (st.add id).info.version = 1 := h.version_eq
    rw [wp_seq]
    refine wp_writeSentinel (st.add id) hslot h.apart hversion hentries fun t₁ ht₁ => ?_
    split
    · rw [wp_seq]
      refine wp_post (wp_doTrim (hversion ▸ ht₁.entries) hmin) fun m t₂ htrim => ?_
      obtain ⟨hm, hred⟩ := htrim
      rw [hversion] at hred
      subst hm
      rw [wp_seq]
      refine wp_writeSentinel ((st.add id).trim op.maxLen op.minId)
        (ht₁.slot.frame (hred.frame _ h.apart)) h.apart ?_ hred.entries fun t' ht' =>
          ⟨⟨x, hx, hid⟩, ht'⟩
      rw [State.trim_version, hversion]
    · rename_i hnone
      refine ⟨⟨x, hx, hid⟩, ?_⟩
      have hsome : op.maxLen = none ∧ op.minId = none := by simpa using hnone
      rw [State.xadd, hsome.1, hsome.2, State.trim]
      simpa [State.trim.trimFrom] using ht₁

theorem entryPrefix_eq (nodePrefix : Bytes) (version : Nat) :
    entryPrefix nodePrefix version = nodePrefix ++ (0 :: decimal version ++ [58]) := by
  simp [entryPrefix]

/-- A fresh namespace is ready for a new stream. -/
theorem ready_fresh {db : Int} {name : Bytes} {rand : Nat}
    (habsent : s[publicKey db name]? = none) (hpos : 0 ≤ db) (hdb : db < 2 ^ 31)
    (hfresh : ∀ k, (namespaceOf db rand).isPrefixOf k = true → s[k]? = none) :
    Ready s (publicKey db name) (.recorded (namespaceOf db rand)) State.new := by
  have hnone : ∀ k, (entryPrefix (namespaceOf db rand) 1).isPrefixOf k = true → s[k]? = none := by
    intro k hk
    rw [entryPrefix_eq] at hk
    exact hfresh k (isPrefixOf_of_append hk)
  refine ⟨SentinelSlot.fresh habsent hpos hdb rand, rfl, ?_, Entries.of_rows nofun .nil
    (fun k hk => ?_) fun k row hk hrow => ?_⟩
  · rw [entryPrefix_eq]
    exact not_isPrefixOf_publicKey db rand _ db name
  · rw [hnone k hk]
    simp [State.new]
  · rw [hnone k hk] at hrow
    cases hrow

section New

variable {db : Int} {name : Bytes} (hdb : db < 2 ^ 31) (habsent : t.view[publicKey db name]? = none)
  (hfresh : ∀ x, A x → ∀ k, (namespaceOf db x.rand).isPrefixOf k = true → t.view[k]? = none)

include hdb habsent hfresh

theorem wp_write_none (op : XAddOp) (hkey : op.publicKey = publicKey db name)
    (hnode : op.nodePrefix = privateKey op.publicKey)
    (hexp : ∀ id ∈ op.explicitId, id.IsU64) (hmin : ∀ id ∈ op.minId, id.IsU64)
    (hA : ∀ x, A x → x.now < 2 ^ 64) : wp A op.write
      (fun id t' => (∃ x, A x ∧ nextId op.explicitId State.new.info.lastId x.now = .ok id) ∧
        ∃ p, Holds t'.view op.publicKey p (State.new.xadd op.maxLen op.minId id))
      (fun _ _ => True) t := by
  unfold XAddOp.write
  rw [wp_seq, hnode, hkey]
  refine wp_resolvePrefixForWrite_hidden (hidden_of_none habsent)
    (fun hpos x hx => ?_) fun _ => trivial
  rw [wp_seq]
  refine wp_readSentinel_none habsent ?_
  dsimp only
  split
  · trivial
  · have hready := ready_fresh habsent hpos hdb (hfresh x hx)
    rw [← hkey] at hready ⊢
    have hzero : State.new.info.lastId.IsU64 := ⟨by decide, by decide⟩
    rw [show StreamMeta.new = State.new.info from rfl]
    exact wp_post (wp_append op hready hzero hexp hmin hA)
      fun id t' hadded => ⟨hadded.1, _, hadded.2⟩

theorem wp_xsetid_none (lastId : StreamEntryId) : wp A (xsetid (publicKey db name) lastId)
      (fun _ t' => ∃ p, Holds t'.view (publicKey db name) p (State.new.xsetid lastId))
      (fun _ _ => True) t := by
  unfold xsetid
  rw [wp_seq]
  refine wp_resolvePrefixForWrite_hidden (hidden_of_none habsent)
    (fun hpos x hx => ?_) fun _ => trivial
  have hready := ready_fresh habsent hpos hdb (hfresh x hx)
  rw [wp_seq]
  refine wp_readSentinel_none habsent ?_
  rw [wp_seq]
  exact wp_writeSentinel { State.new with info := { State.new.info with lastId } } hready.slot
    hready.apart rfl hready.entries fun t' ht' => ⟨_, ht'⟩

end New

/-- Nothing to do without a stream. -/
theorem wp_xdel_none (habsent : t.view[k]? = none) :
    wp A (xdel k todo) (fun _ t' => t'.view = t.view) E t := by
  unfold xdel
  rw [wp_seq]
  refine wp_resolvePrefix_none habsent ?_
  rw [wp_seq]
  exact wp_readSentinel_none habsent rfl

theorem wp_xtrim_none (habsent : t.view[k]? = none) :
    wp A (xtrim k maxLen minId) (fun _ t' => t'.view = t.view) E t := by
  unfold xtrim
  rw [wp_seq]
  refine wp_resolvePrefix_none habsent ?_
  rw [wp_seq]
  exact wp_readSentinel_none habsent rfl

theorem wp_write_some (op : XAddOp) (hnode : op.nodePrefix = privateKey op.publicKey)
    (h : Holds t.view op.publicKey p st)
    (hlast : st.info.lastId.IsU64) (hexp : ∀ id ∈ op.explicitId, id.IsU64)
    (hmin : ∀ id ∈ op.minId, id.IsU64) (hA : ∀ x, A x → x.now < 2 ^ 64) : wp A op.write
      (fun id t' => (∃ x, A x ∧ nextId op.explicitId st.info.lastId x.now = .ok id) ∧
        Holds t'.view op.publicKey p (st.xadd op.maxLen op.minId id)) (fun _ _ => True) t := by
  obtain ⟨row, data, hrow, hts, hsent, hdec⟩ := h.sentinel
  unfold XAddOp.write
  rw [wp_seq, hnode]
  refine wp_resolvePrefixForWrite_some hrow (Row.lastsFor_of_none hts A) hsent.place_eq ?_
  rw [wp_seq]
  exact wp_readSentinel_some h (wp_append op h.ready hlast hexp hmin hA)

end Invar.Stream
