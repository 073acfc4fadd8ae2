import Invar.Kv.Logic
import Invar.Redis.Stream

/-!
# What a read of streams finds

The rows of a stream are in the order of their ids, so that the range that `XREAD`
scans from the id after the given one has every newer entry. A read that finds
nothing therefore shows that there was nothing to be found, then or later in the
same store.
-/

namespace Invar.Stream

open StoreProg TxProg StreamEntryId

def StreamEntryId.IsU64 (id : StreamEntryId) : Prop := id.ms < 2 ^ 64 ∧ id.seq < 2 ^ 64

/-- At `now` the store has an entry with this id in the stream. -/
def holdsEntry (s : Store) (now : Int) (stream : XReadStream) (e : StreamEntryId) : Bool :=
  match s[stream.publicKey]? with
  | none => false
  | some item =>
    !item.expired now && baseType item.metadata = ValueType.stream.byte &&
      match payload item, prefixOf item stream.nodePrefix with
      | .ok data, .ok p =>
        (StreamMeta.decode data).any fun m =>
          (s[entryKey p.bytes m.version e]?).any fun row => !row.expired now
      | _, _ => false

/-- An entry that a reader after `id` waits for; after `none`, any entry. -/
def HasNewer (s : Store) (now : Int) (stream : XReadStream) (id : Option StreamEntryId) : Prop :=
  ∃ e : StreamEntryId, e.IsU64 ∧ id.all (·.lt e) = true ∧ holdsEntry s now stream e = true

/-! ## The order of entry keys -/

theorem compare_digit {c d : Nat} (hc : c < 10) (hd : d < 10) :
    compare (UInt8.ofNat (48 + c)) (UInt8.ofNat (48 + d)) = compare c d := by
  have hall : ∀ c < 10, ∀ d < 10,
      compare (UInt8.ofNat (48 + c)) (UInt8.ofNat (48 + d)) = compare c d := by decide
  exact hall c hc d hd

theorem compare_pad {m n : Nat} (hm : m < 2 ^ 64) (hn : n < 2 ^ 64) :
    compare (pad m) (pad n) = compare m n := by
  have hfits : 2 ^ 64 < 10 ^ width := by decide
  exact FixedDigits.compare_digits (by omega) (fun c d => compare_digit) (by omega) (by omega)

variable {a b e : StreamEntryId}

/-- Keys compare as ids: by `ms`, then by `seq`. -/
theorem compare_keyPart (ha : a.IsU64) (hb : b.IsU64) :
    compare a.keyPart b.keyPart = (compare a.ms b.ms).then (compare a.seq b.seq) := by
  have hdash (x y : Bytes) : compare (45 :: x) (45 :: y) = compare x y :=
    FixedDigits.compare_append_left [45] x y
  rw [keyPart, keyPart, FixedDigits.compare_append_of_length (by simp [pad]), compare_pad ha.1 hb.1,
    hdash, compare_pad ha.2 hb.2]

variable {id : Option StreamEntryId} {nodePrefix publicKey : Bytes}
  {version : Nat} {now : Int} {s s' : Store} {stream : XReadStream}

theorem StreamEntryId.lt_iff :
    a.lt b = true ↔ a.ms < b.ms ∨ a.ms = b.ms ∧ a.seq < b.seq := by
  simp [StreamEntryId.lt]

theorem compare_entryKey (ha : a.IsU64) (hb : b.IsU64) :
    compare (entryKey nodePrefix version a) (entryKey nodePrefix version b) = .lt ↔
      a.lt b = true := by
  rw [entryKey, entryKey, FixedDigits.compare_append_left, compare_keyPart ha hb, lt_iff,
    Ordering.then_eq_lt, Nat.compare_eq_lt, Nat.compare_eq_eq, Nat.compare_eq_lt]

theorem isLE_entryKey (ha : a.IsU64) (hb : b.IsU64) :
    (compare (entryKey nodePrefix version a) (entryKey nodePrefix version b)).isLE = !b.lt a := by
  rw [Bool.eq_iff_iff, Ordering.isLE_iff_ne_gt, Std.OrientedCmp.gt_iff_lt,
    compare_entryKey hb ha, Bool.not_eq_true, Bool.not_eq_true']

theorem isU64_bumpSeq {id : StreamEntryId} (h : id.ms < 2 ^ 64) : (bumpSeq id).IsU64 := by
  unfold bumpSeq
  split
  · next hseq => exact ⟨h, Nat.add_lt_of_lt_sub hseq⟩
  · exact ⟨Nat.mod_lt _ (Nat.two_pow_pos 64), Nat.two_pow_pos 64⟩

/-- The next id is not above the ids after the id. -/
theorem not_lt_bumpSeq {id : StreamEntryId} (he : e.IsU64) (h : id.lt e = true) :
    e.lt (bumpSeq id) = false := by
  obtain ⟨hms, hseq⟩ := he
  rw [lt_iff] at h
  rw [← Bool.not_eq_true, lt_iff, bumpSeq]
  split
  · dsimp only
    omega
  · rw [Nat.mod_eq_of_lt (by omega)]
    dsimp only
    omega

/-! ## Reading one stream -/

theorem entryKey_inRange (he : e.IsU64) (h : id.all (·.lt e) = true) :
    inRange (rangeStartBound nodePrefix version (id.map bumpSeq))
      (rangeEndBound nodePrefix version none) (entryKey nodePrefix version e) = true := by
  cases id with
  | none =>
    simp only [inRange, Option.map_none, rangeStartBound, rangeEndBound, Bool.and_true]
    exact FixedDigits.isLE_compare_append (entryPrefix nodePrefix version) e.keyPart
  | some id =>
    have hms : id.ms < 2 ^ 64 := by
      have hlt := lt_iff.mp h
      obtain ⟨he, -⟩ := he
      omega
    simp only [inRange, Option.map_some, rangeStartBound, rangeEndBound, Bool.and_true]
    rw [isLE_entryKey (isU64_bumpSeq hms) he, not_lt_bumpSeq he h]
    rfl

theorem entryOfRow_isSome (nodePrefix : Bytes) (version : Nat) (e : StreamEntryId) (row : Row) :
    (entryOfRow (entryPrefix nodePrefix version).length
      (entryKey nodePrefix version e, row)).isSome = true := by
  have hdash : (45 : UInt8) ∈ e.keyPart := by simp [keyPart]
  simp [entryOfRow, entryIdFromKey, entryKey, hdash]

theorem Row.expired_mono {row : Row} {now' : Int} (hle : now ≤ now')
    (h : row.expired now' = false) : row.expired now = false := by
  unfold Row.expired at h ⊢
  cases hts : row.expireTs with
  | none => rfl
  | some ts =>
    simp only [hts, Option.any_some, decide_eq_false_iff_not] at h ⊢
    omega

variable {T : Int} {t : Txn Bytes Row}

/-- A scan that finds nothing: there is no such row. -/
theorem wp_scanEntries {count : Nat} :
    wp (fun x => x.now ≤ T) (scanEntries nodePrefix version (id.map bumpSeq) none count)
      (fun entries t' => t'.view = t.view ∧ (entries = [] → ∀ e : StreamEntryId, e.IsU64 →
        id.all (·.lt e) = true → ∀ row, t.view[entryKey nodePrefix version e]? = some row →
          ∀ now ≥ T, row.expired now = true)) (fun _ _ => True) t := by
  unfold scanEntries
  rw [wp_seq, wp_scan]
  intro x hx
  refine ⟨rfl, fun hempty e he hid row hrow now hnow => ?_⟩
  cases hexp : row.expired now with
  | true => rfl
  | false =>
    -- the row is among those that the iterator returns
    have hlive : row.expired x.now = false := Row.expired_mono (by omega) hexp
    have hmem : (entryKey nodePrefix version e, row) ∈
        (rowsOf t.view fun k => inRange (rangeStartBound nodePrefix version (id.map bumpSeq))
          (rangeEndBound nodePrefix version none) k &&
            (entryPrefix nodePrefix version).isPrefixOf k).filter
          fun kr => x.listsExpired || !kr.2.expired x.now := by
      refine List.mem_filter.mpr ⟨mem_rowsOf.mpr ⟨hrow, ?_⟩, by simp [hlive]⟩
      rw [entryKey_inRange he hid, Bool.true_and, entryKey]
      simp
    obtain ⟨entry, hentry⟩ :=
      Option.isSome_iff_exists.mp (entryOfRow_isSome nodePrefix version e row)
    have hfound := List.mem_filterMap.mpr ⟨_, hmem, hentry⟩
    rw [List.take_eq_nil_iff] at hempty
    rcases hempty with h | h
    · omega
    · rw [h] at hfound
      cases hfound

/-- A row that `get` does not return is past its expiry from then on. -/
theorem expired_from {item : Row} {x : Tick} (hx : x.now ≤ T) (h : item.expired x.now = true) :
    ∀ now ≥ T, item.expired now = true := by
  intro now hnow
  cases hlive : item.expired now with
  | true => rfl
  | false =>
    rw [Row.expired_mono (by omega) hlive] at h
    cases h

/-- A row that `get` does not return is past its expiry when the read is over. -/
theorem wp_get_until {k : Bytes} {Q : Post (Option Row)} {E : Post DbError}
    (hQ : ∀ o, (∀ item, t.view[k]? = some item → (∀ now ≥ T, item.expired now = true) ∨
      o = some item) → Q o (t.noteRead (isKey k))) : wp (fun x => x.now ≤ T) (get k) Q E t := by
  rw [wp_get]
  intro x hx
  refine hQ _ fun item hitem => ?_
  rw [hitem, Option.filter_some]
  cases hexp : item.expired x.now with
  | true => exact .inl (expired_from hx hexp)
  | false => exact .inr rfl

theorem wp_readSentinel : wp (fun x => x.now ≤ T) (readSentinel publicKey)
      (fun m t' => t'.view = t.view ∧ ∀ item data, t.view[publicKey]? = some item →
        payload item = .ok data → (∀ now ≥ T, item.expired now = true) ∨ StreamMeta.decode data = m)
      (fun _ _ => True) t := by
  unfold readSentinel
  rw [wp_seq]
  refine wp_get_until fun o hget => ?_
  cases o with
  | none => exact ⟨rfl, fun item data hitem _ => .inl ((hget item hitem).resolve_right nofun)⟩
  | some item =>
    dsimp only
    split
    · trivial
    · rw [wp_seq, wp_ofExcept]
      refine ⟨fun data hdata => ⟨rfl, fun item' data' hitem hdata' => ?_⟩, fun _ _ => trivial⟩
      refine (hget item' hitem).imp_right fun heq => ?_
      cases heq
      rw [hdata, Except.ok.injEq] at hdata'
      rw [hdata']

theorem wp_resolvePrefix {legacy : Bytes} : wp (fun x => x.now ≤ T) (resolvePrefix publicKey legacy)
      (fun p t' => t'.view = t.view ∧ ∀ item, t.view[publicKey]? = some item →
        (∀ now ≥ T, item.expired now = true) ∨ prefixOf item legacy = .ok p)
      (fun _ _ => True) t := by
  unfold resolvePrefix
  rw [wp_seq]
  refine wp_get_until fun o hget => ?_
  cases o with
  | none => exact ⟨rfl, fun item hitem => .inl ((hget item hitem).resolve_right nofun)⟩
  | some item =>
    rw [wp_ofExcept]
    refine ⟨fun p hp => ⟨rfl, fun item' hitem => ?_⟩, fun _ _ => trivial⟩
    refine (hget item' hitem).imp_right fun heq => ?_
    cases heq
    exact hp

/-- **A stream without entries to read has none that the reader waits for.** -/
theorem wp_readStream (stream : XReadStream) (id : Option StreamEntryId) (count : Nat) :
    wp (fun x => x.now ≤ T) (readStream stream id count) (fun entries t' => t'.view = t.view ∧
        (entries = [] → ∀ now ≥ T, ¬HasNewer t.view now stream id)) (fun _ _ => True) t := by
  unfold readStream
  rw [wp_seq]
  refine wp_post wp_readSentinel fun m t₁ hread => ?_
  obtain ⟨hview₁, hsentinel⟩ := hread
  cases m with
  | none =>
    refine ⟨hview₁, fun _ now hnow hnewer => ?_⟩
    obtain ⟨e, he, hid, hholds⟩ := hnewer
    unfold holdsEntry at hholds
    split at hholds
    · cases hholds
    · rename_i item hitem
      simp only [Bool.and_eq_true, Bool.not_eq_true'] at hholds
      obtain ⟨⟨hlive, -⟩, hrow⟩ := hholds
      split at hrow
      · rename_i data p hdata hp
        rcases hsentinel item data hitem hdata with hexp | hnone
        · rw [hexp now hnow] at hlive
          cases hlive
        · rw [hnone] at hrow
          cases hrow
      · cases hrow
  | some m =>
    rw [wp_seq]
    refine wp_post wp_resolvePrefix fun p t₂ hresolved => ?_
    obtain ⟨hview₂, hpre⟩ := hresolved
    refine wp_post wp_scanEntries fun entries t₃ hscanned => ?_
    obtain ⟨hview₃, hscan⟩ := hscanned
    rw [hview₂, hview₁] at hview₃ hscan
    rw [hview₁] at hpre
    refine ⟨hview₃, fun hempty now hnow hnewer => ?_⟩
    obtain ⟨e, he, hid, hholds⟩ := hnewer
    unfold holdsEntry at hholds
    split at hholds
    · cases hholds
    · rename_i item hitem
      simp only [Bool.and_eq_true, Bool.not_eq_true'] at hholds
      obtain ⟨⟨hlive, -⟩, hrow⟩ := hholds
      split at hrow
      · rename_i data p' hdata hp'
        have hm : StreamMeta.decode data = some m :=
          (hsentinel item data hitem hdata).resolve_left fun hexp => by simp
            [hexp now hnow] at hlive
        have hp : prefixOf item stream.nodePrefix = .ok p :=
          (hpre item hitem).resolve_left fun hexp => by simp [hexp now hnow] at hlive
        rw [hp, Except.ok.injEq] at hp'
        subst hp'
        simp only [hm, Option.any_some, Option.any_eq_true] at hrow
        obtain ⟨row, hget, hrow⟩ := hrow
        simp [hscan hempty e he hid row hget now hnow] at hrow
      · cases hrow

/-! ## Reading all streams -/

theorem wp_readStreams (count : Nat) (todo : List (XReadStream × Option StreamEntryId)) :
    wp (fun x => x.now ≤ T) (readStreams count todo)
      (fun found t' => t'.view = t.view ∧ (found.any (fun e => !e.2.isEmpty) = false →
        ∀ p ∈ todo, ∀ now ≥ T, ¬HasNewer t.view now p.1 p.2)) (fun _ _ => True) t := by
  induction todo generalizing t with
  | nil => exact ⟨rfl, by simp⟩
  | cons p rest ih =>
    unfold readStreams
    rw [wp_seq]
    refine wp_post (wp_readStream p.1 p.2 count) fun entries t₁ hread => ?_
    obtain ⟨hview₁, hnone⟩ := hread
    rw [wp_seq]
    refine wp_post ih fun found t₂ hfound => ?_
    obtain ⟨hview₂, hrest⟩ := hfound
    rw [hview₁] at hview₂ hrest
    refine ⟨hview₂, fun hempty => ?_⟩
    rw [List.any_cons, Bool.or_eq_false_iff, Bool.not_eq_false', List.isEmpty_iff] at hempty
    exact List.forall_mem_cons.mpr ⟨hnone hempty.1, hrest hempty.2⟩

theorem wp_resolveReadIds (todo : List (XReadStream × Option StreamEntryId)) :
    wp (fun x => x.now ≤ T) (resolveReadIds todo) (fun _ t' => t'.view = t.view)
      (fun _ _ => True) t := by
  induction todo generalizing t with
  | nil => rfl
  | cons p rest ih =>
    obtain ⟨stream, id⟩ := p
    cases id with
    | some id =>
      unfold resolveReadIds
      rw [wp_seq]
      exact ih
    | none =>
      unfold resolveReadIds
      rw [wp_seq]
      refine wp_post wp_readSentinel fun m t₁ hread => ?_
      have hview := hread.1
      rw [wp_seq]
      exact wp_post ih fun _ _ h => h.trans hview

/-! ## Changes of the store -/

/-- The stream has no entry in `s'` that it does not have in `s`. -/
def NoMore (s s' : Store) (stream : XReadStream) : Prop :=
  ∀ now e, holdsEntry s' now stream e = true → holdsEntry s now stream e = true

theorem NoMore.refl (s : Store) (stream : XReadStream) : NoMore s s stream := fun _ _ => id

theorem NoMore.trans {s'' : Store} (h : NoMore s s' stream)
    (h' : NoMore s' s'' stream) : NoMore s s'' stream := fun now e he => h now e (h' now e he)

theorem NoMore.not_hasNewer (h : NoMore s s' stream) (hs : ¬HasNewer s now stream id) :
    ¬HasNewer s' now stream id :=
  fun ⟨e, he, hid, hholds⟩ => hs ⟨e, he, hid, h now e hholds⟩

/-- Only the sentinel and rows under its prefix matter. -/
theorem noMore_of_rows
    (h : ∀ x row, ownsRow s' stream.publicKey x = true → s'[x]? = some row → s[x]? = some row) :
    NoMore s s' stream := by
  intro now e hholds
  unfold holdsEntry at hholds ⊢
  cases hitem : s'[stream.publicKey]? with
  | none => simp [hitem] at hholds
  | some item =>
    rw [h _ item (by simp [ownsRow]) hitem]
    simp only [hitem, Bool.and_eq_true, decide_eq_true_eq] at hholds ⊢
    obtain ⟨⟨hlive, hbase⟩, hrow⟩ := hholds
    refine ⟨⟨hlive, hbase⟩, ?_⟩
    split at hrow
    · rename_i data p hdata hp
      simp only [Option.any_eq_true] at hrow ⊢
      obtain ⟨m, hm, row, hget, hfresh⟩ := hrow
      refine ⟨m, hm, row, h _ row ?_ hget, hfresh⟩
      rw [stream.derived] at hp
      have hpre : (p.bytes ++ [0]).isPrefixOf (entryKey p.bytes m.version e) = true := by
        simp [entryKey, entryPrefix, List.isPrefixOf_iff_prefix]
      simp [ownsRow, hitem, hp, hbase, rowPrefixes, elementPrefixes, hpre, ValueType.byte]
    · cases hrow

/-- Removing rows adds no entry. -/
theorem noMore_of_erased (removed : List Bytes) (s : Store) (stream : XReadStream) :
    NoMore s (removed.foldl (fun s k => s.erase k) s) stream := by
  have hsub : ∀ (removed : List Bytes) (s : Store) (x : Bytes) (row : Row),
      (removed.foldl (fun s k => s.erase k) s)[x]? = some row → s[x]? = some row := by
    intro removed
    induction removed with
    | nil => exact fun _ _ _ h => h
    | cons k rest ih =>
      intro s x row h
      have hx := ih (s.erase k) x row h
      rw [Std.ExtTreeMap.getElem?_erase] at hx
      split at hx
      · cases hx
      · exact hx
  exact noMore_of_rows fun x row _ hx => hsub removed s x row hx

end Invar.Stream
