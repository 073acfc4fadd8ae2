import Invar.Lib.Yields
import Invar.Redis.Requests
import Invar.Redis.StreamState

/-!
# `XRANGE`, `XREVRANGE` and `XREAD` against the entries of a stream

All three scan the rows of a stream upwards from a key. The scan returns the entries of the
range (`wp_scanEntries_rows`), at least one of them if there is one, and `XREVRANGE` turns
around what the scan has left after the limit. `XREAD` scans from the id after the given one.
-/

namespace Invar.Stream

open StoreProg TxProg Dispatch Requests StreamEntryId Fallible

/-! ## The rows of entries -/

def entryRow (nodePrefix : Bytes) (version : Nat) (e : StreamEntry) : Bytes × Row :=
  (entryKey nodePrefix version e.id,
    { value := encodeEntryValue e.fields, metadata := ValueType.stream.byte })

/-- The id fits 64 bits, and the lengths of the strings fit 32. -/
structure StreamEntry.Storable (e : StreamEntry) : Prop where
  u64 : e.id.IsU64
  short : ∀ fv ∈ e.fields, fv.1.length < 2 ^ 32 ∧ fv.2.length < 2 ^ 32

theorem takeField_append {field rest : Bytes} {reserve : Nat} (h : field.length < 2 ^ 32)
    (hrest : reserve ≤ rest.length) :
    takeField (beBytes 4 field.length ++ (field ++ rest)) reserve = some (field, rest) := by
  have hlen : (beBytes 4 field.length).length = 4 := length_beBytes _ _
  have hvalue : ofBeBytes (beBytes 4 field.length) = field.length := by
    rw [ofBeBytes_beBytes]
    exact Nat.mod_eq_of_lt h
  unfold takeField
  rw [List.take_left' hlen, List.drop_left' hlen, hvalue]
  rw [if_neg (by rw [List.length_append]; omega), List.take_left, List.drop_left]

theorem decodeEntryValue_encode {fields : Fields} {fuel : Nat}
    (h : ∀ fv ∈ fields, fv.1.length < 2 ^ 32 ∧ fv.2.length < 2 ^ 32)
    (hfuel : fields.length ≤ fuel) :
    decodeEntryValue fuel (encodeEntryValue fields) = some fields := by
  induction fields generalizing fuel with
  | nil => cases fuel <;> rfl
  | cons fv fields ih =>
    obtain ⟨fuel, rfl⟩ := Nat.exists_eq_add_one.mpr (Nat.lt_of_lt_of_le (Nat.succ_pos _) hfuel)
    have hsplit : encodeEntryValue (fv :: fields) = beBytes 4 fv.1.length ++ (fv.1 ++
        (beBytes 4 fv.2.length ++ (fv.2 ++ encodeEntryValue fields))) := by
      simp only [encodeEntryValue, List.flatMap_cons, List.append_assoc]
    obtain ⟨hfield, hvalue⟩ := h fv List.mem_cons_self
    rw [decodeEntryValue, hsplit, if_neg (by simp), takeField_append hfield (by simp),
      Option.bind_eq_bind, Option.bind_some]
    dsimp only
    rw [takeField_append hvalue (Nat.zero_le _), Option.bind_some]
    rw [ih (fun fv hfv => h fv (List.mem_cons_of_mem _ hfv)) (Nat.le_of_succ_le_succ hfuel)]
    rfl

theorem length_le_encode (fields : Fields) : fields.length ≤ (encodeEntryValue fields).length := by
  induction fields with
  | nil => exact Nat.le_refl 0
  | cons fv fields ih =>
    rw [encodeEntryValue, List.flatMap_cons, ← encodeEntryValue]
    simp only [List.length_append, List.length_cons, length_beBytes]
    omega

theorem entryOfRow_entryRow {e : StreamEntry} (h : e.Storable) (nodePrefix : Bytes)
    (version : Nat) : entryOfRow (entryPrefix nodePrefix version).length
      (entryRow nodePrefix version e) = some e := by
  unfold entryOfRow entryRow
  rw [entryIdFromKey_entryKey h.u64, decodeEntryValue_encode h.short (length_le_encode _)]
  rfl

/-- **The codec of entries.** An id is read back from its key, keys compare as `(ms, seq)`, and
fields are read back from their value. -/
theorem entries_coded (nodePrefix : Bytes) (version : Nat) {a b : StreamEntryId} (ha : a.IsU64)
    (hb : b.IsU64) {fields : Fields}
    (h : ∀ fv ∈ fields, fv.1.length < 2 ^ 32 ∧ fv.2.length < 2 ^ 32) :
    entryIdFromKey (entryKey nodePrefix version a) (entryPrefix nodePrefix version).length =
        some a ∧ compare (entryKey nodePrefix version a) (entryKey nodePrefix version b) =
        (compare a.ms b.ms).then (compare a.seq b.seq) ∧
      decodeEntryValue (encodeEntryValue fields).length (encodeEntryValue fields) =
        some fields := by
  refine ⟨entryIdFromKey_entryKey ha, ?_, decodeEntryValue_encode h (length_le_encode fields)⟩
  rw [entryKey, entryKey, FixedDigits.compare_append_left, compare_keyPart ha hb]

theorem entries_coded_nine :
    let fields : Fields := [([102], [])]
    entryIdFromKey (entryKey [43] 1 ⟨9, 7⟩) (entryPrefix [43] 1).length = some ⟨9, 7⟩ ∧
      compare (entryKey [43] 1 ⟨9, 7⟩) (entryKey [43] 1 ⟨10, 0⟩) = .lt ∧
      decodeEntryValue (encodeEntryValue fields).length (encodeEntryValue fields) =
        some fields := by
  intro fields
  exact entries_coded [43] 1 (a := ⟨9, 7⟩) (b := ⟨10, 0⟩) ⟨by decide, by decide⟩
    ⟨by decide, by decide⟩ (show ∀ fv ∈ fields, _ by simp [fields])

/-- The ids between the bounds. -/
def inBounds (start stop : Option StreamEntryId) (e : StreamEntry) : Bool :=
  start.all (fun id => !e.id.lt id) && stop.all fun id => !id.lt e.id

variable {A : Tick → Prop} {E : Post DbError} {t : Txn Bytes Row} {s : Store}
  {k nodePrefix word : Bytes} {version count : Nat} {start stop last seen : Option StreamEntryId}
  {es : List StreamEntry} {Q : Post (List StreamEntry)} {options : List Bytes}

theorem inRange_entryKey {e : StreamEntry} (he : e.id.IsU64) (hstart : ∀ id ∈ start, id.IsU64)
    (hstop : ∀ id ∈ stop, id.IsU64) :
    inRange (rangeStartBound nodePrefix version start) (rangeEndBound nodePrefix version stop)
      (entryKey nodePrefix version e.id) = inBounds start stop e := by
  unfold inRange inBounds
  congr 1
  · cases start with
    | none => exact FixedDigits.isLE_compare_append (entryPrefix nodePrefix version) e.id.keyPart
    | some id => exact isLE_entryKey (hstart id rfl) he
  · cases stop with
    | none => rfl
    | some id => exact isLE_entryKey he (hstop id rfl)

/-- **The scan returns the entries of the range**, up to the limit. -/
theorem wp_scanEntries_rows (hrows : rowsOf t.view (entryPrefix nodePrefix version).isPrefixOf =
      es.map (entryRow nodePrefix version)) (hes : ∀ e ∈ es, e.Storable)
    (hstart : ∀ id ∈ start, id.IsU64) (hstop : ∀ id ∈ stop, id.IsU64)
    (hQ : ∀ t', t'.view = t.view → Q ((es.filter (inBounds start stop)).take (max count 1)) t') :
    wp A (scanEntries nodePrefix version start stop count) Q E t := by
  have hrange : (rowsOf t.view fun k => inRange (rangeStartBound nodePrefix version start)
      (rangeEndBound nodePrefix version stop) k && (entryPrefix nodePrefix version).isPrefixOf k) =
      (es.filter (inBounds start stop)).map (entryRow nodePrefix version) := by
    rw [rowsOf, ← List.filter_filter, ← rowsOf, hrows, List.filter_map]
    congr 1
    exact List.filter_congr fun e he => inRange_entryKey (hes e he).u64 hstart hstop
  unfold scanEntries
  rw [wp_seq]
  refine wp_scan_lasting (fun k row hk hrow => ?_) ?_
  · have hmem := hrange ▸ (mem_rowsOf).mpr ⟨hrow, hk⟩
    obtain ⟨e, -, heq⟩ := List.mem_map.mp hmem
    rw [← (Prod.mk.inj heq).2]
    exact Row.lastsFor_of_none rfl A
  · rw [hrange]
    have hread : ((es.filter (inBounds start stop)).map (entryRow nodePrefix version)).filterMap
        (entryOfRow (entryPrefix nodePrefix version).length) = es.filter (inBounds start stop) := by
      rw [List.filterMap_map]
      exact (List.filterMap_congr fun e he => entryOfRow_entryRow
        (hes e (List.mem_of_mem_filter he)) nodePrefix version).trans List.filterMap_some
    show Q (List.take _ (List.filterMap _ _)) _
    rw [hread]
    exact hQ _ rfl

/-- The entries that a read after the id returns. -/
def after (es : List StreamEntry) (id : Option StreamEntryId) : List StreamEntry :=
  es.filter fun e => id.all (·.lt e.id)

/-- The id that no id is after. -/
def greatestId : StreamEntryId := ⟨2 ^ 64 - 1, 2 ^ 64 - 1⟩

/-- **The next id bounds the ids after the id from below**, if there is a next one. -/
theorem inBounds_bumpSeq {e : StreamEntry} {id : StreamEntryId} (he : e.id.IsU64)
    (hid : id.IsU64) (hmax : id ≠ greatestId) :
    inBounds (some (bumpSeq id)) none e = id.lt e.id := by
  obtain ⟨ms, seq⟩ := id
  simp only [IsU64, ne_eq, greatestId, StreamEntryId.mk.injEq] at he hid hmax
  simp only [inBounds, Option.all_some, Option.all_none, Bool.and_true, bumpSeq]
  rw [Bool.eq_iff_iff, Bool.not_eq_true', ← Bool.not_eq_true, lt_iff, lt_iff]
  split
  · dsimp only
    omega
  · rw [Nat.mod_eq_of_lt (by omega)]
    dsimp only
    omega

/-- The entries that the code reads: after the greatest id it starts again at zero. -/
def readFrom (es : List StreamEntry) (id : Option StreamEntryId) : List StreamEntry :=
  if id = some greatestId then es else after es id

theorem filter_bumpSeq (hes : ∀ e ∈ es, e.id.IsU64) (hseen : ∀ id ∈ seen, id.IsU64) :
    es.filter (inBounds (seen.map bumpSeq) none) = readFrom es seen := by
  unfold readFrom
  split
  · subst seen
    exact List.filter_eq_self.mpr fun e _ => by simp [inBounds, bumpSeq, greatestId, lt]
  · rename_i hne
    refine List.filter_congr fun e he => ?_
    cases seen with
    | none => rfl
    | some id => exact inBounds_bumpSeq (hes e he) (hseen id rfl) fun h => hne (congrArg some h)

/-! ## A stream in the store -/

/-- The command finds these entries under the key, and this last id; there is none where it
finds no stream. -/
inductive Shows (A : Tick → Prop) (s : Store) (k : Bytes) :
    Option StreamEntryId → List StreamEntry → Prop
  | absent (hidden : Hidden A s k) : Shows A s k none []
  | present {row : Row} {data : Bytes} {p : ElementPrefix} {m : StreamMeta} {es : List StreamEntry}
      (hrow : s[k]? = some row) (hlast : row.LastsFor A)
      (hsent : row.IsSentinel (privateKey k) .stream p data) (hm : StreamMeta.decode data = some m)
      (hrows : rowsOf s (entryPrefix p.bytes m.version).isPrefixOf =
        es.map (entryRow p.bytes m.version))
      (hes : ∀ e ∈ es, e.Storable) : Shows A s k (some m.lastId) es

namespace Shows

/-- The entries stand in the order of their ids. -/
theorem sorted (h : Shows A s k last es) : es.Pairwise fun a b => a.id.lt b.id = true := by
  cases h with
  | absent => exact .nil
  | @present _ _ p m _ hrow hlast hsent hm hrows hes =>
    have hkeys := sorted_keysOf s (entryPrefix p.bytes m.version).isPrefixOf
    rw [keysOf, hrows, List.map_map, List.pairwise_map] at hkeys
    exact hkeys.imp_of_mem fun ha hb hlt => (compare_entryKey (hes _ ha).u64 (hes _ hb).u64).mp hlt

theorem isU64_last {id : StreamEntryId} (h : Shows A s k (some id) es) : id.IsU64 := by
  cases h with
  | present _ _ _ hm =>
    unfold StreamMeta.decode at hm
    split at hm
    · cases hm
    · cases hm
      have hlt (data : Bytes) (i : Nat) : StreamMeta.field data i < 2 ^ 64 :=
        Nat.lt_of_lt_of_le (ofBeBytes_lt _) (Nat.pow_le_pow_right (by decide)
          (List.length_take_le 8 _))
      exact ⟨hlt .., hlt ..⟩

/-- The entries of a stream keep to 64 bits. -/
theorem isU64 (h : Shows A s k last es) : ∀ e ∈ es, e.id.IsU64 := by
  cases h with
  | absent => exact List.forall_mem_nil _
  | present _ _ _ _ _ hes => exact fun e he => (hes e he).u64

theorem wp_readStream {stream : XReadStream} (h : Shows A t.view stream.publicKey last es)
    (hseen : ∀ id ∈ seen, id.IsU64) (hcount : 0 < count)
    (hQ : ∀ t', t'.view = t.view → Q ((readFrom es seen).take count) t') :
    wp A (readStream stream seen count) Q E t := by
  unfold readStream
  rw [wp_seq]
  cases h with
  | absent hidden =>
    refine wp_readSentinel_hidden hidden ?_
    have hnone : readFrom [] seen = [] := by
      unfold readFrom
      split <;> rfl
    rw [hnone, List.take_nil] at hQ
    exact hQ _ rfl
  | present hrow hlast hsent hm hrows hes =>
    refine wp_readSentinel_row hrow hlast hsent ?_
    rw [hm]
    rw [wp_seq, stream.derived]
    refine wp_resolvePrefix_some hrow hlast hsent.place_eq ?_
    refine wp_scanEntries_rows hrows hes ?_ (fun _ h => nomatch h) fun t' ht' => ?_
    · intro x hx
      obtain ⟨id, hmem, rfl⟩ := Option.mem_map.mp hx
      exact isU64_bumpSeq (hseen id hmem).1
    · rw [filter_bumpSeq (fun e he => (hes e he).u64) hseen, Nat.max_eq_left hcount]
      exact hQ t' ht'

end Shows

/-! ## The commands -/

/-- The word for a bound: the mark of an open end, or an id. -/
def IsBound (mark : String) (word : Bytes) (bound : Option StreamEntryId) : Prop :=
  ∀ msg, idUnless mark msg word = .ok bound

theorem isU64_of_idUnless {mark msg : String} {id : StreamEntryId}
    (h : idUnless mark msg word = .ok (some id)) : id.IsU64 := by
  have hdigits {digits : Bytes} {n : Nat} (h : parseU64 digits = some n) : n < 2 ^ 64 := by
    unfold parseU64 parseUnsigned at h
    grind
  unfold idUnless at h
  split at h
  · cases h
  · cases hparse : streamId msg word with
    | error e =>
      rw [hparse] at h
      cases h
    | ok x =>
      rw [hparse] at h
      cases h
      unfold streamId reject at hparse
      grind [IsU64]

theorem IsBound.isU64 {mark : String} {bound : Option StreamEntryId} (h : IsBound mark word bound) :
    ∀ id ∈ bound, id.IsU64 := fun id hid => by
  obtain rfl := Option.mem_def.mp hid
  exact isU64_of_idUnless (h "")

/-- The first entries, up to a limit if there is one. -/
def upTo (limit : Option Nat) (es : List StreamEntry) : List StreamEntry :=
  limit.elim es es.take

/-- A stream of two entries. -/
def twoEntries : Store :=
  storeAfter [("xadd", words ["k", "1-1", "f", "a"]), ("xadd", words ["k", "2-1", "f", "b"])]

theorem shows_twoEntries : Shows (answers (clock 3)) twoEntries (publicKey 0 (ascii "k"))
    (some ⟨2, 1⟩) [⟨⟨1, 1⟩, [(ascii "f", ascii "a")]⟩, ⟨⟨2, 1⟩, [(ascii "f", ascii "b")]⟩] := by
  have hsome : (twoEntries[publicKey 0 (ascii "k")]?).any fun row => row.expireTs = none ∧
      baseType row.metadata = ValueType.stream.byte ∧
      prefixOf row (privateKey (publicKey 0 (ascii "k"))) = .ok (.recorded (namespaceOf 0 1)) ∧
      payload row = .ok (StreamMeta.encode ⟨1, 2, ⟨2, 1⟩, ⟨1, 1⟩, ⟨0, 0⟩, 2⟩) := by decide +kernel
  obtain ⟨row, hrow, hall⟩ := (Option.any_eq_true _ _).mp hsome
  obtain ⟨hts, htype, hplace, hdata⟩ := of_decide_eq_true hall
  refine Shows.present (m := ⟨1, 2, ⟨2, 1⟩, ⟨1, 1⟩, ⟨0, 0⟩, 2⟩) hrow (Row.lastsFor_of_none hts _)
    ⟨htype, hdata, hplace⟩ (by decide +kernel) (by decide +kernel) fun e he => ?_
  rcases List.mem_pair.mp he with rfl | rfl <;> exact ⟨⟨by decide, by decide⟩, by decide⟩

/-- A stream to read, its name, and the id to read after. -/
abbrev Read := Bytes × Bytes × Option StreamEntryId

variable {reads : List Read} {found : Bytes → Option StreamEntryId × List StreamEntry}

theorem wp_resolveReadIds_shows {Q : Post (List (Option StreamEntryId))}
    (h : ∀ r ∈ reads, Shows A t.view r.1 (found r.1).1 (found r.1).2)
    (hQ : ∀ t', t'.view = t.view → Q (reads.map fun r => r.2.2.or (found r.1).1) t') :
    wp A (resolveReadIds (reads.map fun r => (.ofKey (r.1, r.2.1), r.2.2))) Q E t := by
  induction reads generalizing t Q with
  | nil => exact hQ t rfl
  | cons r reads ih =>
    obtain ⟨key, name, id⟩ := r
    have hrest : ∀ r ∈ reads, Shows A t.view r.1 (found r.1).1 (found r.1).2 :=
      fun r hr => h r (List.mem_cons_of_mem _ hr)
    rw [List.map_cons]
    cases id with
    | some id =>
      rw [resolveReadIds, wp_seq]
      exact ih hrest fun t' ht' => hQ t' ht'
    | none =>
      rw [resolveReadIds, wp_seq]
      have hlast := h _ List.mem_cons_self
      have hstep (last : Option StreamMeta) (hl : last.map (·.lastId) = (found key).1) :
          wp A (do return last.map (·.lastId) :: (← resolveReadIds (reads.map fun r =>
            (.ofKey (r.1, r.2.1), r.2.2)))) Q E (t.noteRead (isKey key)) := by
        rw [wp_seq, hl]
        exact ih hrest fun t' ht' => hQ t' ht'
      cases hshows : found key with
      | mk last es =>
        rw [hshows] at hlast hstep
        cases hlast with
        | absent hidden => exact wp_readSentinel_hidden hidden (hstep none rfl)
        | present hrow hlast hsent hm =>
          exact wp_readSentinel_row hrow hlast hsent (hm ▸ hstep _ rfl)

theorem wp_readStreams_shows {Q : Post (List (Bytes × List StreamEntry))}
    {f : Read → Option StreamEntryId}
    (h : ∀ r ∈ reads, Shows A t.view r.1 (found r.1).1 (found r.1).2)
    (hu64 : ∀ r ∈ reads, ∀ id ∈ f r, id.IsU64)
    (hcount : 0 < count)
    (hQ : ∀ t', Q (reads.map fun r => (r.2.1, (readFrom (found r.1).2 (f r)).take count)) t') :
    wp A (readStreams count (reads.map fun r => (.ofKey (r.1, r.2.1), f r))) Q E t := by
  induction reads generalizing t Q with
  | nil => exact hQ t
  | cons r reads ih =>
    rw [List.map_cons, readStreams, wp_seq]
    refine (h r List.mem_cons_self).wp_readStream (hu64 r List.mem_cons_self) hcount
      fun t' ht' => ?_
    rw [wp_seq]
    exact ih (fun r hr => ht' ▸ h r (List.mem_cons_of_mem _ hr))
      (fun r hr => hu64 r (List.mem_cons_of_mem _ hr)) fun t' => hQ t'

/-- No limit below one is accepted. -/
theorem yields_xreadOptions (args : List Bytes) {o : XReadOptions} (ho : 0 < o.count) :
    Yields (fun r => 0 < r.1.count) (xreadOptions args o) := by
  fun_induction xreadOptions args o with
  | case1 | case3 | case7 => exact yields_error _
  | case2 | case4 => exact yields_ok ho
  | case5 opt arg rest o _ _ ih =>
    refine (yields_self _).bind fun n _ => (yields_self _).bind fun _ hn => ih n ?_
    have hpos : ¬n < 1 := fun hlt => by
      rw [rejectIf, if_pos (decide_eq_true hlt)] at hn
      cases hn
    dsimp only
    omega
  | case6 opt arg rest o _ _ _ ih =>
    exact (yields_self _).bind fun n _ => (yields_self _).bind fun _ _ => ih n ho

theorem yields_readIds (args : List Bytes) :
    Yields (fun ids => ∀ id, some id ∈ ids → id.IsU64) (readIds args) := by
  induction args with
  | nil => exact yields_ok nofun
  | cons arg args ih =>
    refine (yields_self _).bind fun bound hbound => ih.bind fun ids hids => yields_ok ?_
    intro id hmem
    rcases List.mem_cons.mp hmem with rfl | hmem
    · exact isU64_of_idUnless hbound
    · exact hids id hmem

/-- A reply tells how many entries each stream has. -/
theorem length_of_xreadReply {f g : Read → List StreamEntry}
    (h : xreadReply (reads.map fun r => (r.2.1, f r)) =
      xreadReply (reads.map fun r => (r.2.1, g r))) {r : Read} (hr : r ∈ reads) :
    (f r).length = (g r).length := by
  unfold xreadReply at h
  split at h <;> split at h
  · simp only [List.map_map, RespValue.array.injEq, Option.some.injEq, List.map_inj_left,
      Function.comp_apply, List.cons.injEq, true_and, and_true] at h
    simpa using congrArg List.length (h r hr)
  · cases h
  · cases h
  · simp_all

/-- **`XREAD` lists the entries after each id** if and only if no stream with entries is read
after the greatest id. `$` is the last id of the stream. -/
theorem later_entries_read (ln : F64 → F64) (c : Ctx) (s : Store) (env : Nat → Tick)
    (args : List Bytes) (reads : List Read) (count : Nat)
    (found : Bytes → Option StreamEntryId × List StreamEntry) (hparse : Dispatch.xread c args =
      .ok (.xread (reads.map fun r => (r.1, r.2.1)) (reads.map fun r => r.2.2) count, none))
    (hfound : ∀ r ∈ reads, Shows (answers env) s r.1 (found r.1).1 (found r.1).2) :
    let later := fun r : Read => after (found r.1).2 (r.2.2.or (found r.1).1)
    (∀ r ∈ reads, (later r).Pairwise fun a b => a.id.lt b.id = true) ∧
      ((Call.outcome ln s ⟨.xread (reads.map fun r => (r.1, r.2.1)) (reads.map fun r => r.2.2)
          count, none, env⟩).out =
        .ok (xreadReply (reads.map fun r => (r.2.1, (later r).take count))) ↔
        ∀ r ∈ reads, r.2.2.or (found r.1).1 = some greatestId → (found r.1).2 = []) := by
  intro later
  refine ⟨fun r hr => (hfound r hr).sorted.filter _, ?_⟩
  have ⟨hcount, hu64⟩ : 0 < count ∧ ∀ id, some id ∈ reads.map (fun r => r.2.2) → id.IsU64 := by
    have hread : Yields (fun r => ∀ streams ids count, r.1 = .xread streams ids count →
        0 < count ∧ ∀ id, some id ∈ ids → id.IsU64) (Dispatch.xread c args) := by
      refine (yields_xreadOptions args (by decide)).bind fun o ho => ?_
      refine (yields_self _).bind fun _ _ => (yields_readIds _).bind fun ids hids => yields_ok ?_
      rintro _ _ _ ⟨⟩
      exact ⟨ho, hids⟩
    exact hread _ hparse _ _ _ rfl
  let read := fun r : Read => readFrom (found r.1).2 (r.2.2.or (found r.1).1)
  have hout : (exec (DataCommand.run ln none (.xread (reads.map fun r => (r.1, r.2.1))
      (reads.map fun r => r.2.2) count)) env { view := s }).out =
        .ok (xreadReply (reads.map fun r => (r.2.1, (read r).take count))) := by
    refine out_eq_of_wp ?_
    show wp _ (xreadNow _ _ _) _ _ _
    unfold xreadNow
    rw [wp_seq, List.map_map, List.zip_map']
    refine wp_resolveReadIds_shows hfound fun t' ht' => ?_
    rw [wp_seq, List.zip_map']
    refine wp_readStreams_shows (fun r hr => ht' ▸ hfound r hr) (fun r hr id hid => ?_) hcount
      fun _ => rfl
    rcases Option.or_eq_some_iff.mp hid with hid | ⟨-, hid⟩
    · exact hu64 id (hid ▸ List.mem_map_of_mem hr)
    · exact (hid ▸ hfound r hr).isU64_last
  refine (Eq.congr_left hout).trans ?_
  rw [Except.ok.injEq]
  constructor
  · intro heq r hr hmax
    have hlen := length_of_xreadReply heq hr
    have hnone : later r = [] := List.filter_eq_nil_iff.mpr fun e he => by
      have := (hfound r hr).isU64 e he
      rw [hmax, Option.all_some, lt_iff]
      simp only [greatestId, IsU64] at *
      omega
    simp only [read, readFrom, if_pos hmax, hnone, List.length_take, List.length_nil] at hlen
    exact List.eq_nil_of_length_eq_zero (by omega)
  · intro hnone
    congr 1
    refine List.map_congr_left fun r hr => ?_
    have : read r = later r := by
      simp only [read, later, readFrom]
      split
      · rw [hnone r hr ‹_›]
        rfl
      · rfl
    rw [this]

/-- A stream after an id, one from its last id, and one that is not there after the greatest. -/
theorem later_entries_read_three : (Call.outcome id twoEntries ⟨.xread
        [(publicKey 0 (ascii "k"), ascii "k"), (publicKey 0 (ascii "k"), ascii "k"),
          (publicKey 0 (ascii "m"), ascii "m")] [some ⟨1, 1⟩, none, some greatestId] 9, none,
        clock 3⟩).out =
      .ok (xreadReply [(ascii "k", [⟨⟨2, 1⟩, [(ascii "f", ascii "b")]⟩]), (ascii "k", []),
        (ascii "m", [])]) := by
  refine (later_entries_read id { db := 0, now := 1 } twoEntries (clock 3)
    (words ["count", "9", "streams", "k", "k", "m", "1-1", "$",
      "18446744073709551615-18446744073709551615"])
    [(publicKey 0 (ascii "k"), ascii "k", some ⟨1, 1⟩), (publicKey 0 (ascii "k"), ascii "k", none),
      (publicKey 0 (ascii "m"), ascii "m", some greatestId)] 9
    (fun k => if k = publicKey 0 (ascii "k") then (some ⟨2, 1⟩,
      [⟨⟨1, 1⟩, [(ascii "f", ascii "a")]⟩, ⟨⟨2, 1⟩, [(ascii "f", ascii "b")]⟩]) else (none, []))
    rfl ?_).2.mpr (by decide +kernel) |>.trans (by decide +kernel)
  intro r hr
  simp only [List.mem_cons, List.not_mem_nil, or_false] at hr
  rcases hr with rfl | rfl | rfl
  · exact shows_twoEntries
  · exact shows_twoEntries
  · exact .absent (hidden_of_none (by decide +kernel))

/-- **No id is after the greatest one, but the read starts again at zero.** -/
theorem everything_read_after_greatest :
    ∃ cmd, Dispatch.xread { db := 0, now := 1 } (words ["count", "1", "streams", "k",
        "18446744073709551615-18446744073709551615"]) = .ok (cmd, none) ∧
      (Call.outcome id twoEntries ⟨cmd, none, clock 3⟩).out =
        .ok (xreadReply [(ascii "k", [⟨⟨1, 1⟩, [(ascii "f", ascii "a")]⟩])]) :=
  ⟨_, rfl, by decide +kernel⟩

end Invar.Stream
