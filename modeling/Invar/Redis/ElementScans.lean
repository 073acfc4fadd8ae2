import Invar.Redis.CollectionCounts
import Invar.Redis.ScanPages
import Mathlib.Data.List.TakeWhile

/-!
# Iterations of `HSCAN` and `SSCAN`

The cursor of a page is an index into the list of the fields or members that match, which
each request builds anew. A request panics if the index is past the end of the list (for
`HSCAN`, up to the wrapping of twice the index), and an element is lost if one of those before it
is removed between two pages. If everything that an iteration has passed stays, the walk by
index of `Lib/Paging` applies.
-/

namespace Invar.Collections

open StoreProg TxProg Paging

/-! ## Requests -/

/-- The options of an `HSCAN` or `SSCAN`, which are the same for all pages. -/
inductive ElementScan where
  | hscan (pattern : Bytes) (count : Int)
  | sscan (pattern : Option Bytes) (count : Nat)

/-- What follows the last NUL byte of a field. -/
def lastPart (name : Bytes) : Bytes := (name.reverse.takeWhile (· ≠ 0)).reverse

namespace ElementScan

def isHash : ElementScan → Bool
  | .hscan .. => true
  | .sscan .. => false

/-- The request for the page at a cursor. -/
def run (k cursor : Bytes) : ElementScan → TxProg RespValue
  | .hscan pattern count => (Hash.Op.hscan cursor pattern count).run k
  | .sscan pattern count => (Set.Op.sscan cursor count pattern).run k

/-- The count is an `i64`. -/
def Typed : ElementScan → Prop
  | .hscan _ count => count < 2 ^ 63
  | .sscan _ count => count < 2 ^ 63

/-- The name that a page has for an element. -/
def reported (r : ElementScan) (name : Bytes) : Bytes :=
  if r.isHash then lastPart name else name

def selects : ElementScan → Bytes → Bool
  | .hscan pattern _, name => pattern.isEmpty || Pattern.keyspaceMatch pattern (lastPart name)
  | .sscan pattern _, name => pattern.all (Pattern.keyspaceMatch · name)

/-- The elements that match. -/
def matching (r : ElementScan) (c : Collection) : List (Bytes × Bytes) :=
  c.items.toList.filter fun nv => r.selects nv.1

def names (r : ElementScan) (o : Option Collection) : List Bytes :=
  o.elim [] fun c => (r.matching c).map (·.1)

/-- The index behind a page that starts at `start` of a list with `len` elements. -/
def stop (start len : Nat) : ElementScan → Nat
  | .hscan _ count => if 0 < count.toNat then min (start + count.toNat) len else len
  | .sscan _ count => min (start + max count 1) len

/-- The slice of a page that starts at `start` lies in a list with `len` elements; the index of
`HSCAN` is doubled in 64 bits. -/
def Fits (start len : Nat) : ElementScan → Prop
  | .hscan _ count => start % 2 ^ 63 ≤ len ∧ (start < 2 ^ 63 ∨ start + count.toNat < 2 ^ 64)
  | .sscan .. => start ≤ len

/-- The index that a cursor reads as. -/
def startOf (cursor : Bytes) : Nat := (parseU64 cursor).getD 0

end ElementScan

/-- What a request meets under the key: a hash or set, or nothing. -/
inductive Shown (isHash : Bool) (k : Bytes) (s : Snapshot) : Option Collection → Prop
  | absent (h : ∀ row, s.store[k]? = some row → ∀ n, row.expired (s.env n).now = true) :
      Shown isHash k s none
  | present {row : Row} {P : Place} {c : Collection} (hrow : s.store[k]? = some row)
      (hlive : ∀ n, row.expired (s.env n).now = false)
      (hsent : row.IsSentinel (privateKey k) (typeOf c.isHash) P.element (beBytes 4 c.items.size))
      (hregion : Region s.store P c.isHash c.items) (htype : c.isHash = isHash) :
      Shown isHash k s (some c)

/-! ## One page -/

variable {A : Tick → Prop} {E : Post DbError} {t : Txn Bytes Row} {k name : Bytes} {row : Row}
  {P : Place} {c : Collection} {r : ElementScan}

theorem takeWhile_append_stop {α : Type} {p : α → Bool} {a : α} (ha : p a = false)
    (xs ys : List α) : (xs ++ a :: ys).takeWhile p = xs.takeWhile p := by
  induction xs with
  | nil => rw
    [List.nil_append, List.takeWhile_cons, ha, List.takeWhile_nil, if_neg Bool.false_ne_true]
  | cons x xs ih => rw [List.cons_append, List.takeWhile_cons, List.takeWhile_cons, ih]

theorem fieldFromInternalKey_fieldKey (p name : Bytes) :
    Hash.fieldFromInternalKey (p ++ 0 :: name) = lastPart name := by
  have hmem : 0 ∈ p ++ 0 :: name := List.mem_append_right _ List.mem_cons_self
  unfold Hash.fieldFromInternalKey lastPart
  rw [if_pos hmem, List.reverse_append, List.reverse_cons, List.append_assoc, List.singleton_append,
    takeWhile_append_stop (by decide)]

theorem lastPart_of_notMem (h : (0 : UInt8) ∉ name) : lastPart name = name := by
  unfold lastPart
  rw [List.takeWhile_eq_self_iff.mpr, List.reverse_reverse]
  intro b hb
  refine decide_eq_true fun h0 => h ?_
  rw [← h0]
  exact List.mem_reverse.mp hb

theorem flatten_slice (pairs : List (Bytes × Bytes)) (start stop : Nat) :
    ((Hash.flatten pairs).take (stop * 2)).drop (start * 2) =
      Hash.flatten ((pairs.take stop).drop start) := by
  have htake : ∀ (pairs : List (Bytes × Bytes)) (n : Nat),
      (Hash.flatten pairs).take (n * 2) = Hash.flatten (pairs.take n) := by
    intro pairs n
    induction n generalizing pairs with
    | zero => simp [Hash.flatten]
    | succ n ih =>
      cases pairs with
      | nil => rfl
      | cons fv pairs =>
        rw [Nat.succ_mul]
        show fv.1 :: fv.2 :: (Hash.flatten pairs).take (n * 2) = _
        rw [ih]
        rfl
  have hdrop : ∀ (pairs : List (Bytes × Bytes)) (n : Nat),
      (Hash.flatten pairs).drop (n * 2) = Hash.flatten (pairs.drop n) := by
    intro pairs n
    induction n generalizing pairs with
    | zero => rfl
    | succ n ih =>
      cases pairs with
      | nil => rfl
      | cons fv pairs =>
        rw [Nat.succ_mul]
        exact ih pairs
  rw [htake, hdrop]

/-- The elements of the page from `start` to `stop`. -/
def ElementScan.slice (r : ElementScan) (c : Collection) (start : Nat) : List (Bytes × Bytes) :=
  ((r.matching c).take (r.stop start (r.matching c).length)).drop start

/-- The items of a reply. -/
def ElementScan.items (r : ElementScan) (page : List (Bytes × Bytes)) : List Bytes :=
  if r.isHash then Hash.flatten (page.map fun nv => (lastPart nv.1, nv.2)) else page.map (·.1)

/-- The reply of a page. -/
def ElementScan.reply (r : ElementScan) (o : Option Collection) (start : Nat) : RespValue :=
  match o with
  | none => Hash.scanReply [] []
  | some c =>
    let stop := r.stop start (r.matching c).length
    Hash.scanReply (if stop < (r.matching c).length then decimal stop else [])
      (r.items (r.slice c start))

theorem ElementScan.length_matching (r : ElementScan) (c : Collection) :
    (r.matching c).length < 2 ^ 32 := by
  refine Nat.lt_of_le_of_lt (List.length_filter_le _ _) ?_
  rw [Std.ExtTreeMap.length_toList]
  exact c.small

variable {len start : Nat} {count : Int} {Q : Post RespValue} {cursor : Bytes} {s : Snapshot}

theorem ElementScan.le_stop (r : ElementScan) (h : start ≤ len) : start ≤ r.stop start len := by
  unfold stop
  split
  · split
    · omega
    · exact h
  · omega

theorem ElementScan.hscan_stop (pattern : Bytes) (hcount : count < 2 ^ 63)
    (hlen : len < 2 ^ 32) (hstart : start ≤ len) :
    (if 0 < count.toNat then min ((start + count.toNat) % 2 ^ 64) len else len) =
      (ElementScan.hscan pattern count).stop start len := by
  unfold stop
  rw [Nat.mod_eq_of_lt (by omega)]

/-- The elements that match, as `HSCAN` reads them. -/
theorem filter_loaded (P : Place) (c : Collection) (pattern : Bytes) (count : Int) :
    ((c.items.toList.map fun nv => (P.bytes ++ 0 :: nv.1, itemRow c.isHash nv.2)).map
      fun kr => (Hash.fieldFromInternalKey kr.1, kr.2.value)).filter
        (fun fv => pattern.isEmpty || Pattern.keyspaceMatch pattern fv.1) =
      ((ElementScan.hscan pattern count).matching c).map fun nv => (lastPart nv.1, nv.2) := by
  have hname : ∀ nv : Bytes × Bytes,
      Hash.fieldFromInternalKey (P.bytes ++ 0 :: nv.1) = lastPart nv.1 :=
    fun nv => fieldFromInternalKey_fieldKey _ _
  rw [List.map_map, List.filter_map]
  simp only [Function.comp_def, hname]
  rfl

/-- **What `HSCAN` does**: the slice of the list, or a panic. -/
theorem wp_hscan_slice {pattern : Bytes} (hrow : t.view[k]? = some row) (hlast : row.LastsFor A)
    (hsent : row.IsSentinel (privateKey k) (typeOf c.isHash) P.element (beBytes 4 c.items.size))
    (hregion : Region t.view P c.isHash c.items) {start stop : Nat}
    (hstart : ElementScan.startOf cursor = start)
    (hstop : (if 0 < count.toNat then min ((start + count.toNat) % 2 ^ 64)
      ((ElementScan.hscan pattern count).matching c).length
      else ((ElementScan.hscan pattern count).matching c).length) = stop)
    (hE : stop * 2 < start * 2 % 2 ^ 64 → ∀ t', E .panic t')
    (hQ : ¬stop * 2 < start * 2 % 2 ^ 64 → ∀ t', Q (Hash.scanReply
      (if stop < ((ElementScan.hscan pattern count).matching c).length then decimal stop else [])
      (((Hash.flatten (((ElementScan.hscan pattern count).matching c).map fun nv =>
        (lastPart nv.1, nv.2))).take (stop * 2)).drop (start * 2 % 2 ^ 64))) t') :
    wp A (Hash.hscan k cursor pattern count) Q E t := by
  unfold Hash.hscan Hash.loadAll
  simp only [Prog.bind_eq, wp_bind]
  refine wp_resolvePrefix_some hrow hlast hsent.place_eq ?_
  refine wp_get_some hrow hlast ?_
  rw [wp_bind]
  refine Region.wp_scan (t := (t.noteRead _).noteRead _) hregion ?_
  show wp A (if _ then _ else _) Q E _
  rw [filter_loaded P c pattern count, List.length_map,
    show (parseU64 cursor).getD 0 = start from hstart, hstop]
  split
  · exact hE ‹_› _
  · exact hQ ‹_› _

/-- **A page of `HSCAN` whose cursor is in the list.** -/
theorem wp_hscan {pattern : Bytes}
    (hcount : count < 2 ^ 63) (hrow : t.view[k]? = some row) (hlast : row.LastsFor A)
    (hsent : row.IsSentinel (privateKey k) (typeOf c.isHash) P.element (beBytes 4 c.items.size))
    (hregion : Region t.view P c.isHash c.items)
    (hstart : ElementScan.startOf cursor ≤ ((ElementScan.hscan pattern count).matching c).length)
    (hQ : ∀ t',
      Q ((ElementScan.hscan pattern count).reply (some c) (ElementScan.startOf cursor)) t') :
    wp A (Hash.hscan k cursor pattern count) Q E t := by
  have hlen := (ElementScan.hscan pattern count).length_matching c
  have hle := (ElementScan.hscan pattern count).le_stop hstart
  have hfrom : ElementScan.startOf cursor * 2 % 2 ^ 64 = ElementScan.startOf cursor * 2 :=
    Nat.mod_eq_of_lt (by omega)
  refine wp_hscan_slice hrow hlast hsent hregion rfl
    (ElementScan.hscan_stop pattern hcount hlen hstart) (fun hpanic => ?_) fun _ t' => ?_
  · omega
  · rw [hfrom, flatten_slice, ← List.map_take, ← List.map_drop]
    exact hQ t'

theorem wp_setCount_some {p : ElementPrefix} {content legacy : Bytes}
    {Q : Post (Option UInt32)} (hrow : t.view[k]? = some row) (hlast : row.LastsFor A)
    (hsent : row.IsSentinel legacy .set p content) (hlen : 4 ≤ content.length)
    (hQ : ∀ n, Q (some n) (t.noteRead (isKey k))) : wp A (Set.setCount k) Q E t := by
  unfold Set.setCount sentinelCount
  rw [wp_seq]
  refine wp_get_some hrow hlast ?_
  dsimp only
  rw [if_neg fun hne => hne hsent.type_eq, hsent.content_eq, Prog.bind_eq, wp_bind, wp_ofExcept_ok,
    if_neg (by omega)]
  exact hQ _

/-- **What `SSCAN` does**: a page, if its cursor is in the list, or a panic. -/
theorem wp_sscan {pattern : Option Bytes} {count : Nat} (hcount : count < 2 ^ 63)
    (hrow : t.view[k]? = some row) (hlast : row.LastsFor A) (hset : c.isHash = false)
    (hsent : row.IsSentinel (privateKey k) (typeOf c.isHash) P.element (beBytes 4 c.items.size))
    (hregion : Region t.view P c.isHash c.items)
    (hE : ((ElementScan.sscan pattern count).matching c).length < ElementScan.startOf cursor →
      ∀ t', E .panic t')
    (hQ : ElementScan.startOf cursor ≤ ((ElementScan.sscan pattern count).matching c).length →
      ∀ t', Q ((ElementScan.sscan pattern count).reply (some c) (ElementScan.startOf cursor)) t') :
    wp A (Set.sscan k cursor count pattern) Q E t := by
  have hlen := (ElementScan.sscan pattern count).length_matching c
  have hcursor : (if cursor.isEmpty || cursor = ascii "0" then 0 else (parseU64 cursor).getD 0) =
      ElementScan.startOf cursor := by
    split
    · rename_i h
      rw [Bool.or_eq_true, decide_eq_true_eq, List.isEmpty_iff] at h
      rcases h with rfl | rfl <;> rfl
    · rfl
  unfold Set.sscan
  simp only [Prog.bind_eq, wp_bind]
  rw [hset] at hsent hregion
  refine wp_resolvePrefix_some hrow hlast hsent.place_eq ?_
  refine wp_setCount_some hrow hlast hsent (by rw [length_beBytes])
    fun n => ?_
  unfold Set.memberValues
  simp only [Prog.bind_eq, wp_bind]
  refine Region.wp_scan (t := (t.noteRead _).noteRead _) hregion ?_
  have hfilter : ((c.items.toList.map fun nv => (P.bytes ++ 0 :: nv.1, itemRow false nv.2)).map
      (·.2.value)).filter (fun m => pattern.all (Pattern.keyspaceMatch · m)) =
      ((ElementScan.sscan pattern count).matching c).map (·.1) := by
    rw [List.map_map]
    show (c.items.toList.map (·.2)).filter _ = _
    rw [map_snd_toList (c.self hset), List.filter_map]
    rfl
  show wp A (if _ then _ else _) Q E _
  rw [hfilter, List.length_map, hcursor]
  by_cases hstart :
      ElementScan.startOf cursor ≤ ((ElementScan.sscan pattern count).matching c).length
  · have hstop : min ((ElementScan.startOf cursor + max count 1) % 2 ^ 64)
        ((ElementScan.sscan pattern count).matching c).length =
        (ElementScan.sscan pattern count).stop (ElementScan.startOf cursor)
          ((ElementScan.sscan pattern count).matching c).length := by
      unfold ElementScan.stop
      rw [Nat.mod_eq_of_lt (by omega)]
    rw [hstop, if_neg (by omega), ← List.map_take, ← List.map_drop]
    exact hQ hstart _
  · rw [if_pos (by omega)]
    exact hE (Nat.not_le.mp hstart) _

theorem ElementScan.wp_run_absent (r : ElementScan) {k cursor : Bytes}
    (hgone : ∀ row, s.store[k]? = some row → ∀ n, row.expired (s.env n).now = true)
    {Q : RespValue → Prop} (hQ : Q (Hash.scanReply [] [])) :
    wp (fun x => ∃ n, s.env n = x) (r.run k cursor) (fun reply _ => Q reply) E
      { view := s.store } := by
  have hgone' : ∀ row, s.store[k]? = some row → ∀ x, (∃ n, s.env n = x) →
      row.expired x.now = true := by
    rintro row hrow _ ⟨n, rfl⟩
    exact hgone row hrow n
  cases r with
  | hscan pattern count =>
    show wp _ (Hash.hscan k cursor pattern count) _ _ _
    unfold Hash.hscan Hash.loadAll resolvePrefix
    simp only [Prog.bind_eq, wp_bind]
    refine wp_get_hidden hgone' ?_
    exact wp_get_hidden hgone' hQ
  | sscan pattern count =>
    show wp _ (Set.sscan k cursor count pattern) _ _ _
    unfold Set.sscan Set.setCount sentinelCount resolvePrefix
    simp only [Prog.bind_eq, wp_bind]
    refine wp_get_hidden hgone' ?_
    exact wp_get_hidden hgone' hQ

/-- **One request.** -/
theorem ElementScan.out_run {o : Option Collection} (htyped : r.Typed) (h : Shown r.isHash k s o)
    (cursor : Bytes) (hstart : ∀ c ∈ o, startOf cursor ≤ (r.matching c).length) :
    (exec (r.run k cursor) s.env { view := s.store }).out = .ok (r.reply o (startOf cursor)) := by
  refine exec_out_of_wp (A := fun x => ∃ n, s.env n = x) ?_ s.env fun n => ⟨n, rfl⟩
  cases h with
  | absent hgone => exact r.wp_run_absent hgone rfl
  | @present row P c hrow hlive hsent hregion htype =>
    have hlast : row.LastsFor fun x => ∃ n, s.env n = x := by
      rintro _ ⟨n, rfl⟩
      exact hlive n
    cases r with
    | hscan pattern count =>
      exact wp_hscan htyped hrow hlast hsent hregion
        (hstart c rfl) fun _ => rfl
    | sscan pattern count =>
      exact wp_sscan htyped hrow hlast htype hsent hregion
        (fun hpast => absurd (hstart c rfl) (Nat.not_le.mpr hpast)) fun _ _ => rfl

theorem ElementScan.startOf_lt (cursor : Bytes) : startOf cursor < 2 ^ 64 := by
  unfold startOf
  cases hparse : parseU64 cursor with
  | none => decide
  | some n => exact Nat.lt_succ_of_le (parseUnsigned_le hparse)

/-- **A request replies if and only if its slice lies in the list.** -/
theorem ElementScan.replies_iff {o : Option Collection} (htyped : r.Typed)
    (h : Shown r.isHash k s o) (cursor : Bytes) :
    (∃ reply, (exec (r.run k cursor) s.env { view := s.store }).out = .ok reply) ↔
      ∀ c ∈ o, r.Fits (startOf cursor) (r.matching c).length := by
  let F := ∀ c ∈ o, r.Fits (startOf cursor) (r.matching c).length
  have hends : wp (fun x => ∃ n, s.env n = x) (r.run k cursor) (fun _ _ => F)
      (fun _ _ => ¬F) { view := s.store } := by
    cases h with
    | absent hgone => exact r.wp_run_absent hgone (fun c hc => by cases hc)
    | @present row P c hrow hlive hsent hregion htype =>
      have hlast : row.LastsFor fun x => ∃ n, s.env n = x := by
        rintro _ ⟨n, rfl⟩
        exact hlive n
      have hlen := r.length_matching c
      have hF : F ↔ r.Fits (startOf cursor) (r.matching c).length := by simp [F]
      simp only [hF]
      cases r with
      | hscan pattern count =>
        have hcursor : startOf cursor < 2 ^ 64 := startOf_lt cursor
        refine wp_hscan_slice hrow hlast hsent hregion rfl rfl (fun hpanic _ hfits => ?_)
          fun hslice _ => ?_
        all_goals
          simp only [Fits, Typed] at *
          split at * <;> omega
      | sscan pattern count =>
        exact wp_sscan htyped hrow hlast htype hsent hregion
          (fun hpast _ => Nat.not_le.mpr hpast) fun hfits _ => hfits
  obtain ⟨hok, herr⟩ := exec_of_wp hends fun n => ⟨n, rfl⟩
  refine ⟨fun hreply => hreply.elim hok, fun hfits => ?_⟩
  cases hout : (exec (r.run k cursor) s.env { view := s.store }).out with
  | ok reply => exact ⟨reply, rfl⟩
  | error e => exact absurd hfits (herr e hout)

/-! ## Iterations -/

/-- The fields among the items of an `HSCAN` reply. -/
def everyOther : List Bytes → List Bytes
  | field :: _ :: rest => field :: everyOther rest
  | _ => []

namespace ElementScan

/-- One request: the next cursor, and the names. -/
def page (r : ElementScan) (k cursor : Bytes) (s : Snapshot) : Option (Bytes × List Bytes) :=
  ((exec (r.run k cursor) s.env { view := s.store }).out.toOption.bind scanReply).map fun page =>
    (page.1, if r.isHash then everyOther page.2 else page.2)

/-- A client that feeds back each cursor until it gets `0`, with the snapshot that each of its
requests meets: all names, and the last cursor. -/
def iterate (r : ElementScan) (k : Bytes) : (cursor : Bytes) → List Snapshot →
    Option (List Bytes × Bytes)
  | cursor, [] => some ([], cursor)
  | cursor, s :: rest => do
    let (next, names) ← r.page k cursor s
    if next = ascii "0" then return (names, next)
    else
      let (more, last) ← r.iterate k next rest
      return (names ++ more, last)

/-- The element is there, and it matches. -/
def Has (r : ElementScan) (o : Option Collection) (name : Bytes) : Prop :=
  ∃ c ∈ o, name ∈ c.items ∧ r.selects name = true

variable {o : Option Collection}

theorem mem_names : name ∈ r.names o ↔ r.Has o name := by
  cases o with
  | none => simp [names, Has]
  | some c =>
    simp only [names, Has, matching, Option.elim_some, List.mem_map, List.mem_filter,
      Option.mem_some_iff]
    constructor
    · rintro ⟨⟨m, v⟩, ⟨hmem, hsel⟩, rfl⟩
      refine ⟨c, rfl, ?_, hsel⟩
      rw [Std.ExtTreeMap.mem_toList_iff_getElem?_eq_some] at hmem
      exact Std.ExtTreeMap.mem_iff_isSome_getElem?.mpr (by rw [hmem]; rfl)
    · rintro ⟨_, rfl, hmem, hsel⟩
      obtain ⟨v, hv⟩ := Option.isSome_iff_exists.mp (Std.ExtTreeMap.mem_iff_isSome_getElem?.mp hmem)
      exact ⟨(name, v), ⟨Std.ExtTreeMap.mem_toList_iff_getElem?_eq_some.mpr hv, hsel⟩, rfl⟩

theorem sorted_names (r : ElementScan) (o : Option Collection) : (r.names o).Pairwise Before := by
  cases o with
  | none => exact .nil
  | some c =>
    show ((r.matching c).map (·.1)).Pairwise Before
    rw [List.pairwise_map]
    exact Std.ExtTreeMap.ordered_keys_toList.filter _

/-- **The condition for an iteration.** What a page has passed is still there at the next one. -/
def KeepsPassed (r : ElementScan) : (start : Nat) → List (Option Collection) → Prop
  | start, o :: o' :: rest =>
    r.stop start (r.names o).length < (r.names o).length →
      (∀ name ∈ (r.names o).take (r.stop start (r.names o).length), r.Has o' name) ∧
        r.KeepsPassed (r.stop start (r.names o).length) (o' :: rest)
  | _, _ => True

theorem everyOther_flatten (pairs : List (Bytes × Bytes)) :
    everyOther (Hash.flatten pairs) = pairs.map (·.1) := by
  induction pairs with
  | nil => rfl
  | cons fv pairs ih =>
    show fv.1 :: everyOther (Hash.flatten pairs) = _
    rw [ih]
    rfl

theorem page_eq (htyped : r.Typed) (h : Shown r.isHash k s o)
    (hstart : startOf cursor ≤ (r.names o).length) :
    r.page k cursor s = some
      (if r.stop (startOf cursor) (r.names o).length < (r.names o).length then
          decimal (r.stop (startOf cursor) (r.names o).length) else ascii "0",
        (((r.names o).take (r.stop (startOf cursor) (r.names o).length)).drop (startOf cursor)).map
          r.reported) := by
  have hout := out_run htyped h cursor fun c hc => by
    cases hc
    rwa [names, Option.elim_some, List.length_map] at hstart
  unfold page
  rw [hout]
  have hread : ∀ cursor items, scanReply (Hash.scanReply cursor items) =
      some (if cursor.isEmpty then ascii "0" else cursor, items) := fun _ _ => scanReply_bulks _ _
  cases o with
  | none =>
    show (scanReply (Hash.scanReply [] [])).map _ = _
    rw [hread]
    simp [names, everyOther]
  | some c =>
    have hlen : (r.names (some c)).length = (r.matching c).length := List.length_map _
    rw [hlen]
    show (scanReply (Hash.scanReply _ (r.items (r.slice c (startOf cursor))))).map _ = _
    rw [hread, Option.map_some]
    congr 2
    · by_cases hmore : r.stop (startOf cursor) (r.matching c).length < (r.matching c).length
      · rw [if_pos hmore, if_pos hmore, if_neg]
        rw [List.isEmpty_iff]
        exact decimal_ne_nil _
      · rw [if_neg hmore, if_neg hmore]
        rfl
    · show (if r.isHash then everyOther (r.items (r.slice c (startOf cursor)))
        else r.items (r.slice c (startOf cursor))) = _
      show _ = ((((r.matching c).map (·.1)).take _).drop _).map r.reported
      rw [← List.map_take, ← List.map_drop, List.map_map]
      show _ = (r.slice c (startOf cursor)).map _
      unfold items
      cases hhash : r.isHash with
      | true =>
        rw [if_pos rfl, if_pos rfl, everyOther_flatten, List.map_map]
        refine List.map_congr_left fun nv _ => ?_
        simp only [Function.comp_apply, reported, hhash, if_true]
      | false =>
        rw [if_neg Bool.false_ne_true, if_neg Bool.false_ne_true]
        refine List.map_congr_left fun nv _ => ?_
        simp only [Function.comp_apply, reported, hhash, if_neg Bool.false_ne_true]

theorem startOf_decimal {n : Nat} (h : n < 2 ^ 64) : startOf (decimal n) = n := by
  unfold startOf parseU64
  rw [parseUnsigned_decimal (by omega)]
  rfl

theorem stop_pos (h : r.stop start len < len) : 0 < r.stop start len := by
  unfold stop at h ⊢
  split at h
  · split at h <;> split <;> omega
  · omega

/-- **An iteration is a walk by index**, and no page of it panics. -/
theorem walk_of_iterate (htyped : r.Typed) {snaps : List (Snapshot × Option Collection)}
    (hshown : ∀ x ∈ snaps, Shown r.isHash k x.1 x.2) (cursor : Bytes) (hne : snaps ≠ [])
    (hstart : ∀ x ∈ snaps.head?, startOf cursor ≤ (r.names x.2).length)
    (hkeeps : r.KeepsPassed (startOf cursor) (snaps.map (·.2))) :
    ∃ names last, r.iterate k cursor (snaps.map (·.1)) = some (names, last) ∧
      (last = ascii "0" → ∃ keys, names = keys.map r.reported ∧
        SliceWalk (startOf cursor) (snaps.map fun x => r.names x.2) keys) := by
  induction snaps generalizing cursor with
  | nil => exact absurd rfl hne
  | cons x rest ih =>
    have hpage := page_eq htyped (hshown x List.mem_cons_self) (hstart x rfl)
    have hbound : (r.names x.2).length < 2 ^ 32 := by
      cases x.2 with
      | none => exact (by decide : 0 < 2 ^ 32)
      | some c => exact (List.length_map _).trans_lt (r.length_matching c)
    rw [List.map_cons, iterate, hpage, Option.bind_eq_bind, Option.bind_some]
    dsimp only
    by_cases hmore : r.stop (startOf cursor) (r.names x.2).length < (r.names x.2).length
    · -- there is a next page, if the client asks for it
      generalize hstop : r.stop (startOf cursor) (r.names x.2).length = stop at *
      have hnext : startOf (decimal stop) = stop := startOf_decimal (by omega)
      have hzero : decimal stop ≠ ascii "0" := by
        intro heq
        have hpos := stop_pos (hstop ▸ hmore)
        rw [hstop, ← hnext, heq] at hpos
        exact absurd hpos (by decide)
      rw [if_pos hmore, if_neg hzero]
      cases rest with
      | nil => exact ⟨_, _, rfl, fun hlast => absurd hlast hzero⟩
      | cons y rest =>
        obtain ⟨hkept, hkeeps⟩ : (∀ name ∈ (r.names x.2).take stop, r.Has y.2 name) ∧
            r.KeepsPassed stop (y.2 :: rest.map (·.2)) := by
          rw [List.map_cons, List.map_cons, KeepsPassed, hstop] at hkeeps
          exact hkeeps hmore
        have hkept' : ∀ name ∈ (r.names x.2).take stop, name ∈ r.names y.2 :=
          fun name hname => mem_names.mpr (hkept name hname)
        have hle : stop ≤ (r.names y.2).length :=
          length_le_of_kept (r.sorted_names x.2) (Nat.le_of_lt hmore) hkept'
        obtain ⟨names, last, hiter, hwalk⟩ := ih
          (fun z hz => hshown z (List.mem_cons_of_mem _ hz)) (decimal stop) (List.cons_ne_nil _ _)
          (fun z hz => by cases hz; rwa [hnext]) (by rwa [hnext])
        rw [hiter]
        refine ⟨_, _, rfl, fun hlast => ?_⟩
        obtain ⟨keys, rfl, hrest⟩ := hwalk hlast
        rw [hnext] at hrest
        refine ⟨_, (List.map_append ..).symm, ?_⟩
        exact .more (Nat.le_of_lt hmore) hkept' hrest
    · rw [if_neg hmore, if_pos rfl]
      refine ⟨_, _, rfl, fun _ => ⟨_, rfl, ?_⟩⟩
      rw [List.take_of_length_le (Nat.not_lt.mp hmore)]
      exact .last

/-- **`HSCAN` and `SSCAN` reply** if and only if the slice lies in the list, **and an iteration
returns what is there for all of it**, as long as everything that was passed stays. -/
theorem replies_and_complete (htyped : r.Typed) (k : Bytes) :
    (∀ s o cursor, Shown r.isHash k s o →
      ((∃ reply, (exec (r.run k cursor) s.env { view := s.store }).out = .ok reply) ↔
        ∀ c ∈ o, r.Fits (startOf cursor) (r.matching c).length)) ∧
    ∀ snaps : List (Snapshot × Option Collection), snaps ≠ [] →
      (∀ x ∈ snaps, Shown r.isHash k x.1 x.2) → r.KeepsPassed 0 (snaps.map (·.2)) →
      ∃ names last, r.iterate k (ascii "0") (snaps.map (·.1)) = some (names, last) ∧
        (last = ascii "0" → ∀ name, (r.isHash = true → 0 ∉ name) →
          (∀ x ∈ snaps, r.Has x.2 name) → name ∈ names) := by
  refine ⟨fun s o cursor hshown => replies_iff htyped hshown cursor, ?_⟩
  intro snaps hne hshown hkeeps
  obtain ⟨names, last, hiter, hwalk⟩ := walk_of_iterate htyped hshown (ascii "0") hne
    (fun _ _ => Nat.zero_le _) hkeeps
  refine ⟨names, last, hiter, fun hlast name hnul hhas => ?_⟩
  obtain ⟨keys, rfl, hkeys⟩ := hwalk hlast
  have hname : r.reported name = name := by
    unfold reported
    split
    · rename_i hhash
      exact lastPart_of_notMem (hnul hhash)
    · rfl
  have hmem : ∀ xs ∈ snaps.map (fun x => r.names x.2), name ∈ xs := by
    intro xs hxs
    obtain ⟨x, hx, rfl⟩ := List.mem_map.mp hxs
    exact mem_names.mpr (hhas x hx)
  refine List.mem_map.mpr ⟨name, hkeys.complete ?_ hmem fun xs hxs => ?_, hname⟩
  · intro xs hxs
    obtain ⟨x, -, rfl⟩ := List.mem_map.mp hxs
    exact r.sorted_names x.2
  · exact hmem xs (List.mem_of_mem_head? hxs)

end ElementScan

/-! ## A set that gains a member -/

def keyX : Bytes := publicKey 0 (ascii "x")

def steady (rand : Nat) : Nat → Tick := fun _ => { now := 1, rand }

def setWith (members : List Bytes) : Store :=
  (exec (Set.sadd keyX members) (steady 1) { view := ∅ }).txn.view

theorem shown_setWith (members : List Bytes) (items : Items) (reply : RespValue)
    (hok : (exec (Set.sadd keyX members) (steady 1) { view := ∅ }).out = .ok reply)
    (hitems : FiniteMap.insertAll (members.map fun m => (m, m)) ∅ = items) (hpos : 0 < items.size)
    (hsmall : members.length < 2 ^ 32) :
    ∃ c, Shown false keyX ⟨setWith members, steady 2⟩ (some c) ∧ c.items = items := by
  have hne : members ≠ [] := by
    rintro rfl
    exact absurd (hitems ▸ hpos) (by decide)
  have hwp : wp (fun x => ∃ n, steady 1 n = x) (Set.sadd keyX members)
      (fun _ t => ∃ C, Stored layout t.view C ∧ Became (fun _ => none) C keyX false items)
      (fun _ _ => True) { view := ∅ } :=
    wp_sadd (C := fun _ => none) stored_empty (by decide) rfl (fun _ _ _ _ hk => by cases hk) hne
      (by simpa [itemsAt] using hsmall) fun _ _ C hC hbecame => ⟨C, hC, hitems ▸ hbecame⟩
  obtain ⟨C, hC, hbecame⟩ := (exec_of_wp hwp fun n => ⟨n, rfl⟩).1 reply hok
  cases hk : C keyX with
  | none => exact absurd (hbecame.absent hk) hpos.ne'
  | some Pc =>
    obtain ⟨hset, hitems⟩ := hbecame.present Pc.1 Pc.2 hk
    obtain ⟨row, hrow, hts, hsent⟩ := hC.isSentinel hk
    have hlive (n : Nat) : row.expired (steady 2 n).now = false := by simp [Row.expired, hts]
    exact ⟨Pc.2, .present hrow hlive hsent (region_of_stored hC hk) hset, hitems⟩

/-- One member a page, and a member is added after the first one. -/
theorem replies_and_complete_growing :
    let ab : Snapshot := ⟨setWith [ascii "a", ascii "b"], steady 2⟩
    let abc : Snapshot := ⟨setWith [ascii "a", ascii "b", ascii "c"], steady 2⟩
    ∃ names, (ElementScan.sscan none 1).iterate keyX (ascii "0") [ab, abc, abc] =
      some (names, ascii "0") ∧ ascii "b" ∈ names := by
  intro ab abc
  let r := ElementScan.sscan none 1
  obtain ⟨two, hab, htwo⟩ := shown_setWith [ascii "a", ascii "b"] _ (.integer 2)
    (by decide +kernel) rfl (by decide) (by decide)
  obtain ⟨three, habc, hthree⟩ := shown_setWith [ascii "a", ascii "b", ascii "c"] _ (.integer 3)
    (by decide +kernel) rfl (by decide) (by decide)
  have hnames : r.names (some two) = [ascii "a", ascii "b"] ∧
      r.names (some three) = [ascii "a", ascii "b", ascii "c"] := by
    simp only [ElementScan.names, ElementScan.matching, Option.elim_some, htwo, hthree]
    decide +kernel
  have hkept : ∀ o ∈ [some two, some three], ∀ n name, name ∈ (r.names o).take n →
      r.Has (some three) name := by
    intro o ho n name hname
    rw [← ElementScan.mem_names, hnames.2]
    have hmem := List.mem_of_mem_take hname
    rcases List.mem_cons.mp ho with rfl | ho
    · rw [hnames.1] at hmem
      exact List.mem_append_left [ascii "c"] hmem
    · rw [List.mem_singleton.mp ho, hnames.2] at hmem
      exact hmem
  have hshown : ∀ x ∈ [(ab, some two), (abc, some three), (abc, some three)],
      Shown r.isHash keyX x.1 x.2 ∧ r.Has x.2 (ascii "b") := by
    have htwo : Shown r.isHash keyX ab (some two) ∧ r.Has (some two) (ascii "b") :=
      ⟨hab, ElementScan.mem_names.mp (by rw [hnames.1]; decide)⟩
    have hthree : Shown r.isHash keyX abc (some three) ∧ r.Has (some three) (ascii "b") :=
      ⟨habc, ElementScan.mem_names.mp (by rw [hnames.2]; decide)⟩
    rw [List.forall_mem_cons, List.forall_mem_cons, List.forall_mem_singleton]
    exact ⟨htwo, hthree, hthree⟩
  obtain ⟨names, last, hiter, hcomplete⟩ := (ElementScan.replies_and_complete (r := r)
    (by decide : 1 < 2 ^ 63) keyX).2 [(ab, some two), (abc, some three), (abc, some three)]
    (List.cons_ne_nil _ _) (fun x hx => (hshown x hx).1)
    fun _ => ⟨hkept _ (by simp) _, fun _ => ⟨hkept _ (by simp) _, trivial⟩⟩
  have hends : (r.iterate keyX (ascii "0") [ab, abc, abc]).any (·.2 = ascii "0") = true := by
    decide +kernel
  obtain rfl : last = ascii "0" := by
    rw [show r.iterate keyX (ascii "0") [ab, abc, abc] = some (names, last) from hiter] at hends
    exact of_decide_eq_true hends
  exact ⟨names, hiter, hcomplete rfl _ (fun h => absurd h (by decide)) fun x hx => (hshown x hx).2⟩

/-! ## A set of one member, and one that loses a member -/

def hashWith (fieldValues : List Bytes) : Store :=
  (exec (Hash.hset keyX fieldValues) (steady 1) { view := ∅ }).txn.view

def without (member : Bytes) (s : Store) : Store :=
  (exec (Set.srem keyX [member]) (steady 2) { view := s }).txn.view

/-- A cursor past the end panics, a member that was there all the time is not returned, and a
field with a NUL byte comes back without its first part. -/
theorem panics_and_misses : (exec ((Set.Op.sscan (ascii "5") 10 none).run keyX) (steady 3)
        { view := setWith [ascii "a"] }).out = .error .panic ∧
      (exec ((Hash.Op.hscan (ascii "5") [] 10).run keyX) (steady 3)
        { view := hashWith [ascii "f", ascii "v"] }).out = .error .panic ∧
      let abc := setWith [ascii "a", ascii "b", ascii "c"]
      (ElementScan.sscan none 1).iterate keyX (ascii "0")
          [⟨abc, steady 3⟩, ⟨without (ascii "a") abc, steady 3⟩] =
        some ([ascii "a", ascii "c"], ascii "0") ∧
      [abc, without (ascii "a") abc].Forall (fun s =>
        (exec (Set.sismember keyX (ascii "b")) (steady 3) { view := s }).out = .ok (.integer 1)) ∧
      (ElementScan.hscan [] 0).iterate keyX (ascii "0")
        [⟨hashWith [[120, 0, 121], ascii "v"], steady 3⟩] =
        some ([[121]], ascii "0") := by
  decide +kernel

end Invar.Collections
