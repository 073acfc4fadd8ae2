import Invar.Decimal
import Invar.Lib.FixedDigits
import Invar.Lib.Paging
import Invar.Redis.Dispatch

/-!
# Iterations of `SCAN`

The cursor of a page is the last name that it returned. A page starts after its
cursor in the order of the keys, so that the walk of `Lib/Paging` applies, as long as
the texts of the cursors are what they stand for: a key named `0` as the last one of a
page ends the iteration, and so does a key with an empty name. A type name that is not
known leaves no filter.
-/

namespace Invar

open StoreProg TxProg Dispatch Paging

/-! ## Requests and iterations -/

/-- The options of a `SCAN`, which are the same for all pages. -/
structure ScanRequest where
  count : Nat := 10
  pattern : Option Bytes := none
  type : Option Bytes := none
  positive : 0 < count := by decide
  isI64 : count < 2 ^ 63 := by decide

namespace ScanRequest

/-- The words after the cursor. -/
def options (r : ScanRequest) : List Bytes :=
  [ascii "COUNT", decimal r.count] ++ (r.pattern.toList.flatMap fun p => [ascii "MATCH", p]) ++
    r.type.toList.flatMap fun t => [ascii "TYPE", t]

/-- What the client asks for: names that match, with values of the named type. An unknown type
is the type of no value. -/
def wants (r : ScanRequest) (name : Bytes) (row : Row) : Bool :=
  r.pattern.all (Pattern.keyspaceMatch · name) &&
    r.type.all fun t => Keys.typeByte t = some (baseType row.metadata)

end ScanRequest

/-- The store and the environment of one page. -/
structure Snapshot where
  store : Store
  env : Nat → Tick

/-- The cursor and the names of a reply. -/
def scanReply : RespValue → Option (Bytes × List Bytes)
  | .array (some [.bulkString (some cursor), .array (some items)]) =>
    some (cursor, items.filterMap fun | .bulkString b => b | _ => none)
  | _ => none

theorem scanReply_bulks (cursor : Bytes) (items : List Bytes) :
    scanReply (.array (some [.bulk cursor, .bulks items])) = some (cursor, items) := by
  show some (cursor, (items.map RespValue.bulk).filterMap _) = some (cursor, items)
  rw [List.filterMap_map]
  exact congrArg (fun names => some (cursor, names)) List.filterMap_some

/-- One `SCAN` request: the next cursor, and the names. -/
def ScanRequest.page (r : ScanRequest) (c : Ctx) (cursor : Bytes) (s : Snapshot) :
    Option (Bytes × List Bytes) :=
  match scanCommand c cursor r.options with
  | .ok (.scan op) => (exec op.run s.env { view := s.store }).out.toOption.bind scanReply
  | _ => none

/-- A client that feeds back each cursor until it gets `0`, with the snapshot that each of its
requests meets: all names, and the last cursor. -/
def ScanRequest.iterate (r : ScanRequest) (c : Ctx) : (cursor : Bytes) → List Snapshot →
    Option (List Bytes × Bytes)
  | cursor, [] => some ([], cursor)
  | cursor, s :: rest => do
    let (next, names) ← r.page c cursor s
    if next = ascii "0" then if rest.isEmpty then return (names, next) else none
    else
      let (more, last) ← r.iterate c next rest
      return (names ++ more, last)

/-! ## One page -/

namespace Keys

/-- What is not filtered out. -/
def ScanOp.selects (op : ScanOp) (kr : Bytes × Row) : Bool :=
  op.pattern.all (Pattern.keyspaceMatch · (kr.1.drop op.dbPrefix.length)) &&
    op.typeFilter.all (· = baseType kr.2.metadata)

/-- The names that the loop over `rows` would return without a limit. -/
def ScanOp.selected (op : ScanOp) (rows : List (Bytes × Row)) : List Bytes :=
  ((rows.takeWhile fun kr => op.dbPrefix.isPrefixOf kr.1).filter op.selects).map
    (·.1.drop op.dbPrefix.length)

/-- The state of the loop: nothing has ended it yet. -/
structure ScanPage.Open (page : ScanPage) : Prop where
  exhausted : page.exhausted = false
  rest : page.rest = []

/-- How the loop ends: with all that is selected, or with the first `count` of it. -/
structure ScanOp.Ends (op : ScanOp) (count : Nat) (before all : List Bytes) (page : ScanPage) :
    Prop where
  keys : page.keys = before ++ all.take (count - before.length)
  full : page.finished op = false → count ≤ page.keys.length
  done : page.finished op = true → page.keys = before ++ all

theorem ScanOp.ends_scanLoop (op : ScanOp) (count : Nat) (rows : List (Bytes × Row))
    (page : ScanPage) (hopen : page.Open) (hlen : page.keys.length ≤ count) :
    op.Ends count page.keys (op.selected rows) (scanLoop op count rows page) := by
  induction rows generalizing page with
  | nil =>
    rw [scanLoop]
    split
    · exact ⟨by simp [selected], by simp [ScanPage.finished], by simp [selected]⟩
    · exact ⟨by simp [selected], fun h => by simp [ScanPage.finished, hopen.rest] at h,
        by simp [selected]⟩
  | cons kr rest ih =>
    obtain ⟨full, row⟩ := kr
    rw [scanLoop]
    split
    · rename_i hfull
      refine ⟨?_, fun _ => hfull, fun hdone => ?_⟩
      · simp [Nat.sub_eq_zero_of_le hfull]
      · have hnot : op.dbPrefix.isPrefixOf full = false := by
          simpa [ScanPage.finished, hopen.exhausted] using hdone
        simp [selected, hnot]
    · split
      · rename_i hnot
        simp only [Bool.not_eq_true'] at hnot
        refine ⟨by simp [selected, hnot], fun h => ?_, by simp [selected, hnot]⟩
        simp [ScanPage.finished] at h
      · rename_i hpre
        have hpre : op.dbPrefix.isPrefixOf full = true := by simpa using hpre
        dsimp only
        split
        · rename_i hskip
          have hsel : op.selects (full, row) = false := by
            simp only [Bool.or_eq_true, Option.any_eq_true] at hskip
            simp only [selects, Bool.and_eq_false_iff, Option.all_eq_false]
            simpa using hskip
          have heq : op.selected ((full, row) :: rest) = op.selected rest := by
            simp [selected, hpre, hsel]
          rw [heq]
          exact ih { page with lastSeen := full.drop op.dbPrefix.length }
            ⟨hopen.exhausted, hopen.rest⟩ hlen
        · rename_i htake
          have hsel : op.selects (full, row) = true := by
            simp only [Bool.or_eq_true, Option.any_eq_true, not_or, not_exists, not_and] at htake
            simp only [selects, Bool.and_eq_true, Option.all_eq_true]
            simpa using htake
          have heq : op.selected ((full, row) :: rest) =
              full.drop op.dbPrefix.length :: op.selected rest := by
            simp [selected, hpre, hsel]
          have h := ih { page with
            lastSeen := full.drop op.dbPrefix.length
            keys := page.keys ++ [full.drop op.dbPrefix.length] } ⟨hopen.exhausted, hopen.rest⟩
            (by simp; omega)
          have hsub : count - page.keys.length = count - (page.keys.length + 1) + 1 := by omega
          refine ⟨?_, h.full, fun hdone => ?_⟩
          · rw [heq, hsub, List.take_succ_cons]
            simpa using h.keys
          · rw [heq]
            simpa using h.done hdone

/-- The start of the range: after the cursor, or at the first key of the db. -/
def ScanOp.start (op : ScanOp) (cursor : Bytes) : Bound :=
  if cursor.isEmpty then .included op.dbPrefix else .excluded (op.dbPrefix ++ cursor)

/-- The rows that a page sees. -/
def ScanOp.rows (op : ScanOp) (cursor : Bytes) (s : Snapshot) : List (Bytes × Row) :=
  (rowsOf s.store (inRange (op.start cursor) .unbounded)).filter fun kr =>
    (s.env 0).listsExpired || !kr.2.expired (s.env 0).now

/-- A cursor as the place that it stands for. -/
def afterCursor (cursor : Bytes) : Option Bytes := if cursor.isEmpty then none else some cursor

theorem ScanOp.inRange_start (op : ScanOp) (cursor name : Bytes) :
    inRange (op.start cursor) .unbounded (op.dbPrefix ++ name) = true ↔
      ∀ c ∈ afterCursor cursor, Before c name := by
  unfold start afterCursor
  by_cases hempty : cursor.isEmpty
  · simp [hempty, inRange, FixedDigits.isLE_compare_append]
  · simp [hempty, inRange, Before, FixedDigits.compare_append_left]

variable {cursor k : Bytes} {op : ScanOp} {s : Snapshot}

/-- No row of a page is before the db. -/
theorem ScanOp.le_of_inRange
    (h : inRange (op.start cursor) .unbounded k = true) : (compare op.dbPrefix k).isLE = true := by
  unfold start at h
  by_cases hempty : cursor.isEmpty
  · simpa [hempty, inRange] using h
  · have hlt : compare (op.dbPrefix ++ cursor) k = .lt := by simpa [hempty, inRange] using h
    exact Std.TransCmp.isLE_trans (FixedDigits.isLE_compare_append _ cursor) (by simp [hlt])

theorem ScanOp.mem_rows {row : Row} : (k, row) ∈ op.rows cursor s ↔ s.store[k]? = some row ∧
      inRange (op.start cursor) .unbounded k = true ∧
      ((s.env 0).listsExpired || !row.expired (s.env 0).now) = true := by
  rw [rows, List.mem_filter, mem_rowsOf, and_assoc]

theorem ScanOp.sorted_rows (op : ScanOp) (cursor : Bytes) (s : Snapshot) :
    (op.rows cursor s).Pairwise fun a b => Before a.1 b.1 :=
  (Std.ExtTreeMap.ordered_keys_toList.filter _).filter _

/-- The keys of the db come first. -/
theorem takeWhile_eq_filter {dbPrefix : Bytes} {rows : List (Bytes × Row)}
    (hsorted : rows.Pairwise fun a b => Before a.1 b.1)
    (hle : ∀ kr ∈ rows, (compare dbPrefix kr.1).isLE = true) :
    rows.takeWhile (fun kr => dbPrefix.isPrefixOf kr.1) =
      rows.filter fun kr => dbPrefix.isPrefixOf kr.1 := by
  induction rows with
  | nil => rfl
  | cons kr rest ih =>
    obtain ⟨hfirst, hrest⟩ := List.pairwise_cons.mp hsorted
    have ih := ih hrest fun kr hkr => hle kr (List.mem_cons_of_mem _ hkr)
    by_cases hpre : dbPrefix.isPrefixOf kr.1 = true
    · simp only [List.takeWhile_cons, List.filter_cons, hpre, if_true, ih]
    · simp only [List.takeWhile_cons, List.filter_cons, hpre, if_false, Bool.false_eq_true]
      rw [eq_comm, List.filter_eq_nil_iff]
      -- a later key of the db would have this one between it and the prefix
      intro later hlater hin
      obtain ⟨name, hname⟩ := List.isPrefixOf_iff_prefix.mp hin
      have hbefore : compare kr.1 (dbPrefix ++ name) = .lt := hname ▸ hfirst later hlater
      exact hpre (List.isPrefixOf_iff_prefix.mpr
        (FixedDigits.prefix_of_between (hle kr List.mem_cons_self) hbefore))

theorem ScanOp.selected_rows (op : ScanOp) (cursor : Bytes) (s : Snapshot) :
    op.selected (op.rows cursor s) =
      (((op.rows cursor s).filter fun kr => op.dbPrefix.isPrefixOf kr.1).filter op.selects).map
        (·.1.drop op.dbPrefix.length) := by
  rw [selected, takeWhile_eq_filter (op.sorted_rows cursor s)]
  rintro ⟨k, row⟩ hkr
  exact le_of_inRange (mem_rows.mp hkr).2.1

theorem ScanOp.mem_selected {name : Bytes} : name ∈ op.selected (op.rows cursor s) ↔
      ∃ row, s.store[op.dbPrefix ++ name]? = some row ∧ (∀ c ∈ afterCursor cursor, Before c name) ∧
        ((s.env 0).listsExpired || !row.expired (s.env 0).now) = true ∧
        op.selects (op.dbPrefix ++ name, row) = true := by
  rw [selected_rows, List.mem_map]
  constructor
  · rintro ⟨⟨k, row⟩, hkr, rfl⟩
    rw [List.mem_filter, List.mem_filter] at hkr
    obtain ⟨⟨hkr, hpre⟩, hsel⟩ := hkr
    obtain ⟨name, hname⟩ := List.isPrefixOf_iff_prefix.mp hpre
    subst hname
    obtain ⟨hget, hrange, hlisted⟩ := mem_rows.mp hkr
    rw [List.drop_left]
    exact ⟨row, hget, (op.inRange_start cursor name).mp hrange, hlisted, hsel⟩
  · rintro ⟨row, hget, hafter, hlisted, hsel⟩
    refine ⟨(op.dbPrefix ++ name, row), ?_, List.drop_left ..⟩
    rw [List.mem_filter, List.mem_filter]
    exact ⟨⟨mem_rows.mpr ⟨hget, (op.inRange_start cursor name).mpr hafter, hlisted⟩,
      List.isPrefixOf_iff_prefix.mpr ⟨name, rfl⟩⟩, hsel⟩

theorem ScanOp.sorted_selected (op : ScanOp) (cursor : Bytes) (s : Snapshot) :
    (op.selected (op.rows cursor s)).Pairwise Before := by
  rw [selected_rows, List.pairwise_map]
  refine (((op.sorted_rows cursor s).filter _).filter _).imp_of_mem fun {a b} ha hb hab => ?_
  obtain ⟨x, hx⟩ := List.isPrefixOf_iff_prefix.mp (List.mem_filter.mp (List.mem_filter.mp ha).1).2
  obtain ⟨y, hy⟩ := List.isPrefixOf_iff_prefix.mp (List.mem_filter.mp (List.mem_filter.mp hb).1).2
  rw [← hx, ← hy] at hab ⊢
  rw [List.drop_left, List.drop_left]
  rwa [Before, FixedDigits.compare_append_left] at hab

/-- The page that the loop comes to. -/
def ScanOp.page (op : ScanOp) (cursor : Bytes) (s : Snapshot) : ScanPage :=
  scanLoop op (max op.count 1) (op.rows cursor s) {}

/-- The place after which the next page starts. -/
def ScanOp.nextPlace (op : ScanOp) (page : ScanPage) : Option Bytes :=
  if page.finished op then none else page.keys.getLast?

/-- **One `SCAN` is a page of the walk**, if `live` names are listed and selected. -/
theorem ScanOp.isPage (op : ScanOp) (cursor : Bytes) (s : Snapshot) {live listed : Bytes → Prop}
    (hlive : ∀ name, live name → ∃ row, s.store[op.dbPrefix ++ name]? = some row ∧
      row.expired (s.env 0).now = false ∧ op.selects (op.dbPrefix ++ name, row) = true)
    (hlisted : ∀ name row, s.store[op.dbPrefix ++ name]? = some row →
      ((s.env 0).listsExpired || !row.expired (s.env 0).now) = true →
      op.selects (op.dbPrefix ++ name, row) = true → listed name) :
    IsPage live listed (afterCursor cursor) (op.page cursor s).keys
      (op.nextPlace (op.page cursor s)) := by
  have hends : op.Ends (max op.count 1) [] (op.selected (op.rows cursor s)) (op.page cursor s) :=
    op.ends_scanLoop (max op.count 1) (op.rows cursor s) {} ⟨rfl, rfl⟩ (Nat.zero_le _)
  have hkeys : (op.page cursor s).keys =
      (op.selected (op.rows cursor s)).take (max op.count 1) := by simpa using hends.keys
  have hsorted := op.sorted_selected cursor s
  have hmem {name : Bytes} (h : name ∈ (op.page cursor s).keys) :
      name ∈ op.selected (op.rows cursor s) := List.mem_of_mem_take (hkeys ▸ h)
  refine ⟨?_, fun name h => ?_, fun name h => ?_, fun name h hafter hnext => ?_, fun c hc => ?_⟩
  · rw [hkeys]
    exact hsorted.sublist (List.take_sublist ..)
  · obtain ⟨_, _, hafter, -⟩ := mem_selected.mp (hmem h)
    exact hafter
  · obtain ⟨row, hget, -, hshown, hsel⟩ := mem_selected.mp (hmem h)
    exact hlisted name row hget hshown hsel
  · obtain ⟨row, hget, hexp, hsel⟩ := hlive name h
    have hin : name ∈ op.selected (op.rows cursor s) :=
      mem_selected.mpr ⟨row, hget, hafter, by simp [hexp], hsel⟩
    cases hfin : (op.page cursor s).finished op with
    | true =>
      have hall := hends.done hfin
      exact hall ▸ by simpa using hin
    | false =>
      have hne : (op.page cursor s).keys ≠ [] := by
        intro hnil
        have := hends.full hfin
        rw [hnil, List.length_nil] at this
        omega
      have hlast := List.getLast?_eq_some_getLast hne
      have hnot := hnext _ (by rw [nextPlace, hfin]; exact hlast)
      rw [hkeys]
      -- behind the limit everything comes after the last name of the page
      by_contra hout
      rw [← List.take_append_drop (max op.count 1) (op.selected (op.rows cursor s))] at hin hsorted
      have hdrop := (List.mem_append.mp hin).resolve_left hout
      have hin' : (op.page cursor s).keys.getLast hne ∈
          (op.selected (op.rows cursor s)).take (max op.count 1) :=
        hkeys ▸ List.getLast_mem hne
      exact hnot ((List.pairwise_append.mp hsorted).2.2 _ hin' _ hdrop)
  · unfold nextPlace at hc
    split at hc
    · cases hc
    · exact hc

end Keys

/-! ## The request of the client -/

namespace ScanRequest

/-- The op of a request. -/
def op (r : ScanRequest) (c : Ctx) (cursor : Bytes) : Keys.ScanOp where
  dbPrefix := c.dbPrefix
  cursor := cursor
  count := r.count
  pattern := r.pattern.filter (· ≠ ascii "*")
  typeFilter := r.type.bind Keys.typeByte

theorem scanCommand_options (r : ScanRequest) (c : Ctx) (cursor : Bytes) :
    scanCommand c cursor r.options = .ok (.scan (r.op c cursor)) := by
  have hcount : int (decimal r.count) = .ok (r.count : Int) := by
    rw [int, parseI64_decimal r.isI64]
    rfl
  have hpos : ¬ (r.count : Int) < 1 := by
    have := r.positive
    omega
  -- the words are told apart by their bytes
  have hwords : isWord "match" (ascii "COUNT") = false ∧ isWord "count" (ascii "COUNT") = true ∧
      isWord "match" (ascii "MATCH") = true ∧ isWord "match" (ascii "TYPE") = false ∧
      isWord "count" (ascii "TYPE") = false ∧ isWord "type" (ascii "TYPE") = true := by decide
  obtain ⟨h₁, h₂, h₃, h₄, h₅, h₆⟩ := hwords
  obtain ⟨count, pattern, type, _, _⟩ := r
  cases pattern with
  | none =>
    cases type with
    | none =>
      simp [scanCommand, options, scanOptions, h₁, h₂, hcount, hpos, bind, Except.bind, pure,
        Except.pure, op]
    | some t =>
      simp [scanCommand, options, scanOptions, h₁, h₂, h₄, h₅, h₆, hcount, hpos, bind, Except.bind,
        pure, Except.pure, op]
  | some p =>
    cases type with
    | none =>
      simp [scanCommand, options, scanOptions, h₁, h₂, h₃, hcount, hpos, bind, Except.bind, pure,
        Except.pure, op]
    | some t =>
      simp [scanCommand, options, scanOptions, h₁, h₂, h₃, h₄, h₅, h₆, hcount, hpos, bind,
        Except.bind, pure, Except.pure, op]

variable {r : ScanRequest} {c : Ctx} {store : Store} {name : Bytes}

/-- With a type name that is known the filter selects what the client wants. -/
theorem selects_op (htype : ∀ t ∈ r.type, (Keys.typeByte t).isSome = true)
    (c : Ctx) (cursor name : Bytes) (row : Row) :
    (r.op c cursor).selects (c.dbPrefix ++ name, row) = r.wants name row := by
  unfold Keys.ScanOp.selects wants op
  congr 1
  · rw [List.drop_left]
    cases r.pattern with
    | none => rfl
    | some p =>
      by_cases hstar : p = ascii "*"
      · subst hstar
        rfl
      · simp [hstar]
  · cases htyp : r.type with
    | none => rfl
    | some t =>
      obtain ⟨b, hb⟩ := Option.isSome_iff_exists.mp (htype t htyp)
      simp [hb]

/-- The place that the text of a cursor stands for. -/
def place (cursor : Bytes) : Option Bytes :=
  Keys.afterCursor (if cursor = ascii "0" then [] else cursor)

/-- The text of the cursor of a page. -/
def cursorText (r : ScanRequest) (c : Ctx) (cursor : Bytes) (page : Keys.ScanPage) : Bytes :=
  let last := if page.finished (r.op c cursor) then []
    else page.keys.getLast?.getD page.lastSeen
  if last.isEmpty then ascii "0" else last

/-- The page of a request. -/
def pageOf (r : ScanRequest) (c : Ctx) (cursor : Bytes) (s : Snapshot) : Keys.ScanPage :=
  (r.op c cursor).page (if cursor = ascii "0" then [] else cursor) s

theorem page_eq (r : ScanRequest) (c : Ctx) (cursor : Bytes) (s : Snapshot) : r.page c cursor s =
      some (r.cursorText c cursor (r.pageOf c cursor s), (r.pageOf c cursor s).keys) := by
  rw [page, scanCommand_options]
  exact scanReply_bulks (r.cursorText c cursor (r.pageOf c cursor s)) (r.pageOf c cursor s).keys

/-- At no page is there a key whose name reads as the end of the iteration. -/
def Readable (c : Ctx) (s : Snapshot) : Prop :=
  s.store[c.dbPrefix ++ ascii "0"]? = none ∧ s.store[c.dbPrefix]? = none

/-- The name is there at this page, and wanted. -/
def has (r : ScanRequest) (c : Ctx) (s : Snapshot) (name : Bytes) : Prop :=
  ∃ row, s.store[c.dbPrefix ++ name]? = some row ∧ (∀ n, row.expired (s.env n).now = false) ∧
    r.wants name row = true

/-- The name is in the store, and wanted. -/
def lists (r : ScanRequest) (c : Ctx) (s : Snapshot) (name : Bytes) : Prop :=
  ∃ row, s.store[c.dbPrefix ++ name]? = some row ∧ r.wants name row = true

/-- The iterator lists the name, and it is wanted. -/
def shows (r : ScanRequest) (c : Ctx) (s : Snapshot) (name : Bytes) : Prop :=
  ∃ row, s.store[c.dbPrefix ++ name]? = some row ∧
    ((s.env 0).listsExpired || !row.expired (s.env 0).now) = true ∧ r.wants name row = true

section

variable {s : Snapshot}

theorem lists_of_shows (h : r.shows c s name) : r.lists c s name := by
  obtain ⟨row, hget, -, hwants⟩ := h
  exact ⟨row, hget, hwants⟩

theorem isPage_pageOf (htype : ∀ t ∈ r.type, (Keys.typeByte t).isSome = true) (cursor : Bytes) :
    IsPage (r.has c s) (r.shows c s) (place cursor) (r.pageOf c cursor s).keys
      ((r.op c cursor).nextPlace (r.pageOf c cursor s)) := by
  refine (r.op c cursor).isPage _ s ?_ ?_
  · rintro name ⟨row, hget, hexp, hwants⟩
    exact ⟨row, hget, hexp 0, (selects_op htype ..).trans hwants⟩
  · intro name row hget hshown hsel
    exact ⟨row, hget, hshown, (selects_op htype c cursor name row).symm.trans hsel⟩

/-- **A cursor reads as the place it stands for**, unless a key has one of the two names. -/
theorem cursorText_eq (htype : ∀ t ∈ r.type, (Keys.typeByte t).isSome = true)
    (hread : Readable c s) (cursor : Bytes) :
    ((r.op c cursor).nextPlace (r.pageOf c cursor s) = none ∧
      r.cursorText c cursor (r.pageOf c cursor s) = ascii "0") ∨
    ∃ name, (r.op c cursor).nextPlace (r.pageOf c cursor s) = some name ∧
      r.cursorText c cursor (r.pageOf c cursor s) = name ∧ name ≠ ascii "0" ∧
      place name = some name := by
  have hpage := isPage_pageOf (c := c) (s := s) htype cursor
  have hends : (r.op c cursor).Ends (max r.count 1) [] _ (r.pageOf c cursor s) :=
    (r.op c cursor).ends_scanLoop (max r.count 1) _ {} ⟨rfl, rfl⟩ (Nat.zero_le _)
  cases hfin : (r.pageOf c cursor s).finished (r.op c cursor) with
  | true => exact .inl ⟨by simp [Keys.ScanOp.nextPlace, hfin], by simp [cursorText, hfin]⟩
  | false =>
    right
    have hne : (r.pageOf c cursor s).keys ≠ [] := by
      intro hnil
      have := hends.full hfin
      rw [hnil, List.length_nil] at this
      omega
    have hlast := List.getLast?_eq_some_getLast hne
    obtain ⟨row, hget, -⟩ := hpage.sound _ (List.getLast_mem hne)
    generalize (r.pageOf c cursor s).keys.getLast hne = name at hlast hget
    have hzero : name ≠ ascii "0" := by
      rintro rfl
      rw [hread.1] at hget
      cases hget
    have hnil : name ≠ [] := by
      rintro rfl
      rw [List.append_nil, hread.2] at hget
      cases hget
    refine ⟨name, by simp [Keys.ScanOp.nextPlace, hfin, hlast], ?_, hzero, ?_⟩
    · simp [cursorText, hfin, hlast, hnil]
    · simp [place, Keys.afterCursor, hzero, hnil]

end

/-- **An iteration is a walk.** -/
theorem walk_of_iterate
    (htype : ∀ t ∈ r.type, (Keys.typeByte t).isSome = true) {snaps : List Snapshot}
    (hread : ∀ s ∈ snaps, Readable c s) {cursor : Bytes} {names : List Bytes}
    (hne : snaps ≠ []) (h : r.iterate c cursor snaps = some (names, ascii "0")) :
    Walk (r.has c) (r.shows c) (place cursor) snaps names := by
  induction snaps generalizing cursor names with
  | nil => exact absurd rfl hne
  | cons s rest ih =>
    simp only [iterate, page_eq, Option.bind_eq_bind, Option.bind_some] at h
    have hpage := isPage_pageOf (c := c) (s := s) htype cursor
    rcases cursorText_eq htype (hread s List.mem_cons_self) cursor with
      ⟨hplace, htext⟩ | ⟨name, hplace, htext, hzero, hname⟩
    · rw [hplace] at hpage
      rw [htext, if_pos rfl] at h
      split at h
      · rename_i hempty
        obtain rfl : rest = [] := List.isEmpty_iff.mp hempty
        cases h
        exact .last hpage
      · cases h
    · rw [hplace] at hpage
      rw [htext, if_neg hzero] at h
      simp only [Option.bind_eq_some_iff] at h
      obtain ⟨⟨more, last⟩, hrest, hlast⟩ := h
      cases hlast
      have hrest' : rest ≠ [] := by
        rintro rfl
        simp only [iterate, Option.some.injEq, Prod.mk.injEq] at hrest
        exact hzero hrest.2
      have hwalk := ih (fun s hs => hread s (List.mem_cons_of_mem _ hs)) hrest' hrest
      rw [hname] at hwalk
      exact .more hpage hwalk

/-! ## The end of an iteration -/

/-- The names of the db after a place. -/
def ahead (c : Ctx) (store : Store) (after : Option Bytes) : List Bytes :=
  ((rowsOf store fun k => c.dbPrefix.isPrefixOf k).map (·.1.drop c.dbPrefix.length)).filter fun k =>
    after.all (compare · k == .lt)

/-- The next place is one of the names ahead, so fewer are left. -/
theorem length_ahead_lt {after : Option Bytes} {row : Row}
    (hget : store[c.dbPrefix ++ name]? = some row) (hafter : ∀ p ∈ after, Before p name) :
    (ahead c store (some name)).length < (ahead c store after).length := by
  have hin : name ∈ ahead c store after := by
    refine List.mem_filter.mpr
      ⟨List.mem_map.mpr ⟨(c.dbPrefix ++ name, row), ?_, List.drop_left ..⟩, ?_⟩
    · exact mem_rowsOf.mpr ⟨hget, List.isPrefixOf_iff_prefix.mpr ⟨name, rfl⟩⟩
    · simpa [Option.all_eq_true, Before] using hafter
  have hsub : ahead c store (some name) =
      (ahead c store after).filter fun k => compare name k == .lt := by
    rw [ahead, ahead, List.filter_filter]
    refine List.filter_congr fun k _ => ?_
    cases hk : compare name k == .lt with
    | false => simp [hk]
    | true =>
      have hall : after.all (compare · k == .lt) = true := by
        rw [Option.all_eq_true]
        intro p hp
        have hbefore : Before p k := (hafter p hp).trans (by simpa [Before] using hk)
        simpa [Before] using hbefore
      simp [hk, hall]
  rw [hsub, List.length_filter_lt_length_iff_exists]
  exact ⟨name, hin, by simp⟩

theorem exists_iterate (htype : ∀ t ∈ r.type, (Keys.typeByte t).isSome = true)
    (hread : ∀ env, Readable c ⟨store, env⟩) (envs : Nat → Nat → Tick) (cursor : Bytes) :
    ∃ n names, 0 < n ∧ r.iterate c cursor ((List.range n).map fun i => ⟨store, envs i⟩) =
        some (names, ascii "0") := by
  induction hlen : (ahead c store (place cursor)).length using Nat.strongRecOn
    generalizing cursor envs with
  | ind len ih =>
    have hpage := isPage_pageOf (c := c) (s := ⟨store, envs 0⟩) htype cursor
    rcases cursorText_eq (s := ⟨store, envs 0⟩) htype (hread _) cursor with
      ⟨-, htext⟩ | ⟨name, hplace, htext, hzero, hname⟩
    · exact ⟨1, (r.pageOf c cursor ⟨store, envs 0⟩).keys, Nat.one_pos,
        by simp [iterate, page_eq, htext]⟩
    · have hmem := List.mem_of_getLast? (hpage.last name hplace)
      obtain ⟨row, hget, -⟩ := hpage.sound name hmem
      have hlt := length_ahead_lt hget (hpage.fresh name hmem)
      rw [← hname, hlen] at hlt
      obtain ⟨n, names, -, hrest⟩ := ih _ hlt (fun i => envs (i + 1)) name rfl
      refine ⟨n + 1, (r.pageOf c cursor ⟨store, envs 0⟩).keys ++ names, Nat.succ_pos n, ?_⟩
      rw [List.range_succ_eq_map, List.map_cons, List.map_map]
      simp only [iterate, page_eq, htext, if_neg hzero, Option.bind_eq_bind, Option.bind_some]
      rw [show ((fun i => (⟨store, envs i⟩ : Snapshot)) ∘ Nat.succ) =
        fun i => ⟨store, envs (i + 1)⟩ from rfl, hrest]
      rfl

/-- **What an iteration guarantees.** No key of the db has the name `0` or an empty name at any
page, and the type name is one that the server knows. Then a name that is there and wanted at all
pages is returned once, every name that is returned is wanted at one of the pages, and once the
store stays as it is the iteration comes to its end, from any cursor. -/
theorem scan_iteration (r : ScanRequest) (c : Ctx)
    (htype : ∀ t ∈ r.type, (Keys.typeByte t).isSome = true) :
    (∀ snaps names, snaps ≠ [] → (∀ s ∈ snaps, Readable c s) →
      r.iterate c (ascii "0") snaps = some (names, ascii "0") →
        (∀ name, (∀ s ∈ snaps, r.has c s name) → names.count name = 1) ∧
        names.Nodup ∧ ∀ name ∈ names, ∃ s ∈ snaps, r.lists c s name) ∧
    ∀ store, (∀ env, Readable c ⟨store, env⟩) → ∀ (envs : Nat → Nat → Tick) cursor,
      ∃ n names, 0 < n ∧ r.iterate c cursor ((List.range n).map fun i => ⟨store, envs i⟩) =
        some (names, ascii "0") := by
  refine ⟨fun snaps names hne hread hrun => ?_, fun store hread envs cursor =>
    exists_iterate htype hread envs cursor⟩
  have hwalk := walk_of_iterate htype hread hne hrun
  have hnodup := nodup_of_sorted hwalk.sorted
  refine ⟨fun name hname => ?_, hnodup, fun name hname => ?_⟩
  on_goal 2 =>
    obtain ⟨s, hs, hshows⟩ := hwalk.sound name hname
    exact ⟨s, hs, lists_of_shows hshows⟩
  have hplace : place (ascii "0") = none := rfl
  have hmem := hwalk.complete hname (by rw [hplace]; exact nofun)
  exact List.count_eq_one_of_mem hnodup hmem

/-- A store of strings with these names in db 0. -/
def storeOfNames (names : List String) : Store :=
  names.foldl (fun store name => store.insert (publicKey 0 (ascii name)) { value := [] }) ∅

def snapshotOf (names : List String) : Snapshot where
  store := storeOfNames names
  env := fun _ => { now := 0 }

/-- Two pages, with a key that goes and a key that comes between them. -/
theorem scan_iteration_two_pages :
    let r : ScanRequest := { count := 2, type := some (ascii "string") }
    let c : Ctx := { db := 0, now := 0 }
    ∃ names, r.iterate c (ascii "0") [snapshotOf ["a", "b", "d"], snapshotOf ["b", "c", "d"]] =
        some (names, ascii "0") ∧ names.count (ascii "d") = 1 := by
  intro r c
  have hrun : r.iterate c (ascii "0") [snapshotOf ["a", "b", "d"], snapshotOf ["b", "c", "d"]] =
      some ([ascii "a", ascii "b", ascii "c", ascii "d"], ascii "0") := by decide +kernel
  refine ⟨_, hrun, ?_⟩
  have hread : ∀ s ∈ [snapshotOf ["a", "b", "d"], snapshotOf ["b", "c", "d"]],
      Readable c s := by
    simp only [List.forall_mem_cons, Readable]
    decide +kernel
  refine ((scan_iteration r c (by decide)).1 _ _ (by simp) hread hrun).1 (ascii "d") ?_
  simp only [List.forall_mem_cons]
  refine ⟨⟨{ value := [] }, by decide +kernel, fun _ => rfl, by decide +kernel⟩,
    ⟨{ value := [] }, by decide +kernel, fun _ => rfl, by decide +kernel⟩, by simp⟩

/-- A key named `0` at the end of a page ends the iteration before `1`, a key with an empty name
does so too, and the name of an unknown type selects every key. -/
theorem scan_iteration_misreads :
    let c : Ctx := { db := 0, now := 0 }
    iterate { count := 1 } c (ascii "0") [snapshotOf ["0", "1"]] =
      some ([ascii "0"], ascii "0") ∧
    iterate { count := 1 } c (ascii "0") [snapshotOf ["", "1"]] = some ([[]], ascii "0") ∧
    iterate { type := some (ascii "strnig") } c (ascii "0") [snapshotOf ["a"]] =
      some ([ascii "a"], ascii "0") ∧
    wants { type := some (ascii "strnig") } (ascii "a") { value := [] } = false := by
  decide +kernel

end ScanRequest

end Invar
