import Invar.Common.Op
import Mathlib.Data.List.Perm.Subperm

/-!
# Values of scripts (`redis/script.rs`)

The reply of a command becomes a Lua value, and what a script returns becomes a reply again;
`cjson.encode` makes JSON of a value. A table is the list of its entries in the order of
`next`, with integers and strings as keys and no `nil`. What its length is, when its integer
keys leave gaps, is up to the interpreter: `length` is any function with the properties that
the results ask for.
-/

namespace Invar.Script

inductive Key where
  | integer (n : Int)
  | string (s : Bytes)
deriving DecidableEq, Repr

/-- A Lua value, without numbers that are not integers. -/
inductive Value where
  | nil
  | boolean (b : Bool)
  | integer (n : Int)
  | string (s : Bytes)
  | table (entries : List (Key × Value))

inductive EvalResult where
  | nil
  | integer (n : Int)
  | bulk (b : Bytes)
  | status (msg : Bytes)
  | err (msg : Bytes)
  | array (items : List EvalResult)

/-! ## Tables -/

/-- The keys from 1 to `n`. -/
def positions (n : Nat) : List Key := (List.range n).map fun i : Nat => .integer (i + 1)

/-- The keys are the integers from 1 to their number. -/
def Sequence {α : Type} (entries : List (Key × α)) : Prop :=
  (entries.map (·.1)).Perm (positions entries.length)
deriving Decidable

/-- The keys from 1 to `n` are set and `n + 1` is not. -/
def Border (entries : List (Key × Value)) (n : Nat) : Prop :=
  (∀ i < n, .integer (i + 1) ∈ entries.map (·.1)) ∧ .integer (n + 1) ∉ entries.map (·.1)

/-- The length of a table with the keys 1, …, n is n. -/
def CountsSequences (length : List (Key × Value) → Nat) : Prop :=
  ∀ entries, Sequence entries → length entries = entries.length

/-- The only border of a table, as a length. -/
def leastBorder (entries : List (Key × Value)) : Nat :=
  (List.range (entries.length + 1)).findIdx fun i => decide (.integer (i + 1) ∉ entries.map (·.1))

variable {α β : Type} {length : List (Key × Value) → Nat}

theorem nodup_positions (n : Nat) : (positions n).Nodup := by
  refine List.nodup_range.map fun i i' heq => ?_
  rw [Key.integer.injEq] at heq
  omega

theorem integer_mem_positions {n i : Nat} : .integer (i + 1) ∈ positions n ↔ i < n := by
  simp only [positions, List.mem_map, List.mem_range, Key.integer.injEq]
  constructor
  · rintro ⟨j, hj, heq⟩
    omega
  · exact fun hi => ⟨i, hi, rfl⟩

theorem Sequence.integer_mem {entries : List (Key × α)} (h : Sequence entries) (i : Nat) :
    .integer (i + 1) ∈ entries.map (·.1) ↔ i < entries.length :=
  h.mem_iff.trans integer_mem_positions

theorem lookup_of_mem [BEq α] [LawfulBEq α] {l : List (α × β)} (h : (l.map (·.1)).Nodup)
    {k : α} {v : β} (hmem : (k, v) ∈ l) : l.lookup k = some v := by
  obtain ⟨before, rest, rfl⟩ := List.append_of_mem hmem
  refine List.lookup_eq_some_iff.mpr ⟨before, rest, rfl, fun p hp => bne_iff_ne.mpr ?_⟩
  rintro rfl
  rw [List.map_append, List.nodup_append] at h
  exact h.2.2 _ (List.mem_map_of_mem hp) _ List.mem_cons_self rfl

theorem Sequence.border_eq {entries : List (Key × Value)} (h : Sequence entries) {n : Nat}
    (hn : Border entries n) : n = entries.length := by
  have hle : ¬n < entries.length := fun hlt => hn.2 ((h.integer_mem n).mpr hlt)
  have hge : ¬entries.length < n := fun hlt =>
    absurd ((h.integer_mem _).mp (hn.1 _ hlt)) (Nat.lt_irrefl _)
  omega

theorem Border.pos_iff {entries : List (Key × Value)} {n : Nat} (h : Border entries n) :
    0 < n ↔ .integer 1 ∈ entries.map (·.1) := by
  refine ⟨fun hn => h.1 0 hn, fun hmem => Nat.pos_of_ne_zero ?_⟩
  rintro rfl
  exact h.2 hmem

theorem border_leastBorder (entries : List (Key × Value)) :
    Border entries (leastBorder entries) := by
  -- `entries.length` keys cannot be one more position than that.
  have hmissing : ∃ i ∈ List.range (entries.length + 1), .integer (i + 1) ∉ entries.map (·.1) := by
    by_contra hall
    push Not at hall
    have hsub : positions (entries.length + 1) ⊆ entries.map (·.1) := by
      intro k hk
      obtain ⟨i, hi, rfl⟩ := List.mem_map.mp hk
      exact hall i hi
    have hle := (List.subperm_of_subset (nodup_positions _) hsub).length_le
    simp only [positions, List.length_map, List.length_range] at hle
    omega
  have hlt : leastBorder entries < (List.range (entries.length + 1)).length :=
    List.findIdx_lt_length_of_exists (by simpa using hmissing)
  obtain ⟨hend, hset⟩ := (List.findIdx_eq hlt).mp rfl
  simp only [List.getElem_range, decide_eq_true_eq, decide_eq_false_iff_not, not_not] at hend hset
  exact ⟨hset, hend⟩

theorem countsSequences_leastBorder : CountsSequences leastBorder :=
  fun entries h => h.border_eq (border_leastBorder entries)

/-! ## From replies to values and back -/

/-- The values under the keys 1, 2, …. -/
def enumerate {α : Type} (xs : List α) : List (Key × α) :=
  xs.mapIdx fun i x => (.integer (i + 1), x)

def replyTable (key : String) (msg : Bytes) : Value := .table [(.string (ascii key), .string msg)]

mutual

def respToPiccolo : RespValue → Value
  | .simpleString s => replyTable "ok" s
  | .error msg => replyTable "err" msg
  | .integer n => .integer n
  | .bulkString (some b) => .string b
  | .bulkString none => .boolean false
  | .array (some items) => .table (enumerate (itemsToPiccolo items))
  | .array none => .boolean false

def itemsToPiccolo : List RespValue → List Value
  | [] => []
  | r :: rest => respToPiccolo r :: itemsToPiccolo rest

end

/-- What `redis.call` gives for the reply of its command: an error is raised. -/
def callValue : RespValue → Except Bytes Value
  | .error msg => .error msg
  | r => .ok (respToPiccolo r)

def replyPayload : Value → Except Bytes Bytes
  | .string s => .ok s
  | .integer n => .ok (intText n)
  | .boolean b => .ok (ascii (if b then "true" else "false"))
  | _ => .error (ascii "table has no integer keys")

/-- `value_to_result` of a key. -/
def Key.result : Key → EvalResult
  | .integer n => .integer n
  | .string s => .bulk s

section

variable (length : List (Key × Value) → Nat)

/-- `table_to_result`, from the results of all entries. -/
def tableToResult (entries : List (Key × Value))
    (results : List (Key × Except Bytes EvalResult)) : Except Bytes EvalResult :=
  match entries.lookup (.string (ascii "err")), entries.lookup (.string (ascii "ok")) with
  | some v, _ => .err <$> replyPayload v
  | none, some v => .status <$> replyPayload v
  | none, none =>
    if 0 < length entries then
      .array <$> ((List.range (length entries)).map fun i =>
        (results.lookup (.integer (i + 1))).getD (.ok .nil)).mapM id
    else .array <$> (results.flatMap fun kr => [kr.2, .ok kr.1.result]).mapM id

mutual

def valueToResult : Value → Except Bytes EvalResult
  | .nil => .ok .nil
  | .boolean b => .ok (if b then .integer 1 else .nil)
  | .integer n => .ok (.integer n)
  | .string s => .ok (.bulk s)
  | .table entries => tableToResult length entries (entryResults entries)

def entryResults : List (Key × Value) → List (Key × Except Bytes EvalResult)
  | [] => []
  | (k, v) :: rest => (k, valueToResult v) :: entryResults rest

end

end

mutual

def resultReply : EvalResult → RespValue
  | .nil => .nullBulk
  | .integer n => .integer n
  | .bulk b => .bulk b
  | .status msg => .simpleString msg
  | .err msg => .error msg
  | .array items => .array (some (resultReplies items))

def resultReplies : List EvalResult → List RespValue
  | [] => []
  | r :: rest => resultReply r :: resultReplies rest

end

mutual

/-- The reply with null arrays as null bulk strings, at any depth. -/
def nullBulks : RespValue → RespValue
  | .array (some items) => .array (some (itemsNullBulks items))
  | .array none => .nullBulk
  | r => r

def itemsNullBulks : List RespValue → List RespValue
  | [] => []
  | r :: rest => nullBulks r :: itemsNullBulks rest

end

theorem keys_enumerate (xs : List α) : (enumerate xs).map (·.1) = positions xs.length :=
  List.ext_getElem (by simp [enumerate, positions]) (by simp [enumerate, positions])

theorem length_enumerate (xs : List α) : (enumerate xs).length = xs.length := List.length_mapIdx

theorem sequence_enumerate (xs : List α) : Sequence (enumerate xs) := by
  unfold Sequence
  rw [keys_enumerate, length_enumerate]

theorem lookup_enumerate (xs : List α) {i : Nat} (h : i < xs.length) :
    (enumerate xs).lookup (.integer (i + 1)) = some xs[i] := by
  refine lookup_of_mem (keys_enumerate xs ▸ nodup_positions _) ?_
  exact List.mem_of_getElem (i := i) (h := by rwa [length_enumerate]) (by simp [enumerate])

theorem lookup_string_enumerate (s : Bytes) (xs : List α) :
    (enumerate xs).lookup (.string s) = none := by
  refine List.lookup_eq_none_iff.mpr fun p hp => ?_
  obtain ⟨i, hi, rfl⟩ := List.mem_mapIdx.mp hp
  rfl

theorem entryResults_eq (entries : List (Key × Value)) :
    entryResults length entries = entries.map fun kv => (kv.1, valueToResult length kv.2) := by
  induction entries with
  | nil => rfl
  | cons kv rest ih => rw [entryResults, ih, List.map_cons]

/-- A table of values under 1, 2, … is read as the array of them. -/
theorem valueToResult_enumerate (hlength : CountsSequences length) (vs : List Value) :
    valueToResult length (.table (enumerate vs)) =
      .array <$> (vs.map (valueToResult length)).mapM id := by
  have hlen : length (enumerate vs) = vs.length := by
    rw [hlength _ (sequence_enumerate vs), length_enumerate]
  have hresults : entryResults length (enumerate vs) =
      enumerate (vs.map (valueToResult length)) := by
    rw [entryResults_eq]
    exact List.ext_getElem (by simp [enumerate]) (by simp [enumerate])
  rw [valueToResult, tableToResult, lookup_string_enumerate, lookup_string_enumerate, hresults]
  dsimp only
  rw [hlen]
  cases vs with
  | nil => rfl
  | cons v vs =>
    rw [if_pos (List.length_pos_iff.mpr (List.cons_ne_nil v vs))]
    congr 2
    refine List.ext_getElem (by simp) fun i _ h => ?_
    rw [List.getElem_map, List.getElem_range, lookup_enumerate _ h]
    rfl

mutual

theorem exists_result (hlength : CountsSequences length) : ∀ r : RespValue, ∃ result,
    valueToResult length (respToPiccolo r) = .ok result ∧ resultReply result = nullBulks r
  | .simpleString _ | .error _ | .integer _ | .bulkString (some _) | .bulkString none
  | .array none => ⟨_, rfl, rfl⟩
  | .array (some items) => by
    obtain ⟨results, h, hreply⟩ := exists_results hlength items
    refine ⟨.array results, ?_, ?_⟩
    · rw [respToPiccolo, valueToResult_enumerate hlength, h]
      rfl
    · rw [resultReply, hreply, nullBulks]

theorem exists_results (hlength : CountsSequences length) : ∀ items : List RespValue, ∃ results,
    ((itemsToPiccolo items).map (valueToResult length)).mapM id = .ok results ∧
      resultReplies results = itemsNullBulks items
  | [] => ⟨[], rfl, rfl⟩
  | r :: rest => by
    obtain ⟨result, h, hreply⟩ := exists_result hlength r
    obtain ⟨results, hrest, hreplies⟩ := exists_results hlength rest
    refine ⟨result :: results, ?_, ?_⟩
    · rw [itemsToPiccolo, List.map_cons, List.mapM_cons, hrest, id, h]
      rfl
    · rw [resultReplies, itemsNullBulks, hreply, hreplies]

end

/-- A reply comes back as it was but for null arrays, which become null bulk strings, and it is
the reply of a script that returns what `redis.call` gives, unless that raises an error. -/
theorem returned_reply (hlength : CountsSequences length) (r : RespValue) :
    (valueToResult length (respToPiccolo r)).map resultReply = .ok (nullBulks r) ∧
    ((∀ msg, r ≠ .error msg) →
      (callValue r >>= valueToResult length).map resultReply = .ok (nullBulks r)) := by
  obtain ⟨result, h, hreply⟩ := exists_result hlength r
  have hr : (valueToResult length (respToPiccolo r)).map resultReply = .ok (nullBulks r) := by
    rw [h, ← hreply]
    rfl
  refine ⟨hr, fun hne => ?_⟩
  have hcall : callValue r = .ok (respToPiccolo r) := by
    cases r with
    | error msg => exact absurd rfl (hne msg)
    | _ => rfl
  rw [hcall]
  exact hr

theorem returned_reply_nested :
    (callValue (.array (some [.array none, .simpleString (ascii "OK")])) >>=
      valueToResult leastBorder).map resultReply =
        .ok (.array (some [.nullBulk, .simpleString (ascii "OK")])) :=
  (returned_reply countsSequences_leastBorder _).2 (by simp)

/-! ## From values to JSON -/

/-- A JSON value, without numbers that are not integers. -/
inductive JsonValue where
  | null
  | bool (b : Bool)
  | number (n : Int)
  | string (s : Bytes)
  | array (items : List JsonValue)
  | object (members : List (Bytes × JsonValue))

def Key.text : Key → Bytes
  | .integer n => intText n
  | .string s => fromUtf8Lossy s

/-- The branch for tables of `piccolo_to_json`, from the JSON of all entries. -/
def tableToJson (len : Nat) (jsons : List (Key × JsonValue)) : JsonValue :=
  if 0 < len then
    .array ((List.range len).map fun i => (jsons.lookup (.integer (i + 1))).getD .null)
  else .object (Std.ExtTreeMap.ofList (jsons.map fun kj => (kj.1.text, kj.2)) compare).toList

mutual

def piccoloToJson (length : List (Key × Value) → Nat) : Value → JsonValue
  | .nil => .null
  | .boolean b => .bool b
  | .integer n => .number n
  | .string s => .string (fromUtf8Lossy s)
  | .table entries => tableToJson (length entries) (entryJsons length entries)

def entryJsons (length : List (Key × Value) → Nat) : List (Key × Value) → List (Key × JsonValue)
  | [] => []
  | (k, v) :: rest => (k, piccoloToJson length v) :: entryJsons length rest

end

mutual

/-- The JSON has all of the value: an array for a sequence with at least one item, and for any
other table an object with a member for each entry. -/
def Keeps : Value → JsonValue → Prop
  | .nil, .null => True
  | .boolean b, .bool b' => b = b'
  | .integer n, .number n' => n = n'
  | .string s, .string s' => s = s'
  | .table entries, .array items =>
    (entries ≠ [] ∧ Sequence entries) ∧ items.length = entries.length ∧
      EntriesKept (fun k j => ∃ i : Nat, k = .integer (i + 1) ∧ items[i]? = some j) entries
  | .table entries, .object members =>
    ¬(entries ≠ [] ∧ Sequence entries) ∧ members.length = entries.length ∧
      EntriesKept (fun k j => (k.text, j) ∈ members) entries
  | _, _ => False

/-- The JSON found for the key of each entry has all of its value. -/
def EntriesKept (found : Key → JsonValue → Prop) : List (Key × Value) → Prop
  | [] => True
  | (k, v) :: rest => (∃ j, found k j ∧ Keeps v j) ∧ EntriesKept found rest

end

mutual

/-- Strings are UTF-8 and the keys of a table have distinct texts. -/
def WellFormed : Value → Prop
  | .string s => fromUtf8Lossy s = s
  | .table entries => (entries.map (·.1.text)).Nodup ∧ EntriesWellFormed entries
  | _ => True

def EntriesWellFormed : List (Key × Value) → Prop
  | [] => True
  | (_, v) :: rest => WellFormed v ∧ EntriesWellFormed rest

end

mutual

/-- A table with the key 1, at any depth, is a sequence. -/
def Regular : Value → Prop
  | .table entries =>
    (.integer 1 ∈ entries.map (·.1) → Sequence entries) ∧ EntriesRegular entries
  | _ => True

def EntriesRegular : List (Key × Value) → Prop
  | [] => True
  | (_, v) :: rest => Regular v ∧ EntriesRegular rest

end

theorem entryJsons_eq (entries : List (Key × Value)) :
    entryJsons length entries = entries.map fun kv => (kv.1, piccoloToJson length kv.2) := by
  induction entries with
  | nil => rfl
  | cons kv rest ih => rw [entryJsons, ih, List.map_cons]

theorem sequence_entryJsons {entries : List (Key × Value)} :
    Sequence (entryJsons length entries) ↔ Sequence entries := by
  simp [Sequence, entryJsons_eq, Function.comp_def]

/-- In the array of a sequence each entry is found at its key. -/
theorem Sequence.found_iff {entries : List (Key × α)} (h : Sequence entries) {d : α} :
    ∀ kj ∈ entries, ∀ j, (∃ i : Nat, kj.1 = .integer (i + 1) ∧
      ((List.range entries.length).map fun i =>
        (entries.lookup (.integer (i + 1))).getD d)[i]? = some j) ↔ j = kj.2 := by
  intro kj hmem j
  obtain ⟨i, hi, hkey⟩ := List.mem_map.mp (h.mem_iff.mp (List.mem_map_of_mem hmem))
  have hnodup : (entries.map (·.1)).Nodup := h.nodup_iff.mpr (nodup_positions _)
  have hget : ((List.range entries.length).map fun i =>
      (entries.lookup (.integer (i + 1))).getD d)[i]? = some kj.2 := by
    rw [List.getElem?_map, List.getElem?_range (List.mem_range.mp hi), Option.map_some, hkey,
      lookup_of_mem hnodup hmem, Option.getD_some]
  constructor
  · rintro ⟨i', hkey', hj⟩
    obtain rfl : i' = i := by
      have := hkey.trans hkey'
      rw [Key.integer.injEq] at this
      omega
    exact Option.some.inj (hj.symm.trans hget)
  · rintro rfl
    exact ⟨i, hkey.symm, hget⟩

/-- The entries are kept, wherever the JSON of each is found, exactly if they are regular. -/
def EntriesAgree (length : List (Key × Value) → Nat) (entries : List (Key × Value)) : Prop :=
  ∀ found, (∀ kj ∈ entryJsons length entries, ∀ j, found kj.1 j ↔ j = kj.2) →
    (EntriesKept found entries ↔ EntriesRegular entries)

theorem EntriesAgree.keeps_array {entries : List (Key × Value)} (h : EntriesAgree length entries)
    (hborder : Border entries (length entries)) (hpos : 0 < length entries) :
    Keeps (.table entries) (piccoloToJson length (.table entries)) ↔ Regular (.table entries) := by
  have hone := hborder.pos_iff.mp hpos
  rw [piccoloToJson, tableToJson, if_pos hpos, Keeps, Regular]
  by_cases hseq : Sequence entries
  · have hlen := hseq.border_eq hborder
    have hne : entries ≠ [] := by
      rintro rfl
      exact absurd hone List.not_mem_nil
    rw [h _ ?_]
    · simp [hne, hseq, hlen]
    · have hsize : (entryJsons length entries).length = entries.length := by simp [entryJsons_eq]
      rw [hlen, ← hsize]
      exact (sequence_entryJsons.mpr hseq).found_iff
  · simp [hseq, hone]

theorem EntriesAgree.keeps_object {entries : List (Key × Value)} (h : EntriesAgree length entries)
    (hnodup : (entries.map (·.1.text)).Nodup) (hborder : Border entries (length entries))
    (hzero : ¬0 < length entries) :
    Keeps (.table entries) (piccoloToJson length (.table entries)) ↔ Regular (.table entries) := by
  have hone : .integer 1 ∉ entries.map (·.1) := fun hone => hzero (hborder.pos_iff.mpr hone)
  have hnot : ¬(entries ≠ [] ∧ Sequence entries) := fun hs =>
    hone ((hs.2.integer_mem 0).mpr (List.length_pos_iff.mpr hs.1))
  have hdistinct : ((entryJsons length entries).map fun kj => (kj.1.text, kj.2)).Pairwise
      fun a b => ¬compare a.1 b.1 = .eq := by
    rw [entryJsons_eq, List.map_map, List.pairwise_map]
    exact (List.pairwise_map.mp hnodup).imp fun hne heq => hne (Std.compare_eq_iff_eq.mp heq)
  rw [piccoloToJson, tableToJson, if_neg hzero, Keeps, Regular, h _ ?_]
  · rw [Std.ExtTreeMap.length_toList, Std.ExtTreeMap.size_ofList hdistinct]
    simp [hnot, hone, entryJsons_eq]
  · intro kj hmem j
    rw [Std.ExtTreeMap.mem_toList_iff_getElem?_eq_some,
      Std.ExtTreeMap.getElem?_ofList_of_mem Std.ReflOrd.compare_self hdistinct
        (List.mem_map_of_mem hmem), Option.some.injEq, eq_comm]

/-- A value keeps all if the entries of its table do. -/
theorem keeps_of_entries (hlength : ∀ entries, Border entries (length entries)) {v : Value}
    (hentries : ∀ entries, v = .table entries → EntriesWellFormed entries →
      EntriesAgree length entries)
    (h : WellFormed v) : Keeps v (piccoloToJson length v) ↔ Regular v := by
  cases v with
  | string s =>
    rw [WellFormed] at h
    simp [piccoloToJson, Keeps, Regular, h]
  | table entries =>
    have hagree := hentries entries rfl h.2
    by_cases hpos : 0 < length entries
    · exact hagree.keeps_array (hlength entries) hpos
    · exact hagree.keeps_object h.1 (hlength entries) hpos
  | _ => simp [piccoloToJson, Keeps, Regular]

theorem entriesAgree (hlength : ∀ entries, Border entries (length entries)) :
    ∀ entries, EntriesWellFormed entries → EntriesAgree length entries
  | [], _, _, _ => by simp [EntriesKept, EntriesRegular]
  | (k, v) :: rest, h, found, hfound => by
    rw [EntriesWellFormed] at h
    rw [entryJsons, List.forall_mem_cons] at hfound
    have hv := keeps_of_entries hlength (fun entries heq => entriesAgree hlength entries) h.1
    rw [EntriesKept, EntriesRegular, entriesAgree hlength rest h.2 found hfound.2, ← hv]
    simp only [hfound.1, exists_eq_left]

/-- The JSON of a value has all of it exactly if every table in it with the key 1 is a
sequence: any other entry of such a table is lost. -/
theorem keeps_piccoloToJson_iff (hlength : ∀ entries, Border entries (length entries)) (v : Value)
    (h : WellFormed v) : Keeps v (piccoloToJson length v) ↔ Regular v :=
  keeps_of_entries hlength (fun entries _ => entriesAgree hlength entries) h

/-- The table with the list 7, 8 under the name `l`. -/
def listTable : Value :=
  .table [(.string (ascii "l"), .table [(.integer 1, .integer 7), (.integer 2, .integer 8)])]

/-- The table with the list 1, 2 and the name `x` for `y`. -/
def mixedTable : Value :=
  .table [(.integer 1, .integer 1), (.integer 2, .integer 2),
    (.string (ascii "x"), .string (ascii "y"))]

theorem keeps_listTable : Keeps listTable (piccoloToJson leastBorder listTable) :=
  (keeps_piccoloToJson_iff border_leastBorder listTable
    (by simp [listTable, WellFormed, EntriesWellFormed]; decide)).mpr
    (by simp [listTable, Regular, EntriesRegular, Sequence]; decide)

theorem mixedTable_loses : WellFormed mixedTable ∧
    piccoloToJson leastBorder mixedTable = .array [.number 1, .number 2] ∧
    ¬Keeps mixedTable (piccoloToJson leastBorder mixedTable) := by
  refine ⟨?_, rfl, fun h => ?_⟩
  · simp [mixedTable, WellFormed, EntriesWellFormed]
    decide
  · exact absurd h.1.2 (by decide)

end Invar.Script
