import Invar.Redis.Resp

/-!
# Cutting the input

The decoder may be stopped at any byte. A round that reads a line does not look at
what follows the line, so the only answer that more input can change is the failure
on a line that is not complete yet and already has `maxBulkLen` bytes.
-/

namespace Invar.Resp

open Incremental

variable {i : Nat} {src : Bytes} {d : Decoder} {lim : Limits}

theorem findCrlf_append (h : findCrlf src = some i) (chunk : Bytes) :
    findCrlf (src ++ chunk) = some i := by
  induction src generalizing i with
  | nil => simp [findCrlf] at h
  | cons b rest ih =>
    rw [findCrlf] at h
    rw [List.cons_append, findCrlf]
    split at h
    · rename_i hhere
      simp only [Bool.and_eq_true, decide_eq_true_eq] at hhere
      rw [if_pos (by simp [hhere.1, List.head?_append, hhere.2])]
      exact h
    · rename_i hhere
      obtain ⟨j, hj, rfl⟩ := Option.map_eq_some_iff.mp h
      -- there is a terminator further on, so `rest` has a first byte
      have hne : rest ≠ [] := by
        rintro rfl
        simp [findCrlf] at hj
      have hhead : (rest ++ chunk).head? = rest.head? := List.head?_append_of_ne_nil _ hne
      rw [hhead, if_neg hhere, ih hj]
      rfl

/-- A terminator that only more input brings comes after what was there. -/
theorem length_le_of_findCrlf_append {chunk : Bytes} (h : findCrlf src = none)
    (happend : findCrlf (src ++ chunk) = some i) : src.length ≤ i + 1 := by
  induction src generalizing i with
  | nil => simp
  | cons b rest ih =>
    rw [findCrlf] at h
    rw [List.cons_append, findCrlf] at happend
    split at h
    · cases h
    · rename_i hhere
      have hrest : findCrlf rest = none := Option.map_eq_none_iff.mp h
      split at happend
      · rename_i hthere
        cases rest with
        | nil => simp
        | cons c rest => exact absurd hthere hhere
      · obtain ⟨j, hj, rfl⟩ := Option.map_eq_some_iff.mp happend
        have := ih hrest hj
        simp only [List.length_cons]
        omega

/-- The line at the start of the buffer, if it is one and complete, is shorter than
`maxBulkLen` with its type byte and its end. -/
def Decoder.LineShort (lim : Limits) (d : Decoder) (src : Bytes) : Prop :=
  d.pendingBulkLen = none → src.head?.any (· ∈ typeBytes) = true →
    ∀ i, findCrlf src = some i → i + 2 < lim.maxBulkLen

/-- All complete lines of a stream are short. -/
def LinesShort (lim : Limits) (stream : Bytes) : Prop :=
  Along (Decoder.round lim) (Decoder.LineShort lim) {} stream

theorem lineOf_append (lim : Limits) (stack : List ArrayFrame) (type : UInt8)
    (content rest chunk : Bytes) : lineOf lim stack type content (rest ++ chunk) =
      (lineOf lim stack type content rest).extend chunk := by
  unfold lineOf bulkHeader arrayHeader
  repeat' split
  all_goals rfl

theorem bulkPayload_append {stack : List ArrayFrame} {len : Nat}
    (h : ¬ src.length < len + 2) (chunk : Bytes) :
    bulkPayload stack len (src ++ chunk) = (bulkPayload stack len src).extend chunk := by
  have hdrop : ((src ++ chunk).drop len).take 2 = (src.drop len).take 2 := by
    rw [List.drop_append_of_le_length (by omega), List.take_append_of_le_length (by simp; omega)]
  rw [bulkPayload, bulkPayload, if_neg (by simp; omega), if_neg h, hdrop,
    List.take_append_of_le_length (by omega), List.drop_append_of_le_length (by omega)]
  split <;> rfl

/-- The line of a buffer is the same with more behind it. -/
theorem readLine_append (h : findCrlf src = some i) (chunk : Bytes)
    (maxLen : Nat) : readLine (src ++ chunk) maxLen = readLine src maxLen := by
  rw [readLine, readLine, findCrlf_append h, h]

/-- A round that sees the end of its line or payload is not changed by more input. -/
theorem round_append (h : match d.pendingBulkLen with
      | some len => ¬ src.length < len + 2
      | none => src.head?.any (· ∉ typeBytes) = true ∨ ∃ i, findCrlf src = some i)
    (chunk : Bytes) : d.round lim (src ++ chunk) = (d.round lim src).extend chunk := by
  unfold Decoder.round
  cases hpending : d.pendingBulkLen with
  | some len =>
    rw [hpending] at h
    exact bulkPayload_append h chunk
  | none =>
    rw [hpending] at h
    cases src with
    | nil => simp [findCrlf] at h
    | cons type body =>
      simp only [List.cons_append]
      by_cases htype : type ∉ typeBytes
      · rw [if_pos htype, if_pos htype]
        rfl
      · rw [if_neg htype, if_neg htype]
        obtain ⟨i, hi⟩ := h.resolve_left (by simpa using htype)
        have hlen := findCrlf_lt hi
        have hline := readLine_append hi chunk lim.maxBulkLen
        rw [List.cons_append] at hline
        rw [hline, readLine, hi]
        dsimp only
        by_cases hlong : lim.maxBulkLen < i - 1
        · rw [if_pos hlong]
          rfl
        · rw [if_neg hlong]
          dsimp only
          rw [List.take_append_of_le_length (by simp only [List.length_cons] at hlen; omega),
            ← List.cons_append, List.drop_append_of_le_length hlen]
          exact lineOf_append ..

/-- Without the end of its line a round waits, or fails because the line is too long. -/
theorem round_of_incomplete
    (hpending : d.pendingBulkLen = none) (htype : src.head?.any (· ∈ typeBytes) = true)
    (h : findCrlf src = none) :
    d.round lim src = if lim.maxBulkLen ≤ src.length then .fail .lineTooLong else .wait := by
  cases src with
  | nil => simp at htype
  | cons type body =>
    simp only [List.head?_cons, Option.any_some, decide_eq_true_eq] at htype
    rw [Decoder.round, hpending]
    simp only [htype, not_true_eq_false, if_false, readLine, h]
    split <;> rename_i heq <;> split at heq <;> simp_all

/-- **Only a line that is too long before its end can fail too early.** -/
theorem stable_round (lim : Limits) : Stable (Decoder.round lim) (Decoder.LineShort lim) := by
  -- either the round sees all it needs, or what it waits for is missing
  have hcases (d : Decoder) (src chunk : Bytes) :
      d.round lim (src ++ chunk) = (d.round lim src).extend chunk ∨ d.round lim src = .wait ∨
      (d.pendingBulkLen = none ∧ src.head?.any (· ∈ typeBytes) = true ∧ findCrlf src = none) := by
    cases hpending : d.pendingBulkLen with
    | some len =>
      by_cases hlen : src.length < len + 2
      · exact .inr (.inl (by simp [Decoder.round, hpending, bulkPayload, hlen]))
      · exact .inl (round_append (by rw [hpending]; exact hlen) chunk)
    | none =>
      cases src with
      | nil => exact .inr (.inl (by simp [Decoder.round, hpending]))
      | cons type body =>
        by_cases htype : type ∈ typeBytes
        · cases hi : findCrlf (type :: body) with
          | none => exact .inr (.inr ⟨rfl, by simpa using htype, rfl⟩)
          | some i => exact .inl (round_append (by rw [hpending]; exact .inr ⟨i, hi⟩) chunk)
        · exact .inl (round_append (by rw [hpending]; exact .inl (by simpa using htype)) chunk)
  constructor
  · intro d src out d' rest chunk h
    rcases hcases d src chunk with happend | hwait | ⟨hpending, htype, hnone⟩
    · rw [happend, h]
      rfl
    · cases hwait.symm.trans h
    · rw [round_of_incomplete hpending htype hnone] at h
      split at h <;> cases h
  · intro d src e chunk h hok
    rcases hcases d src chunk with happend | hwait | ⟨hpending, htype, hnone⟩
    · rw [happend, h]
      rfl
    · cases hwait.symm.trans h
    · rw [round_of_incomplete hpending htype hnone] at h
      have hlong : lim.maxBulkLen ≤ src.length := by
        by_contra hlt
        rw [if_neg hlt] at h
        cases h
      have htype' : (src ++ chunk).head?.any (· ∈ typeBytes) = true := by
        cases src with
        | nil => simp at htype
        | cons type body => exact htype
      cases hi : findCrlf (src ++ chunk) with
      | none =>
        rw [round_of_incomplete hpending htype' hi, if_pos (by simp; omega)]
        rwa [if_pos hlong] at h
      | some i =>
        -- the line ends after what was there, so it is not short
        have hshort := hok hpending htype' i hi
        have hlate := length_le_of_findCrlf_append hnone hi
        omega

/-- **How a stream is cut into chunks does not matter**: the values, and the error or the state
in which the decoder waits for more, are those of the whole stream. -/
theorem decodeChunks_flatten (lim : Limits) (chunks : List Bytes)
    (h : LinesShort lim chunks.flatten) :
    decodeChunks lim chunks = decodeChunks lim [chunks.flatten] :=
  feedAll_eq (shrinks_round lim) (stable_round lim) rfl h

/-- A command and a number, one byte at a time. -/
theorem decodeChunks_flatten_bytes :
    let lim : Limits := { maxBulkLen := 16, maxArrayLen := 4, maxDepth := 2 }
    let chunks := ("*1\r\n$4\r\nPING\r\n:5\r\n".toList.map fun c => [UInt8.ofNat c.toNat])
    decodeChunks lim chunks = decodeChunks lim [chunks.flatten] := by
  refine decodeChunks_flatten _ _ ?_
  have hshort (d : Decoder) (src : Bytes) (h : (findCrlf src).all (· + 2 < 16) = true) :
      Decoder.LineShort { maxBulkLen := 16, maxArrayLen := 4, maxDepth := 2 } d src := by
    intro _ _ i hi
    simpa [hi] using h
  refine .go (hshort _ _ (by decide)) rfl (.go (hshort _ _ (by decide)) rfl
    (.go (hshort _ _ (by decide)) rfl (.go (hshort _ _ (by decide)) rfl
      (.stop (hshort _ _ (by decide)) ?_))))
  exact nofun

end Invar.Resp
