import Invar.Common.Sentinel
import Invar.Redis.Requests

/-!
# Adding to a stored integer

`INCR`, `INCRBY`, `DECR` and `DECRBY` are one op on a string, `HINCRBY` is another one on
a field. Both add as `i64` does in a release build: the sum is exact if and only if it fits
(`increment_exact`), and wraps around otherwise (`increments_wrap`).
-/

namespace Invar.Increments

open StoreProg TxProg Dispatch Requests

/-- The commands, with the texts of their amounts. -/
inductive Increment where
  | incr
  | incrby (amount : Bytes)
  | decr
  | decrby (amount : Bytes)
  | hincrby (field amount : Bytes)

namespace Increment

/-- What the command is to add. -/
def amount : Increment → Option Int
  | .incr => some 1
  | .incrby text => parseI64 text
  | .decr => some (-1)
  | .decrby text => (parseI64 text).map Neg.neg
  | .hincrby _ text => parseI64 text

/-- The request, as the dispatcher takes it. -/
def command (c : Ctx) (key : Bytes) : Increment → Option DataCommand
  | .incr => accepted c "incr" [key]
  | .incrby text => accepted c "incrby" [key, text]
  | .decr => accepted c "decr" [key]
  | .decrby text => accepted c "decrby" [key, text]
  | .hincrby field text => accepted c "hincrby" [key, field, text]

/-- Where the number is: under the key, or in the field under the prefix of the hash. -/
def cell (k : Bytes) (p : ElementPrefix) : Increment → Bytes
  | .hincrby field _ => Hash.fieldKey p.bytes field
  | _ => k

end Increment

/-- An integer is stored in the cell, and does not expire while the command runs. -/
structure NumberAt (s : Store) (env : Nat → Tick) (cell : Bytes) (row : Row) (a : Int) : Prop where
  row_eq : s[cell]? = some row
  alive : row.LastsFor (answers env)
  text : parseI64 row.value = some a

/-- For `HINCRBY` the key has a hash whose fields are under `p`. -/
def Resolves (s : Store) (env : Nat → Tick) (k : Bytes) (p : ElementPrefix) : Increment → Prop
  | .hincrby .. => ∃ sentinel, s[k]? = some sentinel ∧ sentinel.LastsFor (answers env) ∧
      prefixOf sentinel (privateKey k) = .ok p
  | _ => True

/-- A wrapped amount gives the same wrapped sum. -/
theorem wrapI64_add_wrapI64 (a d : Int) : wrapI64 (a + wrapI64 d) = wrapI64 (a + d) :=
  Int.add_bmod_bmod

/-! ## The two ops -/

section

variable {t : Txn Bytes Row} {A : Tick → Prop} {E : Post DbError}
  {k cell : Bytes} {row : Row} {a : Int}

/-- The reply is the wrapped sum, and its text is all that was written. -/
def Added (t : Txn Bytes Row) (cell : Bytes) (sum : Int) (reply : RespValue)
    (t' : Txn Bytes Row) : Prop :=
  reply = .integer (wrapI64 sum) ∧
    ∃ row, t'.view = t.view.insert cell row ∧ row.value = intText (wrapI64 sum)

theorem keepTtlOf_key (e : Entry) (item : Row) (now : Int) :
    (e.keepTtlOf item now).key = e.key := by
  unfold Entry.keepTtlOf
  split <;> rfl

theorem keepTtlOf_value (e : Entry) (item : Row) (now : Int) :
    (e.keepTtlOf item now).value = e.value := by
  unfold Entry.keepTtlOf
  split <;> rfl

/-- `INCR` and the like. -/
theorem wp_increment (hrow : t.view[k]? = some row) (hlast : row.LastsFor A)
    (htext : parseI64 row.value = some a) (amount : Int) :
    wp A (Strings.increment k amount) (Added t k (a + amount)) E t := by
  unfold Strings.increment
  rw [wp_seq]
  refine wp_get_some hrow hlast ?_
  simp only [htext]
  rw [wp_seq, wp_now]
  intro x _
  rw [wp_seq, wp_set]
  intro y _
  rw [keepTtlOf_key]
  exact ⟨rfl, _, rfl, keepTtlOf_value ..⟩

/-- `HINCRBY` on a field that is there. -/
theorem wp_hincrby {sentinel : Row} {p : ElementPrefix} {field : Bytes}
    (hsent : t.view[k]? = some sentinel) (halive : sentinel.LastsFor A)
    (hp : prefixOf sentinel (privateKey k) = .ok p)
    (hrow : t.view[Hash.fieldKey p.bytes field]? = some row) (hlast : row.LastsFor A)
    (htext : parseI64 row.value = some a) (amount : Int) : wp A (Hash.hincrby k field amount)
      (Added t (Hash.fieldKey p.bytes field) (a + amount)) E t := by
  unfold Hash.hincrby
  rw [wp_seq]
  refine wp_resolvePrefixForWrite_some hsent halive hp ?_
  rw [wp_seq]
  unfold Hash.fieldNumber
  rw [wp_seq]
  refine wp_get_some hrow hlast ?_
  simp only [htext]
  show wp A ((TxProg.set _).bind fun _ => pure (RespValue.integer (wrapI64 (a + amount)))) _ _ _
  rw [wp_bind, wp_set]
  intro x _
  exact ⟨rfl, _, rfl, rfl⟩

end

/-! ## The commands -/

variable {c : Ctx} {key : Bytes} {s : Store} {env : Nat → Tick} {p : ElementPrefix} {row : Row}
  {a d : Int}

/-- A request with an amount that is a number is accepted. -/
theorem accepted_amount {text : Bytes} {n : Int} (h : parseI64 text = some n) (field : Bytes) :
    accepted c "incrby" [key, text] = some (.string (c.key key) (.increment n)) ∧
      accepted c "decrby" [key, text] = some (.string (c.key key) (.increment (wrapI64 (-n)))) ∧
      accepted c "hincrby" [key, field, text] = some (.hash (c.key key) (.hincrby field n)) := by
  have hint : int text = .ok n := by
    rw [int, h]
    rfl
  refine ⟨?_, ?_, ?_⟩
  · show Except.toOption ((int text >>= fun n => pure (Strings.Op.increment n)) >>= fun op =>
      pure (DataCommand.string (c.key key) op)) = _
    rw [hint]
    rfl
  · show Except.toOption ((int text >>= fun n => pure (Strings.Op.increment (wrapI64 (-n)))) >>=
      fun op => pure (DataCommand.string (c.key key) op)) = _
    rw [hint]
    rfl
  · show Except.toOption ((int text >>= fun n => pure (Hash.Op.hincrby field n)) >>= fun op =>
      pure (DataCommand.hash (c.key key) op)) = _
    rw [hint]
    rfl

/-- The op that a request runs adds the amount up to wrapping. -/
theorem wp_command {i : Increment} (ln : F64 → F64) (hd : i.amount = some d)
    (hres : Resolves s env (c.key key) p i) (hnum : NumberAt s env (i.cell (c.key key) p) row a) :
    ∃ cmd, i.command c key = some cmd ∧
      wp (answers env) (cmd.run ln none) (Added { view := s } (i.cell (c.key key) p) (a + d))
        (fun _ _ => False) { view := s } := by
  cases i with
  | incr =>
    cases hd
    exact ⟨_, rfl, wp_increment hnum.row_eq hnum.alive hnum.text 1⟩
  | incrby text =>
    exact ⟨_, (accepted_amount hd []).1, wp_increment hnum.row_eq hnum.alive hnum.text d⟩
  | decr =>
    cases hd
    exact ⟨_, rfl, wp_increment hnum.row_eq hnum.alive hnum.text (-1)⟩
  | decrby text =>
    obtain ⟨n, hn, rfl⟩ := Option.map_eq_some_iff.mp hd
    refine ⟨_, (accepted_amount hn []).2.1, ?_⟩
    have hadd := wp_increment (E := fun _ _ => False) (t := { view := s }) hnum.row_eq hnum.alive
      hnum.text (wrapI64 (-n))
    unfold Added at hadd ⊢
    rwa [wrapI64_add_wrapI64] at hadd
  | hincrby field text =>
    obtain ⟨sentinel, hsent, halive, hp⟩ := hres
    exact ⟨_, (accepted_amount hd field).2.2,
      wp_hincrby hsent halive hp hnum.row_eq hnum.alive hnum.text d⟩

/-- What an increment is to do: a sum that fits is the reply and is stored in the cell, in place
of the old number; any other sum is refused and nothing is written. -/
def ExactOrRefused (s : Store) (cell : Bytes) (sum : Int)
    (run : Run Bytes Row Tick DbError RespValue) : Prop :=
  if IsI64 sum then
    run.out = .ok (.integer sum) ∧ ∃ row, run.txn.view = s.insert cell row ∧
      row.value = intText sum ∧ parseI64 row.value = some sum
  else (∃ e, run.out = .error e) ∧ run.txn.view = s

/-- **Increments are exact or refused if and only if the sum fits 64 bits.** -/
theorem increment_exact (ln : F64 → F64) (c : Ctx) (key : Bytes) (s : Store) (env : Nat → Tick)
    (i : Increment) (p : ElementPrefix) (row : Row) (a d : Int) (hd : i.amount = some d)
    (hres : Resolves s env (c.key key) p i) (hnum : NumberAt s env (i.cell (c.key key) p) row a) :
    ∃ cmd, i.command c key = some cmd ∧ (ExactOrRefused s (i.cell (c.key key) p) (a + d)
      (Call.outcome ln s { command := cmd, waiter := none, env }) ↔ IsI64 (a + d)) := by
  obtain ⟨cmd, hcmd, hwp⟩ := wp_command ln hd hres hnum
  obtain ⟨reply, hout, hreply, row', hview, hvalue⟩ := exec_ok_of_wp hwp env fun n => ⟨n, rfl⟩
  refine ⟨cmd, hcmd, ?_⟩
  unfold ExactOrRefused
  split
  case isTrue hfits =>
    rw [wrapI64_of_isI64 hfits] at hreply hvalue
    refine iff_of_true ⟨hreply ▸ hout, row', hview, hvalue, ?_⟩ hfits
    rw [hvalue]
    exact parseI64_intText hfits.1 hfits.2
  case isFalse hwraps =>
    -- the wrapped sum is a reply, not an error
    refine iff_of_false (fun ⟨⟨e, he⟩, _⟩ => ?_) hwraps
    cases hout.symm.trans he

/-! ## At the ends of the range -/

/-- The least amount can be subtracted when the sum fits. -/
theorem increment_exact_decrby :
    let s := storeAfter [("set", words ["k", "-1"])]
    ∃ cmd, (Increment.decrby (intText (-2 ^ 63))).command { db := 0, now := 1 } (ascii "k") =
        some cmd ∧
      ExactOrRefused s (publicKey 0 (ascii "k")) (2 ^ 63 - 1)
        (Call.outcome id s { command := cmd, waiter := none, env := clock 2 }) := by
  obtain ⟨cmd, hcmd, hiff⟩ := increment_exact id { db := 0, now := 1 } (ascii "k")
    (storeAfter [("set", words ["k", "-1"])]) (clock 2) (.decrby (intText (-2 ^ 63))) (.legacy [])
    { value := ascii "-1", metadata := Strings.typeString } (-1) (2 ^ 63)
      (by decide +kernel) trivial
    ⟨by decide +kernel, fun _ _ => rfl, by decide +kernel⟩
  exact ⟨cmd, hcmd, hiff.mpr (by decide)⟩

/-- The greatest integer plus one is the least one, in a string and in a field; the least one
minus one and the negation of the least one wrap around as well. -/
theorem increments_wrap :
    let top := intText (2 ^ 63 - 1)
    let bottom := intText (-2 ^ 63)
    replies [("set", [ascii "k", top]), ("incr", words ["k"]), ("get", words ["k"]),
        ("set", [ascii "k", top]), ("incrby", words ["k", "1"]),
        ("hset", [ascii "h", ascii "f", top]), ("hincrby", words ["h", "f", "1"]),
        ("set", [ascii "k", bottom]), ("decr", words ["k"]),
        ("set", words ["k", "0"]), ("decrby", [ascii "k", bottom])] =
      [some .ok, some (.integer (-2 ^ 63)), some (.bulk bottom),
        some .ok, some (.integer (-2 ^ 63)),
        some (.integer 1), some (.integer (-2 ^ 63)),
        some .ok, some (.integer (2 ^ 63 - 1)),
        some .ok, some (.integer (-2 ^ 63))] := by
  decide +kernel

end Invar.Increments
