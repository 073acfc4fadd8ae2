import Invar.Lib.Reach
import Invar.Redis.Command
import Invar.Redis.StreamState

/-!
# Runs of commands on one stream

A history is the store together with the ids that `XADD` has given and those that
`XDEL` has removed. A command that fails leaves the store as it was.
-/

namespace Invar.Stream

open StoreProg TxProg StreamEntryId

inductive Command where
  | xadd (nomkstream : Bool) (maxLen : Option Nat) (minId explicitId : Option StreamEntryId)
      (fieldValues : List Bytes)
  | other (op : Op)
  | xread (streams : List (Bytes × Bytes)) (ids : List (Option StreamEntryId)) (count : Nat)

def Command.onKey (k : Bytes) : Command → DataCommand
  | .xadd nomkstream maxLen minId explicitId fieldValues =>
    .xadd k nomkstream maxLen minId explicitId fieldValues
  | .other op => .stream k op
  | .xread streams ids count => .xread streams ids count

/-- The ids among the arguments are `u64` numbers. -/
def Command.IsU64 : Command → Prop
  | .xadd _ _ minId explicitId _ => (∀ id ∈ minId, id.IsU64) ∧ ∀ id ∈ explicitId, id.IsU64
  | .other (.xdel ids) => ∀ id ∈ ids, id.IsU64
  | .other (.xtrim _ minId) => ∀ id ∈ minId, id.IsU64
  | .other (.xsetid lastId) => lastId.IsU64
  | _ => True

/-- The stream that the store has under the key; one id for each row. -/
def stored (s : Store) (k : Bytes) : Option State :=
  match s[k]? with
  | none => none
  | some row =>
    match payload row, prefixOf row (privateKey k) with
    | .ok data, .ok p => (StreamMeta.decode data).map fun info =>
      let entries := entryPrefix p.bytes info.version
      ⟨info, (keysOf s entries.isPrefixOf).map fun k =>
        (entryIdFromKey k entries.length).getD zero⟩
    | _, _ => none

structure History where
  store : Store
  assigned : List StreamEntryId := []
  deleted : List StreamEntryId := []

structure Action where
  command : Command
  env : Nat → Tick

/-- The `XADD` of a command on the key. -/
def Command.xaddOp (k : Bytes) : Command → Option XAddOp
  | .xadd nomkstream maxLen minId explicitId fieldValues =>
    some { publicKey := k, nodePrefix := privateKey k, nomkstream, maxLen, minId, explicitId
           fieldValues }
  | _ => none

/-- The id that a command gives to an entry of the stream. -/
def assignedBy (k : Bytes) (s : Store) (a : Action) : List StreamEntryId :=
  match a.command.xaddOp k with
  | none => []
  | some op =>
    match (exec op.write a.env { view := s }).out with
    | .ok id => [id]
    | .error _ => []

/-- The ids that a command removes one by one. -/
def deletedBy (k : Bytes) (s : Store) (a : Action) : List StreamEntryId :=
  match a.command with
  | .other (.xdel ids) => ((stored s k).getD State.new).ids.filter (· ∈ ids)
  | _ => []

def step (ln : F64 → F64) (k : Bytes) (h : History) (a : Action) : Option History :=
  let r := exec ((a.command.onKey k).run ln none) a.env { view := h.store }
  match r.out with
  | .error _ => some h
  | .ok _ => some
    { store := r.txn.view
      assigned := h.assigned ++ assignedBy k h.store a
      deleted := h.deleted ++ deletedBy k h.store a }

/-- What the environment of a command can be: a clock within `u64`, and for a new stream a
namespace that no row has. -/
def Admits (db : Int) (name : Bytes) (s : Store) (x : Tick) : Prop :=
  x.now < 2 ^ 64 ∧ (s[publicKey db name]? = none →
    keysOf s (namespaceOf db x.rand).isPrefixOf = [])

instance (db : Int) (name : Bytes) (s : Store) (x : Tick) : Decidable (Admits db name s x) :=
  inferInstanceAs (Decidable (_ ∧ _))

variable {s : Store} {k : Bytes}

theorem Admits.fresh {db : Int} {name : Bytes} {x : Tick} (h : Admits db name s x)
    (habsent : s[publicKey db name]? = none) (k : Bytes)
    (hk : (namespaceOf db x.rand).isPrefixOf k = true) : s[k]? = none := by
  cases hrow : s[k]? with
  | none => rfl
  | some row =>
    have hmem : k ∈ keysOf s (namespaceOf db x.rand).isPrefixOf :=
      mem_keysOf.mpr ⟨by rw [hrow]; rfl, hk⟩
    rw [h.2 habsent] at hmem
    cases hmem

/-! ## The stream of a store -/

theorem Holds.stored_eq {p : ElementPrefix} {st : State}
    (h : Holds s k p st) : stored s k = some st := by
  obtain ⟨row, data, hrow, -, hsent, hdec⟩ := h.sentinel
  have hids : (st.ids.map (entryKey p.bytes 1)).map
      (fun k => (entryIdFromKey k (entryPrefix p.bytes 1).length).getD zero) = st.ids := by
    rw [List.map_map]
    refine (List.map_congr_left fun id hid => ?_).trans (List.map_id _)
    simp [entryIdFromKey_entryKey (h.entries.u64 id hid)]
  simp only [stored, hrow, hsent.content_eq, hsent.place_eq, hdec, Option.map_some, h.version_eq,
    h.entries.keys, hids]

theorem stored_none (h : s[k]? = none) : stored s k = none := by
  simp [stored, h]

/-! ## Reading -/

theorem readOnly_readSentinel (k : Bytes) : ReadOnly (readSentinel k) := by
  refine (readOnly_get k).bind fun item => ?_
  cases item with
  | none => exact readOnly_pure _
  | some item =>
    dsimp only
    split
    · exact readOnly_fail _
    · exact (readOnly_ofExcept _).bind fun _ => readOnly_pure _

theorem readOnly_scanEntries (nodePrefix : Bytes) (version : Nat)
    (start stop : Option StreamEntryId)
    (count : Nat) : ReadOnly (scanEntries nodePrefix version start stop count) :=
  (readOnly_scan _).bind fun _ => readOnly_pure _

theorem readOnly_readStream (stream : XReadStream) (id : Option StreamEntryId) (count : Nat) :
    ReadOnly (readStream stream id count) := by
  refine (readOnly_readSentinel _).bind fun m => ?_
  cases m with
  | none => exact readOnly_pure _
  | some m => exact (readOnly_resolvePrefix _ _).bind fun _ => readOnly_scanEntries _ _ _ _ _

theorem readOnly_readStreams (count : Nat) (todo : List (XReadStream × Option StreamEntryId)) :
    ReadOnly (readStreams count todo) := by
  induction todo with
  | nil => exact readOnly_pure _
  | cons p rest ih =>
    exact (readOnly_readStream _ _ _).bind fun _ => ih.bind fun _ => readOnly_pure _

theorem readOnly_resolveReadIds (todo : List (XReadStream × Option StreamEntryId)) :
    ReadOnly (resolveReadIds todo) := by
  induction todo with
  | nil => exact readOnly_pure _
  | cons p rest ih =>
    obtain ⟨stream, id⟩ := p
    cases id with
    | some id => exact ih.bind fun _ => readOnly_pure _
    | none => exact (readOnly_readSentinel _).bind fun _ => ih.bind fun _ => readOnly_pure _

/-- The commands that only read. -/
def Command.reads : Command → Bool
  | .xadd .. => false
  | .other op => !op.isMutating
  | .xread .. => true

theorem readOnly_run (ln : F64 → F64) (k : Bytes) {c : Command} (h : c.reads = true) :
    ReadOnly ((c.onKey k).run ln none) := by
  cases c with
  | xadd => cases h
  | xread streams ids count =>
    show ReadOnly (xreadNow streams ids count)
    exact (readOnly_resolveReadIds _).bind fun _ => (readOnly_readStreams _ _).bind fun _ =>
      readOnly_pure _
  | other op =>
    cases op with
    | xlen =>
      show ReadOnly (xlen k)
      exact (readOnly_readSentinel _).bind fun _ => readOnly_pure _
    | xrange start stop count reverse =>
      show ReadOnly (xrange k start stop count reverse)
      refine (readOnly_resolvePrefix _ _).bind fun _ => (readOnly_readSentinel _).bind fun m => ?_
      cases m with
      | none => exact readOnly_pure _
      | some m => exact (readOnly_scanEntries _ _ _ _ _).bind fun _ => readOnly_pure _
    | xinfoStream =>
      show ReadOnly (xinfoStream k)
      refine (readOnly_readSentinel _).bind fun m => ?_
      cases m with
      | none => exact readOnly_fail _
      | some m => exact readOnly_pure _
    | xdel | xtrim | xsetid => cases h

/-! ## What a command does to the stream -/

variable {ln : F64 → F64} {db : Int} {name : Bytes} {h h' : History} {a : Action}
  {todo : List StreamEntryId} {op : XAddOp}

/-- The stream after a command, and what the command has given and removed. -/
inductive Changed (a : Action) (st : Option State) : Option State → List StreamEntryId →
    List StreamEntryId → Prop
  | same : Changed a st st [] []
  | added {nomkstream : Bool} {maxLen : Option Nat} {minId explicitId : Option StreamEntryId}
      {fieldValues : List Bytes} {n : Nat} {id : StreamEntryId} :
      a.command = .xadd nomkstream maxLen minId explicitId fieldValues → id.IsU64 →
      nextId explicitId (st.getD .new).info.lastId (a.env n).now = .ok id →
      Changed a st (some ((st.getD .new).xadd maxLen minId id)) [id] []
  | removed {todo : List StreamEntryId} {st₁ : State} : a.command = .other (.xdel todo) →
      st = some st₁ → Changed a st (some (st₁.xdel todo)) [] (st₁.ids.filter (· ∈ todo))
  | trimmed {maxLen : Option Nat} {minId : Option StreamEntryId} {st₁ : State} :
      a.command = .other (.xtrim maxLen minId) → st = some st₁ →
      Changed a st (some (st₁.xtrim maxLen minId)) [] []
  | set {lastId : StreamEntryId} : a.command = .other (.xsetid lastId) →
      Changed a st (some ((st.getD .new).xsetid lastId)) [] []

/-- The store has the stream, or no row under the key. -/
inductive Tracks (s : Store) (k : Bytes) : Option State → Prop
  | absent : s[k]? = none → Tracks s k none
  | present {p : ElementPrefix} {st : State} : Holds s k p st → st.info.lastId.IsU64 →
      Tracks s k (some st)

theorem isU64_saved (st : State) : st.saved.info.lastId.IsU64 :=
  ⟨Nat.mod_lt _ (by decide), Nat.mod_lt _ (by decide)⟩

theorem Tracks.stored_eq {st : Option State} (h : Tracks s k st) : stored s k = st := by
  cases h with
  | absent h => exact stored_none h
  | present h _ => exact h.stored_eq

/-- A command without ids to give or to remove. -/
theorem step_quiet (hadd : a.command.xaddOp k = none)
    (hdel : ∀ todo, a.command ≠ .other (.xdel todo)) (hstep : step ln k h a = some h') :
    h' = h ∨ (∃ reply, (exec ((a.command.onKey k).run ln none) a.env { view := h.store }).out =
        .ok reply) ∧
      h' = { h with
        store := (exec ((a.command.onKey k).run ln none) a.env { view := h.store }).txn.view } := by
  have hassigned : assignedBy k h.store a = [] := by simp [assignedBy, hadd]
  have hdeleted : deletedBy k h.store a = [] := by
    unfold deletedBy
    split
    · rename_i todo heq
      exact absurd heq (hdel todo)
    · rfl
  unfold step at hstep
  dsimp only at hstep
  rw [hassigned, hdeleted, List.append_nil, List.append_nil] at hstep
  split at hstep
  · exact .inl (Option.some.inj hstep).symm
  · rename_i reply hout
    exact .inr ⟨⟨reply, hout⟩, (Option.some.inj hstep).symm⟩

theorem step_xadd (hop : a.command.xaddOp k = some op) (hstep : step ln k h a = some h') :
    h' = h ∨ ∃ id, (exec op.write a.env { view := h.store }).out = .ok id ∧
      h' = { h with
        store := (exec op.write a.env { view := h.store }).txn.view
        assigned := h.assigned ++ [id] } := by
  obtain ⟨command, env⟩ := a
  cases command with
  | other | xread => cases hop
  | xadd nomkstream maxLen minId explicitId fieldValues =>
    have hrun : exec (((Command.xadd nomkstream maxLen minId explicitId fieldValues).onKey k).run
        ln none) env { view := h.store } =
          (exec op.write env { view := h.store }).andThen fun id => pure (.bulk id.display) := by
      rw [← exec_bind]
      cases hop
      rfl
    unfold step at hstep
    simp only [hrun, Run.andThen, assignedBy, hop, deletedBy, List.append_nil] at hstep
    cases hout : (exec op.write env { view := h.store }).out with
    | error e =>
      simp only [hout] at hstep
      exact .inl (Option.some.inj hstep).symm
    | ok id =>
      simp only [hout, exec, pure] at hstep
      exact .inr ⟨id, rfl, (Option.some.inj hstep).symm⟩

theorem step_xdel (hop : a.command = .other (.xdel todo)) (hstep : step ln k h a = some h') :
    h' = h ∨ (∃ reply, (exec (xdel k todo) a.env { view := h.store }).out = .ok reply) ∧
      h' = { h with
        store := (exec (xdel k todo) a.env { view := h.store }).txn.view
        deleted := h.deleted ++ ((stored h.store k).getD State.new).ids.filter (· ∈ todo) } := by
  unfold step at hstep
  simp only [hop, assignedBy, Command.xaddOp, deletedBy, List.append_nil] at hstep
  split at hstep
  · exact .inl (Option.some.inj hstep).symm
  · rename_i reply hout
    exact .inr ⟨⟨reply, hout⟩, (Option.some.inj hstep).symm⟩

/-- The store and the record after a command follow from the stream before it. -/
def Follows (k : Bytes) (h : History) (a : Action) (st : Option State) (h' : History) : Prop :=
  ∃ st' ids gone, Changed a st st' ids gone ∧ Tracks h'.store k st' ∧
    h'.assigned = h.assigned ++ ids ∧ h'.deleted = h.deleted ++ gone

section Commands

variable {st : Option State} (hdb : db < 2 ^ 31) (henv : ∀ n, Admits db name h.store (a.env n))
  (htracks : Tracks h.store (publicKey db name) st)

theorem Follows.same (htracks : Tracks h.store k st) : Follows k h a st h :=
  ⟨st, [], [], .same, htracks, by simp, by simp⟩

theorem Follows.of_store {st' : Option State} (hchanged : Changed a st st' [] [])
    (htracks : Tracks s k st') : Follows k h a st { h with store := s } :=
  ⟨st', [], [], hchanged, htracks, by simp, by simp⟩

/-- A fact about a command under the environments that it meets. -/
theorem exec_ok_of_wp {α : Type} {p : TxProg α} {env : Nat → Tick} {t : Txn Bytes Row} {x : α}
    {Q : Post α} (hwp : wp (fun y => ∃ n, y = env n) p Q (fun _ _ => True) t)
    (hout : (exec p env t).out = .ok x) :
    Q x (exec p env t).txn :=
  (exec_of_wp hwp fun n => ⟨n, rfl⟩).1 x hout

include hdb henv htracks

theorem follows_xadd (hu64 : a.command.IsU64) (hop : a.command.xaddOp (publicKey db name) = some op)
    (hstep : step ln (publicKey db name) h a = some h') :
    Follows (publicKey db name) h a st h' := by
  have hnow : ∀ x, (∃ n, x = a.env n) → x.now < 2 ^ 64 := fun _ ⟨n, hn⟩ => hn ▸ (henv n).1
  obtain rfl | ⟨id, hout, rfl⟩ := step_xadd hop hstep
  · exact .same htracks
  · obtain ⟨command, env⟩ := a
    cases command with
    | other | xread => cases hop
    | xadd nomkstream maxLen minId explicitId fieldValues =>
      cases hop
      obtain ⟨hmin, hexp⟩ := hu64
      cases htracks with
      | absent habsent =>
        have hfresh : ∀ x, (∃ n, x = env n) → ∀ k,
            (namespaceOf db x.rand).isPrefixOf k = true → h.store[k]? = none :=
          fun _ ⟨n, hn⟩ => hn ▸ (henv n).fresh habsent
        obtain ⟨⟨_, ⟨n, rfl⟩, hid⟩, p, hholds⟩ := exec_ok_of_wp
          (wp_write_none hdb habsent hfresh _ rfl rfl hexp hmin hnow) hout
        have hid64 := nextId_isU64 hexp ⟨by decide, by decide⟩ (henv n).1 hid
        exact ⟨_, [id], [], .added rfl hid64 hid, .present hholds (isU64_saved _), rfl, by simp⟩
      | present hholds hlast =>
        obtain ⟨⟨_, ⟨n, rfl⟩, hid⟩, hholds'⟩ := exec_ok_of_wp
          (wp_write_some _ rfl hholds hlast hexp hmin hnow) hout
        have hid64 := nextId_isU64 hexp hlast (henv n).1 hid
        exact ⟨_, [id], [], .added rfl hid64 hid, .present hholds' (isU64_saved _), rfl, by simp⟩

omit hdb henv in
theorem follows_xdel (hu64 : ∀ id ∈ todo, id.IsU64) (hop : a.command = .other (.xdel todo))
    (hstep : step ln (publicKey db name) h a = some h') :
    Follows (publicKey db name) h a st h' := by
  obtain rfl | ⟨⟨reply, hout⟩, rfl⟩ := step_xdel hop hstep
  · exact .same htracks
  · rw [htracks.stored_eq]
    cases htracks with
    | absent habsent =>
      have hview := exec_ok_of_wp (wp_xdel_none habsent) hout
      rw [hview]
      exact ⟨none, [], [], .same, .absent habsent, by simp, by simp [State.new]⟩
    | present hholds hlast =>
      have hholds' := exec_ok_of_wp (wp_xdel hholds hu64) hout
      exact ⟨_, [], _, .removed hop rfl, .present hholds' (isU64_saved _), by simp, rfl⟩

omit hdb henv in
theorem follows_xtrim {maxLen : Option Nat} {minId : Option StreamEntryId}
    (hu64 : ∀ id ∈ minId, id.IsU64) (hop : a.command = .other (.xtrim maxLen minId))
    (hstep : step ln (publicKey db name) h a = some h') :
    Follows (publicKey db name) h a st h' := by
  obtain rfl | ⟨⟨reply, hout⟩, rfl⟩ := step_quiet (by rw [hop]; rfl) (by rw [hop]; nofun) hstep
  · exact .same htracks
  · rw [hop] at hout ⊢
    cases htracks with
    | absent habsent =>
      have hview := exec_ok_of_wp (wp_xtrim_none habsent) hout
      exact Follows.of_store .same (.absent (hview ▸ habsent))
    | present hholds hlast =>
      have hholds' := exec_ok_of_wp (wp_xtrim hholds hu64) hout
      exact Follows.of_store (.trimmed hop rfl) (.present hholds' (isU64_saved _))

theorem follows_xsetid {lastId : StreamEntryId} (hop : a.command = .other (.xsetid lastId))
    (hstep : step ln (publicKey db name) h a = some h') :
    Follows (publicKey db name) h a st h' := by
  obtain rfl | ⟨⟨reply, hout⟩, rfl⟩ := step_quiet (by rw [hop]; rfl) (by rw [hop]; nofun) hstep
  · exact .same htracks
  · rw [hop] at hout ⊢
    cases htracks with
    | absent habsent =>
      have hfresh : ∀ x, (∃ n, x = a.env n) → ∀ k,
          (namespaceOf db x.rand).isPrefixOf k = true → h.store[k]? = none :=
        fun _ ⟨n, hn⟩ => hn ▸ (henv n).fresh habsent
      obtain ⟨p, hholds⟩ := exec_ok_of_wp (wp_xsetid_none hdb habsent hfresh lastId) hout
      exact Follows.of_store (.set hop) (.present hholds (isU64_saved _))
    | present hholds hlast =>
      have hholds' := exec_ok_of_wp (wp_xsetid_some hholds) hout
      exact Follows.of_store (.set hop) (.present hholds' (isU64_saved _))

/-- **What a step does.** -/
theorem step_follows (hu64 : a.command.IsU64) (hstep : step ln (publicKey db name) h a = some h') :
    Follows (publicKey db name) h a st h' := by
  have hread : a.command.reads = true → Follows (publicKey db name) h a st h' := by
    intro hread
    have hquiet := readOnly_run ln (publicKey db name) hread
    obtain rfl | ⟨-, rfl⟩ := step_quiet
      (by cases hc : a.command <;> simp_all [Command.xaddOp, Command.reads])
      (by intro todo hc; simp [hc, Command.reads, Op.isMutating] at hread) hstep
    · exact .same htracks
    · rw [exec_readOnly hquiet]
      exact .same htracks
  cases hop : a.command with
  | xadd => exact follows_xadd hdb henv htracks hu64 (by rw [hop]; rfl) hstep
  | xread => exact hread (by rw [hop]; rfl)
  | other op =>
    rw [hop] at hu64
    cases op with
    | xlen | xrange | xinfoStream => exact hread (by rw [hop]; rfl)
    | xdel todo => exact follows_xdel htracks hu64 hop hstep
    | xtrim maxLen minId => exact follows_xtrim htracks hu64 hop hstep
    | xsetid lastId => exact follows_xsetid hdb henv htracks hop hstep

end Commands

end Invar.Stream
