import Invar.Redis.Collections
import Invar.Redis.CommandRuns

/-!
# The counts of sets and hashes

In every run of commands on sets and hashes, sentinels and elements stay those of
collections (`Stored layout`), so each count is the number of elements, which is not 0.
-/

namespace Invar.Collections

open StoreProg TxProg Transition

/-! ## The commands that read -/

theorem readOnly_loadSetMembers (k nodePrefix : Bytes) :
    ReadOnly (Set.loadSetMembers k nodePrefix) := by
  refine (readOnly_readCount false k).bind fun n => ?_
  cases n with
  | none => exact readOnly_pure _
  | some n =>
    exact (readOnly_resolvePrefix _ _).bind fun _ => (readOnly_memberValues _).bind fun _ =>
      readOnly_pure _

theorem readOnly_allMembers (k : Bytes) : ReadOnly (Set.allMembers k) :=
  (readOnly_resolvePrefix _ _).bind fun _ => readOnly_loadSetMembers _ _

theorem readOnly_combineRest (kind : Set.BinarySetOpKind) (keys ms : List Bytes) :
    ReadOnly (Set.combineRest kind keys ms) := by
  induction keys generalizing ms with
  | nil => exact readOnly_pure _
  | cons key keys ih => exact (readOnly_loadSetMembers _ _).bind fun _ => ih _

theorem readOnly_combineSets (kind : Set.BinarySetOpKind) (keys : List Bytes) :
    ReadOnly (Set.combineSets kind keys) := by
  cases keys with
  | nil => exact readOnly_pure _
  | cons key keys => exact (readOnly_loadSetMembers _ _).bind fun _ => readOnly_combineRest _ _ _

theorem readOnly_randPicks {α : Type} (items : List α) (n : Nat) :
    ReadOnly (randPicks items n) := by
  induction n with
  | zero => exact readOnly_pure _
  | succ n ih => exact (readOnly_randIndex _).bind fun _ => ih.bind fun _ => readOnly_pure _

theorem readOnly_randSample {α : Type} (items : List α) (count : Int) :
    ReadOnly (randSample items count) := by
  unfold randSample
  split
  · exact readOnly_pure _
  · split
    · split
      · exact readOnly_pure _
      · exact (readOnly_randPerm _).bind fun _ => readOnly_pure _
    · exact readOnly_randPicks _ _

/-- The set commands of one key that are not mutating. -/
theorem readOnly_setOp (k : Bytes) {op : Set.Op} (h : op.isMutating = false) :
    ReadOnly (op.run k) := by
  cases op with
  | sadd | srem | spop => cases h
  | scard => exact (readOnly_readCount false k).bind fun _ => readOnly_pure _
  | smembers => exact (readOnly_allMembers k).bind fun _ => readOnly_pure _
  | sismember member =>
    refine (readOnly_resolvePrefix _ _).bind fun _ => (readOnly_readCount false k).bind fun n => ?_
    cases n with
    | none => exact readOnly_pure _
    | some n => exact (readOnly_get _).bind fun _ => readOnly_pure _
  | srandmember count =>
    refine (readOnly_allMembers k).bind fun _ => (readOnly_randSample _ _).bind fun _ => ?_
    split <;> exact readOnly_pure _
  | sscan cursor count pattern =>
    refine (readOnly_resolvePrefix _ _).bind fun _ => (readOnly_readCount false k).bind fun n => ?_
    cases n with
    | none => exact readOnly_pure _
    | some n =>
      exact (readOnly_memberValues _).bind fun _ => .ite (readOnly_fail _) (readOnly_pure _)

theorem readOnly_fieldRow (k field : Bytes) : ReadOnly (Hash.fieldRow k field) :=
  (readOnly_resolvePrefix _ _).bind fun _ => readOnly_get _

theorem readOnly_getFields (p : ElementPrefix) (fields : List Bytes) :
    ReadOnly (Hash.getFields p fields) := by
  induction fields with
  | nil => exact readOnly_pure _
  | cons field fields ih => exact (readOnly_get _).bind fun _ => ih.bind fun _ => readOnly_pure _

theorem readOnly_loadAll (k : Bytes) : ReadOnly (Hash.loadAll k) := by
  refine (readOnly_resolvePrefix _ _).bind fun _ => (readOnly_get _).bind fun item => ?_
  cases item with
  | none => exact readOnly_pure _
  | some item => exact (readOnly_scan _).bind fun _ => readOnly_pure _

/-- The hash commands that are not mutating. -/
theorem readOnly_hashOp (k : Bytes) {op : Hash.Op} (h : op.isMutating = false) :
    ReadOnly (op.run k) := by
  cases op with
  | hset | hmset | hsetnx | hdel | hincrby | hincrbyfloat => cases h
  | hget field => exact (readOnly_fieldRow _ _).bind fun _ => readOnly_pure _
  | hexists field => exact (readOnly_fieldRow _ _).bind fun _ => readOnly_pure _
  | hstrlen field => exact (readOnly_fieldRow _ _).bind fun _ => readOnly_pure _
  | hmget fields =>
    exact (readOnly_resolvePrefix _ _).bind fun _ => (readOnly_getFields _ _).bind fun _ =>
      readOnly_pure _
  | hlen => exact (readOnly_readCount true k).bind fun _ => readOnly_pure _
  | hkeys => exact (readOnly_loadAll k).bind fun _ => readOnly_pure _
  | hvals => exact (readOnly_loadAll k).bind fun _ => readOnly_pure _
  | hgetall => exact (readOnly_loadAll k).bind fun _ => readOnly_pure _
  | hrandfield count withValues =>
    refine (readOnly_loadAll k).bind fun pairs => ?_
    cases pairs with
    | none => exact readOnly_pure _
    | some pairs =>
      refine (readOnly_randSample _ _).bind fun picked => ?_
      dsimp only
      split
      · split <;> exact readOnly_pure _
      · exact readOnly_pure _
  | hscan cursor pattern count =>
    refine (readOnly_loadAll k).bind fun pairs => ?_
    cases pairs with
    | none => exact readOnly_pure _
    | some pairs => exact .ite (readOnly_fail _) (readOnly_pure _)

/-! ## Runs -/

inductive Command where
  | set (db : Int) (name : Bytes) (op : Set.Op)
  | smove (db : Int) (src dst member : Bytes)
  | setOp (db : Int) (kind : Set.BinarySetOpKind) (names : List Bytes)
  | setStore (db : Int) (kind : Set.BinarySetOpKind) (dest : Bytes) (names : List Bytes)
  | hash (db : Int) (name : Bytes) (op : Hash.Op)
  | key (cmd : KeyCommand)

def Command.data : Command → DataCommand
  | .set db name op => .set (publicKey db name) op
  | .smove db src dst member => .smove (publicKey db src) (publicKey db dst) member
  | .setOp db kind names => .setOp kind (names.map (publicKey db))
  | .setStore db kind dest names => .setStore kind (publicKey db dest) (names.map (publicKey db))
  | .hash db name op => .hash (publicKey db name) op
  | .key cmd => cmd.data

structure Action where
  command : Command
  env : Nat → Tick

def Action.call (a : Action) : Call := { command := a.command.data, waiter := none, env := a.env }

def step (ln : F64 → F64) (s : Store) (a : Action) : Option Store := a.call.step ln s

/-- The rows of the elements of a key. -/
def elementRows (s : Store) (k : Bytes) : List Bytes :=
  match s[k]? with
  | none => []
  | some row =>
    match prefixOf row (privateKey k) with
    | .ok p => keysOf s (p.bytes ++ [0]).isPrefixOf
    | .error _ => []

/-- A collection can be made under the key, or get more elements. -/
structure CanGrow (s : Store) (env : Nat → Tick) (db : Int) (name : Bytes) (adds : Nat) : Prop where
  db_lt : db < 2 ^ 31
  fresh : ∀ n, idUnused s (env n) = true
  small : (elementRows s (publicKey db name)).length + adds < 2 ^ 32

/-- The value under the key is not a set. -/
def noSet (s : Store) (k : Bytes) :
    Bool := !s[k]?.any fun row => baseType row.metadata = Set.typeSet

/-- **The condition for a command.** The dispatcher asks for a member or a pair, and keys are
well typed: no field of a set is incremented. No collection gets 2³² elements, ids are not
drawn twice, and a set operation does not store an empty set. -/
def Meets (s : Store) (a : Action) : Prop :=
  match a.command with
  | .set db name (.sadd members) => members ≠ [] ∧ CanGrow s a.env db name members.length
  | .smove db _ dst _ => CanGrow s a.env db dst 1
  | .setStore db kind dest names =>
    CanGrow s a.env db dest 0 ∧
      ∀ ms, (exec (Set.combineSets kind (names.map (publicKey db))) a.env { view := s }).out =
        .ok ms →
        ms ≠ [] ∧ ms.length < 2 ^ 32
  | .hash db name (.hset fieldValues) | .hash db name (.hmset fieldValues) =>
    pairsOf fieldValues ≠ [] ∧ CanGrow s a.env db name (pairsOf fieldValues).length
  | .hash db name (.hsetnx _ _) => CanGrow s a.env db name 1
  | .hash db name (.hincrby _ _) | .hash db name (.hincrbyfloat _ _) =>
    noSet s (publicKey db name) = true ∧ CanGrow s a.env db name 1
  | .key cmd => cmd.NamesDb
  | _ => True

variable {ln : F64 → F64} {s s' : Store} {C : Catalog Collection} {k : Bytes} {a : Action}

theorem elementRows_of_stored {P : Place} {c : Collection} (h : Stored layout s C)
    (hk : C k = some (P, c)) : (elementRows s k).length = c.items.size := by
  obtain ⟨row, hrow, -, hsent⟩ := h.isSentinel hk
  simp only [elementRows, hrow, hsent.place_eq]
  rw [length_keysOf]
  exact (region_of_stored h hk).length_rowsOf

theorem elementRows_of_absent (h : Stored layout s C) (hpub : IsPublic k) (hk : C k = none) :
    elementRows s k = [] := by
  simp only [elementRows, h.absent hpub hk]

theorem length_elementRows (h : Stored layout s C) (hpub : IsPublic k) :
    (elementRows s k).length = (itemsAt C k).size := by
  cases hk : C k with
  | none => simp only [elementRows_of_absent h hpub hk, itemsAt, hk]; rfl
  | some Pc => simp only [elementRows_of_stored h hk, itemsAt, hk]

theorem not_isOther_of_noSet (h : Stored layout s C) (hset : noSet s k = true) :
    ¬IsOther C k true := by
  rintro ⟨⟨P, c⟩, hk, htype⟩
  obtain ⟨row, hrow, -, hsent⟩ := h.isSentinel hk
  have hfalse : c.isHash = false := by simpa using htype
  have hbase := hsent.type_eq
  rw [show layout.type c = typeOf c.isHash from rfl, hfalse] at hbase
  simp only [noSet, hrow, Option.any_some, hbase] at hset
  revert hset
  decide

/-- The result that is stored is the one that the condition speaks of. -/
theorem stored_of_setStore {db : Int} {kind : Set.BinarySetOpKind} {dest : Bytes}
    {keys : List Bytes} {env : Nat → Tick} (h : Stored layout s C) (hdb : db < 2 ^ 31)
    (hfresh : DrawsFresh C fun x => ∃ n, env n = x)
    (hresult : ∀ ms, (exec (Set.combineSets kind keys) env { view := s }).out = .ok ms →
      ms ≠ [] ∧ ms.length < 2 ^ 32) (reply : RespValue)
    (hout : (exec (Set.storeOp kind (publicKey db dest) keys) env { view := s }).out = .ok reply) :
    ∃ C', Stored layout
      (exec (Set.storeOp kind (publicKey db dest) keys) env { view := s }).txn.view C' := by
  have hload : wp (fun x => ∃ n, env n = x) (Set.combineSets kind keys)
      (fun ms t' => ms.Nodup ∧ t'.view = s) (fun _ _ => True) { view := s } :=
    wp_combineSets (fun key _ t ht => ht ▸ wp_loadSetMembers key _) rfl
  have hcombined := (exec_of_wp hload fun n => ⟨n, rfl⟩).1
  have henv := exec_env (Set.combineSets kind keys) env { view := s }
  unfold Set.storeOp at hout ⊢
  rw [Prog.bind_eq, exec_bind] at hout ⊢
  generalize exec (Set.combineSets kind keys) env { view := s } = r at *
  unfold Run.andThen at hout ⊢
  cases hr : r.out with
  | error e =>
    rw [hr] at hout
    cases hout
  | ok ms =>
    rw [hr] at hout
    obtain ⟨hnodup, hview⟩ := hcombined ms hr
    obtain ⟨hne, hsmall⟩ := hresult ms hr
    have hwp : wp (fun x => ∃ n, env n = x) ((Set.storeSetResult (publicKey db dest)
        (privateKey (publicKey db dest)) ms).bind fun n => pure (RespValue.integer n))
        (fun _ t' => ∃ C', Stored layout t'.view C') (fun _ _ => True) r.txn := by
      rw [wp_bind]
      exact wp_storeSetResult (hview ▸ h) hdb rfl hfresh hnodup hne hsmall
        fun _ _ C' hC' => ⟨C', hC'⟩
    exact (exec_of_wp hwp fun n => (henv n).imp fun _ hm => hm.symm).1 reply hout

/-- **One command keeps sentinels and elements together.** -/
theorem Meets.step (hmeets : Meets s a) (h : Stored layout s C)
    (hstep : step ln s a = some s') : ∃ C', Stored layout s' C' := by
  obtain ⟨command, env⟩ := a
  refine Call.step_of_end (I := fun s => ∃ C', Stored layout s C') ⟨C, h⟩ ?_ hstep
  change ∀ reply, (exec (command.data.run ln none) env { view := s }).out = .ok reply → ∃ C',
    Stored layout (exec (command.data.run ln none) env { view := s }).txn.view C'
  have hfreshOf : (∀ n, idUnused s (env n) = true) → DrawsFresh C fun x => ∃ n, env n = x :=
    fun hfresh => h.drawsFresh fun x ⟨n, hn⟩ => hn ▸ hfresh n
  have hsmallOf : ∀ {db : Int} {name : Bytes} {adds : Nat}, CanGrow s env db name adds →
      (itemsAt C (publicKey db name)).size + adds < 2 ^ 32 := fun {db name _} hgrow => by
    rw [← length_elementRows h ⟨db, name, rfl⟩]
    exact hgrow.small
  have hread : ∀ {p : TxProg RespValue}, ReadOnly p → wp (fun x => ∃ n, env n = x) p
      (fun _ t' => ∃ C', Stored layout t'.view C') (fun _ _ => True) { view := s } :=
    fun hp => wp_of_readOnly hp (fun _ t' hview => ⟨C, hview ▸ h⟩) fun _ _ _ => trivial
  have hend : ∀ {p : TxProg RespValue}, wp (fun x => ∃ n, env n = x) p
      (fun _ t' => ∃ C', Stored layout t'.view C') (fun _ _ => True) { view := s } →
      ∀ reply, (exec p env { view := s }).out = .ok reply →
        ∃ C', Stored layout (exec p env { view := s }).txn.view C' :=
    fun hwp => (exec_of_wp hwp fun n => ⟨n, rfl⟩).1
  cases command with
  | setStore db kind dest names =>
    exact stored_of_setStore h hmeets.1.db_lt (hfreshOf hmeets.1.fresh) hmeets.2
  | set db name op =>
    refine hend ?_
    show wp _ (op.run (publicKey db name)) _ _ _
    cases hmut : op.isMutating with
    | false => exact hread (readOnly_setOp _ hmut)
    | true =>
      cases op with
      | sadd members =>
        exact wp_sadd h hmeets.2.db_lt rfl (hfreshOf hmeets.2.fresh) hmeets.1
          (hsmallOf hmeets.2) fun _ _ C' hC' _ => ⟨C', hC'⟩
      | srem members =>
        show wp _ (Set.srem _ _) _ _ _
        rw [srem_eq]
        exact wp_removeItems h ⟨db, name, rfl⟩ fun _ _ C' hC' _ => ⟨C', hC'⟩
      | spop => exact wp_spop h ⟨db, name, rfl⟩ fun _ _ C' hC' => ⟨C', hC'⟩
      | _ => cases hmut
  | smove db src dst member =>
    refine hend ?_
    exact wp_smove h hmeets.db_lt ⟨db, src, rfl⟩ rfl (hfreshOf hmeets.fresh)
      (hsmallOf hmeets) fun _ _ C' hC' => ⟨C', hC'⟩
  | setOp db kind names =>
    exact hend (hread ((readOnly_combineSets _ _).bind fun _ => readOnly_pure _))
  | hash db name op =>
    refine hend ?_
    show wp _ (op.run (publicKey db name)) _ _ _
    cases hmut : op.isMutating with
    | false => exact hread (readOnly_hashOp _ hmut)
    | true =>
      cases op with
      | hset fieldValues =>
        show wp _ (Hash.hset _ _) _ _ _
        unfold Hash.hset
        rw [wp_seq]
        exact wp_hashSetAll h hmeets.2.db_lt rfl (hfreshOf hmeets.2.fresh)
          hmeets.1 (hsmallOf hmeets.2) fun _ _ C' hC' _ => ⟨C', hC'⟩
      | hmset fieldValues =>
        show wp _ (Hash.hmset _ _) _ _ _
        unfold Hash.hmset
        rw [wp_seq]
        exact wp_hashSetAll h hmeets.2.db_lt rfl (hfreshOf hmeets.2.fresh)
          hmeets.1 (hsmallOf hmeets.2) fun _ _ C' hC' _ => ⟨C', hC'⟩
      | hsetnx field value =>
        exact wp_hsetnx h hmeets.db_lt rfl (hfreshOf hmeets.fresh)
          (hsmallOf hmeets) fun _ _ C' hC' => ⟨C', hC'⟩
      | hdel fields =>
        show wp _ (Hash.hdel _ _) _ _ _
        rw [hdel_eq]
        exact wp_removeItems h ⟨db, name, rfl⟩ fun _ _ C' hC' _ => ⟨C', hC'⟩
      | hincrby field amount =>
        exact wp_hincrby h hmeets.2.db_lt rfl (hfreshOf hmeets.2.fresh)
          (hsmallOf hmeets.2) (fun _ _ C' hC' => ⟨C', hC'⟩) (not_isOther_of_noSet h hmeets.1)
      | hincrbyfloat field amount =>
        exact wp_hincrbyfloat h hmeets.2.db_lt rfl (hfreshOf hmeets.2.fresh)
          (hsmallOf hmeets.2) (fun _ _ C' hC' => ⟨C', hC'⟩) (not_isOther_of_noSet h hmeets.1)
      | _ => cases hmut
  | key cmd =>
    refine hend ?_
    exact wp_mono (cmd.wp_run covered.clears covered.moves hmeets h)
      (fun _ t' ht' => ⟨_, ht'.2⟩) fun _ _ _ => trivial

/-! ## What the commands that read say -/

/-- The size of the value under the key is what its sentinel says, and a value is not
empty. -/
structure Counted (s : Store) (k : Bytes) : Prop where
  sentinel : ∀ row, s[k]? = some row → 1 ≤ (elementRows s k).length ∧
    (elementRows s k).length < 2 ^ 32 ∧ payload row = .ok (beBytes 4 (elementRows s k).length)
  exists_ : ∀ env, (exec (Keys.exists_ [k]) env { view := s }).out =
    .ok (.integer (if elementRows s k = [] then 0 else 1))
  scard : (∀ row, s[k]? = some row → baseType row.metadata = Set.typeSet) → ∀ env env',
    (exec (Set.scard k) env { view := s }).out = .ok (.integer (elementRows s k).length) ∧
      ∃ ms, (exec (Set.smembers k) env' { view := s }).out = .ok (.bulks ms) ∧
        ms.length = (elementRows s k).length
  hlen : (∀ row, s[k]? = some row → baseType row.metadata = Hash.typeHash) → ∀ env env',
    (exec (Hash.hlen k) env { view := s }).out = .ok (.integer (elementRows s k).length) ∧
      ∃ fs, (exec (Hash.hkeys k) env' { view := s }).out = .ok (.bulks fs) ∧
        fs.length = (elementRows s k).length

theorem exists_of_stored (h : Stored layout s C) (hpub : IsPublic k) (env : Nat → Tick) :
    (exec (Keys.exists_ [k]) env { view := s }).out =
      .ok (.integer (if elementRows s k = [] then 0 else 1)) := by
  refine exec_out_of_wp (A := fun _ => True) ?_ env fun _ => trivial
  unfold Keys.exists_ Keys.countKeys
  simp only [Prog.bind_eq, wp_bind]
  cases hk : C k with
  | none =>
    refine wp_get_absent h hpub hk ?_
    rw [if_pos (elementRows_of_absent h hpub hk)]
    rfl
  | some Pc =>
    refine wp_get_stored h hk ?_
    have hne : elementRows s k ≠ [] := by
      have hlen := elementRows_of_stored h hk
      have hpos := Pc.2.pos
      rw [← List.length_pos_iff]
      omega
    rw [if_neg hne]
    rfl

variable {isHash : Bool}

/-- The count, read from a value of the type or from nothing. -/
theorem wp_readCount_typed {A : Tick → Prop} {t : Txn Bytes Row}
    {E : Post DbError} {Q : Post (Option UInt32)} (h : Stored layout t.view C) (hpub : IsPublic k)
    (htyped : ∀ P c, C k = some (P, c) → c.isHash = isHash)
    (hnone : C k = none → Q none (t.noteRead (isKey k))) (hsome : ∀ P c, C k = some (P, c) →
      Q (some (UInt32.ofNat c.items.size)) (t.noteRead (isKey k))) :
    wp A (readCount isHash k) Q E t :=
  wp_readCount_of_row h rfl hpub hnone (fun P c hk _ => hsome P c hk)
    fun P c hk hne => absurd (htyped P c hk) hne

theorem out_readCount (h : Stored layout s C) (hpub : IsPublic k)
    (htyped : ∀ P c, C k = some (P, c) → c.isHash = isHash) (env : Nat → Tick) :
    (exec (do return RespValue.integer ((← readCount isHash k).getD 0).toNat) env
      { view := s }).out =
      .ok (.integer (elementRows s k).length) := by
  refine exec_out_of_wp (A := fun _ => True) ?_ env fun _ => trivial
  rw [wp_seq]
  refine wp_readCount_typed h hpub htyped (fun hk => ?_) fun P c hk => ?_
  · rw [elementRows_of_absent h hpub hk]
    rfl
  · rw [elementRows_of_stored h hk]
    show RespValue.integer ((UInt32.ofNat c.items.size).toNat : Int) = _
    rw [UInt32.toNat_ofNat', Nat.mod_eq_of_lt c.small]

theorem nodup_keys (items : Items) : (items.toList.map (·.1)).Nodup := by
  rw [Std.ExtTreeMap.map_fst_toList_eq_keys]
  exact Std.ExtTreeMap.nodup_keys

/-- The values in a set are its members. -/
theorem map_snd_toList {items : Items} (h : IsSet items) :
    items.toList.map (·.2) = items.toList.map (·.1) :=
  List.map_congr_left fun nv hnv =>
    h nv.1 nv.2 (Std.ExtTreeMap.mem_toList_iff_getElem?_eq_some.mp hnv)

theorem out_smembers (h : Stored layout s C) (hpub : IsPublic k)
    (htyped : ∀ P c, C k = some (P, c) → c.isHash = false) (env : Nat → Tick) :
    ∃ ms, (exec (Set.smembers k) env { view := s }).out = .ok (.bulks ms) ∧
      ms.length = (elementRows s k).length := by
  have hwp : wp (fun _ => True) (Set.smembers k)
      (fun reply _ => ∃ ms, reply = .bulks ms ∧ ms.length = (elementRows s k).length)
      (fun _ _ => False) { view := s } := by
    unfold Set.smembers Set.allMembers Set.loadSetMembers
    simp only [Prog.bind_eq, wp_bind, setCount_eq]
    cases hk : C k with
    | none =>
      refine wp_resolvePrefix_none (h.absent hpub hk) ?_
      refine wp_readCount_typed h hpub htyped
        (fun _ => ?_) fun P c hk' => ?_
      · exact ⟨[], rfl, by rw [elementRows_of_absent h hpub hk]⟩
      · rw [hk] at hk'
        cases hk'
    | some Pc =>
      obtain ⟨P, c⟩ := Pc
      refine wp_resolvePrefix_stored h hk ?_
      refine wp_readCount_typed h hpub htyped (fun hnone => ?_)
        fun P' c' hk' => ?_
      · rw [hk] at hnone
        cases hnone
      · rw [wp_bind]
        have hreg := region_of_stored h hk
        refine wp_resolvePrefix_stored h hk ?_
        unfold Set.memberValues
        simp only [Prog.bind_eq, wp_bind]
        refine Region.wp_scan

          hreg ⟨_, rfl, ?_⟩
        rw [elementRows_of_stored h hk, List.map_map]
        show ((c.items.toList.map (·.2)).dedup).length = _
        rw [map_snd_toList (c.self (htyped P c hk)), List.dedup_eq_self.mpr (nodup_keys _),
          List.length_map, Std.ExtTreeMap.length_toList]
  obtain ⟨reply, hout, ms, rfl, hms⟩ := exec_ok_of_wp hwp env fun _ => trivial
  exact ⟨ms, hout, hms⟩

theorem out_hkeys (h : Stored layout s C) (hpub : IsPublic k) (env : Nat → Tick) :
    ∃ fs, (exec (Hash.hkeys k) env { view := s }).out = .ok (.bulks fs) ∧
      fs.length = (elementRows s k).length := by
  have hwp : wp (fun _ => True) (Hash.hkeys k)
      (fun reply _ => ∃ fs, reply = .bulks fs ∧ fs.length = (elementRows s k).length)
      (fun _ _ => False) { view := s } := by
    unfold Hash.hkeys Hash.loadAll
    simp only [Prog.bind_eq, wp_bind]
    cases hk : C k with
    | none =>
      refine wp_resolvePrefix_none (h.absent hpub hk) ?_
      refine wp_get_absent h hpub hk ?_
      exact ⟨[], rfl, by rw [elementRows_of_absent h hpub hk]⟩
    | some Pc =>
      refine wp_resolvePrefix_stored h hk ?_
      refine wp_get_stored h hk ?_
      rw [wp_bind]
      have hreg := region_of_stored h hk
      refine Region.wp_scan hreg
        ⟨_, rfl, ?_⟩
      simp only [Option.getD_some, List.length_map, Std.ExtTreeMap.length_toList,
        elementRows_of_stored h hk]
  obtain ⟨reply, hout, fs, rfl, hfs⟩ := exec_ok_of_wp hwp env fun _ => trivial
  exact ⟨fs, hout, hfs⟩

/-- The type byte says which of the two a collection is. -/
theorem isHash_eq (isHash : Bool) (h : Stored layout s C)
    (htype : ∀ row, s[k]? = some row → baseType row.metadata = (typeOf isHash).byte) (P : Place)
    (c : Collection) (hk : C k = some (P, c)) : c.isHash = isHash := by
  obtain ⟨row, hrow, -, hsent⟩ := h.isSentinel hk
  have hbyte :
    (typeOf c.isHash).byte = (typeOf isHash).byte := hsent.type_eq.symm.trans (htype row hrow)
  revert hbyte
  cases c.isHash <;> cases isHash <;> decide

theorem counted_of_stored (h : Stored layout s C) (hpub : IsPublic k) : Counted s k where
  sentinel row hrow := by
    cases hk : C k with
    | none =>
      rw [h.absent hpub hk] at hrow
      cases hrow
    | some Pc =>
      obtain ⟨P, c⟩ := Pc
      obtain ⟨row', hrow', -, hsent⟩ := h.isSentinel hk
      obtain rfl : row' = row := Option.some.inj (hrow'.symm.trans hrow)
      rw [elementRows_of_stored h hk]
      exact ⟨c.pos, c.small, hsent.content_eq⟩
  exists_ := exists_of_stored h hpub
  scard htype env env' :=
    ⟨out_readCount h hpub (isHash_eq false h htype) env,
      out_smembers h hpub (isHash_eq false h htype) env'⟩
  hlen htype env env' :=
    ⟨out_readCount h hpub (isHash_eq true h htype) env, out_hkeys h hpub env'⟩

/-- **Counts are exact.** In a run from the empty store whose commands all meet the
condition, the count in each sentinel is the number of elements and not 0, a key exists
exactly when it has elements, and `SCARD` and `HLEN` say how many members and fields
`SMEMBERS` and `HKEYS` list. -/
theorem counts_exact (ln : F64 → F64) (hr : Reach (step ln) Meets ∅ s) (db : Int) (name : Bytes) :
    Counted s (publicKey db name) := by
  have hstored : ∃ C, Stored layout s C :=
    hr.inv (I := fun s => ∃ C, Stored layout s C) ⟨_, stored_empty⟩
      fun _ _ _ ⟨_, hC⟩ hmeets hstep => hmeets.step hC hstep
  obtain ⟨C, hC⟩ := hstored
  exact counted_of_stored hC ⟨db, name, rfl⟩

/-- A command in db 0, with the random bits that its environment gives. -/
def atRand (rand : Nat) (command : Command) : Action where
  command := command
  env _ := { now := 1, rand }

/-- A member is added twice and goes to a new set. -/
theorem counts_exact_smove : ∃ s, run (step fun x => x) ∅
        [atRand 1 (.set 0 (ascii "a") (.sadd [ascii "x", ascii "y", ascii "x"])),
          atRand 2 (.smove 0 (ascii "a") (ascii "b") (ascii "x"))] = some s ∧
      (elementRows s (publicKey 0 (ascii "a"))).length = 1 ∧
      Counted s (publicKey 0 (ascii "a")) := by
  obtain ⟨s, hrun, hreach, hlen⟩ := exists_reach (step fun x => x) Meets ∅
    [atRand 1 (.set 0 (ascii "a") (.sadd [ascii "x", ascii "y", ascii "x"])),
      atRand 2 (.smove 0 (ascii "a") (ascii "b") (ascii "x"))]
    (fun s a => idUnused s (a.env 0) && decide (∀ k ∈ [ascii "a", ascii "b"],
      (elementRows s (publicKey 0 k)).length + 3 < 2 ^ 32))
    (fun s => decide ((elementRows s (publicKey 0 (ascii "a"))).length = 1)) (by decide +kernel)
    fun s a ha hok => by
      simp only [Bool.and_eq_true, decide_eq_true_eq, List.forall_mem_cons] at hok
      obtain ⟨hfresh, hsmall, hsmall', -⟩ := hok
      rcases List.mem_pair.mp ha with rfl | rfl
      · exact ⟨by simp, by decide, fun _ => hfresh, hsmall⟩
      · exact ⟨by decide, fun _ => hfresh, Nat.lt_of_succ_lt (Nat.lt_of_succ_lt hsmall')⟩
  exact ⟨s, hrun, of_decide_eq_true hlen, counts_exact (fun x => x) hreach 0 (ascii "a")⟩

/-- **An empty set is stored**: the key exists with a count of 0. -/
theorem counts_empty_set :
    (run (step fun x => x) ∅ [atRand 1 (.setStore 0 .inter (ascii "d") [ascii "x"])]).any (fun s =>
      s[publicKey 0 (ascii "d")]?.any (fun row => decide (payload row = .ok (beBytes 4 0))) &&
        decide (elementRows s (publicKey 0 (ascii "d")) = []) &&
        decide ((exec (Keys.exists_ [publicKey 0 (ascii "d")]) (fun _ => { now := 1 })
          { view := s }).out = .ok (.integer 1))) = true := by
  decide +kernel

end Invar.Collections
