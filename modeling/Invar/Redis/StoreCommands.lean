import Invar.Redis.CollectionCounts
import Invar.Redis.ZsetAlgebra
import Invar.Redis.ZsetRanges
import Invar.Redis.ZsetRuns

/-!
# Commands that store a result

`SDIFFSTORE`, `ZUNIONSTORE`, `ZRANGESTORE` and the like read their sources first, and then
empty the destination and write the result under a new namespace. So the destination may be
a source, and may hold anything. An empty result is written too: its sentinel is a key that
exists.
-/

namespace Invar.StoreCommands

open StoreProg TxProg FiniteMap Requests

variable {α : Type} {s : Store} {env : Nat → Tick} {k : Bytes} {A : Tick → Prop}
  {E : Post DbError} {t : Txn Bytes Row}

/-! ## Sets -/

/-- The destination is emptied, whatever it holds. -/
theorem wp_clearSet_readable {Q : Post Unit} (h : Readable t.view k)
    (hQ : ∀ p t', Vacated t.view t'.view k p → Q () t') :
    wp A (Set.clearSet k (privateKey k)) Q E t := by
  unfold Set.clearSet
  rw [wp_seq]
  refine wp_post h.wp fun q t₁ hq => ?_
  unfold scanUnder
  rw [wp_seq, wp_scan]
  intro x _
  rw [wp_seq]
  refine wp_deleteAll fun t₂ h₂ => hQ q.bytes _ ⟨?_, fun y hy => ?_⟩
  · rw [Txn.view_del, if_pos rfl]
  · rw [Txn.view_del, if_neg hy, h₂]
    split
    · rename_i hmem
      obtain ⟨kr, hkr, rfl⟩ := List.mem_map.mp hmem
      have hunder := (mem_rowsOf.mp (List.mem_of_mem_filter hkr)).2
      exact .inr ⟨(List.prefix_append _ _).trans (List.isPrefixOf_iff_prefix.mp hunder), rfl⟩
    · exact .inl (congrArg (·[y]?) hq.2)

/-- The rows of the members. -/
def itemsOf (members : List Bytes) : Collections.Items := insertAll (members.map fun m => (m, m)) ∅

variable {db : Int} {name : Bytes}

theorem wp_storeSetResult_readable {members : List Bytes}
    {Q : Post Int} (h : Readable t.view k) (hdb : IsDb db)
    (hk : k = publicKey db name) (hfresh : Unused A t.view db)
    (hQ : ∀ P t', t'.view[k]? = some (sentinelRow (beBytes 4 members.length) .set P.element none) →
      Collections.Region t'.view P false (itemsOf members) → Q members.length t') :
    wp A (Set.storeSetResult k (privateKey k) members) Q E t := by
  have hpub : IsPublic k := ⟨db, name, hk⟩
  unfold Set.storeSetResult
  rw [wp_seq]
  refine wp_clearSet_readable h fun p t₁ h₁ => ?_
  rw [wp_seq, show privateKey k = privateKey (publicKey db name) by rw [hk]]
  refine wp_newNamespace (fun _ x hx => ?_) fun hneg => absurd hdb.nonneg (by omega)
  let P : Place := Place.fresh db hdb x.rand
  have hempty : ∀ suffix, t₁.view[P.bytes ++ suffix]? = none := h₁.unused hpub hfresh x hx
  rw [wp_seq]
  refine Collections.wp_setAllMembers (Collections.region_of_empty hempty)
    (AtPlace.refl P t₁.view) fun t₂ hreg hat => ?_
  have hcount : beBytes 4 (UInt32.ofNat members.length).toNat = beBytes 4 members.length := by
    rw [UInt32.toNat_ofNat', beBytes_mod]
  have hkey : t₂.view[k]? = none := (hat k (hpub.not_isPrefix P)).trans h₁.key
  rw [wp_seq, Collections.setWriteSentinel_eq, hcount]
  refine wp_writeSentinel_none hkey (hQ P _ ?_ fun suffix => ?_)
  · rw [Txn.view_put, if_pos rfl]
    rfl
  · rw [Txn.view_put, if_neg fun heq => hpub.not_isPrefix P ⟨suffix, heq⟩]
    exact hreg suffix

/-! ## What is stored -/

/-- The members that a command selects, each once, with their scores. -/
inductive Content where
  | members (ms : List Bytes) (nodup : ms.Nodup)
  | scores (es : List Zset.MemberScore) (nodup : (es.map (·.member)).Nodup)

def Content.size : Content → Nat
  | .members ms _ => ms.length
  | .scores es _ => es.length

/-- The reply of a command that reads. -/
def Content.reply (withScores : Bool) : Content → RespValue
  | .members ms _ => .bulks ms
  | .scores es _ => Zset.membersReply es withScores

/-- The key holds the content and has no expiry. -/
def Content.At (s : Store) (k : Bytes) : Content → Prop
  | .members ms _ => ∃ P : Place,
    s[k]? = some (sentinelRow (beBytes 4 ms.length) .set P.element none) ∧
      Collections.Region s P false (itemsOf ms)
  | .scores es _ => ∃ P : Place,
    s[k]? = some (sentinelRow (beBytes 4 es.length) .sortedSet P.element none) ∧
      Zset.Holds s P (Zset.rowAt (Zset.scoresOf es ∅))

/-- A command that reads, to each of which one stores. -/
inductive Source where
  | sets (kind : Set.BinarySetOpKind) (keys : List Bytes)
  | scores (op : Zset.SetOp)
  | ranks (src : Bytes) (start stop : Int)

/-- `SDIFF`, `SINTER`, `SUNION`; `ZDIFF`, `ZINTER`, `ZUNION`; `ZRANGE`. -/
def Source.read (withScores : Bool) : Source → TxProg RespValue
  | .sets kind keys => Set.binarySetOp kind keys
  | .scores op => op.run withScores
  | .ranks src start stop => Zset.Op.run src (.rangeByRank start stop withScores false)

/-- `SDIFFSTORE`, `SINTERSTORE`, `SUNIONSTORE`; `ZDIFFSTORE`, `ZINTERSTORE`, `ZUNIONSTORE`;
`ZRANGESTORE`. -/
def Source.store (dest : Bytes) : Source → TxProg RespValue
  | .sets kind keys => Set.storeOp kind dest keys
  | .scores op => op.store (.new dest)
  | .ranks src start stop => Zset.zrangestore (.new dest) (.new src) start stop

/-- A key that reads as a set, or as no key. -/
inductive SetOrNone (A : Tick → Prop) (s : Store) (k : Bytes) : Prop
  | absent (hidden : Hidden A s k)
  | present {row : Row} {p : ElementPrefix} {content : Bytes} (hrow : s[k]? = some row)
      (hlast : row.LastsFor A) (hsent : row.IsSentinel (privateKey k) .set p content)

/-- No source is of another type. -/
def Source.WellTyped (s : Store) (env : Nat → Tick) : Source → Prop
  | .sets _ keys => ∀ key ∈ keys, SetOrNone (answers env) s key
  | .scores op => ∃ (keys : List Bytes) (C : Bytes → Option (Place × Zset.SortedSet)),
      op.nodes = keys.map .new ∧ ∀ key ∈ keys, Zset.Found (answers env) s key (C key)
  | .ranks src _ _ => IsPublic src ∧ ∃ o, Zset.Found (answers env) s src o

/-- The key holds the content, and is not there when the content is empty. -/
def Content.Kept (s : Store) (k : Bytes) (c : Content) : Prop :=
  if c.size = 0 then s[k]? = none else c.At s k

theorem Content.At.kept_iff {c : Content} (h : c.At s k) : c.Kept s k ↔ c.size ≠ 0 := by
  have hrow : s[k]? ≠ none := by
    cases c with
    | members ms _ | scores es _ =>
      obtain ⟨P, hP, -⟩ := h
      simp [hP]
  unfold Content.Kept
  split
  · simp [*]
  · simp [*]

/-- One command replies the content, and the other stores it. -/
structure Stores (s : Store) (env : Nat → Tick) (withScores : Bool) (k : Bytes)
    (read store : TxProg RespValue) (c : Content) : Prop where
  read_eq : (exec read env { view := s }).out = .ok (c.reply withScores)
  store_eq : (exec store env { view := s }).out = .ok (.integer c.size)
  stored : c.At (exec store env { view := s }).txn.view k

theorem SetOrNone.wp_loadSetMembers (h : SetOrNone A s k) (ht : t.view = s) :
    wp A (Set.loadSetMembers k (privateKey k)) (fun ms t' => ms.Nodup ∧ t'.view = s) E t := by
  subst ht
  unfold Set.loadSetMembers Set.setCount sentinelCount
  rw [wp_seq, wp_seq]
  cases h with
  | absent hidden => exact wp_get_hidden hidden ⟨List.nodup_nil, rfl⟩
  | @present row p content hrow hlast hsent =>
    refine wp_get_some hrow hlast ?_
    have htype : ¬ baseType row.metadata ≠ Set.typeSet := not_not_intro hsent.type_eq
    simp only [htype, hsent.content_eq, if_false]
    rw [wp_seq]
    show wp A (if _ then _ else _) _ _ _
    split
    · exact ⟨List.nodup_nil, rfl⟩
    · show wp A ((resolvePrefix _ _).bind _) _ E _
      rw [wp_bind]
      refine wp_resolvePrefix_some hrow hlast hsent.place_eq ?_
      unfold Set.memberValues scanUnder
      rw [wp_seq, wp_seq, wp_scan]
      exact fun x _ => ⟨List.nodup_dedup _, rfl⟩

theorem wp_storeZsetResult_readable {es : List Zset.MemberScore}
    {Q : Post RespValue} (h : Readable t.view k) (hdb : IsDb db)
    (hk : k = publicKey db name) (hfresh : Unused A t.view db) (hnodup : (es.map (·.member)).Nodup)
    (hQ : ∀ t', Content.At t'.view k (.scores es hnodup) → Q (.integer es.length) t') :
    wp A (Zset.storeZsetResult (.new k) es) Q E t := by
  refine Zset.wp_storeZsetResult h.wp hdb.lt hk (fun _ => hfresh) hnodup
    (fun _ _ t' _ _ hafter => hQ t' hafter.made_at) fun hneg => absurd hdb.nonneg (by omega)

/-- **Loading comes first.** One command replies what was loaded, the other stores it, and
nothing was written in between. -/
theorem stores_of_load {load : TxProg α} {reply : α → RespValue} {keep : α → TxProg RespValue}
    {withScores : Bool} {R : α → Content → Prop}
    (hload : wp (answers env) load (fun a t' => t'.view = s ∧ ∃ c, R a c) (fun _ _ => False)
      { view := s })
    (hreply : ∀ a c, R a c → reply a = c.reply withScores)
    (hkeep : ∀ (a : α) (c : Content) (t : Txn Bytes Row), R a c → t.view = s →
      wp (answers env) (keep a) (fun r t' => r = .integer c.size ∧ c.At t'.view k)
        (fun _ _ => False) t) :
    ∃ c, Stores s env withScores k (load.bind fun a => pure (reply a)) (load.bind keep) c := by
  have hrun := exec_of_wp hload fun n => ⟨n, rfl⟩
  have henv := exec_env load env { view := s }
  cases hout : (exec load env { view := s }).out with
  | error e => exact (hrun.2 e hout).elim
  | ok a =>
    obtain ⟨hview, c, hc⟩ := hrun.1 a hout
    obtain ⟨_, hstore, rfl, hat⟩ := exec_ok_of_wp (hkeep a c _ hc hview) _ fun n =>
      (henv n).imp fun _ h => h.symm
    refine ⟨c, ?_, ?_, ?_⟩
    · rw [exec_bind, Run.andThen, hout, ← hreply a c hc]
      rfl
    · rw [exec_bind, Run.andThen, hout]
      exact hstore
    · rw [exec_bind, Run.andThen, hout]
      exact hat

theorem Source.exists_stores (source : Source) (withScores : Bool) (hdb : IsDb db)
    (hk : k = publicKey db name) (hsource : source.WellTyped s env) (hdest : Readable s k)
    (hfresh : Unused (answers env) s db) :
    ∃ c, Stores s env withScores k (source.read withScores) (source.store k) c := by
  cases source with
  | sets kind keys =>
    refine stores_of_load (R := fun ms c => ∃ h, c = .members ms h)
      (wp_post (Collections.wp_combineSets
        (fun key hkey _ ht => (hsource key hkey).wp_loadSetMembers ht) rfl)
        fun ms t' h => ⟨h.2, _, h.1, rfl⟩) ?_ ?_
    · rintro ms _ ⟨_, rfl⟩
      rfl
    · rintro ms _ t ⟨_, rfl⟩ ht
      subst ht
      rw [wp_seq]
      exact wp_storeSetResult_readable hdest hdb hk hfresh fun P t' hkey hreg =>
        ⟨rfl, P, hkey, hreg⟩
  | scores op =>
    obtain ⟨keys, C, hnodes, hfound⟩ := hsource
    obtain ⟨nodes, aggregate, weights, kind⟩ := op
    subst hnodes
    refine stores_of_load (R := fun map c => ∃ h, c = .scores (Zset.zsetToSlice map) h)
      (Zset.wp_map hfound fun t' ht' => ⟨ht', _, Zset.nodup_zsetToSlice _, rfl⟩) ?_ ?_
    · rintro map _ ⟨_, rfl⟩
      rfl
    · rintro map _ t ⟨_, rfl⟩ ht
      subst ht
      exact wp_storeZsetResult_readable hdest hdb hk hfresh _ fun t' hat => ⟨rfl, hat⟩
  | ranks src start stop =>
    obtain ⟨hpub, o, hfound⟩ := hsource
    have hnodup :
      ((Zset.inRanks start stop (Zset.ranked (Zset.scoresIn o))).map (·.member)).Nodup :=
      (Zset.nodup_ranked _).sublist ((Zset.sublist_inRanks start stop _).map _)
    have hread : (Zset.Op.rangeByRank start stop withScores false).reply env s src =
        .ok (Zset.membersReply (Zset.inRanks start stop (Zset.ranked (Zset.scoresIn o)))
          withScores) :=
      Zset.Op.reply_read hfound hpub (by simp) rfl
    have hwp : wp (answers env) (Zset.zrangestore (.new k) (.new src) start stop)
        (fun r t' => r = .integer (Content.scores _ hnodup).size ∧
          (Content.scores _ hnodup).At t'.view k)
        (fun _ _ => False) { view := s } := by
      refine hfound.wp_zrangestore fun t ht => ?_
      subst ht
      exact wp_storeZsetResult_readable hdest hdb hk hfresh hnodup fun t' hat => ⟨rfl, hat⟩
    obtain ⟨_, hout, rfl, hat⟩ := exec_ok_of_wp hwp env fun n => ⟨n, rfl⟩
    exact ⟨.scores _ hnodup, hread, hout, hat⟩

/-- **A command stores what is read.** Both commands succeed: one replies the result, the
other its size, and the destination holds the result alone, without an expiry, whatever it
held before. So it is as it should be unless the result is empty. -/
theorem stores_read (source : Source) (withScores : Bool) {db : Int} {name : Bytes} (hdb : IsDb db)
    (hk : k = publicKey db name) (hsource : source.WellTyped s env) (hdest : Readable s k)
    (hfresh : Unused (answers env) s db) :
    ∃ c, Stores s env withScores k (source.read withScores) (source.store k) c ∧
      (c.Kept (exec (source.store k) env { view := s }).txn.view k ↔ c.size ≠ 0) := by
  obtain ⟨c, hc⟩ := source.exists_stores withScores hdb hk hsource hdest hfresh
  exact ⟨c, hc, hc.stored.kept_iff⟩

/-- A set is stored onto itself. -/
theorem stores_read_onto_source :
    let k := publicKey 0 (ascii "a")
    let s := ((∅ : Store).insert k { value := beBytes 4 1, metadata := Set.typeSet }).insert
      (Set.internalMemberKey (privateKey k) (ascii "m"))
        { value := ascii "m", metadata := Set.typeSet }
    let source := Source.sets .union [k]
    (exec (source.read false) (clock 1) { view := s }).out = .ok (.bulks [ascii "m"]) ∧
      ∃ c, Stores s (clock 1) false k (source.read false) (source.store k) c ∧
        c.Kept (exec (source.store k) (clock 1) { view := s }).txn.view k := by
  intro k s source
  refine ⟨by decide +kernel, ?_⟩
  -- neither row is in a namespace
  have hrows (y : Bytes) (row : Row) (hy : s[y]? = some row) :
      y.head? ≠ some 43 ∧ ∃ p, prefixOf row (privateKey k) = .ok p := by
    rw [getElem?_insert_eq, getElem?_insert_eq] at hy
    split at hy
    · rename_i heq
      cases Option.some.inj hy
      exact ⟨by rw [heq]; decide, _, rfl⟩
    · split at hy
      · rename_i heq
        cases Option.some.inj hy
        exact ⟨by rw [heq]; decide, _, rfl⟩
      · simp at hy
  have hrow : s[k]? = some { value := beBytes 4 1, metadata := Set.typeSet } := by decide +kernel
  have hset : SetOrNone (answers (clock 1)) s k :=
    .present hrow (Row.lastsFor_of_none rfl _) ⟨rfl, rfl, rfl⟩
  have hdb : IsDb 0 := by decide
  obtain ⟨c, hc, hkept⟩ := stores_read source false hdb rfl
    (fun _ hkey => List.mem_singleton.mp hkey ▸ hset) (fun row hrow => (hrows k row hrow).2)
    fun x _ suffix => by
      cases hrow : s[namespaceOf 0 x.rand ++ suffix]? with
      | none => rfl
      | some row => exact absurd rfl (hrows _ row hrow).1
  refine ⟨c, hc, hkept.mpr fun hsize => ?_⟩
  have hone : (exec (source.store k) (clock 1) { view := s }).out = .ok (.integer 1) := by
    decide +kernel
  rw [hc.store_eq, hsize] at hone
  exact absurd hone (by simp)

/-- An empty result is a key that exists. -/
theorem empty_result_exists : replies [("sunionstore", words ["d", "a"]), ("exists", words ["d"])] =
      [some (.integer 0), some (.integer 1)] := by
  decide +kernel

end Invar.StoreCommands
