import Invar.Redis.BloomState

/-!
# Adding to Bloom filters

What `addOne` does to a stored filter is a relation on filters (`AddStep`): the item is
there already in the sub-filter that the add looks at, or the filter becomes one that has
it (`Added`). Every command is a number of such steps on the filter of its key, or on
a new one (`wp_run`).
-/

namespace Invar.Bloom

open StoreProg TxProg Ieee754 ByteBits

variable {A : Tick → Prop} {E : Post DbError} {t : Txn Bytes Row} {s : Store} {C : Catalog Filter}
  {k item : Bytes} {P : Place} {op : Op}

/-! ## What an add does -/

section

variable (ln : F64 → F64)

/-- A sub-filter has bits and hashes, in numbers that fit their fields. -/
theorem computeBloomParams_bounds (capacity : Nat) (errorRate : F64) :
    (1 ≤ (computeBloomParams ln capacity errorRate).1 ∧
      (computeBloomParams ln capacity errorRate).1 < 2 ^ 64) ∧
    1 ≤ (computeBloomParams ln capacity errorRate).2 ∧
      (computeBloomParams ln capacity errorRate).2 < 2 ^ 32 := by
  have hmax : 1 ≤ (F64.ofInt maxHashes).toUnsigned (2 ^ 32 - 1) :=
    F64.one_le_toUnsigned (by omega) (by decide) (by decide) (by decide)
  have hbits (x : F64) : 1 ≤ (F64.max x (F64.ofInt 1)).toUnsigned (2 ^ 64 - 1) ∧
      (F64.max x (F64.ofInt 1)).toUnsigned (2 ^ 64 - 1) < 2 ^ 64 :=
    ⟨F64.one_le_toUnsigned_max (by omega) x, Nat.lt_of_le_of_lt (F64.toUnsigned_le _ _) (by omega)⟩
  have hhashes (x : F64) :
      1 ≤ (F64.min (F64.max x (F64.ofInt 1)) (F64.ofInt maxHashes)).toUnsigned (2 ^ 32 - 1) ∧
      (F64.min (F64.max x (F64.ofInt 1)) (F64.ofInt maxHashes)).toUnsigned (2 ^ 32 - 1) < 2 ^ 32 :=
    ⟨F64.one_le_toUnsigned_min (F64.one_le_toUnsigned_max (by omega) x) hmax,
      Nat.lt_of_le_of_lt (F64.toUnsigned_le _ _) (by omega)⟩
  obtain ⟨x, y, heq⟩ : ∃ x y, computeBloomParams ln capacity errorRate =
      ((F64.max x (F64.ofInt 1)).toUnsigned (2 ^ 64 - 1),
        (F64.min (F64.max y (F64.ofInt 1)) (F64.ofInt maxHashes)).toUnsigned (2 ^ 32 - 1)) := by
    unfold computeBloomParams
    exact ⟨_, _, rfl⟩
  rw [heq]
  exact ⟨hbits x, hhashes y⟩

variable {capacity : Nat} {m : BloomMeta} {Q : Post Int} {db : Int} {name : Bytes}

theorem valid_subFilter {id : Nat} (hid : id < 2 ^ 64) (hcap : capacity < 2 ^ 64)
    (errorRate : F64) : (subFilter ln id capacity errorRate).Valid :=
  have h := computeBloomParams_bounds ln capacity errorRate
  { id_lt := hid
    capacity_lt := hcap
    inserted_lt := Nat.two_pow_pos 64
    numHashes_lt := h.2.2
    numBits_lt := h.1.2
    numHashes_pos := h.2.1
    numBits_pos := h.1.1 }

theorem subFilterCapacity_lt (baseCap : Nat) (expansion : Int) (index : Nat) :
    subFilterCapacity baseCap expansion index < 2 ^ 64 := Nat.mod_lt _ (by decide)

theorem valid_newSubFilter {filterId : Nat} (hid : filterId < 2 ^ 64) (baseCapacity : Nat)
    (errorRate : F64) (expansion : Int) :
    (newSubFilter ln baseCapacity errorRate expansion filterId).Valid :=
  valid_subFilter ln hid (subFilterCapacity_lt _ _ _) _

theorem BloomMeta.expanded_ne_nil (h : m.filters ≠ []) (last : SubFilterMeta) :
    (m.expanded ln last).filters ≠ [] := by
  unfold BloomMeta.expanded
  split
  · exact List.append_ne_nil_of_left_ne_nil h _
  · exact h

/-- The newest sub-filter. -/
def Filter.last (F : Filter) : SubFilterMeta := F.info.filters.getLast F.nonempty

/-- The meta that an add works on. -/
def Filter.grown (F : Filter) : BloomMeta := F.info.expanded ln F.last

/-- The sub-filter that an add probes, and writes to. -/
def Filter.target (F : Filter) : SubFilterMeta :=
  (F.grown ln).filters.getLast (BloomMeta.expanded_ne_nil ln F.nonempty F.last)

/-- What of a meta is stored. -/
def BloomMeta.truncated (m : BloomMeta) : BloomMeta :=
  { m with filters := m.filters.take maxFilters }

theorem encodeMeta_truncated (m : BloomMeta) : encodeMeta m.truncated = encodeMeta m := by
  unfold encodeMeta BloomMeta.truncated maxFilters
  simp only [List.take_take, Nat.min_self]

theorem Filter.valid_grown (F : Filter) : ∀ f ∈ (F.grown ln).filters, f.Valid := by
  intro f hf
  unfold Filter.grown BloomMeta.expanded at hf
  split at hf
  · rcases List.mem_append.mp hf with hf | hf
    · exact F.storable.valid f hf
    · rw [List.mem_singleton.mp hf]
      exact valid_newSubFilter ln (Nat.mod_lt _ (by decide)) _ _ _
  · exact F.storable.valid f hf

theorem Filter.valid_target (F : Filter) : (F.target ln).Valid :=
  F.valid_grown ln _ (List.getLast_mem _)

theorem BloomMeta.expansion_expanded (m : BloomMeta) (last : SubFilterMeta) :
    (m.expanded ln last).expansion = m.expansion := by
  unfold BloomMeta.expanded
  split <;> rfl

theorem SubFilterMeta.Valid.count {f : SubFilterMeta} (h : f.Valid) :
    SubFilterMeta.Valid { f with inserted := (f.inserted + 1) % 2 ^ 64 } :=
  { h with inserted_lt := Nat.mod_lt _ (by decide) }

theorem Filter.storable_added (F : Filter) : (F.grown ln).countInserted.truncated.Storable where
  count := (List.length_take_le _ _)
  expansion_lt := by
    show (F.info.expanded ln F.last).expansion < 256
    rw [BloomMeta.expansion_expanded]
    exact F.storable.expansion_lt
  valid f hf := by
    have hmem := List.mem_of_mem_take hf
    obtain ⟨i, hi, rfl⟩ := List.getElem_of_mem hmem
    unfold BloomMeta.countInserted at hi ⊢
    simp only [List.getElem_modify]
    split
    · exact (F.valid_grown ln _ (List.getElem_mem _)).count
    · exact F.valid_grown ln _ (List.getElem_mem _)

theorem Filter.nonempty_added (F : Filter) : (F.grown ln).countInserted.truncated.filters ≠ [] := by
  have hne := BloomMeta.expanded_ne_nil ln F.nonempty F.last
  intro hnil
  have hlen := congrArg List.length hnil
  unfold BloomMeta.truncated BloomMeta.countInserted maxFilters at hlen
  simp only [List.length_take, List.length_modify, List.length_nil] at hlen
  have := List.length_pos_of_ne_nil hne
  unfold Filter.grown at hlen
  omega

/-- A filter after an item was added to it. -/
structure Added (item : Bytes) (F F' : Filter) : Prop where
  info : F'.info = (F.grown ln).countInserted.truncated
  bits : ∀ id q, bitOf F'.pages id q =
    (bitOf F.pages id q ||
      (decide (id = (F.target ln).id) && decide (q ∈ positions item (F.target ln))))

/-- `addOne` after it has the meta. -/
def addTo (metaKey : Bytes) (p : ElementPrefix) (item : Bytes) (m : BloomMeta) : TxProg Int := do
  let some last := m.filters.getLast? | fail .panic
  let m := m.expanded ln last
  let some filter := m.filters.getLast? | fail .panic
  let positions ← hashPositions item filter
  let pages ← loadPages p filter.id positions ∅
  if ← allSet pages positions then return 0
  let pages ← setPositions positions pages
  setAll (pageEntries p filter.id pages)
  writeMeta metaKey m.countInserted p
  return 1

theorem addOne_eq (metaKey : Bytes) (p : ElementPrefix) (item : Bytes) :
    addOne ln metaKey p item = (metaForAdd ln metaKey p).bind (addTo ln metaKey p item) := rfl

variable {F : Filter}

theorem region_of_stored (h : Stored layout s C) (hk : C k = some (P, F)) : Region s P F.pages :=
  h.cells hk

theorem wp_addTo (h : Stored layout t.view C) (hk : C k = some (P, F))
    (hold : hasItem F.pages item (F.target ln) = true → ∀ t', t'.view = t.view → Q 0 t')
    (hnew : hasItem F.pages item (F.target ln) = false → ∀ F' t', Added ln item F F' →
      Stored layout t'.view (Function.update C k (some (P, F'))) → Q 1 t') :
    wp A (addTo ln k P.element item F.info) Q E t := by
  have hreg := region_of_stored h hk
  have hlast : F.info.filters.getLast? = some F.last := List.getLast?_eq_some_getLast F.nonempty
  have htarget : (F.info.expanded ln F.last).filters.getLast? = some (F.target ln) :=
    List.getLast?_eq_some_getLast _
  unfold addTo
  simp only [hlast, htarget, hashPositions_eq item (F.valid_target ln)]
  rw [Prog.bind_eq, Prog.pure_eq, wp_bind]
  change wp A ((loadPages P.element (F.target ln).id (positions item (F.target ln)) ∅).bind _) Q E t
  rw [wp_bind]
  refine hreg.wp_loadPages (fun n page hn => by simp at hn) fun t₁ cur hview hcur _ hcov => ?_
  have hshows := shows_of_loaded F.fullPages hcur
  rw [hshows.allSet_eq hcov, Prog.bind_eq, Prog.pure_eq, wp_bind]
  change wp A (if hasItem F.pages item (F.target ln) = true then pure 0 else _) Q E t₁
  cases hitem : hasItem F.pages item (F.target ln) with
  | true => exact hold hitem t₁ hview
  | false =>
    obtain ⟨cur', hset, hshows', hkeys⟩ := hshows.setPositions_eq hcov
    rw [if_neg Bool.false_ne_true, hset, Prog.bind_eq, Prog.pure_eq, wp_bind]
    change wp A ((setAll (pageEntries P.element (F.target ln).id cur')).bind _) Q E t₁
    rw [wp_bind]
    have hreg₁ : Region t₁.view P F.pages := hview ▸ hreg
    refine hreg₁.wp_setPageEntries F.fullPages (AtPlace.refl P t₁.view) hshows' ?_
      fun t₂ pages' hreg₂ hfull hat hbits => ?_
    · intro q hq
      have hnot : q ∉ positions item (F.target ln) := by
        intro hmem
        have := hcov q hmem
        rw [← hkeys, hq] at this
        cases this
      simp [hnot]
    · have hrow : t₂.view[k]? = t.view[k]? := by
        rw [hat k ((h.isPublic hk).not_isPrefix P), hview]
      have hslot : SentinelSlot t₂.view k P.element := (h.slot hk).frame hrow
      rw [wp_seq]
      unfold writeMeta
      refine wp_writeSentinel_slot .bloom hslot ?_
      let F' : Filter :=
        { info := (F.grown ln).countInserted.truncated
          pages := pages'
          storable := F.storable_added ln
          nonempty := F.nonempty_added ln
          fullPages := hfull }
      refine hnew hitem F' _ ⟨rfl, ?_⟩ (h.write (h.owns hk) ?_ ?_ ?_)
      · intro id q
        rw [hbits]
        by_cases hid : id = (F.target ln).id
        · rw [if_pos hid, hid, decide_eq_true rfl, Bool.true_and]
        · rw [if_neg hid, decide_eq_false hid, Bool.false_and, Bool.or_false]
      · refine Within.put_key ?_ _
        intro x _ hx
        show t₂.view[x]? = _
        rw [hat x hx, hview]
      · rw [Txn.view_put, if_pos rfl, Layout.sentinel, ← encodeMeta_truncated]
        rfl
      · intro suffix
        rw [Txn.view_put, if_neg ((h.owns hk).cell_ne suffix)]
        exact hreg₂ suffix

/-! ## Creating a filter -/

/-- A new filter has no pages. -/
def Filter.new {m : BloomMeta} (h : m.Storable) (hne : m.filters ≠ []) : Filter where
  info := m
  pages _ _ := none
  storable := h
  nonempty := hne
  fullPages _ _ _ h := by cases h

theorem storable_newMeta (hcap : capacity < 2 ^ 64) (errorRate : F64)
    (expansion : Int) (nonScaling : Bool) :
    (newMeta ln capacity errorRate expansion nonScaling).Storable where
  count := Nat.le_sub_one_of_lt (by decide : 1 < 2 ^ 16)
  expansion_lt := by
    show ((if expansion < 1 then defExp else expansion) % 256).toNat < 256
    omega
  valid f hf := by
    rw [List.mem_singleton.mp hf]
    unfold newInitialSubFilter
    split
    · exact valid_subFilter ln (Nat.two_pow_pos 64) hcap _
    · exact valid_newSubFilter ln (Nat.two_pow_pos 64) _ _ _

def Filter.default : Filter :=
  .new (storable_newMeta ln (by decide : defCap < 2 ^ 64) defErr defExp false)
    (List.cons_ne_nil _ _)

theorem wp_writeMeta_new (h : Stored layout t.view C) (howns : Owns C k P)
    (hslot : SentinelSlot t.view k P.element) (hempty : ∀ suffix, t.view[P.bytes ++ suffix]? = none)
    (hm : m.Storable) (hne : m.filters ≠ []) {Q : Post Unit}
    (hQ : ∀ t', Stored layout t'.view (Function.update C k (some (P, .new hm hne))) → Q () t') :
    wp A (writeMeta k m P.element) Q E t := by
  unfold writeMeta
  refine wp_writeSentinel_slot .bloom hslot ?_
  refine hQ _ (h.write howns ?_ ?_ ?_)
  · exact Within.put_key (Within.refl k P t.view) _
  · rw [Txn.view_put, if_pos rfl]
    rfl
  · intro suffix
    rw [Txn.view_put, if_neg (howns.cell_ne suffix)]
    show t.view[P.bytes ++ suffix]? = cellsOf (fun _ _ => none) suffix
    rw [hempty, cellsOf_noPages]

/-- Reading the meta of a filter. -/
theorem wp_readMetaOrNil_some (h : Stored layout t.view C) (hk : C k = some (P, F))
    {Q : Post (Option BloomMeta)}
    (hQ : ∀ t', t'.view = t.view → Q (some F.info) t') : wp A (readMetaOrNil k) Q E t := by
  unfold readMetaOrNil
  rw [wp_seq]
  refine wp_get_stored h hk ?_
  have hpayload := (layout.isSentinel_sentinel (P, F) (privateKey k)).content_eq
  simp only [hpayload]
  have hq := hQ (t.noteRead (isKey k)) rfl
  rw [← decodeMeta_encodeMeta F.storable] at hq
  exact hq

theorem wp_readMetaOrNil_none (h : Stored layout t.view C) (hpub : IsPublic k) (hk : C k = none)
    {Q : Post (Option BloomMeta)}
    (hQ : ∀ t', t'.view = t.view → Q none t') : wp A (readMetaOrNil k) Q E t := by
  unfold readMetaOrNil
  rw [wp_seq]
  exact wp_get_absent h hpub hk (hQ _ rfl)

/-! ## Steps -/

/-- One add, with its reply. -/
inductive AddStep (item : Bytes) (F : Filter) : Int → Filter → Prop
  | old : hasItem F.pages item (F.target ln) = true → AddStep item F 0 F
  | new {F' : Filter} : hasItem F.pages item (F.target ln) = false → Added ln item F F' →
      AddStep item F 1 F'

inductive AddSteps : List Bytes → Filter → List Int → Filter → Prop
  | nil {F : Filter} : AddSteps [] F [] F
  | cons {item : Bytes} {items : List Bytes} {F F₁ F₂ : Filter} {r : Int} {rs : List Int} :
      AddStep ln item F r F₁ → AddSteps items F₁ rs F₂ → AddSteps (item :: items) F (r :: rs) F₂

theorem wp_addOne (h : Stored layout t.view C) (hk : C k = some (P, F))
    (hQ : ∀ r F' t', AddStep ln item F r F' →
      Stored layout t'.view (Function.update C k (some (P, F'))) → Q r t') :
    wp A (addOne ln k P.element item) Q E t := by
  rw [addOne_eq, wp_bind]
  unfold metaForAdd
  rw [wp_seq]
  refine wp_readMetaOrNil_some h hk fun t₁ ht₁ => ?_
  change wp A (addTo ln k P.element item F.info) Q E t₁
  refine wp_addTo ln (ht₁ ▸ h) hk (fun hitem t' ht' => ?_) fun hitem F' t' hadded hstored => ?_
  · refine hQ 0 F t' (.old hitem) ?_
    rw [← hk, Function.update_eq_self, ht', ht₁]
    exact h
  · exact hQ 1 F' t' (.new hitem hadded) hstored

theorem wp_addAll {items : List Bytes} (h : Stored layout t.view C) (hk : C k = some (P, F))
    {Q : Post (List RespValue)} (hQ : ∀ rs F' t', AddSteps ln items F rs F' →
      Stored layout t'.view (Function.update C k (some (P, F'))) → Q (rs.map .integer) t') :
    wp A (addAll ln k P.element items) Q E t := by
  induction items generalizing t C F Q with
  | nil =>
    refine hQ [] F t .nil ?_
    rw [← hk, Function.update_eq_self]
    exact h
  | cons item items ih =>
    unfold addAll
    rw [wp_seq]
    refine wp_addOne ln h hk fun r F₁ t₁ hstep h₁ => ?_
    rw [wp_seq]
    refine ih h₁ (Function.update_self ..) fun rs F₂ t₂ hsteps h₂ => ?_
    rw [Function.update_idem] at h₂
    exact hQ (r :: rs) F₂ t₂ (.cons hstep hsteps) h₂

/-- A place for the filter of a key that has none. -/
structure Vacant (s : Store) (C : Catalog Filter) (k : Bytes) (P : Place) : Prop where
  owns : Owns C k P
  slot : SentinelSlot s k P.element
  empty : ∀ suffix, s[P.bytes ++ suffix]? = none

/-- The first add of a key creates its filter. -/
theorem wp_addOne_vacant (h : Stored layout t.view C) (hk : C k = none) (hv : Vacant t.view C k P)
    (hQ : ∀ r F' t', AddStep ln item (.default ln) r F' →
      Stored layout t'.view (Function.update C k (some (P, F'))) → Q r t') :
    wp A (addOne ln k P.element item) Q E t := by
  rw [addOne_eq, wp_bind]
  unfold metaForAdd
  rw [wp_seq]
  refine wp_readMetaOrNil_none h hv.owns.isPublic hk fun t₁ ht₁ => ?_
  rw [wp_seq]
  have hv₁ : Vacant t₁.view C k P := ht₁ ▸ hv
  refine wp_writeMeta_new (ht₁ ▸ h) hv.owns hv₁.slot hv₁.empty
    (storable_newMeta ln (by decide) defErr defExp false) (List.cons_ne_nil _ _) fun t₂ h₂ => ?_
  change wp A (addTo ln k P.element item (Filter.default ln).info) Q E t₂
  refine wp_addTo ln h₂ (Function.update_self ..) (fun hitem t' ht' => ?_)
    fun hitem F' t' hadded hstored => ?_
  · exact hQ 0 _ t' (.old hitem) (ht' ▸ h₂)
  · rw [Function.update_idem] at hstored
    exact hQ 1 F' t' (.new hitem hadded) hstored

theorem wp_addAll_vacant {items : List Bytes} (h : Stored layout t.view C) (hk : C k = none)
    (hv : Vacant t.view C k P) {Q : Post (List RespValue)} (hnone : items = [] → Q [] t)
    (hQ : ∀ rs F' t', AddSteps ln items (.default ln) rs F' →
      Stored layout t'.view (Function.update C k (some (P, F'))) → Q (rs.map .integer) t') :
    wp A (addAll ln k P.element items) Q E t := by
  cases items with
  | nil => exact hnone rfl
  | cons item items =>
    unfold addAll
    rw [wp_seq]
    refine wp_addOne_vacant ln h hk hv fun r F₁ t₁ hstep h₁ => ?_
    rw [wp_seq]
    refine wp_addAll ln h₁ (Function.update_self ..) fun rs F₂ t₂ hsteps h₂ => ?_
    rw [Function.update_idem] at h₂
    exact hQ (r :: rs) F₂ t₂ (.cons hstep hsteps) h₂

/-! ## Commands -/

/-- The items that a command adds. -/
def Op.items : Op → List Bytes
  | .add item => [item]
  | .madd items => items
  | .insert args => args.items
  | _ => []

/-- The meta of a filter that a command creates. -/
def Op.newInfo : Op → BloomMeta
  | .reserve errorRate capacity expansion nonScaling =>
    newMeta ln capacity errorRate expansion nonScaling
  | .insert args => args.newMeta ln
  | _ => defaultMeta ln

/-- Capacities are `u64`. -/
def Op.Typed : Op → Prop
  | .reserve _ capacity _ _ => capacity < 2 ^ 64
  | .insert args => args.capacity < 2 ^ 64
  | _ => True

theorem Op.storable_newInfo (h : op.Typed) : (op.newInfo ln).Storable := by
  cases op with
  | reserve errorRate capacity expansion nonScaling => exact storable_newMeta ln h _ _ _
  | insert args =>
    refine storable_newMeta ln ?_ _ _ _
    split
    · decide
    · exact h
  | _ => exact (Filter.default ln).storable

theorem Op.newInfo_ne_nil (op : Op) : (op.newInfo ln).filters ≠ [] := by
  cases op <;> exact List.cons_ne_nil _ _

/-- The filter that a command creates. -/
def Op.newFilter {op : Op} (h : op.Typed) : Filter :=
  .new (op.storable_newInfo ln h) (op.newInfo_ne_nil ln)

/-- The filter that a command works on: that of its key, or a new one. -/
def Op.StartsFrom (op : Op) (C : Catalog Filter) (k : Bytes) (P : Place) (F : Filter) : Prop :=
  C k = some (P, F) ∨ C k = none ∧ ∃ h : op.Typed, F = op.newFilter ln h

/-- The place that a command which writes works at. -/
theorem wp_place (h : Stored layout t.view C) (hdb : db < 2 ^ 31)
    (hk : k = publicKey db name) (hfresh : DrawsFresh C A) {Q : Post ElementPrefix}
    (hsome : ∀ P F t', t'.view = t.view → C k = some (P, F) → Q P.element t')
    (hnone : ∀ P t', t'.view = t.view → C k = none → Vacant t.view C k P → Q P.element t')
    (hE : db < 0 → ∀ e t', E e t') : wp A (resolvePrefixForWrite k (privateKey k)) Q E t := by
  refine wp_resolvePrefixForWrite_stored h hdb hk hfresh (fun P howns hslot hempty => ?_) hE
  cases hCk : C k with
  | none => exact hnone P _ rfl hCk ⟨howns, hslot, hempty hCk⟩
  | some Pa =>
    obtain ⟨P', F⟩ := Pa
    obtain rfl : P' = P := howns.own _ hCk
    exact hsome P' F _ rfl hCk

theorem readOnly_readMetaOrNil (k : Bytes) : ReadOnly (readMetaOrNil k) := by
  refine (readOnly_get k).bind fun item => ?_
  cases item with
  | none => exact readOnly_pure _
  | some item => exact (readOnly_ofExcept _).bind fun _ => readOnly_pure _

theorem readOnly_testBit (page : Bytes) (idx : Nat) : ReadOnly (testBit page idx) := by
  unfold testBit
  split
  · exact readOnly_pure _
  · exact readOnly_fail _

theorem readOnly_readPage (key : Bytes) : ReadOnly (readPage key) :=
  (readOnly_get key).bind fun _ => readOnly_pure _

theorem readOnly_hashPositions (item : Bytes) (f : SubFilterMeta) :
    ReadOnly (hashPositions item f) := .ite (readOnly_fail _) (readOnly_pure _)

theorem readOnly_bitsSet (p : ElementPrefix) (filterId : Nat) (poss : List Nat) :
    ReadOnly (bitsSet p filterId poss) := by
  induction poss with
  | nil => exact readOnly_pure _
  | cons pos poss ih =>
    exact (readOnly_readPage _).bind fun _ => (readOnly_testBit _ _).bind fun _ =>
      .ite ih (readOnly_pure _)

theorem readOnly_anyContains (p : ElementPrefix) (item : Bytes) (fs : List SubFilterMeta) :
    ReadOnly (anyContains p item fs) := by
  induction fs with
  | nil => exact readOnly_pure _
  | cons f fs ih =>
    exact (readOnly_hashPositions _ _).bind fun _ => (readOnly_bitsSet _ _ _).bind fun _ =>
      .ite (readOnly_pure _) ih

theorem readOnly_existsOne (k : Bytes) (p : ElementPrefix) (item : Bytes) :
    ReadOnly (existsOne k p item) := by
  refine (readOnly_readMetaOrNil k).bind fun m => ?_
  cases m with
  | none => exact readOnly_pure _
  | some m => exact readOnly_anyContains _ _ _

theorem readOnly_existAll (k : Bytes) (p : ElementPrefix) (items : List Bytes) :
    ReadOnly (existAll k p items) := by
  induction items with
  | nil => exact readOnly_pure _
  | cons item items ih =>
    exact (readOnly_existsOne _ _ _).bind fun _ => ih.bind fun _ => readOnly_pure _

theorem readOnly_run (k : Bytes) (h : op.isMutating = false) : ReadOnly (op.run ln k) := by
  cases op with
  | exists_ item =>
    exact (readOnly_resolvePrefix _ _).bind fun _ => (readOnly_existsOne _ _ _).bind fun _ =>
      readOnly_pure _
  | mexists items =>
    exact (readOnly_resolvePrefix _ _).bind fun _ => (readOnly_existAll _ _ _).bind fun _ =>
      readOnly_pure _
  | info =>
    refine (readOnly_readMetaOrNil k).bind fun m => ?_
    cases m with
    | none => exact readOnly_fail _
    | some m => exact readOnly_pure _
  | reserve | add | madd | insert => cases h

/-- `madd` before its reply. -/
def maddStart (metaKey : Bytes) (items : List Bytes) : TxProg (ElementPrefix × List RespValue) := do
  let p ← resolvePrefixForWrite metaKey (privateKey metaKey)
  let rs ← addAll ln metaKey p items
  return (p, rs)

theorem madd_eq (metaKey : Bytes) (items : List Bytes) : Bloom.madd ln metaKey items =
      (maddStart ln metaKey items).bind fun pr => pure (.array (some pr.2)) := by
  simp only [Bloom.madd, maddStart, Prog.bind_eq, Prog.pure_eq, Prog.bind_assoc]
  rfl

/-- `insert` before its reply. -/
def insertStart (metaKey : Bytes) (args : InsertInfo) :
    TxProg (ElementPrefix × List RespValue) := do
  let p ← resolvePrefixForWrite metaKey (privateKey metaKey)
  match ← readMetaOrNil metaKey with
  | some _ => pure ()
  | none =>
    if args.noCreate then fail (.kv .keyNotFound)
    writeMeta metaKey (args.newMeta ln) p
  let rs ← addAll ln metaKey p args.items
  return (p, rs)

theorem insert_eq (metaKey : Bytes) (args : InsertInfo) : Bloom.insert ln metaKey args =
      (insertStart ln metaKey args).bind fun pr => pure (.array (some pr.2)) := by
  unfold Bloom.insert insertStart
  simp only [Prog.bind_eq, Prog.pure_eq, Prog.bind_assoc]
  congr 1
  funext p
  congr 1
  funext m
  cases m with
  | some m =>
    show (addAll ln metaKey p args.items).bind _ = ((addAll ln metaKey p args.items).bind _).bind _
    rw [Prog.bind_assoc]
    rfl
  | none =>
    cases args.noCreate with
    | true => rfl
    | false =>
      show (writeMeta metaKey (args.newMeta ln) p).bind _ =
        ((writeMeta metaKey (args.newMeta ln) p).bind _).bind _
      simp only [Prog.bind_assoc]
      rfl

/-- The filter after the adds of `madd`. A key without a filter still has none if nothing
was added. -/
theorem wp_maddStart {items : List Bytes} (h : Stored layout t.view C)
    (hdb : db < 2 ^ 31) (hk : k = publicKey db name) (hfresh : DrawsFresh C A)
    {Q : Post (ElementPrefix × List RespValue)}
    (hnone : ∀ P t', t'.view = t.view → C k = none ∧ Vacant t.view C k P → items = [] →
      Q (P.element, []) t')
    (hsteps : ∀ P F F' rs t', (Op.madd items).StartsFrom ln C k P F → AddSteps ln items F rs F' →
      Stored layout t'.view (Function.update C k (some (P, F'))) →
        Q (P.element, rs.map .integer) t')
    (hE : db < 0 → ∀ e t', E e t') : wp A (maddStart ln k items) Q E t := by
  unfold maddStart
  rw [wp_seq]
  refine wp_place h hdb hk hfresh (fun P F t₁ ht₁ hCk => ?_) (fun P t₁ ht₁ hCk hv => ?_) hE
  · rw [wp_seq]
    refine wp_addAll ln (ht₁ ▸ h) hCk fun rs F' t' hadds ht' => ?_
    exact hsteps P F F' rs t' (.inl hCk) hadds ht'
  · rw [wp_seq]
    refine wp_addAll_vacant ln (ht₁ ▸ h) hCk (ht₁ ▸ hv)
      (fun hnil => hnone P t₁ ht₁ ⟨hCk, hv⟩ hnil) fun rs F' t' hadds ht' => ?_
    exact hsteps P _ F' rs t' (.inr ⟨hCk, trivial, rfl⟩) hadds ht'

theorem wp_insertStart {args : InsertInfo} (h : Stored layout t.view C)
    (hdb : db < 2 ^ 31) (hk : k = publicKey db name) (hfresh : DrawsFresh C A)
    (htyped : (Op.insert args).Typed) {Q : Post (ElementPrefix × List RespValue)}
    (hsteps : ∀ P F F' rs t', (Op.insert args).StartsFrom ln C k P F →
      AddSteps ln args.items F rs F' → Stored layout t'.view (Function.update C k (some (P, F'))) →
        Q (P.element, rs.map .integer) t') :
    wp A (insertStart ln k args) Q (fun _ _ => True) t := by
  unfold insertStart
  rw [wp_seq]
  refine wp_place h hdb hk hfresh (fun P F t₁ ht₁ hCk => ?_) (fun P t₁ ht₁ hCk hv => ?_)
    fun _ _ _ => trivial
  · rw [wp_seq]
    refine wp_readMetaOrNil_some (ht₁ ▸ h) hCk fun t₂ ht₂ => ?_
    have h₂ : Stored layout t₂.view C := (ht₂.trans ht₁) ▸ h
    change wp A ((addAll ln k P.element args.items).bind _) Q _ t₂
    rw [wp_bind]
    refine wp_addAll ln h₂ hCk fun rs F' t' hadds ht' => ?_
    exact hsteps P F F' rs t' (.inl hCk) hadds ht'
  · rw [wp_seq]
    refine wp_readMetaOrNil_none (ht₁ ▸ h) ⟨db, name, hk⟩ hCk fun t₂ ht₂ => ?_
    have h₂ : Stored layout t₂.view C := (ht₂.trans ht₁) ▸ h
    have hv₂ : Vacant t₂.view C k P := (ht₂.trans ht₁) ▸ hv
    cases hcreate : args.noCreate with
    | true => trivial
    | false =>
      change wp A ((writeMeta k (args.newMeta ln) P.element).bind _) Q _ t₂
      rw [wp_bind]
      refine wp_writeMeta_new h₂ hv₂.owns hv₂.slot hv₂.empty
        (Op.storable_newInfo ln htyped) (Op.newInfo_ne_nil ln (.insert args)) fun t₃ h₃ => ?_
      change wp A ((addAll ln k P.element args.items).bind _) Q _ t₃
      rw [wp_bind]
      refine wp_addAll ln h₃ (Function.update_self ..) fun rs F' t' hadds ht' => ?_
      rw [Function.update_idem] at ht'
      exact hsteps P _ F' rs t' (.inr ⟨hCk, htyped, rfl⟩) hadds ht'

/-- **What a command does to the filter of its key.** -/
theorem wp_run (h : Stored layout t.view C) (hdb : db < 2 ^ 31) (hk : k = publicKey db name)
    (hfresh : DrawsFresh C A) (htyped : op.Typed) {Q : Post RespValue}
    (hsame : op.items = [] → ∀ r t', t'.view = t.view → Q r t')
    (hsteps : ∀ r P F F' rs t', op.StartsFrom ln C k P F → AddSteps ln op.items F rs F' →
      Stored layout t'.view (Function.update C k (some (P, F'))) → Q r t') :
    wp A (op.run ln k) Q (fun _ _ => True) t := by
  cases op with
  | exists_ | mexists | info =>
    exact wp_of_readOnly (readOnly_run ln k rfl) (hsame rfl) fun _ _ _ => trivial
  | reserve errorRate capacity expansion nonScaling =>
    show wp A (Bloom.reserve ln k errorRate capacity expansion nonScaling) Q _ t
    unfold Bloom.reserve
    rw [wp_seq]
    cases hCk : C k with
    | some Pa => exact wp_get_stored h hCk trivial
    | none =>
      refine wp_get_absent h ⟨db, name, hk⟩ hCk ?_
      rw [wp_seq]
      refine wp_newNamespace_stored h hdb hk hCk hfresh
        (fun P howns hslot hempty => ?_) fun _ _ _ => trivial
      rw [wp_seq]
      refine wp_writeMeta_new (t := t.noteRead _) h howns hslot hempty
        (Op.storable_newInfo ln htyped) (Op.newInfo_ne_nil ln _) fun t' ht' => ?_
      exact hsteps _ P _ _ [] t' (.inr ⟨hCk, htyped, rfl⟩) .nil ht'
  | add item =>
    show wp A (Bloom.add ln k item) Q _ t
    unfold Bloom.add
    rw [wp_seq]
    refine wp_place h hdb hk hfresh (fun P F t₁ ht₁ hCk => ?_) (fun P t₁ ht₁ hCk hv => ?_)
      fun _ _ _ => trivial
    · rw [wp_seq]
      refine wp_addOne ln (ht₁ ▸ h) hCk fun r F' t' hstep ht' => ?_
      exact hsteps _ P F F' [r] t' (.inl hCk) (.cons hstep .nil) ht'
    · rw [wp_seq]
      refine wp_addOne_vacant ln (ht₁ ▸ h) hCk (ht₁ ▸ hv) fun r F' t' hstep ht' => ?_
      exact hsteps _ P _ F' [r] t' (.inr ⟨hCk, htyped, rfl⟩) (.cons hstep .nil) ht'
  | madd items =>
    show wp A (Bloom.madd ln k items) Q _ t
    rw [madd_eq, wp_bind]
    refine wp_maddStart ln h hdb hk hfresh (fun P t' ht' _ hnil => ?_)
      (fun P F F' rs t' hstart hadds ht' => ?_) fun _ _ _ => trivial
    · exact hsame hnil _ t' ht'
    · exact hsteps _ P F F' rs t' hstart hadds ht'
  | insert args =>
    show wp A (Bloom.insert ln k args) Q _ t
    rw [insert_eq, wp_bind]
    refine wp_insertStart ln h hdb hk hfresh htyped fun P F F' rs t' hstart hadds ht' => ?_
    exact hsteps _ P F F' rs t' hstart hadds ht'

end

end Invar.Bloom
