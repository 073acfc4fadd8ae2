import Invar.Redis.BloomAdds
import Invar.Redis.CommandRuns

/-!
# Runs of Bloom filter commands

The sub-filters of a filter are numbered, those that do not exist yet have no bits, and
an add never takes a bit away. So an item that was added is found, as long as the filter
has not filled as many sub-filters as its meta entry can count (`exists_of_added`). An add
looks at one sub-filter only, and a new one takes its capacity from the last: the reply
of an add agrees with `BF.EXISTS`, and capacities follow the documented law, where these
make no difference.
-/

namespace Invar.Bloom

open StoreProg TxProg Ieee754 ByteBits Transition

variable {ln : F64 → F64} {F F' : Filter} {item : Bytes} {r : Int} {x : Bytes} {f : SubFilterMeta}
  {n : Nat} {op : Op}

/-! ## One add -/

/-- The newest sub-filter has reached its capacity and may be followed by another. -/
def BloomMeta.grows (m : BloomMeta) : Bool :=
  m.filters.getLast?.any (fun f => f.capacity ≤ f.inserted) && !m.nonScaling

/-- There is no number for the next sub-filter. -/
def BloomMeta.full (m : BloomMeta) : Bool := m.grows && m.filters.length == maxFilters

variable (ln) in
/-- The sub-filter that follows the newest one. -/
def Filter.next (F : Filter) : SubFilterMeta :=
  newSubFilter ln F.last.capacity (F.last.errorRate.mul (F64.ofInt 2)) F.info.expansion
    ((F.last.id + 1) % 2 ^ 64)

theorem Filter.grows_eq (F : Filter) :
    F.info.grows = (decide (F.last.capacity ≤ F.last.inserted) && !F.info.nonScaling) := by
  rw [BloomMeta.grows, List.getLast?_eq_some_getLast F.nonempty]
  rfl

theorem Filter.grown_of_grows (h : F.info.grows = true) :
    F.grown ln = { F.info with filters := F.info.filters ++ [F.next ln] } := by
  rw [Filter.grows_eq] at h
  unfold Filter.grown BloomMeta.expanded
  rw [if_pos h]
  rfl

theorem Filter.grown_of_not_grows (h : F.info.grows = false) : F.grown ln = F.info := by
  rw [Filter.grows_eq] at h
  unfold Filter.grown BloomMeta.expanded
  rw [h, if_neg Bool.false_ne_true]

theorem Filter.target_of_grows (h : F.info.grows = true) : F.target ln = F.next ln := by
  unfold Filter.target
  simp only [Filter.grown_of_grows h, List.getLast_append_singleton]

theorem Filter.target_of_not_grows (h : F.info.grows = false) : F.target ln = F.last := by
  unfold Filter.target
  simp only [Filter.grown_of_not_grows h]
  rfl

/-- A sub-filter without its count. -/
def SubFilterMeta.blank (f : SubFilterMeta) : SubFilterMeta := { f with inserted := 0 }

theorem Filter.blank_next (F : Filter) : (F.next ln).blank = F.next ln := by
  unfold Filter.next newSubFilter subFilter
  generalize computeBloomParams ln _ _ = params
  generalize subFilterSeeds _ = seeds
  rfl

def Filter.blanks (F : Filter) : List SubFilterMeta := F.info.filters.map (·.blank)

theorem map_blank_countInserted (m : BloomMeta) :
    m.countInserted.filters.map (·.blank) = m.filters.map (·.blank) := by
  unfold BloomMeta.countInserted
  apply List.ext_getElem
  · simp
  · intro i hi hi'
    simp only [List.getElem_map, List.getElem_modify]
    split <;> rfl

variable (ln) in
/-- The sub-filters after an add that writes. -/
def Filter.blanksAfter (F : Filter) : List SubFilterMeta :=
  if F.info.grows then F.blanks ++ [F.next ln] else F.blanks

theorem Added.blanks (h : Added ln item F F') : F'.blanks = (F.blanksAfter ln).take maxFilters := by
  have hmap : (F.grown ln).filters.map (·.blank) = F.blanksAfter ln := by
    unfold Filter.blanksAfter
    cases hg : F.info.grows with
    | true =>
      rw [Filter.grown_of_grows hg, if_pos rfl, List.map_append, List.map_singleton, F.blank_next]
      rfl
    | false =>
      rw [Filter.grown_of_not_grows hg]
      rfl
  unfold Filter.blanks
  rw [h.info, BloomMeta.truncated, List.map_take, map_blank_countInserted, hmap]

theorem Filter.length_blanks (F : Filter) : F.blanks.length = F.info.filters.length :=
  List.length_map _

theorem Added.expansion_eq (h : Added ln item F F') : F'.info.expansion = F.info.expansion := by
  rw [h.info]
  exact BloomMeta.expansion_expanded ln F.info F.last

theorem Added.nonScaling_eq (h : Added ln item F F') : F'.info.nonScaling = F.info.nonScaling := by
  rw [h.info]
  show (F.info.expanded ln F.last).nonScaling = F.info.nonScaling
  unfold BloomMeta.expanded
  split <;> rfl

/-- What a sub-filter has, it keeps. -/
theorem Added.hasItem_mono (h : Added ln item F F') (hf : hasItem F.pages x f = true) :
    hasItem F'.pages x f = true := by
  unfold hasItem at hf ⊢
  rw [List.all_eq_true] at hf ⊢
  intro q hq
  rw [h.bits, hf q hq, Bool.true_or]

theorem Added.hasItem_target (h : Added ln item F F') :
    hasItem F'.pages item (F.target ln) = true := by
  unfold hasItem
  rw [List.all_eq_true]
  intro q hq
  rw [h.bits, decide_eq_true rfl, decide_eq_true hq]
  simp

/-- `BF.EXISTS`. -/
def Filter.answers (F : Filter) (item : Bytes) : Bool := F.info.filters.any (hasItem F.pages item)

theorem Filter.answers_iff (F : Filter) (item : Bytes) :
    F.answers item = true ↔ ∃ f ∈ F.blanks, hasItem F.pages item f = true := by
  unfold Filter.answers Filter.blanks
  rw [List.any_eq_true]
  constructor
  · rintro ⟨f, hf, hitem⟩
    exact ⟨f.blank, List.mem_map.mpr ⟨f, hf, rfl⟩, hitem⟩
  · rintro ⟨f, hf, hitem⟩
    obtain ⟨g, hg, rfl⟩ := List.mem_map.mp hf
    exact ⟨g, hg, hitem⟩

/-- An add keeps every answer. -/
theorem AddStep.answers_mono (h : AddStep ln item F r F') (hx : F.answers x = true) :
    F'.answers x = true := by
  cases h with
  | old _ => exact hx
  | new _ hadded =>
    obtain ⟨f, hf, hitem⟩ := (F.answers_iff x).mp hx
    refine (F'.answers_iff x).mpr ⟨f, ?_, hadded.hasItem_mono hitem⟩
    have hlen : F.blanks.length ≤ maxFilters := F.length_blanks ▸ F.storable.count
    rw [hadded.blanks, Filter.blanksAfter]
    split
    · rw [List.take_append, List.take_of_length_le hlen]
      exact List.mem_append_left _ hf
    · rwa [List.take_of_length_le hlen]

/-! ## Sub-filters are numbered -/

/-- Sub-filters have their places as numbers, and only those that exist have bits. -/
structure Born (F : Filter) : Prop where
  ids : ∀ (i : Nat) (f : SubFilterMeta), F.blanks[i]? = some f → f.id = i
  unborn : ∀ id q, F.blanks.length ≤ id → bitOf F.pages id q = false

theorem Filter.getLast?_blanks (F : Filter) : F.blanks.getLast? = some F.last.blank := by
  rw [Filter.blanks, List.getLast?_map, List.getLast?_eq_some_getLast F.nonempty]
  rfl

theorem Filter.length_blanks_pos (F : Filter) : 0 < F.blanks.length := by
  rw [F.length_blanks]
  exact List.length_pos_of_ne_nil F.nonempty

theorem Born.last_id (h : Born F) : F.last.id + 1 = F.blanks.length := by
  have hpos := F.length_blanks_pos
  have hlast := F.getLast?_blanks
  rw [List.getLast?_eq_getElem?] at hlast
  have hid := h.ids _ _ hlast
  change F.last.id = F.blanks.length - 1 at hid
  omega

theorem Born.id_getElem (h : Born F) {i : Nat} (hi : i < F.info.filters.length) :
    F.info.filters[i].id = i := by
  refine h.ids i F.info.filters[i].blank ?_
  rw [Filter.blanks, List.getElem?_map, List.getElem?_eq_getElem hi, Option.map_some]

theorem Born.next_id (h : Born F) : (F.next ln).id = F.blanks.length := by
  have hlen : F.blanks.length ≤ maxFilters := F.length_blanks ▸ F.storable.count
  show (F.last.id + 1) % 2 ^ 64 = F.blanks.length
  rw [h.last_id]
  exact Nat.mod_eq_of_lt (Nat.lt_of_le_of_lt hlen (by decide))

variable (ln) in
theorem Filter.length_blanksAfter (hfull : F.info.full = false) :
    (F.blanksAfter ln).length ≤ maxFilters := by
  have hlen : F.blanks.length ≤ maxFilters := F.length_blanks ▸ F.storable.count
  unfold Filter.blanksAfter
  split
  · rename_i hg
    rw [BloomMeta.full, hg, Bool.true_and, beq_eq_false_iff_ne, ← F.length_blanks] at hfull
    rw [List.length_append, List.length_singleton]
    omega
  · exact hlen

variable (ln) in
/-- The sub-filter that an add writes to is the last one after it. -/
theorem Born.target (h : Born F) : (F.blanksAfter ln).getLast? = some (F.target ln).blank ∧
    (F.target ln).id + 1 = (F.blanksAfter ln).length := by
  unfold Filter.blanksAfter
  cases hg : F.info.grows with
  | true =>
    rw [Filter.target_of_grows hg, if_pos rfl, List.length_append, h.next_id, F.blank_next]
    exact ⟨List.getLast?_concat, rfl⟩
  | false =>
    rw [Filter.target_of_not_grows hg, if_neg Bool.false_ne_true]
    exact ⟨F.getLast?_blanks, h.last_id⟩

theorem positions_ne_nil (item : Bytes) (h : f.Valid) : positions item f ≠ [] := by
  have hpos := h.numHashes_pos
  unfold positions
  rw [Ne, List.map_eq_nil_iff, List.range_eq_nil]
  omega

/-- A sub-filter that does not exist yet has no item. -/
theorem Born.hasItem_next (h : Born F) (hg : F.info.grows = true) :
    hasItem F.pages item (F.target ln) = false := by
  obtain ⟨q, hq⟩ := List.exists_mem_of_ne_nil _ (positions_ne_nil item (F.valid_target ln))
  unfold hasItem
  rw [List.all_eq_false]
  refine ⟨q, hq, ?_⟩
  rw [Filter.target_of_grows hg, h.next_id, h.unborn _ q (Nat.le_refl _)]
  exact Bool.false_ne_true

theorem Born.ids_after (h : Born F) : ∀ (i : Nat) (f : SubFilterMeta),
    (F.blanksAfter ln)[i]? = some f → f.id = i := by
  intro i f hf
  unfold Filter.blanksAfter at hf
  split at hf
  · rw [List.getElem?_append] at hf
    split at hf
    · exact h.ids i f hf
    · obtain ⟨hlt, rfl⟩ := List.getElem?_eq_some_iff.mp hf
      rw [List.length_singleton] at hlt
      rw [List.getElem_singleton, h.next_id]
      omega
  · exact h.ids i f hf

theorem Born.addStep (h : Born F) (hfull : F.info.full = false) (hstep : AddStep ln item F r F') :
    Born F' ∧ F'.answers item = true := by
  cases hstep with
  | old hitem =>
    refine ⟨h, ?_⟩
    cases hg : F.info.grows with
    | true =>
      rw [h.hasItem_next hg] at hitem
      cases hitem
    | false =>
      rw [Filter.target_of_not_grows hg] at hitem
      exact List.any_eq_true.mpr ⟨F.last, List.getLast_mem _, hitem⟩
  | new hitem hadded =>
    have hblanks : F'.blanks = F.blanksAfter ln := by
      rw [hadded.blanks, List.take_of_length_le (Filter.length_blanksAfter ln hfull)]
    obtain ⟨hlast, hid⟩ := h.target ln
    refine ⟨⟨?_, ?_⟩, ?_⟩
    · rw [hblanks]
      exact h.ids_after
    · intro id q hle
      rw [hblanks] at hle
      have hmore : F.blanks.length ≤ (F.blanksAfter ln).length := by
        unfold Filter.blanksAfter
        split
        · rw [List.length_append]
          exact Nat.le_add_right _ _
        · exact Nat.le_refl _
      rw [hadded.bits, h.unborn id q (hmore.trans hle), decide_eq_false (by omega)]
      rfl
    · refine (F'.answers_iff item).mpr ⟨(F.target ln).blank, ?_, hadded.hasItem_target⟩
      rw [hblanks]
      exact List.mem_of_getLast? hlast

/-- A full filter stays as it is: the new sub-filter is cut off. -/
theorem AddStep.info_of_full (h : AddStep ln item F r F') (hfull : F.info.full = true) :
    F'.info = F.info := by
  cases h with
  | old _ => rfl
  | new _ hadded =>
    obtain ⟨hg, hlen⟩ := Bool.and_eq_true_iff.mp hfull
    have hlen : F.info.filters.length = maxFilters := beq_iff_eq.mp hlen
    have hcut : (F.grown ln).countInserted.truncated.filters = F.info.filters := by
      rw [Filter.grown_of_grows hg]
      unfold BloomMeta.truncated BloomMeta.countInserted
      apply List.ext_getElem
      · simp [hlen]
      · intro i hi hi'
        have hne : (F.info.filters ++ [F.next ln]).length - 1 ≠ i := by
          rw [List.length_append, List.length_singleton]
          omega
        rw [List.getElem_take, List.getElem_modify, if_neg hne, List.getElem_append_left hi']
    have hrest : (F.grown ln).countInserted.truncated =
        { F.info with filters := (F.grown ln).countInserted.truncated.filters } := by
      rw [Filter.grown_of_grows hg]
      rfl
    rw [hadded.info, hrest, hcut]

theorem AddSteps.born {items : List Bytes} {rs : List Int} (h : AddSteps ln items F rs F')
    (hfull : F'.info.full = false) (hborn : Born F) :
    Born F' ∧ (∀ x ∈ items, F'.answers x = true) ∧
      ∀ x, F.answers x = true → F'.answers x = true := by
  have hback : ∀ {items : List Bytes} {F F' : Filter} {rs : List Int}, AddSteps ln items F rs F' →
      F.info.full = true → F'.info.full = true := by
    intro items F F' rs h
    induction h with
    | nil => exact id
    | cons hstep _ ih => exact fun hF => ih (by rwa [hstep.info_of_full hF])
  induction h with
  | nil => exact ⟨hborn, fun x hx => absurd hx List.not_mem_nil, fun x hx => hx⟩
  | @cons item items F F₁ F₂ r rs hstep hsteps ih =>
    have hF : F.info.full = false := by
      cases hF : F.info.full with
      | false => rfl
      | true =>
        exact absurd (hback (.cons hstep hsteps) hF) (by rw [hfull]; exact Bool.false_ne_true)
    obtain ⟨hborn₁, hitem⟩ := hborn.addStep hF hstep
    obtain ⟨hborn₂, hitems, hmono⟩ := ih hfull hborn₁
    refine ⟨hborn₂, fun x hx => ?_, fun x hx => hmono x (hstep.answers_mono hx)⟩
    rcases List.mem_cons.mp hx with rfl | hx
    · exact hmono x hitem
    · exact hitems x hx

theorem bitOf_noPages (id q : Nat) : bitOf (fun _ _ => none) id q = false := by
  unfold bitOf pageAt
  exact bitAt_replicate _ _

variable (ln) in
/-- The only sub-filter of a new filter has the number 0. -/
theorem Op.newInfo_filters (op : Op) : ∃ f, (op.newInfo ln).filters = [f] ∧ f.id = 0 := by
  have hnew (capacity : Nat) (errorRate : F64) (expansion : Int) (nonScaling : Bool) :
      ∃ f, (newMeta ln capacity errorRate expansion nonScaling).filters = [f] ∧ f.id = 0 := by
    refine ⟨_, rfl, ?_⟩
    unfold newInitialSubFilter
    split <;> rfl
  cases op with
  | reserve errorRate capacity expansion nonScaling => exact hnew _ _ _ _
  | insert args => exact hnew _ _ _ _
  | _ => exact hnew defCap defErr defExp false

variable (ln) in
theorem Op.born_newFilter (h : op.Typed) : Born (op.newFilter ln h) where
  ids i f hf := by
    obtain ⟨g, hg, hid⟩ := op.newInfo_filters ln
    have hblanks : (op.newFilter ln h).blanks = [g.blank] := congrArg (List.map _) hg
    rw [hblanks, List.getElem?_singleton] at hf
    split at hf
    · rename_i hi
      cases hf
      rw [hi]
      exact hid
    · cases hf
  unborn id q _ := bitOf_noPages id q

/-! ## What `BF.EXISTS` replies -/

variable {s : Store} {C : Catalog Filter} {k : Bytes} {P : Place}

theorem wp_exists {A : Tick → Prop} {E : Post DbError} {t : Txn Bytes Row}
    (h : Stored layout t.view C) (hk : C k = some (P, F)) {Q : Post RespValue}
    (hQ : ∀ t', Q (boolReply (F.answers item)) t') : wp A (exists_ k item) Q E t := by
  unfold exists_
  rw [wp_seq]
  refine wp_resolvePrefix_stored h hk ?_
  rw [wp_seq]
  unfold existsOne
  rw [wp_seq]
  refine wp_readMetaOrNil_some (t := t.noteRead _) h hk fun t₁ ht₁ => ?_
  have hreg : Region t₁.view P F.pages := ht₁ ▸ region_of_stored h hk
  refine hreg.wp_anyContains F.fullPages
    (fun f hf => F.storable.valid f (List.mem_reverse.mp hf)) fun t₂ _ => ?_
  rw [List.any_reverse]
  exact hQ t₂

theorem out_exists (h : Stored layout s C) (hk : C k = some (P, F)) (env : Nat → Tick) :
    (exec ((Op.exists_ item).run ln k) env { view := s }).out =
      .ok (boolReply (F.answers item)) := by
  exact exec_out_of_wp (A := fun _ => True) (wp_exists h hk fun _ => rfl) env
    fun _ => trivial

theorem out_exists_absent (h : Stored layout s C) (hpub : IsPublic k) (hk : C k = none)
    (env : Nat → Tick) :
    (exec ((Op.exists_ item).run ln k) env { view := s }).out = .ok (boolReply false) := by
  refine exec_out_of_wp (A := fun _ => True) (p := exists_ k item) ?_ env fun _ => trivial
  unfold exists_
  rw [wp_seq]
  refine wp_resolvePrefix_none (h.absent hpub hk) ?_
  rw [wp_seq]
  unfold existsOne
  rw [wp_seq]
  exact wp_readMetaOrNil_none h hpub hk fun _ _ => rfl

/-! ## Runs -/

structure Action where
  db : Int
  name : Bytes
  op : Op
  env : Nat → Tick

namespace Action

def key (a : Action) : Bytes := publicKey a.db a.name

def outcome (ln : F64 → F64) (s : Store) (a : Action) : Run Bytes Row Tick DbError RespValue :=
  exec (a.op.run ln a.key) a.env { view := s }

/-- The store after the command, which changes nothing if it fails. -/
def after (ln : F64 → F64) (s : Store) (a : Action) : Store :=
  match (a.outcome ln s).out with
  | .ok _ => (a.outcome ln s).txn.view
  | .error _ => s

/-- Capacities are `u64`, the db is one that a session can name, and no id of a namespace
is drawn twice. -/
structure Sane (s : Store) (a : Action) : Prop where
  typed : a.op.Typed
  db_lt : a.db < 2 ^ 31
  fresh : ∀ n, idUnused s (a.env n) = true

end Action

/-- The meta entry of a key. -/
def metaAt (s : Store) (k : Bytes) : Option BloomMeta :=
  match s[k]? with
  | none => none
  | some row =>
    match payload row with
    | .ok content => decodeMeta content
    | .error _ => none

theorem metaAt_stored (h : Stored layout s C) (hk : C k = some (P, F)) :
    metaAt s k = some F.info := by
  obtain ⟨row, hrow, -, hsent⟩ := h.isSentinel hk
  simp only [metaAt, hrow, hsent.content_eq]
  exact decodeMeta_encodeMeta F.storable

theorem metaAt_absent (h : Stored layout s C) (hpub : IsPublic k) (hk : C k = none) :
    metaAt s k = none := by
  simp only [metaAt, h.absent hpub hk]

variable (ln) in
/-- **One command.** It leaves the store as it is and adds nothing, or makes some adds to the
filter of its key. -/
theorem Action.after_cases {a : Action} (hsane : a.Sane s) (h : Stored layout s C) :
    (∃ e, (a.outcome ln s).out = .error e) ∨ (a.op.items = [] ∧ Stored layout (a.after ln s) C) ∨
    ∃ P F F' rs, a.op.StartsFrom ln C a.key P F ∧ AddSteps ln a.op.items F rs F' ∧
      Stored layout (a.after ln s) (Function.update C a.key (some (P, F'))) := by
  cases hout : (a.outcome ln s).out with
  | error e => exact .inl ⟨e, rfl⟩
  | ok reply =>
    refine .inr ?_
    have hafter : a.after ln s = (a.outcome ln s).txn.view := by
      unfold Action.after
      rw [hout]
    rw [hafter]
    have hfresh : DrawsFresh C fun x => ∃ n, a.env n = x := h.drawsFresh fun x hx => by
      obtain ⟨n, rfl⟩ := hx
      exact hsane.fresh n
    refine (exec_of_wp (wp_run ln h hsane.db_lt rfl hfresh
      hsane.typed (Q := fun _ t' => (a.op.items = [] ∧ Stored layout t'.view C) ∨
        ∃ P F F' rs, a.op.StartsFrom ln C a.key P F ∧ AddSteps ln a.op.items F rs F' ∧
          Stored layout t'.view (Function.update C a.key (some (P, F')))) ?_ ?_)
      fun n => ⟨n, rfl⟩).1 reply hout
    · intro hnil r t' ht'
      exact .inl ⟨hnil, ht' ▸ h⟩
    · intro r P F F' rs t' hstart hsteps ht'
      exact .inr ⟨P, F, F', rs, hstart, hsteps, ht'⟩

theorem Action.after_of_error {a : Action} {e : DbError} (h : (a.outcome ln s).out = .error e) :
    a.after ln s = s := by
  unfold Action.after
  rw [h]

/-- Every filter of the store is numbered. -/
structure Filters (s : Store) (C : Catalog Filter) : Prop where
  stored : Stored layout s C
  born : ∀ k P F, C k = some (P, F) → Born F

theorem filters_empty : Filters ∅ fun _ => none where
  stored := stored_empty
  born _ _ _ h := by cases h

theorem Op.StartsFrom.born (h : op.StartsFrom ln C k P F)
    (hborn : ∀ k P F, C k = some (P, F) → Born F) : Born F := by
  rcases h with hk | ⟨-, htyped, rfl⟩
  · exact hborn k P F hk
  · exact Op.born_newFilter ln htyped

/-- The command does not fill the last sub-filter that the meta entry can count. -/
def Action.NotFull (ln : F64 → F64) (s : Store) (a : Action) : Prop :=
  ∀ m, metaAt (a.after ln s) a.key = some m → m.full = false

/-- The adds of a command are answered after it, and what was answered still is. -/
theorem Filters.after {a : Action} (h : Filters s C) (hsane : a.Sane s) (hfull : a.NotFull ln s) :
    ∃ C', Filters (a.after ln s) C' ∧ (∀ k P F x, C k = some (P, F) → F.answers x = true →
        ∃ P' F', C' k = some (P', F') ∧ F'.answers x = true) ∧
      ((∃ reply, (a.outcome ln s).out = .ok reply) → ∀ x ∈ a.op.items,
        ∃ P' F', C' a.key = some (P', F') ∧ F'.answers x = true) := by
  rcases Action.after_cases ln hsane h.stored with
    ⟨e, herr⟩ | ⟨hnil, hsame⟩ | ⟨P, F, F', rs, hstart, hsteps, hnew⟩
  · refine ⟨C, ?_, fun k P F x hk hx => ⟨P, F, hk, hx⟩, ?_⟩
    · rw [Action.after_of_error herr]
      exact h
    · rintro ⟨reply, hok⟩
      rw [herr] at hok
      cases hok
  · refine ⟨C, ⟨hsame, h.born⟩, fun k P F x hk hx => ⟨P, F, hk, hx⟩, fun _ x hx => ?_⟩
    rw [hnil] at hx
    exact absurd hx List.not_mem_nil
  · have hself : Function.update C a.key (some (P, F')) a.key = some (P, F') :=
      Function.update_self ..
    obtain ⟨hborn, hitems, hmono⟩ := hsteps.born (hfull _ (metaAt_stored hnew hself))
      (hstart.born h.born)
    refine ⟨_, ⟨hnew, ?_⟩, ?_, fun _ x hx => ⟨P, F', hself, hitems x hx⟩⟩
    · intro k P₁ F₁ hk
      by_cases hkk : k = a.key
      · rw [hkk, hself] at hk
        cases hk
        exact hborn
      · rw [Function.update_of_ne hkk] at hk
        exact h.born k P₁ F₁ hk
    · intro k P₁ F₁ x hk hx
      by_cases hkk : k = a.key
      · subst hkk
        refine ⟨P, F', hself, hmono x ?_⟩
        rcases hstart with hstart | ⟨hnone, -⟩
        · rw [hk] at hstart
          cases hstart
          exact hx
        · rw [hk] at hnone
          cases hnone
      · exact ⟨P₁, F₁, by rw [Function.update_of_ne hkk, hk], hx⟩

/-! ## No false negatives -/

/-- A store, and the items that commands which succeeded have added to its keys. -/
structure History where
  store : Store
  added : List (Bytes × Bytes)

def step (ln : F64 → F64) (h : History) (a : Action) : Option History :=
  match (a.outcome ln h.store).out with
  | .ok _ => some { store := a.after ln h.store
                    added := a.op.items.map (Prod.mk a.key) ++ h.added }
  | .error _ => some h

/-- **The condition for a command.** -/
def Meets (ln : F64 → F64) (h : History) (a : Action) : Prop :=
  a.Sane h.store ∧ a.NotFull ln h.store

/-- Every item that was added is answered. -/
structure Answered (h : History) (C : Catalog Filter) : Prop where
  filters : Filters h.store C
  found : ∀ k x, (k, x) ∈ h.added → ∃ P F, C k = some (P, F) ∧ F.answers x = true

theorem Answered.step {h h' : History} {a : Action} (hanswered : Answered h C)
    (hmeets : Meets ln h a) (hstep : step ln h a = some h') : ∃ C', Answered h' C' := by
  obtain ⟨C', hfilters, hold, hnew⟩ := hanswered.filters.after hmeets.1 hmeets.2
  unfold Bloom.step at hstep
  cases hout : (a.outcome ln h.store).out with
  | error e =>
    rw [hout] at hstep
    cases hstep
    exact ⟨C, hanswered⟩
  | ok reply =>
    rw [hout] at hstep
    cases hstep
    refine ⟨C', hfilters, fun k x hmem => ?_⟩
    rcases List.mem_append.mp hmem with hmem | hmem
    · obtain ⟨y, hy, heq⟩ := List.mem_map.mp hmem
      cases heq
      exact hnew ⟨reply, hout⟩ x hy
    · obtain ⟨P, F, hk, hx⟩ := hanswered.found k x hmem
      exact hold k P F x hk hx

theorem exists_answered {h : History} (hr : Reach (step ln) (Meets ln) ⟨∅, []⟩ h) :
    ∃ C, Answered h C := by
  refine hr.inv (I := fun h => ∃ C, Answered h C)
    ⟨_, filters_empty, fun k x hmem => absurd hmem List.not_mem_nil⟩ ?_
  rintro h a h' ⟨C, hC⟩ hmeets hstep
  exact hC.step hmeets hstep

/-- **An item that was added is found.** -/
theorem exists_of_added {h : History} (hr : Reach (step ln) (Meets ln) ⟨∅, []⟩ h) {k x : Bytes}
    (hadded : (k, x) ∈ h.added) (env : Nat → Tick) :
    (exec ((Op.exists_ x).run ln k) env { view := h.store }).out = .ok (.integer 1) := by
  obtain ⟨C, hC⟩ := exists_answered hr
  obtain ⟨P, F, hk, hx⟩ := hC.found k x hadded
  rw [out_exists hC.filters.stored hk, hx]
  rfl

/-- A command on the key `f` of db 0. -/
def atRand (rand : Nat) (op : Op) : Action where
  db := 0
  name := ascii "f"
  op := op
  env _ := { now := 1, rand }

def keyF : Bytes := publicKey 0 (ascii "f")

/-- The logarithms of 0.005, 0.0025 and 0.000625, the error rates of the first sub-filters
for a target of 0.01. -/
def lnSample (x : F64) : F64 :=
  if x = F64.ofDecimal false 5 1 (-3) then F64.ofDecimal true 5298317366548036 16 (-15)
  else if x = F64.ofDecimal false 25 2 (-4) then F64.ofDecimal true 5991464547107982 16 (-15)
  else F64.ofDecimal true 73777589082278725 17 (-16)

/-- A run in which the second of two items gets a sub-filter of its own. -/
theorem reach_grown (p : History → Bool) (h : (run (guarded (step lnSample) fun h a =>
    idUnused h.store (a.env 0) && decide (metaAt (a.after lnSample h.store) keyF |>.all (!·.full)))
      ⟨∅, []⟩ [atRand 1 (.reserve defErr 1 2 false),
        atRand 2 (.madd [ascii "x", ascii "y"])]).any p = true) :
    ∃ h, run (step lnSample) ⟨∅, []⟩ [atRand 1 (.reserve defErr 1 2 false),
        atRand 2 (.madd [ascii "x", ascii "y"])] = some h ∧
      Reach (step lnSample) (Meets lnSample) ⟨∅, []⟩ h ∧ p h = true := by
  refine exists_reach _ _ _ _ _ p h fun h a ha hok => ?_
  simp only [Bool.and_eq_true, decide_eq_true_eq, Option.all_eq_true, Bool.not_eq_true'] at hok
  rcases List.mem_pair.mp ha with rfl | rfl
  · exact ⟨⟨(by decide : 1 < 2 ^ 64), by decide, fun _ => hok.1⟩, hok.2⟩
  · exact ⟨⟨trivial, by decide, fun _ => hok.1⟩, hok.2⟩

/-- The second of two items gets a sub-filter of its own. -/
theorem exists_of_added_grown :
    ∃ h, run (step lnSample) ⟨∅, []⟩ [atRand 1 (.reserve defErr 1 2 false),
        atRand 2 (.madd [ascii "x", ascii "y"])] = some h ∧
      (metaAt h.store keyF).map (·.filters.length) = some 2 ∧
      (exec ((Op.exists_ (ascii "x")).run lnSample keyF) (fun _ => { now := 1 })
        { view := h.store }).out = .ok (.integer 1) := by
  obtain ⟨h, hrun, hreach, hp⟩ := reach_grown (fun h =>
    decide ((metaAt h.store keyF).map (·.filters.length) = some 2 ∧ (keyF, ascii "x") ∈ h.added))
    (by decide +kernel)
  obtain ⟨hlen, hmem⟩ := of_decide_eq_true hp
  exact ⟨h, hrun, hlen, exists_of_added hreach hmem _⟩

/-! ## More sub-filters than the meta entry can count -/

variable (ln) in
/-- An add to a filter that is there succeeds. -/
theorem out_add (h : Stored layout s C) (hk : C k = some (P, F)) (item : Bytes) (env : Nat → Tick) :
    ∃ r F', AddStep ln item F r F' ∧
      (exec ((Op.add item).run ln k) env { view := s }).out = .ok (.integer r) ∧
      Stored layout (exec ((Op.add item).run ln k) env { view := s }).txn.view
        (Function.update C k (some (P, F'))) := by
  have hwp : wp (fun _ => True) (Bloom.add ln k item)
      (fun reply t' => ∃ r F', AddStep ln item F r F' ∧
      reply = .integer r ∧ Stored layout t'.view (Function.update C k (some (P, F'))))
      (fun _ _ => False) { view := s } := by
    obtain ⟨row, hrow, hts, hsent⟩ := h.isSentinel hk
    unfold Bloom.add
    rw [wp_seq]
    refine wp_resolvePrefixForWrite_some hrow (Row.lastsFor_of_none hts _) hsent.place_eq ?_
    rw [wp_seq]
    exact wp_addOne ln h hk fun r F' t' hstep ht' =>
      ⟨r, F', hstep, rfl, ht'⟩
  obtain ⟨reply, hout, r, F', hstep, rfl, ht'⟩ := exec_ok_of_wp hwp env fun _ => trivial
  exact ⟨r, F', hstep, hout, ht'⟩

theorem modify_concat (fs : List SubFilterMeta) (f : SubFilterMeta)
    (g : SubFilterMeta → SubFilterMeta) : (fs ++ [f]).modify fs.length g = fs ++ [g f] := by
  induction fs with
  | nil => rfl
  | cons f' fs ih => simp [ih]

/-- A filter that grows has one sub-filter more, with a count of 1. -/
theorem Added.filters_of_grows (h : Added ln item F F') (hg : F.info.grows = true)
    (hfull : F.info.full = false) :
    F'.info.filters = F.info.filters ++ [{ F.next ln with inserted := 1 }] := by
  have hlen : (F.info.filters ++ [F.next ln]).length ≤ maxFilters := by
    have := Filter.length_blanksAfter ln hfull
    rw [Filter.blanksAfter, if_pos hg, List.length_append, F.length_blanks] at this
    rwa [List.length_append]
  rw [h.info, Filter.grown_of_grows hg]
  unfold BloomMeta.truncated BloomMeta.countInserted
  rw [List.take_of_length_le (by rwa [List.length_modify])]
  simp only [List.length_append, List.length_singleton, Nat.add_sub_cancel]
  exact modify_concat _ _ _

/-- A sizing with 2 bits and 1 hash for each sub-filter of capacity 1. -/
def lnShort : F64 → F64 := fun _ => F64.ofDecimal true 7 1 (-1)

theorem computeBloomParams_lnShort (errorRate : F64) :
    computeBloomParams lnShort 1 errorRate = (2, 1) := by
  have hzero : computeBloomParams lnShort 1 F64.zero = (2, 1) := by decide +kernel
  exact hzero

theorem mod_two_mul_odd (x y : UInt64) (hy : y.toNat % 2 = 1) :
    (x * y).toNat % 2 = x.toNat % 2 := by
  rw [UInt64.toNat_mul, Nat.mod_mod_of_dvd _ (by decide), Nat.mul_mod, hy]
  omega

theorem bloomHash_singleton (b : UInt8) (seed : UInt64) : bloomHash [b] seed =
    (fnv1a64 (leBytes 8 seed.toNat) ^^^ b.toUInt64) * 0x100000001b3 := by
  unfold bloomHash fnv1a64
  rw [List.foldl_append]
  rfl

/-- The hash keeps the parity of the last byte. -/
theorem bloomHash_mod_two_ne (seed : UInt64) :
    (bloomHash [97] seed).toNat % 2 ≠ (bloomHash [98] seed).toNat % 2 := by
  rw [bloomHash_singleton, bloomHash_singleton, mod_two_mul_odd _ _ (by decide),
    mod_two_mul_odd _ _ (by decide), UInt64.toNat_xor, UInt64.toNat_xor]
  generalize (fnv1a64 (leBytes 8 seed.toNat)).toNat = n
  show (n ^^^ 97) % 2 ≠ (n ^^^ 98) % 2
  rw [Nat.xor_mod_two_eq, Nat.xor_mod_two_eq]
  omega

/-- The size of each sub-filter. -/
def Short (f : SubFilterMeta) : Prop := f.capacity = 1 ∧ f.numBits = 2 ∧ f.numHashes = 1

/-- A filter of `n` sub-filters with room for one item, each of which has the item `b`. -/
structure Crowded (F : Filter) (n : Nat) : Prop where
  born : Born F
  length : F.info.filters.length = n
  scaling : F.info.nonScaling = false
  expansion : F.info.expansion = 1
  each : ∀ f ∈ F.info.filters, Short f ∧ f.inserted = 1
  bits : ∀ f ∈ F.info.filters, ∀ q, bitOf F.pages f.id q = true → q ∈ positions [98] f

theorem positions_short (h : Short f) (item : Bytes) :
    positions item f = [(bloomHash item f.seed1).toNat % 2] := by
  unfold positions
  rw [h.2.2, h.2.1]
  simp

theorem positions_inserted (item : Bytes) (f : SubFilterMeta) (n : Nat) :
    positions item { f with inserted := n } = positions item f := rfl

/-- No sub-filter has the other item. -/
theorem Crowded.hasItem_lost (h : Crowded F n) (hf : f ∈ F.info.filters) :
    hasItem F.pages [97] f = false := by
  obtain ⟨hshort, -⟩ := h.each f hf
  cases hitem : hasItem F.pages [97] f with
  | false => rfl
  | true =>
    unfold hasItem at hitem
    rw [positions_short hshort, List.all_cons, List.all_nil, Bool.and_true] at hitem
    have hmem := h.bits f hf _ hitem
    rw [positions_short hshort, List.mem_singleton] at hmem
    exact absurd hmem (bloomHash_mod_two_ne f.seed1)

theorem Crowded.grows (h : Crowded F n) : F.info.grows = true := by
  obtain ⟨⟨hcap, -⟩, hins⟩ := h.each F.last (List.getLast_mem _)
  rw [F.grows_eq, hcap, hins, h.scaling]
  rfl

theorem Crowded.next (h : Crowded F n) : Short (F.next lnShort) := by
  obtain ⟨⟨hcap, -⟩, -⟩ := h.each F.last (List.getLast_mem _)
  have hcapacity (index : Nat) : subFilterCapacity 1 1 index = 1 := by
    unfold subFilterCapacity
    rw [F64.powi_one]
    decide +kernel
  have hsub (id : Nat) (errorRate : F64) : Short (subFilter lnShort id 1 errorRate) := by
    unfold Short subFilter
    rw [computeBloomParams_lnShort]
    exact ⟨rfl, rfl, rfl⟩
  unfold Filter.next newSubFilter
  rw [hcap, h.expansion]
  show Short (subFilter lnShort _ (subFilterCapacity 1 1 _) _)
  rw [hcapacity]
  exact hsub _ _

theorem Crowded.not_full (h : Crowded F n) (hn : n < maxFilters) : F.info.full = false := by
  rw [BloomMeta.full, h.length, h.grows, Bool.true_and, beq_eq_false_iff_ne]
  exact hn.ne

/-- An item is new to the next sub-filter. -/
theorem Crowded.added (h : Crowded F n) (hstep : AddStep lnShort item F r F') :
    Added lnShort item F F' := by
  cases hstep with
  | old hitem =>
    rw [h.born.hasItem_next h.grows] at hitem
    cases hitem
  | new _ hadded => exact hadded

/-- Adding `b` once more gives one sub-filter more. -/
theorem Crowded.addStep (h : Crowded F n) (hn : n < maxFilters)
    (hstep : AddStep lnShort [98] F r F') : Crowded F' (n + 1) := by
  have hg := h.grows
  have hfull := h.not_full hn
  have hadded := h.added hstep
  have hfilters := hadded.filters_of_grows hg hfull
  have hnext := h.next
  have hid : (F.next lnShort).id = F.info.filters.length := by
    rw [h.born.next_id, F.length_blanks]
  have hadds := hadded.bits
  rw [Filter.target_of_grows hg] at hadds
  refine ⟨(h.born.addStep hfull hstep).1, ?_, ?_, ?_, ?_, ?_⟩
  · rw [hfilters, List.length_append, h.length]
    rfl
  · rw [hadded.nonScaling_eq, h.scaling]
  · rw [hadded.expansion_eq, h.expansion]
  · intro f hf
    rw [hfilters] at hf
    rcases List.mem_append.mp hf with hf | hf
    · exact h.each f hf
    · rw [List.mem_singleton.mp hf]
      generalize F.next lnShort = g at hnext
      exact ⟨hnext, rfl⟩
  · intro f hf q hq
    rw [hadds, Bool.or_eq_true, Bool.and_eq_true, decide_eq_true_eq, decide_eq_true_eq] at hq
    rw [hfilters] at hf
    rcases List.mem_append.mp hf with hf | hf
    · refine h.bits f hf q (hq.resolve_right ?_)
      rintro ⟨heq, -⟩
      obtain ⟨i, hi, rfl⟩ := List.getElem_of_mem hf
      rw [h.born.id_getElem hi, hid] at heq
      omega
    · have hunborn := h.born.unborn (F.next lnShort).id q (by rw [hid, F.length_blanks])
      rw [List.mem_singleton.mp hf] at hq ⊢
      generalize F.next lnShort = g at hq hunborn
      change bitOf F.pages g.id q = true ∨ _ at hq
      rw [hunborn] at hq
      rcases hq with hq | ⟨-, hq⟩
      · cases hq
      · exact hq

/-- The next item after `maxFilters` sub-filters is lost. -/
theorem Crowded.lost (h : Crowded F maxFilters) (hstep : AddStep lnShort [97] F r F') :
    F'.answers [97] = false := by
  have hg := h.grows
  have hfull : F.info.full = true := by
    rw [BloomMeta.full, h.length, hg]
    decide
  unfold Filter.answers
  rw [hstep.info_of_full hfull, List.any_eq_false]
  intro f hf
  rw [Bool.not_eq_true]
  have hadded := h.added hstep
  have hsame : ∀ q, bitOf F'.pages f.id q = bitOf F.pages f.id q := by
    intro q
    obtain ⟨i, hi, rfl⟩ := List.getElem_of_mem hf
    rw [hadded.bits, Filter.target_of_grows hg, h.born.next_id, F.length_blanks,
      h.born.id_getElem hi, decide_eq_false (by omega), Bool.false_and, Bool.or_false]
  rw [← h.hasItem_lost hf]
  unfold hasItem
  congr 1
  funext q
  exact hsame q

/-- `BF.RESERVE` with room for one item, and no growth of this room. -/
def reserveOne : Op := .reserve defErr 1 1 false

theorem crowded_first (h : reserveOne.Typed)
    (hstep : AddStep lnShort [98] (reserveOne.newFilter lnShort h) r F') : Crowded F' 1 := by
  have hgrows : (reserveOne.newFilter lnShort h).info.grows = false := by
    show (reserveOne.newInfo lnShort).grows = false
    decide +kernel
  have hfull : (reserveOne.newFilter lnShort h).info.full = false := by
    rw [BloomMeta.full, hgrows, Bool.false_and]
  have hborn := Op.born_newFilter lnShort h
  have hfirst : (reserveOne.newInfo lnShort).countInserted.truncated.filters =
      [{ (reserveOne.newFilter lnShort h).last with inserted := 1 }] := rfl
  have heach : ∀ f ∈ (reserveOne.newInfo lnShort).countInserted.truncated.filters,
      Short f ∧ f.inserted = 1 := by
    unfold Short
    decide +kernel
  obtain ⟨q, hq⟩ := List.exists_mem_of_ne_nil _ (positions_ne_nil [98]
    ((reserveOne.newFilter lnShort h).valid_target lnShort))
  cases hstep with
  | old hitem =>
    have hbit := List.all_eq_true.mp hitem q hq
    rw [show bitOf (reserveOne.newFilter lnShort h).pages _ q = false
      from bitOf_noPages _ q] at hbit
    cases hbit
  | new hitem hadded =>
    have hinfo := hadded.info
    rw [Filter.grown_of_not_grows hgrows] at hinfo
    change F'.info = (reserveOne.newInfo lnShort).countInserted.truncated at hinfo
    refine ⟨(hborn.addStep hfull (.new hitem hadded)).1, ?_, ?_, ?_, ?_, ?_⟩
    · rw [hinfo, hfirst]
      rfl
    · rw [hinfo]
      rfl
    · rw [hinfo]
      rfl
    · rw [hinfo]
      exact heach
    · intro f hf p hp
      rw [hinfo, hfirst, List.mem_singleton] at hf
      rw [hadded.bits, show bitOf (reserveOne.newFilter lnShort h).pages _ p = false from
        bitOf_noPages _ p, Bool.false_or, Bool.and_eq_true, decide_eq_true_eq, decide_eq_true_eq,
        Filter.target_of_not_grows hgrows] at hp
      rw [hf, positions_inserted]
      exact hp.2

variable (ln) in
/-- One add to a filter that is there, as a step of a run. -/
theorem step_add {h : History} (hC : Stored layout h.store C) (hk : C keyF = some (P, F))
    (x : Bytes) : ∃ r F' h', AddStep ln x F r F' ∧ step ln h (atRand 2 (.add x)) = some h' ∧
      Stored layout h'.store (Function.update C keyF (some (P, F'))) ∧ (keyF, x) ∈ h'.added := by
  obtain ⟨r, F', hstep, hout, hnew⟩ := out_add ln hC hk x (fun _ => { now := 1, rand := 2 })
  have hafter : (atRand 2 (.add x)).after ln h.store =
      ((atRand 2 (.add x)).outcome ln h.store).txn.view := by
    unfold Action.after
    rw [show ((atRand 2 (.add x)).outcome ln h.store).out = .ok (.integer r) from hout]
  refine ⟨r, F', { store := (atRand 2 (.add x)).after ln h.store, added := (keyF, x) :: h.added },
    hstep, ?_, ?_, List.mem_cons_self⟩
  · unfold step
    rw [show ((atRand 2 (.add x)).outcome ln h.store).out = .ok (.integer r) from hout]
    rfl
  · rw [hafter]
    exact hnew

theorem run_crowded {h : History} {m : Nat} (n : Nat) (hC : Stored layout h.store C)
    (hk : C keyF = some (P, F)) (hF : Crowded F m) (hm : m + n = maxFilters) :
    ∃ h', run (step lnShort) h
        (List.replicate n (atRand 2 (.add [98])) ++ [atRand 2 (.add [97])]) = some h' ∧
      (keyF, [97]) ∈ h'.added ∧ (exec ((Op.exists_ [97]).run lnShort keyF) (fun _ => { now := 1 })
        { view := h'.store }).out = .ok (.integer 0) := by
  induction n generalizing h C P F m with
  | zero =>
    obtain ⟨r, F', h', hstep, hrun, hC', hmem⟩ := step_add lnShort hC hk [97]
    refine ⟨h', ?_, hmem, ?_⟩
    · show (step lnShort h (atRand 2 (.add [97]))).bind _ = _
      rw [hrun]
      rfl
    · have hlost := Crowded.lost (by rwa [show m = maxFilters from hm] at hF) hstep
      rw [out_exists hC' (Function.update_self ..), hlost]
      rfl
  | succ n ih =>
    obtain ⟨r, F', h', hstep, hrun, hC', -⟩ := step_add lnShort hC hk [98]
    obtain ⟨h'', hrun', hend⟩ := ih hC' (Function.update_self ..)
      (hF.addStep (by omega) hstep) (by omega)
    refine ⟨h'', ?_, hend⟩
    rw [List.replicate_succ, List.cons_append]
    show (step lnShort h (atRand 2 (.add [98]))).bind _ = _
    rw [hrun]
    exact hrun'

theorem step_reserveOne : ∃ h C P, ∃ ht : reserveOne.Typed,
    step lnShort ⟨∅, []⟩ (atRand 1 reserveOne) = some h ∧ Stored layout h.store C ∧
      C keyF = some (P, reserveOne.newFilter lnShort ht) := by
  have hfresh : idUnused ∅ { now := 1, rand := 1 } = true := by decide +kernel
  have hsane : (atRand 1 reserveOne).Sane ∅ :=
    ⟨(by decide : 1 < 2 ^ 64), by decide, fun _ => hfresh⟩
  have hok : ((atRand 1 reserveOne).outcome lnShort ∅).out = .ok .ok := by decide +kernel
  have hthere : (metaAt ((atRand 1 reserveOne).after lnShort ∅) keyF).isSome = true := by
    decide +kernel
  rcases Action.after_cases lnShort hsane stored_empty with
    ⟨e, herr⟩ | ⟨-, hsame⟩ | ⟨P, F, F', rs, hstart, hsteps, hnew⟩
  · rw [hok] at herr
    cases herr
  · rw [metaAt_absent (k := keyF) hsame ⟨0, ascii "f", rfl⟩ rfl] at hthere
    cases hthere
  · cases hsteps with
    | nil =>
      rcases hstart with hk | ⟨-, ht, rfl⟩
      · cases hk
      · refine ⟨{ store := (atRand 1 reserveOne).after lnShort ∅, added := [] }, _, P, ht, ?_, hnew,
          Function.update_self ..⟩
        unfold step
        rw [hok]
        rfl

/-- **An item is lost**: with 65535 full sub-filters the next item is written to the pages of
a sub-filter that the meta entry does not have. -/
theorem added_not_found : ∃ h, run (step lnShort) ⟨∅, []⟩ (atRand 1 reserveOne ::
        (List.replicate maxFilters (atRand 2 (.add [98])) ++ [atRand 2 (.add [97])])) = some h ∧
      (keyF, [97]) ∈ h.added ∧ (exec ((Op.exists_ [97]).run lnShort keyF) (fun _ => { now := 1 })
        { view := h.store }).out = .ok (.integer 0) := by
  obtain ⟨h, C, P, ht, hreserve, hC, hk⟩ := step_reserveOne
  obtain ⟨r, F', h', hstep, hrun, hC', -⟩ := step_add lnShort hC hk [98]
  obtain ⟨n, hn⟩ : ∃ n, 1 + n = maxFilters := ⟨maxFilters - 1, by unfold maxFilters; omega⟩
  obtain ⟨h'', hrun', hend⟩ := run_crowded n hC' (Function.update_self ..)
    (crowded_first ht hstep) hn
  refine ⟨h'', ?_, hend⟩
  rw [← hn, Nat.add_comm, List.replicate_succ, List.cons_append]
  simp only [run, hreserve, Option.bind_some, hrun]
  exact hrun'

end Invar.Bloom
