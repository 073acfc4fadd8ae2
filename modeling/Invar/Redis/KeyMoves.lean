import Invar.Common.Regions
import Invar.Lib.StoreRows
import Invar.Redis.Command

/-!
# Deleting, renaming and moving values

`DEL`, `RENAME`, `RENAMENX` and `MOVE` on a store of compound values with recorded
namespaces, for every layout whose elements the commands find (`Layout.Clears`,
`Layout.Moves`). The types whose elements are found by scanning the prefixes of
`elementPrefixes` are such layouts.
-/

namespace Invar

open StoreProg TxProg

variable {α : Type} {L : Layout α} {s s' : Store} {C : Catalog α}
  {A : Tick → Prop} {E : Post DbError} {t : Txn Bytes Row}

/-! ## Values that go elsewhere -/

variable {P P' : Place} {a : α} {source target from_ to_ name new old : Bytes}
  {Q : Post Unit} {db : Int} {ks : List Bytes} {s₁ : Store}

/-- **A value goes to another key**, at its old place or at one with the same id. -/
theorem Stored.transfer (h : Stored L s C)
    (hsource : C source = some (P, a)) (htarget : C target = none) (hid : P'.id = P.id)
    (hdb : ∃ name, target = publicKey P'.db name)
    (hrow : s'[target]? = some (L.sentinel (P', a))) (hgone : s'[source]? = none)
    (hcells : ∀ suffix, s'[P'.bytes ++ suffix]? = L.cells a suffix)
    (hleft : P'.bytes ≠ P.bytes → ∀ suffix, s'[P.bytes ++ suffix]? = none)
    (hframe : ∀ x, x ≠ source → x ≠ target → ¬P.bytes <+: x → ¬P'.bytes <+: x → s'[x]? = s[x]?) :
    Stored L s' (Function.update (Function.update C source none) target (some (P', a))) := by
  have hne : target ≠ source := fun heq => by
    rw [heq, hsource] at htarget
    cases htarget
  have hpub : IsPublic target := hdb.elim fun name hname => ⟨_, name, hname⟩
  -- the new catalog at the keys that are left alone
  have hother : ∀ {k}, k ≠ source → k ≠ target →
      Function.update (Function.update C source none) target (some (P', a)) k = C k :=
    fun hk hk' => by rw [Function.update_of_ne hk', Function.update_of_ne hk]
  have hat : Function.update (Function.update C source none) target (some (P', a)) target =
      some (P', a) := Function.update_self ..
  have hfrom : Function.update (Function.update C source none) target (some (P', a)) source =
      none := by rw [Function.update_of_ne hne.symm, Function.update_self]
  have hapart : ∀ {k Pa suffix}, C k = some Pa → k ≠ source →
      ¬P.bytes <+: Pa.1.bytes ++ suffix ∧ ¬P'.bytes <+: Pa.1.bytes ++ suffix := by
    intro k Pa suffix hk hks
    constructor
    · intro hp
      have hbytes := Place.eq_of_isPrefix hp (List.prefix_append Pa.1.bytes suffix)
      exact hks (h.distinct hk hsource (Place.id_eq_of_bytes hbytes).symm)
    · intro hp
      have hbytes := Place.eq_of_isPrefix hp (List.prefix_append Pa.1.bytes suffix)
      exact hks (h.distinct hk hsource ((Place.id_eq_of_bytes hbytes).symm.trans hid))
  refine ⟨fun {k Pa} hk => ?_, fun {k} hk => ?_, fun {k Q b} hk suffix => ?_,
    fun {k₁ k₂ Pa₁ Pa₂} h₁ h₂ heq => ?_, fun {x row} hx => ?_⟩
  · by_cases hkt : k = target
    · subst hkt
      rw [hat] at hk
      cases hk
      exact hdb
    · by_cases hks : k = source
      · rw [hks, hfrom] at hk
        cases hk
      · rw [hother hks hkt] at hk
        exact h.inDb hk
  · by_cases hkt : k = target
    · rw [hkt, hat, hrow]
      rfl
    · by_cases hks : k = source
      · rw [hks, hfrom, hgone]
        rfl
      · rw [hother hks hkt, hframe k hks hkt (hk.not_isPrefix P) (hk.not_isPrefix P'),
          h.sentinel hk]
  · by_cases hkt : k = target
    · rw [hkt, hat] at hk
      cases hk
      exact hcells suffix
    · by_cases hks : k = source
      · rw [hks, hfrom] at hk
        cases hk
      · rw [hother hks hkt] at hk
        have hpubs := h.isPublic hsource
        rw [hframe _ (fun heq => hpubs.not_isPrefix Q (heq ▸ List.prefix_append _ _))
          (fun heq => hpub.not_isPrefix Q (heq ▸ List.prefix_append _ _)) (hapart hk hks).1
          (hapart hk hks).2, h.cells hk]
  · -- a value that stays does not have the id of the one that goes
    have hids : ∀ {k Pa}, k ≠ source → C k = some Pa → Pa.1.id ≠ P'.id := fun hks hk heq =>
      hks (h.distinct hk hsource (heq.trans hid))
    by_cases ht₁ : k₁ = target <;> by_cases ht₂ : k₂ = target
    · rw [ht₁, ht₂]
    · rw [ht₁, hat] at h₁
      by_cases hs₂ : k₂ = source
      · rw [hs₂, hfrom] at h₂
        cases h₂
      · rw [hother hs₂ ht₂] at h₂
        cases h₁
        exact absurd heq.symm (hids hs₂ h₂)
    · rw [ht₂, hat] at h₂
      by_cases hs₁ : k₁ = source
      · rw [hs₁, hfrom] at h₁
        cases h₁
      · rw [hother hs₁ ht₁] at h₁
        cases h₂
        exact absurd heq (hids hs₁ h₁)
    · by_cases hs₁ : k₁ = source
      · rw [hs₁, hfrom] at h₁
        cases h₁
      · by_cases hs₂ : k₂ = source
        · rw [hs₂, hfrom] at h₂
          cases h₂
        · rw [hother hs₁ ht₁] at h₁
          rw [hother hs₂ ht₂] at h₂
          exact h.distinct h₁ h₂ heq
  · by_cases hxt : x = target
    · exact .inl (hxt ▸ hpub)
    by_cases hxs : x = source
    · rw [hxs, hgone] at hx
      cases hx
    by_cases hp' : P'.bytes <+: x
    · exact .inr ⟨target, _, hat, hp'⟩
    by_cases hp : P.bytes <+: x
    · obtain ⟨suffix, rfl⟩ := hp
      rw [hleft fun heq => hp' (heq ▸ List.prefix_append _ _)] at hx
      cases hx
    · rw [hframe x hxs hxt hp hp'] at hx
      refine (h.owned hx).imp_right fun ⟨k, Pa, hk, hpk⟩ => ?_
      by_cases hks : k = source
      · subst hks
        rw [hsource] at hk
        cases hk
        exact absurd hpk hp
      · refine ⟨k, Pa, ?_, hpk⟩
        rw [hother hks fun hkt => by rw [hkt, htarget] at hk; cases hk]
        exact hk

/-! ## Deleting and re-keying rows -/

/-- Different places have no key in common. -/
theorem Place.append_ne (hne : P'.bytes ≠ P.bytes) (r r' : Bytes) :
    P.bytes ++ r ≠ P'.bytes ++ r' := fun heq =>
  hne (Place.eq_of_isPrefix (List.prefix_append _ _) (heq ▸ List.prefix_append _ _))

/-- No row has an expiry. -/
def Lasting (s : Store) : Prop := ∀ (x : Bytes) (row : Row), s[x]? = some row → row.expireTs = none

/-- Nothing is left at the place, and nothing else has changed. -/
structure Cleared (P : Place) (s s' : Store) : Prop where
  gone : ∀ suffix, s'[P.bytes ++ suffix]? = none
  rest : ∀ x, ¬P.bytes <+: x → s'[x]? = s[x]?

/-- The rows of one place are at another. -/
structure Rekeyed (P P' : Place) (s s' : Store) : Prop where
  arrived : ∀ suffix, s'[P'.bytes ++ suffix]? = s[P.bytes ++ suffix]?
  gone : ∀ suffix, s'[P.bytes ++ suffix]? = none
  rest : ∀ x, ¬P.bytes <+: x → ¬P'.bytes <+: x → s'[x]? = s[x]?

/-- Deleting what a scan lists. -/
theorem wp_scanDelete {p : Bytes} (hlast : Lasting t.view)
    (h : ∀ t', (∀ x, t'.view[x]? = if p.isPrefixOf x then none else t.view[x]?) → Q () t') :
    wp A (scanUnder p) (fun rows t' => wp A (deleteAll (rows.map (·.1))) Q E t') E t := by
  refine wp_scan_lasting (fun k row _ hrow => Row.lastsFor_of_none (hlast _ _ hrow) A) ?_
  refine wp_deleteAll fun t' ht' => h t' fun x => ?_
  rw [ht' x]
  show (if x ∈ keysOf t.view _ then none else t.view[x]?) = _
  by_cases hp : p.isPrefixOf x = true
  · rw [if_pos hp]
    split
    · rfl
    · rename_i hmem
      rw [mem_keysOf, not_and] at hmem
      exact Option.not_isSome_iff_eq_none.mp fun hsome => hmem hsome hp
  · rw [if_neg hp, if_neg fun hmem => hp (mem_keysOf.mp hmem).2]

theorem wp_clearPrefixes {ps : List Bytes} (hlast : Lasting t.view)
    (h : ∀ t', (∀ x, t'.view[x]? = if ps.any (·.isPrefixOf x) then none else t.view[x]?) →
      Q () t') : wp A (Keys.clearPrefixes ps) Q E t := by
  induction ps generalizing t with
  | nil => exact h t fun _ => rfl
  | cons p ps ih =>
    unfold Keys.clearPrefixes
    simp only [Prog.bind_eq, wp_bind]
    refine wp_scanDelete hlast fun t' ht' => ih
      (fun x row hrow => ?_) fun t'' ht'' => h t'' fun x => ?_
    · rw [ht' x] at hrow
      split at hrow
      · cases hrow
      · exact hlast x row hrow
    · rw [ht'' x, ht' x, List.any_cons]
      cases p.isPrefixOf x <;> simp

/-- The key that a row under `from_` is moved to. -/
def rekeyed (from_ to_ key : Bytes) : Bytes := to_ ++ key.drop from_.length

theorem wp_moveRows {rows : List (Bytes × Row)} (hapart : ∀ x, ¬(from_ <+: x ∧ to_ <+: x))
    (hunder : ∀ kr ∈ rows, from_ <+: kr.1) (hlast : ∀ kr ∈ rows, kr.2.expireTs = none)
    (hnodup : (rows.map (·.1)).Nodup) (h : ∀ t', (∀ kr ∈ rows, t'.view[kr.1]? = none ∧
        t'.view[rekeyed from_ to_ kr.1]? = some kr.2) →
      (∀ x, (∀ kr ∈ rows, x ≠ kr.1 ∧ x ≠ rekeyed from_ to_ kr.1) → t'.view[x]? = t.view[x]?) →
        Q () t') : wp A (Keys.moveRows from_ to_ rows) Q E t := by
  induction rows generalizing t with
  | nil => exact h t (by simp) fun _ _ => rfl
  | cons kr rows ih =>
    obtain ⟨key, row⟩ := kr
    rw [List.forall_mem_cons] at hunder hlast
    rw [List.map_cons, List.nodup_cons] at hnodup
    -- the row goes to a key that is not under `from_`
    have hto : ∀ k, to_ <+: rekeyed from_ to_ k := fun k => List.prefix_append _ _
    have hne : ∀ {k k'}, from_ <+: k → k ≠ rekeyed from_ to_ k' := fun hk heq =>
      hapart _ ⟨hk, heq ▸ hto _⟩
    have hinj : ∀ {k k'}, from_ <+: k → from_ <+: k' →
        rekeyed from_ to_ k = rekeyed from_ to_ k' → k = k' := by
      rintro _ _ ⟨r, rfl⟩ ⟨r', rfl⟩ heq
      simpa [rekeyed] using heq
    have hkey : ∀ kr ∈ rows, key ≠ kr.1 := fun kr hkr heq =>
      hnodup.1 (List.mem_map.mpr ⟨kr, hkr, heq.symm⟩)
    unfold Keys.moveRows
    rw [wp_seq, wp_set]
    intro x hx
    rw [wp_seq, wp_delete]
    have hrow : (Row.mk row.value row.metadata none) = row := by rw [← hlast.1]
    change wp A _ _ _ ((t.put (rekeyed from_ to_ key) ⟨row.value, row.metadata, none⟩).del key)
    rw [hrow]
    refine ih hunder.2 hlast.2 hnodup.2 fun t' hmoved hrest => h t' ?_ ?_
    · rw [List.forall_mem_cons]
      refine ⟨⟨?_, ?_⟩, hmoved⟩
      · rw [hrest key fun kr hkr => ⟨hkey kr hkr, hne hunder.1⟩, Txn.view_del, if_pos rfl]
      · rw [hrest _ fun kr hkr => ⟨(hne (hunder.2 kr hkr)).symm, fun heq =>
          hkey kr hkr (hinj hunder.1 (hunder.2 kr hkr) heq)⟩,
          Txn.view_del, if_neg (hne hunder.1).symm, Txn.view_put, if_pos rfl]
    · intro y hy
      rw [List.forall_mem_cons] at hy
      rw [hrest y hy.2, Txn.view_del, if_neg hy.1.1, Txn.view_put, if_neg hy.1.2]

/-- All rows under `from_` are under `to_`, where nothing was before. -/
theorem wp_movePrefix (hapart : ∀ x, ¬(from_ <+: x ∧ to_ <+: x)) (hlast : Lasting t.view)
    (hempty : ∀ suffix, t.view[to_ ++ suffix]? = none)
    (h : ∀ t', (∀ suffix, t'.view[to_ ++ suffix]? = t.view[from_ ++ suffix]?) →
      (∀ suffix, t'.view[from_ ++ suffix]? = none) →
      (∀ x, ¬from_ <+: x → ¬to_ <+: x → t'.view[x]? = t.view[x]?) → Q () t') :
    wp A (Keys.movePrefix from_ to_) Q E t := by
  unfold Keys.movePrefix scanUnder
  rw [wp_seq]
  refine wp_scan_lasting (fun k row _ hrow => Row.lastsFor_of_none (hlast _ _ hrow) A) ?_
  have hrows : ∀ kr ∈ rowsOf t.view fun k => from_.isPrefixOf k,
      t.view[kr.1]? = some kr.2 ∧ from_ <+: kr.1 := fun kr hkr => by
    obtain ⟨hrow, hp⟩ := mem_rowsOf.mp hkr
    exact ⟨hrow, List.isPrefixOf_iff_prefix.mp hp⟩
  have hview : ∀ p, (t.noteRead p).view = t.view := fun _ => rfl
  refine wp_moveRows hapart (fun kr hkr => (hrows kr hkr).2)
    (fun kr hkr => hlast _ _ (hrows kr hkr).1) (nodup_keysOf _ _) fun t' hmoved hrest => ?_
  rw [hview] at hrest
  have hrekeyed : ∀ suffix, rekeyed from_ to_ (from_ ++ suffix) = to_ ++ suffix := by simp [rekeyed]
  -- a row that was there was moved
  have hthere : ∀ {suffix row}, t.view[from_ ++ suffix]? = some row →
      t'.view[from_ ++ suffix]? = none ∧ t'.view[to_ ++ suffix]? = some row := by
    intro suffix row hrow
    have hkr := hmoved (from_ ++ suffix, row)
      (mem_rowsOf.mpr ⟨hrow, List.isPrefixOf_iff_prefix.mpr (List.prefix_append _ _)⟩)
    rwa [hrekeyed] at hkr
  have hnot : ∀ {suffix}, t.view[from_ ++ suffix]? = none →
      t'.view[from_ ++ suffix]? = none ∧ t'.view[to_ ++ suffix]? = none := by
    intro suffix hrow
    constructor
    · rw [hrest _ fun kr hkr => ⟨fun heq => ?_, fun heq => ?_⟩, hrow]
      · have hrow' := (hrows kr hkr).1
        rw [← heq, hrow] at hrow'
        cases hrow'
      · exact hapart _ ⟨List.prefix_append from_ suffix, heq ▸ List.prefix_append _ _⟩
    · rw [hrest _ fun kr hkr => ⟨fun heq => ?_, fun heq => ?_⟩, hempty]
      · exact hapart (to_ ++ suffix) ⟨heq ▸ (hrows kr hkr).2, List.prefix_append _ _⟩
      · obtain ⟨hrow', r, hr⟩ := hrows kr hkr
        rw [← hr, hrekeyed, List.append_cancel_left_eq] at heq
        rw [← hr, ← heq, hrow] at hrow'
        cases hrow'
  refine h t' (fun suffix => ?_) (fun suffix => ?_) fun x hx hx' => hrest x fun kr hkr => ?_
  · cases hrow : t.view[from_ ++ suffix]? with
    | none => exact (hnot hrow).2
    | some row => exact (hthere hrow).2
  · cases hrow : t.view[from_ ++ suffix]? with
    | none => exact (hnot hrow).1
    | some row => exact (hthere hrow).1
  · exact ⟨fun heq => hx (heq ▸ (hrows kr hkr).2), fun heq => hx' (heq ▸ List.prefix_append _ _)⟩

/-! ## The elements of a value -/

/-- `clearCompoundEntries` finds all elements. -/
def Layout.Clears (L : Layout α) : Prop :=
  ∀ (A : Tick → Prop) (E : DbError → Txn Bytes Row → Prop) (t : Txn Bytes Row) (C : Catalog α)
    (k : Bytes) (P : Place) (a : α) (Q : Unit → Txn Bytes Row → Prop),
    Stored L t.view C → C k = some (P, a) → (∀ t', Cleared P t.view t'.view → Q () t') →
      wp A (Keys.clearCompoundEntries k P.bytes (L.sentinel (P, a)).metadata) Q E t

/-- `moveElements` takes all elements to another place. -/
def Layout.Moves (L : Layout α) : Prop :=
  ∀ (A : Tick → Prop) (E : DbError → Txn Bytes Row → Prop) (t : Txn Bytes Row) (C : Catalog α)
    (k : Bytes) (P P' : Place) (a : α) (Q : Unit → Txn Bytes Row → Prop),
    Stored L t.view C → C k = some (P, a) → P'.bytes ≠ P.bytes →
    (∀ suffix, t.view[P'.bytes ++ suffix]? = none) →
    (∀ t', Rekeyed P P' t.view t'.view → Q () t') →
      wp A (Keys.moveElements k (L.type a).byte P.bytes P'.bytes) Q E t

theorem baseType_sentinel (L : Layout α) (Pa : Place × α) :
    baseType (L.sentinel Pa).metadata = (L.type Pa.2).byte :=
  (L.isSentinel_sentinel Pa []).type_eq

/-- The suffixes of the rows that `elementPrefixes` covers. -/
def elementSuffixes (type : ValueType) : List Bytes := elementPrefixes type.byte []

theorem elementPrefixes_eq (type : ValueType) (nodePrefix : Bytes) :
    elementPrefixes type.byte nodePrefix = (elementSuffixes type).map (nodePrefix ++ ·) := by
  cases type <;> rfl

/-- The elements are under the prefixes of `elementPrefixes`. -/
structure Layout.Covered (L : Layout α) : Prop where
  notList : ∀ a, L.type a ≠ .list
  covered : ∀ {a suffix}, (L.cells a suffix).isSome → ∃ q ∈ elementSuffixes (L.type a), q <+: suffix

theorem ValueType.byte_inj {type type' : ValueType} (h : type.byte = type'.byte) :
    type = type' := by
  cases type <;> cases type' <;> first | rfl | cases h

theorem Layout.Covered.clears (hL : L.Covered) : L.Clears := by
  intro A E t C k P a Q h hk hQ
  unfold Keys.clearCompoundEntries
  rw [baseType_sentinel, if_neg fun heq => hL.notList a (ValueType.byte_inj heq),
    elementPrefixes_eq]
  refine wp_clearPrefixes
    (fun _ _ => h.lasting) fun t' ht' => hQ t' ⟨fun suffix => ?_, fun x hx => ?_⟩
  · rw [ht']
    split
    · rfl
    · rename_i hnone
      rw [h.cells hk, ← Option.not_isSome_iff_eq_none]
      intro hsome
      obtain ⟨q, hq, hp⟩ := hL.covered hsome
      refine hnone (List.any_eq_true.mpr ⟨_, List.mem_map_of_mem hq, ?_⟩)
      rw [List.isPrefixOf_iff_prefix]
      exact (List.prefix_append_right_inj _).mpr hp
  · rw [ht', if_neg]
    intro hany
    obtain ⟨p, hp, hpx⟩ := List.any_eq_true.mp hany
    obtain ⟨q, -, rfl⟩ := List.mem_map.mp hp
    exact hx ((List.prefix_append _ _).trans (List.isPrefixOf_iff_prefix.mp hpx))

/-- The rows under `q` at one place are at another. -/
theorem wp_movePrefix_place {q : Bytes} (hne : P'.bytes ≠ P.bytes) (hlast : Lasting t.view)
    (hempty : ∀ suffix, q <+: suffix → t.view[P'.bytes ++ suffix]? = none)
    (h : ∀ t', Lasting t'.view →
      (∀ suffix, q <+: suffix → t'.view[P'.bytes ++ suffix]? = t.view[P.bytes ++ suffix]? ∧
        t'.view[P.bytes ++ suffix]? = none) →
      (∀ x, (∀ suffix, q <+: suffix → x ≠ P.bytes ++ suffix ∧ x ≠ P'.bytes ++ suffix) →
        t'.view[x]? = t.view[x]?) → Q () t') :
    wp A (Keys.movePrefix (P.bytes ++ q) (P'.bytes ++ q)) Q E t := by
  have hapart : ∀ x, ¬(P.bytes ++ q <+: x ∧ P'.bytes ++ q <+: x) := fun x hx =>
    hne (Place.eq_of_isPrefix ((List.prefix_append _ _).trans hx.2)
      ((List.prefix_append _ _).trans hx.1))
  refine wp_movePrefix hapart hlast (fun suffix => ?_) fun t' harrived hgone hrest => ?_
  · rw [List.append_assoc]
    exact hempty _ (List.prefix_append _ _)
  have hmoved : ∀ suffix, q <+: suffix →
      t'.view[P'.bytes ++ suffix]? = t.view[P.bytes ++ suffix]? ∧
        t'.view[P.bytes ++ suffix]? = none := by
    rintro _ ⟨r, rfl⟩
    rw [← List.append_assoc, ← List.append_assoc]
    exact ⟨harrived r, hgone r⟩
  have hother : ∀ x, (∀ suffix, q <+: suffix → x ≠ P.bytes ++ suffix ∧ x ≠ P'.bytes ++ suffix) →
      t'.view[x]? = t.view[x]? := by
    intro x hx
    refine hrest x ?_ ?_
    · rintro ⟨r, rfl⟩
      exact (hx (q ++ r) (List.prefix_append _ _)).1 (List.append_assoc ..)
    · rintro ⟨r, rfl⟩
      exact (hx (q ++ r) (List.prefix_append _ _)).2 (List.append_assoc ..)
  refine h t' (fun x row hrow => ?_) hmoved hother
  by_cases hx : ∀ suffix, q <+: suffix → x ≠ P.bytes ++ suffix ∧ x ≠ P'.bytes ++ suffix
  · exact hlast x row (hother x hx ▸ hrow)
  · push Not at hx
    obtain ⟨suffix, hq, himp⟩ := hx
    by_cases heq : x = P.bytes ++ suffix
    · rw [heq, (hmoved suffix hq).2] at hrow
      cases hrow
    · rw [himp heq, (hmoved suffix hq).1] at hrow
      exact hlast _ row hrow

/-- The rows under all of the suffixes are at another place. -/
theorem wp_movePrefixes {qs : List Bytes} (hne : P'.bytes ≠ P.bytes) (hlast : Lasting t.view)
    (hapart : qs.Pairwise fun q q' => ∀ suffix, ¬(q <+: suffix ∧ q' <+: suffix))
    (hempty : ∀ suffix, (∃ q ∈ qs, q <+: suffix) → t.view[P'.bytes ++ suffix]? = none)
    (h : ∀ t', (∀ suffix, (∃ q ∈ qs, q <+: suffix) →
        t'.view[P'.bytes ++ suffix]? = t.view[P.bytes ++ suffix]? ∧
          t'.view[P.bytes ++ suffix]? = none) →
      (∀ x, (∀ suffix, (∃ q ∈ qs, q <+: suffix) → x ≠ P.bytes ++ suffix ∧ x ≠ P'.bytes ++ suffix) →
        t'.view[x]? = t.view[x]?) → Q () t') :
    wp A (Keys.movePrefixes ((qs.map (P.bytes ++ ·)).zip (qs.map (P'.bytes ++ ·)))) Q E t := by
  induction qs generalizing t with
  | nil => exact h t (by simp) fun _ _ => rfl
  | cons q qs ih =>
    rw [List.pairwise_cons] at hapart
    simp only [List.map_cons, List.zip_cons_cons]
    unfold Keys.movePrefixes
    rw [wp_seq]
    refine wp_movePrefix_place hne hlast
      (fun suffix hq => hempty suffix ⟨q, List.mem_cons_self, hq⟩)
      fun t' hlast' hmoved hrest => ?_
    -- the first move leaves the rows of the others alone
    have hothers : ∀ suffix, (∃ q' ∈ qs, q' <+: suffix) →
        t'.view[P'.bytes ++ suffix]? = t.view[P'.bytes ++ suffix]? ∧
          t'.view[P.bytes ++ suffix]? = t.view[P.bytes ++ suffix]? := by
      rintro suffix ⟨q', hq', hp⟩
      have hsuffix : ∀ suffix', q <+: suffix' → suffix ≠ suffix' := fun suffix' hq heq =>
        hapart.1 q' hq' suffix ⟨heq ▸ hq, hp⟩
      constructor
      · refine hrest _ fun suffix' hq => ⟨(Place.append_ne hne _ _).symm, fun heq => ?_⟩
        exact hsuffix suffix' hq (List.append_cancel_left heq)
      · refine hrest _ fun suffix' hq => ⟨fun heq => ?_, Place.append_ne hne _ _⟩
        exact hsuffix suffix' hq (List.append_cancel_left heq)
    refine ih hlast' hapart.2 (fun suffix hq => ?_) fun t'' hmoved' hrest' => h t'' ?_ ?_
    · obtain ⟨q', hq', hp⟩ := hq
      rw [(hothers suffix ⟨q', hq', hp⟩).1]
      exact hempty suffix ⟨q', List.mem_cons_of_mem _ hq', hp⟩
    · intro suffix hq
      by_cases hin : ∃ q' ∈ qs, q' <+: suffix
      · rw [(hmoved' suffix hin).1, (hothers suffix hin).2]
        exact ⟨rfl, (hmoved' suffix hin).2⟩
      · have hfirst : q <+: suffix := by
          obtain ⟨q', hq', hp⟩ := hq
          rcases List.mem_cons.mp hq' with rfl | hq'
          · exact hp
          · exact absurd ⟨q', hq', hp⟩ hin
        have hkept : ∀ suffix', (∃ q' ∈ qs, q' <+: suffix') → suffix ≠ suffix' :=
          fun suffix' hq' heq => hin (heq ▸ hq')
        rw [hrest' _ fun suffix' hq' => ⟨(Place.append_ne hne _ _).symm, fun heq =>
            hkept suffix' hq' (List.append_cancel_left heq)⟩,
          hrest' _ fun suffix' hq' => ⟨fun heq => hkept suffix' hq' (List.append_cancel_left heq),
            Place.append_ne hne _ _⟩]
        exact hmoved suffix hfirst
    · intro x hx
      rw [hrest' x fun suffix hp => hx suffix (hp.imp fun _ h => ⟨List.mem_cons_of_mem _ h.1, h.2⟩),
        hrest x fun suffix hp => hx suffix ⟨q, List.mem_cons_self, hp⟩]

theorem elementSuffixes_apart (type : ValueType) :
    (elementSuffixes type).Pairwise fun q q' => ∀ suffix, ¬(q <+: suffix ∧ q' <+: suffix) := by
  have hzset : ∀ suffix, ¬(ascii ":score:" <+: suffix ∧ ascii ":member:" <+: suffix) := by
    rintro _ ⟨⟨r, rfl⟩, r', heq⟩
    exact absurd (congrArg (·[1]?) heq) (by simp [ascii])
  cases type with
  | sortedSet => exact List.pairwise_pair.mpr hzset
  | _ => first | exact List.pairwise_singleton _ _ | exact List.Pairwise.nil

theorem Layout.Covered.moves (hL : L.Covered) : L.Moves := by
  intro A E t C k P P' a Q h hk hne hempty hQ
  unfold Keys.moveElements
  rw [if_neg fun heq => hL.notList a (ValueType.byte_inj heq), elementPrefixes_eq,
    elementPrefixes_eq]
  have hnot : ∀ {suffix}, (¬∃ q ∈ elementSuffixes (L.type a), q <+: suffix) →
      t.view[P.bytes ++ suffix]? = none := fun {suffix} hq => by
    rw [h.cells hk, ← Option.not_isSome_iff_eq_none]
    exact fun hsome => hq (hL.covered hsome)
  refine wp_movePrefixes hne (fun _ _ => h.lasting) (elementSuffixes_apart _)
    (fun suffix _ => hempty suffix) fun t' hmoved hrest => hQ t'
      ⟨fun suffix => ?_, fun suffix => ?_,
      fun x hx hx' => ?_⟩
  · by_cases hq : ∃ q ∈ elementSuffixes (L.type a), q <+: suffix
    · exact (hmoved suffix hq).1
    · rw [hrest _ fun suffix' hq' => ⟨(Place.append_ne hne _ _).symm, fun heq =>
        hq ((List.append_cancel_left heq : suffix = suffix') ▸ hq')⟩, hempty, hnot hq]
  · by_cases hq : ∃ q ∈ elementSuffixes (L.type a), q <+: suffix
    · exact (hmoved suffix hq).2
    · rw [hrest _ fun suffix' hq' => ⟨fun heq =>
        hq ((List.append_cancel_left heq : suffix = suffix') ▸ hq'), Place.append_ne hne _ _⟩,
          hnot hq]
  · exact hrest x fun suffix _ => ⟨fun heq => hx (heq ▸ List.prefix_append _ _),
      fun heq => hx' (heq ▸ List.prefix_append _ _)⟩

/-! ## Commands on keys -/

/-- The commands that remove keys or take values to other keys, with the names that the
client gives and the db of its session. -/
inductive KeyCommand where
  | del (db : Int) (names : List Bytes)
  | rename (db : Int) (old new : Bytes)
  | renameNx (db : Int) (old new : Bytes)
  | move (db : Int) (name : Bytes) (targetDb : Int)

namespace KeyCommand

def data : KeyCommand → DataCommand
  | .del db names => .del (names.map (publicKey db))
  | .rename db old new => .rename (publicKey db old) (publicKey db new)
  | .renameNx db old new => .renameNx (publicKey db old) (publicKey db new)
  | .move db name targetDb =>
    .move (publicKey db name) (publicKey targetDb name) targetDb (decide (db = targetDb))

/-- Values are moved to dbs with a number of their own. -/
def NamesDb : KeyCommand → Prop
  | .move _ _ targetDb => IsDb targetDb
  | _ => True

instance : DecidablePred NamesDb := fun cmd => by
  unfold NamesDb
  split <;> infer_instance

variable {β : Type}

/-- A value goes to another key. -/
def carry (relocate : β → β) (source target : Bytes) (K : Bytes → Option β) : Bytes → Option β :=
  Function.update (Function.update K source none) target ((K source).map relocate)

def dropKeys : List Bytes → (Bytes → Option β) → Int × (Bytes → Option β)
  | [], K => (0, K)
  | k :: ks, K =>
    match K k with
    | none => dropKeys ks K
    | some _ =>
      let (n, K') := dropKeys ks (Function.update K k none)
      (n + 1, K')

/-- **What the commands are for**: the reply and the new keyspace, of values of any kind
that `relocate` takes to another db. -/
def apply (relocate : Int → β → β) (K : Bytes → Option β) :
    KeyCommand → RespValue × (Bytes → Option β)
  | .del db names =>
    let (n, K') := dropKeys (names.map (publicKey db)) K
    (.integer n, K')
  | .rename db old new =>
    if (K (publicKey db old)).isNone then (.error (ascii "ERR no such key"), K)
    else if old = new then (.ok, K)
    else (.ok, carry id (publicKey db old) (publicKey db new) K)
  | .renameNx db old new =>
    if (K (publicKey db new)).isSome then (.integer 0, K)
    else if (K (publicKey db old)).isNone then (.error (ascii "no such key"), K)
    else (.integer 1, carry id (publicKey db old) (publicKey db new) K)
  | .move db name targetDb =>
    if (K (publicKey db name)).isNone || (K (publicKey targetDb name)).isSome then (.integer 0, K)
    else (.integer 1, carry (relocate targetDb) (publicKey db name) (publicKey targetDb name) K)

/-- The values are those from before, some of them relocated. -/
theorem apply_values {relocate : Int → β → β} {K : Bytes → Option β} {V : β → Prop}
    (hrelocate : ∀ db b, V b → V (relocate db b)) (hK : ∀ k b, K k = some b → V b)
    (cmd : KeyCommand) (k : Bytes) (b : β) (h : (cmd.apply relocate K).2 k = some b) : V b := by
  have hcarry {f : β → β} (hf : ∀ b, V b → V (f b)) {source target : Bytes}
      (h : carry f source target K k = some b) : V b := by
    unfold carry at h
    by_cases ht : k = target
    · rw [ht, Function.update_self, Option.map_eq_some_iff] at h
      obtain ⟨b', hb', rfl⟩ := h
      exact hf b' (hK source b' hb')
    · rw [Function.update_of_ne ht] at h
      by_cases hs : k = source
      · rw [hs, Function.update_self] at h
        cases h
      · rw [Function.update_of_ne hs] at h
        exact hK k b h
  have hdrop : ∀ (ks : List Bytes) (K : Bytes → Option β), (∀ k b, K k = some b → V b) →
      (dropKeys ks K).2 k = some b → V b := by
    intro ks
    induction ks with
    | nil => exact fun K hK h => hK k b h
    | cons k' ks ih =>
      intro K hK h
      unfold dropKeys at h
      cases hk' : K k' with
      | none =>
        rw [hk'] at h
        exact ih K hK h
      | some b' =>
        rw [hk'] at h
        refine ih (Function.update K k' none) (fun y b hy => ?_) h
        by_cases hyk : y = k'
        · rw [hyk, Function.update_self] at hy
          cases hy
        · rw [Function.update_of_ne hyk] at hy
          exact hK y b hy
  cases cmd with
  | del db names => exact hdrop _ K hK h
  | rename db old new =>
    simp only [apply] at h
    split at h
    · exact hK k b h
    · split at h
      · exact hK k b h
      · exact hcarry (fun _ hb => hb) h
  | renameNx db old new =>
    simp only [apply] at h
    split at h
    · exact hK k b h
    · split at h
      · exact hK k b h
      · exact hcarry (fun _ hb => hb) h
  | move db name targetDb =>
    simp only [apply] at h
    split at h
    · exact hK k b h
    · exact hcarry (hrelocate targetDb) h

end KeyCommand

/-- The same id in another db. -/
def Place.inDb (P : Place) (db : Int) (h : IsDb db) : Place where
  db := db
  id := P.id
  length_id := P.length_id
  isDb := h

/-- A value in another db. -/
def relocate (db : Int) (Pa : Place × α) : Place × α :=
  if h : IsDb db then (Pa.1.inDb db h, Pa.2) else Pa

theorem relocate_snd (db : Int) (Pa : Place × α) : (relocate db Pa).2 = Pa.2 := by
  unfold relocate
  split <;> rfl

theorem publicKey_inj {db' : Int} {name' : Bytes} (h : publicKey db name = publicKey db' name') :
    db = db' ∧ name = name' :=
  (append_sep_inj (colon_notMem_intText db) (colon_notMem_intText db')
    h).imp_left
    intText_inj

/-- A value whose elements are gone goes too. -/
theorem Stored.cleared {k : Bytes} {t' : Txn Bytes Row} (h : Stored L s C)
    (hk : C k = some (P, a)) (hclear : Cleared P s t'.view) :
    Stored L (t'.del k).view (Function.update C k none) := by
  refine h.erase hk (fun x hx hp => ?_) ?_ fun suffix => ?_
  · rw [Txn.view_del, if_neg hx, hclear.rest x hp]
  · rw [Txn.view_del, if_pos rfl]
  · rw [Txn.view_del, if_neg ((h.owns hk).cell_ne suffix), hclear.gone]

theorem wp_delKeys (hclears : L.Clears) {count : Int}
    {Q : Post Int} (h : Stored L t.view C) (hpub : ∀ k ∈ ks, IsPublic k)
    (hQ : ∀ t', Stored L t'.view (KeyCommand.dropKeys ks C).2 →
      Q (count + (KeyCommand.dropKeys ks C).1) t') : wp A (Keys.delKeys ks count) Q E t := by
  induction ks generalizing t C count with
  | nil =>
    have := hQ t h
    rwa [KeyCommand.dropKeys, Int.add_zero] at this
  | cons k ks ih =>
    rw [List.forall_mem_cons] at hpub
    unfold Keys.delKeys
    rw [wp_seq]
    cases hk : C k with
    | none =>
      rw [KeyCommand.dropKeys, hk] at hQ
      exact wp_get_none (h.absent hpub.1 hk) (ih h hpub.2 hQ)
    | some Pa =>
      obtain ⟨P, a⟩ := Pa
      rw [KeyCommand.dropKeys, hk] at hQ
      refine wp_get_stored h hk ?_
      simp only [(L.isSentinel_sentinel (P, a) (privateKey k)).place_eq]
      rw [wp_seq, wp_ofExcept_ok, Prog.bind_eq, wp_bind]
      refine hclears _ _ _ C k P a _ h hk fun t' ht' => ?_
      rw [wp_seq, wp_delete]
      refine ih (h.cleared hk ht') hpub.2 fun t'' ht'' => ?_
      have := hQ t'' ht''
      rwa [Int.add_assoc, Int.add_comm 1]

theorem wp_del (hclears : L.Clears) {Q : Post RespValue}
    (h : Stored L t.view C) (hpub : ∀ k ∈ ks, IsPublic k)
    (hQ : ∀ t', Stored L t'.view (KeyCommand.dropKeys ks C).2 →
      Q (.integer (KeyCommand.dropKeys ks C).1) t') : wp A (Keys.del ks) Q E t := by
  unfold Keys.del
  rw [wp_seq]
  refine wp_delKeys hclears h hpub fun t' ht' => ?_
  rw [Int.zero_add]
  exact hQ t' ht'

theorem Stored.renamed (h : Stored L s C)
    (hold : C old = some (P, a)) (hne : old ≠ new) (hnew : ∃ name, new = publicKey P.db name)
    (hcleared : ∀ Pa, C new = some Pa → Cleared Pa.1 s s₁) (hsame : C new = none → s₁ = s)
    (hs' : ∀ x : Bytes, s'[x]? = if x = old then none else if x = new then some (L.sentinel (P, a))
      else s₁[x]?) : Stored L s' (KeyCommand.carry id old new C) := by
  have hpub : IsPublic new := hnew.elim fun name hname => ⟨_, name, hname⟩
  have hcell : ∀ suffix, P.bytes ++ suffix ≠ new := fun suffix heq =>
    hpub.not_isPrefix P (heq ▸ List.prefix_append _ _)
  have hcell' := (h.owns hold).cell_ne
  cases hCnew : C new with
  | none =>
    obtain rfl := hsame hCnew
    have hstored : Stored L s' _ := h.transfer hold hCnew rfl hnew
      (by rw [hs', if_neg hne.symm, if_pos rfl]) (by rw [hs', if_pos rfl])
      (fun suffix => by
        rw [hs', if_neg (hcell' suffix), if_neg (hcell suffix), h.cells hold])
      (fun hbytes => absurd rfl hbytes)
      fun x hx hx' _ _ => by rw [hs', if_neg hx, if_neg hx']
    rwa [KeyCommand.carry, hold, Option.map_some]
  | some Rb =>
    obtain ⟨R, b⟩ := Rb
    have hclear := hcleared _ hCnew
    -- the places of the two values differ
    have hapart : ∀ suffix, ¬R.bytes <+: P.bytes ++ suffix := fun suffix hp => by
      have hbytes := Place.eq_of_isPrefix hp (List.prefix_append P.bytes suffix)
      exact hne (h.distinct hold hCnew (Place.id_eq_of_bytes hbytes).symm)
    have herased : Stored L (Txn.del { view := s₁ } new).view (Function.update C new none) :=
      h.cleared hCnew hclear
    have hview : ∀ x, x ≠ new → (Txn.del { view := s₁ } new).view[x]? = s₁[x]? := fun x hx => by
      rw [Txn.view_del, if_neg hx]
    have hold' : Function.update C new none old = some (P, a) := by
      rw [Function.update_of_ne hne, hold]
    have hstored : Stored L s' _ := herased.transfer hold' (Function.update_self ..) rfl hnew
      (by rw [hs', if_neg hne.symm, if_pos rfl]) (by rw [hs', if_pos rfl])
      (fun suffix => by
        rw [hs', if_neg (hcell' suffix), if_neg (hcell suffix), hclear.rest _ (hapart suffix),
          h.cells hold])
      (fun hbytes => absurd rfl hbytes)
      fun x hx hx' _ _ => by rw [hs', if_neg hx, if_neg hx', hview x hx']
    rw [Function.update_comm hne.symm, Function.update_idem] at hstored
    rwa [KeyCommand.carry, hold, Option.map_some]

theorem wp_renameEntry (hclears : L.Clears) (h : Stored L t.view C) (hold : C old = some (P, a))
    (hne : old ≠ new) (hnew : ∃ name, new = publicKey P.db name)
    (hQ : ∀ t', Stored L t'.view (KeyCommand.carry id old new C) → Q () t') :
    wp A (Keys.renameEntry old new (L.sentinel (P, a))) Q E t := by
  have hpub : IsPublic new := hnew.elim fun name hname => ⟨_, name, hname⟩
  -- the end: the sentinel changes its key
  have hend : ∀ t' : Txn Bytes Row, Q () ((t'.put new (L.sentinel (P, a))).del old) →
      wp A (do
        let source ← ofExcept (prefixOf (L.sentinel (P, a)) (privateKey old))
        let renamed := Keys.renamedSentinel (L.sentinel (P, a)) source
        let entry : Entry := { key := new, value := renamed.1, metadata := renamed.2 }
        set (entry.keepTtlOf (L.sentinel (P, a)) (← now))
        delete old) Q E t' := by
    intro t' ht'
    rw [(L.isSentinel_sentinel (P, a) (privateKey old)).place_eq, Prog.bind_eq, wp_bind,
      wp_ofExcept_ok]
    rw [wp_seq, wp_now]
    intro x _ y _
    exact ht'
  have hput : ∀ (t' : Txn Bytes Row) (x : Bytes),
      ((t'.put new (L.sentinel (P, a))).del old).view[x]? =
        if x = old then none else if x = new then some (L.sentinel (P, a)) else t'.view[x]? :=
    fun t' x => by rw [Txn.view_del, Txn.view_put]
  unfold Keys.renameEntry
  rw [if_neg hne, Prog.bind_eq, wp_bind]
  cases hCnew : C new with
  | none =>
    refine wp_get_absent h hpub hCnew (hend _ (hQ _ ?_))
    exact h.renamed hold hne hnew (fun Pa hPa => by rw [hCnew] at hPa; cases hPa) (fun _ => rfl)
      (hput _)
  | some Rb =>
    obtain ⟨R, b⟩ := Rb
    refine wp_get_stored h hCnew ?_
    dsimp only
    rw [(L.isSentinel_sentinel (R, b) (privateKey new)).place_eq, Prog.bind_eq, wp_bind,
      wp_ofExcept_ok, Prog.bind_eq, wp_bind]
    refine hclears _ _ _ C new R b _ h hCnew fun t' ht' => hend t' (hQ _ ?_)
    refine h.renamed hold hne hnew (fun Pa hPa => ?_) (by simp [hCnew]) (hput t')
    rw [hCnew] at hPa
    cases hPa
    exact ht'

theorem withDb_bytes (h : IsDb db) {bytes : Bytes}
    (hw : withDb P.bytes db = .ok (some bytes)) : bytes = (P.inDb db h).bytes := by
  obtain ⟨kind, ds, rest, -, hds, hp, rfl⟩ := withDb_eq_some hw
  obtain ⟨rfl, htail⟩ := List.cons.inj hp
  obtain ⟨-, rfl⟩ := append_sep_inj (colon_notMem_intText P.db) hds htail
  rfl

theorem Place.bytes_inDb_ne (h : IsDb db) (hne : P.db ≠ db) :
    (P.inDb db h).bytes ≠ P.bytes := fun heq => by
  simp only [Place.bytes, Place.inDb, List.cons_append, List.cons.injEq, true_and] at heq
  exact hne (intText_inj (append_sep_inj (colon_notMem_intText _)
    (colon_notMem_intText _) heq).1).symm

theorem movedPrefix_element (h : IsDb db)
    {p : ElementPrefix} (hp : Keys.movedPrefix target db P.element = .ok p) :
    p = (P.inDb db h).element := by
  rw [Keys.movedPrefix, if_pos (show P.element.explicit = true from rfl)] at hp
  split at hp
  · rename_i bytes hw
    obtain rfl := withDb_bytes h hw
    exact (Except.ok.inj hp).symm
  all_goals cases hp

theorem movedEntry_element (Pa : Place × α) (target : Bytes) (P' : Place) :
    Keys.movedEntry target (L.sentinel Pa) P'.element = .ok
      { key := target, value := (L.sentinel (P', Pa.2)).value,
        metadata := (L.sentinel (P', Pa.2)).metadata } := by
  have hsent := L.isSentinel_sentinel Pa []
  rw [Keys.movedEntry, if_pos (show P'.element.explicit = true from rfl), hsent.content_eq,
    hsent.type_eq]
  rfl

/-- Nothing is where a moved value would be. -/
theorem Stored.empty_of_moved (h : Stored L s C)
    (hsource : C source = some (P, a)) (hid : P'.id = P.id) (hne : P'.bytes ≠ P.bytes)
    (suffix : Bytes) : s[P'.bytes ++ suffix]? = none := by
  cases hrow : s[P'.bytes ++ suffix]? with
  | none => rfl
  | some row =>
    rcases h.owned hrow with hpub | ⟨k, Pa, hk, hp⟩
    · exact absurd (List.prefix_append _ _) (hpub.not_isPrefix P')
    · have hbytes := Place.eq_of_isPrefix hp (List.prefix_append P'.bytes suffix)
      obtain rfl := h.distinct hk hsource ((Place.id_eq_of_bytes hbytes).trans hid)
      rw [hsource] at hk
      cases hk
      exact absurd hbytes.symm hne

theorem Stored.moved
    (h : Stored L s C) (hsource : C source = some (P, a)) (htarget : C target = none)
    (hid : P'.id = P.id) (hdb : ∃ name, target = publicKey P'.db name) (hs₁ : Rekeyed P P' s s₁)
    (hs' : ∀ x : Bytes, s'[x]? = if x = source then none else if x = target then
      some (L.sentinel (P', a)) else s₁[x]?) :
    Stored L s' (Function.update (Function.update C source none) target (some (P', a))) := by
  have hpub : IsPublic target := hdb.elim fun name hname => ⟨_, name, hname⟩
  have hpub' := h.isPublic hsource
  have hcell : ∀ (R : Place) (suffix : Bytes), R.bytes ++ suffix ≠ source ∧
      R.bytes ++ suffix ≠ target := fun R suffix =>
    ⟨fun heq => hpub'.not_isPrefix R (heq ▸ List.prefix_append _ _),
      fun heq => hpub.not_isPrefix R (heq ▸ List.prefix_append _ _)⟩
  have hts : target ≠ source := fun heq => by
    rw [heq, hsource] at htarget
    cases htarget
  refine h.transfer hsource htarget hid hdb ?_ ?_ (fun suffix => ?_) (fun _ suffix => ?_)
    fun x hx hx' hp hp' => ?_
  · rw [hs', if_neg hts, if_pos rfl]
  · rw [hs', if_pos rfl]
  · rw [hs', if_neg (hcell P' suffix).1, if_neg (hcell P' suffix).2, hs₁.arrived, h.cells hsource]
  · rw [hs', if_neg (hcell P suffix).1, if_neg (hcell P suffix).2, hs₁.gone]
  · rw [hs', if_neg hx, if_neg hx', hs₁.rest x hp hp']

theorem wp_move (hmoves : L.Moves) {targetDb : Int}
    {Q : Post RespValue} (h : Stored L t.view C) (hdb : IsDb targetDb)
    (hE : ∀ e t', t'.view = t.view → E e t')
    (hQ : ∀ t', Stored L t'.view ((KeyCommand.move db name targetDb).apply relocate C).2 →
      Q ((KeyCommand.move db name targetDb).apply relocate C).1 t') :
    wp A (Keys.move (publicKey db name) (publicKey targetDb name) targetDb (decide (db = targetDb)))
      Q E t := by
  have hpub : IsPublic (publicKey db name) := ⟨_, _, rfl⟩
  have hpub' : IsPublic (publicKey targetDb name) := ⟨_, _, rfl⟩
  unfold Keys.move
  by_cases hsame : db = targetDb
  · rw [if_pos (decide_eq_true hsame)]
    exact hE _ _ rfl
  rw [if_neg (by simpa using hsame)]
  rw [wp_seq]
  cases hsource : C (publicKey db name) with
  | none =>
    have hstays : (KeyCommand.move db name targetDb).apply relocate C = (.integer 0, C) := by
      rw [KeyCommand.apply, hsource, if_pos (by simp)]
    rw [hstays] at hQ
    exact wp_get_absent h hpub hsource (hQ _ h)
  | some Pa =>
    obtain ⟨P, a⟩ := Pa
    refine wp_get_stored h hsource ?_
    rw [wp_seq]
    cases htarget : C (publicKey targetDb name) with
    | some Pa' =>
      have hstays : (KeyCommand.move db name targetDb).apply relocate C = (.integer 0, C) := by
        rw [KeyCommand.apply, htarget, if_pos (by simp)]
      rw [hstays] at hQ
      exact wp_get_stored h htarget (hQ _ h)
    | none =>
      have hgoes : (KeyCommand.move db name targetDb).apply relocate C = (.integer 1,
          KeyCommand.carry (relocate targetDb) (publicKey db name)
            (publicKey targetDb name) C) := by
        rw [KeyCommand.apply, htarget, hsource, if_neg (by simp)]
      rw [hgoes] at hQ
      refine wp_get_absent h hpub' htarget ?_
      rw [(L.isSentinel_sentinel (P, a) (privateKey (publicKey db name))).place_eq]
      simp only [Option.isSome_none, Bool.false_eq_true, if_false]
      rw [wp_seq, wp_ofExcept_ok, Prog.bind_eq, wp_bind, wp_ofExcept]
      refine ⟨fun to_ hto => ?_, fun e _ => hE _ _ rfl⟩
      obtain rfl := movedPrefix_element hdb hto
      obtain ⟨name', hname'⟩ := h.inDb hsource
      have hne := Place.bytes_inDb_ne hdb ((publicKey_inj hname').1 ▸ hsame)
      rw [baseType_sentinel, Prog.bind_eq, wp_bind]
      refine hmoves _ _ _ C _ P (P.inDb targetDb hdb) a _ h hsource hne
        (h.empty_of_moved hsource rfl hne) fun t' ht' => ?_
      rw [movedEntry_element, Prog.bind_eq, wp_bind, wp_ofExcept_ok, Prog.bind_eq, wp_bind, wp_now]
      intro x _ y _
      refine hQ _ ?_
      rw [KeyCommand.carry, hsource, Option.map_some, relocate, dif_pos hdb]
      exact h.moved hsource htarget rfl ⟨name, rfl⟩ ht' fun x => by
        rw [Txn.view_del, Txn.view_put]; rfl

theorem wp_rename (hclears : L.Clears) {Q : Post RespValue} (h : Stored L t.view C)
    (hQ : ∀ t', Stored L t'.view ((KeyCommand.rename db old new).apply relocate C).2 →
      Q ((KeyCommand.rename db old new).apply relocate C).1 t') :
    wp A (Keys.rename (publicKey db old) (publicKey db new)) Q E t := by
  unfold Keys.rename
  rw [wp_seq]
  rw [KeyCommand.apply] at hQ
  cases hold : C (publicKey db old) with
  | none =>
    rw [hold, if_pos (by simp)] at hQ
    exact wp_get_absent h ⟨_, _, rfl⟩ hold (hQ _ h)
  | some Pa =>
    rw [hold, if_neg (by simp)] at hQ
    refine wp_get_stored h hold ?_
    rw [wp_seq]
    by_cases hne : old = new
    · rw [if_pos hne] at hQ
      rw [hne, Keys.renameEntry, if_pos rfl]
      exact hQ _ h
    · rw [if_neg hne] at hQ
      obtain ⟨name', hname'⟩ := h.inDb hold
      exact wp_renameEntry hclears h hold (fun heq => hne (publicKey_inj heq).2)
        ⟨new, by rw [(publicKey_inj hname').1]⟩ hQ

theorem wp_renameNx (hclears : L.Clears) {Q : Post RespValue} (h : Stored L t.view C)
    (hQ : ∀ t', Stored L t'.view ((KeyCommand.renameNx db old new).apply relocate C).2 →
      Q ((KeyCommand.renameNx db old new).apply relocate C).1 t') :
    wp A (Keys.renameNx (publicKey db old) (publicKey db new)) Q E t := by
  unfold Keys.renameNx
  rw [wp_seq]
  rw [KeyCommand.apply] at hQ
  cases hnew : C (publicKey db new) with
  | some Pa =>
    rw [hnew, if_pos (by simp)] at hQ
    exact wp_get_stored h hnew (hQ _ h)
  | none =>
    rw [hnew, if_neg (by simp)] at hQ
    refine wp_get_absent h ⟨_, _, rfl⟩ hnew ?_
    simp only [Option.isSome_none, Bool.false_eq_true, if_false]
    rw [wp_seq]
    cases hold : C (publicKey db old) with
    | none =>
      rw [hold, if_pos (by simp)] at hQ
      exact wp_get_absent h ⟨_, _, rfl⟩ hold (hQ _ h)
    | some Pa =>
      rw [hold, if_neg (by simp)] at hQ
      refine wp_get_stored h hold ?_
      rw [wp_seq]
      obtain ⟨name', hname'⟩ := h.inDb hold
      refine wp_renameEntry hclears h hold
        (fun heq => ?_) ⟨new, by rw [(publicKey_inj hname').1]⟩ hQ
      rw [heq, hnew] at hold
      cases hold

/-- **The commands on keys do to the catalog what they are for.** A command that fails has
written nothing. -/
theorem KeyCommand.wp_run {ln : F64 → F64} {waiter : Option Bool} (hclears : L.Clears)
    (hmoves : L.Moves) (cmd : KeyCommand) (hdb : cmd.NamesDb) (h : Stored L t.view C) :
    wp A (cmd.data.run ln waiter)
      (fun reply t' => reply = (cmd.apply relocate C).1 ∧ Stored L t'.view (cmd.apply relocate C).2)
      (fun _ t' => t'.view = t.view) t := by
  cases cmd with
  | del db names =>
    refine wp_del hclears h (fun k hk => ?_) fun t' ht' => ⟨rfl, ht'⟩
    obtain ⟨name, -, rfl⟩ := List.mem_map.mp hk
    exact ⟨_, _, rfl⟩
  | rename db old new => exact wp_rename hclears h fun t' ht' => ⟨rfl, ht'⟩
  | renameNx db old new => exact wp_renameNx hclears h fun t' ht' => ⟨rfl, ht'⟩
  | move db name targetDb =>
    exact wp_move hmoves h hdb (fun _ _ hview => hview) fun t' ht' => ⟨rfl, ht'⟩

end Invar
