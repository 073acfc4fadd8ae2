import Invar.Common.Sentinel
import Mathlib.Data.List.Infix
import Mathlib.Logic.Function.Basic

/-!
# Regions of the store

A compound value with a recorded namespace is a sentinel under its public key and rows
under its place `+<db>:<id>`. Places do not overlap, so that a store whose rows all belong
to such values is the same as a catalog: which key has which value, and at which place
(`Stored`). A command that writes only to the sentinel and the region of a key changes the
catalog at this key (`Stored.update`).
-/

namespace Invar

open StoreProg TxProg

/-! ## Places -/

/-- The dbs that a session and `MOVE` can name, without those that the narrowing to `i32`
makes negative. -/
structure IsDb (db : Int) : Prop where
  nonneg : 0 ≤ db
  lt : db < 2 ^ 31

instance (db : Int) : Decidable (IsDb db) :=
  decidable_of_iff (0 ≤ db ∧ db < 2 ^ 31) ⟨fun h => ⟨h.1, h.2⟩, fun h => ⟨h.1, h.2⟩⟩

/-- The recorded prefix of a compound value. -/
structure Place where
  db : Int
  id : Bytes
  length_id : id.length = namespaceIdLen
  isDb : IsDb db
deriving DecidableEq

namespace Place

def bytes (P : Place) : Bytes := 43 :: intText P.db ++ 58 :: P.id

def element (P : Place) : ElementPrefix := .recorded P.bytes

variable {x : Bytes} {P' : Place}

/-- **Places do not overlap.** -/
theorem eq_of_isPrefix {P : Place} (h : P.bytes <+: x) (h' : P'.bytes <+: x) :
    P.bytes = P'.bytes := by
  obtain ⟨r, rfl⟩ := h
  obtain ⟨r', heq⟩ := h'
  simp only [bytes, List.cons_append, List.append_assoc, List.cons.injEq, true_and] at heq ⊢
  have hsplit := append_sep_inj (colon_notMem_intText P'.db) (colon_notMem_intText P.db) heq
  rw [hsplit.1, List.append_inj_left hsplit.2 (by rw [P.length_id, P'.length_id])]

theorem id_eq_of_bytes {P : Place} (h : P.bytes = P'.bytes) : P.id = P'.id := by
  simp only [bytes, List.cons_append, List.cons.injEq, true_and] at h
  exact (append_sep_inj (colon_notMem_intText P.db) (colon_notMem_intText P'.db) h).2

theorem storable (P : Place) (legacy : Bytes) : P.element.Storable legacy := by
  have hlen := length_intText_lt P.isDb.nonneg P.isDb.lt
  have hid := P.length_id
  show P.bytes.length < 2 ^ 32
  simp only [bytes, namespaceIdLen, List.cons_append, List.length_cons, List.length_append] at *
  omega

/-- The place that `newNamespace` draws. -/
def fresh (db : Int) (h : IsDb db) (rand : Nat) : Place where
  db := db
  id := beBytes namespaceIdLen rand
  length_id := length_beBytes _ _
  isDb := h

end Place

/-- The keys that commands name. -/
def IsPublic (k : Bytes) : Prop := ∃ (db : Int) (name : Bytes), k = publicKey db name

/-- Public keys start with the number of a db. -/
theorem head?_publicKey (db : Int) (name : Bytes) {b : UInt8} (hb : isAsciiDigit b = false)
    (hsign : b = 45 → 0 ≤ db) : (publicKey db name).head? ≠ some b := by
  intro hhead
  unfold publicKey intText at hhead
  split at hhead
  · have := hsign (Option.some.inj hhead).symm
    omega
  · rw [List.head?_append_of_ne_nil _ (decimal_ne_nil _)] at hhead
    exact head_decimal hb hhead

/-- Public keys are at no place. -/
theorem IsPublic.not_isPrefix {k : Bytes} (h : IsPublic k) (P : Place) : ¬P.bytes <+: k := by
  obtain ⟨db, name, rfl⟩ := h
  rintro ⟨r, hr⟩
  exact head?_publicKey db name (b := 43) rfl (fun h => absurd h (by decide)) (by rw [← hr]; rfl)

/-! ## Stores and catalogs -/

/-- How values are stored: the type and the content of the sentinel, and the rows at the
place. -/
structure Layout (α : Type) where
  type : α → ValueType
  content : α → Bytes
  cells : α → Bytes → Option Row
  lasting : ∀ {a : α} {suffix : Bytes} {row : Row}, cells a suffix = some row → row.expireTs = none

abbrev Catalog (α : Type) := Bytes → Option (Place × α)

variable {α : Type} (L : Layout α)

def Layout.sentinel (Pa : Place × α) : Row :=
  sentinelRow (L.content Pa.2) (L.type Pa.2) Pa.1.element none

variable {L} in
theorem Layout.isSentinel_sentinel (Pa : Place × α) (legacy : Bytes) :
    (L.sentinel Pa).IsSentinel legacy (L.type Pa.2) Pa.1.element (L.content Pa.2) :=
  isSentinel_sentinelRow (Pa.1.storable _) _ _ _

/-- The store has the values of the catalog, and nothing else. -/
structure Stored (s : Store) (C : Catalog α) : Prop where
  inDb : ∀ {k Pa}, C k = some Pa → ∃ name, k = publicKey Pa.1.db name
  sentinel : ∀ {k}, IsPublic k → s[k]? = (C k).map L.sentinel
  cells : ∀ {k P a}, C k = some (P, a) → ∀ suffix, s[P.bytes ++ suffix]? = L.cells a suffix
  distinct : ∀ {k k' Pa Pa'}, C k = some Pa → C k' = some Pa' → Pa.1.id = Pa'.1.id → k = k'
  owned : ∀ {x row}, s[x]? = some row → IsPublic x ∨ ∃ k Pa, C k = some Pa ∧ Pa.1.bytes <+: x

variable {L} {s s' : Store} {C : Catalog α} {k : Bytes} {P : Place} {a : α}

theorem stored_empty : Stored L ∅ fun _ => none where
  inDb := nofun
  sentinel _ := by simp
  cells := nofun
  distinct := nofun
  owned h := by simp at h

namespace Stored

theorem isPublic (h : Stored L s C) {Pa : Place × α} (hk : C k = some Pa) : IsPublic k := by
  obtain ⟨name, hname⟩ := h.inDb hk
  exact ⟨_, name, hname⟩

/-- A place whose id no value has is empty. -/
theorem empty_of_fresh (h : Stored L s C) (hfresh : ∀ k Pa, C k = some Pa → Pa.1.id ≠ P.id)
    (suffix : Bytes) : s[P.bytes ++ suffix]? = none := by
  cases hrow : s[P.bytes ++ suffix]? with
  | none => rfl
  | some row =>
    rcases h.owned hrow with hpub | ⟨k, Pa, hk, hp⟩
    · exact absurd (List.prefix_append _ _) (hpub.not_isPrefix P)
    · have heq := Place.eq_of_isPrefix hp (List.prefix_append P.bytes suffix)
      exact absurd (Place.id_eq_of_bytes heq) (hfresh k Pa hk)

theorem lasting (h : Stored L s C) {x : Bytes} {row : Row} (hrow : s[x]? = some row) :
    row.expireTs = none := by
  rcases h.owned hrow with hpub | ⟨k, ⟨P, a⟩, hk, suffix, rfl⟩
  · rw [h.sentinel hpub, Option.map_eq_some_iff] at hrow
    obtain ⟨Pa, -, rfl⟩ := hrow
    rfl
  · rw [h.cells hk] at hrow
    exact L.lasting hrow

/-- The sentinel of a value. -/
theorem isSentinel (h : Stored L s C) (hk : C k = some (P, a)) :
    ∃ row, s[k]? = some row ∧ row.expireTs = none ∧
      row.IsSentinel (privateKey k) (L.type a) P.element (L.content a) := by
  refine ⟨L.sentinel (P, a), ?_, rfl, L.isSentinel_sentinel (P, a) _⟩
  rw [h.sentinel (h.isPublic hk), hk, Option.map_some]

theorem absent (h : Stored L s C) (hpub : IsPublic k) (hk : C k = none) : s[k]? = none := by
  rw [h.sentinel hpub, hk, Option.map_none]

/-- Nothing is where the elements of a value without a recorded prefix would be. -/
theorem legacy_empty (h : Stored L s C) (k suffix : Bytes) : s[privateKey k ++ suffix]? = none := by
  cases hrow : s[privateKey k ++ suffix]? with
  | none => rfl
  | some row =>
    rcases h.owned hrow with hpub | ⟨k', Pa, hk', r, hr⟩
    · rw [h.sentinel hpub, Option.map_eq_some_iff] at hrow
      obtain ⟨Pa, hPa, -⟩ := hrow
      obtain ⟨name, hname⟩ := h.inDb hPa
      exact absurd (by rw [← hname]; rfl)
        (head?_publicKey Pa.1.db name rfl fun _ => Pa.1.isDb.nonneg)
    · cases hr

theorem slot (h : Stored L s C) (hk : C k = some (P, a)) : SentinelSlot s k P.element := by
  obtain ⟨row, hrow, hts, hsent⟩ := h.isSentinel hk
  exact SentinelSlot.of_sentinel hrow hts hsent

/-- **One value changes.** What the store has under the key and at the places that its value
had and has now determines the new catalog. -/
theorem update (h : Stored L s C) {new : Option (Place × α)}
    (hdb : IsPublic k) (hnew : ∀ Pa, new = some Pa → ∃ name, k = publicKey Pa.1.db name)
    (hrow : s'[k]? = new.map L.sentinel)
    (hcells : ∀ P a, new = some (P, a) → ∀ suffix, s'[P.bytes ++ suffix]? = L.cells a suffix)
    (hid : ∀ Pa, new = some Pa → ∀ k' Pa', C k' = some Pa' → k' ≠ k → Pa'.1.id ≠ Pa.1.id)
    (hold : ∀ Pa, C k = some Pa → (∀ Pa', new = some Pa' → Pa'.1.bytes ≠ Pa.1.bytes) →
      ∀ suffix, s'[Pa.1.bytes ++ suffix]? = none)
    (hframe : ∀ x, x ≠ k → (∀ Pa, C k = some Pa → ¬Pa.1.bytes <+: x) →
      (∀ Pa, new = some Pa → ¬Pa.1.bytes <+: x) → s'[x]? = s[x]?) :
    Stored L s' (Function.update C k new) := by
  refine ⟨fun {k' Pa} hk' => ?_, fun {k'} hpub => ?_, fun {k' P a} hk' suffix => ?_,
    fun {k₁ k₂ Pa₁ Pa₂} h₁ h₂ heq => ?_, fun {x row} hx => ?_⟩
  · by_cases hkk : k' = k
    · subst hkk
      rw [Function.update_self] at hk'
      exact hnew Pa hk'
    · rw [Function.update_of_ne hkk] at hk'
      exact h.inDb hk'
  · by_cases hkk : k' = k
    · subst hkk
      rw [Function.update_self, hrow]
    · rw [Function.update_of_ne hkk, hframe k' hkk (fun Pa _ => hpub.not_isPrefix Pa.1)
        fun Pa _ => hpub.not_isPrefix Pa.1, h.sentinel hpub]
  · by_cases hkk : k' = k
    · subst hkk
      rw [Function.update_self] at hk'
      exact hcells P a hk' suffix
    · rw [Function.update_of_ne hkk] at hk'
      rw [hframe, h.cells hk']
      · intro heq
        exact hdb.not_isPrefix P (heq ▸ List.prefix_append _ _)
      · intro Pa hk hp
        have hbytes := Place.eq_of_isPrefix hp (List.prefix_append P.bytes suffix)
        exact hkk (h.distinct hk hk' (Place.id_eq_of_bytes hbytes)).symm
      · intro Pa hPa hp
        have hbytes := Place.eq_of_isPrefix hp (List.prefix_append P.bytes suffix)
        exact hid Pa hPa k' (P, a) hk' hkk (Place.id_eq_of_bytes hbytes).symm
  · by_cases hk₁ : k₁ = k
    · by_cases hk₂ : k₂ = k
      · rw [hk₁, hk₂]
      · subst hk₁
        rw [Function.update_self] at h₁
        rw [Function.update_of_ne hk₂] at h₂
        exact absurd heq.symm (hid Pa₁ h₁ k₂ Pa₂ h₂ hk₂)
    · rw [Function.update_of_ne hk₁] at h₁
      by_cases hk₂ : k₂ = k
      · subst hk₂
        rw [Function.update_self] at h₂
        exact absurd heq (hid Pa₂ h₂ k₁ Pa₁ h₁ hk₁)
      · rw [Function.update_of_ne hk₂] at h₂
        exact h.distinct h₁ h₂ heq
  · by_cases hxk : x = k
    · exact .inl (hxk ▸ hdb)
    by_cases hunder : ∃ Pa, new = some Pa ∧ Pa.1.bytes <+: x
    · obtain ⟨Pa, hPa, hp⟩ := hunder
      exact .inr ⟨k, Pa, by rw [Function.update_self, hPa], hp⟩
    by_cases hwas : ∃ Pa, C k = some Pa ∧ Pa.1.bytes <+: x
    · -- the old place was left
      obtain ⟨Pa, hPa, suffix, rfl⟩ := hwas
      rw [hold Pa hPa fun Pa' hPa' heq => hunder ⟨Pa', hPa', heq ▸ List.prefix_append _ _⟩] at hx
      cases hx
    · rw [hframe x hxk (fun Pa hPa hp => hwas ⟨Pa, hPa, hp⟩)
        fun Pa hPa hp => hunder ⟨Pa, hPa, hp⟩] at hx
      refine (h.owned hx).imp_right fun ⟨k', Pa, hk', hp⟩ => ⟨k', Pa, ?_, hp⟩
      rw [Function.update_of_ne fun (heq : k' = k) => hwas ⟨Pa, heq ▸ hk', hp⟩]
      exact hk'

end Stored

/-! ## Changes within one region -/

/-- The store has changed only under the key and at the place. -/
def Within (k : Bytes) (P : Place) (s s' : Store) : Prop :=
  ∀ x, x ≠ k → ¬P.bytes <+: x → s'[x]? = s[x]?

theorem Within.refl (k : Bytes) (P : Place) (s : Store) : Within k P s s := fun _ _ _ => rfl

theorem Within.put_key {t : Txn Bytes Row} (h : Within k P s t.view) (row : Row) :
    Within k P s (t.put k row).view := fun x hk hP => by
  rw [Txn.view_put, if_neg hk, h x hk hP]

theorem Place.view_put (P : Place) (t : Txn Bytes Row) (suffix : Bytes) (row : Row)
    (suffix' : Bytes) : (t.put (P.bytes ++ suffix) row).view[P.bytes ++ suffix']? =
      if suffix' = suffix then some row else t.view[P.bytes ++ suffix']? := by
  simp only [Txn.view_put, List.append_cancel_left_eq]

theorem Place.view_del (P : Place) (t : Txn Bytes Row) (suffix suffix' : Bytes) :
    (t.del (P.bytes ++ suffix)).view[P.bytes ++ suffix']? =
      if suffix' = suffix then none else t.view[P.bytes ++ suffix']? := by
  simp only [Txn.view_del, List.append_cancel_left_eq]

/-- The store has changed only at the place. -/
def AtPlace (P : Place) (s s' : Store) : Prop := ∀ x : Bytes, ¬P.bytes <+: x → s'[x]? = s[x]?

theorem AtPlace.refl (P : Place) (s : Store) : AtPlace P s s := fun _ _ => rfl

theorem AtPlace.put {t : Txn Bytes Row} (h : AtPlace P s t.view) (suffix : Bytes) (row : Row) :
    AtPlace P s (t.put (P.bytes ++ suffix) row).view := fun x hP => by
  rw [Txn.view_put, if_neg fun (heq : x = _) => hP (heq ▸ List.prefix_append _ _), h x hP]

theorem AtPlace.del {t : Txn Bytes Row} (h : AtPlace P s t.view) (suffix : Bytes) :
    AtPlace P s (t.del (P.bytes ++ suffix)).view := fun x hP => by
  rw [Txn.view_del, if_neg fun (heq : x = _) => hP (heq ▸ List.prefix_append _ _), h x hP]

theorem AtPlace.within (h : AtPlace P s s') (k : Bytes) : Within k P s s' := fun x _ hP => h x hP

/-- The place is that of the key's value, or one that no value has. -/
structure Owns (C : Catalog α) (k : Bytes) (P : Place) : Prop where
  inDb : ∃ name, k = publicKey P.db name
  own : ∀ Pa, C k = some Pa → Pa.1 = P
  others : ∀ k' Pa', C k' = some Pa' → k' ≠ k → Pa'.1.id ≠ P.id

theorem Owns.isPublic (h : Owns C k P) : IsPublic k := by
  obtain ⟨name, hname⟩ := h.inDb
  exact ⟨_, name, hname⟩

/-- A cell is not the sentinel. -/
theorem Owns.cell_ne (h : Owns C k P) (suffix : Bytes) : P.bytes ++ suffix ≠ k :=
  fun heq => h.isPublic.not_isPrefix P (heq ▸ List.prefix_append _ _)

theorem Stored.owns (h : Stored L s C) (hk : C k = some (P, a)) : Owns C k P where
  inDb := h.inDb hk
  own Pa hPa := by rw [hk, Option.some.injEq] at hPa; rw [← hPa]
  others k' Pa' hk' hne hid := hne (h.distinct hk' hk hid)

theorem Stored.write (h : Stored L s C) (howns : Owns C k P) (hwithin : Within k P s s')
    (hrow : s'[k]? = some (L.sentinel (P, a)))
    (hcells : ∀ suffix, s'[P.bytes ++ suffix]? = L.cells a suffix) :
    Stored L s' (Function.update C k (some (P, a))) := by
  refine h.update howns.isPublic (fun Pa hPa => ?_) hrow (fun P' a' hPa => ?_) (fun Pa hPa => ?_)
    (fun Pa hPa hne => ?_) fun x hx hold hnew => ?_
  · cases hPa
    exact howns.inDb
  · cases hPa
    exact hcells
  · cases hPa
    exact howns.others
  · exact absurd (by rw [howns.own Pa hPa]) (hne _ rfl)
  · exact hwithin x hx (hnew _ rfl)

theorem Stored.erase (h : Stored L s C) (hk : C k = some (P, a)) (hwithin : Within k P s s')
    (hrow : s'[k]? = none) (hcells : ∀ suffix, s'[P.bytes ++ suffix]? = none) :
    Stored L s' (Function.update C k none) := by
  refine h.update (h.isPublic hk) (fun _ hnew => by cases hnew) hrow (fun _ _ hnew => by cases hnew)
    (fun _ hnew => by cases hnew) (fun Pa hPa _ => ?_) fun x hx hold _ => hwithin x hx (hold _ hk)
  rw [hk, Option.some.injEq] at hPa
  rw [← hPa]
  exact hcells

/-! ## Resolving prefixes -/

/-- The environments draw ids that no value has. -/
def DrawsFresh (C : Catalog α) (A : Tick → Prop) : Prop :=
  ∀ x, A x → ∀ k Pa, C k = some Pa → Pa.1.id ≠ beBytes namespaceIdLen x.rand

/-- No sentinel records a namespace with the id that is drawn. -/
def idUnused (s : Store) (x : Tick) : Bool :=
  s.toList.all fun kr =>
    match prefixOf kr.2 (privateKey kr.1) with
    | .ok p => !(beBytes namespaceIdLen x.rand).isSuffixOf p.bytes
    | .error _ => true

theorem Stored.drawsFresh (h : Stored L s C) {A : Tick → Prop}
    (hA : ∀ x, A x → idUnused s x = true) : DrawsFresh C A := by
  intro x hx k Pa hk hid
  have hrow : s[k]? = some (L.sentinel Pa) := by
    rw [h.sentinel (h.isPublic hk), hk, Option.map_some]
  have hall := List.all_eq_true.mp (hA x hx) (k, L.sentinel Pa)
    (Std.ExtTreeMap.mem_toList_iff_getElem?_eq_some.mpr hrow)
  simp only [(L.isSentinel_sentinel Pa (privateKey k)).place_eq, ← hid] at hall
  have hsuffix : Pa.1.id.isSuffixOf Pa.1.element.bytes = true :=
    List.isSuffixOf_iff_suffix.mpr
      ⟨43 :: intText Pa.1.db ++ [58], by simp [Place.element, Place.bytes, ElementPrefix.recorded]⟩
  rw [hsuffix] at hall
  cases hall

variable {A : Tick → Prop} {E : Post DbError} {t : Txn Bytes Row}

theorem wp_get_stored {Q : Post (Option Row)} (h : Stored L t.view C)
    (hk : C k = some (P, a)) (hQ : Q (some (L.sentinel (P, a))) (t.noteRead (isKey k))) :
    wp A (get k) Q E t := by
  have hrow : t.view[k]? = some (L.sentinel (P, a)) := by
    rw [h.sentinel (h.isPublic hk), hk, Option.map_some]
  exact wp_get_some hrow (Row.lastsFor_of_none (h.lasting hrow) A) hQ

theorem wp_get_absent {Q : Post (Option Row)} (h : Stored L t.view C)
    (hpub : IsPublic k) (hk : C k = none) (hQ : Q none (t.noteRead (isKey k))) :
    wp A (get k) Q E t :=
  wp_get_none (h.absent hpub hk) hQ

variable {Q : Post ElementPrefix} {db : Int} {name p : Bytes}

theorem wp_resolvePrefix_stored {legacy : Bytes}
    (h : Stored L t.view C) (hk : C k = some (P, a)) (hQ : Q P.element (t.noteRead (isKey k))) :
    wp A (resolvePrefix k legacy) Q E t := by
  have hrow : t.view[k]? = some (L.sentinel (P, a)) := by
    rw [h.sentinel (h.isPublic hk), hk, Option.map_some]
  exact wp_resolvePrefix_some hrow (Row.lastsFor_of_none (h.lasting hrow) A)
    (L.isSentinel_sentinel (P, a) legacy).place_eq hQ

theorem DrawsFresh.erase (h : DrawsFresh C A) (k : Bytes) :
    DrawsFresh (Function.update C k none) A := by
  intro x hx k' Pa hk'
  by_cases hkk : k' = k
  · rw [hkk, Function.update_self] at hk'
    cases hk'
  · rw [Function.update_of_ne hkk] at hk'
    exact h x hx k' Pa hk'

/-- A fresh namespace for a key without a value. -/
theorem wp_newNamespace_stored
    (h : Stored L t.view C) (hdb : db < 2 ^ 31) (hk : k = publicKey db name) (hCk : C k = none)
    (hfresh : DrawsFresh C A) (hQ : ∀ P, Owns C k P → SentinelSlot t.view k P.element →
      (∀ suffix, t.view[P.bytes ++ suffix]? = none) → Q P.element t)
    (hE : db < 0 → ∀ e t', E e t') : wp A (newNamespace (privateKey k)) Q E t := by
  rw [show privateKey k = privateKey (publicKey db name) by rw [hk]]
  refine wp_newNamespace (fun hpos x hx => ?_) fun hneg => hE hneg _ _
  have howns : Owns C k (Place.fresh db ⟨hpos, hdb⟩ x.rand) :=
    { inDb := ⟨name, hk⟩
      own := fun Pa hPa => by rw [hCk] at hPa; cases hPa
      others := fun k' Pa' hk' _ => hfresh x hx k' Pa' hk' }
  exact hQ (Place.fresh db ⟨hpos, hdb⟩ x.rand) howns
    (SentinelSlot.fresh (h.absent ⟨db, name, hk⟩ hCk) hpos hdb x.rand)
    (h.empty_of_fresh fun k' Pa' hk' => hfresh x hx k' Pa' hk')

theorem wp_resolvePrefixForWrite_stored (h : Stored L t.view C) (hdb : db < 2 ^ 31)
    (hk : k = publicKey db name) (hfresh : DrawsFresh C A)
    (hQ : ∀ P, Owns C k P → SentinelSlot t.view k P.element →
      (C k = none → ∀ suffix, t.view[P.bytes ++ suffix]? = none) →
        Q P.element (t.noteRead (isKey k)))
    (hE : db < 0 → ∀ e t', E e t') : wp A (resolvePrefixForWrite k (privateKey k)) Q E t := by
  cases hCk : C k with
  | some Pa =>
    obtain ⟨P, a⟩ := Pa
    obtain ⟨row, hrow, hts, hsent⟩ := h.isSentinel hCk
    refine wp_resolvePrefixForWrite_some hrow (Row.lastsFor_of_none hts A) hsent.place_eq ?_
    exact hQ P (h.owns hCk) (h.slot hCk) (by simp [hCk])
  | none =>
    unfold resolvePrefixForWrite
    rw [wp_seq]
    refine wp_get_absent h ⟨db, name, hk⟩ hCk ?_
    exact wp_newNamespace_stored h hdb hk hCk hfresh
      (fun P howns hslot hempty => hQ P howns hslot fun _ => hempty) hE

/-! ## Destinations -/

/-- The ids that are drawn are not in use in the db. -/
def Unused (A : Tick → Prop) (s : Store) (db : Int) : Prop :=
  ∀ x, A x → ∀ suffix, s[namespaceOf db x.rand ++ suffix]? = none

/-- The prefix of the elements of whatever is under the key. -/
inductive Resolves (A : Tick → Prop) (s : Store) (k : Bytes) : Bytes → Prop
  | absent (hidden : Hidden A s k) : Resolves A s k (privateKey k)
  | present {row : Row} {p : ElementPrefix} (hrow : s[k]? = some row) (hlast : row.LastsFor A)
      (hp : prefixOf row (privateKey k) = .ok p) : Resolves A s k p.bytes

theorem Resolves.wp (h : Resolves A t.view k p) :
    wp A (resolvePrefix k (privateKey k)) (fun q t' => q.bytes = p ∧ t'.view = t.view) E t := by
  cases h with
  | absent hidden => exact wp_resolvePrefix_hidden hidden ⟨rfl, rfl⟩
  | present hrow hlast hp => exact wp_resolvePrefix_some hrow hlast hp ⟨rfl, rfl⟩

/-- Whatever is under the key, its prefix can be read. -/
def Readable (s : Store) (k : Bytes) : Prop :=
  ∀ row, s[k]? = some row → ∃ p, prefixOf row (privateKey k) = .ok p

/-- The row may expire before it is read. -/
theorem Readable.wp (h : Readable t.view k) :
    wp A (resolvePrefix k (privateKey k)) (fun _ t' => True ∧ t'.view = t.view) E t := by
  unfold resolvePrefix
  rw [wp_seq]
  refine wp_get.mpr fun x _ => ?_
  cases hrow : t.view[k]?.filter fun row => !row.expired x.now with
  | none => exact ⟨trivial, rfl⟩
  | some row =>
    obtain ⟨p, hp⟩ := h row (Option.eq_some_of_filter_eq_some hrow)
    simp only [hp]
    exact ⟨trivial, rfl⟩

/-- The key is gone, with rows under the prefix and no others. -/
structure Vacated (s s' : Store) (k p : Bytes) : Prop where
  key : s'[k]? = none
  only : ∀ y, y ≠ k → s'[y]? = s[y]? ∨ (p <+: y ∧ s'[y]? = none)

/-- No public key is under a namespace. -/
theorem Vacated.unused (h : Vacated s s' k p) (hpub : IsPublic k)
    (hfresh : Unused A s db) : Unused A s' db := by
  intro x hx suffix
  have hne : namespaceOf db x.rand ++ suffix ≠ k := by
    intro heq
    obtain ⟨db', name, rfl⟩ := hpub
    have hnot := not_isPrefixOf_publicKey db x.rand suffix db' name
    rw [heq, List.isPrefixOf_iff_prefix.mpr (List.prefix_refl _)] at hnot
    cases hnot
  rcases h.only _ hne with hsame | ⟨-, hgone⟩
  · rw [hsame, hfresh x hx]
  · exact hgone

end Invar
