import Invar.Redis.StreamIds

/-!
# The sentinel of a stream

The count, the first and last id and the greatest deleted id of a sentinel are kept up to
date without looking at the entries. They agree with the entries as long as every new
entry comes after the others, `XSETID` does not go back behind an entry, `XDEL` does not
take the first entry away from others, and a `MINID` that removes some entries but not
all is itself the id of an entry.
-/

namespace Invar.Stream

open StoreProg TxProg StreamEntryId Transition

/-- The ids of a sentinel are `u64` numbers. -/
structure StreamMeta.Fits (m : StreamMeta) : Prop where
  last : m.lastId.IsU64
  first : m.firstId.IsU64
  maxDeleted : m.maxDeletedId.IsU64

/-- The sentinel agrees with the entries, and with the ids that were deleted. -/
structure State.Accurate (st : State) (deleted : List StreamEntryId) : Prop where
  count : st.info.count = st.ids.length
  small : st.ids.length < 2 ^ 64
  first : ∀ id, st.ids.head? = some id → st.info.firstId = id
  last : ∀ id ∈ st.ids, id.le st.info.lastId
  maxDeleted : ∀ id ∈ deleted, id.le st.info.maxDeletedId
  fits : st.info.Fits

variable {st st' : State} {deleted : List StreamEntryId} {id : StreamEntryId}

theorem isU64_zero : zero.IsU64 := ⟨by decide, by decide⟩

theorem StreamMeta.fits_new : StreamMeta.new.Fits := ⟨isU64_zero, isU64_zero, isU64_zero⟩

theorem State.accurate_new : State.new.Accurate [] :=
  ⟨rfl, by decide, nofun, nofun, nofun, StreamMeta.fits_new⟩

/-- Eight bytes hold all of it. -/
theorem State.Accurate.saved (h : st.Accurate deleted) : st.saved.Accurate deleted := by
  have hwrap : ∀ {id : StreamEntryId}, id.IsU64 →
      (⟨id.ms % 2 ^ 64, id.seq % 2 ^ 64⟩ : StreamEntryId) = id := by
    intro id hid
    rw [Nat.mod_eq_of_lt hid.1, Nat.mod_eq_of_lt hid.2]
  have hlast : st.saved.info.lastId = st.info.lastId := hwrap h.fits.last
  have hfirst : st.saved.info.firstId = st.info.firstId := hwrap h.fits.first
  have hmax : st.saved.info.maxDeletedId = st.info.maxDeletedId := hwrap h.fits.maxDeleted
  refine ⟨?_, h.small, fun id hid => ?_, fun id hid => ?_, fun id hid => ?_, ?_⟩
  · show st.info.count % 2 ^ 64 = st.ids.length
    rw [h.count, Nat.mod_eq_of_lt h.small]
  · rw [hfirst]
    exact h.first id hid
  · rw [hlast]
    exact h.last id hid
  · rw [hmax]
    exact h.maxDeleted id hid
  · exact ⟨hlast ▸ h.fits.last, hfirst ▸ h.fits.first, hmax ▸ h.fits.maxDeleted⟩

/-! ## Adding an entry -/

theorem State.Accurate.add (h : st.Accurate deleted) (hgt : ∀ id' ∈ st.ids, id'.lt id = true)
    (hsmall : st.ids.length + 1 < 2 ^ 64) (hid : id.IsU64) : (st.add id).Accurate deleted := by
  have hids := State.add_ids hgt
  refine ⟨?_, ?_, fun id' hid' => ?_, fun id' hid' => ?_, h.maxDeleted, hid, ?_, h.fits.maxDeleted⟩
  · rw [hids, List.length_append, ← h.count]
    rfl
  · rw [hids, List.length_append]
    exact hsmall
  · show (if st.info.count = 0 then id else st.info.firstId) = id'
    rw [hids] at hid'
    split
    · rename_i hzero
      have hnil : st.ids = [] := List.length_eq_zero_iff.mp (h.count.symm.trans hzero)
      rw [hnil] at hid'
      exact Option.some.inj hid'
    · rename_i hpos
      cases hst : st.ids with
      | nil => exact absurd (by rw [h.count, hst]; rfl) hpos
      | cons first rest =>
        rw [hst] at hid'
        exact h.first id' (by rw [hst]; exact hid')
  · rw [hids, List.mem_append, List.mem_singleton] at hid'
    rcases hid' with hin | rfl
    · exact le_of_lt (hgt id' hin)
    · exact le_refl _
  · show (if st.info.count = 0 then id else st.info.firstId).IsU64
    split
    · exact hid
    · exact h.fits.first

/-! ## Removing entries -/

/-- Removing entries keeps a sentinel accurate that has the right first id afterwards. -/
theorem State.Accurate.shrunk (h : st.Accurate deleted) (hs : st.Shrunk st')
    (hfirst : ∀ id, st'.ids.head? = some id → st'.info.firstId = id) (hfits : st'.info.Fits) :
    st'.Accurate deleted where
  count := hs.count
  small := Nat.lt_of_le_of_lt hs.sub.length_le h.small
  first := hfirst
  last id hid := by
    rw [hs.last (List.ne_nil_of_mem hid)]
    exact h.last id (hs.sub.subset hid)
  maxDeleted id hid := le_trans (h.maxDeleted id hid) hs.maxDeleted
  fits := hfits

theorem StreamMeta.Fits.emptied {m : StreamMeta} (h : m.Fits) : m.emptied.Fits := by
  unfold StreamMeta.emptied
  split
  · exact ⟨isU64_zero, isU64_zero, h.maxDeleted⟩
  · exact h

/-- The first id matters only while there are entries. -/
theorem State.first_emptied (hcount : st.info.count = st.ids.length)
    (h : ∀ id, st.ids.head? = some id → st.info.firstId = id) :
    ∀ id, st.ids.head? = some id → st.info.emptied.firstId = id := by
  intro id hid
  unfold StreamMeta.emptied
  split
  · rename_i hzero
    have hnil : st.ids = [] := List.length_eq_zero_iff.mp (hcount.symm.trans hzero)
    rw [hnil] at hid
    cases hid
  · exact h id hid

theorem State.Accurate.trimMaxLen (h : st.Accurate deleted) (hu64 : ∀ id ∈ st.ids, id.IsU64)
    (limit : Nat) : (st.trimMaxLen limit).Accurate deleted := by
  let kept : State := ⟨{ st.info with
      count := st.info.count - (st.info.count - limit)
      firstId := (st.ids.drop (st.info.count - limit)).head?.getD st.info.firstId },
    st.ids.drop (st.info.count - limit)⟩
  have hcount : kept.info.count = kept.ids.length := by simp [kept, h.count]
  have hfirst : ∀ id, kept.ids.head? = some id → kept.info.firstId = id := by
    intro id hid
    simp only [kept] at hid ⊢
    rw [hid, Option.getD_some]
  have hfits : kept.info.Fits := by
    refine ⟨h.fits.last, ?_, h.fits.maxDeleted⟩
    cases hhead : kept.ids.head? with
    | none =>
      simp only [kept] at hhead ⊢
      rw [hhead]
      exact h.fits.first
    | some first =>
      rw [hfirst first hhead]
      exact hu64 first (List.mem_of_mem_drop (List.mem_of_mem_head? hhead))
  exact h.shrunk (State.shrunk_trimMaxLen h.count limit) (State.first_emptied hcount hfirst)
    hfits.emptied

theorem State.trimMinId_info (st : State) (min : StreamEntryId) :
    let left := st.info.count - (st.ids.filter (·.lt min)).length
    (st.trimMinId min).info.firstId = (if left = 0 then zero
      else if 0 < (st.ids.filter (·.lt min)).length then min else st.info.firstId) ∧
    (st.trimMinId min).info.lastId = (if left = 0 then zero else st.info.lastId) ∧
    (st.trimMinId min).info.maxDeletedId =
      if st.info.maxDeletedId.lt min then min else st.info.maxDeletedId := by
  unfold State.trimMinId StreamMeta.emptied
  dsimp only
  refine ⟨?_, ?_, ?_⟩ <;> split_ifs <;> simp_all

/-- The first id is right if the bound is the id of an entry, or nothing or everything
goes. -/
theorem State.Accurate.trimMinId (h : st.Accurate deleted) {min : StreamEntryId} (hmin : min.IsU64)
    (hstored : (st.trimMinId min).ids = st.ids ∨ (st.trimMinId min).ids = [] ∨
      (st.trimMinId min).ids.head? = some min) : (st.trimMinId min).Accurate deleted := by
  have hlen := List.length_eq_length_filter_add (l := st.ids) (·.lt min)
  have hcount := h.count
  obtain ⟨hfirst, hlast, hmax⟩ := st.trimMinId_info min
  refine h.shrunk (State.shrunk_trimMinId h.count min) (fun id hid => ?_) ⟨?_, ?_, ?_⟩
  · have hpos :
      0 < (st.trimMinId min).ids.length := List.length_pos_of_mem (List.mem_of_mem_head? hid)
    rw [hfirst]
    simp only [State.trimMinId] at hid hpos hstored
    rw [if_neg (by omega)]
    split
    · rcases hstored with heq | hnil | hhead
      · rw [heq] at hlen
        omega
      · rw [hnil] at hpos
        cases hpos
      · exact Option.some.inj (hhead.symm.trans hid)
    · rename_i hnone
      refine h.first id ?_
      rw [← hid, List.filter_eq_self.mpr]
      intro id' hid'
      cases hlt : id'.lt min with
      | false => rfl
      | true => exact absurd (List.length_pos_of_mem (List.mem_filter.mpr ⟨hid', hlt⟩)) hnone
  · rw [hlast]
    split
    · exact isU64_zero
    · exact h.fits.last
  · rw [hfirst]
    split
    · exact isU64_zero
    · split
      · exact hmin
      · exact h.fits.first
  · rw [hmax]
    split
    · exact hmin
    · exact h.fits.maxDeleted

/-- What a trim must leave for the first id to be right: the bound of `MINID`, if that
removes anything and leaves something. -/
def State.trimsToEntry (st : State) (maxLen : Option Nat) (minId : Option StreamEntryId) : Bool :=
  let kept := (st.trim maxLen minId).ids
  kept = (st.trim maxLen none).ids || kept.isEmpty || kept.head? = minId

theorem State.Accurate.trim (h : st.Accurate deleted) (hu64 : ∀ id ∈ st.ids, id.IsU64)
    {maxLen : Option Nat} {minId : Option StreamEntryId} (hmin : ∀ id ∈ minId, id.IsU64)
    (hstored : st.trimsToEntry maxLen minId = true) : (st.trim maxLen minId).Accurate deleted := by
  have hfrom : ∀ {st : State}, st.Accurate deleted →
      ((State.trim.trimFrom minId st).ids = st.ids ∨ (State.trim.trimFrom minId st).ids = [] ∨
        (State.trim.trimFrom minId st).ids.head? = minId) →
      (State.trim.trimFrom minId st).Accurate deleted := by
    intro st h hstored
    unfold State.trim.trimFrom at hstored ⊢
    cases minId with
    | none => exact h
    | some min =>
      simp only at hstored ⊢
      split
      · exact h
      · rename_i hne
        rw [if_neg hne] at hstored
        exact h.trimMinId (hmin min rfl) hstored
  simp only [State.trimsToEntry, Bool.or_eq_true, decide_eq_true_eq, List.isEmpty_iff,
    or_assoc] at hstored
  unfold State.trim at hstored ⊢
  split
  · exact h
  · rename_i hne
    rw [if_neg hne, if_neg hne] at hstored
    cases maxLen with
    | none => exact hfrom h hstored
    | some limit =>
      simp only at hstored ⊢
      split
      · exact h
      · rename_i hlong
        rw [if_neg hlong, if_neg hlong] at hstored
        exact hfrom (h.trimMaxLen hu64 limit) hstored

/-! ## Deleting entries -/

variable {todo : List StreamEntryId} {k : Bytes} {s : Store}

/-- Every id that is deleted is taken note of. -/
theorem State.le_maxDeletedId (hcount : st.info.count = st.ids.length) (hnodup : st.ids.Nodup)
    (hin : id ∈ st.ids) (htodo : id ∈ todo) : id.le (st.del todo).info.maxDeletedId := by
  induction todo generalizing st with
  | nil => cases htodo
  | cons id' rest ih =>
    unfold State.del
    split
    · rename_i hmem
      have hone := State.shrunk_delOne hcount hnodup hmem
      by_cases heq : id = id'
      · subst heq
        refine le_trans ?_ (State.shrunk_del hone.count (hnodup.filter _) rest).maxDeleted
        simp only [StreamMeta.withoutEntry]
        split
        · exact le_refl _
        · rename_i hle
          exact Bool.eq_false_iff.mpr hle
      · refine ih hone.count (hnodup.filter _) (List.mem_filter.mpr ⟨hin, by simp [heq]⟩) ?_
        exact (List.mem_cons.mp htodo).resolve_left heq
    · rename_i hmem
      refine ih hcount hnodup hin ((List.mem_cons.mp htodo).resolve_left fun heq => ?_)
      exact hmem (heq ▸ hin)

theorem State.fits_del (h : st.info.Fits)
    (htodo : ∀ id ∈ todo, id.IsU64) : (st.del todo).info.Fits := by
  induction todo generalizing st with
  | nil => exact h
  | cons id rest ih =>
    have hrest : ∀ id ∈ rest, id.IsU64 := fun id' hid' => htodo id' (by simp [hid'])
    unfold State.del
    split
    · refine ih ⟨h.last, h.first, ?_⟩ hrest
      simp only [StreamMeta.withoutEntry]
      split
      · exact htodo id (by simp)
      · exact h.maxDeleted
    · exact ih h hrest

/-- The first entry stays, or all entries go. -/
def State.delKeepsFirst (st : State) (todo : List StreamEntryId) : Bool :=
  (st.xdel todo).ids.isEmpty || (st.xdel todo).ids.head? = st.ids.head?

theorem State.Accurate.xdel (h : st.Accurate deleted) (hnodup : st.ids.Nodup)
    (htodo : ∀ id ∈ todo, id.IsU64) (hkeeps : st.delKeepsFirst todo = true) :
    (st.xdel todo).Accurate (deleted ++ st.ids.filter (· ∈ todo)) := by
  have hshrunk := State.shrunk_del h.count hnodup todo
  have hfirst : ∀ id, (st.del todo).ids.head? = some id → (st.del todo).info.firstId = id := by
    intro id hid
    obtain ⟨_, _, hinfo⟩ := st.del_info todo
    rw [hinfo]
    refine h.first id ?_
    simp only [State.delKeepsFirst, Bool.or_eq_true, List.isEmpty_iff, decide_eq_true_eq] at hkeeps
    have hids : (st.xdel todo).ids = (st.del todo).ids := rfl
    rw [hids, hid] at hkeeps
    rcases hkeeps with hnil | hhead
    · rw [hnil] at hid
      cases hid
    · exact hhead.symm
  have hdel : (st.del todo).Accurate (deleted ++ st.ids.filter (· ∈ todo)) := by
    refine { h.shrunk hshrunk hfirst (State.fits_del h.fits htodo) with
      maxDeleted := fun id hid => ?_ }
    rcases List.mem_append.mp hid with hold | hnew
    · exact le_trans (h.maxDeleted id hold) hshrunk.maxDeleted
    · rw [List.mem_filter, decide_eq_true_eq] at hnew
      exact State.le_maxDeletedId h.count hnodup hnew.1 hnew.2
  exact (hdel.shrunk (State.shrunk_emptied hdel.count) (State.first_emptied hdel.count hfirst)
    hdel.fits.emptied).saved

/-! ## Runs -/

/-- The commands that keep the sentinel accurate. -/
def keepsMetadataAt (k : Bytes) (s : Store) (x : Tick) : Command → Bool
  | .xadd _ maxLen minId explicitId _ =>
    let st := (stored s k).getD State.new
    match nextId explicitId st.info.lastId x.now with
    | .ok id => st.ids.all (·.lt id) && st.ids.length + 1 < 2 ^ 64 &&
      (st.add id).trimsToEntry maxLen minId
    | .error _ => true
  | .other (.xdel todo) => (stored s k).all fun st => st.delKeepsFirst todo
  | .other (.xtrim maxLen minId) => (stored s k).all fun st => st.trimsToEntry maxLen minId
  | .other (.xsetid lastId) => (stored s k).all fun st => st.ids.all fun id => decide (id.le lastId)
  | _ => true

structure KeepsMetadata (db : Int) (name : Bytes) (h : History) (a : Action) : Prop where
  u64 : a.command.IsU64
  admits : ∀ n, Admits db name h.store (a.env n)
  accurate : ∀ n, keepsMetadataAt (publicKey db name) h.store (a.env n) a.command = true

/-- What holds of a history along such a run. -/
structure Recorded (k : Bytes) (h : History) (st : Option State) : Prop where
  tracks : Tracks h.store k st
  accurate : (st.getD .new).Accurate h.deleted

variable {ln : F64 → F64} {db : Int} {name : Bytes} {h h' : History} {a : Action}

theorem Tracks.u64 {st : Option State} (h : Tracks s k st) :
    ∀ id ∈ (st.getD .new).ids, id.IsU64 := by
  cases h with
  | absent => nofun
  | present h _ => exact h.entries.u64

theorem Tracks.sorted {st : Option State} (h : Tracks s k st) :
    (st.getD .new).ids.Pairwise fun a b => a.lt b = true := by
  cases h with
  | absent => exact .nil
  | present h _ => exact h.entries.sorted

theorem Recorded.step {st : Option State} (hinv : Recorded (publicKey db name) h st)
    (hdb : db < 2 ^ 31) (hok : KeepsMetadata db name h a)
    (hstep : step ln (publicKey db name) h a = some h') :
    ∃ st', Recorded (publicKey db name) h' st' := by
  obtain ⟨st', ids, gone, hchanged, htracks', -, hdeleted⟩ :=
    step_follows hdb hok.admits hinv.tracks hok.u64 hstep
  refine ⟨st', htracks', ?_⟩
  rw [hdeleted]
  have hu64 := hok.u64
  have hu64s := hinv.tracks.u64
  cases hchanged with
  | same =>
    rw [List.append_nil]
    exact hinv.accurate
  | @added _ maxLen minId _ _ n id hcmd hid64 hid =>
    have hacc := hok.accurate n
    simp only [hcmd, keepsMetadataAt, hinv.tracks.stored_eq, hid, Bool.and_eq_true,
      List.all_eq_true, decide_eq_true_eq] at hacc
    obtain ⟨⟨hgt, hsmall⟩, htrim⟩ := hacc
    rw [hcmd] at hu64
    rw [List.append_nil]
    have hadd := hinv.accurate.add hgt hsmall hid64
    refine (hadd.trim (fun id' hid' => ?_) hu64.1 htrim).saved
    rw [State.add_ids hgt, List.mem_append, List.mem_singleton] at hid'
    rcases hid' with hin | rfl
    · exact hu64s id' hin
    · exact hid64
  | @removed todo st₁ hcmd hst =>
    subst hst
    have hacc := hok.accurate 0
    simp only [hcmd, keepsMetadataAt, hinv.tracks.stored_eq, Option.all_some] at hacc
    rw [hcmd] at hu64
    cases hinv.tracks with
    | present hholds _ => exact hinv.accurate.xdel (nodup_ids hholds) hu64 hacc
  | @trimmed maxLen minId st₁ hcmd hst =>
    subst hst
    have hacc := hok.accurate 0
    simp only [hcmd, keepsMetadataAt, hinv.tracks.stored_eq, Option.all_some] at hacc
    rw [hcmd] at hu64
    rw [List.append_nil]
    exact (hinv.accurate.trim hu64s hu64 hacc).saved
  | @set lastId hcmd =>
    have hacc := hok.accurate 0
    simp only [hcmd, keepsMetadataAt, hinv.tracks.stored_eq, Option.all_eq_true, List.all_eq_true,
      decide_eq_true_eq] at hacc
    rw [hcmd] at hu64
    rw [List.append_nil]
    refine State.Accurate.saved { hinv.accurate with last := fun id hid => ?_, fits := ?_ }
    · cases st with
      | none => cases hid
      | some st => exact hacc st rfl id hid
    · exact { hinv.accurate.fits with last := hu64 }

/-- **The sentinel is accurate.** In a run from a store without the stream, whose commands
all meet the condition: the count is the number of entries, the first id is the smallest
one of an entry, the last id is at least every one of an entry, and the greatest deleted
id is at least every one that `XDEL` removed. -/
theorem metadata_accurate (ln : F64 → F64) (hdb : db < 2 ^ 31) {s : Store}
    (habsent : s[publicKey db name]? = none)
    (hr : Reach (step ln (publicKey db name)) (KeepsMetadata db name) { store := s } h)
    (hst : stored h.store (publicKey db name) = some st) :
    st.info.count = st.ids.length ∧
      (st.ids ≠ [] → st.info.firstId ∈ st.ids ∧ ∀ id ∈ st.ids, st.info.firstId.le id) ∧
      (∀ id ∈ st.ids, id.le st.info.lastId) ∧
      ∀ id ∈ h.deleted, id.le st.info.maxDeletedId := by
  have hstart : Recorded (publicKey db name) { store := s } none :=
    ⟨.absent habsent, State.accurate_new⟩
  obtain ⟨st', hinv⟩ := hr.inv (I := fun h => ∃ st, Recorded (publicKey db name) h st)
    ⟨none, hstart⟩ fun _ _ _ ⟨_, hinv⟩ hok hstep => hinv.step hdb hok hstep
  obtain rfl : st' = some st := hinv.tracks.stored_eq.symm.trans hst
  have hacc := hinv.accurate
  have hsorted := hinv.tracks.sorted
  refine ⟨hacc.count, fun hne => ?_, hacc.last, hacc.maxDeleted⟩
  simp only [Option.getD_some] at hacc hsorted
  cases hids : st.ids with
  | nil => exact absurd hids hne
  | cons first rest =>
    have hfirst := hacc.first first (by rw [hids]; rfl)
    rw [hids] at hsorted
    rw [hfirst]
    refine ⟨List.mem_cons_self, fun id hid => ?_⟩
    rcases List.mem_cons.mp hid with rfl | hin
    · exact le_refl _
    · exact le_of_lt ((List.pairwise_cons.mp hsorted).1 id hin)

def otherAt (now : Int) (op : Op) : Action := ⟨.other op, fun _ => { now }⟩

/-- Two entries are added and the second one is deleted. -/
theorem metadata_accurate_deleted :
    ∃ h st, runOf [xaddAt 1 none none, xaddAt 2 none none, otherAt 3 (.xdel [⟨2, 0⟩, ⟨2, 0⟩])] =
        some h ∧ stored h.store (publicKey 0 (ascii "s")) = some st ∧ h.deleted = [⟨2, 0⟩] ∧
      st.info.count = 1 ∧ st.ids = [⟨1, 0⟩] ∧ ∀ id ∈ h.deleted, id.le st.info.maxDeletedId := by
  obtain ⟨h, hrun, hreach, hP⟩ := exists_reach
    (step (fun x => x) (publicKey 0 (ascii "s"))) (KeepsMetadata 0 (ascii "s")) { store := ∅ }
    [xaddAt 1 none none, xaddAt 2 none none, otherAt 3 (.xdel [⟨2, 0⟩, ⟨2, 0⟩])]
    (fun h a => decide (Admits 0 (ascii "s") h.store (a.env 0)) &&
      keepsMetadataAt (publicKey 0 (ascii "s")) h.store (a.env 0) a.command)
    (fun h => decide (h.deleted = [⟨2, 0⟩]) &&
      (stored h.store (publicKey 0 (ascii "s"))).any fun (st : State) => decide (st.ids = [⟨1, 0⟩]))
    (by decide +kernel) fun h a ha hok => by
      simp only [Bool.and_eq_true, decide_eq_true_eq] at hok
      simp only [List.mem_cons, List.not_mem_nil, or_false] at ha
      rcases ha with rfl | rfl | rfl
      · exact ⟨⟨nofun, nofun⟩, fun _ => hok.1, fun _ => hok.2⟩
      · exact ⟨⟨nofun, nofun⟩, fun _ => hok.1, fun _ => hok.2⟩
      · refine ⟨fun id hid => ?_, fun _ => hok.1, fun _ => hok.2⟩
        rcases List.mem_pair.mp hid with rfl | rfl <;> exact ⟨by decide, by decide⟩
  simp only [Bool.and_eq_true, decide_eq_true_eq, Option.any_eq_true] at hP
  obtain ⟨hdeleted, st, hst, hids⟩ := hP
  have hacc := metadata_accurate (fun x => x) (by decide) (by decide +kernel) hreach hst
  refine ⟨h, st, hrun, hst, hdeleted, ?_, hids, hacc.2.2.2⟩
  rw [hacc.1, hids]
  rfl

/-- **The sentinel is not accurate** after the first of two entries was deleted, after an
entry was written over one with a later one behind it, after a `MINID` between two
entries, and after an `XSETID` that goes back. -/
theorem metadata_inaccurate :
    let after (actions : List Action) : Option State :=
      (runOf actions).bind fun h => stored h.store (publicKey 0 (ascii "s"))
    ((after [xaddAt 1 none none, xaddAt 2 none none, otherAt 3 (.xdel [⟨1, 0⟩])]).map
        fun st => (st.info.firstId, st.ids)) = some (⟨1, 0⟩, [⟨2, 0⟩]) ∧
      ((after [xaddAt 1 (some ⟨1, 5⟩) none, xaddAt 1 (some ⟨2, 0⟩) none,
        xaddAt 1 (some ⟨1, 5⟩) none]).map fun st => (st.info.count, st.info.lastId, st.ids)) =
          some (3, ⟨1, 5⟩, [⟨1, 5⟩, ⟨2, 0⟩]) ∧
      ((after [xaddAt 1 none none, xaddAt 5 none none, otherAt 6 (.xtrim none (some ⟨3, 0⟩))]).map
        fun st => (st.info.firstId, st.ids)) = some (⟨3, 0⟩, [⟨5, 0⟩]) ∧
      ((after [xaddAt 5 none none, otherAt 6 (.xsetid ⟨1, 0⟩)]).map
        fun st => (st.info.lastId, st.ids)) = some (⟨1, 0⟩, [⟨5, 0⟩]) := by
  decide +kernel

end Invar.Stream
