import Invar.Redis.StreamRuns

/-!
# The ids of a stream increase

`XADD` compares with the last id that the sentinel holds. That is enough as long as the
sentinel remembers the greatest id ever given, which it does unless a command removes
the last entry of the stream: then the last id is reset to `0-0`. Two more ids are not
greater than the last one: an explicit id with a smaller time and a greater sequence
number, since the two parts are compared one by one, and the one after a sequence
number of `2 ^ 64 - 1`, which wraps around.
-/

namespace Invar.Stream

open StoreProg TxProg StreamEntryId Transition

/-! ## Removing entries -/

/-- Some entries were removed: the count is right again, and the last id is kept while
there are entries. -/
structure State.Shrunk (st st' : State) : Prop where
  count : st'.info.count = st'.ids.length
  sub : st'.ids.Sublist st.ids
  last : st'.ids ≠ [] → st'.info.lastId = st.info.lastId
  maxDeleted : st.info.maxDeletedId.le st'.info.maxDeletedId

variable {st st' : State}

theorem State.Shrunk.refl (h : st.info.count = st.ids.length) : st.Shrunk st :=
  ⟨h, .refl _, fun _ => rfl, le_refl _⟩

theorem State.Shrunk.trans {st st' st'' : State} (h : st.Shrunk st') (h' : st'.Shrunk st'') :
    st.Shrunk st'' where
  count := h'.count
  sub := h'.sub.trans h.sub
  last hne := by
    rw [h'.last hne, h.last]
    intro hnil
    have hsub := h'.sub
    rw [hnil] at hsub
    exact hne (List.sublist_nil.mp hsub)
  maxDeleted := le_trans h.maxDeleted h'.maxDeleted

theorem State.shrunk_emptied (h : st.info.count = st.ids.length) :
    st.Shrunk { st with info := st.info.emptied } := by
  unfold StreamMeta.emptied
  split
  · rename_i hzero
    exact ⟨h, .refl _, fun hne => absurd (List.length_eq_zero_iff.mp (h ▸ hzero)) hne, le_refl _⟩
  · exact .refl h

theorem State.shrunk_trimMaxLen (h : st.info.count = st.ids.length) (limit : Nat) :
    st.Shrunk (st.trimMaxLen limit) := by
  let kept : State := ⟨{ st.info with
      count := st.info.count - (st.info.count - limit)
      firstId := (st.ids.drop (st.info.count - limit)).head?.getD st.info.firstId },
    st.ids.drop (st.info.count - limit)⟩
  have hcount : kept.info.count = kept.ids.length := by simp [kept, h]
  have hkept : st.Shrunk kept := ⟨hcount, List.drop_sublist _ _, fun _ => rfl, le_refl _⟩
  exact hkept.trans (State.shrunk_emptied hcount)

theorem State.shrunk_trimMinId (h : st.info.count = st.ids.length)
    (min : StreamEntryId) : st.Shrunk (st.trimMinId min) := by
  have hlen := List.length_eq_length_filter_add (l := st.ids) (·.lt min)
  let kept : State := ⟨{ st.info with count := st.info.count - (st.ids.filter (·.lt min)).length },
    st.ids.filter fun id => !id.lt min⟩
  have hcount : kept.info.count = kept.ids.length := by
    simp only [kept]
    omega
  have hkept : st.Shrunk kept := ⟨hcount, List.filter_sublist, fun _ => rfl, le_refl _⟩
  -- the greatest deleted id is raised last
  have hraise : ∀ {st' : State}, st.Shrunk st' → st.Shrunk
      ⟨if st'.info.maxDeletedId.lt min then { st'.info with maxDeletedId := min } else st'.info,
        st'.ids⟩ := by
    intro st' h'
    split
    · rename_i hlt
      exact ⟨h'.count, h'.sub, h'.last, le_trans h'.maxDeleted (le_of_lt hlt)⟩
    · exact h'
  unfold State.trimMinId
  dsimp only
  split
  · exact hraise (hkept.trans (State.shrunk_emptied hcount))
  · split
    · have hfirst : st.Shrunk ⟨{ kept.info with firstId := min }, kept.ids⟩ :=
        ⟨hkept.count, hkept.sub, hkept.last, hkept.maxDeleted⟩
      exact hraise hfirst
    · exact hraise hkept

theorem State.shrunk_trim (h : st.info.count = st.ids.length) (maxLen : Option Nat)
    (minId : Option StreamEntryId) : st.Shrunk (st.trim maxLen minId) := by
  have hfrom : ∀ {st : State}, st.info.count = st.ids.length →
      st.Shrunk (State.trim.trimFrom minId st) := by
    intro st h
    unfold State.trim.trimFrom
    split
    · split
      · exact .refl h
      · exact State.shrunk_trimMinId h _
    · exact .refl h
  unfold State.trim
  split
  · exact .refl h
  · split
    · split
      · exact .refl h
      · rename_i limit _
        have hmax := State.shrunk_trimMaxLen h limit
        exact hmax.trans (hfrom hmax.count)
    · exact hfrom h

theorem State.shrunk_delOne (h : st.info.count = st.ids.length)
    (hnodup : st.ids.Nodup) {id : StreamEntryId} (hmem : id ∈ st.ids) :
    st.Shrunk ⟨st.info.withoutEntry id, st.ids.filter (· ≠ id)⟩ := by
  have hlen : (st.ids.filter (· ≠ id)).length = st.ids.length - 1 := by
    rw [← List.length_erase_of_mem hmem, hnodup.erase_eq_filter id]
    exact congrArg List.length (List.filter_congr fun x _ => by by_cases hx : x = id <;> simp [hx])
  refine ⟨by simp only [StreamMeta.withoutEntry]; omega, List.filter_sublist, fun _ => rfl, ?_⟩
  simp only [StreamMeta.withoutEntry]
  split
  · exact le_of_lt ‹_›
  · exact le_refl _

theorem State.shrunk_del (h : st.info.count = st.ids.length) (hnodup : st.ids.Nodup)
    (todo : List StreamEntryId) : st.Shrunk (st.del todo) := by
  induction todo generalizing st with
  | nil => exact .refl h
  | cons id rest ih =>
    unfold State.del
    split
    · rename_i hmem
      have hone := State.shrunk_delOne h hnodup hmem
      exact hone.trans (ih hone.count (hnodup.filter _))
    · exact ih h hnodup

/-! ## The last id is the greatest -/

/-- The stream's last id is at least every id ever given, and its entries are among
those. -/
structure State.Dominates (st : State) (assigned : List StreamEntryId) : Prop where
  count : st.info.count = st.ids.length
  small : st.ids.length < 2 ^ 64
  given : ∀ id ∈ st.ids, id ∈ assigned
  last : ∀ id ∈ assigned, id.le st.info.lastId
  sorted : assigned.Pairwise fun a b => a.lt b = true

variable {assigned : List StreamEntryId} {id : StreamEntryId}

theorem State.dominates_new : State.new.Dominates [] :=
  ⟨rfl, by decide, nofun, nofun, .nil⟩

theorem State.Dominates.saved (h : st.Dominates assigned) (hu64 : st.info.lastId.IsU64) :
    st.saved.Dominates assigned where
  count := by
    show st.info.count % 2 ^ 64 = st.ids.length
    rw [h.count, Nat.mod_eq_of_lt h.small]
  small := h.small
  given := h.given
  last id hid := by
    have hlast : st.saved.info.lastId = st.info.lastId := by
      show StreamEntryId.mk (st.info.lastId.ms % 2 ^ 64) (st.info.lastId.seq % 2 ^ 64) = _
      rw [Nat.mod_eq_of_lt hu64.1, Nat.mod_eq_of_lt hu64.2]
    rw [hlast]
    exact h.last id hid
  sorted := h.sorted

theorem State.Dominates.shrunk (h : st.Dominates assigned) (hs : st.Shrunk st')
    (hne : st'.ids ≠ []) : st'.Dominates assigned where
  count := hs.count
  small := Nat.lt_of_le_of_lt hs.sub.length_le h.small
  given id hid := h.given id (hs.sub.subset hid)
  last id hid := by
    rw [hs.last hne]
    exact h.last id hid
  sorted := h.sorted

/-- A greater id goes to the end. -/
theorem State.add_ids (h : ∀ id' ∈ st.ids, id'.lt id = true) :
    (st.add id).ids = st.ids ++ [id] := by
  have hlt : st.ids.filter (·.lt id) = st.ids := List.filter_eq_self.mpr h
  have hgt : st.ids.filter (id.lt ·) = [] := by
    refine List.filter_eq_nil_iff.mpr fun id' hid' hlt' => ?_
    have := lt_trans (h id' hid') hlt'
    rw [lt_irrefl] at this
    cases this
  simp [State.add, hlt, hgt]

theorem State.Dominates.add (h : st.Dominates assigned) (hid : st.info.lastId.lt id = true)
    (hsmall : st.ids.length + 1 < 2 ^ 64) : (st.add id).Dominates (assigned ++ [id]) := by
  have hgreater : ∀ id' ∈ assigned, id'.lt id = true := fun id' hid' =>
    lt_of_le_of_lt (h.last id' hid') hid
  have hids : (st.add _).ids = st.ids ++ [_] :=
    State.add_ids fun id' hid' => hgreater id' (h.given id' hid')
  refine ⟨?_, ?_, fun id' hid' => ?_, fun id' hid' => ?_, ?_⟩
  · rw [hids, List.length_append, ← h.count]
    rfl
  · rw [hids, List.length_append]
    exact hsmall
  · rw [hids, List.mem_append] at hid'
    exact List.mem_append.mpr (hid'.imp_left (h.given id'))
  · rcases List.mem_append.mp hid' with hin | hin
    · exact le_of_lt (hgreater id' hin)
    · rw [List.mem_singleton.mp hin]
      exact le_refl _
  · refine List.pairwise_append.mpr ⟨h.sorted, List.pairwise_singleton _ _, fun a ha b hb => ?_⟩
    rw [List.mem_singleton.mp hb]
    exact hgreater a ha

variable {now : Int} {k : Bytes} {s : Store}

/-- Which ids are greater than the last one. -/
theorem nextId_gt {explicit : Option StreamEntryId} {last : StreamEntryId}
    (hexplicit : ∀ id ∈ explicit, ¬(id.ms < last.ms ∧ last.seq < id.seq))
    (hauto : explicit = none → last.seq = 2 ^ 64 - 1 → (last.ms : Int) < now)
    (hlast : last.IsU64) (h : nextId explicit last now = .ok id) : last.lt id = true := by
  rw [lt_iff]
  cases explicit with
  | some id' =>
    have hparts := hexplicit id' rfl
    simp only [nextId] at h
    split at h
    · cases h
    · rename_i hnot
      split at h
      · cases h
      · rename_i hzero
        cases h
        simp only [Bool.and_eq_true, decide_eq_true_eq, Bool.not_eq_true', Bool.and_eq_false_iff,
          decide_eq_false_iff_not, hzero, not_false_eq_true, true_or, and_true] at hnot
        omega
  | none =>
    simp only [nextId] at h
    split at h
    · cases h
      simp only
      omega
    · rename_i hge
      cases h
      have hseq : last.seq ≠ 2 ^ 64 - 1 := fun heq => hge (hauto rfl heq)
      have hmod : (last.seq + 1) % 2 ^ 64 = last.seq + 1 :=
        Nat.mod_eq_of_lt (by have := hlast.2; omega)
      exact .inr ⟨rfl, hmod.symm ▸ Nat.lt_succ_self _⟩

/-! ## Runs -/

/-- The commands under which the last id stays the greatest. An explicit id does not have
a smaller time and a greater sequence number than the last one, the clock has passed the
last id if its sequence number is the greatest there is, and what is removed leaves an
entry. -/
def keepsOrderAt (k : Bytes) (s : Store) (x : Tick) : Command → Bool
  | .xadd _ maxLen minId explicitId _ =>
    let st := (stored s k).getD State.new
    let last := st.info.lastId
    (explicitId.all fun id => !(id.ms < last.ms && last.seq < id.seq)) &&
      (explicitId.isSome || last.seq < 2 ^ 64 - 1 || (last.ms : Int) < x.now) &&
      st.ids.length + 1 < 2 ^ 64 &&
      match nextId explicitId last x.now with
      | .ok id => !(st.xadd maxLen minId id).ids.isEmpty
      | .error _ => true
  | .other (.xdel todo) => (stored s k).all fun st => !(st.xdel todo).ids.isEmpty
  | .other (.xtrim maxLen minId) => (stored s k).all fun st => !(st.xtrim maxLen minId).ids.isEmpty
  | .other (.xsetid _) => false
  | _ => true

/-- The same for a command and all that its environment answers. -/
structure KeepsOrder (db : Int) (name : Bytes) (h : History) (a : Action) : Prop where
  u64 : a.command.IsU64
  admits : ∀ n, Admits db name h.store (a.env n)
  order : ∀ n, keepsOrderAt (publicKey db name) h.store (a.env n) a.command = true

/-- What holds of a history along such a run. -/
structure Ordered (k : Bytes) (h : History) (st : Option State) : Prop where
  tracks : Tracks h.store k st
  dominates : (st.getD .new).Dominates h.assigned

theorem Tracks.isU64 {st : Option State} (h : Tracks s k st) :
    (st.getD .new).info.lastId.IsU64 := by
  cases h with
  | absent => exact ⟨by decide, by decide⟩
  | present _ hu64 => exact hu64

theorem nodup_ids {p : ElementPrefix} (h : Holds s k p st) : st.ids.Nodup :=
  h.entries.sorted.imp fun hlt heq => by simp [heq, lt_irrefl] at hlt

variable {ln : F64 → F64} {db : Int} {name : Bytes} {h h' : History} {a : Action}

/-- An id that is given is greater than the last one of the stream. -/
theorem KeepsOrder.gt (hok : KeepsOrder db name h a) {st : Option State}
    (htracks : Tracks h.store (publicKey db name) st) {nomkstream : Bool} {maxLen : Option Nat}
    {minId explicitId : Option StreamEntryId} {fieldValues : List Bytes} {n : Nat}
    (hcmd : a.command = .xadd nomkstream maxLen minId explicitId fieldValues)
    (hid : nextId explicitId (st.getD .new).info.lastId (a.env n).now = .ok id) :
    (st.getD .new).info.lastId.lt id = true ∧ (st.getD .new).ids.length + 1 < 2 ^ 64 ∧
      ((st.getD .new).xadd maxLen minId id).ids ≠ [] := by
  have horder := hok.order n
  simp only [hcmd, keepsOrderAt, htracks.stored_eq, hid, Bool.and_eq_true, Bool.or_eq_true,
    decide_eq_true_eq, Option.all_eq_true, Bool.not_eq_true', Bool.and_eq_false_iff,
    decide_eq_false_iff_not, List.isEmpty_eq_false_iff] at horder
  obtain ⟨⟨⟨hexplicit, hauto⟩, hsmall⟩, hne⟩ := horder
  refine ⟨nextId_gt (fun id' hid' => ?_) (fun hnone hseq => ?_) htracks.isU64 hid, hsmall, hne⟩
  · have := hexplicit id' hid'
    omega
  · rcases hauto with (hsome | hlt) | hlt
    · rw [hnone] at hsome
      cases hsome
    · omega
    · exact hlt

/-- **A step keeps the last id the greatest.** -/
theorem Ordered.step {st : Option State} (hinv : Ordered (publicKey db name) h st)
    (hdb : db < 2 ^ 31) (hok : KeepsOrder db name h a)
    (hstep : step ln (publicKey db name) h a = some h') :
    ∃ st', Ordered (publicKey db name) h' st' := by
  obtain ⟨st', ids, gone, hchanged, htracks', hassigned, -⟩ :=
    step_follows hdb hok.admits hinv.tracks hok.u64 hstep
  refine ⟨st', htracks', ?_⟩
  rw [hassigned]
  have hrest := hok.order 0
  cases hchanged with
  | same =>
    rw [List.append_nil]
    exact hinv.dominates
  | @added _ maxLen minId _ _ _ id hcmd hid64 hid =>
    obtain ⟨hgt, hsmall, hne⟩ := hok.gt hinv.tracks hcmd hid
    have hadd := hinv.dominates.add hgt hsmall
    have hshrunk := State.shrunk_trim hadd.count maxLen minId
    refine (hadd.shrunk hshrunk hne).saved ?_
    rw [hshrunk.last hne]
    exact hid64
  | @removed todo st₁ hcmd hst =>
    subst hst
    simp only [hcmd, keepsOrderAt, hinv.tracks.stored_eq, Option.all_some, Bool.not_eq_true',
      List.isEmpty_eq_false_iff] at hrest
    cases hinv.tracks with
    | present hholds hlast =>
      have hshrunk := State.shrunk_del hinv.dominates.count (nodup_ids hholds) todo
      have hshrunk' := hshrunk.trans (State.shrunk_emptied hshrunk.count)
      rw [List.append_nil]
      refine (hinv.dominates.shrunk hshrunk' hrest).saved ?_
      rw [hshrunk'.last hrest]
      exact hlast
  | @trimmed maxLen minId st₁ hcmd hst =>
    subst hst
    simp only [hcmd, keepsOrderAt, hinv.tracks.stored_eq, Option.all_some, Bool.not_eq_true',
      List.isEmpty_eq_false_iff] at hrest
    cases hinv.tracks with
    | present hholds hlast =>
      have hshrunk := State.shrunk_trim hinv.dominates.count maxLen minId
      rw [List.append_nil]
      refine (hinv.dominates.shrunk hshrunk hrest).saved ?_
      rw [hshrunk.last hrest]
      exact hlast
  | set hcmd =>
    simp [hcmd, keepsOrderAt] at hrest

theorem ordered_of_reach (hdb : db < 2 ^ 31) (habsent : s[publicKey db name]? = none)
    (hr : Reach (step ln (publicKey db name)) (KeepsOrder db name) { store := s } h) :
    ∃ st, Ordered (publicKey db name) h st := by
  have hstart : Ordered (publicKey db name) { store := s } none :=
    ⟨.absent habsent, State.dominates_new⟩
  exact hr.inv (I := fun h => ∃ st, Ordered (publicKey db name) h st) ⟨none, hstart⟩
    fun _ _ _ ⟨_, hinv⟩ hok hstep => hinv.step hdb hok hstep

/-- An entry that is there has an id that was given. -/
theorem Ordered.mem_assigned {st : Option State} (hinv : Ordered (publicKey db name) h st)
    (hid : id.IsU64)
    (hholds : holdsEntry h.store now (.ofKey (publicKey db name, name)) id = true) :
    id ∈ h.assigned := by
  obtain ⟨htracks, hdom⟩ := hinv
  cases htracks with
  | absent habsent => simp [holdsEntry, XReadStream.ofKey, habsent] at hholds
  | present hst _ =>
    obtain ⟨row, data, hrow, -, hsent, hdec⟩ := hst.sentinel
    simp only [holdsEntry, XReadStream.ofKey, hrow, hsent.content_eq, hsent.place_eq, hdec,
      Option.any_some, hst.version_eq, Bool.and_eq_true] at hholds
    refine hdom.given id ((hst.entries.mem_iff hid).mpr ?_)
    simp only [Option.any_eq_true] at hholds
    obtain ⟨entry, hentry, -⟩ := hholds.2
    rw [hentry]
    rfl

/-- **Ids increase.** In a run from a store without the stream, whose commands all meet
the condition, the ids that `XADD` gives increase, and an entry with the given id was not
there before. -/
theorem ids_increase (ln : F64 → F64) (hdb : db < 2 ^ 31) {s : Store}
    (habsent : s[publicKey db name]? = none)
    (hr : Reach (step ln (publicKey db name)) (KeepsOrder db name) { store := s } h) :
    h.assigned.Pairwise (fun a b => a.lt b = true) ∧
      ∀ a h' id, KeepsOrder db name h a → step ln (publicKey db name) h a = some h' →
        h'.assigned = h.assigned ++ [id] →
          ∀ now, holdsEntry h.store now (.ofKey (publicKey db name, name)) id = false := by
  obtain ⟨st, hinv⟩ := ordered_of_reach hdb habsent hr
  refine ⟨hinv.dominates.sorted, fun a h' id hok hstep hid now => ?_⟩
  obtain ⟨st', hinv'⟩ := hinv.step hdb hok hstep
  obtain ⟨_, ids, _, hchanged, -, hassigned, -⟩ :=
    step_follows hdb hok.admits hinv.tracks hok.u64 hstep
  have hids : ids = [id] := List.append_cancel_left (hassigned.symm.trans hid)
  subst hids
  cases hchanged with
  | added _ hid64 _ =>
    cases hentry : holdsEntry h.store now (.ofKey (publicKey db name, name)) id with
    | false => rfl
    | true =>
      -- the new id would be less than itself
      have hmem := hinv.mem_assigned hid64 hentry
      have hsorted := hinv'.dominates.sorted
      rw [hid] at hsorted
      have hlt := (List.pairwise_append.mp hsorted).2.2 id hmem id (List.mem_singleton_self id)
      rw [lt_irrefl] at hlt
      cases hlt

/-- An `XADD` of an entry at a time that the clock shows throughout. -/
def xaddAt (now : Int) (explicitId : Option StreamEntryId) (maxLen : Option Nat) : Action where
  command := .xadd false maxLen none explicitId [ascii "f", ascii "v"]
  env _ := { now }

/-- A run on the stream `s` of db 0, which is not there at the start. -/
def runOf (actions : List Action) : Option History :=
  run (step (fun x => x) (publicKey 0 (ascii "s"))) { store := ∅ } actions

/-- The clock goes back, and the older entry is trimmed. -/
theorem ids_increase_backwards : ∃ h, runOf [xaddAt 5 none none, xaddAt 3 none (some 1)] = some h ∧
      h.assigned = [⟨5, 0⟩, ⟨5, 1⟩] ∧ h.assigned.Pairwise (fun a b => a.lt b = true) := by
  obtain ⟨h, hrun, hreach, hassigned⟩ := exists_reach
    (step (fun x => x) (publicKey 0 (ascii "s"))) (KeepsOrder 0 (ascii "s")) { store := ∅ }
    [xaddAt 5 none none, xaddAt 3 none (some 1)]
    (fun h a => decide (Admits 0 (ascii "s") h.store (a.env 0)) &&
      keepsOrderAt (publicKey 0 (ascii "s")) h.store (a.env 0) a.command)
    (fun h => decide (h.assigned = [⟨5, 0⟩, ⟨5, 1⟩])) (by decide +kernel) fun h a ha hok => by
      simp only [Bool.and_eq_true, decide_eq_true_eq] at hok
      rcases List.mem_pair.mp ha with rfl | rfl <;>
        exact ⟨⟨nofun, nofun⟩, fun _ => hok.1, fun _ => hok.2⟩
  exact ⟨h, hrun, of_decide_eq_true hassigned,
    (ids_increase (fun x => x) (by decide) (by decide +kernel) hreach).1⟩

/-- **The ids do not increase** after the last entry was removed, for an explicit id with an
earlier time and a greater sequence number, which may also be that of an entry, and after
the greatest sequence number. -/
theorem ids_do_not_increase :
    (runOf [xaddAt 1 (some ⟨5, 1⟩) none, ⟨.other (.xdel [⟨5, 1⟩]), fun _ => { now := 1 }⟩,
        xaddAt 1 (some ⟨3, 0⟩) none]).map (·.assigned) = some [⟨5, 1⟩, ⟨3, 0⟩] ∧
      (runOf [xaddAt 1 (some ⟨1, 5⟩) none, xaddAt 1 (some ⟨2, 0⟩) none,
        xaddAt 1 (some ⟨1, 5⟩) none]).map (·.assigned) = some [⟨1, 5⟩, ⟨2, 0⟩, ⟨1, 5⟩] ∧
      (runOf [xaddAt 1 (some ⟨7, 2 ^ 64 - 1⟩) none, xaddAt 7 none none]).map (·.assigned) =
        some [⟨7, 2 ^ 64 - 1⟩, ⟨7, 0⟩] := by
  decide +kernel

end Invar.Stream
