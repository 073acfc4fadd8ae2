import Invar.Redis.BloomRuns

/-!
# Capacities of sub-filters

A new sub-filter gets the capacity of the newest one times a power of the expansion, and the
exponent is its own number. The capacities of a filter are such a chain (`Chain`) in every
run, whichever commands add to it. The `i`-th one is `c * e ^ i` as long as the exponents
before it are 0 or 1, or the expansion is 1 (`capacity_of_grown`).
-/

namespace Invar.Bloom

open StoreProg TxProg Ieee754 ByteBits Transition

variable {ln : F64 → F64} {C : Catalog Filter} {k item : Bytes} {P : Place} {s : Store}
  {F F' : Filter} {c : Nat} {fs : List SubFilterMeta}

/-! ## The chain of sub-filters -/

/-- Sub-filters in order, each sized by the one before it. -/
structure Chain (c : Nat) (e : Int) (fs : List SubFilterMeta) : Prop where
  id_eq : ∀ (i : Nat) (f : SubFilterMeta), fs[i]? = some f → f.id = i
  first : ∀ f, fs[0]? = some f → f.capacity = c
  next : ∀ (i : Nat) (f g : SubFilterMeta), fs[i]? = some f → fs[i + 1]? = some g →
    g.capacity = subFilterCapacity f.capacity e (i + 1)

variable {e : Int} {a : Action} {h : History} {f : SubFilterMeta} {i : Nat}

theorem Chain.take (h : Chain c e fs) (n : Nat) : Chain c e (fs.take n) := by
  have hmem : ∀ (i : Nat) (f : SubFilterMeta), (fs.take n)[i]? = some f → fs[i]? = some f := by
    intro i f hf
    rw [List.getElem?_take] at hf
    split at hf
    · exact hf
    · cases hf
  refine ⟨fun i f hf => h.id_eq i f (hmem i f hf), fun f hf => h.first f (hmem 0 f hf), ?_⟩
  intro i f g hf hg
  exact h.next i f g (hmem i f hf) (hmem (i + 1) g hg)

theorem Chain.concat (h : Chain c e fs) {last g : SubFilterMeta}
    (hlast : fs.getLast? = some last) (hid : g.id = fs.length)
    (hcap : g.capacity = subFilterCapacity last.capacity e fs.length) : Chain c e (fs ++ [g]) := by
  have hpos : 0 < fs.length := List.length_pos_of_ne_nil fun hnil => by
    rw [hnil] at hlast
    cases hlast
  rw [List.getLast?_eq_getElem?] at hlast
  have hcases : ∀ (i : Nat) (f : SubFilterMeta), (fs ++ [g])[i]? = some f →
      fs[i]? = some f ∧ i < fs.length ∨ i = fs.length ∧ f = g := by
    intro i f hf
    by_cases hi : i < fs.length
    · rw [List.getElem?_append_left hi] at hf
      exact .inl ⟨hf, hi⟩
    · rw [List.getElem?_append_right (Nat.not_lt.mp hi), List.getElem?_singleton] at hf
      split at hf
      · cases hf
        exact .inr ⟨by omega, rfl⟩
      · cases hf
  refine ⟨fun i f hf => ?_, fun f hf => ?_, fun i f f' hf hf' => ?_⟩
  · rcases hcases i f hf with ⟨hf, -⟩ | ⟨rfl, rfl⟩
    · exact h.id_eq i f hf
    · exact hid
  · rcases hcases 0 f hf with ⟨hf, -⟩ | ⟨hzero, -⟩
    · exact h.first f hf
    · omega
  · rcases hcases (i + 1) f' hf' with ⟨hf', hi⟩ | ⟨hi, rfl⟩
    · rcases hcases i f hf with ⟨hf, -⟩ | ⟨hi', -⟩
      · exact h.next i f f' hf hf'
      · omega
    · rcases hcases i f hf with ⟨hf, -⟩ | ⟨hi', -⟩
      · rw [← hi, Nat.add_sub_cancel, hf] at hlast
        cases hlast
        rw [hcap, hi]
      · omega

variable (ln) in
theorem id_subFilter (id capacity : Nat) (errorRate : F64) :
    (subFilter ln id capacity errorRate).id = id ∧
      (subFilter ln id capacity errorRate).capacity = capacity := by
  unfold subFilter
  generalize computeBloomParams ln _ _ = params
  generalize subFilterSeeds _ = seeds
  exact ⟨rfl, rfl⟩

/-- **One add continues the chain.** -/
theorem Chain.added (h : Chain c F.info.expansion F.blanks) (hadded : Added ln item F F') :
    Chain c F'.info.expansion F'.blanks := by
  rw [hadded.expansion_eq, hadded.blanks]
  refine Chain.take ?_ _
  unfold Filter.blanksAfter
  cases F.info.grows with
  | false => exact h
  | true =>
    have hlast := F.getLast?_blanks
    have hpos := F.length_blanks_pos
    have hcount : F.blanks.length ≤ 65535 := F.length_blanks ▸ F.storable.count
    have hid : F.last.blank.id = F.blanks.length - 1 :=
      h.id_eq _ _ (by rw [← List.getLast?_eq_getElem?, hlast])
    change F.last.id = _ at hid
    have hnext : (F.last.id + 1) % 2 ^ 64 = F.blanks.length := by
      rw [hid, Nat.sub_add_cancel hpos, Nat.mod_eq_of_lt (by omega)]
    obtain ⟨hid', hcap⟩ := id_subFilter ln ((F.last.id + 1) % 2 ^ 64)
      (subFilterCapacity F.last.capacity F.info.expansion ((F.last.id + 1) % 2 ^ 64))
      (subFilterErrorRate (F.last.errorRate.mul (F64.ofInt 2)) ((F.last.id + 1) % 2 ^ 64))
    refine h.concat hlast (hid'.trans hnext) (hcap.trans ?_)
    rw [hnext]
    rfl

theorem Chain.addSteps {items : List Bytes} {rs : List Int} (hsteps : AddSteps ln items F rs F') :
    Chain c F.info.expansion F.blanks →
      F'.info.expansion = F.info.expansion ∧ Chain c F'.info.expansion F'.blanks := by
  induction hsteps with
  | nil => exact fun h => ⟨rfl, h⟩
  | cons hstep _ ih =>
    intro h
    cases hstep with
    | old _ => exact ih h
    | new _ hadded =>
      obtain ⟨he, hc⟩ := ih (h.added hadded)
      exact ⟨he.trans hadded.expansion_eq, hc⟩

/-! ## Runs -/

/-- The capacity and the expansion that a command gives to a filter that it makes, unless
the filter cannot scale. -/
def Op.sizing : Op → Option (Nat × Int)
  | .reserve _ capacity expansion nonScaling =>
    if nonScaling then none else some (capacity, if expansion < 1 then defExp else expansion)
  | .insert args =>
    if args.nonScaling then none
    else some (if args.capacity = 0 then defCap else args.capacity,
      if args.expansion < 1 then defExp else args.expansion)
  | _ => some (defCap, defExp)

theorem subFilterCapacity_zero (hc : c < 2 ^ 64) (e : Int) : subFilterCapacity c e 0 = c := by
  unfold subFilterCapacity
  have hone : ((F64.ofInt e).powi (asI32 (0 : Nat))).toUnsigned (2 ^ 64 - 1) = 1 := by
    show (F64.ofInt 1).toUnsigned (2 ^ 64 - 1) = 1
    decide
  rw [hone, Nat.mul_one, Nat.mod_eq_of_lt hc]

theorem subFilterCapacity_one (c : Nat) {e : Nat} (he : e < 256) :
    subFilterCapacity c e 1 = c * e % 2 ^ 64 := by
  have hcast :
    ∀ e < 256, ((F64.ofInt (e : Nat)).powi (asI32 (1 : Nat))).toUnsigned (2 ^ 64 - 1) = e := by
    decide +kernel
  unfold subFilterCapacity
  rw [hcast e he]

theorem subFilterCapacity_expansion_one (hc : c < 2 ^ 64) (i : Nat) :
    subFilterCapacity c 1 i = c := by
  unfold subFilterCapacity
  have hone : (F64.ofInt 1).toUnsigned (2 ^ 64 - 1) = 1 := by decide
  rw [F64.powi_one, hone, Nat.mul_one, Nat.mod_eq_of_lt hc]

variable (ln) in
/-- The chain that a command starts, with the expansion cut to a byte. -/
theorem Op.chain_newFilter {op : Op} (h : op.Typed) (hs : op.sizing = some (c, e)) :
    c < 2 ^ 64 ∧ 1 ≤ e ∧ (op.newFilter ln h).info.expansion = (e % 256).toNat ∧
      Chain c (op.newFilter ln h).info.expansion (op.newFilter ln h).blanks := by
  have hchain : ∀ (m : BloomMeta) (err : F64) (x : Int), c < 2 ^ 64 →
      m.filters = [newSubFilter ln c err x 0] → Chain c m.expansion (m.filters.map (·.blank)) := by
    intro m err x hc hm
    rw [hm]
    obtain ⟨hid, hcap⟩ := id_subFilter ln 0 (subFilterCapacity c x 0) (subFilterErrorRate err 0)
    have hfirst : (newSubFilter ln c err x 0).capacity = c :=
      hcap.trans (subFilterCapacity_zero hc x)
    refine ⟨fun i f hf => ?_, fun f hf => ?_, fun i f g _ hg => ?_⟩
    · rw [List.map_singleton, List.getElem?_singleton] at hf
      split at hf
      · rename_i hi
        cases hf
        exact hid.trans hi.symm
      · cases hf
    · cases hf
      exact hfirst
    · cases hg
  have hexp : ∀ x : Int, 1 ≤ if x < 1 then defExp else x := by
    intro x
    split
    · decide
    · omega
  cases op with
  | reserve errorRate capacity expansion nonScaling =>
    cases nonScaling with
    | true => cases hs
    | false =>
      cases hs
      exact ⟨h, hexp _, rfl, hchain _ _ _ h rfl⟩
  | insert args =>
    obtain ⟨capacity, error, expansion, noCreate, nonScaling, items⟩ := args
    cases nonScaling with
    | true => cases hs
    | false =>
      cases hs
      have hc : (if capacity = 0 then defCap else capacity) < 2 ^ 64 := by
        split
        · decide
        · exact h
      exact ⟨hc, hexp _, rfl, hchain _ _ _ hc rfl⟩
  | _ =>
    cases hs
    exact ⟨by decide, by decide, rfl, hchain (defaultMeta ln) _ _ (by decide) rfl⟩

/-- The filter of a key is a chain with this first capacity and stored expansion. -/
def Sized (s : Store) (k : Bytes) (c e : Nat) : Prop :=
  ∃ C P F, Stored layout s C ∧ C k = some (P, F) ∧ F.info.expansion = e ∧ Chain c e F.blanks

/-- The runs of any commands. -/
def Free (h : History) (a : Action) : Prop := a.Sane h.store

theorem step_store {h' : History} (hstep : step ln h a = some h') :
    h'.store = a.after ln h.store := by
  unfold Bloom.step at hstep
  cases hout : (a.outcome ln h.store).out with
  | error e =>
    rw [hout] at hstep
    cases hstep
    rw [Action.after_of_error hout]
  | ok reply =>
    rw [hout] at hstep
    cases hstep
    rfl

theorem exists_stored (hr : Reach (step ln) Free ⟨∅, []⟩ h) : ∃ C, Stored layout h.store C := by
  refine hr.inv (I := fun h => ∃ C, Stored layout h.store C) ⟨_, stored_empty⟩ ?_
  rintro h a h' ⟨C, hC⟩ hsane hstep
  rw [step_store hstep]
  rcases Action.after_cases ln hsane hC with
    ⟨e, herr⟩ | ⟨-, hsame⟩ | ⟨P, F, F', rs, -, -, hnew⟩
  · rw [Action.after_of_error herr]
    exact ⟨C, hC⟩
  · exact ⟨C, hsame⟩
  · exact ⟨_, hnew⟩

/-- A command that makes a filter starts its chain. -/
theorem sized_of_made (hsane : a.Sane s) (hC : Stored layout s C)
    (habsent : metaAt s a.key = none) (hmade : metaAt (a.after ln s) a.key ≠ none)
    (hs : a.op.sizing = some (c, e)) : Sized (a.after ln s) a.key c (e % 256).toNat := by
  have hnone : C a.key = none := by
    cases hk : C a.key with
    | none => rfl
    | some PF =>
      rw [metaAt_stored hC hk] at habsent
      cases habsent
  rcases Action.after_cases ln hsane hC with
    ⟨e, herr⟩ | ⟨-, hsame⟩ | ⟨P, F, F', rs, hstart, hsteps, hnew⟩
  · rw [Action.after_of_error herr] at hmade
    exact absurd habsent hmade
  · exact absurd (metaAt_absent hsame ⟨_, _, rfl⟩ hnone) hmade
  · rcases hstart with hsome | ⟨-, htyped, rfl⟩
    · rw [hnone] at hsome
      cases hsome
    · obtain ⟨-, -, he, hchain⟩ := Op.chain_newFilter ln htyped hs
      obtain ⟨he', hchain'⟩ := Chain.addSteps hsteps hchain
      have hbyte : F'.info.expansion = (e % 256).toNat := he'.trans he
      exact ⟨_, P, F', hnew, Function.update_self .., hbyte, hbyte ▸ hchain'⟩

/-- **The chain goes on in every command.** -/
theorem Sized.after (hsane : a.Sane s) {e : Nat} (h : Sized s k c e) :
    Sized (a.after ln s) k c e := by
  obtain ⟨C, P, F, hC, hk, he, hchain⟩ := h
  rcases Action.after_cases ln hsane hC with
    ⟨e, herr⟩ | ⟨-, hsame⟩ | ⟨P', F₁, F', rs, hstart, hsteps, hnew⟩
  · rw [Action.after_of_error herr]
    exact ⟨C, P, F, hC, hk, he, hchain⟩
  · exact ⟨C, P, F, hsame, hk, he, hchain⟩
  · by_cases hkk : k = a.key
    · subst hkk
      rcases hstart with hsome | ⟨hnone, -⟩
      · rw [hk] at hsome
        cases hsome
        subst he
        obtain ⟨he', hchain'⟩ := Chain.addSteps hsteps hchain
        exact ⟨_, P, F', hnew, Function.update_self .., he', he' ▸ hchain'⟩
      · rw [hk] at hnone
        cases hnone
    · exact ⟨_, P, F, hnew, by rw [Function.update_of_ne hkk, hk], he, hchain⟩

/-! ## The closed form -/

theorem Chain.getElem {e : Nat} (h : Chain c e fs) (hc : c < 2 ^ 64) (he : e < 256)
    (hf : fs[i]? = some f) (hi : i ≤ 1 ∨ e = 1) (hfit : c * e ^ i < 2 ^ 64) :
    f.capacity = c * e ^ i := by
  induction i generalizing f with
  | zero => rw [h.first f hf, Nat.pow_zero, Nat.mul_one]
  | succ i ih =>
    obtain ⟨hlt, -⟩ := List.getElem?_eq_some_iff.mp hf
    obtain ⟨g, hg⟩ : ∃ g, fs[i]? = some g := ⟨_, List.getElem?_eq_getElem (by omega)⟩
    rw [h.next i g f hg hf]
    rcases hi with hi | rfl
    · obtain rfl : i = 0 := by omega
      rw [Nat.zero_add, Nat.pow_one] at hfit ⊢
      rw [h.first g hg, subFilterCapacity_one c he, Nat.mod_eq_of_lt hfit]
    · rw [Nat.one_pow, Nat.mul_one] at ih ⊢
      rw [ih hg (.inr rfl) hc]
      exact subFilterCapacity_expansion_one hc _

theorem Sized.getElem (h : Sized s k c (e % 256).toNat) (hc : c < 2 ^ 64) (he : 1 ≤ e)
    {m : BloomMeta} (hm : metaAt s k = some m)
    (hf : m.filters[i]? = some f) (hi : i = 0 ∨ e ≤ 255 ∧ (i = 1 ∨ e = 1))
    (hfit : c * e ^ i < 2 ^ 64) : (f.capacity : Int) = c * e ^ i := by
  obtain ⟨C, P, F, hC, hk, -, hchain⟩ := h
  rw [metaAt_stored hC hk] at hm
  cases hm
  have hblank : F.blanks[i]? = some f.blank := by
    rw [Filter.blanks, List.getElem?_map, hf]
    rfl
  rcases hi with rfl | ⟨hbyte, hi⟩
  · rw [pow_zero, mul_one]
    have hcap : f.capacity = c := hchain.first f.blank hblank
    rw [hcap]
  · obtain ⟨n, rfl⟩ := Int.eq_ofNat_of_zero_le (show 0 ≤ e by omega)
    have hn : (((n : Int) % 256).toNat) = n := by omega
    rw [hn] at hchain
    have hcap := hchain.getElem hc (by omega) hblank (by omega) (by exact_mod_cast hfit)
    exact_mod_cast hcap

/-- **The growth law.** -/
theorem capacity_of_grown {h h₁ h' : History} {a : Action}
    (hr : Reach (step ln) Free ⟨∅, []⟩ h) (hsane : Free h a) (hstep : step ln h a = some h₁)
    (habsent : metaAt h.store a.key = none) (hmade : metaAt h₁.store a.key ≠ none)
    (hr' : Reach (step ln) Free h₁ h') {e : Int} (hs : a.op.sizing = some (c, e)) {m : BloomMeta}
    (hm : metaAt h'.store a.key = some m) {i : Nat} {f : SubFilterMeta}
    (hf : m.filters[i]? = some f) (hi : i = 0 ∨ e ≤ 255 ∧ (i = 1 ∨ e = 1))
    (hfit : c * e ^ i < 2 ^ 64) : (f.capacity : Int) = c * e ^ i ∧
      ∀ (j : Nat) (g : SubFilterMeta), i = j + 1 → m.filters[j]? = some g →
        (f.capacity : Int) = g.capacity * e := by
  obtain ⟨C, hC⟩ := exists_stored hr
  rw [step_store hstep] at hmade
  have hsized : Sized h'.store a.key c (e % 256).toNat := by
    refine hr'.inv (I := fun h => Sized h.store a.key c (e % 256).toNat) ?_ ?_
    · rw [step_store hstep]
      exact sized_of_made hsane hC habsent hmade hs
    · intro h₂ a₂ h₃ hsized hsane₂ hstep₂
      rw [step_store hstep₂]
      exact hsized.after hsane₂
  obtain ⟨hc, he, -⟩ := Op.chain_newFilter ln hsane.typed hs
  have hcap := hsized.getElem hc he hm hf hi hfit
  refine ⟨hcap, fun j g hj hg => ?_⟩
  subst hj
  have hle : (c : Int) * e ^ j ≤ c * e ^ (j + 1) :=
    Int.mul_le_mul_of_nonneg_left (pow_le_pow_right₀ he (Nat.le_succ j)) (Int.natCast_nonneg c)
  rw [hcap, hsized.getElem hc he hm hg (by omega) (by omega), pow_succ, mul_assoc]

/-- Two sub-filters, of 1 and 2 items. -/
theorem capacity_of_grown_twice :
    ∃ h m f, run (step lnSample) ⟨∅, []⟩ [atRand 1 (.reserve defErr 1 2 false),
        atRand 2 (.madd [ascii "x", ascii "y"])] = some h ∧ metaAt h.store keyF = some m ∧
      m.filters[1]? = some f ∧ f.capacity = 2 := by
  have hfresh : idUnused ∅ { now := 1, rand := 1 } = true := by decide +kernel
  have hrun : (step lnSample ⟨∅, []⟩ (atRand 1 (.reserve defErr 1 2 false))).any (fun h =>
      (metaAt h.store keyF).isSome && idUnused h.store { now := 1, rand := 2 } &&
      (step lnSample h (atRand 2 (.madd [ascii "x", ascii "y"]))).any fun h' =>
        (metaAt h'.store keyF).any fun m => (m.filters[1]?).isSome) = true := by
    decide +kernel
  simp only [Option.any_eq_true, Bool.and_eq_true, Option.isSome_iff_exists] at hrun
  obtain ⟨h₁, hstep₁, ⟨⟨m₁, hm₁⟩, hfresh₁⟩, h₂, hstep₂, m, hm, f, hf⟩ := hrun
  have hsane₁ : Free ⟨∅, []⟩ (atRand 1 (.reserve defErr 1 2 false)) :=
    ⟨(by decide : 1 < 2 ^ 64), by decide, fun _ => hfresh⟩
  have hsane₂ : Free h₁ (atRand 2 (.madd [ascii "x", ascii "y"])) :=
    ⟨trivial, by decide, fun _ => hfresh₁⟩
  have hmade : metaAt h₁.store keyF ≠ none := by
    rw [hm₁]
    exact Option.some_ne_none m₁
  have hcap := (capacity_of_grown .start hsane₁ hstep₁ rfl hmade (.next .start hsane₂ hstep₂)
    (show (Op.reserve defErr 1 2 false).sizing = some (1, 2) from rfl) hm hf
    (.inr ⟨by decide, .inl rfl⟩) (by decide)).1
  refine ⟨h₂, m, f, by simp [run, hstep₁, hstep₂], hm, hf, ?_⟩
  exact_mod_cast hcap

/-! ## The third sub-filter -/

/-- The capacities of the sub-filters of a key. -/
def capacitiesAt (s : Store) (k : Bytes) : Option (List Nat) :=
  (metaAt s k).map fun m => m.filters.map (·.capacity)

/-- With capacity 1 and expansion 2 the third sub-filter has room for 8 items, and with
expansion 256 the second one for none. -/
theorem capacities_of_grown : (run (step lnSample) ⟨∅, []⟩ [atRand 1 (.reserve defErr 1 2 false),
        atRand 2 (.madd [ascii "a", ascii "b", ascii "c", ascii "d"])]).bind
        (fun h => capacitiesAt h.store keyF) = some [1, 2, 8] ∧
      (run (step lnSample) ⟨∅, []⟩ [atRand 1 (.reserve defErr 1 256 false),
        atRand 2 (.madd [ascii "a", ascii "b"])]).bind
        (fun h => capacitiesAt h.store keyF) = some [1, 0] := by
  decide +kernel

end Invar.Bloom
