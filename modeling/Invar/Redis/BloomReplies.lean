import Invar.Redis.BloomRuns

/-!
# Replies of adds

`BF.ADD` probes the sub-filter that it would write to, `BF.EXISTS` probes all of them. The
two agree on an item that is in none, or in the one that both probe (`add_agrees_exists`).
An item of `BF.MADD` or `BF.INSERT` is compared with `BF.EXISTS` in the store that the items
before it leave.
-/

namespace Invar.Bloom

open StoreProg TxProg Ieee754 ByteBits Transition

/-! ## A command up to one of its items -/

/-- The command with its first `n` items. -/
def Op.upTo (n : Nat) : Op → Op
  | .add item => if n = 0 then .madd [] else .add item
  | .madd items => .madd (items.take n)
  | .insert args => .insert { args with items := args.items.take n }
  | op => op

/-- The reply for an item. -/
def itemReply (i : Nat) : RespValue → Option RespValue
  | .array (some rs) => rs[i]?
  | r => some r

variable (ln : F64 → F64)

/-- The adds of a command, before its reply. -/
def Op.start (k : Bytes) (items : List Bytes) : Op → TxProg (ElementPrefix × List RespValue)
  | .insert args => insertStart ln k { args with items := items }
  | _ => maddStart ln k items

def Op.finish (rs : List RespValue) : Op → RespValue
  | .add _ => rs.headD .nullBulk
  | _ => .array (some rs)

theorem add_eq (k item : Bytes) : Bloom.add ln k item =
    (maddStart ln k [item]).bind fun pr => pure (pr.2.headD .nullBulk) := by
  simp only [Bloom.add, maddStart, addAll, Prog.bind_eq, Prog.pure_eq, Prog.bind_assoc]
  rfl

/-- The commands that add items. -/
def Op.addsItems : Op → Bool
  | .add _ | .madd _ | .insert _ => true
  | _ => false

variable {op : Op} {f : SubFilterMeta} {i : Nat} {pr : ElementPrefix × List RespValue}
  {items : List Bytes}

theorem Op.run_eq (h : op.addsItems = true) (k : Bytes) :
    op.run ln k = (op.start ln k op.items).bind fun pr => pure (op.finish pr.2) := by
  cases op with
  | add item => exact add_eq ln k item
  | madd items => exact madd_eq ln k items
  | insert args => exact insert_eq ln k args
  | _ => cases h

theorem Op.run_upTo (h : op.addsItems = true) (k : Bytes) (n : Nat) :
    ∃ finish : List RespValue → RespValue, (op.upTo n).run ln k =
      (op.start ln k (op.items.take n)).bind fun pr => pure (finish pr.2) := by
  cases op with
  | add item =>
    cases n with
    | zero => exact ⟨fun rs => .array (some rs), madd_eq ln k []⟩
    | succ n =>
      refine ⟨fun rs => rs.headD .nullBulk, ?_⟩
      show Bloom.add ln k item = (maddStart ln k ([item].take (n + 1))).bind _
      rw [List.take_of_length_le (by simp), add_eq]
  | madd items => exact ⟨fun rs => .array (some rs), madd_eq ln k (items.take n)⟩
  | insert args =>
    exact ⟨fun rs => .array (some rs), insert_eq ln k { args with items := args.items.take n }⟩
  | _ => cases h

theorem addAll_append (k : Bytes) (p : ElementPrefix) (xs ys : List Bytes) :
    addAll ln k p (xs ++ ys) =
      (addAll ln k p xs).bind fun rs => (addAll ln k p ys).bind fun rs' => pure (rs ++ rs') := by
  induction xs with
  | nil =>
    show addAll ln k p ys = (addAll ln k p ys).bind fun rs' => .pure rs'
    rw [Prog.bind_pure]
  | cons x xs ih =>
    simp only [List.cons_append, addAll, ih, Prog.bind_eq, Prog.pure_eq, Prog.bind_assoc]
    rfl

/-- The adds of more items continue those of the first ones. -/
theorem Op.start_append (k : Bytes) (xs ys : List Bytes) (op : Op) :
    op.start ln k (xs ++ ys) = (op.start ln k xs).bind fun pr =>
      (addAll ln k pr.1 ys).bind fun rs => pure (pr.1, pr.2 ++ rs) := by
  have hmadd : maddStart ln k (xs ++ ys) = (maddStart ln k xs).bind fun pr =>
      (addAll ln k pr.1 ys).bind fun rs => pure (pr.1, pr.2 ++ rs) := by
    simp only [maddStart, addAll_append, Prog.bind_eq, Prog.pure_eq, Prog.bind_assoc]
    rfl
  cases op with
  | insert args =>
    show insertStart ln k { args with items := xs ++ ys } =
      (insertStart ln k { args with items := xs }).bind _
    unfold insertStart
    simp only [addAll_append, Prog.bind_eq, Prog.pure_eq, Prog.bind_assoc]
    congr 1
    funext p
    congr 1
    funext m
    cases m with
    | some m =>
      show (addAll ln k p xs).bind _ = ((addAll ln k p xs).bind _).bind _
      simp only [Prog.bind_assoc]
      rfl
    | none =>
      cases args.noCreate with
      | true => rfl
      | false =>
        show (writeMeta k _ p).bind _ = ((writeMeta k _ p).bind _).bind _
        simp only [Prog.bind_assoc]
        rfl
  | _ => exact hmadd

/-! ## The store before an item -/

/-- The filter of the key after some adds, or a key that still has none. -/
inductive Reached (C : Catalog Filter) (k : Bytes) (P : Place) (s : Store) : Prop
  | vacant : C k = none → Vacant s C k P → Stored layout s C → Reached C k P s
  | filter {op : Op} {items : List Bytes} {F F' : Filter} {rs : List Int} :
      op.StartsFrom ln C k P F → AddSteps ln items F rs F' →
      Stored layout s (Function.update C k (some (P, F'))) → Reached C k P s

variable {ln} in
theorem AddSteps.length {F F' : Filter} {rs : List Int} (h : AddSteps ln items F rs F') :
    rs.length = items.length := by
  induction h with
  | nil => rfl
  | cons _ _ ih => rw [List.length_cons, List.length_cons, ih]

variable {A : Tick → Prop} {t : Txn Bytes Row} {C : Catalog Filter} {k item : Bytes} {P : Place}
  {s : Store} {F F' : Filter} {r : Int}

/-- The commands that may fail: `BF.INSERT` with `NOCREATE`, and all in a db below 0. -/
def Op.MayFail (db : Int) (op : Op) : Prop := db < 0 ∨ ∃ args, op = .insert args

theorem wp_start {db : Int} {name : Bytes} (h : Stored layout t.view C) (hdb : db < 2 ^ 31)
    (hk : k = publicKey db name) (hfresh : DrawsFresh C A) (htyped : op.Typed) :
    wp A (op.start ln k items) (fun pr t' => ∃ P, pr.1 = P.element ∧ pr.2.length = items.length ∧
      Reached ln C k P t'.view) (fun _ _ => op.MayFail db) t := by
  have hmadd : wp A (maddStart ln k items) (fun pr t' => ∃ P, pr.1 = P.element ∧
      pr.2.length = items.length ∧ Reached ln C k P t'.view) (fun _ _ => op.MayFail db) t := by
    refine wp_maddStart ln h hdb hk hfresh (fun P t' ht' hv hnil => ?_)
      (fun P F F' rs t' hstart hadds ht' => ?_) fun hneg _ _ => .inl hneg
    · exact ⟨P, rfl, by rw [hnil]; rfl, .vacant hv.1 (ht' ▸ hv.2) (ht' ▸ h)⟩
    · exact ⟨P, rfl, by rw [List.length_map, hadds.length], .filter hstart hadds ht'⟩
  cases op with
  | insert args =>
    refine wp_mono (wp_insertStart ln h hdb hk hfresh
      (show (Op.insert { args with items := items }).Typed from htyped)
      fun P F F' rs t' hstart hadds ht' => ?_) (fun _ _ h => h) fun _ _ _ => .inr ⟨args, rfl⟩
    exact ⟨P, rfl, by rw [List.length_map, hadds.length], .filter hstart hadds ht'⟩
  | _ => exact hmadd

/-- The sub-filter that an add looks at, if it is there before. -/
def BloomMeta.probed (m : BloomMeta) : Option SubFilterMeta :=
  if m.grows then none else m.filters.getLast?

/-- A bit in the stored pages. -/
def bitStored (s : Store) (p : ElementPrefix) (id pos : Nat) : Bool :=
  bitAt ((s[pageKey p.bytes id (pos / pageBits)]?.map (·.value)).getD (List.replicate pageSize 0))
    (pos % pageBits)

def itemStored (s : Store) (p : ElementPrefix) (item : Bytes) (f : SubFilterMeta) : Bool :=
  (positions item f).all (bitStored s p f.id)

/-- **The condition for an item.** The filter can still count its sub-filters, and if one of
them has the item then so does the one that an add looks at. -/
def Undivided (s : Store) (k item : Bytes) : Prop :=
  ∀ row ∈ s[k]?, ∀ p ∈ (prefixOf row (privateKey k)).toOption, ∀ m ∈ metaAt s k,
    m.full = false ∧ (m.filters.any (itemStored s p item) = true →
      m.probed.any (itemStored s p item) = true)

instance (s : Store) (k item : Bytes) : Decidable (Undivided s k item) := by
  unfold Undivided
  infer_instance

theorem itemStored_eq (h : Region s P F.pages) (item : Bytes) (f : SubFilterMeta) :
    itemStored s P.element item f = hasItem F.pages item f := by
  have hbit (pos : Nat) : bitStored s P.element f.id pos = bitOf F.pages f.id pos := by
    unfold bitStored bitOf pageAt
    rw [pageKey_eq, show P.element.bytes = P.bytes from rfl, h, cellsOf_page]
    cases F.pages f.id (pos / pageBits) <;> rfl
  unfold itemStored hasItem
  congr 1
  funext pos
  exact hbit pos

/-- On such an item the reply of an add is the opposite of `BF.EXISTS`. -/
theorem AddStep.agrees (hborn : Born F)
    (hprobed : F.answers item = true → F.info.probed.any (hasItem F.pages item) = true)
    (hstep : AddStep ln item F r F') :
    r = (if F.answers item then 0 else 1) ∧ (F.answers item = true → F' = F) := by
  have hanswers : F.answers item = hasItem F.pages item (F.target ln) := by
    unfold BloomMeta.probed at hprobed
    cases hg : F.info.grows with
    | true =>
      rw [hg, if_pos rfl] at hprobed
      rw [hborn.hasItem_next hg]
      exact Bool.eq_false_iff.mpr fun hhere => Bool.false_ne_true (hprobed hhere)
    | false =>
      rw [hg, if_neg Bool.false_ne_true, List.getLast?_eq_some_getLast F.nonempty] at hprobed
      rw [Filter.target_of_not_grows hg, Bool.eq_iff_iff]
      exact ⟨hprobed, fun hlast => List.any_eq_true.mpr ⟨F.last, List.getLast_mem _, hlast⟩⟩
  rw [hanswers]
  cases hstep with
  | old hitem =>
    rw [hitem]
    exact ⟨rfl, fun _ => rfl⟩
  | new hitem _ =>
    rw [hitem]
    exact ⟨rfl, fun h => absurd h Bool.false_ne_true⟩

theorem hasItem_noPages (item : Bytes) (h : f.Valid) :
    hasItem (fun _ _ => none) item f = false := by
  obtain ⟨q, hq⟩ := List.exists_mem_of_ne_nil _ (positions_ne_nil item h)
  unfold hasItem
  rw [List.all_eq_false]
  refine ⟨q, hq, ?_⟩
  rw [bitOf_noPages]
  exact Bool.false_ne_true

/-- The counts of the sub-filters of a key. -/
def countsAt (s : Store) (k : Bytes) : Option (List Nat) :=
  (metaAt s k).map fun m => m.filters.map (·.inserted)

/-- What the reply of an add has to do with `BF.EXISTS` in the store before it. -/
structure Agrees (k item : Bytes) (s s' : Store) (r : Int) (here : Bool) : Prop where
  exists_eq :
    ∀ env, (exec ((Op.exists_ item).run ln k) env { view := s }).out = .ok (boolReply here)
  reply_eq : r = if here then 0 else 1
  counts_eq : here = true → countsAt s' k = countsAt s k

/-- **One add.** -/
theorem Reached.wp_addOne (h : Reached ln C k P t.view)
    (hborn : ∀ k P F, C k = some (P, F) → Born F) (hitem : Undivided t.view k item) :
    wp A (addOne ln k P.element item) (fun r t' => ∃ here, Agrees ln k item t.view t'.view r here)
      (fun _ _ => True) t := by
  cases h with
  | vacant hk hv hC =>
    refine wp_addOne_vacant ln hC hk hv fun r F' t' hstep _ => ?_
    refine ⟨false, out_exists_absent hC hv.owns.isPublic hk, ?_,
      fun h => absurd h Bool.false_ne_true⟩
    have hnone :
      ∀ f ∈ (Filter.default ln).info.filters, hasItem (Filter.default ln).pages item f = false :=
      fun f hf => hasItem_noPages item ((Filter.default ln).storable.valid f hf)
    have hanswers : (Filter.default ln).answers item = false :=
      List.any_eq_false.mpr fun f hf => by rw [hnone f hf]; exact Bool.false_ne_true
    have hborn' : Born (Filter.default ln) := @Op.born_newFilter ln (.add item) trivial
    have hagrees := AddStep.agrees ln hborn' (fun h => by rw [hanswers] at h; cases h) hstep
    rw [hanswers] at hagrees
    exact hagrees.1
  | @filter op items F F' rs hstart hsteps hC =>
    have hk : Function.update C k (some (P, F')) k = some (P, F') := Function.update_self ..
    obtain ⟨row, hrow, -, hsent⟩ := hC.isSentinel hk
    have hplace : (prefixOf row (privateKey k)).toOption = some P.element := by
      rw [hsent.place_eq]
      rfl
    obtain ⟨hfull, hprobed⟩ := hitem row hrow _ hplace _ (metaAt_stored hC hk)
    rw [funext (itemStored_eq (region_of_stored hC hk) item)] at hprobed
    have hbornF' := (hsteps.born hfull (hstart.born hborn)).1
    refine Bloom.wp_addOne ln hC hk fun r F₂ t' hstep ht' => ?_
    obtain ⟨hr, hsame⟩ := AddStep.agrees ln hbornF' hprobed hstep
    refine ⟨F'.answers item, out_exists hC hk, hr, fun hhere => ?_⟩
    rw [countsAt, countsAt, metaAt_stored ht' (Function.update_self ..), metaAt_stored hC hk,
      hsame hhere]

/-- The store after the first items of a command. -/
def Action.storeAt (ln : F64 → F64) (s : Store) (a : Action) (n : Nat) : Store :=
  (exec ((a.op.upTo n).run ln a.key) a.env { view := s }).txn.view

theorem addsItems_of_items (h : op.items[i]? = some item) : op.addsItems = true := by
  cases op with
  | add | madd | insert => rfl
  | _ => cases h

/-- The parts of the adds of a command around one of its items. -/
theorem exec_start_item {env : Nat → Tick} {xs ys : List Bytes}
    (h : (exec (op.start ln k (xs ++ item :: ys)) env t).out = .ok pr) :
    ∃ pr₁ r rs, (exec (op.start ln k xs) env t).out = .ok pr₁ ∧
      (exec (addOne ln k pr₁.1 item) (exec (op.start ln k xs) env t).env
        (exec (op.start ln k xs) env t).txn).out = .ok r ∧
      (exec (op.start ln k (xs ++ [item])) env t).out = .ok (pr₁.1, pr₁.2 ++ [.integer r]) ∧
      (exec (op.start ln k (xs ++ [item])) env t).txn =
        (exec (addOne ln k pr₁.1 item) (exec (op.start ln k xs) env t).env
          (exec (op.start ln k xs) env t).txn).txn ∧ pr.2 = pr₁.2 ++ .integer r :: rs := by
  rw [Op.start_append] at h
  obtain ⟨pr₁, hpr₁, heq⟩ := exec_bind_ok h
  rw [heq] at h
  obtain ⟨rs', hrs', heq'⟩ := exec_bind_ok h
  rw [heq'] at h
  unfold addAll at hrs'
  rw [Prog.bind_eq] at hrs'
  obtain ⟨r, hr, heqr⟩ := exec_bind_ok hrs'
  rw [heqr, Prog.bind_eq] at hrs'
  obtain ⟨rs, hrs, heqrs⟩ := exec_bind_ok hrs'
  rw [heqrs] at hrs'
  cases hrs'
  cases h
  have hlast : exec (op.start ln k (xs ++ [item])) env t =
      { exec (addOne ln k pr₁.1 item) (exec (op.start ln k xs) env t).env
          (exec (op.start ln k xs) env t).txn with out := .ok (pr₁.1, pr₁.2 ++ [.integer r]) } := by
    rw [Op.start_append, exec_bind, Run.andThen, hpr₁]
    simp only [exec_bind, Run.andThen, addAll, Prog.bind_eq, hr]
    rfl
  rw [hlast]
  exact ⟨pr₁, r, rs, hpr₁, hr, rfl, rfl, rfl⟩

theorem Action.storeAt_eq {a : Action} (hadds : a.op.addsItems = true) {n : Nat}
    (h : (exec (a.op.start ln a.key (a.op.items.take n)) a.env { view := s }).out = .ok pr) :
    a.storeAt ln s n =
      (exec (a.op.start ln a.key (a.op.items.take n)) a.env { view := s }).txn.view := by
  obtain ⟨finish, hrun⟩ := Op.run_upTo ln hadds a.key n
  rw [Action.storeAt, hrun, exec_bind, Run.andThen, h]
  rfl

theorem itemReply_finish (hi : i < op.items.length) {rs : List RespValue}
    (hlen : rs.length = i) (reply : RespValue) (hreply : ∀ xs, reply ≠ .array xs)
    (rest : List RespValue) : itemReply i (op.finish (rs ++ reply :: rest)) = some reply := by
  have harray : itemReply i (.array (some (rs ++ reply :: rest))) = some reply := by
    show (rs ++ reply :: rest)[i]? = some reply
    rw [List.getElem?_append_right (by omega), hlen, Nat.sub_self]
    rfl
  cases op with
  | add item =>
    have hzero : rs = [] := List.eq_nil_of_length_eq_zero (by simp [Op.items] at hi; omega)
    rw [hzero]
    show itemReply i reply = some reply
    unfold itemReply
    split
    · exact absurd rfl (hreply _)
    · rfl
  | _ => exact harray

theorem Answered.out_start {h : History} (hC : Answered h C) {a : Action} (hsane : a.Sane h.store)
    (items : List Bytes) :
    let r := exec (a.op.start ln a.key items) a.env { view := h.store }
    (∀ pr, r.out = .ok pr → ∃ P, pr.1 = P.element ∧ pr.2.length = items.length ∧
      Reached ln C a.key P r.txn.view) ∧ ∀ e, r.out = .error e → a.op.MayFail a.db := by
  have hfresh : DrawsFresh C fun x => ∃ n, a.env n = x := by
    refine hC.filters.stored.drawsFresh ?_
    rintro _ ⟨n, rfl⟩
    exact hsane.fresh n
  exact exec_of_wp (wp_start ln hC.filters.stored hsane.db_lt rfl hfresh hsane.typed)
    fun n => ⟨n, rfl⟩

/-- **`BF.ADD` and `BF.EXISTS` agree**, for each item of a command. -/
theorem add_agrees_exists {h : History} (hr : Reach (step ln) (Meets ln) ⟨∅, []⟩ h) {a : Action}
    (hsane : a.Sane h.store)
    (hout : a.op.MayFail a.db → ∃ reply, (a.outcome ln h.store).out = .ok reply)
    {i : Nat} (hi : a.op.items[i]? = some item)
    (hitem : Undivided (a.storeAt ln h.store i) a.key item) :
    ∃ reply r here, (a.outcome ln h.store).out = .ok reply ∧ itemReply i reply = some (.integer r) ∧
      Agrees ln a.key item (a.storeAt ln h.store i) (a.storeAt ln h.store (i + 1)) r here := by
  obtain ⟨C, hC⟩ := exists_answered hr
  have hadds := addsItems_of_items hi
  obtain ⟨hlt, rfl⟩ := List.getElem?_eq_some_iff.mp hi
  -- the command goes through the stores before and after the item
  have hsplit : a.op.items = a.op.items.take i ++ a.op.items[i] :: a.op.items.drop (i + 1) := by
    rw [← List.drop_eq_getElem_cons hlt, List.take_append_drop]
  have htake : a.op.items.take (i + 1) = a.op.items.take i ++ [a.op.items[i]] :=
    List.take_succ_eq_append_getElem hlt
  have hrun : (a.outcome ln h.store).out = ((exec (a.op.start ln a.key a.op.items) a.env
      { view := h.store }).andThen fun pr => pure (a.op.finish pr.2)).out := by
    rw [Action.outcome, Op.run_eq ln hadds, exec_bind]
  unfold Run.andThen at hrun
  obtain ⟨pr, hpr⟩ : ∃ pr, (exec (a.op.start ln a.key a.op.items) a.env
      { view := h.store }).out = .ok pr := by
    cases hpr : (exec (a.op.start ln a.key a.op.items) a.env { view := h.store }).out with
    | ok pr => exact ⟨pr, rfl⟩
    | error e =>
      obtain ⟨reply, hreply⟩ := hout ((hC.out_start ln hsane _).2 e hpr)
      rw [hrun, hpr] at hreply
      cases hreply
  rw [hpr] at hrun
  rw [hsplit] at hpr
  obtain ⟨pr₁, r, rs, hpr₁, hr₁, hpr₂, htxn, hrs⟩ := exec_start_item ln hpr
  obtain ⟨P, hP, hlen, hreached⟩ := (hC.out_start ln hsane _).1 pr₁ hpr₁
  have hbefore : a.storeAt ln h.store i =
      (exec (a.op.start ln a.key (a.op.items.take i)) a.env { view := h.store }).txn.view :=
    Action.storeAt_eq ln hadds hpr₁
  rw [← htake] at hpr₂ htxn
  rw [hbefore] at hitem ⊢
  rw [Action.storeAt_eq ln hadds hpr₂, htxn]
  -- and its add to the filter in the first one is as one add is
  rw [hP] at hr₁ ⊢
  obtain ⟨here, hagrees⟩ := (exec_of_wp (A := fun _ => True) (E := fun _ _ => True)
    (hreached.wp_addOne ln hC.filters.born hitem) fun _ => trivial).1 r hr₁
  refine ⟨_, r, here, hrun, ?_, hagrees⟩
  rw [hrs]
  refine itemReply_finish hlt ?_ _ (fun xs => RespValue.noConfusion) rs
  rw [hlen, List.length_take, Nat.min_eq_left (Nat.le_of_lt hlt)]

/-- An item of the second sub-filter, and one that is in none. -/
theorem add_agrees_exists_grown :
    ∃ h, run (step lnSample) ⟨∅, []⟩ [atRand 1 (.reserve defErr 1 2 false),
        atRand 2 (.madd [ascii "x", ascii "y"])] = some h ∧
      let a := atRand 3 (.madd [ascii "y", ascii "z"])
      Agrees lnSample keyF (ascii "y") (a.storeAt lnSample h.store 0) (a.storeAt lnSample h.store 1)
        0 true ∧
      Agrees lnSample keyF (ascii "z") (a.storeAt lnSample h.store 1) (a.storeAt lnSample h.store 2)
        1 false := by
  let a := atRand 3 (.madd [ascii "y", ascii "z"])
  obtain ⟨h, hrun, hreach, hp⟩ := reach_grown (fun h => idUnused h.store { now := 1, rand := 3 } &&
    decide ((a.outcome lnSample h.store).out = .ok (.array (some [.integer 0, .integer 1])) ∧
      Undivided (a.storeAt lnSample h.store 0) keyF (ascii "y") ∧
      Undivided (a.storeAt lnSample h.store 1) keyF (ascii "z"))) (by decide +kernel)
  simp only [Bool.and_eq_true, decide_eq_true_eq] at hp
  obtain ⟨hfresh, hout, hy, hz⟩ := hp
  have hsane : a.Sane h.store := ⟨trivial, by decide, fun _ => hfresh⟩
  have hsucceeds : a.op.MayFail a.db → ∃ reply, (a.outcome lnSample h.store).out = .ok reply := by
    rintro (hneg | ⟨args, ⟨⟩⟩)
    exact absurd hneg (by decide)
  refine ⟨h, hrun, ?_, ?_⟩
  · obtain ⟨reply, r, here, hreply, hr, hagrees⟩ :=
      add_agrees_exists lnSample hreach hsane hsucceeds (i := 0) rfl hy
    cases hout.symm.trans hreply
    cases hr
    cases here with
    | true => exact hagrees
    | false => exact absurd hagrees.reply_eq (by decide)
  · obtain ⟨reply, r, here, hreply, hr, hagrees⟩ :=
      add_agrees_exists lnSample hreach hsane hsucceeds (i := 1) rfl hz
    cases hout.symm.trans hreply
    cases hr
    cases here with
    | false => exact hagrees
    | true => exact absurd hagrees.reply_eq (by decide)

/-! ## An item of a full sub-filter -/

/-- A second `BF.ADD` of an item whose sub-filter is full adds it to a new one. -/
theorem added_again : ∃ h, run (step lnSample) ⟨∅, []⟩ [atRand 1 (.reserve defErr 1 2 false),
        atRand 2 (.add (ascii "a"))] = some h ∧
      (exec ((Op.exists_ (ascii "a")).run lnSample keyF) (fun _ => { now := 1 })
        { view := h.store }).out = .ok (.integer 1) ∧
      ((atRand 3 (.add (ascii "a"))).outcome lnSample h.store).out = .ok (.integer 1) ∧
      countsAt h.store keyF = some [1] ∧
      countsAt ((atRand 3 (.add (ascii "a"))).after lnSample h.store) keyF = some [1, 1] := by
  have hrun : (run (step lnSample) ⟨∅, []⟩ [atRand 1 (.reserve defErr 1 2 false),
      atRand 2 (.add (ascii "a"))]).any (fun h =>
        decide ((exec ((Op.exists_ (ascii "a")).run lnSample keyF) (fun _ => { now := 1 })
          { view := h.store }).out = .ok (.integer 1)) &&
        (decide (((atRand 3 (.add (ascii "a"))).outcome lnSample h.store).out = .ok (.integer 1)) &&
        (decide (countsAt h.store keyF = some [1]) &&
        decide (countsAt ((atRand 3 (.add (ascii "a"))).after lnSample h.store) keyF =
          some [1, 1])))) = true := by
    decide +kernel
  simpa only [Option.any_eq_true, Bool.and_eq_true, decide_eq_true_eq] using hrun

end Invar.Bloom
