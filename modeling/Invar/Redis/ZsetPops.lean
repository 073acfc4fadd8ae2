import Invar.Redis.ZsetRanges

/-!
# Pops

`ZPOPMIN` and `ZPOPMAX` cut off one end of the list of members. The single pops that the
blocking commands use are a second implementation; called again and again they give the same
members, for `ZPOPMAX` in the other order.
-/

namespace Invar.Zset

open StoreProg TxProg FiniteMap Ieee754 Requests Dispatch

/-- Single pops, one after the other. -/
def popMany (wantMin : Bool) (node : NodeRef) : Nat → TxProg (List MemberScore)
  | 0 => return []
  | n + 1 => do
    let e ← popOne wantMin node
    return e.toList ++ (← popMany wantMin node n)

/-! ## The order of the pops -/

/-- The members, those that are popped first in front. -/
def order (wantMin : Bool) (sc : ScoreMap) : List MemberScore :=
  if wantMin then ranked sc else (ranked sc).reverse

variable {wantMin : Bool} {sc : ScoreMap} {e : MemberScore} {es : List MemberScore} {n : Nat}

theorem head?_order (wantMin : Bool) (sc : ScoreMap) :
    (order wantMin sc).head? = if wantMin then (ranked sc).head? else (ranked sc).getLast? := by
  cases wantMin
  · exact List.head?_reverse
  · rfl

theorem length_order (wantMin : Bool) (sc : ScoreMap) : (order wantMin sc).length = sc.size := by
  cases wantMin
  · exact List.length_reverse.trans (length_ranked sc)
  · exact length_ranked sc

theorem mem_order : e ∈ order wantMin sc ↔ e ∈ ranked sc := by
  cases wantMin
  · exact List.mem_reverse
  · exact Iff.rfl

theorem nodup_order (wantMin : Bool) (sc : ScoreMap) :
    ((order wantMin sc).map (·.member)).Nodup := by
  cases wantMin
  · exact (List.map_reverse ▸ List.nodup_reverse.mpr (nodup_ranked sc))
  · exact nodup_ranked sc

/-- The first member is taken out of the order. -/
theorem order_erase (h : order wantMin sc = e :: es) : order wantMin (sc.erase e.member) = es := by
  have hnodup : ((e :: es).map (·.member)).Nodup := h ▸ nodup_order wantMin sc
  rw [List.map_cons, List.nodup_cons] at hnodup
  have hmem (e' : MemberScore) : e' ∈ e :: es → (e' ∈ es ↔ e'.member ∉ [e].map (·.member)) := by
    intro he'
    rw [List.map_singleton, List.mem_singleton]
    rcases List.mem_cons.mp he' with rfl | he'
    · exact ⟨fun hes => absurd (List.mem_map_of_mem hes) hnodup.1, fun hne => absurd rfl hne⟩
    · exact ⟨fun _ heq => hnodup.1 (heq ▸ List.mem_map_of_mem he'), fun _ => he'⟩
  rw [show sc.erase e.member = eraseAll ([e].map (·.member)) sc from rfl]
  cases wantMin with
  | true =>
    change ranked sc = e :: es at h
    refine ranked_eraseAll (h ▸ List.sublist_cons_self e es) fun e' he' => ?_
    exact hmem e' (h ▸ he')
  | false =>
    change (ranked sc).reverse = e :: es at h
    have hranked : ranked sc = es.reverse ++ [e] := by
      rw [← List.reverse_reverse (ranked sc), h, List.reverse_cons]
    show (ranked (eraseAll _ sc)).reverse = es
    rw [← List.reverse_reverse es]
    refine congrArg List.reverse
      (ranked_eraseAll (hranked ▸ List.sublist_append_left _ _) fun e' he' => ?_)
    rw [List.mem_reverse]
    refine hmem e' ?_
    rw [hranked, List.mem_append, List.mem_reverse, List.mem_singleton] at he'
    exact List.mem_cons.mpr he'.symm

/-- `ZPOPMIN` takes the members in the order of the pops, `ZPOPMAX` in the other one. -/
theorem popped_eq (n : Nat) (wantMin : Bool) (sc : ScoreMap) : popped n wantMin (ranked sc) =
      if wantMin then (order wantMin sc).take n else ((order wantMin sc).take n).reverse := by
  cases wantMin with
  | true =>
    show (ranked sc).take (min n (ranked sc).length) = (ranked sc).take n
    rw [← List.take_eq_take_min]
  | false =>
    show (ranked sc).drop ((ranked sc).length - min n (ranked sc).length) =
      ((ranked sc).reverse.take n).reverse
    rw [List.take_reverse, List.reverse_reverse]
    congr 1
    omega

/-! ## What the pops leave -/

variable {s s' : Store} {env : Nat → Tick} {k : Bytes} {o : Option (Place × SortedSet)}
  {R : Place × SortedSet} {A : Tick → Prop} {E : Post DbError} {t : Txn Bytes Row}
  {count : Option Nat}

theorem After.found_countOf {m : Nat} (hafter : After A s s' k (some R) sc (countOf m))
    (hm : sc.size = m) (h : Found A s k (some R)) (hpub : IsPublic k) (hsteady : Steady A s k) :
    ∃ o, Found A s' k o ∧ Steady A s' k ∧ scoresIn o = sc ∧
      o.map (·.2.count) = (countOf m).map (· % 2 ^ 32) := by
  obtain ⟨o, hfound, hsteady', hcount, hscores⟩ := hafter.found_again h hpub hsteady
  refine ⟨o, hfound, hsteady', ?_, hcount⟩
  by_cases hzero : m = 0
  · rw [hzero, show countOf 0 = none from rfl, Option.map_none, Option.map_eq_none_iff] at hcount
    rw [hcount, Std.ExtTreeMap.eq_empty_iff_size_eq_zero.mpr (hm.trans hzero)]
    rfl
  · refine hscores (.inr ?_)
    rw [countOf, if_neg hzero]
    rfl

/-- **Repeated single pops** take the members in order. -/
theorem wp_popMany {Q : Post (List MemberScore)} (h : Found A t.view k o)
    (hpub : IsPublic k) (hsteady : Steady A t.view k) (hQ : ∀ o' t', Found A t'.view k o' →
      scoresIn o' = without ((order wantMin (scoresIn o)).take n) (scoresIn o) →
      o'.map (·.2.count) = (if (order wantMin (scoresIn o)).take n = [] then o.map (·.2.count)
        else (countOf ((scoresIn o).size - ((order wantMin (scoresIn o)).take n).length)).map
          (· % 2 ^ 32)) →
      Q ((order wantMin (scoresIn o)).take n) t') : wp A (popMany wantMin (.new k) n) Q E t := by
  induction n generalizing o t Q with
  | zero => exact hQ o t h rfl rfl
  | succ n ih =>
    unfold popMany
    rw [wp_seq]
    refine h.wp_popOne hpub (.inl rfl) (fun hsize t' ht' => ?_) fun e he t' hafter => ?_
    · have hnil : order wantMin (scoresIn o) = [] := by
        rw [← List.length_eq_zero_iff, length_order, hsize]
      rw [wp_seq]
      refine ih (ht' ▸ h) (ht' ▸ hsteady) fun o' t'' hfound hscores hrec => ?_
      rw [hnil, List.take_nil] at hQ hscores hrec ⊢
      exact hQ o' t'' hfound hscores hrec
    · rw [← head?_order] at he
      obtain ⟨es, horder⟩ := List.head?_eq_some_iff.mp he
      have hlen := length_order wantMin (scoresIn o)
      rw [horder, List.length_cons] at hlen
      cases o with
      | none =>
        change es.length + 1 = 0 at hlen
        omega
      | some R =>
      have hmem : e ∈ ranked R.2.scores := by
        rw [← @mem_order wantMin, show order wantMin R.2.scores = e :: es from horder]
        exact List.mem_cons_self
      have hsize : (R.2.scores.erase e.member).size = R.2.scores.size - 1 :=
        size_erase_of_some (mem_ranked.mp hmem)
      obtain ⟨o₁, hfound, hsteady', hscores, hrec⟩ := hafter.found_countOf hsize h hpub hsteady
      have hrest : order wantMin (scoresIn o₁) = es := hscores ▸ order_erase horder
      rw [wp_seq]
      refine ih hfound hsteady' fun o' t'' hfound' hscores' hrec' => ?_
      rw [hrest] at hscores' hrec' ⊢
      rw [horder, List.take_succ_cons] at hQ
      refine hQ o' t'' hfound' ?_ ?_
      · rw [hscores', hscores]
        rfl
      · rw [hrec', if_neg (List.cons_ne_nil _ _), hrec, hscores, List.length_cons]
        by_cases hnil : es.take n = []
        · rw [if_pos hnil, hnil]
          rfl
        · rw [if_neg hnil, show ((scoresIn (some R)).erase e.member).size = _ from hsize]
          congr 2
          show R.2.scores.size - 1 - _ = R.2.scores.size - _
          omega

/-- What `ZPOPMIN` and `ZPOPMAX` leave is found again. -/
theorem Found.zpop (h : Found (answers env) s k (some R)) (hpub : IsPublic k)
    (hsteady : Steady (answers env) s k) (n : Nat) (wantMin : Bool) :
    (Op.zpop n wantMin).reply env s k =
        .ok (membersReply (popped n wantMin (ranked R.2.scores)) true) ∧
      ∃ o, Found (answers env) ((Op.zpop n wantMin).left env s k) k o ∧
        scoresIn o = without (popped n wantMin (ranked R.2.scores)) R.2.scores ∧
        o.map (·.2.count) =
          (countOf (R.2.scores.size - min n R.2.scores.size)).map (· % 2 ^ 32) := by
  have heff : (Op.zpop n wantMin).effect R.2.scores (some R.2.count) = .ok
      { reply := some (membersReply (popped n wantMin (ranked R.2.scores)) true)
        scores := without (popped n wantMin (ranked R.2.scores)) R.2.scores
        count := countOf (R.2.scores.size - min n R.2.scores.size) } := rfl
  obtain ⟨reply, hreply, hanswers, hafter⟩ := Op.reply_ok h hpub (by simp) heff
  have hsize := size_without (sublist_popped n wantMin (ranked R.2.scores))
  rw [length_popped, length_ranked] at hsize
  obtain ⟨o, hfound, -, hscores, hrec⟩ := hafter.found_countOf hsize h hpub hsteady
  rw [hreply, hanswers _ rfl]
  exact ⟨rfl, o, hfound, hscores, hrec⟩

theorem Found.popMany (h : Found (answers env) s k (some R)) (hpub : IsPublic k)
    (hsteady : Steady (answers env) s k) (n : Nat) (wantMin : Bool) :
    let es := (order wantMin R.2.scores).take n
    let run := exec (Zset.popMany wantMin (.new k) n) env { view := s }
    run.out = .ok es ∧ ∃ o, Found (answers env) run.txn.view k o ∧
      scoresIn o = without es R.2.scores ∧ o.map (·.2.count) = if es = [] then some R.2.count
        else (countOf (R.2.scores.size - es.length)).map (· % 2 ^ 32) := by
  intro es run
  have hwp : wp (answers env) (Zset.popMany wantMin (.new k) n)
      (fun es' t' => es' = es ∧ ∃ o, Found (answers env) t'.view k o ∧
        scoresIn o = without es R.2.scores ∧ o.map (·.2.count) = if es = [] then some R.2.count
          else (countOf (R.2.scores.size - es.length)).map (· % 2 ^ 32))
      (fun _ _ => False) { view := s } :=
    wp_popMany h hpub hsteady fun o' t' hfound hscores hrec => ⟨rfl, o', hfound, hscores, hrec⟩
  obtain ⟨_, hout, rfl, hleft⟩ := exec_ok_of_wp hwp env fun n => ⟨n, rfl⟩
  exact ⟨hout, hleft⟩

end Invar.Zset
