import Mathlib.Computability.Language

/-!
# Glob languages

A glob is a sequence of steps. A `star` takes any run of symbols, and every other step
takes one symbol of a set. A matcher that tries the rest of a glob at later and later
positions may stop at the first position that is `Hopeless`.
-/

namespace Glob

variable {α : Type}

inductive Step (α : Type) where
  | star
  | one (p : α → Bool)

def Step.language : Step α → Language α
  | star => {_w | True}
  | one p => {w | ∃ a, p a = true ∧ w = [a]}

def language (steps : List (Step α)) : Language α :=
  (steps.map Step.language).prod

variable {steps : List (Step α)} {p : α → Bool} {a : α} {w u : List α}

theorem mem_language_star : w ∈ language (.star :: steps) ↔ ∃ u, u <:+ w ∧ u ∈ language steps := by
  rw [language, List.map_cons, List.prod_cons, Language.mem_mul]
  constructor
  · rintro ⟨v, -, u, hu, rfl⟩
    exact ⟨u, List.suffix_append v u, hu⟩
  · rintro ⟨u, ⟨v, rfl⟩, hu⟩
    exact ⟨v, trivial, u, hu, rfl⟩

theorem mem_language_one :
    w ∈ language (.one p :: steps) ↔ ∃ a u, w = a :: u ∧ p a = true ∧ u ∈ language steps := by
  rw [language, List.map_cons, List.prod_cons, Language.mem_mul]
  constructor
  · rintro ⟨v, ⟨a, ha, rfl⟩, u, hu, rfl⟩
    exact ⟨a, u, rfl, ha, hu⟩
  · rintro ⟨a, u, rfl, ha, hu⟩
    exact ⟨[a], ⟨a, ha, rfl⟩, u, hu, rfl⟩

theorem nil_mem_language_star : [] ∈ language (.star :: steps) ↔ [] ∈ language steps := by
  rw [mem_language_star]
  constructor
  · rintro ⟨u, hu, hmem⟩
    rwa [List.eq_nil_of_suffix_nil hu] at hmem
  · intro hmem
    exact ⟨[], List.suffix_refl _, hmem⟩

/-- A `star` takes nothing, or the first symbol and more. -/
theorem cons_mem_language_star : a :: w ∈ language (.star :: steps) ↔
      a :: w ∈ language steps ∨ w ∈ language (.star :: steps) := by
  simp only [mem_language_star, List.suffix_cons_iff]
  constructor
  · rintro ⟨u, rfl | hu, hmem⟩
    · exact .inl hmem
    · exact .inr ⟨u, hu, hmem⟩
  · rintro (hmem | ⟨u, hu, hmem⟩)
    · exact ⟨a :: w, .inl rfl, hmem⟩
    · exact ⟨u, .inr hu, hmem⟩

@[simp] theorem nil_notMem_language_one : [] ∉ language (.one p :: steps) := by
  rw [mem_language_one]
  rintro ⟨a, u, h, -⟩
  cases h

@[simp] theorem cons_mem_language_one :
    a :: w ∈ language (.one p :: steps) ↔ p a = true ∧ w ∈ language steps := by
  rw [mem_language_one]
  constructor
  · rintro ⟨b, u, h, hb, hu⟩
    cases h
    exact ⟨hb, hu⟩
  · rintro ⟨ha, hw⟩
    exact ⟨a, w, rfl, ha, hw⟩

/-! ## Pruning -/

/-- The steps before a `star` take a symbol each, so that the rest after the `star` is
known to match nothing at or after the place where a match of it could begin. -/
def Hopeless (steps : List (Step α)) (w : List α) : Prop :=
  ∃ front rest, steps = front ++ .star :: rest ∧ .star ∉ front ∧
    ∀ u, u <:+ w.drop front.length → u ∉ language rest

theorem Hopeless.star (h : w ∉ language (.star :: steps)) : Hopeless (.star :: steps) w :=
  ⟨[], steps, rfl, List.not_mem_nil, fun u hu hmem => h (mem_language_star.mpr ⟨u, hu, hmem⟩)⟩

theorem Hopeless.one (h : Hopeless steps w) : Hopeless (.one p :: steps) (a :: w) := by
  obtain ⟨front, rest, rfl, hfront, hrest⟩ := h
  refine ⟨.one p :: front, rest, rfl, ?_, hrest⟩
  intro hmem
  rcases List.mem_cons.mp hmem with h | h
  · cases h
  · exact hfront h

/-- Beginning later does not help. -/
theorem Hopeless.notMem (h : Hopeless steps w) (hu : u <:+ w) : u ∉ language steps := by
  obtain ⟨front, rest, rfl, hfront, hrest⟩ := h
  induction front generalizing w u with
  | nil =>
    rw [List.nil_append, mem_language_star]
    rintro ⟨v, hv, hmem⟩
    exact hrest v (hv.trans hu) hmem
  | cons step front ih =>
    cases step with
    | star => exact absurd List.mem_cons_self hfront
    | one p =>
      rw [List.cons_append, mem_language_one]
      rintro ⟨a, v, rfl, -, hv⟩
      cases w with
      | nil => exact absurd (List.eq_nil_of_suffix_nil hu) (List.cons_ne_nil a v)
      | cons b w =>
        -- The tails of `a :: v` and `b :: w` are in the same relation.
        have htail : v <:+ w := by
          rcases List.suffix_cons_iff.mp hu with h | h
          · cases h
            exact List.suffix_refl v
          · exact (List.suffix_cons a v).trans h
        exact ih htail (fun hmem => hfront (List.mem_cons_of_mem _ hmem)) hrest hv

/-- The answer of a matcher with a flag that says that no later position can match. -/
structure Answers (steps : List (Step α)) (w : List α) (r : Bool × Bool) : Prop where
  found_iff : r.1 = true ↔ w ∈ language steps
  hopeless : r.2 = true → r.1 = false ∧ Hopeless steps w

theorem Answers.of_false (h : w ∉ language steps) : Answers steps w (false, false) :=
  ⟨by simp [h], fun h => absurd h Bool.false_ne_true⟩

theorem Answers.of_true (h : w ∈ language steps) : Answers steps w (true, false) :=
  ⟨by simp [h], fun h => absurd h Bool.false_ne_true⟩

variable {r : Bool × Bool}

/-- For a glob that begins with a `star`, every failure is final. -/
theorem Answers.star (h : r.1 = true ↔ w ∈ language (.star :: steps))
    (hskip : r.2 = true → r.1 = false) : Answers (.star :: steps) w r := by
  refine ⟨h, fun hr => ⟨hskip hr, Hopeless.star ?_⟩⟩
  rw [← h, hskip hr]
  exact Bool.false_ne_true

theorem Answers.one (h : Answers steps w r) (ha : p a = true) :
    Answers (.one p :: steps) (a :: w) r := by
  refine ⟨?_, ?_⟩
  · rw [h.found_iff, cons_mem_language_one]
    simp [ha]
  · intro hskip
    exact ⟨(h.hopeless hskip).1, (h.hopeless hskip).2.one⟩

end Glob
