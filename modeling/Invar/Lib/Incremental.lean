import Mathlib.Data.List.Basic

/-!
# Incremental decoders

A decoder with state `σ` looks at the items `β` that it has buffered and takes
rounds: a round waits for more input, fails, or consumes some of the buffer and
goes on, possibly with an output. `next` runs rounds up to the next output,
`outputs` up to the point where the decoder waits or fails, and `feed` hands it
one chunk of input.

`feedAll_eq` is the rule for chunks: if a round that goes on does so in the same
way with more input behind it, then how the input is cut does not matter. A failure
may depend on the input that follows it, unless a condition `ok` on the whole input
rules that out.
-/

namespace Incremental

variable {σ β γ ε : Type}

inductive Round (σ β γ ε : Type) where
  | wait
  | fail (e : ε)
  | go (out : Option γ) (s : σ) (rest : List β)

/-- The same round with more input behind what it leaves. -/
def Round.extend (r : Round σ β γ ε) (chunk : List β) : Round σ β γ ε :=
  match r with
  | .wait => .wait
  | .fail e => .fail e
  | .go out s rest => .go out s (rest ++ chunk)

/-- Where a decoder stands when it stops. -/
inductive Stop (σ β ε : Type) where
  | waiting (s : σ) (buf : List β)
  | failed (e : ε)

/-- The answer to a request for the next output. -/
inductive Answer (σ β γ ε : Type) where
  | none (s : σ) (buf : List β)
  | some (out : γ) (s : σ) (rest : List β)
  | error (e : ε)

section

variable (round : σ → List β → Round σ β γ ε)

def nextWithin : (fuel : Nat) → σ → List β → Answer σ β γ ε
  | 0, s, buf => .none s buf
  | fuel + 1, s, buf =>
    match round s buf with
    | .wait => .none s buf
    | .fail e => .error e
    | .go (.some out) s rest => .some out s rest
    | .go .none s rest => nextWithin fuel s rest

/-- Rounds up to the next output. -/
def next (s : σ) (buf : List β) : Answer σ β γ ε := nextWithin round (buf.length + 1) s buf

def callWithin : (fuel : Nat) → σ → List β → List γ × Stop σ β ε
  | 0, s, buf => ([], .waiting s buf)
  | fuel + 1, s, buf =>
    match next round s buf with
    | .none s buf => ([], .waiting s buf)
    | .error e => ([], .failed e)
    | .some out s rest =>
      let (outs, stop) := callWithin fuel s rest
      (out :: outs, stop)

/-- `next` is called until it has no output. -/
def outputs (s : σ) (buf : List β) : List γ × Stop σ β ε := callWithin round (buf.length + 1) s buf

/-- One more chunk of input. A decoder that has failed takes no more input. -/
def feed (stop : Stop σ β ε) (chunk : List β) : List γ × Stop σ β ε :=
  match stop with
  | .waiting s buf => outputs round s (buf ++ chunk)
  | .failed e => ([], .failed e)

def feedAll (stop : Stop σ β ε) : List (List β) → List γ × Stop σ β ε
  | [] => ([], stop)
  | chunk :: rest =>
    let (outs, stop) := feed round stop chunk
    let (more, stop) := feedAll stop rest
    (outs ++ more, stop)

/-- Every round that goes on consumes input. -/
def Shrinks : Prop :=
  ∀ s buf out s' rest, round s buf = .go out s' rest → rest.length < buf.length

/-- The rounds by themselves, without the calls of `next`. -/
inductive Drains : σ → List β → List γ → Stop σ β ε → Prop
  | wait {s : σ} {buf : List β} : round s buf = .wait → Drains s buf [] (.waiting s buf)
  | fail {s : σ} {buf : List β} {e : ε} : round s buf = .fail e → Drains s buf [] (.failed e)
  | go {s s' : σ} {buf rest : List β} {out : Option γ} {outs : List γ} {stop : Stop σ β ε} :
      round s buf = .go out s' rest → Drains s' rest outs stop →
        Drains s buf (out.toList ++ outs) stop

/-- `ok` holds in each round on the whole input. -/
inductive Along (ok : σ → List β → Prop) : σ → List β → Prop
  | stop {s : σ} {buf : List β} : ok s buf → (∀ out s' rest, round s buf ≠ .go out s' rest) →
      Along ok s buf
  | go {s s' : σ} {buf rest : List β} {out : Option γ} : ok s buf →
      round s buf = .go out s' rest → Along ok s' rest → Along ok s buf

end

variable {round : σ → List β → Round σ β γ ε}

/-! ## The calls of `next` drain the buffer -/

variable {buf rest buf' : List β} {n : Nat} {s s' : σ} {outs outs' : List γ}
  {ok : σ → List β → Prop} {stop stop' : Stop σ β ε}

theorem nextWithin_congr (h : Shrinks round) {m : Nat} (hn : buf.length < n) (hm : buf.length < m) :
    nextWithin round n s buf = nextWithin round m s buf := by
  induction n generalizing m s buf with
  | zero => omega
  | succ n ih =>
    cases m with
    | zero => omega
    | succ m =>
      rw [nextWithin, nextWithin]
      cases hr : round s buf with
      | wait => rfl
      | fail e => rfl
      | go out s' rest =>
        have := h s buf out s' rest hr
        cases out with
        | none => exact ih (by omega) (by omega)
        | some out => rfl

/-- The loop of `next`, one round at a time. -/
theorem next_eq (h : Shrinks round) (s : σ) (buf : List β) : next round s buf =
      match round s buf with
      | .wait => .none s buf
      | .fail e => .error e
      | .go (.some out) s rest => .some out s rest
      | .go .none s rest => next round s rest := by
  rw [next, nextWithin]
  cases hr : round s buf with
  | wait => rfl
  | fail e => rfl
  | go out s' rest =>
    have := h s buf out s' rest hr
    cases out with
    | none => exact nextWithin_congr h (by omega) (by omega)
    | some out => rfl

theorem length_of_next (h : Shrinks round) {out : γ}
    (hn : next round s buf = .some out s' rest) : rest.length < buf.length := by
  induction hlen : buf.length using Nat.strongRecOn generalizing s buf with
  | ind n ih =>
    subst hlen
    rw [next_eq h] at hn
    cases hr : round s buf with
    | wait => simp [hr] at hn
    | fail e => simp [hr] at hn
    | go out' s₁ rest₁ =>
      have hlt := h s buf out' s₁ rest₁ hr
      cases out' with
      | none =>
        simp only [hr] at hn
        exact Nat.lt_trans (ih _ hlt hn rfl) hlt
      | some out' =>
        simp only [hr, Answer.some.injEq] at hn
        obtain ⟨-, -, rfl⟩ := hn
        exact hlt

/-- What every round keeps of the state, and gives its output, an output of `next` has. -/
theorem of_next {I : σ → Prop} {P : γ → Prop}
    (hround : ∀ s buf out s' rest, I s → round s buf = .go out s' rest → I s' ∧ ∀ v ∈ out, P v)
    {out : γ} (hI : I s) (hn : next round s buf = .some out s' rest) : P out := by
  rw [next] at hn
  generalize buf.length + 1 = n at hn
  induction n generalizing s buf with
  | zero => cases hn
  | succ n ih =>
    rw [nextWithin] at hn
    cases hr : round s buf with
    | wait => simp [hr] at hn
    | fail e => simp [hr] at hn
    | go out' s₁ rest₁ =>
      obtain ⟨hI', hP⟩ := hround _ _ _ _ _ hI hr
      cases out' with
      | none =>
        simp only [hr] at hn
        exact ih hI' hn
      | some v =>
        simp only [hr, Answer.some.injEq] at hn
        exact hn.1 ▸ hP v rfl

/-- `next` stops where the rounds do. -/
theorem drains_of_next (h : Shrinks round) (s : σ) (buf : List β) :
    (∀ s' buf', next round s buf = .none s' buf' → Drains round s buf [] (.waiting s' buf')) ∧
    (∀ e, next round s buf = .error e → Drains round s buf [] (.failed e)) ∧
    ∀ out s' rest outs stop, next round s buf = .some out s' rest →
      Drains round s' rest outs stop → Drains round s buf (out :: outs) stop := by
  induction hlen : buf.length using Nat.strongRecOn generalizing s buf with
  | ind n ih =>
    subst hlen
    rw [next_eq h]
    cases hr : round s buf with
    | wait =>
      refine ⟨fun s' buf' heq => ?_, nofun, nofun⟩
      cases heq
      exact .wait hr
    | fail e =>
      refine ⟨nofun, fun e' heq => ?_, nofun⟩
      cases heq
      exact .fail hr
    | go out s₁ rest₁ =>
      cases out with
      | none =>
        obtain ⟨h₁, h₂, h₃⟩ := ih _ (h s buf _ s₁ rest₁ hr) s₁ _ rfl
        exact ⟨fun s' buf' heq => .go hr (h₁ s' buf' heq), fun e heq => .go hr (h₂ e heq),
          fun out s' rest outs stop heq hd => .go hr (h₃ out s' rest outs stop heq hd)⟩
      | some out =>
        refine ⟨nofun, nofun, fun out' s' rest outs stop heq hd => ?_⟩
        cases heq
        exact .go hr hd

theorem drains_callWithin (h : Shrinks round) (hn : buf.length < n) :
    Drains round s buf (callWithin round n s buf).1 (callWithin round n s buf).2 := by
  induction n generalizing s buf with
  | zero => omega
  | succ n ih =>
    obtain ⟨h₁, h₂, h₃⟩ := drains_of_next h s buf
    rw [callWithin]
    cases hnext : next round s buf with
    | none s' buf' => exact h₁ s' buf' hnext
    | error e => exact h₂ e hnext
    | some out s' rest =>
      exact h₃ out s' rest _ _ hnext (ih (by have := length_of_next h hnext; omega))

theorem drains_outputs (h : Shrinks round) (s : σ) (buf : List β) :
    Drains round s buf (outputs round s buf).1 (outputs round s buf).2 :=
  drains_callWithin h (Nat.lt_succ_self _)

theorem Drains.unique (h : Drains round s buf outs stop) (h' : Drains round s buf outs' stop') :
    outs = outs' ∧ stop = stop' := by
  induction h generalizing outs' stop' with
  | wait hr =>
    cases h' with
    | wait _ => exact ⟨rfl, rfl⟩
    | fail hr' => cases hr.symm.trans hr'
    | go hr' _ => cases hr.symm.trans hr'
  | fail hr =>
    cases h' with
    | wait hr' => cases hr.symm.trans hr'
    | fail hr' =>
      cases hr.symm.trans hr'
      exact ⟨rfl, rfl⟩
    | go hr' _ => cases hr.symm.trans hr'
  | go hr _ ih =>
    cases h' with
    | wait hr' => cases hr.symm.trans hr'
    | fail hr' => cases hr.symm.trans hr'
    | go hr' hd' =>
      cases hr.symm.trans hr'
      obtain ⟨rfl, rfl⟩ := ih hd'
      exact ⟨rfl, rfl⟩

/-- To know the outputs it is enough to follow the rounds. -/
theorem outputs_eq (h : Shrinks round) (hd : Drains round s buf outs stop) :
    outputs round s buf = (outs, stop) := by
  obtain ⟨h₁, h₂⟩ := (drains_outputs h s buf).unique hd
  rw [← h₁, ← h₂]

theorem Drains.waits (h : Drains round s buf outs (.waiting s' buf')) : round s' buf' = .wait := by
  generalize hstop : Stop.waiting s' buf' = stop at h
  induction h with
  | wait hr =>
    cases hstop
    exact hr
  | fail hr => cases hstop
  | go hr _ ih => exact ih hstop

/-! ## Rounds without output -/

/-- Rounds that lead from one state to another without an output. -/
inductive Quiet (round : σ → List β → Round σ β γ ε) : σ → List β → σ → List β → Prop
  | refl (s : σ) (buf : List β) : Quiet round s buf s buf
  | step {s s₁ s₂ : σ} {buf buf₁ buf₂ : List β} : round s buf = .go none s₁ buf₁ →
      Quiet round s₁ buf₁ s₂ buf₂ → Quiet round s buf s₂ buf₂

theorem Quiet.trans {s₁ s₂ : σ} {buf₁ buf₂ : List β} (h : Quiet round s buf s₁ buf₁)
    (h' : Quiet round s₁ buf₁ s₂ buf₂) : Quiet round s buf s₂ buf₂ := by
  induction h with
  | refl => exact h'
  | step hr _ ih => exact .step hr (ih h')

theorem Quiet.next_eq (hshrinks : Shrinks round)
    (h : Quiet round s buf s' buf') : next round s buf = next round s' buf' := by
  induction h with
  | refl => rfl
  | step hr _ ih =>
    rw [Incremental.next_eq hshrinks, hr]
    exact ih

theorem Quiet.drains (h : Quiet round s buf s' buf') (hd : Drains round s' buf' outs stop) :
    Drains round s buf outs stop := by
  induction h with
  | refl => exact hd
  | step hr _ ih => exact .go hr (ih hd)

/-! ## Input in chunks -/

/-- A round that goes on does not look at what follows, and a failure stands if the whole
input meets `ok`. -/
structure Stable (round : σ → List β → Round σ β γ ε) (ok : σ → List β → Prop) : Prop where
  go : ∀ s buf out s' rest chunk, round s buf = .go out s' rest →
    round s (buf ++ chunk) = .go out s' (rest ++ chunk)
  fail : ∀ s buf e chunk, round s buf = .fail e → ok s (buf ++ chunk) →
    round s (buf ++ chunk) = .fail e

theorem Along.head (h : Along round ok s buf) : ok s buf := by
  cases h with
  | stop hok _ => exact hok
  | go hok _ _ => exact hok

theorem Along.next {out : Option γ}
    (h : Along round ok s buf) (hr : round s buf = .go out s' rest) : Along round ok s' rest := by
  cases h with
  | stop _ hstop => exact absurd hr (hstop _ _ _)
  | go _ hr' h' =>
    cases hr.symm.trans hr'
    exact h'

/-- **Draining a part first.** What waits is drained together with the rest. -/
theorem Drains.append (hstable : Stable round ok) {chunk : List β}
    (h : Drains round s buf outs stop) (hok : Along round ok s (buf ++ chunk))
    (hwait : ∀ s' buf', stop = .waiting s' buf' → Along round ok s' (buf' ++ chunk) →
      Drains round s' (buf' ++ chunk) outs' stop')
    (hfail : ∀ e, stop = .failed e → outs' = [] ∧ stop' = .failed e) :
    Drains round s (buf ++ chunk) (outs ++ outs') stop' := by
  induction h with
  | wait hr => exact hwait _ _ rfl hok
  | fail hr =>
    obtain ⟨rfl, rfl⟩ := hfail _ rfl
    exact .fail (hstable.fail _ _ _ _ hr hok.head)
  | go hr _ ih =>
    have hr' := hstable.go _ _ _ _ _ chunk hr
    rw [List.append_assoc]
    exact .go hr' (ih (hok.next hr') hwait hfail)

theorem drains_feedAll (hshrinks : Shrinks round)
    (hstable : Stable round ok) (hwaits : round s buf = .wait)
    (chunks : List (List β)) (hok : Along round ok s (buf ++ chunks.flatten)) :
    Drains round s (buf ++ chunks.flatten) (feedAll round (.waiting s buf) chunks).1
      (feedAll round (.waiting s buf) chunks).2 := by
  induction chunks generalizing s buf with
  | nil =>
    simp only [List.flatten_nil, List.append_nil, feedAll]
    exact .wait hwaits
  | cons chunk rest ih =>
    have hd := drains_outputs hshrinks s (buf ++ chunk)
    rw [List.flatten_cons, ← List.append_assoc] at hok ⊢
    simp only [feedAll, feed]
    generalize outputs round s (buf ++ chunk) = r at hd
    obtain ⟨outs, stop⟩ := r
    refine hd.append hstable hok ?_ ?_
    · rintro s' buf' rfl hok'
      exact ih hd.waits hok'
    · rintro e rfl
      have hfailed : ∀ cs, feedAll round (.failed e) cs = ([], .failed e) := by
        intro cs
        induction cs with
        | nil => rfl
        | cons c cs ih => simp [feedAll, feed, ih]
      simp [hfailed]

/-- **How the input is cut does not matter.** -/
theorem feedAll_eq (hshrinks : Shrinks round)
    (hstable : Stable round ok) (hwaits : round s [] = .wait) {chunks : List (List β)}
    (hok : Along round ok s chunks.flatten) :
    feedAll round (.waiting s []) chunks = feedAll round (.waiting s []) [chunks.flatten] := by
  have h₁ := drains_feedAll hshrinks hstable hwaits chunks hok
  have h₂ := drains_feedAll hshrinks hstable hwaits [chunks.flatten] (by simpa using hok)
  rw [List.flatten_singleton] at h₂
  obtain ⟨hout, hstop⟩ := h₁.unique h₂
  exact Prod.ext hout hstop

end Incremental
