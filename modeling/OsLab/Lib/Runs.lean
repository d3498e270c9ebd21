import Mathlib.Data.List.Induction

/-!
# Runs of a deterministic system that can stop

A system is a step function `step : σ → ε → Except χ σ`: in state `s` the event `e` either leads
to a next state or stops the run with a reason. This file has the few things every proof about
such a system needs.

* `bind_eq_ok`: a sequence of two fallible computations succeeds iff both parts do. It peels a
  `do` block apart without unfolding what its parts do.
* `run step s es`: the events `es` one after another, as a function, so that a concrete run can be
  evaluated.
* `Reaches step ok s es s'`: the same run as an inductive relation that also asks for a condition
  `ok` on the state before every step. Its last constructor adds an event at the *end*, so an
  induction over it speaks about the state reached so far (`Reaches.invariant`).
* `log step f s es`: what an observer `f` of single steps has seen after a run.
* `Countdown.reached`: where every step counts down to a goal, the goal is reached in time.
* `forall_splits_foldl_iff`: two total systems that go side by side as long as nothing goes wrong. A
  condition that every step has to meet may be read off the one run or off the other.
-/

namespace OsLab.Lib

/-- A sequence of two computations succeeds iff both parts do. -/
theorem bind_eq_ok {χ α β : Type} {x : Except χ α} {f : α → Except χ β} {b : β} :
    (x >>= f) = .ok b ↔ ∃ a, x = .ok a ∧ f a = .ok b := by
  cases x with
  | error e => simp [bind, Except.bind]
  | ok a => simp [bind, Except.bind]

/-- It stops where one of its parts does. -/
theorem bind_eq_error {χ α β : Type} {x : Except χ α} {f : α → Except χ β} {e : χ} :
    (x >>= f) = .error e ↔ x = .error e ∨ ∃ a, x = .ok a ∧ f a = .error e := by
  cases x with
  | error e => simp [bind, Except.bind]
  | ok a => simp [bind, Except.bind]

/-- A computation that succeeds hands its value to the rest. -/
@[simp] theorem ok_bind {χ α β : Type} (a : α) (f : α → Except χ β) :
    ((Except.ok a : Except χ α) >>= f) = f a := rfl

/-- A computation that stops skips the rest. -/
@[simp] theorem error_bind {χ α β : Type} (e : χ) (f : α → Except χ β) :
    ((Except.error e : Except χ α) >>= f) = .error e := rfl

/-- A computation that can be seen to succeed has a result. -/
theorem exists_ok {χ α : Type} {x : Except χ α} (h : x.toBool = true) : ∃ a, x = .ok a := by
  cases x with
  | error e => cases h
  | ok a => exact ⟨a, rfl⟩

/-- A computation succeeds with a result that has a property, as something to evaluate. -/
def okAnd {χ α : Type} (x : Except χ α) (p : α → Bool) : Bool :=
  match x with
  | .ok a => p a
  | .error _ => false

/-- A checked outcome is one with the property. -/
theorem okAnd_eq_true {χ α : Type} {x : Except χ α} {p : α → Bool} :
    okAnd x p = true ↔ ∃ a, x = .ok a ∧ p a = true := by
  cases x with
  | error e => simp [okAnd]
  | ok a => simp [okAnd]

variable {σ ε χ : Type}

/-- The events `es` one after another from `s`. -/
def run (step : σ → ε → Except χ σ) : σ → List ε → Except χ σ
  | s, [] => .ok s
  | s, e :: es => step s e >>= fun s' => run step s' es

variable {step : σ → ε → Except χ σ} {ok : σ → ε → Prop} {s s' s'' : σ} {es fs : List ε} {e : ε}

/-- The empty run. -/
@[simp] theorem run_nil : run step s [] = .ok s := rfl

/-- A run starts with its first event. -/
theorem run_cons : run step s (e :: es) = step s e >>= fun s' => run step s' es := rfl

/-- A run of two parts. -/
theorem run_append : run step s (es ++ fs) = run step s es >>= fun s' => run step s' fs := by
  induction es generalizing s with
  | nil => rfl
  | cons e es ih =>
    simp only [List.cons_append, run_cons]
    cases h : step s e with
    | error x => rfl
    | ok t => simpa using ih

/-- A run ends with its last event. -/
theorem run_snoc_eq_ok :
    run step s (es ++ [e]) = .ok s'' ↔ ∃ s', run step s es = .ok s' ∧ step s' e = .ok s'' := by
  rw [run_append, bind_eq_ok]
  constructor
  · rintro ⟨t, ht, h⟩
    rw [run_cons, bind_eq_ok] at h
    obtain ⟨u, hu, h⟩ := h
    cases h
    exact ⟨t, ht, hu⟩
  · rintro ⟨t, ht, h⟩
    exact ⟨t, ht, by rw [run_cons, h]; rfl⟩

/-- The runs from `s` in which every step meets the condition `ok` on the state before it. -/
inductive Reaches (step : σ → ε → Except χ σ) (ok : σ → ε → Prop) (s : σ) : List ε → σ → Prop
  | nil : Reaches step ok s [] s
  | snoc {es : List ε} {s' s'' : σ} {e : ε} : Reaches step ok s es s' → ok s' e →
      step s' e = .ok s'' → Reaches step ok s (es ++ [e]) s''

/-- What holds at the start and is kept by every step that meets the condition holds of every
state reached; `P` may mention the events so far. -/
theorem Reaches.invariant {P : List ε → σ → Prop} (h : Reaches step ok s es s') (h0 : P [] s)
    (hstep : ∀ es t t' e, Reaches step ok s es t → P es t → ok t e → step t e = .ok t' →
      P (es ++ [e]) t') : P es s' := by
  induction h with
  | nil => exact h0
  | snoc hr hok hs ih => exact hstep _ _ _ _ hr ih hok hs

/-- A run relation forgets into the run function. -/
theorem Reaches.run_eq (h : Reaches step ok s es s') : run step s es = .ok s' := by
  induction h with
  | nil => rfl
  | snoc _ _ hs ih => exact run_snoc_eq_ok.mpr ⟨_, ih, hs⟩

/-- A weaker condition is met by the same runs. -/
theorem Reaches.mono {ok' : σ → ε → Prop} (h : Reaches step ok s es s')
    (hok : ∀ t e, ok t e → ok' t e) : Reaches step ok' s es s' := by
  induction h with
  | nil => exact .nil
  | snoc _ h hs ih => exact ih.snoc (hok _ _ h) hs

/-- A run whose events all meet a further, state-independent condition. -/
theorem Reaches.and {G : ε → Prop} (h : Reaches step ok s es s') (hes : ∀ e ∈ es, G e) :
    Reaches step (fun t e => ok t e ∧ G e) s es s' := by
  induction h with
  | nil => exact .nil
  | snoc _ hok hs ih =>
    exact (ih fun e he => hes e (by simp [he])).snoc ⟨hok, hes _ (by simp)⟩ hs

/-- Runs that meet are one run. -/
theorem Reaches.trans (h : Reaches step ok s es s') (h' : Reaches step ok s' fs s'') :
    Reaches step ok s (es ++ fs) s'' := by
  induction h' with
  | nil => simpa using h
  | snoc _ hok hs ih => simpa using ih.snoc hok hs

/-- Every run of the function whose events all meet a state-independent condition is a run of the
relation. -/
theorem Reaches.of_run {G : ε → Prop} (h : run step s es = .ok s') (hes : ∀ e ∈ es, G e) :
    Reaches step (fun _ e => G e) s es s' := by
  induction es using List.reverseRecOn generalizing s' with
  | nil =>
    cases h
    exact .nil
  | append_singleton es e ih =>
    obtain ⟨t, ht, hs⟩ := run_snoc_eq_ok.mp h
    exact (ih ht fun e' he' => hes e' (by simp [he'])).snoc (hes e (by simp)) hs

/-- What holds at the start and is kept by every step holds after every run; the events may all meet a
state-independent condition. -/
theorem run_invariant {G : ε → Prop} {P : σ → Prop} (h : run step s es = .ok s')
    (hes : ∀ e ∈ es, G e) (h0 : P s)
    (hstep : ∀ t t' e, P t → G e → step t e = .ok t' → P t') : P s' := by
  apply (Reaches.of_run h hes).invariant h0
  intro _ t t' e _ hP he hs
  exact hstep t t' e hP he hs

/-- The run function that checks the condition before every step. -/
def checkedRun (step : σ → ε → Except χ σ) (ok : σ → ε → Prop) [∀ s e, Decidable (ok s e)] :
    σ → List ε → Option σ
  | s, [] => some s
  | s, e :: es =>
    if ok s e then
      match step s e with
      | .ok s' => checkedRun step ok s' es
      | .error _ => none
    else none

/-- A checked run is a run of the relation. -/
theorem Reaches.of_checkedRun [∀ s e, Decidable (ok s e)] (h : checkedRun step ok s es = some s') :
    Reaches step ok s es s' := by
  induction es generalizing s with
  | nil =>
    obtain rfl := Option.some.inj h
    exact .nil
  | cons e es ih =>
    simp only [checkedRun] at h
    split_ifs at h with hok
    split at h
    · next t ht => exact Reaches.trans (show Reaches step ok s [e] t from .snoc .nil hok ht) (ih h)
    · cases h

/-! ### What a run has done -/

variable {α : Type} {f : σ → ε → σ → List α}

/-- What `f` records at every step of a run, in order. -/
def log (step : σ → ε → Except χ σ) (f : σ → ε → σ → List α) : σ → List ε → List α
  | _, [] => []
  | s, e :: es =>
    match step s e with
    | .ok s' => f s e s' ++ log step f s' es
    | .error _ => []

/-- Nothing is logged in the empty run. -/
@[simp] theorem log_nil : log step f s [] = [] := rfl

/-- The log of a run of two parts. -/
theorem log_append (h : run step s es = .ok s') :
    log step f s (es ++ fs) = log step f s es ++ log step f s' fs := by
  induction es generalizing s with
  | nil =>
    obtain rfl := Except.ok.inj h
    rfl
  | cons e es ih =>
    obtain ⟨t, ht, h⟩ := bind_eq_ok.mp h
    simp only [List.cons_append, log, ht, List.append_assoc, ih h]

/-- The log grows by the entry of the last event. -/
theorem log_snoc (h : run step s es = .ok s') (he : step s' e = .ok s'') :
    log step f s (es ++ [e]) = log step f s es ++ f s' e s'' := by
  rw [log_append h]
  simp [log, he]

/-! ### Two runs side by side -/

/-- What holds of every place in a list: of the first element, and of the places behind it. -/
theorem forall_splits_cons {a : α} {l : List α} {Q : List α → α → Prop} :
    (∀ done b todo, a :: l = done ++ b :: todo → Q done b) ↔
      Q [] a ∧ ∀ done b todo, l = done ++ b :: todo → Q (a :: done) b := by
  constructor
  · intro h
    refine ⟨h [] a l rfl, fun done b todo hl => h (a :: done) b todo ?_⟩
    rw [hl]
    rfl
  · rintro ⟨hfirst, hrest⟩ done b todo hl
    cases done with
    | nil =>
      obtain ⟨rfl, -⟩ := List.cons.inj hl
      exact hfirst
    | cons a' done =>
      obtain ⟨rfl, hl'⟩ := List.cons.inj hl
      exact hrest done b todo hl'

/-- **Side by side**: the states stay related as long as `P` holds of every step, and related states
agree on `P`; so `P` holds all along the one run iff it does along the other. -/
theorem forall_splits_foldl_iff {β : Type} {R : β → β → Prop} {P : α → β → Prop} {f g : β → α → β}
    (hcongr : ∀ a x y, R x y → (P a x ↔ P a y)) (hstep : ∀ a x y, R x y → P a x → R (f x a) (g y a))
    {x y : β} (h : R x y) (l : List α) :
    (∀ done a todo, l = done ++ a :: todo → P a (done.foldl f x)) ↔
      ∀ done a todo, l = done ++ a :: todo → P a (done.foldl g y) := by
  induction l generalizing x y with
  | nil => exact ⟨fun _ done a todo hl => by simp at hl, fun _ done a todo hl => by simp at hl⟩
  | cons a l ih =>
    rw [forall_splits_cons (Q := fun done b => P b (done.foldl f x)),
      forall_splits_cons (Q := fun done b => P b (done.foldl g y))]
    simp only [List.foldl_nil, List.foldl_cons]
    rw [hcongr a x y h]
    exact and_congr_right fun hp => ih (hstep a x y h ((hcongr a x y h).mpr hp))

/-! ### Something happens in time

An observer's records count, such as the ticks of a clock. `P n s` says that in state `s` the goal is
at most `n` records away. -/

section Countdown

variable {σ ε χ α : Type} {step : σ → ε → Except χ σ} {f : σ → ε → σ → List α} {goal : σ → Prop}
  {P : ℕ → σ → Prop} {s s' : σ} {es : List ε} {n : ℕ}

/-- The steps of a system count down to a goal. -/
structure Countdown (step : σ → ε → Except χ σ) (f : σ → ε → σ → List α) (goal : σ → Prop)
    (P : ℕ → σ → Prop) : Prop where
  pos : ∀ n s, P n s → 0 < n
  step : ∀ n s e s', P n s → step s e = .ok s' →
    goal s' ∧ (f s e s').length ≤ n ∨ ∃ n', n' + (f s e s').length ≤ n ∧ P n' s'

/-- The goal was reached in a run, after at most `n` records. -/
def ReachedIn (step : σ → ε → Except χ σ) (f : σ → ε → σ → List α) (goal : σ → Prop) (s : σ)
    (es : List ε) (n : ℕ) : Prop :=
  ∃ gs hs t, es = gs ++ hs ∧ run step s gs = .ok t ∧ goal t ∧ (log step f s gs).length ≤ n

/-- A goal that was reached stays reached. -/
theorem ReachedIn.snoc {e : ε} (h : ReachedIn step f goal s es n) :
    ReachedIn step f goal s (es ++ [e]) n := by
  obtain ⟨gs, hs, t, rfl, hrest⟩ := h
  exact ⟨gs, hs ++ [e], t, List.append_assoc .., hrest⟩

/-- **Every run** has come to the goal or nearer to it. -/
theorem Countdown.run (hc : Countdown step f goal P) (h : P n s) (hr : run step s es = .ok s') :
    ReachedIn step f goal s es n ∨ ∃ n', n' + (log step f s es).length ≤ n ∧ P n' s' := by
  induction es using List.reverseRecOn generalizing s' with
  | nil =>
    obtain rfl := Except.ok.inj hr
    exact .inr ⟨n, Nat.le_refl n, h⟩
  | append_singleton es e ih =>
    obtain ⟨t, ht, hs⟩ := run_snoc_eq_ok.mp hr
    rcases ih ht with hdone | ⟨n1, hle, hn1⟩
    · exact .inl hdone.snoc
    · rw [log_snoc ht hs, List.length_append]
      rcases hc.step n1 t e s' hn1 hs with ⟨hg, hcost⟩ | ⟨n2, hcost, hn2⟩
      · refine .inl ⟨es ++ [e], [], s', (List.append_nil _).symm, hr, hg, ?_⟩
        rw [log_snoc ht hs, List.length_append]
        omega
      · exact .inr ⟨n2, by omega, hn2⟩

/-- **The goal is reached in time.** -/
theorem Countdown.reached (hc : Countdown step f goal P) (h : P n s) (hr : OsLab.Lib.run step s es = .ok s')
    (hn : n ≤ (log step f s es).length) : ReachedIn step f goal s es n := by
  rcases hc.run h hr with hdone | ⟨n', hle, hn'⟩
  · exact hdone
  · have hpos := hc.pos n' s' hn'
    omega

end Countdown

end OsLab.Lib
