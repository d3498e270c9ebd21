import OsLab.Lib.Runs

/-!
# Simulation

A specification is a relation `spec t c t'`: in state `t` the call `c` may lead to state `t'`. A
`Trace` is a sequence of such calls.

* `Trace.invariant`: what every call keeps holds after every trace.
* `Reaches.simulates`: **forward simulation**. If every step of a system does what some calls of the
  specification do, those that `f` records, then what `f` has recorded after a run is a trace of the
  specification, and its state goes with that of the system.
-/

namespace OsLab.Lib

variable {τ γ σ ε χ : Type} {spec : τ → γ → τ → Prop} {t t' t'' : τ} {cs ds : List γ} {c : γ}

/-- The calls `cs` lead from `t` to a state. -/
inductive Trace (spec : τ → γ → τ → Prop) (t : τ) : List γ → τ → Prop
  | nil : Trace spec t [] t
  | snoc {cs : List γ} {t' t'' : τ} {c : γ} : Trace spec t cs t' → spec t' c t'' →
      Trace spec t (cs ++ [c]) t''

namespace Trace

/-- One call. -/
theorem single (h : spec t c t') : Trace spec t [c] t' := .snoc .nil h

/-- Traces that meet are one trace. -/
theorem append (h : Trace spec t cs t') (h' : Trace spec t' ds t'') : Trace spec t (cs ++ ds) t'' := by
  induction h' with
  | nil =>
    rw [List.append_nil]
    exact h
  | snoc _ hc ih =>
    rw [← List.append_assoc]
    exact ih.snoc hc

/-- **What every call keeps** holds after every trace. -/
theorem invariant {P : τ → Prop} (h : Trace spec t cs t') (h0 : P t)
    (hstep : ∀ t t' c, P t → spec t c t' → P t') : P t' := by
  induction h with
  | nil => exact h0
  | snoc _ hc ih => exact hstep _ _ _ ih hc

end Trace

variable {step : σ → ε → Except χ σ} {ok : σ → ε → Prop} {f : σ → ε → σ → List γ} {R : σ → τ → Prop}
  {s s' : σ} {es : List ε}

/-- **Forward simulation**: the induction goes along the run, and the trace grows at its end. -/
theorem Reaches.simulates (h : Reaches step ok s es s') (h0 : R s t)
    (hstep : ∀ s1 s2 e t1, R s1 t1 → ok s1 e → step s1 e = .ok s2 →
      ∃ t2, Trace spec t1 (f s1 e s2) t2 ∧ R s2 t2) :
    ∃ t', Trace spec t (log step f s es) t' ∧ R s' t' := by
  induction h with
  | nil => exact ⟨t, .nil, h0⟩
  | snoc hr hok hs ih =>
    obtain ⟨t1, htrace, hrel⟩ := ih
    obtain ⟨t2, hmore, hrel2⟩ := hstep _ _ _ _ hrel hok hs
    refine ⟨t2, ?_, hrel2⟩
    rw [log_snoc hr.run_eq hs]
    exact htrace.append hmore

/-- A run of a system is one of a system that has more events. -/
theorem Reaches.map {ε' : Type} {step' : σ → ε' → Except χ σ} {g : ε → ε'} (h : Reaches step ok s es s')
    (hstep : ∀ t e, step' t (g e) = step t e) :
    Reaches step' (fun t e' => ∃ e, e' = g e ∧ ok t e) s (es.map g) s' := by
  induction h with
  | nil => exact .nil
  | snoc _ hok hs ih =>
    rw [List.map_append]
    exact ih.snoc ⟨_, rfl, hok⟩ ((hstep _ _).trans hs)

end OsLab.Lib
