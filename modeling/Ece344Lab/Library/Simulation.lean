import Ece344Lab.Library.Runs

/-!
# Forward simulations

A relation between the states of two systems with the same events, such that every step of the
first is matched by one of the second. Then every run of the first is a run of the second, and
whatever holds of the second's runs holds of the first's.
-/
namespace Ece344Lab.Library.System

variable {σ τ ε : Type}

/-- The steps of `C` are matched by steps of `A` with the same events. -/
structure Simulates (C : System σ ε) (A : System τ ε) (R : σ → τ → Prop) : Prop where
  start : ∀ s, C.start s → ∃ t, A.start t ∧ R s t
  step : ∀ s e s' t, R s t → C.step s e s' → ∃ t', A.step t e t' ∧ R s' t'

variable {C : System σ ε} {A : System τ ε} {R : σ → τ → Prop} {es : List ε} {s s' : σ}

/-- Every run is a run of the simulating system. -/
theorem Simulates.run (h : Simulates C A R) (run : C.Run es s) : ∃ t, A.Run es t ∧ R s t := by
  induction run with
  | start hs =>
    obtain ⟨t, ht, hr⟩ := h.start _ hs
    exact ⟨t, .start ht, hr⟩
  | next _ hstep ih =>
    obtain ⟨t, ht, hr⟩ := ih
    obtain ⟨t', hstep', hr'⟩ := h.step _ _ _ _ hr hstep
    exact ⟨t', .next ht hstep', hr'⟩

/-- An invariant of the simulating system holds along every run. -/
theorem Simulates.invariant {I : List ε → τ → Prop} (h : Simulates C A R)
    (start : ∀ t, A.start t → I [] t)
    (next : ∀ es t e t', I es t → A.step t e t' → I (es ++ [e]) t') (run : C.Run es s) :
    ∃ t, R s t ∧ I es t := by
  obtain ⟨t, ht, hr⟩ := h.run run
  exact ⟨t, hr, ht.invariant start next⟩

/-- The system that starts in the state `s`. -/
def after (T : System σ ε) (s : σ) : System σ ε := { T with start := (· = s) }

theorem Run.append {es' : List ε} {s' : σ} (run : C.Run es s) (later : (C.after s).Run es' s') :
    C.Run (es ++ es') s' := by
  induction later with
  | start hs =>
    obtain rfl := hs
    rwa [List.append_nil]
  | next _ hstep ih =>
    rw [← List.append_assoc]
    exact .next ih hstep

/-- From related states on, the steps are matched as well. -/
theorem Simulates.after {t : τ} (h : Simulates C A R) (hr : R s t) :
    Simulates (C.after s) (A.after t) R where
  start := by
    rintro _ rfl
    exact ⟨t, rfl, hr⟩
  step := h.step

/-- What every step of a run keeps, if the events are of some kind, the run keeps. -/
theorem Run.keeps {P : σ → Prop} {good : ε → Prop} (run : (C.after s).Run es s') (hs : P s)
    (step : ∀ u e u', P u → good e → C.step u e u' → P u') (hgood : ∀ e ∈ es, good e) : P s' := by
  induction run with
  | start hstart =>
    obtain rfl := hstart
    exact hs
  | next _ hstep ih =>
    refine step _ _ _ (ih fun e he => hgood e (List.mem_append_left _ he)) (hgood _ ?_) hstep
    exact List.mem_append_right _ (List.mem_singleton_self _)

end Ece344Lab.Library.System
