import Mathlib.Data.List.Basic

/-!
# Runs of labelled transition systems

A system is a set of start states and a relation that takes a state, by an event, to a next
state. A run records the events that led from a start state to the state reached; what holds of
every start state and is kept by every step holds of every run.
-/
namespace Ece344Lab.Library

variable {σ ε : Type}

/-- A labelled transition system. -/
structure System (σ ε : Type) where
  start : σ → Prop
  step : σ → ε → σ → Prop

namespace System

/-- `T.Run es s`: the events `es`, in this order, lead from a start state to `s`. -/
inductive Run (T : System σ ε) : List ε → σ → Prop where
  | start {s : σ} (h : T.start s) : Run T [] s
  | next {es : List ε} {s s' : σ} {e : ε} (run : Run T es s) (h : T.step s e s') :
      Run T (es ++ [e]) s'

/-- The system whose steps are those of `T` that meet the condition `good`. -/
def restrict (T : System σ ε) (good : σ → ε → Prop) : System σ ε where
  start := T.start
  step s e s' := T.step s e s' ∧ good s e

/-- A run of the restricted system is a run. -/
theorem Run.unrestrict {T : System σ ε} {good : σ → ε → Prop} {es : List ε} {s : σ}
    (run : (T.restrict good).Run es s) : T.Run es s := by
  induction run with
  | start h => exact .start h
  | next _ h ih => exact ih.next h.1

/-- The invariant rule, for an invariant that may speak of the events so far. -/
theorem Run.invariant {T : System σ ε} {I : List ε → σ → Prop}
    (start : ∀ s, T.start s → I [] s)
    (next : ∀ es s e s', I es s → T.step s e s' → I (es ++ [e]) s')
    {es : List ε} {s : σ} (run : T.Run es s) : I es s := by
  induction run with
  | start h => exact start _ h
  | next _ h ih => exact next _ _ _ _ ih h

/-- The invariant rule for an invariant of states. -/
theorem Run.invariant_state {T : System σ ε} {I : σ → Prop} (start : ∀ s, T.start s → I s)
    (next : ∀ s e s', I s → T.step s e s' → I s') {es : List ε} {s : σ} (run : T.Run es s) :
    I s :=
  run.invariant (I := fun _ => I) start fun _ => next

end System

end Ece344Lab.Library
