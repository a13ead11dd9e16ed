import Ece344Lab.Library.Program

/-!
# The events of a program

What a program logs is bounded by what its steps log, whatever the state is and however the steps
branch.
-/
namespace Ece344Lab.Library.Program

variable {ε ω σ τ α β : Type} {P : ω → Prop} {m m' : Program ε ω σ α}

/-- Every event that the program logs satisfies `P`. -/
def Logs (P : ω → Prop) (m : Program ε ω σ α) : Prop := ∀ s r, m.run s = .ok r → ∀ w ∈ r.log, P w

namespace Logs

theorem of_nil (h : ∀ s r, m.run s = .ok r → r.log = []) : Logs P m := fun s r hr w hw => by
  rw [h s r hr] at hw
  cases hw

theorem pure (a : α) : Logs P (Pure.pure a : Program ε ω σ α) := of_nil fun s r hr => by
  cases hr
  rfl

theorem get : Logs P (Program.get : Program ε ω σ σ) := of_nil fun s r hr => by
  cases hr
  rfl

theorem set (s : σ) : Logs P (Program.set s : Program ε ω σ Unit) := of_nil fun s r hr => by
  cases hr
  rfl

theorem modify (f : σ → σ) : Logs P (Program.modify f : Program ε ω σ Unit) := of_nil fun s r hr => by
  cases hr
  rfl

theorem stop (e : ε) : Logs P (Program.stop e : Program ε ω σ α) := fun s r hr => by cases hr

theorem emit {w : ω} (h : P w) : Logs P (Program.emit w : Program ε ω σ Unit) := fun s r hr v hv => by
  cases hr
  rw [List.mem_singleton] at hv
  exact hv ▸ h

theorem reads (f : σ → Except ε α) : Logs P (Program.reads f : Program ε ω σ α) :=
  of_nil fun s r hr => by
    cases hf : f s with
    | error e =>
      rw [reads_run_error hf] at hr
      cases hr
    | ok a =>
      rw [reads_run hf] at hr
      cases hr
      rfl

theorem bind {f : α → Program ε ω σ β} (hm : Logs P m) (hf : ∀ a, Logs P (f a)) :
    Logs P (m >>= f) := fun s r hr w hw => by
  obtain ⟨a, s', l, r', hmr, hfr, rfl⟩ := bind_inv hr
  rcases List.mem_append.mp hw with hw | hw
  · exact hm s _ hmr w hw
  · exact hf a s' r' hfr w hw

theorem ite {c : Prop} [Decidable c] (h : c → Logs P m) (h' : ¬ c → Logs P m') :
    Logs P (if c then m else m') := by
  split
  · exact h ‹_›
  · exact h' ‹_›

theorem zoom {view : σ → τ} {put : τ → σ → σ} {m : Program ε ω τ α} (h : Logs P m) :
    Logs P (Program.zoom view put m) := fun s r hr w hw => by
  cases hm : m.run (view s) with
  | error e =>
    rw [zoom_run_error hm] at hr
    cases hr
  | ok r' =>
    rw [zoom_run hm] at hr
    cases hr
    exact h _ r' hm w hw

end Logs

end Ece344Lab.Library.Program
