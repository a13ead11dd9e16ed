import Mathlib.Logic.Basic

/-!
# Programs with a state, a log and a way to stop

A program reads and changes a state, appends events to a log and either returns
a value or stops for good with a reason. `wp` is the weakest precondition of a
run: one condition for the runs that return, one for the runs that stop. The
rules below are the only facts about `bind` that a proof about a program needs:
the `run` rules replace a step by its known result, the `wp` rules by its
specification.
-/
namespace Ece344Lab.Library

/-- What a run that returns leaves behind: its value, the state and the events
it has logged, oldest first. -/
structure Ret (ω σ α : Type) where
  val : α
  st : σ
  log : List ω

/-- A program with stop reasons `ε`, events `ω`, state `σ` and value `α`. `final` is the state that
a run ends in, also one that stops. -/
structure Program (ε ω σ α : Type) where
  exec : σ → Except ε (Ret ω σ α)
  final : σ → σ
  final_eq : ∀ s r, exec s = .ok r → final s = r.st

namespace Program

variable {ε ω σ τ α β : Type}

/-- The run of a program from a state. -/
def run (m : Program ε ω σ α) (s : σ) : Except ε (Ret ω σ α) := m.exec s

/-- A result with earlier events put before its own. -/
def logged (l : List ω) : Except ε (Ret ω σ α) → Except ε (Ret ω σ α)
  | .ok r => .ok { r with log := l ++ r.log }
  | .error e => .error e

/-- Return a value. -/
protected def pure (a : α) : Program ε ω σ α where
  exec s := .ok ⟨a, s, []⟩
  final s := s
  final_eq _ _ h := by cases h; rfl

/-- Run one program after the other. -/
protected def bind (m : Program ε ω σ α) (f : α → Program ε ω σ β) : Program ε ω σ β where
  exec s :=
    match m.run s with
    | .error e => .error e
    | .ok r => logged r.log ((f r.val).run r.st)
  final s :=
    match m.run s with
    | .error _ => m.final s
    | .ok r => (f r.val).final r.st
  final_eq s r h := by
    cases hm : m.run s with
    | error e =>
      rw [hm] at h
      cases h
    | ok a =>
      rw [hm] at h
      dsimp only at h
      cases hf : (f a.val).run a.st with
      | error e =>
        rw [hf] at h
        cases h
      | ok b =>
        rw [hf] at h
        cases h
        exact (f a.val).final_eq a.st b hf

instance : Monad (Program ε ω σ) where
  pure := Program.pure
  bind := Program.bind

/-- Stop the program. -/
def stop (e : ε) : Program ε ω σ α where
  exec _ := .error e
  final s := s
  final_eq _ _ h := by cases h

def get : Program ε ω σ σ where
  exec s := .ok ⟨s, s, []⟩
  final s := s
  final_eq _ _ h := by cases h; rfl

def set (s : σ) : Program ε ω σ Unit where
  exec _ := .ok ⟨(), s, []⟩
  final _ := s
  final_eq _ _ h := by cases h; rfl

def modify (f : σ → σ) : Program ε ω σ Unit where
  exec s := .ok ⟨(), f s, []⟩
  final := f
  final_eq _ _ h := by cases h; rfl

/-- Log one event. -/
def emit (w : ω) : Program ε ω σ Unit where
  exec s := .ok ⟨(), s, [w]⟩
  final s := s
  final_eq _ _ h := by cases h; rfl

/-- Run a computation that only reads the state. -/
def reads (f : σ → Except ε α) : Program ε ω σ α where
  exec s :=
    match f s with
    | .error e => .error e
    | .ok a => .ok ⟨a, s, []⟩
  final s := s
  final_eq s r h := by
    cases hf : f s with
    | error e =>
      rw [hf] at h
      cases h
    | ok a =>
      rw [hf] at h
      cases h
      rfl

/-- Run a program on a part of the state. -/
def zoom (view : σ → τ) (put : τ → σ → σ) (m : Program ε ω τ α) : Program ε ω σ α where
  exec s :=
    match m.run (view s) with
    | .error e => .error e
    | .ok r => .ok ⟨r.val, put r.st s, r.log⟩
  final s := put (m.final (view s)) s
  final_eq s r h := by
    cases hm : m.run (view s) with
    | error e =>
      rw [hm] at h
      cases h
    | ok a =>
      rw [hm] at h
      cases h
      rw [m.final_eq _ _ hm]

theorem except_ok_bind (a : α) (f : α → Except ε β) : (Except.ok a >>= f) = f a := (rfl)

theorem except_error_bind (e : ε) (f : α → Except ε β) : (Except.error e >>= f) = .error e :=
  (rfl)

theorem except_pure (a : α) : (pure a : Except ε α) = .ok a := (rfl)

section Run

variable {m : Program ε ω σ α} {f : α → Program ε ω σ β} {s s' : σ} {a : α} {l : List ω} {e : ε}

@[simp] theorem logged_ok (l : List ω) (r : Ret ω σ α) :
    logged (ε := ε) l (.ok r) = .ok ⟨r.val, r.st, l ++ r.log⟩ := rfl

@[simp] theorem logged_error (l : List ω) (e : ε) :
    logged l (.error e : Except ε (Ret ω σ α)) = .error e := rfl

@[simp] theorem logged_nil (x : Except ε (Ret ω σ α)) : logged [] x = x := by
  cases x <;> rfl

theorem bind_run (m : Program ε ω σ α) (f : α → Program ε ω σ β) (s : σ) :
    (m >>= f).run s =
      match m.run s with
      | .error e => .error e
      | .ok r => logged r.log ((f r.val).run r.st) := rfl

theorem bind_run_ok (h : m.run s = .ok ⟨a, s', l⟩) :
    (m >>= f).run s = logged l ((f a).run s') := by
  rw [bind_run, h]

/-- A step without events. -/
theorem bind_run_nil (h : m.run s = .ok ⟨a, s', []⟩) : (m >>= f).run s = (f a).run s' := by
  rw [bind_run_ok h, logged_nil]

theorem bind_run_error (h : m.run s = .error e) : (m >>= f).run s = .error e := by
  rw [bind_run, h]

/-- A sequence that returns has passed through a state in the middle. -/
theorem bind_inv {r : Ret ω σ β} (h : (m >>= f).run s = .ok r) :
    ∃ a s' l r', m.run s = .ok ⟨a, s', l⟩ ∧ (f a).run s' = .ok r' ∧
      r = ⟨r'.val, r'.st, l ++ r'.log⟩ := by
  cases hm : m.run s with
  | error e =>
    rw [bind_run_error hm] at h
    cases h
  | ok x =>
    obtain ⟨a, s', l⟩ := x
    rw [bind_run_ok hm] at h
    cases hf : (f a).run s' with
    | error e =>
      rw [hf] at h
      cases h
    | ok r' =>
      rw [hf, logged_ok] at h
      cases h
      exact ⟨a, s', l, r', rfl, hf, rfl⟩

@[simp] theorem pure_run (a : α) (s : σ) :
    (pure a : Program ε ω σ α).run s = .ok ⟨a, s, []⟩ := (rfl)

@[simp] theorem get_bind (f : σ → Program ε ω σ β) (s : σ) :
    (get >>= f).run s = (f s).run s := by
  rw [bind_run_nil rfl]

@[simp] theorem modify_bind (g : σ → σ) (f : Unit → Program ε ω σ β) (s : σ) :
    (modify g >>= f).run s = (f ()).run (g s) := by
  rw [bind_run_nil rfl]

@[simp] theorem modify_run (g : σ → σ) (s : σ) :
    (modify g : Program ε ω σ Unit).run s = .ok ⟨(), g s, []⟩ := (rfl)

@[simp] theorem set_run (s s' : σ) : (set s' : Program ε ω σ Unit).run s = .ok ⟨(), s', []⟩ :=
  (rfl)

@[simp] theorem pure_bind (a : α) (f : α → Program ε ω σ β) (s : σ) :
    ((pure a : Program ε ω σ α) >>= f).run s = (f a).run s := by
  rw [bind_run_nil rfl]

theorem emit_bind (w : ω) (f : Unit → Program ε ω σ β) (s : σ) :
    (emit w >>= f).run s = logged [w] ((f ()).run s) := rfl

theorem reads_run {g : σ → Except ε α} (h : g s = .ok a) :
    (reads g : Program ε ω σ α).run s = .ok ⟨a, s, []⟩ := by
  simp only [run, reads, h]

theorem reads_run_error {g : σ → Except ε α} (h : g s = .error e) :
    (reads g : Program ε ω σ α).run s = .error e := by
  simp only [run, reads, h]

theorem reads_bind (g : σ → Except ε α) (f : α → Program ε ω σ β) (s : σ) :
    ((reads g : Program ε ω σ α) >>= f).run s = g s >>= fun a => (f a).run s := by
  cases h : g s with
  | ok a => exact bind_run_nil (reads_run h)
  | error e => exact bind_run_error (reads_run_error h)

theorem zoom_run {view : τ → σ} {put : σ → τ → τ} {t : τ} (h : m.run (view t) = .ok ⟨a, s', l⟩) :
    (zoom view put m).run t = .ok ⟨a, put s' t, l⟩ := by
  rw [run, zoom]
  simp only [h]

theorem zoom_run_error {view : τ → σ} {put : σ → τ → τ} {t : τ} (h : m.run (view t) = .error e) :
    (zoom view put m).run t = .error e := by
  rw [run, zoom]
  simp only [h]

end Run

/-- `Q` holds of a run that returns, `E` of the reason of one that stops. -/
def wp (m : Program ε ω σ α) (s : σ) (Q : α → σ → List ω → Prop) (E : ε → Prop) : Prop :=
  match m.run s with
  | .ok r => Q r.val r.st r.log
  | .error e => E e

section Rules

variable {m : Program ε ω σ α} {s : σ} {Q Q' : α → σ → List ω → Prop} {E E' : ε → Prop}

theorem wp_ok {r : Ret ω σ α} (h : m.run s = .ok r) : wp m s Q E = Q r.val r.st r.log := by
  simp only [wp, h]

theorem wp_error {e : ε} (h : m.run s = .error e) : wp m s Q E = E e := by
  simp only [wp, h]

/-- The postcondition of a run that is known to return. -/
theorem wp.of_ok {r : Ret ω σ α} (h : wp m s Q E) (hr : m.run s = .ok r) :
    Q r.val r.st r.log := by
  rwa [wp_ok hr] at h

theorem wp.of_error {e : ε} (h : wp m s Q E) (hr : m.run s = .error e) : E e := by
  rwa [wp_error hr] at h

theorem wp_intro (hok : ∀ r, m.run s = .ok r → Q r.val r.st r.log)
    (herr : ∀ e, m.run s = .error e → E e) : wp m s Q E := by
  cases h : m.run s with
  | ok r => rw [wp_ok h]; exact hok r h
  | error e => rw [wp_error h]; exact herr e h

/-- A program with no way to stop returns. -/
theorem wp.returns (h : wp m s Q (fun _ => False)) :
    ∃ r, m.run s = .ok r ∧ Q r.val r.st r.log := by
  cases hm : m.run s with
  | ok r => exact ⟨r, rfl, h.of_ok hm⟩
  | error e => exact (h.of_error hm).elim

theorem wp.mono (h : wp m s Q E) (hQ : ∀ a s' l, Q a s' l → Q' a s' l)
    (hE : ∀ e, E e → E' e) : wp m s Q' E' :=
  wp_intro (fun _ hr => hQ _ _ _ (h.of_ok hr)) (fun _ hr => hE _ (h.of_error hr))

theorem wp.imp (h : wp m s Q E) (hQ : ∀ a s' l, Q a s' l → Q' a s' l) : wp m s Q' E :=
  h.mono hQ fun _ he => he

theorem wp.and (h : wp m s Q E) (h' : wp m s Q' E') :
    wp m s (fun a s' l => Q a s' l ∧ Q' a s' l) (fun e => E e ∧ E' e) :=
  wp_intro (fun _ hr => ⟨h.of_ok hr, h'.of_ok hr⟩) (fun _ hr => ⟨h.of_error hr, h'.of_error hr⟩)

@[simp] theorem wp_pure (a : α) : wp (pure a : Program ε ω σ α) s Q E ↔ Q a s [] := Iff.rfl

@[simp] theorem wp_stop (e : ε) : wp (stop e : Program ε ω σ α) s Q E ↔ E e := Iff.rfl

@[simp] theorem wp_get {Q : σ → σ → List ω → Prop} :
    wp (get : Program ε ω σ σ) s Q E ↔ Q s s [] := Iff.rfl

@[simp] theorem wp_set {Q : Unit → σ → List ω → Prop} (s' : σ) :
    wp (set s' : Program ε ω σ Unit) s Q E ↔ Q () s' [] := Iff.rfl

@[simp] theorem wp_modify {Q : Unit → σ → List ω → Prop} (f : σ → σ) :
    wp (modify f : Program ε ω σ Unit) s Q E ↔ Q () (f s) [] := Iff.rfl

@[simp] theorem wp_emit {Q : Unit → σ → List ω → Prop} (w : ω) :
    wp (emit w : Program ε ω σ Unit) s Q E ↔ Q () s [w] := Iff.rfl

/-- Sequencing: the second program runs from what the first one leaves. -/
theorem wp_bind {f : α → Program ε ω σ β} {Q : β → σ → List ω → Prop} :
    wp (m >>= f) s Q E ↔
      wp m s (fun a s' l => wp (f a) s' (fun b s'' l' => Q b s'' (l ++ l')) E) E := by
  simp only [wp, bind_run]
  cases m.run s with
  | error e => exact Iff.rfl
  | ok r =>
    dsimp only
    cases (f r.val).run r.st with
    | error e => exact Iff.rfl
    | ok r' => exact Iff.rfl

theorem wp_ite {c : Prop} [Decidable c] {m' : Program ε ω σ α} :
    wp (if c then m else m') s Q E ↔ (c → wp m s Q E) ∧ (¬ c → wp m' s Q E) := by
  by_cases hc : c <;> simp [hc]

theorem wp_reads {f : σ → Except ε α} :
    wp (reads f : Program ε ω σ α) s Q E ↔
      (∀ a, f s = .ok a → Q a s []) ∧ (∀ e, f s = .error e → E e) := by
  cases h : f s with
  | ok a => simp [wp_ok (reads_run h)]
  | error e => simp [wp_error (reads_run_error h)]

theorem wp_zoom {view : τ → σ} {put : σ → τ → τ} {t : τ} {Q : α → τ → List ω → Prop} :
    wp (zoom view put m) t Q E ↔ wp m (view t) (fun a s' l => Q a (put s' t) l) E := by
  cases h : m.run (view t) with
  | ok r => rw [wp_ok (zoom_run h), wp_ok h]
  | error e => rw [wp_error (zoom_run_error h), wp_error h]

end Rules

/-- Every run of `m` from a state with `I` that returns ends in a state with `R`. -/
def Leads (I R : σ → Prop) (m : Program ε ω σ α) : Prop :=
  ∀ s, I s → wp m s (fun _ s' _ => R s') fun _ => True

namespace Leads

variable {I J R : σ → Prop} {m m' : Program ε ω σ α}

theorem of_ok (h : Leads I R m) {s : σ} {r : Ret ω σ α} (hs : I s) (hr : m.run s = .ok r) :
    R r.st := (h s hs).of_ok hr

theorem modify {f : σ → σ} (h : ∀ s, I s → R (f s)) :
    Leads I R (Program.modify f : Program ε ω σ Unit) := h

theorem bind {f : α → Program ε ω σ β} (hm : Leads I J m) (hf : ∀ a, Leads J R (f a)) :
    Leads I R (m >>= f) := fun s hs =>
  wp_bind.mpr ((hm s hs).imp fun a s' _ hs' => (hf a s' hs').imp fun _ _ _ h => h)

theorem weaken (h : Leads J R m) (hI : ∀ s, I s → J s) : Leads I R m := fun s hs => h s (hI s hs)

/-- The state that is got is the one the program goes on from. -/
theorem get_bind {f : σ → Program ε ω σ β} (h : ∀ s, I s → Leads (fun t => t = s) R (f s)) :
    Leads I R (Program.get >>= f) := fun s hs =>
  wp_bind.mpr ((h s hs s rfl).imp fun _ _ _ h => h)

/-- What is read comes from the state the program goes on from. -/
theorem reads_bind {g : σ → Except ε α} {f : α → Program ε ω σ β}
    (h : ∀ s a, I s → g s = .ok a → Leads (fun t => t = s) R (f a)) :
    Leads I R (Program.reads g >>= f) := fun s hs =>
  wp_bind.mpr (wp_reads.mpr
    ⟨fun a ha => (h s a hs ha s rfl).imp fun _ _ _ h => h, fun _ _ => trivial⟩)

theorem ite {c : Prop} [Decidable c] (h : c → Leads I R m) (h' : ¬ c → Leads I R m') :
    Leads I R (if c then m else m') := by
  split
  · exact h ‹_›
  · exact h' ‹_›

end Leads

/-- Every run of `m` that returns keeps `I`. -/
def Preserves (I : σ → Prop) (m : Program ε ω σ α) : Prop :=
  ∀ s, I s → wp m s (fun _ s' _ => I s') fun _ => True

namespace Preserves

variable {I : σ → Prop} {m m' : Program ε ω σ α}

theorem of_ok (h : Preserves I m) {s : σ} {r : Ret ω σ α} (hs : I s) (hr : m.run s = .ok r) :
    I r.st := (h s hs).of_ok hr

theorem pure (a : α) : Preserves I (Pure.pure a : Program ε ω σ α) := fun _ hs => hs

theorem get : Preserves I (Program.get : Program ε ω σ σ) := fun _ hs => hs

theorem stop (e : ε) : Preserves I (Program.stop e : Program ε ω σ α) := fun _ _ => trivial

theorem modify {f : σ → σ} (h : ∀ s, I s → I (f s)) :
    Preserves I (Program.modify f : Program ε ω σ Unit) := h

theorem reads (f : σ → Except ε α) : Preserves I (Program.reads f : Program ε ω σ α) :=
  fun _ hs => wp_reads.mpr ⟨fun _ _ => hs, fun _ _ => trivial⟩

theorem bind {f : α → Program ε ω σ β} (hm : Preserves I m) (hf : ∀ a, Preserves I (f a)) :
    Preserves I (m >>= f) := fun s hs =>
  wp_bind.mpr ((hm s hs).imp fun a s' _ hs' => (hf a s' hs').imp fun _ _ _ h => h)

/-- The state that is got meets the invariant. -/
theorem get_bind {f : σ → Program ε ω σ β} (h : ∀ s, I s → Preserves I (f s)) :
    Preserves I (Program.get >>= f) :=
  Leads.get_bind fun s hs => Leads.weaken (h s hs) fun _ ht => ht ▸ hs

/-- What is read comes from a state that meets the invariant. -/
theorem reads_bind {g : σ → Except ε α} {f : α → Program ε ω σ β}
    (h : ∀ s a, I s → g s = .ok a → Preserves I (f a)) : Preserves I (Program.reads g >>= f) :=
  Leads.reads_bind fun s a hs ha => Leads.weaken (h s a hs ha) fun _ ht => ht ▸ hs

theorem ite {c : Prop} [Decidable c] (h : c → Preserves I m) (h' : ¬ c → Preserves I m') :
    Preserves I (if c then m else m') := by
  split
  · exact h ‹_›
  · exact h' ‹_›

theorem zoom {view : τ → σ} {put : σ → τ → τ} {J : τ → Prop} (h : ∀ s' t, J t → J (put s' t)) :
    Preserves J (Program.zoom view put m) := fun t ht =>
  wp_zoom.mpr (wp_intro (fun r _ => h r.st t ht) fun _ _ => trivial)

end Preserves

/-- Every run of `m` keeps `I`, whether it returns or stops. -/
def Leaves (I : σ → Prop) (m : Program ε ω σ α) : Prop := ∀ s, I s → I (m.final s)

namespace Leaves

variable {I : σ → Prop} {m m' : Program ε ω σ α}

theorem of_ok (h : Leaves I m) {s : σ} {r : Ret ω σ α} (hs : I s) (hr : m.run s = .ok r) :
    I r.st := m.final_eq s r hr ▸ h s hs

theorem pure (a : α) : Leaves I (Pure.pure a : Program ε ω σ α) := fun _ hs => hs

theorem get : Leaves I (Program.get : Program ε ω σ σ) := fun _ hs => hs

theorem stop (e : ε) : Leaves I (Program.stop e : Program ε ω σ α) := fun _ hs => hs

theorem emit (w : ω) : Leaves I (Program.emit w : Program ε ω σ Unit) := fun _ hs => hs

theorem modify {f : σ → σ} (h : ∀ s, I s → I (f s)) :
    Leaves I (Program.modify f : Program ε ω σ Unit) := h

theorem reads (f : σ → Except ε α) : Leaves I (Program.reads f : Program ε ω σ α) :=
  fun _ hs => hs

theorem bind {f : α → Program ε ω σ β} (hm : Leaves I m) (hf : ∀ a, Leaves I (f a)) :
    Leaves I (m >>= f) := by
  intro s hs
  change I (match m.run s with
    | .error _ => m.final s
    | .ok r => (f r.val).final r.st)
  cases hr : m.run s with
  | error e => exact hm s hs
  | ok r => exact hf r.val r.st (hm.of_ok hs hr)

theorem ite {c : Prop} [Decidable c] (h : c → Leaves I m) (h' : ¬ c → Leaves I m') :
    Leaves I (if c then m else m') := by
  split
  · exact h ‹_›
  · exact h' ‹_›

end Leaves

end Program

end Ece344Lab.Library
