import Ece344Lab.Threads.Arguments
import Ece344Lab.Threads.Switching

/-!
# The threads marked for destruction

`thread_exit` of another thread sets its `flag`; the thread terminates when it next examines the
flag. Until then it stands in its list, and `thread_exit` takes no notice of a flag that is set.
-/
namespace Ece344Lab.Threads

open Library (System)

variable {m m' : Machine} {L : Places} {call : Call} {tid : Tid} {p : Nat}

namespace Machine

/-- The thread that `thread_exit` of another thread finds. -/
def target (m : Machine) (tid : Tid) : Option Nat :=
  if tid = THREAD_ANY then m.readyList.head?
  else m.readyList.find? fun p => (m.thread p).tid == tid

def victim (m : Machine) : Call → Option Nat
  | .exit tid => if tid = THREAD_SELF then none else m.target tid
  | _ => none

def Marked (m : Machine) (p : Nat) : Prop := p < m.allocated ∧ (m.thread p).flag = true

end Machine

/-- The thread that the call finds is not marked yet. -/
def Fresh (m : Machine) (tid : Tid) : Prop :=
  ∀ p, m.target tid = some p → (m.thread p).flag = false

/-- A machine with the threads that were marked, one entry for each successful call. -/
structure Destroying where
  machine : Machine
  marked : List Nat

/-- Every call with every argument, as long as it comes back. `malloc` does not fail. -/
def destroying : System Destroying Call where
  start s := (∃ thread, s.machine = Machine.threadInit thread) ∧ s.marked = []
  step s call s' := s.machine.perform call = .ok (some s'.machine) ∧
    s'.marked = s.marked ++ (s.machine.victim call).toList

/-- The arguments are handled, and the marks are not examined too early. -/
def Handled (s : Destroying) (call : Call) : Prop := Sound s.machine call

/-- Besides, the call marks no thread again. -/
def MarksFresh (s : Destroying) (call : Call) : Prop :=
  Handled s call ∧ ∀ tid, tid ≠ THREAD_SELF → call = .exit tid → Fresh s.machine tid

/-- `thread_exit` of another thread returns the identifier of a live thread that is not marked,
and `THREAD_NONE` when there is none left for `THREAD_ANY`. -/
structure ExitsAnother (s : Destroying) (tid : Tid) : Prop where
  another : ∀ v m', s.machine.threadExit tid = .ok (some v, m') → 0 ≤ v →
    ∃ p, s.machine.Live p ∧ (s.machine.thread p).tid = v ∧ p ∉ s.marked
  none : tid = THREAD_ANY → (∀ p ∈ s.machine.readyList, p ∈ s.marked) →
    s.machine.threadExit tid = .ok (some THREAD_NONE, s.machine)

section Target

theorem Rep.target_mem (rep : Rep m L) (h : m.target tid = some p) : p ∈ L .ready := by
  rw [← rep.readyList]
  rw [Machine.target] at h
  split_ifs at h
  · exact List.mem_of_mem_head? h
  · exact List.mem_of_find?_eq_some h

theorem threadExit_target (rep : Rep m L) (h : m.target tid = some p) : m.threadExit tid =
    .ok (some (m.thread p).tid, m.modify p fun t => { t with flag := true }) := by
  have hmem := rep.target_mem h
  rw [Machine.target, rep.readyList] at h
  split_ifs at h with hany
  · obtain ⟨rest, hready⟩ := List.head?_eq_some_iff.1 h
    rw [hany, threadExit_any_cons rep hready]
  · obtain rfl : (m.thread p).tid = tid := by simpa using List.find?_some h
    exact threadExit_tid rep hmem

theorem target_any_none (rep : Rep m L) (h : m.target THREAD_ANY = none) :
    m.threadExit THREAD_ANY = .ok (some THREAD_NONE, m) := by
  rw [Machine.target, if_pos rfl, rep.readyList] at h
  exact threadExit_any_nil rep (List.head?_eq_none_iff.1 h)

/-- A call that finds no thread fails or does not come back. -/
theorem threadExit_no_target (rep : Rep m L) (hself : tid ≠ THREAD_SELF)
    (h : m.target tid = none) {r : Option Tid × Machine} (hr : m.threadExit tid = .ok r) :
    ∃ v, (v = THREAD_INVALID ∨ v = THREAD_NONE) ∧ r = (some v, m) := by
  by_cases hany : tid = THREAD_ANY
  · subst hany
    rw [target_any_none rep h] at hr
    exact ⟨THREAD_NONE, .inr rfl, (Except.ok.inj hr).symm⟩
  · have hready : ¬ ReadyTid m tid := by
      intro hready
      obtain ⟨p, hp, htid⟩ := hready.mem rep
      rw [Machine.target, if_neg hany, rep.readyList] at h
      have hno := List.find?_eq_none.1 h p hp
      simp [htid] at hno
    by_cases handled : ExitHandled m tid
    · obtain ⟨v, hv, heq⟩ := ((exitSafe_iff rep).2 handled).fails hany hself hready
      rw [heq] at hr
      exact ⟨v, hv, (Except.ok.inj hr).symm⟩
    · obtain ⟨crash, heq, -⟩ := threadExit_lost rep handled
      rw [heq] at hr
      cases hr

end Target

section Flags

theorem Keeps.marked (h : Keeps m m') (p : Nat) : m'.Marked p ↔ m.Marked p := by
  rw [Machine.Marked, Machine.Marked, h.allocated, h.flag]

/-- Marks stay, and only `thread_exit` of another thread sets one. -/
def MarksKept (m : Machine) (call : Call) (m' : Machine) : Prop :=
  ∀ p, m'.Marked p ↔ m.Marked p ∨ m.victim call = some p

theorem marksKept_of_keeps (h : Keeps m m') (hv : m.victim call = none) : MarksKept m call m' := by
  intro p
  rw [h.marked, hv]
  simp

theorem ComesBack.marksKept (h : ComesBack m call) (hv : m.victim call = none)
    (hr : m.perform call = .ok (some m')) : MarksKept m call m' := by
  obtain ⟨L', -, keeps⟩ := h.returns hr
  exact marksKept_of_keeps keeps hv

theorem marksKept_create (rep : Rep m L) (h : m.perform .create = .ok (some m')) :
    MarksKept m .create m' := by
  rw [Machine.perform] at h
  cases hid : m.assignThreadId with
  | none =>
    rw [threadCreate_none hid] at h
    cases h
    exact marksKept_of_keeps (Keeps.refl m) rfl
  | some new_id =>
    obtain ⟨m₁, heq, -, hallocated, hnew, hflag, -⟩ := threadCreate_spec rep hid
    rw [heq] at h
    cases h
    intro p
    rw [Machine.Marked, Machine.Marked, hallocated]
    simp only [Machine.victim, reduceCtorEq, or_false]
    constructor
    · rintro ⟨hp, hpf⟩
      rcases Nat.lt_succ_iff_lt_or_eq.1 hp with hp | rfl
      · exact ⟨hp, hflag p hp ▸ hpf⟩
      · rw [hnew] at hpf
        cases hpf
    · rintro ⟨hp, hpf⟩
      exact ⟨Nat.lt_succ_of_lt hp, (hflag p hp).trans hpf⟩

theorem marked_mark (hp : p < m.allocated) (q : Nat) :
    (m.modify p fun t => { t with flag := true }).Marked q ↔ m.Marked q ∨ some p = some q := by
  rw [Machine.Marked, Machine.Marked]
  by_cases hq : q = p
  · subst hq
    rw [modify_self]
    exact iff_of_true ⟨hp, rfl⟩ (.inr rfl)
  · rw [modify_of_ne hq]
    simp [Machine.modify, Ne.symm hq]

theorem marksKept_exit (rep : Rep m L) (hself : tid ≠ THREAD_SELF)
    (h : m.perform (.exit tid) = .ok (some m')) : MarksKept m (.exit tid) m' := by
  rw [Machine.perform] at h
  have hv : m.victim (.exit tid) = m.target tid := if_neg hself
  cases ht : m.target tid with
  | some p =>
    rw [threadExit_target rep ht] at h
    cases h
    intro q
    rw [hv, ht]
    exact marked_mark (rep.held .ready p (rep.target_mem ht)).1 q
  | none =>
    cases hr : m.threadExit tid with
    | error crash =>
      rw [hr] at h
      cases h
    | ok r =>
      obtain ⟨v, -, rfl⟩ := threadExit_no_target rep hself ht hr
      rw [hr] at h
      cases h
      exact marksKept_of_keeps (Keeps.refl m) (hv.trans ht)

/-- The marks after a call that handles its argument. -/
theorem perform_marks (rep : Rep m L) (sound : Sound m call)
    (h : m.perform call = .ok (some m')) : MarksKept m call m' := by
  have hcases := sound.cases rep h
  cases call with
  | create => exact marksKept_create rep h
  | yield want_tid =>
    rcases hcases with rfl | ⟨allowed, clean⟩
    · exact marksKept_of_keeps (Keeps.refl m') rfl
    · exact (perform_yield rep (allowed.resolve_right id) clean).marksKept rfl h
  | sleep queue => exact (perform_sleep rep sound).marksKept rfl h
  | wakeup queue all =>
    rcases hcases with rfl | ⟨allowed, -⟩
    · exact marksKept_of_keeps (Keeps.refl m') rfl
    · exact (perform_wakeup rep (allowed.resolve_right id)).marksKept rfl h
  | exit tid =>
    by_cases hself : tid = THREAD_SELF
    · subst hself
      have hv : m.victim (.exit THREAD_SELF) = none := by rw [Machine.victim, if_pos rfl]
      exact (perform_exit_self rep).marksKept hv h
    · exact marksKept_exit rep hself h
  | ret =>
    rcases perform_ret rep with ⟨hnone, -⟩ | hback
    · rw [hnone] at h
      cases h
    · exact hback.marksKept rfl h

end Flags

section Runs

variable {calls : List Call} {s : Destroying}

/-- A run with its history is a run of calls. -/
theorem calling_run (run : (destroying.restrict Handled).Run calls s) :
    (calling.restrict Sound).Run calls s.machine := by
  induction run with
  | start h => exact .start h.1
  | next _ h ih => exact ih.next ⟨h.1.1, h.2⟩

/-- The history holds the threads whose flag is set. -/
theorem marked_iff_flag (run : (destroying.restrict Handled).Run calls s) (p : Nat) :
    p ∈ s.marked ↔ s.machine.Marked p := by
  induction run generalizing p with
  | start h =>
    obtain ⟨⟨thread, hm⟩, hmarked⟩ := h
    rw [hmarked, hm]
    refine iff_of_false List.not_mem_nil fun hp => ?_
    rw [Machine.Marked, unmarked_threadInit thread p hp.1] at hp
    cases hp.2
  | next run h ih =>
    obtain ⟨⟨hstep, hmarked⟩, sound⟩ := h
    obtain ⟨⟨L, rep⟩, -⟩ := sound_rep (calling_run run)
    rw [hmarked, perform_marks rep sound hstep, List.mem_append, ih, Option.mem_toList]

/-- With every call fresh, no thread is marked twice. -/
theorem marked_nodup (run : (destroying.restrict MarksFresh).Run calls s) :
    (destroying.restrict Handled).Run calls s ∧ s.marked.Nodup := by
  induction run with
  | start h => exact ⟨.start h, by rw [h.2]; exact List.nodup_nil⟩
  | @next calls s s' call _ h ih =>
    obtain ⟨⟨hstep, hmarked⟩, sound, hfresh⟩ := h
    obtain ⟨run, hnodup⟩ := ih
    refine ⟨run.next ⟨⟨hstep, hmarked⟩, sound⟩, ?_⟩
    rw [hmarked]
    cases hv : s.machine.victim call with
    | none => rwa [Option.toList_none, List.append_nil]
    | some p =>
      have hnew : p ∉ s.marked := by
        rw [marked_iff_flag run]
        rintro ⟨-, hflag⟩
        cases call with
        | exit tid =>
          rw [Machine.victim] at hv
          split_ifs at hv with hself
          rw [hfresh tid hself rfl p hv] at hflag
          cases hflag
        | _ => cases hv
      rw [Option.toList_some, List.nodup_append]
      refine ⟨hnodup, List.nodup_singleton p, fun q hq r hr heq => ?_⟩
      rw [List.mem_singleton] at hr
      exact hnew (hr ▸ heq ▸ hq)

theorem exitsAnother_iff (rep : Rep s.machine L)
    (marked : ∀ p, p ∈ s.marked ↔ s.machine.Marked p) (hself : tid ≠ THREAD_SELF) :
    ExitsAnother s tid ↔ Fresh s.machine tid := by
  constructor
  · intro exits p ht
    by_contra hflag
    have hready := rep.target_mem ht
    have hlive := rep.live_of_mem (by decide) hready
    obtain ⟨q, hq, htid, hnew⟩ := exits.another _ _ (threadExit_target rep ht)
      (rep.tids.bound p hlive).1
    obtain rfl := rep.tids.unique q p hq hlive htid
    exact hnew ((marked q).2 ⟨hq.1, by simpa using hflag⟩)
  · refine fun fresh => ⟨fun v m' hr hv => ?_, fun hany hall => ?_⟩
    · cases ht : s.machine.target tid with
      | some p =>
        have hready := rep.target_mem ht
        rw [threadExit_target rep ht] at hr
        cases hr
        refine ⟨p, rep.live_of_mem (by decide) hready, rfl, fun hp => ?_⟩
        have hflag := ((marked p).1 hp).2
        rw [fresh p ht] at hflag
        cases hflag
      | none =>
        obtain ⟨w, hw, heq⟩ := threadExit_no_target rep hself ht hr
        cases heq
        rcases hw with rfl | rfl <;> exact absurd hv (by decide)
    · cases ht : s.machine.target tid with
      | some p =>
        have hp := hall p (by rw [rep.readyList]; exact rep.target_mem ht)
        have hflag := ((marked p).1 hp).2
        rw [fresh p ht] at hflag
        cases hflag
      | none =>
        rw [hany] at ht ⊢
        exact target_any_none rep ht

/-- In every run that keeps its queues, `thread_exit` of another thread does as it promises exactly
when the thread it finds is not marked yet; when all its calls are such, no thread is marked
twice. -/
theorem exits_another (run : (destroying.restrict Handled).Run calls s) :
    (∀ tid, tid ≠ THREAD_SELF → (ExitsAnother s tid ↔ Fresh s.machine tid)) ∧
      ((destroying.restrict MarksFresh).Run calls s → s.marked.Nodup) := by
  obtain ⟨⟨L, rep⟩, -⟩ := sound_rep (calling_run run)
  exact ⟨fun tid hself => exitsAnother_iff rep (marked_iff_flag run) hself,
    fun run => (marked_nodup run).2⟩

theorem destroying_step (call : Call) {marked : List Nat} (l : List Nat)
    (returns : m.returns call = true) (h : l = marked ++ (m.victim call).toList) :
    destroying.step ⟨m, marked⟩ call ⟨m.after call, l⟩ :=
  ⟨perform_after returns, h⟩

/-- A thread is created, and can be destroyed. -/
theorem exits_another_created : ExitsAnother ⟨initial.after .create, []⟩ THREAD_ANY := by
  have start : (destroying.restrict Handled).Run [] ⟨initial, []⟩ := .start ⟨⟨_, rfl⟩, rfl⟩
  have step : destroying.step ⟨initial, []⟩ .create ⟨initial.after .create, []⟩ :=
    destroying_step .create [] (by decide +kernel) rfl
  have sound : Handled ⟨initial, []⟩ .create := trivial
  have hp : (initial.after .create).target THREAD_ANY = some 1 := by decide +kernel
  have hflag : ((initial.after .create).thread 1).flag = false := by decide +kernel
  have fresh : Fresh (initial.after .create) THREAD_ANY := fun p ht =>
    Option.some.inj (hp.symm.trans ht) ▸ hflag
  have exits := (exits_another (start.next ⟨step, sound⟩)).1 THREAD_ANY (by decide)
  dsimp only at exits
  exact exits.2 fresh

/-- `thread_exit(THREAD_ANY)` marks the only other thread, and again instead of returning
`THREAD_NONE`. -/
theorem exit_any_again : ¬ ∀ calls s, destroying.Run calls s → ∀ tid, tid ≠ THREAD_SELF →
    ExitsAnother s tid := by
  intro h
  have start : destroying.Run [] ⟨initial, []⟩ := .start ⟨⟨_, rfl⟩, rfl⟩
  have created := start.next (destroying_step .create [] (by decide +kernel) rfl)
  have marked := created.next (destroying_step (.exit THREAD_ANY) [1]
    (by decide +kernel) (by decide +kernel))
  obtain ⟨-, hnone⟩ := h _ _ marked THREAD_ANY (by decide)
  have hexit := hnone rfl (by decide +kernel)
  have hcode : (((initial.after .create).after (.exit THREAD_ANY)).threadExit THREAD_ANY).map
      Prod.fst = .ok (some 1) := by decide +kernel
  dsimp only at hexit
  rw [hexit] at hcode
  exact absurd hcode (by decide)

end Runs

end Ece344Lab.Threads
