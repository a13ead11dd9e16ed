import Ece344Lab.Threads.Locks

/-!
# Wakeups of condition variables

A history of each `cv_wait`: which threads have acquired the lock since the waiter released it,
and whether one of them has then signalled or broadcast. A waiter that was meant does not sleep
on, unless the wakeup came while it was between its `lock_release` and its `thread_sleep`.
-/
namespace Ece344Lab.Threads

open Library (IsChain System)

/-- `acquired a b`: in the `cv_wait` that `a` is in, `b` has acquired the lock since `a` released
it. `heard a`: a broadcast of such a thread, or its signal with `a` the only waiter, is complete. -/
structure Watch where
  acquired : Nat → Nat → Prop
  heard : Nat → Prop

/-- In `cv_wait(cv, lock)`, past its `lock_release`. -/
def InWait (s : Sync) (p cv lock : Nat) : Prop :=
  s.pc p = .waitSleep cv lock ∨ s.pc p = .waitAcquire cv lock ∨
    s.pc p = .acquiring (some cv) lock ∨ s.pc p = .leaving (some cv) lock

/-- The waiter `a` is meant by the step. -/
def Hears (s : Sync) (w : Watch) : Op → Nat → Prop
  | .broadcast cv, a => w.acquired a s.self ∧ ∃ lock, InWait s a cv lock
  | .signal cv, a => w.acquired a s.self ∧ (∃ lock, InWait s a cv lock) ∧
      ∀ p, (∃ lock, InWait s p cv lock) → p = a
  | _, _ => False

def Watch.next (w : Watch) (s : Sync) (op : Op) : Watch :=
  match op with
  | .wait _ _ => ⟨fun a b => a ≠ s.self ∧ w.acquired a b, fun a => a ≠ s.self ∧ w.heard a⟩
  | .leave => { w with acquired := fun a b => w.acquired a b ∨ b = s.self ∧ a ≠ b ∧
      ∃ wait cv lock, s.pc s.self = .leaving wait lock ∧ InWait s a cv lock }
  | op => { w with heard := fun a => w.heard a ∨ Hears s w op a }

def watched : System (Sync × Watch) Op where
  start x := (∃ thread, x.1 = Sync.start thread) ∧ x.2 = ⟨fun _ _ => False, fun _ => False⟩
  step x op x' := Step x.1 op x'.1 ∧ x'.2 = x.2.next x.1 op

/-- No waiter is meant while it is between its `lock_release` and its `thread_sleep`. -/
def Arrived (x : Sync × Watch) (op : Op) : Prop :=
  ∀ a, Hears x.1 x.2 op a → ∀ cv lock, x.1.pc a ≠ .waitSleep cv lock

/-- A waiter that was meant has not yet to sleep and does not sleep. -/
structure Awake (x : Sync × Watch) (L : Places) : Prop where
  queued : Queued x.1 L
  window : ∀ a, x.2.heard a → ∀ cv lock, x.1.pc a ≠ .waitSleep cv lock
  awake : ∀ a, x.2.heard a → ∀ cv, a ∉ L (.waiting (cvQueue cv))

variable {s s' : Sync} {w : Watch} {L L' : Places} {op : Op}

theorem heard_next {a : Nat} (h : (w.next s op).heard a) :
    (w.heard a ∧ ∀ cv lock, op = .wait cv lock → a ≠ s.self) ∨ Hears s w op a := by
  cases op with
  | wait cv lock => exact .inl ⟨h.2, fun _ _ _ => h.1⟩
  | leave => exact .inl ⟨h, nofun⟩
  | _ => exact h.imp_left fun h => ⟨h, nofun⟩

/-- A thread in the queue of a condition variable is in a `cv_wait` on it, and on no other. -/
theorem inWait_cv {a cv cv' lock : Nat} (queued : Queued s L)
    (ha : a ∈ L (.waiting (cvQueue cv'))) (h : InWait s a cv lock) : cv' = cv := by
  obtain ⟨lock', hpc⟩ := queued.cv_queue cv' a ha
  rcases h with h | h | h | h <;> rw [hpc] at h <;> cases h
  rfl

/-- A queue whose threads are all `a` and that holds `a` holds nothing else. -/
theorem eq_singleton {l : List Nat} {a : Nat} (nodup : l.Nodup) (ha : a ∈ l)
    (h : ∀ p ∈ l, p = a) : l = [a] := by
  cases l with
  | nil => cases ha
  | cons p l =>
    obtain rfl := h p List.mem_cons_self
    cases l with
    | nil => rfl
    | cons q l =>
      have hq := h q (List.mem_cons_of_mem _ List.mem_cons_self)
      rw [List.nodup_cons, hq] at nodup
      exact absurd List.mem_cons_self nodup.1

/-- A wakeup that means `a` leaves it in no queue of a condition variable. -/
theorem notMem_of_hears {a cv : Nat} (queued : Queued s L) (advances : Advances s L op s' L')
    (h : Hears s w op a) : a ∉ L' (.waiting (cvQueue cv)) := by
  intro ha
  have hold : a ∈ L (.waiting (cvQueue cv)) := by
    rcases advances.asleep cv a ha with hold | ⟨rfl, -⟩
    · exact hold
    · cases h
  cases op with
  | broadcast cv₀ =>
    obtain ⟨-, lock, hin⟩ := h
    cases inWait_cv queued hold hin
    rw [advances.broadcast cv rfl] at ha
    cases ha
  | signal cv₀ =>
    obtain ⟨-, ⟨lock, hin⟩, honly⟩ := h
    cases inWait_cv queued hold hin
    have hall : ∀ p ∈ L (.waiting (cvQueue cv)), p = a := by
      intro p hp
      obtain ⟨lock', hpc⟩ := queued.cv_queue cv p hp
      exact honly p ⟨lock', .inr (.inl hpc)⟩
    have hone := eq_singleton (queued.rep.linked.partitioned.nodup _) hold hall
    rw [advances.signal cv a rfl hone] at ha
    cases ha
  | _ => cases h

/-- One step under which every waiter that is meant has arrived at its `thread_sleep`. -/
theorem awake_step {x x' : Sync × Watch} (awake : Awake x L) (step : watched.step x op x')
    (arrived : Arrived x op) : ∃ L', Awake x' L' := by
  obtain ⟨s, w⟩ := x
  obtain ⟨s', w'⟩ := x'
  obtain ⟨hstep, rfl⟩ : Step s op s' ∧ w' = w.next s op := step
  obtain ⟨L', advances⟩ := step_advances awake.queued hstep
  refine ⟨L', advances.queued, fun a ha cv lock hpc => ?_, fun a ha cv hmem => ?_⟩
  · -- only `cv_wait` enters the window, and it begins a new history
    have ha : (w.next s op).heard a := ha
    have hbefore : s.pc a ≠ .waitSleep cv lock := by
      rcases heard_next ha with ⟨hold, -⟩ | hnew
      · exact awake.window a hold cv lock
      · exact arrived a hnew cv lock
    by_cases hself : a = s.self
    · subst hself
      rcases advances.window cv lock hpc with h | rfl
      · exact hbefore h
      · rcases heard_next ha with ⟨-, hne⟩ | hnew
        · exact hne cv lock rfl rfl
        · cases hnew
    · have h : s'.pc a = s.pc a := advances.pc a hself
      exact hbefore (h ▸ hpc)
  · rcases heard_next ha with ⟨hold, -⟩ | hnew
    · rcases advances.asleep cv a hmem with h | ⟨-, rfl, lock, hpc⟩
      · exact awake.awake a hold cv h
      · exact awake.window _ hold cv lock hpc
    · exact notMem_of_hears awake.queued advances hnew hmem

/-- In every run in which no waiter is meant between its `lock_release` and its `thread_sleep`. -/
theorem awake_run {ops : List Op} {x : Sync × Watch} (run : (watched.restrict Arrived).Run ops x) :
    ∃ L, Awake x L := by
  refine run.invariant_state (I := fun x => ∃ L, Awake x L) ?_ ?_
  · rintro ⟨s, w⟩ ⟨⟨thread, hs⟩, hw⟩
    obtain rfl : s = Sync.start thread := hs
    obtain rfl : w = ⟨fun _ _ => False, fun _ => False⟩ := hw
    obtain ⟨⟨L, queued⟩, -⟩ := start_inv thread
    exact ⟨L, queued, nofun, nofun⟩
  · rintro x op x' ⟨L, awake⟩ ⟨step, arrived⟩
    exact awake_step awake step arrived

/-- No waiter that was meant goes on to sleep or sleeps on, in every run in which no waiter is
meant between its `lock_release` and its `thread_sleep`. -/
theorem wakeup_not_lost {ops : List Op} {x : Sync × Watch}
    (run : (watched.restrict Arrived).Run ops x) :
    ∀ a cv, x.2.heard a → ¬ Asleep x.1.machine (cvQueue cv) a := by
  obtain ⟨L, awake⟩ := awake_run run
  exact fun a cv ha h => awake.awake a ha cv (h.mem awake.queued.rep)

theorem arrived_next {ops : List Op} (run : (watched.restrict Arrived).Run ops (s, w))
    (step : Step s op s') (arrived : Arrived (s, w) op) :
    (watched.restrict Arrived).Run (ops ++ [op]) (s', w.next s op) := run.next ⟨⟨step, rfl⟩, arrived⟩

/-- Between `lock_release` and `thread_sleep`. -/
def Pc.inWindow : Pc → Bool
  | .waitSleep _ _ => true
  | _ => false

/-- When no thread at all is in the window. -/
theorem arrived_of_run {ops : List Op} (run : (watched.restrict Arrived).Run ops (s, w))
    (h : ∀ a < s.machine.allocated, (s.pc a).inWindow = false) : Arrived (s, w) op := by
  obtain ⟨L, awake⟩ := awake_run run
  intro a _ cv lock hpc
  have hpc : s.pc a = .waitSleep cv lock := hpc
  by_cases ha : a < s.machine.allocated
  · have hout := h a ha
    rw [hpc] at hout
    cases hout
  · rw [awake.queued.fresh a (Nat.not_lt.1 ha)] at hpc
    cases hpc

/-- The initial thread sleeps in its `cv_wait` before a second thread acquires the lock and
broadcasts. -/
theorem wakeup_not_lost_slept : ∃ x : Sync × Watch, x.2.heard 0 ∧
    ¬ Asleep x.1.machine (cvQueue 0) 0 := by
  have created := arrived_next (.start ⟨⟨_, rfl⟩, rfl⟩ :
    (watched.restrict Arrived).Run [] (Sync.initial, _))
    (.call rfl trivial (perform_after (by decide +kernel)) : Step _ (.call .create) _)
    fun _ h => h.elim
  have acquiring := arrived_next created (.acquire rfl rfl : Step _ (.acquire 0) _) fun _ h => h.elim
  have taken := arrived_next acquiring
    (.take (by decide +kernel : _ = Pc.acquiring none 0) (by decide +kernel)) fun _ h => h.elim
  have held := arrived_next taken (.leave (by decide +kernel : _ = Pc.leaving none 0))
    fun _ h => h.elim
  have waiting := arrived_next held (.wait (by decide +kernel) (by decide +kernel)
    (perform_after (by decide +kernel)) : Step _ (.wait 0 0) _) fun _ h => h.elim
  have asleep := arrived_next waiting (.sleep (by decide +kernel : _ = Pc.waitSleep 0 0)
    (perform_after (by decide +kernel))) fun _ h => h.elim
  have acquiring' := arrived_next asleep
    (.acquire (by decide +kernel) (by decide +kernel) : Step _ (.acquire 0) _) fun _ h => h.elim
  have taken' := arrived_next acquiring'
    (.take (by decide +kernel : _ = Pc.acquiring none 0) (by decide +kernel)) fun _ h => h.elim
  have held' := arrived_next taken' (.leave (by decide +kernel : _ = Pc.leaving none 0))
    fun _ h => h.elim
  have sent := arrived_next held' (.broadcast (by decide +kernel)
    (perform_after (by decide +kernel)) : Step _ (.broadcast 0) _)
    (arrived_of_run held' (by decide +kernel))
  have awake := wakeup_not_lost sent 0 0
  refine ⟨_, ?_, awake ?_⟩
  all_goals exact .inr ⟨.inr ⟨by decide +kernel, by decide +kernel, none, 0, 0, by decide +kernel,
    .inr (.inl (by decide +kernel))⟩, 0, .inr (.inl (by decide +kernel))⟩

theorem watched_next {ops : List Op} (run : watched.Run ops (s, w)) (step : Step s op s') :
    watched.Run (ops ++ [op]) (s', w.next s op) := run.next ⟨step, rfl⟩

/-- The initial thread is preempted between `lock_release` and `thread_sleep` of its `cv_wait`, a
second thread acquires the lock and broadcasts, and the initial thread goes to sleep after that. -/
theorem preempted_wait_sleeps : ¬ ∀ ops x, watched.Run ops x →
    ∀ a cv, x.2.heard a → ¬ Asleep x.1.machine (cvQueue cv) a := by
  intro h
  have created := watched_next (.start ⟨⟨_, rfl⟩, rfl⟩ : watched.Run [] (Sync.initial, _))
    (.call rfl trivial (perform_after (by decide +kernel)) : Step _ (.call .create) _)
  have acquiring := watched_next created (.acquire rfl rfl : Step _ (.acquire 0) _)
  have taken := watched_next acquiring
    (.take (by decide +kernel : _ = Pc.acquiring none 0) (by decide +kernel))
  have held := watched_next taken (.leave (by decide +kernel : _ = Pc.leaving none 0))
  have waiting := watched_next held (.wait (by decide +kernel) (by decide +kernel)
    (perform_after (by decide +kernel)) : Step _ (.wait 0 0) _)
  have preempted := watched_next waiting
    (.preempt (by decide +kernel) (perform_after (by decide +kernel)))
  have acquiring' := watched_next preempted
    (.acquire (by decide +kernel) (by decide +kernel) : Step _ (.acquire 0) _)
  have taken' := watched_next acquiring'
    (.take (by decide +kernel : _ = Pc.acquiring none 0) (by decide +kernel))
  have held' := watched_next taken' (.leave (by decide +kernel : _ = Pc.leaving none 0))
  have sent := watched_next held' (.broadcast (by decide +kernel)
    (perform_after (by decide +kernel)) : Step _ (.broadcast 0) _)
  have back := watched_next sent (.preempt (by decide +kernel) (perform_after (by decide +kernel)))
  have asleep := watched_next back (.sleep (by decide +kernel : _ = Pc.waitSleep 0 0)
    (perform_after (by decide +kernel)))
  refine h _ _ asleep 0 0 (.inl (.inl (.inr ⟨.inr ⟨by decide +kernel, by decide +kernel, none, 0, 0,
    by decide +kernel, .inl (by decide +kernel)⟩, 0, .inl (by decide +kernel)⟩)))
    (asleep_first (by decide +kernel) (by decide +kernel))

end Ece344Lab.Threads
